import Primecoin.Block.PartialMerkleProof
import Primecoin.Block.ScriptChecks
import Primecoin.Chain.HeightLookup
import Primecoin.Chain.MedianTime
import Primecoin.Chain.MoneySupply
import Primecoin.Chain.OrphanBlocks
import Primecoin.Chain.PoolFollows
import Primecoin.Coins.Amount
import Primecoin.Coins.Cache
import Primecoin.Disk.BufferedFile
import Primecoin.Disk.Positions
import Primecoin.Disk.Salvage
import Primecoin.Keys.EncryptWallet
import Primecoin.Net.MruSet
import Primecoin.Net.ProcessMessages
import Primecoin.Net.Receive
import Primecoin.Net.Relay
import Primecoin.Net.SelectTried
import Primecoin.Net.TimeOffset
import Primecoin.Pool.OrphanResolution
import Primecoin.Prime.ChainKinds
import Primecoin.Prime.Difficulty
import Primecoin.Prime.PrimeTable
import Primecoin.Script.CompressedForms
import Primecoin.Script.FindAndDelete
import Primecoin.Script.Interpreter
import Primecoin.Serialize.BigNum
import Primecoin.Serialize.VarInt
import Primecoin.Wallet.AmountHistory
import Primecoin.Wallet.CommitTransaction
import Primecoin.Wallet.KeyPool
import Primecoin.Wallet.Reorder
