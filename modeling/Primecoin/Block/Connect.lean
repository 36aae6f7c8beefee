import Primecoin.Block.Check
import Primecoin.Coins.Inputs
import Primecoin.Control.Stateful
import Primecoin.Prime.Target

/-!
# Connecting a block

`connectBlock` is `CBlock::ConnectBlock`. It works on a view of the coins at the parent block and
on the index entry of the block, on which it leaves marks even when it fails: the entry is the
state of a `Stateful` computation, and the view is handed back with the undo data.

The outcome of each disk access is a field of `ConnectIo`. The checks, the loop over the
transactions and the stages after it are separate definitions, each with a statement of what it
has established.
-/

namespace Primecoin

inductive IoResult
  | ok
  | fails
  | throws (message : String)
  deriving DecidableEq, Repr

def IoResult.orAbort (message : String) : IoResult → Except Failure Unit
  | .ok => .ok ()
  | .fails => .error (.abort message)
  | .throws what => .error (.exception what)

inductive UndoPosFailure
  | aborts (message : String)
  | throws (message : String)
  deriving DecidableEq, Repr

def UndoPosFailure.toFailure : UndoPosFailure → Failure
  | .aborts message => .abort message
  | .throws message => .exception message

structure CDiskTxPos where
  pos : CDiskBlockPos
  nTxOffset : ℕ
  deriving DecidableEq, Repr

/-- What is read besides the block, its index entry and the view. -/
structure ConnectContext where
  hash : Bytes → UInt256
  network : Network
  verifyScript : VerifyScript
  nScriptCheckThreads : ℕ
  fTxIndex : Bool
  nAdjustedTime : Int64
  tree : BlockTree

structure ConnectIo where
  writeMoneySupply : IoResult
  findUndoPos : Except UndoPosFailure UInt32
  writeUndo : IoResult
  writeBlockIndex : IoResult
  writeTxIndex : IoResult

/-- `WriteToDisk` of the undo data, which fails at a null position. -/
def ConnectIo.writeUndoAt (io : ConnectIo) (pos : CDiskBlockPos) : Except Failure Unit :=
  if pos.isNull then .error (.abort "Failed to write undo data")
  else io.writeUndo.orAbort "Failed to write undo data"

structure ConnectState where
  view : CCoinsView
  nSigOps : ℕ
  nFees : Int64
  nValueIn : Int64
  nValueOut : Int64
  vtxundo : List (List CTxInUndo)
  vChecks : List CScriptCheck
  pos : CDiskTxPos
  vPos : List (UInt256 × CDiskTxPos)

/-- The new view, the undo data, the positions for the transaction index, and the transactions
shown to the wallets. -/
structure Connected where
  view : CCoinsView
  vtxundo : List (List CTxInUndo)
  vPos : List (UInt256 × CDiskTxPos)
  synced : List (UInt256 × CTransaction)

namespace CBlock

variable (pindex : CBlockIndex)

/-- The two blocks that are allowed to overwrite transactions. -/
def isBip30Exempt : Bool :=
  (pindex.nHeight = 91842 && pindex.phashBlock =
    some 0x00000000000a4d0a398161ffc163c503763b1f4360639393e0e4c8e300e0caec) ||
  (pindex.nHeight = 91880 && pindex.phashBlock =
    some 0x00000000000743f190a18c5577a3c2d2a1f610ae9601ac046a38084ccb7cd721)

def txWithHashes (hash : Bytes → UInt256) (block : CBlock) : List (CTransaction × UInt256) :=
  block.vtx.zip (buildMerkleTree hash block.vtx)

def overwrites (hash : Bytes → UInt256) (block : CBlock) (view : CCoinsView) : Bool :=
  (block.txWithHashes hash).any fun tx => (view.coins tx.2).any fun coins => !coins.isPruned

def fStrictPayToScriptHash : Bool := 1333238400 ≤ pindex.nTime

def scriptFlags : UInt32 :=
  scriptVerifyNoCache |||
    (if fStrictPayToScriptHash pindex then scriptVerifyP2SH else scriptVerifyNone)

/-- The signature operations behind script hashes, counted once the rule is in
force. -/
def p2shSigOps (tx : CTransaction) (view : CCoinsView) : Except Failure ℕ :=
  if fStrictPayToScriptHash pindex then tx.getP2SHSigOpCount view else .ok 0

variable (context : ConnectContext)

section

variable (pindex : CBlockIndex) (tx : CTransaction) (st : ConnectState)

def tallyInputs : Except Failure ConnectState := do
  if !(← tx.haveInputs st.view) then
    .error (.dos 100 "ConnectBlock() : inputs missing/spent" false)
  else
    let nP2SH ← p2shSigOps pindex tx st.view
    if maxBlockSigops < st.nSigOps + nP2SH then
      .error (.dos 100 "ConnectBlock() : too many sigops" false)
    else
      let nTxValueIn ← tx.getValueIn st.view
      let nTxValueOut ← tx.getValueOut
      let vChecks ← tx.checkInputs context.verifyScript context.tree st.view
        (scriptFlags pindex) (context.nScriptCheckThreads ≠ 0)
      .ok { st with
        nSigOps := st.nSigOps + nP2SH
        nValueIn := st.nValueIn + nTxValueIn
        nValueOut := st.nValueOut + nTxValueOut
        nFees := st.nFees + (nTxValueIn - nTxValueOut)
        vChecks := st.vChecks ++ vChecks }

def tallyTransaction : Except Failure ConnectState :=
  if tx.isCoinBase then do
    let nValueOut ← tx.getValueOut
    .ok { st with nValueOut := st.nValueOut + nValueOut }
  else tallyInputs context pindex tx st

def connectTransaction (tx : CTransaction × UInt256) : Except Failure ConnectState := do
  let nSigOps := st.nSigOps + tx.1.getLegacySigOpCount
  if maxBlockSigops < nSigOps then
    .error (.dos 100 "ConnectBlock() : too many sigops" false)
  else
    let st ← tallyTransaction context pindex tx.1 { st with nSigOps := nSigOps }
    let (view, vprevout) ← tx.1.updateCoins st.view pindex.nHeight tx.2
    .ok { st with
      view := view
      vtxundo := if tx.1.isCoinBase then st.vtxundo else st.vtxundo ++ [vprevout]
      pos := { st.pos with nTxOffset := st.pos.nTxOffset + tx.1.getSerializeSize }
      vPos := st.vPos ++ [(tx.2, st.pos)] }

end

def connectStart (block : CBlock) (pindex : CBlockIndex) (view : CCoinsView) : ConnectState where
  view := view
  nSigOps := 0
  nFees := 0
  nValueIn := 0
  nValueOut := 0
  vtxundo := []
  vChecks := []
  pos := ⟨pindex.getBlockPos, getSizeOfCompactSize block.vtx.length⟩
  vPos := []

def connectTransactions (block : CBlock) (pindex : CBlockIndex)
    (view : CCoinsView) : Except Failure ConnectState :=
  if !isBip30Exempt pindex && block.overwrites context.hash view then
    .error (.dos 100 "ConnectBlock() : tried to overwrite transaction" false)
  else
    (block.txWithHashes context.hash).foldlM (connectTransaction context pindex)
      (connectStart block pindex view)

/-- `pindex->pprev ? pindex->pprev->nMoneySupply : 0` -/
def parentMoneySupply (tree : BlockTree) (pindex : CBlockIndex) : Except Failure Int64 :=
  match pindex.pprev with
  | none => .ok 0
  | some p =>
    match tree p with
    | none => .error (.fault "pindex->pprev->nMoneySupply")
    | some pprev => .ok pprev.nMoneySupply

variable (io : ConnectIo)

def recordMoneySupply (st : ConnectState) (fJustCheck : Bool) : Stateful CBlockIndex Failure Unit :=
  if fJustCheck then pure ()
  else do
    let pindex ← Stateful.get
    let nMoneySupply ← Stateful.lift (parentMoneySupply context.tree pindex)
    Stateful.modify fun pindex =>
      { pindex with nMoneySupply := nMoneySupply + st.nValueOut - st.nValueIn }
    Stateful.lift (io.writeMoneySupply.orAbort "Failed to write block index for moneysupply")

def rewardLimit (coinbase : CTransaction) (pindex : CBlockIndex) (nFees : Int64) : Int64 :=
  getBlockValue context.network pindex.nBits nFees - coinbase.getMinFee 1 false .block + minTxFee

variable (block : CBlock)

/-- The check of the coinbase and the wait for the script checks put off. -/
def checkReward (pindex : CBlockIndex) (st : ConnectState) : Except Failure Unit :=
  match block.vtx with
  | [] => .error (.fault "vtx[0]")
  | coinbase :: _ => do
      let nValueOut ← coinbase.getValueOut
      if rewardLimit context coinbase pindex st.nFees < nValueOut then
        .error (.dos 100 "ConnectBlock() : coinbase pays too much (actual=%s vs limit=%s)" false)
      else if !st.vChecks.all (CScriptCheck.run context.verifyScript) then
        .error (.dos 100 "" false)
      else .ok ()

def placeUndo : Stateful CBlockIndex Failure Unit := do
  let pindex ← Stateful.get
  if pindex.getUndoPos.isNull then
    let nPos ← Stateful.lift (io.findUndoPos.mapError UndoPosFailure.toFailure)
    if pindex.pprev = none then Stateful.lift (.error (.fault "pindex->pprev->GetBlockHash()"))
    else
      Stateful.lift (io.writeUndoAt ⟨pindex.nFile, nPos⟩)
      Stateful.modify fun pindex =>
        { pindex with nUndoPos := nPos, nStatus := pindex.nStatus ||| blockHaveUndo }
  else pure ()

def storeUndo : Stateful CBlockIndex Failure Unit := do
  let pindex ← Stateful.get
  if pindex.getUndoPos.isNull ∨ pindex.nStatus &&& blockValidMask < blockValidScripts then
    placeUndo io
    Stateful.modify fun pindex =>
      { pindex with nStatus := pindex.nStatus &&& ~~~blockValidMask ||| blockValidScripts }
    Stateful.lift (io.writeBlockIndex.orAbort "Failed to write block index")
  else pure ()

def storeTxIndex : Except Failure Unit :=
  if context.fTxIndex then io.writeTxIndex.orAbort "Failed to write transaction index" else .ok ()

def finishConnect
    (st : ConnectState) (fJustCheck : Bool) : Stateful CBlockIndex Failure Connected := do
  recordMoneySupply context io st fJustCheck
  let pindex ← Stateful.get
  Stateful.lift (checkReward context block pindex st)
  if fJustCheck then pure ⟨st.view, st.vtxundo, st.vPos, []⟩
  else
    storeUndo io
    Stateful.lift (storeTxIndex context io)
    pure ⟨st.view.setBestBlock pindex.phashBlock, st.vtxundo, st.vPos,
      (block.txWithHashes context.hash).map Prod.swap⟩

def connectBlock
    (view : CCoinsView) (fJustCheck : Bool) : Stateful CBlockIndex Failure Connected := do
  Stateful.lift (block.checkBlock context.hash context.nAdjustedTime (!fJustCheck) (!fJustCheck))
  let pindex ← Stateful.get
  if pindex.pprev ≠ view.best then
    Stateful.lift (.error (.assertion "pindex->pprev == view.GetBestBlock()"))
  else if block.getHash context.hash = hashGenesisBlock context.network then
    pure ⟨view.setBestBlock pindex.phashBlock, [], [], []⟩
  else
    let st ← Stateful.lift (connectTransactions context block pindex view)
    finishConnect context io block st fJustCheck

end CBlock

end Primecoin
