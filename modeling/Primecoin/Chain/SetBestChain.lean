import Primecoin.Block.Disconnect
import Primecoin.Chain.Fork
import Primecoin.Pool.MemPool

/-!
# Moving the best block

`setBestChain` works on the state of the node: the block index, the coins at the tip, the best
block, the memory pool and the wallets. The coins are changed in a view which replaces the tip
when all blocks have been connected; then they are written to disk, and only then follow the links
of the index, the pool and the best block.

What the disk does is a field of `ChainIo`, with one entry for each block read or connected.
`InvalidBlockFound` may call `ConnectBestBlock`, which calls `SetBestChain` again; here it is the
parameter `reorganise`.
-/

namespace Primecoin

open Stateful
/-- The function returns `false`. -/
def Failure.isReturn : Failure → Bool
  | .dos _ _ _ => true
  | .invalid _ => true
  | .error _ => true
  | .abort _ => true
  | .exception _ => false
  | .assertion _ => false
  | .fault _ => false

/-- What `SetBestChain` and `ConnectBestBlock` work on. The wallets are of any type. -/
structure Node (W : Type) where
  mapBlockIndex : BlockTree
  pcoinsTip : CCoinsView
  pindexBest : Option UInt256
  mempool : CTxMemPool
  wallets : W
  setBlockIndexValid : List UInt256
  nBestInvalidWork : UInt256

/-- What does not change during a call. The trees and coins in `connect` and `pool` are replaced
by those of the node; `depth` bounds the recursion of `CTxMemPool::remove`. -/
structure ChainContext (W : Type) where
  keys : ECKeys
  connect : ConnectContext
  pool : PoolContext
  depth : ℕ
  syncWithWallets : W → UInt256 → CTransaction → Option CBlock → W
  setBestLocator : W → UInt256 → W

/-- What the disk does during a call, and the clock behind `IsInitialBlockDownload`. -/
structure ChainIo where
  readBlock : UInt256 → Option CBlock
  readUndo : UInt256 → Option Bytes
  connect : UInt256 → ConnectIo
  fInitialDownload : Bool
  fCacheFull : Bool
  fDiskSpace : Bool
  flush : IoResult

def ChainIo.readFromDisk (hash : Bytes → UInt256) (io : ChainIo) (h : UInt256) :
    Except Failure CBlock :=
  match io.readBlock h with
  | none => .error (.abort "Failed to read block")
  | some block =>
    if block.getHash hash ≠ h then .error (.abort "Failed to read block") else .ok block

theorem ChainIo.readBlock_of_readFromDisk {hash : Bytes → UInt256} {io : ChainIo} {h : UInt256}
    {block : CBlock} (hread : io.readFromDisk hash h = .ok block) :
    io.readBlock h = some block ∧ block.getHash hash = h := by
  rw [ChainIo.readFromDisk] at hread
  cases hblock : io.readBlock h with
  | none =>
    rw [hblock] at hread
    cases hread
  | some found =>
    simp only [hblock, Except.ite_error_eq_ok_iff, Except.ok.injEq, not_not] at hread
    obtain ⟨hhash, rfl⟩ := hread
    exact ⟨rfl, hhash⟩

variable (io : ChainIo) (pindexBest : Option UInt256)

def ChainIo.isInitialBlockDownload : Bool :=
  pindexBest.isNone || io.fInitialDownload

def ChainIo.flushNeeded : Bool :=
  !io.isInitialBlockDownload pindexBest || io.fCacheFull

def ChainIo.flushFails : Bool :=
  io.flushNeeded pindexBest && (!io.fDiskSpace || io.flush = .fails)

namespace Node

variable {W : Type}

section Model

variable (context : ChainContext W) (io : ChainIo)

def disconnectTip (tree : BlockTree) (view : CCoinsView) (h : UInt256) :
    Except Failure (CCoinsView × CBlock) := do
  let block ← io.readFromDisk context.connect.hash h
  match tree h with
  | none => .error (.fault "pindex")
  | some pindex =>
    let (view, fClean) ← block.disconnectBlock context.keys context.connect.hash pindex
      (io.readUndo h) view
    if fClean then .ok (view, block)
    else .error (.error "SetBestBlock() : DisconnectBlock %s failed")

def disconnectBranch (tree : BlockTree) :
    List UInt256 → CCoinsView → Except Failure (CCoinsView × List CTransaction)
  | [], view => .ok (view, [])
  | h :: vDisconnect, view => do
      let (view, block) ← disconnectTip context io tree view h
      let (view, vResurrect) ← disconnectBranch tree vDisconnect view
      .ok (view, vResurrect ++ block.vtx.filter fun tx => !tx.isCoinBase)

def connectFromDisk (tree : BlockTree) (view : CCoinsView) (h : UInt256) :
    Except Failure (CBlock × Connected) × BlockTree :=
  match io.readFromDisk context.connect.hash h, tree h with
  | .error failure, _ => (.error failure, tree)
  | .ok _, none => (.error (.fault "pindex"), tree)
  | .ok block, some pindex =>
    let (result, pindex) := (block.connectBlock { context.connect with tree := tree }
      (io.connect h) view false).run pindex
    (result.map fun connected => (block, connected), Function.update tree h (some pindex))

def syncBlock (wallets : W) (block : CBlock) (connected : Connected) : W :=
  connected.synced.foldl (fun wallets tx => context.syncWithWallets wallets tx.1 tx.2 (some block))
    wallets

def raiseInvalidWork (nChainWork : UInt256) (node : Node W) : Node W :=
  if node.nBestInvalidWork < nChainWork then { node with nBestInvalidWork := nChainWork } else node

/-- It prints the time of the best block without asking whether there is one. -/
def invalidChainFound (pindexNew : UInt256) : Stateful (Node W) Failure Unit := do
  let node ← get
  match node.mapBlockIndex pindexNew with
  | none => lift (.error (.fault "pindexNew"))
  | some pindex =>
    modify (raiseInvalidWork pindex.nChainWork)
    if node.pindexBest = none then lift (.error (.fault "pindexBest->GetBlockTime()"))
    else pure ()

def markFailed (flag : UInt32) (h : UInt256) (node : Node W) : Node W :=
  { node with
    mapBlockIndex := Function.update node.mapBlockIndex h
      ((node.mapBlockIndex h).map fun pindex => { pindex with nStatus := pindex.nStatus ||| flag }) }

def eraseValid (h : UInt256) (node : Node W) : Node W :=
  { node with setBlockIndexValid := node.setBlockIndexValid.filter (· ≠ h) }

variable (reorganise : Stateful (Node W) Failure Unit)

/-- The verdict of `ConnectBestBlock` is ignored. -/
def invalidBlockFound (h : UInt256) : Stateful (Node W) Failure Unit := do
  modify (markFailed blockFailedValid h)
  modify (eraseValid h)
  invalidChainFound h
  let node ← get
  if (node.mapBlockIndex.next h).isSome then reorganise.catchIf Failure.isReturn else pure ()

variable (state : CValidationState)

/-- A block that is not connected is marked if it breaks a rule of the network. -/
def reportInvalid (pindexNew h : UInt256) (failure : Failure) : Stateful (Node W) Failure Unit :=
  if failure.isReturn ∧ (state.record failure).isInvalid then do
    invalidChainFound pindexNew
    invalidBlockFound reorganise h
  else pure ()

variable (pindexNew : UInt256)

def connectTip (view : CCoinsView) (h : UInt256) :
    Stateful (Node W) Failure (CBlock × Connected) := do
  let node ← get
  let (result, tree) := connectFromDisk context io node.mapBlockIndex view h
  modify fun node => { node with mapBlockIndex := tree }
  match result with
  | .ok (block, connected) =>
    modify fun node =>
      { node with wallets := syncBlock context node.wallets block connected }
    pure (block, connected)
  | .error failure =>
    reportInvalid reorganise state pindexNew h failure
    lift (.error failure)

def connectBranch (reorganise : Stateful (Node W) Failure Unit) (state : CValidationState)
    (pindexNew : UInt256) :
    List UInt256 → CCoinsView → Stateful (Node W) Failure (CCoinsView × List CTransaction)
  | [], view => pure (view, [])
  | h :: vConnect, view => do
      let (block, connected) ← connectTip context io reorganise state pindexNew view h
      let (view, vDelete) ← connectBranch reorganise state pindexNew vConnect connected.view
      pure (view, block.vtx ++ vDelete)

/-- The coins are written, except in the initial download while the cache has room. -/
def flushCoins : Stateful (Node W) Failure Unit := do
  let node ← get
  if io.flushNeeded node.pindexBest then
    if !io.fDiskSpace then lift (.error (.abort "Error: Disk space is low!"))
    else
      lift (io.flush.orAbort "Failed to write to coin database")
      modify fun node =>
        { node with pcoinsTip := node.pcoinsTip.reload context.keys fun _ => false }
  else pure ()

/-- A transaction of a disconnected block goes back to the pool if it can. -/
def resurrect (tx : CTransaction) : Stateful (Node W) Failure Unit := do
  let node ← get
  let hash := context.connect.hash
  let poolContext := { context.pool with
    tree := node.mapBlockIndex, pcoinsTip := node.pcoinsTip }
  match (node.mempool.acceptToMemoryPool hash poolContext tx true false).1 with
  | .ok mempool =>
    modify fun node => { node with
      mempool := mempool
      wallets := context.syncWithWallets node.wallets (tx.getHash hash) tx none }
  | .error failure =>
    if failure.isReturn then
      let mempool ← lift (node.mempool.remove hash context.depth tx true)
      modify fun node => { node with mempool := mempool }
    else lift (.error failure)

/-- A connected transaction leaves the pool with all that conflict with it. -/
def deleteRedundant (tx : CTransaction) : Stateful (Node W) Failure Unit := do
  let node ← get
  let hash := context.connect.hash
  let mempool ← lift (node.mempool.remove hash context.depth tx false)
  let mempool ← lift (mempool.removeConflicts hash context.depth tx)
  modify fun node => { node with mempool := mempool }

def storesLocator (node : Node W) (pindexNew : UInt256) : Bool :=
  (node.mapBlockIndex pindexNew).any fun pindex =>
    pindex.nHeight % 20160 = 0 ||
      (!io.isInitialBlockDownload node.pindexBest && pindex.nHeight % 144 = 0)

def setBest (node : Node W) : Node W :=
  { node with
    wallets := if storesLocator io node pindexNew then
      context.setBestLocator node.wallets pindexNew else node.wallets
    pindexBest := some pindexNew }

variable (vDisconnect vConnect : List UInt256)

def updateMemory (vResurrect vDelete : List CTransaction)
    (pindexNew : UInt256) : Stateful (Node W) Failure Unit := do
  modify fun node =>
    { node with mapBlockIndex := node.mapBlockIndex.updateLinks vDisconnect vConnect }
  vResurrect.forM (resurrect context)
  vDelete.forM (deleteRedundant context)
  modify (setBest context io pindexNew)

/-- Once all blocks are connected: the view is pushed to `pcoinsTip`, the coins are written, and
the memory structures follow. -/
def commit (vResurrect : List CTransaction)
    (pindexNew : UInt256) (view : CCoinsView) (vDelete : List CTransaction) :
    Stateful (Node W) Failure Unit := do
  modify fun node => { node with pcoinsTip := view }
  flushCoins context io
  updateMemory context io vDisconnect vConnect vResurrect vDelete pindexNew

def setBestChain : Stateful (Node W) Failure Unit := do
  let node ← get
  let (vDisconnect, vConnect) ← lift
    (node.mapBlockIndex.reorganization node.pcoinsTip.best pindexNew)
  let (view, vResurrect) ← lift
    (disconnectBranch context io node.mapBlockIndex vDisconnect node.pcoinsTip)
  let (view, vDelete) ← connectBranch context io reorganise state pindexNew vConnect view
  commit context io vDisconnect vConnect vResurrect pindexNew view vDelete

end Model

end Node

end Primecoin
