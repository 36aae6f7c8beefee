import Mathlib.Data.List.AList
import Primecoin.Chain.ConnectBestBlock
import Primecoin.Disk.BlockFile

/-!
# Blocks that come in

`processBlock` is `ProcessBlock`, with `acceptBlock` and `addToBlockIndex` below it. A block
without its parent is kept in two maps of orphans if a peer has sent it, and when a block has been
accepted the orphans that wait for it are accepted in turn.

`AddToBlockIndex` makes the entry before the block is connected, and the entry stays when that
fails. `Verdict` says how `AcceptBlock` can end, and `known` which blocks are in the index.
-/

namespace Primecoin

open Stateful Function Option

/-- `mapOrphanBlocks`, and what `mapOrphanBlocksByPrev` keeps under a key in the order in which it
came. -/
structure OrphanBlocks where
  mapOrphanBlocks : AList fun _ : UInt256 => CBlock
  mapOrphanBlocksByPrev : UInt256 → List CBlock

namespace OrphanBlocks

def empty : OrphanBlocks := ⟨∅, fun _ => []⟩

variable (orphans : OrphanBlocks) (h : UInt256)

def stored : Option CBlock :=
  orphans.mapOrphanBlocks.lookup h

def size : ℕ := orphans.mapOrphanBlocks.keys.length

def insertBlock (block : CBlock) : OrphanBlocks where
  mapOrphanBlocks := orphans.mapOrphanBlocks.insert h block
  mapOrphanBlocksByPrev := Function.update orphans.mapOrphanBlocksByPrev block.hashPrevBlock
    (orphans.mapOrphanBlocksByPrev block.hashPrevBlock ++ [block])

def erase : OrphanBlocks :=
  { orphans with mapOrphanBlocks := orphans.mapOrphanBlocks.erase h }

def setWaiting (hashPrev : UInt256) (waiting : List CBlock) : OrphanBlocks :=
  { orphans with
    mapOrphanBlocksByPrev := Function.update orphans.mapOrphanBlocksByPrev hashPrev waiting }

end OrphanBlocks

structure Chainstate (W : Type) where
  node : Node W
  files : BlockFiles
  orphans : OrphanBlocks

/-- What the disk does during one call of `AcceptBlock`. -/
structure AcceptIo where
  file : FileIo
  writeBlock : IoResult
  writeIndex : IoResult
  chain : UInt256 → ChainIo
  flush : IoResult

/-- Whether a peer has sent the block, the place of a block read from a file, and what the disk
does when the block and each orphan is accepted. -/
structure ProcessBlockCall where
  block : CBlock
  state : CValidationState
  pfrom : Bool
  dbp : Option FilePos
  nAdjustedTime : Int64
  fV2Compatible : Bool
  io : UInt256 → AcceptIo

namespace Node

variable {W : Type} (context : ChainContext W)

def insertBlock (block : CBlock) (pos : FilePos) (node : Node W) : Node W :=
  { node with
    mapBlockIndex := Primecoin.addToBlockIndex context.connect.hash context.connect.network
      node.mapBlockIndex block ⟨Int32.ofNat pos.nFile, pos.nPos⟩
    setBlockIndexValid := block.getHash context.connect.hash :: node.setBlockIndexValid }

def connectBest (io : UInt256 → ChainIo) (state : CValidationState) :
    Stateful (Node W) Failure Unit := fun node =>
  (connectBestBlock context io (node.setBlockIndexValid.length + 1) state node).getD
    (.error (.fault "ConnectBestBlock"), node)

def addToBlockIndex (io : AcceptIo) (state : CValidationState)
    (block : CBlock) (pos : FilePos) : Stateful (Node W) Failure Unit := do
  let node ← get
  if (node.mapBlockIndex (block.getHash context.connect.hash)).isSome then
    lift (.error (.invalid "AddToBlockIndex() : %s already exists"))
  else
    modify (insertBlock context block pos)
    lift (io.writeIndex.orAbort "Failed to write block index")
    connectBest context io.chain state
    lift (io.flush.orAbort "Failed to sync block index")

end Node

def acceptHeight (hash : Bytes → UInt256) (network : Network) (mapBlockIndex : BlockTree)
    (block : CBlock) : Int32 :=
  if block.getHash hash = hashGenesisBlock network then 0
  else ((mapBlockIndex block.hashPrevBlock).map fun pprev => pprev.nHeight + 1).getD 0

namespace Chainstate

variable {W : Type}

section Model

variable (context : ChainContext W) (rounds : ℕ)

/-- `fKnown` is set when the block comes with its place. -/
def findBlockPos (io : FileIo) (dbp : Option FilePos) (nHeight : Int32) (block : CBlock) :
    Stateful BlockFiles Failure FilePos := fun files =>
  (files.findBlockPos rounds io dbp (UInt32.ofNat block.getSerializeSize + 8) nHeight.toUInt32
    (UInt64.ofNat block.nTime.toNat)).getD (.error (.fault "FindBlockPos"), files)

def storeBlock (io : AcceptIo) (state : CValidationState) (dbp : Option FilePos)
    (block : CBlock) : Stateful (Chainstate W) Failure Unit := do
  let s ← get
  let nHeight := acceptHeight context.connect.hash context.connect.network s.node.mapBlockIndex
    block
  let blockPos ← (findBlockPos rounds io.file dbp nHeight block).zoom Chainstate.files
    fun files s => { s with files := files }
  if dbp.isNone then lift (io.writeBlock.orAbort "Failed to write block") else pure ()
  (Node.addToBlockIndex context io state block blockPos).zoom Chainstate.node
    fun node s => { s with node := node }

def acceptBlock (io : AcceptIo) (state : CValidationState) (dbp : Option FilePos)
    (block : CBlock) : Stateful (Chainstate W) Failure Unit := do
  let s ← get
  lift (Primecoin.acceptBlock context.connect.hash context.connect.network
    s.node.mapBlockIndex block)
  (storeBlock context rounds io state dbp block).mapError Failure.toSystemError

def eraseOrphan (h : UInt256) (s : Chainstate W) : Chainstate W :=
  { s with orphans := s.orphans.erase h }

/-- The inner loop: whether the orphan has been accepted. It leaves `mapOrphanBlocks` unless an
exception ends the loop. -/
def tryOrphan (io : UInt256 → AcceptIo) (orphan : CBlock) :
    Stateful (Chainstate W) Failure Bool := fun s =>
  let h := orphan.getHash context.connect.hash
  match (acceptBlock context rounds (io h) .init none orphan).run s with
  | (.ok (), s) => (.ok true, s.eraseOrphan h)
  | (.error failure, s) =>
    if failure.isReturn then (.ok false, s.eraseOrphan h) else (.error failure, s)

def pushAccepted (orphan : CBlock) (accepted : Bool) (vWorkQueue : List UInt256) : List UInt256 :=
  if accepted then vWorkQueue ++ [orphan.getHash context.connect.hash] else vWorkQueue

def resolveWaiting (io : UInt256 → AcceptIo) :
    List CBlock → List UInt256 → Stateful (Chainstate W) Failure (List UInt256)
  | [], vWorkQueue => pure vWorkQueue
  | orphan :: waiting, vWorkQueue => do
      let accepted ← tryOrphan context rounds io orphan
      resolveWaiting io waiting (pushAccepted context orphan accepted vWorkQueue)

/-- The outer loop over the part of the work queue not visited yet. -/
def resolveOrphans (io : UInt256 → AcceptIo) :
    ℕ → List UInt256 → Stateful (Chainstate W) Failure Unit
  | _, [] => pure ()
  | 0, _ :: _ => lift (.error (.fault "ProcessBlock"))
  | n + 1, hashPrev :: vWorkQueue => do
      let s ← get
      let vWorkQueue ← resolveWaiting context rounds io
        (s.orphans.mapOrphanBlocksByPrev hashPrev) vWorkQueue
      modify fun s => { s with orphans := s.orphans.setWaiting hashPrev [] }
      resolveOrphans io n vWorkQueue

variable (call : ProcessBlockCall)

/-- `CheckProofOfWork`, and the test for compatibility with version 0.2, which only rejects a
block that does not come from a peer. -/
def checkWork : Except Failure Unit :=
  let hashHeader := call.block.getHeaderHash context.connect.hash
  match checkPrimeProofOfWork rounds context.connect.network hashHeader call.block.nBits
      call.block.bnPrimeChainMultiplier with
  | none => .error (.fault "CheckPrimeProofOfWork")
  | some (.error _) => .error (.dos 100 "ProcessBlock() : proof of work failed" false)
  | some (.ok _) =>
    if call.fV2Compatible ∧ !(fermatProbablePrimalityTest hashHeader.toNat 0).1 ∧ !call.pfrom then
      .error (.error "ProcessBlock() : Submitted block incompatible with v0.2 protocol, block=%s")
    else .ok ()

def callContext : ChainContext W :=
  { context with connect := { context.connect with nAdjustedTime := call.nAdjustedTime } }

def checkNew (s : Chainstate W) : Except Failure Unit := do
  let h := call.block.getHash context.connect.hash
  if (s.node.mapBlockIndex h).isSome then
    .error (.invalid "ProcessBlock() : already have block %d %s")
  else if (s.orphans.stored h).isSome then
    .error (.invalid "ProcessBlock() : already have block (orphan) %s")
  else
    call.block.checkBlock context.connect.hash call.nAdjustedTime true true
    checkWork context rounds call

def isOrphan (block : CBlock) (s : Chainstate W) : Bool :=
  block.hashPrevBlock ≠ 0 && (s.node.mapBlockIndex block.hashPrevBlock).isNone

def processBlock : Stateful (Chainstate W) Failure Unit := do
  let s ← get
  let h := call.block.getHash context.connect.hash
  lift (checkNew context rounds call s)
  if isOrphan call.block s then
    if call.pfrom then
      modify fun s => { s with orphans := s.orphans.insertBlock h call.block }
    else pure ()
  else
    acceptBlock (callContext context call) rounds (call.io h) call.state call.dbp call.block
    let s ← get
    resolveOrphans (callContext context call) rounds call.io (s.orphans.size + 1) [h]

end Model

end Chainstate

/-! ## The blocks the index knows -/

namespace Node

variable {W : Type} {context : ChainContext W} {reorganise : Stateful (Node W) Failure Unit}

def known (node : Node W) (h : UInt256) : Bool := (node.mapBlockIndex h).isSome

theorem known_eq_of_samePositions {node node' : Node W}
    (h : node.mapBlockIndex.SamePositions node'.mapBlockIndex) : node'.known = node.known := by
  funext q
  have hmap := congrArg isSome (h q)
  rwa [isSome_map, isSome_map] at hmap

theorem known_markFailed (flag : UInt32) (h : UInt256) (node : Node W) :
    (node.markFailed flag h).known = node.known :=
  known_eq_of_samePositions (unmoved_markFailed flag h node).positions

theorem known_eraseValid (h : UInt256) (node : Node W) :
    (node.eraseValid h).known = node.known := rfl

theorem keeps_known_invalidChainFound (pindexNew : UInt256) :
    Keeps known (invalidChainFound pindexNew : Stateful (Node W) Failure Unit) := by
  refine keeps_get.bind fun node => ?_
  split
  · exact keeps_lift _
  · refine Keeps.bind (keeps_modify fun node => ?_) fun _ => ?_
    · exact known_eq_of_samePositions (unmoved_raiseInvalidWork _ node).1.positions
    · split_ifs
      · exact keeps_lift _
      · exact keeps_pure _

theorem keeps_known_invalidBlockFound (hreorganise : Keeps known reorganise) (h : UInt256) :
    Keeps known (invalidBlockFound reorganise h) := by
  refine (keeps_modify (known_markFailed blockFailedValid h)).bind fun _ => ?_
  refine (keeps_modify (known_eraseValid h)).bind fun _ => ?_
  refine (keeps_known_invalidChainFound h).bind fun _ => keeps_get.bind fun node => ?_
  split_ifs
  · exact hreorganise.catchIf _
  · exact keeps_pure _

section

variable (context : ChainContext W) (io : ChainIo)

theorem keeps_known_connectTip (hreorganise : Keeps known reorganise)
    (state : CValidationState) (pindexNew : UInt256) (view : CCoinsView) (h : UInt256) :
    Keeps known (connectTip context io reorganise state pindexNew view h) := by
  refine keeps_get_bind fun node => ?_
  have htree : known { node with
      mapBlockIndex := (connectFromDisk context io node.mapBlockIndex view h).2 } = node.known :=
    known_eq_of_samePositions (marked_connectFromDisk context io node.mapBlockIndex view h).positions
  rw [run_modify_bind]
  refine Eq.trans ?_ htree
  rcases (connectFromDisk context io node.mapBlockIndex view h).1 with failure | connected
  · refine Keeps.bind (f := known) ?_ (fun _ => keeps_lift _) _
    rw [reportInvalid]
    split_ifs
    · exact (keeps_known_invalidChainFound pindexNew).bind fun _ =>
        keeps_known_invalidBlockFound hreorganise h
    · exact keeps_pure _
  · rfl

theorem keeps_known_connectBranch (hreorganise : Keeps known reorganise)
    (state : CValidationState) (pindexNew : UInt256) (vConnect : List UInt256) (view : CCoinsView) :
    Keeps known (connectBranch context io reorganise state pindexNew vConnect view) := by
  induction vConnect generalizing view with
  | nil => exact keeps_pure _
  | cons h vConnect ih =>
    exact (keeps_known_connectTip context io hreorganise state pindexNew view h).bind
      fun connected => (ih connected.2.view).bind fun _ => keeps_pure _

theorem keeps_known_setBestChain (hreorganise : Keeps known reorganise)
    (state : CValidationState) (pindexNew : UInt256) :
    Keeps known (setBestChain context io reorganise state pindexNew) := by
  refine keeps_get.bind fun node => (keeps_lift _).bind fun branches =>
    (keeps_lift _).bind fun disconnected => ?_
  refine (keeps_known_connectBranch context io hreorganise state pindexNew branches.2
    disconnected.1).bind fun connected => ?_
  exact keeps_commit context io
    (fun _ => known_eq_of_samePositions (BlockTree.samePositions_updateLinks _ _ _))
    (fun _ _ _ _ _ => rfl) disconnected.2 connected.2 pindexNew connected.1

variable (io : UInt256 → ChainIo)

theorem keeps_known_attachAll (hreorganise : Keeps known reorganise)
    (state : CValidationState) (vAttach : List UInt256) :
    Keeps known (attachAll context io reorganise state vAttach) := by
  induction vAttach with
  | nil => exact keeps_pure _
  | cons pindexSwitch vAttach ih =>
    exact ((keeps_known_setBestChain context (io pindexSwitch) hreorganise state
      pindexSwitch).mapError _).bind fun _ => ih

theorem keeps_known_markDescendants (pindexTest : UInt256) (n : ℕ) (pindexFailed : UInt256) :
    Keeps known (markDescendants pindexTest n pindexFailed : Stateful (Node W) Failure Unit) := by
  induction n generalizing pindexFailed with
  | zero => exact keeps_lift _
  | succ n ih =>
    rw [markDescendants]
    split_ifs
    · exact keeps_pure _
    · refine (keeps_modify (known_markFailed blockFailedChild pindexFailed)).bind
        fun _ => (keeps_modify (known_eraseValid pindexFailed)).bind fun _ =>
          keeps_get.bind fun node => ?_
      split
      · exact keeps_lift _
      · exact ih _

theorem keeps_known_rejectBranch (pindexTest pindexNewBest : UInt256) :
    Keeps known (rejectBranch pindexTest pindexNewBest : Stateful (Node W) Failure Unit) :=
  keeps_get.bind fun _ => (keeps_known_markDescendants _ _ _).bind fun _ =>
    keeps_known_invalidChainFound pindexNewBest

/-- The search for the best block changes only marks of blocks in the index. -/
theorem known_connectBestBlock {n : ℕ}
    {state : CValidationState} {node : Node W} {outcome : Except Failure Unit × Node W}
    (h : connectBestBlock context io n state node = some outcome) :
    outcome.2.known = node.known := by
  induction n generalizing state node outcome with
  | zero => cases h
  | succ n ih =>
    rw [connectBestBlock] at h
    split at h
    · cases h
      rfl
    · split_ifs at h
      · cases h
        rfl
      · split at h
        · cases h
          rfl
        · -- the calls of `SetBestChain`, which may come back to the search
          cases h
          refine keeps_known_attachAll context io (fun node => ?_) state _ node
          rcases hnext : connectBestBlock context io n .init node with _ | outcome
          · simp only [run, hnext, getD_none]
          · simp only [run, hnext, getD_some]
            exact ih hnext
        · next pindexNewBest _ _ _ pindexTest _ =>
            have hreject := keeps_known_rejectBranch pindexTest pindexNewBest node
            split at h
            · next heq =>
                cases h
                rw [heq] at hreject
                exact hreject
            · next heq =>
                rw [heq] at hreject
                exact (ih h).trans hreject

theorem keeps_known_connectBest
    (state : CValidationState) : Keeps known (connectBest context io state) := by
  intro node
  simp only [connectBest, run]
  rcases hrun : connectBestBlock context io (node.setBlockIndexValid.length + 1) state node with
    _ | outcome
  · rfl
  · exact known_connectBestBlock context io hrun

theorem known_insertBlock (block : CBlock) (pos : FilePos) (node : Node W) :
    (insertBlock context block pos node).known =
      Function.update node.known (block.getHash context.connect.hash) true := by
  funext q
  rw [known, insertBlock]
  simp only [Primecoin.addToBlockIndex]
  by_cases hq : q = block.getHash context.connect.hash
  · rw [hq, update_self, update_self, isSome_some]
  · rw [update_of_ne hq, update_of_ne hq, known]

end

end Node

/-- A call for the block `h` leaves the index and fails, or the block is new in the index,
whatever is returned. -/
inductive Verdict (known : UInt256 → Bool) (h : UInt256) :
    Except Failure Unit → (UInt256 → Bool) → Prop
  | refused (failure : Failure) : Verdict known h (.error failure) known
  | added (result : Except Failure Unit) : known h = false →
      Verdict known h result (Function.update known h true)

namespace Verdict

variable {known known' : UInt256 → Bool} {h q : UInt256} {result : Except Failure Unit}

section

variable (hverdict : Verdict known h result known')
include hverdict

theorem mapError (g : Failure → Failure) : Verdict known h (result.mapError g) known' := by
  cases hverdict with
  | refused failure => exact .refused (g failure)
  | added result hnew => exact .added _ hnew

theorem known_mono (hq : known q = true) : known' q = true := by
  cases hverdict with
  | refused failure => exact hq
  | added result hnew =>
    by_cases hqh : q = h
    · rw [hqh, update_self]
    · rw [update_of_ne hqh, hq]

theorem eq_of_known (hq : known' q = true) (hold : known q = false) : q = h := by
  cases hverdict with
  | refused failure =>
    rw [hold] at hq
    cases hq
  | added result hnew =>
    by_contra hqh
    rw [update_of_ne hqh, hold] at hq
    cases hq

end

theorem of_ok (hverdict : Verdict known h (.ok ()) known') : known h = false ∧ known' h = true := by
  cases hverdict with
  | added _ hnew => exact ⟨hnew, update_self _ _ _⟩

end Verdict

namespace Node

variable {W : Type}

theorem addToBlockIndex_verdict (context : ChainContext W) (io : AcceptIo)
    (state : CValidationState) (block : CBlock) (pos : FilePos) (node : Node W) :
    Verdict node.known (block.getHash context.connect.hash)
      ((addToBlockIndex context io state block pos).run node).1
      ((addToBlockIndex context io state block pos).run node).2.known := by
  rw [addToBlockIndex, run_get_bind]
  split_ifs with hknown
  · exact .refused _
  · -- from here on the entry is there and no step removes it
    have hrest : Keeps known (do
        lift (io.writeIndex.orAbort "Failed to write block index")
        connectBest context io.chain state
        lift (io.flush.orAbort "Failed to sync block index")) :=
      (keeps_lift _).bind fun _ =>
        (keeps_known_connectBest context io.chain state).bind fun _ => keeps_lift _
    rw [run_modify_bind, hrest, known_insertBlock]
    exact .added _ (Bool.eq_false_iff.mpr hknown)

end Node

namespace Chainstate

variable {W : Type} (context : ChainContext W) (rounds : ℕ)

/-- A computation that may add one block to the index and leaves the orphans. -/
def Adds (h : UInt256) (x : Stateful (Chainstate W) Failure Unit) : Prop :=
  ∀ s, Verdict s.node.known h (x.run s).1 (x.run s).2.node.known ∧ (x.run s).2.orphans = s.orphans

theorem Adds.bind {α : Type} {h : UInt256} {x : Stateful (Chainstate W) Failure α}
    {k : α → Stateful (Chainstate W) Failure Unit}
    (hx : Keeps (fun s => (s.node.known, s.orphans)) x) (hk : ∀ a, Adds h (k a)) :
    Adds h (x >>= k) := by
  intro s
  have hfirst := hx s
  rcases hrun : x.run s with ⟨failure | a, s'⟩
  · rw [hrun, Prod.mk.injEq] at hfirst
    rw [run_bind_of_error hrun, hfirst.1]
    exact ⟨.refused failure, hfirst.2⟩
  · rw [hrun, Prod.mk.injEq] at hfirst
    rw [run_bind_of_ok hrun, ← hfirst.1, ← hfirst.2]
    exact hk a s'

theorem storeBlock_adds (io : AcceptIo) (state : CValidationState) (dbp : Option FilePos)
    (block : CBlock) :
    Adds (block.getHash context.connect.hash) (storeBlock context rounds io state dbp block) := by
  refine Adds.bind keeps_get fun s => Adds.bind (fun _ => rfl) fun pos => ?_
  have hadd : Adds (block.getHash context.connect.hash)
      ((Node.addToBlockIndex context io state block pos).zoom Chainstate.node
        fun node s => { s with node := node }) :=
    fun s => ⟨Node.addToBlockIndex_verdict context io state block pos s.node, rfl⟩
  split_ifs
  · exact Adds.bind (keeps_lift _) fun _ => hadd
  · exact hadd

theorem acceptBlock_adds (io : AcceptIo) (state : CValidationState) (dbp : Option FilePos)
    (block : CBlock) :
    Adds (block.getHash context.connect.hash) (acceptBlock context rounds io state dbp block) := by
  refine Adds.bind keeps_get fun s => Adds.bind (keeps_lift _) fun _ s => ?_
  have hstore := storeBlock_adds context rounds io state dbp block s
  exact ⟨hstore.1.mapError _, hstore.2⟩

theorem acceptBlock_exception {io : AcceptIo} {state : CValidationState} {dbp : Option FilePos}
    {block : CBlock} {s s' : Chainstate W} {message : String}
    (h : (acceptBlock context rounds io state dbp block).run s =
      (.error (.exception message), s')) : s' = s := by
  rw [acceptBlock, run_get_bind] at h
  rcases run_bind_eq_error_iff.mp h with hcheck | ⟨_, s₁, -, hstore⟩
  · exact (congrArg Prod.snd hcheck).symm
  · rw [run_mapError, Prod.mk.injEq] at hstore
    rcases hresult : ((storeBlock context rounds io state dbp block).run s₁).1 with failure | _
    · rw [hresult] at hstore
      exact absurd (Except.error.inj hstore.1) (by cases failure <;> simp [Failure.toSystemError])
    · rw [hresult] at hstore
      cases hstore.1

end Chainstate

end Primecoin
