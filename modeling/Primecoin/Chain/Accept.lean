import Primecoin.Block.Check
import Primecoin.Data.Forest
import Primecoin.Prime.ChainTest

/-!
# Acceptance of blocks into the tree

A block is accepted on top of a block of the tree when its target is the one `GetNextWorkRequired`
computes, its time is above the median of its ancestors and the other contextual rules hold. The
functions that walk up the tree look at a bounded number of ancestors, so they take them as a
list, the last block first.

`Reachable` collects the trees that arise from the genesis block by accepting blocks.
-/

namespace Primecoin

open Function CBlockIndex
def nTargetTimespan : Int64 := 7 * 24 * 60 * 60
def nTargetSpacing : Int64 := 60
def nMedianTimeSpan : ℕ := 99

namespace BlockTree

/-- At most `n` entries from a pointer to the genesis block along `pprev`. -/
def chain (mapBlockIndex : BlockTree) (n : ℕ) (pindex : Option UInt256) : List CBlockIndex :=
  Forest.path pprev mapBlockIndex n pindex

end BlockTree

def getMedianTimePast (chain : List CBlockIndex) : Int64 :=
  let pmedian := (chain.take nMedianTimeSpan).map getBlockTime
  (pmedian.insertionSort fun a b => a ≤ b).getD (pmedian.length / 2) 0

variable (network : Network)

/-- On top of the chain. A failed retarget is reported as the target zero. -/
def getNextWorkRequired : List CBlockIndex → Except Failure UInt32
  | [] => .ok (targetGetLimit network)
  | [_] => .ok (targetGetInitial network)
  | [_, _] => .ok (targetGetInitial network)
  | pindexPrev :: pindexPrevPrev :: _ :: _ =>
    let nInterval := nTargetTimespan / nTargetSpacing
    let nActualSpacing := pindexPrev.getBlockTime - pindexPrevPrev.getBlockTime
    match targetGetNext network pindexPrev.nBits nInterval nTargetSpacing nActualSpacing with
    | .ok nBits => .ok nBits
    | .error (.error _) => .ok 0
    | .error failure => .error failure

/-- The loop, with the number of blocks still to check. -/
def isSuperMajority (minVersion : Int32) (nRequired : ℕ) :
    (nToCheck nFound : ℕ) → List CBlockIndex → Bool
  | 0, nFound, _ => nRequired ≤ nFound
  | _, nFound, [] => nRequired ≤ nFound
  | nToCheck + 1, nFound, pstart :: chain =>
    if nFound < nRequired then
      isSuperMajority minVersion nRequired nToCheck
        (if minVersion ≤ pstart.nVersion then nFound + 1 else nFound) chain
    else nRequired ≤ nFound

/-- `CScript() << nHeight`. -/
def pushInt (n : Int32) : CScript :=
  if n = -1 ∨ (1 ≤ n ∧ n ≤ 16) then [UInt8.ofNat (n.toInt + 0x50).toNat]
  else UInt8.ofNat (bigNumVch n.toInt).length :: bigNumVch n.toInt

/-- Whether enough of the last blocks have version two for the coinbase to start with the height.
-/
def heightRequired (chain : List CBlockIndex) : Bool :=
  match network with
  | .official => isSuperMajority 2 750 1000 0 chain
  | .testNet => isSuperMajority 2 51 100 0 chain

/-- The rules of `AcceptBlock` that depend on the ancestors of the block. -/
def acceptContext (chain : List CBlockIndex) (nHeight : Int32)
    (block : CBlock) : Except Failure Unit := do
  let nBits ← getNextWorkRequired network chain
  if block.nBits ≠ nBits then
    .error (.dos 100 "AcceptBlock() : incorrect proof of work" false)
  else if block.getBlockTime ≤ getMedianTimePast chain then
    .error (.invalid "AcceptBlock() : block's timestamp is too early")
  else if !(block.vtx.all fun tx => tx.isFinal nHeight block.getBlockTime) then
    .error (.dos 10 "AcceptBlock() : contains a non-final transaction" false)
  else if block.nVersion < 2 then
    .error (.invalid "AcceptBlock() : rejected nVersion=1 block")
  else if heightRequired network chain ∧
      !((block.vtx.head?.bind fun tx => tx.vin.head?.map CTxIn.scriptSig).any
        fun scriptSig => (pushInt nHeight).isPrefixOf scriptSig) then
    .error (.dos 100 "AcceptBlock() : block height mismatch in coinbase" false)
  else .ok ()

variable (hash : Bytes → UInt256) (network : Network) (mapBlockIndex : BlockTree) (block : CBlock)

/-- `AcceptBlock` up to the point where the block is stored. -/
def acceptBlock : Except Failure Unit :=
  if (mapBlockIndex (block.getHash hash)).isSome then
    .error (.invalid "AcceptBlock() : block already in mapBlockIndex")
  else if block.getHash hash = hashGenesisBlock network then .ok ()
  else
    match mapBlockIndex block.hashPrevBlock with
    | none => .error (.dos 10 "AcceptBlock() : prev block not found" false)
    | some pindexPrev =>
      acceptContext network (mapBlockIndex.chain 1000 (some block.hashPrevBlock))
        (pindexPrev.nHeight + 1) block

variable (pos : CDiskBlockPos)

/-- The entry `AddToBlockIndex` makes for a block stored at `pos`. -/
def newBlockIndex : CBlockIndex where
  phashBlock := some (block.getHash hash)
  pprev := (mapBlockIndex block.hashPrevBlock).map fun _ => block.hashPrevBlock
  pnext := none
  nHeight := ((mapBlockIndex block.hashPrevBlock).map fun pprev => pprev.nHeight + 1).getD 0
  nFile := pos.nFile
  nDataPos := pos.nPos
  nUndoPos := 0
  nChainWork := ((mapBlockIndex block.hashPrevBlock).map nChainWork).getD 0 +
    BitVec.ofInt 256 (getBlockWork network block.nBits)
  nMoneySupply := 0
  nStatus := blockValidTransactions ||| blockHaveData
  nVersion := block.nVersion
  hashMerkleRoot := block.hashMerkleRoot
  nTime := block.nTime
  nBits := block.nBits
  nNonce := block.nNonce

def addToBlockIndex : BlockTree :=
  update mapBlockIndex (block.getHash hash)
    (some (newBlockIndex hash network mapBlockIndex block pos))

def genesisTree : BlockTree :=
  addToBlockIndex hash network (fun _ => none) (genesisBlock network) pos

/-- The checks of `ProcessBlock`, at the adjusted time, before a block is added to the tree. -/
structure Accepts (hash : Bytes → UInt256) (network : Network) (mapBlockIndex : BlockTree)
    (block : CBlock) (nAdjustedTime : Int64) : Prop where
  checkBlock : block.checkBlock hash nAdjustedTime true true = .ok ()
  checkProofOfWork : ∃ fuel chain, checkPrimeProofOfWork fuel network (block.getHeaderHash hash)
    block.nBits block.bnPrimeChainMultiplier = some (.ok chain)
  acceptBlock : acceptBlock hash network mapBlockIndex block = .ok ()

inductive Reachable (hash : Bytes → UInt256) (network : Network) : BlockTree → Prop
  | genesis (pos : CDiskBlockPos) : (genesisBlock network).getHash hash = hashGenesisBlock network →
      Reachable hash network (genesisTree hash network pos)
  | accept {mapBlockIndex : BlockTree} {block : CBlock} {nAdjustedTime : Int64}
      (pos : CDiskBlockPos) : Reachable hash network mapBlockIndex →
      Accepts hash network mapBlockIndex block nAdjustedTime →
      Reachable hash network (addToBlockIndex hash network mapBlockIndex block pos)

section Invariants

variable {hash : Bytes → UInt256} {network : Network} {mapBlockIndex : BlockTree}

/-- The genesis block is there, links lead to blocks of the tree, and every target has passed the
check of its proof of work. -/
structure BlockTree.WellFormed (hash : Bytes → UInt256) (network : Network)
    (mapBlockIndex : BlockTree) : Prop where
  genesis : ∃ pindex, mapBlockIndex (hashGenesisBlock network) = some pindex
  closed : Forest.Closed pprev mapBlockIndex
  length : ∀ p pindex, mapBlockIndex p = some pindex →
    (nTargetMinLength network).toNat ≤ pindex.nBits.toNat / 2 ^ 24 ∧
      pindex.nBits.toNat / 2 ^ 24 ≤ 99

theorem Accepts.parent {block : CBlock} {nAdjustedTime : Int64}
    (h : Accepts hash network mapBlockIndex block nAdjustedTime)
    (hgenesis : ∃ pindex, mapBlockIndex (hashGenesisBlock network) = some pindex) :
    mapBlockIndex (block.getHash hash) = none ∧
      ∃ pindexPrev, mapBlockIndex block.hashPrevBlock = some pindexPrev := by
  have haccept := h.acceptBlock
  rw [Primecoin.acceptBlock, Except.ite_error_eq_ok_iff] at haccept
  obtain ⟨hnew, haccept⟩ := haccept
  have hnone : mapBlockIndex (block.getHash hash) = none := by simpa using hnew
  refine ⟨hnone, ?_⟩
  have hne : block.getHash hash ≠ hashGenesisBlock network := by
    intro heq
    obtain ⟨pindex, hpindex⟩ := hgenesis
    rw [← heq, hnone] at hpindex
    cases hpindex
  rw [if_neg hne] at haccept
  cases hprev : mapBlockIndex block.hashPrevBlock with
  | none => simp [hprev] at haccept
  | some pindexPrev => exact ⟨pindexPrev, rfl⟩

theorem newBlockIndex_pprev {block : CBlock} {pindexPrev : CBlockIndex} (pos : CDiskBlockPos)
    (h : mapBlockIndex block.hashPrevBlock = some pindexPrev) :
    (newBlockIndex hash network mapBlockIndex block pos).pprev = some block.hashPrevBlock := by
  simp [newBlockIndex, h]

theorem BlockTree.WellFormed.genesisTree
    (h : (genesisBlock network).getHash hash = hashGenesisBlock network) (pos : CDiskBlockPos) :
    WellFormed hash network (genesisTree hash network pos) := by
  refine ⟨⟨_, by rw [Primecoin.genesisTree, addToBlockIndex, h, update_self]⟩, ?_, ?_⟩
  · refine Forest.closed_update (fun p pindex hp => by cases hp) ?_
    intro r hr
    cases hr
  · intro p pindex hp
    by_cases hpg : p = (genesisBlock network).getHash hash
    · rw [Primecoin.genesisTree, addToBlockIndex, hpg, update_self, Option.some.injEq] at hp
      subst hp
      change (nTargetMinLength network).toNat ≤ (0x06000000 : UInt32).toNat / 2 ^ 24 ∧
        (0x06000000 : UInt32).toNat / 2 ^ 24 ≤ 99
      cases network <;> decide
    · rw [Primecoin.genesisTree, addToBlockIndex, update_of_ne hpg] at hp
      cases hp

theorem BlockTree.WellFormed.accept {block : CBlock} {nAdjustedTime : Int64}
    (h : WellFormed hash network mapBlockIndex)
    (haccepts : Accepts hash network mapBlockIndex block nAdjustedTime) (pos : CDiskBlockPos) :
    WellFormed hash network (addToBlockIndex hash network mapBlockIndex block pos) := by
  obtain ⟨hnew, pindexPrev, hprev⟩ := haccepts.parent h.genesis
  refine ⟨?_, ?_, ?_⟩
  · obtain ⟨pindex, hpindex⟩ := h.genesis
    refine ⟨pindex, ?_⟩
    rw [addToBlockIndex, update_of_ne, hpindex]
    intro heq
    rw [heq, hnew] at hpindex
    cases hpindex
  · refine Forest.closed_update h.closed ?_
    intro r hr
    rw [newBlockIndex_pprev pos hprev, Option.some.injEq] at hr
    exact ⟨pindexPrev, hr ▸ hprev⟩
  · intro p pindex hp
    by_cases hpb : p = block.getHash hash
    · rw [addToBlockIndex, hpb, update_self, Option.some.injEq] at hp
      obtain ⟨fuel, chain, hpow⟩ := haccepts.checkProofOfWork
      subst hp
      by_cases hlength : targetGetLength block.nBits < nTargetMinLength network ∨
          99 < targetGetLength block.nBits
      · rw [checkPrimeProofOfWork, if_pos hlength] at hpow
        cases hpow
      · rw [not_or, UInt32.not_lt, UInt32.not_lt, UInt32.le_iff_toNat_le, UInt32.le_iff_toNat_le,
          toNat_targetGetLength] at hlength
        exact hlength
    · rw [addToBlockIndex, update_of_ne hpb] at hp
      exact h.length p pindex hp

theorem Reachable.wellFormed (h : Reachable hash network mapBlockIndex) :
    mapBlockIndex.WellFormed hash network := by
  induction h with
  | genesis pos hgenesis => exact BlockTree.WellFormed.genesisTree hgenesis pos
  | accept pos _ haccepts ih => exact ih.accept haccepts pos

end Invariants

end Primecoin
