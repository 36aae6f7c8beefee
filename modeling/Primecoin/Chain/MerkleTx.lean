import Primecoin.Block.MerkleBranch
import Primecoin.Chain.Headers
import Primecoin.Chain.HeightLookup

/-!
# Transactions with a merkle branch

A wallet transaction remembers its block and its merkle branch. `SetMerkleBranch` fills them in
from a block, or from the block on disk at the height of the coins; `GetDepthInMainChain` looks
the block up again and checks the branch against the merkle root in the index.
-/

namespace Primecoin

open List

/-- The index -1 is `none`. -/
structure CMerkleTx extends CTransaction where
  hashBlock : UInt256
  vMerkleBranch : List UInt256
  nIndex : Option ℕ
  fMerkleVerified : Bool
  deriving DecidableEq, Repr

/-- The globals the two functions read, and the blocks on disk. -/
structure MerkleContext where
  hash : Bytes → UInt256
  mapBlockIndex : BlockTree
  pindexBest : Option UInt256
  pindexGenesisBlock : Option UInt256
  pblockindexFBBHLast : Option UInt256
  pcoinsTip : CCoinsView
  io : ChainIo

namespace MerkleContext

variable (context : MerkleContext)

def heightOf (pindex : Option UInt256) : Except Failure Int32 :=
  match pindex.bind context.mapBlockIndex with
  | none => .error (.fault "pblockindex->nHeight")
  | some entry => .ok entry.nHeight

/-- `FindBlockByHeight` with the globals of the context. -/
def blockAt (rounds : ℕ) (nHeight : Int32) : Except Failure UInt256 :=
  match context.pindexGenesisBlock, context.pindexBest with
  | some genesis, some best => context.mapBlockIndex.findBlockByHeight rounds genesis best
      context.pblockindexFBBHLast nHeight
  | _, _ => .error (.fault "pblockindex->nHeight")

/-- The depth of a block of the main chain; 0 if it is not there. -/
def depthInMainChain (hashBlock : UInt256) : Except Failure (Int32 × Option CBlockIndex) :=
  match context.mapBlockIndex hashBlock with
  | none => .ok (0, none)
  | some pindex =>
    if pindex.pnext.isNone ∧ context.pindexBest ≠ some hashBlock then .ok (0, none)
    else do
      let nBest ← context.heightOf context.pindexBest
      .ok (nBest - pindex.nHeight + 1, some pindex)

/-- The block to look in, with what it keeps of its merkle tree. Without one given it is the block
at the height of the coins; `none` if that cannot be read, `some none` if there are no coins. -/
def lookIn (rounds : ℕ) (tx : CTransaction) :
    Option (CBlock × List UInt256) → Except Failure (Option (Option (CBlock × List UInt256)))
  | some pblock => .ok (some (some pblock))
  | none =>
    match context.pcoinsTip.coins (tx.getHash context.hash) with
    | none => .ok (some none)
    | some coins => do
        let pindex ← context.blockAt rounds coins.nHeight
        match context.io.readFromDisk context.hash pindex with
        | .error _ => .ok none
        | .ok block => .ok (some (some (block, [])))

end MerkleContext

namespace CMerkleTx

variable (context : MerkleContext) (self : CMerkleTx)

/-- The depth returned and the transaction afterwards. -/
def setMerkleBranch (rounds : ℕ) (pblock : Option (CBlock × List UInt256)) :
    Except Failure (Int32 × CMerkleTx) := do
  match ← context.lookIn rounds self.toCTransaction pblock with
  | none => .ok (0, self)
  | some none => do
      let (nDepth, _) ← context.depthInMainChain self.hashBlock
      .ok (nDepth, self)
  | some (some (block, vMerkleTree)) =>
    let hashBlock := block.getHash context.hash
    match block.vtx.findIdx? (· = self.toCTransaction) with
    | none =>
      .ok (0, { self with hashBlock := hashBlock, vMerkleBranch := [], nIndex := none })
    | some nIndex => do
        let (nDepth, _) ← context.depthInMainChain hashBlock
        .ok (nDepth, { self with
          hashBlock := hashBlock
          vMerkleBranch := getMerkleBranch context.hash block.vtx vMerkleTree nIndex
          nIndex := some nIndex })

/-- The depth, `pindexRet` and the transaction afterwards. -/
def getDepthInMainChain : Except Failure (Int32 × Option CBlockIndex × CMerkleTx) :=
  if self.hashBlock = 0 ∨ self.nIndex = none then .ok (0, none, self)
  else do
    match ← context.depthInMainChain self.hashBlock with
    | (_, none) => .ok (0, none, self)
    | (nDepth, some pindex) =>
      if self.fMerkleVerified = false ∧ checkMerkleBranch context.hash
          (self.toCTransaction.getHash context.hash) self.vMerkleBranch self.nIndex ≠
            pindex.hashMerkleRoot then
        .ok (0, none, self)
      else .ok (nDepth, some pindex, { self with fMerkleVerified := true })

end CMerkleTx

/-! ## The branch that was set is accepted -/

/-- The index is made of blocks, none with hash zero; headers in use are determined by their hash,
and blocks on disk have the merkle root of their header. -/
structure MerkleContext.Sound (context : MerkleContext) (blockOf : UInt256 → CBlockHeader)
    (known : Set CBlockHeader) : Prop where
  madeOf : context.mapBlockIndex.MadeOf context.hash blockOf
  zero : context.mapBlockIndex 0 = none
  injOn : Set.InjOn (CBlockHeader.getHash context.hash) known
  index : ∀ h pindex, context.mapBlockIndex h = some pindex → blockOf h ∈ known
  disk : ∀ h block, context.io.readBlock h = some block → block.toCBlockHeader ∈ known ∧
    block.hashMerkleRoot = merkleRoot context.hash block.vtx

/-- The header of the block is known and has the merkle root of its transactions, and its merkle
tree is not built yet or built. -/
structure MerkleContext.Handed (context : MerkleContext) (known : Set CBlockHeader)
    (block : CBlock) (vMerkleTree : List UInt256) : Prop where
  known : block.toCBlockHeader ∈ known
  hashMerkleRoot : block.hashMerkleRoot = merkleRoot context.hash block.vtx
  vMerkleTree : vMerkleTree = [] ∨ vMerkleTree = buildMerkleTree context.hash block.vtx

/-- `SetMerkleBranch` finds the transaction in a block, which the index has in the main chain. -/
structure CMerkleTx.Located (context : MerkleContext) (mtx : CMerkleTx) (rounds : ℕ)
    (pblock : Option (CBlock × List UInt256)) (block : CBlock) (pindex : CBlockIndex) : Prop where
  lookIn : ∃ vMerkleTree, context.lookIn rounds mtx.toCTransaction pblock =
    .ok (some (some (block, vMerkleTree)))
  mem : mtx.toCTransaction ∈ block.vtx
  entry : context.mapBlockIndex (block.getHash context.hash) = some pindex
  main : pindex.pnext.isSome ∨ context.pindexBest = some (block.getHash context.hash)

section Branch

variable {context : MerkleContext} {blockOf : UInt256 → CBlockHeader} {known : Set CBlockHeader}
  {pindex : CBlockIndex}

theorem MerkleContext.depthInMainChain_of_main {h : UInt256}
    (hentry : context.mapBlockIndex h = some pindex)
    (hmain : pindex.pnext.isSome ∨ context.pindexBest = some h) :
    context.depthInMainChain h = context.heightOf context.pindexBest >>= fun nBest =>
      .ok (nBest - pindex.nHeight + 1, some pindex) := by
  rw [depthInMainChain, hentry]
  refine if_neg ?_
  rintro ⟨hnone, hbest⟩
  rcases hmain with hsome | hmain
  · rw [Option.isNone_iff_eq_none] at hnone
    rw [hnone] at hsome
    cases hsome
  · exact hbest hmain

theorem MerkleContext.Sound.handed_of_lookIn (hsound : context.Sound blockOf known) {rounds : ℕ}
    {tx : CTransaction} {pblock : Option (CBlock × List UInt256)}
    (hpblock : ∀ block vMerkleTree, pblock = some (block, vMerkleTree) →
      context.Handed known block vMerkleTree) {block : CBlock} {vMerkleTree : List UInt256}
    (hlook : context.lookIn rounds tx pblock = .ok (some (some (block, vMerkleTree)))) :
    context.Handed known block vMerkleTree := by
  cases pblock with
  | some given =>
    cases hlook
    exact hpblock block vMerkleTree rfl
  | none =>
    rw [lookIn] at hlook
    cases hcoins : context.pcoinsTip.coins (tx.getHash context.hash) with
    | none => simp [hcoins] at hlook
    | some coins =>
      simp only [hcoins, Except.bind_eq_ok_iff] at hlook
      obtain ⟨h, -, hlook⟩ := hlook
      cases hread : context.io.readFromDisk context.hash h with
      | error failure => simp [hread] at hlook
      | ok found =>
        rw [hread] at hlook
        cases hlook
        obtain ⟨hknown, hroot⟩ := hsound.disk h block (ChainIo.readBlock_of_readFromDisk hread).1
        exact ⟨hknown, hroot, .inl rfl⟩

theorem MerkleContext.Sound.hashMerkleRoot_eq (hsound : context.Sound blockOf known)
    {block : CBlock} {vMerkleTree : List UInt256} (hblock : context.Handed known block vMerkleTree)
    (hentry : context.mapBlockIndex (block.getHash context.hash) = some pindex) :
    pindex.hashMerkleRoot = merkleRoot context.hash block.vtx := by
  have hheader : blockOf (block.getHash context.hash) = block.toCBlockHeader :=
    hsound.injOn (hsound.index _ _ hentry) hblock.known (hsound.madeOf.getHash _ _ hentry)
  rw [(hsound.madeOf.entry _ _ hentry).hashMerkleRoot, hheader, hblock.hashMerkleRoot]

/-- A merkle branch leads to the root of its block, and a transaction whose branch was taken from
a block of the main chain has the depth there that was returned. -/
theorem merkleBranch_accepted :
    (∀ (hash : Bytes → UInt256) (vtx : List CTransaction) (vMerkleTree : List UInt256)
      (nIndex : ℕ) (tx : CTransaction),
      vMerkleTree = [] ∨ vMerkleTree = buildMerkleTree hash vtx → vtx[nIndex]? = some tx →
      checkMerkleBranch hash (tx.getHash hash) (getMerkleBranch hash vtx vMerkleTree nIndex)
        (some nIndex) = merkleRoot hash vtx) ∧
    ∀ (context : MerkleContext) (blockOf : UInt256 → CBlockHeader) (known : Set CBlockHeader)
      (rounds : ℕ) (self self' : CMerkleTx) (pblock : Option (CBlock × List UInt256))
      (block : CBlock) (pindex : CBlockIndex) (nDepth : Int32), context.Sound blockOf known →
      (∀ block vMerkleTree, pblock = some (block, vMerkleTree) →
        context.Handed known block vMerkleTree) →
      self.Located context rounds pblock block pindex →
      self.setMerkleBranch context rounds pblock = .ok (nDepth, self') →
      checkMerkleBranch context.hash (self'.toCTransaction.getHash context.hash)
          self'.vMerkleBranch self'.nIndex = pindex.hashMerkleRoot ∧
        self'.getDepthInMainChain context =
          .ok (nDepth, some pindex, { self' with fMerkleVerified := true }) := by
  refine ⟨fun hash vtx vMerkleTree nIndex tx hcache htx =>
    checkMerkleBranch_getMerkleBranch hcache htx, ?_⟩
  intro context blockOf known rounds self self' pblock block pindex nDepth hsound hpblock hlocated
    hrun
  obtain ⟨vMerkleTree, hlook⟩ := hlocated.lookIn
  have hblock := hsound.handed_of_lookIn hpblock hlook
  have hdepth := MerkleContext.depthInMainChain_of_main hlocated.entry hlocated.main
  obtain ⟨nIndex, hfind⟩ : ∃ nIndex, block.vtx.findIdx? (· = self.toCTransaction) =
      some nIndex := by
    rw [← Option.isSome_iff_exists, findIdx?_isSome, any_eq_true]
    exact ⟨_, hlocated.mem, decide_eq_true rfl⟩
  have htx : block.vtx[nIndex]? = some self.toCTransaction := by
    obtain ⟨hlt, hfound, -⟩ := findIdx?_eq_some_iff_getElem.mp hfind
    rw [getElem?_eq_getElem hlt, of_decide_eq_true hfound]
  rw [CMerkleTx.setMerkleBranch, hlook] at hrun
  simp only [Except.bind_eq_ok_iff, Except.ok.injEq] at hrun
  obtain ⟨found, rfl, hrun⟩ := hrun
  simp only [hfind, hdepth, Except.bind_eq_ok_iff] at hrun
  obtain ⟨_, ⟨nBest, hbest, hpair⟩, hrun⟩ := hrun
  cases hpair
  cases hrun
  have hcheck : checkMerkleBranch context.hash (self.toCTransaction.getHash context.hash)
      (getMerkleBranch context.hash block.vtx vMerkleTree nIndex) (some nIndex) =
        pindex.hashMerkleRoot := by
    rw [checkMerkleBranch_getMerkleBranch hblock.vMerkleTree htx,
      hsound.hashMerkleRoot_eq hblock hlocated.entry]
  refine ⟨hcheck, ?_⟩
  have hne : block.getHash context.hash ≠ 0 := by
    intro hzero
    have hentry := hlocated.entry
    rw [hzero, hsound.zero] at hentry
    cases hentry
  have hstart : ¬ (block.getHash context.hash = 0 ∨ (some nIndex : Option ℕ) = none) :=
    not_or.mpr ⟨hne, Option.some_ne_none nIndex⟩
  rw [CMerkleTx.getDepthInMainChain, if_neg hstart, hdepth, hbest]
  exact if_neg fun hbad => hbad.2 hcheck

end Branch

/-! The sample block above the genesis block, and its second transaction. -/

namespace Branched

def sha256d (m : Bytes) : UInt256 :=
  if m = (genesisBlock .official).toCBlockHeader.serialize then hashGenesisBlock .official
  else Sample.sha256d m

def hashBlock : UInt256 := 0x18dc837f62a0e6e0b6472c17a9647342558b1814e0a32cd015aef9917c007bd9

def tree : BlockTree := fun h =>
  if h = hashGenesisBlock .official then some { Sample.pindexGenesis with pnext := some hashBlock }
  else if h = hashBlock then some Sample.pindexBlock
  else none

def blockOf (h : UInt256) : CBlockHeader :=
  if h = hashBlock then Sample.block.toCBlockHeader else (genesisBlock .official).toCBlockHeader

def context : MerkleContext where
  hash := sha256d
  mapBlockIndex := tree
  pindexBest := some hashBlock
  pindexGenesisBlock := some (hashGenesisBlock .official)
  pblockindexFBBHLast := none
  pcoinsTip := ⟨fun txid =>
    if txid = Sample.spending.getHash sha256d then some (.ofTransaction Sample.spending 1)
    else none, some hashBlock⟩
  io := ⟨fun h => if h = hashBlock then some Sample.block else none, fun _ => none,
    fun _ => Sample.connectIo, false, false, true, .ok⟩

def wtx : CMerkleTx := ⟨Sample.spending, 0, [], none, false⟩

def known : List CBlockHeader :=
  [Sample.block.toCBlockHeader, (genesisBlock .official).toCBlockHeader]

theorem sound_context : context.Sound blockOf {header | header ∈ known} where
  madeOf := by
    constructor
    · intro h pindex hentry
      simp only [context, tree] at hentry
      split_ifs at hentry with hgenesis hblock
      · rw [hgenesis]
        decide
      · rw [hblock]
        decide
    · intro h pindex hentry
      simp only [context, tree] at hentry
      split_ifs at hentry with hgenesis hblock
      · cases hentry
        rw [hgenesis]
        exact ⟨rfl, rfl, rfl, rfl, rfl, rfl⟩
      · cases hentry
        rw [hblock]
        exact ⟨rfl, rfl, rfl, rfl, rfl, rfl⟩
  zero := by decide
  injOn := by
    have hnodup : (known.map (CBlockHeader.getHash sha256d)).Nodup := by decide
    exact fun header hheader other hother heq =>
      inj_on_of_nodup_map hnodup hheader hother heq
  index h pindex _ := by
    rw [blockOf]
    split_ifs
    · exact mem_cons_self
    · exact mem_cons_of_mem _ mem_cons_self
  disk h block hread := by
    simp only [context] at hread
    split_ifs at hread
    cases hread
    exact ⟨mem_cons_self, by decide⟩

end Branched

open Branched

/-- The block is read from disk, and the branch taken from it is accepted. -/
theorem merkleBranch_accepted_branched :
    ∃ wtx', wtx.setMerkleBranch context 2 none = .ok (1, wtx') ∧ wtx'.getDepthInMainChain context =
        .ok (1, some Sample.pindexBlock, { wtx' with fMerkleVerified := true }) := by
  have hdepth : (wtx.setMerkleBranch context 2 none).map Prod.fst = .ok 1 := by
    decide
  rcases hrun : wtx.setMerkleBranch context 2 none with failure | ⟨nDepth, wtx'⟩
  · rw [hrun] at hdepth
    cases hdepth
  · rw [hrun] at hdepth
    cases hdepth
    refine ⟨wtx', rfl, (merkleBranch_accepted.2 context blockOf _ 2 wtx
      wtx' none Sample.block Sample.pindexBlock 1 sound_context ?_ ?_ hrun).2⟩
    · intro block vMerkleTree hnone
      cases hnone
    · exact ⟨⟨[], by decide⟩, by decide, by decide, by decide⟩

end Primecoin
