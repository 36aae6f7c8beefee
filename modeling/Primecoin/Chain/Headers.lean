import Primecoin.Block.PartialMerkleTree
import Primecoin.Chain.Fork
import Primecoin.Chain.Retarget

/-!
# Headers sent to light clients

`merkleblock` carries a header taken from the block, `headers` carries headers rebuilt from the
index. Both `GetBlockHeader` functions start from a null header and copy six fields. The prime
chain multiplier is not among them, although the block hash covers it, so the copy hashes to the
block hash only where the multiplier is zero.

`MadeOf` says which block each entry of an index was made of. It holds of all trees a node can
reach, and there no multiplier is zero.
-/

namespace Primecoin

open Codec List Function Option

namespace CBlock

/-- The multiplier stays at the value of `SetNull`. -/
def getBlockHeader (block : CBlock) : CBlockHeader where
  nVersion := block.nVersion
  hashPrevBlock := block.hashPrevBlock
  hashMerkleRoot := block.hashMerkleRoot
  nTime := block.nTime
  nBits := block.nBits
  nNonce := block.nNonce
  bnPrimeChainMultiplier := 0

end CBlock

namespace CBlockIndex

def getBlockHeader (pindex : CBlockIndex) : CBlockHeader where
  nVersion := pindex.nVersion
  hashPrevBlock := pindex.pprev.getD 0
  hashMerkleRoot := pindex.hashMerkleRoot
  nTime := pindex.nTime
  nBits := pindex.nBits
  nNonce := pindex.nNonce
  bnPrimeChainMultiplier := 0

structure MadeOf (pindex : CBlockIndex) (header : CBlockHeader) : Prop where
  nVersion : pindex.nVersion = header.nVersion
  hashPrevBlock : pindex.pprev.getD 0 = header.hashPrevBlock
  hashMerkleRoot : pindex.hashMerkleRoot = header.hashMerkleRoot
  nTime : pindex.nTime = header.nTime
  nBits : pindex.nBits = header.nBits
  nNonce : pindex.nNonce = header.nNonce

end CBlockIndex

/-! ## The two messages -/

structure CMerkleBlock where
  header : CBlockHeader
  txn : CPartialMerkleTree
  vMatchedTxn : List (ℕ × UInt256)
  deriving DecidableEq, Repr

namespace CMerkleBlock

/-- The loop of the constructor: the mask, the matched transactions with their positions, and the
filter afterwards. -/
def filterTransactions {F : Type} (hash : Bytes → UInt256)
    (isRelevantAndUpdate : F → CTransaction → UInt256 → Bool × F) :
    List CTransaction → ℕ → F → List Bool × List (ℕ × UInt256) × F
  | [], _, filter => ([], [], filter)
  | tx :: vtx, i, filter =>
    let (fRelevant, filter) := isRelevantAndUpdate filter tx (tx.getHash hash)
    let (vMatch, vMatchedTxn, filter) :=
      filterTransactions hash isRelevantAndUpdate vtx (i + 1) filter
    (fRelevant :: vMatch,
      if fRelevant then (i, tx.getHash hash) :: vMatchedTxn else vMatchedTxn, filter)

/-- The constructor, for a filter of any kind. -/
def ofBlock {F : Type} (hash : Bytes → UInt256)
    (isRelevantAndUpdate : F → CTransaction → UInt256 → Bool × F) (block : CBlock) (filter : F) :
    CMerkleBlock × F :=
  let (vMatch, vMatchedTxn, filter) :=
    filterTransactions hash isRelevantAndUpdate block.vtx 0 filter
  (⟨block.getBlockHeader,
    .ofMatches hash (block.vtx.map (CTransaction.getHash hash)) vMatch, vMatchedTxn⟩, filter)

end CMerkleBlock

namespace BlockTree

/-- The reply to `getheaders`: the entries from `pindex` on along the main chain, at most `nLimit`
and none after `hashStop`. -/
def headerEntries (tree : BlockTree) (hashStop : UInt256) :
    (nLimit : ℕ) → (pindex : Option UInt256) → List (UInt256 × CBlockIndex)
  | 0, _ => []
  | nLimit + 1, pindex =>
    match pindex.bind fun h => (tree h).map fun entry => (h, entry) with
    | none => []
    | some (h, entry) =>
      (h, entry) :: if h = hashStop then [] else headerEntries tree hashStop nLimit entry.pnext

def headers (tree : BlockTree) (hashStop : UInt256) (pindex : Option UInt256) : List CBlockHeader :=
  (tree.headerEntries hashStop 2000 pindex).map fun entry => entry.2.getBlockHeader

/-- `blockOf` gives for every entry a header with that hash, of which the entry was made. -/
structure MadeOf (hash : Bytes → UInt256) (blockOf : UInt256 → CBlockHeader) (tree : BlockTree) :
    Prop where
  getHash : ∀ h pindex, tree h = some pindex → (blockOf h).getHash hash = h
  entry : ∀ h pindex, tree h = some pindex → pindex.MadeOf (blockOf h)

end BlockTree

def Linked (hash : Bytes → UInt256) (headers : List CBlockHeader) : Prop :=
  headers.IsChain fun header next => next.hashPrevBlock = header.getHash hash

/-! ## The multiplier -/

theorem bigNumVch_eq_nil_iff (bn : ℤ) : bigNumVch bn = [] ↔ bn = 0 := by
  by_cases hzero : bn = 0
  · rw [bigNumVch, if_pos hzero]
    exact iff_of_true rfl hzero
  · refine iff_of_false (fun hnil => ?_) hzero
    have hlen := congrArg List.length hnil
    rw [bigNumVch, if_neg hzero, length_leBytes, length_nil] at hlen
    split_ifs at hlen

def CBlockHeader.stripped (header : CBlockHeader) : CBlockHeader :=
  { header with bnPrimeChainMultiplier := 0 }

open CBlockHeader

theorem CBlockHeader.serialize_stripped_eq_iff (header : CBlockHeader) :
    header.stripped.serialize = header.serialize ↔ header.bnPrimeChainMultiplier = 0 := by
  constructor
  · intro heq
    have hscript := append_cancel_left (show header.headerBytes ++ _ = _ from heq)
    have hlen := congrArg List.length hscript
    rw [length_serializeScript, length_serializeScript, scriptSerializeSize,
      scriptSerializeSize] at hlen
    have hone := one_le_getSizeOfCompactSize (bigNumVch header.bnPrimeChainMultiplier).length
    rw [← bigNumVch_eq_nil_iff, ← length_eq_zero_iff]
    change 1 + 0 = _ at hlen
    omega
  · intro hzero
    rw [stripped, ← hzero]

variable {hash : Bytes → UInt256} {header : CBlockHeader}

/-- Without a collision a header keeps its hash exactly if there is no multiplier. -/
theorem CBlockHeader.getHash_stripped_eq_iff
    (hinj : Set.InjOn hash {header.stripped.serialize, header.serialize}) :
    header.stripped.getHash hash = header.getHash hash ↔ header.bnPrimeChainMultiplier = 0 := by
  rw [← serialize_stripped_eq_iff]
  exact ⟨fun heq => hinj (by simp) (by simp) heq, fun heq => congrArg hash heq⟩

theorem CBlockIndex.MadeOf.getBlockHeader_eq {pindex : CBlockIndex}
    (h : pindex.MadeOf header) : pindex.getBlockHeader = header.stripped := by
  rw [CBlockIndex.getBlockHeader, h.nVersion, h.hashPrevBlock, h.hashMerkleRoot, h.nTime, h.nBits,
    h.nNonce]
  rfl

namespace BlockTree

variable {hash : Bytes → UInt256} {blockOf : UInt256 → CBlockHeader} {tree : BlockTree}
  {h : UInt256} {pindex : CBlockIndex}

theorem MadeOf.getHash_getBlockHeader_eq_iff (hmade : tree.MadeOf hash blockOf)
    (hentry : tree h = some pindex)
    (hinj : Set.InjOn hash {(blockOf h).stripped.serialize, (blockOf h).serialize}) :
    pindex.getBlockHeader.getHash hash = h ↔ (blockOf h).bnPrimeChainMultiplier = 0 := by
  rw [(hmade.entry h pindex hentry).getBlockHeader_eq,
    ← getHash_stripped_eq_iff hinj, hmade.getHash h pindex hentry]

theorem MadeOf.addToBlockIndex (hmade : tree.MadeOf hash blockOf) (network : Network)
    {block : CBlock} (pos : CDiskBlockPos)
    (hprev : (tree block.hashPrevBlock).isSome ∨ block.hashPrevBlock = 0) :
    (addToBlockIndex hash network tree block pos).MadeOf hash
      (Function.update blockOf (block.getHash hash) block.toCBlockHeader) := by
  have hnew : (newBlockIndex hash network tree block pos).MadeOf block.toCBlockHeader := by
    refine ⟨rfl, ?_, rfl, rfl, rfl, rfl⟩
    cases hparent : tree block.hashPrevBlock with
    | none =>
      rw [hparent] at hprev
      rw [newBlockIndex, hparent, hprev.resolve_left (by simp)]
      rfl
    | some pprev => rw [newBlockIndex_pprev pos hparent, getD_some]
  constructor
  · intro h pindex hentry
    by_cases hh : h = block.getHash hash
    · rw [hh, update_self]
    · rw [Primecoin.addToBlockIndex, update_of_ne hh] at hentry
      rw [update_of_ne hh]
      exact hmade.getHash h pindex hentry
  · intro h pindex hentry
    by_cases hh : h = block.getHash hash
    · rw [Primecoin.addToBlockIndex, hh, update_self, some.injEq] at hentry
      rw [hh, update_self, ← hentry]
      exact hnew
    · rw [Primecoin.addToBlockIndex, update_of_ne hh] at hentry
      rw [update_of_ne hh]
      exact hmade.entry h pindex hentry

end BlockTree

theorem Accepts.bnPrimeChainMultiplier_ne_zero {network : Network}
    {mapBlockIndex : BlockTree} {block : CBlock} {nAdjustedTime : Int64}
    (h : Accepts hash network mapBlockIndex block nAdjustedTime) :
    block.bnPrimeChainMultiplier ≠ 0 := by
  intro hzero
  obtain ⟨fuel, chain, hcheck⟩ := h.checkProofOfWork
  have hsmall : ((block.getHeaderHash hash).toNat : ℤ) * block.bnPrimeChainMultiplier <
      bnPrimeMin := by
    rw [hzero, mul_zero]
    decide
  rw [checkPrimeProofOfWork] at hcheck
  split_ifs at hcheck <;> simp at hcheck

/-- The index of a node is made of blocks with a multiplier. -/
theorem Reachable.exists_madeOf {network : Network} {tree : BlockTree}
    (h : Reachable hash network tree) : ∃ blockOf, tree.MadeOf hash blockOf ∧
      ∀ h pindex, tree h = some pindex → (blockOf h).bnPrimeChainMultiplier ≠ 0 := by
  induction h with
  | genesis pos hgenesis =>
    have hempty : BlockTree.MadeOf hash (fun _ => (genesisBlock network).toCBlockHeader)
        fun _ => none := ⟨fun _ _ hnone => (by cases hnone), fun _ _ hnone => (by cases hnone)⟩
    refine ⟨_, hempty.addToBlockIndex network pos (.inr rfl), fun h pindex _ => ?_⟩
    rw [update_apply, ite_self]
    cases network <;> decide
  | @accept tree block nAdjustedTime pos hreach haccepts ih =>
    obtain ⟨blockOf, hmade, hmultiplier⟩ := ih
    obtain ⟨-, pindexPrev, hprev⟩ := haccepts.parent hreach.wellFormed.genesis
    refine ⟨_, hmade.addToBlockIndex network pos (.inl (by rw [hprev]; rfl)),
      fun h pindex hentry => ?_⟩
    by_cases hh : h = block.getHash hash
    · rw [hh, update_self]
      exact haccepts.bnPrimeChainMultiplier_ne_zero
    · rw [addToBlockIndex, update_of_ne hh] at hentry
      rw [update_of_ne hh]
      exact hmultiplier h pindex hentry

/-! ## Linking the headers of a reply -/

namespace BlockTree

variable {hash : Bytes → UInt256} {blockOf : UInt256 → CBlockHeader} {tree : BlockTree}

theorem headerEntries_head {hashStop : UInt256} {nLimit : ℕ} {pindex : Option UInt256}
    {x : UInt256 × CBlockIndex} (hx : x ∈ (tree.headerEntries hashStop nLimit pindex).head?) :
    pindex = some x.1 := by
  cases nLimit with
  | zero => cases hx
  | succ nLimit =>
    rw [headerEntries] at hx
    split at hx
    · cases hx
    · next h entry hfound =>
      obtain ⟨p, rfl, hp⟩ := bind_eq_some_iff.mp hfound
      obtain ⟨found, -, heq⟩ := map_eq_some_iff.mp hp
      cases heq
      cases hx
      rfl

theorem headerEntries_isChain (hashStop : UInt256) (nLimit : ℕ) (pindex : Option UInt256) :
    (tree.headerEntries hashStop nLimit pindex).IsChain (fun x y => x.2.pnext = some y.1) ∧
      ∀ x ∈ tree.headerEntries hashStop nLimit pindex, tree x.1 = some x.2 := by
  induction nLimit generalizing pindex with
  | zero => exact ⟨.nil, by simp [headerEntries]⟩
  | succ nLimit ih =>
    rw [headerEntries]
    split
    · exact ⟨.nil, by simp⟩
    · next h entry hfound =>
      obtain ⟨p, rfl, hp⟩ := bind_eq_some_iff.mp hfound
      obtain ⟨found, hentry, heq⟩ := map_eq_some_iff.mp hp
      cases heq
      split_ifs
      · exact ⟨.singleton _, by simpa using hentry⟩
      · obtain ⟨hchain, hentries⟩ := ih entry.pnext
        exact ⟨isChain_cons.mpr ⟨fun y hy => headerEntries_head hy, hchain⟩,
          forall_mem_cons.mpr ⟨hentry, hentries⟩⟩

end BlockTree

theorem isChain_iff_forall_dropLast {α : Type*} {S R : α → α → Prop} {P : α → Prop} {l : List α}
    (hl : l.IsChain S) (hR : ∀ x ∈ l, ∀ y ∈ l, S x y → (R x y ↔ P x)) :
    l.IsChain R ↔ ∀ x ∈ l.dropLast, P x := by
  induction l with
  | nil => simp
  | cons a l ih =>
    cases l with
    | nil => simp
    | cons b l =>
      obtain ⟨hab, hl⟩ := isChain_cons_cons.mp hl
      rw [isChain_cons_cons, dropLast_cons_cons, forall_mem_cons,
        hR a (by simp) b (by simp) hab, ih hl fun x hx y hy =>
          hR x (mem_cons_of_mem a hx) y (mem_cons_of_mem a hy)]

/-- The headers hash to the block hash exactly for blocks without a multiplier. A light client
that links them by their hashes gets as far as the first block with one. -/
theorem relayed_headers_iff (hash : Bytes → UInt256) :
    (∀ {F : Type} (isRelevantAndUpdate : F → CTransaction → UInt256 → Bool × F) (block : CBlock)
      (filter : F), Set.InjOn hash {block.stripped.serialize, block.toCBlockHeader.serialize} →
      ((CMerkleBlock.ofBlock hash isRelevantAndUpdate block filter).1.header.getHash hash =
        block.getHash hash ↔ block.bnPrimeChainMultiplier = 0)) ∧
    ∀ (blockOf : UInt256 → CBlockHeader) (tree : BlockTree), tree.MadeOf hash blockOf →
      (∀ h pindex, tree h = some pindex →
        Set.InjOn hash {(blockOf h).stripped.serialize, (blockOf h).serialize}) →
      (∀ h pindex, tree h = some pindex → (pindex.getBlockHeader.getHash hash = h ↔
        (blockOf h).bnPrimeChainMultiplier = 0)) ∧
      ∀ best, tree.MainChain best → ∀ hashStop pindex, (Linked hash (tree.headers hashStop pindex) ↔
          ∀ entry ∈ (tree.headerEntries hashStop 2000 pindex).dropLast,
            (blockOf entry.1).bnPrimeChainMultiplier = 0) := by
  refine ⟨?_, ?_⟩
  · intro F isRelevantAndUpdate block filter hinj
    exact getHash_stripped_eq_iff hinj
  · intro blockOf tree hmade hinj
    refine ⟨?_, ?_⟩
    · intro h pindex hentry
      exact hmade.getHash_getBlockHeader_eq_iff hentry (hinj h pindex hentry)
    · intro best hmain hashStop pindex
      obtain ⟨hchain, hentries⟩ := @BlockTree.headerEntries_isChain tree hashStop 2000 pindex
      rw [Linked, BlockTree.headers, isChain_map]
      refine isChain_iff_forall_dropLast hchain fun x hx y hy hnext => ?_
      have hy' := hentries y hy
      have hx' := hentries x hx
      have hprev : y.2.pprev = some x.1 := by
        obtain ⟨l, -, hlinks⟩ := hmain
        have hlink := ((hlinks x.1 y.1).mp (by rw [BlockTree.next, hx']; exact hnext)).2
        rwa [BlockTree.prev, hy'] at hlink
      have heq : y.2.getBlockHeader.hashPrevBlock = x.1 := by
        rw [CBlockIndex.getBlockHeader, hprev, Option.getD_some]
      rw [heq, eq_comm, hmade.getHash_getBlockHeader_eq_iff hx' (hinj x.1 x.2 hx')]

namespace GenesisHeader

def sha256d (m : Bytes) : UInt256 :=
  if m = (genesisBlock .official).toCBlockHeader.serialize then hashGenesisBlock .official
  else if m = (genesisBlock .official).stripped.serialize then
    0x70cbbf9c024eb371dc362eed861a226bcbdd0bd2c89fc35da6280b20a86afb04
  else 0

def tree : BlockTree := genesisTree sha256d .official ⟨0, 8⟩

/-- A filter that matches nothing. -/
def isRelevantAndUpdate (filter : Unit) (_ : CTransaction) (_ : UInt256) : Bool × Unit :=
  (false, filter)

theorem madeOf_tree : tree.MadeOf sha256d fun _ => (genesisBlock .official).toCBlockHeader := by
  have hempty : BlockTree.MadeOf sha256d (fun _ => (genesisBlock .official).toCBlockHeader)
      fun _ => none := ⟨fun _ _ hnone => (by cases hnone), fun _ _ hnone => (by cases hnone)⟩
  have hprev : (genesisBlock .official).hashPrevBlock = 0 := rfl
  have hmade := hempty.addToBlockIndex .official ⟨0, 8⟩ (.inr hprev)
  rwa [update_eq_self] at hmade

theorem injOn_sha256d : Set.InjOn sha256d {(genesisBlock .official).stripped.serialize,
    (genesisBlock .official).toCBlockHeader.serialize} := by
  have hne : sha256d (genesisBlock .official).stripped.serialize ≠
      sha256d (genesisBlock .official).toCBlockHeader.serialize := by
    decide
  rintro m (rfl | rfl) m' (rfl | rfl) heq
  · rfl
  · exact absurd heq hne
  · exact absurd heq.symm hne
  · rfl

end GenesisHeader

open GenesisHeader

theorem Reachable.exists_madeOf_backdated :
    ∃ blockOf, Backdated.tree3.MadeOf Backdated.sha256d blockOf ∧
      ∀ h pindex, Backdated.tree3 h = some pindex → (blockOf h).bnPrimeChainMultiplier ≠ 0 :=
  Reachable.exists_madeOf (Backdated.reachable2.accept _ Backdated.accepts3)

/-- The header of the genesis block in a `merkleblock` message and in the reply to
`getheaders`. -/
theorem genesis_header_relayed : (CMerkleBlock.ofBlock sha256d isRelevantAndUpdate
        (genesisBlock .official) ()).1.header.getHash sha256d ≠
      (genesisBlock .official).getHash sha256d ∧
    ((tree (hashGenesisBlock .official)).map fun pindex =>
        pindex.getBlockHeader.getHash sha256d) =
      some 0x70cbbf9c024eb371dc362eed861a226bcbdd0bd2c89fc35da6280b20a86afb04 := by
  decide

theorem relayed_headers_genesis : (CMerkleBlock.ofBlock sha256d isRelevantAndUpdate
        { genesisBlock .official with bnPrimeChainMultiplier := 0 } ()).1.header.getHash sha256d =
      (genesisBlock .official).stripped.getHash sha256d ∧
    ∀ pindex, tree (hashGenesisBlock .official) = some pindex →
      pindex.getBlockHeader.getHash sha256d ≠ hashGenesisBlock .official := by
  obtain ⟨hblock, htree⟩ := relayed_headers_iff sha256d
  refine ⟨(hblock isRelevantAndUpdate
    { genesisBlock .official with bnPrimeChainMultiplier := 0 } () ?_).mpr rfl, ?_⟩
  · rintro m (rfl | rfl) m' (rfl | rfl) _ <;> rfl
  · intro pindex hentry heq
    have hzero := ((htree _ _ madeOf_tree fun _ _ _ =>
      injOn_sha256d).1 _ pindex hentry).mp heq
    exact absurd hzero (by decide)

end Primecoin
