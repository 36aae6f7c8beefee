import Primecoin.Block.Check
import Primecoin.Codec.Mask
import Primecoin.Data.Dyadic

/-!
# Partial merkle trees

`TraverseAndBuild` goes through the merkle tree depth first and writes a bit for every node:
whether a matched transaction is below. Where none is, or at a leaf, it writes the hash.
`TraverseAndExtract` goes the same way and uses the bits and hashes up.

Both split the ids below a node, a dyadic segment, in the same halves, so by induction on the
height the second uses exactly what the first has written for a node, and returns its hash and the
matched ids.
-/

namespace Primecoin

open Codec Dyadic List Sample

def merkleRootOfIds (hash : Bytes → UInt256) (vTxid : List UInt256) : UInt256 :=
  (merkleLoop hash vTxid.length vTxid 0 vTxid.length).getLastD 0

theorem merkleRoot_eq (hash : Bytes → UInt256) (vtx : List CTransaction) :
    merkleRoot hash vtx = merkleRootOfIds hash (vtx.map (CTransaction.getHash hash)) := by
  rw [merkleRootOfIds, length_map]
  rfl

structure CPartialMerkleTree where
  nTransactions : ℕ
  vBits : List Bool
  vHash : List UInt256
  fBad : Bool
  deriving DecidableEq, Repr

namespace CPartialMerkleTree

/-- The sum is an `unsigned int`. Up to the height of the tree it is less than three times the
number of transactions, so with at most 2^32 / 3 of them it does not wrap. -/
def calcTreeWidth (nTransactions height : ℕ) : ℕ := (nTransactions + (1 <<< height) - 1) >>> height

/-- The loop for the height; as many rounds as transactions are enough. -/
def calcTreeHeight (nTransactions : ℕ) : (rounds nHeight : ℕ) → ℕ
  | 0, nHeight => nHeight
  | rounds + 1, nHeight =>
    if 1 < calcTreeWidth nTransactions nHeight then
      calcTreeHeight nTransactions rounds (nHeight + 1)
    else nHeight

section Build

variable (hash : Bytes → UInt256) (vTxid : List UInt256) (vMatch : List Bool)

def calcHash : (height pos : ℕ) → UInt256
  | 0, pos => vTxid.getD pos 0
  | height + 1, pos =>
    let left := calcHash height (pos * 2)
    let right :=
      if pos * 2 + 1 < calcTreeWidth vTxid.length height then calcHash height (pos * 2 + 1)
      else left
    merkleNode hash (left, right)

def fParentOfMatch (height pos : ℕ) : Bool :=
  (range' (pos <<< height) (min ((pos + 1) <<< height) vTxid.length - pos <<< height)).any
    fun p => vMatch.getD p false

/-- On the vectors of bits and hashes written so far. -/
def traverseAndBuild : (height pos : ℕ) → List Bool × List UInt256 → List Bool × List UInt256
  | 0, pos, (vBits, vHash) =>
    (vBits ++ [fParentOfMatch vTxid vMatch 0 pos], vHash ++ [calcHash hash vTxid 0 pos])
  | height + 1, pos, (vBits, vHash) =>
    let vBits := vBits ++ [fParentOfMatch vTxid vMatch (height + 1) pos]
    if fParentOfMatch vTxid vMatch (height + 1) pos = false then
      (vBits, vHash ++ [calcHash hash vTxid (height + 1) pos])
    else
      let state := traverseAndBuild height (pos * 2) (vBits, vHash)
      if pos * 2 + 1 < calcTreeWidth vTxid.length height then
        traverseAndBuild height (pos * 2 + 1) state
      else state

def ofMatches : CPartialMerkleTree :=
  let (vBits, vHash) := traverseAndBuild hash vTxid vMatch
    (calcTreeHeight vTxid.length vTxid.length 0) 0 ([], [])
  ⟨vTxid.length, vBits, vHash, false⟩

end Build

structure Extraction where
  nBitsUsed : ℕ
  nHashUsed : ℕ
  vMatch : List UInt256
  fBad : Bool
  deriving DecidableEq, Repr

section Extract

variable (hash : Bytes → UInt256) (tree : CPartialMerkleTree)

/-- The next stored hash, which is a matched transaction at a leaf with its bit
set. -/
def useHash (fMatched : Bool) (state : Extraction) : UInt256 × Extraction :=
  match tree.vHash[state.nHashUsed]? with
  | none => (0, { state with fBad := true })
  | some found => (found, { state with
      nHashUsed := state.nHashUsed + 1
      vMatch := if fMatched then state.vMatch ++ [found] else state.vMatch })

def traverseAndExtract : (height pos : ℕ) → Extraction → UInt256 × Extraction
  | 0, _, state =>
    match tree.vBits[state.nBitsUsed]? with
    | none => (0, { state with fBad := true })
    | some fParentOfMatch =>
      tree.useHash fParentOfMatch { state with nBitsUsed := state.nBitsUsed + 1 }
  | height + 1, pos, state =>
    match tree.vBits[state.nBitsUsed]? with
    | none => (0, { state with fBad := true })
    | some false => tree.useHash false { state with nBitsUsed := state.nBitsUsed + 1 }
    | some true =>
      let (left, state) := traverseAndExtract height (pos * 2)
        { state with nBitsUsed := state.nBitsUsed + 1 }
      if pos * 2 + 1 < calcTreeWidth tree.nTransactions height then
        let (right, state) := traverseAndExtract height (pos * 2 + 1) state
        (merkleNode hash (left, right), state)
      else (merkleNode hash (left, left), state)

/-- The root, or 0 in case of failure, and the matched ids. -/
def extractMatches : UInt256 × List UInt256 :=
  if tree.nTransactions = 0 then (0, [])
  else if maxBlockSize / 60 < tree.nTransactions then (0, [])
  else if tree.nTransactions < tree.vHash.length then (0, [])
  else if tree.vBits.length < tree.vHash.length then (0, [])
  else
    let (hashMerkleRoot, state) := traverseAndExtract hash tree
      (calcTreeHeight tree.nTransactions tree.nTransactions 0) 0 ⟨0, 0, [], tree.fBad⟩
    if state.fBad then (0, state.vMatch)
    else if (state.nBitsUsed + 7) / 8 ≠ (tree.vBits.length + 7) / 8 then (0, state.vMatch)
    else if state.nHashUsed ≠ tree.vHash.length then (0, state.vMatch)
    else (hashMerkleRoot, state.vMatch)

end Extract

/-! ## Serialization -/

variable (tree : CPartialMerkleTree)

def vBytes : Bytes :=
  (range ((tree.vBits.length + 7) / 8)).map (maskByte fun p => tree.vBits.getD p false)

def serialize : Bytes :=
  leBytes 4 tree.nTransactions ++
    (writeVector (fun found : UInt256 => leBytes 32 found.toNat) tree.vHash ++
      writeVector (fun b => [b]) tree.vBytes)

def unserialize : Reader UInt8 CPartialMerkleTree := do
  let nTransactions ← readLE 4
  let vHash ← readVector do
    let found ← readLE 32
    pure (BitVec.ofNat 256 found)
  let vBytes ← readVector next
  pure ⟨nTransactions, vBytes.flatMap byteBits, vHash, false⟩

/-! ## The shape of the tree -/

theorem calcTreeWidth_eq (nTransactions height : ℕ) :
    calcTreeWidth nTransactions height = width nTransactions height := by
  rw [calcTreeWidth, width, Nat.shiftLeft_eq, Nat.one_mul, Nat.shiftRight_eq_div_pow]

/-- The height found is the first one with a single node. -/
theorem calcTreeHeight_spec {nTransactions rounds nHeight : ℕ}
    (hrounds : nTransactions ≤ 2 ^ (nHeight + rounds))
    (hbelow : ∀ j < nHeight, 1 < width nTransactions j) :
    nTransactions ≤ 2 ^ calcTreeHeight nTransactions rounds nHeight ∧
      ∀ j < calcTreeHeight nTransactions rounds nHeight, 1 < width nTransactions j := by
  induction rounds generalizing nHeight with
  | zero => exact ⟨hrounds, hbelow⟩
  | succ rounds ih =>
    rw [calcTreeHeight, calcTreeWidth_eq]
    split_ifs with hwide
    · refine ih (by rwa [Nat.add_right_comm]) fun j hj => ?_
      rcases Nat.lt_succ_iff_lt_or_eq.mp hj with hlt | rfl
      · exact hbelow j hlt
      · exact hwide
    · exact ⟨width_le_one_iff.mp (not_lt.mp hwide), hbelow⟩

theorem calcTreeHeight_top (n : ℕ) : n ≤ 2 ^ calcTreeHeight n n 0 ∧
    ∀ j < calcTreeHeight n n 0, 1 < width n j :=
  calcTreeHeight_spec (by rw [Nat.zero_add]; exact Nat.lt_two_pow_self.le)
    fun j hj => absurd hj (Nat.not_lt_zero j)

section Traversal

variable {hash : Bytes → UInt256} {vTxid : List UInt256} {vMatch : List Bool} {height pos : ℕ}

theorem calcHash_eq (hpos : pos < width vTxid.length height) : calcHash hash vTxid height pos =
      ((Pairing.round (merkleNode hash))^[height] vTxid).getD pos 0 := by
  induction height generalizing pos with
  | zero => rfl
  | succ height ih =>
    have hlevel := @length_iterate_round _ (merkleNode hash) height vTxid
    rw [width_succ] at hpos
    rw [Function.iterate_succ_apply', Pairing.round, Pairing.pairs_eq_map_range 0, map_map,
      hlevel, getD_eq_getElem?_getD, getElem?_map, getElem?_range hpos,
      Option.map_some, Option.getD_some, Function.comp_apply, Nat.mul_comm 2 pos, calcHash,
      calcTreeWidth_eq, ih (by omega)]
    split_ifs with hright
    · rw [ih hright, min_eq_left (by omega)]
    · rw [min_eq_right (by omega)]
      have hlast : width vTxid.length height - 1 = pos * 2 := by omega
      rw [hlast]

theorem calcHash_top (hne : vTxid ≠ []) :
    calcHash hash vTxid (calcTreeHeight vTxid.length vTxid.length 0) 0 =
      merkleRootOfIds hash vTxid := by
  obtain ⟨htop, hbelow⟩ := calcTreeHeight_top vTxid.length
  generalize calcTreeHeight vTxid.length vTxid.length 0 = nHeight at htop hbelow
  have hpos : 0 < width vTxid.length nHeight := by
    rw [lt_width_iff, Nat.zero_mul]
    exact length_pos_iff.mpr hne
  have hone : ((Pairing.round (merkleNode hash))^[nHeight] vTxid).length = 1 := by
    rw [length_iterate_round]
    exact le_antisymm (width_le_one_iff.mpr htop) hpos
  obtain ⟨r, hr⟩ := length_eq_one_iff.mp hone
  have hroot := root_of_width hbelow hr
  have hlast := getLast?_merkleLoop hroot hroot.lt_length.le []
  rw [nil_append, length_nil] at hlast
  rw [calcHash_eq hpos, hr, merkleRootOfIds, getLastD_eq_getLast?, hlast]
  rfl

theorem fParentOfMatch_eq (hlen : vMatch.length = vTxid.length) (height pos : ℕ) :
    fParentOfMatch vTxid vMatch height pos = (seg height pos vMatch).any id := by
  have hseg : (range' (pos <<< height)
      (min ((pos + 1) <<< height) vTxid.length - pos <<< height)).map (vMatch.getD · false) =
      seg height pos vMatch := by
    have hstart : (pos + 1) * 2 ^ height = pos * 2 ^ height + 2 ^ height := by ring
    simp only [Nat.shiftLeft_eq, hstart, seg]
    generalize pos * 2 ^ height = start
    generalize 2 ^ height = count
    apply ext_getElem
    · rw [length_map, length_range', length_take, length_drop, hlen]
      omega
    · intro i hi hi'
      rw [length_take, length_drop] at hi'
      simp only [getElem_map, getElem_range', getElem_take, getElem_drop, Nat.one_mul]
      rw [getD_eq_getElem?_getD, getElem?_eq_getElem (by omega), Option.getD_some]
  rw [← hseg, any_map]
  rfl

def written (hash : Bytes → UInt256) (vTxid : List UInt256) (vMatch : List Bool)
    (height pos : ℕ) : List Bool × List UInt256 :=
  traverseAndBuild hash vTxid vMatch height pos ([], [])

theorem traverseAndBuild_eq (height pos : ℕ) (vBits : List Bool) (vHash : List UInt256) :
    traverseAndBuild hash vTxid vMatch height pos (vBits, vHash) =
      (vBits ++ (written hash vTxid vMatch height pos).1,
        vHash ++ (written hash vTxid vMatch height pos).2) := by
  induction height generalizing pos vBits vHash with
  | zero => rfl
  | succ height ih =>
    rw [written, traverseAndBuild, traverseAndBuild]
    simp only
    split_ifs
    · rfl
    · simp only [ih, append_assoc, nil_append]
    · simp only [ih, append_assoc, nil_append]

theorem written_leaf (height pos : ℕ)
    (h : height = 0 ∨ fParentOfMatch vTxid vMatch height pos = false) :
    written hash vTxid vMatch height pos =
      ([fParentOfMatch vTxid vMatch height pos], [calcHash hash vTxid height pos]) := by
  cases height with
  | zero => rfl
  | succ height =>
    have hnone := h.resolve_left (Nat.succ_ne_zero height)
    rw [written, traverseAndBuild]
    simp only [hnone, if_true, nil_append]

theorem written_both (h : fParentOfMatch vTxid vMatch (height + 1) pos = true)
    (hright : pos * 2 + 1 < calcTreeWidth vTxid.length height) :
    written hash vTxid vMatch (height + 1) pos =
      (true :: ((written hash vTxid vMatch height (pos * 2)).1 ++
          (written hash vTxid vMatch height (pos * 2 + 1)).1),
        (written hash vTxid vMatch height (pos * 2)).2 ++
          (written hash vTxid vMatch height (pos * 2 + 1)).2) := by
  rw [written, traverseAndBuild]
  simp only [h, Bool.true_eq_false, if_false, hright, if_true, traverseAndBuild_eq,
    nil_append, cons_append]

theorem written_left (h : fParentOfMatch vTxid vMatch (height + 1) pos = true)
    (hright : ¬ pos * 2 + 1 < calcTreeWidth vTxid.length height) :
    written hash vTxid vMatch (height + 1) pos =
      (true :: (written hash vTxid vMatch height (pos * 2)).1,
        (written hash vTxid vMatch height (pos * 2)).2) := by
  rw [written, traverseAndBuild]
  simp only [h, Bool.true_eq_false, if_false, hright, traverseAndBuild_eq, nil_append,
    singleton_append]

/-! ## In lock step -/

def matched (leaves : List (UInt256 × Bool)) : List UInt256 := (leaves.filter Prod.snd).map Prod.fst

theorem matched_append (leaves rest : List (UInt256 × Bool)) :
    matched (leaves ++ rest) = matched leaves ++ matched rest := by
  rw [matched, filter_append, map_append, matched, matched]

theorem matched_eq_nil (hlen : vMatch.length = vTxid.length) {height pos : ℕ}
    (h : fParentOfMatch vTxid vMatch height pos = false) :
    matched (seg height pos (vTxid.zip vMatch)) = [] := by
  rw [fParentOfMatch_eq hlen, any_eq_false] at h
  rw [matched, map_eq_nil_iff, filter_eq_nil_iff, seg_zip]
  intro leaf hleaf
  exact h leaf.2 (of_mem_zip hleaf).2

theorem matched_leaf (hlen : vMatch.length = vTxid.length) {pos : ℕ} (hpos : pos < vTxid.length) :
    matched (seg 0 pos (vTxid.zip vMatch)) =
      if fParentOfMatch vTxid vMatch 0 pos then [calcHash hash vTxid 0 pos] else [] := by
  have htxid : vTxid[pos]? = some (vTxid.getD pos 0) := by
    rw [getD_eq_getElem?_getD, getElem?_eq_getElem hpos, Option.getD_some]
  have hmatch := getElem?_eq_getElem (hlen ▸ hpos : pos < vMatch.length)
  rw [fParentOfMatch_eq hlen, seg_zip, seg_zero htxid, seg_zero hmatch, calcHash, matched]
  cases vMatch[pos] <;> rfl

theorem length_written (hash : Bytes → UInt256) (vMatch : List Bool) {height pos : ℕ}
    (hpos : pos < width vTxid.length height) :
    (written hash vTxid vMatch height pos).2.length ≤ (seg height pos vTxid).length ∧
      (written hash vTxid vMatch height pos).2.length ≤
        (written hash vTxid vMatch height pos).1.length ∧
      (written hash vTxid vMatch height pos).1.length < 2 ^ (height + 1) := by
  have hseg : ∀ {height pos : ℕ}, pos < width vTxid.length height →
      1 ≤ (seg height pos vTxid).length := by
    intro height pos hpos
    exact length_pos_iff.mpr (seg_eq_nil_iff.not.mpr (not_le.mpr hpos))
  induction height generalizing pos with
  | zero =>
    rw [written_leaf 0 pos (.inl rfl)]
    exact ⟨hseg hpos, le_rfl, Nat.one_lt_two⟩
  | succ height ih =>
    have hpow : 2 ^ (height + 1 + 1) = 2 * 2 ^ (height + 1) := Nat.pow_succ'
    have htwo : 2 ≤ 2 ^ (height + 1) := Nat.le_self_pow (Nat.succ_ne_zero height) 2
    cases hparent : fParentOfMatch vTxid vMatch (height + 1) pos with
    | false =>
      rw [written_leaf _ pos (.inr hparent)]
      exact ⟨hseg hpos, le_rfl, by rw [hpow]; simp only [length_singleton]; omega⟩
    | true =>
      rw [width_succ] at hpos
      obtain ⟨hleaves, hbits, hbound⟩ := @ih (pos * 2) (by omega)
      rw [seg_succ, length_append]
      by_cases hright : pos * 2 + 1 < calcTreeWidth vTxid.length height
      · rw [written_both hparent hright]
        rw [calcTreeWidth_eq] at hright
        obtain ⟨hleaves', hbits', hbound'⟩ := ih hright
        simp only [length_append, length_cons]
        omega
      · rw [written_left hparent hright]
        simp only [length_cons]
        omega

/-- `TraverseAndExtract` uses up exactly what was written for the node. -/
theorem traverseAndExtract_written (hlen : vMatch.length = vTxid.length) {height pos : ℕ}
    (hpos : pos < width vTxid.length height) {tree : CPartialMerkleTree}
    (htree : tree.nTransactions = vTxid.length) {bits bits' : List Bool}
    {hashes hashes' : List UInt256}
    (hbits : tree.vBits = bits ++ ((written hash vTxid vMatch height pos).1 ++ bits'))
    (hhashes : tree.vHash = hashes ++ ((written hash vTxid vMatch height pos).2 ++ hashes'))
    (found : List UInt256) :
    traverseAndExtract hash tree height pos ⟨bits.length, hashes.length, found, false⟩ =
      (calcHash hash vTxid height pos,
        ⟨bits.length + (written hash vTxid vMatch height pos).1.length,
          hashes.length + (written hash vTxid vMatch height pos).2.length,
          found ++ matched (seg height pos (vTxid.zip vMatch)), false⟩) := by
  have hhere : ∀ {α : Type} (before after : List α) (x : α),
      (before ++ ([x] ++ after))[before.length]? = some x := by
    intro α before after x
    rw [getElem?_append_right le_rfl, Nat.sub_self]
    rfl
  induction height generalizing pos bits bits' hashes hashes' found with
  | zero =>
    rw [width_zero] at hpos
    rw [written_leaf 0 pos (.inl rfl)] at hbits hhashes ⊢
    rw [traverseAndExtract, @matched_leaf hash _ _ hlen _ hpos]
    simp only [hbits, hhere, useHash, hhashes, length_singleton]
    cases fParentOfMatch vTxid vMatch 0 pos with
    | true => rfl
    | false => simp
  | succ height ih =>
    cases hparent : fParentOfMatch vTxid vMatch (height + 1) pos with
    | false =>
      rw [written_leaf _ pos (.inr hparent), hparent] at hbits hhashes ⊢
      rw [traverseAndExtract, matched_eq_nil hlen hparent]
      simp only [hbits, hhere, useHash, hhashes, length_singleton, append_nil,
        Bool.false_eq_true, if_false]
    | true =>
      rw [width_succ] at hpos
      have hposLeft : pos * 2 < width vTxid.length height := by omega
      have hbit : tree.vBits[bits.length]? = some true := by
        by_cases hright : pos * 2 + 1 < calcTreeWidth vTxid.length height
        · rw [hbits, written_both hparent hright]
          exact hhere bits _ true
        · rw [hbits, written_left hparent hright]
          exact hhere bits _ true
      rw [traverseAndExtract, hbit]
      simp only
      by_cases hright : pos * 2 + 1 < calcTreeWidth vTxid.length height
      · -- the bits of the two children follow the bit of the node
        rw [written_both hparent hright] at hbits hhashes ⊢
        generalize hL : written hash vTxid vMatch height (pos * 2) = left at hbits hhashes ⊢
        generalize hR : written hash vTxid vMatch height (pos * 2 + 1) = right at hbits hhashes ⊢
        have hleft := @ih (pos * 2) hposLeft (bits ++ [true]) (right.1 ++ bits') hashes
          (right.2 ++ hashes') (by rw [hbits, hL]; simp) (by rw [hhashes, hL]; simp) found
        have hrest := @ih (pos * 2 + 1) (calcTreeWidth_eq _ _ ▸ hright)
          (bits ++ [true] ++ left.1) bits' (hashes ++ left.2) hashes' (by rw [hbits, hR]; simp)
          (by rw [hhashes, hR]; simp)
          (found ++ matched (seg height (pos * 2) (vTxid.zip vMatch)))
        rw [hL, length_append, length_singleton] at hleft
        rw [hR, length_append, length_append, length_append, length_singleton] at hrest
        rw [hleft]
        simp only [htree, if_pos hright]
        rw [hrest, calcHash, if_pos hright, seg_succ, matched_append]
        simp only [length_cons, length_append, append_assoc, Prod.mk.injEq,
          Extraction.mk.injEq, true_and, and_true]
        omega
      · rw [written_left hparent hright] at hbits hhashes ⊢
        generalize hL : written hash vTxid vMatch height (pos * 2) = left at hbits hhashes ⊢
        have hleft := @ih (pos * 2) hposLeft (bits ++ [true]) bits' hashes hashes'
          (by rw [hbits, hL]; simp) (by rw [hhashes, hL]) found
        have hempty : seg height (pos * 2 + 1) (vTxid.zip vMatch) = [] := by
          rw [seg_eq_nil_iff, length_zip, hlen, min_self, ← calcTreeWidth_eq]
          exact not_lt.mp hright
        rw [hL, length_append, length_singleton] at hleft
        rw [hleft]
        simp only [htree, if_neg hright]
        rw [calcHash, if_neg hright, seg_succ, hempty, append_nil]
        simp only [length_cons, Prod.mk.injEq, Extraction.mk.injEq, true_and, and_true]
        omega

end Traversal

/-! ## The round trip -/

/-- The tree after serialization: the bits are padded to whole bytes. -/
def padded : CPartialMerkleTree :=
  { tree with
    vBits := tree.vBits ++ replicate (8 * ((tree.vBits.length + 7) / 8) - tree.vBits.length) false
    fBad := false }

theorem length_padded : tree.padded.vBits.length = 8 * ((tree.vBits.length + 7) / 8) := by
  rw [padded, length_append, length_replicate]
  omega

theorem flatMap_byteBits_vBytes : tree.vBytes.flatMap byteBits = tree.padded.vBits := by
  rw [vBytes, flatMap_byteBits]
  apply ext_getElem
  · rw [length_map, length_range, length_padded]
  · intro i hi hi'
    simp only [padded]
    rw [getElem_map, getElem_range, getD_eq_getElem?_getD, getElem_append]
    split_ifs with hlt
    · rw [getElem?_eq_getElem hlt, Option.getD_some]
    · rw [getElem?_eq_none (not_lt.mp hlt), Option.getD_none, getElem_replicate]

theorem readsBack_serialize {tree : CPartialMerkleTree} (hcount : tree.nTransactions < 2 ^ 32)
    (hhashes : tree.vHash.length ≤ maxSize) (hbits : tree.vBits.length ≤ maxSize) :
    ReadsBack unserialize tree.serialize tree.padded := by
  have hbytes : tree.vBytes.length ≤ maxSize := by
    rw [vBytes, length_map, length_range]
    simp only [maxSize] at hbits ⊢
    omega
  have hhash : ∀ found ∈ tree.vHash, ReadsBack
      (do let n ← readLE 32; pure (BitVec.ofNat 256 n) : Reader UInt8 UInt256)
      (leBytes 32 found.toNat) (id found) := by
    intro found _
    have hread := (ReadsBack.leBytes (w := 32) (n := found.toNat) found.isLt).map (BitVec.ofNat 256)
    rwa [BitVec.ofNat_toNat, BitVec.setWidth_eq] at hread
  have hvector := readsBack_writeVector id hhashes hhash
  have hbyte := readsBack_writeVector id hbytes fun b _ => ReadsBack.next b
  rw [map_id] at hvector hbyte
  have htree : tree.padded =
      ⟨tree.nTransactions, tree.vBytes.flatMap byteBits, tree.vHash, false⟩ := by
    rw [flatMap_byteBits_vBytes]
    rfl
  rw [htree]
  exact (ReadsBack.leBytes (w := 4) (n := tree.nTransactions) hcount).bind
    (hvector.bind (hbyte.map _))

/-- A light client extracts the merkle root of the block and the matched transactions. -/
theorem extractMatches_ofMatches (hash : Bytes → UInt256) {vTxid : List UInt256}
    {vMatch : List Bool} (hne : vTxid ≠ []) (hsize : vTxid.length ≤ 16666)
    (hlen : vMatch.length = vTxid.length) :
    ∃ tree, (∀ rest, unserialize ((ofMatches hash vTxid vMatch).serialize ++ rest) =
        some (tree, rest)) ∧
      tree.extractMatches hash =
        (merkleRootOfIds hash vTxid, ((vTxid.zip vMatch).filter Prod.snd).map Prod.fst) := by
  have hroot := @calcHash_top hash vTxid hne
  obtain ⟨htop, hbelow⟩ := calcTreeHeight_top vTxid.length
  set height := calcTreeHeight vTxid.length vTxid.length 0
  have hheight : height ≤ 15 := by
    by_contra hgt
    have hwide := hbelow 15 (not_le.mp hgt)
    rw [lt_width_iff] at hwide
    omega
  have htree : ofMatches hash vTxid vMatch = ⟨vTxid.length, (written hash vTxid vMatch height 0).1,
    (written hash vTxid vMatch height 0).2, false⟩ := rfl
  have hnonempty : 0 < vTxid.length := length_pos_iff.mpr hne
  have hpos : 0 < width vTxid.length height := by rwa [lt_width_iff, Nat.zero_mul]
  obtain ⟨hleaves, hbits, hbound⟩ := length_written hash vMatch hpos
  rw [seg_top htop] at hleaves
  have hpow : 2 ^ (height + 1) ≤ 2 ^ 16 :=
    Nat.pow_le_pow_right Nat.two_pos (Nat.succ_le_succ hheight)
  have hall : seg height 0 (vTxid.zip vMatch) = vTxid.zip vMatch :=
    seg_top (by rwa [length_zip, hlen, min_self])
  refine ⟨(ofMatches hash vTxid vMatch).padded, ?_, ?_⟩
  · refine readsBack_serialize ?_ ?_ ?_
    all_goals rw [htree]; simp only [maxSize]; omega
  · have htraverse := @traverseAndExtract_written hash vTxid vMatch hlen _ 0 hpos
      (ofMatches hash vTxid vMatch).padded rfl [] _ [] [] rfl (append_nil _).symm []
    rw [hroot, hall] at htraverse
    have hlength : (ofMatches hash vTxid vMatch).padded.vBits.length =
        8 * (((written hash vTxid vMatch height 0).1.length + 7) / 8) := length_padded _
    simp only [length_nil, Nat.zero_add, nil_append] at htraverse
    change traverseAndExtract hash _ (calcTreeHeight vTxid.length vTxid.length 0) 0 _ = _
      at htraverse
    have hn : (ofMatches hash vTxid vMatch).padded.nTransactions = vTxid.length := rfl
    have hhash : (ofMatches hash vTxid vMatch).padded.vHash =
      (written hash vTxid vMatch height 0).2 := rfl
    have hbad : (ofMatches hash vTxid vMatch).padded.fBad = false := rfl
    have hbig : ¬ maxBlockSize / 60 < vTxid.length := not_lt.mpr hsize
    rw [extractMatches, hn, hhash, hbad, hlength, if_neg hnonempty.ne', if_neg hbig,
      if_neg (not_lt.mpr hleaves), if_neg (by omega), htraverse]
    simp only [Bool.false_eq_true, if_false, ne_eq, not_true_eq_false]
    exact if_neg (not_not_intro (by omega))

theorem extractMatches_ofMatches_sample :
    ∃ tree, (∀ rest, unserialize ((ofMatches sha256d (block.vtx.map (CTransaction.getHash sha256d))
        [false, true, false]).serialize ++ rest) = some (tree, rest)) ∧
      tree.extractMatches sha256d = (block.hashMerkleRoot, [spending.getHash sha256d]) := by
  have hroot : merkleRootOfIds sha256d (block.vtx.map (CTransaction.getHash sha256d)) =
        block.hashMerkleRoot := by
    decide +kernel
  rw [← hroot]
  exact extractMatches_ofMatches sha256d (by decide) (by decide) rfl

end CPartialMerkleTree

end Primecoin
