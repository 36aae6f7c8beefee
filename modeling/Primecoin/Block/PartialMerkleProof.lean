import Primecoin.Block.PartialMerkleTree

/-!
# What a partial merkle tree proves, and its size

A light client has only the merkle root and the number of transactions of a block; the tree it is
sent may be anything. The traversal has the shape of the tree of the block, so without a collision
a node with the right hash had the right hashes below it, and the matches are ids of the block in
order.

The second part counts what is written: every node above a match adds a bit and, if it has two
children, a hash. The documentation allows two bits for each hash.
-/

namespace Primecoin

open Codec Dyadic Sample CTransaction

namespace CPartialMerkleTree

/-! ## Extraction from a tree of unknown origin -/

section Sound

variable (hash : Bytes → UInt256)

def calcMessages (vTxid : List UInt256) : (height pos : ℕ) → List Bytes
  | 0, _ => []
  | height + 1, pos =>
    let left := calcHash hash vTxid height (pos * 2)
    if pos * 2 + 1 < calcTreeWidth vTxid.length height then
      merkleMessage (left, calcHash hash vTxid height (pos * 2 + 1)) ::
        (calcMessages vTxid height (pos * 2) ++ calcMessages vTxid height (pos * 2 + 1))
    else merkleMessage (left, left) :: calcMessages vTxid height (pos * 2)

def extractMessages (tree : CPartialMerkleTree) : (height pos : ℕ) → Extraction → List Bytes
  | 0, _, _ => []
  | height + 1, pos, state =>
    match tree.vBits[state.nBitsUsed]? with
    | some true =>
      let start := { state with nBitsUsed := state.nBitsUsed + 1 }
      let (left, state) := traverseAndExtract hash tree height (pos * 2) start
      if pos * 2 + 1 < calcTreeWidth tree.nTransactions height then
        let (right, _) := traverseAndExtract hash tree height (pos * 2 + 1) state
        merkleMessage (left, right) :: (extractMessages tree height (pos * 2) start ++
          extractMessages tree height (pos * 2 + 1) state)
      else merkleMessage (left, left) :: extractMessages tree height (pos * 2) start
    | _ => []

def proofMessages (vTxid : List UInt256) (tree : CPartialMerkleTree) : List Bytes :=
  calcMessages hash vTxid (calcTreeHeight vTxid.length vTxid.length 0) 0 ++
    tree.extractMessages hash (calcTreeHeight tree.nTransactions tree.nTransactions 0) 0
      ⟨0, 0, [], tree.fBad⟩

variable {hash} {vTxid : List UInt256} {tree : CPartialMerkleTree}

theorem useHash_vMatch (fMatched : Bool) (state : Extraction) :
    (tree.useHash fMatched state).2.vMatch = state.vMatch ∨ fMatched = true ∧
      (tree.useHash fMatched state).2.vMatch =
        state.vMatch ++ [(tree.useHash fMatched state).1] := by
  rw [useHash]
  cases tree.vHash[state.nHashUsed]? with
  | none => exact .inl rfl
  | some found =>
    cases fMatched with
    | false => exact .inl rfl
    | true => exact .inr ⟨rfl, rfl⟩

/-- A node with the right hash adds matches of its own segment, in order. -/
theorem traverseAndExtract_sublist {known : Set Bytes} (hinj : Set.InjOn hash known)
    (htree : tree.nTransactions = vTxid.length) {height pos : ℕ} {state : Extraction}
    (hpos : pos < width vTxid.length height)
    (hcalc : ∀ m ∈ calcMessages hash vTxid height pos, m ∈ known)
    (hextract : ∀ m ∈ tree.extractMessages hash height pos state, m ∈ known)
    (hvalue : (traverseAndExtract hash tree height pos state).1 = calcHash hash vTxid height pos) :
    ∃ found, (traverseAndExtract hash tree height pos state).2.vMatch = state.vMatch ++ found ∧
      found.Sublist (seg height pos vTxid) := by
  have hnone : ∀ v l : List UInt256, ∃ found, v = v ++ found ∧ found.Sublist l :=
    fun v l => ⟨[], (List.append_nil v).symm, List.nil_sublist l⟩
  have hjoin : ∀ {p q : UInt256 × UInt256}, merkleMessage p ∈ known → merkleMessage q ∈ known →
      merkleNode hash p = merkleNode hash q → p = q :=
    fun hp hq heq => merkleMessage_injective (hinj hp hq heq)
  induction height generalizing pos state with
  | zero =>
    rw [width_zero] at hpos
    rw [traverseAndExtract] at hvalue ⊢
    cases hbit : tree.vBits[state.nBitsUsed]? with
    | none => exact hnone _ _
    | some fParentOfMatch =>
      rw [hbit] at hvalue
      simp only at hvalue ⊢
      rcases tree.useHash_vMatch fParentOfMatch
        { state with nBitsUsed := state.nBitsUsed + 1 } with heq | ⟨-, heq⟩
      · rw [heq]
        exact hnone _ _
      · rw [heq, hvalue, calcHash, seg_zero (x := vTxid.getD pos 0)]
        · exact ⟨_, rfl, List.Sublist.refl _⟩
        · rw [List.getD_eq_getElem?_getD, List.getElem?_eq_getElem hpos, Option.getD_some]
  | succ height ih =>
    rw [width_succ] at hpos
    have hposLeft : pos * 2 < width vTxid.length height := by omega
    rw [calcMessages] at hcalc
    rw [extractMessages] at hextract
    rw [traverseAndExtract] at hvalue ⊢
    rw [calcHash] at hvalue
    cases hbit : tree.vBits[state.nBitsUsed]? with
    | none => exact hnone _ _
    | some fParentOfMatch =>
      cases fParentOfMatch with
      | false =>
        rcases tree.useHash_vMatch false
          { state with nBitsUsed := state.nBitsUsed + 1 } with heq | ⟨hfalse, -⟩
        · simp only [heq]
          exact hnone _ _
        · cases hfalse
      | true =>
        simp only [hbit, htree] at hvalue hextract hcalc ⊢
        generalize hstart : ({ state with nBitsUsed := state.nBitsUsed + 1 } : Extraction) =
          start at hvalue hextract ⊢
        have hstartMatch : start.vMatch = state.vMatch := by rw [← hstart]
        rcases hleft : traverseAndExtract hash tree height (pos * 2) start with ⟨left, mid⟩
        rw [hleft] at hvalue hextract
        have ihLeft := @ih (pos * 2) start hposLeft
        rw [hleft, hstartMatch] at ihLeft
        rw [seg_succ]
        by_cases hright : pos * 2 + 1 < calcTreeWidth vTxid.length height
        · rcases hrest : traverseAndExtract hash tree height (pos * 2 + 1) mid with
            ⟨right, last⟩
          simp only [if_pos hright, hrest, List.forall_mem_cons, List.forall_mem_append]
            at hvalue hextract hcalc ⊢
          have hpair := hjoin hextract.1 hcalc.1 hvalue
          rw [Prod.mk.injEq] at hpair
          obtain ⟨found, hfound, hsub⟩ := ihLeft hcalc.2.1 hextract.2.1 hpair.1
          have ihRight := @ih (pos * 2 + 1) mid (calcTreeWidth_eq _ _ ▸ hright) hcalc.2.2
            hextract.2.2
          rw [hrest] at ihRight
          obtain ⟨found', hfound', hsub'⟩ := ihRight hpair.2
          refine ⟨found ++ found', ?_, hsub.append hsub'⟩
          rw [hfound', hfound, List.append_assoc]
        · simp only [if_neg hright, List.forall_mem_cons] at hvalue hextract hcalc ⊢
          have hpair := hjoin hextract.1 hcalc.1 hvalue
          rw [Prod.mk.injEq] at hpair
          obtain ⟨found, hfound, hsub⟩ := ihLeft hcalc.2 hextract.2 hpair.1
          exact ⟨found, hfound, hsub.trans (List.sublist_append_left _ _)⟩

theorem extractMatches_of_ne_zero (hroot : (tree.extractMatches hash).1 ≠ 0) :
    tree.nTransactions ≠ 0 ∧ ∃ state, traverseAndExtract hash tree
      (calcTreeHeight tree.nTransactions tree.nTransactions 0) 0 ⟨0, 0, [], tree.fBad⟩ =
        ((tree.extractMatches hash).1, state) ∧ (tree.extractMatches hash).2 = state.vMatch := by
  rw [extractMatches] at hroot ⊢
  rcases htraverse : traverseAndExtract hash tree
    (calcTreeHeight tree.nTransactions tree.nTransactions 0) 0 ⟨0, 0, [], tree.fBad⟩ with
    ⟨root, state⟩
  rw [htraverse] at hroot
  simp only at hroot ⊢
  split_ifs at hroot ⊢ with h
  all_goals first
    | exact absurd rfl hroot
    | exact ⟨h, state, rfl, rfl⟩

/-- What a client extracts under the merkle root of a block is part of the block, whatever it was
sent. -/
theorem extractMatches_sublist (htree : tree.nTransactions = vTxid.length)
    (hroot : (tree.extractMatches hash).1 = merkleRootOfIds hash vTxid)
    (hne : merkleRootOfIds hash vTxid ≠ 0)
    (hinj : Set.InjOn hash {m | m ∈ proofMessages hash vTxid tree}) :
    (tree.extractMatches hash).2.Sublist vTxid := by
  obtain ⟨hcount, state, htraverse, hmatches⟩ := extractMatches_of_ne_zero (hroot ▸ hne)
  have hids : vTxid ≠ [] := by
    rintro rfl
    exact hcount htree
  obtain ⟨htop, -⟩ := calcTreeHeight_top vTxid.length
  have hpos : 0 < width vTxid.length (calcTreeHeight vTxid.length vTxid.length 0) := by
    rw [lt_width_iff, Nat.zero_mul]
    exact List.length_pos_iff.mpr hids
  have hvalue : (traverseAndExtract hash tree (calcTreeHeight vTxid.length vTxid.length 0) 0
      ⟨0, 0, [], tree.fBad⟩).1 =
        calcHash hash vTxid (calcTreeHeight vTxid.length vTxid.length 0) 0 := by
    rw [← htree, htraverse, hroot, htree, calcHash_top hids]
  obtain ⟨found, hfound, hsub⟩ := traverseAndExtract_sublist hinj htree hpos
    (fun m hm => List.mem_append_left _ hm)
    (fun m hm => List.mem_append_right _ (htree.symm ▸ hm)) hvalue
  rw [← htree, htraverse] at hfound
  rw [seg_top htop] at hsub
  rw [hmatches, hfound]
  exact hsub

/-- The tree for the second transaction of the sample block. -/
theorem extractMatches_sublist_sample : ((ofMatches sha256d (block.vtx.map (getHash sha256d))
        [false, true, false]).extractMatches sha256d).2.Sublist
      (block.vtx.map (getHash sha256d)) := by
  have hinj : ∀ m ∈ proofMessages sha256d (block.vtx.map (getHash sha256d)) (ofMatches sha256d
        (block.vtx.map (getHash sha256d)) [false, true, false]),
      ∀ m' ∈ proofMessages sha256d (block.vtx.map (getHash sha256d)) (ofMatches sha256d
          (block.vtx.map (getHash sha256d)) [false, true, false]),
        sha256d m = sha256d m' → m = m' := by
    decide
  exact extractMatches_sublist rfl (by decide) (by decide) hinj

end Sound

/-! ## The size -/

section Size

variable (vMatch : List Bool)

def aboveMatch (height pos : ℕ) : Bool := (seg height pos vMatch).any id

/-- The nodes above a match that have two children. -/
def forks : (height pos : ℕ) → ℕ :=
  count fun height pos => aboveMatch vMatch (height + 1) pos &&
    decide (pos * 2 + 1 < width vMatch.length height)

/-- The nodes above a match that have only a left child. -/
def lone : (height pos : ℕ) → ℕ :=
  count fun height pos => aboveMatch vMatch (height + 1) pos &&
    !decide (pos * 2 + 1 < width vMatch.length height)

theorem count_aboveMatch_eq_zero {vMatch : List Bool} {height pos : ℕ}
    (h : aboveMatch vMatch height pos = false) (q : ℕ → ℕ → Bool) :
    count (fun height pos => aboveMatch vMatch (height + 1) pos && q height pos) height pos =
      0 := by
  refine @count_eq_zero _ _ _ (fun height pos => aboveMatch vMatch height pos = true)
    (fun height pos hp => (Bool.and_eq_true_iff.mp hp).1) (fun height pos hchild => ?_)
    (Bool.eq_false_iff.mp h)
  rw [aboveMatch, seg_succ, List.any_append, Bool.or_eq_true]
  exact hchild

variable {hash : Bytes → UInt256} {vTxid : List UInt256} {vMatch : List Bool}

theorem length_written_eq (hlen : vMatch.length = vTxid.length) (height pos : ℕ) :
    (written hash vTxid vMatch height pos).2.length = 1 + forks vMatch height pos ∧
      (written hash vTxid vMatch height pos).1.length =
        1 + 2 * forks vMatch height pos + lone vMatch height pos := by
  induction height generalizing pos with
  | zero => exact ⟨rfl, rfl⟩
  | succ height ih =>
    cases habove : aboveMatch vMatch (height + 1) pos with
    | false =>
      have hparent : fParentOfMatch vTxid vMatch (height + 1) pos = false :=
        (fParentOfMatch_eq hlen _ _).trans habove
      rw [written_leaf _ _ (.inr hparent), forks, lone,
        count_aboveMatch_eq_zero habove, count_aboveMatch_eq_zero habove]
      exact ⟨rfl, rfl⟩
    | true =>
      have hparent : fParentOfMatch vTxid vMatch (height + 1) pos = true :=
        (fParentOfMatch_eq hlen _ _).trans habove
      obtain ⟨hhashes, hbits⟩ := ih (pos * 2)
      obtain ⟨hhashes', hbits'⟩ := ih (pos * 2 + 1)
      rw [forks, lone, count, count, ← forks, ← lone, habove, Bool.true_and, Bool.true_and]
      by_cases hright : pos * 2 + 1 < calcTreeWidth vTxid.length height
      · have hwide : pos * 2 + 1 < width vMatch.length height := by
          rwa [hlen, ← calcTreeWidth_eq]
        rw [written_both hparent hright, decide_eq_true hwide]
        simp only [List.length_append, List.length_cons, hhashes, hhashes', hbits, hbits',
          Bool.toNat_true, Bool.not_true, Bool.toNat_false]
        omega
      · have hnarrow : ¬ pos * 2 + 1 < width vMatch.length height := by
          rwa [hlen, ← calcTreeWidth_eq]
        have hempty : aboveMatch vMatch height (pos * 2 + 1) = false := by
          rw [aboveMatch, seg_eq_nil_iff.mpr (not_lt.mp hnarrow)]
          rfl
        have hforks : forks vMatch height (pos * 2 + 1) = 0 := count_aboveMatch_eq_zero hempty _
        have hlone : lone vMatch height (pos * 2 + 1) = 0 := count_aboveMatch_eq_zero hempty _
        rw [written_left hparent hright, decide_eq_false hnarrow, hforks, hlone]
        simp only [List.length_cons, hhashes, hbits, Bool.toNat_true, Bool.not_false,
          Bool.toNat_false]
        omega

theorem forks_le (vMatch : List Bool) (height pos : ℕ) :
    forks vMatch height pos ≤ (seg height pos vMatch).count true * height := by
  induction height generalizing pos with
  | zero => exact Nat.zero_le _
  | succ height ih =>
    cases habove : aboveMatch vMatch (height + 1) pos with
    | false =>
      rw [forks, count_aboveMatch_eq_zero habove]
      exact Nat.zero_le _
    | true =>
      have hmatch : 1 ≤ (seg (height + 1) pos vMatch).count true := by
        obtain ⟨fMatch, hmem, htrue⟩ := List.any_eq_true.mp habove
        rw [Nat.one_le_iff_ne_zero, ne_eq, List.count_eq_zero, not_not]
        exact (show fMatch = true from htrue) ▸ hmem
      have hleft := ih (pos * 2)
      have hright := ih (pos * 2 + 1)
      rw [seg_succ, List.count_append] at hmatch ⊢
      rw [forks, count, ← forks]
      have hone := Bool.toNat_le (aboveMatch vMatch (height + 1) pos &&
        decide (pos * 2 + 1 < width vMatch.length height))
      rw [Nat.mul_add, Nat.mul_one, Nat.add_mul]
      omega

theorem length_serialize (tree : CPartialMerkleTree) :
    tree.serialize.length = 4 + (getSizeOfCompactSize tree.vHash.length + 32 * tree.vHash.length) +
      (getSizeOfCompactSize ((tree.vBits.length + 7) / 8) + (tree.vBits.length + 7) / 8) := by
  have hbytes : tree.vBytes.length = (tree.vBits.length + 7) / 8 := by
    rw [vBytes, List.length_map, List.length_range]
  simp only [serialize, writeVector, List.length_append, length_leBytes, length_writeCompactSize,
    List.length_flatMap, hbytes, List.map_const', List.sum_replicate, smul_eq_mul,
    List.length_singleton]
  ring

variable (hash vTxid vMatch)

/-- The documentation of the class: with `N` stored hashes the size is at most `10 +
ceil(32.25*N)`, and `N` is at most the number of transactions and `1 + matched*height`. -/
structure Documented : Prop where
  size_le : (ofMatches hash vTxid vMatch).serialize.length ≤
    10 + ⌈(32.25 : ℚ) * (ofMatches hash vTxid vMatch).vHash.length⌉₊
  le_transactions : (ofMatches hash vTxid vMatch).vHash.length ≤ vTxid.length
  le_matched : (ofMatches hash vTxid vMatch).vHash.length ≤
    1 + vMatch.count true * calcTreeHeight vTxid.length vTxid.length 0

/-- What the forks leave for nodes with only a left child: the bits up to the next multiple of
eight, and those of the bytes that a counter takes less than three. -/
def allowance (nForks nLone : ℕ) : ℕ :=
  1 + 2 * ((4 - (nForks + 1) % 4) % 4) + (if nForks + 1 < 253 then 16 else 0) +
    (if 1 + 2 * nForks + nLone ≤ 8 * 252 then 16 else 0)

/-- There is a transaction, the hashes can be counted in three bytes, and few nodes above a match
have only a left child. -/
structure Slim : Prop where
  ne_nil : vMatch ≠ []
  forks_lt : forks vMatch (calcTreeHeight vMatch.length vMatch.length 0) 0 + 1 < 2 ^ 16
  lone_le : lone vMatch (calcTreeHeight vMatch.length vMatch.length 0) 0 ≤
    allowance (forks vMatch (calcTreeHeight vMatch.length vMatch.length 0) 0)
      (lone vMatch (calcTreeHeight vMatch.length vMatch.length 0) 0)

theorem ceil_eq (n : ℕ) : ⌈(32.25 : ℚ) * n⌉₊ = (129 * n + 3) / 4 := by
  apply le_antisymm
  · rw [Nat.ceil_le]
    have hle : 129 * n ≤ 4 * ((129 * n + 3) / 4) := by omega
    have hcast : (129 * n : ℚ) ≤ 4 * ((129 * n + 3) / 4 : ℕ) := by exact_mod_cast hle
    linarith
  · have hle := Nat.le_ceil ((32.25 : ℚ) * n)
    generalize ⌈(32.25 : ℚ) * n⌉₊ = k at hle
    have hcast : (129 * n : ℚ) ≤ (4 * k : ℕ) := by
      push_cast
      linarith
    have hle' : 129 * n ≤ 4 * k := by exact_mod_cast hcast
    omega

theorem size_le_iff (nForks nLone : ℕ) :
    4 + (getSizeOfCompactSize (1 + nForks) + 32 * (1 + nForks)) +
        (getSizeOfCompactSize ((1 + 2 * nForks + nLone + 7) / 8) +
          (1 + 2 * nForks + nLone + 7) / 8) ≤ 10 + (129 * (1 + nForks) + 3) / 4 ↔
      nForks + 1 < 2 ^ 16 ∧ nLone ≤ allowance nForks nLone := by
  simp only [getSizeOfCompactSize, allowance]
  split_ifs <;> omega

variable {hash vTxid vMatch}

theorem length_vHash_ofMatches (hlen : vMatch.length = vTxid.length) :
    (ofMatches hash vTxid vMatch).vHash.length =
      1 + forks vMatch (calcTreeHeight vMatch.length vMatch.length 0) 0 := by
  rw [hlen]
  exact (length_written_eq hlen _ 0).1

theorem length_vBits_ofMatches (hlen : vMatch.length = vTxid.length) :
    (ofMatches hash vTxid vMatch).vBits.length =
      1 + 2 * forks vMatch (calcTreeHeight vMatch.length vMatch.length 0) 0 +
        lone vMatch (calcTreeHeight vMatch.length vMatch.length 0) 0 := by
  rw [hlen]
  exact (length_written_eq hlen _ 0).2

/-- The documented bounds hold exactly for slim trees. -/
theorem documented_iff (hlen : vMatch.length = vTxid.length) :
    Documented hash vTxid vMatch ↔ Slim vMatch := by
  have hstored := @length_vHash_ofMatches hash _ _ hlen
  have hsize := size_le_iff (forks vMatch (calcTreeHeight vMatch.length vMatch.length 0) 0)
    (lone vMatch (calcTreeHeight vMatch.length vMatch.length 0) 0)
  rw [← hstored, ← @length_vBits_ofMatches hash _ _ hlen, ← length_serialize, ← ceil_eq] at hsize
  constructor
  · rintro ⟨hle, htotal, -⟩
    obtain ⟨hforks, hlone⟩ := hsize.mp hle
    refine ⟨?_, hforks, hlone⟩
    rintro rfl
    rw [hstored, ← hlen] at htotal
    exact absurd htotal (by simp)
  · rintro ⟨hne, hforks, hlone⟩
    have hpos : 0 < vTxid.length := hlen ▸ List.length_pos_iff.mpr hne
    obtain ⟨htop, -⟩ := calcTreeHeight_top vTxid.length
    have hwidth : 0 < width vTxid.length (calcTreeHeight vTxid.length vTxid.length 0) := by
      rwa [lt_width_iff, Nat.zero_mul]
    refine ⟨hsize.mpr ⟨hforks, hlone⟩, ?_, ?_⟩
    · have hleaves := (length_written hash vMatch hwidth).1
      rwa [seg_top htop] at hleaves
    · have hmatched := forks_le vMatch (calcTreeHeight vMatch.length vMatch.length 0) 0
      rw [hlen, seg_top (hlen ▸ htop)] at hmatched
      rw [hstored, hlen]
      exact Nat.add_le_add_left hmatched 1

theorem aboveMatch_replicate (n height pos : ℕ) :
    aboveMatch (List.replicate n true) height pos = decide (pos < width n height) := by
  have hpow : 0 < 2 ^ height := Nat.two_pow_pos height
  rw [aboveMatch, seg, List.drop_replicate, List.take_replicate, List.any_replicate, eq_comm]
  by_cases hpos : pos < width n height
  · rw [decide_eq_true hpos]
    rw [lt_width_iff] at hpos
    rw [if_neg (by omega)]
    rfl
  · rw [decide_eq_false hpos]
    rw [lt_width_iff] at hpos
    rw [if_pos (by omega)]

end Size

/-- 1025 transactions, all matched. Ten nodes have only a left child, and the tree takes 33068
bytes instead of the 33067 allowed. -/
theorem not_documented_all_matched :
    ¬ Documented sha256d ((List.range 1025).map (BitVec.ofNat 256)) (List.replicate 1025 true) := by
  have hlen : (List.replicate 1025 true).length =
      ((List.range 1025).map (BitVec.ofNat 256)).length := by
    rw [List.length_replicate, List.length_map, List.length_range]
  have hforks : forks (List.replicate 1025 true) 11 0 = 1024 := by
    simp only [forks, aboveMatch_replicate, List.length_replicate]
    decide +kernel
  have hlone : lone (List.replicate 1025 true) 11 0 = 10 := by
    simp only [lone, aboveMatch_replicate, List.length_replicate]
    decide +kernel
  have hheight : calcTreeHeight 1025 1025 0 = 11 := by decide +kernel
  have hhashes := @length_vHash_ofMatches sha256d _ _ hlen
  have hbits := @length_vBits_ofMatches sha256d _ _ hlen
  rw [List.length_replicate, hheight, hforks] at hhashes
  rw [List.length_replicate, hheight, hforks, hlone] at hbits
  rintro ⟨hle, -, -⟩
  generalize ofMatches sha256d ((List.range 1025).map (BitVec.ofNat 256))
    (List.replicate 1025 true) = tree at hhashes hbits hle
  rw [length_serialize, ceil_eq, hhashes, hbits] at hle
  exact absurd hle (by decide)

theorem documented_sample :
    Documented sha256d (block.vtx.map (getHash sha256d)) [false, true, false] :=
  (documented_iff rfl).mpr ⟨by decide, by decide, by decide⟩

end CPartialMerkleTree

end Primecoin
