import Primecoin.Chain.Atomic

/-!
# Block locators

A node tells a peer where it is by hashes of its branch, the newest first: twelve blocks in a row,
then blocks whose distances double, down to the genesis block. The peer goes on from the first of
them in its own main chain.
-/

namespace Primecoin

open List Option Backdated BlockTree

namespace BlockTree

def stepBack (tree : BlockTree) : ℕ → Option UInt256 → Option UInt256
  | 0, pindex => pindex
  | n + 1, pindex => stepBack tree n (pindex.bind tree.prev)

/-- The loop, with the number of hashes pushed so far. -/
def locatorLoop (tree : BlockTree) : ℕ → ℕ → Int32 → Option UInt256 → List UInt256
  | 0, _, _, _ => []
  | _ + 1, _, _, none => []
  | n + 1, nHave, nStep, some h =>
    h :: locatorLoop tree n (nHave + 1) (if 10 < nHave + 1 then nStep * 2 else nStep)
      (tree.stepBack nStep.toInt.toNat (some h))

def locator (tree : BlockTree) (network : Network) (rounds : ℕ) (h : UInt256) : List UInt256 :=
  tree.locatorLoop rounds 0 1 (some h) ++ [hashGenesisBlock network]

def isInMainChain (tree : BlockTree) (pindexBest : Option UInt256) (h : UInt256) : Bool :=
  (tree.next h).isSome || pindexBest == some h

def getBlockIndex (tree : BlockTree) (network : Network) (pindexBest : Option UInt256)
    (vHave : List UInt256) : UInt256 :=
  (vHave.find? fun h => (tree h).isSome && tree.isInMainChain pindexBest h).getD
    (hashGenesisBlock network)

def Within (receiver tree : BlockTree) : Prop :=
  ∀ h pindex, receiver h = some pindex → (tree h).map CBlockIndex.pprev = some pindex.pprev

variable {tree receiver : BlockTree} {link : Option UInt256} {l : List UInt256} {h b : UInt256}

theorem Within.ancestry (hwithin : receiver.Within tree) (hl : receiver.Ancestry link l) :
    tree.Ancestry link l := by
  induction hl with
  | root => exact .root
  | @step k a l hk _ ih =>
    obtain ⟨a', ha', hup⟩ := map_eq_some_iff.mp (hwithin k a hk)
    exact .step ha' (hup ▸ ih)

theorem Ancestry.stepBack (hl : tree.Ancestry link l) (n : ℕ) :
    tree.Ancestry (tree.stepBack n link) (l.drop n) := by
  induction n generalizing link l with
  | zero => exact hl
  | succ n ih =>
    cases hl with
    | root =>
      rw [stepBack, bind_none, drop_nil]
      exact drop_nil (i := n) ▸ ih .root
    | step hk hl =>
      rw [stepBack, bind_some, prev, hk]
      exact ih hl

theorem MainChain.isInMainChain_iff (hmain : tree.MainChain (some b))
    (hl : tree.Ancestry (some b) l) (h : UInt256) :
    ((tree h).isSome && tree.isInMainChain (some b) h) = true ↔ h ∈ l := by
  obtain ⟨l', hl', hlinks⟩ := hmain
  obtain rfl := hl.unique hl'
  rw [Bool.and_eq_true, isInMainChain, Bool.or_eq_true, beq_iff_eq, some.injEq]
  constructor
  · rintro ⟨-, hnext | rfl⟩
    · obtain ⟨q, hq⟩ := isSome_iff_exists.mp hnext
      obtain ⟨hmem, hprev⟩ := (hlinks h q).mp hq
      obtain ⟨entry, hentry, hup⟩ := bind_eq_some_iff.mp hprev
      exact hl.up_mem hmem hentry hup
    · exact mem_of_head? hl.head?_eq
  · intro hmem
    obtain ⟨entry, hentry⟩ := hl.exists_of_mem hmem
    refine ⟨isSome_iff_exists.mpr ⟨entry, hentry⟩, ?_⟩
    obtain ⟨s, t, rfl⟩ := append_of_mem hmem
    rcases eq_nil_or_concat s with rfl | ⟨s, q, rfl⟩
    · exact .inr (some.inj hl.head?_eq).symm
    · -- the block before it in the list is its child
      rw [concat_eq_append, append_assoc] at hl hlinks
      obtain ⟨child, hchild⟩ := hl.exists_of_mem (mem_append_right s (mem_cons_self ..))
      refine .inl (isSome_iff_exists.mpr ⟨q, (hlinks h q).mpr ⟨by simp, ?_⟩⟩)
      rw [prev, hchild, bind_some, hl.up_eq hchild]
      rfl

/-- One block after the other, and then at the distance that the step has been doubled to. -/
def LoopPosition (nHave : ℕ) (nStep : Int32) (i : ℕ) : Prop :=
  nHave ≤ 10 ∧ i = nHave ∧ nStep = 1 ∨ 10 < nHave ∧ 11 ≤ i ∧ (i < 2 ^ 31 → nStep.toInt = i - 9)

theorem LoopPosition.next {nHave i : ℕ} {nStep : Int32} (hi : i < 2 ^ 31)
    (h : LoopPosition nHave nStep i) :
    LoopPosition (nHave + 1) (if 10 < nHave + 1 then nStep * 2 else nStep) (i + nStep.toInt.toNat) ∧
    (i ≤ 10 ∧ nStep.toInt.toNat = 1 ∨ 11 ≤ i ∧ nStep.toInt.toNat = i - 9) := by
  rcases h with ⟨hle, rfl, rfl⟩ | ⟨hlt, hfar, hstep⟩
  · have hone : (1 : Int32).toInt.toNat = 1 := rfl
    have htwo : ((1 : Int32) * 2).toInt = 2 := rfl
    refine ⟨?_, .inl ⟨hle, hone⟩⟩
    rw [hone]
    split_ifs with hten
    · exact .inr ⟨hten, by omega, fun _ => by omega⟩
    · exact .inl ⟨by omega, rfl, rfl⟩
  · have hvalue := hstep hi
    refine ⟨.inr ⟨by omega, by omega, fun hnext => ?_⟩, .inr ⟨hfar, by omega⟩⟩
    have htwo : (2 : Int32).toInt = 2 := rfl
    rw [if_pos (by omega), Int32.toInt_mul, htwo, Int.bmod_eq_of_le] <;> omega

/-- The first block the predicate holds of, where it holds from the distance `n₀` on. -/
theorem find?_locatorLoop {P : UInt256 → Bool} {n₀ : ℕ}
    (hP : ∀ j x, l[j]? = some x → (P x = true ↔ n₀ ≤ j)) (hn₀ : n₀ < l.length)
    (hlength : l.length ≤ 2 ^ 31) (rounds : ℕ) {nHave i : ℕ} {nStep : Int32}
    (hl : tree.Ancestry link (l.drop i)) (hrounds : l.length ≤ rounds + i)
    (hposition : LoopPosition nHave nStep i) (hnear : i ≤ 11 ∧ i ≤ n₀ ∨ 11 < n₀ ∧ i < 2 * n₀) :
    (∃ j x, (tree.locatorLoop rounds nHave nStep link).find? P = some x ∧ l[j]? = some x ∧
        n₀ ≤ j ∧ (n₀ ≤ 11 → j = n₀) ∧ (11 < n₀ → j < 2 * n₀)) ∨
      11 < n₀ ∧ (tree.locatorLoop rounds nHave nStep link).find? P = none := by
  induction rounds generalizing link nHave nStep i with
  | zero => exact .inr ⟨by omega, rfl⟩
  | succ rounds ih =>
    cases hdrop : l.drop i with
    | nil =>
      rw [hdrop] at hl
      cases hl
      have hle : l.length ≤ i := drop_eq_nil_iff.mp hdrop
      exact .inr ⟨by omega, rfl⟩
    | cons h t =>
      obtain rfl : link = some h := by
        rw [hdrop] at hl
        exact hl.head?_eq.symm
      have hget : l[i]? = some h := by
        rw [← head?_drop, hdrop, head?_cons]
      have hi : i < l.length := (List.getElem?_eq_some_iff.mp hget).1
      rw [locatorLoop]
      by_cases hfound : P h = true
      · have hle := (hP i h hget).mp hfound
        exact .inl ⟨i, h, find?_cons_of_pos hfound, hget, hle, by omega, by omega⟩
      · have hlt := mt (hP i h hget).mpr hfound
        obtain ⟨hnext, hstep⟩ := hposition.next (hi.trans_le hlength)
        rw [find?_cons_of_neg hfound]
        refine ih ?_ (by omega) hnext (by omega)
        rw [← drop_drop]
        exact hl.stepBack _

/-- A peer with a main chain of the tree finds a common ancestor of the sender's block and its own
best block: the fork if this is at most eleven blocks behind the sender's block, otherwise the
genesis block or a block less than twice as far behind. -/
theorem getBlockIndex_locator {network : Network} (hroot : tree.Rooted)
    (hgenesis : ∃ pindex, tree (hashGenesisBlock network) = some pindex ∧ pindex.pprev = none)
    {pindex : CBlockIndex} (hh : tree h = some pindex) (hwithin : receiver.Within tree)
    (hmain : receiver.MainChain (some b)) {rounds : ℕ} (hrounds : tree.depth h < rounds) :
    ∃ c d fork t i x, tree.Ancestry (some h) (c ++ fork :: t) ∧
      receiver.Ancestry (some b) (d ++ fork :: t) ∧ (∀ q ∈ c, q ∉ d ++ fork :: t) ∧
      receiver.getBlockIndex network (some b) (tree.locator network rounds h) = x ∧
      (c ++ fork :: t)[i]? = some x ∧ x ∈ fork :: t ∧ (c.length ≤ 11 → x = fork) ∧
      (11 < c.length → x = hashGenesisBlock network ∨ i < 2 * c.length) := by
  obtain ⟨m, hm, -⟩ := id hmain
  have hm' := hwithin.ancestry hm
  obtain ⟨best, hbest⟩ := hm'.exists_of_mem (mem_of_head? hm'.head?_eq)
  obtain ⟨fork, d, c, t, -, hd, hc, hapart⟩ :=
    findFork_ok hroot hbest hh (Nat.lt_succ_self _)
  obtain rfl := hm'.unique hd
  have hP : ∀ j x, (c ++ fork :: t)[j]? = some x →
      (((receiver x).isSome && receiver.isInMainChain (some b) x) = true ↔ c.length ≤ j) := by
    intro j x hx
    rw [hmain.isInMainChain_iff hm]
    by_cases hj : j < c.length
    · rw [getElem?_append_left hj] at hx
      exact iff_of_false (hapart x (mem_of_getElem? hx)) (by omega)
    · rw [getElem?_append_right (by omega)] at hx
      exact iff_of_true (mem_append_right d (mem_of_getElem? hx)) (by omega)
  have hlength := hc.length_eq hroot.ranked hh
  have hdepth : tree.depth h = pindex.depth := by
    rw [depth, hh]
    rfl
  have hbound : pindex.depth < 2 ^ 31 := by
    have hlt := pindex.nHeight.toInt_lt
    rw [CBlockIndex.depth]
    omega
  have hfind := find?_locatorLoop hP (by simp) (by omega) rounds (i := 0) hc (by omega)
    (.inl ⟨by omega, rfl, rfl⟩) (by omega)
  rcases hfind with ⟨j, x, hx, hj, hle, hnear, hfar⟩ | ⟨hfar, hnone⟩
  · have hmem := hj
    rw [getElem?_append_right hle] at hmem
    refine ⟨c, d, fork, t, j, x, hc, hm, hapart, ?_, hj, mem_of_getElem? hmem,
      fun hclose => ?_, fun h => .inr (hfar h)⟩
    · rw [getBlockIndex, locator, find?_append, hx]
      rfl
    · rw [hnear hclose, Nat.sub_self] at hmem
      exact (Option.some.inj hmem).symm
  · -- no block of the loop is in the main chain, which leaves the genesis block
    obtain ⟨q, hq, a, ha, hup⟩ := hc.of_append.exists_root
    obtain ⟨genesis, hentry, hprev⟩ := hgenesis
    obtain rfl := hroot.genesis q _ a genesis ha hentry hup hprev
    obtain ⟨i, hi⟩ := getElem?_of_mem (mem_append_right c hq)
    refine ⟨c, d, fork, t, i, _, hc, hm, hapart, ?_, hi, hq, by omega, fun _ => .inl rfl⟩
    rw [getBlockIndex, locator, find?_append, hnone, Option.none_or, find?_singleton]
    split_ifs
    · rfl
    · rfl

end BlockTree

theorem BlockTree.getBlockIndex_locator_backdated :
    ∃ c fork t, tree2.Ancestry (some hash2) (c ++ fork :: t) ∧
      (c.length ≤ 11 → tree2.getBlockIndex .testNet (some (hashGenesisBlock .testNet))
        (tree2.locator .testNet 3 hash2) = fork) := by
  have hentry : tree2 hash2 = some (newBlockIndex sha256d .testNet tree1 block2 ⟨0, 500⟩) := by
    decide
  have hgenesis : tree2 (hashGenesisBlock .testNet) = some (newBlockIndex
      sha256d .testNet (fun _ => none) (genesisBlock .testNet) ⟨0, 8⟩) := by
    decide
  obtain ⟨c, d, fork, t, i, x, hc, -, -, rfl, -, -, hnear, -⟩ :=
    getBlockIndex_locator rooted_tree2 ⟨_, hgenesis, rfl⟩ hentry
      (show tree2.Within tree2 from fun h pindex hp => by
        rw [hp, Option.map_some]) consistent_node.main
      (show tree2.depth hash2 < 3 by decide)
  exact ⟨c, fork, t, hc, hnear⟩

end Primecoin
