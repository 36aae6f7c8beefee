import Mathlib.Tactic

/-!
# Hash trees that pair up neighbours

One round joins the neighbours of a list by a binary operation; an element left over at the end is
joined with itself. Rounds are repeated until one element, the root, is left.

Two lists share a root if one of them writes the padding out. Without duplicates a pair with two
equal components is always padding: by `eq_of_root_eq` two such lists with the same root are
equal, if the operation has no collision on the pairs joined and no leaf is the result of a join.
-/

namespace Pairing

open List

variable {α : Type*}

def pairs : List α → List (α × α)
  | [] => []
  | [a] => [(a, a)]
  | a :: b :: l => (a, b) :: pairs l

variable (node : α × α → α)

def round (l : List α) : List α := (pairs l).map node

/-- The pairs joined in all rounds; the first argument bounds their number. -/
def allPairs : ℕ → List α → List (α × α)
  | 0, _ => []
  | k + 1, l => if 1 < l.length then pairs l ++ allPairs k (round node l) else []

/-- `Root node k l r`: the root `r` of `l` is reached after `k` rounds. -/
inductive Root : ℕ → List α → α → Prop
  | leaf (a : α) : Root 0 [a] a
  | join {k : ℕ} {l : List α} {r : α} : 1 < l.length → Root k (round node l) r →
      Root (k + 1) l r

variable {node} {l : List α} {k : ℕ} {r : α}

theorem length_pairs (l : List α) : (pairs l).length = (l.length + 1) / 2 := by
  induction l using pairs.induct with
  | case1 => simp [pairs]
  | case2 a => simp [pairs]
  | case3 a b l ih =>
    simp only [pairs, length_cons, ih]
    omega

/-- The pairs by position: the second component stops at the last element. -/
theorem pairs_eq_map_range (d : α) (l : List α) :
    pairs l = (List.range ((l.length + 1) / 2)).map fun k =>
      (l.getD (2 * k) d, l.getD (min (2 * k + 1) (l.length - 1)) d) := by
  induction l using pairs.induct with
  | case1 => simp [pairs]
  | case2 a => simp [pairs]
  | case3 a b l ih =>
    have hhalf : ((a :: b :: l).length + 1) / 2 = (l.length + 1) / 2 + 1 := by
      simp only [length_cons]
      omega
    rw [hhalf, range_succ_eq_map, map_cons, map_map, pairs, ih]
    refine congrArg₂ List.cons (by simp) (map_congr_left fun k hk => ?_)
    have hk : k < (l.length + 1) / 2 := mem_range.mp hk
    have hfst : 2 * (k + 1) = 2 * k + 1 + 1 := by ring
    have hsnd : min (2 * (k + 1) + 1) ((a :: b :: l).length - 1) =
        min (2 * k + 1) (l.length - 1) + 1 + 1 := by
      simp only [length_cons]
      omega
    simp only [Function.comp_apply, Nat.succ_eq_add_one, hsnd]
    rw [hfst]
    simp only [getD_cons_succ]

@[simp] theorem length_round (l : List α) : (round node l).length = (l.length + 1) / 2 := by
  rw [round, length_map, length_pairs]

theorem mem_of_mem_pairs {p : α × α} (h : p ∈ pairs l) : p.1 ∈ l ∧ p.2 ∈ l := by
  induction l using pairs.induct with
  | case1 => simp [pairs] at h
  | case2 a =>
    rw [pairs, mem_singleton] at h
    simp [h]
  | case3 a b l ih =>
    rw [pairs, mem_cons] at h
    rcases h with rfl | h
    · simp
    · exact ⟨by simp [(ih h).1], by simp [(ih h).2]⟩

theorem nodup_pairs (h : l.Nodup) : (pairs l).Nodup := by
  induction l using pairs.induct with
  | case1 => exact nodup_nil
  | case2 a => exact nodup_singleton _
  | case3 a b l ih =>
    obtain ⟨ha, hb, hl⟩ : a ∉ b :: l ∧ b ∉ l ∧ l.Nodup := by
      simpa [nodup_cons, and_assoc] using h
    rw [pairs, nodup_cons]
    refine ⟨?_, ih hl⟩
    intro hmem
    exact ha (mem_cons_of_mem _ (mem_of_mem_pairs hmem).1)

theorem eq_of_pairs_eq {m : List α} (hl : l.Nodup) (hm : m.Nodup)
    (h : pairs l = pairs m) : l = m := by
  induction l using pairs.induct generalizing m with
  | case1 =>
    have hlen := congrArg List.length h
    rw [length_pairs, length_pairs, length_nil] at hlen
    exact (eq_nil_of_length_eq_zero (by omega)).symm
  | case2 a =>
    match m, h with
    | [b], h =>
      obtain ⟨rfl, -⟩ : a = b ∧ a = b := by simpa [pairs] using h
      rfl
    | b :: c :: m, h =>
      obtain ⟨⟨hab, hac⟩, -⟩ : (a = b ∧ a = c) ∧ [] = pairs m := by simpa [pairs] using h
      exact absurd (by simp [← hab, ← hac]) (nodup_cons.mp hm).1
  | case3 a b l ih =>
    match m, h with
    | [c], h =>
      obtain ⟨⟨hac, hbc⟩, -⟩ : (a = c ∧ b = c) ∧ pairs l = [] := by simpa [pairs] using h
      exact absurd (by simp [hac, hbc]) (nodup_cons.mp hl).1
    | c :: d :: m, h =>
      obtain ⟨⟨rfl, rfl⟩, htail⟩ : (a = c ∧ b = d) ∧ pairs l = pairs m := by
        simpa [pairs] using h
      rw [ih (nodup_cons.mp (nodup_cons.mp hl).2).2 (nodup_cons.mp (nodup_cons.mp hm).2).2 htail]

theorem exists_root {n : ℕ} (hn : l.length ≤ n + 1) (hl : l ≠ []) :
    ∃ k ≤ n, ∃ r, Root node k l r := by
  induction n generalizing l with
  | zero =>
    obtain ⟨a, rfl⟩ := length_eq_one_iff.mp (le_antisymm hn (length_pos_iff.mpr hl))
    exact ⟨0, le_rfl, a, Root.leaf a⟩
  | succ n ih =>
    by_cases hone : 1 < l.length
    · have hlen : (round node l).length = (l.length + 1) / 2 := length_round l
      obtain ⟨k, hk, r, hr⟩ := ih (l := round node l) (by omega) (length_pos_iff.mp (by omega))
      exact ⟨k + 1, by omega, r, Root.join hone hr⟩
    · obtain ⟨a, rfl⟩ := length_eq_one_iff.mp (le_antisymm (not_lt.mp hone) (length_pos_iff.mpr hl))
      exact ⟨0, by omega, a, Root.leaf a⟩

theorem Root.length_pos (h : Root node k l r) : 0 < l.length := by
  cases h with
  | leaf a => simp
  | join hl _ => omega

theorem Root.lt_length (h : Root node k l r) : k < l.length := by
  induction h with
  | leaf a => simp
  | join hl _ ih =>
    rw [length_round] at ih
    omega

theorem allPairs_subset {n : ℕ} (h : k ≤ n) (l : List α) :
    allPairs node k l ⊆ allPairs node n l := by
  induction k generalizing n l with
  | zero => simp [allPairs]
  | succ k ih =>
    obtain ⟨n, rfl⟩ := Nat.exists_eq_add_of_le' (Nat.one_le_of_lt h)
    unfold allPairs
    split_ifs with hl
    · exact append_subset.mpr ⟨subset_append_left _ _,
        subset_append_of_subset_right _ (ih (by omega) (round node l))⟩
    · exact nil_subset _

theorem Root.iterate_round (h : Root node k l r) : (round node)^[k] l = [r] := by
  induction h with
  | leaf a => rfl
  | join _ _ ih => rwa [Function.iterate_succ_apply]

section Injective

variable {S : Set (α × α)} {l m : List α} {r : α} {a b : ℕ}

section

variable (hS : Set.InjOn node S)
include hS

theorem nodup_round (hl : l.Nodup) (hpairs : ∀ p ∈ pairs l, p ∈ S) : (round node l).Nodup :=
  List.Nodup.map_on (fun _ hp _ hq h => hS (hpairs _ hp) (hpairs _ hq) h) (nodup_pairs hl)

theorem eq_of_map_node_eq {p q : List (α × α)}
    (hp : ∀ x ∈ p, x ∈ S) (hq : ∀ x ∈ q, x ∈ S) (h : p.map node = q.map node) : p = q := by
  induction p generalizing q with
  | nil => simpa [eq_comm] using h
  | cons x p ih =>
    cases q with
    | nil => simp at h
    | cons y q =>
      rw [map_cons, map_cons, List.cons.injEq] at h
      rw [hS (hp x (by simp)) (hq y (by simp)) h.1,
        ih (fun z hz => hp z (by simp [hz])) (fun z hz => hq z (by simp [hz])) h.2]

theorem Root.iterate_spec {k j : ℕ}
    (h : Root node k l r) (hl : l.Nodup) (hlS : ∀ p ∈ allPairs node k l, p ∈ S) (hj : j ≤ k) :
    ((round node)^[j] l).Nodup ∧ (j < k → ∀ p ∈ pairs ((round node)^[j] l), p ∈ S) := by
  induction h generalizing j with
  | leaf a =>
    obtain rfl := Nat.le_zero.mp hj
    exact ⟨hl, fun hlt => absurd hlt (Nat.lt_irrefl 0)⟩
  | @join k l r hlen _ ih =>
    have hhere : ∀ p ∈ pairs l, p ∈ S := fun p hp => hlS p (by simp [allPairs, hlen, hp])
    have hup : ∀ p ∈ allPairs node k (round node l), p ∈ S :=
      fun p hp => hlS p (by simp [allPairs, hlen, hp])
    cases j with
    | zero => exact ⟨hl, fun _ => hhere⟩
    | succ j =>
      rw [Function.iterate_succ_apply]
      have hrec := ih (nodup_round hS hl hhere) hup (Nat.le_of_succ_le_succ hj)
      exact ⟨hrec.1, fun hlt => hrec.2 (Nat.lt_of_succ_lt_succ hlt)⟩

/-- Of two trees with one root the lower one sits at the top of the higher
one. -/
theorem eq_iterate_of_root_eq
    (ha : Root node a l r) (hb : Root node b m r) (hab : a ≤ b) (hl : l.Nodup) (hm : m.Nodup)
    (hlS : ∀ p ∈ allPairs node a l, p ∈ S) (hmS : ∀ p ∈ allPairs node b m, p ∈ S) :
    l = (round node)^[b - a] m := by
  induction ha generalizing b m with
  | leaf r => exact hb.iterate_round.symm
  | @join a l r hlen _ ih =>
    cases hb with
    | leaf => exact absurd hab (Nat.not_succ_le_zero a)
    | @join b _ _ hlen' hb =>
      have hhere : ∀ p ∈ pairs l, p ∈ S := fun p hp => hlS p (by simp [allPairs, hlen, hp])
      have hhere' : ∀ p ∈ pairs m, p ∈ S := fun p hp => hmS p (by simp [allPairs, hlen', hp])
      have hround := ih hb (Nat.le_of_succ_le_succ hab) (nodup_round hS hl hhere)
        (nodup_round hS hm hhere') (fun p hp => hlS p (by simp [allPairs, hlen, hp]))
        (fun p hp => hmS p (by simp [allPairs, hlen', hp]))
      rw [← Function.iterate_succ_apply, Function.iterate_succ_apply'] at hround
      obtain ⟨hnodup, hpairs⟩ :=
        (Root.join hlen' hb).iterate_spec hS hm hmS (j := b - a) (by omega)
      rw [Nat.add_sub_add_right]
      exact eq_of_pairs_eq hl hnodup (eq_of_map_node_eq hS hhere (hpairs (by omega)) hround)

theorem eq_of_root_eq_of_le
    (ha : Root node a l r) (hb : Root node b m r) (hab : a ≤ b) (hl : l.Nodup) (hm : m.Nodup)
    (hlS : ∀ p ∈ allPairs node a l, p ∈ S) (hmS : ∀ p ∈ allPairs node b m, p ∈ S)
    (hleaf : ∀ x ∈ l, ∀ p ∈ S, node p ≠ x) : l = m := by
  have htop := eq_iterate_of_root_eq hS ha hb hab hl hm hlS hmS
  rcases Nat.eq_zero_or_pos (b - a) with hzero | hpos
  · rwa [hzero] at htop
  · obtain ⟨j, hj⟩ := Nat.exists_eq_add_of_le' hpos
    have hpairs := (hb.iterate_spec hS hm hmS (j := j) (by omega)).2 (by omega)
    obtain ⟨x, hx⟩ := exists_mem_of_length_pos ha.length_pos
    have hnode := hx
    rw [htop, hj, Function.iterate_succ_apply', round, mem_map] at hnode
    obtain ⟨p, hp, hpx⟩ := hnode
    exact absurd hpx (hleaf x hx p (hpairs p hp))

theorem eq_of_root_eq (ha : Root node a l r) (hb : Root node b m r) (hl : l.Nodup) (hm : m.Nodup)
    (hlS : ∀ p ∈ allPairs node l.length l, p ∈ S) (hmS : ∀ p ∈ allPairs node m.length m, p ∈ S)
    (hleafl : ∀ x ∈ l, ∀ p ∈ S, node p ≠ x) (hleafm : ∀ x ∈ m, ∀ p ∈ S, node p ≠ x) : l = m := by
  have hlS' : ∀ p ∈ allPairs node a l, p ∈ S :=
    fun p hp => hlS p (allPairs_subset ha.lt_length.le l hp)
  have hmS' : ∀ p ∈ allPairs node b m, p ∈ S :=
    fun p hp => hmS p (allPairs_subset hb.lt_length.le m hp)
  rcases le_total a b with hab | hba
  · exact eq_of_root_eq_of_le hS ha hb hab hl hm hlS' hmS' hleafl
  · exact (eq_of_root_eq_of_le hS hb ha hba hm hl hmS' hlS' hleafm).symm

end

end Injective

end Pairing
