import Mathlib.Data.List.GetD
import Primecoin.Chain.Accept

/-!
# The median time past

An entry of a sorted list is at least `x` when enough entries are, so a median is compared by
counting. A block above the median of its ancestors adds one such entry to the window and at most
one leaves it; the window grows near the genesis block and slides from the 99th block on.
-/

namespace Primecoin

open List

theorem rel_getElem_iff_countP {α : Type*} {r : α → α → Prop} [DecidableRel r] [IsTrans α r]
    {l : List α} (hl : l.Pairwise r) {i : ℕ} (hi : i < l.length) (x : α) :
    r x l[i] ↔ l.length - i ≤ l.countP (r x ·) := by
  induction l generalizing i with
  | nil => cases hi
  | cons a l ih =>
    obtain ⟨ha, hl⟩ := pairwise_cons.mp hl
    have hall : r x a → ∀ b ∈ a :: l, r x b := by
      intro hx b hb
      rcases mem_cons.mp hb with rfl | hb
      · exact hx
      · exact IsTrans.trans _ _ _ hx (ha b hb)
    by_cases hx : r x a
    · have hcount : (a :: l).countP (r x ·) = (a :: l).length :=
        countP_eq_length.mpr fun b hb => decide_eq_true (hall hx b hb)
      rw [hcount]
      exact iff_of_true (hall hx _ (getElem_mem hi)) (Nat.sub_le _ _)
    · rw [countP_cons_of_neg (by simpa using hx)]
      cases i with
      | zero =>
        have hle := countP_le_length (p := (r x ·)) (l := l)
        refine iff_of_false hx ?_
        rw [length_cons]
        omega
      | succ i =>
        rw [getElem_cons_succ, length_cons, Nat.add_sub_add_right]
        exact ih hl _

variable {chain : List CBlockIndex}

/-- A time is at most the median when at least half of the window is not below it. -/
theorem le_getMedianTimePast_iff (hne : chain ≠ []) (x : Int64) : x ≤ getMedianTimePast chain ↔
      (chain.take nMedianTimeSpan).length - (chain.take nMedianTimeSpan).length / 2 ≤
        (chain.take nMedianTimeSpan).countP (x ≤ ·.getBlockTime) := by
  set times := (chain.take nMedianTimeSpan).map CBlockIndex.getBlockTime with htimes
  have hpos : 0 < chain.length := length_pos_iff.mpr hne
  have hperm := perm_insertionSort (fun a b : Int64 => a ≤ b) times
  have hlength : (times.insertionSort fun a b => a ≤ b).length =
      (chain.take nMedianTimeSpan).length := by rw [hperm.length_eq, htimes, length_map]
  have hspan : nMedianTimeSpan = 99 := rfl
  have hlt : times.length / 2 < (times.insertionSort fun a b => a ≤ b).length := by
    rw [hlength, htimes, length_map, length_take]
    omega
  have hmedian : getMedianTimePast chain =
      (times.insertionSort fun a b => a ≤ b)[times.length / 2] :=
    List.getD_eq_getElem _ _ hlt
  rw [hmedian, rel_getElem_iff_countP (pairwise_insertionSort _ _) hlt, hlength,
    hperm.countP_eq, htimes, length_map, countP_map]
  rfl

theorem getMedianTimePast_cons {pindex : CBlockIndex}
    (hne : chain ≠ []) (h : ¬ pindex.getBlockTime ≤ getMedianTimePast chain) :
    getMedianTimePast chain ≤ getMedianTimePast (pindex :: chain) := by
  have hold := (le_getMedianTimePast_iff hne _).mp (Int64.le_refl (getMedianTimePast chain))
  refine (le_getMedianTimePast_iff (cons_ne_nil _ _) _).mpr ?_
  -- the new block comes in for at most one of the old ones
  have hleaves := countP_le_length (p := fun other : CBlockIndex =>
    decide (getMedianTimePast chain ≤ other.getBlockTime)) (l := (chain.drop 98).take 1)
  have hnew := decide_eq_true (Int64.le_of_lt (Int64.not_le.mp h))
  have hspan : nMedianTimeSpan = 98 + 1 := rfl
  rw [hspan, take_add, countP_append, length_append] at hold
  rw [hspan, take_succ_cons, countP_cons, if_pos hnew, length_cons]
  rw [length_take] at hold hleaves ⊢
  rw [length_take, length_drop] at hold
  rw [length_drop] at hleaves
  omega

/-- Along a chain in which every block after the first is above the median of its ancestors, the
median never falls. -/
theorem getMedianTimePast_monotone {chain : List CBlockIndex}
    (hchecked : ∀ pindex ancestors, (pindex :: ancestors) <:+ chain → ancestors ≠ [] →
      ¬ pindex.getBlockTime ≤ getMedianTimePast ancestors)
    {older newer : List CBlockIndex} (hne : older ≠ []) (holder : older <:+ newer)
    (hnewer : newer <:+ chain) : getMedianTimePast older ≤ getMedianTimePast newer := by
  induction newer with
  | nil => exact absurd (suffix_nil.mp holder) hne
  | cons pindex ancestors ih =>
    rcases suffix_cons_iff.mp holder with rfl | holder
    · exact Int64.le_refl _
    · have hancestors : ancestors ≠ [] := by
        rintro rfl
        exact hne (suffix_nil.mp holder)
      exact Int64.le_trans (ih holder ((suffix_cons _ _).trans hnewer))
        (getMedianTimePast_cons hancestors (hchecked _ _ hnewer hancestors))

def timedBlockIndex (nTime : UInt32) : CBlockIndex :=
  ⟨none, none, none, 0, 0, 0, 0, 0, 0, 0, 2, 0, nTime, 0, 0⟩

/-- The time of the last block is below that of its parent. -/
theorem getMedianTimePast_monotone_backdated :
    getMedianTimePast (([12, 9, 5] : List UInt32).map timedBlockIndex) ≤
      getMedianTimePast (([10, 12, 9, 5] : List UInt32).map timedBlockIndex) := by
  refine getMedianTimePast_monotone (fun pindex ancestors hsuffix hne => ?_) (cons_ne_nil _ _)
    (suffix_cons _ _) (suffix_refl _)
  simp only [map_cons, map_nil, suffix_cons_iff, suffix_nil, cons.injEq, reduceCtorEq,
    or_false] at hsuffix
  rcases hsuffix with ⟨rfl, rfl⟩ | ⟨rfl, rfl⟩ | ⟨rfl, rfl⟩ | ⟨rfl, rfl⟩
  · decide
  · decide
  · decide
  · exact absurd rfl hne

end Primecoin
