import Mathlib.Data.Int.ConditionallyCompleteOrder
import Mathlib.Data.List.GetD
import Mathlib.Order.Interval.Finset.Basic
import Mathlib.Tactic.Linarith

/-!
# Medians of what peers claim

`CMedianFilter` gives the median of the last values fed to it, integers of `bits` bits: the
heights that peers claim, and the differences of their clocks from ours, which set the time
offset.
-/

namespace Primecoin

open List

structure CMedianFilter where
  vValues : List ℤ
  vSorted : List ℤ
  nSize : ℕ

namespace CMedianFilter

def new (size : ℕ) (initialValue : ℤ) : CMedianFilter := ⟨[initialValue], [initialValue], size⟩

def input (f : CMedianFilter) (value : ℤ) : CMedianFilter :=
  let vValues := (if f.vValues.length = f.nSize then f.vValues.tail else f.vValues) ++ [value]
  { f with vValues := vValues, vSorted := vValues.insertionSort (· ≤ ·) }

/-- The sum of the two middle elements is taken in `bits` bits. -/
def median (bits : ℕ) (f : CMedianFilter) : ℤ :=
  let size := f.vSorted.length
  if size % 2 = 1 then f.vSorted.getD (size / 2) 0
  else ((f.vSorted.getD (size / 2 - 1) 0 + f.vSorted.getD (size / 2) 0).bmod (2 ^ bits)).tdiv 2

/-- The sorted values are the values, sorted, and each has `bits` bits. -/
structure Sound (bits : ℕ) (f : CMedianFilter) : Prop where
  vSorted_eq : f.vSorted = f.vValues.insertionSort (· ≤ ·)
  ne_nil : f.vValues ≠ []
  range : ∀ x ∈ f.vValues, x ∈ Set.Ico (-2 ^ (bits - 1)) (2 ^ (bits - 1))

end CMedianFilter

section Sorted

variable {l : List ℤ} (hl : l.Pairwise (· ≤ ·)) {i : ℕ} (hi : i < l.length) {p : ℤ → Bool}
include hl hi

theorem getElem_le_getElem {j : ℕ} (hij : i ≤ j) (hj : j < l.length) : l[i] ≤ l[j] := by
  obtain rfl | hlt := hij.eq_or_lt
  · exact le_rfl
  · exact pairwise_iff_getElem.mp hl i j hi hj hlt

theorem succ_le_countP (hp : ∀ x ≤ l[i], p x = true) : i + 1 ≤ l.countP p := by
  have hall : (l.take (i + 1)).countP p = (l.take (i + 1)).length := by
    refine countP_eq_length.mpr fun x hx => hp x ?_
    obtain ⟨j, hj, rfl⟩ := mem_take_iff_getElem.mp hx
    exact getElem_le_getElem hl (by omega) (by omega) hi
  have hle := (take_sublist (i + 1) l).countP_le (p := p)
  rw [hall, length_take] at hle
  omega

theorem sub_le_countP (hp : ∀ x, l[i] ≤ x → p x = true) : l.length - i ≤ l.countP p := by
  have hall : (l.drop i).countP p = (l.drop i).length := by
    refine countP_eq_length.mpr fun x hx => hp x ?_
    obtain ⟨j, hj, rfl⟩ := mem_drop_iff_getElem.mp hx
    exact getElem_le_getElem hl hi (by omega) _
  rw [← length_drop, ← hall]
  exact (drop_sublist i l).countP_le

theorem getElem_mem_Icc (hlow : 2 * i ≤ l.length) (hhigh : l.length ≤ 2 * (i + 1)) {a b : ℤ}
    (hout : 2 * l.countP (· ∉ Set.Icc a b) < l.length) : l[i] ∈ Set.Icc a b := by
  constructor
  · by_contra hlt
    have hle := succ_le_countP hl hi (p := (· ∉ Set.Icc a b)) fun x hx =>
      decide_eq_true fun hmem => hlt (hmem.1.trans hx)
    omega
  · by_contra hlt
    have hle := sub_le_countP hl hi (p := (· ∉ Set.Icc a b)) fun x hx =>
      decide_eq_true fun hmem => hlt (hx.trans hmem.2)
    omega

end Sorted

namespace CMedianFilter

section Sound

variable {bits : ℕ} {f : CMedianFilter} (h : f.Sound bits)
include h

theorem Sound.input {value : ℤ} (hvalue : value ∈ Set.Ico (-2 ^ (bits - 1)) (2 ^ (bits - 1))) :
    (f.input value).Sound bits := by
  refine ⟨rfl, by simp [CMedianFilter.input], fun x hx => ?_⟩
  obtain hx | hx := mem_append.mp hx
  · split_ifs at hx
    · exact h.range x (mem_of_mem_tail hx)
    · exact h.range x hx
  · rwa [mem_singleton.mp hx]

theorem Sound.perm : f.vSorted.Perm f.vValues := by
  rw [h.vSorted_eq]
  exact perm_insertionSort _ _

theorem Sound.sorted : f.vSorted.Pairwise (· ≤ ·) := by
  rw [h.vSorted_eq]
  exact pairwise_insertionSort _ _

theorem Sound.length_pos : 0 < f.vSorted.length := by
  rw [h.perm.length_eq]
  exact length_pos_iff.mpr h.ne_nil

/-- A middle element is where more than half of the values are. -/
theorem Sound.getD_mem_Icc {i : ℕ} (hlow : 2 * i ≤ f.vSorted.length)
    (hhigh : f.vSorted.length ≤ 2 * (i + 1)) {a b : ℤ}
    (hout : 2 * f.vValues.countP (· ∉ Set.Icc a b) < f.vValues.length) :
    f.vSorted.getD i 0 ∈ Set.Icc a b := by
  have hpos := h.length_pos
  rw [getD_eq_getElem _ _ (by omega : i < f.vSorted.length)]
  rw [← h.perm.countP_eq, ← h.perm.length_eq] at hout
  exact getElem_mem_Icc h.sorted _ hlow hhigh hout

end Sound

/-- The mean of two integers of 32 bits is between them if their sum does not overflow. -/
theorem mean_mem_Icc_iff {a b : ℤ} (hab : a ≤ b) (ha : -2 ^ 31 ≤ a) (hb : b < 2 ^ 31) :
    ((a + b).bmod (2 ^ 32)).tdiv 2 ∈ Set.Icc a b ↔ -2 ^ 31 ≤ a + b ∧ a + b < 2 ^ 31 := by
  have htdiv : ∀ x : ℤ, x - 1 ≤ 2 * x.tdiv 2 ∧ 2 * x.tdiv 2 ≤ x + 1 := fun x => by
    rw [Int.tdiv_eq_ediv]
    split_ifs
    · omega
    · rw [Int.sign_eq_one_of_pos (by decide)]
      omega
  have hsum := htdiv ((a + b).bmod (2 ^ 32))
  rw [Set.mem_Icc]
  rw [Int.bmod_def] at hsum ⊢
  split_ifs at hsum ⊢ <;> omega

def lower (sorted : List ℤ) : ℤ := sorted.getD ((sorted.length - 1) / 2) 0

def upper (sorted : List ℤ) : ℤ := sorted.getD (sorted.length / 2) 0

theorem Sound.median_iff {f : CMedianFilter} (h : f.Sound 32) :
    f.median 32 ∈ Set.Icc (lower f.vSorted) (upper f.vSorted) ∧
        (∀ a b, 2 * f.vValues.countP (· ∉ Set.Icc a b) < f.vValues.length →
          f.median 32 ∈ Set.Icc a b) ↔
      f.vSorted.length % 2 = 1 ∨
        -2 ^ 31 ≤ lower f.vSorted + upper f.vSorted ∧
          lower f.vSorted + upper f.vSorted < 2 ^ 31 := by
  have hpos := h.length_pos
  rw [median]
  split_ifs with hodd
  · refine iff_of_true ⟨?_, fun a b => h.getD_mem_Icc (by omega) (by omega)⟩ (.inl hodd)
    rw [lower, upper, show (f.vSorted.length - 1) / 2 = f.vSorted.length / 2 by omega]
    exact ⟨le_rfl, le_rfl⟩
  · have hindex : f.vSorted.length / 2 - 1 = (f.vSorted.length - 1) / 2 := by omega
    have hmem : ∀ i < f.vSorted.length, f.vSorted.getD i 0 ∈ Set.Ico (-2 ^ 31) (2 ^ 31) := by
      intro i hi
      rw [getD_eq_getElem _ _ hi]
      exact h.range _ (h.perm.subset (getElem_mem hi))
    have hle : lower f.vSorted ≤ upper f.vSorted := by
      rw [lower, upper, getD_eq_getElem _ _ (by omega), getD_eq_getElem _ _ (by omega)]
      exact getElem_le_getElem h.sorted _ (by omega) _
    have hmean := mean_mem_Icc_iff hle (hmem _ (by omega)).1 (hmem _ (by omega)).2
    rw [hindex, ← lower, ← upper, or_iff_right hodd, ← hmean]
    refine and_iff_left_of_imp fun hmem a b hout => ?_
    exact ⟨(h.getD_mem_Icc (by omega) (by omega) hout).1.trans hmem.1,
      hmem.2.trans (h.getD_mem_Icc (by omega) (by omega) hout).2⟩

section Feed

variable (nSize : ℕ) (initialValue : Int32) (values : List Int32)

def feed : CMedianFilter :=
  (values.map Int32.toInt).foldl input (new nSize initialValue.toInt)

def latest : List ℤ :=
  ((initialValue :: values).map Int32.toInt).drop (values.length + 1 - nSize)

variable {nSize}

theorem feed_eq (hsize : 1 ≤ nSize) :
    feed nSize initialValue values = ⟨latest nSize initialValue values,
      (latest nSize initialValue values).insertionSort (· ≤ ·), nSize⟩ := by
  induction values using reverseRecOn with
  | nil => simp [feed, new, latest, Nat.sub_eq_zero_of_le hsize]
  | append_singleton values value ih =>
    have hnext : (if (latest nSize initialValue values).length = nSize then
        (latest nSize initialValue values).tail else latest nSize initialValue values) ++
          [value.toInt] = latest nSize initialValue (values ++ [value]) := by
      rw [latest, latest, ← cons_append, map_append, length_append, length_singleton, tail_drop]
      split_ifs with hfull <;> simp only [length_drop, length_map, length_cons] at hfull
      · rw [drop_append_of_le_length (by simp; omega)]
        congr 2
        omega
      · rw [Nat.sub_eq_zero_of_le (by omega), Nat.sub_eq_zero_of_le (by omega)]
        rfl
    rw [feed, map_append, foldl_append, ← feed, ih, ← hnext]
    rfl

end Feed

/-- The median fails only where the two middle heights add up to more than an `int` holds. -/
theorem median_feed_iff (nSize : ℕ) (hsize : 1 ≤ nSize) (initialValue : Int32)
    (values : List Int32) :
    let latest := latest nSize initialValue values
    let sorted := latest.insertionSort (· ≤ ·)
    let median := (feed nSize initialValue values).median 32
    median ∈ Set.Icc (lower sorted) (upper sorted) ∧
        (∀ a b, 2 * latest.countP (· ∉ Set.Icc a b) < latest.length → median ∈ Set.Icc a b) ↔
      sorted.length % 2 = 1 ∨
        -2 ^ 31 ≤ lower sorted + upper sorted ∧ lower sorted + upper sorted < 2 ^ 31 := by
  rw [feed_eq _ _ hsize]
  refine Sound.median_iff ⟨rfl, ?_, fun x hx => ?_⟩
  · simp only [latest, ne_eq, drop_eq_nil_iff, length_map, length_cons]
    omega
  · obtain ⟨value, -, rfl⟩ := mem_map.mp (mem_of_mem_drop hx)
    exact ⟨value.le_toInt, value.toInt_lt⟩

theorem median_feed_iff_heights :
    (feed 8 0 [100, 104, 102]).median 32 ∈ Set.Icc 100 102 :=
  ((median_feed_iff 8 (by decide) 0 [100, 104, 102]).mpr (by decide)).1

/-- Three peers that claim the greatest height there is push the median below it. -/
theorem median_feed_overflow :
    let sorted := (latest 8 0 [2147483647, 2147483647, 2147483647]).insertionSort (· ≤ ·)
    (feed 8 0 [2147483647, 2147483647, 2147483647]).median 32 ∉
      Set.Icc (lower sorted) (upper sorted) := by
  decide

end CMedianFilter

end Primecoin
