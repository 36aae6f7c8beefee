import Primecoin.Control.Along
import Primecoin.Net.MedianFilter

/-!
# The time offset

`AddTimeData` takes the difference of a peer's clock from ours, one for each address, and sets the
offset to the median while that is within 70 minutes.
-/

namespace Primecoin

open List

structure TimeData (ι : Type) where
  setKnown : Finset ι
  vTimeOffsets : CMedianFilter
  nTimeOffset : ℤ
  fDone : Bool
  strMiscWarning : String

/-- A call of `AddTimeData` and what `GetTime` returns during it. -/
structure TimeSample (ι : Type) where
  ip : ι
  nTime : Int64
  now : Int64

def TimeSample.nOffsetSample {ι : Type} (sample : TimeSample ι) : ℤ :=
  (sample.nTime - sample.now).toInt

def abs64 (n : ℤ) : ℤ := if 0 ≤ n then n else (-n).bmod (2 ^ 64)

namespace TimeData

variable {ι : Type}

def initial : TimeData ι := ⟨∅, .new 200 0, 0, false, ""⟩

def clockWarning : String :=
  "Warning: Please check that your computer's date and time are correct! " ++
    "If your clock is wrong Primecoin will not work properly."

/-- The part after the sample is added: the offset follows an odd number of samples. -/
def adjust (d : TimeData ι) : TimeData ι :=
  let size := d.vTimeOffsets.vValues.length
  if 5 ≤ size ∧ size % 2 = 1 then
    let nMedian := d.vTimeOffsets.median 64
    if abs64 nMedian < 70 * 60 then { d with nTimeOffset := nMedian }
    else
      let d := { d with nTimeOffset := 0 }
      if !d.fDone ∧ !d.vTimeOffsets.vSorted.any fun n => n ≠ 0 ∧ abs64 n < 5 * 60 then
        { d with fDone := true, strMiscWarning := clockWarning }
      else d
  else d

def addTimeData [DecidableEq ι] (d : TimeData ι) (sample : TimeSample ι) : TimeData ι :=
  if sample.ip ∈ d.setKnown then d
  else
    adjust { d with
      setKnown := insert sample.ip d.setKnown
      vTimeOffsets := d.vTimeOffsets.input sample.nOffsetSample }

/-- The offset is less than 70 minutes, and with an odd number of at least five samples it is
where more than half of them are, if that is around 0. -/
def Bounded (d : TimeData ι) : Prop :=
  d.nTimeOffset ∈ Set.Ioo (-4200) 4200 ∧
    let vValues := d.vTimeOffsets.vValues
    (5 ≤ vValues.length ∧ vValues.length % 2 = 1 → ∀ a b, a ≤ 0 → 0 ≤ b →
      2 * vValues.countP (· ∉ Set.Icc a b) < vValues.length → d.nTimeOffset ∈ Set.Icc a b)

/-- More than half of an odd number of samples are the one that `abs64` leaves negative. -/
def Overrun (vValues : List ℤ) : Prop :=
  5 ≤ vValues.length ∧ vValues.length % 2 = 1 ∧
    2 * vValues.countP (· ≠ -2 ^ 63) < vValues.length

theorem abs64_lt_iff {n : ℤ} (hn : n ∈ Set.Ico (-2 ^ 63) (2 ^ 63)) :
    abs64 n < 70 * 60 ↔ n = -2 ^ 63 ∨ n ∈ Set.Ioo (-4200) 4200 := by
  obtain ⟨hlow, hhigh⟩ := hn
  rw [abs64, Int.bmod_def, Set.mem_Ioo]
  split_ifs <;> omega

variable {d : TimeData ι}

theorem vTimeOffsets_adjust (d : TimeData ι) : d.adjust.vTimeOffsets = d.vTimeOffsets := by
  unfold adjust
  dsimp only
  split_ifs <;> rfl

section Odd

variable (hodd : 5 ≤ d.vTimeOffsets.vValues.length ∧ d.vTimeOffsets.vValues.length % 2 = 1)
include hodd

theorem nTimeOffset_adjust : d.adjust.nTimeOffset =
    if abs64 (d.vTimeOffsets.median 64) < 70 * 60 then d.vTimeOffsets.median 64 else 0 := by
  rw [adjust, if_pos hodd]
  dsimp only
  split_ifs <;> rfl

variable (h : d.vTimeOffsets.Sound 64)
include h

theorem median_mem_Icc {a b : ℤ}
    (hout : 2 * d.vTimeOffsets.vValues.countP (· ∉ Set.Icc a b) < d.vTimeOffsets.vValues.length) :
    d.vTimeOffsets.median 64 ∈ Set.Icc a b := by
  rw [CMedianFilter.median, h.perm.length_eq, if_pos hodd.2]
  refine h.getD_mem_Icc ?_ ?_ hout <;> rw [h.perm.length_eq] <;> omega

theorem median_eq_iff : d.vTimeOffsets.median 64 = -2 ^ 63 ↔
    2 * d.vTimeOffsets.vValues.countP (· ≠ -2 ^ 63) < d.vTimeOffsets.vValues.length := by
  constructor
  · intro hmin
    by_contra hle
    have hsplit := length_eq_countP_add_countP (· = -2 ^ 63) (l := d.vTimeOffsets.vValues)
    have hcongr : d.vTimeOffsets.vValues.countP (· ∉ Set.Icc (-2 ^ 63 + 1) (2 ^ 63)) =
        d.vTimeOffsets.vValues.countP (· = -2 ^ 63) := countP_congr fun x hx => by
      obtain ⟨hlow, hhigh⟩ := h.range x hx
      simp only [decide_eq_true_eq, Set.mem_Icc]
      omega
    have hmem := median_mem_Icc hodd h (a := -2 ^ 63 + 1) (b := 2 ^ 63) (by simp at *; omega)
    rw [hmin] at hmem
    exact absurd hmem.1 (by decide)
  · intro hout
    have hmem := median_mem_Icc hodd h (a := -2 ^ 63) (b := -2 ^ 63) (by simpa using hout)
    simpa using hmem

end Odd

theorem bounded_adjust_iff (h : d.vTimeOffsets.Sound 64)
    (hoffset : d.nTimeOffset ∈ Set.Ioo (-4200) 4200) :
    d.adjust.Bounded ↔ ¬ Overrun d.vTimeOffsets.vValues := by
  by_cases hodd : 5 ≤ d.vTimeOffsets.vValues.length ∧ d.vTimeOffsets.vValues.length % 2 = 1
  · rw [Bounded, vTimeOffsets_adjust, nTimeOffset_adjust hodd, Overrun, ← and_assoc,
      ← median_eq_iff hodd h]
    have hmedian : d.vTimeOffsets.median 64 ∈ Set.Ico (-2 ^ 63) (2 ^ 63) := by
      have hmem := median_mem_Icc hodd h (a := -2 ^ 63) (b := 2 ^ 63 - 1) (by
        rw [countP_eq_zero.mpr]
        · omega
        · intro x hx
          obtain ⟨hlow, hhigh⟩ := h.range x hx
          simp only [decide_eq_true_eq, Set.mem_Icc]
          omega)
      exact ⟨hmem.1, Int.lt_of_le_sub_one hmem.2⟩
    constructor
    · rintro ⟨hbound, -⟩ ⟨-, hmin⟩
      rw [if_pos ((abs64_lt_iff hmedian).mpr (.inl hmin)), hmin] at hbound
      exact absurd hbound.1 (by decide)
    · intro hmin
      split_ifs with hlt
      · have hne := fun heq => hmin ⟨hodd, heq⟩
        exact ⟨((abs64_lt_iff hmedian).mp hlt).resolve_left hne,
          fun _ a b _ _ => median_mem_Icc hodd h⟩
      · exact ⟨by decide, fun _ a b ha hb _ => ⟨ha, hb⟩⟩
  · have hsame : d.adjust = d := by rw [adjust, if_neg hodd]
    rw [hsame]
    exact iff_of_true ⟨hoffset, fun hlen => absurd hlen hodd⟩ fun hover => hodd ⟨hover.1, hover.2.1⟩

/-- Along every run from the start the offset is bounded as long as no median overruns. -/
theorem along_bounded_iff [DecidableEq ι] (samples : List (TimeSample ι)) :
    Runs.Along (fun d sample d' => d' = addTimeData d sample)
        (fun d sample => (addTimeData d sample).Bounded) initial samples ↔
      Runs.Along (fun d sample d' => d' = addTimeData d sample)
        (fun d sample => sample.ip ∉ d.setKnown →
          ¬ Overrun (d.vTimeOffsets.input sample.nOffsetSample).vValues) initial samples := by
  refine Runs.along_congr
    (I := fun d : TimeData ι => d.vTimeOffsets.Sound 64 ∧ d.Bounded) ?_ ?_ ?_ _
  · rintro d sample _ ⟨hsound, -⟩ hbounded rfl
    refine ⟨?_, hbounded⟩
    rw [addTimeData]
    split_ifs with hknown
    · exact hsound
    · rw [vTimeOffsets_adjust]
      exact hsound.input ⟨Int64.le_toInt _, Int64.toInt_lt _⟩
  · rintro d sample ⟨hsound, hbounded⟩
    rw [addTimeData]
    split_ifs with hknown
    · exact iff_of_true hbounded fun hnew => absurd hknown hnew
    · rw [forall_prop_of_true hknown]
      exact bounded_adjust_iff (hsound.input ⟨Int64.le_toInt _, Int64.toInt_lt _⟩) hbounded.1
  · exact ⟨⟨rfl, nofun, by simp [initial, CMedianFilter.new]⟩, by simp [initial],
      fun hodd => absurd hodd.1 (by simp [initial, CMedianFilter.new])⟩

/-- Our clock shows 2014, three of four peers send the time that is 2 ^ 63 seconds before it. -/
theorem addTimeData_overrun :
    let far : Int64 := 1400000000 - 9223372036854775808
    let samples : List (TimeSample ℕ) := [⟨1, far, 1400000000⟩, ⟨2, far, 1400000000⟩,
      ⟨3, far, 1400000000⟩, ⟨4, 1400000000, 1400000000⟩]
    (samples.foldl addTimeData initial).nTimeOffset = -2 ^ 63 := by
  decide

end TimeData

end Primecoin
