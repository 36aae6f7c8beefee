import Primecoin.Prime.Target
import Primecoin.Data.Floor

/-!
# Fractional difficulty

The fraction `f` of a target and its difficulty `2 ^ 56 / (2 ^ 24 - f)` determine each other,
although both directions truncate. A retarget and the work of a block depend on a target through
its length and its difficulty, and both are monotone across the steps of the length; the mint
falls with the target as a whole.
-/

namespace Primecoin

open Floor

/-- Truncating twice gives the fraction back. -/
theorem two_pow_div_targetGetFractionalDifficulty (nBits : UInt32) :
    2 ^ 56 / (targetGetFractionalDifficulty nBits).toNat = 2 ^ 24 - nBits.toNat % 2 ^ 24 := by
  rw [toNat_targetGetFractionalDifficulty]
  generalize hk : 2 ^ 24 - nBits.toNat % 2 ^ 24 = k
  have hpos : 0 < k := by omega
  have hle : k ≤ 2 ^ 24 := by omega
  refine div_div_self_of_mul_succ_le hpos ?_
  calc k * (k + 1) ≤ 2 ^ 24 * (2 ^ 24 + 1) := Nat.mul_le_mul hle (by omega)
    _ ≤ 2 ^ 56 := by norm_num

theorem targetGetFractionalDifficulty_le {nBits nBits' : UInt32}
    (h : nBits.toNat % 2 ^ 24 ≤ nBits'.toNat % 2 ^ 24) :
    (targetGetFractionalDifficulty nBits).toNat ≤ (targetGetFractionalDifficulty nBits').toNat := by
  rw [toNat_targetGetFractionalDifficulty, toNat_targetGetFractionalDifficulty]
  exact Nat.div_le_div_left (by omega) (by omega)

theorem targetSetFractionalDifficulty_get (nBits : UInt32) :
    targetSetFractionalDifficulty (targetGetFractionalDifficulty nBits) nBits = some nBits := by
  obtain ⟨hmin, hmax⟩ := targetGetFractionalDifficulty_bounds nBits
  obtain ⟨nBitsNext, hset, hvalue⟩ := targetSetFractionalDifficulty_spec nBits hmin hmax
  rw [two_pow_div_targetGetFractionalDifficulty] at hvalue
  rw [hset, Option.some.injEq, ← UInt32.toNat_inj]
  omega

/-- Getting and setting the difficulty are inverse, setting it is monotone, and the length is
not touched. -/
theorem fractionalDifficulty_spec (nBits : UInt32) :
    targetSetFractionalDifficulty (targetGetFractionalDifficulty nBits) nBits = some nBits ∧
      ∀ d d' : UInt64, 2 ^ 32 ≤ d.toNat → d ≤ d' → d'.toNat ≤ 2 ^ 56 →
        ∃ n n', targetSetFractionalDifficulty d nBits = some n ∧
          targetSetFractionalDifficulty d' nBits = some n' ∧
          targetGetFractional n ≤ targetGetFractional n' ∧
          targetGetLength n = targetGetLength nBits ∧
          targetGetLength n' = targetGetLength nBits := by
  refine ⟨targetSetFractionalDifficulty_get nBits, fun d d' hmin hle hmax => ?_⟩
  rw [UInt64.le_iff_toNat_le] at hle
  obtain ⟨n, hset, hvalue⟩ := targetSetFractionalDifficulty_spec nBits hmin (hle.trans hmax)
  obtain ⟨n', hset', hvalue'⟩ := targetSetFractionalDifficulty_spec nBits (hmin.trans hle) hmax
  have hpos : 0 < 2 ^ 56 / d'.toNat := Nat.div_pos hmax (by omega)
  have hquot : 2 ^ 56 / d'.toNat ≤ 2 ^ 56 / d.toNat := Nat.div_le_div_left hle (by omega)
  refine ⟨n, n', hset, hset', ?_, ?_, ?_⟩
  · rw [UInt32.le_iff_toNat_le, toNat_targetGetFractional, toNat_targetGetFractional]
    omega
  · rw [← UInt32.toNat_inj, toNat_targetGetLength, toNat_targetGetLength]
    omega
  · rw [← UInt32.toNat_inj, toNat_targetGetLength, toNat_targetGetLength]
    omega

theorem fractionalDifficulty_spec_bounds :
    ∃ n n', targetSetFractionalDifficulty nFractionalDifficultyMin 0x07ffffff = some n ∧
      targetSetFractionalDifficulty nFractionalDifficultyMax 0x07ffffff = some n' ∧
      targetGetFractional n ≤ targetGetFractional n' := by
  obtain ⟨n, n', hset, hset', hle, -⟩ := (fractionalDifficulty_spec 0x07ffffff).2
    nFractionalDifficultyMin nFractionalDifficultyMax (by decide) (by decide) (by decide)
  exact ⟨n, n', hset, hset', hle⟩

/-! ### Retargeting -/

section Retarget

variable {nBits : UInt32} {nInterval nTargetSpacing nActualSpacing : Int64}

variable (network : Network)

def nextTarget (nBits : UInt32) (d : ℕ) : ℕ :=
  if 2 ^ 40 < d then 2 ^ 24 * (nBits.toNat / 2 ^ 24 + 1)
  else if d = 2 ^ 32 ∧ (nTargetMinLength network).toNat < nBits.toNat / 2 ^ 24 then
    2 ^ 24 * (nBits.toNat / 2 ^ 24 - 1) + (2 ^ 24 - 2 ^ 16)
  else 2 ^ 24 * (nBits.toNat / 2 ^ 24) + (2 ^ 24 - 2 ^ 56 / d)

theorem targetGetNext_eq {d : UInt64}
    (hd : nextFractionalDifficulty nBits nInterval nTargetSpacing nActualSpacing = .ok d)
    (hmin : 2 ^ 32 ≤ d.toNat) (hhigh : nBits.toNat / 2 ^ 24 ≤ 254) : ∃ nBitsNext,
      targetGetNext network nBits nInterval nTargetSpacing nActualSpacing = .ok nBitsNext ∧
        nBitsNext.toNat = nextTarget network nBits d.toNat := by
  suffices h : ∃ nBitsNext, targetSetFractionalDifficulty (stepLength network d nBits).1
      (stepLength network d nBits).2 = some nBitsNext ∧
        nBitsNext.toNat = nextTarget network nBits d.toNat by
    obtain ⟨nBitsNext, hset, hvalue⟩ := h
    refine ⟨nBitsNext, ?_, hvalue⟩
    simp only [targetGetNext, hd, bind, Except.bind, hset]
  have hdmin : nFractionalDifficultyMin.toNat = 2 ^ 32 := rfl
  have hdthr : nFractionalDifficultyThreshold.toNat = 2 ^ 40 := rfl
  unfold stepLength nextTarget
  simp only [UInt64.lt_iff_toNat_lt, UInt32.lt_iff_toNat_lt, toNat_targetGetLength, hdthr,
    ← UInt64.toNat_inj, hdmin]
  split_ifs with hup hdown
  · obtain ⟨n, hset, hvalue⟩ := targetSetFractionalDifficulty_spec (targetIncrementLength nBits)
      (le_of_eq hdmin.symm) (by rw [hdmin]; norm_num)
    refine ⟨n, hset, ?_⟩
    rw [hvalue, toNat_targetIncrementLength (by omega), hdmin]
    omega
  · have hlen : nTargetMinLength network < targetGetLength nBits := by
      rw [UInt32.lt_iff_toNat_lt, toNat_targetGetLength]
      exact hdown.2
    obtain ⟨n, hset, hvalue⟩ := targetSetFractionalDifficulty_spec
      (targetDecrementLength network nBits) (d := nFractionalDifficultyThreshold)
      (by rw [hdthr]; norm_num) (by rw [hdthr]; norm_num)
    refine ⟨n, hset, ?_⟩
    rw [hvalue, toNat_targetDecrementLength hlen, hdthr]
    omega
  · have hmax : d.toNat ≤ 2 ^ 56 := by omega
    exact targetSetFractionalDifficulty_spec nBits hmin hmax

/-- A larger difficulty leads to a larger target, also across the steps of the length. -/
theorem nextTarget_mono (nBits : UInt32) {d d' : ℕ} (hmin : 2 ^ 32 ≤ d)
    (h : d ≤ d') : nextTarget network nBits d ≤ nextTarget network nBits d' := by
  have hquot : 2 ^ 56 / d' ≤ 2 ^ 56 / d := Nat.div_le_div_left h (by omega)
  have hpos : ¬ 2 ^ 40 < d' → 2 ^ 16 ≤ 2 ^ 56 / d' := by
    intro hthr
    rw [Nat.le_div_iff_mul_le (by omega)]
    omega
  unfold nextTarget
  generalize 2 ^ 56 / d = q at hquot ⊢
  generalize 2 ^ 56 / d' = q' at hquot hpos ⊢
  split_ifs <;> omega

theorem clamped_tdiv_le {x divisor divisor' : ℤ} (hpos : 0 < divisor) (h : divisor ≤ divisor') :
    max (2 ^ 32) (min (2 ^ 56) (x.tdiv divisor')) ≤
      max (2 ^ 32) (min (2 ^ 56) (x.tdiv divisor)) := by
  rcases le_or_gt 0 x with hx | hx
  · have hle : x.tdiv divisor' ≤ x.tdiv divisor := by
      rw [Int.tdiv_eq_ediv_of_nonneg hx, Int.tdiv_eq_ediv_of_nonneg hx, Int.le_ediv_iff_mul_le hpos]
      have hquot : 0 ≤ x / divisor' := Int.ediv_nonneg hx (by omega)
      exact (mul_le_mul_of_nonneg_left h hquot).trans (Int.ediv_mul_le x (by omega))
    omega
  · have hneg : x.tdiv divisor' ≤ 0 := by
      have hquot : 0 ≤ (-x).tdiv divisor' := Int.tdiv_nonneg (by omega) (by omega)
      rw [Int.neg_tdiv] at hquot
      omega
    omega

end Retarget

theorem toNat_targetFromInt {nLength : UInt32} (h : nLength.toNat < 2 ^ 8) :
    (targetFromInt nLength).toNat = 2 ^ 24 * nLength.toNat := by
  have hbits : nFractionalBits.toNat % 32 = 24 := rfl
  rw [targetFromInt, UInt32.toNat_shiftLeft, hbits, Nat.shiftLeft_eq]
  omega

theorem targetDivisor_target (nInterval nTargetSpacing : Int64) :
    targetDivisor nInterval nTargetSpacing nTargetSpacing = (nInterval + 1) * nTargetSpacing := by
  unfold targetDivisor
  grind

/-- The divisor is the number that it is meant to be, and positive. -/
def ProperDivisor (nInterval nTargetSpacing nActualSpacing : Int64) : Prop :=
  (targetDivisor nInterval nTargetSpacing nActualSpacing).toInt =
      (nInterval.toInt - 1) * nTargetSpacing.toInt + 2 * nActualSpacing.toInt ∧
    0 < targetDivisor nInterval nTargetSpacing nActualSpacing

/-- Where the divisor is positive and does not overflow, a larger actual spacing never gives a
larger target. At the target spacing, where only the divisor zero fails, the target stays, unless
one of the two rules moves its length. -/
theorem targetGetNext_antitone {network : Network} {nBits : UInt32}
    (hlow : nTargetMinLength network ≤ targetGetLength nBits) (hhigh : targetGetLength nBits ≤ 254)
    (nInterval nTargetSpacing : Int64) :
    (∀ nActualSpacing nActualSpacing', nActualSpacing ≤ nActualSpacing' →
      ProperDivisor nInterval nTargetSpacing nActualSpacing →
      ProperDivisor nInterval nTargetSpacing nActualSpacing' →
      ∃ n n', targetGetNext network nBits nInterval nTargetSpacing nActualSpacing = .ok n ∧
        targetGetNext network nBits nInterval nTargetSpacing nActualSpacing' = .ok n' ∧
        n' ≤ n) ∧
    (targetDivisor nInterval nTargetSpacing nTargetSpacing ≠ 0 →
      ∃ n, targetGetNext network nBits nInterval nTargetSpacing nTargetSpacing = .ok n ∧
        (nFractionalDifficultyThreshold < targetGetFractionalDifficulty nBits →
          n = targetFromInt (targetGetLength nBits + 1)) ∧
        (targetGetFractional nBits = 0 → nTargetMinLength network < targetGetLength nBits →
          n = targetFromInt (targetGetLength nBits - 1) + 0xff0000) ∧
        (targetGetFractionalDifficulty nBits ≤ nFractionalDifficultyThreshold →
          ¬ (targetGetFractional nBits = 0 ∧ nTargetMinLength network < targetGetLength nBits) →
          n = nBits)) := by
  rw [UInt32.le_iff_toNat_le, toNat_targetGetLength] at hlow hhigh
  have hhigh' : nBits.toNat / 2 ^ 24 ≤ 254 := hhigh
  have hthreshold : nFractionalDifficultyThreshold.toNat = 2 ^ 40 := rfl
  constructor
  · rintro nActualSpacing nActualSpacing' hle ⟨hdivisor, hpos⟩ ⟨hdivisor', hpos'⟩
    have hne : ∀ divisor : Int64, 0 < divisor → divisor ≠ 0 := by
      rintro divisor hdivisor rfl
      exact absurd hdivisor (by decide)
    obtain ⟨d, hd, hvalue⟩ := nextFractionalDifficulty_eq nBits (hne _ hpos)
    obtain ⟨d', hd', hvalue'⟩ := nextFractionalDifficulty_eq nBits (hne _ hpos')
    obtain ⟨n, hn, hnext⟩ := targetGetNext_eq network hd (by omega) hhigh'
    obtain ⟨n', hn', hnext'⟩ := targetGetNext_eq network hd' (by omega) hhigh'
    rw [Int64.lt_iff_toInt_lt, Int64.toInt_zero] at hpos
    rw [Int64.le_iff_toInt_le] at hle
    refine ⟨n, n', hn, hn', ?_⟩
    rw [UInt32.le_iff_toNat_le, hnext, hnext']
    refine nextTarget_mono network nBits (by omega) ?_
    have hdivisors : (targetDivisor nInterval nTargetSpacing nActualSpacing).toInt ≤
        (targetDivisor nInterval nTargetSpacing nActualSpacing').toInt := by omega
    have hclamped := clamped_tdiv_le (x := (targetGetFractionalDifficulty nBits).toNat *
      ((nInterval + 1) * nTargetSpacing).toInt) hpos hdivisors
    omega
  · intro hne
    obtain ⟨d, hd, hvalue⟩ := nextFractionalDifficulty_eq nBits hne
    have hsame : d.toNat = (targetGetFractionalDifficulty nBits).toNat := by
      obtain ⟨hmin, hmax⟩ := targetGetFractionalDifficulty_bounds nBits
      rw [targetDivisor_target] at hvalue hne
      rw [ne_eq, ← Int64.toInt_inj, Int64.toInt_zero] at hne
      rw [Int.mul_tdiv_cancel _ hne] at hvalue
      omega
    obtain ⟨n, hn, hnext⟩ := targetGetNext_eq network hd (by omega) hhigh'
    rw [hsame] at hnext
    refine ⟨n, hn, fun hthr => ?_, fun hfrac hlen => ?_, fun hthr hnot => ?_⟩
    · rw [UInt64.lt_iff_toNat_lt, hthreshold] at hthr
      rw [nextTarget, if_pos hthr] at hnext
      have hlength : (targetGetLength nBits + 1).toNat = nBits.toNat / 2 ^ 24 + 1 := by
        rw [UInt32.toNat_add, toNat_targetGetLength, UInt32.toNat_one]
        omega
      rw [← UInt32.toNat_inj, hnext, toNat_targetFromInt (by omega), hlength]
    · rw [← UInt32.toNat_inj, toNat_targetGetFractional, UInt32.toNat_zero] at hfrac
      rw [UInt32.lt_iff_toNat_lt, toNat_targetGetLength] at hlen
      have hd : (targetGetFractionalDifficulty nBits).toNat = 2 ^ 32 := by
        rw [toNat_targetGetFractionalDifficulty, hfrac]
        norm_num
      rw [nextTarget, hd, if_neg (by norm_num), if_pos ⟨rfl, hlen⟩] at hnext
      have hlength : (targetGetLength nBits - 1).toNat = nBits.toNat / 2 ^ 24 - 1 := by
        rw [UInt32.toNat_sub_of_le, toNat_targetGetLength, UInt32.toNat_one]
        rw [UInt32.le_iff_toNat_le, toNat_targetGetLength, UInt32.toNat_one]
        omega
      have hlow24 : (0xff0000 : UInt32).toNat = 2 ^ 24 - 2 ^ 16 := rfl
      rw [← UInt32.toNat_inj, hnext, UInt32.toNat_add, toNat_targetFromInt (by omega), hlength,
        hlow24]
      omega
    · rw [UInt64.le_iff_toNat_le, hthreshold] at hthr
      have hkeep : ¬ ((targetGetFractionalDifficulty nBits).toNat = 2 ^ 32 ∧
          (nTargetMinLength network).toNat < nBits.toNat / 2 ^ 24) := by
        rintro ⟨hd, hlen⟩
        refine hnot ⟨?_, ?_⟩
        · have hquot := two_pow_div_targetGetFractionalDifficulty nBits
          rw [hd] at hquot
          rw [← UInt32.toNat_inj, toNat_targetGetFractional, UInt32.toNat_zero]
          omega
        · rwa [UInt32.lt_iff_toNat_lt, toNat_targetGetLength]
      rw [nextTarget, if_neg (by omega), if_neg hkeep,
        two_pow_div_targetGetFractionalDifficulty] at hnext
      rw [← UInt32.toNat_inj]
      omega

instance (nInterval nTargetSpacing nActualSpacing : Int64) :
    Decidable (ProperDivisor nInterval nTargetSpacing nActualSpacing) :=
  inferInstanceAs (Decidable (_ ∧ _))

theorem targetGetNext_antitone_week :
    ∃ n n', targetGetNext .official 0x07800000 10080 60 0 = .ok n ∧
      targetGetNext .official 0x07800000 10080 60 60 = .ok n' ∧ n' ≤ n :=
  (targetGetNext_antitone (by decide) (by decide) 10080 60).1 0 60 (by decide) (by decide)
    (by decide)

/-- The divisor of the largest actual spacing wraps to a number below that of the spacing zero,
and the target rises. At the target spacing the divisor may be zero. -/
theorem not_targetGetNext_antitone_wrapped :
    ((0 : Int64) ≤ 9223372036854775807 ∧ 0 < targetDivisor 10080 60 0 ∧
      0 < targetDivisor 10080 60 9223372036854775807 ∧
      ¬ ∃ n n', targetGetNext .official 0x07f00000 10080 60 0 = .ok n ∧
        targetGetNext .official 0x07f00000 10080 60 9223372036854775807 = .ok n' ∧ n' ≤ n) ∧
    targetDivisor (-1) 60 60 = 0 ∧
      ¬ ∃ n, targetGetNext .official 0x07f00000 (-1) 60 60 = .ok n := by
  have hzero : targetGetNext .official 0x07f00000 10080 60 0 = .ok 0x07f000d1 := by rfl
  have hmax : targetGetNext .official 0x07f00000 10080 60 9223372036854775807 =
      .ok 0x07f000d4 := by rfl
  refine ⟨⟨by decide, by decide, by decide, ?_⟩, by decide, ?_⟩
  · rintro ⟨n, n', hn, hn', hle⟩
    rw [hzero] at hn
    rw [hmax] at hn'
    cases hn
    cases hn'
    exact absurd hle (by decide)
  · rintro ⟨n, hn⟩
    cases hn

/-! ### Block work -/

section Work

variable {network : Network} {nBits nBits' : UInt32}

section

variable (network : Network)

section

variable (nBits : UInt32)

/-- The work of the length times a factor for the fraction, which is at least one and below the
ratio of the next length. -/
def lengthWork : ℕ :=
  256 * nWorkTransitionRatio ^ (nBits.toNat / 2 ^ 24 - (nTargetMinLength network).toNat)

theorem getBlockWork_eq : getBlockWork network nBits =
      ((lengthWork network nBits * (32 * (targetGetFractionalDifficulty nBits).toNat) /
        (31 * 2 ^ 32 + (targetGetFractionalDifficulty nBits).toNat) : ℕ) : ℤ) := by
  have hmin : nFractionalDifficultyMin.toNat = 2 ^ 32 := rfl
  simp only [getBlockWork, lengthWork, nWorkTransitionRatio, toNat_targetGetLength, hmin]
  rw [Int.tdiv_eq_ediv_of_nonneg (by positivity)]
  push_cast
  norm_num

theorem lengthWork_le_getBlockWork :
    (lengthWork network nBits : ℤ) ≤ getBlockWork network nBits := by
  obtain ⟨hmin, -⟩ := targetGetFractionalDifficulty_bounds nBits
  rw [getBlockWork_eq, Nat.cast_le, Nat.le_div_iff_mul_le (by positivity)]
  exact Nat.mul_le_mul_left _ (by omega)

theorem getBlockWork_le : getBlockWork network nBits ≤ (lengthWork network nBits * 32 : ℕ) := by
  rw [getBlockWork_eq, Nat.cast_le]
  refine Nat.div_le_of_le_mul ?_
  generalize (targetGetFractionalDifficulty nBits).toNat = d
  calc lengthWork network nBits * (32 * d) = d * (lengthWork network nBits * 32) := by ring
    _ ≤ (31 * 2 ^ 32 + d) * (lengthWork network nBits * 32) := Nat.mul_le_mul_right _ (by omega)

end

end

theorem getBlockWork_le_of_length_eq (hlen : nBits.toNat / 2 ^ 24 = nBits'.toNat / 2 ^ 24)
    (h : nBits.toNat % 2 ^ 24 ≤ nBits'.toNat % 2 ^ 24) :
    getBlockWork network nBits ≤ getBlockWork network nBits' := by
  have hwork : lengthWork network nBits = lengthWork network nBits' := by
    rw [lengthWork, lengthWork, hlen]
  have hle := targetGetFractionalDifficulty_le h
  rw [getBlockWork_eq, getBlockWork_eq, Nat.cast_le, hwork]
  generalize (targetGetFractionalDifficulty nBits).toNat = d at hle ⊢
  generalize (targetGetFractionalDifficulty nBits').toNat = d' at hle ⊢
  refine div_le_div_of_mul_le_mul (by positivity) (by positivity) ?_
  have hcross : d * (31 * 2 ^ 32 + d') ≤ d' * (31 * 2 ^ 32 + d) := by
    rw [Nat.mul_add, Nat.mul_add, mul_comm d' d]
    exact Nat.add_le_add_right (Nat.mul_le_mul_right _ hle) _
  calc lengthWork network nBits' * (32 * d) * (31 * 2 ^ 32 + d')
      = lengthWork network nBits' * 32 * (d * (31 * 2 ^ 32 + d')) := by ring
    _ ≤ lengthWork network nBits' * 32 * (d' * (31 * 2 ^ 32 + d)) := Nat.mul_le_mul_left _ hcross
    _ = lengthWork network nBits' * (32 * d') * (31 * 2 ^ 32 + d) := by ring

theorem lengthWork_mul_le (hlow : (nTargetMinLength network).toNat ≤ nBits.toNat / 2 ^ 24)
    (h : nBits.toNat / 2 ^ 24 < nBits'.toNat / 2 ^ 24) :
    lengthWork network nBits * 32 ≤ lengthWork network nBits' := by
  rw [lengthWork, lengthWork, nWorkTransitionRatio, mul_assoc, ← pow_succ]
  exact Nat.mul_le_mul_left _ (Nat.pow_le_pow_right (by norm_num) (by omega))

end Work

/-- From the minimal length on the work is at least 256 and grows with the target, also from one
length to the next, and the numbers of 64 bits it is computed from do not overflow. -/
theorem getBlockWork_monotone {network : Network} {nBits : UInt32}
    (hlow : nTargetMinLength network ≤ targetGetLength nBits) :
    256 ≤ getBlockWork network nBits ∧
      (∀ nBits', nBits ≤ nBits' → getBlockWork network nBits ≤ getBlockWork network nBits') ∧
      (targetGetFractionalDifficulty nBits).toNat =
        2 ^ 56 / (2 ^ 24 - (targetGetFractional nBits).toNat) ∧
      (UInt64.ofNat nWorkTransitionRatio * targetGetFractionalDifficulty nBits).toNat =
        nWorkTransitionRatio * (targetGetFractionalDifficulty nBits).toNat ∧
      ((UInt64.ofNat nWorkTransitionRatio - 1) * nFractionalDifficultyMin +
          targetGetFractionalDifficulty nBits).toNat =
        (nWorkTransitionRatio - 1) * nFractionalDifficultyMin.toNat +
          (targetGetFractionalDifficulty nBits).toNat := by
  obtain ⟨-, hmax⟩ := targetGetFractionalDifficulty_bounds nBits
  rw [UInt32.le_iff_toNat_le, toNat_targetGetLength] at hlow
  refine ⟨?_, fun nBits' hle => ?_, ?_, ?_, ?_⟩
  · refine le_trans ?_ (lengthWork_le_getBlockWork network nBits)
    rw [lengthWork]
    have hpow : 1 ≤ nWorkTransitionRatio ^
        (nBits.toNat / 2 ^ 24 - (nTargetMinLength network).toNat) :=
      Nat.one_le_pow _ _ (by decide)
    omega
  · rw [UInt32.le_iff_toNat_le] at hle
    by_cases hlen : nBits.toNat / 2 ^ 24 = nBits'.toNat / 2 ^ 24
    · exact getBlockWork_le_of_length_eq hlen (by omega)
    · have hlt : nBits.toNat / 2 ^ 24 < nBits'.toNat / 2 ^ 24 := by omega
      calc getBlockWork network nBits
          ≤ (lengthWork network nBits * 32 : ℕ) := getBlockWork_le network nBits
        _ ≤ (lengthWork network nBits' : ℕ) := Nat.cast_le.mpr (lengthWork_mul_le hlow hlt)
        _ ≤ getBlockWork network nBits' := lengthWork_le_getBlockWork network nBits'
  · rw [toNat_targetGetFractionalDifficulty, toNat_targetGetFractional]
  · have hratio : (UInt64.ofNat nWorkTransitionRatio).toNat = 32 := rfl
    rw [UInt64.toNat_mul, hratio, nWorkTransitionRatio]
    omega
  · have hleft : ((UInt64.ofNat nWorkTransitionRatio - 1) * nFractionalDifficultyMin).toNat =
        31 * 2 ^ 32 := by decide
    have hmin : nFractionalDifficultyMin.toNat = 2 ^ 32 := rfl
    rw [UInt64.toNat_add, hleft, hmin, nWorkTransitionRatio]
    omega

theorem getBlockWork_monotone_initial : 256 ≤ getBlockWork .official (targetGetInitial .official) ∧
      getBlockWork .official 0x07ffffff ≤ getBlockWork .official 0x08000000 :=
  ⟨(getBlockWork_monotone (by decide)).1, (getBlockWork_monotone (by decide)).2.1 _ (by decide)⟩

/-! ### Mint -/

section Mint

variable {network : Network} {nBits nBits' : UInt32}

/-- Two fixed-point divisions, rounded to cents. -/
def mintValue (n : ℕ) : ℕ := 99900000000 * 2 ^ 24 / n * 2 ^ 24 / n / 1000000 * 1000000

theorem mintValue_antitone {n n' : ℕ} (hpos : 0 < n) (h : n ≤ n') : mintValue n' ≤ mintValue n := by
  have hfirst : 99900000000 * 2 ^ 24 / n' ≤ 99900000000 * 2 ^ 24 / n := Nat.div_le_div_left h hpos
  refine Nat.mul_le_mul_right _ (Nat.div_le_div_right ?_)
  exact Nat.div_le_div (Nat.mul_le_mul_right _ hfirst) h hpos.ne'

/-- A length of at least one keeps the mint below its limit. -/
theorem mintValue_le {n : ℕ} (h : 2 ^ 24 ≤ n) : mintValue n ≤ 99900000000 :=
  (mintValue_antitone (by norm_num) h).trans_eq (by norm_num [mintValue])

theorem two_pow_le_of_nTargetMinLength_le
    (hlow : nTargetMinLength network ≤ targetGetLength nBits) : 2 ^ 24 ≤ nBits.toNat := by
  have hmin : 1 ≤ (nTargetMinLength network).toNat := by cases network <;> decide
  rw [UInt32.le_iff_toNat_le, toNat_targetGetLength] at hlow
  omega

/-- From the minimal length on the numbers of the source are the natural ones. -/
theorem targetGetMint_eq (hlow : nTargetMinLength network ≤ targetGetLength nBits) :
    ∃ nMint, targetGetMint network nBits = some nMint ∧ nMint.toNat = mintValue nBits.toNat := by
  have hlimit : 999 * coin.toInt = 99900000000 := by decide
  have hcent : cent.toInt = 1000000 := by decide
  have hle := mintValue_le (two_pow_le_of_nTargetMinLength_le hlow)
  have hvalue : (((99900000000 * 2 ^ 24 : ℤ).tdiv nBits.toNat * 2 ^ 24).tdiv nBits.toNat).tdiv
      1000000 * 1000000 = (mintValue nBits.toNat : ℤ) := by
    simp only [mintValue]
    rfl
  have hround : (UInt64.ofNat (mintValue nBits.toNat)).toNat = mintValue nBits.toNat := by
    rw [UInt64.toNat_ofNat']
    exact Nat.mod_eq_of_lt (by omega)
  refine ⟨UInt64.ofNat (mintValue nBits.toNat), ?_, hround⟩
  simp only [targetGetMint, hlimit, hcent, hvalue]
  rw [if_neg (UInt32.not_lt.mpr hlow), Int.natAbs_natCast, Nat.mod_eq_of_lt (by omega), hround,
    if_neg (by omega)]

end Mint

/-- From the minimal length on there is a mint, in whole cents, within its limit, and it never
grows with the target. -/
theorem targetGetMint_antitone {network : Network} {nBits : UInt32}
    (hlow : nTargetMinLength network ≤ targetGetLength nBits) :
    ∃ nMint, targetGetMint network nBits = some nMint ∧ cent.toInt ∣ nMint.toNat ∧
      (nMint.toNat : ℤ) ≤ 999 * coin.toInt ∧
      ∀ nBits', nBits ≤ nBits' →
        ∃ nMint', targetGetMint network nBits' = some nMint' ∧ nMint' ≤ nMint := by
  obtain ⟨nMint, hmint, hvalue⟩ := targetGetMint_eq hlow
  have hpos := two_pow_le_of_nTargetMinLength_le hlow
  refine ⟨nMint, hmint, ?_, ?_, fun nBits' hle => ?_⟩
  · rw [hvalue, mintValue, Nat.cast_mul]
    exact Int.dvd_mul_left _ _
  · have hlimit : 999 * coin.toInt = 99900000000 := by decide
    rw [hlimit]
    exact_mod_cast hvalue.trans_le (mintValue_le hpos)
  · rw [UInt32.le_iff_toNat_le] at hle
    have hlow' : nTargetMinLength network ≤ targetGetLength nBits' := by
      rw [UInt32.le_iff_toNat_le, toNat_targetGetLength] at hlow ⊢
      omega
    obtain ⟨nMint', hmint', hvalue'⟩ := targetGetMint_eq hlow'
    refine ⟨nMint', hmint', ?_⟩
    rw [UInt64.le_iff_toNat_le, hvalue, hvalue']
    exact mintValue_antitone (by omega) hle

theorem targetGetMint_antitone_initial :
    ∃ nMint, targetGetMint .official (targetGetInitial .official) = some nMint ∧
      ∃ nMint', targetGetMint .official 0x08000000 = some nMint' ∧ nMint' ≤ nMint := by
  obtain ⟨nMint, hmint, -, -, hnext⟩ := targetGetMint_antitone
    (show nTargetMinLength .official ≤ targetGetLength (targetGetInitial .official) by decide)
  exact ⟨nMint, hmint, hnext 0x08000000 (by decide)⟩

end Primecoin
