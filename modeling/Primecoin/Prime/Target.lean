import Primecoin.Basic

/-!
# Prime chain targets

A target is 32 bits: eight bits of chain length over 24 bits of fractional length. Retargeting
works on the fractional difficulty, a fixed-point number between `nFractionalDifficultyMin` and
`nFractionalDifficultyMax`, and moves the length by one where it leaves the range below the
threshold.

`targetGetNext_spec` is the only fact about `targetGetNext` used elsewhere.
-/

namespace Primecoin

variable {nBits : UInt32} {network : Network}

def nFractionalBits : UInt32 := 24
def targetFractionalMask : UInt32 := 0x00ffffff
def targetLengthMask : UInt32 := ~~~targetFractionalMask
def nFractionalDifficultyMax : UInt64 := 0x100000000000000
def nFractionalDifficultyMin : UInt64 := 0x100000000
def nFractionalDifficultyThreshold : UInt64 := 0x10000000000

def nTargetInitialLength : Network → UInt32
  | .official => 7
  | .testNet => 5

def nTargetMinLength : Network → UInt32
  | .official => 6
  | .testNet => 2

section

variable (network : Network)

def targetGetLimit : UInt32 := nTargetMinLength network <<< nFractionalBits

def targetGetInitial : UInt32 :=
  nTargetInitialLength network <<< nFractionalBits

section

variable (nBits : UInt32)

def targetGetLength : UInt32 := (nBits &&& targetLengthMask) >>> nFractionalBits

def targetIncrementLength : UInt32 := nBits + (1 <<< nFractionalBits)

def targetDecrementLength : UInt32 :=
  if nTargetMinLength network < targetGetLength nBits then nBits - (1 <<< nFractionalBits)
  else nBits

def targetGetFractional : UInt32 := nBits &&& targetFractionalMask

def targetFromInt (nLength : UInt32) : UInt32 := nLength <<< nFractionalBits

def targetGetFractionalDifficulty : UInt64 :=
  nFractionalDifficultyMax / (0x1000000 - (targetGetFractional nBits).toUInt64)

/-- `TargetSetFractionalDifficulty`; `none` where it returns false. -/
def targetSetFractionalDifficulty (nFractionalDifficulty : UInt64) (nBits : UInt32) :
    Option UInt32 :=
  if nFractionalDifficulty < nFractionalDifficultyMin then none
  else
    let nFractional := nFractionalDifficultyMax / nFractionalDifficulty
    if 0x1000000 < nFractional then none
    else some ((nBits &&& targetLengthMask) ||| (0x1000000 - nFractional).toUInt32)

/-- `TargetGetMint`; where it returns false the mint is zero. -/
def targetGetMint : Option UInt64 :=
  let nMintLimit : ℤ := 999 * coin.toInt
  if targetGetLength nBits < nTargetMinLength network then none
  else
    let bnMint := (nMintLimit * 2 ^ 24).tdiv nBits.toNat
    let bnMint := (bnMint * 2 ^ 24).tdiv nBits.toNat
    let bnMint := bnMint.tdiv cent.toInt * cent.toInt
    let nMint := UInt64.ofNat (bnMint.natAbs % 2 ^ 256)
    if nMintLimit < nMint.toNat then none else some nMint

def getBlockValue (nFees : Int64) : Int64 :=
  ((targetGetMint network nBits).getD 0).toInt64 + nFees

def nWorkTransitionRatio : ℕ := 32

/-- `GetBlockWork` for a target, a big number. -/
def getBlockWork : ℤ :=
  let nFractionalDifficulty : ℤ := (targetGetFractionalDifficulty nBits).toNat
  let nSteps := (targetGetLength nBits).toNat - (nTargetMinLength network).toNat
  (256 * (nWorkTransitionRatio : ℤ) ^ nSteps * (nWorkTransitionRatio * nFractionalDifficulty)).tdiv
    ((nWorkTransitionRatio - 1) * nFractionalDifficultyMin.toNat + nFractionalDifficulty)

variable (nInterval nTargetSpacing nActualSpacing : Int64)

/-- The divisor of `TargetGetNext`, a sum of `int64`. -/
def targetDivisor : Int64 :=
  (nInterval - 1) * nTargetSpacing + nActualSpacing + nActualSpacing

/-- The difficulty before the length is adjusted. The division rounds towards zero and throws on
zero. -/
def nextFractionalDifficulty : Except Failure UInt64 :=
  let divisor := targetDivisor nInterval nTargetSpacing nActualSpacing
  if divisor = 0 then .error (.exception "CBigNum::operator/ : BN_div failed")
  else
    let bnFractionalDifficulty : ℤ :=
      ((targetGetFractionalDifficulty nBits).toNat *
        ((nInterval + 1) * nTargetSpacing).toInt).tdiv divisor.toInt
    let bnFractionalDifficulty :=
      if (nFractionalDifficultyMax.toNat : ℤ) < bnFractionalDifficulty then
        (nFractionalDifficultyMax.toNat : ℤ)
      else bnFractionalDifficulty
    let bnFractionalDifficulty :=
      if bnFractionalDifficulty < (nFractionalDifficultyMin.toNat : ℤ) then
        (nFractionalDifficultyMin.toNat : ℤ)
      else bnFractionalDifficulty
    .ok (UInt64.ofNat (bnFractionalDifficulty.natAbs % 2 ^ 256))

/-- The step that moves the length: the difficulty, and the target whose fraction is still to be
set. -/
def stepLength (nFractionalDifficultyNew : UInt64) (nBitsNext : UInt32) : UInt64 × UInt32 :=
  if nFractionalDifficultyThreshold < nFractionalDifficultyNew then
    (nFractionalDifficultyMin, targetIncrementLength nBitsNext)
  else if nFractionalDifficultyNew = nFractionalDifficultyMin ∧
      nTargetMinLength network < targetGetLength nBitsNext then
    (nFractionalDifficultyThreshold, targetDecrementLength network nBitsNext)
  else (nFractionalDifficultyNew, nBitsNext)

def targetGetNext : Except Failure UInt32 := do
  let nFractionalDifficultyNew ←
    nextFractionalDifficulty nBits nInterval nTargetSpacing nActualSpacing
  let (nFractionalDifficultyNew, nBitsNext) := stepLength network nFractionalDifficultyNew nBits
  match targetSetFractionalDifficulty nFractionalDifficultyNew nBitsNext with
  | none => .error (.error
      "TargetGetNext() : unable to set fractional difficulty prev=0x%016x new=0x%016x")
  | some nBitsNext => .ok nBitsNext

end

end

theorem toNat_and_targetLengthMask (nBits : UInt32) :
    (nBits &&& targetLengthMask).toNat = 2 ^ 24 * (nBits.toNat / 2 ^ 24) := by
  have hlt := nBits.toNat_lt
  have hmask : targetLengthMask.toNat = (2 ^ 8 - 1) <<< 24 := by decide
  have hshift : nBits.toNat &&& ((2 ^ 8 - 1) <<< 24) =
      ((nBits.toNat >>> 24) &&& (2 ^ 8 - 1)) <<< 24 := by
    apply Nat.eq_of_testBit_eq
    intro i
    generalize 2 ^ 8 - 1 = m
    by_cases h : 24 ≤ i <;> simp [Nat.testBit_shiftLeft, h]
  rw [UInt32.toNat_and, hmask, hshift, Nat.and_two_pow_sub_one_eq_mod, Nat.shiftLeft_eq,
    Nat.shiftRight_eq_div_pow, Nat.mod_eq_of_lt (by omega), mul_comm]

@[simp] theorem toNat_targetGetLength (nBits : UInt32) :
    (targetGetLength nBits).toNat = nBits.toNat / 2 ^ 24 := by
  rw [targetGetLength, UInt32.toNat_shiftRight, toNat_and_targetLengthMask]
  simp [nFractionalBits, Nat.shiftRight_eq_div_pow]

@[simp] theorem toNat_targetGetFractional (nBits : UInt32) :
    (targetGetFractional nBits).toNat = nBits.toNat % 2 ^ 24 := by
  rw [targetGetFractional, UInt32.toNat_and]
  exact Nat.and_two_pow_sub_one_eq_mod nBits.toNat 24

theorem toNat_targetIncrementLength (h : nBits.toNat / 2 ^ 24 < 255) :
    (targetIncrementLength nBits).toNat = nBits.toNat + 2 ^ 24 := by
  have hstep : ((1 : UInt32) <<< nFractionalBits).toNat = 2 ^ 24 := by decide
  rw [targetIncrementLength, UInt32.toNat_add, hstep]
  omega

theorem toNat_targetDecrementLength (h : nTargetMinLength network < targetGetLength nBits) :
    (targetDecrementLength network nBits).toNat = nBits.toNat - 2 ^ 24 := by
  have hstep : ((1 : UInt32) <<< nFractionalBits).toNat = 2 ^ 24 := by decide
  have hpos : 1 ≤ nBits.toNat / 2 ^ 24 := by
    rw [UInt32.lt_iff_toNat_lt, toNat_targetGetLength] at h
    omega
  rw [targetDecrementLength, if_pos h, UInt32.toNat_sub_of_le, hstep]
  rw [UInt32.le_iff_toNat_le, hstep]
  omega

/-- The fractional difficulty is `2 ^ 56` over the distance to the next length. -/
theorem toNat_targetGetFractionalDifficulty (nBits : UInt32) :
    (targetGetFractionalDifficulty nBits).toNat = 2 ^ 56 / (2 ^ 24 - nBits.toNat % 2 ^ 24) := by
  have hone : (0x1000000 : UInt64).toNat = 2 ^ 24 := rfl
  have hmax : nFractionalDifficultyMax.toNat = 2 ^ 56 := rfl
  have hle : (targetGetFractional nBits).toUInt64 ≤ 0x1000000 := by
    rw [UInt64.le_iff_toNat_le, UInt32.toNat_toUInt64, toNat_targetGetFractional, hone]
    omega
  rw [targetGetFractionalDifficulty, UInt64.toNat_div, hmax, UInt64.toNat_sub_of_le _ _ hle,
    UInt32.toNat_toUInt64, toNat_targetGetFractional, hone]

theorem targetGetFractionalDifficulty_bounds (nBits : UInt32) :
    2 ^ 32 ≤ (targetGetFractionalDifficulty nBits).toNat ∧
      (targetGetFractionalDifficulty nBits).toNat ≤ 2 ^ 56 := by
  rw [toNat_targetGetFractionalDifficulty]
  refine ⟨?_, Nat.div_le_self _ _⟩
  rw [Nat.le_div_iff_mul_le (by omega)]
  omega

theorem targetSetFractionalDifficulty_spec {d : UInt64} (nBits : UInt32)
    (hmin : 2 ^ 32 ≤ d.toNat) (hmax : d.toNat ≤ 2 ^ 56) :
    ∃ nBitsNext, targetSetFractionalDifficulty d nBits = some nBitsNext ∧
      nBitsNext.toNat = 2 ^ 24 * (nBits.toNat / 2 ^ 24) + (2 ^ 24 - 2 ^ 56 / d.toNat) := by
  have hdiv : (nFractionalDifficultyMax / d).toNat = 2 ^ 56 / d.toNat := UInt64.toNat_div _ _
  have hle : 2 ^ 56 / d.toNat ≤ 2 ^ 24 := by
    rw [Nat.div_le_iff_le_mul (by omega)]
    omega
  have hpos : 1 ≤ 2 ^ 56 / d.toNat := by
    rw [Nat.one_le_div_iff (by omega)]
    exact hmax
  have hone : (0x1000000 : UInt64).toNat = 2 ^ 24 := rfl
  have hmin' : ¬ d < nFractionalDifficultyMin := by
    rw [UInt64.lt_iff_toNat_lt]
    exact not_lt.mpr hmin
  have hfits : nFractionalDifficultyMax / d ≤ 0x1000000 := by
    rw [UInt64.le_iff_toNat_le, hdiv, hone]
    exact hle
  have hfits' : ¬ 0x1000000 < nFractionalDifficultyMax / d := by
    rw [UInt64.lt_iff_toNat_lt]
    exact not_lt.mpr (UInt64.le_iff_toNat_le.mp hfits)
  have hfrac : (0x1000000 - nFractionalDifficultyMax / d).toUInt32.toNat =
      2 ^ 24 - 2 ^ 56 / d.toNat := by
    rw [UInt64.toNat_toUInt32, UInt64.toNat_sub_of_le _ _ hfits, hdiv, hone]
    omega
  have hset : targetSetFractionalDifficulty d nBits = some ((nBits &&& targetLengthMask) |||
      (0x1000000 - nFractionalDifficultyMax / d).toUInt32) := by
    simp only [targetSetFractionalDifficulty, if_neg hmin', if_neg hfits']
  refine ⟨_, hset, ?_⟩
  rw [UInt32.toNat_or, toNat_and_targetLengthMask, hfrac]
  exact (Nat.two_pow_add_eq_or_of_lt (by omega) _).symm

variable {nInterval nTargetSpacing nActualSpacing : Int64}

/-- The difficulty that a retarget moves to, held between the bounds. -/
theorem nextFractionalDifficulty_eq (nBits : UInt32)
    (h : targetDivisor nInterval nTargetSpacing nActualSpacing ≠ 0) :
    ∃ d, nextFractionalDifficulty nBits nInterval nTargetSpacing nActualSpacing = .ok d ∧
      (d.toNat : ℤ) = max (2 ^ 32) (min (2 ^ 56) (((targetGetFractionalDifficulty nBits).toNat *
          ((nInterval + 1) * nTargetSpacing).toInt).tdiv
            (targetDivisor nInterval nTargetSpacing nActualSpacing).toInt)) := by
  have hmin : (nFractionalDifficultyMin.toNat : ℤ) = 2 ^ 32 := rfl
  have hmax : (nFractionalDifficultyMax.toNat : ℤ) = 2 ^ 56 := rfl
  simp only [nextFractionalDifficulty, if_neg h, hmin, hmax]
  refine ⟨_, rfl, ?_⟩
  rw [UInt64.toNat_ofNat']
  generalize ((targetGetFractionalDifficulty nBits).toNat *
    ((nInterval + 1) * nTargetSpacing).toInt : ℤ).tdiv
      (targetDivisor nInterval nTargetSpacing nActualSpacing).toInt = x
  split_ifs <;> omega

theorem stepLength_spec (network : Network) {d : UInt64}
    (hmin : 2 ^ 32 ≤ d.toNat) (hlow : (nTargetMinLength network).toNat ≤ nBits.toNat / 2 ^ 24)
    (hhigh : nBits.toNat / 2 ^ 24 ≤ 99) :
    2 ^ 32 ≤ (stepLength network d nBits).1.toNat ∧ (stepLength network d nBits).1.toNat ≤ 2 ^ 40 ∧
      (nTargetMinLength network).toNat ≤ (stepLength network d nBits).2.toNat / 2 ^ 24 ∧
      (stepLength network d nBits).2.toNat / 2 ^ 24 ≤ nBits.toNat / 2 ^ 24 + 1 ∧
      nBits.toNat / 2 ^ 24 ≤ (stepLength network d nBits).2.toNat / 2 ^ 24 + 1 := by
  have hdmin : nFractionalDifficultyMin.toNat = 2 ^ 32 := rfl
  have hdthr : nFractionalDifficultyThreshold.toNat = 2 ^ 40 := rfl
  unfold stepLength
  split_ifs with hup hdown
  · rw [toNat_targetIncrementLength (by omega), hdmin]
    omega
  · have hlen := hdown.2
    rw [UInt32.lt_iff_toNat_lt, toNat_targetGetLength] at hlen
    rw [toNat_targetDecrementLength hdown.2, hdthr]
    omega
  · rw [UInt64.lt_iff_toNat_lt, hdthr] at hup
    exact ⟨hmin, not_lt.mp hup, hlow, Nat.le_succ _, Nat.le_succ _⟩

/-- A retarget with a non-zero divisor succeeds; it moves the length by at most one, keeps it at
the network minimum or above, and leaves a fraction of at most `0xff0000`. -/
theorem targetGetNext_spec (hdivisor : targetDivisor nInterval nTargetSpacing nActualSpacing ≠ 0)
    (hlow : (nTargetMinLength network).toNat ≤ nBits.toNat / 2 ^ 24)
    (hhigh : nBits.toNat / 2 ^ 24 ≤ 99) : ∃ nBitsNext,
      targetGetNext network nBits nInterval nTargetSpacing nActualSpacing = .ok nBitsNext ∧
      (nTargetMinLength network).toNat ≤ nBitsNext.toNat / 2 ^ 24 ∧
      nBitsNext.toNat / 2 ^ 24 ≤ nBits.toNat / 2 ^ 24 + 1 ∧
      nBits.toNat / 2 ^ 24 ≤ nBitsNext.toNat / 2 ^ 24 + 1 ∧
      nBitsNext.toNat % 2 ^ 24 ≤ 0xff0000 := by
  obtain ⟨d, hd, hvalue⟩ := nextFractionalDifficulty_eq nBits hdivisor
  have hdmin : 2 ^ 32 ≤ d.toNat := by omega
  obtain ⟨hmin, hthr, hlen, hup, hdown⟩ := stepLength_spec network hdmin hlow hhigh
  obtain ⟨nBitsNext, hset, hvalue⟩ := targetSetFractionalDifficulty_spec
    (stepLength network d nBits).2 hmin (by omega)
  have hquot : 2 ^ 16 ≤ 2 ^ 56 / (stepLength network d nBits).1.toNat := by
    rw [Nat.le_div_iff_mul_le (by omega)]
    omega
  refine ⟨nBitsNext, ?_, by omega, by omega, by omega, by omega⟩
  simp only [targetGetNext, hd]
  change (match targetSetFractionalDifficulty _ _ with | none => _ | some n => Except.ok n) = _
  rw [hset]

theorem targetGetMint_le {nMint : UInt64}
    (h : targetGetMint network nBits = some nMint) : nMint.toNat ≤ 99900000000 := by
  have hlimit : 999 * coin.toInt = 99900000000 := by decide
  simp only [targetGetMint, hlimit] at h
  split_ifs at h with hlen hover
  rw [Option.some.injEq] at h
  rw [h] at hover
  omega

end Primecoin
