import Primecoin.Data.PowMod
import Primecoin.Prime.Target

/-!
# Prime chain tests and the proof-of-work certificate

Big numbers are integers. A chain of the first kind goes from `n` to `2n + 1`, one of the second
kind from `n` to `2n - 1`. The loop of the source has no bound, so it takes the number of rounds
as fuel and has no result when that runs out.

A length is a target: its upper eight bits count the members and the lower 24 bits hold the
fraction computed from the remainder of the first failed test.
-/

namespace Primecoin

open Option
variable {n bnPrimeChainOrigin : ℤ} {fSophieGermain : Bool} {nLength : UInt32} {fuel : ℕ}

/-- `BN_mod_exp` for a non-negative base and exponent. -/
def bigNumModExp (a e n : ℤ) : ℤ := powMod n.natAbs a.natAbs e.natAbs

/-- The low 32 bits of `BN_get_word`, which is all ones for a number of more than 64 bits. -/
def bigNumGetUInt (bn : ℤ) : UInt32 :=
  if bn.natAbs < 2 ^ 64 then UInt32.ofNat bn.natAbs else 0xffffffff

/-- The fractional length for the Fermat remainder `r`; zero leaves the length as it is. -/
def setFractionalLength (n r : ℤ) (nLength : UInt32) : UInt32 :=
  let nFractionalLength := bigNumGetUInt (((n - r) * 2 ^ 24).tdiv n)
  if 0x1000000 ≤ nFractionalLength then nLength
  else (nLength &&& targetLengthMask) ||| nFractionalLength

def fermatProbablePrimalityTest (n : ℤ) (nLength : UInt32) : Bool × UInt32 :=
  let r := bigNumModExp 2 (n - 1) n
  if r = 1 then (true, nLength) else (false, setFractionalLength n r nLength)

/-- Which remainder `EulerLagrangeLifchitzPrimalityTest` asks for; `none` where `n` has a
remainder modulo 8 that the kind of chain excludes. -/
def lifchitzPassed (n r : ℤ) (fSophieGermain : Bool) : Option Bool :=
  let nMod8 := n.tmod 8
  if fSophieGermain ∧ nMod8 = 7 then some (r = 1)
  else if fSophieGermain ∧ nMod8 = 3 then some (r + 1 = n)
  else if !fSophieGermain ∧ nMod8 = 5 then some (r + 1 = n)
  else if !fSophieGermain ∧ nMod8 = 1 then some (r = 1)
  else none

def eulerLagrangeLifchitzPrimalityTest (n : ℤ) (fSophieGermain : Bool) (nLength : UInt32) :
    Bool × UInt32 :=
  let r := bigNumModExp 2 ((n - 1) / 2) n
  match lifchitzPassed n r fSophieGermain with
  | none => (false, nLength)
  | some true => (true, nLength)
  | some false => (false, setFractionalLength n ((r * r).tmod n) nLength)

def memberTest (fSophieGermain fFermatTest : Bool) (n : ℤ) (nLength : UInt32) : Bool × UInt32 :=
  if fFermatTest then fermatProbablePrimalityTest n nLength
  else eulerLagrangeLifchitzPrimalityTest n fSophieGermain nLength

def nextMember (fSophieGermain : Bool) (n : ℤ) : ℤ := n + n + if fSophieGermain then 1 else -1

def cunninghamLoop (fSophieGermain fFermatTest : Bool) : ℕ → ℤ → UInt32 → Option UInt32
  | 0, _, _ => none
  | fuel + 1, n, nProbableChainLength =>
    let n := nextMember fSophieGermain n
    match memberTest fSophieGermain fFermatTest n (targetIncrementLength nProbableChainLength) with
    | (true, nProbableChainLength) =>
      cunninghamLoop fSophieGermain fFermatTest fuel n nProbableChainLength
    | (false, nProbableChainLength) => some nProbableChainLength

/-- The boolean result is not used by the callers. -/
def probableCunninghamChainTest (fuel : ℕ) (n : ℤ) (fSophieGermain fFermatTest : Bool) :
    Option (Bool × UInt32) :=
  match fermatProbablePrimalityTest n 0 with
  | (false, nProbableChainLength) => some (false, nProbableChainLength)
  | (true, nProbableChainLength) => do
      let nProbableChainLength ←
        cunninghamLoop fSophieGermain fFermatTest fuel n nProbableChainLength
      some (2 ≤ targetGetLength nProbableChainLength, nProbableChainLength)

structure ChainLengths where
  cunningham1 : UInt32
  cunningham2 : UInt32
  biTwin : UInt32
  deriving DecidableEq, Repr

def biTwinLength (nChainLengthCunningham1 nChainLengthCunningham2 : UInt32) : UInt32 :=
  if targetGetLength nChainLengthCunningham2 < targetGetLength nChainLengthCunningham1 then
    nChainLengthCunningham2 + targetFromInt (targetGetLength nChainLengthCunningham2 + 1)
  else nChainLengthCunningham1 + targetFromInt (targetGetLength nChainLengthCunningham1)

variable (lengths : ChainLengths)

def ChainLengths.meets (nBits : UInt32) : Bool :=
  nBits ≤ lengths.cunningham1 || nBits ≤ lengths.cunningham2 || nBits ≤ lengths.biTwin

def probablePrimeChainTest (fuel : ℕ) (bnPrimeChainOrigin : ℤ) (nBits : UInt32)
    (fFermatTest : Bool) : Option (Bool × ChainLengths) := do
  let (_, nChainLengthCunningham1) ←
    probableCunninghamChainTest fuel (bnPrimeChainOrigin - 1) true fFermatTest
  let (_, nChainLengthCunningham2) ←
    probableCunninghamChainTest fuel (bnPrimeChainOrigin + 1) false fFermatTest
  let lengths : ChainLengths := ⟨nChainLengthCunningham1, nChainLengthCunningham2,
    biTwinLength nChainLengthCunningham1 nChainLengthCunningham2⟩
  some (lengths.meets nBits, lengths)

inductive PrimeChainType
  | cunningham1
  | cunningham2
  | biTwin
  deriving DecidableEq, Repr

/-- The longest of the three chains, the first one among equals. -/
def selectChain : PrimeChainType × UInt32 :=
  let best := (PrimeChainType.cunningham1, lengths.cunningham1)
  let best := if best.2 < lengths.cunningham2 then (.cunningham2, lengths.cunningham2) else best
  if best.2 < lengths.biTwin then (.biTwin, lengths.biTwin) else best

def hashBlockHeaderLimit : UInt256 := 1 <<< 255
def bnPrimeMin : ℤ := 2 ^ 255
def bnPrimeMax : ℤ := 2 ^ 2000 - 1

/-- The certificate is not normalized: halving the multiplier gives a longer
chain. -/
def extendsDown (lengths : Bool × ChainLengths) (nChainLength : UInt32) : Bool :=
  lengths.1 && (nChainLength < lengths.2.cunningham1 || nChainLength < lengths.2.cunningham2 ||
    nChainLength < lengths.2.biTwin)

/-- The longest chain is selected and the certificate must be normalized. -/
def checkNormalized (fuel : ℕ) (nBits : UInt32) (bnPrimeChainMultiplier bnPrimeChainOrigin : ℤ)
    (lengths : ChainLengths) : Option (Except String (PrimeChainType × UInt32)) :=
  if bnPrimeChainMultiplier.tmod 2 = 0 ∧ bnPrimeChainOrigin.tmod 4 = 0 then do
    let extended ← probablePrimeChainTest fuel (bnPrimeChainOrigin.tdiv 2) nBits false
    if extendsDown extended (selectChain lengths).2 then
      some (.error "CheckPrimeProofOfWork() : prime certificate not normalzied target=%s length=(%s %s %s) extend=(%s %s %s)")
    else some (.ok (selectChain lengths))
  else some (.ok (selectChain lengths))

def checkPrimeChain (fuel : ℕ) (nBits : UInt32) (bnPrimeChainMultiplier bnPrimeChainOrigin : ℤ) :
    Option (Except String (PrimeChainType × UInt32)) := do
  let (fFound, lengths) ← probablePrimeChainTest fuel bnPrimeChainOrigin nBits false
  if !fFound then
    some (.error "CheckPrimeProofOfWork() : failed prime chain test target=%s length=(%s %s %s)")
  else if !lengths.meets nBits then
    some (.error "CheckPrimeProofOfWork() : prime chain length assert target=%s length=(%s %s %s)")
  else do
    let (fFermat, lengthsFermat) ← probablePrimeChainTest fuel bnPrimeChainOrigin nBits true
    if !fFermat then
      some (.error "CheckPrimeProofOfWork() : failed Fermat test target=%s length=(%s %s %s) lengthFermat=(%s %s %s)")
    else if lengths ≠ lengthsFermat then
      some (.error "CheckPrimeProofOfWork() : failed Fermat-only double check target=%s length=(%s %s %s) lengthFermat=(%s %s %s)")
    else checkNormalized fuel nBits bnPrimeChainMultiplier bnPrimeChainOrigin lengths

/-- Type and length of the chain where it returns true, the text of the error where it returns
false, and no result without fuel. -/
def checkPrimeProofOfWork (fuel : ℕ) (network : Network) (hashBlockHeader : UInt256)
    (nBits : UInt32) (bnPrimeChainMultiplier : ℤ) :
    Option (Except String (PrimeChainType × UInt32)) :=
  let bnPrimeChainOrigin := (hashBlockHeader.toNat : ℤ) * bnPrimeChainMultiplier
  if targetGetLength nBits < nTargetMinLength network ∨ 99 < targetGetLength nBits then
    some (.error "CheckPrimeProofOfWork() : invalid chain length target %s")
  else if hashBlockHeader < hashBlockHeaderLimit then
    some (.error "CheckPrimeProofOfWork() : block header hash under limit")
  else if bnPrimeChainOrigin < bnPrimeMin then
    some (.error "CheckPrimeProofOfWork() : prime too small")
  else if bnPrimeMax < bnPrimeChainOrigin then
    some (.error "CheckPrimeProofOfWork() : prime too big")
  else checkPrimeChain fuel nBits bnPrimeChainMultiplier bnPrimeChainOrigin

/-! The chains the tests are about, in terms of powers and remainders. -/

def FermatProbablePrime (n : ℤ) : Prop := 2 ^ (n - 1).natAbs % n.natAbs = 1

def chainMember (fSophieGermain : Bool) (n : ℤ) : ℕ → ℤ
  | 0 => n
  | i + 1 => nextMember fSophieGermain (chainMember fSophieGermain n i)

/-- Exactly the first `k` members pass the Fermat test before one fails. -/
def IsChainLength (fSophieGermain : Bool) (n : ℤ) (k : ℕ) : Prop :=
  (∀ i < k, FermatProbablePrime (chainMember fSophieGermain n i)) ∧
    ¬ FermatProbablePrime (chainMember fSophieGermain n k)

/-- Neither of the two chains around an origin has 128 members. -/
def ShortChains (bnPrimeChainOrigin : ℤ) : Prop :=
  (∃ i < 128, ¬ FermatProbablePrime (chainMember true (bnPrimeChainOrigin - 1) i)) ∧
    ∃ i < 128, ¬ FermatProbablePrime (chainMember false (bnPrimeChainOrigin + 1) i)

theorem bigNumModExp_two (e n : ℤ) : bigNumModExp 2 e n = ((2 ^ e.natAbs % n.natAbs : ℕ) : ℤ) := by
  rw [bigNumModExp, powMod_eq]
  rfl

theorem fermatProbablePrime_iff (n : ℤ) :
    FermatProbablePrime n ↔ powMod n.natAbs 2 (n - 1).natAbs = 1 := by
  rw [powMod_eq]
  rfl

instance (n : ℤ) : Decidable (FermatProbablePrime n) :=
  decidable_of_iff _ (fermatProbablePrime_iff n).symm

theorem chainMember_nextMember (fSophieGermain : Bool) (n : ℤ) (i : ℕ) :
    chainMember fSophieGermain (nextMember fSophieGermain n) i =
      chainMember fSophieGermain n (i + 1) := by
  induction i with
  | zero => rfl
  | succ i ih => exact congrArg (nextMember fSophieGermain) ih

/-- The fraction never reaches the bits of the length. -/
theorem setFractionalLength_length (n r : ℤ) (nLength : UInt32) :
    (setFractionalLength n r nLength).toNat / 2 ^ 24 = nLength.toNat / 2 ^ 24 := by
  have hone : (0x1000000 : UInt32).toNat = 2 ^ 24 := rfl
  simp only [setFractionalLength]
  split_ifs with hover
  · rfl
  · rw [UInt32.le_iff_toNat_le, hone, not_le] at hover
    rw [UInt32.toNat_or, toNat_and_targetLengthMask, ← Nat.two_pow_add_eq_or_of_lt hover]
    omega

theorem fermatProbablePrimalityTest_eq (n : ℤ) (nLength : UInt32) :
    fermatProbablePrimalityTest n nLength =
      (decide (FermatProbablePrime n), if FermatProbablePrime n then nLength else
        setFractionalLength n (bigNumModExp 2 (n - 1) n) nLength) := by
  have hpass : bigNumModExp 2 (n - 1) n = 1 ↔ FermatProbablePrime n := by
    rw [bigNumModExp_two, FermatProbablePrime]
    exact Nat.cast_eq_one
  by_cases h : FermatProbablePrime n
  · simp [fermatProbablePrimalityTest, hpass.mpr h, h]
  · simp [fermatProbablePrimalityTest, mt hpass.mp h, h]

/-- A remainder of one or minus one, which is what each kind of chain asks for. -/
theorem lifchitzPassed_eq_true {r : ℤ} (h : lifchitzPassed n r fSophieGermain = some true) :
    0 < n ∧ n % 2 = 1 ∧ (r = 1 ∨ r + 1 = n ∧ n ≠ 1) := by
  have hpos : ∀ m : ℤ, 0 < m → n.tmod 8 = m → 0 < n := by
    intro m hm hmod
    by_contra hneg
    have hmod' := Int.tmod_nonneg 8 (a := -n) (by omega)
    rw [Int.neg_tmod] at hmod'
    omega
  have heven : n.tmod 8 % 2 = n % 2 := by
    have := Int.mul_tdiv_add_tmod n 8
    omega
  have hone : n.tmod 8 ≠ 1 → n ≠ 1 := by
    rintro hmod rfl
    exact hmod rfl
  simp only [lifchitzPassed] at h
  split_ifs at h with h7 h3 h5 h1
  · exact ⟨hpos 7 (by norm_num) h7.2, by omega, Or.inl (by simpa using h)⟩
  · exact ⟨hpos 3 (by norm_num) h3.2, by omega, Or.inr ⟨by simpa using h, hone (by omega)⟩⟩
  · exact ⟨hpos 5 (by norm_num) h5.2, by omega, Or.inr ⟨by simpa using h, hone (by omega)⟩⟩
  · exact ⟨hpos 1 (by norm_num) h1.2, by omega, Or.inl (by simpa using h)⟩

/-- A square root of one modulo `n` that is one or minus one squares to one. -/
theorem fermatProbablePrime_of_root (hpos : 0 < n) (hodd : n % 2 = 1)
    (h : bigNumModExp 2 ((n - 1) / 2) n = 1 ∨
      bigNumModExp 2 ((n - 1) / 2) n + 1 = n ∧ n ≠ 1) : FermatProbablePrime n := by
  obtain ⟨m, rfl⟩ := Int.eq_ofNat_of_zero_le hpos.le
  have hexp : ((m : ℤ) - 1).natAbs = 2 * (((m : ℤ) - 1) / 2).natAbs := by omega
  have hlt : 2 ^ (((m : ℤ) - 1) / 2).natAbs % m < m := Nat.mod_lt _ (by omega)
  rw [bigNumModExp_two, Int.natAbs_natCast] at h
  rw [FermatProbablePrime, Int.natAbs_natCast, hexp, mul_comm, pow_mul, pow_two, Nat.mul_mod]
  generalize 2 ^ (((m : ℤ) - 1) / 2).natAbs % m = r at h hlt
  rcases h with h | ⟨h, hne⟩
  · obtain rfl : r = 1 := by omega
    exact Nat.mod_eq_of_lt hlt
  · obtain ⟨k, rfl⟩ := Nat.exists_eq_add_of_le' (show 1 ≤ r by omega)
    obtain rfl : m = k + 2 := by omega
    have hsquare : (k + 1) * (k + 1) = 1 + (k + 2) * k := by ring
    rw [hsquare, Nat.add_mul_mod_self_left, Nat.mod_eq_of_lt (by omega)]

theorem memberTest_fst {fFermatTest : Bool}
    (h : (memberTest fSophieGermain fFermatTest n nLength).1 = true) :
    FermatProbablePrime n := by
  cases fFermatTest with
  | true => simpa [memberTest, fermatProbablePrimalityTest_eq] using h
  | false =>
    simp only [memberTest, eulerLagrangeLifchitzPrimalityTest, Bool.false_eq_true, if_false] at h
    split at h
    · cases h
    · rename_i hpassed
      obtain ⟨hpos, hodd, hroot⟩ := lifchitzPassed_eq_true hpassed
      exact fermatProbablePrime_of_root hpos hodd hroot
    · cases h

theorem memberTest_fermat_fst
    (h : FermatProbablePrime n) : (memberTest fSophieGermain true n nLength).1 = true := by
  simpa [memberTest, fermatProbablePrimalityTest_eq] using h

section

variable (fSophieGermain fFermatTest : Bool)

theorem memberTest_snd (n : ℤ) (nLength nOther : UInt32) :
    (memberTest fSophieGermain fFermatTest n nLength).1 =
        (memberTest fSophieGermain fFermatTest n nOther).1 ∧
      (memberTest fSophieGermain fFermatTest n nLength).2.toNat / 2 ^ 24 =
        nLength.toNat / 2 ^ 24 := by
  cases fFermatTest with
  | true =>
    simp only [memberTest, if_true, fermatProbablePrimalityTest_eq, true_and]
    split_ifs
    · rfl
    · exact setFractionalLength_length _ _ _
  | false =>
    simp only [memberTest, Bool.false_eq_true, if_false, eulerLagrangeLifchitzPrimalityTest]
    split
    · exact ⟨rfl, rfl⟩
    · exact ⟨rfl, rfl⟩
    · exact ⟨rfl, setFractionalLength_length _ _ _⟩

theorem cunninghamLoop_succ (fuel : ℕ) (n : ℤ) (nLength : UInt32) :
    cunninghamLoop fSophieGermain fFermatTest (fuel + 1) n nLength =
      let tested := memberTest fSophieGermain fFermatTest (nextMember fSophieGermain n)
        (targetIncrementLength nLength)
      if tested.1 then
        cunninghamLoop fSophieGermain fFermatTest fuel (nextMember fSophieGermain n) tested.2
      else some tested.2 := by
  simp only [cunninghamLoop]
  rcases memberTest fSophieGermain fFermatTest (nextMember fSophieGermain n)
    (targetIncrementLength nLength) with ⟨_ | _, _⟩ <;> rfl

theorem memberTest_increment (n : ℤ) (h : nLength.toNat / 2 ^ 24 < 255) :
    (memberTest fSophieGermain fFermatTest n (targetIncrementLength nLength)).1 =
        (memberTest fSophieGermain fFermatTest n 0).1 ∧
      (memberTest fSophieGermain fFermatTest n (targetIncrementLength nLength)).2.toNat / 2 ^ 24 =
        nLength.toNat / 2 ^ 24 + 1 := by
  obtain ⟨hfst, hsnd⟩ := memberTest_snd fSophieGermain fFermatTest n
    (targetIncrementLength nLength) 0
  rw [toNat_targetIncrementLength h] at hsnd
  exact ⟨hfst, by omega⟩

end

/-- The loop counts the members that pass before the first that does not. -/
theorem cunninghamLoop_eq {fFermatTest : Bool} {k : ℕ}
    (hfuel : k < fuel) (hlength : nLength.toNat / 2 ^ 24 + k < 255)
    (hpass : ∀ i < k, (memberTest fSophieGermain fFermatTest
      (chainMember fSophieGermain n (i + 1)) 0).1 = true)
    (hfail : (memberTest fSophieGermain fFermatTest
      (chainMember fSophieGermain n (k + 1)) 0).1 = false) :
    ∃ nResult, cunninghamLoop fSophieGermain fFermatTest fuel n nLength = some nResult ∧
      nResult.toNat / 2 ^ 24 = nLength.toNat / 2 ^ 24 + k + 1 := by
  induction k generalizing fuel n nLength with
  | zero =>
    have hlt : nLength.toNat / 2 ^ 24 < 255 := by omega
    obtain ⟨fuel, rfl⟩ := Nat.exists_eq_add_of_le' hfuel
    obtain ⟨hfst, hsnd⟩ := memberTest_increment fSophieGermain fFermatTest
      (nextMember fSophieGermain n) hlt
    have hstop := hfst.trans hfail
    simp only [cunninghamLoop_succ, hstop, Bool.false_eq_true, if_false]
    exact ⟨_, rfl, hsnd⟩
  | succ k ih =>
    have hlt : nLength.toNat / 2 ^ 24 < 255 := by omega
    obtain ⟨fuel, rfl⟩ := Nat.exists_eq_add_of_le' (Nat.one_le_of_lt hfuel)
    obtain ⟨hfst, hsnd⟩ := memberTest_increment fSophieGermain fFermatTest
      (nextMember fSophieGermain n) hlt
    have hgo := hfst.trans (hpass 0 (Nat.succ_pos k))
    simp only [cunninghamLoop_succ, if_pos hgo]
    have hrest : k < fuel := by omega
    have hroom := (Nat.add_le_add_right hsnd.le k).trans_lt (show _ < 255 by omega)
    obtain ⟨nResult, hloop, hlen⟩ := ih (n := nextMember fSophieGermain n) hrest hroom
      (fun i hi => by
        rw [chainMember_nextMember]
        exact hpass (i + 1) (by omega))
      (by rwa [chainMember_nextMember])
    exact ⟨nResult, hloop, by omega⟩

theorem exists_first_failure (fFermatTest : Bool) (hfirst : FermatProbablePrime n)
    (hshort : ∃ i < 128, ¬ FermatProbablePrime (chainMember fSophieGermain n i)) :
    ∃ k < 127, (∀ i < k, (memberTest fSophieGermain fFermatTest
        (chainMember fSophieGermain n (i + 1)) 0).1 = true) ∧
      (memberTest fSophieGermain fFermatTest
        (chainMember fSophieGermain n (k + 1)) 0).1 = false := by
  obtain ⟨j, hj, hbad⟩ := hshort
  cases j with
  | zero => exact absurd hfirst hbad
  | succ j =>
    have hfails : ∃ i, (memberTest fSophieGermain fFermatTest
        (chainMember fSophieGermain n (i + 1)) 0).1 = false := by
      refine ⟨j, ?_⟩
      by_contra hpass
      exact hbad (memberTest_fst (by simpa using hpass))
    have hle : Nat.find hfails ≤ j := by
      refine Nat.find_le ?_
      by_contra hpass
      exact hbad (memberTest_fst (by simpa using hpass))
    refine ⟨Nat.find hfails, by omega, ?_, Nat.find_spec hfails⟩
    intro i hi
    simpa using Nat.find_min hfails hi

/-- With a member that fails among the first 128, the test ends; with Fermat tests only, the
length reported is the number of members that pass. -/
theorem probableCunninghamChainTest_ok (hfuel : 128 ≤ fuel) (fFermatTest : Bool)
    (hshort : ∃ i < 128, ¬ FermatProbablePrime (chainMember fSophieGermain n i)) :
    ∃ fFound nLength k,
      probableCunninghamChainTest fuel n fSophieGermain fFermatTest = some (fFound, nLength) ∧
      nLength.toNat / 2 ^ 24 = k ∧ k < 128 ∧
      (fFermatTest = true → IsChainLength fSophieGermain n k) := by
  by_cases hfirst : FermatProbablePrime n
  · obtain ⟨k, hk, hpass, hfail⟩ := exists_first_failure fFermatTest hfirst hshort
    have hrounds : k < fuel := by omega
    have hroom : (0 : UInt32).toNat / 2 ^ 24 + k < 255 := by simpa using (by omega : k < 255)
    obtain ⟨nLength, hloop, hlen⟩ := cunninghamLoop_eq hrounds hroom hpass hfail
    refine ⟨2 ≤ targetGetLength nLength, nLength, k + 1, ?_, by simpa using hlen, by omega, ?_⟩
    · simp [probableCunninghamChainTest, fermatProbablePrimalityTest_eq, hfirst, hloop]
    · rintro rfl
      refine ⟨?_, ?_⟩
      · intro i hi
        cases i with
        | zero => exact hfirst
        | succ i => exact memberTest_fst (hpass i (by omega))
      · intro hlast
        rw [memberTest_fermat_fst hlast] at hfail
        exact Bool.noConfusion hfail
  · refine ⟨false, setFractionalLength n (bigNumModExp 2 (n - 1) n) 0, 0, ?_, ?_, by omega, ?_⟩
    · simp [probableCunninghamChainTest, fermatProbablePrimalityTest_eq, hfirst]
    · rw [setFractionalLength_length]
      rfl
    · intro _
      exact ⟨fun i hi => absurd hi (Nat.not_lt_zero i), hfirst⟩

theorem toNat_biTwinLength {nLength1 nLength2 : UInt32} (h1 : nLength1.toNat / 2 ^ 24 < 128)
    (h2 : nLength2.toNat / 2 ^ 24 < 128) :
    (biTwinLength nLength1 nLength2).toNat / 2 ^ 24 =
      if nLength1.toNat / 2 ^ 24 ≤ nLength2.toNat / 2 ^ 24 then 2 * (nLength1.toNat / 2 ^ 24)
      else 2 * (nLength2.toNat / 2 ^ 24) + 1 := by
  have hfrom : ∀ n : UInt32, n.toNat < 256 → (targetFromInt n).toNat = 2 ^ 24 * n.toNat := by
    intro n hn
    rw [targetFromInt, UInt32.toNat_shiftLeft]
    change n.toNat <<< 24 % 2 ^ 32 = _
    rw [Nat.shiftLeft_eq]
    omega
  unfold biTwinLength
  simp only [UInt32.lt_iff_toNat_lt, toNat_targetGetLength]
  split_ifs with hlt hle hle
  · omega
  · have hsucc : (targetGetLength nLength2 + 1).toNat = nLength2.toNat / 2 ^ 24 + 1 := by
      rw [UInt32.toNat_add, toNat_targetGetLength]
      change (_ + 1) % 2 ^ 32 = _
      omega
    rw [UInt32.toNat_add, hfrom _ (by omega), hsucc]
    omega
  · rw [UInt32.toNat_add, hfrom _ (by rw [toNat_targetGetLength]; omega), toNat_targetGetLength]
    omega
  · omega

theorem probablePrimeChainTest_ok (hfuel : 128 ≤ fuel)
    (nBits : UInt32) (fFermatTest : Bool) (hshort : ShortChains bnPrimeChainOrigin) :
    ∃ lengths : ChainLengths, ∃ len1 len2,
      probablePrimeChainTest fuel bnPrimeChainOrigin nBits fFermatTest =
        some (lengths.meets nBits, lengths) ∧
      lengths.cunningham1.toNat / 2 ^ 24 = len1 ∧ lengths.cunningham2.toNat / 2 ^ 24 = len2 ∧
      lengths.biTwin.toNat / 2 ^ 24 = (if len1 ≤ len2 then 2 * len1 else 2 * len2 + 1) ∧
      (fFermatTest = true → IsChainLength true (bnPrimeChainOrigin - 1) len1 ∧
        IsChainLength false (bnPrimeChainOrigin + 1) len2) := by
  obtain ⟨_, n1, len1, htest1, hlen1, hlt1, hexact1⟩ :=
    probableCunninghamChainTest_ok hfuel fFermatTest hshort.1
  obtain ⟨_, n2, len2, htest2, hlen2, hlt2, hexact2⟩ :=
    probableCunninghamChainTest_ok hfuel fFermatTest hshort.2
  refine ⟨⟨n1, n2, biTwinLength n1 n2⟩, len1, len2, ?_, hlen1, hlen2, ?_, ?_⟩
  · simp [probablePrimeChainTest, htest1, htest2]
  · rw [toNat_biTwinLength (by omega) (by omega), hlen1, hlen2]
  · exact fun h => ⟨hexact1 h, hexact2 h⟩

/-- The chain selected is at least as long as each of the three. -/
theorem selectChain_spec :
    lengths.cunningham1 ≤ (selectChain lengths).2 ∧ lengths.cunningham2 ≤ (selectChain lengths).2 ∧
      lengths.biTwin ≤ (selectChain lengths).2 ∧
      (selectChain lengths).2 = match (selectChain lengths).1 with
        | .cunningham1 => lengths.cunningham1
        | .cunningham2 => lengths.cunningham2
        | .biTwin => lengths.biTwin := by
  simp only [selectChain, UInt32.lt_iff_toNat_lt, UInt32.le_iff_toNat_le]
  split_ifs <;> refine ⟨?_, ?_, ?_, rfl⟩ <;> simp only [] at * <;> omega

def NotExtended (fuel : ℕ) (bnPrimeChainOrigin : ℤ) (nBits nChainLength : UInt32) : Prop :=
  ∃ fFound lengths,
    probablePrimeChainTest fuel (bnPrimeChainOrigin.tdiv 2) nBits false = some (fFound, lengths) ∧
      lengths.cunningham1 ≤ nChainLength ∧ lengths.cunningham2 ≤ nChainLength ∧
      lengths.biTwin ≤ nChainLength

variable {bnPrimeChainMultiplier : ℤ}

theorem checkNormalized_ok (hfuel : 128 ≤ fuel) (nBits : UInt32) {lengths : ChainLengths}
    (hmeets : lengths.meets nBits = true)
    (hshortHalf : 2 ∣ bnPrimeChainMultiplier → 4 ∣ bnPrimeChainOrigin →
      ShortChains (bnPrimeChainOrigin.tdiv 2)) : ∃ result,
      checkNormalized fuel nBits bnPrimeChainMultiplier bnPrimeChainOrigin lengths = some result ∧
      ∀ selected, result = .ok selected → selected = selectChain lengths ∧ nBits ≤ selected.2 ∧
        (2 ∣ bnPrimeChainMultiplier → 4 ∣ bnPrimeChainOrigin →
          NotExtended fuel bnPrimeChainOrigin nBits selected.2) := by
  obtain ⟨hsel1, hsel2, hsel3, -⟩ := selectChain_spec lengths
  have hlong : nBits ≤ (selectChain lengths).2 := by
    simp only [ChainLengths.meets, Bool.or_eq_true, decide_eq_true_eq] at hmeets
    rcases hmeets with (h | h) | h
    · exact UInt32.le_trans h hsel1
    · exact UInt32.le_trans h hsel2
    · exact UInt32.le_trans h hsel3
  unfold checkNormalized
  split_ifs with hhalf
  · have htwo : 2 ∣ bnPrimeChainMultiplier := Int.dvd_of_tmod_eq_zero hhalf.1
    have hfour : 4 ∣ bnPrimeChainOrigin := Int.dvd_of_tmod_eq_zero hhalf.2
    obtain ⟨halved, _, _, htest, -⟩ :=
      probablePrimeChainTest_ok hfuel nBits false (hshortHalf htwo hfour)
    simp only [htest, bind_eq_bind, bind_some]
    split_ifs with hdown
    · exact ⟨_, rfl, fun _ h => by cases h⟩
    · refine ⟨_, rfl, ?_⟩
      rintro _ ⟨⟩
      refine ⟨rfl, hlong, fun _ _ => ⟨_, halved, htest, ?_⟩⟩
      -- lengths that do not meet the target are below any that does
      simp only [extendsDown, ChainLengths.meets, Bool.not_eq_true, Bool.and_eq_false_iff,
        Bool.or_eq_false_iff, decide_eq_false_iff_not, UInt32.lt_iff_toNat_lt,
        UInt32.le_iff_toNat_le] at hdown
      simp only [UInt32.le_iff_toNat_le] at hlong ⊢
      omega
  · refine ⟨_, rfl, ?_⟩
    rintro _ ⟨⟩
    refine ⟨rfl, hlong, fun htwo hfour => absurd ⟨?_, ?_⟩ hhalf⟩
    · exact Int.tmod_eq_zero_of_dvd htwo
    · exact Int.tmod_eq_zero_of_dvd hfour

/-- A certificate that is accepted proves what it claims: target and origin are in range, the
length reported is at least the target, and its integer part is the exact number of chain members
that pass the Fermat test. The check ends because the chains around the origin are short. -/
theorem checkPrimeProofOfWork_certifies {fuel : ℕ} (hfuel : 128 ≤ fuel) (network : Network)
    (hashBlockHeader : UInt256) (nBits : UInt32) (bnPrimeChainMultiplier bnPrimeChainOrigin : ℤ)
    (horigin : bnPrimeChainOrigin = hashBlockHeader.toNat * bnPrimeChainMultiplier)
    (hshort : ShortChains bnPrimeChainOrigin)
    (hshortHalf : 2 ∣ bnPrimeChainMultiplier → 4 ∣ bnPrimeChainOrigin →
      ShortChains (bnPrimeChainOrigin.tdiv 2)) :
    ∃ result, checkPrimeProofOfWork fuel network hashBlockHeader nBits bnPrimeChainMultiplier =
        some result ∧
      ∀ nChainType nChainLength, result = .ok (nChainType, nChainLength) →
        (nTargetMinLength network ≤ targetGetLength nBits ∧ targetGetLength nBits ≤ 99) ∧
        2 ^ 255 ≤ hashBlockHeader.toNat ∧
        (2 ^ 255 ≤ bnPrimeChainOrigin ∧ bnPrimeChainOrigin ≤ 2 ^ 2000 - 1) ∧
        nBits ≤ nChainLength ∧
        (∃ len1 len2, IsChainLength true (bnPrimeChainOrigin - 1) len1 ∧
          IsChainLength false (bnPrimeChainOrigin + 1) len2 ∧
          (targetGetLength nChainLength).toNat = match nChainType with
            | .cunningham1 => len1
            | .cunningham2 => len2
            | .biTwin => if len1 ≤ len2 then 2 * len1 else 2 * len2 + 1) ∧
        (2 ∣ bnPrimeChainMultiplier → 4 ∣ bnPrimeChainOrigin →
          NotExtended fuel bnPrimeChainOrigin nBits nChainLength) := by
  have hlimit : hashBlockHeaderLimit.toNat = 2 ^ 255 := by decide
  obtain ⟨lengths, _, _, htest, -⟩ := probablePrimeChainTest_ok hfuel nBits false hshort
  obtain ⟨lengthsFermat, len1, len2, htestFermat, hlen1, hlen2, hbiTwin, hexact⟩ :=
    probablePrimeChainTest_ok hfuel nBits true hshort
  simp only [checkPrimeProofOfWork, ← horigin, checkPrimeChain, htest, htestFermat, bind_eq_bind,
    bind_some]
  split_ifs with hlength hhash hmin hmax hfound hfermat heq
  any_goals exact ⟨_, rfl, fun _ _ h => by cases h⟩
  rw [not_or, UInt32.not_lt, UInt32.not_lt] at hlength
  rw [BitVec.lt_def, hlimit, not_lt] at hhash
  have hmeets : lengths.meets nBits = true := by simpa using hfound
  obtain ⟨result, hresult, hspec⟩ := checkNormalized_ok hfuel nBits hmeets hshortHalf
  refine ⟨result, hresult, fun nChainType nChainLength hok => ?_⟩
  obtain ⟨hselected, hmeets, hextended⟩ := hspec _ hok
  obtain rfl : lengths = lengthsFermat := by simpa using heq
  refine ⟨hlength, hhash, ⟨not_lt.mp hmin, not_lt.mp hmax⟩, hmeets,
    ⟨len1, len2, (hexact rfl).1, (hexact rfl).2, ?_⟩, hextended⟩
  obtain ⟨-, -, -, hvalue⟩ := selectChain_spec lengths
  rw [← hselected] at hvalue
  dsimp only at hvalue
  rw [toNat_targetGetLength, hvalue]
  cases nChainType
  · exact hlen1
  · exact hlen2
  · exact hbiTwin

def genesisHeaderHash : UInt256 :=
  0xa6d8ded5409f1d1eb0cc3c54f4dd324258cfb5d54fdd2597b0aa227a517a39f1
def genesisMultiplier : ℤ := 532541 * (2 * 3 * 5 * 7 * 11 * 13 * 17 * 19 * 23)

theorem checkPrimeProofOfWork_genesis :
    checkPrimeProofOfWork 128 .official genesisHeaderHash 0x06000000 genesisMultiplier =
      some (.ok (.biTwin, 0x06e0d80e)) := by
  decide +kernel

/-- The certificate of the genesis block: three pairs of twins. -/
theorem checkPrimeProofOfWork_certifies_genesis :
    ∃ len1 len2, IsChainLength true (genesisHeaderHash.toNat * genesisMultiplier - 1) len1 ∧
      IsChainLength false (genesisHeaderHash.toNat * genesisMultiplier + 1) len2 ∧
      6 = if len1 ≤ len2 then 2 * len1 else 2 * len2 + 1 := by
  obtain ⟨result, hresult, hspec⟩ := checkPrimeProofOfWork_certifies (le_refl 128) .official
    genesisHeaderHash 0x06000000 genesisMultiplier _ rfl
    ⟨⟨3, by decide +kernel⟩, ⟨3, by decide +kernel⟩⟩
    (fun _ hfour => absurd hfour (by decide))
  rw [checkPrimeProofOfWork_genesis, some.injEq] at hresult
  exact (hspec _ _ hresult.symm).2.2.2.2.1

end Primecoin
