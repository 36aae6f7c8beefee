import Primecoin.Prime.ChainTest

/-!
# The two tests of a chain

The test of Euler, Lagrange and Lifchitz computes a square root of the remainder of Fermat's test.
Along a chain the two tests part only at a member that passes Fermat's test alone, where the chain
of the other test ends.
-/

namespace Primecoin

variable {n : ℤ} {kind : Bool} {nLength : UInt32} {fuel : ℕ}

theorem nextMember_pos (kind : Bool) (hn : 0 < n) : 0 < nextMember kind n := by
  cases kind <;> simp only [nextMember] <;> split_ifs <;> omega

theorem nextMember_odd (kind : Bool) (n : ℤ) : nextMember kind n % 2 = 1 := by
  cases kind <;> simp only [nextMember] <;> split_ifs <;> omega

theorem FermatProbablePrime.odd (hn : 0 < n) (h : FermatProbablePrime n) : n % 2 = 1 := by
  by_contra heven
  obtain ⟨m, rfl⟩ := Int.eq_ofNat_of_zero_le hn.le
  rw [FermatProbablePrime, Int.natAbs_natCast] at h
  have hdvd : 2 ∣ 2 ^ ((m : ℤ) - 1).natAbs % m :=
    (Nat.dvd_mod_iff (by omega)).mpr (dvd_pow_self 2 (by omega))
  rw [h] at hdvd
  omega

/-- After an odd member no remainder modulo 8 is excluded. -/
theorem lifchitzPassed_nextMember (hn : 0 < n) (hodd : n % 2 = 1) (r : ℤ) :
    lifchitzPassed (nextMember kind n) r kind ≠ none := by
  have hmod : (nextMember kind n).tmod 8 = nextMember kind n % 8 :=
    Int.tmod_eq_emod_of_nonneg (nextMember_pos kind hn).le
  cases kind with
  | true =>
    have hcases : nextMember true n % 8 = 7 ∨ nextMember true n % 8 = 3 := by
      simp only [nextMember, if_true]
      omega
    rcases hcases with h | h <;> simp [lifchitzPassed, hmod, h]
  | false =>
    have hcases : nextMember false n % 8 = 5 ∨ nextMember false n % 8 = 1 := by
      simp only [nextMember, Bool.false_eq_true, if_false]
      omega
    rcases hcases with h | h <;> simp [lifchitzPassed, hmod, h]

/-- The square of the half power is the remainder of Fermat's test. -/
theorem bigNumModExp_half_sq (hn : 0 < n) (hodd : n % 2 = 1) :
    (bigNumModExp 2 ((n - 1) / 2) n * bigNumModExp 2 ((n - 1) / 2) n).tmod n =
      bigNumModExp 2 (n - 1) n := by
  obtain ⟨m, rfl⟩ := Int.eq_ofNat_of_zero_le hn.le
  have hexp : ((m : ℤ) - 1).natAbs =
      (((m : ℤ) - 1) / 2).natAbs + (((m : ℤ) - 1) / 2).natAbs := by omega
  rw [bigNumModExp_two, bigNumModExp_two, hexp, pow_add, Int.natAbs_natCast, Nat.mul_mod]
  norm_cast

theorem memberTest_snd_of_pass {fFermatTest : Bool}
    (h : (memberTest kind fFermatTest n nLength).1 = true) :
    (memberTest kind fFermatTest n nLength).2 = nLength := by
  cases fFermatTest with
  | true =>
    have hpass := memberTest_fst h
    simp only [memberTest, if_true, fermatProbablePrimalityTest_eq, if_pos hpass]
  | false =>
    simp only [memberTest, Bool.false_eq_true, if_false, eulerLagrangeLifchitzPrimalityTest] at h ⊢
    split at h
    · cases h
    · rfl
    · cases h

theorem memberTest_eq_of_fail (hn : 0 < n) (hodd : n % 2 = 1)
    (hfail : ¬ FermatProbablePrime (nextMember kind n)) :
    memberTest kind false (nextMember kind n) nLength =
      memberTest kind true (nextMember kind n) nLength := by
  have hvalid := @lifchitzPassed_nextMember n kind hn hodd
  have hnot : ¬ (memberTest kind false (nextMember kind n) nLength).1 = true :=
    mt memberTest_fst hfail
  have hsquare := bigNumModExp_half_sq (nextMember_pos kind hn) (nextMember_odd kind n)
  simp only [memberTest, Bool.false_eq_true, if_false, if_true, fermatProbablePrimalityTest_eq,
    if_neg hfail, eulerLagrangeLifchitzPrimalityTest, decide_eq_false hfail] at hnot ⊢
  split at hnot
  · exact absurd ‹_› (hvalid _)
  · exact absurd rfl hnot
  · simp only [hsquare]

/-- The tests differ only at a member that passes Fermat's test alone. -/
theorem memberTest_agree (kind : Bool) (nLength : UInt32) (hn : 0 < n) (h : FermatProbablePrime n) :
    FermatProbablePrime (nextMember kind n) ∧
        (memberTest kind false (nextMember kind n) nLength).1 = false ∨
      memberTest kind false (nextMember kind n) nLength =
        memberTest kind true (nextMember kind n) nLength := by
  by_cases hnext : FermatProbablePrime (nextMember kind n)
  · have hfermat := @memberTest_fermat_fst _ kind nLength hnext
    cases hpass : (memberTest kind false (nextMember kind n) nLength).1 with
    | false => exact Or.inl ⟨hnext, rfl⟩
    | true =>
      refine Or.inr (Prod.ext (hpass.trans hfermat.symm) ?_)
      rw [memberTest_snd_of_pass hpass, memberTest_snd_of_pass hfermat]
  · exact Or.inr (memberTest_eq_of_fail hn (h.odd hn) hnext)

theorem chainMember_pos (hn : 0 < n) (i : ℕ) : 0 < chainMember kind n i := by
  induction i with
  | zero => exact hn
  | succ i ih => exact nextMember_pos kind ih

/-- Every member after the first that is reached and passes Fermat's test passes the other too. -/
def FermatSuffices (kind : Bool) (n : ℤ) : Prop :=
  ∀ i nLength, (∀ j ≤ i + 1, FermatProbablePrime (chainMember kind n j)) →
    (memberTest kind false (chainMember kind n (i + 1)) nLength).1 = true

theorem FermatSuffices.next (h : FermatSuffices kind n) (hpass : FermatProbablePrime n) :
    FermatSuffices kind (nextMember kind n) := by
  intro i nLength hmembers
  simp only [chainMember_nextMember] at hmembers ⊢
  refine h (i + 1) nLength fun j hj => ?_
  cases j with
  | zero => exact hpass
  | succ j => exact hmembers j (Nat.le_of_succ_le_succ hj)

theorem cunninghamLoop_congr (hn : 0 < n) (hpass : FermatProbablePrime n)
    (hall : FermatSuffices kind n) (nLength : UInt32) (fuel : ℕ) :
    cunninghamLoop kind false fuel n nLength =
      cunninghamLoop kind true fuel n nLength := by
  induction fuel generalizing n nLength with
  | zero => rfl
  | succ fuel ih =>
    obtain ⟨hnext, hfail⟩ | hsame := memberTest_agree kind (targetIncrementLength nLength) hn hpass
    · have hother := hall 0 (targetIncrementLength nLength) fun j hj => by
        obtain rfl | rfl := Nat.le_one_iff_eq_zero_or_eq_one.mp hj
        · exact hpass
        · exact hnext
      exact absurd (hfail.symm.trans hother) Bool.false_ne_true
    · simp only [cunninghamLoop_succ, hsame]
      split_ifs with hgo
      · exact ih (nextMember_pos _ hn) (memberTest_fst hgo) (hall.next hpass) _
      · rfl

/-- The chain of the other test ends no later than Fermat's, however long that is. -/
theorem isSome_cunninghamLoop (hn : 0 < n) (hpass : FermatProbablePrime n)
    (h : (cunninghamLoop kind true fuel n nLength).isSome) :
    (cunninghamLoop kind false fuel n nLength).isSome := by
  induction fuel generalizing n nLength with
  | zero => exact h
  | succ fuel ih =>
    obtain ⟨-, hfail⟩ | hsame := memberTest_agree kind (targetIncrementLength nLength) hn hpass
    · simp only [cunninghamLoop_succ, hfail, Bool.false_eq_true, if_false, Option.isSome_some]
    · simp only [cunninghamLoop_succ, hsame] at h ⊢
      split_ifs at h ⊢ with hgo
      · exact ih (nextMember_pos kind hn) (memberTest_fst hgo) h
      · rfl

theorem IsChainLength.next {k : ℕ} (h : IsChainLength kind n (k + 1)) :
    IsChainLength kind (nextMember kind n) k := by
  simp only [IsChainLength, chainMember_nextMember]
  exact ⟨fun i hi => h.1 (i + 1) (Nat.succ_lt_succ hi), h.2⟩

theorem cunninghamLoop_le {k : ℕ} (hn : 0 < n) (hk : IsChainLength kind n (k + 1))
    (hfuel : k < fuel) (hroom : nLength.toNat / 2 ^ 24 + k < 255) :
    ∃ nLengthOther nLengthFermat, cunninghamLoop kind false fuel n nLength = some nLengthOther ∧
      cunninghamLoop kind true fuel n nLength = some nLengthFermat ∧
      nLengthOther ≤ nLengthFermat := by
  induction fuel generalizing n nLength k with
  | zero => exact absurd hfuel (Nat.not_lt_zero k)
  | succ fuel ih =>
    have hlt : nLength.toNat / 2 ^ 24 < 255 := by omega
    have hmore : FermatProbablePrime (nextMember kind n) → ∃ j, k = j + 1 :=
      fun hnext => Nat.exists_eq_succ_of_ne_zero (by rintro rfl; exact hk.2 hnext)
    obtain ⟨hnext, hfail⟩ | hsame := memberTest_agree kind
      (targetIncrementLength nLength) hn (hk.1 0 (Nat.succ_pos k))
    · -- the other chain ends here, Fermat's has at least one member more
      obtain ⟨j, rfl⟩ := hmore hnext
      have hends := (memberTest_increment kind false (nextMember kind n) hlt).2
      obtain ⟨nLengthFermat, hloop, hcount⟩ := cunninghamLoop_eq hfuel hroom
        (fun i hi => memberTest_fermat_fst (hk.1 (i + 1) (Nat.succ_lt_succ hi)))
        (Bool.eq_false_iff.mpr (mt memberTest_fst hk.2))
      refine ⟨(memberTest kind false (nextMember kind n)
        (targetIncrementLength nLength)).2, nLengthFermat, ?_, hloop, ?_⟩
      · simp only [cunninghamLoop_succ, hfail, Bool.false_eq_true, if_false]
      · rw [UInt32.le_iff_toNat_le]
        omega
    · simp only [cunninghamLoop_succ, hsame]
      split_ifs with hgo
      · obtain ⟨j, rfl⟩ := hmore (memberTest_fst hgo)
        have hcount := (memberTest_increment kind true (nextMember kind n) hlt).2
        exact ih (nextMember_pos _ hn) hk.next (by omega) (by omega)
      · exact ⟨_, _, rfl, rfl, UInt32.le_refl _⟩

/-- From a positive origin, passing the second test implies passing Fermat's, and failing both
after a member that passes gives one fraction. So the loop with the second test needs no more
rounds, the lengths are ordered while the eight bits of the count suffice, and equal where
Fermat's test decides alone. -/
theorem probableCunninghamChainTest_compare (hn : 0 < n) (kind : Bool) :
    (∀ m nLength, (eulerLagrangeLifchitzPrimalityTest m kind nLength).1 = true →
      (fermatProbablePrimalityTest m nLength).1 = true) ∧
    (∀ i nLength, FermatProbablePrime (chainMember kind n i) →
      (fermatProbablePrimalityTest (chainMember kind n (i + 1)) nLength).1 = false →
      eulerLagrangeLifchitzPrimalityTest (chainMember kind n (i + 1)) kind nLength =
        fermatProbablePrimalityTest (chainMember kind n (i + 1)) nLength) ∧
    (∀ i r, FermatProbablePrime (chainMember kind n i) →
      lifchitzPassed (chainMember kind n (i + 1)) r kind ≠ none) ∧
    (∀ fuel, (probableCunninghamChainTest fuel n kind true).isSome →
      (probableCunninghamChainTest fuel n kind false).isSome) ∧
    (∀ k < 256, IsChainLength kind n k → ∀ fuel ≥ k, ∃ found foundFermat nLength nLengthFermat,
        probableCunninghamChainTest fuel n kind false = some (found, nLength) ∧
        probableCunninghamChainTest fuel n kind true = some (foundFermat, nLengthFermat) ∧
        nLength ≤ nLengthFermat) ∧
    (FermatSuffices kind n → ∀ fuel, probableCunninghamChainTest fuel n kind false =
        probableCunninghamChainTest fuel n kind true) := by
  refine ⟨?_, ?_, ?_, ?_, ?_, ?_⟩
  · intro m nLength hpass
    exact @memberTest_fermat_fst m kind nLength (@memberTest_fst m kind nLength false hpass)
  · intro i nLength hpass hfail
    have hnext : ¬ FermatProbablePrime (chainMember kind n (i + 1)) := by
      simpa [fermatProbablePrimalityTest_eq] using hfail
    exact memberTest_eq_of_fail (chainMember_pos hn i) (hpass.odd (chainMember_pos hn i)) hnext
  · intro i r hpass
    exact lifchitzPassed_nextMember (chainMember_pos hn i) (hpass.odd (chainMember_pos hn i)) r
  · intro fuel hsome
    by_cases hfirst : FermatProbablePrime n
    · simp only [probableCunninghamChainTest, fermatProbablePrimalityTest_eq, decide_true, hfirst,
        if_true, Option.bind_eq_bind, Option.isSome_bind, Option.isSome_some] at hsome ⊢
      simpa using isSome_cunninghamLoop hn hfirst (by simpa using hsome)
    · simp [probableCunninghamChainTest, fermatProbablePrimalityTest_eq, hfirst]
  · intro k hlt hk fuel hfuel
    cases k with
    | zero =>
      have hfirst : ¬ FermatProbablePrime n := hk.2
      simp [probableCunninghamChainTest, fermatProbablePrimalityTest_eq, hfirst]
    | succ k =>
      have hfirst : FermatProbablePrime n := hk.1 0 (Nat.succ_pos k)
      obtain ⟨nLength, nLengthFermat, hother, hfermat, hle⟩ := cunninghamLoop_le hn hk
        hfuel (show (0 : UInt32).toNat / 2 ^ 24 + k < 255 by simpa using (by omega : k < 255))
      simp [probableCunninghamChainTest, fermatProbablePrimalityTest_eq, hfirst, hother, hfermat,
        hle]
  · intro hall fuel
    by_cases hfirst : FermatProbablePrime n
    · simp [probableCunninghamChainTest, fermatProbablePrimalityTest_eq, hfirst,
        cunninghamLoop_congr hn hfirst hall]
    · simp [probableCunninghamChainTest, fermatProbablePrimalityTest_eq, hfirst]

/-- The chain 5, 11, 23, 47 of the first kind, which ends before 95. -/
theorem probableCunninghamChainTest_compare_five : IsChainLength true 5 4 ∧
    ∃ found foundFermat nLength nLengthFermat,
      probableCunninghamChainTest 4 5 true false = some (found, nLength) ∧
      probableCunninghamChainTest 4 5 true true = some (foundFermat, nLengthFermat) ∧
      nLength ≤ nLengthFermat :=
  have hfive : IsChainLength true 5 4 := by unfold IsChainLength; decide
  ⟨hfive, (probableCunninghamChainTest_compare (by decide) true).2.2.2.2.1 4 (by decide) hfive 4
    le_rfl⟩

end Primecoin
