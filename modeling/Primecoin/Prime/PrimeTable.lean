import Mathlib.Data.Nat.Prime.Basic

/-!
# The prime table

`GeneratePrimeTable` crosses out multiples, each prime's from its square on, and keeps what is
left. The limit is a parameter.
-/

namespace Primecoin

section Code

variable (nPrimeTableLimit : ℕ)

/-- The inner loop, from `nComposite` on; `nFactor` is at least 2 in it. -/
def crossOut (nFactor : ℕ) (vfComposite : ℕ → Bool) (nComposite : ℕ) : ℕ → Bool :=
  if nComposite < nPrimeTableLimit ∧ 0 < nFactor then
    crossOut nFactor (Function.update vfComposite nComposite true) (nComposite + nFactor)
  else vfComposite
termination_by nPrimeTableLimit - nComposite

def sieve (vfComposite : ℕ → Bool) (nFactor : ℕ) : ℕ → Bool :=
  if nFactor * nFactor < nPrimeTableLimit then
    sieve
      (if vfComposite nFactor then vfComposite
        else crossOut nPrimeTableLimit nFactor vfComposite (nFactor * nFactor))
      (nFactor + 1)
  else vfComposite
termination_by nPrimeTableLimit - nFactor
decreasing_by have := Nat.le_mul_self nFactor; omega

def generatePrimeTable : List ℕ :=
  (List.range' 2 (nPrimeTableLimit - 2)).filter fun n => !sieve nPrimeTableLimit (fun _ => false) 2 n

end Code

variable {nPrimeTableLimit nFactor : ℕ} {vfComposite : ℕ → Bool}

theorem crossOut_eq_true_iff (hpos : 0 < nFactor) (nComposite n : ℕ) :
    crossOut nPrimeTableLimit nFactor vfComposite nComposite n = true ↔
      vfComposite n = true ∨ n < nPrimeTableLimit ∧ ∃ k, n = nComposite + k * nFactor := by
  fun_induction crossOut nPrimeTableLimit nFactor vfComposite nComposite with
  | case1 vfComposite nComposite hlt ih =>
    rw [ih, Function.update_apply]
    split_ifs with hn
    · exact iff_of_true (.inl rfl) (.inr ⟨hn ▸ hlt.1, 0, by omega⟩)
    · refine or_congr_right (and_congr_right fun _ => ⟨?_, ?_⟩)
      · rintro ⟨k, rfl⟩
        exact ⟨k + 1, by rw [add_one_mul]; omega⟩
      · rintro ⟨_ | k, rfl⟩
        · exact absurd (by omega) hn
        · exact ⟨k, by rw [add_one_mul]; omega⟩
  | case2 vfComposite nComposite hge =>
    refine (or_iff_left ?_).symm
    rintro ⟨hlt, k, rfl⟩
    exact hge ⟨by omega, hpos⟩

def CrossedOut (nFactor n : ℕ) : Prop :=
  ∃ p < nFactor, p.Prime ∧ p * p ≤ n ∧ p ∣ n

theorem crossedOut_iff {n : ℕ} (hn : 2 ≤ n) (hlt : n < nFactor * nFactor) :
    CrossedOut nFactor n ↔ ¬ n.Prime := by
  constructor
  · rintro ⟨p, -, hp, hle, hdvd⟩ hprime
    obtain rfl := (Nat.prime_dvd_prime_iff_eq hp hprime).mp hdvd
    exact (Nat.lt_mul_self_iff.mpr hn).not_ge hle
  · intro hprime
    have hle : n.minFac * n.minFac ≤ n := by
      simpa [sq] using Nat.minFac_sq_le_self (by omega) hprime
    exact ⟨n.minFac, Nat.mul_self_lt_mul_self_iff.mp (hle.trans_lt hlt),
      Nat.minFac_prime (by omega), hle, n.minFac_dvd⟩

theorem crossedOut_succ {n : ℕ} : CrossedOut (nFactor + 1) n ↔
    CrossedOut nFactor n ∨ nFactor.Prime ∧ nFactor * nFactor ≤ n ∧ nFactor ∣ n := by
  constructor
  · rintro ⟨p, hlt, hp⟩
    obtain hlt | rfl := Nat.lt_succ_iff_lt_or_eq.mp hlt
    · exact .inl ⟨p, hlt, hp⟩
    · exact .inr hp
  · rintro (⟨p, hlt, hp⟩ | hp)
    · exact ⟨p, hlt.trans (Nat.lt_succ_self _), hp⟩
    · exact ⟨nFactor, Nat.lt_succ_self _, hp⟩

theorem sieve_eq_true_iff (hfactor : 2 ≤ nFactor)
    (h : ∀ n < nPrimeTableLimit, vfComposite n = true ↔ CrossedOut nFactor n) {n : ℕ}
    (hn : 2 ≤ n) (hlt : n < nPrimeTableLimit) :
    sieve nPrimeTableLimit vfComposite nFactor n = true ↔ ¬ n.Prime := by
  fun_induction sieve nPrimeTableLimit vfComposite nFactor with
  | case1 vfComposite nFactor hsq ih =>
    refine ih (by omega) fun m hm => ?_
    have hself : nFactor < nFactor * nFactor := Nat.lt_mul_self_iff.mpr hfactor
    have hprime := (h nFactor (hself.trans hsq)).trans (crossedOut_iff hfactor hself)
    by_cases hcomposite : vfComposite nFactor = true
    · rw [dif_pos hcomposite, h m hm, crossedOut_succ, or_iff_left]
      exact fun hp => hprime.mp hcomposite hp.1
    · have hp : nFactor.Prime := not_not.mp (mt hprime.mpr hcomposite)
      rw [dif_neg hcomposite, crossOut_eq_true_iff hp.pos, h m hm, crossedOut_succ]
      refine or_congr_right ⟨?_, ?_⟩
      · rintro ⟨-, k, rfl⟩
        exact ⟨hp, Nat.le_add_right _ _, nFactor + k, by rw [mul_add, mul_comm k]⟩
      · rintro ⟨-, hle, q, rfl⟩
        obtain ⟨k, rfl⟩ := Nat.exists_eq_add_of_le (Nat.le_of_mul_le_mul_left hle hp.pos)
        exact ⟨hm, k, by rw [mul_add, mul_comm k]⟩
  | case2 vfComposite nFactor hsq => exact (h n hlt).trans (crossedOut_iff hn (by omega))

theorem generatePrimeTable_spec (nPrimeTableLimit : ℕ) :
    (generatePrimeTable nPrimeTableLimit).Pairwise (· < ·) ∧
      ∀ p, p ∈ generatePrimeTable nPrimeTableLimit ↔ p.Prime ∧ p < nPrimeTableLimit := by
  have hnone : ∀ n < nPrimeTableLimit, (fun _ => false) n = true ↔ CrossedOut 2 n := by
    rintro n -
    refine iff_of_false nofun ?_
    rintro ⟨p, hlt, hp, -⟩
    exact hp.two_le.not_gt hlt
  refine ⟨(List.pairwise_lt_range' 1).filter _, fun p => ?_⟩
  rw [generatePrimeTable, List.mem_filter, List.mem_range'_1, Bool.not_eq_true', ← Bool.not_eq_true]
  constructor
  · rintro ⟨hrange, hp⟩
    have hlt : p < nPrimeTableLimit := by omega
    exact ⟨not_not.mp (mt (sieve_eq_true_iff le_rfl hnone hrange.1 hlt).mpr hp), hlt⟩
  · rintro ⟨hp, hlt⟩
    have htwo := hp.two_le
    exact ⟨by omega, fun hsieve => (sieve_eq_true_iff le_rfl hnone htwo hlt).mp hsieve hp⟩

end Primecoin
