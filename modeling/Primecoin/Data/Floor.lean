import Mathlib.Tactic

/-!
# Truncated quotients

Dividing by a quotient gives the divisor back as long as it is not above the square root, and
quotients are compared as the fractions are.
-/

namespace Floor

/-- A divisor with room for one more comes back from its quotient. -/
theorem div_div_self_of_mul_succ_le {n k : ℕ} (hk : 0 < k) (h : k * (k + 1) ≤ n) :
    n / (n / k) = k := by
  have hquot : k + 1 ≤ n / k := (Nat.le_div_iff_mul_le hk).mpr (by rwa [mul_comm])
  have hupper : n < (n / k + 1) * k := by
    rw [mul_comm]
    exact Nat.lt_mul_div_succ n hk
  refine Nat.div_eq_of_lt_le ?_ ?_
  · rw [mul_comm]
    exact Nat.div_mul_le_self n k
  · calc n < n / k * k + k := by rwa [Nat.add_mul, one_mul] at hupper
      _ ≤ n / k * k + n / k := by omega
      _ = (k + 1) * (n / k) := by ring

theorem div_le_div_of_mul_le_mul {a b c d : ℕ} (hb : 0 < b) (hd : 0 < d) (h : a * d ≤ c * b) :
    a / b ≤ c / d := by
  rw [Nat.le_div_iff_mul_le hd]
  refine Nat.le_of_mul_le_mul_right ?_ hb
  calc a / b * d * b = a / b * b * d := by ring
    _ ≤ a * d := Nat.mul_le_mul_right d (Nat.div_mul_le_self a b)
    _ ≤ c * b := h

end Floor
