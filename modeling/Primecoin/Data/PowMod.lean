import Mathlib.Tactic

/-!
# Modular exponentiation

Repeated squaring, reduced after every product, so that it can be evaluated on large exponents.
`powMod_eq` identifies it with the remainder of the power.
-/

def powModBits (m : ℕ) : ℕ → ℕ → ℕ → ℕ
  | 0, _, _ => 1 % m
  | k + 1, a, e =>
    if e % 2 = 1 then a * powModBits m k (a * a % m) (e / 2) % m
    else powModBits m k (a * a % m) (e / 2)

def powMod (m a e : ℕ) : ℕ := powModBits m (e.log2 + 1) a e

theorem powModBits_eq (m k a e : ℕ) (he : e < 2 ^ k) : powModBits m k a e = a ^ e % m := by
  induction k generalizing a e with
  | zero =>
    obtain rfl : e = 0 := by simpa using he
    rfl
  | succ k ih =>
    have hhalf : e / 2 < 2 ^ k := by
      rw [pow_succ] at he
      omega
    have hsquare : (a * a % m) ^ (e / 2) % m = a ^ (2 * (e / 2)) % m := by
      rw [← Nat.pow_mod, ← pow_two, ← pow_mul]
    rw [powModBits, ih _ _ hhalf, hsquare]
    split_ifs with hodd
    · have hsplit : e = 2 * (e / 2) + 1 := by omega
      conv_rhs => rw [hsplit, pow_succ]
      rw [Nat.mul_mod_mod, mul_comm]
    · have hsplit : e = 2 * (e / 2) := by omega
      conv_rhs => rw [hsplit]

theorem powMod_eq (m a e : ℕ) : powMod m a e = a ^ e % m :=
  powModBits_eq m _ a e Nat.lt_log2_self
