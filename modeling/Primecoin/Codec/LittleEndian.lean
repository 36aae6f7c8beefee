import Primecoin.Codec.Reader

/-!
# Little-endian integers

`leBytes w n` writes the `w` low bytes of `n`, and `readLE w` reads them back. Within its range a
number is determined by its bytes.
-/

namespace Codec

/-- The `w` low bytes of `n`, least significant first. -/
def leBytes : ℕ → ℕ → List UInt8
  | 0, _ => []
  | w + 1, n => UInt8.ofNat n :: leBytes w (n / 256)

def leNat : List UInt8 → ℕ
  | [] => 0
  | b :: bs => b.toNat + 256 * leNat bs

def readLE (w : ℕ) : Reader UInt8 ℕ := do
  let bs ← take w
  pure (leNat bs)

@[simp] theorem length_leBytes (w n : ℕ) : (leBytes w n).length = w := by
  induction w generalizing n with
  | zero => rfl
  | succ w ih => simp [leBytes, ih]

theorem leNat_leBytes (w n : ℕ) : leNat (leBytes w n) = n % 256 ^ w := by
  induction w generalizing n with
  | zero => simp [leBytes, leNat, Nat.mod_one]
  | succ w ih =>
    have hsplit : n % 256 ^ (w + 1) = n % 256 + 256 * (n / 256 % 256 ^ w) := by
      rw [pow_succ, mul_comm, Nat.mod_mul]
    rw [leBytes, leNat, ih, hsplit, UInt8.toNat_ofNat']

theorem leNat_lt (bs : List UInt8) : leNat bs < 256 ^ bs.length := by
  induction bs with
  | nil => exact Nat.one_pos
  | cons b bs ih =>
    have hb : b.toNat < 256 := b.toNat_lt
    rw [leNat, List.length_cons, pow_succ]
    omega

theorem leBytes_inj {w m n : ℕ} (hm : m < 256 ^ w) (hn : n < 256 ^ w)
    (h : leBytes w m = leBytes w n) : m = n := by
  have hnat := congrArg leNat h
  rwa [leNat_leBytes, leNat_leBytes, Nat.mod_eq_of_lt hm, Nat.mod_eq_of_lt hn] at hnat

theorem ReadsBack.leBytes {w n : ℕ} (hn : n < 256 ^ w) : ReadsBack (readLE w) (leBytes w n) n := by
  have htake : ReadsBack (Codec.take w) (Codec.leBytes w n) (Codec.leBytes w n) := by
    have h := ReadsBack.take (Codec.leBytes w n)
    rwa [length_leBytes] at h
  have hread := htake.map leNat
  rwa [leNat_leBytes, Nat.mod_eq_of_lt hn] at hread

end Codec
