import Primecoin.Coins.Compressor
import Primecoin.Control.Except

/-!
# Amounts without overflow

`CompressAmount` and `DecompressAmount` with every operation on `uint64` checked: a sum or product
of `2 ^ 64` or more and a difference below zero are faults. As long as the packed form of an
amount fits in 64 bits, nothing faults on the way to it and back.
-/

namespace Primecoin

namespace CTxOutCompressor

open Except

variable (a b : UInt64)

def addChecked : Except Failure UInt64 :=
  if a.toNat + b.toNat < 2 ^ 64 then .ok (a + b) else .error (.fault "sum")

def subChecked : Except Failure UInt64 :=
  if b ≤ a then .ok (a - b) else .error (.fault "difference")

def mulChecked : Except Failure UInt64 :=
  if a.toNat * b.toNat < 2 ^ 64 then .ok (a * b) else .error (.fault "product")

def compressAmountChecked (n : UInt64) : Except Failure UInt64 := do
  if n = 0 then return 0
  let (n, e) := stripZeros 9 n
  if e < 9 then
    let d := n % 10
    if ¬ (1 ≤ d ∧ d ≤ 9) then throw (.assertion "d >= 1 && d <= 9")
    let x ← mulChecked (n / 10) 9
    let x ← addChecked x d
    let x ← subChecked x 1
    let x ← mulChecked x 10
    let x ← addChecked 1 x
    addChecked x (UInt64.ofNat e)
  else
    let x ← subChecked n 1
    let x ← mulChecked x 10
    let x ← addChecked 1 x
    addChecked x 9

def mulTenChecked : ℕ → UInt64 → Except Failure UInt64
  | 0, n => .ok n
  | e + 1, n => do
      let n ← mulChecked n 10
      mulTenChecked e n

def decompressAmountChecked (x : UInt64) : Except Failure UInt64 := do
  if x = 0 then return 0
  let x ← subChecked x 1
  let e := x % 10
  let x := x / 10
  if e < 9 then
    let d := x % 9 + 1
    let n ← mulChecked (x / 9) 10
    let n ← addChecked n d
    mulTenChecked e.toNat n
  else
    let n ← addChecked x 1
    mulTenChecked e.toNat n

section Checked

variable {a b : UInt64} {m n : ℕ}

theorem addChecked_spec (ha : a.toNat = m) (hb : b.toNat = n) (h : m + n < 2 ^ 64) :
    addChecked a b = .ok (a + b) ∧ (a + b).toNat = m + n := by
  subst ha hb
  exact ⟨if_pos h, by rw [UInt64.toNat_add, Nat.mod_eq_of_lt h]⟩

theorem subChecked_spec (ha : a.toNat = m) (hb : b.toNat = n) (h : n ≤ m) :
    subChecked a b = .ok (a - b) ∧ (a - b).toNat = m - n := by
  subst ha hb
  have hle : b ≤ a := UInt64.le_iff_toNat_le.mpr h
  exact ⟨if_pos hle, UInt64.toNat_sub_of_le _ _ hle⟩

theorem mulChecked_spec (ha : a.toNat = m) (hb : b.toNat = n) (h : m * n < 2 ^ 64) :
    mulChecked a b = .ok (a * b) ∧ (a * b).toNat = m * n := by
  subst ha hb
  exact ⟨if_pos h, by rw [UInt64.toNat_mul, Nat.mod_eq_of_lt h]⟩

theorem mulTenChecked_eq {e : ℕ} (ha : a.toNat = m) (h : m * 10 ^ e < 2 ^ 64) :
    mulTenChecked e a = .ok ((· * 10)^[e] a) := by
  induction e generalizing a m with
  | zero => rfl
  | succ e ih =>
    have hten : m * 10 < 2 ^ 64 :=
      lt_of_le_of_lt (Nat.mul_le_mul_left _ (Nat.le_self_pow e.succ_ne_zero 10)) h
    have hfactor : (10 : UInt64).toNat = 10 := rfl
    obtain ⟨hmul, hvalue⟩ := mulChecked_spec ha hfactor hten
    rw [mulTenChecked, hmul, ok_bind, ih hvalue, Function.iterate_succ_apply]
    rwa [mul_assoc, ← pow_succ']

end Checked

theorem compressAmountChecked_eq {n : UInt64} (h : packedAmount n < 2 ^ 64) :
    compressAmountChecked n = .ok (compressAmount n) := by
  unfold packedAmount at h
  unfold compressAmountChecked compressAmount
  split_ifs at h ⊢ with hn
  · rfl
  · rcases hstrip : stripZeros 9 n with ⟨m, e⟩
    obtain ⟨hpos, -, -, hdigit⟩ := stripZeros_pos hn hstrip
    rw [hstrip] at h
    simp only at h ⊢
    have hmod : (m % 10).toNat = m.toNat % 10 := UInt64.toNat_mod m 10
    have hdiv : (m / 10).toNat = m.toNat / 10 := UInt64.toNat_div m 10
    have hone : (1 : UInt64).toNat = 1 := rfl
    have hnine : (9 : UInt64).toNat = 9 := rfl
    have hten : (10 : UInt64).toNat = 10 := rfl
    split_ifs at h ⊢ with he hassert
    · have hd := hdigit he
      have hexp : (UInt64.ofNat e).toNat = e :=
        UInt64.toNat_ofNat_of_lt' (he.trans (by decide))
      obtain ⟨h1, hx1⟩ := mulChecked_spec hdiv hnine (by omega)
      obtain ⟨h2, hx2⟩ := addChecked_spec hx1 hmod (by omega)
      obtain ⟨h3, hx3⟩ := subChecked_spec hx2 hone (by omega)
      obtain ⟨h4, hx4⟩ := mulChecked_spec hx3 hten (by omega)
      obtain ⟨h5, hx5⟩ := addChecked_spec hone hx4 (by omega)
      obtain ⟨h6, -⟩ := addChecked_spec hx5 hexp (by omega)
      rw [h1, ok_bind, h2, ok_bind, h3, ok_bind, h4, ok_bind, h5, ok_bind, h6]
    · exfalso
      apply hassert
      rw [UInt64.le_iff_toNat_le, UInt64.le_iff_toNat_le, hmod]
      exact hdigit he
    · obtain ⟨h1, hx1⟩ := subChecked_spec rfl hone hpos
      obtain ⟨h2, hx2⟩ := mulChecked_spec hx1 hten (by omega)
      obtain ⟨h3, hx3⟩ := addChecked_spec hone hx2 (by omega)
      obtain ⟨h4, -⟩ := addChecked_spec hx3 hnine (by omega)
      rw [h1, ok_bind, h2, ok_bind, h3, ok_bind, h4]

/-- What `DecompressAmount` computes, before the reduction to 64 bits. -/
def unpackedAmount (x : UInt64) : ℕ :=
  if x = 0 then 0
  else
    let e := (x.toNat - 1) % 10
    let r := (x.toNat - 1) / 10
    (if e < 9 then r / 9 * 10 + (r % 9 + 1) else r + 1) * 10 ^ e

theorem decompressAmountChecked_eq {x : UInt64} (h : unpackedAmount x < 2 ^ 64) :
    decompressAmountChecked x = .ok (decompressAmount x) := by
  unfold unpackedAmount at h
  unfold decompressAmountChecked decompressAmount
  split_ifs at h ⊢ with hx
  · rfl
  · have hpos : 1 ≤ x.toNat := Nat.pos_of_ne_zero fun hzero => hx (UInt64.toNat_inj.mp hzero)
    have hone : (1 : UInt64).toNat = 1 := rfl
    have hnine : (9 : UInt64).toNat = 9 := rfl
    have hten : (10 : UInt64).toNat = 10 := rfl
    obtain ⟨h1, hx1⟩ := subChecked_spec rfl hone hpos
    have hexp : ((x - 1) % 10).toNat = (x.toNat - 1) % 10 := by
      rw [UInt64.toNat_mod, hx1, hten]
    have hrest : ((x - 1) / 10).toNat = (x.toNat - 1) / 10 := by
      rw [UInt64.toNat_div, hx1, hten]
    have hlow : (x - 1) % 10 < 9 ↔ (x.toNat - 1) % 10 < 9 := by
      rw [UInt64.lt_iff_toNat_lt, hexp, hnine]
    rw [h1, ok_bind]
    simp only [hexp, hlow] at h ⊢
    split_ifs at h ⊢ with he
    · have hquot : ((x - 1) / 10 / 9).toNat = (x.toNat - 1) / 10 / 9 := by
        rw [UInt64.toNat_div, hrest, hnine]
      have hdigit : ((x - 1) / 10 % 9).toNat = (x.toNat - 1) / 10 % 9 := by
        rw [UInt64.toNat_mod, hrest, hnine]
      have hd : ((x - 1) / 10 % 9 + 1).toNat = (x.toNat - 1) / 10 % 9 + 1 := by
        rw [UInt64.toNat_add, hdigit, hone]
        omega
      have hlt := lt_of_le_of_lt (Nat.le_mul_of_pos_right _ (by positivity)) h
      obtain ⟨h2, hx2⟩ := mulChecked_spec hquot hten (by omega)
      obtain ⟨h3, hx3⟩ := addChecked_spec hx2 hd hlt
      rw [h2, ok_bind, h3, ok_bind, mulTenChecked_eq hx3 h]
    · have hlt := lt_of_le_of_lt (Nat.le_mul_of_pos_right _ (by positivity)) h
      obtain ⟨h2, hx2⟩ := addChecked_spec hrest hone hlt
      rw [h2, ok_bind, mulTenChecked_eq hx2 h]

theorem unpackedAmount_of_toNat {x : UInt64} {r e : ℕ} (he : e ≤ 9)
    (hx : x.toNat = 1 + r * 10 + e) :
    unpackedAmount x = (if e < 9 then r / 9 * 10 + (r % 9 + 1) else r + 1) * 10 ^ e := by
  obtain ⟨hne, -⟩ := toNat_unpack he hx
  have hexp : (x.toNat - 1) % 10 = e := by omega
  have hrest : (x.toNat - 1) / 10 = r := by omega
  rw [unpackedAmount, if_neg hne, hexp, hrest]

theorem unpackedAmount_compressAmount {n : UInt64} (h : packedAmount n < 2 ^ 64) :
    unpackedAmount (compressAmount n) = n.toNat := by
  have hpacked := toNat_compressAmount h
  by_cases hn : n = 0
  · subst hn
    rfl
  · rcases hstrip : stripZeros 9 n with ⟨m, e⟩
    obtain ⟨hpos, hvalue, hle, hdigit⟩ := stripZeros_pos hn hstrip
    rw [packedAmount, if_neg hn, hstrip] at hpacked
    simp only at hpacked
    by_cases he : e < 9
    · have hd := hdigit he
      rw [if_pos he] at hpacked
      rw [unpackedAmount_of_toNat hle hpacked, if_pos he, hvalue]
      congr 1
      omega
    · obtain rfl : e = 9 := by omega
      rw [if_neg he] at hpacked
      rw [unpackedAmount_of_toNat le_rfl hpacked, if_neg he, hvalue]
      congr 1
      omega

theorem packedAmount_le (n : UInt64) : packedAmount n ≤ 9 * n.toNat + 10 := by
  unfold packedAmount
  split_ifs with hn
  · exact Nat.zero_le _
  · rcases hstrip : stripZeros 9 n with ⟨m, e⟩
    obtain ⟨hpos, hvalue, hle, hdigit⟩ := stripZeros_pos hn hstrip
    have hpow : 1 ≤ 10 ^ e := Nat.one_le_pow _ _ (by norm_num)
    have hm : m.toNat ≤ n.toNat := by
      rw [hvalue]
      exact Nat.le_mul_of_pos_right _ hpow
    simp only
    split_ifs with he
    · have hd := hdigit he
      omega
    · obtain rfl : e = 9 := by omega
      omega

/-- Amounts up to `2 ^ 60` come back, nothing overflows in either direction, no assertion fails,
and the packed form is at most about nine times the amount. -/
theorem amount_roundTrip {n : UInt64} (h : n.toNat ≤ 2 ^ 60) :
    decompressAmount (compressAmount n) = n ∧ compressAmountChecked n = .ok (compressAmount n) ∧
      decompressAmountChecked (compressAmount n) = .ok n ∧
      (compressAmount n).toNat ≤ 9 * n.toNat + 10 := by
  have hfits : packedAmount n < 2 ^ 64 := by
    refine packedAmount_lt (.inr ?_)
    simp only [packedLimit]
    omega
  have hback := decompressAmount_compressAmount hfits
  refine ⟨hback, compressAmountChecked_eq hfits, ?_, ?_⟩
  · rw [decompressAmountChecked_eq, hback]
    rw [unpackedAmount_compressAmount hfits]
    exact n.toNat_lt
  · rw [toNat_compressAmount hfits]
    exact packedAmount_le n

theorem amount_roundTrip_maxMoney :
    decompressAmount (compressAmount maxMoney.toUInt64) = maxMoney.toUInt64 :=
  (amount_roundTrip (by decide)).1

end CTxOutCompressor

end Primecoin
