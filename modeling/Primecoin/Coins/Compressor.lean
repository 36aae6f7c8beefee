import Primecoin.Script.Compressor
import Primecoin.Transaction.Basic

/-!
# Compact outputs

`CTxOutCompressor` writes an output as a compressed amount and a compressed script. An amount is
divided by the largest power of ten up to `10 ^ 9`; below that the last digit of the quotient is
not zero, so it is stored in base nine. The numbers are `uint64` and wrap; an amount comes back
when its packed form, `packedAmount`, does not. That holds below `packedLimit`, which is far above
the money range, and for all multiples of ten.
-/

namespace Primecoin

open Codec

namespace CTxOutCompressor

variable {n x : UInt64} {e : ℕ}

/-- The loop of `CompressAmount`: divides by ten at most the given number of times, and returns
the exponent with the quotient. -/
def stripZeros : ℕ → UInt64 → UInt64 × ℕ
  | 0, n => (n, 0)
  | k + 1, n =>
    if n % 10 = 0 then ((stripZeros k (n / 10)).1, (stripZeros k (n / 10)).2 + 1) else (n, 0)

/-- The assertion on the last digit holds for every amount
(`digit_stripZeros`). -/
def compressAmount (n : UInt64) : UInt64 :=
  if n = 0 then 0
  else
    let (n, e) := stripZeros 9 n
    if e < 9 then
      let d := n % 10
      1 + (n / 10 * 9 + d - 1) * 10 + UInt64.ofNat e
    else 1 + (n - 1) * 10 + 9

def decompressAmount (x : UInt64) : UInt64 :=
  if x = 0 then 0
  else
    let x := x - 1
    let e := x % 10
    let x := x / 10
    let n := if e < 9 then x / 9 * 10 + (x % 9 + 1) else x + 1
    (· * 10)^[e.toNat] n

variable (keys : ECKeys) (txout : CTxOut)

def serialize : Bytes :=
  writeVarInt .uint64 (compressAmount txout.nValue.toUInt64).toNat ++
    CScriptCompressor.serialize keys txout.scriptPubKey

def unserialize : Reader UInt8 CTxOut := do
  let nVal ← readVarNat .uint64
  let scriptPubKey ← CScriptCompressor.unserialize keys
  pure ⟨(decompressAmount (UInt64.ofNat nVal)).toInt64, scriptPubKey⟩

def getSerializeSize : UInt32 :=
  UInt32.ofNat (getSizeOfVarInt (compressAmount txout.nValue.toUInt64).toNat) +
    CScriptCompressor.getSerializeSize keys txout.scriptPubKey

/-! ## Amounts -/

theorem stripZeros_eq (k : ℕ) (n : UInt64) :
    n.toNat = (stripZeros k n).1.toNat * 10 ^ (stripZeros k n).2 ∧ (stripZeros k n).2 ≤ k := by
  induction k generalizing n with
  | zero => simp [stripZeros]
  | succ k ih =>
    rw [stripZeros]
    split_ifs with hzero
    · obtain ⟨hvalue, hle⟩ := ih (n / 10)
      have hmod : n.toNat % 10 = 0 := congrArg UInt64.toNat hzero
      have hdiv : (n / 10).toNat = n.toNat / 10 := UInt64.toNat_div n 10
      refine ⟨?_, by simpa using hle⟩
      rw [pow_succ, ← mul_assoc, ← hvalue, hdiv]
      omega
    · simp

theorem digit_stripZeros (k : ℕ) (n : UInt64) (h : (stripZeros k n).2 < k) :
    1 ≤ (stripZeros k n).1.toNat % 10 ∧ (stripZeros k n).1.toNat % 10 ≤ 9 := by
  induction k generalizing n with
  | zero => exact absurd h (Nat.not_lt_zero _)
  | succ k ih =>
    rw [stripZeros] at h ⊢
    split_ifs at h ⊢ with hzero
    · exact ih (n / 10) (by simpa using h)
    · have hmod : n.toNat % 10 ≠ 0 := fun hmod => hzero (UInt64.toNat_inj.mp hmod)
      simp only
      omega

theorem toNat_iterate_mul_ten (k : ℕ) (n : UInt64) (h : n.toNat * 10 ^ k < 2 ^ 64) :
    ((· * 10)^[k] n).toNat = n.toNat * 10 ^ k := by
  induction k generalizing n with
  | zero => simp
  | succ k ih =>
    have hmul : (n * 10).toNat = n.toNat * 10 := by
      rw [UInt64.toNat_mul]
      refine Nat.mod_eq_of_lt (lt_of_le_of_lt ?_ h)
      exact Nat.mul_le_mul_left _ (Nat.le_self_pow k.succ_ne_zero 10)
    rw [pow_succ, mul_comm (10 ^ k), ← mul_assoc, ← hmul] at h ⊢
    rw [Function.iterate_succ_apply]
    exact ih (n * 10) h

/-- What `CompressAmount` computes, before the reduction to 64 bits. -/
def packedAmount (n : UInt64) : ℕ :=
  if n = 0 then 0
  else
    let (m, e) := stripZeros 9 n
    if e < 9 then 1 + (m.toNat / 10 * 9 + m.toNat % 10 - 1) * 10 + e
    else 1 + (m.toNat - 1) * 10 + 9

/-- The least amount whose packed form needs more than 64 bits. -/
def packedLimit : ℕ := 2049638230412172403

theorem stripZeros_pos {m : UInt64} (hn : n ≠ 0) (hstrip : stripZeros 9 n = (m, e)) :
    0 < m.toNat ∧ n.toNat = m.toNat * 10 ^ e ∧ e ≤ 9 ∧
      (e < 9 → 1 ≤ m.toNat % 10 ∧ m.toNat % 10 ≤ 9) := by
  obtain ⟨hvalue, hle⟩ := stripZeros_eq 9 n
  have hdigit := digit_stripZeros 9 n
  rw [hstrip] at hvalue hle hdigit
  simp only at hvalue hle hdigit
  have hpos : 0 < n.toNat := Nat.pos_of_ne_zero fun hzero => hn (UInt64.toNat_inj.mp hzero)
  exact ⟨Nat.pos_of_mul_pos_right (hvalue ▸ hpos), hvalue, hle, hdigit⟩

theorem toNat_compressAmount (h : packedAmount n < 2 ^ 64) :
    (compressAmount n).toNat = packedAmount n := by
  unfold packedAmount at h ⊢
  unfold compressAmount
  split_ifs at h ⊢ with hn
  · rfl
  · rcases hstrip : stripZeros 9 n with ⟨m, e⟩
    obtain ⟨hpos, -, -, hdigit⟩ := stripZeros_pos hn hstrip
    rw [hstrip] at h
    simp only at h ⊢
    split_ifs at h ⊢ with he
    · have hd := hdigit he
      simp only [UInt64.toNat_add, UInt64.toNat_sub, UInt64.toNat_mul, UInt64.toNat_div,
        UInt64.toNat_mod, UInt64.toNat_ofNat', UInt64.reduceToNat]
      omega
    · simp only [UInt64.toNat_add, UInt64.toNat_sub, UInt64.toNat_mul, UInt64.reduceToNat]
      omega

theorem packedAmount_lt (h : n.toNat % 10 = 0 ∨ n.toNat < packedLimit) :
    packedAmount n < 2 ^ 64 := by
  unfold packedAmount
  split_ifs with hn
  · norm_num
  · rcases hstrip : stripZeros 9 n with ⟨m, e⟩
    obtain ⟨hpos, hvalue, hle, hdigit⟩ := stripZeros_pos hn hstrip
    have hlt := n.toNat_lt
    simp only
    cases e with
    | zero =>
      rw [pow_zero, mul_one] at hvalue
      rw [if_pos (by norm_num)]
      simp only [packedLimit] at h
      omega
    | succ e =>
      have hten : m.toNat * 10 ≤ n.toNat := by
        rw [hvalue]
        exact Nat.mul_le_mul_left _ (Nat.le_self_pow e.succ_ne_zero 10)
      split_ifs <;> omega

theorem toNat_unpack {r : ℕ} (he : e ≤ 9) (hx : x.toNat = 1 + r * 10 + e) :
    x ≠ 0 ∧ ((x - 1) % 10).toNat = e ∧ ((x - 1) / 10).toNat = r := by
  have hpred : (x - 1).toNat = r * 10 + e := by
    have hlt := x.toNat_lt
    simp only [UInt64.toNat_sub, UInt64.reduceToNat, hx]
    omega
  refine ⟨?_, ?_, ?_⟩
  · rintro rfl
    rw [UInt64.toNat_zero] at hx
    omega
  · simp only [UInt64.toNat_mod, UInt64.reduceToNat, hpred]
    omega
  · simp only [UInt64.toNat_div, UInt64.reduceToNat, hpred]
    omega

theorem toNat_decompressAmount_of_lt {q d : ℕ} (hd : 1 ≤ d ∧ d ≤ 9) (he : e < 9)
    (hx : x.toNat = 1 + (q * 9 + d - 1) * 10 + e) (hfits : (q * 10 + d) * 10 ^ e < 2 ^ 64) :
    (decompressAmount x).toNat = (q * 10 + d) * 10 ^ e := by
  obtain ⟨hne, hexp, hrest⟩ := toNat_unpack he.le hx
  have hlow : (x - 1) % 10 < 9 := by
    rw [UInt64.lt_iff_toNat_lt, hexp]
    exact he
  have hquot : ((x - 1) / 10 / 9 * 10 + ((x - 1) / 10 % 9 + 1)).toNat = q * 10 + d := by
    have hq : q * 10 + d < 2 ^ 64 := lt_of_le_of_lt (Nat.le_mul_of_pos_right _ (by positivity)) hfits
    simp only [UInt64.toNat_add, UInt64.toNat_mul, UInt64.toNat_div _ 9, UInt64.toNat_mod _ 9, hrest,
      UInt64.reduceToNat]
    omega
  simp only [decompressAmount, if_neg hne, if_pos hlow, hexp]
  rw [toNat_iterate_mul_ten, hquot]
  rwa [hquot]

theorem toNat_decompressAmount_of_nine {m : ℕ} (hm : 0 < m)
    (hx : x.toNat = 1 + (m - 1) * 10 + 9) (hfits : m * 10 ^ 9 < 2 ^ 64) :
    (decompressAmount x).toNat = m * 10 ^ 9 := by
  obtain ⟨hne, hexp, hrest⟩ := toNat_unpack le_rfl hx
  have hhigh : ¬ (x - 1) % 10 < 9 := by
    rw [UInt64.lt_iff_toNat_lt, hexp]
    exact lt_irrefl 9
  have hquot : ((x - 1) / 10 + 1).toNat = m := by
    rw [UInt64.toNat_add, UInt64.toNat_one, hrest]
    omega
  simp only [decompressAmount, if_neg hne, if_neg hhigh, hexp]
  rw [toNat_iterate_mul_ten, hquot]
  rwa [hquot]

theorem decompressAmount_compressAmount (h : packedAmount n < 2 ^ 64) :
    decompressAmount (compressAmount n) = n := by
  by_cases hn : n = 0
  · subst hn
    rfl
  · have hpacked := toNat_compressAmount h
    rcases hstrip : stripZeros 9 n with ⟨m, e⟩
    obtain ⟨hpos, hvalue, hle, hdigit⟩ := stripZeros_pos hn hstrip
    have hlt := n.toNat_lt
    have hsplit : m.toNat / 10 * 10 + m.toNat % 10 = m.toNat := by omega
    rw [packedAmount, if_neg hn, hstrip] at hpacked
    simp only at hpacked
    apply UInt64.toNat_inj.mp
    rw [hvalue] at hlt ⊢
    by_cases he : e < 9
    · rw [if_pos he] at hpacked
      rw [toNat_decompressAmount_of_lt (hdigit he) he hpacked, hsplit]
      rwa [hsplit]
    · obtain rfl : e = 9 := by omega
      rw [if_neg he] at hpacked
      exact toNat_decompressAmount_of_nine hpos hpacked hlt

/-! ## Outputs -/

structure Storable (txout : CTxOut) : Prop where
  nValue : moneyRange txout.nValue = true
  scriptPubKey : txout.scriptPubKey.length ≤ maxSize

/-- An output that comes back from the compact format. The amount is read as a `uint64`. -/
structure Packable (txout : CTxOut) : Prop where
  nValue : txout.nValue.toUInt64.toNat % 10 = 0 ∨ txout.nValue.toUInt64.toNat < packedLimit
  scriptPubKey : txout.scriptPubKey.length + CScriptCompressor.nSpecialScripts < 2 ^ 32

theorem Storable.packable {txout : CTxOut} (h : Storable txout) : Packable txout where
  nValue := by
    obtain ⟨h0, hmax⟩ := (moneyRange_iff _).mp h.nValue
    right
    rw [Int64.toNat_toUInt64_of_le (Int64.le_iff_toInt_le.mpr h0), Int64.toNatClampNeg, packedLimit]
    omega
  scriptPubKey := by
    have := h.scriptPubKey
    simp only [maxSize, CScriptCompressor.nSpecialScripts] at this ⊢
    omega

theorem readsBack_serialize {txout : CTxOut} (h : Packable txout) :
    ReadsBack (unserialize keys) (serialize keys txout) txout := by
  refine (readsBack_readVarNat .uint64 ?_).bind ?_
  · have hlt := (compressAmount txout.nValue.toUInt64).toNat_lt
    simp only [IntType.max]
    omega
  · rw [UInt64.ofNat_toNat, decompressAmount_compressAmount (packedAmount_lt h.nValue)]
    exact (CScriptCompressor.readsBack_serialize keys h.scriptPubKey).map (CTxOut.mk _)

/-- The size is the number of bytes written, as an `unsigned int`. -/
theorem getSerializeSize_eq :
    getSerializeSize keys txout = UInt32.ofNat (serialize keys txout).length := by
  have hlt := (compressAmount txout.nValue.toUInt64).toNat_lt
  rw [serialize, List.length_append, UInt32.ofNat_add, getSerializeSize,
    CScriptCompressor.getSerializeSize_eq,
    length_writeVarInt .uint64 (by simp only [IntType.max]; omega)]

end CTxOutCompressor

end Primecoin
