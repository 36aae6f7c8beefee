import Primecoin.Serialize.Integer
import Primecoin.Codec.PrefixCode

/-!
# The variable-length integers as a numeration

In `VARINT` one is subtracted for every digit but the last, so that no number has two encodings:
the words whose only byte without the high bit is the last are exactly the encodings, each of the
number it denotes.
-/

namespace Primecoin

open Codec List

/-- The loop of `WriteVarInt` with the room that is left in `tmp`. -/
def fillTmp : ℕ → (len : ℕ) → ℤ → Except Failure Bytes
  | 0, _, _ => .error (.fault "write behind tmp")
  | room + 1, len, n =>
    if n ≤ 0x7F then .ok [varIntDigit len n]
    else (fillTmp room (len + 1) (n / 128 - 1)).map (varIntDigit len n :: ·)

/-- The number that digits with the continuation bit denote, with one added for each. -/
def continuedValue (bytes : Bytes) : ℕ :=
  bytes.foldl (fun n chData => n * 128 + chData.toNat % 128 + 1) 0

/-- The number that a word denotes: digits with the continuation bit, and a last one. -/
def varIntValue (continued : Bytes) (last : UInt8) : ℕ :=
  continuedValue continued * 128 + last.toNat % 128

theorem fillTmp_eq {k len : ℕ} {n : ℤ} (h : n < 128 ^ (k + 1)) :
    fillTmp (k + 1) len n = .ok (writeVarIntTmp (k + 1) len n) := by
  induction k generalizing len n with
  | zero =>
    have hsmall : n ≤ 0x7F := by
      rw [zero_add, pow_one] at h
      omega
    rw [fillTmp, if_pos hsmall, writeVarIntTmp_of_le 0 len hsmall]
  | succ k ih =>
    rw [fillTmp, writeVarIntTmp]
    split_ifs with hsmall
    · rfl
    · rw [ih (by rw [pow_succ] at h; omega)]
      rfl

theorem continuedValue_append (bytes : Bytes) (chData : UInt8) :
    continuedValue (bytes ++ [chData]) = continuedValue bytes * 128 + chData.toNat % 128 + 1 := by
  rw [continuedValue, foldl_append]
  rfl

theorem continuedValue_eq_zero_iff {bytes : Bytes} : continuedValue bytes = 0 ↔ bytes = [] := by
  rcases eq_nil_or_concat bytes with rfl | ⟨bytes, chData, rfl⟩
  · exact iff_of_true rfl rfl
  · rw [concat_eq_append, continuedValue_append]
    simp

theorem varIntDigit_succ_eq (len q : ℕ) {chData : UInt8} (h : 128 ≤ chData) :
    varIntDigit (len + 1) ((q * 128 + chData.toNat % 128 : ℕ) : ℤ) = chData := by
  have hlow : 128 ≤ chData.toNat := h
  have hlt := chData.toNat_lt
  apply UInt8.toNat_inj.mp
  rw [toNat_varIntDigit_succ]
  omega

theorem varIntDigit_zero_eq (q : ℕ) {chData : UInt8} (h : chData < 128) :
    varIntDigit 0 ((q * 128 + chData.toNat % 128 : ℕ) : ℤ) = chData := by
  have hhigh : chData.toNat < 128 := h
  apply UInt8.toNat_inj.mp
  rw [toNat_varIntDigit_zero]
  omega

theorem reverse_writeVarIntTmp_word {k len : ℕ} {continued : Bytes} {last : UInt8}
    (hcontinued : ∀ chData ∈ continued, 128 ≤ chData)
    (hlast : varIntDigit len (varIntValue continued last) = last)
    (hfits : varIntValue continued last < 128 ^ (k + 1)) :
    (writeVarIntTmp (k + 1) len (varIntValue continued last)).reverse = continued ++ [last] := by
  induction k generalizing len continued last with
  | zero =>
    have hzero : continuedValue continued = 0 := by
      rw [varIntValue, zero_add, pow_one] at hfits
      omega
    obtain rfl := continuedValue_eq_zero_iff.mp hzero
    rw [writeVarIntTmp_of_le 0 len (by omega), hlast]
    rfl
  | succ k ih =>
    rcases eq_nil_or_concat continued with rfl | ⟨continued, chData, rfl⟩
    · have hsmall : ((varIntValue [] last : ℕ) : ℤ) ≤ 0x7F := by
        rw [varIntValue, continuedValue_eq_zero_iff.mpr rfl]
        omega
      rw [writeVarIntTmp_of_le (k + 1) len hsmall, hlast]
      rfl
    · rw [concat_eq_append] at hcontinued hlast hfits ⊢
      have hmem : 128 ≤ chData := hcontinued chData (by simp)
      have hquot : ((varIntValue (continued ++ [chData]) last : ℕ) : ℤ) / 128 - 1 =
          (varIntValue continued chData : ℕ) := by
        rw [varIntValue, varIntValue, continuedValue_append]
        omega
      have hlarge : (0x7F : ℤ) < (varIntValue (continued ++ [chData]) last : ℕ) := by
        rw [varIntValue, continuedValue_append]
        omega
      have hnext : varIntValue continued chData < 128 ^ (k + 1) := by
        rw [pow_succ] at hfits
        omega
      rw [reverse_writeVarIntTmp_of_lt (k + 1) len hlarge, hlast, hquot,
        ih (fun b hb => hcontinued b (mem_append_left _ hb)) (varIntDigit_succ_eq len _ hmem) hnext]

/-- The number an encoding stands for is read back, its digits fit the buffer, no encoding is the
beginning of another, and every word is the encoding of the number it denotes. -/
theorem varInt_numeration (I : IntType) {n : ℤ} (h0 : 0 ≤ n) (hmax : n ≤ I.max) :
    ReadsBack (readVarInt I) (writeVarInt I n) n ∧ (writeVarInt I n).length = getSizeOfVarInt n ∧
      fillTmp I.digits 0 n = .ok (writeVarInt I n).reverse ∧
      (∀ m, 0 ≤ m → m ≤ I.max → m ≠ n → ¬ writeVarInt I m <+: writeVarInt I n) ∧
      ∀ continued last, (∀ chData ∈ continued, 128 ≤ chData) → last < 128 →
        (varIntValue continued last : ℤ) ≤ I.max →
        writeVarInt I (varIntValue continued last) = continued ++ [last] := by
  have hread : ∀ m, 0 ≤ m ∧ m ≤ I.max → ReadsBack (readVarInt I) (writeVarInt I m) m := by
    rintro m ⟨hm0, hm⟩
    have h := readsBack_writeVarInt I hm
    rwa [varIntImage_of_nonneg hm0] at h
  obtain ⟨k, hk⟩ := Nat.exists_eq_add_of_le' I.two_le_digits
  have hpow := I.max_lt_pow_digits
  rw [hk] at hpow
  refine ⟨hread n ⟨h0, hmax⟩, length_writeVarInt I hmax, ?_, ?_, ?_⟩
  · rw [writeVarInt, reverse_reverse, hk]
    exact fillTmp_eq (hmax.trans_lt hpow)
  · intro m hm0 hm hne hextends
    exact hne ((Unambiguous.of_readsBack hread).eq_of_extends ⟨hm0, hm⟩ ⟨h0, hmax⟩ hextends)
  · intro continued last hcontinued hlast hvalue
    have hfits : varIntValue continued last < 128 ^ (k + 1 + 1) := by
      exact_mod_cast hvalue.trans_lt hpow
    rw [writeVarInt, hk]
    exact reverse_writeVarIntTmp_word hcontinued (varIntDigit_zero_eq _ hlast) hfits

theorem varInt_numeration_two_bytes : ReadsBack (readVarInt .int32) (writeVarInt .int32 128) 128 ∧
      writeVarInt .int32 128 = [0x80, 0x00] := by
  have h := varInt_numeration .int32 (n := 128) (by decide) (by decide)
  refine ⟨h.1, ?_⟩
  exact h.2.2.2.2 [0x80] 0 (forall_mem_singleton.mpr (by decide)) (by decide) (by decide)

end Primecoin
