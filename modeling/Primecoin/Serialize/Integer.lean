import Primecoin.Basic
import Primecoin.Codec.LittleEndian

/-!
# Compact sizes and variable-length integers

A container writes its length as a compact size; the coin and undo records use `VARINT`, a
base-128 encoding with the most significant digit first in which one is subtracted from every
digit but the last.

`WriteVarInt` stops as soon as the value is at most `0x7F`, so a negative value is written as the
single byte `n & 0x7F` and reads back as `n % 128`.
-/

namespace Primecoin

variable {α : Type}

open Codec List

variable (nSize : ℕ)

def getSizeOfCompactSize : ℕ :=
  if nSize < 253 then 1
  else if nSize ≤ 0xffff then 1 + 2
  else if nSize ≤ 0xffffffff then 1 + 4
  else 1 + 8

def writeCompactSize : Bytes :=
  if nSize < 253 then [UInt8.ofNat nSize]
  else if nSize ≤ 0xffff then 253 :: leBytes 2 nSize
  else if nSize ≤ 0xffffffff then 254 :: leBytes 4 nSize
  else 255 :: leBytes 8 nSize

/-- `ReadCompactSize`; a size above `MAX_SIZE` is refused. -/
def readCompactSize : Reader UInt8 ℕ := do
  let chSize ← next
  let nSizeRet ← if chSize < 253 then pure chSize.toNat
    else if chSize = 253 then readLE 2
    else if chSize = 254 then readLE 4
    else readLE 8
  if nSizeRet > maxSize then failure else pure nSizeRet

theorem length_writeCompactSize : (writeCompactSize nSize).length = getSizeOfCompactSize nSize := by
  unfold writeCompactSize getSizeOfCompactSize
  split_ifs <;> simp

theorem one_le_getSizeOfCompactSize : 1 ≤ getSizeOfCompactSize nSize := by
  unfold getSizeOfCompactSize
  split_ifs <;> omega

/-- Reads a compact size without the limit of `ReadCompactSize`. -/
def readSize : Reader UInt8 ℕ := do
  let chSize ← next
  if chSize < 253 then pure chSize.toNat
  else if chSize = 253 then readLE 2
  else if chSize = 254 then readLE 4
  else readLE 8

theorem readsBack_readSize {nSize : ℕ} (h : nSize < 2 ^ 64) :
    ReadsBack readSize (writeCompactSize nSize) nSize := by
  unfold writeCompactSize
  split_ifs with h1 h2 h3
  · have hbyte : (UInt8.ofNat nSize).toNat = nSize := by
      rw [UInt8.toNat_ofNat']
      omega
    have hlt : UInt8.ofNat nSize < 253 := by
      rw [UInt8.lt_iff_toNat_lt, hbyte]
      exact h1
    refine (ReadsBack.next (UInt8.ofNat nSize)).bind (v := []) ?_
    rw [if_pos hlt, hbyte]
    exact ReadsBack.pure nSize
  · exact (ReadsBack.next (253 : UInt8)).bind
      (ReadsBack.leBytes (w := 2) (n := nSize) (by norm_num; omega))
  · exact (ReadsBack.next (254 : UInt8)).bind
      (ReadsBack.leBytes (w := 4) (n := nSize) (by norm_num; omega))
  · exact (ReadsBack.next (255 : UInt8)).bind
      (ReadsBack.leBytes (w := 8) (n := nSize) (by norm_num; omega))

theorem readCompactSize_eq :
    readCompactSize = readSize >>= fun n => if n > maxSize then failure else pure n := by
  rw [readCompactSize, readSize, bind_assoc]
  refine bind_congr fun chSize => ?_
  split_ifs <;> rfl

theorem readsBack_writeCompactSize {nSize : ℕ} (h : nSize ≤ maxSize) :
    ReadsBack readCompactSize (writeCompactSize nSize) nSize := by
  have hmax : maxSize = 33554432 := rfl
  have hread := (@readsBack_readSize nSize (by omega)).bind (v := []) (y := nSize)
    (f := fun n => if n > maxSize then failure else pure n)
    (by rw [if_neg (by omega)]; exact ReadsBack.pure nSize)
  rwa [append_nil, ← readCompactSize_eq] at hread

def writeVector {α : Type} (write : α → Bytes) (v : List α) : Bytes :=
  writeCompactSize v.length ++ v.flatMap write

def readVector {α : Type} (read : Reader UInt8 α) : Reader UInt8 (List α) := do
  let nSize ← readCompactSize
  replicate read nSize

variable {write : α → Bytes}

theorem readsBack_writeVector {read : Reader UInt8 α} (image : α → α)
    {v : List α} (hsize : v.length ≤ maxSize) (h : ∀ x ∈ v, ReadsBack read (write x) (image x)) :
    ReadsBack (readVector read) (writeVector write v) (v.map image) :=
  (readsBack_writeCompactSize hsize).bind (ReadsBack.replicate write image v h)

def getSerializeSizeVector {α : Type} (size : α → UInt32) (v : List α) : UInt32 :=
  v.foldl (fun nSize x => nSize + size x) (UInt32.ofNat (getSizeOfCompactSize v.length))

theorem foldl_add_size {size : α → UInt32}
    (h : ∀ x, size x = UInt32.ofNat (write x).length) (v : List α) (nSize : ℕ) :
    v.foldl (fun nSize x => nSize + size x) (UInt32.ofNat nSize) =
      UInt32.ofNat (nSize + (v.flatMap write).length) := by
  induction v generalizing nSize with
  | nil => rfl
  | cons x v ih =>
    rw [foldl_cons, h, ← UInt32.ofNat_add, ih, flatMap_cons, length_append, Nat.add_assoc]

theorem getSerializeSizeVector_eq {size : α → UInt32}
    (h : ∀ x, size x = UInt32.ofNat (write x).length) (v : List α) :
    getSerializeSizeVector size v = UInt32.ofNat (writeVector write v).length := by
  rw [getSerializeSizeVector, foldl_add_size h, writeVector, length_append, length_writeCompactSize]

theorem writeVector_map {image : α → α} (h : ∀ x, write (image x) = write x) (v : List α) :
    writeVector write (v.map image) = writeVector write v := by
  simp only [writeVector, length_map, flatMap_map, h]

/-- The integer types `VARINT` is instantiated at. -/
inductive IntType
  | int32
  | uint32
  | int64
  | uint64
  deriving DecidableEq, Repr

namespace IntType

def size : IntType → ℕ
  | int32 => 4
  | uint32 => 4
  | int64 => 8
  | uint64 => 8

def max : IntType → ℤ
  | int32 => 2 ^ 31 - 1
  | uint32 => 2 ^ 32 - 1
  | int64 => 2 ^ 63 - 1
  | uint64 => 2 ^ 64 - 1

def wrap : IntType → ℤ → ℤ
  | int32, n => n.bmod (2 ^ 32)
  | uint32, n => n % 2 ^ 32
  | int64, n => n.bmod (2 ^ 64)
  | uint64, n => n % 2 ^ 64

variable (I : IntType)

theorem wrap_of_le {n : ℤ} (h0 : 0 ≤ n) (h : n ≤ I.max) : I.wrap n = n := by
  cases I <;> simp only [wrap, max] at h ⊢
  · exact Int.bmod_eq_of_le (by omega) (by omega)
  · exact Int.emod_eq_of_lt h0 (by omega)
  · exact Int.bmod_eq_of_le (by omega) (by omega)
  · exact Int.emod_eq_of_lt h0 (by omega)

def digits : ℕ := (I.size * 8 + 6) / 7

theorem two_le_digits : 2 ≤ I.digits := by
  cases I <;> decide

theorem max_lt_pow_digits : I.max < 128 ^ I.digits := by
  cases I <;> decide

end IntType

variable {n : ℤ}

/-- `(n & 0x7F) | (len ? 0x80 : 0x00)`: all digits but the first one written carry the
continuation bit. -/
def varIntDigit (len : ℕ) (n : ℤ) : UInt8 :=
  UInt8.ofNat ((n % 128).toNat + if len = 0 then 0 else 128)

/-- The buffer `tmp` in the order it is filled, from position `len` on, with room for the given
number of digits. -/
def writeVarIntTmp : ℕ → (len : ℕ) → ℤ → List UInt8
  | 0, _, _ => []
  | k + 1, len, n =>
    varIntDigit len n :: if n ≤ 0x7F then [] else writeVarIntTmp k (len + 1) (n / 128 - 1)

variable (I : IntType)

def writeVarInt (n : ℤ) : Bytes :=
  (writeVarIntTmp I.digits 0 n).reverse

def getSizeOfVarInt (n : ℤ) : ℕ :=
  if n ≤ 0x7F then 1 else getSizeOfVarInt (n / 128 - 1) + 1
termination_by n.toNat
decreasing_by omega

def readVarIntLoop (I : IntType) (n : ℤ) : Reader UInt8 ℤ
  | [] => none
  | chData :: rest =>
    let n := I.wrap (n * 128 + chData.toNat % 128)
    if chData ≥ 128 then readVarIntLoop I (I.wrap (n + 1)) rest
    else some (n, rest)

def readVarInt : Reader UInt8 ℤ := readVarIntLoop I 0

/-- What comes back from the encoding of `n`: a negative number is cut to its low seven bits. -/
def varIntImage (n : ℤ) : ℤ := if n < 0 then n % 128 else n

theorem varIntImage_of_nonneg (h : 0 ≤ n) : varIntImage n = n := by
  simp [varIntImage, not_lt.mpr h]

theorem varIntImage_nonneg (n : ℤ) : 0 ≤ varIntImage n := by
  unfold varIntImage
  split_ifs <;> omega

theorem toNat_varIntDigit_zero (n : ℤ) : (varIntDigit 0 n).toNat = (n % 128).toNat := by
  rw [varIntDigit, if_pos rfl, UInt8.toNat_ofNat']
  omega

theorem toNat_varIntDigit_succ (len : ℕ) (n : ℤ) :
    (varIntDigit (len + 1) n).toNat = (n % 128).toNat + 128 := by
  rw [varIntDigit, if_neg len.succ_ne_zero, UInt8.toNat_ofNat']
  omega

variable (k len : ℕ)

theorem writeVarIntTmp_of_le (h : n ≤ 0x7F) :
    writeVarIntTmp (k + 1) len n = [varIntDigit len n] := by
  rw [writeVarIntTmp, if_pos h]

theorem reverse_writeVarIntTmp_of_lt (h : 0x7F < n) : (writeVarIntTmp (k + 1) len n).reverse =
      (writeVarIntTmp k (len + 1) (n / 128 - 1)).reverse ++ [varIntDigit len n] := by
  rw [writeVarIntTmp, if_neg (not_le.mpr h), reverse_cons]

theorem length_writeVarIntTmp_le (n : ℤ) : (writeVarIntTmp k len n).length ≤ k := by
  induction k generalizing len n with
  | zero => exact le_rfl
  | succ k ih =>
    rw [writeVarIntTmp, length_cons]
    split_ifs
    · exact Nat.succ_le_succ (Nat.zero_le k)
    · exact Nat.succ_le_succ (ih _ _)

theorem length_writeVarInt_le (n : ℤ) : (writeVarInt I n).length ≤ I.digits := by
  rw [writeVarInt, length_reverse]
  exact length_writeVarIntTmp_le _ _ _

theorem length_writeVarIntTmp (h : n < 128 ^ (k + 1)) :
    (writeVarIntTmp (k + 1) len n).length = getSizeOfVarInt n := by
  induction k generalizing len n with
  | zero =>
    rw [writeVarIntTmp_of_le 0 len (by omega), getSizeOfVarInt, if_pos (by omega), length_singleton]
  | succ k ih =>
    rw [writeVarIntTmp, getSizeOfVarInt, length_cons]
    split_ifs with hsmall
    · rfl
    · rw [ih (len + 1) (by rw [pow_succ] at h; omega)]

theorem length_writeVarInt (h : n ≤ I.max) : (writeVarInt I n).length = getSizeOfVarInt n := by
  obtain ⟨k, hk⟩ := Nat.exists_eq_add_of_le' I.two_le_digits
  have hpow := I.max_lt_pow_digits
  rw [writeVarInt, length_reverse]
  rw [hk] at hpow ⊢
  exact length_writeVarIntTmp (k + 1) 0 (h.trans_lt hpow)

theorem readVarIntLoop_continue (len : ℕ) (m q : ℤ) (rest : Bytes)
    (h0 : 0 ≤ m) (hmax : m + 1 ≤ I.max) (hq : q * 128 + m % 128 = m) :
    readVarIntLoop I q (varIntDigit (len + 1) m :: rest) = readVarIntLoop I (m + 1) rest := by
  have hdigit := toNat_varIntDigit_succ len m
  have hge : varIntDigit (len + 1) m ≥ 128 := by
    rw [ge_iff_le, UInt8.le_iff_toNat_le, hdigit]
    exact Nat.le_add_left _ _
  have hvalue : q * 128 + ((m % 128).toNat + 128 : ℕ) % 128 = m := by omega
  rw [readVarIntLoop, hdigit, if_pos hge, hvalue, I.wrap_of_le h0 (by omega),
    I.wrap_of_le (by omega) hmax]

theorem readVarIntLoop_stop (n q : ℤ) (rest : Bytes)
    (h0 : 0 ≤ q) (hmax : q * 128 + n % 128 ≤ I.max) :
    readVarIntLoop I q (varIntDigit 0 n :: rest) = some (q * 128 + n % 128, rest) := by
  have hdigit := toNat_varIntDigit_zero n
  have hlt : ¬ varIntDigit 0 n ≥ 128 := by
    rw [ge_iff_le, UInt8.le_iff_toNat_le, hdigit]
    change ¬ 128 ≤ (n % 128).toNat
    omega
  have hvalue : q * 128 + ((n % 128).toNat : ℕ) % 128 = q * 128 + n % 128 := by omega
  rw [readVarIntLoop, hdigit, if_neg hlt, hvalue, I.wrap_of_le (by omega) hmax]

/-- The digits after the first carry the continuation bit, so reading them from an empty
accumulator yields one more than the number they write. -/
theorem readVarIntLoop_writeVarIntTmp (m : ℤ) (rest : Bytes)
    (h0 : 0 ≤ m) (hk : m < 128 ^ (k + 1)) (hmax : m + 1 ≤ I.max) :
    readVarIntLoop I 0 ((writeVarIntTmp (k + 1) (len + 1) m).reverse ++ rest) =
      readVarIntLoop I (m + 1) rest := by
  induction k generalizing m len rest with
  | zero =>
    have hsmall : m ≤ 0x7F := by
      rw [zero_add, pow_one] at hk
      omega
    rw [writeVarIntTmp_of_le 0 (len + 1) hsmall]
    exact readVarIntLoop_continue I len m 0 rest h0 hmax (by omega)
  | succ k ih =>
    by_cases hsmall : m ≤ 0x7F
    · rw [writeVarIntTmp_of_le (k + 1) (len + 1) hsmall]
      exact readVarIntLoop_continue I len m 0 rest h0 hmax (by omega)
    · have hhigh : m / 128 - 1 < 128 ^ (k + 1) := by
        rw [pow_succ] at hk
        omega
      rw [reverse_writeVarIntTmp_of_lt (k + 1) (len + 1) (not_le.mp hsmall),
        append_assoc, singleton_append,
        ih (len + 1) (m / 128 - 1) _ (by omega) hhigh (by omega)]
      exact readVarIntLoop_continue I len m _ rest h0 hmax (by omega)

/-- A value in range returns unchanged, a negative one as its low seven bits. -/
theorem readsBack_writeVarInt (hmax : n ≤ I.max) :
    ReadsBack (readVarInt I) (writeVarInt I n) (varIntImage n) := by
  intro rest
  obtain ⟨k, hk⟩ := Nat.exists_eq_add_of_le' I.two_le_digits
  unfold readVarInt writeVarInt
  rw [hk]
  by_cases hsmall : n ≤ 0x7F
  · have hcap : n % 128 ≤ I.max := by cases I <;> simp only [IntType.max] <;> omega
    have himage : varIntImage n = 0 * 128 + n % 128 := by
      unfold varIntImage
      split_ifs <;> omega
    rw [writeVarIntTmp_of_le (k + 1) 0 hsmall, himage]
    exact readVarIntLoop_stop I n 0 rest le_rfl (by omega)
  · have hhigh : n / 128 - 1 < 128 ^ (k + 1) := by
      have hpow := I.max_lt_pow_digits
      rw [hk, pow_succ] at hpow
      omega
    rw [reverse_writeVarIntTmp_of_lt (k + 1) 0 (not_le.mp hsmall), append_assoc, singleton_append,
      readVarIntLoop_writeVarIntTmp I k 0 (n / 128 - 1) _ (by omega) hhigh (by omega),
      readVarIntLoop_stop I n _ rest (by omega) (by omega),
      varIntImage_of_nonneg (by omega)]
    congr 2
    omega

/-- A value and its image are written by the same bytes, so a record that has been read back
serializes to what was read. -/
theorem writeVarInt_varIntImage (n : ℤ) : writeVarInt I (varIntImage n) = writeVarInt I n := by
  unfold varIntImage
  split_ifs with hneg
  · obtain ⟨k, hk⟩ := Nat.exists_eq_add_of_le' I.two_le_digits
    rw [writeVarInt, writeVarInt, hk, writeVarIntTmp_of_le (k + 1) 0 (by omega),
      writeVarIntTmp_of_le (k + 1) 0 (by omega), varIntDigit, varIntDigit, Int.emod_emod]
  · rfl

theorem writeVarInt_of_le {n : ℕ} (h : n ≤ 0x7F) : writeVarInt I n = [UInt8.ofNat n] := by
  obtain ⟨k, hk⟩ := Nat.exists_eq_add_of_le' I.two_le_digits
  have hsmall : (n : ℤ) % 128 = n := by omega
  rw [writeVarInt, hk, writeVarIntTmp_of_le (k + 1) 0 (by omega), varIntDigit, if_pos rfl, hsmall]
  rfl

def readVarNat : Reader UInt8 ℕ := do
  let n ← readVarInt I
  pure n.toNat

theorem readsBack_readVarNat {n : ℕ} (h : (n : ℤ) ≤ I.max) :
    ReadsBack (readVarNat I) (writeVarInt I n) n := by
  have hread := (readsBack_writeVarInt I h).map Int.toNat
  rwa [varIntImage_of_nonneg n.cast_nonneg, Int.toNat_natCast] at hread

end Primecoin
