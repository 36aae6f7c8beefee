import Primecoin.Block.Basic
import Primecoin.Script.Canonical

/-!
# Big numbers from integers and bytes

`CBigNum` writes an integer in the MPI format of the library: a length of four bytes and behind it
sign and magnitude, most significant byte first, with the sign in the first bit. The loops leave
out the zero bytes in front and begin with a byte for the sign if the magnitude needs the first
bit. A write behind the end of the buffer is `none`, and so is an MPI that the library refuses.
-/

namespace Primecoin

open Codec List

def signed (fNegative : Bool) (n : ℕ) : ℤ := if fNegative then -n else n

/-- The number that the bytes behind the length of an MPI stand for. -/
def mpiValue : Bytes → ℤ
  | [] => 0
  | c :: rest => signed (decide (0x80 ≤ c)) (beNat ((c &&& 0x7f) :: rest))

/-- The functions of the library that read and write an MPI. -/
structure MpiLibrary where
  mpi2bn : Bytes → Option ℤ
  bn2mpi : ℤ → Bytes
  -- the format; the size of the whole is passed as an `int`
  mpi2bn_append : ∀ pch : Bytes, pch.length + 4 < 2 ^ 31 →
    mpi2bn (beBytes 4 pch.length ++ pch) = some (mpiValue pch)
  bn2mpi_eq : ∀ bn, bn2mpi bn = beBytes 4 (bigNumVch bn).length ++ (bigNumVch bn).reverse

variable (mpi : MpiLibrary)

/-- One turn of the loop: what is written behind the length so far, and `fLeadingZeroes`. -/
def mpiTurn (fNegative : Bool) : Bytes × Bool → UInt8 → Bytes × Bool
  | (pch, true), c =>
    if c = 0 then (pch, true)
    else if c &&& 0x80 ≠ 0 then (pch ++ [if fNegative then 0x80 else 0, c], false)
    else (pch ++ [if fNegative then c ||| 0x80 else c], false)
  | (pch, false), c => (pch ++ [c], false)

/-- The loop over the bytes of an integer, the most significant first. -/
def setBytes (fNegative : Bool) (bytes : Bytes) : Option ℤ :=
  let pch := (bytes.foldl (mpiTurn fNegative) ([], true)).1
  if pch.length ≤ bytes.length + 2 then mpi.mpi2bn (beBytes 4 pch.length ++ pch) else none

/-- The bytes shifted out at the top. -/
def topBytes : ℕ → UInt64 → Bytes
  | 0, _ => []
  | k + 1, n => ((n >>> 56) &&& 0xff).toUInt8 :: topBytes k (n <<< 8)

def setint64 (sn : Int64) : Option ℤ :=
  if sn < 0 then setBytes mpi true (topBytes 8 ((-(sn + 1)).toUInt64 + 1))
  else setBytes mpi false (topBytes 8 sn.toUInt64)

def setuint64 (n : UInt64) : Option ℤ := setBytes mpi false (topBytes 8 n)

/-- The bytes of the number are read from the end of its memory on. -/
def setuint256 (n : UInt256) : Option ℤ := setBytes mpi false (leBytes 32 n.toNat).reverse

def getuint256 (bn : ℤ) : UInt256 :=
  if (mpi.bn2mpi bn).length < 4 then 0
  else BitVec.ofNat 256
    (leNat ((((mpi.bn2mpi bn).drop 4).modifyHead (· &&& 0x7f)).reverse.take 32))

def setvch (vch : Bytes) : Option ℤ := mpi.mpi2bn (beBytes 4 vch.length ++ vch.reverse)

def getvch (bn : ℤ) : Bytes :=
  if (mpi.bn2mpi bn).length ≤ 4 then [] else ((mpi.bn2mpi bn).drop 4).reverse

/-- A number of the library, which counts the bits in an `int`. -/
structure CBigNum where
  value : ℤ
  bits : value.natAbs.log2 + 1 < 2 ^ 31

theorem drop_bn2mpi (bn : ℤ) : (mpi.bn2mpi bn).drop 4 = (bigNumVch bn).reverse := by
  rw [mpi.bn2mpi_eq, drop_left' (length_beBytes 4 _)]

theorem length_bn2mpi (bn : ℤ) : (mpi.bn2mpi bn).length = 4 + (bigNumVch bn).length := by
  rw [mpi.bn2mpi_eq, length_append, length_beBytes, length_reverse]

theorem getvch_eq (bn : ℤ) : getvch mpi bn = bigNumVch bn := by
  rw [getvch, drop_bn2mpi, reverse_reverse, length_bn2mpi]
  split_ifs with h
  · exact (length_eq_zero_iff.mp (by omega)).symm
  · rfl

set_option maxRecDepth 4000 in
theorem signed_byte {c : UInt8} (h : c < 0x80) (fNegative : Bool) :
    decide (0x80 ≤ if fNegative then c ||| 0x80 else c) = fNegative ∧
      (if fNegative then c ||| 0x80 else c) &&& 0x7f = c := by
  revert c fNegative
  decide

theorem toNat_and_low (c : UInt8) : (c &&& 0x7f).toNat = c.toNat % 128 := by
  rw [UInt8.toNat_and]
  exact Nat.and_two_pow_sub_one_eq_mod c.toNat 7

theorem mpiValue_signed {c : UInt8} (h : c < 0x80) (fNegative : Bool) (rest : Bytes) :
    mpiValue ((if fNegative then c ||| 0x80 else c) :: rest) =
      signed fNegative (beNat (c :: rest)) := by
  rw [mpiValue, (signed_byte h fNegative).1, (signed_byte h fNegative).2]

/-! ## Writing a number -/

theorem foldl_mpiTurn_false (fNegative : Bool) (pch bytes : Bytes) :
    bytes.foldl (mpiTurn fNegative) (pch, false) = (pch ++ bytes, false) := by
  induction bytes generalizing pch with
  | nil => rw [append_nil, foldl_nil]
  | cons c bytes ih => rw [foldl_cons, mpiTurn, ih, append_assoc, singleton_append]

theorem beNat_zero_cons (bytes : Bytes) : beNat (0 :: bytes) = beNat bytes := by
  rw [beNat_cons, UInt8.toNat_zero, Nat.zero_mul, Nat.zero_add]

/-- What the loop writes is the number with its sign. -/
theorem foldl_mpiTurn (fNegative : Bool) (bytes : Bytes) :
    (bytes.foldl (mpiTurn fNegative) ([], true)).1.length ≤ bytes.length + 1 ∧
      mpiValue (bytes.foldl (mpiTurn fNegative) ([], true)).1 =
        signed fNegative (beNat bytes) := by
  induction bytes with
  | nil => exact ⟨Nat.zero_le _, by cases fNegative <;> rfl⟩
  | cons c bytes ih =>
    rw [foldl_cons, mpiTurn]
    by_cases hzero : c = 0
    · rw [if_pos hzero, hzero, beNat_zero_cons]
      exact ⟨ih.1.trans (Nat.le_succ _), ih.2⟩
    by_cases hhigh : c &&& 0x80 = 0
    · rw [if_neg hzero, if_neg (not_not.mpr hhigh), foldl_mpiTurn_false]
      exact ⟨by simp, mpiValue_signed ((and_high_eq_zero_iff c).mp hhigh) fNegative bytes⟩
    · have hvalue := @mpiValue_signed 0 (by decide) fNegative (c :: bytes)
      rw [beNat_zero_cons] at hvalue
      rw [if_neg hzero, if_pos hhigh, foldl_mpiTurn_false]
      exact ⟨by simp, hvalue⟩

theorem setBytes_eq (fNegative : Bool) {bytes : Bytes} (h : bytes.length + 5 < 2 ^ 31) :
    setBytes mpi fNegative bytes = some (signed fNegative (beNat bytes)) := by
  obtain ⟨hlength, hvalue⟩ := foldl_mpiTurn fNegative bytes
  rw [setBytes, if_pos (hlength.trans (Nat.le_succ _)), mpi.mpi2bn_append _ (by omega), hvalue]

theorem toNat_topByte (n : UInt64) :
    ((n >>> 56) &&& 0xff).toUInt8.toNat = n.toNat / 2 ^ 56 := by
  have hlt : n.toNat < 2 ^ 64 := n.toNat_lt
  have hmask := Nat.and_two_pow_sub_one_eq_mod (n.toNat / 2 ^ 56) 8
  simp only [UInt64.toNat_toUInt8, UInt64.toNat_and, UInt64.toNat_shiftRight,
    UInt64.reduceToNat, Nat.shiftRight_eq_div_pow, Nat.reduceMod]
  norm_num at hmask ⊢
  omega

theorem setBytes_topBytes (fNegative : Bool) (n : UInt64) :
    setBytes mpi fNegative (topBytes 8 n) = some (signed fNegative n.toNat) := by
  have hlt : n.toNat < 2 ^ 64 := n.toNat_lt
  have hshift : ∀ n : UInt64, (n <<< 8).toNat = n.toNat * 256 % 2 ^ 64 := by
    intro n
    simp [UInt64.toNat_shiftLeft, Nat.shiftLeft_eq]
  have hnil : beNat [] = 0 := rfl
  have hvalue : beNat (topBytes 8 n) = n.toNat := by
    simp only [topBytes, beNat_cons, toNat_topByte, hshift, length_cons, length_nil, hnil]
    omega
  rw [setBytes_eq mpi fNegative (by simp [topBytes]), hvalue]

theorem setint64_eq (sn : Int64) : setint64 mpi sn = some sn.toInt := by
  have hzero : (0 : Int64).toInt = 0 := rfl
  have hsize : UInt64.size = 2 ^ 64 := rfl
  have hcond : sn.toInt = if 2 * sn.toUInt64.toNat < 2 ^ 64 then (sn.toUInt64.toNat : ℤ)
      else sn.toUInt64.toNat - 2 ^ 64 := BitVec.toInt_eq_toNat_cond sn.toBitVec
  have hlt := sn.toUInt64.toNat_lt
  have habs : (-(sn + 1)).toUInt64 = -(sn.toUInt64 + 1) := rfl
  have hneg : sn < 0 ↔ ¬2 * sn.toUInt64.toNat < 2 ^ 64 := by
    rw [Int64.lt_iff_toInt_lt, hzero, hcond]
    split_ifs <;> omega
  rw [setint64, setBytes_topBytes, setBytes_topBytes, hcond]
  simp only [hneg, ite_not]
  split_ifs with hhalf
  · rfl
  · rw [habs, signed, if_pos rfl, UInt64.toNat_add, UInt64.toNat_neg, UInt64.toNat_add]
    simp
    omega

/-! ## Reading it back -/

theorem leBytes_concat (w n : ℕ) :
    leBytes (w + 1) n = leBytes w n ++ [UInt8.ofNat (n / 256 ^ w)] := by
  induction w generalizing n with
  | zero => simp [leBytes]
  | succ w ih =>
    rw [leBytes, ih, leBytes, cons_append, Nat.div_div_eq_div_mul, ← pow_succ']

theorem leNat_take (w : ℕ) (bytes : Bytes) : leNat (bytes.take w) = leNat bytes % 256 ^ w := by
  induction w generalizing bytes with
  | zero => rw [take_zero, pow_zero, Nat.mod_one]; rfl
  | succ w ih =>
    cases bytes with
    | nil => rw [take_nil]; rfl
    | cons b bytes =>
      have hb : b.toNat < 256 := b.toNat_lt
      have hsplit : (b.toNat + 256 * leNat bytes) / 256 = leNat bytes := by omega
      rw [take_succ_cons, leNat, ih, leNat, pow_succ', Nat.mod_mul, hsplit]
      omega

/-- A number other than zero leaves the top bit of its bytes to the sign. -/
theorem exists_bigNumVch {bn : ℤ} (hbn : bn ≠ 0) :
    ∃ w, w ≤ bn.natAbs.log2 / 8 + 1 ∧ bn.natAbs < 128 * 256 ^ w ∧
      bigNumVch bn = leBytes (w + 1) (bn.natAbs + (if bn < 0 then 128 else 0) * 256 ^ w) := by
  have hpow : ∀ w, 128 * 256 ^ w = 2 ^ (8 * w + 7) := by
    intro w
    rw [pow_add, pow_mul, mul_comm]
    rfl
  have hlog := fun k => @Nat.log2_lt bn.natAbs k (Int.natAbs_ne_zero.mpr hbn)
  rw [bigNumVch, if_neg hbn]
  by_cases hextra : bn.natAbs.log2 % 8 = 7
  · refine ⟨bn.natAbs.log2 / 8 + 1, le_rfl, ?_, by simp [hextra]⟩
    rw [hpow, ← hlog]
    omega
  · refine ⟨bn.natAbs.log2 / 8, Nat.le_succ _, ?_, by simp [hextra]⟩
    rw [hpow, ← hlog]
    omega

theorem mpiValue_reverse_bigNumVch (bn : ℤ) : mpiValue (bigNumVch bn).reverse = bn := by
  by_cases hbn : bn = 0
  · rw [hbn]
    rfl
  obtain ⟨w, -, hlt, hvch⟩ := exists_bigNumVch hbn
  have hpos : 0 < 256 ^ w := Nat.pow_pos (by decide)
  have hhead : bn.natAbs / 256 ^ w < 128 := (Nat.div_lt_iff_lt_mul hpos).mpr hlt
  have habs := Nat.div_add_mod' bn.natAbs (256 ^ w)
  rw [hvch, leBytes_concat, reverse_append, reverse_singleton, singleton_append, mpiValue,
    beNat_cons, toNat_and_low, beNat, reverse_reverse, leNat_leBytes, Nat.add_mul_mod_self_right,
    length_reverse, length_leBytes, Nat.add_mul_div_right _ _ hpos]
  generalize bn.natAbs / 256 ^ w = top at hhead habs
  have hbyte : (UInt8.ofNat (top + if bn < 0 then 128 else 0)).toNat =
      top + if bn < 0 then 128 else 0 := by
    rw [UInt8.toNat_ofNat']
    split_ifs <;> omega
  have hlow : (top + if bn < 0 then 128 else 0) % 128 = top := by
    split_ifs <;> omega
  have hhigh : UInt8.toNat 0x80 = 128 := rfl
  simp only [signed, decide_eq_true_iff, UInt8.le_iff_toNat_le, hbyte, hlow, habs, hhigh]
  split_ifs <;> omega

/-- Without the sign bit the bytes of an MPI are the absolute value. -/
theorem natAbs_mpiValue (data : Bytes) :
    (mpiValue data).natAbs = beNat (data.modifyHead (· &&& 0x7f)) := by
  cases data with
  | nil => rfl
  | cons c rest =>
    rw [mpiValue, signed, modifyHead_cons]
    split_ifs
    · rw [Int.natAbs_neg, Int.natAbs_natCast]
    · rw [Int.natAbs_natCast]

theorem toNat_getuint256 (n : ℕ) : (getuint256 mpi n).toNat = n % 2 ^ 256 := by
  have hvalue := natAbs_mpiValue (bigNumVch n).reverse
  rw [mpiValue_reverse_bigNumVch, Int.natAbs_natCast, beNat] at hvalue
  have hpow : (256 : ℕ) ^ 32 = 2 ^ 256 := by norm_num
  rw [getuint256, length_bn2mpi, if_neg (by omega), drop_bn2mpi, leNat_take, ← hvalue, hpow,
    BitVec.toNat_ofNat, Nat.mod_mod]

theorem setvch_bigNumVch {bn : ℤ} (h : (bigNumVch bn).length + 4 < 2 ^ 31) :
    setvch mpi (bigNumVch bn) = some bn := by
  rw [← length_reverse] at h
  rw [setvch, ← length_reverse, mpi.mpi2bn_append _ h, mpiValue_reverse_bigNumVch]

/-- Setting a number from an integer gives that number and stays inside the buffer; a non-negative
number is read modulo 2^256; and the bytes of a number set it again. -/
theorem bigNum_spec (mpi : MpiLibrary) (sn : Int64) (n : UInt64) (u : UInt256) (m : ℕ)
    (bn : CBigNum) :
    setint64 mpi sn = some sn.toInt ∧ setuint64 mpi n = some n.toNat ∧
      setuint256 mpi u = some u.toNat ∧ (getuint256 mpi m).toNat = m % 2 ^ 256 ∧
      setvch mpi (getvch mpi bn.value) = some bn.value := by
  refine ⟨setint64_eq mpi sn, setBytes_topBytes mpi false n, ?_, toNat_getuint256 mpi m, ?_⟩
  · have hu : u.toNat < 256 ^ 32 := u.isLt
    rw [setuint256, setBytes_eq mpi false (by rw [length_reverse, length_leBytes]; decide), beNat,
      reverse_reverse, leNat_leBytes, Nat.mod_eq_of_lt hu]
    rfl
  · have hlength : (bigNumVch bn.value).length + 4 < 2 ^ 31 := by
      by_cases hzero : bn.value = 0
      · rw [hzero]
        decide
      · obtain ⟨w, hw, -, hvch⟩ := exists_bigNumVch hzero
        have hbits := bn.bits
        rw [hvch, length_leBytes]
        omega
    rw [getvch_eq, setvch_bigNumVch mpi hlength]

def Sample.mpiLibrary : MpiLibrary where
  mpi2bn vch := if vch.length = 4 + beNat (vch.take 4) then some (mpiValue (vch.drop 4)) else none
  bn2mpi bn := beBytes 4 (bigNumVch bn).length ++ (bigNumVch bn).reverse
  mpi2bn_append pch h := by
    have hlength : pch.length < 256 ^ 4 := by omega
    rw [take_left' (length_beBytes 4 _), drop_left' (length_beBytes 4 _), beNat_beBytes hlength,
      length_append, length_beBytes, if_pos rfl]
  bn2mpi_eq _ := rfl

end Primecoin
