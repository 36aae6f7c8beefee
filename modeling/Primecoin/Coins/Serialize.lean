import Primecoin.Codec.Mask
import Primecoin.Coins.Compressor
import Primecoin.Coins.View

/-!
# Coin records on disk

The serialization of `CCoins`: version, a code with the coinbase flag and the availability of the
first two outputs, that of the others as a bit mask, the unspent outputs, and the height. The
number of mask bytes that are not zero is part of the code, less one when neither of the first two
outputs is available.

What comes back is `stored`: the record trimmed, with spent outputs null and the version cut to
what a `VARINT` holds.
-/

namespace Primecoin

open Codec List Slots CTxOut Sample

namespace CCoins

variable {coins : CCoins}

def maskRounds (coins : CCoins) : ℕ := (coins.vout.length - 2 + 7) / 8

/-- `!fZero` for byte `b` of the mask. -/
def usesByte (coins : CCoins) (b : ℕ) : Bool :=
  (range 8).any fun i => coins.isAvailable (2 + (8 * b + i))

def calcMaskSize (coins : CCoins) : ℕ × ℕ := maskSize coins.usesByte coins.maskRounds

variable (fCoinBase fFirst fSecond : Bool) (nMaskCode : ℕ)

def nCode : ℕ :=
  (8 * (nMaskCode - if fFirst || fSecond then 0 else 1) + (if fCoinBase then 1 else 0) +
    (if fFirst then 2 else 0) + (if fSecond then 4 else 0)) % 2 ^ 32

def serialize (keys : ECKeys) (coins : CCoins) : Except Failure Bytes :=
  let (nMaskSize, nMaskCode) := coins.calcMaskSize
  let fFirst := coins.isAvailable 0
  let fSecond := coins.isAvailable 1
  if fFirst || fSecond || nMaskCode ≠ 0 then
    .ok (writeVarInt .int32 coins.nVersion.toInt ++
      (writeVarInt .uint32 (nCode coins.fCoinBase fFirst fSecond nMaskCode) ++
        ((range nMaskSize).map (maskByte fun i => coins.isAvailable (2 + i)) ++
          ((coins.vout.filter fun txout => !txout.isNull).flatMap
            (CTxOutCompressor.serialize keys) ++ writeVarInt .int32 coins.nHeight.toInt))))
  else .error (.assertion "fFirst || fSecond || nMaskCode")

def getSerializeSize (keys : ECKeys) (coins : CCoins) : Except Failure UInt32 :=
  let (nMaskSize, nMaskCode) := coins.calcMaskSize
  let fFirst := coins.isAvailable 0
  let fSecond := coins.isAvailable 1
  if fFirst || fSecond || nMaskCode ≠ 0 then
    let nSize := UInt32.ofNat (getSizeOfVarInt coins.nVersion.toInt)
    let nSize := nSize +
      UInt32.ofNat (getSizeOfVarInt (nCode coins.fCoinBase fFirst fSecond nMaskCode))
    let nSize := nSize + UInt32.ofNat nMaskSize
    let nSize := (coins.vout.filter fun txout => !txout.isNull).foldl
      (fun nSize txout => nSize + CTxOutCompressor.getSerializeSize keys txout) nSize
    .ok (nSize + UInt32.ofNat (getSizeOfVarInt coins.nHeight.toInt))
  else .error (.assertion "fFirst || fSecond || nMaskCode")

theorem nCode_lt : nCode fCoinBase fFirst fSecond nMaskCode < 2 ^ 32 := Nat.mod_lt _ (by norm_num)

def readOutputs (keys : ECKeys) : List Bool → Reader UInt8 (List CTxOut)
  | [] => pure []
  | fAvail :: vAvail => do
      let txout ← if fAvail then CTxOutCompressor.unserialize keys else pure .null
      let vout ← readOutputs keys vAvail
      pure (txout :: vout)

def unserialize (keys : ECKeys) : Reader UInt8 CCoins := do
  let nVersion ← readVarInt .int32
  let nCode ← readVarNat .uint32
  let bits ← readMask (nCode / 8 + if nCode &&& 6 ≠ 0 then 0 else 1)
  let vout ← readOutputs keys (nCode.testBit 1 :: nCode.testBit 2 :: bits)
  let nHeight ← readVarInt .int32
  pure (cleanup ⟨nCode.testBit 0, vout, Int32.ofInt nHeight, Int32.ofInt nVersion⟩)

def stored (coins : CCoins) : CCoins :=
  cleanup { coins with
    vout := canonical isNull .null coins.vout
    nVersion := Int32.ofInt (varIntImage coins.nVersion.toInt) }

structure Storable (coins : CCoins) : Prop where
  nHeight : 0 ≤ coins.nHeight.toInt
  length : coins.vout.length ≤ maxSize
  vout : ∀ n txout, coins.unspent n = some txout → CTxOutCompressor.Storable txout

/-- A record whose unspent outputs come back. The bound on their number keeps the `unsigned int`
counters from wrapping. -/
structure Packable (coins : CCoins) : Prop where
  nHeight : 0 ≤ coins.nHeight.toInt
  length : coins.vout.length + 6 ≤ 2 ^ 32
  vout : ∀ n txout, coins.unspent n = some txout → CTxOutCompressor.Packable txout

theorem Storable.packable (h : coins.Storable) : coins.Packable where
  nHeight := h.nHeight
  length := by
    have hlength := h.length
    simp only [maxSize] at hlength
    omega
  vout n txout hout := (h.vout n txout hout).packable

/-! ## The code and the mask -/

theorem and_six_eq_zero_iff (n : ℕ) : n &&& 6 = 0 ↔ n.testBit 1 = false ∧ n.testBit 2 = false := by
  have hlow : n &&& 6 = n % 8 &&& 6 := by
    have hmod := Nat.and_mod_two_pow (a := n) (b := 6) (n := 3)
    have hle : n &&& 6 ≤ 6 := Nat.and_le_right
    rw [Nat.mod_eq_of_lt (by omega)] at hmod
    exact hmod
  have hbits : n.testBit 1 = (n % 8).testBit 1 ∧ n.testBit 2 = (n % 8).testBit 2 := by
    constructor
    · exact (Nat.testBit_mod_two_pow n 3 1).symm
    · exact (Nat.testBit_mod_two_pow n 3 2).symm
  have hlt : n % 8 < 8 := Nat.mod_lt _ (by omega)
  rw [hlow, hbits.1, hbits.2]
  generalize n % 8 = r at hlt
  interval_cases r <;> decide

theorem testBit_nCode : (nCode fCoinBase fFirst fSecond nMaskCode).testBit 0 = fCoinBase ∧
      (nCode fCoinBase fFirst fSecond nMaskCode).testBit 1 = fFirst ∧
      (nCode fCoinBase fFirst fSecond nMaskCode).testBit 2 = fSecond := by
  simp only [Nat.testBit_eq_decide_div_mod_eq]
  cases fCoinBase <;> cases fFirst <;> cases fSecond <;> simp [nCode] <;> omega

/-- The reader recovers the count of the mask bytes from the code. -/
theorem nMaskCode_eq (fCoinBase : Bool) {fFirst fSecond : Bool} {nMaskCode : ℕ}
    (hcode : (fFirst || fSecond || nMaskCode ≠ 0) = true) (hsize : 8 * nMaskCode + 7 < 2 ^ 32) :
    (nCode fCoinBase fFirst fSecond nMaskCode / 8 +
      if nCode fCoinBase fFirst fSecond nMaskCode &&& 6 ≠ 0 then 0 else 1) = nMaskCode := by
  obtain ⟨-, hfirst, hsecond⟩ := testBit_nCode fCoinBase fFirst fSecond nMaskCode
  simp only [ne_eq, and_six_eq_zero_iff, hfirst, hsecond]
  cases fCoinBase <;> cases fFirst <;> cases fSecond <;> simp [nCode] at hcode ⊢ <;> omega

theorem usesByte_eq (coins : CCoins) (b : ℕ) :
    coins.usesByte b = decide (maskByte (fun i => coins.isAvailable (2 + i)) b ≠ 0) := by
  rw [Bool.eq_iff_iff, decide_eq_true_iff, ne_eq, maskByte_eq_zero_iff]
  simp [usesByte]

def mask (coins : CCoins) : List UInt8 :=
  maskBytes (maskByte fun i => coins.isAvailable (2 + i)) coins.maskRounds

theorem calcMaskSize_eq (coins : CCoins) :
    coins.calcMaskSize = (coins.mask.length, coins.mask.countP fun ch => decide (ch ≠ 0)) := by
  have huses : coins.usesByte =
      fun b => decide (maskByte (fun i => coins.isAvailable (2 + i)) b ≠ 0) :=
    funext coins.usesByte_eq
  rw [calcMaskSize, huses]
  exact maskSize_eq _ _

theorem length_mask_le (coins : CCoins) : coins.mask.length ≤ coins.maskRounds := by
  have hle := (List.rdropWhile_prefix (fun ch : UInt8 => decide (ch = 0))
    ((range coins.maskRounds).map (maskByte fun i => coins.isAvailable (2 + i)))).length_le
  rwa [length_map, length_range] at hle

theorem trimmed_mask (coins : CCoins) :
    Trimmed (fun ch => decide (ch = 0)) coins.mask := trimmed_maskBytes _ _

theorem isAvailable_of_length_mask_le {n : ℕ}
    (h : 2 + 8 * coins.mask.length ≤ n) : coins.isAvailable n = false := by
  by_cases hrounds : (n - 2) / 8 < coins.maskRounds
  · have hzero := eq_zero_of_length_maskBytes_le (b := (n - 2) / 8) (by
      change coins.mask.length ≤ (n - 2) / 8
      omega) hrounds
    have hbit := maskByte_eq_zero_iff.mp hzero ((n - 2) % 8) (Nat.mod_lt _ (by omega))
    rwa [Nat.div_add_mod, Nat.add_sub_cancel' (by omega)] at hbit
  · have hnone : coins.vout[n]? = none := by
      rw [getElem?_eq_none_iff]
      unfold maskRounds at hrounds
      omega
    rw [isAvailable, hnone]

theorem assertion_serialize (h : coins.isPruned = false) :
    (coins.isAvailable 0 || coins.isAvailable 1 ||
      decide ((coins.mask.countP fun ch => decide (ch ≠ 0)) ≠ 0)) = true := by
  by_contra hnot
  simp only [Bool.or_eq_true, decide_eq_true_eq, not_or, not_not, Bool.not_eq_true] at hnot
  obtain ⟨⟨hfirst, hsecond⟩, hcount⟩ := hnot
  have hmask : coins.mask = [] := maskBytes_eq_nil hcount
  have hnone : ∀ n, coins.isAvailable n = false := by
    intro n
    by_cases hn : n < 2
    · interval_cases n
      · exact hfirst
      · exact hsecond
    · apply isAvailable_of_length_mask_le
      rw [hmask, length_nil]
      omega
  have hpruned : coins.isPruned = true := by
    rw [isPruned_iff]
    intro n
    cases hunspent : coins.unspent n with
    | none => rfl
    | some txout =>
      have havail := isAvailable_iff.mpr ⟨txout, hunspent⟩
      rw [hnone n] at havail
      cases havail
  rw [h] at hpruned
  cases hpruned

/-! ## The outputs -/

theorem isAvailable_eq (coins : CCoins) (n : ℕ) :
    coins.isAvailable n = !(coins.vout.getD n .null).isNull := by
  rw [isAvailable, getD_eq_getElem?_getD]
  cases coins.vout[n]? <;> rfl

/-- The outputs as long as `vAvail`: those after the mask are all spent. -/
def masked (coins : CCoins) : List CTxOut :=
  (range (2 + 8 * coins.mask.length)).map fun n => coins.vout.getD n .null

theorem vAvail_eq (coins : CCoins) :
    coins.isAvailable 0 :: coins.isAvailable 1 :: coins.mask.flatMap byteBits =
      coins.masked.map fun txout => !txout.isNull := by
  have hmask : coins.mask.flatMap byteBits =
      (range (8 * coins.mask.length)).map fun i => coins.isAvailable (2 + i) := by
    rw [mask, ← map_range_length_maskBytes, flatMap_byteBits, length_map, length_range]
  rw [hmask, masked, map_map, range_add, map_append, map_map]
  simp only [isAvailable_eq]
  rfl

theorem live_masked (coins : CCoins) (n : ℕ) : live isNull coins.masked n = coins.unspent n := by
  by_cases hn : n < 2 + 8 * coins.mask.length
  · rw [live, masked, getElem?_map, getElem?_range hn, unspent, live,
      Option.map_some, getD_eq_getElem?_getD]
    cases coins.vout[n]? <;> rfl
  · have hnone := isAvailable_of_length_mask_le (not_lt.mp hn)
    rw [live_eq_none_of_le (by simpa [masked] using hn)]
    cases hunspent : coins.unspent n with
    | none => rfl
    | some txout =>
      rw [isAvailable_iff.mpr ⟨txout, hunspent⟩] at hnone
      cases hnone

theorem readsBack_readOutputs (keys : ECKeys) {vout : List CTxOut}
    (h : ∀ txout ∈ vout, txout.isNull = false → CTxOutCompressor.Packable txout) :
    ReadsBack (readOutputs keys (vout.map fun txout => !txout.isNull))
      ((vout.filter fun txout => !txout.isNull).flatMap (CTxOutCompressor.serialize keys))
      (canonical isNull .null vout) := by
  induction vout with
  | nil => exact ReadsBack.pure []
  | cons txout vout ih =>
    have hrest := ih fun other hother => h other (mem_cons_of_mem _ hother)
    have hconsed := hrest.map ((if txout.isNull then null else txout) :: ·)
    cases hnull : txout.isNull with
    | true =>
      rw [hnull, if_pos rfl] at hconsed
      have hread := (ReadsBack.pure (τ := UInt8) null).bind (f := fun txout => do
          let vout ← readOutputs keys (vout.map fun txout => !txout.isNull)
          pure (txout :: vout)) hconsed
      simpa [readOutputs, canonical, hnull] using hread
    | false =>
      rw [hnull, if_neg Bool.false_ne_true] at hconsed
      have hread := (CTxOutCompressor.readsBack_serialize keys (h txout (by simp) hnull)).bind
        (f := fun txout => do
          let vout ← readOutputs keys (vout.map fun txout => !txout.isNull)
          pure (txout :: vout)) hconsed
      simpa [readOutputs, canonical, hnull] using hread

theorem Packable.of_mem_masked (h : coins.Packable) :
    ∀ txout ∈ coins.masked, txout.isNull = false → CTxOutCompressor.Packable txout := by
  intro txout hmem hnull
  obtain ⟨n, hn⟩ := mem_iff_getElem?.mp hmem
  apply h.vout n txout
  rw [← live_masked]
  exact live_eq_some_iff.mpr ⟨hn, hnull⟩

theorem Packable.countP_mask_lt (h : coins.Packable) :
    8 * (coins.mask.countP fun ch => decide (ch ≠ 0)) + 7 < 2 ^ 32 := by
  have hcount := countP_le_length (p := fun ch => decide (ch ≠ 0)) (l := coins.mask)
  have hrounds := coins.length_mask_le
  have hlength := h.length
  simp only [maskRounds] at hrounds
  omega

theorem Packable.stored_eq (h : coins.Packable) : coins.stored = cleanup ⟨coins.fCoinBase,
      canonical isNull .null coins.masked,
      Int32.ofInt (varIntImage coins.nHeight.toInt),
      Int32.ofInt (varIntImage coins.nVersion.toInt)⟩ := by
  have hlive : ∀ n, live isNull coins.vout n =
      live isNull coins.masked n := fun n => (coins.live_masked n).symm
  rw [varIntImage_of_nonneg h.nHeight, Int32.ofInt_toInt]
  simp only [stored, cleanup]
  rw [trim_canonical_eq isNull_null hlive]

theorem serialize_eq (keys : ECKeys) (h : coins.isPruned = false) :
    coins.serialize keys = .ok (writeVarInt .int32 coins.nVersion.toInt ++
      (writeVarInt .uint32 (nCode coins.fCoinBase (coins.isAvailable 0) (coins.isAvailable 1)
          (coins.mask.countP fun ch => decide (ch ≠ 0))) ++
        (coins.mask ++ ((coins.masked.filter fun txout => !txout.isNull).flatMap
            (CTxOutCompressor.serialize keys) ++ writeVarInt .int32 coins.nHeight.toInt)))) := by
  have hmask : (range coins.mask.length).map
      (maskByte fun i => coins.isAvailable (2 + i)) = coins.mask := map_range_length_maskBytes _ _
  have hfilter : (coins.vout.filter fun txout => !txout.isNull) =
      coins.masked.filter fun txout => !txout.isNull :=
    filter_eq_of_live_eq fun n => (coins.live_masked n).symm
  rw [serialize, calcMaskSize_eq]
  simp only
  rw [if_pos (assertion_serialize h), hmask, hfilter]

/-- A record with an unspent output can be written and reads back as `stored`. -/
theorem readsBack_serialize (keys : ECKeys) (h : coins.Packable)
    (hpruned : coins.isPruned = false) :
    ∃ bytes, coins.serialize keys = .ok bytes ∧
      ReadsBack (unserialize keys) bytes coins.stored := by
  have hcount := nMaskCode_eq coins.fCoinBase (assertion_serialize hpruned) h.countP_mask_lt
  obtain ⟨hbase, hfirst, hsecond⟩ := testBit_nCode coins.fCoinBase (coins.isAvailable 0)
    (coins.isAvailable 1) (coins.mask.countP fun ch => decide (ch ≠ 0))
  refine ⟨_, serialize_eq keys hpruned, ?_⟩
  rw [h.stored_eq]
  apply (readsBack_writeVarInt .int32 ?_).bind
  · apply (readsBack_readVarNat .uint32 ?_).bind
    · rw [hcount, hbase, hfirst, hsecond]
      apply (readsBack_readMask coins.trimmed_mask).bind
      rw [vAvail_eq]
      apply (readsBack_readOutputs keys h.of_mem_masked).bind
      apply (readsBack_writeVarInt .int32 ?_).map
      have hlt := coins.nHeight.toInt_lt
      simp only [IntType.max]
      omega
    · have hlt := nCode_lt coins.fCoinBase (coins.isAvailable 0) (coins.isAvailable 1)
        (coins.mask.countP fun ch => decide (ch ≠ 0))
      simp only [IntType.max]
      omega
  · have hlt := coins.nVersion.toInt_lt
    simp only [IntType.max]
    omega

theorem stored_eq_self (hclean : coins.Clean)
    (hspent : ∀ txout ∈ coins.vout, txout.isNull = true → txout = .null)
    (hversion : 0 ≤ coins.nVersion.toInt) : coins.stored = coins := by
  simp only [stored, cleanup]
  rw [canonical_eq_self hspent, Trimmed.trim_eq hclean,
    varIntImage_of_nonneg hversion, Int32.ofInt_toInt]

/-- `GetSerializeSize` asserts what `Serialize` asserts, and is the number of bytes written. -/
theorem getSerializeSize_eq (keys : ECKeys) (coins : CCoins) : coins.getSerializeSize keys =
      (coins.serialize keys).map fun bytes => UInt32.ofNat bytes.length := by
  have hversion := coins.nVersion.toInt_lt
  have hheight := coins.nHeight.toInt_lt
  have hcode := nCode_lt coins.fCoinBase (coins.isAvailable 0) (coins.isAvailable 1)
  unfold getSerializeSize serialize
  rcases coins.calcMaskSize with ⟨nMaskSize, nMaskCode⟩
  simp only
  split_ifs with hassert
  · simp only [Except.map, length_append, length_map, length_range]
    rw [length_writeVarInt .int32 (by simp only [IntType.max]; omega),
      length_writeVarInt .int32 (by simp only [IntType.max]; omega),
      length_writeVarInt .uint32 (by simp only [IntType.max]; have := hcode nMaskCode; omega),
      ← UInt32.ofNat_add, ← UInt32.ofNat_add,
      foldl_add_size (CTxOutCompressor.getSerializeSize_eq keys), ← UInt32.ofNat_add]
    simp only [Nat.add_assoc]
  · rfl

/-- A trimmed record with an unspent output, whose spent outputs are as `SetNull` leaves them,
comes back. -/
theorem unserialize_serialize (keys : ECKeys) {coins : CCoins}
    (hlive : ∃ txout ∈ coins.vout, txout.isNull = false) (hclean : coins.Clean)
    (hspent : ∀ txout ∈ coins.vout, txout.isNull = true → txout = .null)
    (hversion : 0 ≤ coins.nVersion.toInt) (hheight : 0 ≤ coins.nHeight.toInt)
    (hlength : coins.vout.length + 6 ≤ 2 ^ 32)
    (hvout : ∀ txout ∈ coins.vout, txout.isNull = false → CTxOutCompressor.Packable txout) :
    ∃ bytes, coins.serialize keys = .ok bytes ∧
      (∀ rest, unserialize keys (bytes ++ rest) = some (coins, rest)) ∧
      coins.getSerializeSize keys = .ok (UInt32.ofNat bytes.length) := by
  have hpruned : coins.isPruned = false := by
    obtain ⟨txout, hmem, halive⟩ := hlive
    rw [isPruned, all_eq_false]
    exact ⟨txout, hmem, by rw [halive]; exact Bool.false_ne_true⟩
  have hpackable : coins.Packable := by
    refine ⟨hheight, hlength, ?_⟩
    intro n txout hout
    obtain ⟨hget, halive⟩ := live_eq_some_iff.mp hout
    exact hvout txout (mem_of_getElem? hget) halive
  obtain ⟨bytes, hbytes, hread⟩ := readsBack_serialize keys hpackable hpruned
  rw [stored_eq_self hclean hspent hversion] at hread
  refine ⟨bytes, hbytes, hread, ?_⟩
  rw [getSerializeSize_eq, hbytes]
  rfl

/-- The second example in the description of the format. -/
def documented : CCoins where
  fCoinBase := true
  vout := replicate 4 .null ++ [⟨234925952, [opDup, opHash160, 20,
      0x61, 0xb0, 0x1c, 0xaa, 0xb5, 0x0f, 0x1b, 0x8e, 0x9c, 0x50, 0xa5, 0x05, 0x7e, 0xb4, 0x3c,
      0x2d, 0x95, 0x63, 0xa4, 0xee,
      opEqualVerify, opCheckSig]⟩] ++
    replicate 11 .null ++ [⟨110397, [opDup, opHash160, 20,
      0x8c, 0x98, 0x8f, 0x1a, 0x4a, 0x4d, 0xe2, 0x16, 0x1e, 0x0f, 0x50, 0xaa, 0xc7, 0xf1, 0x7e,
      0x7f, 0x95, 0x55, 0xca, 0xa4,
      opEqualVerify, opCheckSig]⟩]
  nHeight := 120891
  nVersion := 1

example : (documented.serialize keys).toOption = some
    [0x01, 0x09, 0x04, 0x40, 0x86, 0xef, 0x97, 0xd5, 0x79, 0x00, 0x61, 0xb0, 0x1c, 0xaa, 0xb5,
     0x0f, 0x1b, 0x8e, 0x9c, 0x50, 0xa5, 0x05, 0x7e, 0xb4, 0x3c, 0x2d, 0x95, 0x63, 0xa4, 0xee,
     0xbb, 0xd1, 0x23, 0x00, 0x8c, 0x98, 0x8f, 0x1a, 0x4a, 0x4d, 0xe2, 0x16, 0x1e, 0x0f, 0x50,
     0xaa, 0xc7, 0xf1, 0x7e, 0x7f, 0x95, 0x55, 0xca, 0xa4, 0x86, 0xaf, 0x3b] := by
  decide

theorem unserialize_serialize_documented : ∃ bytes, documented.serialize keys = .ok bytes ∧
      (∀ rest, unserialize keys (bytes ++ rest) = some (documented, rest)) ∧
      documented.getSerializeSize keys = .ok (UInt32.ofNat bytes.length) :=
  unserialize_serialize keys (by decide) (by unfold Clean Trimmed; decide) (by decide)
    (by decide) (by decide) (by decide) (by
      have hall : documented.vout.all (fun txout => txout.isNull ||
          decide (txout.nValue.toUInt64.toNat < CTxOutCompressor.packedLimit ∧
            txout.scriptPubKey.length + CScriptCompressor.nSpecialScripts < 2 ^ 32)) = true := by
        decide
      intro txout hmem halive
      have htxout := all_eq_true.mp hall txout hmem
      rw [halive, Bool.false_or, decide_eq_true_iff] at htxout
      exact ⟨Or.inr htxout.1, htxout.2⟩)

/-- The least amount packed into more than 64 bits is lost, and so is the script of an output that
counts as spent. -/
theorem unserialize_serialize_loses :
    (∃ coins : CCoins, (∃ txout ∈ coins.vout, txout.isNull = false) ∧ coins.Clean ∧
      0 ≤ coins.nVersion.toInt ∧ 0 ≤ coins.nHeight.toInt ∧
      coins.vout = [⟨2049638230412172403, [0x51]⟩] ∧
      (coins.serialize keys).toOption.bind (unserialize keys) =
        some ({ coins with vout := [⟨10000, [0x51]⟩] }, [])) ∧
    ∃ coins : CCoins, (∃ txout ∈ coins.vout, txout.isNull = false) ∧ coins.Clean ∧
      0 ≤ coins.nVersion.toInt ∧ 0 ≤ coins.nHeight.toInt ∧
      coins.vout = [⟨-1, [0x51]⟩, ⟨1000000, [0x51]⟩] ∧
      (coins.serialize keys).toOption.bind (unserialize keys) =
        some ({ coins with vout := [⟨-1, []⟩, ⟨1000000, [0x51]⟩] }, []) := by
  constructor
  · refine ⟨⟨false, [⟨2049638230412172403, [0x51]⟩], 1, 1⟩, by decide, ?_, by decide, by decide,
      rfl, by decide +kernel⟩
    unfold Clean Trimmed
    decide
  · refine ⟨⟨false, [⟨-1, [0x51]⟩, ⟨1000000, [0x51]⟩], 1, 1⟩, by decide, ?_, by decide, by decide,
      rfl, by decide +kernel⟩
    unfold Clean Trimmed
    decide

theorem unspent_stored (coins : CCoins) (n : ℕ) : coins.stored.unspent n = coins.unspent n := by
  rw [stored, unspent_cleanup]
  exact live_canonical isNull_null coins.vout n

theorem clean_stored (coins : CCoins) : coins.stored.Clean := trimmed_trim _

/-- The record after a write and a read; nothing is left of one without unspent outputs. -/
def reload (keys : ECKeys) (coins : CCoins) : Option CCoins :=
  if coins.isPruned then none
  else
    match coins.serialize keys with
    | .error _ => none
    | .ok bytes => (unserialize keys bytes).map Prod.fst

theorem reload_eq (keys : ECKeys) (h : coins.Storable) :
    coins.reload keys = if coins.isPruned then none else some coins.stored := by
  unfold reload
  split
  · rfl
  · rename_i hpruned
    obtain ⟨bytes, hbytes, hread⟩ := readsBack_serialize keys h.packable (by simpa using hpruned)
    have hall := hread []
    rw [append_nil] at hall
    rw [hbytes]
    simp only
    rw [hall]
    rfl

theorem Storable.spent (h : coins.Storable) (n : ℕ) : (coins.spent n).Storable where
  nHeight := h.nHeight
  length := by
    have hle := (List.rdropWhile_prefix isNull (coins.vout.set n .null)).length_le
    rw [length_set] at hle
    exact hle.trans h.length
  vout m txout hout := by
    rw [unspent_spent] at hout
    split_ifs at hout
    exact h.vout m txout hout

theorem storable_ofTransaction {tx : CTransaction} (h : tx.Checked) {nHeight : Int32}
    (hheight : 0 ≤ nHeight.toInt) : (ofTransaction tx nHeight).Storable where
  nHeight := hheight
  length := by
    have hle := tx.length_vout_le.trans h.size_le
    simp only [maxBlockSize] at hle
    simp only [ofTransaction, maxSize]
    omega
  vout n txout hout := by
    have hmem : txout ∈ tx.vout := mem_of_getElem? (live_eq_some_iff.mp hout).1
    have hamount := h.amount txout hmem
    have hle := (CTransaction.length_scriptPubKey_le hmem).trans h.size_le
    refine ⟨(moneyRange_iff _).mpr ⟨by omega, hamount.2⟩, ?_⟩
    simp only [maxBlockSize] at hle
    simp only [maxSize]
    omega

/-- The same unspent outputs, coinbase flag and height, and the same version
unless it was negative. -/
structure Same (before after : CCoins) : Prop where
  fCoinBase : after.fCoinBase = before.fCoinBase
  nHeight : after.nHeight = before.nHeight
  unspent : ∀ n, after.unspent n = before.unspent n
  nVersion : 0 ≤ before.nVersion.toInt → after.nVersion = before.nVersion

theorem Same.refl (coins : CCoins) : Same coins coins := ⟨rfl, rfl, fun _ => rfl, fun _ => rfl⟩

theorem Same.isPruned {before after : CCoins} (h : Same before after) :
    after.isPruned = before.isPruned := by
  rw [Bool.eq_iff_iff, isPruned_iff, isPruned_iff]
  simp only [h.unspent]

theorem same_stored (coins : CCoins) : Same coins coins.stored where
  fCoinBase := rfl
  nHeight := rfl
  unspent := coins.unspent_stored
  nVersion h := by
    simp only [stored, cleanup]
    rw [varIntImage_of_nonneg h, Int32.ofInt_toInt]

end CCoins

namespace CCoinsView

/-- The coins of a transaction; a record without unspent outputs counts as
absent. -/
def entry (view : CCoinsView) (txid : UInt256) : Option CCoins :=
  (view.coins txid).filter fun coins => !coins.isPruned

section Entry

variable {view : CCoinsView} {txid : UInt256} {coins : CCoins}

theorem entry_eq_some_iff :
    view.entry txid = some coins ↔ view.coins txid = some coins ∧ coins.isPruned = false := by
  simp [entry, Option.filter_eq_some_iff]

theorem entry_eq_none_iff : view.entry txid = none ↔ view.Vacant txid := by
  simp only [entry, Option.filter_eq_none_iff, Vacant, Bool.not_eq_eq_eq_not, Bool.not_true,
    Bool.not_eq_false]

theorem entry_setCoins_self (view : CCoinsView) (txid : UInt256) (coins : CCoins) :
    (view.setCoins txid coins).entry txid = if coins.isPruned then none else some coins := by
  rw [entry, coins_setCoins_self, Option.filter_some]
  cases coins.isPruned <;> rfl

theorem entry_setCoins_of_ne {other : UInt256} (h : other ≠ txid) (view : CCoinsView)
    (coins : CCoins) : (view.setCoins txid coins).entry other = view.entry other := by
  rw [entry, coins_setCoins_of_ne h, entry]

end Entry

/-- Some of the records, those not `kept` in memory, have been flushed to the database and read
again. -/
def reload (keys : ECKeys) (kept : UInt256 → Bool) (view : CCoinsView) : CCoinsView where
  coins txid := if kept txid then view.coins txid else (view.coins txid).bind (CCoins.reload keys)
  best := view.best

/-- Every record is one that the format can hold and has a positive height. -/
def Storable (view : CCoinsView) : Prop :=
  ∀ txid coins, view.coins txid = some coins → coins.Storable ∧ 0 < coins.nHeight.toInt

theorem Storable.setCoins {view : CCoinsView} (h : view.Storable) {txid : UInt256} {coins : CCoins}
    (hcoins : coins.Storable) (hheight : 0 < coins.nHeight.toInt) :
    (view.setCoins txid coins).Storable := by
  intro other found hfound
  by_cases heq : other = txid
  · subst heq
    rw [coins_setCoins_self, Option.some.injEq] at hfound
    exact hfound ▸ ⟨hcoins, hheight⟩
  · rw [coins_setCoins_of_ne heq] at hfound
    exact h other found hfound

end CCoinsView

end Primecoin
