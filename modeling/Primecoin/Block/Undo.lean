import Primecoin.Coins.Serialize

/-!
# Undo data on disk

`CBlockUndo` holds what a block spent: a vector of `CTxInUndo` for every transaction but the
coinbase. The height and the coinbase flag share a `VARINT`, and the version is written only with
a height, that is when the last output of the transaction was spent.

The record on disk ends with a checksum over the hash of the parent block and the data.
`ReadFromDisk` computes it from what it has read, which may differ in negative versions but
serializes to the same bytes.
-/

namespace Primecoin

open Codec

namespace CTxInUndo

/-- The height and the coinbase flag in one `unsigned int`. -/
def nCode (undo : CTxInUndo) : UInt32 := undo.nHeight * 2 + if undo.fCoinBase then 1 else 0

variable (keys : ECKeys) (undo : CTxInUndo)

def serialize : Bytes :=
  writeVarInt .uint32 undo.nCode.toNat ++
    ((if 0 < undo.nHeight then writeVarInt .int32 undo.nVersion.toInt else []) ++
      CTxOutCompressor.serialize keys undo.txout)

def getSerializeSize : UInt32 :=
  UInt32.ofNat (getSizeOfVarInt undo.nCode.toNat) +
    (if 0 < undo.nHeight then UInt32.ofNat (getSizeOfVarInt undo.nVersion.toInt) else 0) +
    CTxOutCompressor.getSerializeSize keys undo.txout

/-- Reads into a fresh object, whose version is zero. -/
def unserialize : Reader UInt8 CTxInUndo := do
  let nCode ← readVarNat .uint32
  let nHeight := UInt32.ofNat nCode / 2
  let nVersion ← if 0 < nHeight then readVarInt .int32 else pure 0
  let txout ← CTxOutCompressor.unserialize keys
  pure ⟨txout, nCode.testBit 0, nHeight, Int32.ofInt nVersion⟩

def stored : CTxInUndo :=
  { undo with
    nVersion := if 0 < undo.nHeight then Int32.ofInt (varIntImage undo.nVersion.toInt) else 0 }

structure Storable (undo : CTxInUndo) : Prop where
  txout : CTxOutCompressor.Storable undo.txout
  nHeight : undo.nHeight.toNat < 2 ^ 31

theorem nCode_eq {undo : CTxInUndo} (h : undo.nHeight.toNat < 2 ^ 31) :
    UInt32.ofNat undo.nCode.toNat / 2 = undo.nHeight ∧
      undo.nCode.toNat.testBit 0 = undo.fCoinBase := by
  rw [UInt32.ofNat_toNat, ← UInt32.toNat_inj, Nat.testBit_zero, nCode]
  cases undo.fCoinBase
  · simp only [Bool.false_eq_true, if_false, UInt32.toNat_div, UInt32.toNat_add, UInt32.toNat_mul,
      UInt32.reduceToNat]
    constructor
    · omega
    · rw [decide_eq_false_iff_not]
      omega
  · simp only [if_true, UInt32.toNat_div, UInt32.toNat_add, UInt32.toNat_mul, UInt32.reduceToNat]
    constructor
    · omega
    · rw [decide_eq_true_iff]
      omega

theorem readsBack_serialize {undo : CTxInUndo} (h : undo.Storable) :
    ReadsBack (unserialize keys) (undo.serialize keys) undo.stored := by
  obtain ⟨hheight, hbase⟩ := nCode_eq h.nHeight
  have htxout := CTxOutCompressor.readsBack_serialize keys h.txout.packable
  apply (readsBack_readVarNat .uint32 ?_).bind
  · simp only [hheight, hbase]
    unfold stored
    split_ifs with hpos
    · apply (readsBack_writeVarInt .int32 ?_).bind
      · exact htxout.map fun txout => (⟨txout, undo.fCoinBase, undo.nHeight, _⟩ : CTxInUndo)
      · have hlt := undo.nVersion.toInt_lt
        simp only [IntType.max]
        omega
    · exact (ReadsBack.pure 0).bind
        (htxout.map fun txout => (⟨txout, undo.fCoinBase, undo.nHeight, _⟩ : CTxInUndo))
  · have hlt := undo.nCode.toNat_lt
    simp only [IntType.max]
    omega

theorem serialize_stored : undo.stored.serialize keys = undo.serialize keys := by
  have hversion : (Int32.ofInt (varIntImage undo.nVersion.toInt)).toInt =
      varIntImage undo.nVersion.toInt := by
    have hlt := undo.nVersion.toInt_lt
    have hnonneg := varIntImage_nonneg undo.nVersion.toInt
    apply Int32.toInt_ofInt_of_le
    · exact le_trans (by decide) hnonneg
    · unfold varIntImage
      split_ifs <;> omega
  have hcode : undo.stored.nCode = undo.nCode := rfl
  rw [serialize, serialize, hcode]
  simp only [stored]
  split_ifs with hpos
  · rw [hversion, writeVarInt_varIntImage]
  · rfl

/-- A record with a height and no negative version comes back as it was, and so does one without a
height whose version was never set. -/
theorem stored_eq_self {undo : CTxInUndo} (hset : 0 < undo.nHeight → 0 ≤ undo.nVersion.toInt)
    (hunset : undo.nHeight = 0 → undo.nVersion = 0) : undo.stored = undo := by
  have hversion : (if 0 < undo.nHeight then Int32.ofInt (varIntImage undo.nVersion.toInt) else 0) =
      undo.nVersion := by
    split_ifs with hpos
    · rw [varIntImage_of_nonneg (hset hpos), Int32.ofInt_toInt]
    · rw [UInt32.pos_iff_ne_zero, not_not] at hpos
      exact (hunset hpos).symm
  rw [stored, hversion]

theorem getSerializeSize_eq :
    undo.getSerializeSize keys = UInt32.ofNat (undo.serialize keys).length := by
  have hcode := undo.nCode.toNat_lt
  have hversion := undo.nVersion.toInt_lt
  rw [getSerializeSize, serialize, List.length_append, List.length_append,
    CTxOutCompressor.getSerializeSize_eq,
    length_writeVarInt .uint32 (by simp only [IntType.max]; omega), UInt32.ofNat_add,
    UInt32.ofNat_add, ← UInt32.add_assoc]
  split_ifs
  · rw [length_writeVarInt .int32 (by simp only [IntType.max]; omega)]
  · rfl

end CTxInUndo

namespace CBlockUndo

variable (keys : ECKeys) (vtxundo : List (List CTxInUndo))

def serialize : Bytes :=
  writeVector (writeVector (CTxInUndo.serialize keys)) vtxundo

def unserialize : Reader UInt8 (List (List CTxInUndo)) :=
  readVector (readVector (CTxInUndo.unserialize keys))

def getSerializeSize : UInt32 :=
  getSerializeSizeVector (getSerializeSizeVector (CTxInUndo.getSerializeSize keys)) vtxundo

theorem getSerializeSize_eq :
    getSerializeSize keys vtxundo = UInt32.ofNat (serialize keys vtxundo).length :=
  getSerializeSizeVector_eq (getSerializeSizeVector_eq (CTxInUndo.getSerializeSize_eq keys)) vtxundo

variable (hash : Bytes → UInt256) (hashBlock : UInt256)

/-- `hasher << hashBlock << *this` -/
def checksum (vtxundo : List (List CTxInUndo)) : UInt256 :=
  hash (leBytes 32 hashBlock.toNat ++ serialize keys vtxundo)

/-- What is left at the position returned, which is behind the message start and the size. -/
def writeToDisk (vtxundo : List (List CTxInUndo)) : Bytes :=
  serialize keys vtxundo ++ leBytes 32 (checksum keys hash hashBlock vtxundo).toNat

/-- The data and the checksum, as they stand in the file. -/
def readRecord : Reader UInt8 (List (List CTxInUndo) × ℕ) := do
  let vtxundo ← unserialize keys
  let hashChecksum ← readLE 32
  pure (vtxundo, hashChecksum)

/-- Given what the file holds from the position on, or `none` if it cannot be opened. -/
def readFromDisk : Option Bytes → Except Failure (List (List CTxInUndo))
  | none => .error (.error "CBlockUndo::ReadFromDisk() : OpenBlockFile failed")
  | some file =>
    match readRecord keys file with
    | none => .error (.error "%s() : deserialize or I/O error")
    | some ((vtxundo, hashChecksum), _) =>
      if hashChecksum ≠ (checksum keys hash hashBlock vtxundo).toNat then
        .error (.error "CBlockUndo::ReadFromDisk() : checksum mismatch")
      else .ok vtxundo

structure Storable (vtxundo : List (List CTxInUndo)) : Prop where
  length : vtxundo.length ≤ maxSize
  vprevout : ∀ vprevout ∈ vtxundo, vprevout.length ≤ maxSize ∧ ∀ undo ∈ vprevout, undo.Storable

def stored : List (List CTxInUndo) :=
  vtxundo.map (List.map CTxInUndo.stored)

theorem serialize_stored : serialize keys (stored vtxundo) = serialize keys vtxundo :=
  writeVector_map (writeVector_map (CTxInUndo.serialize_stored keys)) vtxundo

theorem readsBack_serialize {vtxundo : List (List CTxInUndo)} (h : Storable vtxundo) :
    ReadsBack (unserialize keys) (serialize keys vtxundo) (stored vtxundo) :=
  readsBack_writeVector _ h.length fun vprevout hmem =>
    readsBack_writeVector _ (h.vprevout vprevout hmem).1 fun undo hundo =>
      CTxInUndo.readsBack_serialize keys ((h.vprevout vprevout hmem).2 undo hundo)

/-- What was written for a block is accepted for it, whatever follows in the file. -/
theorem readFromDisk_writeToDisk
    {vtxundo : List (List CTxInUndo)} (h : Storable vtxundo) (rest : Bytes) :
    readFromDisk keys hash hashBlock (some (writeToDisk keys hash hashBlock vtxundo ++ rest)) =
      .ok (stored vtxundo) := by
  have hundo := readsBack_serialize keys h
  have hsame : checksum keys hash hashBlock (stored vtxundo) =
      checksum keys hash hashBlock vtxundo := by
    rw [checksum, serialize_stored, checksum]
  set sum := checksum keys hash hashBlock vtxundo
  have hsum : ReadsBack (readLE 32) (leBytes 32 sum.toNat) sum.toNat :=
    ReadsBack.leBytes (lt_of_lt_of_eq sum.isLt (by norm_num))
  have hread : readRecord keys (writeToDisk keys hash hashBlock vtxundo ++ rest) =
      some ((stored vtxundo, sum.toNat), rest) :=
    (hundo.bind (hsum.map (Prod.mk (stored vtxundo)))) rest
  rw [readFromDisk, hread]
  simp only
  rw [hsame, if_neg (not_not.mpr rfl)]

end CBlockUndo

end Primecoin
