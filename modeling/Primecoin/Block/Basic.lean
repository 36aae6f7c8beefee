import Primecoin.Transaction.Basic

/-!
# Block headers, blocks and the block index

The block hash covers the prime chain multiplier; the header hash that proof of work starts from
does not. `mapBlockIndex` owns a `CBlockIndex` under its block hash, so a pointer to one is that
hash here, followed in a `BlockTree`.
-/

namespace Primecoin

open Codec List

/-- `CBigNum::getvch`: sign and magnitude, least significant byte first. The sign is the top bit
of the last byte, which is a byte of its own where the magnitude needs that bit. -/
def bigNumVch (bn : ℤ) : Bytes :=
  if bn = 0 then []
  else
    let nBytes := bn.natAbs.log2 / 8 + 1
    let fExtra := bn.natAbs.log2 % 8 = 7
    let nSign := if bn < 0 then 128 * 256 ^ (if fExtra then nBytes else nBytes - 1) else 0
    leBytes (if fExtra then nBytes + 1 else nBytes) (bn.natAbs + nSign)

structure CBlockHeader where
  nVersion : Int32
  hashPrevBlock : UInt256
  hashMerkleRoot : UInt256
  nTime : UInt32
  nBits : UInt32
  nNonce : UInt32
  bnPrimeChainMultiplier : ℤ
  deriving DecidableEq, Repr

structure CBlock extends CBlockHeader where
  vtx : List CTransaction
  deriving DecidableEq, Repr

namespace CBlockHeader

variable (header : CBlockHeader)

def headerBytes : Bytes :=
  leBytes 4 header.nVersion.toUInt32.toNat ++ leBytes 32 header.hashPrevBlock.toNat ++
    leBytes 32 header.hashMerkleRoot.toNat ++ leBytes 4 header.nTime.toNat ++
    leBytes 4 header.nBits.toNat ++ leBytes 4 header.nNonce.toNat

def serialize : Bytes :=
  header.headerBytes ++ serializeScript (bigNumVch header.bnPrimeChainMultiplier)

def getSerializeSize : ℕ :=
  80 + scriptSerializeSize (bigNumVch header.bnPrimeChainMultiplier)

/-- The hash without the prime certificate. -/
def getHeaderHash (hash : Bytes → UInt256) (header : CBlockHeader) : UInt256 :=
  hash header.headerBytes

/-- The block hash, with the prime certificate. -/
def getHash (hash : Bytes → UInt256) (header : CBlockHeader) : UInt256 := hash header.serialize

def getBlockTime : Int64 := Int64.ofNat header.nTime.toNat

theorem length_headerBytes : header.headerBytes.length = 80 := by
  simp [headerBytes]

theorem length_serialize : header.serialize.length = header.getSerializeSize := by
  simp [serialize, getSerializeSize, length_headerBytes, length_serializeScript]

theorem hashMerkleRoot_eq_of_headerBytes_eq {header other : CBlockHeader}
    (h : header.headerBytes = other.headerBytes) :
    header.hashMerkleRoot = other.hashMerkleRoot := by
  simp only [headerBytes, append_assoc] at h
  have hafter := (append_inj h (by simp)).2
  have hroot := (append_inj (append_inj hafter (by simp)).2 (by simp)).1
  apply BitVec.eq_of_toNat_eq
  exact leBytes_inj header.hashMerkleRoot.isLt other.hashMerkleRoot.isLt hroot

end CBlockHeader

namespace CBlock

variable (block : CBlock)

def serialize : Bytes :=
  block.toCBlockHeader.serialize ++
    (writeCompactSize block.vtx.length ++ block.vtx.flatMap CTransaction.serialize)

def getSerializeSize : ℕ :=
  block.toCBlockHeader.getSerializeSize +
    (getSizeOfCompactSize block.vtx.length + (block.vtx.map CTransaction.getSerializeSize).sum)

theorem length_serialize : block.serialize.length = block.getSerializeSize := by
  have hvtx : block.vtx.map (fun tx => tx.serialize.length) =
      block.vtx.map CTransaction.getSerializeSize :=
    map_congr_left fun tx _ => tx.length_serialize
  simp only [serialize, getSerializeSize, length_append, CBlockHeader.length_serialize,
    length_writeCompactSize, length_flatMap, hvtx]

theorem length_vtx_le : block.vtx.length ≤ block.getSerializeSize := by
  have hsum := length_le_sum_of_one_le (block.vtx.map CTransaction.getSerializeSize) (by
    intro n hn
    obtain ⟨tx, -, rfl⟩ := mem_map.mp hn
    rw [CTransaction.getSerializeSize]
    omega)
  rw [length_map] at hsum
  rw [getSerializeSize]
  omega

end CBlock

structure CDiskBlockPos where
  nFile : Int32
  nPos : UInt32
  deriving DecidableEq, Repr

namespace CDiskBlockPos

def null : CDiskBlockPos := ⟨-1, 0⟩

def isNull (pos : CDiskBlockPos) : Bool := pos.nFile = -1

end CDiskBlockPos

/-! The bits of `nStatus` (`enum BlockStatus`). -/

def blockValidTransactions : UInt32 := 3
def blockValidScripts : UInt32 := 5
def blockValidMask : UInt32 := 7
def blockHaveData : UInt32 := 8
def blockHaveUndo : UInt32 := 16
def blockFailedValid : UInt32 := 32
def blockFailedChild : UInt32 := 64
def blockFailedMask : UInt32 := 96

theorem or_and_of_disjoint (s : UInt32) {b m : UInt32} (h : b &&& m = 0) :
    (s ||| b) &&& m = s &&& m := by
  have hbits := congrArg UInt32.toBitVec h
  rw [← UInt32.toBitVec_inj]
  simp only [UInt32.toBitVec_and, UInt32.toBitVec_or] at hbits ⊢
  rw [BitVec.and_or_distrib_right, hbits]
  exact BitVec.or_zero

theorem and_not_and_of_disjoint (s : UInt32) {b m : UInt32} (h : b &&& m = 0) :
    s &&& ~~~b &&& m = s &&& m := by
  have hm : ~~~b &&& m = m := by
    rw [← UInt32.toBitVec_inj]
    have hbits := congrArg UInt32.toBitVec h
    simp only [UInt32.toBitVec_and, UInt32.toBitVec_not] at hbits ⊢
    ext i hi
    have hbit := congrArg (fun v : BitVec 32 => v[i]) hbits
    simp only [BitVec.getElem_and, BitVec.getElem_not] at hbit ⊢
    cases hb : b.toBitVec[i] <;> simp_all
  rw [UInt32.and_assoc, hm]

theorem or_and_self (s m : UInt32) : (s ||| m) &&& m = m := by
  rw [← UInt32.toBitVec_inj, UInt32.toBitVec_and, UInt32.toBitVec_or]
  ext i hi
  rw [BitVec.getElem_and, BitVec.getElem_or]
  cases m.toBitVec[i] <;> simp

theorem validScripts_and_of_disjoint (s : UInt32) {m : UInt32} (h : blockValidMask &&& m = 0)
    (hscripts : blockValidScripts &&& m = 0) :
    (s &&& ~~~blockValidMask ||| blockValidScripts) &&& m = s &&& m := by
  rw [or_and_of_disjoint _ hscripts, and_not_and_of_disjoint s h]

structure CBlockIndex where
  phashBlock : Option UInt256
  pprev : Option UInt256
  pnext : Option UInt256
  nHeight : Int32
  nFile : Int32
  nDataPos : UInt32
  nUndoPos : UInt32
  nChainWork : UInt256
  nMoneySupply : Int64
  nStatus : UInt32
  nVersion : Int32
  hashMerkleRoot : UInt256
  nTime : UInt32
  nBits : UInt32
  nNonce : UInt32
  deriving DecidableEq, Repr

/-- `mapBlockIndex`. -/
abbrev BlockTree := UInt256 → Option CBlockIndex

namespace CBlockIndex

variable (pindex : CBlockIndex)

def getBlockPos : CDiskBlockPos :=
  if pindex.nStatus &&& blockHaveData ≠ 0 then ⟨pindex.nFile, pindex.nDataPos⟩ else .null

def getUndoPos : CDiskBlockPos :=
  if pindex.nStatus &&& blockHaveUndo ≠ 0 then ⟨pindex.nFile, pindex.nUndoPos⟩ else .null

def getBlockTime : Int64 := Int64.ofNat pindex.nTime.toNat

def isFailed : Bool := pindex.nStatus &&& blockFailedMask ≠ 0

end CBlockIndex

def genesisTransaction : CTransaction where
  nVersion := 1
  vin := [⟨⟨0, 0xffffffff⟩, [0, 2, 231, 3, 76, 93, 83, 117, 110, 110, 121, 32, 75, 105, 110, 103,
    32, 45, 32, 100, 101, 100, 105, 99, 97, 116, 101, 100, 32, 116, 111, 32, 83, 97, 116, 111,
    115, 104, 105, 32, 78, 97, 107, 97, 109, 111, 116, 111, 32, 97, 110, 100, 32, 97, 108, 108,
    32, 119, 104, 111, 32, 104, 97, 118, 101, 32, 102, 111, 117, 103, 104, 116, 32, 102, 111,
    114, 32, 116, 104, 101, 32, 102, 114, 101, 101, 100, 111, 109, 32, 111, 102, 32, 109, 97,
    110, 107, 105, 110, 100], 0xffffffff⟩]
  vout := [⟨coin, []⟩]
  nLockTime := 0

def genesisBlock (network : Network) : CBlock where
  nVersion := 2
  hashPrevBlock := 0
  hashMerkleRoot := 0xaca30eb61dffbb9412d0ae743c3d74554f710853daec40ebd2514e830e05c9ff
  nTime := match network with
    | .official => 1373064429
    | .testNet => 1373063882
  nBits := 0x06000000
  nNonce := match network with
    | .official => 383
    | .testNet => 1513
  bnPrimeChainMultiplier := match network with
    | .official => 532541 * (2 * 3 * 5 * 7 * 11 * 13 * 17 * 19 * 23)
    | .testNet => 585641 * (2 * 3 * 5 * 7 * 11 * 13 * 17 * 19 * 23)
  vtx := [genesisTransaction]

end Primecoin
