import Primecoin.Serialize.Integer
import Primecoin.Script.Op

/-!
# Transactions

Outpoints, inputs, outputs and transactions, with the bytes they serialize to and the size
`GetSerializeSize` computes. A transaction id is the double SHA-256 of the serialization; the hash
function is the parameter `hash` throughout.
-/

namespace Primecoin

open Codec List

structure COutPoint where
  hash : UInt256
  n : UInt32
  deriving DecidableEq, Repr

structure CTxIn where
  prevout : COutPoint
  scriptSig : CScript
  nSequence : UInt32
  deriving DecidableEq, Repr

structure CTxOut where
  nValue : Int64
  scriptPubKey : CScript
  deriving DecidableEq, Repr

structure CTransaction where
  nVersion : Int32
  vin : List CTxIn
  vout : List CTxOut
  nLockTime : UInt32
  deriving DecidableEq, Repr

variable (script : CScript)

def serializeScript : Bytes :=
  writeCompactSize script.length ++ script

def scriptSerializeSize : ℕ :=
  getSizeOfCompactSize script.length + script.length

theorem length_serializeScript : (serializeScript script).length = scriptSerializeSize script := by
  simp [serializeScript, scriptSerializeSize, length_writeCompactSize]

namespace COutPoint

def isNull (o : COutPoint) : Bool := o.hash = 0 && o.n = 0xffffffff

def serialize (o : COutPoint) : Bytes := leBytes 32 o.hash.toNat ++ leBytes 4 o.n.toNat

end COutPoint

namespace CTxIn

variable (txin : CTxIn)

def isFinal : Bool := txin.nSequence = 0xffffffff

def serialize : Bytes :=
  txin.prevout.serialize ++ serializeScript txin.scriptSig ++ leBytes 4 txin.nSequence.toNat

def getSerializeSize : ℕ := 36 + scriptSerializeSize txin.scriptSig + 4

theorem length_serialize : txin.serialize.length = txin.getSerializeSize := by
  simp only [serialize, COutPoint.serialize, getSerializeSize, length_append,
    length_leBytes, length_serializeScript]

end CTxIn

namespace CTxOut

/-- The value `SetNull` leaves: a spent output. -/
def null : CTxOut := ⟨-1, []⟩

variable (txout : CTxOut)

def isNull : Bool := txout.nValue = -1

def serialize : Bytes :=
  leBytes 8 txout.nValue.toUInt64.toNat ++ serializeScript txout.scriptPubKey

def getSerializeSize : ℕ := 8 + scriptSerializeSize txout.scriptPubKey

@[simp] theorem isNull_null : null.isNull = true := rfl

theorem length_serialize : txout.serialize.length = txout.getSerializeSize := by
  simp [serialize, getSerializeSize, length_serializeScript]

end CTxOut

namespace CTransaction

variable (tx : CTransaction)

def serialize : Bytes :=
  leBytes 4 tx.nVersion.toUInt32.toNat ++
    (writeCompactSize tx.vin.length ++ tx.vin.flatMap CTxIn.serialize) ++
    (writeCompactSize tx.vout.length ++ tx.vout.flatMap CTxOut.serialize) ++
    leBytes 4 tx.nLockTime.toNat

def getSerializeSize : ℕ :=
  4 + (getSizeOfCompactSize tx.vin.length + (tx.vin.map CTxIn.getSerializeSize).sum) +
    (getSizeOfCompactSize tx.vout.length + (tx.vout.map CTxOut.getSerializeSize).sum) + 4

theorem length_serialize : tx.serialize.length = tx.getSerializeSize := by
  have hvin : tx.vin.map (fun txin => txin.serialize.length) =
      tx.vin.map CTxIn.getSerializeSize := map_congr_left fun txin _ => txin.length_serialize
  have hvout : tx.vout.map (fun txout => txout.serialize.length) =
      tx.vout.map CTxOut.getSerializeSize :=
    map_congr_left fun txout _ => txout.length_serialize
  simp only [serialize, getSerializeSize, length_append, length_leBytes,
    length_writeCompactSize, length_flatMap, hvin, hvout]

theorem length_vin_le : tx.vin.length ≤ tx.getSerializeSize := by
  have hsum := length_le_sum_of_one_le (tx.vin.map CTxIn.getSerializeSize) (by
    intro n hn
    obtain ⟨txin, -, rfl⟩ := mem_map.mp hn
    rw [CTxIn.getSerializeSize]
    omega)
  rw [length_map] at hsum
  rw [getSerializeSize]
  omega

theorem length_vout_le : tx.vout.length ≤ tx.getSerializeSize := by
  have hsum := length_le_sum_of_one_le (tx.vout.map CTxOut.getSerializeSize) (by
    intro n hn
    obtain ⟨txout, -, rfl⟩ := mem_map.mp hn
    rw [CTxOut.getSerializeSize]
    omega)
  rw [length_map] at hsum
  rw [getSerializeSize]
  omega

theorem length_scriptPubKey_le {tx : CTransaction} {txout : CTxOut} (h : txout ∈ tx.vout) :
    txout.scriptPubKey.length ≤ tx.getSerializeSize := by
  have hsum := le_sum_of_mem (mem_map_of_mem (f := CTxOut.getSerializeSize) h)
  rw [CTxOut.getSerializeSize, scriptSerializeSize] at hsum
  rw [getSerializeSize]
  omega

def getHash (hash : Bytes → UInt256) (tx : CTransaction) : UInt256 := hash tx.serialize

def isCoinBase : Bool :=
  match tx.vin with
  | [txin] => txin.prevout.isNull
  | _ => false

/-- The caller passes `nBestHeight` and the adjusted time where the source defaults to them. -/
def isFinal (nBlockHeight : Int32) (nBlockTime : Int64) : Bool :=
  if tx.nLockTime = 0 then true
  else if (tx.nLockTime.toNat : ℤ) <
      (if tx.nLockTime < 500000000 then nBlockHeight.toInt else nBlockTime.toInt) then true
  else tx.vin.all CTxIn.isFinal

def getValueOutLoop : List CTxOut → Int64 → Except Failure Int64
  | [], nValueOut => .ok nValueOut
  | txout :: vout, nValueOut =>
    let nValueOut := nValueOut + txout.nValue
    if !moneyRange txout.nValue || !moneyRange nValueOut then
      .error (.exception "CTransaction::GetValueOut() : value out of range")
    else getValueOutLoop vout nValueOut

def getValueOut : Except Failure Int64 := getValueOutLoop tx.vout 0

def getLegacySigOpCount : ℕ :=
  (tx.vin.map fun txin => getSigOpCount false txin.scriptSig).sum +
    (tx.vout.map fun txout => getSigOpCount false txout.scriptPubKey).sum

end CTransaction

end Primecoin
