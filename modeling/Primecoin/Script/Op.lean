import Primecoin.Basic
import Primecoin.Codec.LittleEndian

/-!
# Reading script instructions

`getOp` is `CScript::GetOp2`: it splits the first instruction off a script. A cursor is the bytes
that remain from it, so it is advanced by dropping a prefix. The signature-operation counts of
`script.cpp` are loops over `getOp`.
-/

namespace Primecoin

open Codec

def opPushData1 : UInt8 := 0x4c
def opPushData2 : UInt8 := 0x4d
def opPushData4 : UInt8 := 0x4e
def op1 : UInt8 := 0x51
def op16 : UInt8 := 0x60
def opDup : UInt8 := 0x76
def opEqual : UInt8 := 0x87
def opEqualVerify : UInt8 := 0x88
def opHash160 : UInt8 := 0xa9
def opCheckSig : UInt8 := 0xac
def opCheckSigVerify : UInt8 := 0xad
def opCheckMultiSig : UInt8 := 0xae
def opCheckMultiSigVerify : UInt8 := 0xaf
def opInvalidOpcode : UInt8 := 0xff

/-- The verdict, the opcode, the pushed bytes and the bytes after the cursor. -/
structure GetOpResult where
  fRet : Bool
  opcodeRet : UInt8
  vchRet : Bytes
  pc : CScript
  deriving DecidableEq, Repr

def pushLengthSize (opcode : UInt8) : ℕ :=
  if opcode < opPushData1 then 0
  else if opcode = opPushData1 then 1
  else if opcode = opPushData2 then 2
  else 4

def getOp : CScript → GetOpResult
  | [] => ⟨false, opInvalidOpcode, [], []⟩
  | opcode :: pc =>
    if opcode ≤ opPushData4 then
      let w := pushLengthSize opcode
      -- the length field itself is cut off: the cursor stays behind the opcode
      if pc.length < w then ⟨false, opInvalidOpcode, [], pc⟩
      else
        let nSize := if w = 0 then opcode.toNat else leNat (pc.take w)
        let pc := pc.drop w
        -- the number of bytes left is cast to an `unsigned int`
        if pc.length % 2 ^ 32 < nSize then ⟨false, opInvalidOpcode, [], pc⟩
        else ⟨true, opcode, pc.take nSize, pc.drop nSize⟩
    else ⟨true, opcode, [], pc⟩

def decodeOpN (opcode : UInt8) : ℕ :=
  if opcode = 0 then 0 else opcode.toNat - (op1.toNat - 1)

/-- The loop of `GetSigOpCount(bool)`. Every instruction shortens the script, so its length bounds
the rounds. -/
def getSigOpCountLoop (fAccurate : Bool) : ℕ → CScript → (lastOpcode : UInt8) → ℕ → ℕ
  | 0, _, _, n => n
  | k + 1, script, lastOpcode, n =>
    if script = [] then n
    else
      let r := getOp script
      if !r.fRet then n
      else
        let cost :=
          if r.opcodeRet = opCheckSig ∨ r.opcodeRet = opCheckSigVerify then 1
          else if r.opcodeRet = opCheckMultiSig ∨ r.opcodeRet = opCheckMultiSigVerify then
            if fAccurate ∧ op1 ≤ lastOpcode ∧ lastOpcode ≤ op16 then decodeOpN lastOpcode
            else 20
          else 0
        getSigOpCountLoop fAccurate k r.pc r.opcodeRet (n + cost)

def getSigOpCount (fAccurate : Bool) (script : CScript) : ℕ :=
  getSigOpCountLoop fAccurate script.length script opInvalidOpcode 0

def isPayToScriptHash (script : CScript) : Bool :=
  script.length = 23 && script[0]? = some opHash160 && script[1]? = some 0x14 &&
    script[22]? = some opEqual

/-- The last data pushed by a push-only `scriptSig`; `none` when an instruction is cut off or not
a push. -/
def lastPush : ℕ → CScript → Bytes → Option Bytes
  | 0, _, data => some data
  | k + 1, script, data =>
    if script = [] then some data
    else
      let r := getOp script
      if !r.fRet then none
      else if op16 < r.opcodeRet then none
      else lastPush k r.pc r.vchRet

/-- `CScript::GetSigOpCount(const CScript& scriptSig)`. -/
def getScriptHashSigOpCount (scriptPubKey scriptSig : CScript) : ℕ :=
  if !isPayToScriptHash scriptPubKey then getSigOpCount true scriptPubKey
  else
    match lastPush scriptSig.length scriptSig [] with
    | none => 0
    | some data => getSigOpCount true data

/-- The loops above reach the end of the script within their bound. -/
theorem length_getOp_pc_lt (script : CScript) (h : (getOp script).fRet = true) :
    (getOp script).pc.length < script.length := by
  cases script with
  | nil => simp [getOp] at h
  | cons opcode pc =>
    simp only [getOp] at h ⊢
    split_ifs at h ⊢ <;> simp at h ⊢

/-- A loop that takes off what `GetOp` reads needs no more rounds than there are bytes. -/
theorem rounds_congr {β : Type} {loop : ℕ → CScript → β} (hnil : ∀ k, loop k [] = loop 0 [])
    (hstep : ∀ k k' pc, ((getOp pc).fRet = true → loop k (getOp pc).pc = loop k' (getOp pc).pc) →
      loop (k + 1) pc = loop (k' + 1) pc) {k k' : ℕ} {pc : CScript} (hk : pc.length ≤ k)
    (hk' : pc.length ≤ k') : loop k pc = loop k' pc := by
  induction k generalizing k' pc with
  | zero => rw [List.length_eq_zero_iff.mp (Nat.le_zero.mp hk), hnil k']
  | succ k ih =>
    cases k' with
    | zero => rw [List.length_eq_zero_iff.mp (Nat.le_zero.mp hk'), hnil]
    | succ k' =>
      refine hstep k k' pc fun hret => ?_
      have hlt := length_getOp_pc_lt pc hret
      exact ih (by omega) (by omega)

end Primecoin
