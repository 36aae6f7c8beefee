import Primecoin.Script.Op

/-!
# Building and editing scripts

Appending the push of a byte vector, deleting the occurrences of a script at instruction
boundaries, and the test for scripts that only push.
-/

namespace Primecoin

open Codec

/-- `operator<<` with a byte vector; a vector has fewer than `2 ^ 32` bytes. -/
def pushData (b : Bytes) : CScript :=
  if b.length < 0x4c then UInt8.ofNat b.length :: b
  else if b.length ≤ 0xff then opPushData1 :: (leBytes 1 b.length ++ b)
  else if b.length ≤ 0xffff then opPushData2 :: (leBytes 2 b.length ++ b)
  else opPushData4 :: (leBytes 4 b.length ++ b)

/-- Where `b` stands at the cursor it is erased and the cursor stays; otherwise the cursor moves
over an instruction, and what cannot be read is kept. The number of occurrences, which no caller
reads, is left out. -/
def findAndDeleteLoop (b : CScript) : ℕ → CScript → CScript
  | 0, pc => pc
  | k + 1, pc =>
    if b.isPrefixOf pc then findAndDeleteLoop b k (pc.drop b.length)
    else
      let r := getOp pc
      if r.fRet then
        pc.take (pc.length - r.pc.length) ++ findAndDeleteLoop b k r.pc
      else pc

def findAndDelete (b script : CScript) : CScript :=
  if b = [] then script else findAndDeleteLoop b (script.length + 1) script

def isPushOnlyLoop : ℕ → CScript → Bool
  | 0, _ => true
  | k + 1, pc =>
    if pc = [] then true
    else
      let r := getOp pc
      if !r.fRet then false
      else if op16 < r.opcodeRet then false
      else isPushOnlyLoop k r.pc

def isPushOnly (script : CScript) : Bool := isPushOnlyLoop script.length script

theorem length_getOp_pc_le (script : CScript) : (getOp script).pc.length ≤ script.length := by
  cases script with
  | nil => exact le_rfl
  | cons opcode pc =>
    simp only [getOp]
    split_ifs <;> simp <;> omega

theorem length_findAndDeleteLoop_le (b : CScript) (k : ℕ) (pc : CScript) :
    (findAndDeleteLoop b k pc).length ≤ pc.length := by
  induction k generalizing pc with
  | zero => exact le_rfl
  | succ k ih =>
    simp only [findAndDeleteLoop]
    split_ifs
    · have hrest := ih (pc.drop b.length)
      rw [List.length_drop] at hrest
      omega
    · have hrest := ih (getOp pc).pc
      have hle := length_getOp_pc_le pc
      rw [List.length_append, List.length_take]
      omega
    · exact le_rfl

theorem length_findAndDelete_le (b script : CScript) :
    (findAndDelete b script).length ≤ script.length := by
  rw [findAndDelete]
  split_ifs
  · exact le_rfl
  · exact length_findAndDeleteLoop_le b _ script

end Primecoin
