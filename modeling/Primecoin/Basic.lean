import Mathlib.Tactic
import Mathlib.Data.FinEnum

/-!
# Base types and constants

The fixed-width types, the monetary constants, the two networks, and the ways a validation
function can fail.

A source function that returns `bool` and records its verdict in a `CValidationState` is a
function into `Except Failure α`. The constructor of `Failure` is the call on the failing path,
with the format string it logs, and determines the effect on the state
(`CValidationState.record`). Where a caller passes a verdict on, the failure is that of the
callee.
-/

namespace Primecoin

/-- `uint256`: hashes, transaction ids and accumulated chain work. -/
abbrev UInt256 := BitVec 256

abbrev Bytes := List UInt8

/-- A byte vector; its instructions are read by `getOp`. -/
abbrev CScript := List UInt8

/-- The network selected at start-up by `-testnet`. -/
inductive Network
  | official
  | testNet
  deriving DecidableEq, Repr

def coin : Int64 := 100000000
def cent : Int64 := 1000000
def maxMoney : Int64 := 2000000000 * coin
def minTxFee : Int64 := cent
def minTxOutAmount : Int64 := minTxFee

def moneyRange (nValue : Int64) : Bool := 0 ≤ nValue && nValue ≤ maxMoney

def maxBlockSize : ℕ := 1000000
def maxBlockSizeGen : ℕ := maxBlockSize / 2
def maxBlockSigops : ℕ := maxBlockSize / 50
def coinbaseMaturity : Int32 := 3000
def mempoolHeight : Int32 := 0x7FFFFFFF

/-- Largest container the stream format accepts (`MAX_SIZE`). -/
def maxSize : ℕ := 0x02000000

def pchMessageStart : Network → Bytes
  | .official => [0xe4, 0xe7, 0xe5, 0xe7]
  | .testNet => [0xfb, 0xfe, 0xcb, 0xc3]

def hashGenesisBlock : Network → UInt256
  | .official => 0x963d17ba4dc753138078a2f56afb3af9674e2546822badff26837db9a0152106
  | .testNet => 0x221156cf301bc3585e72de34fe1efdb6fbd703bc27cfc468faa1cdd889d0efa0

theorem moneyRange_iff (nValue : Int64) :
    moneyRange nValue = true ↔ 0 ≤ nValue.toInt ∧ nValue.toInt ≤ 200000000000000000 := by
  simp [moneyRange, Int64.le_iff_toInt_le, show maxMoney.toInt = 200000000000000000 by decide]

theorem toInt_max (a b : Int64) : (max a b).toInt = max a.toInt b.toInt := by
  change (if a ≤ b then b else a).toInt = _
  split_ifs with h
  · rw [max_eq_right (Int64.le_iff_toInt_le.mp h)]
  · rw [Int64.le_iff_toInt_le, not_le] at h
    rw [max_eq_left h.le]

theorem toInt_min (a b : Int64) : (min a b).toInt = min a.toInt b.toInt := by
  change (if a ≤ b then a else b).toInt = _
  split_ifs with h
  · rw [min_eq_left (Int64.le_iff_toInt_le.mp h)]
  · rw [Int64.le_iff_toInt_le, not_le] at h
    rw [min_eq_right h.le]

/-- How a validation function leaves: by a call on its `CValidationState`, a bare `return
error(..)`, an exception, a failed `assert`, or a pointer or index that leads nowhere. -/
inductive Failure
  | dos (level : ℕ) (message : String) (corruption : Bool)
  | invalid (message : String)
  | error (message : String)
  | abort (message : String)
  | exception (message : String)
  | assertion (expression : String)
  | fault (expression : String)
  deriving DecidableEq, Repr

def Failure.isAssertion : Failure → Bool
  | .assertion _ => true
  | _ => false

def Failure.isCrash : Failure → Bool
  | .assertion _ => true
  | .fault _ => true
  | _ => false

inductive ModeState
  | valid
  | invalid
  | error
  deriving DecidableEq, Repr

structure CValidationState where
  mode : ModeState
  nDoS : ℕ
  corruptionPossible : Bool
  deriving DecidableEq, Repr

namespace CValidationState

def init : CValidationState := ⟨.valid, 0, false⟩

variable (state : CValidationState)

def dos (level : ℕ) (corruptionIn : Bool) : CValidationState :=
  if state.mode = .error then state
  else ⟨.invalid, state.nDoS + level, corruptionIn⟩

def isInvalid : Bool := state.mode = .invalid

def record : Failure → CValidationState
  | .dos level _ corruption => state.dos level corruption
  | .invalid _ => state.dos 0 false
  | .abort _ => { state with mode := .error }
  | .error _ => state
  | .exception _ => state
  | .assertion _ => state
  | .fault _ => state

end CValidationState

end Primecoin
