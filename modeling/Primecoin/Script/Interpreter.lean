import Primecoin.Keys.KeyStore
import Primecoin.Script.Canonical
import Primecoin.Script.CheckSig
import Primecoin.Script.Solver
import Primecoin.Serialize.BigNum

/-!
# Running scripts

`EvalScript` runs a script on a stack of byte strings, here a list with the top first. Every
failure, an exception too, makes it return false; the state that is left then is the one before
the instruction that failed, up to the number of calls of `CheckSig`. This number is the work that
the limits on signature operations are to bound: it is at most what `GetSigOpCount` counts, also
for the script behind a script hash, which `VerifyScript` finds on the stack.
-/

namespace Primecoin

open Codec List

/-- The digests, the libraries, and the arguments of `EvalScript` but the stack and the script. -/
structure ScriptContext where
  ripemd160 : Bytes → BitVec 160
  sha1 : Bytes → BitVec 160
  sha256 : Bytes → UInt256
  hash160 : Bytes → BitVec 160
  mpi : MpiLibrary
  sigs : SigLibrary
  txTo : CTransaction
  nIn : ℕ
  flags : UInt32
  nHashType : Int32

abbrev Stack := List Bytes

def maxScriptElementSize : ℕ := 520

def castToBigNum (mpi : MpiLibrary) (vch : Bytes) : Option ℤ :=
  if 4 < vch.length then none else (setvch mpi vch).bind fun bn => setvch mpi (getvch mpi bn)

def castToBool : Bytes → Bool
  | [] => false
  | [last] => last ≠ 0 && last ≠ 0x80
  | byte :: rest => byte ≠ 0 || castToBool rest

def getint (bn : ℤ) : ℤ :=
  if 0 ≤ bn then min bn (2 ^ 31 - 1) else if 2 ^ 31 - 1 < -bn then -2 ^ 31 else bn

def vchBool (fValue : Bool) : Bytes := if fValue then [1] else []

def boolNum (fValue : Bool) : ℤ := if fValue then 1 else 0

/-! ### Instructions that only work on the stack -/

variable (c : ScriptContext)

namespace Stack

/-- The first `n` elements are replaced by those at the given places, counted from the top. -/
def move (n : ℕ) (places : List ℕ) (stack : Stack) : Option Stack :=
  if stack.length < n then none else some (places.filterMap (stack[·]?) ++ stack.drop n)

def unary (f : ℤ → ℤ) : Stack → Option Stack
  | vch :: stack => (castToBigNum c.mpi vch).map fun bn => getvch c.mpi (f bn) :: stack
  | [] => none

def binary (f : ℤ → ℤ → ℤ) : Stack → Option Stack
  | vch2 :: vch1 :: stack => do
    let bn1 ← castToBigNum c.mpi vch1
    let bn2 ← castToBigNum c.mpi vch2
    return getvch c.mpi (f bn1 bn2) :: stack
  | _ => none

def within : Stack → Option Stack
  | vch3 :: vch2 :: vch1 :: stack => do
    let bn1 ← castToBigNum c.mpi vch1
    let bn2 ← castToBigNum c.mpi vch2
    let bn3 ← castToBigNum c.mpi vch3
    return vchBool (bn2 ≤ bn1 ∧ bn1 < bn3) :: stack
  | _ => none

def replaceTop (f : Bytes → List Bytes) : Stack → Option Stack
  | vch :: stack => some (f vch ++ stack)
  | [] => none

def equal : Stack → Option Stack
  | vch2 :: vch1 :: stack => some (vchBool (vch1 = vch2) :: stack)
  | _ => none

/-- `OP_PICK`, or with `fRoll` `OP_ROLL`. -/
def pick (fRoll : Bool) : Stack → Option Stack
  | vch :: x :: stack => do
    let n := getint (← castToBigNum c.mpi vch)
    guard (0 ≤ n)
    let vch ← (x :: stack)[n.toNat]?
    return vch :: if fRoll then (x :: stack).eraseIdx n.toNat else x :: stack
  | _ => none

/-- `OP_VERIFY`, and how the instructions end whose names end so. -/
def verify : Stack → Option Stack
  | vch :: stack => if castToBool vch then some stack else none
  | [] => none

def switch : List (UInt8 × (Stack → Option Stack)) :=
  [0x61, 0xb0, 0xb1, 0xb2, 0xb3, 0xb4, 0xb5, 0xb6, 0xb7, 0xb8, 0xb9].map (·, some) ++ -- OP_NOP
  [(0x69, verify),
    (0x6d, move 2 []), -- OP_2DROP
    (0x6e, move 2 [0, 1, 0, 1]), -- OP_2DUP
    (0x6f, move 3 [0, 1, 2, 0, 1, 2]), -- OP_3DUP
    (0x70, move 4 [2, 3, 0, 1, 2, 3]), -- OP_2OVER
    (0x71, move 6 [4, 5, 0, 1, 2, 3]), -- OP_2ROT
    (0x72, move 4 [2, 3, 0, 1]), -- OP_2SWAP
    (0x73, replaceTop fun vch => if castToBool vch then [vch, vch] else [vch]), -- OP_IFDUP
    (0x74, fun stack => some (getvch c.mpi stack.length :: stack)), -- OP_DEPTH
    (0x75, move 1 []), -- OP_DROP
    (opDup, move 1 [0, 0]),
    (0x77, move 2 [0]), -- OP_NIP
    (0x78, move 2 [1, 0, 1]), -- OP_OVER
    (0x79, pick c false),
    (0x7a, pick c true),
    (0x7b, move 3 [2, 0, 1]), -- OP_ROT
    (0x7c, move 2 [1, 0]), -- OP_SWAP
    (0x7d, move 2 [0, 1, 0]), -- OP_TUCK
    (0x82, replaceTop fun vch => [getvch c.mpi vch.length, vch]), -- OP_SIZE
    (opEqual, equal),
    (opEqualVerify, fun stack => (equal stack).bind verify),
    (0x8b, unary c (· + 1)), -- OP_1ADD
    (0x8c, unary c (· - 1)), -- OP_1SUB
    (0x8f, unary c (-·)), -- OP_NEGATE
    (0x90, unary c fun x => if x < 0 then -x else x), -- OP_ABS
    (0x91, unary c fun x => boolNum (x = 0)), -- OP_NOT
    (0x92, unary c fun x => boolNum (x ≠ 0)), -- OP_0NOTEQUAL
    (0x93, binary c (· + ·)), -- OP_ADD
    (0x94, binary c (· - ·)), -- OP_SUB
    (0x9a, binary c fun x y => boolNum (x ≠ 0 ∧ y ≠ 0)), -- OP_BOOLAND
    (0x9b, binary c fun x y => boolNum (x ≠ 0 ∨ y ≠ 0)), -- OP_BOOLOR
    (0x9c, binary c fun x y => boolNum (x = y)), -- OP_NUMEQUAL
    (0x9d, fun stack => (binary c (fun x y => boolNum (x = y)) stack).bind verify),
    (0x9e, binary c fun x y => boolNum (x ≠ y)), -- OP_NUMNOTEQUAL
    (0x9f, binary c fun x y => boolNum (x < y)), -- OP_LESSTHAN
    (0xa0, binary c fun x y => boolNum (x > y)), -- OP_GREATERTHAN
    (0xa1, binary c fun x y => boolNum (x ≤ y)), -- OP_LESSTHANOREQUAL
    (0xa2, binary c fun x y => boolNum (x ≥ y)), -- OP_GREATERTHANOREQUAL
    (0xa3, binary c fun x y => if x < y then x else y), -- OP_MIN
    (0xa4, binary c fun x y => if x > y then x else y), -- OP_MAX
    (0xa5, within c),
    (0xa6, replaceTop fun vch => [leBytes 20 (c.ripemd160 vch).toNat]),
    (0xa7, replaceTop fun vch => [leBytes 20 (c.sha1 vch).toNat]),
    (0xa8, replaceTop fun vch => [leBytes 32 (c.sha256 vch).toNat]),
    (opHash160, replaceTop fun vch => [leBytes 20 (c.hash160 vch).toNat]),
    (0xaa, replaceTop fun vch => [leBytes 32 (c.sigs.hash vch).toNat])] -- OP_HASH256

end Stack

/-! ### The loop -/

/-- The variables of the loop, and how often `CheckSig` has been called. -/
structure Evaluation where
  stack : Stack
  altstack : Stack
  vfExec : List Bool
  nOpCount : ℕ
  pbegincodehash : CScript
  nChecks : ℕ

/-- `CheckSig` behind the test of the encodings: the verdict and the number of calls. -/
def ScriptContext.check (scriptCode : CScript) (vchSig vchPubKey : Bytes) : Bool × ℕ :=
  if c.flags &&& scriptVerifyStrictEnc ≠ 0 ∧
      !((isCanonicalSignature vchSig).isOk && (isCanonicalPubKey vchPubKey).isOk) then (false, 0)
  else (checkSigUncached c.sigs
    ⟨vchSig, vchPubKey, scriptCode, c.txTo, c.nIn, c.nHashType, c.flags⟩, 1)

/-- The loop of `OP_CHECKMULTISIG` over the signatures and the keys that are left. -/
def ScriptContext.checkAll (scriptCode : CScript) : List Bytes → List Bytes → Bool × ℕ
  | [], _ => (true, 0)
  | _ :: _, [] => (false, 0)
  | vchSig :: vchSigs, vchPubKey :: keys =>
    let (fOk, n) := c.check scriptCode vchSig vchPubKey
    let left := if fOk then vchSigs else vchSig :: vchSigs
    if keys.length < left.length then (false, n)
    else
      let (fSuccess, m) := ScriptContext.checkAll scriptCode left keys
      (fSuccess, n + m)

namespace Evaluation

variable (e : Evaluation)

def fExec : Bool := e.vfExec.all id

/-- The verdict replaces the first `n` elements; with `fVerify` it is taken off again. -/
def conclude (fVerify : Bool) (n : ℕ) (result : Bool × ℕ) : Bool × Evaluation :=
  (!fVerify || result.1, { e with
    stack := (if fVerify then [] else [vchBool result.1]) ++ e.stack.drop n
    nChecks := e.nChecks + result.2 })

def checkSig (fVerify : Bool) : Bool × Evaluation :=
  match e.stack with
  | vchPubKey :: vchSig :: _ =>
    let scriptCode := findAndDelete (pushData vchSig) e.pbegincodehash
    e.conclude fVerify 2 (c.check scriptCode vchSig vchPubKey)
  | _ => (false, e)

/-- `nKeysCount` and `nSigsCount`. -/
def multiSigCounts : Option (ℕ × ℕ) := do
  let nKeysCount := getint (← castToBigNum c.mpi (← e.stack.head?))
  guard (0 ≤ nKeysCount ∧ nKeysCount ≤ 20)
  let nKeys := nKeysCount.toNat
  guard (e.nOpCount + nKeys ≤ 201)
  let nSigsCount := getint (← castToBigNum c.mpi (← e.stack[nKeys + 1]?))
  guard (0 ≤ nSigsCount ∧ nSigsCount ≤ nKeysCount)
  guard (3 + nKeys + nSigsCount.toNat ≤ e.stack.length)
  return (nKeys, nSigsCount.toNat)

def checkMultiSig (fVerify : Bool) : Bool × Evaluation :=
  match e.multiSigCounts c with
  | none => (false, e)
  | some (nKeys, nSigs) =>
    let vchSigs := (e.stack.drop (nKeys + 2)).take nSigs
    let scriptCode := vchSigs.foldl (fun code vchSig => findAndDelete (pushData vchSig) code)
      e.pbegincodehash
    { e with nOpCount := e.nOpCount + nKeys }.conclude fVerify (3 + nKeys + nSigs)
      (c.checkAll scriptCode vchSigs ((e.stack.drop 1).take nKeys))

/-- The instructions that do not check signatures. -/
def perform (opcode : UInt8) (pc : CScript) : Option Evaluation :=
  if opcode = 0x63 ∨ opcode = 0x64 then -- OP_IF, OP_NOTIF
    if e.fExec then
      match e.stack with
      | vch :: stack => some { e with
          stack := stack, vfExec := (castToBool vch != (opcode = 0x64)) :: e.vfExec }
      | [] => none
    else some { e with vfExec := false :: e.vfExec }
  else if opcode = 0x67 then -- OP_ELSE
    match e.vfExec with
    | fValue :: vfExec => some { e with vfExec := (!fValue) :: vfExec }
    | [] => none
  else if opcode = 0x68 then -- OP_ENDIF
    match e.vfExec with
    | _ :: vfExec => some { e with vfExec := vfExec }
    | [] => none
  else if opcode = 0x6b then -- OP_TOALTSTACK
    match e.stack with
    | vch :: stack => some { e with stack := stack, altstack := vch :: e.altstack }
    | [] => none
  else if opcode = 0x6c then -- OP_FROMALTSTACK
    match e.altstack with
    | vch :: altstack => some { e with stack := vch :: e.stack, altstack := altstack }
    | [] => none
  else if opcode = opCodeSeparator then some { e with pbegincodehash := pc }
  else (((Stack.switch c).lookup opcode).bind (· e.stack)).map fun stack => { e with stack := stack }

/-- `OP_1NEGATE` or one of `OP_1`, .., `OP_16`. -/
abbrev IsNumber (opcode : UInt8) : Prop := opcode = 0x4f ∨ op1 ≤ opcode ∧ opcode ≤ op16

def execute (opcode : UInt8) (pc : CScript) : Bool × Evaluation :=
  if IsNumber opcode then (true, { e with stack := getvch c.mpi (opcode.toNat - 0x50) :: e.stack })
  else if opcode = opCheckSig ∨ opcode = opCheckSigVerify then
    e.checkSig c (opcode = opCheckSigVerify)
  else if opcode = opCheckMultiSig ∨ opcode = opCheckMultiSigVerify then
    e.checkMultiSig c (opcode = opCheckMultiSigVerify)
  else
    match e.perform c opcode pc with
    | some e' => (true, e')
    | none => (false, e)

def isDisabled (opcode : UInt8) : Bool :=
  [0x7e, 0x7f, 0x80, 0x81, 0x83, 0x84, 0x85, 0x86, 0x8d, 0x8e, 0x95, 0x96, 0x97, 0x98,
    0x99].contains opcode

def counted (opcode : UInt8) : Evaluation :=
  if op16 < opcode then { e with nOpCount := e.nOpCount + 1 } else e

/-- The switch is entered for the conditionals even where nothing is executed. -/
def interpret (r : GetOpResult) : Bool × Evaluation :=
  if e.fExec ∧ r.opcodeRet ≤ opPushData4 then (true, { e with stack := r.vchRet :: e.stack })
  else if e.fExec ∨ 0x63 ≤ r.opcodeRet ∧ r.opcodeRet ≤ 0x68 then e.execute c r.opcodeRet r.pc
  else (true, e)

def step (r : GetOpResult) : Bool × Evaluation :=
  if !r.fRet ∨ maxScriptElementSize < r.vchRet.length ∨
      op16 < r.opcodeRet ∧ 201 < e.nOpCount + 1 ∨ isDisabled r.opcodeRet then (false, e)
  else
    let next := (e.counted r.opcodeRet).interpret c r
    (next.1 && next.2.stack.length + next.2.altstack.length ≤ 1000, next.2)

end Evaluation

/-- Every instruction shortens the script, so its length bounds the rounds. -/
def evalLoop : ℕ → CScript → Evaluation → Bool × Evaluation
  | 0, _, e => (true, e)
  | k + 1, pc, e =>
    if pc = [] then (true, e)
    else
      let next := e.step c (getOp pc)
      if next.1 then evalLoop k (getOp pc).pc next.2 else next

def evalScript (stack : Stack) (script : CScript) : Bool × Evaluation :=
  let e : Evaluation := ⟨stack, [], [], 0, script, 0⟩
  if 10000 < script.length then (false, e)
  else
    let (fOk, e) := evalLoop c script.length script e
    (fOk && e.vfExec.isEmpty, e)

/-- The verdict, and how often `CheckSig` was called. -/
def ScriptContext.verifyScript (scriptSig scriptPubKey : CScript) : Except Failure Bool × ℕ :=
  let (fOk, e) := evalScript c [] scriptSig
  if !fOk then (.ok false, e.nChecks)
  else
    let (fOk', e') := evalScript c e.stack scriptPubKey
    let n := e.nChecks + e'.nChecks
    if !(fOk' && (e'.stack.head?.map castToBool).getD false) then (.ok false, n)
    else if c.flags &&& scriptVerifyP2SH ≠ 0 ∧ isPayToScriptHash scriptPubKey then
      if !isPushOnly scriptSig then (.ok false, n)
      else
        match e.stack with
        | [] => (.error (.assertion "!stackCopy.empty()"), n)
        | pubKeySerialized :: stackCopy =>
          let (fOk, e) := evalScript c stackCopy pubKeySerialized
          (.ok (fOk && (e.stack.head?.map castToBool).getD false), n + e.nChecks)
    else (.ok true, n)

/-- `CScriptCheck` runs `VerifyScript` with the hash type 0. -/
def ScriptContext.verifies : VerifyScript := fun scriptSig scriptPubKey txTo nIn flags =>
  ({ c with txTo, nIn, flags, nHashType := 0 }.verifyScript scriptSig scriptPubKey).1.toOption =
    some true

/-! ### The number of signature checks -/

variable {c} {e : Evaluation} {lastOpcode opcode : UInt8} {pc : CScript} {r : GetOpResult}

open Evaluation

theorem check_le (scriptCode : CScript) (vchSig vchPubKey : Bytes) :
    (c.check scriptCode vchSig vchPubKey).2 ≤ 1 := by
  rw [ScriptContext.check]
  split_ifs <;> simp

theorem checkAll_le (scriptCode : CScript) (vchSigs keys : List Bytes) :
    (c.checkAll scriptCode vchSigs keys).2 ≤ keys.length := by
  induction keys generalizing vchSigs with
  | nil => cases vchSigs <;> exact le_rfl
  | cons key keys ih =>
    cases vchSigs with
    | nil => exact Nat.zero_le _
    | cons vchSig vchSigs =>
      have hcheck := check_le (c := c) scriptCode vchSig key
      simp only [ScriptContext.checkAll, length_cons]
      generalize (if (c.check scriptCode vchSig key).1 then vchSigs else vchSig :: vchSigs) = left
      have hrest := ih left
      split_ifs <;> simp only <;> omega

/-- The number that the last instruction pushes is on top. -/
def Evaluation.Pushed (e : Evaluation) (lastOpcode : UInt8) : Prop :=
  op1 ≤ lastOpcode ∧ lastOpcode ≤ op16 → e.fExec = true →
    e.stack.head? = some (bigNumVch (lastOpcode.toNat - 0x50))

/-- What `GetSigOpCount(true)` adds for an opcode. -/
def sigOpCost (lastOpcode opcode : UInt8) : ℕ :=
  if opcode = opCheckSig ∨ opcode = opCheckSigVerify then 1
  else if opcode = opCheckMultiSig ∨ opcode = opCheckMultiSigVerify then
    if op1 ≤ lastOpcode ∧ lastOpcode ≤ op16 then decodeOpN lastOpcode else 20
  else 0

theorem getSigOpCountLoop_succ (k n : ℕ) :
    getSigOpCountLoop true (k + 1) pc lastOpcode n = if pc = [] ∨ (getOp pc).fRet = false then n
      else getSigOpCountLoop true k (getOp pc).pc (getOp pc).opcodeRet
        (n + sigOpCost lastOpcode (getOp pc).opcodeRet) := by
  by_cases hnil : pc = [] <;> by_cases hret : (getOp pc).fRet = false <;>
    simp [getSigOpCountLoop, sigOpCost, hnil, hret]

theorem le_getSigOpCountLoop (k n : ℕ) : n ≤ getSigOpCountLoop true k pc lastOpcode n := by
  induction k generalizing pc lastOpcode n with
  | zero => exact le_rfl
  | succ k ih =>
    rw [getSigOpCountLoop_succ]
    split_ifs
    · exact le_rfl
    · exact (Nat.le_add_right _ _).trans (ih _)

theorem castToBigNum_bigNumVch (mpi : MpiLibrary) {bn : ℤ} (h : (bigNumVch bn).length ≤ 4) :
    castToBigNum mpi (bigNumVch bn) = some bn := by
  have hset : setvch mpi (bigNumVch bn) = some bn := setvch_bigNumVch mpi (by omega)
  rw [castToBigNum, if_neg (not_lt.mpr h), hset, Option.bind_some, getvch_eq, hset]

/-- A multisig check after a number looks at no more keys than that. -/
theorem multiSigCounts_le {nKeys nSigs : ℕ} (hlast : e.Pushed lastOpcode) (hexec : e.fExec = true)
    (h : e.multiSigCounts c = some (nKeys, nSigs)) :
    nKeys ≤ if op1 ≤ lastOpcode ∧ lastOpcode ≤ op16 then decodeOpN lastOpcode else 20 := by
  simp only [multiSigCounts, Option.bind_eq_bind, Option.bind_eq_some_iff, Option.pure_def,
    Option.some.injEq, Option.guard_eq_some', Prod.mk.injEq] at h
  obtain ⟨top, htop, bn, hbn, -, hkeys, -, -, -, -, -, -, -, -, -, -, rfl, -⟩ := h
  split_ifs with hop
  · have hshort : ∀ m ∈ range 17, (bigNumVch m).length ≤ 4 := by decide
    have hlow : 0x51 ≤ lastOpcode.toNat := UInt8.le_iff_toNat_le.mp hop.1
    have hhigh : lastOpcode.toNat ≤ 0x60 := UInt8.le_iff_toNat_le.mp hop.2
    have hnum := castToBigNum_bigNumVch c.mpi
      (hshort (lastOpcode.toNat - 0x50) (mem_range.mpr (by omega)))
    have hdecode : decodeOpN lastOpcode = lastOpcode.toNat - 0x50 :=
      if_neg (by rintro rfl; exact absurd hlow (by decide))
    rw [hlast hop hexec, Option.some.injEq] at htop
    rw [Nat.cast_sub (by omega), Nat.cast_ofNat, htop, hbn, Option.some.injEq] at hnum
    rw [hdecode, hnum, getint]
    split_ifs <;> omega
  · omega

theorem nChecks_execute (hlast : e.Pushed lastOpcode) (hexec : e.fExec = true ∨ opcode ≤ 0x68) :
    (e.execute c opcode pc).2.nChecks ≤ e.nChecks + sigOpCost lastOpcode opcode := by
  rw [execute]
  split_ifs with hpush hsig hmulti
  · exact Nat.le_add_right _ _
  · rw [sigOpCost, if_pos hsig, Evaluation.checkSig]
    split
    · exact Nat.add_le_add_left (check_le _ _ _) _
    · exact Nat.le_succ _
  · have hexec : e.fExec = true :=
      hexec.resolve_right (by rcases hmulti with rfl | rfl <;> decide)
    rw [sigOpCost, if_neg hsig, if_pos hmulti, Evaluation.checkMultiSig]
    split
    · exact Nat.le_add_right _ _
    · rename_i hcounts
      refine Nat.add_le_add_left ((checkAll_le _ _ _).trans ?_) _
      exact (length_take_le _ _).trans (multiSigCounts_le hlast hexec hcounts)
  · cases hrun : e.perform c opcode pc with
    | none => exact Nat.le_add_right _ _
    | some e' =>
      have hkeep : e'.nChecks = e.nChecks := by
        simp only [perform] at hrun
        split_ifs at hrun <;> grind [Option.map_eq_some_iff]
      exact hkeep.le.trans (Nat.le_add_right _ _)

theorem nChecks_step (hlast : e.Pushed lastOpcode) :
    (e.step c r).2.nChecks ≤ e.nChecks + sigOpCost lastOpcode r.opcodeRet := by
  obtain ⟨hcounted, hchecks⟩ : (e.counted r.opcodeRet).Pushed lastOpcode ∧
      (e.counted r.opcodeRet).nChecks = e.nChecks := by
    rw [counted]
    split_ifs <;> exact ⟨hlast, rfl⟩
  simp only [step, interpret]
  split_ifs with hrefuse hpush hexec
  · exact Nat.le_add_right _ _
  · exact hchecks.le.trans (Nat.le_add_right _ _)
  · exact hchecks ▸ nChecks_execute hcounted (hexec.imp_right And.right)
  · exact hchecks.le.trans (Nat.le_add_right _ _)

theorem pushed_step (hok : (e.step c r).1 = true) : (e.step c r).2.Pushed r.opcodeRet := by
  intro hop hexec
  have hcounted : e.counted r.opcodeRet = e := if_neg (UInt8.not_lt.mpr hop.2)
  have hpush : ¬ r.opcodeRet ≤ opPushData4 :=
    UInt8.not_le.mpr (UInt8.lt_of_lt_of_le (by decide : opPushData4 < op1) hop.1)
  simp only [step, hcounted, interpret, hpush, and_false, if_false] at hok hexec ⊢
  split_ifs at hok hexec ⊢ with hrefuse hany
  · rw [execute, if_pos (.inr hop)]
    exact congrArg some (getvch_eq c.mpi _)
  · exact absurd (.inl hexec) hany

theorem nChecks_evalLoop {n : ℕ} (k : ℕ) (hlast : e.Pushed lastOpcode) (hn : e.nChecks ≤ n) :
    (evalLoop c k pc e).2.nChecks ≤ getSigOpCountLoop true k pc lastOpcode n := by
  induction k generalizing pc e lastOpcode n with
  | zero => exact hn
  | succ k ih =>
    have hstep := (nChecks_step (c := c) (r := getOp pc) hlast).trans (Nat.add_le_add_right hn _)
    simp only [evalLoop, getSigOpCountLoop_succ]
    by_cases hnil : pc = []
    · rwa [if_pos hnil, if_pos (.inl hnil)]
    by_cases hret : (getOp pc).fRet = false
    · simpa [hnil, hret, step] using hn
    rw [if_neg hnil, if_neg (not_or.mpr ⟨hnil, hret⟩)]
    split_ifs with hok
    · exact ih (pushed_step hok) hstep
    · exact hstep.trans (le_getSigOpCountLoop _ _)

theorem nChecks_evalScript (stack : Stack) (script : CScript) :
    (evalScript c stack script).2.nChecks ≤ getSigOpCount true script := by
  rw [evalScript]
  split_ifs
  · exact Nat.zero_le _
  · exact nChecks_evalLoop _ (fun hop => absurd hop.2 (by decide)) le_rfl

/-! ### Spending a script hash -/

/-- No more is counted in the element on top than in the data. -/
def Covers (data : Bytes) (stack : Stack) : Prop :=
  ∀ vch ∈ stack.head?, getSigOpCount true vch ≤ getSigOpCount true data

/-- Of the instructions of a push-only script only those for numbers push something else than
`GetOp` hands out, and a number has no signature operations. -/
theorem step_of_le_op16 (hexec : e.vfExec = []) (hop : r.opcodeRet ≤ op16)
    (hok : (e.step c r).1 = true) :
    (e.step c r).2.vfExec = [] ∧ Covers r.vchRet (e.step c r).2.stack := by
  have hcounted : e.counted r.opcodeRet = e := if_neg (UInt8.not_lt.mpr hop)
  have hfExec : e.fExec = true := by rw [fExec, hexec]; rfl
  simp only [step, hcounted, interpret, hfExec, true_and, true_or, if_true] at hok ⊢
  split_ifs at hok ⊢ with hrefuse hpush
  · exact ⟨hexec, by simp [Covers]⟩
  have hlow : 78 < r.opcodeRet.toNat := UInt8.lt_iff_toNat_lt.mp (UInt8.not_le.mp hpush)
  have hhigh : r.opcodeRet.toNat ≤ 96 := UInt8.le_iff_toNat_le.mp hop
  by_cases hnum : IsNumber r.opcodeRet
  · have hall : ∀ m ∈ range 97, 78 < m → getSigOpCount true (bigNumVch ((m : ℤ) - 0x50)) = 0 := by
      decide +kernel
    have hzero := hall r.opcodeRet.toNat (mem_range.mpr (by omega)) hlow
    rw [execute, if_pos hnum]
    exact ⟨hexec, by simp [Covers, getvch_eq, hzero]⟩
  · have hreserved : r.opcodeRet = 0x50 := by
      simp only [IsNumber, ← UInt8.toNat_inj, UInt8.le_iff_toNat_le, op1, op16,
        UInt8.reduceToNat] at hnum ⊢
      omega
    have hrefused : (e.execute c 0x50 r.pc).1 = false := rfl
    rw [hreserved, hrefused] at hok
    cases hok

theorem evalLoop_covers {data : Bytes} (k : ℕ) (hexec : e.vfExec = [])
    (hdata : Covers data e.stack) (hpush : isPushOnlyLoop k pc = true)
    (hok : (evalLoop c k pc e).1 = true) :
    ∃ data', lastPush k pc data = some data' ∧ Covers data' (evalLoop c k pc e).2.stack := by
  induction k generalizing pc e data with
  | zero => exact ⟨data, rfl, hdata⟩
  | succ k ih =>
    simp only [isPushOnlyLoop, lastPush, evalLoop] at hpush hok ⊢
    split_ifs at hpush hok ⊢ with hnil hret hop hstep
    · exact ⟨data, rfl, hdata⟩
    · obtain ⟨hexec', hcovers⟩ := step_of_le_op16 hexec (UInt8.not_lt.mp hop) hstep
      exact ih hexec' hcovers hpush hok
    · exact absurd hok hstep

theorem nChecks_redeem {scriptSig scriptPubKey : CScript} {vch : Bytes} {rest : Stack}
    (hhash : isPayToScriptHash scriptPubKey = true) (hpush : isPushOnly scriptSig = true)
    (hok : (evalScript c [] scriptSig).1 = true)
    (hstack : (evalScript c [] scriptSig).2.stack = vch :: rest) :
    (evalScript c rest vch).2.nChecks ≤ getScriptHashSigOpCount scriptPubKey scriptSig := by
  refine (nChecks_evalScript rest vch).trans ?_
  rw [evalScript] at hok hstack
  split_ifs at hok hstack
  have hnil : Covers [] [] := fun _ hvch => by cases hvch
  obtain ⟨data, hdata, hcovers⟩ := evalLoop_covers scriptSig.length rfl hnil hpush
    (Bool.and_eq_true_iff.mp hok).1
  rw [getScriptHashSigOpCount, hhash, hdata]
  exact hcovers vch (by rw [hstack]; rfl)

/-- A script calls `CheckSig` no more often than is counted for it, and the script behind a hash
no more often than is counted for the input. -/
theorem nChecks_le_sigOpCount :
    (∀ stack script, (evalScript c stack script).2.nChecks ≤ getSigOpCount true script) ∧
    ∀ scriptSig scriptPubKey vch rest, isPayToScriptHash scriptPubKey = true →
      isPushOnly scriptSig = true → (evalScript c [] scriptSig).1 = true →
      (evalScript c [] scriptSig).2.stack = vch :: rest →
      (evalScript c rest vch).2.nChecks ≤ getScriptHashSigOpCount scriptPubKey scriptSig :=
  ⟨nChecks_evalScript, fun _ _ _ _ => nChecks_redeem⟩

theorem evalScript_nil_of_isPayToScriptHash {script : CScript}
    (h : isPayToScriptHash script = true) : (evalScript c [] script).1 = false := by
  obtain ⟨hash, hlen, rfl⟩ := isPayToScriptHash_iff.mp h
  have hget := getOp_of_lt (show opPushData4 < opHash160 by decide) (0x14 :: (hash ++ [opEqual]))
  rw [evalScript, if_neg (by simp [hlen]), length_cons, evalLoop, if_neg (cons_ne_nil _ _), hget]
  rfl

/-- The assertion that there is a script behind the hash holds, and `CheckSig` is called no more
often than the signature operations of the scripts are counted. -/
theorem verifyScript_bounded (scriptSig scriptPubKey : CScript) :
    (∃ fOk, (c.verifyScript scriptSig scriptPubKey).1 = .ok fOk) ∧
      (c.verifyScript scriptSig scriptPubKey).2 ≤ getSigOpCount true scriptSig +
        getSigOpCount true scriptPubKey + getScriptHashSigOpCount scriptPubKey scriptSig := by
  have hsig := nChecks_evalScript (c := c) [] scriptSig
  have hpub := nChecks_evalScript (c := c) (evalScript c [] scriptSig).2.stack scriptPubKey
  simp only [ScriptContext.verifyScript]
  split_ifs with hfail hfail' hhash hpush
  · exact ⟨⟨_, rfl⟩, hsig.trans (by omega)⟩
  · exact ⟨⟨_, rfl⟩, by simp only; omega⟩
  · exact ⟨⟨_, rfl⟩, by simp only; omega⟩
  · split
    · rename_i hnil
      rw [hnil, evalScript_nil_of_isPayToScriptHash hhash.2] at hfail'
      exact absurd rfl hfail'
    · rename_i vch rest hstack
      have hredeem := nChecks_redeem hhash.2 (by simpa using hpush) (by simpa using hfail) hstack
      exact ⟨⟨_, rfl⟩, by simp only; omega⟩
  · exact ⟨⟨_, rfl⟩, by simp only; omega⟩

/-! ### The flags -/

section Flags

variable {flags : UInt32}
  (hflags : flags &&& scriptVerifyStrictEnc = c.flags &&& scriptVerifyStrictEnc)
include hflags

theorem check_flags : { c with flags := flags }.check = c.check := by
  funext scriptCode vchSig vchPubKey
  simp only [ScriptContext.check, hflags]
  rfl

theorem checkAll_flags : { c with flags := flags }.checkAll = c.checkAll := by
  funext scriptCode vchSigs keys
  induction keys generalizing vchSigs with
  | nil => cases vchSigs <;> rfl
  | cons key keys ih =>
    cases vchSigs with
    | nil => rfl
    | cons vchSig vchSigs => simp only [ScriptContext.checkAll, check_flags hflags, ih]

theorem evalScript_flags : evalScript { c with flags := flags } = evalScript c := by
  have hstep (e : Evaluation) (r : GetOpResult) :
      e.step { c with flags := flags } r = e.step c r := by
    simp only [step, interpret, execute, Evaluation.checkSig, checkMultiSig, check_flags hflags,
      checkAll_flags hflags]
    rfl
  have hloop (k : ℕ) (pc : CScript) (e : Evaluation) :
      evalLoop { c with flags := flags } k pc e = evalLoop c k pc e := by
    induction k generalizing pc e with
    | zero => rfl
    | succ k ih => simp only [evalLoop, hstep, ih]
  funext stack script
  simp only [evalScript, hloop]

end Flags

/-- Paying to a script hash is a soft fork: what verifies with the rule verifies without it. -/
theorem verifyScript_soft_fork {scriptSig scriptPubKey : CScript}
    (h : (c.verifyScript scriptSig scriptPubKey).1 = .ok true) :
    ({ c with flags := c.flags &&& ~~~scriptVerifyP2SH }.verifyScript scriptSig
      scriptPubKey).1 = .ok true := by
  have hstrict : (c.flags &&& ~~~scriptVerifyP2SH) &&& scriptVerifyStrictEnc =
      c.flags &&& scriptVerifyStrictEnc := by
    rw [UInt32.and_assoc]
    rfl
  have hp2sh : (c.flags &&& ~~~scriptVerifyP2SH) &&& scriptVerifyP2SH = 0 := by
    rw [UInt32.and_assoc]
    exact UInt32.and_zero
  simp only [ScriptContext.verifyScript, evalScript_flags hstrict, hp2sh] at h ⊢
  split_ifs at h ⊢ <;> simp_all

namespace Sample

def redeemScript : CScript := pushData (ECPoint.octets .compressed (some generator)) ++ [opCheckSig]

def redeemHash : BitVec 160 := 0xa13ae8f416634e6ed2eeb3c08b17f27734adb023

def signedTx : CTransaction := ⟨1, [⟨⟨0, 0⟩, [], 0⟩], [], 0⟩

def signedHash : UInt256 := 0x8c2f10a2ad2e91d8aec9964e09f8f60c2c3210ef270bda55def9b9877f755702

def signature : Bytes :=
  [0x30, 0x44, 2, 32] ++ beBytes 32 generator.1 ++ [2, 32] ++
    beBytes 32 0x7c15dbfe8196b58aab7a6dbdbd973d330f92f4e47c64f2883283b008b9084724

/-- An input signed with the key 1. The other digests are not asked for. -/
def signedInput : ScriptContext where
  ripemd160 _ := 0
  sha1 _ := 0
  sha256 _ := 0
  hash160 vch := if vch = redeemScript then redeemHash else 0
  mpi := mpiLibrary
  sigs := {
    lib := secp256k1
    hash := fun m =>
      if signatureMessage redeemScript signedTx 0 sighashAll = some m then signedHash else 0
    ecdsaVerify := fun hash vchSig pkey =>
      if hash = signedHash ∧ vchSig = signature ∧ pkey.pub = some (some generator) then 1 else 0 }
  txTo := signedTx
  nIn := 0
  flags := scriptVerifyP2SH
  nHashType := 0

def spendsRedeem : CScript := pushData (signature ++ [1]) ++ pushData redeemScript

def paysRedeem : CScript := [opHash160, 0x14] ++ leBytes 20 redeemHash.toNat ++ [opEqual]

end Sample

open Sample

theorem nChecks_le_sigOpCount_redeem :
    (evalScript signedInput [signature ++ [1]] redeemScript).2.nChecks = 1 ∧
    (evalScript signedInput [signature ++ [1]] redeemScript).2.nChecks ≤
      getScriptHashSigOpCount paysRedeem spendsRedeem :=
  ⟨by decide +kernel, nChecks_le_sigOpCount.2 _ _ _ _ (by decide) (by decide +kernel)
    (by decide +kernel) (by decide +kernel)⟩

theorem verifyScript_soft_fork_redeem :
    ({ signedInput with flags := scriptVerifyNone }.verifyScript spendsRedeem paysRedeem).1 =
      .ok true :=
  verifyScript_soft_fork (c := signedInput) (by decide +kernel)

end Primecoin
