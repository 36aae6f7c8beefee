import Primecoin.Script.Parse

/-!
# Cursors and pushes

`GetOp2` moves an iterator over the bytes of a script. Here it is a position, which may be moved
past the end, and reading a byte that is not in the script is a fault. By `getOp2_eq` it reads
from every position what `getOp` reads from the bytes behind it, so no read is outside.

The number of bytes left is compared as an `unsigned int`, so a script of `2 ^ 32` bytes or more
may end, for `GetOp`, at an instruction that is complete.
-/

namespace Primecoin

open Codec List

variable (script : CScript)

def bytesAt (pc n : ℕ) : Except Failure Bytes :=
  if pc + n ≤ script.length then .ok ((script.drop pc).take n)
  else .error (.fault "read outside the script")

structure GetOp2Result where
  fRet : Bool
  opcodeRet : UInt8
  vchRet : Bytes
  pc : ℕ
  deriving DecidableEq, Repr

/-- The length of the data of a push, from the opcode or the bytes that follow it. -/
def readSizeAt (opcode : UInt8) (pc : ℕ) : Except Failure ℕ :=
  let w := pushLengthSize opcode
  if w = 0 then .ok opcode.toNat else (bytesAt script pc w).map leNat

def getOp2 (pc : ℕ) : Except Failure GetOp2Result := do
  if script.length ≤ pc then return ⟨false, opInvalidOpcode, [], pc⟩
  let first ← bytesAt script pc 1
  let opcode := first.headD 0
  let pc := pc + 1
  if opcode ≤ opPushData4 then
    let w := pushLengthSize opcode
    if (script.length : ℤ) - pc < w then return ⟨false, opInvalidOpcode, [], pc⟩
    let nSize ← readSizeAt script opcode pc
    let pc := pc + w
    if (script.length : ℤ) - pc < 0 ∨ ((script.length : ℤ) - pc) % 2 ^ 32 < nSize then
      return ⟨false, opInvalidOpcode, [], pc⟩
    let vch ← bytesAt script pc nSize
    return ⟨true, opcode, vch, pc + nSize⟩
  return ⟨true, opcode, [], pc⟩

variable (values : List Bytes)

def pushAll : CScript :=
  values.foldl (fun result v => result ++ pushData v) []

theorem bytesAt_append {before script : CScript} {i n : ℕ} (h : i + n ≤ script.length) :
    bytesAt (before ++ script) (before.length + i) n = .ok ((script.drop i).take n) := by
  rw [bytesAt, if_pos (by rw [length_append]; omega), ← drop_drop, drop_left]

section GetOp2

variable {before pc : CScript} {opcode : UInt8}

theorem bytesAt_cons_append {w n : ℕ} (h : w + n ≤ pc.length) :
    bytesAt (before ++ opcode :: pc) (before.length + 1 + w) n = .ok ((pc.drop w).take n) := by
  rw [add_assoc, bytesAt_append (by simp; omega), Nat.add_comm 1 w, drop_succ_cons]

theorem readSizeAt_cons_append (h : pushLengthSize opcode ≤ pc.length) :
    readSizeAt (before ++ opcode :: pc) opcode (before.length + 1) =
      .ok (if pushLengthSize opcode = 0 then opcode.toNat
        else leNat (pc.take (pushLengthSize opcode))) := by
  simp only [readSizeAt]
  split_ifs
  · rfl
  · rw [← Nat.add_zero (before.length + 1), bytesAt_cons_append (by omega)]
    rfl

theorem sub_position (before pc : CScript) (opcode : UInt8) (w : ℕ) :
    ((before ++ opcode :: pc).length : ℤ) - ((before.length + 1 + w : ℕ) : ℤ) =
      (pc.length : ℤ) - w := by
  push_cast [length_append, length_cons]
  ring

end GetOp2

theorem getOp2_append (before script : CScript) : getOp2 (before ++ script) before.length =
      .ok ⟨(getOp script).fRet, (getOp script).opcodeRet, (getOp script).vchRet,
        before.length + (script.length - (getOp script).pc.length)⟩ := by
  cases script with
  | nil =>
    simp only [getOp2, getOp, append_nil, le_refl, if_true]
    rfl
  | cons opcode pc =>
    have hfirst : bytesAt (before ++ opcode :: pc) before.length 1 = .ok [opcode] :=
      bytesAt_append (i := 0) (by simp)
    have hin : ¬ (before ++ opcode :: pc).length ≤ before.length := by simp
    have hleft := sub_position before pc opcode
    have hleft' := hleft 0
    rw [Nat.add_zero, Nat.cast_zero, sub_zero] at hleft'
    simp only [getOp2, getOp, if_neg hin, hfirst, hleft, hleft', bind, Except.bind,
      headD_cons, Nat.cast_lt, length_cons]
    by_cases hpush : opcode ≤ opPushData4
    · simp only [if_pos hpush]
      by_cases hwidth : pc.length < pushLengthSize opcode
      · simp only [if_pos hwidth, Nat.add_sub_cancel_left]
        rfl
      · simp only [if_neg hwidth, readSizeAt_cons_append (not_lt.mp hwidth)]
        generalize (if pushLengthSize opcode = 0 then opcode.toNat
          else leNat (pc.take (pushLengthSize opcode))) = nSize
        have hcast : (pc.length : ℤ) - pushLengthSize opcode =
            ((pc.drop (pushLengthSize opcode)).length : ℕ) := by
          rw [length_drop]
          omega
        have hcut : ((((pc.drop (pushLengthSize opcode)).length : ℕ) : ℤ) < 0 ∨
            (((pc.drop (pushLengthSize opcode)).length : ℕ) : ℤ) % 2 ^ 32 < nSize) ↔
            (pc.drop (pushLengthSize opcode)).length % 2 ^ 32 < nSize := by omega
        simp only [hcast, hcut]
        split_ifs with hsize
        · simp only [length_drop]
          congr 2
          omega
        · have hfits : pushLengthSize opcode + nSize ≤ pc.length := by
            have hmod := Nat.mod_le (pc.drop (pushLengthSize opcode)).length (2 ^ 32)
            rw [length_drop] at hsize hmod
            omega
          simp only [bytesAt_cons_append hfits, length_drop]
          congr 2
          omega
    · simp only [if_neg hpush, Nat.add_sub_cancel_left]
      rfl

/-- No read is outside the script, the position stays inside and moves with every instruction
read. -/
theorem getOp2_inside {script : CScript} {pc : ℕ} (h : pc ≤ script.length) :
    ∃ r, getOp2 script pc = .ok r ∧ pc ≤ r.pc ∧ r.pc ≤ script.length ∧
      (r.fRet = true → pc < r.pc) := by
  have hbefore : (script.take pc).length = pc := length_take_of_le h
  have hread := getOp2_append (script.take pc) (script.drop pc)
  rw [take_append_drop, hbefore] at hread
  have hlen := length_drop (i := pc) (l := script)
  refine ⟨_, hread, Nat.le_add_right _ _, ?_, fun hret => ?_⟩
  · change pc + _ ≤ _
    omega
  · have hlt := length_getOp_pc_lt (script.drop pc) hret
    change pc < pc + _
    omega

/-! ### Reading pushes back -/

section Push

variable {v : Bytes}

/-- The push of `v` in front of `rest` is read unless the cast number of bytes left is below its
length. -/
theorem getOp_push {opcode : UInt8} {field rest : Bytes} (hop : opcode ≤ opPushData4)
    (hfield : field.length = pushLengthSize opcode)
    (hsize : (if pushLengthSize opcode = 0 then opcode.toNat else leNat field) = v.length) :
    getOp (opcode :: (field ++ (v ++ rest))) = if (v.length + rest.length) % 2 ^ 32 < v.length then
        ⟨false, opInvalidOpcode, [], v ++ rest⟩
      else ⟨true, opcode, v, rest⟩ := by
  have htake : (field ++ (v ++ rest)).take (pushLengthSize opcode) = field := by
    rw [← hfield, take_left]
  have hdrop : (field ++ (v ++ rest)).drop (pushLengthSize opcode) = v ++ rest := by
    rw [← hfield, drop_left]
  simp only [getOp, if_pos hop, htake, hdrop, hsize]
  rw [if_neg (by rw [length_append]; omega), length_append]
  simp

/-- An opcode, for a push the length field and the data, and the rest. -/
theorem getOp_eq_true_iff {script rest : CScript} {opcode : UInt8} :
    getOp script = ⟨true, opcode, v, rest⟩ ↔
      (opPushData4 < opcode ∧ v = [] ∧ script = opcode :: rest) ∨
      (opcode ≤ opPushData4 ∧ v.length ≤ (v.length + rest.length) % 2 ^ 32 ∧
        ∃ field, field.length = pushLengthSize opcode ∧
          (if pushLengthSize opcode = 0 then opcode.toNat else leNat field) = v.length ∧
          script = opcode :: (field ++ (v ++ rest))) := by
  constructor
  · intro h
    cases script with
    | nil => cases h
    | cons first pc =>
      obtain rfl := opcodeRet_of_getOp_cons h
      by_cases hpush : first ≤ opPushData4
      · refine .inr ⟨hpush, ?_⟩
        simp only [getOp, if_pos hpush] at h
        generalize hnSize : (if pushLengthSize first = 0 then first.toNat
          else leNat (pc.take (pushLengthSize first))) = nSize at h
        split_ifs at h with hwidth hsize
        · cases h
        · cases h
        · obtain ⟨-, -, rfl, rfl⟩ := GetOpResult.mk.inj h
          have hlen : ((pc.drop (pushLengthSize first)).take nSize).length = nSize :=
            length_take_of_le (by omega)
          refine ⟨?_, pc.take (pushLengthSize first), length_take_of_le (by omega),
            by rw [hnSize, hlen], ?_⟩
          · rw [← length_append, take_append_drop, hlen]
            exact not_lt.mp hsize
          · rw [take_append_drop, take_append_drop]
      · refine .inl ⟨UInt8.not_le.mp hpush, ?_⟩
        rw [getOp_of_lt (UInt8.not_le.mp hpush)] at h
        obtain ⟨-, -, rfl, rfl⟩ := GetOpResult.mk.inj h
        exact ⟨rfl, rfl⟩
  · rintro (⟨hop, rfl, rfl⟩ | ⟨hop, hfits, field, hfield, hsize, rfl⟩)
    · exact getOp_of_lt hop rest
    · rw [getOp_push hop hfield hsize, if_neg (not_lt.mpr hfits)]

theorem pushData_eq (hlen : v.length < 2 ^ 32) :
    ∃ opcode field, pushData v = opcode :: (field ++ v) ∧ opcode ≤ opPushData4 ∧
      field.length = pushLengthSize opcode ∧
      (if pushLengthSize opcode = 0 then opcode.toNat else leNat field) = v.length := by
  rw [pushData]
  split_ifs with hdirect hone htwo
  · have hnat : (UInt8.ofNat v.length).toNat = v.length :=
      UInt8.toNat_ofNat_of_lt (by change _ < 256; omega)
    have hlt : UInt8.ofNat v.length < opPushData1 := by
      rw [UInt8.lt_iff_toNat_lt, hnat]
      exact hdirect
    have hwidth : pushLengthSize (UInt8.ofNat v.length) = 0 := by rw [pushLengthSize, if_pos hlt]
    refine ⟨_, [], rfl, UInt8.le_trans (UInt8.le_of_lt hlt) (by decide), hwidth.symm, ?_⟩
    rw [if_pos hwidth, hnat]
  · refine ⟨_, _, rfl, by decide, by rw [length_leBytes]; rfl, ?_⟩
    rw [if_neg (by decide), leNat_leBytes]
    omega
  · refine ⟨_, _, rfl, by decide, by rw [length_leBytes]; rfl, ?_⟩
    rw [if_neg (by decide), leNat_leBytes]
    omega
  · refine ⟨_, _, rfl, by decide, by rw [length_leBytes]; rfl, ?_⟩
    rw [if_neg (by decide), leNat_leBytes]
    omega

theorem getOp_pushData_append (hlen : v.length < 2 ^ 32) (rest : Bytes) :
    ∃ opcode ≤ opPushData4, getOp (pushData v ++ rest) =
      if (v.length + rest.length) % 2 ^ 32 < v.length then
        ⟨false, opInvalidOpcode, [], v ++ rest⟩
      else ⟨true, opcode, v, rest⟩ := by
  obtain ⟨opcode, field, hpush, hop, hfield, hsize⟩ := pushData_eq hlen
  refine ⟨opcode, hop, ?_⟩
  rw [hpush, cons_append, append_assoc]
  exact getOp_push hop hfield hsize

end Push

theorem pushAll_eq_flatMap : pushAll values = values.flatMap pushData := by
  rw [pushAll, foldl_append_eq_append]
  rfl

theorem pushAll_cons (v : Bytes) (values : List Bytes) :
    pushAll (v :: values) = pushData v ++ pushAll values := by
  rw [pushAll_eq_flatMap, pushAll_eq_flatMap, flatMap_cons]

/-- From each string on the bytes left, counted in an `unsigned int`, are not fewer than it has.
-/
def FitsCounter : Prop :=
  ∀ v rest, v :: rest <:+ values → v.length ≤ (v.length + (pushAll rest).length) % 2 ^ 32

theorem fitsCounter_nil : FitsCounter [] := by
  intro v rest h
  cases suffix_nil.mp h

section

variable {values : List Bytes}

theorem fitsCounter_cons {v : Bytes} : FitsCounter (v :: values) ↔
      v.length ≤ (v.length + (pushAll values).length) % 2 ^ 32 ∧ FitsCounter values := by
  constructor
  · intro h
    refine ⟨h v values (suffix_refl _), fun w rest hw => ?_⟩
    exact h w rest (hw.trans (suffix_cons v values))
  · rintro ⟨hfirst, hrest⟩ w rest hw
    rcases suffix_cons_iff.mp hw with heq | hw
    · obtain ⟨rfl, rfl⟩ := cons.inj heq
      exact hfirst
    · exact hrest w rest hw

/-- Nothing is lost in a script shorter than `2 ^ 32` bytes. -/
theorem fitsCounter_of_length_lt (h : (pushAll values).length < 2 ^ 32) : FitsCounter values := by
  induction values with
  | nil => exact fitsCounter_nil
  | cons v values ih =>
    rw [pushAll_cons, length_append] at h
    have hle : v.length ≤ (pushData v).length := by
      rw [pushData]
      split_ifs <;> simp <;> omega
    refine fitsCounter_cons.mpr ⟨?_, ih (by omega)⟩
    rw [Nat.mod_eq_of_lt (by omega)]
    omega

/-- The strings that iterating `GetOp` yields; none if it fails before the end. -/
def pushedStrings : Option (List Bytes) := (parse script).map (·.map Prod.snd)

theorem parse_pushAll (hlen : ∀ v ∈ values, v.length < 2 ^ 32) (hfits : FitsCounter values) :
    ∃ ops, parse (pushAll values) = some ops ∧ ops.map Prod.snd = values ∧
      ∀ e ∈ ops, e.1 ≤ opPushData4 := by
  induction values with
  | nil => exact ⟨[], rfl, rfl, by simp⟩
  | cons v values ih =>
    obtain ⟨hv, hlen⟩ := forall_mem_cons.mp hlen
    obtain ⟨hfirst, hrest⟩ := fitsCounter_cons.mp hfits
    obtain ⟨ops, hparse, hvalues, hops⟩ := ih hlen hrest
    obtain ⟨opcode, hop, hget⟩ := getOp_pushData_append hv (pushAll values)
    rw [if_neg (not_lt.mpr hfirst)] at hget
    refine ⟨(opcode, v) :: ops, ?_, ?_, forall_mem_cons.mpr ⟨hop, hops⟩⟩
    · rw [pushAll_cons, parse_eq_some_iff]
      exact .cons hget (parse_eq_some_iff.mp hparse)
    · rw [map_cons, hvalues]

/-- A script that `PushAll` wrote parses only if every string fits the counter. -/
theorem fitsCounter_of_parse {ops : List (UInt8 × Bytes)}
    (hlen : ∀ v ∈ values, v.length < 2 ^ 32) (hparse : parse (pushAll values) = some ops) :
    FitsCounter values := by
  induction values generalizing ops with
  | nil => exact fitsCounter_nil
  | cons v values ih =>
    obtain ⟨hv, hlen⟩ := forall_mem_cons.mp hlen
    obtain ⟨opcode, -, hget⟩ := getOp_pushData_append hv (pushAll values)
    rw [pushAll_cons] at hparse
    cases ops with
    | nil =>
      obtain ⟨_, _, hpush, -⟩ := pushData_eq hv
      rw [hpush] at hparse
      cases parse_eq_nil_iff.mp hparse
    | cons e ops =>
      obtain ⟨hret, -, hrest⟩ := parse_eq_cons_iff.mp hparse
      rw [hget] at hret hrest
      split_ifs at hret hrest with hcut
      exact fitsCounter_cons.mpr ⟨not_lt.mp hcut, ih hlen hrest⟩

end

/-- What `PushAll` wrote is read back, and is push-only, exactly if no count of bytes left wraps
below the length of a string. In any script `GetOp` reads inside, stays inside and moves on. -/
theorem pushAll_reads_back_iff {values : List Bytes} (hlen : ∀ v ∈ values, v.length < 2 ^ 32) :
    ((pushedStrings (pushAll values) = some values ∧ isPushOnly (pushAll values) = true) ↔
      FitsCounter values) ∧
    ∀ (script : CScript) (pc : ℕ), pc ≤ script.length →
      ∃ r, getOp2 script pc = .ok r ∧ r.pc ≤ script.length ∧ (r.fRet = true → pc < r.pc) := by
  refine ⟨⟨?_, fun hfits => ?_⟩, fun script pc hpc => ?_⟩
  · rintro ⟨-, honly⟩
    obtain ⟨ops, hparse, -⟩ := isPushOnly_iff.mp honly
    exact fitsCounter_of_parse hlen hparse
  · obtain ⟨ops, hparse, hvalues, hops⟩ := parse_pushAll hlen hfits
    refine ⟨by rw [pushedStrings, hparse, Option.map_some, hvalues], ?_⟩
    exact isPushOnly_iff.mpr ⟨ops, hparse, fun e he => UInt8.le_trans (hops e he) (by decide)⟩
  · obtain ⟨r, hread, -, hend, hmoves⟩ := getOp2_inside hpc
    exact ⟨r, hread, hend, hmoves⟩

theorem pushAll_reads_back_iff_twoPushes :
    (pushedStrings (pushAll [[1, 2], []]) = some [[1, 2], []] ∧
      isPushOnly (pushAll [[1, 2], []]) = true) ∧ FitsCounter [[1, 2], []] := by
  have hlen : ∀ v ∈ ([[1, 2], []] : List Bytes), v.length < 2 ^ 32 :=
    forall_iff_forall_mem.mp (by decide)
  have hfits : FitsCounter [[1, 2], []] := fitsCounter_of_length_lt (by decide)
  exact ⟨(pushAll_reads_back_iff hlen).1.mpr hfits, hfits⟩

/-- Two strings of `2 ^ 31` bytes: `GetOp` takes the first push for cut off. -/
theorem pushAll_halves_cut_off :
    (∀ v ∈ [replicate (2 ^ 31) (0 : UInt8), replicate (2 ^ 31) 0], v.length < 2 ^ 32) ∧
      pushedStrings (pushAll [replicate (2 ^ 31) 0, replicate (2 ^ 31) 0]) = none := by
  have hv : (replicate (2 ^ 31) (0 : UInt8)).length = 2 ^ 31 := length_replicate
  generalize replicate (2 ^ 31) (0 : UInt8) = v at hv
  have hlen : ∀ w ∈ [v, v], length w < 2 ^ 32 := by simp [hv]
  refine ⟨hlen, Option.eq_none_iff_forall_ne_some.mpr fun strings h => ?_⟩
  obtain ⟨ops, hparse, -⟩ := Option.map_eq_some_iff.mp h
  have hfirst := (fitsCounter_cons.mp (fitsCounter_of_parse hlen hparse)).1
  have hpush : (pushData v).length = 4 + 2 ^ 31 + 1 := by
    rw [pushData, if_neg (by omega), if_neg (by omega), if_neg (by omega), length_cons,
      length_append, length_leBytes, hv]
  rw [pushAll_cons, length_append, hpush, hv] at hfirst
  exact absurd hfirst (by decide)

end Primecoin
