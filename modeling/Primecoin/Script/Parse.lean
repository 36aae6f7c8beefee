import Primecoin.Script.Build

/-!
# Scripts as instructions

`parse` splits a script into its instructions, each an opcode with the bytes it pushes. A script
with an instruction cut off does not parse.
-/

namespace Primecoin

open List
theorem getOp_of_lt {opcode : UInt8} (h : opPushData4 < opcode) (pc : CScript) :
    getOp (opcode :: pc) = ⟨true, opcode, [], pc⟩ := by
  rw [getOp, if_neg (UInt8.not_le.mpr h)]

theorem getOp_zero (pc : CScript) : getOp (0 :: pc) = ⟨true, 0, [], pc⟩ := by
  simp [getOp, pushLengthSize, opPushData1, opPushData4]

theorem opcodeRet_of_getOp_cons {first opcode : UInt8} {pc pc' : CScript} {vch : Bytes}
    (h : getOp (first :: pc) = ⟨true, opcode, vch, pc'⟩) : first = opcode := by
  simp only [getOp] at h
  split_ifs at h <;> simp_all

theorem getOp_of_not_fRet {pc : CScript} (h : (getOp pc).fRet = false) :
    (getOp pc).opcodeRet = opInvalidOpcode ∧ (getOp pc).vchRet = [] := by
  cases pc with
  | nil => exact ⟨rfl, rfl⟩
  | cons opcode pc =>
    simp only [getOp] at h ⊢
    split_ifs at h ⊢ <;> simp_all

def parseLoop : ℕ → CScript → Option (List (UInt8 × Bytes))
  | 0, pc => if pc = [] then some [] else none
  | k + 1, pc =>
    if pc = [] then some []
    else
      let r := getOp pc
      if r.fRet then (parseLoop k r.pc).map ((r.opcodeRet, r.vchRet) :: ·) else none

def parse (script : CScript) : Option (List (UInt8 × Bytes)) := parseLoop script.length script

theorem parseLoop_of_le {k : ℕ} {pc : CScript} (hk : pc.length ≤ k) :
    parseLoop k pc = parse pc := by
  refine rounds_congr (fun k => by cases k <;> rfl) (fun k k' pc hrest => ?_) hk le_rfl
  simp only [parseLoop]
  split_ifs with hnil hret
  · rfl
  · rw [hrest hret]
  · rfl

variable {script : CScript}

theorem parse_eq (hret : (getOp script).fRet = true) : parse script = (parse (getOp script).pc).map
      (((getOp script).opcodeRet, (getOp script).vchRet) :: ·) := by
  have hlt := length_getOp_pc_lt script hret
  have hne : script ≠ [] := by
    rintro rfl
    cases hret
  obtain ⟨k, hk⟩ : ∃ k, script.length = k + 1 := Nat.exists_eq_succ_of_ne_zero (by omega)
  rw [parse, hk]
  simp only [parseLoop, hne, hret, if_false, if_true]
  rw [parseLoop_of_le (by omega)]

theorem parse_eq_nil_iff : parse script = some [] ↔ script = [] := by
  refine ⟨fun h => ?_, fun h => h ▸ rfl⟩
  by_contra hne
  obtain ⟨k, hk⟩ : ∃ k, script.length = k + 1 :=
    Nat.exists_eq_succ_of_ne_zero (by simpa using hne)
  rw [parse, hk] at h
  simp only [parseLoop, hne, if_false] at h
  split_ifs at h
  obtain ⟨ops, -, hops⟩ := Option.map_eq_some_iff.mp h
  cases hops

variable {ops : List (UInt8 × Bytes)}

theorem parse_eq_cons_iff {e : UInt8 × Bytes} :
    parse script = some (e :: ops) ↔ (getOp script).fRet = true ∧
      e = ((getOp script).opcodeRet, (getOp script).vchRet) ∧
      parse (getOp script).pc = some ops := by
  constructor
  · intro h
    have hret : (getOp script).fRet = true := by
      by_contra hret
      have hne : script ≠ [] := by
        rintro rfl
        cases h
      obtain ⟨k, hk⟩ : ∃ k, script.length = k + 1 :=
        Nat.exists_eq_succ_of_ne_zero (by simpa using hne)
      rw [parse, hk] at h
      simp only [parseLoop, hne, hret, if_false] at h
      cases h
    rw [parse_eq hret] at h
    obtain ⟨rest, hrest, hcons⟩ := Option.map_eq_some_iff.mp h
    obtain ⟨hhead, htail⟩ := cons.inj hcons
    exact ⟨hret, hhead.symm, htail ▸ hrest⟩
  · rintro ⟨hret, rfl, hrest⟩
    rw [parse_eq hret, hrest]
    rfl

/-- The cursor moves over the instructions from `pc` to `pc'`. -/
inductive Reads : CScript → List (UInt8 × Bytes) → CScript → Prop
  | nil {pc : CScript} : Reads pc [] pc
  | cons {pc pc' pc'' : CScript} {opcode : UInt8} {vch : Bytes} {ops : List (UInt8 × Bytes)} :
      getOp pc = ⟨true, opcode, vch, pc'⟩ → Reads pc' ops pc'' →
        Reads pc ((opcode, vch) :: ops) pc''

namespace Reads

variable {pc pc' pc'' : CScript} {ops ops' : List (UInt8 × Bytes)}

theorem nil_iff : Reads pc [] pc' ↔ pc' = pc := by
  refine ⟨fun h => ?_, fun h => h ▸ .nil⟩
  cases h
  rfl

theorem cons_iff {opcode : UInt8} {vch : Bytes} : Reads pc ((opcode, vch) :: ops) pc'' ↔
      ∃ pc', getOp pc = ⟨true, opcode, vch, pc'⟩ ∧ Reads pc' ops pc'' := by
  refine ⟨fun h => ?_, fun ⟨_, hop, hops⟩ => .cons hop hops⟩
  cases h with
  | cons hop hops => exact ⟨_, hop, hops⟩

theorem append_iff :
    Reads pc (ops ++ ops') pc'' ↔ ∃ pc', Reads pc ops pc' ∧ Reads pc' ops' pc'' := by
  induction ops generalizing pc with
  | nil => simp [nil_iff]
  | cons e ops ih =>
    obtain ⟨opcode, vch⟩ := e
    rw [cons_append, cons_iff]
    simp only [cons_iff, ih]
    constructor
    · rintro ⟨next, hop, mid, hops, hops'⟩
      exact ⟨mid, ⟨next, hop, hops⟩, hops'⟩
    · rintro ⟨mid, ⟨next, hop, hops⟩, hops'⟩
      exact ⟨next, hop, mid, hops, hops'⟩

theorem length_le (h : Reads pc ops pc') : ops.length + pc'.length ≤ pc.length := by
  induction h with
  | nil => simp
  | @cons pc _ _ opcode vch ops hop _ ih =>
    have hlt := length_getOp_pc_lt pc (by rw [hop])
    simp only [hop] at hlt
    rw [length_cons]
    omega

end Reads

theorem parse_eq_some_iff : parse script = some ops ↔ Reads script ops [] := by
  induction ops generalizing script with
  | nil => rw [parse_eq_nil_iff, Reads.nil_iff, eq_comm]
  | cons e ops ih =>
    obtain ⟨opcode, vch⟩ := e
    rw [parse_eq_cons_iff, Reads.cons_iff]
    constructor
    · rintro ⟨hret, he, hrest⟩
      obtain ⟨rfl, rfl⟩ := Prod.mk.inj he
      exact ⟨_, by rw [← hret], ih.mp hrest⟩
    · rintro ⟨pc', hop, hrest⟩
      rw [hop]
      exact ⟨rfl, rfl, ih.mpr hrest⟩

theorem isPushOnly_iff :
    isPushOnly script = true ↔ ∃ ops, parse script = some ops ∧ ∀ e ∈ ops, e.1 ≤ op16 := by
  suffices h : ∀ k pc, length pc ≤ k → (isPushOnlyLoop k pc = true ↔
      ∃ ops, Reads pc ops [] ∧ ∀ e ∈ ops, e.1 ≤ op16) by
    simp only [parse_eq_some_iff]
    exact h script.length script le_rfl
  intro k
  induction k with
  | zero =>
    intro pc hk
    cases length_eq_zero_iff.mp (Nat.le_zero.mp hk)
    exact ⟨fun _ => ⟨[], .nil, by simp⟩, fun _ => rfl⟩
  | succ k ih =>
    intro pc hk
    simp only [isPushOnlyLoop]
    split_ifs with hnil hret hop
    · cases hnil
      exact ⟨fun _ => ⟨[], .nil, by simp⟩, fun _ => rfl⟩
    · refine ⟨fun h => (by cases h), ?_⟩
      rintro ⟨_ | ⟨⟨opcode, vch⟩, ops⟩, hreads, -⟩
      · exact absurd (Reads.nil_iff.mp hreads).symm hnil
      · obtain ⟨_, hget, -⟩ := Reads.cons_iff.mp hreads
        rw [hget] at hret
        cases hret
    · refine ⟨fun h => (by cases h), ?_⟩
      rintro ⟨_ | ⟨⟨opcode, vch⟩, ops⟩, hreads, hops⟩
      · exact absurd (Reads.nil_iff.mp hreads).symm hnil
      · obtain ⟨_, hget, -⟩ := Reads.cons_iff.mp hreads
        rw [hget] at hop
        exact absurd (hops _ mem_cons_self) (UInt8.not_le.mpr hop)
    · rw [Bool.not_eq_true', Bool.not_eq_false] at hret
      have hlt := length_getOp_pc_lt pc hret
      rw [ih (getOp pc).pc (by omega)]
      constructor
      · rintro ⟨ops, hreads, hops⟩
        refine ⟨((getOp pc).opcodeRet, (getOp pc).vchRet) :: ops, ?_, ?_⟩
        · exact .cons (by rw [← hret]) hreads
        · exact forall_mem_cons.mpr ⟨UInt8.not_lt.mp hop, hops⟩
      · rintro ⟨_ | ⟨⟨opcode, vch⟩, ops⟩, hreads, hops⟩
        · exact absurd (Reads.nil_iff.mp hreads).symm hnil
        · obtain ⟨pc', hget, hrest⟩ := Reads.cons_iff.mp hreads
          rw [hget]
          exact ⟨ops, hrest, (forall_mem_cons.mp hops).2⟩

end Primecoin
