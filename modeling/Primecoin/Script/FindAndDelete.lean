import Primecoin.Script.Cursor

/-!
# Deleting instructions

`FindAndDelete` erases the occurrences of a script `b` while it reads the instructions. Since an
instruction is no proper prefix of another, a `b` that is one instruction is found exactly where
it is the next one, and the boundaries left are those of the original script.
-/

namespace Primecoin

open List

/-- The encodings of the instructions in front of the first that cannot be read, and the rest. -/
def splitLoop : ℕ → CScript → List CScript × CScript
  | 0, pc => ([], pc)
  | k + 1, pc =>
    let r := getOp pc
    if r.fRet then
      (pc.take (pc.length - r.pc.length) :: (splitLoop k r.pc).1, (splitLoop k r.pc).2)
    else ([], pc)

/-- Every instruction shortens the script. -/
def splitInstructions (script : CScript) : List CScript × CScript :=
  splitLoop script.length script

/-- The loops on the script, the cursor and the number of occurrences, a signed integer. None if
the rounds do not suffice. -/
def findAndDeleteRounds (b : CScript) : ℕ → CScript → ℕ → Int32 → Option (CScript × Int32)
  | 0, _, _, _ => none
  | k + 1, script, pc, nFound =>
    if b.length ≤ script.length - pc ∧ (script.drop pc).take b.length = b then
      findAndDeleteRounds b k (script.take pc ++ script.drop (pc + b.length)) pc (nFound + 1)
    else
      let r := getOp (script.drop pc)
      if r.fRet then findAndDeleteRounds b k script (script.length - r.pc.length) nFound
      else some (script, nFound)

variable (b script : CScript)

def findAndDeleteCounted (rounds : ℕ) : Option (CScript × Int32) :=
  if b = [] then some (script, 0) else findAndDeleteRounds b rounds script 0 0

def IsInstruction (b : CScript) : Prop := (getOp b).fRet = true ∧ (getOp b).pc = []

instance (b : CScript) : Decidable (IsInstruction b) :=
  inferInstanceAs (Decidable ((getOp b).fRet = true ∧ (getOp b).pc = []))

variable {pc : CScript}

/-- The encoding of the first instruction and what follows it. -/
theorem take_append_getOp_pc (hret : (getOp pc).fRet = true) :
    pc.take (pc.length - (getOp pc).pc.length) ++ (getOp pc).pc = pc := by
  suffices h : ∃ part, pc = part ++ (getOp pc).pc by
    obtain ⟨part, hpart⟩ := h
    generalize (getOp pc).pc = rest at hpart
    subst hpart
    rw [length_append, Nat.add_sub_cancel, take_left]
  have hget : getOp pc = ⟨true, (getOp pc).opcodeRet, (getOp pc).vchRet, (getOp pc).pc⟩ := by
    rw [← hret]
  rcases getOp_eq_true_iff.mp hget with ⟨-, -, hpc⟩ | ⟨-, -, field, -, -, hpc⟩
  · exact ⟨[(getOp pc).opcodeRet], hpc⟩
  · exact ⟨(getOp pc).opcodeRet :: (field ++ (getOp pc).vchRet), by simpa using hpc⟩

theorem getOp_append_of_isInstruction {b rest : CScript} (hb : IsInstruction b)
    (hlen : (b ++ rest).length ≤ 2 ^ 32) :
    getOp (b ++ rest) = ⟨true, (getOp b).opcodeRet, (getOp b).vchRet, rest⟩ := by
  have hget : getOp b = ⟨true, (getOp b).opcodeRet, (getOp b).vchRet, []⟩ := by
    rw [← hb.1, ← hb.2]
  generalize (getOp b).opcodeRet = opcode at hget ⊢
  generalize (getOp b).vchRet = vch at hget ⊢
  rcases getOp_eq_true_iff.mp hget with ⟨hop, rfl, rfl⟩ | ⟨hop, -, field, hfield, hsize, rfl⟩
  · exact getOp_of_lt hop rest
  · refine getOp_eq_true_iff.mpr (.inr ⟨hop, ?_, field, hfield, hsize, by simp⟩)
    simp only [append_nil, cons_append, length_cons, length_append] at hlen
    rw [Nat.mod_eq_of_lt (by omega)]
    omega

theorem splitLoop_of_le {k : ℕ} {pc : CScript} (hk : pc.length ≤ k) :
    splitLoop k pc = splitInstructions pc := by
  refine rounds_congr (fun k => by cases k <;> rfl) (fun k k' pc hrest => ?_) hk le_rfl
  simp only [splitLoop]
  split_ifs with hret
  · rw [hrest hret]
  · rfl

theorem splitInstructions_of_fRet (hret : (getOp pc).fRet = true) : splitInstructions pc =
      (pc.take (pc.length - (getOp pc).pc.length) :: (splitInstructions (getOp pc).pc).1,
        (splitInstructions (getOp pc).pc).2) := by
  have hlt := length_getOp_pc_lt pc hret
  obtain ⟨k, hk⟩ : ∃ k, pc.length = k + 1 := Nat.exists_eq_succ_of_ne_zero (by omega)
  rw [splitInstructions, hk]
  simp only [splitLoop, hret, if_true]
  rw [splitLoop_of_le (by omega), hk]

theorem splitInstructions_of_not_fRet (hret : (getOp pc).fRet = false) :
    splitInstructions pc = ([], pc) := by
  rw [splitInstructions]
  cases pc.length with
  | zero => rfl
  | succ k => simp only [splitLoop, hret, Bool.false_eq_true, if_false]

theorem flatten_splitInstructions (script : CScript) :
    (splitInstructions script).1.flatten ++ (splitInstructions script).2 = script := by
  induction hn : script.length using Nat.strong_induction_on generalizing script with
  | _ n ih =>
    by_cases hret : (getOp script).fRet = true
    · have hlt := length_getOp_pc_lt script hret
      rw [splitInstructions_of_fRet hret, flatten_cons, append_assoc,
        ih _ (by omega) _ rfl, take_append_getOp_pc hret]
    · rw [splitInstructions_of_not_fRet (eq_false_of_ne_true hret)]
      rfl

theorem getOp_splitInstructions_snd (script : CScript) :
    (getOp (splitInstructions script).2).fRet = false := by
  induction hn : script.length using Nat.strong_induction_on generalizing script with
  | _ n ih =>
    by_cases hret : (getOp script).fRet = true
    · have hlt := length_getOp_pc_lt script hret
      rw [splitInstructions_of_fRet hret]
      exact ih _ (by omega) _ rfl
    · rw [splitInstructions_of_not_fRet (eq_false_of_ne_true hret)]
      exact eq_false_of_ne_true hret

theorem splitInstructions_append {b rest : CScript} (hb : IsInstruction b)
    (hlen : (b ++ rest).length ≤ 2 ^ 32) :
    splitInstructions (b ++ rest) =
      (b :: (splitInstructions rest).1, (splitInstructions rest).2) := by
  have hget := getOp_append_of_isInstruction hb hlen
  rw [splitInstructions_of_fRet (by rw [hget]), hget]
  simp only [length_append, Nat.add_sub_cancel, take_left]

def withoutInstruction : CScript :=
  ((splitInstructions script).1.filter (· ≠ b)).flatten ++ (splitInstructions script).2

def countInstruction : ℕ := (splitInstructions script).1.count b

section Counts

variable {b rest : CScript}

theorem withoutInstruction_append (hb : IsInstruction b) (hlen : (b ++ rest).length ≤ 2 ^ 32) :
    withoutInstruction b (b ++ rest) = withoutInstruction b rest := by
  rw [withoutInstruction, splitInstructions_append hb hlen, filter_cons_of_neg (by simp)]
  rfl

theorem countInstruction_append (hb : IsInstruction b) (hlen : (b ++ rest).length ≤ 2 ^ 32) :
    countInstruction b (b ++ rest) = countInstruction b rest + 1 := by
  rw [countInstruction, splitInstructions_append hb hlen, count_cons_self]
  rfl

/-- The rounds from a cursor on. In front of it nothing changes. -/
theorem findAndDeleteRounds_eq (hb : IsInstruction b) {k : ℕ} (before : CScript)
    (hlen : rest.length ≤ 2 ^ 32) (hk : rest.length < k) (nFound : Int32) :
    findAndDeleteRounds b k (before ++ rest) before.length nFound =
      some (before ++ withoutInstruction b rest,
        nFound + Int32.ofNat (countInstruction b rest)) := by
  induction k generalizing before rest nFound with
  | zero => cases hk
  | succ k ih =>
    have hsub : (before ++ rest).length - before.length = rest.length := by simp
    simp only [findAndDeleteRounds, drop_left, hsub]
    split_ifs with hmatch hret
    · -- `b` is the next instruction
      obtain ⟨rest, rfl⟩ : ∃ tail, rest = b ++ tail := by
        refine ⟨rest.drop b.length, (take_append_drop b.length rest).symm.trans ?_⟩
        rw [hmatch.2]
      have hpos : 0 < b.length := by
        have := length_getOp_pc_lt b hb.1
        omega
      rw [length_append] at hk
      have hrest : rest.length ≤ 2 ^ 32 := by
        rw [length_append] at hlen
        omega
      rw [take_left, ← drop_drop, drop_left, drop_left,
        ih before hrest (by omega), withoutInstruction_append hb hlen,
        countInstruction_append hb hlen, Int32.ofNat_add]
      rw [Int32.add_assoc, Int32.add_comm 1]
      rfl
    · -- another instruction, which the cursor passes
      have hlt := length_getOp_pc_lt rest hret
      have hsplit := take_append_getOp_pc hret
      have hne : rest.take (rest.length - (getOp rest).pc.length) ≠ b := by
        intro heq
        refine hmatch ⟨?_, ?_⟩
        · rw [← heq, length_take]
          omega
        · rw [← heq, length_take, Nat.min_eq_left (Nat.sub_le _ _)]
      have hcursor : (before ++ rest).length - (getOp rest).pc.length =
          (before ++ rest.take (rest.length - (getOp rest).pc.length)).length := by
        rw [length_append, length_append, length_take]
        omega
      have hwhole : before ++ rest =
          before ++ rest.take (rest.length - (getOp rest).pc.length) ++ (getOp rest).pc := by
        rw [append_assoc, hsplit]
      rw [hcursor, hwhole, ih _ (by omega) (by omega)]
      simp only [withoutInstruction, countInstruction, splitInstructions_of_fRet hret]
      rw [filter_cons_of_pos (by simpa using hne), count_cons_of_ne hne, flatten_cons]
      simp only [append_assoc]
    · rw [Bool.not_eq_true] at hret
      simp [withoutInstruction, countInstruction, splitInstructions_of_not_fRet hret]

end Counts

/-- What is left is what `findAndDelete` leaves, for any script to be deleted. -/
theorem findAndDeleteRounds_script {b : CScript} (hb : b ≠ []) {k : ℕ} (before : CScript)
    {rest : CScript} (hk : rest.length < k) (nFound : Int32) :
    ∃ nFound', findAndDeleteRounds b k (before ++ rest) before.length nFound =
      some (before ++ findAndDeleteLoop b k rest, nFound') := by
  have hpos : 0 < b.length := length_pos_of_ne_nil hb
  induction k generalizing before rest nFound with
  | zero => cases hk
  | succ k ih =>
    have hsub : (before ++ rest).length - before.length = rest.length := by simp
    have hextends : b.isPrefixOf rest = true ↔ b.length ≤ rest.length ∧ rest.take b.length = b := by
      rw [List.isPrefixOf_iff_prefix, prefix_iff_eq_take]
      refine ⟨fun h => ⟨?_, h.symm⟩, fun h => h.2.symm⟩
      rw [h, length_take]
      exact Nat.min_le_right _ _
    simp only [findAndDeleteRounds, findAndDeleteLoop, drop_left, hsub, hextends]
    split_ifs with hmatch hret
    · rw [take_left, ← drop_drop, drop_left]
      exact ih before (by rw [length_drop]; omega) (nFound + 1)
    · have hlt := length_getOp_pc_lt rest hret
      have hsplit := take_append_getOp_pc hret
      have hcursor : (before ++ rest).length - (getOp rest).pc.length =
          (before ++ rest.take (rest.length - (getOp rest).pc.length)).length := by
        rw [length_append, length_append, length_take]
        omega
      have hk' : (getOp rest).pc.length < k := by omega
      obtain ⟨nFound', hround⟩ := ih
        (before ++ rest.take (rest.length - (getOp rest).pc.length)) hk' nFound
      rw [append_assoc, hsplit, append_assoc] at hround
      exact ⟨nFound', by rw [hcursor, hround]⟩
    · exact ⟨nFound, rfl⟩

theorem findAndDeleteCounted_script :
    (findAndDeleteCounted b script (script.length + 1)).map Prod.fst =
      some (findAndDelete b script) := by
  rw [findAndDeleteCounted, findAndDelete]
  split_ifs with hb
  · rfl
  · obtain ⟨nFound, h⟩ := findAndDeleteRounds_script hb [] (Nat.lt_succ_self script.length) 0
    rw [nil_append, length_nil] at h
    rw [h]
    rfl

/-- Deleting an instruction from a script whose size fits the cast, and in which it does not occur
too often: it ends, removes the instructions equal to it and nothing else, and returns their
number. -/
theorem findAndDelete_instruction {b script : CScript} (hb : IsInstruction b)
    (hlen : script.length ≤ 2 ^ 32) (hcount : countInstruction b script < 2 ^ 31) :
    ((splitInstructions script).1.flatten ++ (splitInstructions script).2 = script ∧
      (getOp (splitInstructions script).2).fRet = false) ∧
    ∀ rounds > script.length, ∃ nFound,
      findAndDeleteCounted b script rounds = some (withoutInstruction b script, nFound) ∧
        nFound.toInt = countInstruction b script := by
  refine ⟨⟨flatten_splitInstructions script, getOp_splitInstructions_snd script⟩, ?_⟩
  intro rounds hrounds
  have hne : b ≠ [] := by
    rintro rfl
    exact absurd hb.1 (by decide)
  refine ⟨Int32.ofNat (countInstruction b script), ?_, Int32.toInt_ofNat_of_lt hcount⟩
  have h := findAndDeleteRounds_eq hb [] hlen hrounds 0
  rw [findAndDeleteCounted, if_neg hne]
  simpa using h

/-- Both instructions go, the byte in the push stays. -/
theorem findAndDelete_instruction_twoNops :
    withoutInstruction [0x61] [0x61, 0x01, 0x61, 0x61] = [0x01, 0x61] ∧
      ∃ nFound, findAndDeleteCounted [0x61] [0x61, 0x01, 0x61, 0x61] 5 =
        some (withoutInstruction [0x61] [0x61, 0x01, 0x61, 0x61], nFound) ∧ nFound.toInt = 2 :=
  ⟨by decide, (findAndDelete_instruction (by decide) (by decide) (by decide)).2 5 (by decide)⟩

theorem countInstruction_replicate (n : ℕ) : countInstruction [0x61] (replicate n 0x61) = n := by
  induction n with
  | zero => rfl
  | succ n ih =>
    have hget : getOp (0x61 :: replicate n 0x61) =
        ⟨true, 0x61, [], replicate n 0x61⟩ := getOp_of_lt (by decide) _
    rw [countInstruction] at ih
    rw [replicate_succ, countInstruction, splitInstructions_of_fRet (by rw [hget]), hget]
    simp [ih]

/-- The counter does not hold the number of `2 ^ 31` instructions. -/
theorem findAndDelete_overflows :
    IsInstruction [0x61] ∧ countInstruction [0x61] (replicate (2 ^ 31) 0x61) = 2 ^ 31 ∧
      ∀ rounds > 2 ^ 31, ∃ nFound, findAndDeleteCounted [0x61] (replicate (2 ^ 31) 0x61) rounds =
          some (withoutInstruction [0x61] (replicate (2 ^ 31) 0x61), nFound) ∧
        nFound.toInt = -2 ^ 31 := by
  refine ⟨by decide, countInstruction_replicate _, fun rounds hrounds => ?_⟩
  have hlen : (replicate (2 ^ 31) (0x61 : UInt8)).length = 2 ^ 31 := length_replicate
  have hcount := countInstruction_replicate (2 ^ 31)
  generalize replicate (2 ^ 31) (0x61 : UInt8) = script at hlen hcount ⊢
  have hb : IsInstruction [0x61] := by decide
  have hrest : script.length ≤ 2 ^ 32 := by omega
  have hk : script.length < rounds := by omega
  have h := findAndDeleteRounds_eq hb [] hrest hk 0
  rw [hcount, nil_append, length_nil, nil_append] at h
  refine ⟨0 + Int32.ofNat (2 ^ 31), ?_, by decide⟩
  rw [findAndDeleteCounted, if_neg (by decide)]
  exact h

end Primecoin
