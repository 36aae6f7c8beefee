import Mathlib.Tactic

/-!
# Inverted indexes

Documents `ι` mention keys `κ`. The index maps every key to the sorted list of documents that
mention it. `enter` and `leave` file a document under its keys and take it out again; `leave`
drops a key whose set is empty, and `touch` is a lookup that creates the empty set for a missing
key.

What the index says is `bucket`, for which a missing key and an empty set are the same. That no
empty set is kept is `Tight`, which only `touch` can break.
-/

namespace Inverted

open Function

variable {κ ι : Type*}

abbrev Index (κ ι : Type*) := κ → Option (List ι)

def bucket (index : Index κ ι) (k : κ) : List ι := (index k).getD []

/-- No key has an empty set. -/
def Tight (index : Index κ ι) : Prop := ∀ k, index k ≠ some []

def dropEmpty : List ι → Option (List ι)
  | [] => none
  | i :: s => some (i :: s)

theorem getD_dropEmpty (s : List ι) : (dropEmpty s).getD [] = s := by
  cases s <;> rfl

theorem dropEmpty_ne (s : List ι) : dropEmpty s ≠ some [] := by
  cases s <;> simp [dropEmpty]

/-- In a tight index a key is there just when a document mentions it. -/
theorem Tight.isSome_iff {index : Index κ ι} (h : Tight index) (k : κ) :
    (index k).isSome ↔ ∃ i, i ∈ bucket index k := by
  rw [bucket]
  cases hk : index k with
  | none => simp
  | some s =>
    rw [Option.getD_some]
    have hne : s ≠ [] := fun hs => h k (hk.trans (congrArg some hs))
    exact iff_of_true rfl (List.exists_mem_of_ne_nil s hne)

variable [DecidableEq κ] (index : Index κ ι)

def touch (k : κ) : Index κ ι :=
  Function.update index k (some (bucket index k))

theorem bucket_update_self (k : κ) (s : Option (List ι)) :
    bucket (Function.update index k s) k = s.getD [] := by
  rw [bucket, update_self]

theorem bucket_update_of_ne {k l : κ} (h : l ≠ k) (index : Index κ ι) (s : Option (List ι)) :
    bucket (Function.update index k s) l = bucket index l := by
  rw [bucket, update_of_ne h, bucket]

theorem bucket_touch (k l : κ) : bucket (touch index k) l = bucket index l := by
  by_cases h : l = k
  · rw [h, touch, bucket_update_self, Option.getD_some]
  · rw [touch, bucket_update_of_ne h]

theorem touch_eq_self {index : Index κ ι} {k : κ} (h : (index k).isSome) :
    touch index k = index := by
  obtain ⟨s, hs⟩ := Option.isSome_iff_exists.mp h
  rw [touch, bucket, hs, Option.getD_some, ← hs, update_eq_self]

variable [DecidableEq ι]

section Enter

variable (r : ι → ι → Prop) [DecidableRel r]

def insertInto (i : ι) (s : List ι) : List ι := if i ∈ s then s else s.orderedInsert r i

def fileUnder (i : ι) (index : Index κ ι) (k : κ) : Index κ ι :=
  Function.update index k (some (insertInto r i (bucket index k)))

def enter (i : ι) (index : Index κ ι) (ks : List κ) : Index κ ι := ks.foldl (fileUnder r i) index

variable {r} {index : Index κ ι} {i j : ι} {ks : List κ} {k : κ}

theorem mem_insertInto {s : List ι} : j ∈ insertInto r i s ↔ j ∈ s ∨ j = i := by
  rw [insertInto]
  split_ifs with h
  · constructor
    · exact Or.inl
    · rintro (hj | rfl)
      · exact hj
      · exact h
  · rw [List.mem_orderedInsert, or_comm]

theorem mem_bucket_enter :
    j ∈ bucket (enter r i index ks) k ↔ j ∈ bucket index k ∨ j = i ∧ k ∈ ks := by
  induction ks generalizing index with
  | nil => simp [enter]
  | cons l ks ih =>
    have hstep := @ih (fileUnder r i index l)
    rw [enter] at hstep ⊢
    rw [List.foldl_cons, hstep, List.mem_cons, fileUnder]
    by_cases h : k = l
    · subst h
      rw [bucket_update_self, Option.getD_some, mem_insertInto]
      tauto
    · rw [bucket_update_of_ne h]
      tauto

theorem Tight.enter (h : Tight index) : Tight (enter r i index ks) := by
  induction ks generalizing index with
  | nil => exact h
  | cons l ks ih =>
    refine ih fun k => ?_
    rw [fileUnder]
    by_cases hk : k = l
    · subst hk
      rw [update_self, ne_eq, Option.some.injEq]
      exact List.ne_nil_of_mem (mem_insertInto.mpr (.inr rfl))
    · rw [update_of_ne hk]
      exact h k

end Enter

def takeOut (i : ι) (index : Index κ ι) (k : κ) : Index κ ι :=
  Function.update index k (dropEmpty ((bucket index k).filter (· ≠ i)))

def leave (i : ι) (index : Index κ ι) (ks : List κ) : Index κ ι := ks.foldl (takeOut i) index

section Leave

variable {index : Index κ ι} {i j : ι} {ks : List κ} {k : κ}

theorem mem_bucket_leave :
    j ∈ bucket (leave i index ks) k ↔ j ∈ bucket index k ∧ ¬(j = i ∧ k ∈ ks) := by
  induction ks generalizing index with
  | nil => simp [leave]
  | cons l ks ih =>
    have hstep := @ih (takeOut i index l)
    rw [leave] at hstep ⊢
    rw [List.foldl_cons, hstep, List.mem_cons, takeOut]
    by_cases h : k = l
    · subst h
      rw [bucket_update_self, getD_dropEmpty, List.mem_filter, decide_eq_true_iff]
      tauto
    · rw [bucket_update_of_ne h]
      tauto

/-- A document is only taken out from under its own keys. -/
theorem leave_of_notMem (h : k ∉ ks) : leave i index ks k = index k := by
  induction ks generalizing index with
  | nil => rfl
  | cons l ks ih =>
    rw [List.mem_cons, not_or] at h
    rw [leave, List.foldl_cons]
    exact (ih h.2).trans (update_of_ne h.1 _ _)

theorem Tight.leave (h : Tight index) : Tight (leave i index ks) := by
  induction ks generalizing index with
  | nil => exact h
  | cons l ks ih =>
    refine ih fun k => ?_
    rw [takeOut]
    by_cases hk : k = l
    · subst hk
      rw [update_self]
      exact dropEmpty_ne _
    · rw [update_of_ne hk]
      exact h k

end Leave

end Inverted
