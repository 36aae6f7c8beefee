import Mathlib.Data.Finset.Card

/-!
# The set of the most recent elements

`mruset` keeps its elements in a set and in a queue. A new element goes to the end of the queue,
and at the maximal size the one at the front leaves; 0 is no limit.
-/

namespace Primecoin

open List

structure MruSet (α : Type) where
  set : Finset α
  queue : List α
  nMaxSize : ℕ

namespace MruSet

variable {α : Type} [DecidableEq α] (s : MruSet α)

def popFront : MruSet α :=
  match s.queue with
  | [] => s
  | front :: queue => { s with set := s.set.erase front, queue := queue }

def insert (x : α) : MruSet α :=
  if x ∈ s.set then s
  else
    let s := { s with set := {x} ∪ s.set }
    let s := if s.nMaxSize ≠ 0 ∧ s.queue.length = s.nMaxSize then s.popFront else s
    { s with queue := s.queue ++ [x] }

def shrink (nMaxSize : ℕ) : ℕ → MruSet α → MruSet α
  | 0, s => s
  | rounds + 1, s =>
    if nMaxSize < s.queue.length then shrink nMaxSize rounds s.popFront else s

def maxSize (nMaxSize : ℕ) : MruSet α :=
  { if nMaxSize ≠ 0 then shrink nMaxSize s.queue.length s else s with nMaxSize := nMaxSize }

inductive Call (α : Type) where
  | insert (x : α)
  | maxSize (nMaxSize : ℕ)

def Call.maxSize? : Call α → Option ℕ
  | .insert _ => none
  | .maxSize nMaxSize => some nMaxSize

def exec (s : MruSet α × List α) : Call α → MruSet α × List α
  | .insert x => (s.1.insert x, if x ∈ s.1.set then s.2 else s.2 ++ [x])
  | .maxSize nMaxSize => (s.1.maxSize nMaxSize, s.2)

def run (nMaxSizeIn : ℕ) (calls : List (Call α)) : MruSet α × List α :=
  calls.foldl exec (⟨∅, [], nMaxSizeIn⟩, [])

/-- The set has the elements of the queue and of `l`, each once. -/
def Agrees (l : List α) : Prop :=
  (s.queue ++ l).Nodup ∧ s.set = (s.queue ++ l).toFinset

/-- After every call. If the limit has been `n` all the time, the queue is as long as it allows.
-/
structure Recent (n : ℕ) (constant : Prop) (s : MruSet α × List α) : Prop where
  agrees : s.1.Agrees []
  length_le : s.1.nMaxSize ≠ 0 → s.1.queue.length ≤ s.1.nMaxSize
  suffix : s.1.queue <:+ s.2
  filled : constant → s.1.nMaxSize = n ∧ s.1.queue.length = min n s.2.length

variable {s : MruSet α}

theorem nMaxSize_insert (s : MruSet α) (x : α) : (s.insert x).nMaxSize = s.nMaxSize := by
  rw [insert]
  dsimp only
  split_ifs
  · rfl
  · rw [popFront]
    split <;> rfl
  · rfl

theorem popFront_spec {l : List α} (h : s.Agrees l) :
    s.popFront.Agrees l ∧ s.popFront.queue = s.queue.tail := by
  rw [popFront]
  cases hqueue : s.queue with
  | nil => exact ⟨h, hqueue⟩
  | cons front queue =>
    obtain ⟨hnodup, hset⟩ := h
    rw [hqueue, cons_append, nodup_cons] at hnodup
    rw [hqueue, cons_append, toFinset_cons] at hset
    refine ⟨⟨hnodup.2, ?_⟩, rfl⟩
    rw [hset]
    exact Finset.erase_insert (mem_toFinset.not.mpr hnodup.1)

theorem shrink_spec (h : s.Agrees []) (nMaxSize rounds : ℕ) :
    (shrink nMaxSize rounds s).Agrees [] ∧ (shrink nMaxSize rounds s).queue <:+ s.queue ∧
      (s.queue.length ≤ rounds →
        (shrink nMaxSize rounds s).queue.length = min nMaxSize s.queue.length) := by
  induction rounds generalizing s with
  | zero =>
    refine ⟨h, suffix_rfl, fun hle => ?_⟩
    rw [shrink]
    omega
  | succ rounds ih =>
    rw [shrink]
    split_ifs with hlong
    · obtain ⟨hpop, hqueue⟩ := popFront_spec h
      obtain ⟨hagrees, hsuffix, hlength⟩ := ih hpop
      rw [hqueue] at hsuffix hlength
      rw [length_tail] at hlength
      refine ⟨hagrees, hsuffix.trans (tail_suffix _), fun hrounds => ?_⟩
      rw [hlength (by omega)]
      omega
    · exact ⟨h, suffix_rfl, fun _ => by omega⟩

theorem insert_spec (h : s.Agrees []) {x : α} (hx : x ∉ s.set) :
    (s.insert x).Agrees [] ∧ (s.insert x).queue =
      (if s.nMaxSize ≠ 0 ∧ s.queue.length = s.nMaxSize then s.queue.tail else s.queue) ++ [x] := by
  obtain ⟨hnodup, hset⟩ := h
  rw [append_nil] at hnodup hset
  have hmem : x ∉ s.queue := fun hmem => hx (hset ▸ mem_toFinset.mpr hmem)
  have hagrees : Agrees { s with set := {x} ∪ s.set } [x] := by
    refine ⟨hnodup.append (nodup_singleton x) (disjoint_singleton.mpr hmem), ?_⟩
    rw [hset, toFinset_append, Finset.union_comm]
    rfl
  rw [insert, if_neg hx]
  dsimp only
  split_ifs
  · obtain ⟨hpop, hqueue⟩ := popFront_spec hagrees
    refine ⟨?_, congrArg (· ++ [x]) hqueue⟩
    rwa [Agrees, append_nil]
  · refine ⟨?_, rfl⟩
    rwa [Agrees, append_nil]

variable {n : ℕ} {constant : Prop} {s : MruSet α × List α} (h : Recent n constant s)
include h

theorem Recent.insert (hn : constant → n ≠ 0) (x : α) : Recent n constant (exec s (.insert x)) := by
  rw [exec]
  by_cases hx : x ∈ s.1.set
  · rwa [MruSet.insert, if_pos hx, if_pos hx]
  · obtain ⟨hagrees, hqueue⟩ := insert_spec h.agrees hx
    have hmax := nMaxSize_insert s.1 x
    have hle := h.length_le
    rw [if_neg hx]
    refine ⟨hagrees, fun hne => ?_, ?_, fun hconstant => ⟨?_, ?_⟩⟩
    · rw [hmax] at hne ⊢
      rw [hqueue, length_append, length_singleton]
      split_ifs
      · rw [length_tail]
        omega
      · omega
    · rw [hqueue, suffix_append_self_iff]
      split_ifs
      · exact (tail_suffix _).trans h.suffix
      · exact h.suffix
    · rw [hmax, (h.filled hconstant).1]
    · obtain ⟨hmax, hfilled⟩ := h.filled hconstant
      have hne := hn hconstant
      rw [hqueue, length_append, length_append, length_singleton]
      split_ifs
      · rw [length_tail]
        omega
      · omega

theorem Recent.maxSize {nMaxSize : ℕ} (hn : constant → n ≠ 0 ∧ nMaxSize = n) :
    Recent n constant (exec s (.maxSize nMaxSize)) := by
  rw [exec, MruSet.maxSize]
  obtain ⟨hagrees, hsuffix, hlength⟩ := shrink_spec h.agrees nMaxSize s.1.queue.length
  split_ifs with hzero
  · refine ⟨hagrees, fun _ => ?_, hsuffix.trans h.suffix, fun hconstant => ?_⟩
    · exact (hlength le_rfl).trans_le (min_le_left _ _)
    · obtain ⟨-, rfl⟩ := hn hconstant
      refine ⟨rfl, (hlength le_rfl).trans ?_⟩
      rw [(h.filled hconstant).2]
      exact inf_left_idem _ _
  · refine ⟨h.agrees, fun hne => absurd hne hzero, h.suffix, fun hconstant => ?_⟩
    obtain ⟨hne, rfl⟩ := hn hconstant
    exact absurd hne hzero

omit h

theorem nMaxSize_run (nMaxSizeIn : ℕ) (calls : List (Call α)) : (run nMaxSizeIn calls).1.nMaxSize =
    (calls.filterMap Call.maxSize?).getLastD nMaxSizeIn := by
  induction calls using reverseRecOn with
  | nil => rfl
  | append_singleton calls call ih =>
    rw [run, foldl_append, filterMap_append]
    cases call with
    | insert x =>
      have hnone : [Call.insert x].filterMap Call.maxSize? = [] := rfl
      rw [hnone, append_nil, ← ih]
      exact nMaxSize_insert _ x
    | maxSize n => exact (getLastD_concat ..).symm

/-- Set and queue agree and hold the last elements inserted, no more than the limit set last; under
a constant limit they are as many as it allows. -/
theorem run_recent (nMaxSizeIn : ℕ) (calls : List (Call α)) :
    let s := run nMaxSizeIn calls
    s.1.queue.Nodup ∧ s.1.set = s.1.queue.toFinset ∧
      s.1.nMaxSize = (calls.filterMap Call.maxSize?).getLastD nMaxSizeIn ∧
      (s.1.nMaxSize ≠ 0 → s.1.set.card ≤ s.1.nMaxSize) ∧ s.1.queue <:+ s.2 ∧
      (nMaxSizeIn ≠ 0 → (∀ n, .maxSize n ∈ calls → n = nMaxSizeIn) →
        s.1.queue = s.2.drop (s.2.length - nMaxSizeIn)) := by
  have hrun : Recent nMaxSizeIn (nMaxSizeIn ≠ 0 ∧ ∀ n, Call.maxSize n ∈ calls → n = nMaxSizeIn)
      (run nMaxSizeIn calls) := by
    refine foldlRecOn calls exec ⟨by simp [Agrees], fun _ => Nat.zero_le _, suffix_rfl,
      fun _ => ⟨rfl, by simp⟩⟩ fun s hs call hcall => ?_
    cases call with
    | insert x => exact hs.insert And.left x
    | maxSize n => exact hs.maxSize fun hconstant => ⟨hconstant.1, hconstant.2 n hcall⟩
  obtain ⟨⟨hnodup, hset⟩, hle, hsuffix, hfilled⟩ := hrun
  rw [append_nil] at hnodup hset
  refine ⟨hnodup, hset, nMaxSize_run nMaxSizeIn calls, fun hne => ?_, hsuffix,
    fun hne hconstant => ?_⟩
  · rw [hset]
    exact (toFinset_card_le _).trans (hle hne)
  · have hlength := (hfilled ⟨hne, hconstant⟩).2
    have hdrop := suffix_iff_eq_drop.mp hsuffix
    rw [hlength] at hdrop
    rw [hdrop]
    congr 1
    omega

end MruSet

end Primecoin
