import Mathlib.Tactic

/-!
# Ordered sets

A finite set kept as its elements in increasing order, to be walked through in that order.
-/

structure SortedSet (α : Type*) [LinearOrder α] where
  toList : List α
  sorted : toList.Pairwise (· < ·)
  deriving DecidableEq

namespace SortedSet

open List

variable {α : Type*} [LinearOrder α] {a b : α} {s : SortedSet α} {l : List α}

def empty : SortedSet α := ⟨[], .nil⟩

instance : Membership α (SortedSet α) := ⟨fun s a => a ∈ s.toList⟩

instance (a : α) (s : SortedSet α) : Decidable (a ∈ s) := inferInstanceAs (Decidable (a ∈ s.toList))

theorem mem_iff : a ∈ s ↔ a ∈ s.toList := Iff.rfl

theorem notMem_empty (a : α) : a ∉ (empty : SortedSet α) := not_mem_nil

def card (s : SortedSet α) : ℕ := s.toList.length

theorem nodup (s : SortedSet α) : s.toList.Nodup := s.sorted.imp fun h => h.ne

def insertList (a : α) : List α → List α
  | [] => [a]
  | b :: l => if a < b then a :: b :: l else if a = b then b :: l else b :: insertList a l

theorem mem_insertList : b ∈ insertList a l ↔ b = a ∨ b ∈ l := by
  induction l with
  | nil => simp [insertList]
  | cons c l ih =>
    rw [insertList]
    split_ifs with hlt heq
    · simp
    · simp [heq]
    · simp only [mem_cons, ih]
      tauto

theorem pairwise_insertList (a : α) (h : l.Pairwise (· < ·)) :
    (insertList a l).Pairwise (· < ·) := by
  induction l with
  | nil => exact pairwise_singleton _ a
  | cons b l ih =>
    have hb : ∀ c ∈ l, b < c := fun c hc => rel_of_pairwise_cons h hc
    rw [insertList]
    split_ifs with hlt heq
    · refine pairwise_cons.mpr ⟨fun c hc => ?_, h⟩
      rcases mem_cons.mp hc with rfl | hc
      · exact hlt
      · exact hlt.trans (hb c hc)
    · exact h
    · refine pairwise_cons.mpr ⟨fun c hc => ?_, ih h.of_cons⟩
      rcases mem_insertList.mp hc with rfl | hc
      · exact lt_of_le_of_ne (not_lt.mp hlt) (Ne.symm heq)
      · exact hb c hc

def insert (a : α) (s : SortedSet α) : SortedSet α :=
  ⟨insertList a s.toList, pairwise_insertList a s.sorted⟩

def erase (s : SortedSet α) (a : α) : SortedSet α :=
  ⟨s.toList.erase a, s.sorted.sublist List.erase_sublist⟩

@[simp] theorem mem_insert : b ∈ s.insert a ↔ b = a ∨ b ∈ s :=
  mem_insertList

@[simp] theorem mem_erase : b ∈ s.erase a ↔ b ≠ a ∧ b ∈ s :=
  s.nodup.mem_erase_iff

scoped instance : LinearOrder Int64 where
  le_refl := Int64.le_refl
  le_trans _ _ _ := Int64.le_trans
  le_antisymm _ _ := Int64.le_antisymm
  le_total := Int64.le_total
  lt_iff_le_not_ge a b := by
    rw [Int64.le_iff_toInt_le, Int64.le_iff_toInt_le, Int64.lt_iff_toInt_lt]
    omega
  toDecidableLE := inferInstance
  toDecidableEq := inferInstance
  toDecidableLT := inferInstance

end SortedSet
