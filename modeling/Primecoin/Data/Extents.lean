import Mathlib.Tactic

/-!
# Extents handed out by counters

Every key has a region of positions and a counter `used` of what has been handed out of it. An
extent reserved at the counter lies behind everything `Within` the counters, so extents that come
from the counters are `Apart`. An extent that did not may reach past its counter, and then the
next reservation can run into it.
-/

namespace Extents

variable {κ : Type*}

structure Extent (κ : Type*) where
  key : κ
  start : ℕ
  length : ℕ
  deriving DecidableEq, Repr

def Extent.stop (e : Extent κ) : ℕ := e.start + e.length

def Apart (e f : Extent κ) : Prop := e.key = f.key → e.stop ≤ f.start ∨ f.stop ≤ e.start

instance [DecidableEq κ] (e f : Extent κ) : Decidable (Apart e f) :=
  inferInstanceAs (Decidable (_ → _))

/-- The extent does not reach past the counter of its region. -/
def Within (used : κ → ℕ) (e : Extent κ) : Prop := e.stop ≤ used e.key

/-- What comes from a counter next is apart from all extents within it. -/
theorem Within.apart {used : κ → ℕ} {e : Extent κ} (h : Within used e) (k : κ) (n : ℕ) :
    Apart e ⟨k, used k, n⟩ := by
  intro hkey
  left
  exact h.trans_eq (congrArg used hkey)

variable [DecidableEq κ] (used : κ → ℕ) (k : κ) (n : ℕ)

def grow : κ → ℕ := Function.update used k (used k + n)

theorem grow_self : grow used k n k = used k + n :=
  Function.update_self ..

theorem grow_of_ne {k l : κ} (h : l ≠ k) (used : κ → ℕ) (n : ℕ) : grow used k n l = used l :=
  Function.update_of_ne h _ _

theorem le_grow (l : κ) : used l ≤ grow used k n l := by
  by_cases h : l = k
  · subst h
    rw [grow_self]
    exact Nat.le_add_right _ _
  · rw [grow_of_ne h]

theorem Within.grow {used : κ → ℕ} {e : Extent κ} (h : Within used e) (k : κ) (n : ℕ) :
    Within (grow used k n) e := h.trans (le_grow used k n e.key)

theorem within_grow_self : Within (grow used k n) ⟨k, used k, n⟩ := (grow_self used k n).ge

/-- The extents that a list of requests gets from the counters. -/
def reserveAll : (κ → ℕ) → List (κ × ℕ) → List (Extent κ)
  | _, [] => []
  | used, (k, n) :: requests => ⟨k, used k, n⟩ :: reserveAll (grow used k n) requests

theorem apart_of_mem_reserveAll {used : κ → ℕ} {e : Extent κ} (h : Within used e)
    {requests : List (κ × ℕ)} : ∀ f ∈ reserveAll used requests, Apart e f := by
  induction requests generalizing used with
  | nil => simp [reserveAll]
  | cons request requests ih =>
    intro f hf
    rcases List.mem_cons.mp hf with rfl | hf
    · exact h.apart request.1 request.2
    · exact ih (h.grow request.1 request.2) f hf

theorem pairwise_apart_reserveAll (requests : List (κ × ℕ)) :
    (reserveAll used requests).Pairwise Apart := by
  induction requests generalizing used with
  | nil => exact List.Pairwise.nil
  | cons request requests ih =>
    exact List.pairwise_cons.mpr
      ⟨apart_of_mem_reserveAll (within_grow_self used request.1 request.2), ih _⟩

end Extents
