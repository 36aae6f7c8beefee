import Mathlib.Data.Option.Basic

/-!
# Remembered results

The last result of a computation that may fail is remembered. `ask` answers with it, unless it is
told not to, and computes the result otherwise. A failed computation leaves what is remembered.

The answers are right as long as what is remembered is `Fresh`: what the computation would give
now.
-/

namespace Memo

variable {ε α : Type*} {cache : Option α} {x : Except ε α}

def ask (fUseCache : Bool) (cache : Option α) (x : Except ε α) : Except ε α × Option α :=
  match (if fUseCache then cache else none) with
  | some a => (.ok a, cache)
  | none => (x, match x with
      | .ok a => some a
      | .error _ => cache)

def Fresh (cache : Option α) (x : Except ε α) : Prop := ∀ a, cache = some a → x = .ok a

theorem fresh_none : Fresh none x := fun _ h => by cases h

/-- An answer from memory is the right one exactly if what is remembered is fresh. -/
theorem ask_true_fst_iff : (ask true cache x).1 = x ↔ Fresh cache x := by
  cases cache with
  | none => exact iff_of_true rfl fresh_none
  | some a =>
    refine ⟨fun h b hb => ?_, fun h => (h a rfl).symm⟩
    cases hb
    exact h.symm

theorem Fresh.ask_fst (h : Fresh cache x) (fUseCache : Bool) : (ask fUseCache cache x).1 = x := by
  cases fUseCache with
  | false => rfl
  | true => exact ask_true_fst_iff.mpr h

theorem Fresh.ask_snd (h : Fresh cache x) (fUseCache : Bool) :
    Fresh (ask fUseCache cache x).2 x := by
  unfold ask
  split
  · exact h
  · cases x with
    | error e => exact h
    | ok a => exact fun b hb => congrArg _ (Option.some.inj hb)

end Memo
