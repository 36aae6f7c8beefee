import Mathlib.Tactic

/-!
# Tallies over finitely many slots

`tally f s` adds up what `f` reads off every slot. Writing one slot trades what it held for what
it holds now, so a counter kept in step follows from `tally_update` alone.
-/

open Function

namespace Tally

variable {α β M : Type*} [Fintype α] [AddCommMonoid M]

def tally (f : β → M) (s : α → β) : M := ∑ a, f (s a)

variable {s : α → β}

theorem tally_eq_zero {f : β → M} (h : ∀ a, f (s a) = 0) : tally f s = 0 :=
  Finset.sum_eq_zero fun a _ => h a

theorem tally_congr {f g : β → M} (h : ∀ a, f (s a) = g (s a)) : tally f s = tally g s :=
  Finset.sum_congr rfl fun a _ => h a

theorem eq_zero_of_tally {f : β → ℕ} (h : tally f s = 0) (a : α) : f (s a) = 0 :=
  Finset.sum_eq_zero_iff.mp h a (Finset.mem_univ a)

theorem le_tally (f : β → ℕ) (s : α → β) (a : α) : f (s a) ≤ tally f s :=
  Finset.single_le_sum (f := fun a => f (s a)) (fun _ _ => Nat.zero_le _) (Finset.mem_univ a)

variable [DecidableEq α]

theorem tally_update (f : β → M) (s : α → β) (a : α) (b : β) :
    tally f (update s a b) + f (s a) = tally f s + f b := by
  have hrest : ∑ x ∈ Finset.univ.erase a, f (update s a b x) = ∑ x ∈ Finset.univ.erase a, f (s x) :=
    Finset.sum_congr rfl fun x hx => by rw [update_of_ne (Finset.ne_of_mem_erase hx)]
  rw [tally, tally, ← Finset.add_sum_erase _ _ (Finset.mem_univ a),
    ← Finset.add_sum_erase Finset.univ (fun x => f (s x)) (Finset.mem_univ a), hrest, update_self]
  abel

theorem tally_update_of_eq_zero {f : β → M} {s : α → β} {a : α} (h : f (s a) = 0) (b : β) :
    tally f (update s a b) = tally f s + f b := by
  rw [← tally_update, h, add_zero]

end Tally
