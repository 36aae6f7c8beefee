import Mathlib.Tactic

/-!
# Loops that try again

The body fails, returns, or asks for another round with a new state. `loop` runs it for a number
of rounds; `none` means that it is still running. A loop whose rounds raise a bounded rank ends,
and what it returns was returned by a round that started with the invariant.
-/

namespace Retry

variable {σ ε α : Type*}

def loop (body : ℕ → σ → Except ε (α ⊕ σ)) : ℕ → ℕ → σ → Option (Except ε α)
  | 0, _, _ => none
  | rounds + 1, k, s =>
    match body k s with
    | .error e => some (.error e)
    | .ok (.inl a) => some (.ok a)
    | .ok (.inr s) => loop body rounds (k + 1) s

variable {body : ℕ → σ → Except ε (α ⊕ σ)}

theorem loop_mono {rounds rounds' k : ℕ} {s : σ} {result : Except ε α}
    (h : loop body rounds k s = some result) (hle : rounds ≤ rounds') :
    loop body rounds' k s = some result := by
  induction rounds generalizing rounds' k s with
  | zero => cases h
  | succ rounds ih =>
    obtain ⟨more, rfl⟩ := Nat.exists_eq_add_of_le' hle
    rw [← Nat.add_assoc, loop]
    rw [loop] at h
    cases hbody : body k s with
    | error e =>
      rw [hbody] at h
      exact h
    | ok outcome =>
      rw [hbody] at h
      cases outcome with
      | inl a => exact h
      | inr s => exact ih h (Nat.le_add_left _ _)

theorem exists_of_loop_eq_ok (I : σ → Prop)
    (hstep : ∀ k s s', I s → body k s = .ok (.inr s') → I s') {rounds k : ℕ} {s : σ} {a : α}
    (hs : I s) (h : loop body rounds k s = some (.ok a)) :
    ∃ k s, I s ∧ body k s = .ok (.inl a) := by
  induction rounds generalizing k s with
  | zero => cases h
  | succ rounds ih =>
    rw [loop] at h
    cases hbody : body k s with
    | error e =>
      rw [hbody] at h
      cases h
    | ok outcome =>
      rw [hbody] at h
      cases outcome with
      | inl a =>
        cases h
        exact ⟨k, s, hs, hbody⟩
      | inr s' => exact ih (hstep k s s' hs hbody) h

theorem exists_loop_eq_some (I : σ → Prop) (rank : σ → ℕ) (bound : ℕ)
    (hstep : ∀ k s s', I s → body k s = .ok (.inr s') → I s' ∧ rank s < rank s' ∧ rank s' ≤ bound)
    {rounds k : ℕ} {s : σ} (hs : I s) (hrounds : bound < rank s + rounds) (hpos : 0 < rounds) :
    ∃ result, loop body rounds k s = some result := by
  induction rounds generalizing k s with
  | zero => exact absurd hpos (lt_irrefl 0)
  | succ rounds ih =>
    rw [loop]
    cases hbody : body k s with
    | error e => exact ⟨_, rfl⟩
    | ok outcome =>
      cases outcome with
      | inl a => exact ⟨_, rfl⟩
      | inr s' =>
        obtain ⟨hs', hrank, hle⟩ := hstep k s s' hs hbody
        exact ih hs' (by omega) (by omega)

end Retry
