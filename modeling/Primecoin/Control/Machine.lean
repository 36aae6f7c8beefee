import Mathlib.Tactic

/-!
# Runs of a machine

`step s a` is the state after the event `a`, if it can happen in `s`. What every event keeps holds
at the end of every run, and a run on which enough events bring a goal closer reaches it.
-/

namespace Machine

variable {σ α : Type*} (step : σ → α → Option σ)

def run : σ → List α → Option σ
  | s, [] => some s
  | s, a :: as => (step s a).bind fun t => run t as

variable {step} {I : σ → Prop}

theorem run_invariant (hstep : ∀ s a t, I s → step s a = some t → I t) {s t : σ} {as : List α}
    (hs : I s) (hrun : run step s as = some t) : I t := by
  induction as generalizing s with
  | nil =>
    cases hrun
    exact hs
  | cons a as ih =>
    obtain ⟨u, hu, hrun⟩ := Option.bind_eq_some_iff.mp hrun
    exact ih (hstep s a u hs hu) hrun

variable (step) in
def hits (counts : σ → α → Bool) : σ → List α → ℕ
  | _, [] => 0
  | s, a :: as => (counts s a).toNat + ((step s a).map fun t => hits counts t as).getD 0

/-- If no event adds to what is left to do and every event that counts takes something away, a run
in which more of them happen has reached the goal. -/
theorem exists_goal_of_lt_hits {goal : σ → Prop} {counts : σ → α → Bool} (todo : σ → ℕ)
    (hstep : ∀ s a t, I s → step s a = some t → goal t ∨ I t ∧ todo t + (counts s a).toNat ≤ todo s)
    {s t : σ} {as : List α} (hs : I s) (hrun : run step s as = some t)
    (hlt : todo s < hits step counts s as) : ∃ n u, run step s (as.take n) = some u ∧ goal u := by
  induction as generalizing s with
  | nil => exact absurd hlt (Nat.not_lt_zero _)
  | cons a as ih =>
    obtain ⟨u, hu, hrun⟩ := Option.bind_eq_some_iff.mp hrun
    obtain hgoal | ⟨hI, hle⟩ := hstep s a u hs hu
    · exact ⟨1, u, by rw [List.take_succ_cons, List.take_zero, run, hu]; rfl, hgoal⟩
    · rw [hits, hu, Option.map_some, Option.getD_some] at hlt
      obtain ⟨n, v, hv, hgoal⟩ := ih hI hrun (by omega)
      exact ⟨n + 1, v, by rw [List.take_succ_cons, run, hu, Option.bind_some, hv], hgoal⟩

end Machine
