import Mathlib.Logic.Basic

/-!
# Conditions along a run

`Step s a t` says that the input `a` can lead from `s` to `t`, and `Along Step P s as` that, from
`s` on, `P` holds of every input of `as` in the state in which it comes.

Two conditions that agree as long as an invariant holds agree along every run from a state where
it holds.
-/

namespace Runs

variable {σ α : Type*} (Step : σ → α → σ → Prop)

def Along (P : σ → α → Prop) : σ → List α → Prop
  | _, [] => True
  | s, a :: as => P s a ∧ ∀ t, Step s a t → Along P t as

variable {Step} {P Q : σ → α → Prop} {I : σ → Prop}

/-- As long as the invariant is kept, a condition carries over to what it implies. -/
theorem along_mono (hstep : ∀ s a t, I s → P s a → Step s a t → I t) {as : List α}
    (himp : ∀ s, ∀ a ∈ as, I s → P s a → Q s a) {s : σ} (hs : I s) (h : Along Step P s as) :
    Along Step Q s as := by
  induction as generalizing s with
  | nil => trivial
  | cons a as ih =>
    refine ⟨himp s a List.mem_cons_self hs h.1, fun t ht => ?_⟩
    exact ih (fun s b hb => himp s b (List.mem_cons_of_mem _ hb)) (hstep s a t hs h.1 ht) (h.2 t ht)

theorem along_congr (hstep : ∀ s a t, I s → P s a → Step s a t → I t)
    (hiff : ∀ s a, I s → (P s a ↔ Q s a)) {s : σ} (hs : I s) (as : List α) :
    Along Step P s as ↔ Along Step Q s as := by
  constructor
  · exact along_mono hstep (fun s a _ hI => (hiff s a hI).mp) hs
  · have hstep' : ∀ s a t, I s → Q s a → Step s a t → I t :=
      fun s a t hI hQ => hstep s a t hI ((hiff s a hI).mpr hQ)
    exact along_mono hstep' (fun s a _ hI => (hiff s a hI).mpr) hs

/-- Where an input leads to one state only, the rest of the run starts there. -/
theorem along_cons_of_unique {s t : σ} {a : α} (h : ∀ u, Step s a u ↔ u = t) (as : List α) :
    Along Step P s (a :: as) ↔ P s a ∧ Along Step P t as := by
  rw [Along]
  simp only [h, forall_eq]

end Runs
