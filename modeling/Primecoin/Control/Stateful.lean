import Primecoin.Control.Except

/-!
# Fallible computations on a state

A `Stateful σ ε α` works on a state of type `σ` and may fail with an error. A failed computation
keeps the changes it has made, as a function does that returns early.

The lemmas invert a run step by step. `Keeps` is the frame rule: a component that no step changes
is the same at the end, whether the computation fails or not.
-/

def Stateful (σ ε α : Type) : Type := σ → Except ε α × σ

namespace Stateful

variable {σ ε α β γ : Type} {x : Stateful σ ε α} {f : α → Stateful σ ε β} {s s' : σ} {e : ε}
  {bad : ε → Bool}

def run (x : Stateful σ ε α) (s : σ) : Except ε α × σ := x s

instance : Monad (Stateful σ ε) where
  pure a := fun s => (.ok a, s)
  bind x f := fun s =>
    match x.run s with
    | (.ok a, s') => (f a).run s'
    | (.error e, s') => (.error e, s')

def get : Stateful σ ε σ := fun s => (.ok s, s)

def modify (f : σ → σ) : Stateful σ ε Unit := fun s => (.ok (), f s)

def lift (x : Except ε α) : Stateful σ ε α := fun s => (x, s)

def zoom (part : σ → γ) (put : γ → σ → σ) (x : Stateful γ ε α) : Stateful σ ε α :=
  fun s => ((x.run (part s)).1, put (x.run (part s)).2 s)

def catchIf (kind : ε → Bool) (x : Stateful σ ε Unit) : Stateful σ ε Unit := fun s =>
  match x.run s with
  | (.error e, s') => (if kind e then .ok () else .error e, s')
  | result => result

def mapError (g : ε → ε) (x : Stateful σ ε α) : Stateful σ ε α := fun s =>
  ((x.run s).1.mapError g, (x.run s).2)

@[simp] theorem run_pure (a : α) (s : σ) : (pure a : Stateful σ ε α).run s = (.ok a, s) := rfl

@[simp] theorem run_get (s : σ) : (get : Stateful σ ε σ).run s = (.ok s, s) := rfl

@[simp] theorem run_modify (f : σ → σ) (s : σ) :
    (modify f : Stateful σ ε Unit).run s = (.ok (), f s) := rfl

@[simp] theorem run_lift (x : Except ε α) (s : σ) : (lift x : Stateful σ ε α).run s = (x, s) := rfl

@[simp] theorem run_mapError (g : ε → ε) (x : Stateful σ ε α) (s : σ) :
    (x.mapError g).run s = ((x.run s).1.mapError g, (x.run s).2) := rfl

theorem run_bind_of_ok {a : α} (h : x.run s = (.ok a, s')) : (x >>= f).run s = (f a).run s' := by
  simp only [run, bind] at h ⊢
  rw [h]

theorem run_bind_of_error (h : x.run s = (.error e, s')) : (x >>= f).run s = (.error e, s') := by
  simp only [run, bind] at h ⊢
  rw [h]

theorem run_bind_eq_ok_iff {t : σ} {b : β} : (x >>= f).run s = (.ok b, t) ↔
      ∃ a s', x.run s = (.ok a, s') ∧ (f a).run s' = (.ok b, t) := by
  rcases hx : x.run s with ⟨result, s'⟩
  cases result with
  | error e => simp [run_bind_of_error hx]
  | ok a => simp [run_bind_of_ok hx]

theorem run_bind_eq_error_iff {t : σ} : (x >>= f).run s = (.error e, t) ↔ x.run s = (.error e, t) ∨
      ∃ a s', x.run s = (.ok a, s') ∧ (f a).run s' = (.error e, t) := by
  rcases hx : x.run s with ⟨result, s'⟩
  cases result with
  | error e' => simp [run_bind_of_error hx]
  | ok a => simp [run_bind_of_ok hx]

theorem exists_run_eq_ok (h : (x.run s).1.toOption.isSome = true) :
    ∃ a, x.run s = (.ok a, (x.run s).2) := by
  rcases hrun : x.run s with ⟨result, s'⟩
  rw [hrun] at h
  cases result with
  | error e => cases h
  | ok a => exact ⟨a, rfl⟩

theorem run_get_bind (f : σ → Stateful σ ε β) (s : σ) : (get >>= f).run s = (f s).run s := rfl

theorem run_modify_bind (g : σ → σ) (f : Unit → Stateful σ ε β) (s : σ) :
    (modify g >>= f).run s = (f ()).run (g s) := rfl

theorem run_lift_bind_of_ok {x : Except ε α} {a : α} (h : x = .ok a) (f : α → Stateful σ ε β)
    (s : σ) : (lift x >>= f).run s = (f a).run s := by
  rw [h]
  rfl

theorem run_lift_bind_of_error {x : Except ε α} (h : x = .error e)
    (f : α → Stateful σ ε β) (s : σ) : (lift x >>= f).run s = (.error e, s) := by
  rw [h]
  rfl

/-- A computation that goes as another one on what `f` shows of a state goes on so. -/
theorem run_bind_of_shows {τ : Type} {f : τ → σ} {y : Stateful τ ε α}
    {k : α → Stateful σ ε β} {k' : α → Stateful τ ε β} {s : τ}
    (h : x.run (f s) = ((y.run s).1, f (y.run s).2))
    (hk : ∀ a s', y.run s = (.ok a, s') →
      (k a).run (f s') = (((k' a).run s').1, f ((k' a).run s').2)) :
    (x >>= k).run (f s) = (((y >>= k').run s).1, f ((y >>= k').run s).2) := by
  rcases hrun : y.run s with ⟨result, s'⟩
  rw [hrun] at h
  cases result with
  | error e => rw [run_bind_of_error h, run_bind_of_error hrun]
  | ok a => rw [run_bind_of_ok h, run_bind_of_ok hrun, hk a s' hrun]

theorem avoids_bind (hx : Except.Avoids bad (x.run s).1)
    (hf : ∀ a s', x.run s = (.ok a, s') → Except.Avoids bad ((f a).run s').1) :
    Except.Avoids bad ((x >>= f).run s).1 := by
  rcases hrun : x.run s with ⟨result, s'⟩
  cases result with
  | error e =>
    rw [run_bind_of_error hrun]
    rw [hrun] at hx
    exact Except.avoids_error (hx e rfl)
  | ok a =>
    rw [run_bind_of_ok hrun]
    exact hf a s' hrun

theorem avoids_lift_bind {x : Except ε α}
    (hx : Except.Avoids bad x) (hf : ∀ a, x = .ok a → Except.Avoids bad ((f a).run s).1) :
    Except.Avoids bad ((lift x >>= f).run s).1 := by
  refine avoids_bind hx fun a s' h => ?_
  rw [run_lift, Prod.mk.injEq] at h
  obtain ⟨ha, rfl⟩ := h
  exact hf a ha

theorem avoids_forM {l : List α} {x : α → Stateful σ ε PUnit}
    (hx : ∀ a s, Except.Avoids bad ((x a).run s).1) (s : σ) :
    Except.Avoids bad ((l.forM x).run s).1 := by
  induction l generalizing s with
  | nil => exact Except.avoids_ok _
  | cons a l ih => exact avoids_bind (hx a s) fun _ s' _ => ih s'

/-- A loop that has returned: every turn keeps the invariant `I`, moves along `R` and establishes
`Q` of its item, which later turns keep. -/
theorem forM_eq_ok_visits {I : σ → Prop} {R : σ → σ → Prop} {Q : α → σ → Prop} {l : List α}
    {x : α → Stateful σ ε PUnit} (hrefl : ∀ s, R s s)
    (htrans : ∀ {s s' s''}, R s s' → R s' s'' → R s s'')
    (hkeep : ∀ {s s' a}, I s → I s' → R s s' → Q a s → Q a s')
    (hstep : ∀ s, ∀ a ∈ l, ∀ s', I s → (x a).run s = (.ok (), s') → I s' ∧ R s s' ∧ Q a s')
    (hs : I s) (h : (l.forM x).run s = (.ok (), s')) :
    I s' ∧ R s s' ∧ ∀ a ∈ l, Q a s' := by
  induction l generalizing s with
  | nil =>
    cases h
    exact ⟨hs, hrefl _, by simp⟩
  | cons a l ih =>
    obtain ⟨_, next, hnext, hrest⟩ := run_bind_eq_ok_iff.mp h
    obtain ⟨hnextI, hfirst, hvisited⟩ := hstep s a (by simp) next hs hnext
    obtain ⟨hlast, hmoved, hall⟩ :=
      ih (fun s b hb => hstep s b (List.mem_cons_of_mem _ hb)) hnextI hrest
    refine ⟨hlast, htrans hfirst hmoved, fun b hb => ?_⟩
    rcases List.mem_cons.mp hb with rfl | hb
    · exact hkeep hnextI hlast hmoved hvisited
    · exact hall b hb

/-- Whatever the outcome, the computation moves the state along `R`. -/
def Moves (R : σ → σ → Prop) (x : Stateful σ ε α) : Prop := ∀ s, R s (x.run s).2

section Moves

variable {R : σ → σ → Prop}

theorem Moves.bind (htrans : ∀ {s s' s''}, R s s' → R s' s'' → R s s'') {x : Stateful σ ε α}
    {f : α → Stateful σ ε β} (hx : Moves R x) (hf : ∀ a, Moves R (f a)) : Moves R (x >>= f) := by
  intro s
  have hfirst := hx s
  rcases hrun : x.run s with ⟨result, s'⟩
  rw [hrun] at hfirst
  cases result with
  | error e =>
    rw [run_bind_of_error hrun]
    exact hfirst
  | ok a =>
    rw [run_bind_of_ok hrun]
    exact htrans hfirst (hf a s')

theorem Moves.forM (hrefl : ∀ s, R s s) (htrans : ∀ {s s' s''}, R s s' → R s' s'' → R s s'')
    {l : List α} {x : α → Stateful σ ε PUnit} (hx : ∀ a, Moves R (x a)) :
    Moves R (l.forM x) := by
  induction l with
  | nil => exact hrefl
  | cons a l ih => exact Moves.bind (R := R) htrans (hx a) fun _ => ih

end Moves

/-- The component `f` of the state is the same after the computation. -/
def Keeps (f : σ → γ) (x : Stateful σ ε α) : Prop := ∀ s, f (x.run s).2 = f s

section Keeps

variable {f : σ → γ} {x : Stateful σ ε α}

theorem keeps_pure (a : α) : Keeps f (pure a : Stateful σ ε α) := fun _ => rfl

theorem keeps_get : Keeps f (get : Stateful σ ε σ) := fun _ => rfl

theorem keeps_lift (x : Except ε α) : Keeps f (lift x : Stateful σ ε α) := fun _ => rfl

theorem keeps_modify {g : σ → σ} (h : ∀ s, f (g s) = f s) :
    Keeps f (modify g : Stateful σ ε Unit) := h

variable {k : α → Stateful σ ε β}

theorem run_bind_of_keeps (hk : ∀ a, Keeps f (k a))
    (x : Stateful σ ε α) (s : σ) : f ((x >>= k).run s).2 = f (x.run s).2 := by
  rcases hrun : x.run s with ⟨result, s'⟩
  cases result with
  | error e => rw [run_bind_of_error hrun]
  | ok a => rw [run_bind_of_ok hrun, hk a s']

theorem Keeps.bind (hx : Keeps f x) (hk : ∀ a, Keeps f (k a)) : Keeps f (x >>= k) :=
  fun s => (run_bind_of_keeps hk x s).trans (hx s)

theorem Keeps.ite {c : Prop} [Decidable c] {y : Stateful σ ε α} (hx : Keeps f x)
    (hy : Keeps f y) : Keeps f (if c then x else y) := by
  split_ifs
  · exact hx
  · exact hy

theorem keeps_get_bind {k : σ → Stateful σ ε β} (h : ∀ s, f ((k s).run s).2 = f s) :
    Keeps f (get >>= k) := h

theorem Keeps.catchIf {x : Stateful σ ε Unit} (hx : Keeps f x) (kind : ε → Bool) :
    Keeps f (x.catchIf kind) := by
  intro s
  have hrun := hx s
  simp only [Stateful.catchIf, Stateful.run] at hrun ⊢
  split
  · next heq =>
      rw [heq] at hrun
      exact hrun
  · exact hrun

theorem Keeps.mapError (hx : Keeps f x) (g : ε → ε) : Keeps f (x.mapError g) := hx

theorem Keeps.forM {l : List α} {x : α → Stateful σ ε PUnit} (hx : ∀ a, Keeps f (x a)) :
    Keeps f (l.forM x) := by
  induction l with
  | nil => exact keeps_pure _
  | cons a l ih => exact (hx a).bind fun _ => ih

end Keeps

end Stateful
