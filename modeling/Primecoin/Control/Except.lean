import Mathlib.Tactic

/-!
# Inversion of fallible computations

A computation in `Except` that returns a value has passed all its steps. These lemmas peel the
steps off one at a time, so a caller never unfolds the monad.
-/

namespace Except

variable {ε α β : Type} {x : Except ε α} {f : α → Except ε β}

theorem bind_eq_ok_iff {b : β} : x >>= f = ok b ↔ ∃ a, x = ok a ∧ f a = ok b := by
  cases x with
  | error e => simp [bind, Except.bind]
  | ok a => simp [bind, Except.bind]

theorem bind_eq_error_iff {e : ε} :
    x >>= f = error e ↔ x = error e ∨ ∃ a, x = ok a ∧ f a = error e := by
  cases x with
  | error e => simp [bind, Except.bind]
  | ok a => simp [bind, Except.bind]

theorem ite_error_eq_ok_iff {c : Prop} [Decidable c] {e : ε} {a : α} :
    (if c then error e else x) = ok a ↔ ¬ c ∧ x = ok a := by
  split_ifs with h <;> simp [h]

/-- The invariant rule: when every turn returns and keeps the invariant, so does the loop. -/
theorem exists_foldlM_eq_ok {γ : Type} {f : β → γ → Except ε β} {motive : β → Prop}
    {l : List γ} (hstep : ∀ b, ∀ c ∈ l, motive b → ∃ b', f b c = ok b' ∧ motive b') {b : β}
    (hb : motive b) : ∃ b', l.foldlM f b = ok b' ∧ motive b' := by
  induction l generalizing b with
  | nil => exact ⟨b, rfl, hb⟩
  | cons c l ih =>
    obtain ⟨b', hf, hb'⟩ := hstep b c (by simp) hb
    obtain ⟨b'', hl, hb''⟩ := ih (fun b d hd => hstep b d (List.mem_cons_of_mem _ hd)) hb'
    refine ⟨b'', ?_, hb''⟩
    rw [List.foldlM_cons, bind_eq_ok_iff]
    exact ⟨b', hf, hl⟩

theorem ok_bind (a : α) (f : α → Except ε β) : ok a >>= f = f a := rfl

/-- The computation does not end in one of the errors of the set. -/
def Avoids (bad : ε → Bool) (x : Except ε α) : Prop := ∀ e, x = error e → bad e = false

section Avoids

variable {bad : ε → Bool}

theorem avoids_ok (a : α) : Avoids bad (ok a : Except ε α) := fun _ h => by cases h

theorem avoids_error {e : ε} (h : bad e = false) : Avoids bad (error e : Except ε α) :=
  fun _ he => by cases he; exact h

theorem Avoids.bind {x : Except ε α} {f : α → Except ε β} (hx : Avoids bad x)
    (hf : ∀ a, x = ok a → Avoids bad (f a)) : Avoids bad (x >>= f) := by
  intro e he
  rcases bind_eq_error_iff.mp he with he | ⟨a, ha, he⟩
  · exact hx e he
  · exact hf a ha e he

theorem Avoids.ite {c : Prop} [Decidable c] {x y : Except ε α} (hx : c → Avoids bad x)
    (hy : ¬ c → Avoids bad y) : Avoids bad (if c then x else y) := by
  split_ifs with h
  · exact hx h
  · exact hy h

theorem Avoids.guard {c : Prop} [Decidable c] {e : ε} {x : Except ε α} (he : bad e = false)
    (hx : ¬ c → Avoids bad x) : Avoids bad (if c then error e else x) :=
  Avoids.ite (fun _ => avoids_error he) hx

theorem avoids_foldlM {γ : Type} {f : β → γ → Except ε β} {motive : β → Prop} {l : List γ}
    (hstep : ∀ b, ∀ c ∈ l, motive b → Avoids bad (f b c))
    (hmotive : ∀ b, ∀ c ∈ l, ∀ b', motive b → f b c = ok b' → motive b') {b : β} (hb : motive b) :
    Avoids bad (l.foldlM f b) := by
  induction l generalizing b with
  | nil => exact avoids_ok b
  | cons c l ih =>
    rw [List.foldlM_cons]
    refine (hstep b c (by simp) hb).bind fun b' hb' => ?_
    exact ih (fun b d hd => hstep b d (List.mem_cons_of_mem _ hd))
      (fun b d hd => hmotive b d (List.mem_cons_of_mem _ hd)) (hmotive b c (by simp) b' hb hb')

end Avoids

/-- A loop that has returned: every turn keeps the invariant `I`, moves along `R` and establishes
`Q` of its item, which later turns keep. -/
theorem foldlM_eq_ok_visits {γ : Type} {f : β → γ → Except ε β} {I : β → Prop}
    {R : β → β → Prop} {Q : γ → β → Prop} {l : List γ} (hrefl : ∀ b, R b b)
    (htrans : ∀ {b b' b''}, R b b' → R b' b'' → R b b'')
    (hkeep : ∀ {b b' c}, I b → I b' → R b b' → Q c b → Q c b')
    (hstep : ∀ b c b', I b → f b c = ok b' → I b' ∧ R b b' ∧ Q c b') {b b' : β} (hb : I b)
    (h : l.foldlM f b = ok b') : I b' ∧ R b b' ∧ ∀ c ∈ l, Q c b' := by
  induction l generalizing b with
  | nil =>
    cases h
    exact ⟨hb, hrefl _, by simp⟩
  | cons c l ih =>
    rw [List.foldlM_cons, bind_eq_ok_iff] at h
    obtain ⟨next, hnext, hrest⟩ := h
    obtain ⟨hnextI, hfirst, hvisited⟩ := hstep b c next hb hnext
    obtain ⟨hlast, hmoved, hall⟩ := ih hnextI hrest
    refine ⟨hlast, htrans hfirst hmoved, fun d hd => ?_⟩
    rcases List.mem_cons.mp hd with rfl | hd
    · exact hkeep hnextI hlast hmoved hvisited
    · exact hall d hd

/-- `x` returns just when `y` returns a good result, and what it returns is read off that. -/
def Follows (good : β → Prop) (part : β → α) (x : Except ε α) (y : Except ε β) : Prop :=
  ∀ a, x = ok a ↔ ∃ b, y = ok b ∧ good b ∧ part b = a

section Follows

variable {α' β' γ : Type} {good : β → Prop} {part : β → α} {good' : β' → Prop} {part' : β' → α'}
  {y : Except ε β}

theorem follows_error_of_not_good {e : ε} (h : ∀ b, y = ok b → ¬ good b) :
    Follows good part (error e) y :=
  fun _ => ⟨fun h => (nomatch h), fun ⟨b, hb, hgood, _⟩ => absurd hgood (h b hb)⟩

theorem follows_error (e e' : ε) : Follows good part (error e) (error e') :=
  follows_error_of_not_good fun _ h => (nomatch h)

theorem follows_ok {b : β} (hb : good b) : Follows good part (ok (part b) : Except ε α) (ok b) :=
  fun a => by simp [hb]

theorem Follows.ite {c : Prop} [Decidable c] {x x' : Except ε α} {y y' : Except ε β}
    (h : c → Follows good part x y) (h' : ¬ c → Follows good part x' y') :
    Follows good part (if c then x else x') (if c then y else y') := by
  split_ifs with hc
  · exact h hc
  · exact h' hc

theorem Follows.guard {c : Prop} [Decidable c] {e e' : ε} {x : Except ε α}
    (h : ¬ c → Follows good part x y) :
    Follows good part (if c then error e else x) (if c then error e' else y) :=
  Follows.ite (fun _ => follows_error e e') h

theorem Follows.after (z : Except ε γ) {f : γ → Except ε α} {g : γ → Except ε β}
    (h : ∀ c, Follows good part (f c) (g c)) : Follows good part (z >>= f) (z >>= g) := by
  cases z with
  | error e => exact follows_error e e
  | ok c => exact h c

/-- A result that was not good must not become so later. -/
theorem Follows.bind {x : Except ε α} {f : α → Except ε α'}
    {g : β → Except ε β'} (h : Follows good part x y)
    (hcont : ∀ b, good b → Follows good' part' (f (part b)) (g b))
    (hback : ∀ b b', g b = ok b' → good' b' → good b) :
    Follows good' part' (x >>= f) (y >>= g) := by
  intro a'
  simp only [bind_eq_ok_iff]
  constructor
  · rintro ⟨a, ha, hf⟩
    obtain ⟨b, hb, hgood, rfl⟩ := (h a).mp ha
    obtain ⟨b', hg, hgood'⟩ := (hcont b hgood a').mp hf
    exact ⟨b', ⟨b, hb, hg⟩, hgood'⟩
  · rintro ⟨b', ⟨b, hb, hg⟩, hgood', hpart⟩
    have hgood := hback b b' hg hgood'
    exact ⟨part b, (h _).mpr ⟨b, hb, hgood, rfl⟩, (hcont b hgood a').mpr ⟨b', hg, hgood', hpart⟩⟩

theorem Follows.foldlM {f : α → γ → Except ε α} {g : β → γ → Except ε β}
    (hstep : ∀ b c, good b → Follows good part (f (part b) c) (g b c))
    (hback : ∀ b c b', g b c = ok b' → good b' → good b) {b : β} (hb : good b) (l : List γ) :
    Follows good part (l.foldlM f (part b)) (l.foldlM g b) := by
  have hfold : ∀ (l : List γ) b b', l.foldlM g b = ok b' → good b' → good b := by
    intro l
    induction l with
    | nil =>
      intro b b' h hgood
      cases h
      exact hgood
    | cons c l ih =>
      intro b b' h hgood
      rw [List.foldlM_cons, bind_eq_ok_iff] at h
      obtain ⟨next, hnext, hrest⟩ := h
      exact hback b c next hnext (ih next b' hrest hgood)
  induction l generalizing b with
  | nil => exact follows_ok hb
  | cons c l ih =>
    rw [List.foldlM_cons, List.foldlM_cons]
    exact (hstep b c hb).bind (fun b hb => ih hb) (hfold l)

end Follows

@[simp] theorem pure_eq_ok (a : α) : (pure a : Except ε α) = ok a := rfl

end Except
