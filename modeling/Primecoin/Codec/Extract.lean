import Primecoin.Codec.Reader
import Primecoin.Control.Stateful

/-!
# Reading a stream into a state

`extract` reads a value off a stream and stores it at once, as `stream >> field` does, so that it
stays stored when a later step fails. `Extracts x r` says that, whatever is stored, `x` takes the
same values off the stream as the reader `r` and fails where `r` fails.
-/

namespace Codec

open Stateful

variable {σ τ ε α β : Type}

def extract (fails : List τ → ε) (r : Reader τ α) (store : α → σ → σ) :
    Stateful (σ × List τ) ε α := fun s =>
  match r s.2 with
  | some (a, rest) => (.ok a, (store a s.1, rest))
  | none => (.error (fails s.2), s)

def atEnd : Reader τ Bool := fun s => some (s.isEmpty, s)

def Extracts (x : Stateful (σ × List τ) ε α) (r : Reader τ α) : Prop :=
  ∀ s w, (∀ a rest, r w = some (a, rest) → ∃ s', x.run (s, w) = (.ok a, (s', rest))) ∧
    (r w = none → ∃ e t, x.run (s, w) = (.error e, t))

variable (fails : List τ → ε) (r : Reader τ α) (store : α → σ → σ)

theorem run_extract_of_some {s : σ} {w rest : List τ} {a : α} (h : r w = some (a, rest)) :
    (extract fails r store).run (s, w) = (.ok a, (store a s, rest)) := by
  simp only [run, extract, h]

theorem run_extract_of_none {s : σ} {w : List τ} (h : r w = none) :
    (extract fails r store).run (s, w) = (.error (fails w), (s, w)) := by
  simp only [run, extract, h]

theorem keeps_extract {γ : Type} {f : σ → γ} (h : ∀ a s, f (store a s) = f s) :
    Keeps (fun s => f s.1) (extract fails r store) := by
  rintro ⟨s, w⟩
  cases hr : r w with
  | none => rw [run_extract_of_none fails r store hr]
  | some p =>
    rw [run_extract_of_some fails r store hr]
    exact h p.1 s

theorem extracts_extract : Extracts (extract fails r store) r := by
  intro s w
  refine ⟨fun a rest h => ⟨store a s, ?_⟩, fun h => ⟨fails w, (s, w), ?_⟩⟩
  · exact run_extract_of_some fails r store h
  · exact run_extract_of_none fails r store h

theorem extracts_pure (a : α) :
    Extracts (pure a : Stateful (σ × List τ) ε α) (pure a : Reader τ α) := by
  refine fun s w => ⟨fun b rest h => ?_, fun h => nomatch h⟩
  cases h
  exact ⟨s, rfl⟩

theorem extracts_modify (f : σ → σ) :
    Extracts (modify fun s => (f s.1, s.2) : Stateful (σ × List τ) ε Unit)
      (pure () : Reader τ Unit) := by
  refine fun s w => ⟨fun b rest h => ?_, fun h => nomatch h⟩
  cases h
  exact ⟨f s, rfl⟩

theorem Extracts.bind {x : Stateful (σ × List τ) ε α} {r : Reader τ α}
    {f : α → Stateful (σ × List τ) ε β} {g : α → Reader τ β} (hx : Extracts x r)
    (hf : ∀ a, Extracts (f a) (g a)) : Extracts (x >>= f) (r >>= g) := by
  intro s w
  have hbind : (r >>= g) w = (r w).bind fun p => g p.1 p.2 := rfl
  rw [hbind]
  cases hr : r w with
  | none =>
    obtain ⟨e, t, hrun⟩ := (hx s w).2 hr
    exact ⟨fun a rest h => (nomatch h), fun _ => ⟨e, t, run_bind_of_error hrun⟩⟩
  | some p =>
    obtain ⟨s', hrun⟩ := (hx s w).1 p.1 p.2 hr
    rw [run_bind_of_ok hrun]
    exact hf p.1 s' p.2

theorem Extracts.unlessAtEnd {x y : Stateful (σ × List τ) ε α} {r q : Reader τ α}
    (hx : Extracts x r) (hy : Extracts y q) :
    Extracts (get >>= fun s => if s.2.isEmpty then x else y)
      (atEnd >>= fun fEnd => if fEnd then r else q) := by
  intro s w
  rw [run_get_bind]
  have hend : (atEnd >>= fun fEnd => if fEnd then r else q) w =
      (if w.isEmpty then r else q) w := rfl
  rw [hend]
  split_ifs
  · exact hx s w
  · exact hy s w

end Codec
