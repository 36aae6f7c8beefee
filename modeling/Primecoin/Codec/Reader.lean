import Mathlib.Tactic

/-!
# Stream readers and the read-back relation

A reader consumes a prefix of a list of symbols and returns a value, or fails. `ReadsBack r w x`
says that `r` recognizes the word `w` as `x` whatever follows it. It composes along `bind`, which
turns a round trip for a structure into one goal for each field.
-/

namespace Codec

variable {τ α β : Type}

abbrev Reader (τ α : Type) := StateT (List τ) Option α

def next : Reader τ τ
  | [] => none
  | b :: rest => some (b, rest)

def take (n : ℕ) : Reader τ (List τ) := fun s =>
  if n ≤ s.length then some (s.take n, s.drop n) else none

def replicate (r : Reader τ α) : ℕ → Reader τ (List α)
  | 0 => pure []
  | n + 1 => do
      let x ← r
      let xs ← replicate r n
      pure (x :: xs)

def ReadsBack (r : Reader τ α) (w : List τ) (x : α) : Prop :=
  ∀ rest, r (w ++ rest) = some (x, rest)

namespace ReadsBack

theorem pure (x : α) : ReadsBack (Pure.pure x : Reader τ α) [] x := fun _ => rfl

variable {r : Reader τ α}

theorem bind {f : α → Reader τ β} {w v : List τ} {x : α} {y : β}
    (hr : ReadsBack r w x) (hf : ReadsBack (f x) v y) : ReadsBack (r >>= f) (w ++ v) y := by
  intro rest
  have hread := hr (v ++ rest)
  have hnext := hf rest
  change (r (w ++ v ++ rest)).bind (fun p => f p.1 p.2) = some (y, rest)
  rw [List.append_assoc, hread]
  exact hnext

theorem map {w : List τ} {x : α} (f : α → β)
    (hr : ReadsBack r w x) : ReadsBack (r >>= fun a => Pure.pure (f a)) w (f x) := by
  have h := hr.bind (f := fun a => Pure.pure (f a)) (pure (f x))
  rwa [List.append_nil] at h

theorem next (b : τ) : ReadsBack Codec.next [b] b := fun _ => rfl

theorem take (w : List τ) : ReadsBack (Codec.take w.length) w w := by
  intro rest
  simp [Codec.take]

theorem replicate (w : β → List τ) (f : β → α) (xs : List β)
    (h : ∀ x ∈ xs, ReadsBack r (w x) (f x)) :
    ReadsBack (Codec.replicate r xs.length) (xs.flatMap w) (xs.map f) := by
  induction xs with
  | nil => exact pure []
  | cons x xs ih =>
    have hx : ReadsBack r (w x) (f x) := h x (by simp)
    have hxs := ih fun y hy => h y (by simp [hy])
    rw [List.flatMap_cons, List.map_cons]
    exact hx.bind (hxs.map (f x :: ·))

end ReadsBack

end Codec
