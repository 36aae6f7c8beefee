import Primecoin.Codec.Reader

/-!
# Words that end by themselves

`Unambiguous write P` says that the words `write a`, for values with the property `P`, can be told
apart wherever they stand: equal streams that start with such words start with the same value and
go on in the same way. It is injectivity that composes over records and over lists with their
length in front.
-/

namespace Codec

open List

variable {τ α β γ : Type}

def Unambiguous (write : α → List τ) (P : α → Prop) : Prop :=
  ∀ a b, P a → P b → ∀ rest rest', write a ++ rest = write b ++ rest' → a = b ∧ rest = rest'

namespace Unambiguous

variable {write : α → List τ} {P : α → Prop}

theorem eq_of_extends (h : Unambiguous write P) {a b : α} (ha : P a) (hb : P b)
    (hextends : write a <+: write b) : a = b := by
  obtain ⟨rest, hrest⟩ := hextends
  exact (h a b ha hb rest [] (by rw [hrest, append_nil])).1

theorem of_readsBack {r : Reader τ α} (h : ∀ a, P a → ReadsBack r (write a) a) :
    Unambiguous write P := by
  intro a b ha hb rest rest' heq
  have hread := h a ha rest
  rw [heq, h b hb rest'] at hread
  exact ⟨(congrArg Prod.fst (Option.some.inj hread)).symm,
    (congrArg Prod.snd (Option.some.inj hread)).symm⟩

theorem of_length {n : ℕ} (hlen : ∀ a, (write a).length = n)
    (hinj : ∀ a b, P a → P b → write a = write b → a = b) : Unambiguous write P := by
  intro a b ha hb rest rest' heq
  obtain ⟨hwords, hrest⟩ := append_inj heq ((hlen a).trans (hlen b).symm)
  exact ⟨hinj a b ha hb hwords, hrest⟩

theorem append {f : β → List τ} {g : γ → List τ} {Q : β → Prop} {R : γ → Prop}
    (hf : Unambiguous f Q) (hg : Unambiguous g R) {p : α → β} {q : α → γ}
    (hp : ∀ a, P a → Q (p a)) (hq : ∀ a, P a → R (q a))
    (hext : ∀ a b, p a = p b → q a = q b → a = b) :
    Unambiguous (fun a => f (p a) ++ g (q a)) P := by
  intro a b ha hb rest rest' heq
  rw [append_assoc, append_assoc] at heq
  obtain ⟨hfirst, heq⟩ := hf (p a) (p b) (hp a ha) (hp b hb) _ _ heq
  obtain ⟨hsecond, hrest⟩ := hg (q a) (q b) (hq a ha) (hq b hb) _ _ heq
  exact ⟨hext a b hfirst hsecond, hrest⟩

theorem flatMap (h : Unambiguous write P) {xs ys : List α} (hlen : xs.length = ys.length)
    (hxs : ∀ x ∈ xs, P x) (hys : ∀ y ∈ ys, P y) {rest rest' : List τ}
    (heq : xs.flatMap write ++ rest = ys.flatMap write ++ rest') : xs = ys ∧ rest = rest' := by
  induction xs generalizing ys with
  | nil =>
    cases length_eq_zero_iff.mp hlen.symm
    exact ⟨rfl, heq⟩
  | cons x xs ih =>
    cases ys with
    | nil => cases hlen
    | cons y ys =>
      rw [flatMap_cons, flatMap_cons, append_assoc, append_assoc] at heq
      obtain ⟨hxs, hxs'⟩ := forall_mem_cons.mp hxs
      obtain ⟨hys, hys'⟩ := forall_mem_cons.mp hys
      obtain ⟨hhead, htail⟩ := h x y hxs hys _ _ heq
      obtain ⟨hxy, hrest⟩ := ih (Nat.succ.inj hlen) hxs' hys' htail
      exact ⟨congrArg₂ List.cons hhead hxy, hrest⟩

theorem vector {count : ℕ → List τ} {Q : ℕ → Prop} (hcount : Unambiguous count Q)
    (h : Unambiguous write P) :
    Unambiguous (fun xs : List α => count xs.length ++ xs.flatMap write)
      fun xs => Q xs.length ∧ ∀ x ∈ xs, P x := by
  intro xs ys hxs hys rest rest' heq
  rw [append_assoc, append_assoc] at heq
  obtain ⟨hlen, heq⟩ := hcount _ _ hxs.1 hys.1 _ _ heq
  exact h.flatMap hlen hxs.2 hys.2 heq

end Unambiguous

end Codec
