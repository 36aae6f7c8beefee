import Mathlib.Tactic

/-!
# Selections from a list

A selection is a list of flags beside a list of items. `pick` is what the flags select and
`weight` what it weighs. A loop that visits the items in order and sets flags is followed with
`foldl_zipIdx_induction`.
-/

namespace Selection

open List

variable {α σ : Type*}

def pick : List α → List Bool → List α
  | a :: l, b :: mask => if b then a :: pick l mask else pick l mask
  | _, _ => []

@[simp] theorem pick_nil (mask : List Bool) : pick ([] : List α) mask = [] := by
  cases mask <;> rfl

theorem pick_cons (a : α) (l : List α) (b : Bool) (mask : List Bool) :
    pick (a :: l) (b :: mask) = if b then a :: pick l mask else pick l mask := rfl

theorem pick_sublist (l : List α) (mask : List Bool) : (pick l mask).Sublist l := by
  induction l generalizing mask with
  | nil => rw [pick_nil]
  | cons a l ih =>
    cases mask with
    | nil => exact nil_sublist _
    | cons b mask =>
      cases b with
      | false => exact (ih mask).cons a
      | true => exact (ih mask).cons_cons a

theorem pick_replicate_true (l : List α) : pick l (List.replicate l.length true) = l := by
  induction l with
  | nil => rfl
  | cons a l ih =>
    rw [length_cons, replicate_succ, pick_cons, if_pos rfl, ih]

theorem pick_replicate_false (l : List α) (n : ℕ) : pick l (List.replicate n false) = [] := by
  induction l generalizing n with
  | nil => exact pick_nil _
  | cons a l ih =>
    cases n with
    | zero => rfl
    | succ n => rw [replicate_succ, pick_cons, if_neg Bool.false_ne_true, ih]

section Weight

variable (f : α → ℤ) (l : List α)

def weight (mask : List Bool) : ℤ := ((pick l mask).map f).sum

theorem weight_cons (a : α) (l : List α) (b : Bool) (mask : List Bool) :
    weight f (a :: l) (b :: mask) = (if b then f a else 0) + weight f l mask := by
  cases b <;> simp [weight, pick_cons]

theorem weight_replicate_true : weight f l (List.replicate l.length true) = (l.map f).sum := by
  rw [weight, pick_replicate_true]

theorem weight_replicate_false (n : ℕ) : weight f l (List.replicate n false) = 0 := by
  rw [weight, pick_replicate_false, map_nil, sum_nil]

theorem weight_set {l : List α} {mask : List Bool} {i : ℕ} {a : α} (ha : l[i]? = some a)
    (hmask : mask[i]? = some false) : weight f l (mask.set i true) = weight f l mask + f a := by
  induction l generalizing mask i with
  | nil => cases ha
  | cons b l ih =>
    cases mask with
    | nil => cases hmask
    | cons flag mask =>
      cases i with
      | zero =>
        rw [getElem?_cons_zero, Option.some.injEq] at ha hmask
        rw [ha, hmask, set_cons_zero, weight_cons, weight_cons, if_pos rfl,
          if_neg Bool.false_ne_true, zero_add, add_comm]
      | succ i =>
        rw [getElem?_cons_succ] at ha hmask
        rw [set_cons_succ, weight_cons, weight_cons, ih ha hmask, add_assoc]

theorem weight_le {l : List α} (hl : ∀ a ∈ l, 0 ≤ f a) (mask : List Bool) :
    weight f l mask ≤ (l.map f).sum :=
  ((pick_sublist l mask).map f).sum_le_sum fun x hx => by
    obtain ⟨a, ha, rfl⟩ := mem_map.mp hx
    exact hl a ha

theorem weight_nonneg {l : List α} (hl : ∀ a ∈ l, 0 ≤ f a) (mask : List Bool) :
    0 ≤ weight f l mask :=
  sum_nonneg fun x hx => by
    obtain ⟨a, ha, rfl⟩ := mem_map.mp hx
    exact hl a ((pick_sublist l mask).subset ha)

end Weight

theorem set_set_false {mask : List Bool} {i : ℕ} (h : mask[i]? = some false) :
    (mask.set i true).set i false = mask := by
  rw [set_set]
  obtain ⟨hi, hget⟩ := List.getElem?_eq_some_iff.mp h
  rw [← hget, set_getElem_self]

/-- A loop over the items with their positions, from the position `k` on. -/
theorem foldl_zipIdx_induction {l : List α} {k : ℕ} {step : σ → α × ℕ → σ} {s : σ}
    (P : ℕ → σ → Prop) (hstart : P k s)
    (hstep : ∀ i a s, l[i]? = some a → P (k + i) s → P (k + i + 1) (step s (a, k + i))) :
    P (k + l.length) ((l.zipIdx k).foldl step s) := by
  induction l generalizing k s with
  | nil => exact hstart
  | cons a l ih =>
    rw [zipIdx_cons, foldl_cons, length_cons, Nat.add_comm l.length, ← Nat.add_assoc]
    refine ih (hstep 0 a s rfl hstart) fun i b s hb hs => ?_
    rw [Nat.add_right_comm k 1 i] at hs ⊢
    exact hstep (i + 1) b s hb hs

end Selection
