import Primecoin.Data.Pairing

/-!
# Dyadic segments

At height `h` a list is cut into segments of `2 ^ h` elements, the last one shorter. A segment is
made of two of the height below, the second of which may be missing; `width` counts the segments.
These are the leaves below the nodes of a hash tree: after `h` rounds of `Pairing` there is one
element for each segment.
-/

namespace Dyadic

open List

variable {α : Type*} {h pos : ℕ} {l : List α}

def seg (h pos : ℕ) (l : List α) : List α := (l.drop (pos * 2 ^ h)).take (2 ^ h)

/-- The number of segments of a list of `n` elements. -/
def width (n h : ℕ) : ℕ := (n + 2 ^ h - 1) / 2 ^ h

theorem lt_width_iff {n : ℕ} : pos < width n h ↔ pos * 2 ^ h < n := by
  have hpow : 0 < 2 ^ h := Nat.two_pow_pos h
  rw [width, ← Nat.succ_le_iff, Nat.le_div_iff_mul_le hpow, Nat.succ_mul]
  omega

theorem width_zero (n : ℕ) : width n 0 = n := by
  rw [width, Nat.pow_zero, Nat.add_sub_cancel, Nat.div_one]

theorem width_succ (n h : ℕ) : width n (h + 1) = (width n h + 1) / 2 := by
  refine eq_of_forall_lt_iff fun pos => ?_
  have hhalf : pos < (width n h + 1) / 2 ↔ 2 * pos < width n h := by omega
  rw [hhalf, lt_width_iff, lt_width_iff, Nat.pow_succ']
  ring_nf

theorem width_le_one_iff {n : ℕ} : width n h ≤ 1 ↔ n ≤ 2 ^ h := by
  rw [← not_lt, lt_width_iff, Nat.one_mul, not_lt]

theorem seg_succ (h pos : ℕ) (l : List α) :
    seg (h + 1) pos l = seg h (pos * 2) l ++ seg h (pos * 2 + 1) l := by
  have hstart : pos * 2 ^ (h + 1) = pos * 2 * 2 ^ h := by ring
  have hnext : (pos * 2 + 1) * 2 ^ h = pos * 2 * 2 ^ h + 2 ^ h := by ring
  rw [seg, seg, seg, hstart, hnext, Nat.pow_succ, Nat.mul_two, take_add, drop_drop]

theorem seg_eq_nil_iff : seg h pos l = [] ↔ width l.length h ≤ pos := by
  have hpow : 0 < 2 ^ h := Nat.two_pow_pos h
  rw [← length_eq_zero_iff, seg, length_take, length_drop, ← not_lt, lt_width_iff]
  omega

theorem seg_zero {x : α} (hx : l[pos]? = some x) : seg 0 pos l = [x] := by
  rw [seg, Nat.pow_zero, Nat.mul_one, take_one, head?_drop, hx]
  rfl

theorem seg_zip {β : Type*} (h pos : ℕ) (l : List α) (m : List β) :
    seg h pos (l.zip m) = (seg h pos l).zip (seg h pos m) := by
  simp only [seg, zip_eq_zipWith, drop_zipWith, take_zipWith]

theorem seg_top (hl : l.length ≤ 2 ^ h) : seg h 0 l = l := by
  rw [seg, Nat.zero_mul, drop_zero, take_of_length_le hl]

/-- The nodes that satisfy `p`, from a node down to those above the leaves. A node is given by the
height of its children and its position. -/
def count (p : ℕ → ℕ → Bool) : (h pos : ℕ) → ℕ
  | 0, _ => 0
  | h + 1, pos => (p h pos).toNat + (count p h (pos * 2) + count p h (pos * 2 + 1))

theorem count_eq_zero {p : ℕ → ℕ → Bool} {above : ℕ → ℕ → Prop}
    (hp : ∀ h pos, p h pos = true → above (h + 1) pos)
    (hup : ∀ h pos, above h (pos * 2) ∨ above h (pos * 2 + 1) → above (h + 1) pos)
    (hnone : ¬ above h pos) : count p h pos = 0 := by
  induction h generalizing pos with
  | zero => rfl
  | succ h ih =>
    have hhere : p h pos = false := Bool.eq_false_iff.mpr fun hhere => hnone (hp h pos hhere)
    rw [count, hhere, ih fun hleft => hnone (hup h pos (.inl hleft)),
      ih fun hright => hnone (hup h pos (.inr hright))]
    rfl

variable {node : α × α → α}

theorem length_iterate_round (h : ℕ) (l : List α) :
    ((Pairing.round node)^[h] l).length = width l.length h := by
  induction h with
  | zero => exact (width_zero l.length).symm
  | succ h ih => rw [Function.iterate_succ_apply', Pairing.length_round, ih, width_succ]

theorem root_of_width {h : ℕ} {l : List α} {r : α} (hlong : ∀ j < h, 1 < width l.length j)
    (hroot : (Pairing.round node)^[h] l = [r]) : Pairing.Root node h l r := by
  induction h generalizing l with
  | zero =>
    obtain rfl : l = [r] := hroot
    exact .leaf r
  | succ h ih =>
    have hlen : 1 < l.length := by
      have hfirst := hlong 0 (Nat.succ_pos h)
      rwa [width_zero] at hfirst
    rw [Function.iterate_succ_apply] at hroot
    refine .join hlen (ih (fun j hj => ?_) hroot)
    have hnext := hlong (j + 1) (Nat.succ_lt_succ hj)
    rwa [← @length_iterate_round _ node, Function.iterate_succ_apply, length_iterate_round] at hnext

end Dyadic
