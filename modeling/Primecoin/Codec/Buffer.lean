import Mathlib.Tactic

/-!
# Buffers that are filled piece by piece

`overwrite` copies a list over a part of a buffer. Pieces copied one behind the other leave the
buffer as their concatenation would.

A consumer that can be stopped and resumed anywhere does not see where one piece of its input
ends: `foldlM_eq_flatten` is the rule.
-/

namespace Codec

open List

variable {α σ : Type}

def overwrite (buf : List α) (pos : ℕ) (src : List α) : List α :=
  buf.take pos ++ src ++ buf.drop (pos + src.length)

theorem length_overwrite {buf : List α} {pos : ℕ} {src : List α}
    (h : pos + src.length ≤ buf.length) : (overwrite buf pos src).length = buf.length := by
  simp only [overwrite, length_append, length_take, length_drop]
  omega

theorem overwrite_zero {buf src : List α} (h : src.length = buf.length) :
    overwrite buf 0 src = src := by
  simp [overwrite, h]

theorem overwrite_middle (front old back : List α) {src : List α} (h : src.length = old.length) :
    overwrite (front ++ old ++ back) front.length src = front ++ src ++ back := by
  have hdrop : (front ++ old ++ back).drop (front.length + src.length) = back := by
    rw [h, ← length_append, drop_left]
  rw [overwrite, hdrop, append_assoc front, take_left]

theorem overwrite_overwrite {buf : List α} {pos : ℕ} (a b : List α) (h : pos ≤ buf.length) :
    overwrite (overwrite buf pos a) (pos + a.length) b = overwrite buf pos (a ++ b) := by
  have hlen : (buf.take pos ++ a).length = pos + a.length := by
    rw [length_append, length_take, Nat.min_eq_left h]
  have htake : (overwrite buf pos a).take (pos + a.length) = buf.take pos ++ a := by
    rw [overwrite, ← hlen, take_left]
  have hdrop : (overwrite buf pos a).drop (pos + a.length + b.length) =
      buf.drop (pos + a.length + b.length) := by
    rw [overwrite, ← hlen, drop_append, hlen, drop_drop]
    rw [drop_eq_nil_of_le (by omega), nil_append]
    congr 1
    omega
  rw [overwrite, htake, hdrop, overwrite, length_append, Nat.add_assoc]
  simp only [append_assoc]

theorem foldlM_eq_flatten {feed : σ → List α → Option σ} (hnil : ∀ s, feed s [] = some s)
    (happend : ∀ s a b, feed s (a ++ b) = (feed s a).bind fun s' => feed s' b)
    (pieces : List (List α)) (s : σ) : pieces.foldlM feed s = feed s pieces.flatten := by
  induction pieces generalizing s with
  | nil => exact (hnil s).symm
  | cons piece pieces ih =>
    rw [foldlM_cons, flatten_cons, happend]
    exact Option.bind_congr fun s' _ => ih s'

end Codec
