import Primecoin.Codec.Buffer

/-!
# Ring buffers over a source

A buffer of fixed size holds the last part of what has been taken from a source: the entry at
position `i` is at `i` modulo the size. `Retains` is kept when more of the source is written
behind, and what is read out of the buffer is a part of the source.
-/

namespace Codec

open List

variable {α : Type} {buf src : List α} {n i pos count : ℕ}

theorem getElem?_overwrite_of_lt {part : List α} (h : pos + part.length ≤ buf.length)
    (hi : i < part.length) : (overwrite buf pos part)[pos + i]? = part[i]? := by
  have hlength : (buf.take pos).length = pos := length_take_of_le (by omega)
  rw [overwrite, append_assoc, getElem?_append_right (by omega), hlength,
    Nat.add_sub_cancel_left, getElem?_append_left hi]

theorem getElem?_overwrite_of_ne {part : List α} (h : pos + part.length ≤ buf.length)
    (hi : i < pos ∨ pos + part.length ≤ i) : (overwrite buf pos part)[i]? = buf[i]? := by
  have hlength : (buf.take pos).length = pos := length_take_of_le (by omega)
  rw [overwrite]
  rcases hi with hi | hi
  · rw [append_assoc, getElem?_append_left (by omega), getElem?_take_of_lt hi]
  · have hfront : (buf.take pos ++ part).length = pos + part.length := by
      rw [length_append, hlength]
    rw [getElem?_append_right (by omega), hfront, getElem?_drop, Nat.add_sub_cancel' hi]

/-- The buffer holds the last entries of the first `n` of the source. -/
def Retains (buf src : List α) (n : ℕ) : Prop :=
  ∀ i, i < n → n ≤ i + buf.length → buf[i % buf.length]? = src[i]?

theorem retains_zero (buf src : List α) : Retains buf src 0 := fun i hi => absurd hi (by omega)

theorem add_mod_of_lt {size : ℕ} (h : n % size + i < size) : (n + i) % size = n % size + i := by
  rw [Nat.add_mod, Nat.mod_eq_of_lt (show i < size by omega), Nat.mod_eq_of_lt h]

theorem Retains.write (h : Retains buf src n) (hfit : n % buf.length + count ≤ buf.length)
    (hsrc : n + count ≤ src.length) :
    Retains (overwrite buf (n % buf.length) ((src.drop n).take count)) src (n + count) := by
  have hlength : ((src.drop n).take count).length = count := by
    rw [length_take_of_le]
    rw [length_drop]
    omega
  have hsize : (overwrite buf (n % buf.length) ((src.drop n).take count)).length = buf.length :=
    length_overwrite (by rw [hlength]; exact hfit)
  intro i hi hret
  rw [hsize] at hret ⊢
  by_cases hnew : n ≤ i
  · obtain ⟨d, rfl⟩ := Nat.exists_eq_add_of_le hnew
    have hd : d < count := by omega
    rw [add_mod_of_lt (by omega), getElem?_overwrite_of_lt (by rw [hlength]; exact hfit)
      (by rw [hlength]; exact hd), getElem?_take_of_lt hd, getElem?_drop]
  · -- an older entry is less than the size of the buffer before every new one
    have hapart : ∀ d < count, i % buf.length ≠ (n + d) % buf.length := by
      intro d hd heq
      have hdvd := (Nat.modEq_iff_dvd' (by omega : i ≤ n + d)).mp heq
      have hle := Nat.le_of_dvd (by omega) hdvd
      omega
    have hout : i % buf.length < n % buf.length ∨
        n % buf.length + ((src.drop n).take count).length ≤ i % buf.length := by
      rw [hlength]
      by_contra hin
      rw [not_or, not_lt, not_le] at hin
      refine hapart (i % buf.length - n % buf.length) (by omega) ?_
      rw [add_mod_of_lt (by omega)]
      omega
    rw [getElem?_overwrite_of_ne (by rw [hlength]; exact hfit) hout]
    exact h i (by omega) (by omega)

theorem Retains.read (h : Retains buf src n) (hfit : i % buf.length + count ≤ buf.length)
    (hle : i + count ≤ n) (hret : n ≤ i + buf.length) :
    (buf.drop (i % buf.length)).take count = (src.drop i).take count := by
  refine ext_getElem? fun d => ?_
  by_cases hd : d < count
  · rw [getElem?_take_of_lt hd, getElem?_take_of_lt hd, getElem?_drop,
      getElem?_drop, ← add_mod_of_lt (by omega), h (i + d) (by omega) (by omega)]
  · rw [getElem?_take_eq_none (by omega), getElem?_take_eq_none (by omega)]

end Codec
