import Primecoin.Codec.Reader
import Primecoin.Data.Slots

/-!
# Bit masks without a length

Flags are written eight to a byte, without the zero bytes at the end. The reader is told how many
bytes are not zero and reads up to the last of them. `maskSize` finds both numbers in one pass.
-/

namespace Codec

open List

def maskByte (f : ℕ → Bool) (b : ℕ) : UInt8 :=
  ⟨(List.range 8).foldl (fun ch i => if f (8 * b + i) then ch ||| BitVec.twoPow 8 i else ch) 0⟩

def byteBits (ch : UInt8) : List Bool := (List.range 8).map fun p => ch.toBitVec.getLsbD p

/-- Reads bytes until the given number of them was not zero. -/
def readMask : ℕ → Reader UInt8 (List Bool)
  | 0, s => some ([], s)
  | _ + 1, [] => none
  | n + 1, ch :: s =>
    (readMask (if ch = 0 then n + 1 else n) s).map fun (bits, rest) => (byteBits ch ++ bits, rest)

/-- The position after the last used byte among the first `n`, and the number of
used ones. -/
def maskSize (used : ℕ → Bool) (n : ℕ) : ℕ × ℕ :=
  (List.range n).foldl (fun size b => if used b then (b + 1, size.2 + 1) else size) (0, 0)

variable (w : ℕ → UInt8) (n : ℕ)

/-- The first `n` bytes without the zero bytes at the end. -/
def maskBytes : List UInt8 :=
  Slots.trim (fun ch => decide (ch = 0)) ((List.range n).map w)

theorem getLsbD_foldl_twoPow (g : ℕ → Bool) (n p : ℕ) (hp : p < 8) :
    ((List.range n).foldl (fun ch i => if g i then ch ||| BitVec.twoPow 8 i else ch)
      (0 : BitVec 8)).getLsbD p = (decide (p < n) && g p) := by
  induction n with
  | zero => simp
  | succ n ih =>
    rw [range_succ, foldl_append, foldl_cons, foldl_nil]
    generalize (List.range n).foldl _ _ = ch at ih ⊢
    have hset : (if g n then ch ||| BitVec.twoPow 8 n else ch).getLsbD p =
        (ch.getLsbD p || (g n && decide (n < 8) && decide (n = p))) := by
      cases g n
      · simp
      · simp [BitVec.getLsbD_or, BitVec.getLsbD_twoPow]
    rw [hset, ih]
    by_cases hpn : p = n
    · simp [← hpn, hp]
    · have hlt : p < n + 1 ↔ p < n := by omega
      simp [Ne.symm hpn, hlt]

variable (f : ℕ → Bool)

theorem getLsbD_maskByte (b : ℕ) {p : ℕ} (hp : p < 8) :
    (maskByte f b).toBitVec.getLsbD p = f (8 * b + p) := by
  rw [maskByte, getLsbD_foldl_twoPow (fun i => f (8 * b + i)) 8 p hp, decide_eq_true hp,
    Bool.true_and]

theorem byteBits_maskByte (b : ℕ) :
    byteBits (maskByte f b) = (List.range 8).map fun p => f (8 * b + p) :=
  map_congr_left fun _ hp => getLsbD_maskByte f b (mem_range.mp hp)

theorem maskByte_eq_zero_iff {f : ℕ → Bool} {b : ℕ} :
    maskByte f b = 0 ↔ ∀ p < 8, f (8 * b + p) = false := by
  constructor
  · intro h p hp
    rw [← getLsbD_maskByte f b hp, h]
    exact BitVec.getLsbD_zero
  · intro h
    apply UInt8.toBitVec_inj.mp
    apply BitVec.eq_of_getLsbD_eq
    intro p hp
    rw [getLsbD_maskByte f b hp, h p hp]
    exact BitVec.getLsbD_zero.symm

theorem flatMap_byteBits (n : ℕ) :
    ((List.range n).map (maskByte f)).flatMap byteBits = (List.range (8 * n)).map f := by
  induction n with
  | zero => rfl
  | succ n ih =>
    rw [range_succ, map_append, flatMap_append, ih, Nat.mul_succ, range_add, map_append, map_map]
    simp only [map_cons, map_nil, flatMap_cons, flatMap_nil, append_nil, byteBits_maskByte]
    rfl

theorem readsBack_readMask {w : List UInt8} (h : Slots.Trimmed (fun ch => decide (ch = 0)) w) :
    ReadsBack (readMask (w.countP fun ch => decide (ch ≠ 0))) w (w.flatMap byteBits) := by
  induction w with
  | nil =>
    intro rest
    rw [countP_nil, nil_append, readMask]
    rfl
  | cons ch w ih =>
    have htail : Slots.Trimmed (fun ch => decide (ch = 0)) w := by
      intro a ha
      apply h a
      rw [getLast?_cons, ha]
      rfl
    intro rest
    have hread := ih htail rest
    by_cases hzero : ch = 0
    · -- a zero byte is not the last one
      have hpos : (w.countP fun ch => decide (ch ≠ 0)) ≠ 0 := by
        intro hcount
        rw [countP_eq_zero] at hcount
        have hnil := h.eq_nil fun a ha => ?_
        · cases hnil
        · rcases mem_cons.mp ha with rfl | hmem
          · exact decide_eq_true hzero
          · simpa using hcount a hmem
      obtain ⟨n, hn⟩ := Nat.exists_eq_succ_of_ne_zero hpos
      rw [hn] at hread
      rw [countP_cons_of_neg (by simpa using hzero), hn, cons_append, readMask, if_pos hzero, hread]
      rfl
    · rw [countP_cons_of_pos (by simpa using hzero), cons_append, readMask, if_neg hzero, hread]
      rfl

theorem maskSize_eq : maskSize (fun b => decide (w b ≠ 0)) n =
      ((maskBytes w n).length, (maskBytes w n).countP fun ch => decide (ch ≠ 0)) := by
  induction n with
  | zero => rfl
  | succ n ih =>
    have hsize : maskSize (fun b => decide (w b ≠ 0)) (n + 1) =
        if w n ≠ 0 then (n + 1, (maskSize (fun b => decide (w b ≠ 0)) n).2 + 1)
        else maskSize (fun b => decide (w b ≠ 0)) n := by
      simp [maskSize, range_succ]
    have hbytes : maskBytes w (n + 1) =
        if w n = 0 then maskBytes w n else (List.range n).map w ++ [w n] := by
      rw [maskBytes, Slots.trim, range_succ, map_append, map_singleton, rdropWhile_concat]
      simp [maskBytes, Slots.trim]
    rw [hsize, hbytes, ih]
    by_cases hzero : w n = 0
    · rw [if_neg (not_not.mpr hzero), if_pos hzero]
    · have hcount : ((maskBytes w n).countP fun ch => !decide (ch = 0)) =
          ((List.range n).map w).countP fun ch => !decide (ch = 0) := Slots.countP_trim _
      simp only [← decide_not] at hcount
      rw [if_pos hzero, if_neg hzero, length_append, length_map, length_range,
        countP_append, hcount]
      simp [hzero]

theorem map_range_length_maskBytes : (List.range (maskBytes w n).length).map w = maskBytes w n := by
  have hextends : maskBytes w n <+: (List.range n).map w := List.rdropWhile_prefix _ _
  have hlen := hextends.length_le
  rw [length_map, length_range] at hlen
  conv_rhs => rw [prefix_iff_eq_take.mp hextends, ← map_take, take_range, min_eq_left hlen]

theorem eq_zero_of_length_maskBytes_le {w : ℕ → UInt8} {n b : ℕ}
    (h : (maskBytes w n).length ≤ b) (hb : b < n) : w b = 0 := by
  have hlive : Slots.live (fun ch => decide (ch = 0)) ((List.range n).map w) b = none := by
    rw [← Slots.live_trim]
    exact Slots.live_eq_none_of_le h
  simpa [Slots.live, hb, Option.filter_eq_none_iff] using hlive

theorem trimmed_maskBytes :
    Slots.Trimmed (fun ch => decide (ch = 0)) (maskBytes w n) := Slots.trimmed_trim _

theorem maskBytes_eq_nil {w : ℕ → UInt8} {n : ℕ}
    (h : ((maskBytes w n).countP fun ch => decide (ch ≠ 0)) = 0) : maskBytes w n = [] := by
  rw [countP_eq_zero] at h
  apply (trimmed_maskBytes w n).eq_nil
  intro ch hch
  simpa using h ch hch

end Codec
