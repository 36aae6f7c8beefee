import Mathlib.Data.Finite.Prod
import Mathlib.Data.Fintype.Lattice
import Mathlib.Data.Int.ConditionallyCompleteOrder
import Mathlib.Logic.Equiv.Fin.Basic
import Mathlib.Order.ConditionallyCompleteLattice.Indexed

/-!
# The tried entry to evict

`SelectTried` shuffles the first few entries of a bucket and remembers the one whose last success
is the longest ago. The entry drawn in turn `i` is swapped to position `i`, but the position
remembered is the one it was drawn from.
-/

namespace Primecoin

open List

/-- The loop's state: the bucket, and `nOldest` with `nOldestPos` once they are set. -/
structure SelectTried (α : Type*) (n : ℕ) where
  vTried : Fin n → α
  oldest : Option (α × Fin n)

namespace SelectTried

variable {α : Type*} {n : ℕ}

section Code

variable (nLastSuccess : α → ℤ) (nPos : Fin n → Fin n)

def turn (s : SelectTried α n) (i : Fin n) : SelectTried α n :=
  let nTemp := s.vTried (nPos i)
  { vTried := s.vTried ∘ Equiv.swap i (nPos i)
    oldest :=
      if s.oldest.all fun nOldest => nLastSuccess nTemp < nLastSuccess nOldest.1 then
        some (nTemp, nPos i)
      else s.oldest }

def inspectOnEvict : ℕ := 4

/-- The run on a bucket whose entries are all in `mapNetworkPeer`. -/
def selectTried (vTried : Fin n → α) : SelectTried α n :=
  ((finRange n).take inspectOnEvict).foldl (turn nLastSuccess nPos) ⟨vTried, none⟩

end Code

/-- Whatever is drawn (turn `i` draws from `i` on), the position returned is one of the bucket,
the entry there has the least last success among the first few, and the bucket is only reordered.
-/
def EvictsOldest (nLastSuccess : α → ℤ) (vTried : Fin n → α) : Prop :=
  ∀ nPos : Fin n → Fin n, (∀ i, i ≤ nPos i) →
    ∃ (nOldest : α) (nOldestPos : Fin n) (σ : Equiv.Perm (Fin n)),
      let s := selectTried nLastSuccess nPos vTried
      s.oldest = some (nOldest, nOldestPos) ∧ s.vTried = vTried ∘ σ ∧
        IsLeast ((nLastSuccess ∘ s.vTried) '' {i | i < inspectOnEvict})
          (nLastSuccess (s.vTried nOldestPos))

section Run

variable {last : α → ℤ} {nPos : Fin n → Fin n} {s : SelectTried α n} (l : List (Fin n))

theorem exists_perm_foldl :
    ∃ σ : Equiv.Perm (Fin n), (l.foldl (turn last nPos) s).vTried = s.vTried ∘ σ := by
  induction l generalizing s with
  | nil => exact ⟨.refl _, rfl⟩
  | cons i l ih =>
    obtain ⟨σ, hσ⟩ := @ih (s.turn last nPos i)
    exact ⟨σ.trans (Equiv.swap i (nPos i)), hσ⟩

theorem isSome_foldl (hs : s.oldest.isSome) : (l.foldl (turn last nPos) s).oldest.isSome := by
  induction l generalizing s with
  | nil => exact hs
  | cons i l ih =>
    refine ih ?_
    rw [turn]
    split_ifs with holder
    · rfl
    · exact hs

/-- Turns that draw their own position, after an entry that is the oldest of all. -/
theorem foldl_quiet {oldest : α × Fin n} (hs : s.oldest = some oldest)
    (hleast : ∀ i, last oldest.1 ≤ last (s.vTried i)) (hquiet : ∀ i ∈ l, nPos i = i) :
    l.foldl (turn last nPos) s = s := by
  induction l with
  | nil => rfl
  | cons i l ih =>
    have hturn : s.turn last nPos i = s := by
      simp only [turn, hquiet i mem_cons_self, Equiv.swap_self, hs, Option.all_some,
        (hleast i).not_gt, decide_false, Bool.false_eq_true, if_false]
      rw [← hs]
      rfl
    rw [foldl_cons, hturn]
    exact ih fun j hj => hquiet j (mem_cons_of_mem i hj)

end Run

section Draws

variable {last : α → ℤ} {vTried : Fin (n + 2) → α} (a b : Fin (n + 2))

/-- The choices that draw at `a`, then at `b`, and then every entry where it is. -/
def draws : Fin (n + 2) → Fin (n + 2) :=
  Function.update (Function.update id 0 a) 1 b

variable (last vTried) in
def drawn : SelectTried α (n + 2) :=
  turn last (fun _ => b) (turn last (fun _ => a) ⟨vTried, none⟩ 0) 1

variable {a b}

theorem oldest_drawn (hleast : ∀ i, last (vTried a) ≤ last (vTried i)) :
    (drawn last vTried a b).oldest = some (vTried a, a) := by
  simp [drawn, turn, (hleast _).not_gt]

variable (h : EvictsOldest last vTried)
include h

theorem EvictsOldest.le_drawn (hb : 1 ≤ b) {oldest : α × Fin (n + 2)}
    (hs : (drawn last vTried a b).oldest = some oldest)
    (hleast : ∀ i, last oldest.1 ≤ last (vTried i)) {i : Fin (n + 2)} (hi : i ≤ 1) :
    last ((drawn last vTried a b).vTried oldest.2) ≤
      last ((drawn last vTried a b).vTried i) := by
  have hrun : selectTried last (draws a b) vTried = drawn last vTried a b := by
    rw [selectTried, inspectOnEvict, finRange_succ, finRange_succ]
    exact foldl_quiet _ hs (fun i => hleast _) fun i hi => by
      obtain ⟨j, hj, rfl⟩ := mem_map.mp (mem_of_mem_take hi)
      obtain ⟨k, -, rfl⟩ := mem_map.mp hj
      simp [draws, Fin.ext_iff]
  obtain ⟨_, nOldestPos, _, holdest, -, hfew⟩ := h (draws a b) fun i => by
    rw [draws, Function.update_apply, Function.update_apply]
    split_ifs with hone hzero
    · exact hone.trans_le hb
    · exact hzero.trans_le (Fin.zero_le a)
    · exact le_rfl
  rw [hrun] at holdest hfew
  obtain rfl := Option.some.inj (hs.symm.trans holdest)
  exact hfew.2 ⟨i, (Fin.le_def.mp hi).trans_lt (by simp [inspectOnEvict]), rfl⟩

theorem EvictsOldest.first_le (i : Fin (n + 2)) : last (vTried 0) ≤ last (vTried i) := by
  obtain ⟨p, hp⟩ := Finite.exists_min (last ∘ vTried)
  have hle := h.le_drawn le_rfl (oldest_drawn hp) hp (Fin.zero_le 1)
  have hzero : last (vTried 0) ≤ last (vTried p) := by simpa [drawn, turn] using hle
  exact hzero.trans (hp i)

variable {q : Fin (n + 2)} (hq : 1 < q)
include hq

-- `q` is drawn twice, so that the entry at 1 goes where the oldest one was drawn from.
theorem EvictsOldest.second_le : last (vTried 1) ≤ last (vTried 0) := by
  have hle : ∀ x : α, last x = last (vTried 0) → (drawn last vTried q q).oldest = some (x, q) →
      last (vTried 1) ≤ last (vTried 0) := fun x hx hs => by
    have hle := h.le_drawn hq.le hs (hx ▸ h.first_le) le_rfl
    simpa [drawn, turn, Equiv.swap_apply_of_ne_of_ne, hq.ne] using hle
  obtain hlt | heq := (h.first_le q).lt_or_eq
  · exact hle (vTried 0) rfl (by simp [drawn, turn, hlt])
  · exact hle (vTried q) heq.symm (oldest_drawn (heq ▸ h.first_le))

-- The entry at 1 is drawn first and `q` next, which takes the place of the first draw.
theorem EvictsOldest.le_first : last (vTried q) ≤ last (vTried 0) := by
  have hsecond : last (vTried 0) = last (vTried 1) := (h.first_le 1).antisymm (h.second_le hq)
  have hleast := hsecond ▸ h.first_le
  have hle := h.le_drawn hq.le (oldest_drawn hleast) hleast (Fin.zero_le 1)
  have hne : q ≠ 0 := (Fin.zero_lt_one.trans hq).ne'
  simpa [drawn, turn, Equiv.swap_apply_of_ne_of_ne, hq.ne', hne, hne.symm, hsecond] using hle

end Draws

variable {last : α → ℤ}

theorem evictsOldest_of_eq {vTried : Fin (n + 1) → α}
    (heq : ∀ i, last (vTried i) = last (vTried 0)) : EvictsOldest last vTried := by
  intro nPos _
  obtain ⟨σ, hσ⟩ := exists_perm_foldl ((finRange (n + 1)).take inspectOnEvict)
  obtain ⟨oldest, holdest⟩ := Option.isSome_iff_exists.mp <|
    isSome_foldl (s := turn last nPos ⟨vTried, none⟩ 0) (((finRange n).map Fin.succ).take 3)
      (by simp [turn])
  have hafter : ∀ i, last ((selectTried last nPos vTried).vTried i) = last (vTried 0) := fun i => by
    rw [selectTried, hσ]
    exact heq (σ i)
  refine ⟨oldest.1, oldest.2, σ, ?_, hσ,
    ⟨0, by simp [inspectOnEvict], (hafter 0).trans (hafter _).symm⟩,
    Set.forall_mem_image.mpr fun i _ => ((hafter _).trans (hafter i).symm).le⟩
  rw [selectTried, finRange_succ]
  exact holdest

theorem evictsOldest_pair {vTried : Fin 2 → α} (hmono : Monotone (last ∘ vTried)) :
    EvictsOldest last vTried := by
  intro nPos hpos
  obtain ⟨σ, hσ⟩ := exists_perm_foldl ((finRange 2).take inspectOnEvict)
  have hrun : selectTried last nPos vTried = drawn last vTried (nPos 0) 1 :=
    congrArg (drawn last vTried (nPos 0)) (Fin.last_le_iff.mp (hpos 1))
  have hkept : ∃ nOldest nOldestPos,
      (drawn last vTried (nPos 0) 1).oldest = some (nOldest, nOldestPos) ∧
        (drawn last vTried (nPos 0) 1).vTried nOldestPos = vTried 0 := by
    obtain hzero | hzero : nPos 0 = 0 ∨ nPos 0 = 1 := by omega
    · have hle : ¬ last (vTried 1) < last (vTried 0) := (hmono (Fin.zero_le 1)).not_gt
      exact ⟨vTried 0, 0, by simp [drawn, turn, hzero, hle]⟩
    · by_cases hlt : last (vTried 0) < last (vTried 1)
      · exact ⟨vTried 0, 1, by simp [drawn, turn, hzero, hlt]⟩
      · exact ⟨vTried 1, 1, by simp [drawn, turn, hzero, hlt]⟩
  obtain ⟨nOldest, nOldestPos, holdest, hfirst⟩ := hrun ▸ hkept
  refine ⟨nOldest, nOldestPos, σ, holdest, hσ,
    ⟨nOldestPos, nOldestPos.2.trans (by decide), rfl⟩, Set.forall_mem_image.mpr fun i _ => ?_⟩
  rw [hfirst, Function.comp_apply, selectTried, hσ]
  exact hmono (Fin.zero_le (σ i))

/-- Beyond two entries in the right order, nothing but equal times is safe. -/
theorem evictsOldest_iff (nLastSuccess : α → ℤ) (vTried : Fin n → α) :
    EvictsOldest nLastSuccess vTried ↔
      0 < n ∧ ((∀ i j, nLastSuccess (vTried i) = nLastSuccess (vTried j)) ∨
        n = 2 ∧ Monotone (nLastSuccess ∘ vTried)) := by
  constructor
  · intro h
    match n with
    | 0 =>
      obtain ⟨_, nOldestPos, _⟩ := h id fun _ => le_rfl
      exact nOldestPos.elim0
    | 1 => exact ⟨one_pos, .inl fun i j => by rw [Subsingleton.elim i j]⟩
    | 2 =>
      refine ⟨Nat.two_pos, .inr ⟨rfl, Fin.monotone_iff_le_succ.mpr fun i => ?_⟩⟩
      rw [Subsingleton.elim i 0]
      exact h.first_le 1
    | n + 3 =>
      have heq : ∀ i, nLastSuccess (vTried i) = nLastSuccess (vTried 0) := fun i => by
        refine le_antisymm ?_ (h.first_le i)
        obtain hi | rfl | hi := lt_trichotomy i 1
        · obtain rfl : i = 0 := Fin.ext (Nat.lt_one_iff.mp hi)
          exact le_rfl
        · exact h.second_le (q := Fin.last _) (by simp [Fin.lt_def])
        · exact h.le_first hi
      exact ⟨Nat.succ_pos _, .inl fun i j => (heq i).trans (heq j).symm⟩
  · rintro ⟨hn, heq | ⟨rfl, hmono⟩⟩
    · obtain ⟨n, rfl⟩ := Nat.exists_eq_add_of_lt hn
      exact evictsOldest_of_eq fun i => heq i _
    · exact evictsOldest_pair hmono

def bucket : Fin 64 → ℤ := fun i => i

def lastSuccess (nId : ℤ) : ℤ := if nId = 1 then 1000 else 2000

/-- Entry 1 is drawn first, and position 1 is returned, where entry 0 is then. -/
theorem not_evictsOldest :
    (selectTried lastSuccess (draws 1 1) bucket).oldest = some (1, 1) ∧
      (selectTried lastSuccess (draws 1 1) bucket).vTried 1 = 0 ∧
      ¬ EvictsOldest lastSuccess bucket := by
  refine ⟨by decide +kernel, by decide +kernel, fun h => ?_⟩
  exact absurd (h.first_le 1) (by decide)

end SelectTried

end Primecoin
