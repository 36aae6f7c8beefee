import Mathlib.Tactic
import Mathlib.Data.List.DropRight

/-!
# Lists with dead slots

`live dead l n` is the entry at position `n` when it exists and is not dead. Trimming drops the
dead entries at the end, and `assign` writes a position, growing the list with a blank entry where
it is too short. Neither is visible through `live`, except at the position written.
-/

namespace Slots

open List

variable {α : Type*} (dead : α → Bool) (l : List α)

def live (n : ℕ) : Option α := l[n]?.filter fun a => !dead a

def trim : List α := l.rdropWhile dead

def Trimmed : Prop := ∀ a, l.getLast? = some a → dead a = false

/-- Write position `n`, after growing the list with `blank` up to it. -/
def assign (blank : α) (l : List α) (n : ℕ) (a : α) : List α :=
  (l ++ List.replicate (n + 1 - l.length) blank).set n a

def sumLive (f : α → ℤ) (l : List α) : ℤ := (l.map fun a => if dead a then 0 else f a).sum

variable {dead} {l k : List α} {n : ℕ} {a : α}

theorem live_eq_some_iff : live dead l n = some a ↔ l[n]? = some a ∧ dead a = false := by
  simp [live, Option.filter_eq_some_iff]

theorem live_eq_none_of_le (h : l.length ≤ n) : live dead l n = none := by
  simp [live, getElem?_eq_none h]

theorem live_append_dead {r : List α} (hr : ∀ a ∈ r, dead a = true) (n : ℕ) :
    live dead (l ++ r) n = live dead l n := by
  by_cases hn : n < l.length
  · rw [live, live, getElem?_append_left hn]
  · rw [live_eq_none_of_le (not_lt.mp hn)]
    rw [Option.eq_none_iff_forall_not_mem]
    intro a ha
    obtain ⟨hget, halive⟩ := live_eq_some_iff.mp ha
    rw [getElem?_append_right (not_lt.mp hn)] at hget
    rw [hr a (mem_of_getElem? hget)] at halive
    exact Bool.noConfusion halive

theorem live_trim (l : List α) (n : ℕ) : live dead (trim dead l) n = live dead l n := by
  have hsplit : l = l.rdropWhile dead ++ l.rtakeWhile dead :=
    rdropWhile_append_rtakeWhile.symm
  conv_rhs => rw [hsplit]
  exact (live_append_dead (fun a ha => mem_rtakeWhile_imp ha) n).symm

theorem countP_trim (l : List α) :
    (trim dead l).countP (fun a => !dead a) = l.countP fun a => !dead a := by
  have hsplit : l = l.rdropWhile dead ++ l.rtakeWhile dead :=
    rdropWhile_append_rtakeWhile.symm
  have hzero : (l.rtakeWhile dead).countP (fun a => !dead a) = 0 := by
    rw [countP_eq_zero]
    intro a ha
    simp [mem_rtakeWhile_imp ha]
  conv_rhs => rw [hsplit, countP_append, hzero, add_zero]
  rfl

theorem trimmed_trim (l : List α) : Trimmed dead (trim dead l) := by
  intro a ha
  have hne : l.rdropWhile dead ≠ [] := by
    intro hnil
    simp [trim, hnil] at ha
  have hlast := rdropWhile_last_not dead l hne
  rw [trim, getLast?_eq_some_getLast hne, Option.some.injEq] at ha
  rw [ha] at hlast
  simpa using hlast

theorem Trimmed.trim_eq (h : Trimmed dead l) : trim dead l = l := by
  rw [trim, rdropWhile_eq_self_iff]
  intro hne hdead
  rw [h (l.getLast hne) (getLast?_eq_some_getLast hne)] at hdead
  cases hdead

theorem Trimmed.eq_nil (h : Trimmed dead l) (hdead : ∀ a ∈ l, dead a = true) : l = [] := by
  cases hlast : l.getLast? with
  | none => exact getLast?_eq_none_iff.mp hlast
  | some a =>
    have halive := h a hlast
    rw [hdead a (mem_of_getLast? hlast)] at halive
    cases halive

theorem trim_eq_nil_iff : trim dead l = [] ↔ ∀ n, live dead l n = none := by
  rw [trim, rdropWhile_eq_nil_iff]
  constructor
  · intro h n
    rw [Option.eq_none_iff_forall_not_mem]
    intro a ha
    obtain ⟨hget, halive⟩ := live_eq_some_iff.mp ha
    rw [h a (mem_of_getElem? hget)] at halive
    exact Bool.noConfusion halive
  · intro h a ha
    obtain ⟨n, hn⟩ := mem_iff_getElem?.mp ha
    by_contra hdead
    have hlive := live_eq_some_iff.mpr ⟨hn, by simpa using hdead⟩
    rw [h n] at hlive
    cases hlive

theorem live_set_dead {b : α} (hb : dead b = true) (l : List α) (n m : ℕ) :
    live dead (l.set n b) m = if m = n then none else live dead l m := by
  by_cases h : m = n
  · subst m
    rw [if_pos rfl, live, getElem?_set_self']
    cases l[n]? with
    | none => rfl
    | some a => simp [hb]
  · rw [if_neg h, live, live, getElem?_set_ne (Ne.symm h)]

theorem live_assign {blank : α} (hblank : dead blank = true) (ha : dead a = false)
    (l : List α) (n m : ℕ) :
    live dead (assign blank l n a) m = if m = n then some a else live dead l m := by
  have hlen : n < (l ++ List.replicate (n + 1 - l.length) blank).length := by
    rw [length_append, length_replicate]
    omega
  by_cases h : m = n
  · subst m
    rw [if_pos rfl, live_eq_some_iff]
    exact ⟨getElem?_set_self hlen, ha⟩
  · rw [if_neg h, live, assign, getElem?_set_ne (Ne.symm h)]
    refine live_append_dead (fun b hb => ?_) m
    rw [eq_of_mem_replicate hb, hblank]

theorem trimmed_assign {blank : α} (ha : dead a = false)
    (hl : Trimmed dead l) (n : ℕ) : Trimmed dead (assign blank l n a) := by
  intro b hb
  by_cases hn : n + 1 < l.length
  · have hpad : n + 1 - l.length = 0 := by omega
    rw [assign, hpad, replicate_zero, append_nil, getLast?_eq_getElem?,
      length_set, getElem?_set_ne (by omega), ← getLast?_eq_getElem?] at hb
    exact hl b hb
  · have hlen : (l ++ List.replicate (n + 1 - l.length) blank).length = n + 1 := by
      rw [length_append, length_replicate]
      omega
    rw [assign, getLast?_eq_getElem?, length_set, hlen, Nat.add_sub_cancel,
      getElem?_set_self (by omega), Option.some.injEq] at hb
    rwa [← hb]

theorem length_le_of_live_eq (hk : Trimmed dead k)
    (h : ∀ n, live dead l n = live dead k n) : k.length ≤ l.length := by
  by_contra hlt
  obtain ⟨a, ha⟩ : ∃ a, k.getLast? = some a :=
    ⟨_, getLast?_eq_some_getLast (by rintro rfl; simp at hlt)⟩
  have hend : live dead k (k.length - 1) = some a := by
    rw [live_eq_some_iff, ← getLast?_eq_getElem?]
    exact ⟨ha, hk a ha⟩
  rw [← h, live_eq_none_of_le (by omega)] at hend
  cases hend

/-- A trimmed list that shows the live entries of a list without dead ones is that list. -/
theorem eq_of_live_eq (hl : ∀ a ∈ l, dead a = false) (hk : Trimmed dead k)
    (h : ∀ n, live dead l n = live dead k n) : k = l := by
  have hlive : ∀ (n : ℕ) (a : α), l[n]? = some a → k[n]? = some a := by
    intro n a ha
    have hthere := live_eq_some_iff.mpr ⟨ha, hl a (mem_of_getElem? ha)⟩
    rw [h n] at hthere
    exact (live_eq_some_iff.mp hthere).1
  have hle := length_le_of_live_eq hk h
  apply ext_getElem?
  intro n
  cases hn : l[n]? with
  | some a => exact hlive n a hn
  | none =>
    rw [List.getElem?_eq_none_iff] at hn ⊢
    omega

theorem filter_eq_nil_of_live_eq_none (h : ∀ n, live dead l n = none) :
    l.filter (fun a => !dead a) = [] := by
  rw [filter_eq_nil_iff]
  intro a ha halive
  obtain ⟨n, hn⟩ := mem_iff_getElem?.mp ha
  have hlive := live_eq_some_iff.mpr ⟨hn, by simpa using halive⟩
  rw [h n] at hlive
  cases hlive

theorem filter_eq_of_live_eq (h : ∀ n, live dead l n = live dead k n) :
    l.filter (fun a => !dead a) = k.filter fun a => !dead a := by
  induction l generalizing k with
  | nil => exact (filter_eq_nil_of_live_eq_none fun n => (h n).symm).symm
  | cons a l ih =>
    cases k with
    | nil => exact filter_eq_nil_of_live_eq_none h
    | cons b k =>
      have htail := ih (k := k) fun n => by simpa [live] using h (n + 1)
      have hhead := h 0
      simp only [live, getElem?_cons_zero, Option.filter_some] at hhead
      rw [filter_cons, filter_cons, htail]
      split_ifs at hhead ⊢
      · rw [Option.some.inj hhead]
      · rfl

section Canonical

variable (dead) (blank : α)

def canonical (l : List α) : List α := l.map fun a => if dead a then blank else a

variable {dead blank}

theorem canonical_eq_self {l : List α} (h : ∀ a ∈ l, dead a = true → a = blank) :
    canonical dead blank l = l := by
  have hsame : ∀ a ∈ l, (if dead a then blank else a) = id a := by
    intro a ha
    split_ifs with hdead
    · exact (h a ha hdead).symm
    · rfl
  rw [canonical, map_congr_left hsame, map_id]

theorem live_canonical (hblank : dead blank = true) (l : List α) (n : ℕ) :
    live dead (canonical dead blank l) n = live dead l n := by
  rw [live, live, canonical, getElem?_map]
  cases l[n]? with
  | none => rfl
  | some a => cases ha : dead a <;> simp [Option.filter_some, ha, hblank]

/-- What a list shows determines it once it is trimmed and its dead entries are
blank. -/
theorem trim_canonical_eq (hblank : dead blank = true) {l k : List α}
    (h : ∀ n, live dead l n = live dead k n) :
    trim dead (canonical dead blank l) = trim dead (canonical dead blank k) := by
  have hlive : ∀ n, live dead (trim dead (canonical dead blank l)) n =
      live dead (trim dead (canonical dead blank k)) n := by
    intro n
    rw [live_trim, live_trim, live_canonical hblank, live_canonical hblank, h]
  have hmem : ∀ (l : List α) (a : α), a ∈ trim dead (canonical dead blank l) → dead a = true →
      a = blank := by
    intro l a ha hdead
    obtain ⟨b, -, rfl⟩ := mem_map.mp ((List.rdropWhile_prefix _ _).mem ha)
    by_cases hb : dead b = true
    · rw [if_pos hb]
    · rw [if_neg hb] at hdead
      exact absurd hdead hb
  have hkl := length_le_of_live_eq (trimmed_trim (canonical dead blank k)) hlive
  have hlk := length_le_of_live_eq (trimmed_trim (canonical dead blank l)) fun n => (hlive n).symm
  refine ext_getElem (le_antisymm hlk hkl) fun n hn hn' => ?_
  have hn_eq := hlive n
  rw [live, live, getElem?_eq_getElem hn, getElem?_eq_getElem hn'] at hn_eq
  simp only [Option.filter_some] at hn_eq
  split_ifs at hn_eq with ha hb hb
  · exact Option.some.inj hn_eq
  · rw [hmem l _ (getElem_mem hn) (by simpa using ha),
      hmem k _ (getElem_mem hn') (by simpa using hb)]

end Canonical

variable (f : α → ℤ)

theorem sumLive_append (l r : List α) :
    sumLive dead f (l ++ r) = sumLive dead f l + sumLive dead f r := by
  simp [sumLive]

theorem sumLive_trim (l : List α) : sumLive dead f (trim dead l) = sumLive dead f l := by
  have hsplit : l = l.rdropWhile dead ++ l.rtakeWhile dead :=
    rdropWhile_append_rtakeWhile.symm
  have hzero : sumLive dead f (l.rtakeWhile dead) = 0 := by
    apply sum_eq_zero
    intro x hx
    obtain ⟨a, ha, rfl⟩ := mem_map.mp hx
    rw [if_pos (mem_rtakeWhile_imp ha)]
  conv_rhs => rw [hsplit, sumLive_append, hzero, add_zero]
  rfl

theorem sumLive_set_dead {a b : α} (hb : dead b = true) {l : List α} {n : ℕ}
    (ha : live dead l n = some a) : sumLive dead f (l.set n b) = sumLive dead f l - f a := by
  obtain ⟨hget, halive⟩ := live_eq_some_iff.mp ha
  induction l generalizing n with
  | nil => simp at hget
  | cons c l ih =>
    cases n with
    | zero =>
      obtain rfl : c = a := by simpa using hget
      simp [sumLive, hb, halive]
    | succ n =>
      have htail := ih (live_eq_some_iff.mpr ⟨by simpa using hget, halive⟩) (by simpa using hget)
      simp only [sumLive, set_cons_succ, map_cons, sum_cons] at htail ⊢
      rw [htail, add_sub_assoc]

end Slots
