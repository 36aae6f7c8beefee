import Mathlib.Tactic

/-!
# Ordered maps

A finite map kept as its entries in increasing order of the keys, to be walked through in that
order.

`Tracks` says that a map has exactly the entries that a set of items has been stored with, where
several items may have the same key.
-/

structure SortedMap (κ α : Type*) [LinearOrder κ] where
  toList : List (κ × α)
  sorted : toList.Pairwise (fun a b => a.1 < b.1)
  deriving DecidableEq

namespace SortedMap

open List

variable {κ α : Type*} [LinearOrder κ] {k : κ} {v : α} {m : SortedMap κ α}

def empty : SortedMap κ α := ⟨[], .nil⟩

/-- The list with an entry put before the first larger key, or in the place of its key. -/
def insertList (k : κ) (v : α) : List (κ × α) → List (κ × α)
  | [] => [(k, v)]
  | entry :: l =>
    if k < entry.1 then (k, v) :: entry :: l
    else if k = entry.1 then (k, v) :: l
    else entry :: insertList k v l

theorem mem_insertList {l : List (κ × α)} (h : l.Pairwise (fun a b => a.1 < b.1)) {entry : κ × α} :
    entry ∈ insertList k v l ↔ entry = (k, v) ∨ entry.1 ≠ k ∧ entry ∈ l := by
  induction l with
  | nil => simp [insertList]
  | cons first l ih =>
    have hfirst : ∀ e ∈ l, first.1 < e.1 := fun e he => rel_of_pairwise_cons h he
    rw [insertList]
    split_ifs with hlt heq
    · have hne : ∀ e ∈ first :: l, e.1 ≠ k := by
        intro e he
        rcases mem_cons.mp he with rfl | he
        · exact hlt.ne'
        · exact (hlt.trans (hfirst e he)).ne'
      rw [mem_cons]
      exact or_congr_right ⟨fun he => ⟨hne _ he, he⟩, fun he => he.2⟩
    · have hne : ∀ e ∈ l, e.1 ≠ k := fun e he => heq ▸ (hfirst e he).ne'
      rw [mem_cons, mem_cons]
      refine or_congr_right ⟨fun he => ⟨hne _ he, Or.inr he⟩, ?_⟩
      rintro ⟨hk, rfl | he⟩
      · exact absurd heq.symm hk
      · exact he
    · rw [mem_cons, mem_cons, ih h.of_cons]
      constructor
      · rintro (rfl | rfl | ⟨hk, he⟩)
        · exact Or.inr ⟨fun hk => heq hk.symm, Or.inl rfl⟩
        · exact Or.inl rfl
        · exact Or.inr ⟨hk, Or.inr he⟩
      · rintro (rfl | ⟨hk, rfl | he⟩)
        · exact Or.inr (Or.inl rfl)
        · exact Or.inl rfl
        · exact Or.inr (Or.inr ⟨hk, he⟩)

theorem pairwise_insertList (k : κ) (v : α) {l : List (κ × α)}
    (h : l.Pairwise (fun a b => a.1 < b.1)) :
    (insertList k v l).Pairwise (fun a b => a.1 < b.1) := by
  induction l with
  | nil => exact pairwise_singleton _ _
  | cons first l ih =>
    have hfirst : ∀ e ∈ l, first.1 < e.1 := fun e he => rel_of_pairwise_cons h he
    rw [insertList]
    split_ifs with hlt heq
    · refine pairwise_cons.mpr ⟨fun e he => ?_, h⟩
      rcases mem_cons.mp he with rfl | he
      · exact hlt
      · exact hlt.trans (hfirst e he)
    · exact pairwise_cons.mpr ⟨fun e he => heq ▸ hfirst e he, h.of_cons⟩
    · refine pairwise_cons.mpr ⟨fun e he => ?_, ih h.of_cons⟩
      rcases (mem_insertList h.of_cons).mp he with rfl | ⟨-, he⟩
      · exact lt_of_le_of_ne (not_lt.mp hlt) (Ne.symm heq)
      · exact hfirst e he

def insert (m : SortedMap κ α) (k : κ) (v : α) : SortedMap κ α :=
  ⟨insertList k v m.toList, pairwise_insertList k v m.sorted⟩

def get? (m : SortedMap κ α) (k : κ) : Option α :=
  (m.toList.find? fun entry => entry.1 = k).map Prod.snd

theorem mem_insert {entry : κ × α} :
    entry ∈ (m.insert k v).toList ↔ entry = (k, v) ∨ entry.1 ≠ k ∧ entry ∈ m.toList :=
  mem_insertList m.sorted

theorem eq_of_mem_of_mem {a b : κ × α} (ha : a ∈ m.toList)
    (hb : b ∈ m.toList) (h : a.1 = b.1) : a = b := by
  by_contra hne
  rcases List.Pairwise.forall_of_forall_of_flip (l := m.toList)
    (R := fun a b => a = b ∨ a.1 ≠ b.1) (fun _ _ => Or.inl rfl)
    (m.sorted.imp fun hlt => Or.inr hlt.ne) (m.sorted.imp fun hlt => Or.inr hlt.ne') ha hb with
    heq | hkey
  · exact hne heq
  · exact hkey h

theorem get?_eq_some_iff : m.get? k = some v ↔ (k, v) ∈ m.toList := by
  rw [get?, Option.map_eq_some_iff]
  constructor
  · rintro ⟨⟨k', v'⟩, hfind, rfl⟩
    have hkey : k' = k := by simpa using find?_some hfind
    exact hkey ▸ mem_of_find?_eq_some hfind
  · intro hmem
    have hsome : (m.toList.find? fun entry => entry.1 = k).isSome := by
      rw [find?_isSome]
      exact ⟨(k, v), hmem, by simp⟩
    obtain ⟨entry, hfind⟩ := Option.isSome_iff_exists.mp hsome
    have hkey : entry.1 = k := by simpa using find?_some hfind
    have heq := eq_of_mem_of_mem (mem_of_find?_eq_some hfind) hmem hkey
    exact ⟨entry, hfind, by rw [heq]⟩

theorem get?_insert (m : SortedMap κ α) (k k' : κ) (v : α) :
    (m.insert k v).get? k' = if k' = k then some v else m.get? k' := by
  ext w
  rw [get?_eq_some_iff, mem_insert, Prod.mk.injEq]
  split_ifs with hk
  · constructor
    · rintro (⟨-, rfl⟩ | ⟨hne, -⟩)
      · rfl
      · exact absurd hk hne
    · rintro ⟨rfl⟩
      exact Or.inl ⟨hk, rfl⟩
  · rw [get?_eq_some_iff]
    constructor
    · rintro (⟨heq, -⟩ | ⟨-, hmem⟩)
      · exact absurd heq hk
      · exact hmem
    · exact fun hmem => Or.inr ⟨hk, hmem⟩

theorem get?_insert_self (m : SortedMap κ α) (k : κ) (v : α) : (m.insert k v).get? k = some v := by
  rw [get?_insert, if_pos rfl]

/-! ### Maps of stored items -/

variable {β : Type*} {key : β → κ} {m : SortedMap κ α} {s t : Set β} {R R' : β → α → Prop}

/-- Each entry was stored for an item, and each item has an entry. -/
def Tracks (key : β → κ) (m : SortedMap κ α) (s : Set β) (R : β → α → Prop) : Prop :=
  (∀ k v, m.get? k = some v → ∃ b ∈ s, key b = k ∧ R b v) ∧ ∀ b ∈ s, ∃ v, m.get? (key b) = some v

theorem tracks_of_toList_eq_nil (h : m.toList = []) : Tracks key m ∅ R := by
  refine ⟨fun k v hget => ?_, fun b hb => absurd hb (Set.notMem_empty b)⟩
  rw [get?_eq_some_iff, h] at hget
  cases hget

theorem Tracks.eq_empty (h : Tracks key m s R) (hm : m.toList = []) : s = ∅ := by
  rw [Set.eq_empty_iff_forall_notMem]
  intro b hb
  obtain ⟨v, hget⟩ := h.2 b hb
  rw [get?_eq_some_iff, hm] at hget
  cases hget

theorem Tracks.insert (h : Tracks key m s R) {b : β} {v : α} (hv : R b v) :
    Tracks key (m.insert (key b) v) ({b} ∪ s) R := by
  refine ⟨fun k w hget => ?_, fun c hc => ?_⟩
  · rw [get?_insert] at hget
    split_ifs at hget with hk
    · cases hget
      exact ⟨b, Or.inl rfl, hk.symm, hv⟩
    · obtain ⟨c, hc, hkey, hw⟩ := h.1 k w hget
      exact ⟨c, Or.inr hc, hkey, hw⟩
  · rw [get?_insert]
    split_ifs with hk
    · exact ⟨v, rfl⟩
    · rcases hc with rfl | hc
      · exact absurd rfl hk
      · exact h.2 c hc

/-- The entry of an item, when items with the same key have the same entries. -/
theorem Tracks.get (h : Tracks key m s R)
    (hsame : ∀ b ∈ s, ∀ c ∈ s, key b = key c → ∀ v, R b v → R c v) {b : β} (hb : b ∈ s) :
    ∃ v, m.get? (key b) = some v ∧ R b v := by
  obtain ⟨v, hget⟩ := h.2 b hb
  obtain ⟨c, hc, hkey, hv⟩ := h.1 _ v hget
  exact ⟨v, hget, hsame c hc b hb hkey v hv⟩

theorem Tracks.transfer (h : Tracks key m s R)
    (hst : ∀ b ∈ s, ∃ c ∈ t, key c = key b ∧ ∀ v, R b v → R' c v)
    (hts : ∀ c ∈ t, ∃ b ∈ s, key b = key c) : Tracks key m t R' := by
  refine ⟨fun k v hget => ?_, fun c hc => ?_⟩
  · obtain ⟨b, hb, rfl, hv⟩ := h.1 k v hget
    obtain ⟨c, hc, hkey, hR⟩ := hst b hb
    exact ⟨c, hc, hkey, hR v hv⟩
  · obtain ⟨b, hb, hkey⟩ := hts c hc
    rw [← hkey]
    exact h.2 b hb

end SortedMap
