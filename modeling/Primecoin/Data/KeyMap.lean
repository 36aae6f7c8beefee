import Mathlib.Tactic

/-!
# Maps as functions

A finite map is a function into `Option`. `insertAll` writes a list of entries and `eraseAll`
drops a list of keys. When the keys of the entries are distinct and new, their order does not
matter and the result has exactly the old and the listed entries.
-/

namespace KeyMap

variable {κ ν : Type} [DecidableEq κ] {entries : List (κ × ν)} {k : κ} {v : ν} (m : κ → Option ν)

def insertAll (entries : List (κ × ν)) : κ → Option ν :=
  entries.foldl (fun m entry => Function.update m entry.1 (some entry.2)) m

def eraseAll (keys : List κ) : κ → Option ν :=
  keys.foldl (fun m key => Function.update m key none) m

theorem insertAll_of_notMem (hk : k ∉ entries.map Prod.fst) : insertAll m entries k = m k := by
  induction entries generalizing m with
  | nil => rfl
  | cons entry entries ih =>
    rw [List.map_cons, List.mem_cons, not_or] at hk
    calc insertAll m (entry :: entries) k
        = insertAll (Function.update m entry.1 (some entry.2)) entries k := rfl
      _ = Function.update m entry.1 (some entry.2) k := ih _ hk.2
      _ = m k := Function.update_of_ne hk.1 _ _

theorem insertAll_of_mem (hnodup : (entries.map Prod.fst).Nodup) (hmem : (k, v) ∈ entries) :
    insertAll m entries k = some v := by
  induction entries generalizing m with
  | nil => cases hmem
  | cons entry entries ih =>
    rw [List.map_cons, List.nodup_cons] at hnodup
    rcases List.mem_cons.mp hmem with rfl | hmem
    · calc insertAll m ((k, v) :: entries) k
          = insertAll (Function.update m k (some v)) entries k := rfl
        _ = Function.update m k (some v) k := insertAll_of_notMem _ hnodup.1
        _ = some v := Function.update_self ..
    · exact ih _ hnodup.2 hmem

theorem insertAll_eq_some_iff {m : κ → Option ν}
    (hnodup : (entries.map Prod.fst).Nodup) (hnew : ∀ entry ∈ entries, m entry.1 = none)
    : insertAll m entries k = some v ↔ (k, v) ∈ entries ∨ m k = some v := by
  refine ⟨fun h => ?_, ?_⟩
  · by_cases hk : k ∈ entries.map Prod.fst
    · obtain ⟨⟨k, w⟩, hmem, rfl⟩ := List.mem_map.mp hk
      rw [insertAll_of_mem m hnodup hmem] at h
      cases h
      exact Or.inl hmem
    · exact Or.inr (insertAll_of_notMem m hk ▸ h)
  · rintro (hmem | hold)
    · exact insertAll_of_mem m hnodup hmem
    · have hk : k ∉ entries.map Prod.fst := by
        intro hk
        obtain ⟨entry, hmem, rfl⟩ := List.mem_map.mp hk
        rw [hnew entry hmem] at hold
        cases hold
      rw [insertAll_of_notMem m hk, hold]

theorem eraseAll_apply (keys : List κ) (k : κ) :
    eraseAll m keys k = if k ∈ keys then none else m k := by
  induction keys generalizing m with
  | nil => rfl
  | cons key keys ih =>
    have hstep : eraseAll m (key :: keys) k = eraseAll (Function.update m key none) keys k := rfl
    rw [hstep, ih]
    by_cases hk : k = key
    · simp [hk]
    · simp [hk]

theorem eraseAll_eq_some_iff {m : κ → Option ν} {keys : List κ} :
    eraseAll m keys k = some v ↔ k ∉ keys ∧ m k = some v := by
  rw [eraseAll_apply]
  split_ifs with hk <;> simp [hk]

end KeyMap
