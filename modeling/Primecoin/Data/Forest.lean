import Mathlib.Tactic

/-!
# Forests given by parent links

A memory of entries, each with a link to at most one parent; `path` follows the links upwards for
a bounded number of steps.

`Ascends` is the whole way up to a root. Where a rank falls by one with every link, each entry has
exactly one such way, its length is given by the rank, and no key is met twice.
-/

namespace Forest

open List Option

variable {κ α : Type*} (up : α → Option κ)

def path (memory : κ → Option α) : ℕ → Option κ → List α
  | 0, _ => []
  | _ + 1, none => []
  | n + 1, some p =>
    match memory p with
    | none => []
    | some a => a :: path memory n (up a)

def Closed (memory : κ → Option α) : Prop :=
  ∀ p a, memory p = some a → ∀ q, up a = some q → ∃ b, memory q = some b

variable {up} {memory : κ → Option α}

@[simp] theorem path_none (n : ℕ) : path up memory n none = [] := by
  cases n <;> rfl

theorem path_succ_of_eq_some {n : ℕ} {p : κ} {a : α} (h : memory p = some a) :
    path up memory (n + 1) (some p) = a :: path up memory n (up a) := by
  simp [path, h]

theorem eq_some_of_path_eq_cons {n : ℕ} {p : κ} {a : α} {l : List α}
    (h : path up memory n (some p) = a :: l) : memory p = some a := by
  cases n with
  | zero => simp [path] at h
  | succ n =>
    cases hp : memory p with
    | none => simp [path, hp] at h
    | some b =>
      rw [path_succ_of_eq_some hp, List.cons.injEq] at h
      rw [h.1]

section Ascends

variable (up memory)

/-- The keys met from a link up to a root, the one it leads to first. -/
inductive Ascends : Option κ → List κ → Prop
  | root : Ascends none []
  | step {k : κ} {a : α} {l : List κ} : memory k = some a → Ascends (up a) l →
      Ascends (some k) (k :: l)

structure Ranked (rank : α → ℕ) : Prop where
  root : ∀ k a, memory k = some a → up a = none → rank a = 0
  step : ∀ k a, memory k = some a → ∀ q, up a = some q →
    ∃ b, memory q = some b ∧ rank a = rank b + 1

variable {up memory} {link : Option κ} {k q : κ} {a b : α} {l l' : List κ} {rank : α → ℕ}

theorem Ascends.head?_eq (h : Ascends up memory link l) : l.head? = link := by
  cases h with
  | root => rfl
  | step _ _ => rfl

theorem Ascends.unique (h : Ascends up memory link l) (h' : Ascends up memory link l') :
    l = l' := by
  induction h generalizing l' with
  | root =>
    cases h'
    rfl
  | step hk _ ih =>
    cases h' with
    | step hk' hl' =>
      rw [hk, some.injEq] at hk'
      subst hk'
      rw [ih hl']

theorem Ascends.of_append (h : Ascends up memory link (l ++ l')) :
    Ascends up memory l'.head? l' := by
  induction l generalizing link with
  | nil => exact h.head?_eq.symm ▸ h
  | cons k l ih =>
    cases h with
    | step _ hl => exact ih hl

theorem Ascends.of_mem (h : Ascends up memory link l) (hk : k ∈ l) :
    ∃ l', l' <:+ l ∧ Ascends up memory (some k) l' := by
  obtain ⟨s, t, rfl⟩ := append_of_mem hk
  exact ⟨k :: t, suffix_append s (k :: t), h.of_append⟩

theorem Ascends.exists_of_mem (h : Ascends up memory link l) (hk : k ∈ l) :
    ∃ a, memory k = some a := by
  obtain ⟨_, -, hup⟩ := h.of_mem hk
  cases hup with
  | step ha _ => exact ⟨_, ha⟩

theorem Ascends.exists_root (h : Ascends up memory (some k) l) :
    ∃ q ∈ l, ∃ a, memory q = some a ∧ up a = none := by
  induction hl : l generalizing k l with
  | nil =>
    rw [hl] at h
    cases h
  | cons q t ih =>
    rw [hl] at h
    cases h with
    | @step _ a _ ha ht =>
      cases hup : up a with
      | none => exact ⟨q, mem_cons_self .., a, ha, hup⟩
      | some r =>
        rw [hup] at ht
        obtain ⟨r', hr', hroot⟩ := ih ht rfl
        exact ⟨r', mem_cons_of_mem q hr', hroot⟩

theorem Ascends.up_eq (h : Ascends up memory link (l ++ k :: l')) (hk : memory k = some a) :
    up a = l'.head? := by
  have hup := h.of_append
  rw [head?_cons] at hup
  cases hup with
  | step ha hl =>
    rw [hk, some.injEq] at ha
    rw [ha, hl.head?_eq]

theorem Ascends.up_mem (h : Ascends up memory link l) (hk : k ∈ l) (ha : memory k = some a)
    (hq : up a = some q) : q ∈ l := by
  obtain ⟨s, t, rfl⟩ := append_of_mem hk
  rw [h.up_eq ha] at hq
  exact mem_append_right s (mem_cons_of_mem k (mem_of_head? hq))

theorem Ascends.congr {memory' : κ → Option α}
    (hup : ∀ k, (memory' k).map up = (memory k).map up) (h : Ascends up memory link l) :
    Ascends up memory' link l := by
  induction h with
  | root => exact Ascends.root
  | @step k a l hk _ ih =>
    have hk' := hup k
    rw [hk, map_some, map_eq_some_iff] at hk'
    obtain ⟨b, hb, hba⟩ := hk'
    exact Ascends.step hb (hba ▸ ih)

section

variable (hrank : Ranked up memory rank)
include hrank

theorem Ranked.exists_ascends (hk : memory k = some a) : ∃ l, Ascends up memory (some k) l := by
  induction hn : rank a generalizing k a with
  | zero =>
    cases hup : up a with
    | none => exact ⟨[k], Ascends.step hk (hup ▸ Ascends.root)⟩
    | some q =>
      obtain ⟨b, -, hb⟩ := hrank.step k a hk q hup
      rw [hn] at hb
      cases hb
  | succ n ih =>
    cases hup : up a with
    | none =>
      rw [hrank.root k a hk hup] at hn
      cases hn
    | some q =>
      obtain ⟨b, hq, hb⟩ := hrank.step k a hk q hup
      obtain ⟨l, hl⟩ := ih hq (by omega)
      exact ⟨k :: l, Ascends.step hk (hup ▸ hl)⟩

theorem Ascends.length_eq (hk : memory k = some a)
    (h : Ascends up memory (some k) l) : l.length = rank a + 1 := by
  induction hn : l.length generalizing k a l with
  | zero =>
    rw [length_eq_zero_iff.mp hn] at h
    cases h
  | succ n ih =>
    cases h with
    | @step _ a' l ha hl =>
      rw [hk, some.injEq] at ha
      subst ha
      rw [length_cons, Nat.succ_inj] at hn
      cases hup : up a with
      | none =>
        rw [hup] at hl
        cases hl
        rw [hrank.root k a hk hup]
        exact congrArg Nat.succ hn.symm
      | some q =>
        obtain ⟨b, hq, hb⟩ := hrank.step k a hk q hup
        rw [hup] at hl
        rw [ih hq hl hn, hb]

theorem Ascends.rank_le (hk : memory k = some a)
    (h : Ascends up memory (some k) l) (hq : q ∈ l) (hb : memory q = some b) : rank b ≤ rank a := by
  obtain ⟨l', hsuffix, hl'⟩ := h.of_mem hq
  have hlength := hsuffix.length_le
  rw [h.length_eq hrank hk, hl'.length_eq hrank hb] at hlength
  omega

theorem Ascends.eq_of_rank_le (hk : memory k = some a)
    (h : Ascends up memory (some k) l) (hq : q ∈ l) (hb : memory q = some b)
    (hle : rank a ≤ rank b) : q = k := by
  obtain ⟨l', hsuffix, hl'⟩ := h.of_mem hq
  have hlength : l'.length = l.length := by
    rw [h.length_eq hrank hk, hl'.length_eq hrank hb]
    have := h.rank_le hrank hk hq hb
    omega
  have heq := hl'.head?_eq
  rw [hsuffix.eq_of_length hlength, h.head?_eq, some.injEq] at heq
  exact heq.symm

end

theorem Ascends.nodup (h : Ascends up memory link l) : l.Nodup := by
  induction h with
  | root => exact nodup_nil
  | @step k a l hk hl ih =>
    refine nodup_cons.mpr ⟨fun hmem => ?_, ih⟩
    obtain ⟨l', hsuffix, hl'⟩ := hl.of_mem hmem
    have hlength := hsuffix.length_le
    rw [hl'.unique (Ascends.step hk hl), length_cons] at hlength
    omega

theorem Ascends.eq_of_up_eq {k' : κ} {a' : α} (h : Ascends up memory link l) (hk : k ∈ l)
    (hk' : k' ∈ l) (ha : memory k = some a) (ha' : memory k' = some a') (hup : up a = up a') :
    k = k' := by
  obtain ⟨s, hs, hks⟩ := h.of_mem hk
  obtain ⟨s', hs', hks'⟩ := h.of_mem hk'
  cases hks with
  | @step _ b t hb ht =>
    cases hks' with
    | @step _ b' t' hb' ht' =>
      rw [ha, some.injEq] at hb
      rw [ha', some.injEq] at hb'
      subst hb hb'
      have htail : t = t' := ht.unique (hup ▸ ht')
      have heq : k :: t = k' :: t' :=
        (suffix_of_suffix_length_le hs hs' (by simp [htail])).eq_of_length (by simp [htail])
      exact (List.cons.inj heq).1

theorem Ascends.up_ne (h : Ascends up memory (some k) l) (hq : q ∈ l) (hb : memory q = some b) :
    up b ≠ some k := by
  intro hup
  obtain ⟨s, hs, hqs⟩ := h.of_mem hq
  cases hqs with
  | @step _ b' t hb' ht =>
    rw [hb, some.injEq] at hb'
    subst hb'
    rw [hup] at ht
    have hlength := hs.length_le
    rw [ht.unique h, length_cons] at hlength
    omega

end Ascends

variable [DecidableEq κ]

theorem closed_update (hclosed : Closed up memory) {q : κ} {b : α}
    (hb : ∀ r, up b = some r → ∃ c, memory r = some c) :
    Closed up (Function.update memory q (some b)) := by
  have hdom : ∀ r c, memory r = some c → ∃ d, Function.update memory q (some b) r = some d := by
    intro r c hc
    by_cases hr : r = q
    · exact ⟨b, by rw [hr, Function.update_self]⟩
    · exact ⟨c, by rw [Function.update_of_ne hr, hc]⟩
  intro p a ha r hr
  by_cases hp : p = q
  · rw [hp, Function.update_self, some.injEq] at ha
    obtain ⟨c, hc⟩ := hb r (ha ▸ hr)
    exact hdom r c hc
  · rw [Function.update_of_ne hp] at ha
    obtain ⟨c, hc⟩ := hclosed p a ha r hr
    exact hdom r c hc

end Forest
