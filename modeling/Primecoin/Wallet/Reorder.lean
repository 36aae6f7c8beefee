import Mathlib.Data.List.TakeWhile
import Primecoin.Serialize.Integer

/-!
# Order positions

`ReorderTransactions` goes by time through the transactions and accounting entries. One without an
order position gets the next one, and one that has a position is moved up by the number of
positions given out so far that are not above it.

The positions given out are those after the moves, but they are compared with the positions before
the moves, so an item may be moved onto one that has been given out. And only the entries of the
account without a name are listed.
-/

namespace Primecoin

open Codec List Function

inductive DBErrors
  | loadOk
  | loadFail
  deriving DecidableEq, Repr

/-- A transaction, or an accounting entry by its account and number. -/
inductive OrderedId
  | tx (hash : UInt256)
  | acentry (strAccount : Bytes) (nEntryNo : UInt64)
  deriving DecidableEq, Repr

/-- The record `("acentry", strAccount, nEntryNo)`; the first part of the key, which all have, is
left out. -/
def acentryKey (strAccount : Bytes) (nEntryNo : UInt64) : Bytes :=
  writeCompactSize strAccount.length ++ strAccount ++ leBytes 8 nEntryNo.toNat

structure AccountingRecord where
  strAccount : Bytes
  nEntryNo : UInt64
  nTime : Int64
  deriving DecidableEq, Repr

variable (r : AccountingRecord)

def AccountingRecord.key : Bytes := acentryKey r.strAccount r.nEntryNo

def AccountingRecord.id : OrderedId := .acentry r.strAccount r.nEntryNo

theorem writeCompactSize_of_ne_zero {n : ℕ} (hn : n ≠ 0) :
    ∃ b l, writeCompactSize n = b :: l ∧ 0 < b := by
  rw [writeCompactSize]
  split_ifs with hsmall
  · refine ⟨_, _, rfl, ?_⟩
    rw [UInt8.lt_iff_toNat_lt, UInt8.toNat_ofNat', Nat.mod_eq_of_lt (by omega)]
    exact Nat.pos_of_ne_zero hn
  · exact ⟨253, _, rfl, by decide⟩
  · exact ⟨254, _, rfl, by decide⟩
  · exact ⟨255, _, rfl, by decide⟩

/-- A key of a named account begins with the number of its bytes. -/
theorem AccountingRecord.key_of_ne_nil {r : AccountingRecord} (h : r.strAccount ≠ []) :
    ∃ b l, r.key = b :: l ∧ 0 < b := by
  obtain ⟨b, l, heq, hb⟩ := writeCompactSize_of_ne_zero (mt length_eq_zero_iff.mp h)
  refine ⟨b, l ++ r.strAccount ++ leBytes 8 r.nEntryNo.toNat, ?_, hb⟩
  rw [AccountingRecord.key, acentryKey, heq]
  rfl

theorem AccountingRecord.key_of_eq_nil {r : AccountingRecord} (h : r.strAccount = []) :
    r.key = 0 :: leBytes 8 r.nEntryNo.toNat := by
  rw [AccountingRecord.key, acentryKey, h]
  rfl

theorem not_leBytes_lt_zero (w n : ℕ) : ¬leBytes w n < leBytes w 0 := by
  induction w generalizing n with
  | zero => exact fun h => (by cases h)
  | succ w ih =>
    rw [leBytes, leBytes, cons_lt_cons_iff]
    rintro (h | ⟨-, h⟩)
    · rw [UInt8.lt_iff_toNat_lt] at h
      exact absurd h (Nat.not_lt_zero _)
    · exact ih _ h

theorem not_key_lt_start : ¬r.key < acentryKey [] 0 := by
  have hstart : acentryKey [] 0 = 0 :: leBytes 8 0 := rfl
  rw [hstart]
  by_cases h : r.strAccount = []
  · rw [AccountingRecord.key_of_eq_nil h, cons_lt_cons_iff]
    rintro (hlt | ⟨-, hlt⟩)
    · exact absurd hlt (by decide)
    · exact not_leBytes_lt_zero 8 _ hlt
  · obtain ⟨b, l, heq, hb⟩ := AccountingRecord.key_of_ne_nil h
    rw [heq, cons_lt_cons_iff]
    rintro (hlt | ⟨rfl, -⟩)
    · exact absurd hlt (by rw [UInt8.not_lt]; exact UInt8.zero_le)
    · exact absurd hb (by decide)

/-- The transactions of `mapWallet`, with `nTimeReceived` and in the order of their hashes, and
the accounting entries in the order of the database. A missing position is -1. -/
structure OrderedWallet where
  mapWallet : List (UInt256 × UInt32)
  acentries : List AccountingRecord
  nOrderPos : OrderedId → Int64
  nOrderPosNext : Int64
  mapWallet_sorted : mapWallet.Pairwise fun a b => a.1.toNat < b.1.toNat
  acentries_sorted : acentries.Pairwise fun a b => a.key < b.key

namespace OrderedWallet

def allAccounts : Bytes := [0x2a]

/-- The cursor starts at the first key that is not before the one of the account. -/
def listAccountCreditDebit (strAccount : Bytes) (records : List AccountingRecord) :
    List AccountingRecord :=
  let fAllAccounts := strAccount == allAccounts
  let start := acentryKey (if fAllAccounts then [] else strAccount) 0
  (records.dropWhile fun r => r.key < start).takeWhile fun r =>
    fAllAccounts || r.strAccount == strAccount

/-- An insertion into a multimap, behind the items of the same time. -/
def insertByTime (item : ℤ × OrderedId) : List (ℤ × OrderedId) → List (ℤ × OrderedId)
  | [] => [item]
  | other :: items =>
    if item.1 < other.1 then item :: other :: items else other :: insertByTime item items

variable (w : OrderedWallet)

def txItems : List (ℤ × OrderedId) :=
  w.mapWallet.map fun tx => ((tx.2.toNat : ℤ), .tx tx.1)

def acentryItems (records : List AccountingRecord) : List (ℤ × OrderedId) :=
  records.map fun r => (r.nTime.toInt, r.id)

def txByTime : List OrderedId :=
  ((w.txItems ++ acentryItems (listAccountCreditDebit [] w.acentries)).foldl
    (fun items item => insertByTime item items) []).map Prod.snd

def setOrderPos (id : OrderedId) (nOrderPos : Int64) : OrderedWallet :=
  { w with nOrderPos := update w.nOrderPos id nOrderPos }

variable (write : OrderedId → Bool)

/-- The position of a transaction is changed in memory whether or not it can be written; that of
an accounting entry is in the database only. -/
def writeOrderPos (w : OrderedWallet) (id : OrderedId) (nOrderPos : Int64) : Bool × OrderedWallet :=
  match id with
  | .tx _ => (write id, w.setOrderPos id nOrderPos)
  | .acentry .. => if write id then (true, w.setOrderPos id nOrderPos) else (false, w)

/-- Whether the loop goes on, the wallet and the positions given out. A transaction that gets a
position is not written. -/
def reorderItem (nOrderPosOffsets : List Int64) (w : OrderedWallet)
    (id : OrderedId) : Bool × OrderedWallet × List Int64 :=
  if w.nOrderPos id = -1 then
    let nOrderPos := w.nOrderPosNext
    let w := { w with nOrderPosNext := w.nOrderPosNext + 1 }
    let fWritten := match id with
      | .tx _ => (true, w.setOrderPos id nOrderPos)
      | .acentry .. => w.writeOrderPos write id nOrderPos
    (fWritten.1, fWritten.2, nOrderPosOffsets ++ [nOrderPos])
  else
    let nOrderPosOff := nOrderPosOffsets.countP fun nOffsetStart => nOffsetStart ≤ w.nOrderPos id
    let nOrderPos := w.nOrderPos id + Int64.ofNat nOrderPosOff
    let w := { w with nOrderPosNext := max w.nOrderPosNext (nOrderPos + 1) }
    if nOrderPosOff = 0 then (true, w, nOrderPosOffsets)
    else
      let fWritten := w.writeOrderPos write id nOrderPos
      (fWritten.1, fWritten.2, nOrderPosOffsets)

def reorderLoop (write : OrderedId → Bool) :
    List OrderedId → List Int64 → OrderedWallet → DBErrors × OrderedWallet
  | [], _, w => (.loadOk, w)
  | id :: ids, nOrderPosOffsets, w =>
    match reorderItem write nOrderPosOffsets w id with
    | (false, w, _) => (.loadFail, w)
    | (true, w, nOrderPosOffsets) => reorderLoop write ids nOrderPosOffsets w

/-- `write` says whether the record of an item can be written. -/
def reorderTransactions (w : OrderedWallet) : DBErrors × OrderedWallet :=
  reorderLoop write w.txByTime [] { w with nOrderPosNext := 0 }

/-! ### The items that are listed -/

def ids : List OrderedId :=
  w.mapWallet.map (fun tx => .tx tx.1) ++ w.acentries.map AccountingRecord.id

/-- Transactions, and entries of the account without a name. -/
def Listed : OrderedId → Prop
  | .tx _ => True
  | .acentry strAccount _ => strAccount = []

theorem insertByTime_perm (item : ℤ × OrderedId) (items : List (ℤ × OrderedId)) :
    (insertByTime item items).Perm (item :: items) := by
  induction items with
  | nil => exact Perm.refl _
  | cons other items ih =>
    rw [insertByTime]
    split_ifs
    · exact Perm.refl _
    · exact (ih.cons other).trans (Perm.swap item other items)

theorem foldl_insertByTime_perm (items done : List (ℤ × OrderedId)) :
    (items.foldl (fun items item => insertByTime item items) done).Perm (items ++ done) := by
  induction items generalizing done with
  | nil => exact Perm.refl _
  | cons item items ih =>
    refine (ih _).trans ?_
    refine ((insertByTime_perm item done).append_left items).trans ?_
    exact perm_middle

variable {records : List AccountingRecord}

section

variable (hsorted : records.Pairwise fun a b => a.key < b.key)
include hsorted

/-- The entries of the account without a name are the first ones of the database. -/
theorem mem_takeWhile_nil {r : AccountingRecord} :
    r ∈ records.takeWhile (fun r => r.strAccount == []) ↔ r ∈ records ∧ r.strAccount = [] := by
  induction records with
  | nil => simp
  | cons first records ih =>
    have hrest := ih hsorted.of_cons
    by_cases hfirst : first.strAccount = []
    · rw [takeWhile_cons_of_pos (by simpa using hfirst), mem_cons, mem_cons, hrest]
      constructor
      · rintro (rfl | ⟨hmem, hr⟩)
        · exact ⟨Or.inl rfl, hfirst⟩
        · exact ⟨Or.inr hmem, hr⟩
      · rintro ⟨rfl | hmem, hr⟩
        · exact Or.inl rfl
        · exact Or.inr ⟨hmem, hr⟩
    · rw [takeWhile_cons_of_neg (by simpa using hfirst)]
      refine ⟨fun h => (by cases h), fun ⟨hmem, hr⟩ => ?_⟩
      -- behind a named account there is no entry of the one without a name
      rcases mem_cons.mp hmem with rfl | hmem
      · exact absurd hr hfirst
      · obtain ⟨b, l, hkey, hb⟩ := AccountingRecord.key_of_ne_nil hfirst
        have hlt := rel_of_pairwise_cons hsorted hmem
        rw [hkey, AccountingRecord.key_of_eq_nil hr, cons_lt_cons_iff] at hlt
        rcases hlt with hlt | ⟨rfl, -⟩
        · exact absurd (UInt8.lt_trans hb hlt) (by decide)
        · exact absurd hb (by decide)

theorem mem_listAccountCreditDebit_nil {r : AccountingRecord} :
    r ∈ listAccountCreditDebit [] records ↔ r ∈ records ∧ r.strAccount = [] := by
  have hdrop : records.dropWhile (fun r => decide (r.key < acentryKey [] 0)) = records := by
    cases records with
    | nil => rfl
    | cons first records =>
      rw [dropWhile_cons_of_neg]
      simpa using not_key_lt_start first
  have hall : (([] : Bytes) == allAccounts) = false := rfl
  simp only [listAccountCreditDebit, hall, Bool.false_or, Bool.false_eq_true, if_false, hdrop]
  exact mem_takeWhile_nil hsorted

theorem nodup_map_id : (records.map AccountingRecord.id).Nodup := by
  refine pairwise_map.mpr (hsorted.imp fun {a b} hlt heq => ?_)
  obtain ⟨haccount, hnumber⟩ := OrderedId.acentry.inj heq
  rw [AccountingRecord.key, AccountingRecord.key, haccount, hnumber] at hlt
  exact List.lt_irrefl _ hlt

end

theorem txByTime_perm : w.txByTime.Perm (w.mapWallet.map (fun tx => .tx tx.1) ++
      (listAccountCreditDebit [] w.acentries).map AccountingRecord.id) := by
  have hperm := (foldl_insertByTime_perm
    (w.txItems ++ acentryItems (listAccountCreditDebit [] w.acentries)) []).map Prod.snd
  rw [append_nil, map_append] at hperm
  rw [txByTime]
  simpa [txItems, acentryItems, comp_def] using hperm

theorem mem_txByTime {w : OrderedWallet} {id : OrderedId} :
    id ∈ w.txByTime ↔ id ∈ w.ids ∧ Listed id := by
  rw [w.txByTime_perm.mem_iff, ids, mem_append, mem_append, mem_map, mem_map, mem_map]
  constructor
  · rintro (⟨tx, htx, rfl⟩ | ⟨r, hr, rfl⟩)
    · exact ⟨Or.inl ⟨tx, htx, rfl⟩, trivial⟩
    · obtain ⟨hmem, hnil⟩ := (mem_listAccountCreditDebit_nil w.acentries_sorted).mp hr
      exact ⟨Or.inr ⟨r, hmem, rfl⟩, hnil⟩
  · rintro ⟨⟨tx, htx, rfl⟩ | ⟨r, hr, rfl⟩, hlisted⟩
    · exact Or.inl ⟨tx, htx, rfl⟩
    · exact Or.inr ⟨r, (mem_listAccountCreditDebit_nil w.acentries_sorted).mpr ⟨hr, hlisted⟩, rfl⟩

theorem nodup_txByTime : w.txByTime.Nodup := by
  have hsublist : (listAccountCreditDebit [] w.acentries).Sublist w.acentries :=
    (takeWhile_sublist _).trans (dropWhile_sublist _)
  rw [w.txByTime_perm.nodup_iff, nodup_append]
  refine ⟨?_, nodup_map_id (w.acentries_sorted.sublist hsublist), ?_⟩
  · refine pairwise_map.mpr (w.mapWallet_sorted.imp fun {a b} hlt heq => ?_)
    rw [OrderedId.tx.inj heq] at hlt
    exact absurd hlt (lt_irrefl _)
  · intro a ha b hb heq
    obtain ⟨tx, -, rfl⟩ := mem_map.mp ha
    obtain ⟨r, -, rfl⟩ := mem_map.mp hb
    cases heq

/-! ### Placing the items -/

variable {pos now : OrderedId → ℤ} {next : ℤ} {done : List OrderedId} {offsets : List ℤ}
  {w w' : OrderedWallet} {id : OrderedId} {write : OrderedId → Bool}

/-- The items `done` have been placed, starting from `pos`, and are at `now`. Those without a
position have the positions given out, in order, and the others are moved up by the number of these
not above them. -/
structure Placed (pos : OrderedId → ℤ) (done : List OrderedId) (offsets : List ℤ)
    (now : OrderedId → ℤ) (next : ℤ) : Prop where
  given : offsets = (done.filter fun id => pos id = -1).map now
  sorted : offsets.Pairwise (· < ·)
  nonneg : ∀ o ∈ offsets, 0 ≤ o
  next_nonneg : 0 ≤ next
  lt_next : ∀ id ∈ done, now id < next
  moved : ∀ id ∈ done, pos id ≠ -1 → now id = pos id + offsets.countP (· ≤ pos id)
  untouched : ∀ id ∉ done, now id = pos id
  next_le : ∀ b : ℤ, -1 ≤ b → (∀ id ∈ done, pos id ≤ b) → next ≤ b + 1 + offsets.length
  above : ∀ before, before <+: done → (∀ id ∈ before, pos id ≠ -1) →
    ∀ id ∈ before, ∀ o ∈ offsets, pos id < o

theorem placed_nil (pos : OrderedId → ℤ) : Placed pos [] [] pos 0 where
  given := rfl
  sorted := .nil
  nonneg := fun o ho => (by cases ho)
  next_nonneg := le_rfl
  lt_next := fun id hid => (by cases hid)
  moved := fun id hid => (by cases hid)
  untouched := fun id _ => rfl
  next_le := fun b hb _ => (by
    rw [length_nil, Nat.cast_zero, add_zero]
    omega)
  above := fun _ _ _ _ _ o ho => (by cases ho)

theorem Placed.offset_lt_next (h : Placed pos done offsets now next) {o : ℤ} (ho : o ∈ offsets) :
    o < next := by
  rw [h.given] at ho
  obtain ⟨id, hid, rfl⟩ := mem_map.mp ho
  exact h.lt_next id (mem_filter.mp hid).1

theorem Placed.le_next (h : Placed pos done offsets now next) (hid : id ∈ done) :
    pos id < next := by
  by_cases hnone : pos id = -1
  · rw [hnone]
    exact (by decide : (-1 : ℤ) < 0).trans_le h.next_nonneg
  · have hlt := h.lt_next id hid
    rw [h.moved id hid hnone] at hlt
    omega

theorem update_of_mem {x : ℤ} (hid : id ∉ done) (a : OrderedId) (ha : a ∈ done) :
    update now id x a = now a := by
  rw [update_of_ne]
  rintro rfl
  exact hid ha

theorem Placed.append_none (h : Placed pos done offsets now next) (hid : id ∉ done)
    (hnone : pos id = -1) :
    Placed pos (done ++ [id]) (offsets ++ [next]) (update now id next) (next + 1) := by
  have hdone : ∀ a ∈ done, update now id next a = now a := update_of_mem hid
  have hmem : ∀ a, a ∈ done ++ [id] ↔ a ∈ done ∨ a = id := by
    intro a
    rw [mem_append, mem_singleton]
  have hnext0 := h.next_nonneg
  refine ⟨?_, ?_, ?_, by omega, ?_, ?_, ?_, ?_, ?_⟩
  · rw [filter_append, map_append, filter_singleton, decide_eq_true hnone, cond_true,
      map_singleton, update_self, h.given]
    congr 1
    refine map_congr_left fun a ha => (hdone a (mem_filter.mp ha).1).symm
  · rw [pairwise_append]
    refine ⟨h.sorted, pairwise_singleton _ _, fun o ho b hb => ?_⟩
    rw [mem_singleton.mp hb]
    exact h.offset_lt_next ho
  · intro o ho
    rcases mem_append.mp ho with ho | ho
    · exact h.nonneg o ho
    · rw [mem_singleton.mp ho]
      exact hnext0
  · intro a ha
    rcases (hmem a).mp ha with ha | rfl
    · rw [hdone a ha]
      exact (h.lt_next a ha).trans (lt_add_one _)
    · rw [update_self]
      exact lt_add_one _
  · intro a ha hsome
    rcases (hmem a).mp ha with ha | rfl
    · have hlt := h.le_next ha
      rw [hdone a ha, h.moved a ha hsome, countP_append, countP_singleton,
        if_neg (by simpa using hlt), add_zero]
    · exact absurd hnone hsome
  · intro a ha
    rw [hmem, not_or] at ha
    rw [update_of_ne ha.2, h.untouched a ha.1]
  · intro b hb hle
    have hold := h.next_le b hb fun a ha => hle a ((hmem a).mpr (Or.inl ha))
    rw [length_append, length_singleton]
    omega
  · intro before hbefore hsome a ha o ho
    rcases prefix_concat_iff.mp hbefore with rfl | hbefore
    · exact absurd hnone (hsome id (mem_append_right _ (mem_singleton_self id)))
    · rcases mem_append.mp ho with ho | ho
      · exact h.above before hbefore hsome a ha o ho
      · rw [mem_singleton.mp ho]
        exact h.le_next (hbefore.subset ha)

theorem Placed.append_some (h : Placed pos done offsets now next) (hid : id ∉ done)
    (hsome : pos id ≠ -1) :
    Placed pos (done ++ [id]) offsets (update now id (pos id + offsets.countP (· ≤ pos id)))
      (max next (pos id + offsets.countP (· ≤ pos id) + 1)) := by
  set moved := pos id + offsets.countP (· ≤ pos id) with hmoved
  have hdone : ∀ a ∈ done, update now id moved a = now a := update_of_mem hid
  have hmem : ∀ a, a ∈ done ++ [id] ↔ a ∈ done ∨ a = id := by
    intro a
    rw [mem_append, mem_singleton]
  have hfilter : (done ++ [id]).filter (fun a => pos a = -1) = done.filter fun a => pos a = -1 := by
    rw [filter_append, filter_singleton, decide_eq_false hsome, cond_false, append_nil]
  refine ⟨?_, h.sorted, h.nonneg, h.next_nonneg.trans (le_max_left _ _), ?_, ?_, ?_, ?_, ?_⟩
  · rw [hfilter, h.given]
    exact map_congr_left fun a ha => (hdone a (mem_filter.mp ha).1).symm
  · intro a ha
    rcases (hmem a).mp ha with ha | rfl
    · rw [hdone a ha]
      exact (h.lt_next a ha).trans_le (le_max_left _ _)
    · rw [update_self]
      exact (lt_add_one _).trans_le (le_max_right _ _)
  · intro a ha hasome
    rcases (hmem a).mp ha with ha | rfl
    · rw [hdone a ha, h.moved a ha hasome]
    · exact update_self ..
  · intro a ha
    rw [hmem, not_or] at ha
    rw [update_of_ne ha.2, h.untouched a ha.1]
  · intro b hb hle
    have hold := h.next_le b hb fun a ha => hle a ((hmem a).mpr (Or.inl ha))
    have hnew := hle id ((hmem id).mpr (Or.inr rfl))
    have hcount : offsets.countP (· ≤ pos id) ≤ offsets.length := countP_le_length
    rw [max_le_iff]
    refine ⟨hold, ?_⟩
    omega
  · intro before hbefore hall a ha o ho
    rcases prefix_concat_iff.mp hbefore with rfl | hbefore
    · rw [h.given, filter_eq_nil_iff.mpr] at ho
      · cases ho
      · intro c hc
        simpa using hall c (mem_append_left _ hc)
    · exact h.above before hbefore hall a ha o ho

/-- No item has been moved onto a position that was given out. -/
def Clear (pos : OrderedId → ℤ) (done : List OrderedId) (offsets : List ℤ)
    (now : OrderedId → ℤ) : Prop :=
  ∀ id ∈ done, pos id ≠ -1 → now id ∉ offsets

/-- An item can be moved past those before it: at most one of them has no position, or it is below
one that stands before all of those, or far enough above all that have a position. -/
def Placeable (pos : OrderedId → ℤ) (before : List OrderedId) (id : OrderedId) : Prop :=
  before.countP (fun a => pos a = -1) ≤ 1 ∨
  (∃ a ∈ before.takeWhile fun a => pos a ≠ -1, pos id < pos a) ∨
  (before.countP (fun a => pos a = -1) ≤ pos id + 1 ∧
    ∀ a ∈ before, pos a ≠ -1 → pos a + before.countP (fun a => pos a = -1) ≤ pos id)

theorem Placed.length_offsets (h : Placed pos done offsets now next) :
    offsets.length = done.countP fun a => pos a = -1 := by
  rw [h.given, length_map, countP_eq_length_filter]

theorem Placed.notMem_offsets (h : Placed pos done offsets now next)
    (hplaceable : Placeable pos done id) :
    pos id + offsets.countP (· ≤ pos id) ∉ offsets := by
  intro hmem
  have hlength := h.length_offsets
  rcases hplaceable with hone | ⟨a, ha, hlt⟩ | ⟨hcount, hall⟩
  · rw [← hlength] at hone
    rcases offsets with _ | ⟨o, _ | ⟨o', offsets⟩⟩
    · cases hmem
    · rw [mem_singleton, countP_singleton] at hmem
      split_ifs at hmem with hle
      · rw [decide_eq_true_eq] at hle
        omega
      · rw [decide_eq_true_eq] at hle
        omega
    · rw [length_cons, length_cons] at hone
      omega
  · have habove := h.above _ (List.takeWhile_prefix _)
      (fun b hb => by simpa using mem_takeWhile_imp hb) a ha
    have hzero : offsets.countP (· ≤ pos id) = 0 := by
      rw [countP_eq_zero]
      intro o ho
      have := habove o ho
      simp only [decide_eq_true_eq]
      omega
    rw [hzero] at hmem
    have := habove _ hmem
    omega
  · have hnext := h.next_le (pos id - offsets.length) (by omega) fun a ha => ?_
    · have hall : offsets.countP (· ≤ pos id) = offsets.length := by
        rw [countP_eq_length]
        intro o ho
        have := h.offset_lt_next ho
        simp only [decide_eq_true_eq]
        omega
      have hlt := h.offset_lt_next hmem
      rw [hall] at hlt hmem
      have hpos : 0 < offsets.length := length_pos_of_mem hmem
      omega
    · by_cases hnone : pos a = -1
      · rw [hnone]
        omega
      · have := hall a ha hnone
        omega

theorem Placed.clear_append_none (h : Placed pos done offsets now next) (hid : id ∉ done)
    (hnone : pos id = -1) (hclear : Clear pos done offsets now) :
    Clear pos (done ++ [id]) (offsets ++ [next]) (update now id next) := by
  intro a ha hsome hmem
  rcases mem_append.mp ha with ha | ha
  · rw [update_of_mem hid a ha] at hmem
    rcases mem_append.mp hmem with hmem | hmem
    · exact hclear a ha hsome hmem
    · exact absurd (mem_singleton.mp hmem) (h.lt_next a ha).ne
  · rw [mem_singleton.mp ha] at hsome
    exact absurd hnone hsome

theorem Placed.clear_append_some (h : Placed pos done offsets now next) (hid : id ∉ done)
    (hplaceable : Placeable pos done id) (hclear : Clear pos done offsets now) :
    Clear pos (done ++ [id]) offsets
      (update now id (pos id + offsets.countP (· ≤ pos id))) := by
  intro a ha hsome
  rcases mem_append.mp ha with ha | ha
  · rw [update_of_mem hid a ha]
    exact hclear a ha hsome
  · rw [mem_singleton.mp ha, update_self]
    exact h.notMem_offsets hplaceable

/-! ### The loop in `int64` -/

def position (w : OrderedWallet) (id : OrderedId) : ℤ := (w.nOrderPos id).toInt

theorem position_eq_neg_one : w.position id = -1 ↔ w.nOrderPos id = -1 := by
  rw [position, ← Int64.toInt_inj]
  rfl

theorem position_setOrderPos (w : OrderedWallet) (id : OrderedId) (x : Int64) :
    (w.setOrderPos id x).position = update w.position id x.toInt := by
  funext a
  exact apply_update (fun _ => Int64.toInt) w.nOrderPos id x a

variable {offs offs' : List Int64}

theorem writeOrderPos_eq {x : Int64} (h : (w.writeOrderPos write id x).1 = true) :
    (w.writeOrderPos write id x).2 = w.setOrderPos id x := by
  cases id with
  | tx hash => rfl
  | acentry strAccount nEntryNo =>
    rw [writeOrderPos] at h ⊢
    split_ifs at h ⊢
    rfl

theorem reorderItem_spec (h : reorderItem write offs w id = (true, w', offs')) :
    (w.position id = -1 ∧ offs' = offs ++ [w.nOrderPosNext] ∧
      w'.position = update w.position id w.nOrderPosNext.toInt ∧
      w'.nOrderPosNext = w.nOrderPosNext + 1) ∨
    (w.position id ≠ -1 ∧ offs' = offs ∧ ∃ moved, w'.position = update w.position id moved.toInt ∧
      moved = w.nOrderPos id + Int64.ofNat (offs.countP (· ≤ w.nOrderPos id)) ∧
      w'.nOrderPosNext = max w.nOrderPosNext (moved + 1)) := by
  simp only [reorderItem] at h
  split_ifs at h with hnone hoff
  · refine Or.inl ⟨position_eq_neg_one.mpr hnone, ?_⟩
    cases id with
    | tx hash =>
      cases h
      exact ⟨rfl, position_setOrderPos .., rfl⟩
    | acentry strAccount nEntryNo =>
      simp only [Prod.mk.injEq] at h
      obtain ⟨hwritten, hw, rfl⟩ := h
      rw [writeOrderPos_eq hwritten] at hw
      subst hw
      exact ⟨rfl, position_setOrderPos .., rfl⟩
  · cases h
    refine Or.inr ⟨position_eq_neg_one.not.mpr hnone, rfl, _, ?_, rfl, rfl⟩
    have hzero : w.nOrderPos id + Int64.ofNat 0 = w.nOrderPos id := Int64.add_zero _
    rw [hoff, hzero]
    exact (update_eq_self id w.position).symm
  · simp only [Prod.mk.injEq] at h
    obtain ⟨hwritten, hw, rfl⟩ := h
    rw [writeOrderPos_eq hwritten] at hw
    subst hw
    exact Or.inr ⟨position_eq_neg_one.not.mpr hnone, rfl, _, position_setOrderPos .., rfl, rfl⟩

/-- The positions are at most `b`, and moved past the items without one they do not wrap. -/
structure Bounded (pos : OrderedId → ℤ) (b : ℤ) (ids : List OrderedId) : Prop where
  neg_one_le : ∀ id ∈ ids, -1 ≤ pos id
  le : ∀ id ∈ ids, pos id ≤ b
  fits : b + 1 + ids.countP (fun id => pos id = -1) < 2 ^ 63

variable {b : ℤ}

theorem Bounded.of_append {ids : List OrderedId} (h : Bounded pos b (done ++ ids)) :
    Bounded pos b done := by
  have hfits := h.fits
  rw [countP_append] at hfits
  exact ⟨fun id hid => h.neg_one_le id (mem_append_left _ hid),
    fun id hid => h.le id (mem_append_left _ hid), by omega⟩

theorem Placed.reorderItem (h : Placed pos done (offs.map Int64.toInt) w.position
      w.nOrderPosNext.toInt) (hid : id ∉ done) (hbounded : Bounded pos b (done ++ [id]))
    (hitem : reorderItem write offs w id = (true, w', offs')) :
    Placed pos (done ++ [id]) (offs'.map Int64.toInt) w'.position w'.nOrderPosNext.toInt ∧
      (Clear pos done (offs.map Int64.toInt) w.position → (pos id ≠ -1 → Placeable pos done id) →
        Clear pos (done ++ [id]) (offs'.map Int64.toInt) w'.position) := by
  have hone : (1 : Int64).toInt = 1 := rfl
  have hlow := hbounded.neg_one_le id (mem_append_right _ (mem_singleton_self id))
  have hhigh := hbounded.le id (mem_append_right _ (mem_singleton_self id))
  have hnext := h.next_le b (hlow.trans hhigh) hbounded.of_append.le
  have hlength := h.length_offsets
  have hfits := hbounded.fits
  have hnonneg := h.next_nonneg
  rw [countP_append, countP_singleton] at hfits
  rw [length_map] at hnext hlength
  have hpos : w.position id = pos id := h.untouched id hid
  rcases reorderItem_spec hitem with ⟨hnone, rfl, hnow, hsucc⟩ | ⟨hsome, hsame, _, hnow, rfl, hsucc⟩
  · rw [hpos] at hnone
    rw [if_pos (decide_eq_true hnone)] at hfits
    have htoInt : w'.nOrderPosNext.toInt = w.nOrderPosNext.toInt + 1 := by
      rw [hsucc, Int64.toInt_add, hone, Int.bmod_eq_of_le (by omega) (by omega)]
    rw [map_append, map_singleton, hnow, htoInt]
    exact ⟨h.append_none hid hnone, fun hclear _ => h.clear_append_none hid hnone hclear⟩
  · rw [hpos] at hsome
    have hcount : offs.countP (· ≤ w.nOrderPos id) =
        (offs.map Int64.toInt).countP (· ≤ pos id) := by
      rw [countP_map, ← hpos]
      refine countP_congr fun o _ => ?_
      simp only [comp_apply, decide_eq_true_eq]
      exact Int64.le_iff_toInt_le
    have hle : offs.countP (· ≤ w.nOrderPos id) ≤ offs.length := countP_le_length
    have hmoved : (w.nOrderPos id + Int64.ofNat (offs.countP (· ≤ w.nOrderPos id))).toInt =
        pos id + (offs.map Int64.toInt).countP (· ≤ pos id) := by
      have hcast := hpos
      rw [position] at hcast
      rw [Int64.toInt_add, Int64.toInt_ofNat_of_lt (by omega), hcast,
        Int.bmod_eq_of_le (by omega) (by omega), hcount]
    have htoInt : w'.nOrderPosNext.toInt = max w.nOrderPosNext.toInt
        (pos id + (offs.map Int64.toInt).countP (· ≤ pos id) + 1) := by
      rw [hsucc, toInt_max, Int64.toInt_add, hmoved, hone,
        Int.bmod_eq_of_le (by omega) (by omega)]
    rw [hsame, hnow, htoInt, hmoved]
    exact ⟨h.append_some hid hsome, fun hclear hplaceable =>
      h.clear_append_some hid (hplaceable hsome) hclear⟩

theorem Placed.reorderLoop {ids : List OrderedId} (h : Placed pos done (offs.map Int64.toInt)
      w.position w.nOrderPosNext.toInt) (hnodup : (done ++ ids).Nodup)
    (hbounded : Bounded pos b (done ++ ids))
    (hloop : reorderLoop write ids offs w = (.loadOk, w')) :
    ∃ offsets, Placed pos (done ++ ids) offsets w'.position w'.nOrderPosNext.toInt ∧
      (Clear pos done (offs.map Int64.toInt) w.position →
        (∀ before id after, ids = before ++ id :: after → pos id ≠ -1 →
          Placeable pos (done ++ before) id) → Clear pos (done ++ ids) offsets w'.position) := by
  induction ids generalizing done offs w with
  | nil =>
    cases hloop
    rw [append_nil]
    exact ⟨_, h, fun hclear _ => hclear⟩
  | cons id ids ih =>
    have hid : id ∉ done := by
      rw [nodup_append] at hnodup
      exact fun hmem => hnodup.2.2 id hmem id (mem_cons_self ..) rfl
    rw [OrderedWallet.reorderLoop] at hloop
    rcases hitem : OrderedWallet.reorderItem write offs w id with ⟨_ | _, w₁, offs₁⟩
    · rw [hitem] at hloop
      cases hloop
    · rw [hitem] at hloop
      have happend : done ++ id :: ids = done ++ [id] ++ ids := by
        rw [append_assoc, singleton_append]
      rw [happend] at hnodup hbounded ⊢
      obtain ⟨hplaced, hclear₁⟩ := h.reorderItem hid hbounded.of_append hitem
      obtain ⟨offsets, hplaced', hclear'⟩ := ih hplaced hnodup hbounded hloop
      refine ⟨offsets, hplaced', fun hclear hall => hclear' (hclear₁ hclear ?_) ?_⟩
      · intro hsome
        have hfirst := hall [] id ids rfl hsome
        rwa [append_nil] at hfirst
      · rintro before a after rfl hsome
        have hnext := hall (id :: before) a after rfl hsome
        rwa [append_assoc, singleton_append]

/-- Existing positions are distinct and not negative. -/
structure Numbered (w : OrderedWallet) : Prop where
  nonneg : ∀ id ∈ w.ids, w.nOrderPos id = -1 ∨ 0 ≤ w.nOrderPos id
  inj : ∀ a ∈ w.ids, ∀ b ∈ w.ids, w.nOrderPos a ≠ -1 → w.nOrderPos a = w.nOrderPos b → a = b

/-- A position can be moved past all items without one and still has a next one. -/
def Fits (w : OrderedWallet) : Prop :=
  ∀ id ∈ w.txByTime, w.position id + 1 + w.txByTime.countP (fun a => w.position a = -1) < 2 ^ 63

/-- All positions of `w'` are distinct and in range, and the items with a position in `w` are in
the same order. -/
structure Ordered (w w' : OrderedWallet) : Prop where
  inj : ∀ a ∈ w.ids, ∀ b ∈ w.ids, w'.nOrderPos a = w'.nOrderPos b → a = b
  range : ∀ id ∈ w.ids, 0 ≤ w'.nOrderPos id ∧ w'.nOrderPos id < w'.nOrderPosNext
  keeps : ∀ a ∈ w.ids, ∀ b ∈ w.ids, w.nOrderPos a ≠ -1 → w.nOrderPos b ≠ -1 →
    w.nOrderPos a < w.nOrderPos b → w'.nOrderPos a < w'.nOrderPos b

theorem Placed.lt_of_lt (h : Placed pos done offsets now next) {a b : OrderedId} (ha : a ∈ done)
    (hb : b ∈ done) (hasome : pos a ≠ -1) (hbsome : pos b ≠ -1) (hlt : pos a < pos b) :
    now a < now b := by
  have hcount : offsets.countP (· ≤ pos a) ≤ offsets.countP (· ≤ pos b) := by
    refine countP_mono_left fun o _ ho => ?_
    rw [decide_eq_true_eq] at ho ⊢
    omega
  rw [h.moved a ha hasome, h.moved b hb hbsome]
  omega

theorem Placed.inj (h : Placed pos done offsets now next) (hclear : Clear pos done offsets now)
    (hinj : ∀ a ∈ done, ∀ b ∈ done, pos a ≠ -1 → pos a = pos b → a = b)
    {a b : OrderedId} (ha : a ∈ done) (hb : b ∈ done) (heq : now a = now b) : a = b := by
  have hgiven : ∀ c ∈ done, pos c = -1 → now c ∈ offsets := by
    intro c hc hnone
    rw [h.given]
    exact mem_map_of_mem (mem_filter.mpr ⟨hc, decide_eq_true hnone⟩)
  by_cases hanone : pos a = -1 <;> by_cases hbnone : pos b = -1
  · have hnodup : ((done.filter fun c => pos c = -1).map now).Nodup := by
      rw [← h.given]
      exact h.sorted.imp fun hlt => hlt.ne
    exact inj_on_of_nodup_map hnodup (mem_filter.mpr ⟨ha, decide_eq_true hanone⟩)
      (mem_filter.mpr ⟨hb, decide_eq_true hbnone⟩) heq
  · exact absurd (heq ▸ hgiven a ha hanone) (hclear b hb hbnone)
  · exact absurd (heq ▸ hgiven b hb hbnone) (hclear a ha hanone)
  · refine hinj a ha b hb hanone ?_
    by_contra hne
    rcases lt_or_gt_of_ne hne with hlt | hlt
    · exact absurd heq (h.lt_of_lt ha hb hanone hbnone hlt).ne
    · exact absurd heq (h.lt_of_lt hb ha hbnone hanone hlt).ne'

/-- The positions given out, in the order of time. -/
def given (w w' : OrderedWallet) : List ℤ :=
  (w.txByTime.filter fun id => w.position id = -1).map w'.position

theorem bounded_of_fits (hw : w.Numbered) (hfits : w.Fits) :
    ∃ b, Bounded w.position b w.txByTime := by
  refine ⟨2 ^ 63 - 2 - w.txByTime.countP (fun a => w.position a = -1), fun id hid => ?_,
    fun id hid => ?_, by omega⟩
  · rcases hw.nonneg id (mem_txByTime.mp hid).1 with hnone | hpos
    · exact (position_eq_neg_one.mpr hnone).ge
    · rw [Int64.le_iff_toInt_le, Int64.toInt_zero] at hpos
      exact le_trans (by decide) hpos
  · have := hfits id hid
    omega

section

variable (hw : w.Numbered) (hfits : w.Fits) (h : reorderTransactions write w = (.loadOk, w'))
include hw hfits h

theorem placed_reorderTransactions :
    Placed w.position w.txByTime (w.given w') w'.position w'.nOrderPosNext.toInt ∧
      ((∀ before id after, w.txByTime = before ++ id :: after → w.position id ≠ -1 →
        Placeable w.position before id) →
          Clear w.position w.txByTime (w.given w') w'.position) := by
  obtain ⟨b, hbounded⟩ := bounded_of_fits hw hfits
  have hstart : Placed w.position [] (([] : List Int64).map Int64.toInt)
      { w with nOrderPosNext := 0 }.position (0 : Int64).toInt := placed_nil w.position
  obtain ⟨offsets, hplaced, hclear⟩ := hstart.reorderLoop w.nodup_txByTime hbounded h
  rw [nil_append] at hplaced hclear
  have hgiven : offsets = w.given w' := hplaced.given
  subst hgiven
  exact ⟨hplaced, hclear fun id hid => (by cases hid)⟩

theorem Numbered.ordered (hlisted : ∀ id ∈ w.ids, Listed id)
    (hclear : Clear w.position w.txByTime (w.given w') w'.position) : w.Ordered w' := by
  have hplaced := (placed_reorderTransactions hw hfits h).1
  have hids : ∀ id ∈ w.ids, id ∈ w.txByTime :=
    fun id hid => mem_txByTime.mpr ⟨hid, hlisted id hid⟩
  have hmem : ∀ id ∈ w.txByTime, id ∈ w.ids := fun id hid => (mem_txByTime.mp hid).1
  refine ⟨fun a ha b hb heq => ?_, fun id hid => ⟨?_, ?_⟩, fun a ha b hb hasome hbsome hlt => ?_⟩
  · refine hplaced.inj hclear (fun c hc d hd hsome hsame => ?_) (hids a ha) (hids b hb)
      (congrArg Int64.toInt heq)
    exact hw.inj c (hmem c hc) d (hmem d hd) (position_eq_neg_one.not.mp hsome)
      (Int64.toInt_inj.mp hsame)
  · rw [Int64.le_iff_toInt_le, Int64.toInt_zero]
    by_cases hnone : w.position id = -1
    · refine hplaced.nonneg _ (mem_map_of_mem (mem_filter.mpr ⟨hids id hid, ?_⟩))
      exact decide_eq_true hnone
    · have hpos := (hw.nonneg id hid).resolve_left (position_eq_neg_one.not.mp hnone)
      rw [Int64.le_iff_toInt_le, Int64.toInt_zero] at hpos
      have hmoved := hplaced.moved id (hids id hid) hnone
      rw [position, position] at hmoved
      omega
  · exact Int64.lt_iff_toInt_lt.mpr (hplaced.lt_next id (hids id hid))
  · exact Int64.lt_iff_toInt_lt.mpr (hplaced.lt_of_lt (hids a ha) (hids b hb)
      (position_eq_neg_one.not.mpr hasome) (position_eq_neg_one.not.mpr hbsome)
      (Int64.lt_iff_toInt_lt.mp hlt))

end

/-- With entries of the account without a name only, and positions that do not wrap, the items are
in order just if none is moved onto a position given out, and so whenever each can be moved past
those before it. An entry of another account must have its position already. -/
theorem reorderTransactions_spec (w : OrderedWallet) (hw : w.Numbered) (hfits : w.Fits)
    (write : OrderedId → Bool) (h : reorderTransactions write w = (.loadOk, w')) :
    ((∀ id ∈ w.ids, Listed id) →
      (∀ before id after, w.txByTime = before ++ id :: after → w.position id ≠ -1 →
        Placeable w.position before id) → w.Ordered w') ∧
    ((∀ id ∈ w.ids, Listed id) → (w.Ordered w' ↔ ∀ id ∈ w.ids, w.position id ≠ -1 →
        w.position id + (w.given w').countP (· ≤ w.position id) ∉ w.given w')) ∧
    (w.Ordered w' → ∀ id ∈ w.ids, ¬Listed id → w.nOrderPos id ≠ -1) := by
  obtain ⟨hplaced, hclear⟩ := placed_reorderTransactions hw hfits h
  refine ⟨fun hlisted hall => hw.ordered hfits h hlisted (hclear hall),
    fun hlisted => ⟨?_, ?_⟩, ?_⟩
  · intro hordered id hid hsome hmem
    have htime := mem_txByTime.mpr ⟨hid, hlisted id hid⟩
    rw [← hplaced.moved id htime hsome] at hmem
    obtain ⟨a, ha, heq⟩ := mem_map.mp hmem
    obtain ⟨hatime, hanone⟩ := mem_filter.mp ha
    have hsame := hordered.inj a (mem_txByTime.mp hatime).1 id hid (Int64.toInt_inj.mp heq)
    exact hsome (hsame ▸ of_decide_eq_true hanone)
  · intro hnone
    refine hw.ordered hfits h hlisted fun id hid hsome => ?_
    rw [hplaced.moved id hid hsome]
    exact hnone id (mem_txByTime.mp hid).1 hsome
  · intro hordered id hid hlisted hnone
    have hnonneg := (hordered.range id hid).1
    have hsame := hplaced.untouched id fun hmem => hlisted (mem_txByTime.mp hmem).2
    rw [Int64.toInt_inj.mp hsame, hnone] at hnonneg
    exact absurd hnonneg (by decide)

end OrderedWallet

namespace Sample

open OrderedWallet

def orderedWallet (strAccount : Bytes) (nOrderPos : OrderedId → Int64) : OrderedWallet where
  mapWallet := [(1, 1), (2, 2), (3, 3)]
  acentries := [⟨strAccount, 1, 4⟩]
  nOrderPos := nOrderPos
  nOrderPosNext := 0
  mapWallet_sorted := by decide
  acentries_sorted := pairwise_singleton _ _

def oneMissing : OrderedWallet := orderedWallet [] fun
  | .tx 1 => 0
  | .tx 3 => 1
  | .acentry [] 1 => 2
  | _ => -1

/-- Two transactions and an entry of the account `savings` have no position. -/
def twoMissing : OrderedWallet := orderedWallet [0x73, 0x61, 0x76, 0x69, 0x6e, 0x67, 0x73] fun
  | .tx 3 => 0
  | _ => -1

def lastPosition : OrderedWallet := orderedWallet [] fun
  | .tx 1 => 0
  | .tx 2 => 1
  | .tx 3 => 9223372036854775807
  | _ => 2

end Sample

namespace OrderedWallet

open Sample

theorem reorderTransactions_spec_oneMissing :
    oneMissing.Ordered (reorderTransactions (fun _ => true) oneMissing).2 := by
  have hw : oneMissing.Numbered := ⟨by decide, by decide⟩
  have hok : (reorderTransactions (fun _ => true) oneMissing).1 = .loadOk := by decide
  have hfits : oneMissing.Fits := by
    rw [Fits]
    decide
  refine (reorderTransactions_spec oneMissing hw hfits (fun _ => true) (Prod.ext hok rfl)).1 ?_ ?_
  · intro id hid
    rcases mem_append.mp hid with hid | hid
    · obtain ⟨tx, -, rfl⟩ := mem_map.mp hid
      trivial
    · obtain ⟨r, hr, rfl⟩ := mem_map.mp hid
      rw [mem_singleton.mp hr]
      rfl
  · intro before id after hsplit _
    have hcount : oneMissing.txByTime.countP (fun a => oneMissing.position a = -1) = 1 := by
      decide
    rw [hsplit, countP_append] at hcount
    exact Or.inl (by omega)

/-- The entry has no position and two transactions have the same one. And behind the largest
position there is no next one. -/
theorem not_ordered_twoMissing :
    (twoMissing.Numbered ∧ (reorderTransactions (fun _ => true) twoMissing).1 = .loadOk ∧
      (reorderTransactions (fun _ => true) twoMissing).2.nOrderPos (.tx 2) = 1 ∧
      (reorderTransactions (fun _ => true) twoMissing).2.nOrderPos (.tx 3) = 1 ∧
      ∃ id ∈ twoMissing.ids,
        (reorderTransactions (fun _ => true) twoMissing).2.nOrderPos id = -1) ∧
    lastPosition.Numbered ∧ (reorderTransactions (fun _ => true) lastPosition).1 = .loadOk ∧
      ¬lastPosition.Ordered (reorderTransactions (fun _ => true) lastPosition).2 := by
  refine ⟨⟨⟨by decide, by decide⟩, by decide, by decide, by decide, ?_⟩, ⟨by decide, by decide⟩,
    by decide, fun hordered => ?_⟩
  · exact ⟨.acentry [0x73, 0x61, 0x76, 0x69, 0x6e, 0x67, 0x73] 1, by decide, by decide⟩
  · exact absurd (hordered.range (.tx 3) (by decide)).2 (by decide)

end OrderedWallet

end Primecoin
