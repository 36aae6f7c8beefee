import Primecoin.Basic
import Primecoin.Control.Stateful
import Primecoin.Data.SortedSet

/-!
# The key pool

`setKeyPool` has the indices of the keys that may be handed out, and the database has a record for
each. A reservation takes the smallest index out of the set but leaves its record, until the key
is kept or returned.

New keys get the indices after the largest one in the set. Reserved indices are not in the set, so
a set that has been emptied starts again at 1, and may come to an index that is still reserved. As
long as it does not, the pool stays sound.
-/

namespace Primecoin

open Stateful List Function SortedSet Option

/-- The keys that `GenerateNewKey` makes one after the other, and the size asked for with
`-keypool`. `κ` are the valid public keys. -/
structure KeyPoolContext (κ : Type) where
  newKey : ℕ → κ
  newKey_injective : Injective newKey
  nTargetSize : UInt32

/-- An index of -1 is `none`, and so is an invalid public key. -/
structure CReserveKey (κ : Type) where
  nIndex : Option Int64
  vchPubKey : Option κ
  deriving DecidableEq, Repr

def CReserveKey.new {κ : Type} : CReserveKey κ := ⟨none, none⟩

/-- The pool with the database records, the keys of the wallet, and the `CReserveKey` objects.
`kept` is history: the keys that were kept. -/
structure KeyPool (κ : Type) where
  setKeyPool : SortedSet Int64
  records : Int64 → Option κ
  haveKey : κ → Bool
  nGenerated : ℕ
  vchDefaultKey : Option κ
  reserveKeys : ℕ → CReserveKey κ
  kept : List κ

/-- Whether the wallet is locked, and whether a write to the database succeeds, by the number of
writes left. -/
structure KeyPoolMoment where
  fLocked : Bool
  writePool : ℕ → Bool

/-- The destructor of a `CReserveKey` is a call of `returnKey`. -/
inductive KeyPoolCall
  | topUpKeyPool (moment : KeyPoolMoment)
  | getReservedKey (r : ℕ) (moment : KeyPoolMoment)
  | keepKey (r : ℕ) (fErased : Bool)
  | returnKey (r : ℕ)
  | getKeyFromPool (fAllowReuse : Bool) (moment : KeyPoolMoment) (fErased : Bool)

namespace KeyPool

variable {κ : Type} [DecidableEq κ] (ctx : KeyPoolContext κ)

def generateNewKey : Stateful (KeyPool κ) Failure κ := do
  let pool ← get
  modify fun pool => { pool with
    nGenerated := pool.nGenerated + 1
    haveKey := update pool.haveKey (ctx.newKey pool.nGenerated) true }
  pure (ctx.newKey pool.nGenerated)

variable (pool : KeyPool κ)

def nEnd : Int64 :=
  match pool.setKeyPool.toList.getLast? with
  | none => 1
  | some nLast => nLast + 1

def addKey (fWritten : Bool) : Stateful (KeyPool κ) Failure Unit := do
  let pool ← get
  let key ← generateNewKey ctx
  if fWritten then
    modify fun now => { now with
      records := update now.records pool.nEnd (some key)
      setKeyPool := now.setKeyPool.insert pool.nEnd }
  else
    lift (.error (.exception "TopUpKeyPool() : writing generated key failed"))

def nMissing : ℕ := (ctx.nTargetSize + 1).toNat - pool.setKeyPool.card

/-- A turn adds an index, so the number of turns is known before. Only where the index after the
largest wraps to one that is in the set, the set does not grow and the loop does not end. -/
def topUpLoop (writePool : ℕ → Bool) : ℕ → Stateful (KeyPool κ) Failure Unit
  | 0 => do
      let pool ← get
      if nMissing ctx pool = 0 then pure () else lift (.error (.fault "TopUpKeyPool"))
  | turns + 1 => do
      addKey ctx (writePool turns)
      topUpLoop writePool turns

def topUpKeyPool (moment : KeyPoolMoment) : Stateful (KeyPool κ) Failure Bool :=
  if moment.fLocked then pure false
  else do
    let pool ← get
    topUpLoop ctx moment.writePool (nMissing ctx pool)
    pure true

def readReserved (nIndex : Int64) : Except Failure κ :=
  match pool.records nIndex with
  | none => .error (.exception "ReserveKeyFromKeyPool() : read failed")
  | some key =>
    if pool.haveKey key then .ok key
    else .error (.exception "ReserveKeyFromKeyPool() : unknown key in key pool")

/-- The caller has the smallest index even if reading its record throws. The index -1 is taken for
an empty pool. -/
def takeOldest : Stateful (KeyPool κ) Failure (Option (Int64 × Except Failure κ)) := do
  let pool ← get
  match pool.setKeyPool.toList with
  | [] => pure none
  | nIndex :: _ => do
      modify fun pool => { pool with setKeyPool := pool.setKeyPool.erase nIndex }
      if nIndex = -1 then do
        let _ ← lift (pool.readReserved nIndex)
        pure none
      else pure (some (nIndex, pool.readReserved nIndex))

/-- A locked wallet is not topped up, which `TopUpKeyPool` sees to itself. -/
def reserveKeyFromKeyPool (moment : KeyPoolMoment) :
    Stateful (KeyPool κ) Failure (Option (Int64 × Except Failure κ)) := do
  let _ ← topUpKeyPool ctx moment
  takeOldest

variable (r : ℕ)

def setReserveKey (reserveKey : CReserveKey κ) (pool : KeyPool κ) : KeyPool κ :=
  { pool with reserveKeys := update pool.reserveKeys r reserveKey }

/-- `none` is the result `false`. -/
def getReservedKey (moment : KeyPoolMoment) : Stateful (KeyPool κ) Failure (Option κ) := do
  let pool ← get
  match (pool.reserveKeys r).nIndex with
  | some _ =>
    match (pool.reserveKeys r).vchPubKey with
    | none => lift (.error (.assertion "vchPubKey.IsValid()"))
    | some key => pure (some key)
  | none => do
      match ← reserveKeyFromKeyPool ctx moment with
      | none =>
        match pool.vchDefaultKey with
        | none => pure none
        | some key => do
            modify (setReserveKey r ⟨none, some key⟩)
            pure (some key)
      | some (nIndex, outcome) => do
          modify (setReserveKey r ⟨some nIndex, (pool.reserveKeys r).vchPubKey⟩)
          let key ← lift outcome
          modify (setReserveKey r ⟨some nIndex, some key⟩)
          pure (some key)

/-- `fErased` says whether the record is gone: not if the wallet has no file, or the database
fails. -/
def keepIndex (nIndex : Int64) (key : Option κ) (fErased : Bool) (pool : KeyPool κ) : KeyPool κ :=
  { pool with
    records := if fErased then update pool.records nIndex none else pool.records
    kept := pool.kept ++ key.toList }

def keepKey (fErased : Bool) (pool : KeyPool κ) : KeyPool κ :=
  match (pool.reserveKeys r).nIndex with
  | none => setReserveKey r .new pool
  | some nIndex =>
    setReserveKey r .new (keepIndex nIndex (pool.reserveKeys r).vchPubKey fErased pool)

def returnKey (pool : KeyPool κ) : KeyPool κ :=
  match (pool.reserveKeys r).nIndex with
  | none => setReserveKey r .new pool
  | some nIndex =>
    setReserveKey r .new { pool with setKeyPool := pool.setKeyPool.insert nIndex }

def getKeyFromPool (fAllowReuse : Bool) (moment : KeyPoolMoment) (fErased : Bool) :
    Stateful (KeyPool κ) Failure (Option κ) := do
  match ← reserveKeyFromKeyPool ctx moment with
  | none => do
      let pool ← get
      match fAllowReuse, pool.vchDefaultKey with
      | true, some key => pure (some key)
      | _, _ =>
        if moment.fLocked then pure none
        else do
          let key ← generateNewKey ctx
          pure (some key)
  | some (nIndex, outcome) => do
      let key ← lift outcome
      modify (keepIndex nIndex (some key) fErased)
      pure (some key)

/-- What a call leaves behind, and the key handed out. An exception does not end the history. -/
def step : KeyPoolCall → Except Failure (Option κ) × KeyPool κ
  | .topUpKeyPool moment => ((topUpKeyPool ctx moment >>= fun _ => pure none).run pool)
  | .getReservedKey r moment => (getReservedKey ctx r moment).run pool
  | .keepKey r fErased => (.ok none, keepKey r fErased pool)
  | .returnKey r => (.ok none, returnKey r pool)
  | .getKeyFromPool fAllowReuse moment fErased =>
    (getKeyFromPool ctx fAllowReuse moment fErased).run pool

/-- No two reservations have the same index or key, and each index in the set has a
record. -/
structure Sound (pool : KeyPool κ) : Prop where
  distinct : ∀ r r' nIndex nIndex', r ≠ r' → (pool.reserveKeys r).nIndex = some nIndex →
    (pool.reserveKeys r').nIndex = some nIndex' → nIndex ≠ nIndex' ∧
      ∀ key ∈ (pool.reserveKeys r).vchPubKey, key ∉ (pool.reserveKeys r').vchPubKey
  recorded : ∀ nIndex ∈ pool.setKeyPool, (pool.records nIndex).isSome

/-- Along the history the pool stays sound, and no key is handed out after it was kept. -/
def Safe (pool : KeyPool κ) : List KeyPoolCall → Prop
  | [] => pool.Sound
  | call :: calls => pool.Sound ∧
      (∀ key, (step ctx pool call).1 = .ok (some key) → key ∉ pool.kept) ∧
      Safe (step ctx pool call).2 calls

def generated (ctx : KeyPoolContext κ) (pool : KeyPool κ) : KeyPool κ :=
  { pool with
    nGenerated := pool.nGenerated + 1
    haveKey := update pool.haveKey (ctx.newKey pool.nGenerated) true }

/-- The pool after a turn that has written its key. -/
def extended (ctx : KeyPoolContext κ) (pool : KeyPool κ) : KeyPool κ :=
  { pool.generated ctx with
    records := update pool.records pool.nEnd (some (ctx.newKey pool.nGenerated))
    setKeyPool := pool.setKeyPool.insert pool.nEnd }

/-- No turn of the loop writes a key under an index that is reserved. -/
def TurnsClear (writePool : ℕ → Bool) : ℕ → KeyPool κ → Prop
  | 0, _ => True
  | turns + 1, pool => writePool turns = true →
      (∀ r, (pool.reserveKeys r).nIndex ≠ some pool.nEnd) ∧
        TurnsClear writePool turns (pool.extended ctx)

def RefillClear (moment : KeyPoolMoment) : Prop :=
  moment.fLocked = false → TurnsClear ctx moment.writePool (nMissing ctx pool) pool

/-- If the call tops up the pool, it writes no key under an index that is reserved. -/
def Clear : KeyPoolCall → Prop
  | .topUpKeyPool moment | .getKeyFromPool _ moment _ => RefillClear ctx pool moment
  | .getReservedKey r moment => (pool.reserveKeys r).nIndex = none → RefillClear ctx pool moment
  | .keepKey .. | .returnKey .. => True

def ClearAlong (pool : KeyPool κ) : List KeyPoolCall → Prop
  | [] => True
  | call :: calls => Clear ctx pool call ∧ ClearAlong (step ctx pool call).2 calls

/-- A pool as it is loaded: the set has the indices of the records, which have different keys of
the wallet, and nothing is reserved. The default key is not in the pool. The keys to be generated
are new. -/
structure Consistent (pool : KeyPool κ) : Prop where
  mem_iff : ∀ nIndex, nIndex ∈ pool.setKeyPool ↔ (pool.records nIndex).isSome
  injective : ∀ nIndex nIndex' key, pool.records nIndex = some key →
    pool.records nIndex' = some key → nIndex = nIndex'
  known : ∀ nIndex key, pool.records nIndex = some key → pool.haveKey key = true
  default_known : ∀ key ∈ pool.vchDefaultKey, pool.haveKey key = true
  default_apart : ∀ nIndex, ∀ key ∈ pool.vchDefaultKey, pool.records nIndex ≠ some key
  fresh : ∀ n, pool.nGenerated ≤ n → pool.haveKey (ctx.newKey n) = false
  reserveKeys_eq : ∀ r, pool.reserveKeys r = .new
  kept_eq : pool.kept = []

end KeyPool

namespace KeyPool

variable {κ : Type} {ctx : KeyPoolContext κ} {pool : KeyPool κ} {r : ℕ} {nIndex : Int64} {key : κ}

/-! ### Pools in which no reserved index has been written -/

structure Orderly (ctx : KeyPoolContext κ) (pool : KeyPool κ) : Prop where
  recorded : ∀ nIndex ∈ pool.setKeyPool, ∃ key, pool.records nIndex = some key
  reserved : ∀ r nIndex, (pool.reserveKeys r).nIndex = some nIndex → nIndex ∉ pool.setKeyPool ∧
      ∃ key, (pool.reserveKeys r).vchPubKey = some key ∧ pool.records nIndex = some key
  unique : ∀ r r' nIndex, (pool.reserveKeys r).nIndex = some nIndex →
    (pool.reserveKeys r').nIndex = some nIndex → r = r'
  injective : ∀ nIndex nIndex' key, pool.records nIndex = some key →
    pool.records nIndex' = some key → nIndex = nIndex'
  known : ∀ nIndex key, pool.records nIndex = some key → pool.haveKey key = true
  kept_known : ∀ key ∈ pool.kept, pool.haveKey key = true
  kept_apart : ∀ nIndex key, pool.records nIndex = some key →
    (nIndex ∈ pool.setKeyPool ∨ ∃ r, (pool.reserveKeys r).nIndex = some nIndex) → key ∉ pool.kept
  default_known : ∀ key ∈ pool.vchDefaultKey, pool.haveKey key = true
  default_apart : ∀ nIndex, ∀ key ∈ pool.vchDefaultKey, pool.records nIndex ≠ some key
  default_kept : ∀ key ∈ pool.vchDefaultKey, key ∉ pool.kept
  fresh : ∀ n, pool.nGenerated ≤ n → pool.haveKey (ctx.newKey n) = false

theorem Consistent.orderly (h : pool.Consistent ctx) : pool.Orderly ctx := by
  have hnone : ∀ r nIndex, (pool.reserveKeys r).nIndex ≠ some nIndex := by
    intro r nIndex hr
    rw [h.reserveKeys_eq r] at hr
    cases hr
  refine ⟨fun nIndex hmem => isSome_iff_exists.mp ((h.mem_iff nIndex).mp hmem),
    fun r nIndex hr => absurd hr (hnone r nIndex), fun r _ nIndex hr => absurd hr (hnone r nIndex),
    h.injective, h.known, ?_, ?_, h.default_known, h.default_apart, ?_, h.fresh⟩
  · rw [h.kept_eq]
    exact forall_mem_nil _
  · rw [h.kept_eq]
    exact fun _ _ _ _ => not_mem_nil
  · rw [h.kept_eq]
    exact fun _ _ => not_mem_nil

theorem Orderly.sound (h : pool.Orderly ctx) : pool.Sound := by
  refine ⟨fun r r' nIndex nIndex' hne hr hr' => ⟨?_, fun key hkey hkey' => ?_⟩, ?_⟩
  · rintro rfl
    exact hne (h.unique r r' nIndex hr hr')
  · obtain ⟨-, key₁, hkey₁, hrecord⟩ := h.reserved r nIndex hr
    obtain ⟨-, key₂, hkey₂, hrecord'⟩ := h.reserved r' nIndex' hr'
    obtain rfl : key₁ = key := some.inj (hkey₁.symm.trans hkey)
    obtain rfl : key₂ = key₁ := some.inj (hkey₂.symm.trans hkey')
    obtain rfl := h.injective nIndex nIndex' key₂ hrecord hrecord'
    exact hne (h.unique r r' nIndex hr hr')
  · intro nIndex hmem
    exact isSome_iff_exists.mpr (h.recorded nIndex hmem)

/-- What topping up does not touch. -/
structure SameClients (pool pool' : KeyPool κ) : Prop where
  reserveKeys_eq : pool'.reserveKeys = pool.reserveKeys
  kept_eq : pool'.kept = pool.kept
  vchDefaultKey_eq : pool'.vchDefaultKey = pool.vchDefaultKey

/-- What a reservation comes to, in a pool that has been topped up to `before`. -/
inductive Reserved (before : KeyPool κ) :
    Except Failure (Option (Int64 × Except Failure κ)) × KeyPool κ → Prop
  | thrown (e : Failure) : Reserved before (.error e, before)
  | empty : Reserved before (.ok none, before)
  | taken (nIndex : Int64) (key : κ) (hmem : nIndex ∈ before.setKeyPool)
      (hrecord : before.records nIndex = some key) :
      Reserved before (.ok (some (nIndex, .ok key)),
        { before with setKeyPool := before.setKeyPool.erase nIndex })

structure Free (pool : KeyPool κ) (nIndex : Int64) : Prop where
  notMem : nIndex ∉ pool.setKeyPool
  notReserved : ∀ r, (pool.reserveKeys r).nIndex ≠ some nIndex

theorem reserveKeys_setReserveKey (r : ℕ) (reserveKey : CReserveKey κ) (pool : KeyPool κ) :
    (setReserveKey r reserveKey pool).reserveKeys = update pool.reserveKeys r reserveKey := rfl

theorem nIndex_of_clear {r' : ℕ} {vchPubKey : Option κ}
    (h : ((setReserveKey r ⟨none, vchPubKey⟩ pool).reserveKeys r').nIndex = some nIndex) :
    r' ≠ r ∧ (pool.reserveKeys r').nIndex = some nIndex := by
  rw [reserveKeys_setReserveKey] at h
  have hne : r' ≠ r := by
    rintro rfl
    rw [update_self] at h
    cases h
  rw [update_of_ne hne] at h
  exact ⟨hne, h⟩

section

variable (h : pool.Orderly ctx)
include h

theorem Orderly.clear (r : ℕ) (vchPubKey : Option κ) :
    (setReserveKey r ⟨none, vchPubKey⟩ pool).Orderly ctx := by
  refine { h with
    reserved := fun r' nIndex hr => ?_
    unique := fun r₁ r₂ nIndex hr₁ hr₂ => ?_
    kept_apart := fun nIndex key hrecord hheld => ?_ }
  · obtain ⟨hne, hr⟩ := nIndex_of_clear hr
    rw [reserveKeys_setReserveKey, update_of_ne hne]
    exact h.reserved r' nIndex hr
  · exact h.unique r₁ r₂ nIndex (nIndex_of_clear hr₁).2 (nIndex_of_clear hr₂).2
  · refine h.kept_apart nIndex key hrecord (hheld.imp_right fun ⟨r', hr⟩ => ?_)
    exact ⟨r', (nIndex_of_clear hr).2⟩

theorem Orderly.free_clear (hr : (pool.reserveKeys r).nIndex = some nIndex) (vchPubKey : Option κ) :
    (setReserveKey r ⟨none, vchPubKey⟩ pool).Free nIndex := by
  refine ⟨(h.reserved r nIndex hr).1, fun r' hr' => ?_⟩
  obtain ⟨hne, hr'⟩ := nIndex_of_clear hr'
  exact hne (h.unique r' r nIndex hr' hr)

theorem Orderly.take (hmem : nIndex ∈ pool.setKeyPool) :
    { pool with setKeyPool := pool.setKeyPool.erase nIndex }.Orderly ctx ∧
      { pool with setKeyPool := pool.setKeyPool.erase nIndex }.Free nIndex := by
  refine ⟨{ h with
    recorded := fun i hi => h.recorded i (mem_erase.mp hi).2
    reserved := fun r i hr => ?_
    kept_apart := fun i key hrecord hheld => ?_ },
      fun hi => (mem_erase.mp hi).1 rfl, fun r hr => ?_⟩
  · obtain ⟨hnot, hkey⟩ := h.reserved r i hr
    exact ⟨fun hi => hnot (mem_erase.mp hi).2, hkey⟩
  · exact h.kept_apart i key hrecord (hheld.imp_left fun hi => (mem_erase.mp hi).2)
  · exact (h.reserved r nIndex hr).1 hmem

theorem Orderly.keepIndex (hfree : pool.Free nIndex)
    (hrecord : pool.records nIndex = some key) (fErased : Bool) :
    (keepIndex nIndex (some key) fErased pool).Orderly ctx := by
  have hrecords : ∀ i k, (KeyPool.keepIndex nIndex (some key) fErased pool).records i = some k →
      pool.records i = some k := by
    intro i k hk
    rw [KeyPool.keepIndex] at hk
    dsimp only at hk
    split_ifs at hk
    · by_cases hi : i = nIndex
      · rw [hi, update_self] at hk
        cases hk
      · rwa [update_of_ne hi] at hk
    · exact hk
  have hother : ∀ i, i ≠ nIndex →
      (KeyPool.keepIndex nIndex (some key) fErased pool).records i = pool.records i := by
    intro i hi
    rw [KeyPool.keepIndex]
    dsimp only
    split_ifs
    · rw [update_of_ne hi]
    · rfl
  have hkept : ∀ k, k ∈ (KeyPool.keepIndex nIndex (some key) fErased pool).kept ↔
      k ∈ pool.kept ∨ k = key := by
    intro k
    rw [KeyPool.keepIndex]
    simp
  refine ⟨fun i hi => ?_, fun r i hr => ?_, h.unique, fun i j k hi hj => ?_, fun i k hk => ?_,
    fun k hk => ?_, fun i k hk hheld hin => ?_, h.default_known, fun i k hdefault hk => ?_,
    fun k hdefault hk => ?_, h.fresh⟩
  · rw [hother i (fun heq => hfree.notMem (heq ▸ hi))]
    exact h.recorded i hi
  · rw [hother i (fun heq => hfree.notReserved r (heq ▸ hr))]
    exact h.reserved r i hr
  · exact h.injective i j k (hrecords i k hi) (hrecords j k hj)
  · exact h.known i k (hrecords i k hk)
  · rcases (hkept k).mp hk with hk | rfl
    · exact h.kept_known k hk
    · exact h.known nIndex k hrecord
  · rcases (hkept k).mp hin with hin | rfl
    · exact h.kept_apart i k (hrecords i k hk) hheld hin
    · obtain rfl := h.injective i nIndex k (hrecords i k hk) hrecord
      rcases hheld with hi | ⟨r, hr⟩
      · exact hfree.notMem hi
      · exact hfree.notReserved r hr
  · exact h.default_apart i k hdefault (hrecords i k hk)
  · rcases (hkept k).mp hk with hk | rfl
    · exact h.default_kept k hdefault hk
    · exact h.default_apart nIndex k hdefault hrecord

theorem Orderly.giveBack (hfree : pool.Free nIndex)
    (hrecord : pool.records nIndex = some key) (hkept : key ∉ pool.kept) :
    { pool with setKeyPool := pool.setKeyPool.insert nIndex }.Orderly ctx := by
  refine { h with
    recorded := fun i hi => ?_
    reserved := fun r i hr => ?_
    kept_apart := fun i k hk hheld => ?_ }
  · rcases mem_insert.mp hi with rfl | hi
    · exact ⟨key, hrecord⟩
    · exact h.recorded i hi
  · obtain ⟨hnot, hkey⟩ := h.reserved r i hr
    refine ⟨fun hi => ?_, hkey⟩
    rcases mem_insert.mp hi with rfl | hi
    · exact hfree.notReserved r hr
    · exact hnot hi
  · by_cases heq : i = nIndex
    · rw [heq] at hk
      rwa [some.inj (hk.symm.trans hrecord)]
    · exact h.kept_apart i k hk (hheld.imp_left fun hi => (mem_insert.mp hi).resolve_left heq)

theorem Orderly.assign (hfree : pool.Free nIndex)
    (hrecord : pool.records nIndex = some key) (hkept : key ∉ pool.kept) (r : ℕ) :
    (setReserveKey r ⟨some nIndex, some key⟩ pool).Orderly ctx := by
  have hcases : ∀ r' i,
      ((setReserveKey r ⟨some nIndex, some key⟩ pool).reserveKeys r').nIndex = some i →
        r' = r ∧ i = nIndex ∨ r' ≠ r ∧ (pool.reserveKeys r').nIndex = some i := by
    intro r' i hr'
    rw [reserveKeys_setReserveKey] at hr'
    by_cases heq : r' = r
    · rw [heq, update_self] at hr'
      exact .inl ⟨heq, (some.inj hr').symm⟩
    · rw [update_of_ne heq] at hr'
      exact .inr ⟨heq, hr'⟩
  refine { h with
    reserved := fun r' i hr' => ?_
    unique := fun r₁ r₂ i hr₁ hr₂ => ?_
    kept_apart := fun i k hk hheld => ?_ }
  · rcases hcases r' i hr' with ⟨rfl, rfl⟩ | ⟨hne, hr'⟩
    · rw [reserveKeys_setReserveKey, update_self]
      exact ⟨hfree.notMem, key, rfl, hrecord⟩
    · rw [reserveKeys_setReserveKey, update_of_ne hne]
      exact h.reserved r' i hr'
  · rcases hcases r₁ i hr₁ with ⟨rfl, rfl⟩ | ⟨-, hold₁⟩
    · rcases hcases r₂ i hr₂ with ⟨rfl, -⟩ | ⟨-, hold₂⟩
      · rfl
      · exact absurd hold₂ (hfree.notReserved r₂)
    · rcases hcases r₂ i hr₂ with ⟨-, rfl⟩ | ⟨-, hold₂⟩
      · exact absurd hold₁ (hfree.notReserved r₁)
      · exact h.unique r₁ r₂ i hold₁ hold₂
  · by_cases heq : i = nIndex
    · rw [heq] at hk
      rwa [some.inj (hk.symm.trans hrecord)]
    · refine h.kept_apart i k hk (hheld.imp_right fun ⟨r', hr'⟩ => ?_)
      rcases hcases r' i hr' with ⟨-, rfl⟩ | ⟨-, hr'⟩
      · exact absurd rfl heq
      · exact ⟨r', hr'⟩

theorem keepKey_orderly (r : ℕ) (fErased : Bool) :
    (keepKey r fErased pool).Orderly ctx := by
  rw [keepKey]
  cases hr : (pool.reserveKeys r).nIndex with
  | none => exact h.clear r none
  | some nIndex =>
    obtain ⟨-, key, hkey, hrecord⟩ := h.reserved r nIndex hr
    have hkept := (h.clear r none).keepIndex (h.free_clear hr none) hrecord fErased
    rw [hkey]
    exact hkept

theorem returnKey_orderly (r : ℕ) : (returnKey r pool).Orderly ctx := by
  rw [returnKey]
  cases hr : (pool.reserveKeys r).nIndex with
  | none => exact h.clear r none
  | some nIndex =>
    obtain ⟨-, key, -, hrecord⟩ := h.reserved r nIndex hr
    exact (h.clear r none).giveBack (h.free_clear hr none) hrecord
      (h.kept_apart nIndex key hrecord (.inr ⟨r, hr⟩))

theorem takeOldest_reserved :
    ∃ before, before.Orderly ctx ∧ SameClients pool before ∧
      Reserved before (takeOldest.run pool) := by
  rw [takeOldest, run_get_bind]
  cases hlist : pool.setKeyPool.toList with
  | nil => exact ⟨pool, h, ⟨rfl, rfl, rfl⟩, .empty⟩
  | cons nIndex rest =>
    have hmem : nIndex ∈ pool.setKeyPool := by
      rw [mem_iff, hlist]
      exact mem_cons_self ..
    obtain ⟨key, hrecord⟩ := h.recorded nIndex hmem
    have hread : pool.readReserved nIndex = .ok key := by
      rw [readReserved, hrecord]
      exact if_pos (h.known nIndex key hrecord)
    dsimp only
    rw [run_modify_bind, hread]
    split_ifs
    · exact ⟨_, (h.take hmem).1, ⟨rfl, rfl, rfl⟩, .empty⟩
    · exact ⟨pool, h, ⟨rfl, rfl, rfl⟩, .taken nIndex key hmem hrecord⟩

end

/-! ### Calls -/

variable [DecidableEq κ] {moment : KeyPoolMoment}

theorem generated_haveKey (pool : KeyPool κ) : (pool.generated ctx).haveKey =
    update pool.haveKey (ctx.newKey pool.nGenerated) true := rfl

theorem haveKey_generated (h : pool.haveKey key = true) :
    (pool.generated ctx).haveKey key = true := by
  rw [generated_haveKey]
  by_cases hkey : key = ctx.newKey pool.nGenerated
  · rw [hkey, update_self]
  · rwa [update_of_ne hkey]

theorem Orderly.generated (h : pool.Orderly ctx) :
    (pool.generated ctx).Orderly ctx := by
  refine { h with
    known := fun nIndex key hrecord => haveKey_generated (h.known nIndex key hrecord)
    kept_known := fun key hkey => haveKey_generated (h.kept_known key hkey)
    default_known := fun key hkey => haveKey_generated (h.default_known key hkey)
    fresh := fun n hn => ?_ }
  have hlt : pool.nGenerated < n := hn
  have hne : ctx.newKey n ≠ ctx.newKey pool.nGenerated := fun heq =>
    hlt.ne' (ctx.newKey_injective heq)
  rw [generated_haveKey, update_of_ne hne]
  exact h.fresh n hlt.le

theorem extended_records (pool : KeyPool κ) : (pool.extended ctx).records =
    update pool.records pool.nEnd (some (ctx.newKey pool.nGenerated)) := rfl

theorem run_addKey_true (pool : KeyPool κ) :
    (addKey ctx true).run pool = (.ok (), pool.extended ctx) := rfl

theorem run_addKey_false (pool : KeyPool κ) : (addKey ctx false).run pool =
    (.error (.exception "TopUpKeyPool() : writing generated key failed"), pool.generated ctx) := rfl

theorem Orderly.extended (h : pool.Orderly ctx)
    (hfree : ∀ r, (pool.reserveKeys r).nIndex ≠ some pool.nEnd) :
    (pool.extended ctx).Orderly ctx := by
  have hgenerated := h.generated
  have hnew : pool.haveKey (ctx.newKey pool.nGenerated) = false := h.fresh _ le_rfl
  have hunknown : ∀ key, pool.haveKey key = true → key ≠ ctx.newKey pool.nGenerated := by
    rintro key hkey rfl
    rw [hnew] at hkey
    cases hkey
  have hne : ∀ r nIndex, (pool.reserveKeys r).nIndex = some nIndex → nIndex ≠ pool.nEnd := by
    rintro r nIndex hr rfl
    exact hfree r hr
  have hrecord : ∀ nIndex key, (pool.extended ctx).records nIndex = some key →
      nIndex = pool.nEnd ∧ key = ctx.newKey pool.nGenerated ∨
        nIndex ≠ pool.nEnd ∧ pool.records nIndex = some key := by
    intro nIndex key hkey
    rw [extended_records] at hkey
    by_cases heq : nIndex = pool.nEnd
    · rw [heq, update_self] at hkey
      exact .inl ⟨heq, (some.inj hkey).symm⟩
    · rw [update_of_ne heq] at hkey
      exact .inr ⟨heq, hkey⟩
  have hold : ∀ nIndex, nIndex ≠ pool.nEnd →
      (pool.extended ctx).records nIndex = pool.records nIndex := fun nIndex hne =>
    update_of_ne hne ..
  refine ⟨fun nIndex hmem => ?_, fun r nIndex hr => ?_, h.unique,
    fun nIndex nIndex' key hkey hkey' => ?_, fun nIndex key hkey => ?_, hgenerated.kept_known,
    fun nIndex key hkey hheld => ?_, hgenerated.default_known, fun nIndex key hdefault hkey => ?_,
    h.default_kept, hgenerated.fresh⟩
  · by_cases heq : nIndex = pool.nEnd
    · rw [heq]
      exact ⟨_, update_self ..⟩
    · rw [hold nIndex heq]
      exact h.recorded nIndex ((mem_insert.mp hmem).resolve_left heq)
  · obtain ⟨hnot, key, hkey, hrec⟩ := h.reserved r nIndex hr
    refine ⟨fun hmem => ?_, key, hkey, ?_⟩
    · exact (mem_insert.mp hmem).elim (hne r nIndex hr) hnot
    · rw [hold nIndex (hne r nIndex hr)]
      exact hrec
  · rcases hrecord nIndex key hkey with ⟨rfl, rfl⟩ | ⟨-, hkey⟩
    · rcases hrecord nIndex' _ hkey' with ⟨rfl, -⟩ | ⟨-, hkey'⟩
      · rfl
      · exact absurd rfl (hunknown _ (h.known nIndex' _ hkey'))
    · rcases hrecord nIndex' key hkey' with ⟨-, rfl⟩ | ⟨-, hkey'⟩
      · exact absurd rfl (hunknown _ (h.known nIndex _ hkey))
      · exact h.injective nIndex nIndex' key hkey hkey'
  · rcases hrecord nIndex key hkey with ⟨-, rfl⟩ | ⟨-, hkey⟩
    · exact update_self ..
    · exact haveKey_generated (h.known nIndex key hkey)
  · rcases hrecord nIndex key hkey with ⟨-, rfl⟩ | ⟨hne, hkey⟩
    · intro hkept
      exact hunknown _ (h.kept_known _ hkept) rfl
    · refine h.kept_apart nIndex key hkey (hheld.imp_left fun hmem => ?_)
      exact (mem_insert.mp hmem).resolve_left hne
  · rcases hrecord nIndex key hkey with ⟨-, rfl⟩ | ⟨-, hkey⟩
    · exact hunknown _ (h.default_known _ hdefault) rfl
    · exact h.default_apart nIndex key hdefault hkey

theorem topUpLoop_orderly (h : pool.Orderly ctx) {writePool : ℕ → Bool} {turns : ℕ}
    (hclear : TurnsClear ctx writePool turns pool) :
    ((topUpLoop ctx writePool turns).run pool).2.Orderly ctx ∧
      SameClients pool ((topUpLoop ctx writePool turns).run pool).2 := by
  induction turns generalizing pool with
  | zero =>
    rw [topUpLoop, run_get_bind]
    split_ifs <;> exact ⟨h, rfl, rfl, rfl⟩
  | succ turns ih =>
    rw [topUpLoop]
    cases hwrite : writePool turns with
    | false =>
      rw [run_bind_of_error (run_addKey_false pool)]
      exact ⟨h.generated, rfl, rfl, rfl⟩
    | true =>
      rw [run_bind_of_ok (run_addKey_true pool)]
      obtain ⟨hfree, hrest⟩ := hclear hwrite
      obtain ⟨horderly, hsame⟩ := ih (h.extended hfree) hrest
      exact ⟨horderly, hsame.1, hsame.2, hsame.3⟩

theorem topUpKeyPool_orderly (h : pool.Orderly ctx) (hclear : RefillClear ctx pool moment) :
    ((topUpKeyPool ctx moment).run pool).2.Orderly ctx ∧
      SameClients pool ((topUpKeyPool ctx moment).run pool).2 := by
  rw [topUpKeyPool]
  split_ifs with hlocked
  · exact ⟨h, rfl, rfl, rfl⟩
  obtain ⟨horderly, hsame⟩ := topUpLoop_orderly h (hclear (Bool.not_eq_true _ ▸ hlocked))
  rw [run_get_bind]
  rcases hrun : (topUpLoop ctx moment.writePool (nMissing ctx pool)).run pool with ⟨result, pool'⟩
  rw [hrun] at horderly hsame
  cases result with
  | error e =>
    rw [run_bind_of_error hrun]
    exact ⟨horderly, hsame⟩
  | ok u =>
    rw [run_bind_of_ok hrun]
    exact ⟨horderly, hsame⟩

theorem reserved_of_orderly (h : pool.Orderly ctx) (hclear : RefillClear ctx pool moment) :
    ∃ before, before.Orderly ctx ∧ SameClients pool before ∧
      Reserved before ((reserveKeyFromKeyPool ctx moment).run pool) := by
  obtain ⟨horderly, hsame⟩ := topUpKeyPool_orderly h hclear
  rw [reserveKeyFromKeyPool]
  rcases hrun : (topUpKeyPool ctx moment).run pool with ⟨result, full⟩
  rw [hrun] at horderly hsame
  cases result with
  | error e =>
    rw [run_bind_of_error hrun]
    exact ⟨full, horderly, hsame, .thrown e⟩
  | ok result =>
    obtain ⟨before, hbefore, hkeeps, hreserved⟩ := takeOldest_reserved horderly
    rw [run_bind_of_ok hrun]
    exact ⟨before, hbefore, ⟨hkeeps.1.trans hsame.1, hkeeps.2.trans hsame.2,
      hkeeps.3.trans hsame.3⟩, hreserved⟩

def Good (ctx : KeyPoolContext κ) (pool : KeyPool κ)
    (result : Except Failure (Option κ) × KeyPool κ) : Prop :=
  result.2.Orderly ctx ∧
    ∀ key, result.1 = .ok (some key) → key ∉ pool.kept

section

variable (h : pool.Orderly ctx)
include h

theorem getReservedKey_good (r : ℕ) (hclear : Clear ctx pool (.getReservedKey r moment)) :
    Good ctx pool ((getReservedKey ctx r moment).run pool) := by
  rw [getReservedKey, run_get_bind]
  cases hr : (pool.reserveKeys r).nIndex with
  | some nIndex =>
    obtain ⟨-, key, hkey, hrecord⟩ := h.reserved r nIndex hr
    simp only [hkey]
    refine ⟨h, fun key' hkey' => ?_⟩
    rw [run_pure] at hkey'
    cases hkey'
    exact h.kept_apart nIndex key hrecord (.inr ⟨r, hr⟩)
  | none =>
    obtain ⟨before, hbefore, hsame, hreserved⟩ := reserved_of_orderly h (hclear hr)
    generalize hrun : (reserveKeyFromKeyPool ctx moment).run pool = result at hreserved
    cases hreserved with
    | thrown e =>
      rw [run_bind_of_error hrun]
      exact ⟨hbefore, fun _ hok => by cases hok⟩
    | empty =>
      rw [run_bind_of_ok hrun]
      cases hdefault : pool.vchDefaultKey with
      | none => exact ⟨hbefore, fun _ hok => by cases hok⟩
      | some key =>
        refine ⟨hbefore.clear r (some key), fun key' hkey' => ?_⟩
        cases hkey'
        exact h.default_kept key hdefault
    | taken nIndex key hmem hrecord =>
      rw [run_bind_of_ok hrun]
      have hnot : key ∉ before.kept := hbefore.kept_apart nIndex key hrecord (.inl hmem)
      obtain ⟨htaken, hfree⟩ := hbefore.take hmem
      have hassigned := htaken.assign hfree hrecord hnot r
      have hfinal : ∀ x, setReserveKey r ⟨some nIndex, some key⟩
          (setReserveKey r x { before with setKeyPool := before.setKeyPool.erase nIndex }) =
          setReserveKey r ⟨some nIndex, some key⟩
            { before with setKeyPool := before.setKeyPool.erase nIndex } := by
        intro x
        simp only [setReserveKey, update_idem]
      refine ⟨?_, fun key' hkey' => ?_⟩
      · rw [← hfinal ⟨some nIndex, (pool.reserveKeys r).vchPubKey⟩] at hassigned
        exact hassigned
      · cases hkey'
        rwa [hsame.kept_eq] at hnot

theorem getKeyFromPool_good (hclear : RefillClear ctx pool moment) (fAllowReuse fErased : Bool) :
    Good ctx pool ((getKeyFromPool ctx fAllowReuse moment fErased).run pool) := by
  obtain ⟨before, hbefore, hsame, hreserved⟩ := reserved_of_orderly h hclear
  rw [getKeyFromPool]
  generalize hrun : (reserveKeyFromKeyPool ctx moment).run pool = result at hreserved
  cases hreserved with
  | thrown e =>
    rw [run_bind_of_error hrun]
    exact ⟨hbefore, fun _ hok => by cases hok⟩
  | empty =>
    -- the pool is empty: the default key, or one that is made for the purpose
    have hfresh : Good ctx pool ((if moment.fLocked then pure none else do
        let key ← generateNewKey ctx
        pure (some key) : Stateful (KeyPool κ) Failure (Option κ)).run before) := by
      split_ifs
      · exact ⟨hbefore, fun _ hok => by cases hok⟩
      · refine ⟨hbefore.generated, fun key hkey hkept => ?_⟩
        cases hkey
        rw [← hsame.kept_eq] at hkept
        have hknown := hbefore.kept_known _ hkept
        rw [hbefore.fresh _ le_rfl] at hknown
        cases hknown
    rw [run_bind_of_ok hrun]
    rw [run_get_bind]
    cases fAllowReuse with
    | false => exact hfresh
    | true =>
      cases hdefault : before.vchDefaultKey with
      | none => exact hfresh
      | some key =>
        refine ⟨hbefore, fun key' hkey' => ?_⟩
        cases hkey'
        rw [← hsame.kept_eq]
        exact hbefore.default_kept key hdefault
  | taken nIndex key hmem hrecord =>
    rw [run_bind_of_ok hrun]
    obtain ⟨htaken, hfree⟩ := hbefore.take hmem
    refine ⟨htaken.keepIndex hfree hrecord fErased, fun key' hkey' => ?_⟩
    cases hkey'
    rw [← hsame.kept_eq]
    exact hbefore.kept_apart nIndex key hrecord (.inl hmem)

theorem step_good (call : KeyPoolCall) (hclear : Clear ctx pool call) :
    Good ctx pool (step ctx pool call) := by
  cases call with
  | topUpKeyPool moment =>
    obtain ⟨horderly, -⟩ := topUpKeyPool_orderly h hclear
    rw [step]
    rcases hrun : (topUpKeyPool ctx moment).run pool with ⟨result, pool'⟩
    rw [hrun] at horderly
    cases result with
    | error e =>
      rw [run_bind_of_error hrun]
      exact ⟨horderly, fun _ hok => by cases hok⟩
    | ok result =>
      rw [run_bind_of_ok hrun]
      exact ⟨horderly, fun _ hok => by cases hok⟩
  | getReservedKey r moment => exact getReservedKey_good h r hclear
  | keepKey r fErased => exact ⟨keepKey_orderly h r fErased, fun _ hok => by cases hok⟩
  | returnKey r => exact ⟨returnKey_orderly h r, fun _ hok => by cases hok⟩
  | getKeyFromPool fAllowReuse moment fErased =>
    exact getKeyFromPool_good h hclear fAllowReuse fErased

theorem Orderly.safe {calls : List KeyPoolCall} (hclear : ClearAlong ctx pool calls) :
    pool.Safe ctx calls := by
  induction calls generalizing pool with
  | nil => exact h.sound
  | cons call calls ih =>
    obtain ⟨hcall, hrest⟩ := hclear
    obtain ⟨horderly, hkept⟩ := step_good h call hcall
    exact ⟨h.sound, hkept, ih horderly hrest⟩

end

/-- From a consistent pool, a history is safe if no key is written under an index that is still
reserved. -/
theorem safe_of_clearAlong (h : pool.Consistent ctx) {calls : List KeyPoolCall}
    (hclear : ClearAlong ctx pool calls) : pool.Safe ctx calls :=
  h.orderly.safe hclear

end KeyPool

namespace Sample

def newKeyPool : KeyPool ℕ where
  setKeyPool := .empty
  records _ := none
  haveKey _ := false
  nGenerated := 0
  vchDefaultKey := none
  reserveKeys _ := .new
  kept := []

def keyPoolOf (nTargetSize : UInt32) : KeyPoolContext ℕ := ⟨id, injective_id, nTargetSize⟩

theorem newKeyPool_consistent (nTargetSize : UInt32) :
    newKeyPool.Consistent (keyPoolOf nTargetSize) := by
  refine ⟨fun nIndex => ?_, fun _ _ _ hrecord => ?_, fun _ _ hrecord => ?_, fun _ hdefault => ?_,
    fun _ _ hdefault => ?_, fun _ _ => rfl, fun _ => rfl, rfl⟩
  · exact ⟨fun hmem => absurd hmem (notMem_empty nIndex), fun hsome => by cases hsome⟩
  · cases hrecord
  · cases hrecord
  · cases hdefault
  · cases hdefault

def twoReservations : List KeyPoolCall :=
  [.getReservedKey 0 ⟨false, fun _ => true⟩, .getReservedKey 1 ⟨false, fun _ => true⟩]

end Sample

open Sample

/-- With `-keypool=1` the pool has another index behind each one reserved. -/
theorem KeyPool.safe_of_clearAlong_twoReservations :
    newKeyPool.Safe (keyPoolOf 1) (twoReservations ++ [.returnKey 0, .keepKey 1 true]) := by
  refine safe_of_clearAlong (newKeyPool_consistent 1)
    ⟨fun _ _ _ => ⟨fun _ => (some_ne_none 1).symm, fun _ =>
      ⟨fun _ => (some_ne_none 2).symm, trivial⟩⟩,
      fun _ _ _ => ⟨fun r => ?_, trivial⟩, trivial, trivial, trivial⟩
  cases r with
  | zero => decide
  | succ r => exact (some_ne_none 3).symm

/-- With `-keypool=0`, two reservations of an unlocked wallet have the index 1. -/
theorem KeyPool.not_safe_keypool_zero : ¬newKeyPool.Safe (keyPoolOf 0) twoReservations := by
  intro hsafe
  exact (hsafe.2.2.2.2.distinct 0 1 1 1 (by decide) rfl rfl).1 rfl

end Primecoin
