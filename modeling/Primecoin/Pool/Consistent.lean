import Primecoin.Block.Check
import Primecoin.Pool.MemPool

/-!
# The index of the memory pool

`CTxMemPool.Consistent` says that `mapNextTx` is the inverse of the inputs of the transactions in
`mapTx`. Every operation keeps this.

No two transactions the pool is given share an id, and none of them spends, directly or through
others, an output of itself. The second makes the recursion of `remove` end: it goes from a
transaction to one of higher rank.
-/

namespace Primecoin

open List Function Except Sample CTransaction

/-- The ids behave as hashes do: they tell transactions apart, and a transaction is made after
those whose ids it contains. -/
structure SoundIds (hash : Bytes → UInt256) (known : Set CTransaction) : Prop where
  injOn : Set.InjOn (getHash hash) known
  exists_rank : ∃ rank : CTransaction → ℕ, ∀ parent ∈ known, ∀ child ∈ known,
    ∀ txin ∈ child.vin, txin.prevout.hash = parent.getHash hash → rank parent < rank child

def PoolOp.transactions : PoolOp → List CTransaction
  | .accept _ tx _ _ => [tx]
  | .remove tx _ => [tx]
  | .removeConflicts tx => [tx]
  | .clear => []

namespace CTxMemPool

variable {pool : CTxMemPool} {hash : Bytes → UInt256} {tx : CTransaction}

def Spends (pool : CTxMemPool) (inPoint : CInPoint) (out : COutPoint) : Prop :=
  ∃ tx txin, pool.mapTx inPoint.ptx = some tx ∧ tx.vin[inPoint.n]? = some txin ∧ txin.prevout = out

structure Consistent (hash : Bytes → UInt256) (pool : CTxMemPool) : Prop where
  getHash_eq : ∀ txid tx, pool.mapTx txid = some tx → tx.getHash hash = txid
  mapNextTx_eq_some_iff : ∀ out inPoint, pool.mapNextTx out = some inPoint ↔ pool.Spends inPoint out

def Within (known : Set CTransaction) (pool : CTxMemPool) : Prop :=
  ∀ txid tx, pool.mapTx txid = some tx → tx ∈ known

def Sub (pool other : CTxMemPool) : Prop :=
  ∀ txid tx, pool.mapTx txid = some tx → other.mapTx txid = some tx

theorem Sub.refl (pool : CTxMemPool) : pool.Sub pool := fun _ _ h => h

theorem Sub.trans {other another : CTxMemPool} (h : pool.Sub other)
    (h' : other.Sub another) : pool.Sub another := fun txid tx htx => h' txid tx (h txid tx htx)

theorem Within.mono {known : Set CTransaction} {other : CTxMemPool}
    (h : other.Within known) (hsub : pool.Sub other) : pool.Within known :=
  fun txid tx htx => h txid tx (hsub txid tx htx)

theorem consistent_empty (hash : Bytes → UInt256) : empty.Consistent hash :=
  ⟨by simp [empty], by simp [empty, Spends]⟩

theorem consistent_clear (hash : Bytes → UInt256) (pool : CTxMemPool) :
    pool.clear.Consistent hash :=
  ⟨by simp [clear, empty], by simp [clear, empty, Spends]⟩

theorem Consistent.eq_of_spends
    (h : pool.Consistent hash) {out : COutPoint} {inPoint inPoint' : CInPoint}
    (hspend : pool.Spends inPoint out) (hspend' : pool.Spends inPoint' out) :
    inPoint = inPoint' := by
  have hnext := (h.mapNextTx_eq_some_iff out inPoint).mpr hspend
  rw [(h.mapNextTx_eq_some_iff out inPoint').mpr hspend'] at hnext
  exact (Option.some.inj hnext).symm

/-! ## Adding a transaction -/

theorem mem_inputEntries {txid : UInt256} {vin : List CTxIn} {out : COutPoint}
    {inPoint : CInPoint} :
    (out, inPoint) ∈ inputEntries txid vin ↔
      inPoint.ptx = txid ∧ ∃ txin, vin[inPoint.n]? = some txin ∧ txin.prevout = out := by
  obtain ⟨ptx, n⟩ := inPoint
  constructor
  · intro hmem
    obtain ⟨⟨txin, i⟩, hinput, heq⟩ := mem_map.mp hmem
    cases heq
    exact ⟨rfl, txin, mem_zipIdx_iff_getElem?.mp hinput, rfl⟩
  · rintro ⟨rfl, txin, hget, rfl⟩
    exact mem_map.mpr ⟨(txin, n), mem_zipIdx_iff_getElem?.mpr hget, rfl⟩

theorem map_fst_inputEntries (txid : UInt256) (vin : List CTxIn) :
    (inputEntries txid vin).map Prod.fst = vin.map CTxIn.prevout := by
  have hcomp : (inputEntries txid vin).map Prod.fst =
      (vin.zipIdx.map Prod.fst).map CTxIn.prevout := by
    simp only [inputEntries, map_map]
    rfl
  rw [hcomp, zipIdx_map_fst]

theorem Consistent.addUnchecked (h : pool.Consistent hash)
    (hnew : pool.mapTx (tx.getHash hash) = none)
    (hfree : ∀ txin ∈ tx.vin, pool.mapNextTx txin.prevout = none)
    (hnodup : (tx.vin.map CTxIn.prevout).Nodup) :
    (pool.addUnchecked (tx.getHash hash) tx).Consistent hash := by
  refine ⟨?_, ?_⟩
  · intro txid other hother
    by_cases htxid : txid = tx.getHash hash
    · subst htxid
      simp only [CTxMemPool.addUnchecked, update_self, Option.some.injEq] at hother
      rw [hother]
    · simp only [CTxMemPool.addUnchecked, update_of_ne htxid] at hother
      exact h.getHash_eq txid other hother
  · intro out inPoint
    have hkeys : ((inputEntries (tx.getHash hash) tx.vin).map Prod.fst).Nodup := by
      rw [map_fst_inputEntries]
      exact hnodup
    have hfreeEntry : ∀ entry ∈ inputEntries (tx.getHash hash) tx.vin,
        pool.mapNextTx entry.1 = none := by
      rintro ⟨o, i⟩ hentry
      obtain ⟨-, txin, hget, rfl⟩ := mem_inputEntries.mp hentry
      exact hfree txin (mem_of_getElem? hget)
    rw [CTxMemPool.addUnchecked, KeyMap.insertAll_eq_some_iff hkeys hfreeEntry,
      mem_inputEntries, h.mapNextTx_eq_some_iff]
    -- the inputs of the new transaction and those of the old ones are kept apart by the id
    by_cases hptx : inPoint.ptx = tx.getHash hash
    · simp [Spends, hptx, hnew]
    · simp [Spends, hptx]

variable {fCheckInputs fLimitFree : Bool} {context : PoolContext} {pool' : CTxMemPool}

theorem accept_ok (h : (pool.accept hash context tx fCheckInputs fLimitFree).1 = .ok pool') :
    tx.Checked ∧ pool.mapTx (tx.getHash hash) = none ∧
      (∀ txin ∈ tx.vin, pool.mapNextTx txin.prevout = none) ∧
      pool' = pool.addUnchecked (tx.getHash hash) tx := by
  simp only [accept] at h
  cases hform : acceptForm context tx with
  | error failure => simp [hform] at h
  | ok _ =>
    have hchecked : tx.Checked := by
      simp only [acceptForm, Except.bind_eq_ok_iff] at hform
      obtain ⟨_, hcheck, -⟩ := hform
      exact checkTransaction_ok hcheck
    simp only [hform] at h
    split_ifs at h with hin hconflict
    all_goals simp only [Bool.not_eq_true, Option.isSome_eq_false_iff, Option.isNone_iff_eq_none,
      any_eq_false] at hin hconflict
    · cases hinputs : acceptInputs context tx (pool.coinsView context.pcoinsTip) fLimitFree with
      | error failure => simp [hinputs, Except.map] at h
      | ok _ =>
        simp only [hinputs, Except.map, Except.ok.injEq] at h
        exact ⟨hchecked, hin, hconflict, h.symm⟩
    · exact ⟨hchecked, hin, hconflict, (Except.ok.inj h).symm⟩

theorem acceptForm_avoids (context : PoolContext) (tx : CTransaction) :
    Except.Avoids Failure.isCrash (acceptForm context tx) :=
  tx.checkTransaction_avoids.bind fun _ _ =>
    .guard rfl fun _ => .guard rfl fun _ => .guard rfl fun _ => Except.avoids_ok _

theorem accept_of_acceptToMemoryPool
    (h : (pool.acceptToMemoryPool hash context tx fCheckInputs fLimitFree).1 = .ok pool') :
    (pool.accept hash context tx fCheckInputs fLimitFree).1 = .ok pool' := by
  unfold acceptToMemoryPool at h
  split at h
  · cases h
  · exact h

/-! ## Removing transactions -/

structure Sound (hash : Bytes → UInt256) (known : Set CTransaction) (pool : CTxMemPool) : Prop
    extends pool.Consistent hash where
  within : pool.Within known

theorem sub_erase (pool : CTxMemPool) (txid : UInt256) (tx : CTransaction) :
    (pool.erase txid tx).Sub pool := by
  intro other t ht
  by_cases hother : other = txid
  · simp [erase, hother] at ht
  · simpa [erase, update_of_ne hother] using ht

theorem Consistent.erase (h : pool.Consistent hash) {txid : UInt256}
    (htx : pool.mapTx txid = some tx) : (pool.erase txid tx).Consistent hash := by
  refine ⟨fun other t ht => h.getHash_eq other t (sub_erase pool txid tx other t ht), ?_⟩
  intro out inPoint
  have hnext : (pool.erase txid tx).mapNextTx out = some inPoint ↔
      out ∉ tx.vin.map CTxIn.prevout ∧ pool.Spends inPoint out := by
    rw [CTxMemPool.erase, KeyMap.eraseAll_eq_some_iff, h.mapNextTx_eq_some_iff]
  rw [hnext]
  constructor
  · rintro ⟨hout, t, txin, ht, hget, rfl⟩
    have hptx : inPoint.ptx ≠ txid := by
      rintro hptx
      rw [hptx, htx, Option.some.injEq] at ht
      subst ht
      exact hout (mem_map_of_mem (mem_of_getElem? hget))
    exact ⟨t, txin, by simpa [CTxMemPool.erase, update_of_ne hptx] using ht, hget, rfl⟩
  · rintro ⟨t, txin, ht, hget, rfl⟩
    have hspends : pool.Spends inPoint txin.prevout :=
      ⟨t, txin, sub_erase pool txid tx _ t ht, hget, rfl⟩
    refine ⟨fun hmem => ?_, hspends⟩
    obtain ⟨own, hown, hprevout⟩ := mem_map.mp hmem
    obtain ⟨i, hi⟩ := mem_iff_getElem?.mp hown
    -- the erased transaction would spend the same outpoint
    have hsame : inPoint = ⟨txid, i⟩ := h.eq_of_spends hspends ⟨tx, own, htx, hi, hprevout⟩
    simp [CTxMemPool.erase, hsame] at ht

section Remove

variable {hash : Bytes → UInt256} {known : Set CTransaction} {rank : CTransaction → ℕ}
  {pool : CTxMemPool} {tx : CTransaction}

noncomputable def above (rank : CTransaction → ℕ) (pool : CTxMemPool) (tx : CTransaction) : ℕ :=
  Set.ncard {txid | ∃ t, pool.mapTx txid = some t ∧ rank tx < rank t}

theorem above_mono (rank : CTransaction → ℕ) {other : CTxMemPool} (hsub : pool.Sub other)
    (tx : CTransaction) :
    pool.above rank tx ≤ other.above rank tx := by
  refine Set.ncard_le_ncard ?_ (Set.toFinite _)
  rintro txid ⟨t, ht, hrank⟩
  exact ⟨t, hsub txid t ht, hrank⟩

theorem above_lt {txid : UInt256} {child : CTransaction}
    (hchild : pool.mapTx txid = some child) (hrank : rank tx < rank child) :
    pool.above rank child < pool.above rank tx := by
  refine Set.ncard_lt_ncard ⟨?_, ?_⟩ (Set.toFinite _)
  · rintro other ⟨t, ht, hlt⟩
    exact ⟨t, ht, hrank.trans hlt⟩
  · intro hle
    obtain ⟨t, ht, hlt⟩ := hle ⟨child, hchild, hrank⟩
    rw [hchild, Option.some.injEq] at ht
    exact absurd (ht ▸ hlt) (lt_irrefl _)

theorem Sound.erase_if (h : pool.Sound hash known)
    (hinj : Set.InjOn (getHash hash) known) (htx : tx ∈ known) :
    ∃ pool', (if (pool.mapTx (tx.getHash hash)).isSome then
        ok (pool.erase (tx.getHash hash) tx) else ok pool) =
          (ok pool' : Except Failure CTxMemPool) ∧
      pool'.Sound hash known ∧ pool'.Sub pool := by
  split_ifs with hin
  · obtain ⟨t, ht⟩ := Option.isSome_iff_exists.mp hin
    have hsame : t = tx := hinj (h.within _ t ht) htx (h.getHash_eq _ t ht)
    subst hsame
    have hsub := sub_erase pool (t.getHash hash) t
    exact ⟨_, rfl, ⟨h.toConsistent.erase ht, h.within.mono hsub⟩, hsub⟩
  · exact ⟨pool, rfl, h, Sub.refl pool⟩

theorem Sound.withSpender_ok (h : pool.Sound hash known) {out : COutPoint}
    {f : CTransaction → Except Failure CTxMemPool} {motive : CTxMemPool → Prop}
    (hnone : motive pool)
    (hspender : ∀ (txid : UInt256) (tx : CTransaction) (txin : CTxIn),
      pool.mapTx txid = some tx → txin ∈ tx.vin → txin.prevout = out →
        ∃ pool', f tx = .ok pool' ∧ motive pool') :
    ∃ pool', pool.withSpender out f = .ok pool' ∧ motive pool' := by
  unfold withSpender
  cases hnext : pool.mapNextTx out with
  | none => exact ⟨pool, rfl, hnone⟩
  | some inPoint =>
    obtain ⟨tx, txin, htx, hget, hprevout⟩ := (h.mapNextTx_eq_some_iff out inPoint).mp hnext
    simp only [htx]
    exact hspender inPoint.ptx tx txin htx (mem_of_getElem? hget) hprevout

/-- `remove` returns, whatever the pool looks like, and leaves a sound part of
it. -/
theorem remove_ok (hinj : Set.InjOn (getHash hash) known)
    (hrank : ∀ parent ∈ known, ∀ child ∈ known, ∀ txin ∈ child.vin,
      txin.prevout.hash = parent.getHash hash → rank parent < rank child)
    {depth : ℕ} (fRecursive : Bool)
    (h : pool.Sound hash known) (htx : tx ∈ known) (hdepth : pool.above rank tx < depth) :
    ∃ pool', pool.remove hash depth tx fRecursive = .ok pool' ∧
      pool'.Sound hash known ∧ pool'.Sub pool := by
  induction depth generalizing pool tx fRecursive with
  | zero => exact absurd hdepth (Nat.not_lt_zero _)
  | succ depth ih =>
    simp only [remove, bind_eq_ok_iff]
    cases fRecursive with
    | false =>
      obtain ⟨pool', hif, hsound, hsub⟩ := h.erase_if hinj htx
      exact ⟨pool', ⟨pool, rfl, hif⟩, hsound, hsub⟩
    | true =>
      -- the loop over the outputs keeps the pool sound and only takes from it
      obtain ⟨rest, hloop, hrest, hrestSub⟩ := exists_foldlM_eq_ok
        (f := fun pool i => pool.withSpender ⟨tx.getHash hash, UInt32.ofNat i⟩ fun spender =>
          remove hash depth pool spender true)
        (motive := fun p : CTxMemPool => p.Sound hash known ∧ p.Sub pool)
        (l := List.range tx.vout.length) (by
          rintro now i - ⟨hnow, hnowSub⟩
          refine hnow.withSpender_ok ⟨hnow, hnowSub⟩ ?_
          intro txid child txin hchild htxin hprevout
          have hmem := hnow.within _ child hchild
          have hlt : rank tx < rank child :=
            hrank tx htx child hmem txin htxin (by rw [hprevout])
          have habove : now.above rank child < depth := by
            have hless := above_lt hchild hlt
            have hmono := above_mono rank hnowSub tx
            omega
          obtain ⟨after, hremove, hafter, hafterSub⟩ := ih true hnow hmem habove
          exact ⟨after, hremove, hafter, hafterSub.trans hnowSub⟩) ⟨h, Sub.refl pool⟩
      obtain ⟨pool', hif, hsound, hsub⟩ := hrest.erase_if hinj htx
      exact ⟨pool', ⟨rest, hloop, hif⟩, hsound, hsub.trans hrestSub⟩

theorem removeConflicts_ok (hinj : Set.InjOn (getHash hash) known)
    (hrank : ∀ parent ∈ known, ∀ child ∈ known, ∀ txin ∈ child.vin,
      txin.prevout.hash = parent.getHash hash → rank parent < rank child)
    {depth : ℕ} (tx : CTransaction) (h : pool.Sound hash known)
    (hdepth : ∀ t, pool.above rank t < depth) :
    ∃ pool', pool.removeConflicts hash depth tx = .ok pool' ∧
      pool'.Sound hash known ∧ pool'.Sub pool := by
  refine exists_foldlM_eq_ok
    (motive := fun p : CTxMemPool => p.Sound hash known ∧ p.Sub pool) ?_ ⟨h, Sub.refl pool⟩
  rintro now txin - ⟨hnow, hnowSub⟩
  refine hnow.withSpender_ok ⟨hnow, hnowSub⟩ ?_
  intro txid txConflict _ hconflict _ _
  split_ifs with hne
  · obtain ⟨after, hremove, hafter, hafterSub⟩ := remove_ok hinj hrank true hnow
      (hnow.within _ _ hconflict) ((above_mono rank hnowSub txConflict).trans_lt (hdepth _))
    exact ⟨after, hremove, hafter, hafterSub.trans hnowSub⟩
  · exact ⟨now, rfl, hnow, hnowSub⟩

end Remove

/-! ## Runs -/

noncomputable def size (pool : CTxMemPool) : ℕ := Set.ncard {txid | (pool.mapTx txid).isSome}

theorem above_le_size (rank : CTransaction → ℕ) (pool : CTxMemPool) (tx : CTransaction) :
    pool.above rank tx ≤ pool.size := by
  refine Set.ncard_le_ncard ?_ (Set.toFinite _)
  rintro txid ⟨t, ht, -⟩
  simp [ht]

theorem size_mono {pool other : CTxMemPool} (hsub : pool.Sub other) : pool.size ≤ other.size := by
  refine Set.ncard_le_ncard ?_ (Set.toFinite _)
  intro txid htxid
  obtain ⟨t, ht⟩ := Option.isSome_iff_exists.mp htxid
  simp [hsub txid t ht]

theorem size_addUnchecked_le (pool : CTxMemPool) (txid : UInt256) (tx : CTransaction) :
    (pool.addUnchecked txid tx).size ≤ pool.size + 1 := by
  refine (Set.ncard_le_ncard (t := insert txid {other | (pool.mapTx other).isSome}) ?_
    (Set.toFinite _)).trans (Set.ncard_insert_le _ _)
  intro other hother
  by_cases htxid : other = txid
  · exact Or.inl htxid
  · exact Or.inr (by simpa [addUnchecked, update_of_ne htxid] using hother)

theorem size_empty : empty.size = 0 := by simp [size, empty]

section Run

variable {hash : Bytes → UInt256} {known : Set CTransaction} {pool : CTxMemPool}

theorem Sound.accept {pool' : CTxMemPool} (h : pool.Sound hash known)
    {context : PoolContext} {tx : CTransaction} {fCheckInputs fLimitFree : Bool}
    (htx : tx ∈ known)
    (haccept : (pool.acceptToMemoryPool hash context tx fCheckInputs fLimitFree).1 = .ok pool') :
    pool'.Sound hash known ∧ pool'.size ≤ pool.size + 1 := by
  obtain ⟨hchecked, hnew, hfree, rfl⟩ := accept_ok (accept_of_acceptToMemoryPool haccept)
  refine ⟨⟨h.toConsistent.addUnchecked hnew hfree hchecked.nodup, ?_⟩,
    size_addUnchecked_le pool _ tx⟩
  intro txid t ht
  by_cases htxid : txid = tx.getHash hash
  · simp only [CTxMemPool.addUnchecked, htxid, update_self, Option.some.injEq] at ht
    exact ht ▸ htx
  · simp only [CTxMemPool.addUnchecked, update_of_ne htxid] at ht
    exact h.within txid t ht

theorem step_ok (hids : SoundIds hash known) {depth : ℕ}
    (h : pool.Sound hash known) (hdepth : pool.size < depth) {op : PoolOp}
    (hop : ∀ tx ∈ op.transactions, tx ∈ known) :
    ∃ pool', pool.step hash depth op = .ok pool' ∧ pool'.Sound hash known ∧
      pool'.size ≤ pool.size + 1 := by
  obtain ⟨rank, hrank⟩ := hids.exists_rank
  have habove : ∀ t, pool.above rank t < depth :=
    fun t => (above_le_size rank pool t).trans_lt hdepth
  cases op with
  | accept context tx fCheckInputs fLimitFree =>
    simp only [step]
    split
    · rename_i pool' _ haccept
      have hkept := h.accept (hop tx (by simp [PoolOp.transactions])) (congrArg Prod.fst haccept)
      exact ⟨pool', rfl, hkept.1, hkept.2⟩
    · exact ⟨pool, rfl, h, Nat.le_succ _⟩
  | remove tx fRecursive =>
    obtain ⟨pool', hremove, hsound, hsub⟩ := remove_ok hids.injOn hrank fRecursive h
      (hop tx (by simp [PoolOp.transactions])) (habove tx)
    exact ⟨pool', hremove, hsound, (size_mono hsub).trans (Nat.le_succ _)⟩
  | removeConflicts tx =>
    obtain ⟨pool', hremove, hsound, hsub⟩ := removeConflicts_ok hids.injOn hrank tx h habove
    exact ⟨pool', hremove, hsound, (size_mono hsub).trans (Nat.le_succ _)⟩
  | clear =>
    refine ⟨pool.clear, rfl, ⟨consistent_clear hash pool, by simp [Within, clear, empty]⟩, ?_⟩
    simp [size, clear, empty]

theorem foldlM_step_ok (hids : SoundIds hash known) {depth : ℕ} {ops : List PoolOp}
    (hops : ∀ op ∈ ops, ∀ tx ∈ op.transactions, tx ∈ known)
    (h : pool.Sound hash known) (hdepth : pool.size + ops.length ≤ depth) :
    ∃ pool', ops.foldlM (step hash depth) pool = .ok pool' ∧ pool'.Sound hash known := by
  induction ops generalizing pool with
  | nil => exact ⟨pool, rfl, h⟩
  | cons op ops ih =>
    rw [length_cons] at hdepth
    have hlt : pool.size < depth := by omega
    obtain ⟨next, hstep, hnext, hsize⟩ := step_ok hids h hlt (hops op (by simp))
    obtain ⟨pool', hrest, hpool'⟩ :=
      ih (fun o ho => hops o (mem_cons_of_mem _ ho)) hnext (by omega)
    refine ⟨pool', ?_, hpool'⟩
    rw [foldlM_cons, bind_eq_ok_iff]
    exact ⟨next, hstep, hrest⟩

/-- After every sequence of operations the index has exactly one entry for each input of each pool
transaction and no other, so no two inputs in the pool spend the same outpoint. -/
theorem run_consistent (hids : SoundIds hash known) {depth : ℕ} {ops : List PoolOp}
    (hops : ∀ op ∈ ops, ∀ tx ∈ op.transactions, tx ∈ known) (hdepth : ops.length ≤ depth) :
    ∃ pool, run hash depth ops = .ok pool ∧ pool.Consistent hash ∧
      ∀ out inPoint inPoint', pool.Spends inPoint out → pool.Spends inPoint' out →
        inPoint = inPoint' := by
  have hsize : empty.size + ops.length ≤ depth := by
    rw [size_empty, zero_add]
    exact hdepth
  obtain ⟨pool, hrun, hpool⟩ := foldlM_step_ok hids hops
    ⟨consistent_empty hash, by simp [Within, empty]⟩ hsize
  exact ⟨pool, hrun, hpool.toConsistent, fun _ _ _ => hpool.toConsistent.eq_of_spends⟩

end Run

end CTxMemPool

/-! Two transactions that come in one after the other, the second spending the
first, until the first is taken out again. -/

namespace Sample

def poolContext : PoolContext where
  network := .testNet
  isStandard := fun _ => false
  areInputsStandard := fun _ _ => false
  rateLimited := false
  verifyScript := verifyScript
  tree := tree
  pcoinsTip := view

def poolOps : List PoolOp :=
  [.accept poolContext spending true true, .accept poolContext chained true true,
    .removeConflicts spending, .remove spending false]

theorem soundIds : SoundIds sha256d {spending, chained} where
  injOn := by
    rintro tx (rfl | rfl) tx' (rfl | rfl) h
    · rfl
    · exact absurd h (by decide)
    · exact absurd h (by decide)
    · rfl
  exists_rank := by
    refine ⟨fun tx => if tx = spending then 0 else 1, ?_⟩
    rintro parent (rfl | rfl) child (rfl | rfl)
    · decide
    · decide
    · decide
    · decide

end Sample

theorem CTxMemPool.run_consistent_sample :
    (∃ pool, run sha256d 4 poolOps = .ok pool ∧ pool.Consistent sha256d ∧
      ∀ out inPoint inPoint', pool.Spends inPoint out → pool.Spends inPoint' out →
        inPoint = inPoint') ∧
    (run sha256d 4 poolOps).toOption.bind
        (fun pool => pool.mapNextTx ⟨spending.getHash sha256d, 0⟩) =
      some ⟨chained.getHash sha256d, 0⟩ := by
  refine ⟨run_consistent soundIds ?_ (by decide), by decide⟩
  intro op hop tx htx
  simp only [poolOps, List.mem_cons, List.not_mem_nil, or_false] at hop
  rcases hop with rfl | rfl | rfl | rfl <;> simp_all [PoolOp.transactions]

end Primecoin
