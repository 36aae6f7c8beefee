import Mathlib.Data.List.AList
import Primecoin.Control.Along
import Primecoin.Data.Inverted
import Primecoin.Pool.Consistent

/-!
# Orphan transactions

A transaction whose inputs are not known yet is kept in `mapOrphanTransactions`, and
`mapOrphanTransactionsByPrev` leads from the id of a missing transaction to the orphans that wait
for it.

When a transaction is accepted, the loop over the orphans that wait for it calls
`AcceptToMemoryPool` on the transaction itself again and not on the orphan. The pool has it
already, so every such orphan is erased. A transaction nobody waits for leaves an empty set, which
the lookup in the loop has created.
-/

namespace Primecoin

open Inverted Runs List Option CTxMemPool Sample

def maxOrphanTransactions : ℕ := maxBlockSize / 100

structure OrphanMaps where
  mapOrphanTransactions : AList fun _ : UInt256 => CTransaction
  mapOrphanTransactionsByPrev : Index UInt256 UInt256

open OrphanMaps

def CTransaction.null : CTransaction := ⟨1, [], [], 0⟩

def CTransaction.prevHashes (tx : CTransaction) : List UInt256 :=
  tx.vin.map fun txin => txin.prevout.hash

namespace OrphanMaps

def empty : OrphanMaps := ⟨∅, fun _ => none⟩

variable (orphans : OrphanMaps)

def stored (txid : UInt256) : Option CTransaction :=
  orphans.mapOrphanTransactions.lookup txid

def size : ℕ := orphans.mapOrphanTransactions.keys.length

/-- The order of `uint256`, in which a set is kept. -/
def idLe (a b : UInt256) : Prop := a.toNat ≤ b.toNat

instance : DecidableRel idLe := fun a b => inferInstanceAs (Decidable (a.toNat ≤ b.toNat))

def addOrphanTx (hash : Bytes → UInt256) (orphans : OrphanMaps) (tx : CTransaction) :
    Bool × OrphanMaps :=
  let txid := tx.getHash hash
  if (orphans.stored txid).isSome then (false, orphans)
  else if 5000 < tx.serialize.length then (false, orphans)
  else (true, {
    mapOrphanTransactions := orphans.mapOrphanTransactions.insert txid tx
    mapOrphanTransactionsByPrev :=
      enter idLe txid orphans.mapOrphanTransactionsByPrev tx.prevHashes })

def eraseOrphanTx (txid : UInt256) : OrphanMaps :=
  match orphans.stored txid with
  | none => orphans
  | some tx => {
      mapOrphanTransactions := orphans.mapOrphanTransactions.erase txid
      mapOrphanTransactionsByPrev :=
        leave txid orphans.mapOrphanTransactionsByPrev tx.prevHashes }

/-- The key `lower_bound` leads to, or the first one. -/
def evicted (randomhash : UInt256) (keys : List UInt256) : Option UInt256 :=
  ((keys.filter fun key => randomhash.toNat ≤ key.toNat).argmin BitVec.toNat).or
    (keys.argmin BitVec.toNat)

/-- The loop, with the hashes that `GetRandHash` draws; as many rounds as orphans are enough. -/
def limitOrphanTxSize (randomHashes : ℕ → UInt256) (nMaxOrphans : ℕ) :
    (rounds nEvicted : ℕ) → OrphanMaps → ℕ × OrphanMaps
  | 0, nEvicted, orphans => (nEvicted, orphans)
  | rounds + 1, nEvicted, orphans =>
    if nMaxOrphans < orphans.size then
      match evicted (randomHashes nEvicted) orphans.mapOrphanTransactions.keys with
      | none => (nEvicted, orphans)
      | some key =>
        limitOrphanTxSize randomHashes nMaxOrphans rounds (nEvicted + 1) (orphans.eraseOrphanTx key)
    else (nEvicted, orphans)

/-- The lookup `mapOrphanTransactions[orphanHash]`. -/
def touchTx (orphanHash : UInt256) : OrphanMaps :=
  if (orphans.stored orphanHash).isSome then orphans
  else { orphans with
    mapOrphanTransactions := orphans.mapOrphanTransactions.insert orphanHash .null }

/-- The lookup `mapOrphanTransactionsByPrev[hashPrev]`. -/
def touchPrev (hashPrev : UInt256) : OrphanMaps :=
  { orphans with
    mapOrphanTransactionsByPrev := touch orphans.mapOrphanTransactionsByPrev hashPrev }

end OrphanMaps

/-- With the pool and the chain as they are when it comes and the random hashes drawn. -/
structure TxMessage where
  tx : CTransaction
  pool : CTxMemPool
  context : PoolContext
  randomHashes : ℕ → UInt256

/-- `vWorkQueue` is the part of the queue not visited yet. -/
structure Resolution where
  pool : CTxMemPool
  orphans : OrphanMaps
  vWorkQueue : List UInt256
  vEraseQueue : List UInt256

namespace TxMessage

variable (hash : Bytes → UInt256) (message : TxMessage)

def accept (pool : CTxMemPool) : Except Failure CTxMemPool × Bool :=
  pool.acceptToMemoryPool hash message.context message.tx true true

/-- The inner loop. It is the transaction of the message that is given to the pool. -/
def resolveOrphan (state : Resolution) (orphanHash : UInt256) : Except Failure Resolution :=
  let orphans := state.orphans.touchTx orphanHash
  match message.accept hash state.pool with
  | (.ok pool, _) => .ok {
      pool := pool
      orphans := orphans
      vWorkQueue := state.vWorkQueue ++ [orphanHash]
      vEraseQueue := state.vEraseQueue ++ [orphanHash] }
  | (.error failure, fMissingInputs2) =>
    if failure.isCrash then .error failure
    else if !fMissingInputs2 then .ok { state with
      orphans := orphans
      vEraseQueue := state.vEraseQueue ++ [orphanHash] }
    else .ok { state with orphans := orphans }

/-- The outer loop; `none` when the rounds are not enough. -/
def resolveOrphans : ℕ → Resolution → Option (Except Failure Resolution)
  | rounds, state =>
    match state.vWorkQueue with
    | [] => some (.ok state)
    | hashPrev :: vWorkQueue =>
      match rounds with
      | 0 => none
      | rounds + 1 =>
        let orphans := state.orphans.touchPrev hashPrev
        let waiting := bucket orphans.mapOrphanTransactionsByPrev hashPrev
        match waiting.foldlM (message.resolveOrphan hash)
            { state with orphans := orphans, vWorkQueue := vWorkQueue } with
        | .error failure => some (.error failure)
        | .ok state => resolveOrphans rounds state

def processTx (rounds : ℕ) (orphans : OrphanMaps) :
    Option (Except Failure (CTxMemPool × OrphanMaps)) :=
  let txid := message.tx.getHash hash
  match message.accept hash message.pool with
  | (.ok pool, _) =>
    (message.resolveOrphans hash rounds ⟨pool, orphans, [txid], [txid]⟩).map fun result =>
      result.map fun state =>
        (state.pool, state.vEraseQueue.foldl eraseOrphanTx state.orphans)
  | (.error failure, fMissingInputs) =>
    if failure.isCrash then some (.error failure)
    else if fMissingInputs then
      let orphans := (orphans.addOrphanTx hash message.tx).2
      some (.ok (message.pool, (orphans.limitOrphanTxSize message.randomHashes
        maxOrphanTransactions orphans.size 0).2))
    else some (.ok (message.pool, orphans))

end TxMessage

/-! ## The index -/

namespace OrphanMaps

variable {orphans : OrphanMaps}

def Waits (orphans : OrphanMaps) (prev txid : UInt256) : Prop :=
  ∃ tx, orphans.stored txid = some tx ∧ prev ∈ tx.prevHashes

def Indexed (orphans : OrphanMaps) : Prop :=
  ∀ prev txid, txid ∈ bucket orphans.mapOrphanTransactionsByPrev prev ↔ orphans.Waits prev txid

/-- The keys of the index are the ids orphans wait for, and the sets under them are
the orphans that do. -/
structure Exact (orphans : OrphanMaps) : Prop where
  key : ∀ prev, (orphans.mapOrphanTransactionsByPrev prev).isSome ↔ ∃ txid, orphans.Waits prev txid
  set : ∀ prev waiting, orphans.mapOrphanTransactionsByPrev prev = some waiting →
    waiting ≠ [] ∧ ∀ txid, txid ∈ waiting ↔ orphans.Waits prev txid

theorem exact_iff :
    orphans.Exact ↔ orphans.Indexed ∧ Tight orphans.mapOrphanTransactionsByPrev := by
  constructor
  · intro h
    refine ⟨fun prev txid => ?_, fun prev hempty => (h.set prev [] hempty).1 rfl⟩
    rw [bucket]
    cases hprev : orphans.mapOrphanTransactionsByPrev prev with
    | some waiting => exact (h.set prev waiting hprev).2 txid
    | none =>
      refine iff_of_false not_mem_nil fun hwaits => ?_
      have hkey := (h.key prev).mpr ⟨txid, hwaits⟩
      rw [hprev] at hkey
      cases hkey
  · rintro ⟨hindexed, htight⟩
    refine ⟨fun prev => ?_, fun prev waiting hprev => ?_⟩
    · rw [htight.isSome_iff]
      exact exists_congr (hindexed prev)
    · have hbucket : bucket orphans.mapOrphanTransactionsByPrev prev = waiting := by
        rw [bucket, hprev, getD_some]
      refine ⟨fun hempty => htight prev (hprev.trans (congrArg some hempty)), fun txid => ?_⟩
      rw [← hbucket]
      exact hindexed prev txid

theorem exact_empty : empty.Exact := by
  rw [exact_iff]
  refine ⟨fun prev txid => iff_of_false not_mem_nil ?_, fun prev hprev => by cases hprev⟩
  rintro ⟨tx, hstored, -⟩
  cases hstored

/-! ### Erasing -/

theorem stored_eraseOrphanTx (orphans : OrphanMaps) (txid other : UInt256) :
    (orphans.eraseOrphanTx txid).stored other =
      if other = txid then none else orphans.stored other := by
  rw [eraseOrphanTx]
  cases hstored : orphans.stored txid with
  | none =>
    split_ifs with h
    · rw [h, hstored]
    · rfl
  | some tx =>
    simp only [stored]
    split_ifs with h
    · rw [h, AList.lookup_erase]
    · rw [AList.lookup_erase_ne h]

theorem Indexed.eraseOrphanTx (h : orphans.Indexed) (txid : UInt256) :
    (orphans.eraseOrphanTx txid).Indexed := by
  intro prev other
  rw [Waits, stored_eraseOrphanTx]
  rw [OrphanMaps.eraseOrphanTx]
  cases hstored : orphans.stored txid with
  | none =>
    simp only
    rw [h, Waits]
    split_ifs with hother
    · simp only [hother, hstored, reduceCtorEq]
    · rfl
  | some tx =>
    simp only
    rw [mem_bucket_leave, h, Waits]
    split_ifs with hother
    · subst hother
      simp only [hstored, some.injEq, exists_eq_left', true_and, and_not_self,
        false_and, exists_false]
    · simp only [hother, false_and, not_false_eq_true, and_true]

theorem tight_eraseOrphanTx (h : Tight orphans.mapOrphanTransactionsByPrev) (txid : UInt256) :
    Tight (orphans.eraseOrphanTx txid).mapOrphanTransactionsByPrev := by
  rw [OrphanMaps.eraseOrphanTx]
  cases orphans.stored txid with
  | none => exact h
  | some tx => exact h.leave

theorem Exact.eraseOrphanTx (h : orphans.Exact) (txid : UInt256) :
    (orphans.eraseOrphanTx txid).Exact :=
  exact_iff.mpr ⟨(exact_iff.mp h).1.eraseOrphanTx txid, tight_eraseOrphanTx (exact_iff.mp h).2 txid⟩

theorem size_eraseOrphanTx_le (orphans : OrphanMaps) (txid : UInt256) :
    (orphans.eraseOrphanTx txid).size ≤ orphans.size := by
  rw [eraseOrphanTx]
  cases orphans.stored txid with
  | none => exact le_rfl
  | some tx =>
    simp only [size, AList.keys_erase]
    exact length_erase_le

theorem size_eraseOrphanTx_lt {txid : UInt256} (h : txid ∈ orphans.mapOrphanTransactions.keys) :
    (orphans.eraseOrphanTx txid).size < orphans.size := by
  have hstored : (orphans.stored txid).isSome := AList.lookup_isSome.mpr (AList.mem_keys.mpr h)
  obtain ⟨tx, htx⟩ := isSome_iff_exists.mp hstored
  have hpos := length_pos_of_mem h
  rw [eraseOrphanTx, htx]
  simp only [size, AList.keys_erase]
  rw [length_erase_of_mem h]
  omega

/-! The loop over `vEraseQueue`. -/

theorem stored_foldl_eraseOrphanTx (vEraseQueue : List UInt256) (orphans : OrphanMaps)
    (txid : UInt256) :
    (vEraseQueue.foldl eraseOrphanTx orphans).stored txid =
      if txid ∈ vEraseQueue then none else orphans.stored txid := by
  induction vEraseQueue generalizing orphans with
  | nil => rw [foldl_nil, if_neg not_mem_nil]
  | cons first vEraseQueue ih =>
    rw [foldl_cons, ih, stored_eraseOrphanTx]
    simp only [mem_cons]
    split_ifs <;> tauto

theorem Exact.foldl_eraseOrphanTx (h : orphans.Exact) (vEraseQueue : List UInt256) :
    (vEraseQueue.foldl OrphanMaps.eraseOrphanTx orphans).Exact := by
  induction vEraseQueue generalizing orphans with
  | nil => exact h
  | cons first vEraseQueue ih => exact ih (h.eraseOrphanTx first)

theorem size_foldl_eraseOrphanTx_le (vEraseQueue : List UInt256) (orphans : OrphanMaps) :
    (vEraseQueue.foldl eraseOrphanTx orphans).size ≤ orphans.size := by
  induction vEraseQueue generalizing orphans with
  | nil => exact le_rfl
  | cons first vEraseQueue ih => exact (ih _).trans (size_eraseOrphanTx_le orphans first)

theorem evicted_mem {randomhash key : UInt256} {keys : List UInt256}
    (h : evicted randomhash keys = some key) : key ∈ keys := by
  rw [evicted, or_eq_some_iff] at h
  rcases h with h | ⟨-, h⟩
  · exact mem_of_mem_filter (argmin_mem h)
  · exact argmin_mem h

theorem evicted_isSome (randomhash : UInt256) {keys : List UInt256} (h : keys ≠ []) :
    ∃ key, evicted randomhash keys = some key := by
  have hmin : keys.argmin BitVec.toNat ≠ none := fun hnone => h (argmin_eq_none.mp hnone)
  obtain ⟨key, hkey⟩ := ne_none_iff_exists'.mp hmin
  rw [evicted, hkey]
  cases (keys.filter fun key => randomhash.toNat ≤ key.toNat).argmin BitVec.toNat with
  | none => exact ⟨key, rfl⟩
  | some first => exact ⟨first, rfl⟩

theorem size_limitOrphanTxSize_le (randomHashes : ℕ → UInt256) (nMaxOrphans : ℕ) {rounds : ℕ}
    (nEvicted : ℕ) {orphans : OrphanMaps} (hrounds : orphans.size ≤ rounds) :
    (limitOrphanTxSize randomHashes nMaxOrphans rounds nEvicted orphans).2.size ≤ nMaxOrphans := by
  induction rounds generalizing nEvicted orphans with
  | zero => exact hrounds.trans (Nat.zero_le _)
  | succ rounds ih =>
    rw [limitOrphanTxSize]
    split_ifs with hover
    · have hkeys : orphans.mapOrphanTransactions.keys ≠ [] :=
        ne_nil_of_length_pos (Nat.zero_lt_of_lt hover)
      obtain ⟨key, hkey⟩ := evicted_isSome (randomHashes nEvicted) hkeys
      have hlt := size_eraseOrphanTx_lt (evicted_mem hkey)
      rw [hkey]
      exact ih (nEvicted + 1) (Nat.le_of_lt_succ (hlt.trans_le hrounds))
    · exact Nat.le_of_not_lt hover

/-- Eviction is a sequence of erasures. -/
theorem limitOrphanTxSize_induction {P : OrphanMaps → Prop}
    (herase : ∀ orphans txid, P orphans → P (eraseOrphanTx orphans txid))
    (randomHashes : ℕ → UInt256) (nMaxOrphans rounds nEvicted : ℕ) {orphans : OrphanMaps}
    (h : P orphans) :
    P (limitOrphanTxSize randomHashes nMaxOrphans rounds nEvicted orphans).2 := by
  induction rounds generalizing nEvicted orphans with
  | zero => exact h
  | succ rounds ih =>
    rw [limitOrphanTxSize]
    split_ifs
    · split
      · exact h
      · exact ih (nEvicted + 1) (herase orphans _ h)
    · exact h

/-! ### Adding -/

theorem stored_addOrphanTx {hash : Bytes → UInt256} {tx other : CTransaction} {txid : UInt256}
    (h : (orphans.addOrphanTx hash tx).2.stored txid = some other) :
    orphans.stored txid = some other ∨ txid = tx.getHash hash ∧ other = tx := by
  rw [addOrphanTx] at h
  split_ifs at h
  · exact .inl h
  · exact .inl h
  · simp only [stored] at h ⊢
    by_cases htxid : txid = tx.getHash hash
    · rw [htxid, AList.lookup_insert] at h
      exact .inr ⟨htxid, (some.inj h).symm⟩
    · rw [AList.lookup_insert_ne htxid] at h
      exact .inl h

theorem Indexed.addOrphanTx (h : orphans.Indexed) (hash : Bytes → UInt256) (tx : CTransaction) :
    (orphans.addOrphanTx hash tx).2.Indexed := by
  rw [OrphanMaps.addOrphanTx]
  split_ifs with hstored hbig
  · exact h
  · exact h
  · rw [not_isSome_iff_eq_none] at hstored
    intro prev txid
    simp only
    rw [mem_bucket_enter, h, Waits, Waits]
    simp only [stored] at hstored ⊢
    by_cases htxid : txid = tx.getHash hash
    · rw [htxid, AList.lookup_insert]
      simp [hstored]
    · rw [AList.lookup_insert_ne htxid]
      simp [htxid]

theorem Exact.addOrphanTx (h : orphans.Exact) (hash : Bytes → UInt256) (tx : CTransaction) :
    (orphans.addOrphanTx hash tx).2.Exact := by
  obtain ⟨hcoherent, htight⟩ := exact_iff.mp h
  refine exact_iff.mpr ⟨hcoherent.addOrphanTx hash tx, ?_⟩
  rw [OrphanMaps.addOrphanTx]
  split_ifs
  · exact htight
  · exact htight
  · exact htight.enter

end OrphanMaps

/-! ## Messages -/

namespace TxMessage

variable {hash : Bytes → UInt256} {message : TxMessage} {orphans : OrphanMaps}

def Accepted (hash : Bytes → UInt256) (message : TxMessage) : Prop :=
  ∃ pool fMissingInputs, message.accept hash message.pool = (.ok pool, fMissingInputs)

theorem accepted_iff_isOk : message.Accepted hash ↔ (message.accept hash message.pool).1.isOk := by
  rw [Accepted]
  rcases message.accept hash message.pool with ⟨failure | pool, fMissingInputs⟩
  · exact iff_of_false (fun ⟨_, _, h⟩ => by cases h) Bool.false_ne_true
  · exact iff_of_true ⟨_, _, rfl⟩ rfl

def acceptedPool (hash : Bytes → UInt256) (message : TxMessage) : CTxMemPool :=
  message.pool.addUnchecked (message.tx.getHash hash) message.tx

theorem Accepted.accept_again (h : message.Accepted hash) :
    message.accept hash (message.acceptedPool hash) = (.error (.error ""), false) := by
  obtain ⟨pool, fMissingInputs, haccept⟩ := h
  have hok := accept_of_acceptToMemoryPool (congrArg Prod.fst haccept)
  have hin : ((message.acceptedPool hash).mapTx (message.tx.getHash hash)).isSome := by
    simp only [acceptedPool, addUnchecked, Function.update_self, isSome_some]
  rw [CTxMemPool.accept] at hok
  rw [accept, CTxMemPool.acceptToMemoryPool, CTxMemPool.accept]
  -- the rules on the transaction alone do not look at the pool
  cases hform : acceptForm message.context message.tx with
  | error failure =>
    rw [hform] at hok
    cases hok
  | ok _ => simp only [hin, if_true]

/-- Every orphan of the inner loop is put into the queue of those to erase. -/
theorem foldlM_resolveOrphan {state : Resolution}
    (h : message.accept hash state.pool = (.error (.error ""), false)) (waiting : List UInt256) :
    waiting.foldlM (message.resolveOrphan hash) state = .ok { state with
      orphans := waiting.foldl touchTx state.orphans
      vEraseQueue := state.vEraseQueue ++ waiting } := by
  induction waiting generalizing state with
  | nil => simp [pure, Except.pure]
  | cons orphanHash waiting ih =>
    rw [foldlM_cons, resolveOrphan, h]
    refine (ih ?_).trans ?_
    · exact h
    · rw [foldl_cons, append_assoc, singleton_append]

theorem foldl_touchTx {waiting : List UInt256}
    (h : ∀ txid ∈ waiting, (orphans.stored txid).isSome) :
    waiting.foldl touchTx orphans = orphans := by
  induction waiting with
  | nil => rfl
  | cons txid waiting ih =>
    rw [forall_mem_cons] at h
    rw [foldl_cons, touchTx, if_pos h.1, ih h.2]

def waiting (hash : Bytes → UInt256) (message : TxMessage) (orphans : OrphanMaps) : List UInt256 :=
  bucket orphans.mapOrphanTransactionsByPrev (message.tx.getHash hash)

/-- An accepted transaction and every orphan that waits for it are erased from the orphans, and
only the transaction is added to the pool. -/
theorem Accepted.processTx (h : message.Accepted hash) (hindexed : orphans.Indexed) (rounds : ℕ) :
    message.processTx hash (rounds + 1) orphans = some (.ok (message.acceptedPool hash,
      (message.tx.getHash hash :: message.waiting hash orphans).foldl eraseOrphanTx
        (orphans.touchPrev (message.tx.getHash hash)))) := by
  have hagain := h.accept_again
  obtain ⟨pool, fMissingInputs, haccept⟩ := h
  have hwaiting : ∀ txid ∈ message.waiting hash orphans,
      ((orphans.touchPrev (message.tx.getHash hash)).stored txid).isSome := by
    intro txid htxid
    obtain ⟨tx, hstored, -⟩ := (hindexed _ _).mp htxid
    exact isSome_iff_exists.mpr ⟨tx, hstored⟩
  have hbucket : bucket (orphans.touchPrev (message.tx.getHash hash)).mapOrphanTransactionsByPrev
      (message.tx.getHash hash) = message.waiting hash orphans := bucket_touch _ _ _
  rw [TxMessage.processTx, haccept]
  simp only
  have haccepted := accept_of_acceptToMemoryPool (congrArg Prod.fst haccept)
  rw [(accept_ok haccepted).2.2.2, resolveOrphans]
  simp only
  rw [hbucket, foldlM_resolveOrphan hagain, foldl_touchTx hwaiting]
  simp only
  rw [resolveOrphans]
  rfl

section

variable (hash : Bytes → UInt256)

def Steps (rounds : ℕ) (orphans : OrphanMaps) (message : TxMessage)
    (orphans' : OrphanMaps) : Prop :=
  ∃ pool, message.processTx hash rounds orphans = some (.ok (pool, orphans'))

/-- The message is processed, and then the index is exact and the orphans are within the limit. -/
def KeepsExact (rounds : ℕ) (orphans : OrphanMaps) (message : TxMessage) : Prop :=
  (message.processTx hash rounds orphans).isSome ∧
    ∀ orphans', message.Steps hash rounds orphans orphans' →
      orphans'.Exact ∧ orphans'.size ≤ maxOrphanTransactions

def Awaited (orphans : OrphanMaps) (message : TxMessage) : Prop :=
  ∃ txid, orphans.Waits (message.tx.getHash hash) txid

end

theorem processTx_isSome_of_not_accepted (h : ¬message.Accepted hash) (rounds : ℕ)
    (orphans : OrphanMaps) : (message.processTx hash rounds orphans).isSome := by
  rw [TxMessage.processTx]
  rcases haccept : message.accept hash message.pool with ⟨failure | pool, fMissingInputs⟩
  · simp only
    split_ifs <;> rfl
  · exact absurd ⟨pool, fMissingInputs, haccept⟩ h

/-- A message that is not accepted adds its transaction to the orphans, or does
nothing. -/
theorem processTx_of_not_accepted (h : ¬message.Accepted hash) {rounds : ℕ}
    {orphans' : OrphanMaps} {pool : CTxMemPool}
    (hprocess : message.processTx hash rounds orphans = some (.ok (pool, orphans'))) :
    orphans' = orphans ∨
      orphans' = ((orphans.addOrphanTx hash message.tx).2.limitOrphanTxSize message.randomHashes
        maxOrphanTransactions (orphans.addOrphanTx hash message.tx).2.size 0).2 := by
  rw [TxMessage.processTx] at hprocess
  rcases haccept : message.accept hash message.pool with ⟨failure | pool', fMissingInputs⟩
  · rw [haccept] at hprocess
    simp only at hprocess
    split_ifs at hprocess
    · cases hprocess
    · cases hprocess
      exact .inr rfl
    · cases hprocess
      exact .inl rfl
  · exact absurd ⟨pool', fMissingInputs, haccept⟩ h

/-- A message that is not accepted is no danger to the index. -/
theorem keepsExact_of_not_accepted (h : ¬message.Accepted hash) (hexact : orphans.Exact)
    (hsize : orphans.size ≤ maxOrphanTransactions) (rounds : ℕ) :
    message.KeepsExact hash rounds orphans := by
  refine ⟨processTx_isSome_of_not_accepted h rounds orphans, fun orphans' ⟨pool, hprocess⟩ => ?_⟩
  rcases processTx_of_not_accepted h hprocess with rfl | rfl
  · exact ⟨hexact, hsize⟩
  · exact ⟨limitOrphanTxSize_induction (fun _ txid h => h.eraseOrphanTx txid) _ _ _ _
        (hexact.addOrphanTx hash message.tx),
      size_limitOrphanTxSize_le _ _ _ le_rfl⟩

theorem key_of_not_awaited (hindexed : orphans.Indexed) (h : ¬message.Awaited hash orphans) :
    ((message.tx.getHash hash :: message.waiting hash orphans).foldl eraseOrphanTx
      (orphans.touchPrev (message.tx.getHash hash))).mapOrphanTransactionsByPrev
        (message.tx.getHash hash) = some [] := by
  have hempty : message.waiting hash orphans = [] :=
    eq_nil_iff_forall_not_mem.mpr fun txid htxid => h ⟨txid, (hindexed _ _).mp htxid⟩
  have htouch : (orphans.touchPrev (message.tx.getHash hash)).mapOrphanTransactionsByPrev
      (message.tx.getHash hash) = some [] := by
    rw [touchPrev, touch]
    simp only [Function.update_self]
    exact congrArg some hempty
  rw [hempty, foldl_cons, foldl_nil, eraseOrphanTx]
  cases hstored : (orphans.touchPrev (message.tx.getHash hash)).stored
      (message.tx.getHash hash) with
  | none => exact htouch
  | some tx =>
    -- not even the transaction itself, should it be among the orphans
    have hself : message.tx.getHash hash ∉ tx.prevHashes := fun hprev => h ⟨_, tx, hstored, hprev⟩
    exact (leave_of_notMem hself).trans htouch

theorem keepsExact_iff (hexact : orphans.Exact) (hsize : orphans.size ≤ maxOrphanTransactions)
    (rounds : ℕ) :
    message.KeepsExact hash (rounds + 1) orphans ↔
      (message.Accepted hash → message.Awaited hash orphans) := by
  by_cases haccepted : message.Accepted hash
  · have hindexed := (exact_iff.mp hexact).1
    have hprocess := haccepted.processTx hindexed rounds
    constructor
    · intro hkeeps _
      by_contra hawaited
      have hkept := (hkeeps.2 _ ⟨_, hprocess⟩).1
      exact (hkept.set _ _ (key_of_not_awaited hindexed hawaited)).1 rfl
    · intro h
      have htouch := touch_eq_self ((hexact.key _).mpr (h haccepted))
      refine ⟨by rw [hprocess, isSome_some], fun orphans' ⟨pool, hstep⟩ => ?_⟩
      rw [hprocess, some.injEq, Except.ok.injEq, Prod.mk.injEq, touchPrev, htouch] at hstep
      rw [← hstep.2]
      exact ⟨hexact.foldl_eraseOrphanTx _, (OrphanMaps.size_foldl_eraseOrphanTx_le _ _).trans hsize⟩
  · exact iff_of_true (keepsExact_of_not_accepted haccepted hexact hsize _)
      fun h => absurd h haccepted

/-- Along every run from the empty maps the index stays exact and within its limit just when every
transaction accepted is awaited by an orphan. -/
theorem along_keepsExact_iff (hash : Bytes → UInt256) (rounds : ℕ) (messages : List TxMessage) :
    Along (Steps hash (rounds + 1)) (fun orphans message =>
        message.KeepsExact hash (rounds + 1) orphans) .empty messages ↔
      Along (Steps hash (rounds + 1)) (fun orphans message =>
        message.Accepted hash → message.Awaited hash orphans) .empty messages := by
  refine along_congr (I := fun orphans => orphans.Exact ∧ orphans.size ≤ maxOrphanTransactions)
    ?_ ?_ ⟨exact_empty, Nat.zero_le _⟩ messages
  · exact fun orphans message orphans' _ hkeeps hstep => hkeeps.2 orphans' hstep
  · exact fun orphans message h => keepsExact_iff h.1 h.2 rounds

end TxMessage

/-! Two transactions, of which the second spends the first, in either order. -/

namespace Sample

def spendingMessage : TxMessage := ⟨spending, .empty, poolContext, fun _ => 0⟩

def chainedMessage : TxMessage := ⟨chained, .empty, poolContext, fun _ => 0⟩

theorem spendingMessage_accepted : spendingMessage.Accepted sha256d :=
  TxMessage.accepted_iff_isOk.mpr (by decide)

theorem chainedMessage_stored {orphans : OrphanMaps}
    (h : chainedMessage.Steps sha256d 1 .empty orphans) :
    orphans.stored (chained.getHash sha256d) = some chained := by
  obtain ⟨pool, hprocess⟩ := h
  have hstored : ((chainedMessage.processTx sha256d 1 .empty).bind Except.toOption).map
      (fun result => result.2.stored (chained.getHash sha256d)) = some (some chained) := by
    decide
  rw [hprocess] at hstored
  exact some.inj hstored

end Sample

/-- The child comes before its parent, which then finds it among the orphans. -/
theorem TxMessage.along_keepsExact_child_first : Along (Steps sha256d 1) (fun orphans message =>
      message.KeepsExact sha256d 1 orphans) .empty [chainedMessage, spendingMessage] := by
  rw [along_keepsExact_iff sha256d 0]
  refine ⟨fun h => absurd (TxMessage.accepted_iff_isOk.mp h) (by decide), fun orphans hstep => ?_⟩
  refine ⟨fun _ => ?_, fun _ _ => trivial⟩
  exact ⟨_, _, chainedMessage_stored hstep, by decide⟩

/-- A transaction nobody waits for leaves an empty set in the index. -/
theorem TxMessage.spending_leaves_empty_set : ¬Along (Steps sha256d 1) (fun orphans message =>
      message.KeepsExact sha256d 1 orphans) .empty [spendingMessage] := by
  rintro ⟨hkeeps, -⟩
  rw [keepsExact_iff exact_empty (Nat.zero_le _) 0] at hkeeps
  obtain ⟨txid, tx, hstored, -⟩ := hkeeps spendingMessage_accepted
  cases hstored

end Primecoin
