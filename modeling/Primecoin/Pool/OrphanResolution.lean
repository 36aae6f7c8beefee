import Primecoin.Pool.Orphans

/-!
# Orphans and the transaction they waited for

A stored orphan depends on a transaction when it spends an output of it or of another stored
orphan that depends on it. After a transaction has been accepted, the orphans that depend on it
should be tried in turn, and the store should lose only those that have entered the pool or are
invalid.

`processTx` never gives an orphan to the pool. So it leaves the orphans settled only when the pool
would take none of those that depend on the transaction, and every orphan that spends it has all
of its inputs.
-/

namespace Primecoin

open Inverted Relation Sample OrphanMaps

namespace OrphanMaps

variable {hash : Bytes → UInt256} {orphans : OrphanMaps}

/-- The orphans are stored under their ids, and the index leads to them. -/
structure Kept (hash : Bytes → UInt256) (orphans : OrphanMaps) : Prop where
  keyed : ∀ txid tx, orphans.stored txid = some tx → txid = tx.getHash hash
  indexed : orphans.Indexed

theorem kept_empty (hash : Bytes → UInt256) : empty.Kept hash :=
  ⟨fun _ _ => nofun, (exact_iff.mp exact_empty).1⟩

theorem Kept.addOrphanTx (h : orphans.Kept hash) (tx : CTransaction) :
    (orphans.addOrphanTx hash tx).2.Kept hash := by
  refine ⟨fun txid other hstored => ?_, h.indexed.addOrphanTx hash tx⟩
  rcases stored_addOrphanTx hstored with hold | ⟨rfl, rfl⟩
  · exact h.keyed txid other hold
  · rfl

theorem Kept.eraseOrphanTx (h : orphans.Kept hash) (txid : UInt256) :
    (orphans.eraseOrphanTx txid).Kept hash := by
  refine ⟨fun other tx hstored => ?_, h.indexed.eraseOrphanTx txid⟩
  rw [stored_eraseOrphanTx] at hstored
  split_ifs at hstored
  exact h.keyed other tx hstored

theorem Kept.touchPrev (h : orphans.Kept hash) (prev : UInt256) :
    (orphans.touchPrev prev).Kept hash := by
  refine ⟨h.keyed, fun other txid => ?_⟩
  rw [OrphanMaps.touchPrev]
  simp only
  rw [bucket_touch]
  exact h.indexed other txid

theorem Kept.foldl_eraseOrphanTx (h : orphans.Kept hash) (vEraseQueue : List UInt256) :
    (vEraseQueue.foldl OrphanMaps.eraseOrphanTx orphans).Kept hash := by
  induction vEraseQueue generalizing orphans with
  | nil => exact h
  | cons first vEraseQueue ih => exact ih (h.eraseOrphanTx first)

theorem Kept.steps {rounds : ℕ} {message : TxMessage} {orphans' : OrphanMaps}
    (h : orphans.Kept hash) (hstep : message.Steps hash (rounds + 1) orphans orphans') :
    orphans'.Kept hash := by
  obtain ⟨pool, hprocess⟩ := hstep
  by_cases haccepted : message.Accepted hash
  · rw [haccepted.processTx h.indexed, Option.some.injEq, Except.ok.injEq,
      Prod.mk.injEq] at hprocess
    rw [← hprocess.2]
    exact (h.touchPrev _).foldl_eraseOrphanTx _
  · rcases TxMessage.processTx_of_not_accepted haccepted hprocess with rfl | rfl
    · exact h
    · exact limitOrphanTxSize_induction (fun _ txid h => h.eraseOrphanTx txid) _ _ _ _
        (h.addOrphanTx message.tx)

end OrphanMaps

namespace TxMessage

/-- Along every run from the empty maps one round resolves the orphans, each is stored under its
id, the index leads to all of them, and they are within the limit. -/
theorem along_kept (hash : Bytes → UInt256) (rounds : ℕ) (messages : List TxMessage) :
    Runs.Along (Steps hash (rounds + 1)) (fun orphans message =>
      (message.processTx hash (rounds + 1) orphans).isSome ∧ orphans.Kept hash ∧
        orphans.size ≤ maxOrphanTransactions) .empty messages := by
  have hkept := kept_empty hash
  have hsize : empty.size ≤ maxOrphanTransactions := Nat.zero_le _
  generalize empty = orphans at hkept hsize ⊢
  induction messages generalizing orphans with
  | nil => trivial
  | cons message messages ih =>
    by_cases haccepted : message.Accepted hash
    · have hprocess := haccepted.processTx hkept.indexed rounds
      refine ⟨⟨by rw [hprocess, Option.isSome_some], hkept, hsize⟩, fun orphans' hstep => ?_⟩
      refine ih orphans' (hkept.steps hstep) ?_
      obtain ⟨pool, hstep⟩ := hstep
      rw [hprocess, Option.some.injEq, Except.ok.injEq, Prod.mk.injEq] at hstep
      exact hstep.2 ▸ (size_foldl_eraseOrphanTx_le _ _).trans hsize
    · have hsome := processTx_isSome_of_not_accepted haccepted (rounds + 1) orphans
      refine ⟨⟨hsome, hkept, hsize⟩, fun orphans' hstep => ih orphans' (hkept.steps hstep) ?_⟩
      obtain ⟨pool, hstep⟩ := hstep
      rcases processTx_of_not_accepted haccepted hstep with rfl | rfl
      · exact hsize
      · exact size_limitOrphanTxSize_le _ _ _ le_rfl

variable {hash : Bytes → UInt256} {message : TxMessage} {orphans : OrphanMaps}

section

variable (hash : Bytes → UInt256)

def tryOrphan (message : TxMessage) (pool : CTxMemPool)
    (orphan : CTransaction) : Except Failure CTxMemPool × Bool :=
  pool.acceptToMemoryPool hash message.context orphan true true

/-- Directly or through other stored orphans. -/
def Depends (message : TxMessage) (orphans : OrphanMaps) (txid : UInt256) : Prop :=
  TransGen orphans.Waits (message.tx.getHash hash) txid

/-- When the message has been handled, the orphans that depend on its transaction and that the
pool would take are in the pool, and an orphan that is gone is in the pool or invalid. -/
def SettlesOrphans (rounds : ℕ) (orphans : OrphanMaps) (message : TxMessage) : Prop :=
  ∃ pool orphans', message.processTx hash rounds orphans = some (.ok (pool, orphans')) ∧
    (∀ txid orphan, orphans.stored txid = some orphan → message.Depends hash orphans txid →
      (message.tryOrphan hash pool orphan).1.isOk → (pool.mapTx txid).isSome) ∧
    ∀ txid orphan, orphans.stored txid = some orphan → orphans'.stored txid = none →
      (pool.mapTx txid).isSome ∨
        ∃ failure, message.tryOrphan hash pool orphan = (.error failure, false)

end

theorem tryOrphan_of_mapTx (message : TxMessage) {pool : CTxMemPool} {orphan : CTransaction}
    (h : (pool.mapTx (orphan.getHash hash)).isSome) :
    ∃ failure, message.tryOrphan hash pool orphan = (.error failure, false) := by
  rw [tryOrphan, CTxMemPool.acceptToMemoryPool, CTxMemPool.accept]
  cases CTxMemPool.acceptForm message.context orphan with
  | error failure => cases failure <;> exact ⟨_, rfl⟩
  | ok _ =>
    simp only [h, if_true]
    exact ⟨_, rfl⟩

/-- The orphans that are gone are the transaction itself and those that spend it. -/
theorem stored_after_eq_none (hindexed : orphans.Indexed) {txid : UInt256} {orphan : CTransaction}
    (hstored : orphans.stored txid = some orphan) :
    ((message.tx.getHash hash :: message.waiting hash orphans).foldl eraseOrphanTx
        (orphans.touchPrev (message.tx.getHash hash))).stored txid = none ↔
      txid = message.tx.getHash hash ∨ message.tx.getHash hash ∈ orphan.prevHashes := by
  have hwaiting : txid ∈ message.waiting hash orphans ↔
      message.tx.getHash hash ∈ orphan.prevHashes := by
    rw [waiting, hindexed, Waits, hstored]
    simp
  have htouch : (orphans.touchPrev (message.tx.getHash hash)).stored txid = some orphan := hstored
  rw [stored_foldl_eraseOrphanTx, htouch]
  simp only [List.mem_cons, hwaiting]
  split_ifs with h
  · exact iff_of_true rfl h
  · exact iff_of_false not_false h

/-- The orphans are settled just when, with the transaction in the pool, none of those that depend
on it would be accepted and those that spend it miss no input. -/
theorem settlesOrphans_iff (hkept : orphans.Kept hash) (haccepted : message.Accepted hash)
    (rounds : ℕ) :
    message.SettlesOrphans hash (rounds + 1) orphans ↔
      (∀ txid orphan, orphans.stored txid = some orphan → message.Depends hash orphans txid →
        ¬(message.tryOrphan hash (message.acceptedPool hash) orphan).1.isOk) ∧
      ∀ txid orphan, orphans.stored txid = some orphan →
        message.tx.getHash hash ∈ orphan.prevHashes →
          (message.tryOrphan hash (message.acceptedPool hash) orphan).2 = false := by
  rw [SettlesOrphans, haccepted.processTx hkept.indexed]
  constructor
  · rintro ⟨pool, orphans', hresult, hdepends, herased⟩
    cases hresult
    constructor
    · intro txid orphan hstored hdep hok
      have hin := hdepends txid orphan hstored hdep hok
      rw [hkept.keyed txid orphan hstored] at hin
      obtain ⟨failure, hfails⟩ := tryOrphan_of_mapTx message hin
      rw [hfails] at hok
      cases hok
    · intro txid orphan hstored hspends
      have hgone := (stored_after_eq_none hkept.indexed hstored).mpr (.inr hspends)
      rcases herased txid orphan hstored hgone with hin | ⟨failure, hfails⟩
      · rw [hkept.keyed txid orphan hstored] at hin
        obtain ⟨failure, hfails⟩ := tryOrphan_of_mapTx message hin
        rw [hfails]
      · rw [hfails]
  · rintro ⟨hdepends, hspends⟩
    refine ⟨_, _, rfl, fun txid orphan hstored hdep hok =>
      absurd hok (hdepends txid orphan hstored hdep), fun txid orphan hstored hgone => ?_⟩
    rcases (stored_after_eq_none hkept.indexed hstored).mp hgone with rfl | hprev
    · exact .inl (by simp only [acceptedPool, CTxMemPool.addUnchecked,
        Function.update_self, Option.isSome_some])
    · have hno := hdepends txid orphan hstored (.single ⟨orphan, hstored, hprev⟩)
      have hmissing := hspends txid orphan hstored hprev
      right
      rcases htry : message.tryOrphan hash (message.acceptedPool hash) orphan with
        ⟨failure | pool, fMissingInputs⟩
      · rw [htry] at hmissing
        exact ⟨failure, congrArg (Prod.mk _) hmissing⟩
      · rw [htry] at hno
        exact absurd rfl hno

end TxMessage

/-! An orphan spends the transaction that comes in: one whose output exists, and one
whose output does not. -/

namespace Sample

def misspending : CTransaction :=
  { chained with vin := [⟨⟨spending.getHash sha256d, 7⟩, [], 0xffffffff⟩] }

def orphansOf (tx : CTransaction) : OrphanMaps := (empty.addOrphanTx sha256d tx).2

theorem orphansOf_kept (tx : CTransaction) : (orphansOf tx).Kept sha256d :=
  (kept_empty sha256d).addOrphanTx tx

theorem eq_of_stored_orphansOf {tx orphan : CTransaction} {txid : UInt256}
    (h : (orphansOf tx).stored txid = some orphan) : orphan = tx := by
  rcases stored_addOrphanTx h with hempty | ⟨-, heq⟩
  · cases hempty
  · exact heq

end Sample

/-- The orphan that is dropped is invalid indeed. -/
theorem TxMessage.settlesOrphans_misspending :
    spendingMessage.SettlesOrphans sha256d 1 (orphansOf misspending) ∧
      spendingMessage.Depends sha256d (orphansOf misspending) (misspending.getHash sha256d) := by
  constructor
  · refine (settlesOrphans_iff (orphansOf_kept _) spendingMessage_accepted 0).mpr ⟨?_, ?_⟩
    · intro txid orphan hstored _
      rw [eq_of_stored_orphansOf hstored]
      decide
    · intro txid orphan hstored _
      rw [eq_of_stored_orphansOf hstored]
      decide
  · exact .single ⟨misspending, by decide, by decide⟩

/-- An orphan the pool would take is dropped. -/
theorem TxMessage.not_settlesOrphans_chained :
    ¬spendingMessage.SettlesOrphans sha256d 1 (orphansOf chained) := by
  have hkept := orphansOf_kept chained
  have hstored : (orphansOf chained).stored (chained.getHash sha256d) =
      some chained := by decide
  rintro ⟨pool, orphans', hresult, hdepends, -⟩
  rw [spendingMessage_accepted.processTx hkept.indexed 0] at hresult
  cases hresult
  have hin := hdepends _ _ hstored (.single ⟨_, hstored, by decide⟩) (by decide)
  exact absurd hin (by decide)

end Primecoin
