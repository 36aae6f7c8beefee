import Primecoin.Pool.Consistent

/-!
# What removal takes along

`remove` with `fRecursive` takes a transaction out of the pool with all that depend on it. So a
transaction that is left has kept every parent it had there: what is left `Prunes` the pool.
Without `fRecursive` the children of the one transaction taken out lose their parent; such
transactions are collected in `gone`.

The results are about calls that return; `remove_ok` says when they do.
-/

namespace Primecoin

open CTransaction
namespace CTxMemPool

/-- A part of the pool in which a transaction has every parent it had, unless that is in `gone`.
-/
structure Prunes (gone : Set CTransaction) (pool' pool : CTxMemPool) : Prop where
  sub : pool'.Sub pool
  parent : ∀ txid tx, pool'.mapTx txid = some tx → ∀ txin ∈ tx.vin, ∀ parent,
    pool.mapTx txin.prevout.hash = some parent → txin.prevout.n.toNat < parent.vout.length →
      parent ∈ gone ∨ pool'.mapTx txin.prevout.hash = some parent

section Prunes

variable {gone : Set CTransaction} {pool pool' pool'' : CTxMemPool}

theorem Prunes.refl (gone : Set CTransaction) (pool : CTxMemPool) : pool.Prunes gone pool :=
  ⟨.refl pool, fun _ _ _ _ _ _ hparent _ => Or.inr hparent⟩

theorem Prunes.trans (h : pool''.Prunes gone pool') (h' : pool'.Prunes gone pool) :
    pool''.Prunes gone pool where
  sub := h.sub.trans h'.sub
  parent txid tx htx txin hin parent hparent hn := by
    rcases h'.parent txid tx (h.sub txid tx htx) txin hin parent hparent hn with hgone | hmid
    · exact Or.inl hgone
    · exact h.parent txid tx htx txin hin parent hmid hn

theorem Prunes.mono {gone' : Set CTransaction} (hsub : gone ⊆ gone')
    (h : pool'.Prunes gone pool) : pool'.Prunes gone' pool where
  sub := h.sub
  parent txid tx htx txin hin parent hparent hn :=
    (h.parent txid tx htx txin hin parent hparent hn).imp_left (@hsub parent)

end Prunes

section Index

variable {hash : Bytes → UInt256} {pool pool' : CTxMemPool} {out : COutPoint}

theorem Consistent.exists_mapNextTx (h : pool.Consistent hash) {txid : UInt256}
    {tx : CTransaction} (htx : pool.mapTx txid = some tx) {txin : CTxIn} (hin : txin ∈ tx.vin) :
    ∃ inPoint, pool.mapNextTx txin.prevout = some inPoint := by
  obtain ⟨n, hn⟩ := List.mem_iff_getElem?.mp hin
  exact ⟨⟨txid, n⟩, (h.mapNextTx_eq_some_iff _ _).mpr ⟨tx, txin, htx, hn, rfl⟩⟩

theorem Sub.mapNextTx_eq_none (hsub : pool'.Sub pool) (h : pool.Consistent hash)
    (h' : pool'.Consistent hash) (hnone : pool.mapNextTx out = none) :
    pool'.mapNextTx out = none := by
  cases hnext : pool'.mapNextTx out with
  | none => rfl
  | some inPoint =>
    obtain ⟨tx, txin, htx, hget, hprevout⟩ := (h'.mapNextTx_eq_some_iff _ _).mp hnext
    rw [(h.mapNextTx_eq_some_iff out inPoint).mpr ⟨tx, txin, hsub _ _ htx, hget, hprevout⟩] at hnone
    cases hnone

/-- An outpoint has one spender: when it is gone, nothing spends the outpoint. -/
theorem Sub.mapNextTx_eq_none_of_removed (hsub : pool'.Sub pool) (h : pool.Consistent hash)
    (h' : pool'.Consistent hash) {inPoint : CInPoint} (hspends : pool.Spends inPoint out)
    (hremoved : pool'.mapTx inPoint.ptx = none) : pool'.mapNextTx out = none := by
  cases hnext : pool'.mapNextTx out with
  | none => rfl
  | some other =>
    obtain ⟨tx, txin, htx, hget, hprevout⟩ := (h'.mapNextTx_eq_some_iff _ _).mp hnext
    have hsame : other = inPoint :=
      h.eq_of_spends ⟨tx, txin, hsub _ _ htx, hget, hprevout⟩ hspends
    rw [hsame, hremoved] at htx
    cases htx

end Index

section Remove

variable {hash : Bytes → UInt256} {known : Set CTransaction} {pool pool' : CTxMemPool}
  {tx : CTransaction}

def Childless (hash : Bytes → UInt256) (pool : CTxMemPool) (tx : CTransaction) : Prop :=
  ∀ n : UInt32, n.toNat < tx.vout.length → pool.mapNextTx ⟨tx.getHash hash, n⟩ = none

/-- On a sound pool it finds no spender or calls `f` with a transaction of the pool. -/
theorem Sound.withSpender_eq_ok (h : pool.Sound hash known) {out : COutPoint}
    {f : CTransaction → Except Failure CTxMemPool} (hok : pool.withSpender out f = .ok pool') :
    (pool.mapNextTx out = none ∧ pool' = pool) ∨
      ∃ inPoint spender, pool.Spends inPoint out ∧ pool.mapTx inPoint.ptx = some spender ∧
        f spender = .ok pool' := by
  unfold withSpender at hok
  cases hnext : pool.mapNextTx out with
  | none =>
    rw [hnext] at hok
    exact Or.inl ⟨rfl, (Except.ok.inj hok).symm⟩
  | some inPoint =>
    have hspends := (h.mapNextTx_eq_some_iff out inPoint).mp hnext
    obtain ⟨spender, txin, hspender, -, -⟩ := hspends
    simp only [hnext, hspender] at hok
    exact Or.inr ⟨inPoint, spender, (h.mapNextTx_eq_some_iff out inPoint).mp hnext, hspender, hok⟩

theorem Sound.prunes_erase (h : pool.Sound hash known)
    (htx : pool.mapTx (tx.getHash hash) = some tx) (hchildless : pool.Childless hash tx) :
    (pool.erase (tx.getHash hash) tx).Prunes ∅ pool where
  sub := sub_erase pool _ tx
  parent txid t ht txin hin parent hparent hn := by
    right
    have hne : txin.prevout.hash ≠ tx.getHash hash := by
      intro heq
      obtain ⟨inPoint, hnext⟩ := h.exists_mapNextTx (sub_erase pool _ tx txid t ht) hin
      rw [heq, htx, Option.some.injEq] at hparent
      have hnone := hchildless txin.prevout.n (hparent ▸ hn)
      rw [← heq] at hnone
      cases hnone.symm.trans hnext
    simpa [erase, Function.update_of_ne hne] using hparent

/-- What is left after a transaction and all that depend on it are gone. -/
structure Removed (hash : Bytes → UInt256) (known : Set CTransaction) (tx : CTransaction)
    (pool pool' : CTxMemPool) : Prop where
  sound : pool'.Sound hash known
  prunes : pool'.Prunes ∅ pool
  mapTx_eq_none : pool'.mapTx (tx.getHash hash) = none
  childless : pool'.Childless hash tx

theorem Sound.removed_erase_if (h : pool.Sound hash known)
    (hinj : Set.InjOn (getHash hash) known) (htx : tx ∈ known)
    (hchildless : pool.Childless hash tx)
    (hok : (if (pool.mapTx (tx.getHash hash)).isSome then
      Except.ok (pool.erase (tx.getHash hash) tx) else Except.ok pool) =
        (Except.ok pool' : Except Failure CTxMemPool)) :
    Removed hash known tx pool pool' := by
  split_ifs at hok with hin
  · obtain ⟨t, ht⟩ := Option.isSome_iff_exists.mp hin
    have hsame : t = tx := hinj (h.within _ t ht) htx (h.getHash_eq _ t ht)
    rw [hsame] at ht
    have hprunes := h.prunes_erase ht hchildless
    have hsound : (pool.erase (tx.getHash hash) tx).Sound hash known :=
      ⟨h.toConsistent.erase ht, h.within.mono hprunes.sub⟩
    cases hok
    refine ⟨hsound, hprunes, by simp [erase], fun n hn => ?_⟩
    exact hprunes.sub.mapNextTx_eq_none h.toConsistent hsound.toConsistent (hchildless n hn)
  · cases hok
    exact ⟨h, .refl ∅ pool, by simpa using hin, hchildless⟩

theorem Sound.removed_of_remove (hinj : Set.InjOn (getHash hash) known) {depth : ℕ}
    (h : pool.Sound hash known) (htx : tx ∈ known)
    (hok : pool.remove hash depth tx true = .ok pool') : Removed hash known tx pool pool' := by
  induction depth generalizing pool pool' tx with
  | zero => cases hok
  | succ depth ih =>
    simp only [remove, if_true, Except.bind_eq_ok_iff] at hok
    obtain ⟨rest, hloop, hif⟩ := hok
    -- after a turn of the loop nothing spends the output it was about
    obtain ⟨hrest, hprunes, hvisited⟩ := Except.foldlM_eq_ok_visits
      (I := fun p : CTxMemPool => p.Sound hash known)
      (R := fun p p' : CTxMemPool => p'.Prunes ∅ p)
      (Q := fun i p => p.mapNextTx ⟨tx.getHash hash, UInt32.ofNat i⟩ = none)
      (Prunes.refl ∅) (fun hfirst hsecond => hsecond.trans hfirst)
      (fun hp hp' hprunes hnone =>
        hprunes.sub.mapNextTx_eq_none hp.toConsistent hp'.toConsistent hnone)
      (by
        intro now i next hnow hturn
        rcases hnow.withSpender_eq_ok hturn with
          ⟨hnone, rfl⟩ | ⟨inPoint, child, hspends, hchild, hremove⟩
        · exact ⟨hnow, .refl ∅ _, hnone⟩
        · have hremoved := ih hnow (hnow.within _ child hchild) hremove
          refine ⟨hremoved.sound, hremoved.prunes, ?_⟩
          refine hremoved.prunes.sub.mapNextTx_eq_none_of_removed hnow.toConsistent
            hremoved.sound.toConsistent hspends ?_
          rw [← hnow.getHash_eq _ child hchild]
          exact hremoved.mapTx_eq_none) h hloop
    have hchildless : rest.Childless hash tx := by
      intro n hn
      have hnone := hvisited n.toNat (List.mem_range.mpr hn)
      rwa [UInt32.ofNat_toNat] at hnone
    have hremoved := hrest.removed_erase_if hinj htx hchildless hif
    exact { hremoved with prunes := hremoved.prunes.trans hprunes }

/-- Neither a connected transaction nor anything that conflicts with it is in the pool. -/
structure Cleared (hash : Bytes → UInt256) (known : Set CTransaction) (tx : CTransaction)
    (pool pool' : CTxMemPool) : Prop where
  sound : pool'.Sound hash known
  prunes : pool'.Prunes {tx} pool
  mapTx_eq_none : pool'.mapTx (tx.getHash hash) = none
  unspent : ∀ txin ∈ tx.vin, pool'.mapNextTx txin.prevout = none

section

variable (hinj : Set.InjOn (getHash hash) known)
include hinj

theorem Sound.remove_single {depth : ℕ} (h : pool.Sound hash known) (htx : tx ∈ known)
    (hok : pool.remove hash depth tx false = .ok pool') :
    pool'.Sound hash known ∧ pool'.Prunes {tx} pool ∧ pool'.mapTx (tx.getHash hash) = none := by
  cases depth with
  | zero => cases hok
  | succ depth =>
    simp only [remove, Bool.false_eq_true, if_false, Except.bind_eq_ok_iff, Except.ok.injEq,
      exists_eq_left'] at hok
    split_ifs at hok with hin
    · obtain ⟨t, ht⟩ := Option.isSome_iff_exists.mp hin
      have hsame : t = tx := hinj (h.within _ t ht) htx (h.getHash_eq _ t ht)
      rw [hsame] at ht
      have hsub := sub_erase pool (tx.getHash hash) tx
      cases hok
      refine ⟨⟨h.toConsistent.erase ht, h.within.mono hsub⟩, ⟨hsub, ?_⟩, by simp [erase]⟩
      intro txid t' _ txin _ parent hparent _
      by_cases hne : txin.prevout.hash = tx.getHash hash
      · left
        rw [hne, ht, Option.some.injEq] at hparent
        exact hparent.symm
      · right
        simpa [erase, Function.update_of_ne hne] using hparent
    · cases hok
      exact ⟨h, .refl _ pool, by simpa using hin⟩

/-- The removal of conflicts with a transaction that is not in the pool itself. -/
theorem Sound.removeConflicts_unspent
    {depth : ℕ} (h : pool.Sound hash known) (hout : pool.mapTx (tx.getHash hash) = none)
    (hok : pool.removeConflicts hash depth tx = .ok pool') :
    pool'.Sound hash known ∧ pool'.Prunes ∅ pool ∧
      ∀ txin ∈ tx.vin, pool'.mapNextTx txin.prevout = none := by
  have hloop := Except.foldlM_eq_ok_visits
    (I := fun p : CTxMemPool => p.Sound hash known ∧ p.mapTx (tx.getHash hash) = none)
    (R := fun p p' : CTxMemPool => p'.Prunes ∅ p)
    (Q := fun (txin : CTxIn) p => p.mapNextTx txin.prevout = none)
    (Prunes.refl ∅) (fun hfirst hsecond => hsecond.trans hfirst)
    (fun hp hp' hprunes hnone =>
      hprunes.sub.mapNextTx_eq_none hp.1.toConsistent hp'.1.toConsistent hnone)
    (by
      rintro now txin next ⟨hnow, hnowOut⟩ hturn
      rcases hnow.withSpender_eq_ok hturn with
        ⟨hnone, rfl⟩ | ⟨inPoint, conflict, hspends, hconflict, hremove⟩
      · exact ⟨⟨hnow, hnowOut⟩, .refl ∅ _, hnone⟩
      · have hid := hnow.getHash_eq _ conflict hconflict
        have hne : conflict ≠ tx := by
          rintro rfl
          rw [hid, hconflict] at hnowOut
          cases hnowOut
        rw [if_pos hne] at hremove
        have hremoved := hnow.removed_of_remove hinj (hnow.within _ conflict hconflict) hremove
        refine ⟨⟨hremoved.sound, ?_⟩, hremoved.prunes, ?_⟩
        · cases hmap : next.mapTx (tx.getHash hash) with
          | none => rfl
          | some t =>
            rw [hremoved.prunes.sub _ t hmap] at hnowOut
            cases hnowOut
        · refine hremoved.prunes.sub.mapNextTx_eq_none_of_removed hnow.toConsistent
            hremoved.sound.toConsistent hspends ?_
          rw [← hid]
          exact hremoved.mapTx_eq_none) ⟨h, hout⟩ hok
  exact ⟨hloop.1.1, hloop.2⟩

theorem Sound.cleared {depth : ℕ} {mid : CTxMemPool} (h : pool.Sound hash known) (htx : tx ∈ known)
    (hremove : pool.remove hash depth tx false = .ok mid)
    (hconflicts : mid.removeConflicts hash depth tx = .ok pool') :
    Cleared hash known tx pool pool' := by
  obtain ⟨hmid, hprunes, hout⟩ := h.remove_single hinj htx hremove
  obtain ⟨hsound, hprunes', hunspent⟩ := hmid.removeConflicts_unspent hinj hout hconflicts
  refine ⟨hsound, (hprunes'.mono (Set.empty_subset _)).trans hprunes, ?_, hunspent⟩
  cases hmap : pool'.mapTx (tx.getHash hash) with
  | none => rfl
  | some t =>
    rw [hprunes'.sub _ t hmap] at hout
    cases hout

end

end Remove

end CTxMemPool

end Primecoin
