import Primecoin.Wallet.Amounts

/-!
# What the amounts do not depend on

Flagging outputs and logging a credit, as `WalletUpdateSpent` does, leaves the debits and changes
remembered as they are and keeps the credits right.

Without what the transactions remember the wallet is the one of `Wallet/Transactions`: a credit
that is remembered is the one that would be computed, so the same calls throw.
-/

namespace Primecoin

open Stateful Function CachedTx Option

/-! ### What a call leaves as it is -/

namespace CachedTx

variable {δ : Type} {context : AmountContext δ} {isMine : CTxOut → Bool} {wtx wtx' wtx'' : CachedTx}

structure Touched (isMine : CTxOut → Bool) (wtx wtx' : CachedTx) : Prop where
  tx : wtx'.toCTransaction = wtx.toCTransaction
  nDebitCached : wtx'.nDebitCached = wtx.nDebitCached
  nChangeCached : wtx'.nChangeCached = wtx.nChangeCached
  credits : wtx.CreditsFresh isMine → wtx'.CreditsFresh isMine

namespace Touched

theorem refl (wtx : CachedTx) : Touched isMine wtx wtx := ⟨rfl, rfl, rfl, id⟩

theorem trans (h : Touched isMine wtx wtx') (h' : Touched isMine wtx' wtx'') :
    Touched isMine wtx wtx'' :=
  ⟨h'.tx.trans h.tx, h'.nDebitCached.trans h.nDebitCached,
    h'.nChangeCached.trans h.nChangeCached, fun hfresh => h'.credits (h.credits hfresh)⟩

end Touched

theorem availableLoop_congr {wtx wtx' : CWalletTx} (htx : wtx'.toCTransaction = wtx.toCTransaction)
    (hspent : ∀ i < wtx.vout.length, wtx'.spent i = wtx.spent i) :
    availableLoop isMine wtx' = availableLoop isMine wtx := by
  have hfilter : wtx.vout.zipIdx.filter (fun entry => !wtx'.spent entry.2) =
      wtx.vout.zipIdx.filter (fun entry => !wtx.spent entry.2) := by
    refine List.filter_congr fun entry hentry => ?_
    rw [hspent entry.2 (by simpa using (List.mem_zipIdx hentry).2.1)]
  rw [availableLoop, availableLoop, htx, hfilter]

theorem getCredit_touched (context : AmountContext δ) (wtx : CachedTx) (fUseCache : Bool) :
    Touched context.isMine wtx (wtx.getCredit context fUseCache).2 := by
  simp only [getCredit]
  split_ifs
  · exact .refl wtx
  · exact ⟨rfl, rfl, rfl, fun h => ⟨h.credit.ask_snd fUseCache, h.available⟩⟩

theorem markSpent_touched {nOut : UInt32} (h : wtx.markSpent nOut = .ok wtx') :
    Touched isMine wtx wtx' := by
  obtain ⟨marked, hmark, h⟩ := Except.bind_eq_ok_iff.mp h
  cases h
  obtain ⟨htx, hflags⟩ := CWalletTx.markSpent_ok hmark
  refine ⟨htx, rfl, rfl, fun hfresh => ⟨?_, ?_⟩⟩
  · change Memo.Fresh wtx.nCreditCached (creditLoop isMine marked.vout 0)
    rw [htx]
    exact hfresh.credit
  · change Memo.Fresh (if wtx.spent nOut.toNat then wtx.nAvailableCreditCached else none)
      (availableLoop isMine marked)
    split_ifs with hspent
    · have hsame : ∀ i < wtx.vout.length, marked.spent i = wtx.spent i := by
        intro i hi
        have hlen : marked.vout.length = wtx.vout.length := by rw [htx]
        have hflag := hflags i
        rw [CWalletTx.Flagged, CWalletTx.Flagged, hlen, and_iff_right hi, and_iff_right hi] at hflag
        rw [Bool.eq_iff_iff, hflag]
        refine or_iff_left_of_imp ?_
        rintro rfl
        exact hspent
      rw [availableLoop_congr htx hsame]
      exact hfresh.available
    · exact Memo.fresh_none

theorem updateSpent_touched (wtx : CachedTx) (vfNewSpent : List Bool) :
    Touched isMine wtx (wtx.updateSpent vfNewSpent) := by
  refine ⟨rfl, rfl, rfl, fun hfresh => ⟨hfresh.credit, ?_⟩⟩
  simp only [updateSpent]
  split_ifs with hsame
  · rw [hsame]
    exact hfresh.available
  · exact Memo.fresh_none

end CachedTx

namespace CachingWallet

variable {δ : Type} {context : AmountContext δ} {isMine : CTxOut → Bool}
  {s s' s'' : CachingWallet δ} {key : UInt256} {wtx wtx' : CachedTx}

structure Touches (isMine : CTxOut → Bool) (s s' : CachingWallet δ) : Prop where
  mapAddressBook : s'.mapAddressBook = s.mapAddressBook
  entry : ∀ key, Rel (Touched isMine) (s.mapWallet key) (s'.mapWallet key)

namespace Touches

theorem refl (s : CachingWallet δ) : Touches isMine s s := by
  refine ⟨rfl, fun key => ?_⟩
  cases s.mapWallet key with
  | none => exact .none
  | some wtx => exact .some (.refl wtx)

theorem trans (h : Touches isMine s s') (h' : Touches isMine s' s'') : Touches isMine s s'' := by
  refine ⟨h'.mapAddressBook.trans h.mapAddressBook, fun key => ?_⟩
  have hfirst := h.entry key
  have hsecond := h'.entry key
  generalize s.mapWallet key = old at hfirst
  generalize s'.mapWallet key = mid at hfirst hsecond
  generalize s''.mapWallet key = new at hsecond
  cases hfirst with
  | none =>
    cases hsecond with
    | none => exact .none
  | some hold =>
    cases hsecond with
    | some hnew => exact .some (hold.trans hnew)

theorem put (hwtx : s.mapWallet key = some wtx) (h : wtx.Touched isMine wtx') :
    Touches isMine s (s.put key wtx') := by
  refine ⟨rfl, fun other => ?_⟩
  rw [CachingWallet.put]
  dsimp only
  by_cases hother : other = key
  · subst hother
    rw [hwtx, update_self]
    exact .some h
  · rw [update_of_ne hother]
    exact (refl s).entry other

section

variable (h : Touches isMine s s')
include h

theorem exists_of_eq_some (hwtx : s'.mapWallet key = some wtx') :
    ∃ wtx, s.mapWallet key = some wtx ∧ wtx.Touched isMine wtx' := by
  have hentry := h.entry key
  rw [hwtx] at hentry
  generalize s.mapWallet key = old at hentry
  cases hentry with
  | some htouched => exact ⟨_, rfl, htouched⟩

theorem exists_eq_some (hwtx : s.mapWallet key = some wtx) :
    ∃ wtx', s'.mapWallet key = some wtx' ∧ wtx.Touched isMine wtx' := by
  have hentry := h.entry key
  rw [hwtx] at hentry
  generalize s'.mapWallet key = new at hentry
  cases hentry with
  | some htouched => exact ⟨_, rfl, htouched⟩

theorem vout_forget (key : UInt256) :
    (s'.forget key).map (·.vout) = (s.forget key).map (·.vout) := by
  have hentry := h.entry key
  rw [forget, forget]
  generalize s.mapWallet key = old at hentry
  generalize s'.mapWallet key = new at hentry
  cases hentry with
  | none => rfl
  | some htouched => exact congrArg (fun tx : CTransaction => some tx.vout) htouched.tx

theorem creditsFresh (hs : s.CreditsFresh isMine) : s'.CreditsFresh isMine := by
  intro key wtx' hwtx'
  obtain ⟨wtx, hwtx, htouched⟩ := h.exists_of_eq_some hwtx'
  exact htouched.credits (hs key wtx hwtx)

end

end Touches

end CachingWallet

section Shares

variable {δ : Type} {context : AmountContext δ} {s s' : CachingWallet δ} {wtx wtx' : CachedTx}

theorem CachedTx.SharesFresh.congr (h : wtx.SharesFresh context s)
    (hbook : s'.mapAddressBook = s.mapAddressBook)
    (hvout : ∀ key, (s'.forget key).map (·.vout) = (s.forget key).map (·.vout)) :
    wtx.SharesFresh context s' := by
  have hdebit : debitOf context.isMine s'.forget = debitOf context.isMine s.forget :=
    debitOf_congr hvout
  refine ⟨fun hvin => ?_, ?_⟩
  · rw [debitLoop_congr fun txin _ => congrFun hdebit txin]
    exact h.debit hvin
  · rw [hbook]
    exact h.change

theorem CachedTx.Touched.sharesFresh_iff {isMine : CTxOut → Bool} (h : wtx.Touched isMine wtx')
    (hwallet : CachingWallet.Touches isMine s s') :
    wtx'.SharesFresh context s' ↔ wtx.SharesFresh context s := by
  constructor
  · intro hfresh
    have hold := hfresh.congr hwallet.mapAddressBook.symm fun key => (hwallet.vout_forget key).symm
    have hdebit := hold.debit
    have hchange := hold.change
    rw [h.tx, h.nDebitCached] at hdebit
    rw [h.tx, h.nChangeCached] at hchange
    exact ⟨hdebit, hchange⟩
  · intro hfresh
    have hnew := hfresh.congr hwallet.mapAddressBook hwallet.vout_forget
    refine ⟨?_, ?_⟩
    · rw [h.tx, h.nDebitCached]
      exact hnew.debit
    · rw [h.tx, h.nChangeCached]
      exact hnew.change

end Shares

namespace CachingWallet

variable {δ : Type} {context : AmountContext δ} {isMine : CTxOut → Bool}
  {s s' s'' : CachingWallet δ} {key : UInt256} {wtx wtx' : CachedTx}

theorem Touches.sharesFresh_iff (h : Touches isMine s s') :
    s'.SharesFresh context ↔ s.SharesFresh context := by
  constructor
  · intro hs' key wtx hwtx
    obtain ⟨wtx', hwtx', htouched⟩ := h.exists_eq_some hwtx
    exact (htouched.sharesFresh_iff h).mp (hs' key wtx' hwtx')
  · intro hs key wtx' hwtx'
    obtain ⟨wtx, hwtx, htouched⟩ := h.exists_of_eq_some hwtx'
    exact (htouched.sharesFresh_iff h).mpr (hs key wtx hwtx)

theorem Touches.fresh (h : Touches context.isMine s s') (hs : s.Fresh context) : s'.Fresh context :=
  ⟨h.creditsFresh hs.credits, h.sharesFresh_iff.mpr hs.shares⟩

theorem mapWallet_put_self (s : CachingWallet δ) (key : UInt256) (wtx : CachedTx) :
    (s.put key wtx).mapWallet key = some wtx := update_self ..

theorem updateSpentInput_touches (context : AmountContext δ) (txin : CTxIn) :
    Moves (Touches context.isMine) (updateSpentInput context txin) := by
  intro s
  rw [updateSpentInput, run_get_bind]
  cases hwtx : s.mapWallet txin.prevout.hash with
  | none => exact .refl s
  | some wtx =>
    dsimp only
    cases wtx.vout[txin.prevout.n.toNat]? with
    | none => exact .refl s
    | some txout =>
      dsimp only
      split_ifs
      · have hcredit := Touches.put hwtx (getCredit_touched context wtx true)
        rw [run_modify_bind]
        cases hask : (wtx.getCredit context true).1 with
        | error e =>
          rw [run_lift_bind_of_error rfl]
          exact hcredit
        | ok nCredit =>
          rw [run_lift_bind_of_ok rfl]
          cases hmark : (wtx.getCredit context true).2.markSpent txin.prevout.n with
          | error e =>
            rw [run_lift_bind_of_error rfl]
            exact hcredit
          | ok wtx' =>
            rw [run_lift_bind_of_ok rfl, run_modify]
            exact hcredit.trans (.put (mapWallet_put_self ..) (markSpent_touched hmark))
      · exact .refl s

theorem walletUpdateSpent_touches (context : AmountContext δ) (tx : CTransaction) :
    Moves (Touches context.isMine) (walletUpdateSpent context tx) :=
  .forM Touches.refl Touches.trans (updateSpentInput_touches context)

end CachingWallet

/-! ### The wallet without what it remembers -/

namespace CachingWallet

variable {δ : Type} {context : AmountContext δ} {s : CachingWallet δ}

theorem forget_put (s : CachingWallet δ) (key : UInt256) (wtx : CachedTx) :
    (s.put key wtx).forget = Function.update s.forget key (some wtx.toCWalletTx) := by
  funext other
  rw [forget, put]
  dsimp only
  by_cases hother : other = key
  · subst hother
    rw [update_self, update_self, map_some]
  · rw [update_of_ne hother, update_of_ne hother, forget]

theorem getCredit_fst_of_fresh {wtx : CachedTx} (h : wtx.CreditsFresh context.isMine) :
    (wtx.getCredit context true).1 = context.getCredit wtx.toCWalletTx := by
  simp only [getCredit, WalletContext.getCredit]
  split_ifs
  · rfl
  · exact h.credit.ask_fst true

theorem getCredit_snd (context : AmountContext δ) (wtx : CachedTx) :
    (wtx.getCredit context true).2.toCWalletTx = wtx.toCWalletTx := by
  simp only [getCredit]
  split_ifs <;> rfl

theorem map_markSpent (wtx : CachedTx) (nOut : UInt32) :
    toCWalletTx <$> wtx.markSpent nOut = wtx.toCWalletTx.markSpent nOut := by
  rw [markSpent]
  cases wtx.toCWalletTx.markSpent nOut <;> rfl

theorem forget_updateSpentInput (hs : s.CreditsFresh context.isMine) (txin : CTxIn) :
    (context.updateSpentInput txin).run s.forget = (((updateSpentInput context txin).run s).1,
        ((updateSpentInput context txin).run s).2.forget) := by
  rw [WalletContext.updateSpentInput, updateSpentInput, run_get_bind, run_get_bind]
  cases hwtx : s.mapWallet txin.prevout.hash with
  | none =>
    have hforget : s.forget txin.prevout.hash = none := by rw [forget, hwtx, map_none]
    rw [hforget]
    rfl
  | some wtx =>
    have hforget : s.forget txin.prevout.hash = some wtx.toCWalletTx := by
      rw [forget, hwtx, map_some]
    have hput : (s.put txin.prevout.hash (wtx.getCredit context true).2).forget = s.forget := by
      rw [forget_put, getCredit_snd, ← hforget, update_eq_self]
    rw [hforget]
    dsimp only
    cases wtx.vout[txin.prevout.n.toNat]? with
    | none => rfl
    | some txout =>
      dsimp only
      split_ifs
      · rw [run_modify_bind, ← getCredit_fst_of_fresh (hs _ wtx hwtx)]
        cases (wtx.getCredit context true).1 with
        | error e =>
          rw [run_lift_bind_of_error rfl, run_lift_bind_of_error rfl, hput]
        | ok nCredit =>
          rw [run_lift_bind_of_ok rfl, run_lift_bind_of_ok rfl, ← getCredit_snd context wtx,
            ← map_markSpent]
          cases (wtx.getCredit context true).2.markSpent txin.prevout.n with
          | error e =>
            rw [Except.map_error, run_lift_bind_of_error rfl, run_lift_bind_of_error rfl, hput]
          | ok marked =>
            rw [Except.map_ok, run_lift_bind_of_ok rfl, run_lift_bind_of_ok rfl,
              run_modify, run_modify, forget_put, hput]
      · rfl

theorem forget_forM_updateSpentInput (hs : s.CreditsFresh context.isMine) (vin : List CTxIn) :
    (vin.forM context.updateSpentInput).run s.forget =
      (((vin.forM (updateSpentInput context)).run s).1,
        ((vin.forM (updateSpentInput context)).run s).2.forget) := by
  induction vin generalizing s with
  | nil => rfl
  | cons txin vin ih =>
    refine run_bind_of_shows (forget_updateSpentInput hs txin) fun _ s' hrun => ih ?_
    have hnext := (updateSpentInput_touches context txin s).creditsFresh hs
    rw [hrun] at hnext
    exact hnext

section Add

variable [DecidableEq δ]

theorem forget_replaceDefaultKey (context : AmountContext δ)
    (getKeyFromPool : ℕ → Option (δ × Bool)) (vout : List CTxOut) (s : CachingWallet δ) :
    (replaceDefaultKey context getKeyFromPool vout s).forget = s.forget := by
  rw [replaceDefaultKey]
  split <;> rfl

variable (hash : Bytes → UInt256) (fWritten : Bool) (getKeyFromPool : ℕ → Option (δ × Bool))

theorem forget_addToWallet (hs : s.CreditsFresh context.isMine) (wtxIn : CachedTx) :
    (context.addToWallet hash fWritten wtxIn.toCWalletTx).run s.forget =
      (((addToWallet context hash fWritten getKeyFromPool wtxIn).run s).1,
        ((addToWallet context hash fWritten getKeyFromPool wtxIn).run s).2.forget) := by
  have hfound : s.forget (wtxIn.getHash hash) =
      (s.mapWallet (wtxIn.getHash hash)).map toCWalletTx := rfl
  rw [WalletContext.addToWallet, addToWallet, run_get_bind, run_get_bind, hfound, inserted]
  rcases CWalletTx.inserted ((s.mapWallet (wtxIn.getHash hash)).map toCWalletTx)
    wtxIn.toCWalletTx with ⟨wtx, fWrite⟩
  have hcredits : (s.put (wtxIn.getHash hash) ⟨wtx, none, none, none, none⟩).CreditsFresh
      context.isMine := by
    intro key entry hentry
    by_cases hkey : key = wtxIn.getHash hash
    · subst hkey
      cases (mapWallet_put_self ..).symm.trans hentry
      exact ⟨Memo.fresh_none, Memo.fresh_none⟩
    · exact hs key entry ((update_of_ne hkey ..).symm.trans hentry)
  have hreplaced : (replaceDefaultKey context getKeyFromPool wtx.vout
      (s.put (wtxIn.getHash hash) ⟨wtx, none, none, none, none⟩)).CreditsFresh context.isMine := by
    rw [replaceDefaultKey]
    split
    · exact hcredits
    · exact hcredits
  rw [run_modify_bind, run_modify_bind]
  cases fWrite && !fWritten with
  | true =>
    rw [if_pos rfl, if_pos rfl, run_pure, run_pure, forget_put]
  | false =>
    have hupdate := forget_forM_updateSpentInput hreplaced wtx.vin
    have hshown := (forget_replaceDefaultKey context getKeyFromPool wtx.vout _).trans
      (forget_put s (wtxIn.getHash hash) ⟨wtx, none, none, none, none⟩)
    rw [if_neg Bool.false_ne_true, if_neg Bool.false_ne_true, run_modify_bind, ← hshown]
    exact run_bind_of_shows hupdate fun _ _ _ => rfl

/-- With the caches forgotten the wallet is the one of `Wallet/Transactions`. -/
theorem forget_addToWalletIfInvolvingMe (hs : s.CreditsFresh context.isMine) (mtx : CMerkleTx)
    (fUpdate : Bool) :
    (context.toWalletContext.addToWalletIfInvolvingMe hash mtx fUpdate fWritten).run s.forget =
      (((addToWalletIfInvolvingMe context hash mtx fUpdate fWritten getKeyFromPool).run s).1,
        ((addToWalletIfInvolvingMe context hash mtx fUpdate fWritten
          getKeyFromPool).run s).2.forget) := by
  have hfound : (s.forget (mtx.getHash hash)).isSome = (s.mapWallet (mtx.getHash hash)).isSome := by
    rw [forget, isSome_map]
  have hadd := forget_addToWallet hash fWritten getKeyFromPool hs (.ofMerkleTx mtx)
  have hupdate := forget_forM_updateSpentInput hs mtx.vin
  rw [WalletContext.addToWalletIfInvolvingMe, addToWalletIfInvolvingMe, run_get_bind, run_get_bind]
  simp only [hfound]
  split_ifs with hskip hmine
  · rfl
  · have hinvolves : s.involvesMe context hash mtx = .ok true := by
      rw [involvesMe, if_pos hmine]
    rw [run_lift_bind_of_ok hinvolves]
    exact hadd
  · cases hdebit : debitLoop context.isMine s.forget mtx.vin 0 with
    | error e =>
      have hinvolves : s.involvesMe context hash mtx = .error e := by
        rw [involvesMe, if_neg hmine, hdebit]
        rfl
      rw [run_lift_bind_of_error rfl, run_lift_bind_of_error hinvolves]
    | ok nDebit =>
      have hinvolves : s.involvesMe context hash mtx = .ok (decide (0 < nDebit)) := by
        rw [involvesMe, if_neg hmine, hdebit]
        rfl
      rw [run_lift_bind_of_ok rfl, run_lift_bind_of_ok hinvolves]
      by_cases hpos : 0 < nDebit
      · rw [if_pos hpos, if_pos (decide_eq_true hpos)]
        exact hadd
      · rw [if_neg hpos, if_neg (by simpa using hpos)]
        exact run_bind_of_shows hupdate fun _ _ _ => rfl

end Add

end CachingWallet

end Primecoin
