import Primecoin.Pool.Consistent
import Primecoin.Wallet.CreateTransaction
import Primecoin.Wallet.Transactions

/-!
# Committing a transaction

`CommitTransaction` stores the transaction that `CreateTransaction` has returned, marks the coins
it spends, and only then offers it to the memory pool.

`CreateTransaction` refuses a payee whose amount is dust, for an ordinary output less than 0.546
cent; `CheckTransaction` refuses every output below a cent. For a payee in between coins are
marked spent and the transaction is refused.

`AcceptWalletTransaction` offers a stored transaction again, after those of `vtxPrev` it rests on.
Of these it offers the ones that the chain has, and never one that is missing.
-/

namespace Primecoin

open Stateful List CTxMemPool Function Except

def CWalletTx.null : CWalletTx where
  nVersion := 1
  vin := []
  vout := []
  nLockTime := 0
  hashBlock := 0
  vMerkleBranch := []
  nIndex := none
  fMerkleVerified := false
  vfSpent := []
  fFromMe := false

open CWalletTx

def CWalletTx.fromMe (tx : CTransaction) : CWalletTx :=
  { null with toCTransaction := tx, fFromMe := true }

/-- The loop body that marks old coins as spent; `mapWallet[hash]` makes a missing entry. -/
def markOldCoin (txin : CTxIn) : WalletM Unit := do
  let coin := ((← get) txin.prevout.hash).getD .null
  modify fun mapWallet => update mapWallet txin.prevout.hash (some coin)
  let coin ← lift (coin.markSpent txin.prevout.n)
  modify fun mapWallet => update mapWallet txin.prevout.hash (some coin)

def commitTransaction (context : WalletContext) (hash : Bytes → UInt256) (pool : CTxMemPool)
    (poolContext : PoolContext) (fWritten : Bool) (wtxNew : CWalletTx) :
    WalletM (Except Failure CTxMemPool) := do
  let _ ← context.addToWallet hash fWritten wtxNew
  wtxNew.vin.forM markOldCoin
  pure (pool.acceptToMemoryPool hash poolContext wtxNew.toCTransaction true false).1

/-! ### What is marked -/

section Marks

variable {s s' : WalletMap}

theorem markOldCoin_ok {txin : CTxIn} (h : (markOldCoin txin).run s = (.ok (), s')) :
    s'.isSpent txin.prevout = true ∧
      ∀ outpoint, s.isSpent outpoint = true → s'.isSpent outpoint = true := by
  rw [markOldCoin, run_get_bind, run_modify_bind] at h
  obtain ⟨coin, _, hrun, h⟩ := run_bind_eq_ok_iff.mp h
  obtain ⟨hmark, rfl⟩ := Prod.mk.inj hrun
  simp only [run_modify, update_idem] at h
  cases h
  obtain ⟨-, hflags⟩ := markSpent_ok hmark
  constructor
  · exact WalletMap.isSpent_iff.mpr ⟨coin, update_self .., (hflags _).mpr (.inr rfl)⟩
  · intro outpoint hspent
    obtain ⟨wtx, hwtx, hflag⟩ := WalletMap.isSpent_iff.mp hspent
    refine WalletMap.isSpent_iff.mpr ?_
    by_cases hkey : outpoint.hash = txin.prevout.hash
    · refine ⟨coin, by rw [hkey, update_self], (hflags _).mpr (.inl ?_)⟩
      rw [hkey] at hwtx
      rw [hwtx]
      exact hflag
    · exact ⟨wtx, by rw [update_of_ne hkey, hwtx], hflag⟩

/-- When `CommitTransaction` returns, every coin of the transaction is marked, whatever the pool
says; and it refuses a transaction that does not pass the check. -/
theorem commitTransaction_ok {context : WalletContext} {hash : Bytes → UInt256}
    {pool : CTxMemPool} {poolContext : PoolContext} {fWritten : Bool} {wtxNew : CWalletTx}
    {answer : Except Failure CTxMemPool}
    (h : (commitTransaction context hash pool poolContext fWritten wtxNew).run s =
      (.ok answer, s')) :
    (∀ txin ∈ wtxNew.vin, s'.isSpent txin.prevout = true) ∧
      (wtxNew.checkTransaction ≠ .ok () → ∃ failure, answer = .error failure) := by
  obtain ⟨_, mid, -, h⟩ := run_bind_eq_ok_iff.mp h
  obtain ⟨_, last, hmarks, h⟩ := run_bind_eq_ok_iff.mp h
  cases h
  constructor
  · obtain ⟨-, -, hall⟩ := forM_eq_ok_visits (I := fun _ => True)
      (R := fun s s' : WalletMap => ∀ outpoint, s.isSpent outpoint = true →
        s'.isSpent outpoint = true)
      (Q := fun (txin : CTxIn) (s : WalletMap) => s.isSpent txin.prevout = true)
      (fun _ _ h => h) (fun h h' o ho => h' o (h o ho)) (fun _ _ hR hQ => hR _ hQ)
      (fun s txin _ s' _ hrun => ⟨trivial, (markOldCoin_ok hrun).2, (markOldCoin_ok hrun).1⟩)
      trivial hmarks
    exact hall
  · intro hcheck
    cases hform : wtxNew.checkTransaction with
    | ok u => exact absurd hform hcheck
    | error failure =>
      have hreject : acceptForm poolContext wtxNew.toCTransaction =
          .error failure := by
        rw [acceptForm, hform]
        rfl
      rw [acceptToMemoryPool, accept, hreject]
      split
      · exact ⟨_, rfl⟩
      · exact ⟨_, rfl⟩

end Marks

/-! ### What passes the check -/

namespace CWallet

variable {hash : Bytes → UInt256} {wallet : CWallet hash} {context : WalletContext}
  {nTransactionFee : Int64} {vecSend : List Payee} {wtxNew : CTransaction}
  {rounds : ℕ → CreateRound} {n : ℕ} {created : Created}

theorem subset_settleChange {round : CreateRound} {payees vout : List CTxOut} {c : ChangeAndFee}
    {nFeeRet : Int64} (h : settleChange round payees c = .ok (vout, nFeeRet)) : payees ⊆ vout := by
  rw [settleChange] at h
  split_ifs at h
  · cases hscript : round.scriptChange with
    | none =>
      rw [hscript] at h
      cases h
    | some scriptChange =>
      rw [hscript] at h
      dsimp only at h
      split_ifs at h
      · cases h
        exact Subset.refl _
      · cases h
        exact (sublist_insertIdx _ _ _).subset
  · cases h
    exact Subset.refl _

/-- Every payee is paid, whatever the amounts, the coins and the fee setting. -/
theorem payees_subset (h : wallet.createTransaction context nTransactionFee vecSend wtxNew rounds
    n = some (.ok created)) : vecSend.map Payee.txout ⊆ created.wtxNew.vout := by
  rw [createTransaction] at h
  cases hsum : sumAmounts vecSend 0 with
  | none =>
    rw [hsum] at h
    cases h
  | some nValue =>
    rw [hsum] at h
    dsimp only at h
    split_ifs at h
    · cases h
    · obtain ⟨k, nFeeRet, -, hround⟩ := Retry.exists_of_loop_eq_ok (fun _ => True)
        (fun _ _ _ _ _ => trivial) trivial h
      rw [createRound] at hround
      split_ifs at hround
      cases hselect : wallet.selectCoins context (nValue + nFeeRet) (rounds k).selection with
      | none =>
        rw [hselect] at hround
        cases hround
      | some selected =>
        rw [hselect] at hround
        obtain ⟨⟨vout, fee⟩, hsettle, hround⟩ := bind_eq_ok_iff.mp hround
        dsimp only at hround
        split at hround
        · cases hround
        · next tx hsign =>
            rw [checkFee] at hround
            split_ifs at hround
            · cases hround
            · cases hround
              rw [(signInputs_eq_some hsign).2]
              exact subset_settleChange hsettle

theorem isNull_outpoint {output : COutput} (h : output ∈ wallet.availableCoins context) :
    output.outpoint.isNull = false := by
  have hsize := wallet.vout_le _ _ (mem_availableCoins h).1
  have hn : output.outpoint.n ≠ 0xffffffff := by
    intro hn
    have hnat := congrArg UInt32.toNat hn
    rw [COutput.outpoint, UInt32.toNat_ofNat',
      Nat.mod_eq_of_lt (by simp only [maxSize] at hsize; omega)]
      at hnat
    change output.i.1 = 4294967295 at hnat
    simp only [maxSize] at hsize
    omega
  rw [COutPoint.isNull, decide_eq_false hn, Bool.and_false]

theorem checkTransaction_of_createTransaction (hamounts : AmountsInRange vecSend)
    (hcoins : totalWorth (wallet.availableCoins context) ≤ maxMoney.toInt)
    (hfees : FeeFits (sumOutputs (vecSend.map Payee.txout)) nTransactionFee)
    (h : wallet.createTransaction context nTransactionFee vecSend wtxNew rounds n =
      some (.ok created)) (hmin : ∀ payee ∈ vecSend, minTxOutAmount ≤ payee.2) :
    created.wtxNew.checkTransaction = .ok () := by
  have hmoney : maxMoney.toInt = 200000000000000000 := by decide
  obtain ⟨hsound, hsize, hne⟩ :=
    exists_round_of_createTransaction hamounts (by omega) hfees h
  obtain ⟨coins, hsubset, hnodup, hperm, hbalance⟩ := hsound.funded
  obtain ⟨change, hpays⟩ := hsound.pays
  have hamount : ∀ txout ∈ created.wtxNew.vout, 1000000 ≤ txout.nValue.toInt := by
    intro txout htxout
    have hle : minTxOutAmount ≤ txout.nValue := by
      rcases mem_append.mp (hpays.perm.subset htxout) with hmem | hmem
      · exact hpays.minTxOutAmount_le txout hmem
      · obtain ⟨payee, hpayee, rfl⟩ := mem_map.mp hmem
        exact hmin payee hpayee
    exact Int64.le_iff_toInt_le.mp hle
  have hvout : created.wtxNew.vout ≠ [] := by
    intro hnil
    have hsub := payees_subset h
    rw [hnil, subset_nil, map_eq_nil_iff] at hsub
    exact hne hsub
  have hfee : 0 ≤ created.nFeeRet.toInt := by
    have hle := Int64.le_iff_toInt_le.mp hsound.getMinFee_le
    rw [toInt_getMinFee hsize, cent_toInt] at hle
    omega
  have hworth : totalWorth coins ≤ totalWorth (wallet.availableCoins context) :=
    totalWorth_le_of_subset (fun output houtput => (mem_availableCoins houtput).2) hnodup hsubset
  have hpos : 0 < created.wtxNew.valueOut := by
    refine sum_pos _ (fun x hx => ?_) (by simpa using hvout)
    obtain ⟨txout, htxout, rfl⟩ := mem_map.mp hx
    have := hamount txout htxout
    omega
  refine CTransaction.checkTransaction_eq_ok ?_ hvout ?_ hamount (by omega)
    (hperm.nodup_iff.mpr hnodup) ?_
  · intro hvin
    rw [hvin, map_nil] at hperm
    rw [map_eq_nil_iff.mp hperm.nil_eq.symm] at hbalance
    change 0 = _ at hbalance
    omega
  · rw [maxStandardTxSize] at hsize
    rw [maxBlockSize]
    omega
  · intro txin htxin
    obtain ⟨output, houtput, heq⟩ :=
      mem_map.mp (hperm.subset (mem_map_of_mem htxin))
    rw [← heq]
    exact isNull_outpoint (hsubset houtput)

/-- A transaction that is returned passes the check only if no payee gets less than the minimum of
an output. This is enough for a wallet whose coins do not exceed the money there is. -/
theorem createTransaction_checked_iff (wallet : CWallet hash) (context : WalletContext)
    (nTransactionFee : Int64) (vecSend : List Payee) (wtxNew : CTransaction)
    (rounds : ℕ → CreateRound) (n : ℕ) (created : Created) (hamounts : AmountsInRange vecSend)
    (h : wallet.createTransaction context nTransactionFee vecSend wtxNew rounds n =
      some (.ok created)) :
    (created.wtxNew.checkTransaction = .ok () → ∀ payee ∈ vecSend, minTxOutAmount ≤ payee.2) ∧
    (totalWorth (wallet.availableCoins context) ≤ maxMoney.toInt →
      FeeFits (sumOutputs (vecSend.map Payee.txout)) nTransactionFee →
      (created.wtxNew.checkTransaction = .ok () ↔ ∀ payee ∈ vecSend, minTxOutAmount ≤ payee.2)) ∧
    ((¬ ∀ payee ∈ vecSend, minTxOutAmount ≤ payee.2) → ∀ pool poolContext fWritten s answer s',
        (commitTransaction context hash pool poolContext fWritten (.fromMe created.wtxNew)).run s =
          (.ok answer, s') →
        (∀ txin ∈ created.wtxNew.vin, s'.isSpent txin.prevout = true) ∧
          ∃ failure, answer = .error failure) := by
  have honly : created.wtxNew.checkTransaction = .ok () →
      ∀ payee ∈ vecSend, minTxOutAmount ≤ payee.2 := by
    intro hcheck payee hpayee
    have hmem := payees_subset h (mem_map_of_mem hpayee)
    exact Int64.le_iff_toInt_le.mpr ((CTransaction.checkTransaction_ok hcheck).amount _ hmem).1
  refine ⟨honly, fun hcoins hfees => ⟨honly, ?_⟩, ?_⟩
  · exact checkTransaction_of_createTransaction hamounts hcoins hfees h
  · intro hsmall pool poolContext fWritten s answer s' hcommit
    obtain ⟨hmarked, hrefused⟩ := commitTransaction_ok hcommit
    exact ⟨hmarked, hrefused fun hcheck => hsmall (honly hcheck)⟩

end CWallet

namespace Sample

def pettyPayees : List Payee := [(payScript, 600000)]

def pettyPayment : CTransaction where
  nVersion := 1
  vin := [⟨⟨savingsHash, 0⟩, replicate 107 0, 0xffffffff⟩]
  vout := [⟨600000, payScript⟩, ⟨1400000, payScript⟩]
  nLockTime := 0

def pettyHash (bytes : Bytes) : UInt256 :=
  if bytes = pettyPayment.serialize then
    0xe3e182a049ae491d05c2e8ac0518f34792b92aa7472440fa29094c8565676947
  else savingsHash

theorem vout_savings_le : savings.vout.length ≤ maxSize := by decide

def pettyWallet : CWallet pettyHash := .single _ savings vout_savings_le

def pettyStored : WalletMap :=
  ((walletContext.addToWallet pettyHash true (.fromMe pettyPayment)).run pettyWallet.mapWallet).2

def pettyMarked : WalletMap :=
  (((fromMe pettyPayment).vin.forM markOldCoin).run pettyStored).2

end Sample

namespace CWallet

open Sample

theorem createTransaction_checked_twoCents :
    ∃ created, savingsWallet.createTransaction walletContext 0 twoCents emptyTx
        (fun _ => Sample.createRound) 2 = some (.ok created) ∧
      (created.wtxNew.checkTransaction = .ok () ↔
        ∀ payee ∈ twoCents, minTxOutAmount ≤ payee.2) := by
  obtain ⟨created, hrun, -⟩ := exists_created (p := fun _ => true)
    (show (savingsWallet.createTransaction walletContext 0 twoCents emptyTx
      (fun _ => Sample.createRound) 2).any _ = true by decide +kernel)
  have h := createTransaction_checked_iff savingsWallet walletContext 0 twoCents emptyTx
    (fun _ => Sample.createRound) 2 created ⟨by decide, by decide⟩ hrun
  exact ⟨created, hrun, h.2.1 (by decide) ⟨by decide, by decide⟩⟩

/-- Six tenths of a cent do not: the coin is marked spent and the payment refused. -/
theorem pettyPayment_refused : AmountsInRange pettyPayees ∧
    pettyWallet.createTransaction walletContext 0 pettyPayees emptyTx
      (fun _ => Sample.createRound) 2 = some (.ok ⟨pettyPayment, cent⟩) ∧
    pettyPayment.checkTransaction =
      .error (.dos 100 "CTransaction::CheckTransaction() : txout.nValue below minimum" false) ∧
    ∀ pool poolContext, (commitTransaction walletContext pettyHash pool poolContext true
          (.fromMe pettyPayment)).run pettyWallet.mapWallet =
        (.ok (.error (.dos 100 "CTransaction::CheckTransaction() : txout.nValue below minimum"
          false)), pettyMarked) ∧
      pettyMarked.isSpent ⟨savingsHash, 0⟩ = true := by
  have hcheck : pettyPayment.checkTransaction =
      .error (.dos 100 "CTransaction::CheckTransaction() : txout.nValue below minimum" false) := by
    rfl
  refine ⟨⟨by decide, by decide⟩, ?_, hcheck, fun pool poolContext => ⟨?_, by decide +kernel⟩⟩
  · obtain ⟨created, hrun, heq⟩ := exists_created (p := fun created => decide
      (created = ⟨pettyPayment, cent⟩))
      (show (pettyWallet.createTransaction walletContext 0 pettyPayees emptyTx
        (fun _ => Sample.createRound) 2).any _ = true by decide +kernel)
    rw [hrun, of_decide_eq_true heq]
  · have hanswer : (pool.acceptToMemoryPool pettyHash poolContext pettyPayment true false).1 =
        .error (.dos 100 "CTransaction::CheckTransaction() : txout.nValue below minimum" false) := by
      rw [acceptToMemoryPool, accept, acceptForm, hcheck]
      rfl
    have hadded : ((walletContext.addToWallet pettyHash true (.fromMe pettyPayment)).run
        pettyWallet.mapWallet).1.toOption.isSome = true := by decide +kernel
    have hlisted : (((fromMe pettyPayment).vin.forM markOldCoin).run
        pettyStored).1.toOption.isSome = true := by decide +kernel
    obtain ⟨_, hstored⟩ := exists_run_eq_ok hadded
    obtain ⟨_, hmarked⟩ := exists_run_eq_ok hlisted
    rw [← pettyStored] at hstored
    rw [← pettyMarked] at hmarked
    rw [commitTransaction, run_bind_of_ok hstored, run_bind_of_ok hmarked, run_pure]
    exact congrArg (fun answer => (ok answer, pettyMarked)) hanswer

end CWallet

/-! ### The transactions a payment rests on -/

section Supporting

variable (hash : Bytes → UInt256) (context : PoolContext) (fCheckInputs : Bool)

def CMerkleTx.acceptToMemoryPool (fLimitFree : Bool) (pool : CTxMemPool) (mtx : CMerkleTx) :
    Except Failure (Bool × CTxMemPool) :=
  match (pool.acceptToMemoryPool hash context mtx.toCTransaction fCheckInputs fLimitFree).1 with
  | .ok pool => .ok (true, pool)
  | .error failure => if failure.isCrash then .error failure else .ok (false, pool)

variable (pool : CTxMemPool)

/-- The loop body over `vtxPrev`. It offers what `pcoinsTip` has. -/
def acceptSupporting (mtx : CMerkleTx) : Except Failure CTxMemPool :=
  if mtx.isCoinBase = false ∧ pool.mapTx (mtx.getHash hash) = none ∧
      context.pcoinsTip.haveCoins (mtx.getHash hash) = true then
    (mtx.acceptToMemoryPool hash context fCheckInputs false pool).map Prod.snd
  else .ok pool

def CWalletTx.acceptWalletTransaction (vtxPrev : List CMerkleTx)
    (wtx : CWalletTx) : Except Failure (Bool × CTxMemPool) :=
  vtxPrev.foldlM (acceptSupporting hash context fCheckInputs) pool >>= fun pool =>
    wtx.toCMerkleTx.acceptToMemoryPool hash context fCheckInputs false pool

def acceptAll (vtx : List CMerkleTx) : Except Failure CTxMemPool :=
  vtx.foldlM (fun pool mtx =>
    (pool.acceptToMemoryPool hash context mtx.toCTransaction fCheckInputs false).1) pool

variable {hash context fCheckInputs} {pool last : CTxMemPool} {vtxPrev : List CMerkleTx}
  {mtx : CMerkleTx} {wtx : CWalletTx}

/-- What neither the pool nor the chain has. -/
def missing (hash : Bytes → UInt256) (context : PoolContext) (pool : CTxMemPool)
    (vtxPrev : List CMerkleTx) : List CMerkleTx :=
  vtxPrev.filter fun mtx =>
    pool.mapTx (mtx.getHash hash) = none ∧ context.pcoinsTip.haveCoins (mtx.getHash hash) = false

theorem acceptToMemoryPool_of_haveCoins (pool : CTxMemPool) {tx : CTransaction} (fLimitFree : Bool)
    (h : context.pcoinsTip.haveCoins (tx.getHash hash) = true) :
    ∃ failure, (pool.acceptToMemoryPool hash context tx true fLimitFree).1 = .error failure ∧
      failure.isCrash = false := by
  have hview : (pool.coinsView context.pcoinsTip).haveCoins (tx.getHash hash) = true := by
    simp only [CCoinsView.haveCoins, coinsView, Option.isSome_or] at h ⊢
    rw [h, Bool.true_or]
  have haccept : ∃ failure, (pool.accept hash context tx true fLimitFree).1 = .error failure ∧
      failure.isCrash = false := by
    rw [accept]
    cases hform : acceptForm context tx with
    | error failure => exact ⟨failure, rfl, acceptForm_avoids context tx failure hform⟩
    | ok _ =>
      dsimp only
      rw [if_pos rfl, if_pos hview]
      split_ifs <;> exact ⟨_, rfl, rfl⟩
  rw [acceptToMemoryPool]
  split
  · exact ⟨_, rfl, rfl⟩
  · exact haccept

/-- A confirmed transaction is refused, so that the loop leaves the pool as it is. -/
theorem foldlM_acceptSupporting (hmode : fCheckInputs = true ∨
      ∀ mtx ∈ vtxPrev, context.pcoinsTip.haveCoins (mtx.getHash hash) = false) :
    vtxPrev.foldlM (acceptSupporting hash context fCheckInputs) pool = .ok pool := by
  obtain ⟨_, hloop, rfl⟩ := exists_foldlM_eq_ok (motive := (· = pool))
    (f := acceptSupporting hash context fCheckInputs) (l := vtxPrev) (fun now mtx hmtx hnow => by
      refine ⟨now, ?_, hnow⟩
      rw [acceptSupporting]
      split_ifs with hoffered
      · obtain rfl | hnone := hmode
        · obtain ⟨failure, hrefused, hcrash⟩ := acceptToMemoryPool_of_haveCoins
            now false hoffered.2.2
          rw [CMerkleTx.acceptToMemoryPool, hrefused]
          simp [hcrash, Except.map]
        · rw [hnone mtx hmtx] at hoffered
          exact absurd hoffered.2.2 Bool.false_ne_true
      · rfl) rfl
  exact hloop

theorem mapTx_acceptAll (h : acceptAll hash context fCheckInputs pool vtxPrev = .ok last)
    (hmtx : mtx ∈ vtxPrev) : last.mapTx (mtx.getHash hash) ≠ none := by
  have hstep : ∀ (now : CTxMemPool) (mtx : CMerkleTx) (next : CTxMemPool), True →
      (now.acceptToMemoryPool hash context mtx.toCTransaction fCheckInputs false).1 = .ok next →
      True ∧ (∀ txid, now.mapTx txid ≠ none → next.mapTx txid ≠ none) ∧
        next.mapTx (mtx.getHash hash) ≠ none := by
    intro now mtx next _ haccept
    obtain ⟨-, -, -, rfl⟩ := accept_ok (accept_of_acceptToMemoryPool haccept)
    refine ⟨trivial, fun txid htxid => ?_, ?_⟩
    · simp only [addUnchecked, update_apply]
      split_ifs
      · exact Option.some_ne_none _
      · exact htxid
    · simp only [addUnchecked, update_self]
      exact Option.some_ne_none _
  exact (foldlM_eq_ok_visits (fun _ _ => id)
    (fun h h' txid htxid => h' txid (h txid htxid)) (fun _ _ hkept => hkept _) hstep trivial
    h).2.2 mtx hmtx

/-- The missing transactions, which would be accepted one after the other, get into the pool with
the payment that rests on them only if there are none. Without input checks a confirmed
transaction would be put into the pool. -/
theorem acceptWalletTransaction_iff
    (hmode : fCheckInputs = true ∨
      ∀ mtx ∈ vtxPrev, context.pcoinsTip.haveCoins (mtx.getHash hash) = false)
    (hvalid : ∃ last, acceptAll hash context fCheckInputs pool
      (missing hash context pool vtxPrev ++ [wtx.toCMerkleTx]) = .ok last) :
    (∃ result, wtx.acceptWalletTransaction hash context fCheckInputs pool vtxPrev = .ok result ∧
      ∀ mtx ∈ missing hash context pool vtxPrev ++ [wtx.toCMerkleTx],
        result.2.mapTx (mtx.getHash hash) = some mtx.toCTransaction) ↔
      missing hash context pool vtxPrev = [] := by
  obtain ⟨last, hvalid⟩ := hvalid
  rw [acceptAll, foldlM_append, bind_eq_ok_iff] at hvalid
  obtain ⟨next, hsupport, htx⟩ := hvalid
  rw [foldlM_cons, bind_eq_ok_iff] at htx
  obtain ⟨_, htx, -⟩ := htx
  obtain ⟨-, hnew, -, rfl⟩ := accept_ok (accept_of_acceptToMemoryPool htx)
  rw [acceptWalletTransaction, foldlM_acceptSupporting hmode, ok_bind,
    CMerkleTx.acceptToMemoryPool]
  constructor
  · rintro ⟨result, hrun, hall⟩
    refine eq_nil_iff_forall_not_mem.mpr fun mtx hmtx => ?_
    have hother : mtx.getHash hash ≠ wtx.getHash hash := fun heq =>
      mapTx_acceptAll hsupport hmtx (heq ▸ hnew)
    have hsome := hall mtx (mem_append_left _ hmtx)
    have hnone : result.2.mapTx (mtx.getHash hash) = pool.mapTx (mtx.getHash hash) := by
      split at hrun
      · next haccept =>
          cases hrun
          obtain ⟨-, -, -, rfl⟩ := accept_ok (accept_of_acceptToMemoryPool haccept)
          exact update_of_ne hother ..
      · split_ifs at hrun
        cases hrun
        rfl
    rw [hnone, (of_decide_eq_true (mem_filter.mp hmtx).2).1] at hsome
    cases hsome
  · intro hmissing
    rw [hmissing] at hsupport
    cases hsupport
    refine ⟨(true, _), by rw [htx], fun mtx hmtx => ?_⟩
    rw [hmissing, nil_append, mem_singleton] at hmtx
    rw [hmtx]
    exact update_self ..

end Supporting

namespace Sample

def loose (tx : CTransaction) : CWalletTx := ⟨⟨tx, 0, [], none, false⟩, [], true⟩

/-- The parent is in a block. -/
def confirmedContext : PoolContext :=
  { poolContext with
    pcoinsTip := { view with
      coins := update view.coins (spending.getHash sha256d) (some (.ofTransaction spending 1)) } }

end Sample

open Sample

theorem acceptWalletTransaction_iff_confirmed :
    ∃ result, (loose chained).acceptWalletTransaction sha256d confirmedContext true .empty
        [(loose spending).toCMerkleTx] = .ok result ∧
      ∀ mtx ∈ missing sha256d confirmedContext .empty [(loose spending).toCMerkleTx] ++
          [(loose chained).toCMerkleTx],
        result.2.mapTx (mtx.getHash sha256d) = some mtx.toCTransaction :=
  (acceptWalletTransaction_iff (.inl rfl) ⟨_, rfl⟩).mpr (by decide)

/-- A child is refused because its parent, which is in no block, is not offered. -/
theorem acceptWalletTransaction_chained : (acceptAll sha256d poolContext true .empty
      [(loose spending).toCMerkleTx, (loose chained).toCMerkleTx]).isOk = true ∧
    ((loose chained).acceptWalletTransaction sha256d poolContext true .empty
      [(loose spending).toCMerkleTx]).toOption.map (fun result => (result.1,
        result.2.mapTx (spending.getHash sha256d), result.2.mapTx (chained.getHash sha256d))) =
      some (false, none, none) := by
  decide

end Primecoin
