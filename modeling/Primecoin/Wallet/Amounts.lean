import Primecoin.Data.Memo
import Primecoin.Wallet.Transactions

/-!
# The amounts of a wallet transaction

A wallet transaction remembers its debit, credit, available credit and change once it has been
asked for them. What changes an amount has to mark the transaction as dirty.

The debit is what the inputs spend of other transactions of the wallet, so it changes when one of
those is added; the change depends on the address book, to which `AddToWallet` adds the key that
replaces the default key. `AddToWallet` marks only the transaction it is given.
-/

namespace Primecoin

open Stateful Memo Option

/-- `CWalletTx` with the amounts that are cached. -/
structure CachedTx extends CWalletTx where
  nDebitCached : Option Int64
  nCreditCached : Option Int64
  nAvailableCreditCached : Option Int64
  nChangeCached : Option Int64
  deriving DecidableEq, Repr

open CachedTx

/-- `δ` is the type of addresses. The default key is there if it is valid, and stands for its
address. -/
structure CachingWallet (δ : Type) where
  mapWallet : UInt256 → Option CachedTx
  mapAddressBook : δ → Bool
  vchDefaultKey : Option δ

/-- What the keystore says of outputs and addresses. -/
structure AmountContext (δ : Type) extends WalletContext where
  extractDestination : CScript → Option δ
  isMineAddress : δ → Bool
  scriptFor : δ → CScript

def AmountContext.atDepth {δ : Type} (context : AmountContext δ)
    (getDepthInMainChain : CWalletTx → Int32) : AmountContext δ :=
  { context with getDepthInMainChain := getDepthInMainChain }

abbrev CachingM (δ : Type) := Stateful (CachingWallet δ) Failure

section Loops

variable (rangeMessage sumMessage : String) (counts : CTxOut → Bool)

def countedValue (txout : CTxOut) : Int64 := if counts txout then txout.nValue else 0

/-- The sum of the values of the outputs that count, checked after each. -/
def outputLoop : List CTxOut → Int64 → Except Failure Int64
  | [], nSum => .ok nSum
  | txout :: vout, nSum =>
    if !moneyRange txout.nValue then .error (.exception rangeMessage)
    else
      let nSum := nSum + countedValue counts txout
      if !moneyRange nSum then .error (.exception sumMessage)
      else outputLoop vout nSum

def changeLoop : List CTxOut → Int64 → Except Failure Int64 :=
  outputLoop "CWallet::GetChange() : value out of range"
    "CWallet::GetChange() : value out of range" counts

end Loops

def AmountContext.isChange {δ : Type} (context : AmountContext δ) (mapAddressBook : δ → Bool)
    (txout : CTxOut) : Bool :=
  match context.extractDestination txout.scriptPubKey with
  | none => false
  | some address => context.isMineAddress address && !mapAddressBook address

namespace CachedTx

def availableLoop (isMine : CTxOut → Bool) (wtx : CWalletTx) : Except Failure Int64 :=
  outputLoop "CWallet::GetCredit() : value out of range"
    "CWalletTx::GetAvailableCredit() : value out of range" isMine
    ((wtx.vout.zipIdx.filter fun entry => !wtx.spent entry.2).map Prod.fst) 0

variable (wtx : CachedTx)

def markDirty : CachedTx :=
  { wtx with
    nDebitCached := none
    nCreditCached := none
    nAvailableCreditCached := none
    nChangeCached := none }

def markSpent (nOut : UInt32) : Except Failure CachedTx := do
  let marked ← wtx.toCWalletTx.markSpent nOut
  pure { wtx with
    toCWalletTx := marked
    nAvailableCreditCached :=
      if wtx.spent nOut.toNat then wtx.nAvailableCreditCached else none }

def updateSpent (vfNewSpent : List Bool) : CachedTx :=
  let vfSpent := CWalletTx.mergeSpent wtx.vfSpent vfNewSpent
  { wtx with
    vfSpent := vfSpent
    nAvailableCreditCached := if vfSpent = wtx.vfSpent then wtx.nAvailableCreditCached else none }

def inserted (found : Option CachedTx) (wtxIn : CachedTx) : CachedTx × Bool :=
  let (wtx, fWrite) := CWalletTx.inserted (found.map toCWalletTx) wtxIn.toCWalletTx
  (⟨wtx, none, none, none, none⟩, fWrite)

def ofMerkleTx (mtx : CMerkleTx) : CachedTx := ⟨.ofMerkleTx mtx, none, none, none, none⟩

section Amounts

variable {δ : Type} (context : AmountContext δ) (wtx : CachedTx)

def getDebit (mapWallet : WalletMap) : Except Failure Int64 × CachedTx :=
  if wtx.vin = [] then (.ok 0, wtx)
  else
    let (nDebit, nDebitCached) :=
      ask true wtx.nDebitCached (debitLoop context.isMine mapWallet wtx.vin 0)
    (nDebit, { wtx with nDebitCached := nDebitCached })

def getCredit (fUseCache : Bool) : Except Failure Int64 × CachedTx :=
  if wtx.isCoinBase ∧ 0 < context.getBlocksToMaturity wtx.toCWalletTx then (.ok 0, wtx)
  else
    let (nCredit, nCreditCached) :=
      ask fUseCache wtx.nCreditCached (creditLoop context.isMine wtx.vout 0)
    (nCredit, { wtx with nCreditCached := nCreditCached })

def getAvailableCredit (fUseCache : Bool) : Except Failure Int64 × CachedTx :=
  if wtx.isCoinBase ∧ 0 < context.getBlocksToMaturity wtx.toCWalletTx then (.ok 0, wtx)
  else
    let (nCredit, nAvailableCreditCached) :=
      ask fUseCache wtx.nAvailableCreditCached (availableLoop context.isMine wtx.toCWalletTx)
    (nCredit, { wtx with nAvailableCreditCached := nAvailableCreditCached })

def getChange (mapAddressBook : δ → Bool) : Except Failure Int64 × CachedTx :=
  let (nChange, nChangeCached) :=
    ask true wtx.nChangeCached (changeLoop (context.isChange mapAddressBook) wtx.vout 0)
  (nChange, { wtx with nChangeCached := nChangeCached })

end Amounts

end CachedTx

/-- The amounts a wallet transaction can be asked for. -/
inductive Amount
  | debit
  | credit (fUseCache : Bool)
  | availableCredit (fUseCache : Bool)
  | change
  deriving DecidableEq, Repr

namespace CachingWallet

variable {δ : Type} (s : CachingWallet δ)

def forget : WalletMap := fun key =>
  (s.mapWallet key).map toCWalletTx

def put (key : UInt256) (wtx : CachedTx) (s : CachingWallet δ) : CachingWallet δ :=
  { s with mapWallet := Function.update s.mapWallet key (some wtx) }

def markDirty : CachingWallet δ :=
  { s with mapWallet := fun key => (s.mapWallet key).map CachedTx.markDirty }

variable (context : AmountContext δ)

/-- What the transaction answers, with the entry afterwards. -/
def amountOf (s : CachingWallet δ) (wtx : CachedTx) : Amount → Except Failure Int64 × CachedTx
  | .debit => wtx.getDebit context s.forget
  | .credit fUseCache => wtx.getCredit context fUseCache
  | .availableCredit fUseCache => wtx.getAvailableCredit context fUseCache
  | .change => wtx.getChange context s.mapAddressBook

def ask (amount : Amount) (key : UInt256) : CachingM δ Int64 := do
  let s ← get
  match s.mapWallet key with
  | none => lift (.error (.fault "mapWallet.find(hash)"))
  | some wtx =>
    modify (put key (amountOf context s wtx amount).2)
    lift (amountOf context s wtx amount).1

/-- The loop body of `WalletUpdateSpent`, which logs the credit. -/
def updateSpentInput (txin : CTxIn) : CachingM δ Unit := do
  match (← get).mapWallet txin.prevout.hash with
  | none => pure ()
  | some wtx =>
    match wtx.vout[txin.prevout.n.toNat]? with
    | none => pure ()
    | some txout =>
      if !wtx.spent txin.prevout.n.toNat && context.isMine txout then
        modify (put txin.prevout.hash (wtx.getCredit context true).2)
        let _ ← lift (wtx.getCredit context true).1
        let wtx ← lift ((wtx.getCredit context true).2.markSpent txin.prevout.n)
        modify (put txin.prevout.hash wtx)
      else pure ()

def walletUpdateSpent (tx : CTransaction) : CachingM δ Unit :=
  tx.vin.forM (updateSpentInput context)

/-- The loop that replaces the default key, with the addresses named in it and the default key
afterwards. `getKeyFromPool i` is what the pool gives when asked for the `i`-th time, and whether
the new default key can be written. -/
def replacements (script : CScript) (getKeyFromPool : ℕ → Option (δ × Bool)) :
    List CTxOut → ℕ → δ → List δ × δ
  | [], _, vchDefaultKey => ([], vchDefaultKey)
  | txout :: vout, i, vchDefaultKey =>
    if txout.scriptPubKey = script then
      match getKeyFromPool i with
      | none => replacements script getKeyFromPool vout (i + 1) vchDefaultKey
      | some (newDefaultKey, fWritten) =>
        let vchDefaultKey := if fWritten then newDefaultKey else vchDefaultKey
        let (named, last) := replacements script getKeyFromPool vout (i + 1) vchDefaultKey
        (vchDefaultKey :: named, last)
    else replacements script getKeyFromPool vout i vchDefaultKey

variable [DecidableEq δ] (context : AmountContext δ)

def replaceDefaultKey (getKeyFromPool : ℕ → Option (δ × Bool))
    (vout : List CTxOut) (s : CachingWallet δ) : CachingWallet δ :=
  match s.vchDefaultKey with
  | none => s
  | some vchDefaultKey =>
    let (named, last) :=
      replacements (context.scriptFor vchDefaultKey) getKeyFromPool vout 0 vchDefaultKey
    { s with
      vchDefaultKey := some last
      mapAddressBook := fun address => s.mapAddressBook address || decide (address ∈ named) }

variable (hash : Bytes → UInt256)

/-- `fWritten` is the result of `WriteToDisk`. -/
def addToWallet (fWritten : Bool)
    (getKeyFromPool : ℕ → Option (δ × Bool)) (wtxIn : CachedTx) : CachingM δ Bool := do
  let key := wtxIn.getHash hash
  let (wtx, fWrite) := inserted ((← get).mapWallet key) wtxIn
  modify (put key wtx)
  if fWrite && !fWritten then pure false
  else
    modify (replaceDefaultKey context getKeyFromPool wtx.vout)
    walletUpdateSpent context wtx.toCTransaction
    pure true

/-- The test of `AddToWalletIfInvolvingMe` on a transaction that is not skipped. -/
def involvesMe (mtx : CMerkleTx) (s : CachingWallet δ) : Except Failure Bool :=
  if (s.mapWallet (mtx.getHash hash)).isSome || mtx.vout.any context.isMine then .ok true
  else do
    let nDebit ← debitLoop context.isMine s.forget mtx.vin 0
    pure (decide (0 < nDebit))

def addToWalletIfInvolvingMe
    (mtx : CMerkleTx) (fUpdate fWritten : Bool) (getKeyFromPool : ℕ → Option (δ × Bool)) :
    CachingM δ Bool := do
  let s ← get
  if (s.mapWallet (mtx.getHash hash)).isSome && !fUpdate then pure false
  else
    if ← lift (s.involvesMe context hash mtx) then
      addToWallet context hash fWritten getKeyFromPool (.ofMerkleTx mtx)
    else
      walletUpdateSpent context mtx.toCTransaction
      pure false

end CachingWallet

inductive AmountCall (δ : Type)
  | addToWallet (wtxIn : CachedTx) (fWritten : Bool) (getKeyFromPool : ℕ → Option (δ × Bool))
      (getDepthInMainChain : CWalletTx → Int32)
  | addToWalletIfInvolvingMe (mtx : CMerkleTx) (fUpdate fWritten : Bool)
      (getKeyFromPool : ℕ → Option (δ × Bool)) (getDepthInMainChain : CWalletTx → Int32)
  | markSpent (key : UInt256) (nOut : UInt32)
  | updateSpent (key : UInt256) (vfNewSpent : List Bool)
  | markDirty (key : UInt256)
  | markAllDirty
  | ask (amount : Amount) (key : UInt256) (getDepthInMainChain : CWalletTx → Int32)

namespace CachingWallet

variable {δ : Type} [DecidableEq δ]

def change (f : CachedTx → CachedTx) (key : UInt256) (s : CachingWallet δ) : CachingWallet δ :=
  match s.mapWallet key with
  | none => s
  | some wtx => s.put key (f wtx)

/-- The wallet after a call, whether it returns or throws. -/
def step (context : AmountContext δ) (hash : Bytes → UInt256) (s : CachingWallet δ) :
    AmountCall δ → CachingWallet δ
  | .addToWallet wtxIn fWritten getKeyFromPool getDepthInMainChain =>
    ((addToWallet (context.atDepth getDepthInMainChain) hash fWritten getKeyFromPool wtxIn).run s).2
  | .addToWalletIfInvolvingMe mtx fUpdate fWritten getKeyFromPool getDepthInMainChain =>
    ((addToWalletIfInvolvingMe (context.atDepth getDepthInMainChain) hash mtx fUpdate fWritten
      getKeyFromPool).run s).2
  | .markSpent key nOut => s.change (fun wtx => (wtx.markSpent nOut).toOption.getD wtx) key
  | .updateSpent key vfNewSpent => s.change (·.updateSpent vfNewSpent) key
  | .markDirty key => s.change CachedTx.markDirty key
  | .markAllDirty => s.markDirty
  | .ask amount key getDepthInMainChain =>
    ((ask (context.atDepth getDepthInMainChain) amount key).run s).2

/-- Every amount is what it would be if nothing were remembered. -/
def Answers (context : AmountContext δ) (s : CachingWallet δ) : Prop :=
  ∀ getDepthInMainChain amount key,
    ((ask (context.atDepth getDepthInMainChain) amount key).run s).1 =
      ((ask (context.atDepth getDepthInMainChain) amount key).run s.markDirty).1

end CachingWallet

/-! ### What the loops compute -/

section Loops

variable {isMine : CTxOut → Bool} {mapWallet mapWallet' : WalletMap}

theorem toInt_add_of_moneyRange {a b : Int64} (ha : moneyRange a = true)
    (hab : moneyRange (a + b) = true) : (a + b).toInt = a.toInt + b.toInt := by
  rw [moneyRange_iff] at ha hab
  have hlow := b.le_toInt
  have hhigh := b.toInt_lt
  rw [Int64.toInt_add] at hab ⊢
  rw [Int.bmod_def] at hab ⊢
  omega

theorem debitLoop_toInt {vin : List CTxIn} {nDebit n : Int64} (hrange : moneyRange nDebit = true)
    (h : debitLoop isMine mapWallet vin nDebit = .ok n) :
    n.toInt = nDebit.toInt + (vin.map fun txin => (debitOf isMine mapWallet txin).toInt).sum := by
  induction vin generalizing nDebit with
  | nil =>
    cases h
    simp
  | cons txin vin ih =>
    simp only [debitLoop] at h
    split_ifs at h with hnext
    rw [Bool.not_eq_true', Bool.not_eq_false] at hnext
    rw [ih hnext h, toInt_add_of_moneyRange hrange hnext, List.map_cons, List.sum_cons, add_assoc]

theorem debitLoop_congr {vin : List CTxIn}
    (h : ∀ txin ∈ vin, debitOf isMine mapWallet' txin = debitOf isMine mapWallet txin)
    (nDebit : Int64) :
    debitLoop isMine mapWallet' vin nDebit = debitLoop isMine mapWallet vin nDebit := by
  induction vin generalizing nDebit with
  | nil => rfl
  | cons txin vin ih =>
    simp only [debitLoop, h txin List.mem_cons_self]
    rw [ih fun txin' htxin' => h txin' (List.mem_cons_of_mem _ htxin')]

theorem debitOf_congr (h : ∀ key, (mapWallet' key).map (·.vout) = (mapWallet key).map (·.vout)) :
    debitOf isMine mapWallet' = debitOf isMine mapWallet := by
  funext txin
  have hkey := h txin.prevout.hash
  rw [debitOf, debitOf]
  cases hold : mapWallet txin.prevout.hash with
  | none =>
    rw [hold, map_none, map_eq_none_iff] at hkey
    rw [hkey]
  | some prev =>
    rw [hold, map_some, map_eq_some_iff] at hkey
    obtain ⟨prev', hnew, hvout⟩ := hkey
    rw [hnew]
    dsimp only
    rw [hvout]

variable {rangeMessage sumMessage : String} {counts counts' : CTxOut → Bool} {vout : List CTxOut}

theorem outputLoop_congr
    (h : ∀ txout ∈ vout, countedValue counts' txout = countedValue counts txout) (nSum : Int64) :
    outputLoop rangeMessage sumMessage counts' vout nSum =
      outputLoop rangeMessage sumMessage counts vout nSum := by
  induction vout generalizing nSum with
  | nil => rfl
  | cons txout vout ih =>
    simp only [outputLoop, h txout List.mem_cons_self]
    rw [ih fun txout' htxout' => h txout' (List.mem_cons_of_mem _ htxout')]

theorem outputLoop_toInt {nSum n : Int64} (hrange : moneyRange nSum = true)
    (h : outputLoop rangeMessage sumMessage counts vout nSum = .ok n) :
    (∀ txout ∈ vout, moneyRange txout.nValue = true) ∧
      n.toInt = nSum.toInt + (vout.map fun txout => (countedValue counts txout).toInt).sum := by
  induction vout generalizing nSum with
  | nil =>
    cases h
    simp
  | cons txout vout ih =>
    simp only [outputLoop] at h
    split_ifs at h with hvalue hnext
    rw [Bool.not_eq_true', Bool.not_eq_false] at hvalue hnext
    obtain ⟨hvalues, hsum⟩ := ih hnext h
    refine ⟨List.forall_mem_cons.mpr ⟨hvalue, hvalues⟩, ?_⟩
    rw [hsum, toInt_add_of_moneyRange hrange hnext, List.map_cons, List.sum_cons, add_assoc]

end Loops

/-! ### When an amount is right -/

namespace CachedTx

variable {δ : Type}

/-- The credits remembered are right. They depend on the transaction alone. -/
structure CreditsFresh (isMine : CTxOut → Bool) (wtx : CachedTx) : Prop where
  credit : Fresh wtx.nCreditCached (creditLoop isMine wtx.vout 0)
  available : Fresh wtx.nAvailableCreditCached (availableLoop isMine wtx.toCWalletTx)

/-- The debit and the change remembered are right. They depend on the other transactions and on
the address book. -/
structure SharesFresh (context : AmountContext δ) (s : CachingWallet δ) (wtx : CachedTx) :
    Prop where
  debit : wtx.vin ≠ [] → Fresh wtx.nDebitCached (debitLoop context.isMine s.forget wtx.vin 0)
  change : Fresh wtx.nChangeCached (changeLoop (context.isChange s.mapAddressBook) wtx.vout 0)

end CachedTx

namespace CachingWallet

variable {δ : Type} {context : AmountContext δ} {s s' : CachingWallet δ} {key : UInt256}
  {wtx wtx' : CachedTx} (isMine : CTxOut → Bool)

def CreditsFresh (s : CachingWallet δ) : Prop :=
  ∀ key wtx, s.mapWallet key = some wtx → wtx.CreditsFresh isMine

def SharesFresh (context : AmountContext δ) (s : CachingWallet δ) : Prop :=
  ∀ key wtx, s.mapWallet key = some wtx → wtx.SharesFresh context s

structure Fresh (context : AmountContext δ) (s : CachingWallet δ) : Prop where
  credits : s.CreditsFresh context.isMine
  shares : s.SharesFresh context

theorem forget_markDirty (s : CachingWallet δ) : s.markDirty.forget = s.forget := by
  funext key
  simp only [forget, markDirty, map_map]
  rfl

theorem run_ask (hwtx : s.mapWallet key = some wtx) (amount : Amount) :
    (ask context amount key).run s =
      ((amountOf context s wtx amount).1, s.put key (amountOf context s wtx amount).2) := by
  rw [ask, run_get_bind, hwtx]
  rfl

theorem run_ask_of_none (hwtx : s.mapWallet key = none) (amount : Amount) :
    (ask context amount key).run s = (.error (.fault "mapWallet.find(hash)"), s) := by
  rw [ask, run_get_bind, hwtx]
  rfl

/-- A dirty transaction computes what it is asked for. -/
def recomputed (context : AmountContext δ) (s : CachingWallet δ) (wtx : CachedTx) :
    Amount → Except Failure Int64
  | .debit => debitLoop context.isMine s.forget wtx.vin 0
  | .credit _ =>
    if wtx.isCoinBase ∧ 0 < context.getBlocksToMaturity wtx.toCWalletTx then .ok 0
    else creditLoop context.isMine wtx.vout 0
  | .availableCredit _ =>
    if wtx.isCoinBase ∧ 0 < context.getBlocksToMaturity wtx.toCWalletTx then .ok 0
    else availableLoop context.isMine wtx.toCWalletTx
  | .change => changeLoop (context.isChange s.mapAddressBook) wtx.vout 0

theorem amountOf_of_fresh (hcredits : wtx.CreditsFresh context.isMine)
    (hshares : wtx.SharesFresh context s) (amount : Amount) :
    (amountOf context s wtx amount).1 = recomputed context s wtx amount := by
  cases amount with
  | debit =>
    simp only [amountOf, getDebit, recomputed]
    split_ifs with hvin
    · rw [hvin]
      rfl
    · exact (hshares.debit hvin).ask_fst true
  | credit fUseCache =>
    simp only [amountOf, getCredit, recomputed]
    split_ifs
    · rfl
    · exact hcredits.credit.ask_fst fUseCache
  | availableCredit fUseCache =>
    simp only [amountOf, getAvailableCredit, recomputed]
    split_ifs
    · rfl
    · exact hcredits.available.ask_fst fUseCache
  | change => exact hshares.change.ask_fst true

theorem creditsFresh_markDirty (wtx : CachedTx) :
    wtx.markDirty.CreditsFresh isMine := ⟨fresh_none, fresh_none⟩

theorem sharesFresh_markDirty (context : AmountContext δ) (s : CachingWallet δ)
    (wtx : CachedTx) : wtx.markDirty.SharesFresh context s :=
  ⟨fun _ => fresh_none, fresh_none⟩

theorem run_ask_markDirty (hwtx : s.mapWallet key = some wtx) (amount : Amount) :
    ((ask context amount key).run s.markDirty).1 = recomputed context s wtx amount := by
  have hdirty : s.markDirty.mapWallet key = some wtx.markDirty := by
    simp only [markDirty, hwtx, map_some]
  rw [run_ask hdirty, amountOf_of_fresh (creditsFresh_markDirty _ _) (sharesFresh_markDirty _ _ _)]
  cases amount with
  | debit => simp only [recomputed, forget_markDirty, CachedTx.markDirty]
  | credit fUseCache => rfl
  | availableCredit fUseCache => rfl
  | change => rfl

theorem getBlocksToMaturity_deep (context : AmountContext δ) (wtx : CWalletTx) :
    ¬ 0 < (context.atDepth fun _ => 0x7fffffff).getBlocksToMaturity wtx := by
  rw [WalletContext.getBlocksToMaturity]
  split_ifs
  · decide
  · change ¬ (0 : Int32) < max 0 (coinbaseMaturity + 200 - 0x7fffffff)
    decide

/-- The answers are right exactly if what is remembered is. -/
theorem answers_iff : s.Answers context ↔ s.Fresh context := by
  constructor
  · intro h
    have hamount : ∀ key wtx, s.mapWallet key = some wtx → ∀ amount,
        (amountOf (context.atDepth fun _ => 0x7fffffff) s wtx amount).1 =
          recomputed (context.atDepth fun _ => 0x7fffffff) s wtx amount := by
      intro key wtx hwtx amount
      have hask := h (fun _ => 0x7fffffff) amount key
      rw [run_ask hwtx, run_ask_markDirty hwtx] at hask
      exact hask
    refine ⟨fun key wtx hwtx => ⟨?_, ?_⟩, fun key wtx hwtx => ⟨fun hvin => ?_, ?_⟩⟩
    · have hcredit := hamount key wtx hwtx (.credit true)
      simp only [amountOf, getCredit, recomputed,
        getBlocksToMaturity_deep context wtx.toCWalletTx, and_false, if_false] at hcredit
      exact ask_true_fst_iff.mp hcredit
    · have havailable := hamount key wtx hwtx (.availableCredit true)
      simp only [amountOf, getAvailableCredit, recomputed,
        getBlocksToMaturity_deep context wtx.toCWalletTx, and_false, if_false] at havailable
      exact ask_true_fst_iff.mp havailable
    · have hdebit := hamount key wtx hwtx .debit
      simp only [amountOf, getDebit, recomputed, hvin, if_false] at hdebit
      exact ask_true_fst_iff.mp hdebit
    · exact ask_true_fst_iff.mp (hamount key wtx hwtx .change)
  · intro h getDepthInMainChain amount key
    cases hwtx : s.mapWallet key with
    | none =>
      have hdirty : s.markDirty.mapWallet key = none := by
        simp only [markDirty, hwtx, map_none]
      rw [run_ask_of_none hwtx, run_ask_of_none hdirty]
    | some wtx =>
      have hcredits : wtx.CreditsFresh (context.atDepth getDepthInMainChain).isMine :=
        h.credits key wtx hwtx
      have hshares : wtx.SharesFresh (context.atDepth getDepthInMainChain) s :=
        ⟨(h.shares key wtx hwtx).debit, (h.shares key wtx hwtx).change⟩
      rw [run_ask hwtx, run_ask_markDirty hwtx, amountOf_of_fresh hcredits hshares]

end CachingWallet

end Primecoin
