import Primecoin.Control.Along
import Primecoin.Wallet.AmountFrame

/-!
# The amounts along a history

Only the calls that add a transaction change a debit or a change remembered elsewhere.
`HarmlessAdd` says when such a call does not, and the answers are right along a history exactly as
long as every call is harmless.

A transaction can come before the one it spends from, when it is relayed alone or when a wallet is
scanned again from an earlier block. If it is asked for its debit in between, it goes on answering
without what it spends of the other.
-/

namespace Primecoin

open Stateful Function Option CachedTx List

/-! ### The calls that change what is remembered -/

section Debit

variable {isMine : CTxOut → Bool} {mapWallet : WalletMap} {key : UInt256} {wtxIn : CWalletTx}

/-- The inputs spend nothing of ours of the transaction with the given hash. -/
def TakesNothing (isMine : CTxOut → Bool) (key : UInt256) (vout : List CTxOut)
    (vin : List CTxIn) : Prop :=
  ∀ txin ∈ vin, txin.prevout.hash = key → ∀ txout, vout[txin.prevout.n.toNat]? = some txout →
    isMine txout = true → txout.nValue = 0

/-- A new transaction changes what an input spends exactly by its own output, if that is ours. -/
theorem debitOf_update (hkey : mapWallet key = none) (txin : CTxIn) :
    debitOf isMine (update mapWallet key (some wtxIn)) txin = debitOf isMine mapWallet txin ∨
      ∃ txout, txin.prevout.hash = key ∧ wtxIn.vout[txin.prevout.n.toNat]? = some txout ∧
        isMine txout = true ∧ debitOf isMine mapWallet txin = 0 ∧
        debitOf isMine (update mapWallet key (some wtxIn)) txin = txout.nValue := by
  by_cases hhash : txin.prevout.hash = key
  · rw [debitOf, debitOf, hhash, hkey, update_self]
    dsimp only
    cases htxout : wtxIn.vout[txin.prevout.n.toNat]? with
    | none => exact .inl rfl
    | some txout =>
      dsimp only
      split_ifs with hmine
      · exact .inr ⟨txout, rfl, rfl, hmine, rfl, rfl⟩
      · exact .inl rfl
  · rw [debitOf, debitOf, update_of_ne hhash]
    exact .inl rfl

theorem debitLoop_update (hkey : mapWallet key = none) {vin : List CTxIn}
    (h : TakesNothing isMine key wtxIn.vout vin) :
    debitLoop isMine (update mapWallet key (some wtxIn)) vin 0 =
      debitLoop isMine mapWallet vin 0 := by
  refine debitLoop_congr (fun txin htxin => ?_) 0
  rcases debitOf_update hkey txin with hsame | ⟨txout, hhash, htxout, hmine, hold, hnew⟩
  · exact hsame
  · rw [hold, hnew]
    exact h txin htxin hhash txout htxout hmine

/-- Without negative outputs a debit that stays the same takes nothing. -/
theorem takesNothing_of_debitLoop (hkey : mapWallet key = none)
    (hnonneg : ∀ txout ∈ wtxIn.vout, 0 ≤ txout.nValue) {vin : List CTxIn} {n : Int64}
    (hold : debitLoop isMine mapWallet vin 0 = .ok n)
    (hnew : debitLoop isMine (update mapWallet key (some wtxIn)) vin 0 = .ok n) :
    TakesNothing isMine key wtxIn.vout vin := by
  intro txin htxin hhash txout htxout hmine
  have hle : ∀ txin' ∈ vin, (debitOf isMine mapWallet txin').toInt ≤
      (debitOf isMine (update mapWallet key (some wtxIn)) txin').toInt := by
    intro txin' _
    rcases @debitOf_update isMine _ _ wtxIn hkey txin' with
      hsame | ⟨txout', -, htxout', -, hzero, hvalue⟩
    · rw [hsame]
    · rw [hzero, hvalue]
      exact Int64.le_iff_toInt_le.mp (hnonneg txout' (mem_of_getElem? htxout'))
  by_contra hne
  have hpos : 0 < txout.nValue.toInt := by
    have h0 := Int64.le_iff_toInt_le.mp (hnonneg txout (mem_of_getElem? htxout))
    have hne' : txout.nValue.toInt ≠ 0 := fun h => hne (Int64.toInt_inj.mp h)
    rw [Int64.toInt_zero] at h0
    omega
  have hlt : (debitOf isMine mapWallet txin).toInt <
      (debitOf isMine (update mapWallet key (some wtxIn)) txin).toInt := by
    simp only [debitOf, hhash, hkey, update_self, htxout, hmine, if_true]
    exact hpos
  have hsum := sum_lt_sum _ _ hle ⟨txin, htxin, hlt⟩
  have hold' := debitLoop_toInt (by decide) hold
  have hnew' := debitLoop_toInt (by decide) hnew
  omega

end Debit

section Change

variable {δ : Type} {context : AmountContext δ} {mapAddressBook mapAddressBook' : δ → Bool}

/-- The outputs pay nothing to addresses of ours named only now. -/
def PaysNothing (context : AmountContext δ) (mapAddressBook : δ → Bool) (named : List δ)
    (vout : List CTxOut) : Prop :=
  ∀ txout ∈ vout, ∀ address ∈ named, context.extractDestination txout.scriptPubKey = some address →
    context.isMineAddress address = true → mapAddressBook address = false → txout.nValue = 0

variable [DecidableEq δ] {named : List δ}

def namedBook (mapAddressBook : δ → Bool) (named : List δ) (address : δ) : Bool :=
  mapAddressBook address || decide (address ∈ named)

variable (txout : CTxOut)

theorem isChange_named : context.isChange (namedBook mapAddressBook named) txout =
      (context.isChange mapAddressBook txout &&
        !(context.extractDestination txout.scriptPubKey).any fun address => address ∈ named) := by
  rw [AmountContext.isChange, AmountContext.isChange]
  cases context.extractDestination txout.scriptPubKey with
  | none => rfl
  | some address => simp [namedBook, Bool.and_assoc]

/-- An output is change no longer exactly if it pays to an address of ours named only now. -/
theorem isChange_named_iff : context.isChange mapAddressBook txout = true ∧
        context.isChange (namedBook mapAddressBook named) txout = false ↔
      ∃ address ∈ named, context.extractDestination txout.scriptPubKey = some address ∧
        context.isMineAddress address = true ∧ mapAddressBook address = false := by
  rw [isChange_named, AmountContext.isChange]
  cases context.extractDestination txout.scriptPubKey with
  | none => simp
  | some address =>
    simp only [Bool.and_eq_true, Bool.not_eq_true', any_some, some.injEq]
    constructor
    · rintro ⟨⟨hmine, hbook⟩, hnamed⟩
      refine ⟨address, ?_, rfl, hmine, hbook⟩
      simpa [hmine, hbook] using hnamed
    · rintro ⟨address', hnamed, rfl, hmine, hbook⟩
      exact ⟨⟨hmine, hbook⟩, by simp [hnamed]⟩

theorem countedValue_named
    (h : ∀ address ∈ named, context.extractDestination txout.scriptPubKey = some address →
      context.isMineAddress address = true → mapAddressBook address = false → txout.nValue = 0) :
    countedValue (context.isChange (namedBook mapAddressBook named)) txout =
      countedValue (context.isChange mapAddressBook) txout := by
  rw [countedValue, countedValue]
  by_cases hold : context.isChange mapAddressBook txout = true
  · cases hnew : context.isChange (namedBook mapAddressBook named) txout with
    | true => rw [hold]
    | false =>
      obtain ⟨address, hnamed, hdestination, hmine, hbook⟩ :=
        (isChange_named_iff txout).mp ⟨hold, hnew⟩
      rw [hold, h address hnamed hdestination hmine hbook]
      rfl
  · have hfalse := eq_false_of_ne_true hold
    have hnew : context.isChange (namedBook mapAddressBook named) txout = false := by
      rw [isChange_named, hfalse, Bool.false_and]
    rw [hnew, hfalse]

/-- The change stays the same exactly if no output pays to such an address. -/
theorem changeLoop_named_iff {vout : List CTxOut} {n : Int64}
    (hold : changeLoop (context.isChange mapAddressBook) vout 0 = .ok n) :
    changeLoop (context.isChange (namedBook mapAddressBook named)) vout 0 = .ok n ↔
      PaysNothing context mapAddressBook named vout := by
  constructor
  · intro hnew txout htxout address hnamed hdestination hmine hbook
    obtain ⟨hrange, hsum⟩ := outputLoop_toInt (by decide) hold
    obtain ⟨-, hsum'⟩ := outputLoop_toInt (by decide) hnew
    obtain ⟨hcounts, hcounts'⟩ :=
      (isChange_named_iff txout).mpr ⟨address, hnamed, hdestination, hmine, hbook⟩
    by_contra hne
    have hle : ∀ txout' ∈ vout,
        (countedValue (context.isChange (namedBook mapAddressBook named)) txout').toInt ≤
          (countedValue (context.isChange mapAddressBook) txout').toInt := by
      intro txout' htxout'
      have hvalue := (moneyRange_iff _).mp (hrange txout' htxout')
      rw [countedValue, countedValue, isChange_named]
      cases context.isChange mapAddressBook txout' with
      | false => simp
      | true =>
        rw [Bool.true_and, if_pos rfl]
        split_ifs
        · exact le_rfl
        · exact hvalue.1
    have hlt : (countedValue (context.isChange (namedBook mapAddressBook named)) txout).toInt <
          (countedValue (context.isChange mapAddressBook) txout).toInt := by
      have hvalue := (moneyRange_iff _).mp (hrange txout htxout)
      have hne' : txout.nValue.toInt ≠ 0 := fun h => hne (Int64.toInt_inj.mp h)
      rw [countedValue, countedValue, hcounts, hcounts', if_pos rfl, if_neg Bool.false_ne_true,
        Int64.toInt_zero]
      omega
    have hsums := sum_lt_sum _ _ hle ⟨txout, htxout, hlt⟩
    omega
  · intro h
    rw [← hold]
    exact outputLoop_congr (fun txout htxout => countedValue_named txout (h txout htxout)) 0

end Change

namespace CachingWallet

variable {δ : Type}

section Entered

variable (context : AmountContext δ) (hash : Bytes → UInt256) (fWritten : Bool)
  (getKeyFromPool : ℕ → Option (δ × Bool)) (wtxIn : CachedTx) (s : CachingWallet δ)

def entry : CachedTx := (inserted (s.mapWallet (wtxIn.getHash hash)) wtxIn).1

/-- `AddToWallet` returns because the entry cannot be written. -/
def unwritten : Bool :=
  (inserted (s.mapWallet (wtxIn.getHash hash)) wtxIn).2 && !fWritten

def named : List δ :=
  match s.vchDefaultKey with
  | none => []
  | some vchDefaultKey =>
    if s.unwritten hash fWritten wtxIn then []
    else (replacements (context.scriptFor vchDefaultKey) getKeyFromPool
      (s.entry hash wtxIn).vout 0 vchDefaultKey).1

variable {hash wtxIn s}

theorem entry_of_none (h : s.mapWallet (wtxIn.getHash hash) = none) :
    (s.entry hash wtxIn).toCWalletTx = wtxIn.toCWalletTx := by
  rw [entry, h]
  rfl

variable [DecidableEq δ] (hash wtxIn s)

def entered : CachingWallet δ :=
  if s.unwritten hash fWritten wtxIn then s.put (wtxIn.getHash hash) (s.entry hash wtxIn)
  else replaceDefaultKey context getKeyFromPool (s.entry hash wtxIn).vout
    (s.put (wtxIn.getHash hash) (s.entry hash wtxIn))

theorem mapWallet_entered : (s.entered context hash fWritten getKeyFromPool wtxIn).mapWallet =
      update s.mapWallet (wtxIn.getHash hash) (some (s.entry hash wtxIn)) := by
  rw [entered]
  split_ifs
  · rfl
  · cases hkey : s.vchDefaultKey with
    | none => simp only [replaceDefaultKey, put, hkey]
    | some vchDefaultKey => simp only [replaceDefaultKey, put, hkey]

theorem mapAddressBook_entered :
    (s.entered context hash fWritten getKeyFromPool wtxIn).mapAddressBook =
      namedBook s.mapAddressBook (s.named context hash fWritten getKeyFromPool wtxIn) := by
  funext address
  rw [namedBook]
  cases hkey : s.vchDefaultKey with
  | none =>
    rw [entered]
    split_ifs
    · simp only [put, named, hkey, not_mem_nil, decide_false, Bool.or_false]
    · simp only [replaceDefaultKey, put, named, hkey, not_mem_nil, decide_false, Bool.or_false]
  | some vchDefaultKey =>
    rw [entered]
    split_ifs with hunwritten
    · simp only [put, named, hkey, hunwritten, if_true, not_mem_nil, decide_false, Bool.or_false]
    · simp only [replaceDefaultKey, put, named, hkey, hunwritten, Bool.false_eq_true, if_false]

omit [DecidableEq δ] in
theorem walletUpdateSpent_pure_touches (tx : CTransaction) (b : Bool) :
    Moves (Touches context.isMine) (walletUpdateSpent context tx >>= fun _ => pure b) :=
  Moves.bind (R := Touches context.isMine) Touches.trans (walletUpdateSpent_touches context tx)
    fun _ s => Touches.refl s

theorem addToWallet_touches :
    Touches context.isMine (s.entered context hash fWritten getKeyFromPool wtxIn)
      ((addToWallet context hash fWritten getKeyFromPool wtxIn).run s).2 := by
  rw [addToWallet, run_get_bind, entered]
  change Touches _ _ (Stateful.run (modify (put (wtxIn.getHash hash) (s.entry hash wtxIn)) >>= fun _ =>
    if s.unwritten hash fWritten wtxIn then pure false
    else do
      modify (replaceDefaultKey context getKeyFromPool (s.entry hash wtxIn).vout)
      walletUpdateSpent context (s.entry hash wtxIn).toCTransaction
      pure true) s).2
  rw [run_modify_bind]
  split_ifs
  · exact .refl _
  · rw [run_modify_bind]
    exact walletUpdateSpent_pure_touches context _ true _

end Entered

variable [DecidableEq δ]

/-- What a call of `AddToWallet` may not find: a transaction that remembers its debit and spends
an output of ours of the one added, or one that remembers its change and pays to an address of
ours that the call names. -/
structure HarmlessAdd (context : AmountContext δ) (hash : Bytes → UInt256) (fWritten : Bool)
    (getKeyFromPool : ℕ → Option (δ × Bool)) (wtxIn : CachedTx) (s : CachingWallet δ) :
    Prop where
  debit : s.mapWallet (wtxIn.getHash hash) = none → ∀ key wtx, s.mapWallet key = some wtx →
    wtx.nDebitCached.isSome = true →
    TakesNothing context.isMine (wtxIn.getHash hash) wtxIn.vout wtx.vin
  change : ∀ key wtx, key ≠ wtxIn.getHash hash → s.mapWallet key = some wtx →
    wtx.nChangeCached.isSome = true →
    PaysNothing context s.mapAddressBook (s.named context hash fWritten getKeyFromPool wtxIn)
      wtx.vout

section Add

variable {context : AmountContext δ} {hash : Bytes → UInt256} {fWritten : Bool}
  {getKeyFromPool : ℕ → Option (δ × Bool)} {wtxIn : CachedTx} {s : CachingWallet δ}

theorem forget_entered : (s.entered context hash fWritten getKeyFromPool wtxIn).forget =
      update s.forget (wtxIn.getHash hash) (some (s.entry hash wtxIn).toCWalletTx) := by
  funext key
  rw [forget, mapWallet_entered]
  by_cases hkey : key = wtxIn.getHash hash
  · subst hkey
    rw [update_self, update_self, map_some]
  · rw [update_of_ne hkey, update_of_ne hkey, forget]

theorem debitLoop_entered_of_some {wtx : CachedTx}
    (h : s.mapWallet (wtxIn.getHash hash) = some wtx) (vin : List CTxIn) :
    debitLoop context.isMine (s.entered context hash fWritten getKeyFromPool wtxIn).forget vin 0 =
      debitLoop context.isMine s.forget vin 0 := by
  have hvout : ∀ key,
      ((s.entered context hash fWritten getKeyFromPool wtxIn).forget key).map (·.vout) =
        (s.forget key).map (·.vout) := by
    intro key
    rw [forget_entered]
    by_cases hkey : key = wtxIn.getHash hash
    · subst hkey
      rw [update_self, forget, entry, h]
      rfl
    · rw [update_of_ne hkey]
  exact debitLoop_congr (fun txin _ => congrFun (debitOf_congr hvout) txin) 0

theorem mapWallet_entered_cases {key : UInt256} {wtx : CachedTx}
    (h : (s.entered context hash fWritten getKeyFromPool wtxIn).mapWallet key = some wtx) :
    wtx = s.entry hash wtxIn ∨ key ≠ wtxIn.getHash hash ∧ s.mapWallet key = some wtx := by
  rw [mapWallet_entered] at h
  by_cases hkey : key = wtxIn.getHash hash
  · subst hkey
    rw [update_self] at h
    exact .inl (some.inj h).symm
  · rw [update_of_ne hkey] at h
    exact .inr ⟨hkey, h⟩

theorem creditsFresh_entered {isMine : CTxOut → Bool} (hs : s.CreditsFresh isMine) :
    (s.entered context hash fWritten getKeyFromPool wtxIn).CreditsFresh isMine := by
  intro key wtx hwtx
  rcases mapWallet_entered_cases hwtx with rfl | ⟨-, hwtx⟩
  · exact ⟨Memo.fresh_none, Memo.fresh_none⟩
  · exact hs key wtx hwtx

theorem sharesFresh_entered (hs : s.SharesFresh context)
    (h : s.HarmlessAdd context hash fWritten getKeyFromPool wtxIn) :
    (s.entered context hash fWritten getKeyFromPool wtxIn).SharesFresh context := by
  intro key wtx hwtx
  rcases mapWallet_entered_cases hwtx with rfl | ⟨hkey, hwtx⟩
  · exact ⟨fun _ => Memo.fresh_none, Memo.fresh_none⟩
  · refine ⟨fun hvin n hn => ?_, fun n hn => ?_⟩
    · rw [← (hs key wtx hwtx).debit hvin n hn]
      cases hfound : s.mapWallet (wtxIn.getHash hash) with
      | none =>
        have hnone : s.forget (wtxIn.getHash hash) = none := by
          rw [forget, hfound, map_none]
        have htakes := h.debit hfound key wtx hwtx (by rw [hn]; rfl)
        rw [forget_entered, entry_of_none hfound]
        exact debitLoop_update hnone htakes
      | some old => exact debitLoop_entered_of_some hfound wtx.vin
    · rw [mapAddressBook_entered]
      exact (changeLoop_named_iff ((hs key wtx hwtx).change n hn)).mpr
        (h.change key wtx hkey hwtx (by rw [hn]; rfl))

theorem harmlessAdd_of_sharesFresh (hs : s.SharesFresh context)
    (hnonneg : ∀ txout ∈ wtxIn.vout, 0 ≤ txout.nValue)
    (h : (s.entered context hash fWritten getKeyFromPool wtxIn).SharesFresh context) :
    s.HarmlessAdd context hash fWritten getKeyFromPool wtxIn := by
  refine ⟨fun hfound key wtx hwtx hcached => ?_, fun key wtx hkey hwtx hcached => ?_⟩
  · obtain ⟨n, hn⟩ := isSome_iff_exists.mp hcached
    have hkey : key ≠ wtxIn.getHash hash := by
      rintro rfl
      rw [hfound] at hwtx
      cases hwtx
    have hnone : s.forget (wtxIn.getHash hash) = none := by
      rw [forget, hfound, map_none]
    intro txin htxin
    have hvin : wtx.vin ≠ [] := ne_nil_of_mem htxin
    have hnew := (h key wtx (by rw [mapWallet_entered, update_of_ne hkey, hwtx])).debit hvin n hn
    rw [forget_entered, entry_of_none hfound] at hnew
    exact takesNothing_of_debitLoop hnone hnonneg ((hs key wtx hwtx).debit hvin n hn) hnew txin
      htxin
  · obtain ⟨n, hn⟩ := isSome_iff_exists.mp hcached
    have hnew := (h key wtx (by rw [mapWallet_entered, update_of_ne hkey, hwtx])).change n hn
    rw [mapAddressBook_entered] at hnew
    exact (changeLoop_named_iff ((hs key wtx hwtx).change n hn)).mp hnew

/-- What `AddToWallet` leaves is right if nothing it changes is remembered. -/
theorem fresh_addToWallet (hs : s.Fresh context)
    (h : s.HarmlessAdd context hash fWritten getKeyFromPool wtxIn) :
    Fresh context ((addToWallet context hash fWritten getKeyFromPool wtxIn).run s).2 :=
  (addToWallet_touches context hash fWritten getKeyFromPool wtxIn s).fresh
    ⟨creditsFresh_entered hs.credits, sharesFresh_entered hs.shares h⟩

theorem harmlessAdd_of_fresh (hs : s.Fresh context)
    (hnonneg : ∀ txout ∈ wtxIn.vout, 0 ≤ txout.nValue)
    (h : Fresh context ((addToWallet context hash fWritten getKeyFromPool wtxIn).run s).2) :
    s.HarmlessAdd context hash fWritten getKeyFromPool wtxIn :=
  harmlessAdd_of_sharesFresh hs.shares hnonneg
    ((addToWallet_touches context hash fWritten getKeyFromPool wtxIn s).sharesFresh_iff.mp h.shares)

end Add

section AtDepth

variable {context : AmountContext δ} {s : CachingWallet δ} (getDepthInMainChain : CWalletTx → Int32)

omit [DecidableEq δ]

/-- What is remembered does not depend on how deep the transactions are. -/
theorem fresh_atDepth : s.Fresh (context.atDepth getDepthInMainChain) ↔ s.Fresh context :=
  ⟨fun h => ⟨h.credits, fun key wtx hwtx =>
      ⟨(h.shares key wtx hwtx).debit, (h.shares key wtx hwtx).change⟩⟩,
    fun h => ⟨h.credits, fun key wtx hwtx =>
      ⟨(h.shares key wtx hwtx).debit, (h.shares key wtx hwtx).change⟩⟩⟩

theorem harmlessAdd_atDepth {hash : Bytes → UInt256} {fWritten : Bool}
    {getKeyFromPool : ℕ → Option (δ × Bool)} {wtxIn : CachedTx} :
    s.HarmlessAdd (context.atDepth getDepthInMainChain) hash fWritten getKeyFromPool wtxIn ↔
      s.HarmlessAdd context hash fWritten getKeyFromPool wtxIn :=
  ⟨fun h => ⟨h.debit, h.change⟩, fun h => ⟨h.debit, h.change⟩⟩

end AtDepth

section Put

variable {context : AmountContext δ} {s : CachingWallet δ} {key : UInt256} {wtx wtx' : CachedTx}

omit [DecidableEq δ]

/-- An entry that is replaced by one of the same transaction leaves the others right. -/
theorem Fresh.put (hs : s.Fresh context) (hwtx : s.mapWallet key = some wtx)
    (htx : wtx'.toCTransaction = wtx.toCTransaction) (hcredits : wtx'.CreditsFresh context.isMine)
    (hshares : wtx'.SharesFresh context s) : (s.put key wtx').Fresh context := by
  have hvout : ∀ other,
      ((s.put key wtx').forget other).map (·.vout) = (s.forget other).map (·.vout) := by
    intro other
    rw [forget, forget, CachingWallet.put]
    dsimp only
    by_cases hother : other = key
    · subst hother
      rw [update_self, hwtx]
      exact congrArg (fun tx : CTransaction => some tx.vout) htx
    · rw [update_of_ne hother]
  refine ⟨fun other entry hentry => ?_, fun other entry hentry => ?_⟩
  · by_cases hother : other = key
    · subst hother
      cases (mapWallet_put_self ..).symm.trans hentry
      exact hcredits
    · exact hs.credits other entry ((update_of_ne hother ..).symm.trans hentry)
  · by_cases hother : other = key
    · subst hother
      cases (mapWallet_put_self ..).symm.trans hentry
      exact hshares.congr rfl hvout
    · have hold := hs.shares other entry ((update_of_ne hother ..).symm.trans hentry)
      exact hold.congr rfl hvout

theorem amountOf_snd (hcredits : wtx.CreditsFresh context.isMine)
    (hshares : wtx.SharesFresh context s) (amount : Amount) :
    (amountOf context s wtx amount).2.toCTransaction = wtx.toCTransaction ∧
      (amountOf context s wtx amount).2.CreditsFresh context.isMine ∧
      (amountOf context s wtx amount).2.SharesFresh context s := by
  cases amount with
  | debit =>
    simp only [amountOf, getDebit]
    split_ifs with hvin
    · exact ⟨rfl, hcredits, hshares⟩
    · exact ⟨rfl, ⟨hcredits.credit, hcredits.available⟩,
        fun _ => (hshares.debit hvin).ask_snd true, hshares.change⟩
  | credit fUseCache =>
    simp only [amountOf, getCredit]
    split_ifs
    · exact ⟨rfl, hcredits, hshares⟩
    · exact ⟨rfl, ⟨hcredits.credit.ask_snd fUseCache, hcredits.available⟩,
        hshares.debit, hshares.change⟩
  | availableCredit fUseCache =>
    simp only [amountOf, getAvailableCredit]
    split_ifs
    · exact ⟨rfl, hcredits, hshares⟩
    · exact ⟨rfl, ⟨hcredits.credit, hcredits.available.ask_snd fUseCache⟩,
        hshares.debit, hshares.change⟩
  | change =>
    exact ⟨rfl, ⟨hcredits.credit, hcredits.available⟩, hshares.debit, hshares.change.ask_snd true⟩

theorem fresh_ask (hs : s.Fresh context) (amount : Amount) (key : UInt256) :
    Fresh context ((ask context amount key).run s).2 := by
  cases hwtx : s.mapWallet key with
  | none =>
    rw [run_ask_of_none hwtx]
    exact hs
  | some wtx =>
    obtain ⟨htx, hcredits, hshares⟩ :=
      amountOf_snd (hs.credits key wtx hwtx) (hs.shares key wtx hwtx) amount
    rw [run_ask hwtx]
    exact hs.put hwtx htx hcredits hshares

theorem fresh_change {f : CachedTx → CachedTx} (hs : s.Fresh context)
    (hf : ∀ wtx, Touched context.isMine wtx (f wtx)) (key : UInt256) :
    (s.change f key).Fresh context := by
  rw [change]
  split
  · exact hs
  · next wtx hwtx => exact (Touches.put hwtx (hf wtx)).fresh hs

theorem fresh_change_markDirty (hs : s.Fresh context) (key : UInt256) :
    (s.change CachedTx.markDirty key).Fresh context := by
  rw [change]
  split
  · exact hs
  · next wtx hwtx =>
      exact hs.put hwtx rfl (creditsFresh_markDirty _ _) (sharesFresh_markDirty _ _ _)

theorem fresh_markDirty (context : AmountContext δ) (s : CachingWallet δ) :
    s.markDirty.Fresh context := by
  have hdirty : ∀ key wtx, s.markDirty.mapWallet key = some wtx →
      ∃ old : CachedTx, wtx = old.markDirty := by
    intro key wtx hwtx
    obtain ⟨old, -, rfl⟩ := map_eq_some_iff.mp hwtx
    exact ⟨old, rfl⟩
  refine ⟨fun key wtx hwtx => ?_, fun key wtx hwtx => ?_⟩
  · obtain ⟨old, rfl⟩ := hdirty key wtx hwtx
    exact creditsFresh_markDirty _ old
  · obtain ⟨old, rfl⟩ := hdirty key wtx hwtx
    exact sharesFresh_markDirty _ _ old

end Put

section Involving

variable (context : AmountContext δ) (hash : Bytes → UInt256) (mtx : CMerkleTx)
  (fUpdate fWritten : Bool) (getKeyFromPool : ℕ → Option (δ × Bool)) (s : CachingWallet δ)

/-- The transaction is added, or else no more happens than that outputs are flagged. -/
theorem addToWalletIfInvolvingMe_cases :
    (((s.mapWallet (mtx.getHash hash)).isSome && !fUpdate) = false ∧
        s.involvesMe context hash mtx = .ok true ∧
        (addToWalletIfInvolvingMe context hash mtx fUpdate fWritten getKeyFromPool).run s =
          (addToWallet context hash fWritten getKeyFromPool (.ofMerkleTx mtx)).run s) ∨
      (¬ (((s.mapWallet (mtx.getHash hash)).isSome && !fUpdate) = false ∧
          s.involvesMe context hash mtx = .ok true) ∧
        Touches context.isMine s
          ((addToWalletIfInvolvingMe context hash mtx fUpdate fWritten getKeyFromPool).run s).2) := by
  rw [addToWalletIfInvolvingMe, run_get_bind]
  split_ifs with hskip
  · exact .inr ⟨fun h => by simp [hskip] at h, .refl s⟩
  · cases hinvolves : s.involvesMe context hash mtx with
    | error e =>
      rw [run_lift_bind_of_error rfl]
      exact .inr ⟨fun h => (by cases h.2), .refl s⟩
    | ok fInvolves =>
      rw [run_lift_bind_of_ok rfl]
      cases fInvolves with
      | true => exact .inl ⟨eq_false_of_ne_true hskip, rfl, rfl⟩
      | false => exact .inr ⟨fun h => (by cases h.2), walletUpdateSpent_pure_touches context _ false s⟩

end Involving

def Harmless (context : AmountContext δ) (hash : Bytes → UInt256) (s : CachingWallet δ) :
    AmountCall δ → Prop
  | .addToWallet wtxIn fWritten getKeyFromPool _ =>
    s.HarmlessAdd context hash fWritten getKeyFromPool wtxIn
  | .addToWalletIfInvolvingMe mtx fUpdate fWritten getKeyFromPool _ =>
    ((s.mapWallet (mtx.getHash hash)).isSome && !fUpdate) = false ∧
        s.involvesMe context hash mtx = .ok true →
      s.HarmlessAdd context hash fWritten getKeyFromPool (.ofMerkleTx mtx)
  | _ => True

end CachingWallet

def AmountCall.NonNegative {δ : Type} : AmountCall δ → Prop
  | .addToWallet wtxIn _ _ _ => ∀ txout ∈ wtxIn.vout, 0 ≤ txout.nValue
  | .addToWalletIfInvolvingMe mtx _ _ _ _ => ∀ txout ∈ mtx.vout, 0 ≤ txout.nValue
  | _ => True

namespace CachingWallet

variable {δ : Type} [DecidableEq δ] {context : AmountContext δ} {hash : Bytes → UInt256}
  {s : CachingWallet δ} {call : AmountCall δ}

theorem fresh_step (hs : s.Fresh context) (h : s.Harmless context hash call) :
    (s.step context hash call).Fresh context := by
  cases call with
  | addToWallet wtxIn fWritten getKeyFromPool getDepthInMainChain =>
    rw [← fresh_atDepth getDepthInMainChain] at hs ⊢
    exact fresh_addToWallet hs ((harmlessAdd_atDepth getDepthInMainChain).mpr h)
  | addToWalletIfInvolvingMe mtx fUpdate fWritten getKeyFromPool getDepthInMainChain =>
    rw [← fresh_atDepth getDepthInMainChain] at hs ⊢
    rw [step]
    rcases addToWalletIfInvolvingMe_cases (context.atDepth getDepthInMainChain) hash mtx fUpdate
        fWritten getKeyFromPool s with ⟨hupdate, hinvolves, hrun⟩ | ⟨-, htouches⟩
    · rw [hrun]
      exact fresh_addToWallet hs
        ((harmlessAdd_atDepth getDepthInMainChain).mpr (h ⟨hupdate, hinvolves⟩))
    · exact htouches.fresh hs
  | markSpent key nOut =>
    refine fresh_change hs (fun wtx => ?_) key
    cases hmark : wtx.markSpent nOut with
    | error e => exact .refl wtx
    | ok wtx' => exact markSpent_touched hmark
  | updateSpent key vfNewSpent => exact fresh_change hs (·.updateSpent_touched vfNewSpent) key
  | markDirty key => exact fresh_change_markDirty hs key
  | markAllDirty => exact fresh_markDirty context s
  | ask amount key getDepthInMainChain =>
    rw [← fresh_atDepth getDepthInMainChain] at hs ⊢
    exact fresh_ask hs amount key

theorem harmless_of_fresh_step (hs : s.Fresh context) (hnonneg : call.NonNegative)
    (h : (s.step context hash call).Fresh context) : s.Harmless context hash call := by
  cases call with
  | addToWallet wtxIn fWritten getKeyFromPool getDepthInMainChain =>
    rw [← fresh_atDepth getDepthInMainChain] at hs h
    exact (harmlessAdd_atDepth getDepthInMainChain).mp (harmlessAdd_of_fresh hs hnonneg h)
  | addToWalletIfInvolvingMe mtx fUpdate fWritten getKeyFromPool getDepthInMainChain =>
    intro hadded
    rw [← fresh_atDepth getDepthInMainChain] at hs h
    rw [step] at h
    rcases addToWalletIfInvolvingMe_cases (context.atDepth getDepthInMainChain) hash mtx fUpdate
        fWritten getKeyFromPool s with ⟨-, -, hrun⟩ | ⟨hnot, -⟩
    · rw [hrun] at h
      exact (harmlessAdd_atDepth getDepthInMainChain).mp (harmlessAdd_of_fresh hs hnonneg h)
    · exact absurd hadded hnot
  | markSpent key nOut => trivial
  | updateSpent key vfNewSpent => trivial
  | markDirty key => trivial
  | markAllDirty => trivial
  | ask amount key getDepthInMainChain => trivial

/-- Along a run from a wallet whose answers are right they stay so as long as each call is
harmless, and no longer if no transaction comes with a negative output. -/
theorem answers_along_iff (context : AmountContext δ) (hash : Bytes → UInt256)
    {s : CachingWallet δ} (hs : s.Answers context) (calls : List (AmountCall δ)) :
    (Runs.Along (fun s call t => t = s.step context hash call) (Harmless context hash) s calls →
      Runs.Along (fun s call t => t = s.step context hash call)
        (fun s call => (s.step context hash call).Answers context) s calls) ∧
    ((∀ call ∈ calls, call.NonNegative) → (Runs.Along (fun s call t => t = s.step context hash call)
          (fun s call => (s.step context hash call).Answers context) s calls ↔
        Runs.Along (fun s call t => t = s.step context hash call) (Harmless context hash) s
          calls)) := by
  have hfresh := answers_iff.mp hs
  have hmono : Runs.Along (fun s call t => t = s.step context hash call)
        (Harmless context hash) s calls →
      Runs.Along (fun s call t => t = s.step context hash call)
        (fun s call => (s.step context hash call).Answers context) s calls := by
    refine Runs.along_mono (I := Fresh context) ?_ ?_ hfresh
    · rintro s call _ hs hharmless rfl
      exact fresh_step hs hharmless
    · exact fun s call _ hs hharmless => answers_iff.mpr (fresh_step hs hharmless)
  refine ⟨hmono, fun hnonneg => ⟨?_, hmono⟩⟩
  refine Runs.along_mono (I := Fresh context) ?_ ?_ hfresh
  · rintro s call _ - hanswers rfl
    exact answers_iff.mp hanswers
  · exact fun s call hcall hs hanswers =>
      harmless_of_fresh_step hs (hnonneg call hcall) (answers_iff.mp hanswers)

end CachingWallet

namespace Sample

/-- The keystore with one address, that of `payScript`. -/
def amountContext : AmountContext Bytes :=
  { keystore with
    extractDestination := fun script =>
      if script = payScript then some (replicate 20 0) else none
    isMineAddress := fun _ => true
    scriptFor := fun _ => payScript }

def transfer : CMerkleTx := { withdrawal with vout := [⟨4 * cent, payScript⟩] }

def transferHash : UInt256 :=
  0xd2db14d5cc9d26cbb0e06681ed6e4e521a2f5341be056d767f90ee813a5108a6

def amountHash (bytes : Bytes) : UInt256 :=
  if bytes = transfer.serialize then transferHash else savingsHash

def emptyWallet : CachingWallet Bytes :=
  ⟨fun _ => none, fun address => address = replicate 20 0, some (replicate 20 0)⟩

def savedWallet : CachingWallet Bytes := { emptyWallet with
  mapWallet := fun key =>
    if key = savingsHash then some ⟨savings, none, some (28 * cent), some (28 * cent), none⟩
    else none }

def comesIn (mtx : CMerkleTx) : AmountCall Bytes :=
  .addToWalletIfInvolvingMe mtx true true (fun _ => none) fun _ => 10

def asksDebit (key : UInt256) : AmountCall Bytes := .ask .debit key fun _ => 10

end Sample

open Sample

namespace CachingWallet

theorem answers_emptyWallet : emptyWallet.Answers amountContext :=
  answers_iff.mpr ⟨fun _ _ h => (by cases h), fun _ _ h => (by cases h)⟩

theorem creditsFresh_savedWallet : savedWallet.CreditsFresh amountContext.isMine := by
  intro key wtx hwtx
  simp only [savedWallet] at hwtx
  split_ifs at hwtx
  cases hwtx
  constructor
  · intro nCredit hcredit
    cases hcredit
    decide
  · intro nCredit hcredit
    cases hcredit
    decide

/-- A transfer of coins that remember their credit. -/
theorem forget_addToWalletIfInvolvingMe_transfer :
    (savedWallet.mapWallet savingsHash).bind CachedTx.nCreditCached = some (28 * cent) ∧
    (amountContext.toWalletContext.addToWalletIfInvolvingMe amountHash transfer true
      true).run savedWallet.forget =
    (((addToWalletIfInvolvingMe amountContext amountHash transfer true true
        fun _ => none).run savedWallet).1,
      ((addToWalletIfInvolvingMe amountContext amountHash transfer true true
        fun _ => none).run savedWallet).2.forget) :=
  ⟨rfl, forget_addToWalletIfInvolvingMe _ _ _ creditsFresh_savedWallet _ _⟩

/-- The coins come in, and are asked for their debit. -/
theorem answers_along_iff_savings : emptyWallet.Answers amountContext ∧
    Runs.Along (fun s call t => t = s.step amountContext amountHash call)
      (fun s call => (s.step amountContext amountHash call).Answers amountContext) emptyWallet
      [comesIn savings.toCMerkleTx, asksDebit savingsHash] := by
  refine ⟨answers_emptyWallet,
    (answers_along_iff amountContext amountHash answers_emptyWallet _).1 ⟨?_, ?_⟩⟩
  · exact fun _ => ⟨fun _ _ _ h => (by cases h), fun _ _ _ h => (by cases h)⟩
  · rintro _ rfl
    exact ⟨trivial, fun _ _ => trivial⟩

/-- The transfer comes in before the coin it spends and is asked for its debit in between. It
answers with nothing once the coin is there, though its debit is five cents. -/
theorem not_answers_transfer : emptyWallet.Answers amountContext ∧
    ¬ Runs.Along (fun s call t => t = s.step amountContext amountHash call)
      (fun s call => (s.step amountContext amountHash call).Answers amountContext) emptyWallet
      [comesIn transfer, asksDebit transferHash, comesIn savings.toCMerkleTx] ∧
    ∀ s, s = [comesIn transfer, asksDebit transferHash, comesIn savings.toCMerkleTx].foldl
        (step amountContext amountHash) emptyWallet →
      ((ask amountContext .debit transferHash).run s).1 = .ok 0 ∧
        ((ask amountContext .debit transferHash).run s.markDirty).1 = .ok (5 * cent) := by
  refine ⟨answers_emptyWallet, fun h => ?_, ?_⟩
  · exact absurd ((((h.2 _ rfl).2 _ rfl).1) (fun _ => 10) .debit transferHash) (by decide)
  · rintro _ rfl
    exact ⟨by decide, by decide⟩

end CachingWallet

end Primecoin
