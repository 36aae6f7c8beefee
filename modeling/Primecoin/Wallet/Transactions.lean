import Primecoin.Wallet.Coins

/-!
# The transactions of a wallet

`addToWalletIfInvolvingMe` stores the transactions of blocks and of the memory pool that pay us or
spend our coins, and flags the outputs that a transaction spends, whether it is stored or not.

The flags of an output are exactly as the presented transactions say, in any order in which a
transaction comes after the wallet transactions it spends from, as long as the calls return and
the writes succeed.
-/

namespace Primecoin

open Stateful List CWalletTx Function

abbrev WalletMap := UInt256 → Option CWalletTx

abbrev WalletM := Stateful WalletMap Failure

namespace CWalletTx

def resizeSpent (n : ℕ) (vfSpent : List Bool) : List Bool :=
  vfSpent.take n ++ List.replicate (n - vfSpent.length) false

def markSpent (wtx : CWalletTx) (nOut : UInt32) : Except Failure CWalletTx :=
  if wtx.vout.length ≤ nOut.toNat then
    .error (.exception "CWalletTx::MarkSpent() : nOut out of range")
  else
    .ok { wtx with vfSpent := (resizeSpent wtx.vout.length wtx.vfSpent).set nOut.toNat true }

/-- The flags after `UpdateSpent`; flags beyond the old ones are ignored. -/
def mergeSpent : List Bool → List Bool → List Bool
  | fSpent :: vfSpent, fNewSpent :: vfNewSpent =>
    (fSpent || fNewSpent) :: mergeSpent vfSpent vfNewSpent
  | vfSpent, _ => vfSpent

/-- The merge of a transaction that is stored already, with `fUpdated`. -/
def merge (wtx wtxIn : CWalletTx) : CWalletTx × Bool :=
  let fBlock := wtxIn.hashBlock != 0 && wtxIn.hashBlock != wtx.hashBlock
  let fBranch := wtxIn.nIndex.isSome &&
    (wtxIn.vMerkleBranch != wtx.vMerkleBranch || wtxIn.nIndex != wtx.nIndex)
  let fFrom := wtxIn.fFromMe && !wtx.fFromMe
  let vfSpent := mergeSpent wtx.vfSpent wtxIn.vfSpent
  ({ wtx with
      hashBlock := if fBlock then wtxIn.hashBlock else wtx.hashBlock
      vMerkleBranch := if fBranch then wtxIn.vMerkleBranch else wtx.vMerkleBranch
      nIndex := if fBranch then wtxIn.nIndex else wtx.nIndex
      fFromMe := if fFrom then wtxIn.fFromMe else wtx.fFromMe
      vfSpent := vfSpent },
    fBlock || fBranch || fFrom || vfSpent != wtx.vfSpent)

/-- The entry after `mapWallet.insert` and the merge, and whether it has to be written. -/
def inserted (found : Option CWalletTx) (wtxIn : CWalletTx) : CWalletTx × Bool :=
  match found with
  | none => (wtxIn, true)
  | some wtx => wtx.merge wtxIn

/-- `CWalletTx wtx(this, tx)`, with the merkle branch set. -/
def ofMerkleTx (mtx : CMerkleTx) : CWalletTx := { mtx with vfSpent := [], fFromMe := false }

end CWalletTx

section Money

variable (isMine : CTxOut → Bool)

def creditLoop : List CTxOut → Int64 → Except Failure Int64
  | [], nCredit => .ok nCredit
  | txout :: vout, nCredit =>
    if !moneyRange txout.nValue then
      .error (.exception "CWallet::GetCredit() : value out of range")
    else
      let nCredit := nCredit + if isMine txout then txout.nValue else 0
      if !moneyRange nCredit then .error (.exception "CWallet::GetCredit() : value out of range")
      else creditLoop vout nCredit

def debitOf (mapWallet : WalletMap) (txin : CTxIn) : Int64 :=
  match mapWallet txin.prevout.hash with
  | none => 0
  | some prev =>
    match prev.vout[txin.prevout.n.toNat]? with
    | none => 0
    | some txout => if isMine txout then txout.nValue else 0

def debitLoop (mapWallet : WalletMap) : List CTxIn → Int64 → Except Failure Int64
  | [], nDebit => .ok nDebit
  | txin :: vin, nDebit =>
    let nDebit := nDebit + debitOf isMine mapWallet txin
    if !moneyRange nDebit then .error (.exception "CWallet::GetDebit() : value out of range")
    else debitLoop mapWallet vin nDebit

end Money

namespace WalletContext

variable (context : WalletContext)

/-- The cache is left out. -/
def getCredit (wtx : CWalletTx) : Except Failure Int64 :=
  if wtx.isCoinBase ∧ 0 < context.getBlocksToMaturity wtx then .ok 0
  else creditLoop context.isMine wtx.vout 0

/-- The loop body of `WalletUpdateSpent`. The credit is only logged. -/
def updateSpentInput (txin : CTxIn) : WalletM Unit := do
  match (← get) txin.prevout.hash with
  | none => pure ()
  | some wtx =>
    match wtx.vout[txin.prevout.n.toNat]? with
    | none => pure ()
    | some txout =>
      if !wtx.spent txin.prevout.n.toNat && context.isMine txout then
        let _ ← lift (context.getCredit wtx)
        let wtx ← lift (wtx.markSpent txin.prevout.n)
        modify fun mapWallet => update mapWallet txin.prevout.hash (some wtx)
      else pure ()

def walletUpdateSpent (tx : CTransaction) : WalletM Unit := tx.vin.forM context.updateSpentInput

/-- `fWritten` is the result of `WriteToDisk`. -/
def addToWallet (hash : Bytes → UInt256) (fWritten : Bool) (wtxIn : CWalletTx) : WalletM Bool := do
  let key := wtxIn.getHash hash
  let (wtx, fWrite) := inserted ((← get) key) wtxIn
  modify fun mapWallet => update mapWallet key (some wtx)
  if fWrite && !fWritten then pure false
  else
    context.walletUpdateSpent wtx.toCTransaction
    pure true

def addToWalletIfInvolvingMe (hash : Bytes → UInt256) (mtx : CMerkleTx) (fUpdate fWritten : Bool) :
    WalletM Bool := do
  let mapWallet ← get
  let fExisted := (mapWallet (mtx.getHash hash)).isSome
  if fExisted && !fUpdate then pure false
  else if fExisted || mtx.vout.any context.isMine then
    context.addToWallet hash fWritten (.ofMerkleTx mtx)
  else
    let nDebit ← lift (debitLoop context.isMine mapWallet mtx.vin 0)
    if 0 < nDebit then context.addToWallet hash fWritten (.ofMerkleTx mtx)
    else
      context.walletUpdateSpent mtx.toCTransaction
      pure false

end WalletContext

/-- How deep the stored transactions are, and whether they can be written, is as at the time of
the call. -/
structure WalletCall where
  mtx : CMerkleTx
  fUpdate : Bool
  fWritten : Bool
  getDepthInMainChain : CWalletTx → Int32

open WalletCall

namespace WalletCall

def tx (call : WalletCall) : CTransaction := call.mtx.toCTransaction

def present (context : WalletContext) (hash : Bytes → UInt256) (call : WalletCall) :
    WalletM Unit := do
  let _ ← WalletContext.addToWalletIfInvolvingMe
    { context with getDepthInMainChain := call.getDepthInMainChain } hash call.mtx call.fUpdate
    call.fWritten
  pure ()

end WalletCall

def presentAll (context : WalletContext) (hash : Bytes → UInt256) (calls : List WalletCall) :
    WalletM Unit := calls.forM (·.present context hash)

/-! ### What flags mean -/

/-- Some input in the list spends output `i` of the transaction with the given hash. -/
def Spends (vin : List CTxIn) (key : UInt256) (i : ℕ) : Prop :=
  ∃ txin ∈ vin, txin.prevout.hash = key ∧ txin.prevout.n.toNat = i

variable {key : UInt256} {i : ℕ}

theorem spends_nil : ¬ Spends [] key i := by
  simp [Spends]

theorem spends_singleton {txin : CTxIn} :
    Spends [txin] key i ↔ txin.prevout.hash = key ∧ txin.prevout.n.toNat = i := by
  simp only [Spends, mem_singleton, exists_eq_left]

namespace CWalletTx

def Mine (isMine : CTxOut → Bool) (wtx : CWalletTx) (i : ℕ) : Prop :=
  ∃ txout, wtx.vout[i]? = some txout ∧ isMine txout = true

def Flagged (wtx : CWalletTx) (i : ℕ) : Prop := i < wtx.vout.length ∧ wtx.spent i = true

theorem mine_congr {isMine : CTxOut → Bool} {wtx wtx' : CWalletTx}
    (h : wtx'.toCTransaction = wtx.toCTransaction) : wtx'.Mine isMine i ↔ wtx.Mine isMine i := by
  rw [Mine, Mine, h]

theorem getD_resizeSpent {n i : ℕ} (vfSpent : List Bool) (hi : i < n) :
    (resizeSpent n vfSpent).getD i false = vfSpent.getD i false := by
  simp only [resizeSpent, getD_eq_getElem?_getD, getElem?_append, length_take,
    getElem?_take, getElem?_replicate]
  split_ifs
  · rfl
  · rw [getElem?_eq_none (by omega)]
    rfl
  · omega

theorem length_resizeSpent (n : ℕ) (vfSpent : List Bool) : (resizeSpent n vfSpent).length = n := by
  simp only [resizeSpent, length_append, length_take, length_replicate]
  omega

theorem markSpent_ok {wtx wtx' : CWalletTx} {nOut : UInt32} (h : wtx.markSpent nOut = .ok wtx') :
    wtx'.toCTransaction = wtx.toCTransaction ∧
      ∀ i, wtx'.Flagged i ↔ wtx.Flagged i ∨ i = nOut.toNat := by
  rw [markSpent, Except.ite_error_eq_ok_iff] at h
  obtain ⟨hlt, h⟩ := h
  cases h
  rw [not_le] at hlt
  refine ⟨rfl, fun i => ?_⟩
  have hflag : i < wtx.vout.length →
      ((resizeSpent wtx.vout.length wtx.vfSpent).set nOut.toNat true).getD i false =
        (decide (i = nOut.toNat) || wtx.vfSpent.getD i false) := by
    intro hi
    rw [← getD_resizeSpent wtx.vfSpent hi, getD_eq_getElem?_getD, getElem?_set, length_resizeSpent]
    by_cases hi' : nOut.toNat = i
    · simp [hi', hi]
    · rw [if_neg hi', decide_eq_false (Ne.symm hi'), Bool.false_or, getD_eq_getElem?_getD]
  constructor
  · rintro ⟨hi, hspent⟩
    rw [spent, hflag hi, Bool.or_eq_true, decide_eq_true_iff] at hspent
    exact hspent.elim .inr fun hspent => .inl ⟨hi, hspent⟩
  · rintro (⟨hi, hspent⟩ | rfl)
    · exact ⟨hi, by rw [spent, hflag hi, ← spent, hspent, Bool.or_true]⟩
    · exact ⟨hlt, by rw [spent, hflag hlt, decide_eq_true rfl, Bool.true_or]⟩

@[simp] theorem mergeSpent_nil (vfSpent : List Bool) : mergeSpent vfSpent [] = vfSpent := by
  cases vfSpent <;> rfl

/-- A new flag counts only where there is an old one. -/
theorem getD_mergeSpent (vfSpent vfNewSpent : List Bool) (i : ℕ) :
    (mergeSpent vfSpent vfNewSpent).getD i false =
      (vfSpent.getD i false || (decide (i < vfSpent.length) && vfNewSpent.getD i false)) := by
  induction vfSpent generalizing vfNewSpent i with
  | nil => simp [mergeSpent]
  | cons fSpent vfSpent ih =>
    cases vfNewSpent with
    | nil => simp
    | cons fNewSpent vfNewSpent =>
      cases i with
      | zero => simp [mergeSpent]
      | succ i => simpa [mergeSpent] using ih vfNewSpent i

theorem flagged_merge (wtx wtxIn : CWalletTx) (i : ℕ) :
    (wtx.merge wtxIn).1.Flagged i ↔ i < wtx.vout.length ∧
      (wtx.spent i = true ∨ i < wtx.vfSpent.length ∧ wtxIn.spent i = true) := by
  simp only [Flagged, spent, merge, getD_mergeSpent, Bool.or_eq_true, Bool.and_eq_true,
    decide_eq_true_iff]

theorem not_flagged_ofMerkleTx (mtx : CMerkleTx) (i : ℕ) : ¬ (ofMerkleTx mtx).Flagged i := by
  simp [Flagged, spent, ofMerkleTx]

end CWalletTx

/-! ### What the update of the flags does -/

/-- The entry is the same up to the flags, and exactly the outputs of ours that the inputs spend
are newly flagged. -/
def CWalletTx.Marked (isMine : CTxOut → Bool) (vin : List CTxIn) (key : UInt256)
    (wtx wtx' : CWalletTx) : Prop :=
  wtx'.toCTransaction = wtx.toCTransaction ∧
    ∀ i, wtx'.Flagged i ↔ wtx.Flagged i ∨ wtx.Mine isMine i ∧ Spends vin key i

def WalletMarked (isMine : CTxOut → Bool) (vin : List CTxIn) (mapWallet mapWallet' : WalletMap) :
    Prop :=
  ∀ key, Option.Rel (Marked isMine vin key) (mapWallet key) (mapWallet' key)

namespace WalletMarked

variable {isMine : CTxOut → Bool} {vin vin' : List CTxIn} {s s' s'' : WalletMap}

theorem refl (isMine : CTxOut → Bool) (s : WalletMap) : WalletMarked isMine [] s s := by
  intro key
  cases s key with
  | none => exact .none
  | some wtx => exact .some ⟨rfl, fun i => by simp [spends_nil]⟩

theorem append (h : WalletMarked isMine vin s s') (h' : WalletMarked isMine vin' s' s'') :
    WalletMarked isMine (vin ++ vin') s s'' := by
  intro key
  have hkey := h key
  have hkey' := h' key
  generalize s key = old at hkey
  generalize s' key = mid at hkey hkey'
  generalize s'' key = new at hkey'
  cases hkey with
  | none =>
    cases hkey'
    exact .none
  | some hold =>
    cases hkey' with
    | some hnew =>
      refine .some ⟨hnew.1.trans hold.1, fun i => ?_⟩
      rw [hnew.2, hold.2, mine_congr hold.1]
      simp only [Spends, mem_append, or_and_right, exists_or, and_or_left, or_assoc]

theorem of_flagged {txin : CTxIn}
    (h : ∀ wtx, s txin.prevout.hash = some wtx → wtx.Mine isMine txin.prevout.n.toNat →
      wtx.Flagged txin.prevout.n.toNat) : WalletMarked isMine [txin] s s := by
  intro key
  cases hkey : s key with
  | none => exact .none
  | some wtx =>
    refine .some ⟨rfl, fun i => (or_iff_left_of_imp ?_).symm⟩
    rintro ⟨hmine, hspends⟩
    obtain ⟨rfl, rfl⟩ := spends_singleton.mp hspends
    exact h wtx hkey hmine

theorem update {txin : CTxIn} {wtx wtx' : CWalletTx} (hwtx : s txin.prevout.hash = some wtx)
    (hmine : wtx.Mine isMine txin.prevout.n.toNat)
    (hmark : wtx.markSpent txin.prevout.n = .ok wtx') :
    WalletMarked isMine [txin] s (update s txin.prevout.hash (some wtx')) := by
  intro key
  by_cases hkey : key = txin.prevout.hash
  · subst hkey
    obtain ⟨htx, hflags⟩ := markSpent_ok hmark
    rw [update_self, hwtx]
    refine .some ⟨htx, fun i => ?_⟩
    rw [hflags, spends_singleton]
    refine or_congr_right ⟨?_, fun h => h.2.2.symm⟩
    rintro rfl
    exact ⟨hmine, rfl, rfl⟩
  · rw [update_of_ne hkey]
    cases s key with
    | none => exact .none
    | some entry =>
      refine .some ⟨rfl, fun i => (or_iff_left_of_imp ?_).symm⟩
      rintro ⟨-, hspends⟩
      exact absurd (spends_singleton.mp hspends).1.symm hkey

theorem isSome (h : WalletMarked isMine vin s s') (key : UInt256) :
    (s' key).isSome = (s key).isSome := by
  have hkey := h key
  generalize s key = old at hkey
  generalize s' key = new at hkey
  cases hkey <;> rfl

theorem exists_of_eq_some (h : WalletMarked isMine vin s s') {key : UInt256} {wtx' : CWalletTx}
    (hkey : s' key = some wtx') : ∃ wtx, s key = some wtx ∧ wtx.Marked isMine vin key wtx' := by
  have hrel := h key
  rw [hkey] at hrel
  generalize hold : s key = old at hrel
  cases hrel with
  | some hmarked => exact ⟨_, rfl, hmarked⟩

end WalletMarked

namespace WalletContext

variable {context : WalletContext} {s s' : WalletMap}

theorem updateSpentInput_ok {txin : CTxIn}
    (h : (context.updateSpentInput txin).run s = (.ok (), s')) :
    WalletMarked context.isMine [txin] s s' := by
  rw [updateSpentInput, run_get_bind] at h
  cases hwtx : s txin.prevout.hash with
  | none =>
    rw [hwtx] at h
    cases h
    exact .of_flagged fun wtx hsome => by simp [hwtx] at hsome
  | some wtx =>
    rw [hwtx] at h
    dsimp only at h
    cases htxout : wtx.vout[txin.prevout.n.toNat]? with
    | none =>
      rw [htxout] at h
      cases h
      refine .of_flagged fun wtx' hsome hmine => ?_
      cases hwtx.symm.trans hsome
      obtain ⟨txout, hout, -⟩ := hmine
      cases htxout.symm.trans hout
    | some txout =>
      rw [htxout] at h
      dsimp only at h
      split_ifs at h with hcond
      · obtain ⟨_, _, hcredit, h⟩ := run_bind_eq_ok_iff.mp h
        obtain ⟨-, rfl⟩ := Prod.mk.inj hcredit
        obtain ⟨wtx', _, hrun, h⟩ := run_bind_eq_ok_iff.mp h
        obtain ⟨hmark, rfl⟩ := Prod.mk.inj hrun
        cases h
        rw [Bool.and_eq_true] at hcond
        exact .update hwtx ⟨txout, htxout, hcond.2⟩ hmark
      · cases h
        refine .of_flagged fun wtx' hsome hmine => ?_
        cases hwtx.symm.trans hsome
        obtain ⟨txout', hout, hmine'⟩ := hmine
        cases htxout.symm.trans hout
        rw [hmine', Bool.and_true, Bool.not_eq_true', Bool.not_eq_false] at hcond
        exact ⟨(List.getElem?_eq_some_iff.mp htxout).1, hcond⟩

theorem forM_updateSpentInput_ok {vin : List CTxIn}
    (h : (vin.forM context.updateSpentInput).run s = (.ok (), s')) :
    WalletMarked context.isMine vin s s' := by
  induction vin generalizing s with
  | nil =>
    cases h
    exact .refl _ _
  | cons txin vin ih =>
    obtain ⟨_, next, hnext, hrest⟩ := run_bind_eq_ok_iff.mp h
    exact (updateSpentInput_ok hnext).append (ih hrest)

theorem walletUpdateSpent_ok {tx : CTransaction}
    (h : (context.walletUpdateSpent tx).run s = (.ok (), s')) :
    WalletMarked context.isMine tx.vin s s' := forM_updateSpentInput_ok h

end WalletContext

/-! ### What a call does -/

variable (hash : Bytes → UInt256)

def WalletMap.insert (mtx : CMerkleTx) (s : WalletMap) : WalletMap :=
  update s (mtx.getHash hash) (some (inserted (s (mtx.getHash hash)) (.ofMerkleTx mtx)).1)

namespace WalletContext

variable {context : WalletContext} {hash : Bytes → UInt256} {mtx : CMerkleTx} {s s' : WalletMap}

theorem addToWallet_ok {fAdded : Bool}
    (h : (context.addToWallet hash true (.ofMerkleTx mtx)).run s = (.ok fAdded, s')) :
    WalletMarked context.isMine (inserted (s (mtx.getHash hash)) (.ofMerkleTx mtx)).1.vin
      (WalletMap.insert hash mtx s) s' := by
  rw [addToWallet, run_get_bind, run_modify_bind, Bool.not_true, Bool.and_false,
    if_neg Bool.false_ne_true] at h
  obtain ⟨_, _, hupdate, h⟩ := run_bind_eq_ok_iff.mp h
  cases h
  exact walletUpdateSpent_ok hupdate

/-- A call that returns leaves the wallet as it is if the transaction is known, and otherwise
flags what the transaction spends, with the transaction stored or, if no output of it is ours,
not. -/
theorem addToWalletIfInvolvingMe_ok {fUpdate fAdded : Bool}
    (h : (context.addToWalletIfInvolvingMe hash mtx fUpdate true).run s = (.ok fAdded, s')) :
    ((s (mtx.getHash hash)).isSome = true ∧ s' = s) ∨
      WalletMarked context.isMine (inserted (s (mtx.getHash hash)) (.ofMerkleTx mtx)).1.vin
        (WalletMap.insert hash mtx s) s' ∨
      (mtx.vout.any context.isMine = false ∧ WalletMarked context.isMine mtx.vin s s') := by
  rw [addToWalletIfInvolvingMe, run_get_bind] at h
  dsimp only at h
  split_ifs at h with hold hmine
  · cases h
    rw [Bool.and_eq_true] at hold
    exact .inl ⟨hold.1, rfl⟩
  · exact .inr (.inl (addToWallet_ok h))
  · rw [Bool.or_eq_true, not_or, Bool.not_eq_true, Bool.not_eq_true] at hmine
    obtain ⟨nDebit, _, hdebit, h⟩ := run_bind_eq_ok_iff.mp h
    obtain ⟨-, rfl⟩ := Prod.mk.inj hdebit
    split_ifs at h with hpos
    · exact .inr (.inl (addToWallet_ok h))
    · obtain ⟨_, _, hupdate, h⟩ := run_bind_eq_ok_iff.mp h
      cases h
      exact .inr (.inr ⟨hmine.2, walletUpdateSpent_ok hupdate⟩)

/-- The merge keeps the flags of the entry and takes those of the copy where the entry has flags;
the outputs that the transaction spends are flagged if it gets so far. -/
theorem addToWallet_spent_iff {wtx wtxIn : CWalletTx} {fWritten fAdded : Bool}
    (hstored : s (wtxIn.getHash hash) = some wtx)
    (hrun : (context.addToWallet hash fWritten wtxIn).run s = (.ok fAdded, s')) :
    ∃ wtx', s' (wtxIn.getHash hash) = some wtx' ∧ wtx'.toCTransaction = wtx.toCTransaction ∧
      ∀ i < wtx.vout.length, wtx'.spent i = true ↔ wtx.spent i = true ∨
        (i < wtx.vfSpent.length ∧ wtxIn.spent i = true) ∨
        (fAdded = true ∧ wtx.Mine context.isMine i ∧ Spends wtx.vin (wtxIn.getHash hash) i) := by
  have hmarked : WalletMarked context.isMine (if fAdded then wtx.vin else [])
      (update s (wtxIn.getHash hash) (some (wtx.merge wtxIn).1)) s' := by
    rw [addToWallet, run_get_bind, run_modify_bind, hstored] at hrun
    by_cases hwrite : ((inserted (some wtx) wtxIn).2 && !fWritten) = true
    · rw [if_pos hwrite] at hrun
      cases hrun
      exact .refl _ _
    · rw [if_neg hwrite] at hrun
      obtain ⟨_, _, hupdate, hreturn⟩ := run_bind_eq_ok_iff.mp hrun
      cases hreturn
      exact walletUpdateSpent_ok hupdate
  have hkey := hmarked (wtxIn.getHash hash)
  rw [update_self] at hkey
  generalize s' (wtxIn.getHash hash) = new at hkey
  cases hkey with
  | @some _ wtx' hkey =>
    have htx : wtx'.toCTransaction = wtx.toCTransaction := hkey.1
    refine ⟨wtx', rfl, htx, fun i hi => ?_⟩
    have hiff := hkey.2 i
    rw [flagged_merge, Flagged, htx] at hiff
    have hmine : (wtx.merge wtxIn).1.Mine context.isMine i ↔ wtx.Mine context.isMine i := Iff.rfl
    rw [hmine] at hiff
    cases fAdded with
    | false => simpa [hi, spends_nil] using hiff
    | true => simpa [hi, or_assoc] using hiff

end WalletContext

section Insert

variable {hash : Bytes → UInt256} {mtx : CMerkleTx} {s : WalletMap}

theorem inserted_toCTransaction
    (hsame : ∀ wtx, s (mtx.getHash hash) = some wtx → wtx.toCTransaction = mtx.toCTransaction) :
    (inserted (s (mtx.getHash hash)) (.ofMerkleTx mtx)).1.toCTransaction =
      mtx.toCTransaction := by
  cases hkey : s (mtx.getHash hash) with
  | none => rfl
  | some wtx => exact hsame wtx hkey

theorem flagged_inserted (found : Option CWalletTx) (mtx : CMerkleTx) (i : ℕ) :
    (inserted found (.ofMerkleTx mtx)).1.Flagged i ↔ ∃ wtx, found = some wtx ∧ wtx.Flagged i := by
  cases found with
  | none => simp [inserted, not_flagged_ofMerkleTx]
  | some wtx =>
    rw [inserted, flagged_merge]
    simp [Flagged, spent, ofMerkleTx]

theorem WalletMap.insert_self : s.insert hash mtx (mtx.getHash hash) =
    some (inserted (s (mtx.getHash hash)) (.ofMerkleTx mtx)).1 :=
  update_self ..

theorem WalletMap.insert_of_ne {key : UInt256} (hne : key ≠ mtx.getHash hash) :
    s.insert hash mtx key = s key := update_of_ne hne _ _

theorem WalletMap.isSome_insert {key : UInt256} (hkey : (s key).isSome = true) :
    (s.insert hash mtx key).isSome = true := by
  by_cases hne : key = mtx.getHash hash
  · rw [hne, insert_self]
    rfl
  · rw [insert_of_ne hne]
    exact hkey

end Insert

/-! ### The flags after a sequence of calls -/

/-- It stores only presented transactions, and those that pay us; an output is flagged if and only
if it is ours and one of the `spenders` spends it. Between calls these are the presented
transactions. -/
structure WalletExact (isMine : CTxOut → Bool) (hash : Bytes → UInt256)
    (presented spenders : List CTransaction) (s : WalletMap) : Prop where
  stored : ∀ key wtx, s key = some wtx → wtx.toCTransaction ∈ presented ∧ wtx.getHash hash = key
  kept : ∀ tx ∈ presented, tx.vout.any isMine = true → (s (tx.getHash hash)).isSome = true
  flagged : ∀ key wtx, s key = some wtx → ∀ i, wtx.Flagged i ↔
    wtx.Mine isMine i ∧ ∃ tx ∈ spenders, Spends tx.vin key i

def HashInjective (txs : List CTransaction) : Prop :=
  ∀ tx ∈ txs, ∀ tx' ∈ txs, tx.getHash hash = tx'.getHash hash → tx = tx'

namespace WalletExact

variable {isMine : CTxOut → Bool} {hash : Bytes → UInt256} {past spenders : List CTransaction}
  {tx : CTransaction} {s s' : WalletMap}

theorem empty (isMine : CTxOut → Bool) (hash : Bytes → UInt256) :
    WalletExact isMine hash [] [] fun _ => none where
  stored key wtx h := by cases h
  kept tx h := by cases h
  flagged key wtx h := by cases h

theorem eq_of_stored (h : WalletExact isMine hash past spenders s)
    (hinj : HashInjective hash (past ++ [tx])) {wtx : CWalletTx}
    (hkey : s (tx.getHash hash) = some wtx) : wtx.toCTransaction = tx := by
  obtain ⟨hmem, hhash⟩ := h.stored _ _ hkey
  exact hinj _ (mem_append_left _ hmem) tx (by simp) hhash

theorem known (h : WalletExact isMine hash past past s) (hinj : HashInjective hash (past ++ [tx]))
    (hkey : (s (tx.getHash hash)).isSome = true) :
    WalletExact isMine hash (past ++ [tx]) (past ++ [tx]) s := by
  obtain ⟨wtx, hwtx⟩ := Option.isSome_iff_exists.mp hkey
  have hmem : tx ∈ past := h.eq_of_stored hinj hwtx ▸ (h.stored _ _ hwtx).1
  have hsame : ∀ p, p ∈ past ++ [tx] ↔ p ∈ past := by
    intro p
    rw [mem_append, mem_singleton]
    exact or_iff_left_of_imp fun hp => hp ▸ hmem
  constructor
  · intro key wtx hkey
    exact (h.stored key wtx hkey).imp_left (hsame _).mpr
  · intro p hp
    exact h.kept p ((hsame p).mp hp)
  · intro key wtx hkey i
    rw [h.flagged key wtx hkey i]
    simp only [hsame]

theorem skip (h : WalletExact isMine hash past spenders s) (hmine : tx.vout.any isMine = false) :
    WalletExact isMine hash (past ++ [tx]) spenders s where
  stored key wtx hkey := (h.stored key wtx hkey).imp_left (mem_append_left _)
  kept p hp hours := by
    refine h.kept p ((mem_append.mp hp).resolve_right fun hp => ?_) hours
    rw [mem_singleton.mp hp, hmine] at hours
    cases hours
  flagged := h.flagged

/-- A transaction is stored without flags. No transaction spends an output of it that is ours,
unless it was presented, and so stored, before. -/
theorem insert {mtx : CMerkleTx} (h : WalletExact isMine hash past past s)
    (hinj : HashInjective hash (past ++ [mtx.toCTransaction]))
    (hfirst : ∀ p ∈ past, ∀ i, Spends p.vin (mtx.getHash hash) i → mtx.toCTransaction ∈ past) :
    WalletExact isMine hash (past ++ [mtx.toCTransaction]) past (s.insert hash mtx) := by
  have htx := inserted_toCTransaction fun wtx hwtx => h.eq_of_stored hinj hwtx
  constructor
  · intro key wtx hkey
    by_cases hne : key = mtx.getHash hash
    · rw [hne, WalletMap.insert_self, Option.some.injEq] at hkey
      subst hkey
      exact ⟨by simp [htx], hne ▸ congrArg (CTransaction.getHash hash) htx⟩
    · rw [WalletMap.insert_of_ne hne] at hkey
      exact (h.stored key wtx hkey).imp_left (mem_append_left _)
  · intro p hp hmine
    rcases mem_append.mp hp with hp | hp
    · exact WalletMap.isSome_insert (h.kept p hp hmine)
    · rw [mem_singleton.mp hp, WalletMap.insert_self]
      rfl
  · intro key wtx hkey i
    by_cases hne : key = mtx.getHash hash
    · subst hne
      rw [WalletMap.insert_self, Option.some.injEq] at hkey
      subst hkey
      have hsame : ∀ old, s (mtx.getHash hash) = some old → (old.Mine isMine i ↔
          Mine isMine (inserted (s (mtx.getHash hash)) _).1 i) :=
        fun old hold => mine_congr ((h.eq_of_stored hinj hold).trans htx.symm)
      rw [flagged_inserted]
      constructor
      · rintro ⟨old, hold, hflag⟩
        rw [h.flagged _ old hold i, hsame old hold] at hflag
        exact hflag
      · rintro ⟨hmine, p, hp, hspends⟩
        obtain ⟨txout, htxout, hours⟩ := hmine
        have hany : mtx.vout.any isMine = true :=
          any_eq_true.mpr ⟨txout, htx ▸ mem_of_getElem? htxout, hours⟩
        obtain ⟨old, hold⟩ :=
          Option.isSome_iff_exists.mp (h.kept _ (hfirst p hp i hspends) hany)
        refine ⟨old, hold, (h.flagged _ old hold i).mpr ⟨?_, p, hp, hspends⟩⟩
        exact (hsame old hold).mpr ⟨txout, htxout, hours⟩
    · rw [WalletMap.insert_of_ne hne] at hkey
      exact h.flagged key wtx hkey i

theorem mark {presented : List CTransaction} (h : WalletExact isMine hash presented spenders s)
    (hmarked : WalletMarked isMine tx.vin s s') :
    WalletExact isMine hash presented (spenders ++ [tx]) s' := by
  constructor
  · intro key wtx hkey
    obtain ⟨old, hold, htx, -⟩ := hmarked.exists_of_eq_some hkey
    have hstored := h.stored key old hold
    rw [← htx] at hstored
    exact hstored
  · intro p hp hmine
    rw [hmarked.isSome]
    exact h.kept p hp hmine
  · intro key wtx hkey i
    obtain ⟨old, hold, htx, hflags⟩ := hmarked.exists_of_eq_some hkey
    rw [hflags, h.flagged key old hold, mine_congr htx]
    simp only [mem_append, mem_singleton, or_and_right, exists_or, exists_eq_left]
    exact and_or_left.symm

end WalletExact

/-- Every transaction comes after the wallet transactions it spends from. -/
def Admissible (mapWallet : WalletMap) (txs : List CTransaction) : Prop :=
  ∀ past tx later, txs = past ++ tx :: later → ∀ txin ∈ tx.vin,
    (mapWallet txin.prevout.hash).isSome = true → ∃ p ∈ past, p.getHash hash = txin.prevout.hash

namespace WalletCall

variable {context : WalletContext} {hash : Bytes → UInt256} {call : WalletCall}
  {past : List CTransaction} {s s' : WalletMap}

theorem present_ok (hwritten : call.fWritten = true)
    (h : (call.present context hash).run s = (.ok (), s')) :
    ((s (call.tx.getHash hash)).isSome = true ∧ s' = s) ∨
      WalletMarked context.isMine (inserted (s (call.tx.getHash hash)) (.ofMerkleTx call.mtx)).1.vin
        (WalletMap.insert hash call.mtx s) s' ∨
      (call.tx.vout.any context.isMine = false ∧ WalletMarked context.isMine call.tx.vin s s') := by
  obtain ⟨_, _, hadd, hret⟩ := run_bind_eq_ok_iff.mp h
  cases hret
  rw [hwritten] at hadd
  have hresult := WalletContext.addToWalletIfInvolvingMe_ok hadd
  exact hresult

theorem isSome_of_present (hwritten : call.fWritten = true)
    (h : (call.present context hash).run s = (.ok (), s')) {key : UInt256}
    (hkey : (s key).isSome = true) : (s' key).isSome = true := by
  obtain ⟨-, rfl⟩ | hmarked | ⟨-, hmarked⟩ := present_ok hwritten h
  · exact hkey
  · rw [hmarked.isSome]
    exact WalletMap.isSome_insert hkey
  · rw [hmarked.isSome]
    exact hkey

theorem exact_present (hs : WalletExact context.isMine hash past past s)
    (hinj : HashInjective hash (past ++ [call.tx]))
    (hfirst : (s' (call.tx.getHash hash)).isSome = true →
      ∀ p ∈ past, ∀ i, Spends p.vin (call.tx.getHash hash) i → call.tx ∈ past)
    (hwritten : call.fWritten = true) (h : (call.present context hash).run s = (.ok (), s')) :
    WalletExact context.isMine hash (past ++ [call.tx]) (past ++ [call.tx]) s' := by
  obtain ⟨hknown, rfl⟩ | hmarked | ⟨hmine, hmarked⟩ := present_ok hwritten h
  · exact hs.known hinj hknown
  · have hstored : (s' (call.tx.getHash hash)).isSome = true := by
      rw [hmarked.isSome, tx, WalletMap.insert_self]
      rfl
    have hinserted : WalletExact context.isMine hash (past ++ [call.tx]) past
        (s.insert hash call.mtx) := hs.insert hinj (hfirst hstored)
    have hvin : (inserted (s (call.tx.getHash hash)) (.ofMerkleTx call.mtx)).1.vin =
        call.tx.vin := congrArg CTransaction.vin
      (inserted_toCTransaction fun wtx hwtx => hs.eq_of_stored hinj hwtx)
    rw [hvin] at hmarked
    exact hinserted.mark hmarked
  · exact (hs.skip hmine).mark hmarked

end WalletCall

section Run

variable {context : WalletContext} {hash : Bytes → UInt256} {calls : List WalletCall}
  {past : List CTransaction} {s s' : WalletMap}

theorem isSome_of_presentAll (hwritten : ∀ call ∈ calls, call.fWritten = true)
    (h : (presentAll context hash calls).run s = (.ok (), s')) {key : UInt256}
    (hkey : (s key).isSome = true) : (s' key).isSome = true := by
  induction calls generalizing s with
  | nil =>
    cases h
    exact hkey
  | cons call calls ih =>
    obtain ⟨_, next, hcall, hrest⟩ := run_bind_eq_ok_iff.mp h
    refine ih (fun c hc => hwritten c (mem_cons_of_mem _ hc)) hrest ?_
    exact call.isSome_of_present (hwritten call mem_cons_self) hcall hkey

/-- In an admissible order a transaction that an earlier one spends was presented before. -/
theorem Admissible.mem_of_spends {later : List CTransaction} {tx : CTransaction}
    (hinj : HashInjective hash (past ++ tx :: later))
    (horder : Admissible hash s' (past ++ tx :: later))
    (hstored : (s' (tx.getHash hash)).isSome = true) {p : CTransaction} (hp : p ∈ past) {i : ℕ}
    (hspends : Spends p.vin (tx.getHash hash) i) : tx ∈ past := by
  obtain ⟨before, after, rfl⟩ := append_of_mem hp
  obtain ⟨txin, htxin, hhash, -⟩ := hspends
  obtain ⟨q, hq, hqhash⟩ := horder before p (after ++ tx :: later) (by simp) txin htxin
    (hhash ▸ hstored)
  have heq : q = tx := hinj q (by simp [hq]) tx (by simp) (hqhash.trans hhash)
  rw [← heq]
  exact mem_append_left _ hq

theorem exact_presentAll (hs : WalletExact context.isMine hash past past s)
    (hwritten : ∀ call ∈ calls, call.fWritten = true)
    (hinj : HashInjective hash (past ++ calls.map tx))
    (horder : Admissible hash s' (past ++ calls.map tx))
    (h : (presentAll context hash calls).run s = (.ok (), s')) :
    WalletExact context.isMine hash (past ++ calls.map tx) (past ++ calls.map tx) s' := by
  induction calls generalizing past s with
  | nil =>
    cases h
    rw [map_nil, append_nil]
    exact hs
  | cons call calls ih =>
    obtain ⟨_, next, hcall, hrest⟩ := run_bind_eq_ok_iff.mp h
    have hlater : ∀ c ∈ calls, c.fWritten = true := fun c hc =>
      hwritten c (mem_cons_of_mem _ hc)
    have hsub : past ++ [call.tx] ⊆ past ++ (call :: calls).map tx :=
      ((List.Sublist.refl past).append (by simp)).subset
    have hnext := call.exact_present hs (fun a ha b hb => hinj a (hsub ha) b (hsub hb))
      (fun hstored p hp i => horder.mem_of_spends hinj
        (isSome_of_presentAll hlater hrest hstored) hp)
      (hwritten call mem_cons_self) hcall
    have hall : past ++ (call :: calls).map tx = (past ++ [call.tx]) ++ calls.map tx := by simp
    rw [hall] at hinj horder ⊢
    exact ih hnext hlater hinj horder hrest

end Run

/-- The flag of an output as `IsSpent` reads it; there is none for an unknown output. -/
def WalletMap.isSpent (mapWallet : WalletMap) (outpoint : COutPoint) : Bool :=
  match mapWallet outpoint.hash with
  | none => false
  | some wtx => decide (outpoint.n.toNat < wtx.vout.length) && wtx.spent outpoint.n.toNat

theorem WalletMap.isSpent_iff {mapWallet : WalletMap} {outpoint : COutPoint} :
    mapWallet.isSpent outpoint = true ↔
      ∃ wtx, mapWallet outpoint.hash = some wtx ∧ wtx.Flagged outpoint.n.toNat := by
  rw [isSpent]
  cases mapWallet outpoint.hash with
  | none => simp
  | some wtx => simp [Flagged]

/-- After calls that have returned and whose writes succeeded, in an admissible order. -/
structure Presented (context : WalletContext) (hash : Bytes → UInt256) (calls : List WalletCall)
    (mapWallet : WalletMap) : Prop where
  run : (presentAll context hash calls).run (fun _ => none) = (.ok (), mapWallet)
  written : ∀ call ∈ calls, call.fWritten = true
  hash_injective : HashInjective hash (calls.map tx)
  admissible : Admissible hash mapWallet (calls.map tx)

namespace Presented

variable {context : WalletContext} {hash : Bytes → UInt256} {calls calls' : List WalletCall}
  {mapWallet mapWallet' : WalletMap}

section

variable (h : Presented context hash calls mapWallet)
include h

theorem exact : WalletExact context.isMine hash (calls.map tx) (calls.map tx) mapWallet :=
  exact_presentAll (.empty _ _) h.written h.hash_injective h.admissible h.run

/-- An output of ours that is flagged in one wallet is stored, and flagged, in the other. -/
theorem isSpent_of_isSpent (h' : Presented context hash calls' mapWallet')
    (hsame : ∀ tx, tx ∈ calls.map WalletCall.tx → tx ∈ calls'.map WalletCall.tx)
    {outpoint : COutPoint} (hspent : mapWallet.isSpent outpoint = true) :
    mapWallet'.isSpent outpoint = true := by
  obtain ⟨wtx, hwtx, hflag⟩ := WalletMap.isSpent_iff.mp hspent
  obtain ⟨hmine, tx, htx, hspends⟩ := (h.exact.flagged _ wtx hwtx _).mp hflag
  obtain ⟨hmem, hhash⟩ := h.exact.stored _ wtx hwtx
  obtain ⟨txout, htxout, hours⟩ := hmine
  have hany : wtx.vout.any context.isMine = true :=
    any_eq_true.mpr ⟨txout, mem_of_getElem? htxout, hours⟩
  obtain ⟨wtx', hwtx'⟩ :=
    Option.isSome_iff_exists.mp (h'.exact.kept _ (hsame _ hmem) hany)
  obtain ⟨hmem', hhash'⟩ := h'.exact.stored _ wtx' hwtx'
  have heq : wtx'.toCTransaction = wtx.toCTransaction :=
    h'.hash_injective _ hmem' _ (hsame _ hmem) hhash'
  rw [hhash] at hwtx'
  refine WalletMap.isSpent_iff.mpr ⟨wtx', hwtx', (h'.exact.flagged _ wtx' hwtx' _).mpr ?_⟩
  exact ⟨(mine_congr heq).mpr ⟨txout, htxout, hours⟩, tx, hsame tx htx, hspends⟩

end

/-- The flags say exactly which outputs of ours the presented transactions spend, and do not
depend on the order. -/
theorem flags_spec (h : Presented context hash calls mapWallet) :
    (∀ key wtx, mapWallet key = some wtx → ∀ i : Fin wtx.vout.length, wtx.spent i = true ↔
      context.isMine (wtx.vout.get i) = true ∧ ∃ call ∈ calls, Spends call.tx.vin key i) ∧
    ∀ calls' mapWallet', Presented context hash calls' mapWallet' →
      (∀ tx, tx ∈ calls'.map WalletCall.tx ↔ tx ∈ calls.map WalletCall.tx) →
      ∀ outpoint, mapWallet'.isSpent outpoint = mapWallet.isSpent outpoint := by
  refine ⟨fun key wtx hwtx i => ?_, fun calls' mapWallet' h' hsame outpoint => ?_⟩
  · have hflagged := h.exact.flagged key wtx hwtx i
    rw [Flagged, and_iff_right i.2] at hflagged
    rw [hflagged, Mine, getElem?_eq_getElem i.2]
    simp
  · rw [Bool.eq_iff_iff]
    exact ⟨isSpent_of_isSpent h' h fun tx => (hsame tx).mp,
      isSpent_of_isSpent h h' fun tx => (hsame tx).mpr⟩

end Presented

namespace Sample

def keystore : WalletContext :=
  { walletContext with isMine := fun txout => txout.scriptPubKey = payScript }

def withdrawal : CMerkleTx where
  nVersion := 1
  vin := [⟨⟨savingsHash, 1⟩, [], 0xffffffff⟩]
  vout := [⟨4 * cent, [0x51]⟩]
  nLockTime := 0
  hashBlock := 0
  vMerkleBranch := []
  nIndex := none
  fMerkleVerified := false

def walletHash (bytes : Bytes) : UInt256 :=
  if bytes = withdrawal.serialize then
    0x25cf7be2ce6a1ba33e4ca94ef1d11e3b65f945cc978ac6ab715bf227761fcbb9
  else savingsHash

def call (mtx : CMerkleTx) (fWritten : Bool) : WalletCall := ⟨mtx, true, fWritten, fun _ => 10⟩

def walletOf (calls : List WalletCall) : WalletMap :=
  ((presentAll keystore walletHash calls).run fun _ => none).2

def savingsWith (vfSpent : List Bool) : CWalletTx := { savings with vfSpent := vfSpent }

/-- A copy of `savings` with its own flags is added to a wallet that has the transaction. -/
def mergeSavings (vfSpent vfNewSpent : List Bool) : Except Failure Bool × WalletMap :=
  (keystore.addToWallet walletHash true (savingsWith vfNewSpent)).run
    (update (fun _ => none) savingsHash (some (savingsWith vfSpent)))

theorem hashInjective_savings (later : List CTransaction)
    (hlater : ∀ tx ∈ later, tx = withdrawal.toCTransaction) :
    HashInjective walletHash (savings.toCTransaction :: later) := by
  have hne : savings.toCTransaction.getHash walletHash ≠
      withdrawal.toCTransaction.getHash walletHash := by decide
  intro tx htx tx' htx' h
  rcases mem_cons.mp htx with rfl | htx <;> rcases mem_cons.mp htx' with rfl | htx'
  · rfl
  · rw [hlater tx' htx'] at h
    exact absurd h hne
  · rw [hlater tx htx] at h
    exact absurd h.symm hne
  · rw [hlater tx htx, hlater tx' htx']

theorem admissible_savings {mapWallet : WalletMap} (hfirst : mapWallet 7 = none)
    (later : List CTransaction) (hlater : ∀ tx ∈ later, tx = withdrawal.toCTransaction) :
    Admissible walletHash mapWallet (savings.toCTransaction :: later) := by
  intro past tx rest h txin htxin hstored
  cases past with
  | nil =>
    cases h
    cases mem_singleton.mp htxin
    have hsome : (mapWallet 7).isSome = true := hstored
    rw [hfirst] at hsome
    cases hsome
  | cons first past =>
    obtain ⟨rfl, rfl⟩ := List.cons.inj h
    rw [hlater tx (by simp)] at htxin
    cases mem_singleton.mp htxin
    exact ⟨_, mem_cons_self, by decide⟩

end Sample

open Sample

/-- An entry without flags ignores the flags of the copy. -/
theorem addToWallet_not_merged : (mergeSavings [] [true]).1 = .ok true ∧
      ¬ ∃ wtx', (mergeSavings [] [true]).2 savingsHash = some wtx' ∧
        ∀ i < savings.vout.length, wtx'.spent i = true ↔
          (savingsWith []).spent i = true ∨ (savingsWith [true]).spent i = true ∨
          (savings.Mine keystore.isMine i ∧ Spends savings.vin savingsHash i) := by
  refine ⟨by decide, fun ⟨wtx', hwtx', hspent⟩ => ?_⟩
  have hsame : some (savingsWith []) = some wtx' := by
    rw [← hwtx']
    decide
  cases hsame
  exact absurd ((hspent 0 (by decide)).mpr (.inr (.inl rfl))) (by decide)

/-- The flag that the entry has room for is taken over. -/
theorem addToWallet_spent_iff_savings :
    ∃ wtx', (mergeSavings [false] [true, true]).2 savingsHash = some wtx' ∧
      wtx'.spent 0 = true := by
  have hrun : mergeSavings [false] [true, true] =
      (.ok true, (mergeSavings [false] [true, true]).2) := Prod.ext (by decide) rfl
  have hstored : update (fun _ => none) savingsHash (some (savingsWith [false]))
      ((savingsWith [true, true]).getHash walletHash) = some (savingsWith [false]) := by decide
  obtain ⟨wtx', hwtx', -, hspent⟩ := WalletContext.addToWallet_spent_iff hstored hrun
  exact ⟨wtx', hwtx', (hspent 0 (by decide)).mpr (.inr (.inl ⟨by decide, rfl⟩))⟩

/-- The withdrawal is presented twice, and the coin of five cents is flagged. -/
theorem flags_spec_withdrawal : Presented keystore walletHash
        [call savings.toCMerkleTx true, call withdrawal true, call withdrawal true]
        (walletOf [call savings.toCMerkleTx true, call withdrawal true, call withdrawal true]) ∧
      ∃ wtx, walletOf [call savings.toCMerkleTx true, call withdrawal true, call withdrawal true]
          savingsHash = some wtx ∧ ∃ h : 1 < wtx.vout.length, (wtx.spent 1 = true ↔
        keystore.isMine (wtx.vout.get ⟨1, h⟩) = true ∧
          ∃ c ∈ [call savings.toCMerkleTx true, call withdrawal true, call withdrawal true],
            Spends c.tx.vin savingsHash 1) := by
  have hpresented : Presented keystore walletHash
      [call savings.toCMerkleTx true, call withdrawal true, call withdrawal true]
      (walletOf [call savings.toCMerkleTx true, call withdrawal true, call withdrawal true]) := by
    refine ⟨Prod.ext (by decide) rfl, by simp [call], hashInjective_savings _ ?_,
      admissible_savings (by decide) _ ?_⟩
    · simp [call, tx]
    · simp [call, tx]
  refine ⟨hpresented, _, rfl, by decide, ?_⟩
  exact hpresented.flags_spec.1 savingsHash _ rfl ⟨1, _⟩

/-- The withdrawal cannot be written: it is stored, and the coin it spends is not flagged. -/
theorem unwritten_withdrawal_not_flagged :
    (presentAll keystore walletHash [call savings.toCMerkleTx true, call withdrawal false]).run
        (fun _ => none) =
      (.ok (), walletOf [call savings.toCMerkleTx true, call withdrawal false]) ∧
    HashInjective walletHash ([call savings.toCMerkleTx true, call withdrawal false].map tx) ∧
    Admissible walletHash (walletOf [call savings.toCMerkleTx true, call withdrawal false])
      ([call savings.toCMerkleTx true, call withdrawal false].map tx) ∧
    ∃ wtx, walletOf [call savings.toCMerkleTx true, call withdrawal false] savingsHash = some wtx ∧
      ∃ h : 1 < wtx.vout.length, ¬ (wtx.spent 1 = true ↔
        keystore.isMine (wtx.vout.get ⟨1, h⟩) = true ∧
          ∃ c ∈ [call savings.toCMerkleTx true, call withdrawal false],
            Spends c.tx.vin savingsHash 1) := by
  refine ⟨Prod.ext (by decide) rfl, hashInjective_savings _ ?_, admissible_savings (by decide) _ ?_,
    _, rfl, by decide, fun hiff => ?_⟩
  · simp [call, tx]
  · simp [call, tx]
  · have hspends : Spends (call withdrawal false).tx.vin savingsHash 1 :=
      ⟨_, List.mem_cons_self, rfl, rfl⟩
    have hspent := hiff.mpr ⟨by decide, _, by simp, hspends⟩
    exact absurd hspent (by decide)

end Primecoin
