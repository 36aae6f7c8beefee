import Primecoin.Coins.View

/-!
# The inputs of a transaction against a view

`HaveInputs`, `GetValueIn`, `GetP2SHSigOpCount`, `CheckInputs` and `UpdateCoins` ask the view for
every input again, so each can fail an assertion. `InputsAvailable` says once that the coins are
there, and from it each function is shown to return.
-/

namespace Primecoin

open List Except CCoinsView CCoins CTxIn

def scriptVerifyNone : UInt32 := 0
def scriptVerifyP2SH : UInt32 := 1
def scriptVerifyStrictEnc : UInt32 := 2
def scriptVerifyNoCache : UInt32 := 4

/-- On the two scripts, the spending transaction, the index of the input and the flags. -/
abbrev VerifyScript := CScript → CScript → CTransaction → ℕ → UInt32 → Bool

structure CScriptCheck where
  scriptPubKey : CScript
  txTo : CTransaction
  nIn : ℕ
  nFlags : UInt32
  deriving DecidableEq, Repr

def CScriptCheck.run (verifyScript : VerifyScript) (check : CScriptCheck) : Bool :=
  verifyScript ((check.txTo.vin[check.nIn]?.map scriptSig).getD []) check.scriptPubKey
    check.txTo check.nIn check.nFlags

namespace CTransaction

def getOutputFor (view : CCoinsView) (input : CTxIn) : Except Failure CTxOut := do
  let coins ← view.getCoins input.prevout.hash
  match coins.unspent input.prevout.n.toNat with
  | none => .error (.assertion "coins.IsAvailable(input.prevout.n)")
  | some txout => .ok txout

def getValueInLoop (view : CCoinsView) : List CTxIn → Int64 → Except Failure Int64
  | [], nResult => .ok nResult
  | txin :: vin, nResult => do
      let txout ← getOutputFor view txin
      getValueInLoop view vin (nResult + txout.nValue)

variable (tx : CTransaction) (view : CCoinsView)

def getValueIn : Except Failure Int64 :=
  if tx.isCoinBase then .ok 0 else getValueInLoop view tx.vin 0

def getP2SHSigOpCountLoop (view : CCoinsView) : List CTxIn → ℕ → Except Failure ℕ
  | [], nSigOps => .ok nSigOps
  | txin :: vin, nSigOps => do
      let prevout ← getOutputFor view txin
      getP2SHSigOpCountLoop view vin (if isPayToScriptHash prevout.scriptPubKey then
          nSigOps + getScriptHashSigOpCount prevout.scriptPubKey txin.scriptSig
        else nSigOps)

def getP2SHSigOpCount : Except Failure ℕ :=
  if tx.isCoinBase then .ok 0 else getP2SHSigOpCountLoop view tx.vin 0

def haveOutputs (view : CCoinsView) : List CTxIn → Except Failure Bool
  | [] => .ok true
  | txin :: vin => do
      let coins ← view.getCoins txin.prevout.hash
      if coins.isAvailable txin.prevout.n.toNat then haveOutputs view vin else .ok false

def haveInputs : Except Failure Bool :=
  if tx.isCoinBase then .ok true
  else if tx.vin.all fun txin => view.haveCoins txin.prevout.hash then haveOutputs view tx.vin
  else .ok false

def checkInputValues (view : CCoinsView) (nSpendHeight : Int32) :
    List CTxIn → Int64 → Except Failure Int64
  | [], nValueIn => .ok nValueIn
  | txin :: vin, nValueIn => do
      let coins ← view.getCoins txin.prevout.hash
      if coins.fCoinBase ∧ nSpendHeight - coins.nHeight < coinbaseMaturity then
        .error (.invalid "CheckInputs() : tried to spend coinbase at depth %d")
      else
        match coins.vout[txin.prevout.n.toNat]? with
        | none => .error (.fault "coins.vout[prevout.n]")
        | some txout =>
          let nValueIn := nValueIn + txout.nValue
          if !moneyRange txout.nValue || !moneyRange nValueIn then
            .error (.dos 100 "CheckInputs() : txin values out of range" false)
          else checkInputValues view nSpendHeight vin nValueIn

/-- The loop over the scripts. With `fDefer` the checks are handed back for the queue, otherwise
they are run here. -/
def checkInputScripts (verifyScript : VerifyScript) (tx : CTransaction) (view : CCoinsView)
    (flags : UInt32) (fDefer : Bool) : List CTxIn → ℕ → Except Failure (List CScriptCheck)
  | [], _ => .ok []
  | txin :: vin, i => do
      let coins ← view.getCoins txin.prevout.hash
      match coins.vout[txin.prevout.n.toNat]? with
      | none => .error (.fault "txFromIn.vout[txToIn.vin[nInIn].prevout.n]")
      | some txout =>
        let check : CScriptCheck := ⟨txout.scriptPubKey, tx, i, flags⟩
        if fDefer then do
          let vChecks ← checkInputScripts verifyScript tx view flags fDefer vin (i + 1)
          .ok (check :: vChecks)
        else if check.run verifyScript then
          checkInputScripts verifyScript tx view flags fDefer vin (i + 1)
        else if flags &&& scriptVerifyStrictEnc ≠ 0 ∧
            { check with nFlags := flags &&& ~~~scriptVerifyStrictEnc }.run verifyScript then
          .error (.invalid "")
        else .error (.dos 100 "" false)

/-- The result is what is pushed to `pvChecks`. -/
def checkInputs (verifyScript : VerifyScript) (tree : BlockTree) (tx : CTransaction)
    (view : CCoinsView) (flags : UInt32) (fDefer : Bool) : Except Failure (List CScriptCheck) :=
  if tx.isCoinBase then .ok []
  else do
    if !(← tx.haveInputs view) then
      .error (.invalid "CheckInputs() : %s inputs unavailable")
    else
      match view.best.bind tree with
      | none => .error (.fault "inputs.GetBestBlock()->nHeight")
      | some pindexBest => do
          let nValueIn ← checkInputValues view (pindexBest.nHeight + 1) tx.vin 0
          let nValueOut ← tx.getValueOut
          let nTxFee := nValueIn - nValueOut
          if nValueIn < nValueOut then
            .error (.dos 100 "CheckInputs() : %s value in < value out" false)
          else if nTxFee < 0 then .error (.dos 100 "CheckInputs() : %s nTxFee < 0" false)
          else if nTxFee < tx.getMinFee 1 false .block then
            .error (.dos 100 "CheckInputs() : %s not paying required fee=%s, paid=%s" false)
          else if !moneyRange nTxFee then
            .error (.dos 100 "CheckInputs() : nFees out of range" false)
          else checkInputScripts verifyScript tx view flags fDefer tx.vin 0

def spendInput (out : COutPoint) : Except Failure (CCoinsView × CTxInUndo) := do
  let coins ← view.getCoins out.hash
  match coins.spend out with
  | none => .error (.assertion "coins.Spend(txin.prevout, undo)")
  | some (coins, undo) => .ok (view.setCoins out.hash coins, undo)

def spendInputs (view : CCoinsView) : List CTxIn → Except Failure (CCoinsView × List CTxInUndo)
  | [] => .ok (view, [])
  | txin :: vin => do
      let (view, undo) ← spendInput view txin.prevout
      let (view, vprevout) ← spendInputs view vin
      .ok (view, undo :: vprevout)

/-- The inputs `UpdateCoins` spends: those of a coinbase stand for nothing. -/
def spentInputs : List CTxIn := if tx.isCoinBase then [] else tx.vin

/-- The undo data of the inputs is handed back with the view. -/
def updateCoins (nHeight : Int32) (txhash : UInt256) :
    Except Failure (CCoinsView × List CTxInUndo) := do
  let (view, vprevout) ← spendInputs view tx.spentInputs
  .ok (view.setCoins txhash (ofTransaction tx nHeight), vprevout)

def InputsAvailable (vin : List CTxIn) : Prop :=
  ∀ txin ∈ vin, ∃ txout, view.output txin.prevout = some txout

def inputValue (txin : CTxIn) : ℤ :=
  (view.output txin.prevout).elim 0 fun txout => txout.nValue.toInt

def valueIn : ℤ :=
  if tx.isCoinBase then 0 else (tx.vin.map (inputValue view)).sum

section Available

variable {view : CCoinsView} {txin : CTxIn} {vin : List CTxIn} {bad : Failure → Bool}
  {tx : CTransaction} {tree : BlockTree}

theorem InputsAvailable.head (h : InputsAvailable view (txin :: vin)) :
    ∃ coins txout, view.coins txin.prevout.hash = some coins ∧
      coins.unspent txin.prevout.n.toNat = some txout ∧
      view.output txin.prevout = some txout := by
  obtain ⟨txout, hout⟩ := h txin (by simp)
  obtain ⟨coins, hcoins, hunspent⟩ := output_eq_some_iff.mp hout
  exact ⟨coins, txout, hcoins, hunspent, hout⟩

theorem InputsAvailable.tail (h : InputsAvailable view (txin :: vin)) :
    InputsAvailable view vin := fun other hother => h other (mem_cons_of_mem _ hother)

theorem getElem?_of_unspent {coins : CCoins} {n : ℕ} {txout : CTxOut}
    (h : coins.unspent n = some txout) : coins.vout[n]? = some txout :=
  (Slots.live_eq_some_iff.mp h).1

theorem haveOutputs_eq_ok (hcoins : ∀ txin ∈ vin, view.haveCoins txin.prevout.hash = true) :
    haveOutputs view vin = .ok (vin.all fun txin => (view.output txin.prevout).isSome) := by
  induction vin with
  | nil => rfl
  | cons txin vin ih =>
    obtain ⟨coins, hfound⟩ := Option.isSome_iff_exists.mp (hcoins txin (by simp))
    have hrest := ih fun other hother => hcoins other (mem_cons_of_mem _ hother)
    have houtput : view.output txin.prevout = coins.unspent txin.prevout.n.toNat := by
      simp [output, hfound]
    have havailable : coins.isAvailable txin.prevout.n.toNat =
        (view.output txin.prevout).isSome := by
      rw [Bool.eq_iff_iff, isAvailable_iff, houtput, Option.isSome_iff_exists]
    simp only [haveOutputs, getCoins_eq_ok_iff.mpr hfound, ok_bind, havailable, hrest, all_cons]
    cases (view.output txin.prevout).isSome <;> rfl

/-- `HaveInputs` never fails an assertion; it tells whether the outputs are
there. -/
theorem haveInputs_eq_ok (htx : tx.isCoinBase = false) (view : CCoinsView) :
    tx.haveInputs view = .ok (tx.vin.all fun txin => (view.output txin.prevout).isSome) := by
  simp only [haveInputs, htx, Bool.false_eq_true, if_false]
  split_ifs with hcoins
  · exact haveOutputs_eq_ok (all_eq_true.mp hcoins)
  · congr 1
    symm
    rw [← Bool.not_eq_true, all_eq_true]
    intro hall
    refine hcoins (all_eq_true.mpr fun txin htxin => ?_)
    obtain ⟨txout, hout⟩ := Option.isSome_iff_exists.mp (hall txin htxin)
    obtain ⟨coins, hfound, -⟩ := output_eq_some_iff.mp hout
    simp [haveCoins, hfound]

theorem haveInputs_eq_true_iff (htx : tx.isCoinBase = false) :
    tx.haveInputs view = .ok true ↔ InputsAvailable view tx.vin := by
  rw [haveInputs_eq_ok htx, ok.injEq, all_eq_true]
  simp only [Option.isSome_iff_exists]
  rfl

theorem getOutputFor_eq_ok {txout : CTxOut} (h : view.output txin.prevout = some txout) :
    getOutputFor view txin = .ok txout := by
  obtain ⟨coins, hcoins, hunspent⟩ := output_eq_some_iff.mp h
  simp only [getOutputFor, bind_eq_ok_iff]
  exact ⟨coins, getCoins_eq_ok_iff.mpr hcoins, by simp [hunspent]⟩

theorem getP2SHSigOpCount_returns (htx : tx.isCoinBase = false)
    (h : InputsAvailable view tx.vin) : ∃ nSigOps, tx.getP2SHSigOpCount view = .ok nSigOps := by
  have hloop : ∀ (vin : List CTxIn) (acc : ℕ), InputsAvailable view vin →
      ∃ nSigOps, getP2SHSigOpCountLoop view vin acc = .ok nSigOps := by
    intro vin
    induction vin with
    | nil => exact fun acc _ => ⟨acc, rfl⟩
    | cons txin vin ih =>
      intro acc havail
      obtain ⟨txout, hout⟩ := havail txin (by simp)
      simp only [getP2SHSigOpCountLoop, getOutputFor_eq_ok hout, ok_bind]
      exact ih _ havail.tail
  simp only [getP2SHSigOpCount, htx, Bool.false_eq_true, if_false]
  exact hloop tx.vin 0 h

theorem getValueInLoop_returns (h : InputsAvailable view vin) (nResult : Int64) :
    ∃ nValueIn, getValueInLoop view vin nResult = .ok nValueIn := by
  induction vin generalizing nResult with
  | nil => exact ⟨nResult, rfl⟩
  | cons txin vin ih =>
    obtain ⟨txout, hout⟩ := h txin (by simp)
    simp only [getValueInLoop, getOutputFor_eq_ok hout, ok_bind]
    exact ih h.tail _

theorem getValueIn_returns (htx : tx.isCoinBase = false)
    (h : InputsAvailable view tx.vin) : ∃ nValueIn, tx.getValueIn view = .ok nValueIn := by
  simp only [getValueIn, htx, Bool.false_eq_true, if_false]
  exact getValueInLoop_returns h 0

theorem checkInputValues_ok {nSpendHeight : Int32} {nValueIn total : Int64}
    (havail : InputsAvailable view vin) (hrange : moneyRange nValueIn = true)
    (h : checkInputValues view nSpendHeight vin nValueIn = .ok total) :
    getValueInLoop view vin nValueIn = .ok total ∧ moneyRange total = true ∧
      total.toInt = nValueIn.toInt + (vin.map (inputValue view)).sum := by
  induction vin generalizing nValueIn with
  | nil =>
    cases h
    exact ⟨rfl, hrange, by simp⟩
  | cons txin vin ih =>
    obtain ⟨coins, txout, hcoins, hunspent, hout⟩ := havail.head
    simp only [checkInputValues, getCoins_eq_ok_iff.mpr hcoins, ok_bind,
      getElem?_of_unspent hunspent, ite_error_eq_ok_iff, Bool.not_eq_true,
      Bool.or_eq_false_iff, Bool.not_eq_false'] at h
    obtain ⟨-, ⟨hthis, hsum⟩, hrest⟩ := h
    obtain ⟨hloop, htotal, heq⟩ := ih havail.tail hsum hrest
    have hacc := (moneyRange_iff nValueIn).mp hrange
    have hone := (moneyRange_iff txout.nValue).mp hthis
    have hadd : (nValueIn + txout.nValue).toInt = nValueIn.toInt + txout.nValue.toInt := by
      rw [Int64.toInt_add, Int.bmod_eq_of_le (by omega) (by omega)]
    refine ⟨?_, htotal, ?_⟩
    · simp only [getValueInLoop, getOutputFor_eq_ok hout, ok_bind]
      exact hloop
    · have hvalue : inputValue view txin = txout.nValue.toInt := by simp [inputValue, hout]
      rw [heq, hadd, map_cons, sum_cons, hvalue, add_assoc]

theorem checkInputValues_mature {nSpendHeight : Int32} {nValueIn total : Int64}
    (h : checkInputValues view nSpendHeight vin nValueIn = .ok total) :
    ∀ txin ∈ vin, ∀ coins, view.coins txin.prevout.hash = some coins →
      coins.fCoinBase = true → ¬ nSpendHeight - coins.nHeight < coinbaseMaturity := by
  induction vin generalizing nValueIn with
  | nil => simp
  | cons txin vin ih =>
    simp only [checkInputValues, bind_eq_ok_iff, ite_error_eq_ok_iff, getCoins_eq_ok_iff] at h
    obtain ⟨coins, hcoins, hmature, hrest⟩ := h
    cases hout : coins.vout[txin.prevout.n.toNat]? with
    | none => simp [hout] at hrest
    | some txout =>
      simp only [hout, ite_error_eq_ok_iff] at hrest
      intro other hother found hfound hbase hlt
      rcases mem_cons.mp hother with rfl | hother
      · rw [hcoins, Option.some.injEq] at hfound
        subst hfound
        exact hmature ⟨hbase, hlt⟩
      · exact ih hrest.2 other hother found hfound hbase hlt

section

variable (hbad : ∀ f, f.isCrash = false → bad f = false)
include hbad

theorem checkInputValues_avoids
    (havail : InputsAvailable view vin) (nSpendHeight : Int32) (nValueIn : Int64) :
    Avoids bad (checkInputValues view nSpendHeight vin nValueIn) := by
  induction vin generalizing nValueIn with
  | nil => exact avoids_ok _
  | cons txin vin ih =>
    obtain ⟨coins, txout, hcoins, hunspent, -⟩ := havail.head
    simp only [checkInputValues, getCoins_eq_ok_iff.mpr hcoins, ok_bind,
      getElem?_of_unspent hunspent]
    refine Avoids.guard (hbad _ rfl) fun _ =>
      Avoids.guard (hbad _ rfl) fun _ => ?_
    exact ih havail.tail _

theorem checkInputScripts_avoids
    (verifyScript : VerifyScript) (tx : CTransaction) (flags : UInt32) (fDefer : Bool)
    (havail : InputsAvailable view vin) (i : ℕ) :
    Avoids bad (checkInputScripts verifyScript tx view flags fDefer vin i) := by
  induction vin generalizing i with
  | nil => exact avoids_ok _
  | cons txin vin ih =>
    obtain ⟨coins, txout, hcoins, hunspent, -⟩ := havail.head
    have hrest := ih havail.tail (i + 1)
    simp only [checkInputScripts, getCoins_eq_ok_iff.mpr hcoins, ok_bind,
      getElem?_of_unspent hunspent]
    refine Avoids.ite (fun _ => hrest.bind fun _ _ => avoids_ok _) fun _ =>
      Avoids.ite (fun _ => hrest) fun _ =>
        Avoids.guard (hbad _ rfl) fun _ =>
          avoids_error (hbad _ rfl)

theorem getValueOut_avoids (tx : CTransaction) : Avoids bad tx.getValueOut := by
  have hloop : ∀ (vout : List CTxOut) (nValueOut : Int64),
      Avoids bad (getValueOutLoop vout nValueOut) := by
    intro vout
    induction vout with
    | nil => exact fun _ => avoids_ok _
    | cons txout vout ih =>
      exact fun _ => Avoids.guard (hbad _ rfl) fun _ => ih _
  exact hloop tx.vout 0

end

variable {verifyScript : VerifyScript} {vChecks : List CScriptCheck}

theorem checkInputs_ok {flags : UInt32} {fDefer : Bool} (htx : tx.isCoinBase = false)
    (h : checkInputs verifyScript tree tx view flags fDefer = .ok vChecks) :
    InputsAvailable view tx.vin ∧ ∃ nValueIn nValueOut, tx.getValueIn view = .ok nValueIn ∧
      nValueIn.toInt = tx.valueIn view ∧ moneyRange nValueIn = true ∧
      tx.getValueOut = .ok nValueOut ∧ nValueOut.toInt ≤ nValueIn.toInt := by
  simp only [checkInputs, htx, Bool.false_eq_true, if_false, bind_eq_ok_iff] at h
  obtain ⟨fHave, hhave, h⟩ := h
  cases fHave with
  | false => cases h
  | true =>
    have havail := (haveInputs_eq_true_iff htx).mp hhave
    simp only [Bool.not_true, Bool.false_eq_true, if_false] at h
    cases hbest : view.best.bind tree with
    | none => simp [hbest] at h
    | some pindexBest =>
      simp only [hbest, bind_eq_ok_iff, ite_error_eq_ok_iff] at h
      obtain ⟨nValueIn, hvalues, nValueOut, hout, hle, -⟩ := h
      obtain ⟨hloop, hrange, hsum⟩ := checkInputValues_ok havail rfl hvalues
      refine ⟨havail, nValueIn, nValueOut, ?_, ?_, hrange, hout, ?_⟩
      · simp only [getValueIn, htx, Bool.false_eq_true, if_false, hloop]
      · rw [hsum, valueIn, htx, if_neg Bool.false_ne_true]
        exact zero_add _
      · exact Int64.le_iff_toInt_le.mp (Int64.not_lt.mp hle)

theorem checkInputs_mature {flags : UInt32} {fDefer : Bool} (htx : tx.isCoinBase = false)
    (h : checkInputs verifyScript tree tx view flags fDefer = .ok vChecks) :
    ∃ pindexBest, view.best.bind tree = some pindexBest ∧ ∀ txin ∈ tx.vin, ∀ coins,
      view.coins txin.prevout.hash = some coins → coins.fCoinBase = true →
        ¬ pindexBest.nHeight + 1 - coins.nHeight < coinbaseMaturity := by
  simp only [checkInputs, htx, Bool.false_eq_true, if_false, bind_eq_ok_iff] at h
  obtain ⟨fHave, -, h⟩ := h
  cases fHave with
  | false => cases h
  | true =>
    simp only [Bool.not_true, Bool.false_eq_true, if_false] at h
    cases hbest : view.best.bind tree with
    | none => simp [hbest] at h
    | some pindexBest =>
      simp only [hbest, bind_eq_ok_iff] at h
      obtain ⟨nValueIn, hvalues, -⟩ := h
      exact ⟨pindexBest, rfl, checkInputValues_mature hvalues⟩

/-- `CheckInputs` fails no assertion. It follows the pointer to the best block of the view, which
has to be there if a fault counts as bad. -/
theorem checkInputs_avoids (hbad : ∀ f, f.isCrash = false → bad f = false)
    (verifyScript : VerifyScript) (tx : CTransaction)
    (flags : UInt32) (fDefer : Bool)
    (hbest : bad (.fault "inputs.GetBestBlock()->nHeight") = true →
      ∃ pindex, view.best.bind tree = some pindex) :
    Avoids bad (checkInputs verifyScript tree tx view flags fDefer) := by
  unfold checkInputs
  refine Avoids.ite (fun _ => avoids_ok _) fun htx => ?_
  rw [Bool.not_eq_true] at htx
  rw [haveInputs_eq_ok htx, ok_bind]
  refine Avoids.guard (hbad _ rfl) fun hhave => ?_
  have havail : InputsAvailable view tx.vin := by
    rw [Bool.not_eq_true, Bool.not_eq_false'] at hhave
    rw [← haveInputs_eq_true_iff htx, haveInputs_eq_ok htx, hhave]
  cases hfound : view.best.bind tree with
  | none =>
    refine avoids_error ?_
    rw [← Bool.not_eq_true]
    intro hfault
    obtain ⟨pindex, hpindex⟩ := hbest hfault
    rw [hfound] at hpindex
    cases hpindex
  | some pindex =>
    refine (checkInputValues_avoids hbad havail _ _).bind fun nValueIn _ =>
      (getValueOut_avoids hbad tx).bind fun nValueOut _ => ?_
    refine Avoids.guard (hbad _ rfl) fun _ =>
      Avoids.guard (hbad _ rfl) fun _ =>
        Avoids.guard (hbad _ rfl) fun _ =>
          Avoids.guard (hbad _ rfl) fun _ => ?_
    exact checkInputScripts_avoids hbad verifyScript tx flags fDefer havail 0

end Available

/-! ## Spending -/

section Spend

variable {view view' : CCoinsView} {vin : List CTxIn} {out : COutPoint} {undo : CTxInUndo}
  {txid txhash : UInt256} {txin : CTxIn} {vprevout : List CTxInUndo} {tx : CTransaction}
  {nHeight : Int32}

theorem spendInput_eq_ok_iff : spendInput view out = .ok (view', undo) ↔
      ∃ coins txout, view.coins out.hash = some coins ∧ coins.unspent out.n.toNat = some txout ∧
        view' = view.setCoins out.hash (coins.spent out.n.toNat) ∧
        undo = coins.undo out.n.toNat txout := by
  simp only [spendInput, bind_eq_ok_iff, getCoins_eq_ok_iff]
  refine exists_congr fun coins => ?_
  cases hspend : coins.spend out with
  | none =>
    simp only [reduceCtorEq, and_false, false_iff, not_exists, not_and]
    intro txout _ hunspent _ _
    have hsome := spend_eq_some_iff.mpr ⟨txout, hunspent, rfl, rfl⟩
    rw [hspend] at hsome
    cases hsome
  | some result =>
    obtain ⟨spent, undo'⟩ := result
    obtain ⟨txout, hunspent, hspent, hundo⟩ := spend_eq_some_iff.mp hspend
    simp only [hunspent, ok.injEq, Prod.mk.injEq, Option.some.injEq, hspent, hundo]
    constructor
    · rintro ⟨hcoins, rfl, rfl⟩
      exact ⟨txout, hcoins, rfl, rfl, rfl⟩
    · rintro ⟨_, hcoins, rfl, rfl, rfl⟩
      exact ⟨hcoins, rfl, rfl⟩

theorem spendInput_returns {txout : CTxOut} (h : view.output out = some txout) :
    ∃ view' undo, spendInput view out = .ok (view', undo) := by
  obtain ⟨coins, hcoins, hunspent⟩ := output_eq_some_iff.mp h
  simp only [spendInput_eq_ok_iff]
  exact ⟨_, _, coins, txout, hcoins, hunspent, rfl, rfl⟩

section

variable (h : spendInput view out = .ok (view', undo))
include h

theorem output_spendInput (other : COutPoint) :
    view'.output other = if other = out then none else view.output other := by
  rw [spendInput_eq_ok_iff] at h
  obtain ⟨coins, txout, hcoins, -, rfl, -⟩ := h
  by_cases hhash : other.hash = out.hash
  · have hn : other = out ↔ other.n.toNat = out.n.toNat := by
      rw [UInt32.toNat_inj]
      constructor
      · rintro rfl
        rfl
      · exact fun hn => by cases other; cases out; simp_all
    simp only [output, hhash, coins_setCoins_self, hcoins, Option.bind_some, unspent_spent, hn]
  · have hne : other ≠ out := fun heq => hhash (heq ▸ rfl)
    simp only [output, coins_setCoins_of_ne hhash, hne, if_false]

theorem best_spendInput : view'.best = view.best := by
  rw [spendInput_eq_ok_iff] at h
  obtain ⟨coins, txout, -, -, rfl, -⟩ := h
  rfl

theorem coins_spendInput_of_ne (hne : txid ≠ out.hash) : view'.coins txid = view.coins txid := by
  rw [spendInput_eq_ok_iff] at h
  obtain ⟨coins, txout, -, -, rfl, -⟩ := h
  exact coins_setCoins_of_ne hne view _

end

theorem supply_spendInput (h : spendInput view txin.prevout = .ok (view', undo)) :
    view'.supply = view.supply - inputValue view txin := by
  rw [spendInput_eq_ok_iff] at h
  obtain ⟨coins, txout, hcoins, hunspent, rfl, -⟩ := h
  have hvalue : inputValue view txin = txout.nValue.toInt := by
    simp [inputValue, output, hcoins, hunspent]
  rw [supply_setCoins, valueAt, hcoins, Option.elim_some, value_spent hunspent, hvalue]
  ring

theorem spendInputs_cons_eq_ok_iff : spendInputs view (txin :: vin) = .ok (view', vprevout) ↔
      ∃ next undo rest, spendInput view txin.prevout = .ok (next, undo) ∧
        spendInputs next vin = .ok (view', rest) ∧ vprevout = undo :: rest := by
  simp only [spendInputs, bind_eq_ok_iff, Prod.exists, ok.injEq, Prod.mk.injEq]
  constructor
  · rintro ⟨next, undo, hfirst, _, rest, hrest, rfl, rfl⟩
    exact ⟨next, undo, rest, hfirst, hrest, rfl⟩
  · rintro ⟨next, undo, rest, hfirst, hrest, rfl⟩
    exact ⟨next, undo, hfirst, view', rest, hrest, rfl, rfl⟩

theorem output_tail_spendInput {other : CTxIn}
    (hnodup : ((txin :: vin).map prevout).Nodup) (hother : other ∈ vin)
    (h : spendInput view txin.prevout = .ok (view', undo)) :
    view'.output other.prevout = view.output other.prevout := by
  rw [map_cons, nodup_cons] at hnodup
  have hne : other.prevout ≠ txin.prevout := fun heq =>
    hnodup.1 (heq ▸ mem_map_of_mem hother)
  rw [output_spendInput h, if_neg hne]

theorem spendInputs_returns (havail : InputsAvailable view vin) (hnodup : (vin.map prevout).Nodup) :
    ∃ view' vprevout, spendInputs view vin = .ok (view', vprevout) := by
  induction vin generalizing view with
  | nil => exact ⟨view, [], rfl⟩
  | cons txin vin ih =>
    obtain ⟨txout, hout⟩ := havail txin (by simp)
    obtain ⟨next, undo, hfirst⟩ := spendInput_returns hout
    have hnext : InputsAvailable next vin := by
      intro other hother
      rw [output_tail_spendInput hnodup hother hfirst]
      exact havail.tail other hother
    obtain ⟨view', rest, hrest⟩ := ih hnext (nodup_cons.mp hnodup).2
    refine ⟨view', undo :: rest, ?_⟩
    rw [spendInputs_cons_eq_ok_iff]
    exact ⟨next, undo, rest, hfirst, hrest, rfl⟩

section

variable (h : spendInputs view vin = .ok (view', vprevout))
include h

theorem best_spendInputs : view'.best = view.best := by
  induction vin generalizing view vprevout with
  | nil => cases h; rfl
  | cons txin vin ih =>
    rw [spendInputs_cons_eq_ok_iff] at h
    obtain ⟨next, undo, rest, hfirst, hrest, -⟩ := h
    rw [ih hrest, best_spendInput hfirst]

theorem output_spendInputs (out : COutPoint) :
    view'.output out = if out ∈ vin.map prevout then none else view.output out := by
  induction vin generalizing view vprevout with
  | nil => cases h; rfl
  | cons txin vin ih =>
    rw [spendInputs_cons_eq_ok_iff] at h
    obtain ⟨next, undo, rest, hfirst, hrest, -⟩ := h
    rw [ih hrest, output_spendInput hfirst, map_cons]
    by_cases hhead : out = txin.prevout <;> simp [hhead]

theorem coins_spendInputs_of_notMem
    (hne : ∀ txin ∈ vin, txid ≠ txin.prevout.hash) : view'.coins txid = view.coins txid := by
  induction vin generalizing view vprevout with
  | nil => cases h; rfl
  | cons txin vin ih =>
    rw [spendInputs_cons_eq_ok_iff] at h
    obtain ⟨next, undo, rest, hfirst, hrest, -⟩ := h
    rw [ih hrest fun other hother => hne other (mem_cons_of_mem _ hother),
      coins_spendInput_of_ne hfirst (hne txin (by simp))]

end

theorem supply_spendInputs (hnodup : (vin.map prevout).Nodup)
    (h : spendInputs view vin = .ok (view', vprevout)) :
    view'.supply = view.supply - (vin.map (inputValue view)).sum := by
  induction vin generalizing view vprevout with
  | nil => cases h; simp
  | cons txin vin ih =>
    rw [spendInputs_cons_eq_ok_iff] at h
    obtain ⟨next, undo, rest, hfirst, hrest, -⟩ := h
    have hsame : vin.map (inputValue next) = vin.map (inputValue view) :=
      map_congr_left fun other hother => by
        simp only [inputValue, output_tail_spendInput hnodup hother hfirst]
    rw [ih (nodup_cons.mp hnodup).2 hrest, hsame, supply_spendInput hfirst, map_cons, sum_cons]
    ring

theorem sum_inputValue_spentInputs (tx : CTransaction) (view : CCoinsView) :
    (tx.spentInputs.map (inputValue view)).sum = tx.valueIn view := by
  unfold spentInputs valueIn
  split_ifs <;> simp

theorem Checked.nodup_spentInputs (h : tx.Checked) : (tx.spentInputs.map prevout).Nodup := by
  unfold spentInputs
  split_ifs
  · exact nodup_nil
  · exact h.nodup

theorem updateCoins_eq_ok_iff : tx.updateCoins view nHeight txhash = .ok (view', vprevout) ↔
      ∃ spent, spendInputs view tx.spentInputs = .ok (spent, vprevout) ∧
        view' = spent.setCoins txhash (ofTransaction tx nHeight) := by
  simp only [updateCoins, bind_eq_ok_iff, Prod.exists, ok.injEq, Prod.mk.injEq]
  constructor
  · rintro ⟨spent, _, hspent, rfl, rfl⟩
    exact ⟨spent, hspent, rfl⟩
  · rintro ⟨spent, hspent, rfl⟩
    exact ⟨spent, vprevout, hspent, rfl, rfl⟩

theorem best_updateCoins (h : tx.updateCoins view nHeight txhash = .ok (view', vprevout)) :
    view'.best = view.best := by
  rw [updateCoins_eq_ok_iff] at h
  obtain ⟨spent, hspent, rfl⟩ := h
  rw [best_setCoins, best_spendInputs hspent]

theorem nonNegative_spendInputs (hview : view.NonNegative)
    (h : spendInputs view vin = .ok (view', vprevout)) : view'.NonNegative := by
  induction vin generalizing view vprevout with
  | nil =>
    cases h
    exact hview
  | cons txin vin ih =>
    rw [spendInputs_cons_eq_ok_iff] at h
    obtain ⟨next, undo, rest, hfirst, hrest, -⟩ := h
    rw [spendInput_eq_ok_iff] at hfirst
    obtain ⟨coins, txout, hcoins, -, rfl, -⟩ := hfirst
    refine ih (hview.setCoins fun n other hother => ?_) hrest
    rw [unspent_spent] at hother
    split_ifs at hother
    exact hview _ coins n other hcoins hother

theorem nonNegative_updateCoins (hchecked : tx.Checked) (hview : view.NonNegative)
    (h : tx.updateCoins view nHeight txhash = .ok (view', vprevout)) : view'.NonNegative := by
  rw [updateCoins_eq_ok_iff] at h
  obtain ⟨spent, hspent, rfl⟩ := h
  refine (nonNegative_spendInputs hview hspent).setCoins fun n txout hout => ?_
  have hamount := hchecked.amount txout (mem_of_getElem? (getElem?_of_unspent hout))
  omega

theorem InputsAvailable.ne_of_vacant (h : InputsAvailable view vin)
    (hvacant : view.Vacant txid) : ∀ txin ∈ vin, txid ≠ txin.prevout.hash := by
  rintro txin htxin rfl
  obtain ⟨txout, hout⟩ := h txin htxin
  rw [hvacant.output_eq_none] at hout
  cases hout

/-- `UpdateCoins` moves the inputs to the outputs: the supply changes by their difference, and
other vacant transactions stay vacant. -/
theorem updateCoins_ok (hchecked : tx.Checked)
    (havail : InputsAvailable view tx.spentInputs) (hvacant : view.Vacant txhash)
    (h : tx.updateCoins view nHeight txhash = .ok (view', vprevout)) :
    view'.supply = view.supply - tx.valueIn view + tx.valueOut ∧
      ∀ txid, txid ≠ txhash → view.Vacant txid → view'.Vacant txid := by
  rw [updateCoins_eq_ok_iff] at h
  obtain ⟨spent, hspent, rfl⟩ := h
  have hself := coins_spendInputs_of_notMem hspent (havail.ne_of_vacant hvacant)
  refine ⟨?_, ?_⟩
  · have hzero : spent.valueAt txhash = 0 := by
      rw [valueAt, hself]
      exact hvacant.valueAt_eq_zero
    rw [supply_setCoins, hzero, sub_zero, hchecked.value_ofTransaction,
      supply_spendInputs hchecked.nodup_spentInputs hspent, sum_inputValue_spentInputs]
  · intro txid hne hother coins hcoins
    rw [coins_setCoins_of_ne hne,
      coins_spendInputs_of_notMem hspent (havail.ne_of_vacant hother)] at hcoins
    exact hother coins hcoins

theorem updateCoins_returns (nHeight : Int32) (txhash : UInt256)
    (hchecked : tx.Checked) (havail : InputsAvailable view tx.spentInputs) :
    ∃ view' vprevout, tx.updateCoins view nHeight txhash = .ok (view', vprevout) := by
  obtain ⟨spent, vprevout, hspent⟩ := spendInputs_returns havail hchecked.nodup_spentInputs
  simp only [updateCoins_eq_ok_iff]
  exact ⟨_, vprevout, spent, hspent, rfl⟩

end Spend

end CTransaction

/-! A view at the genesis block with one output that anybody can spend. -/

namespace Sample

def verifyScript : VerifyScript := fun scriptSig scriptPubKey _ _ _ =>
  scriptSig = [] && scriptPubKey = [0x51]

def pindexGenesis : CBlockIndex where
  phashBlock := some (hashGenesisBlock .official)
  pprev := none
  pnext := none
  nHeight := 0
  nFile := 0
  nDataPos := 8
  nUndoPos := 0
  nChainWork := 1
  nMoneySupply := 0
  nStatus := blockValidTransactions ||| blockHaveData
  nVersion := 2
  hashMerkleRoot := (genesisBlock .official).hashMerkleRoot
  nTime := 1373064429
  nBits := 0x06000000
  nNonce := 383

def tree : BlockTree := fun p => if p = hashGenesisBlock .official then some pindexGenesis else none

def view : CCoinsView where
  coins txid := if txid = 0x1111 then some ⟨false, [⟨1000000000, [0x51]⟩], 1, 1⟩ else none
  best := some (hashGenesisBlock .official)

end Sample

end Primecoin
