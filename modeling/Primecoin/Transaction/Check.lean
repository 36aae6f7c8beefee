import Primecoin.Control.Except
import Primecoin.Transaction.Basic

/-!
# Context-free transaction rules

`checkTransaction` is `CTransaction::CheckTransaction` and `getMinFee` the fee a transaction of
its size must pay. `checkTransaction_ok` says what a transaction that passes satisfies; later
modules never unfold the check.
-/

namespace Primecoin

open List Except

namespace CTransaction

def checkOutputs : List CTxOut → Int64 → Except Failure Unit
  | [], _ => .ok ()
  | txout :: vout, nValueOut =>
    if txout.nValue < minTxOutAmount then
      .error (.dos 100 "CTransaction::CheckTransaction() : txout.nValue below minimum" false)
    else if maxMoney < txout.nValue then
      .error (.dos 100 "CTransaction::CheckTransaction() : txout.nValue too high" false)
    else
      let nValueOut := nValueOut + txout.nValue
      if !moneyRange nValueOut then
        .error (.dos 100 "CTransaction::CheckTransaction() : txout total out of range" false)
      else checkOutputs vout nValueOut

def checkDuplicateInputs : List CTxIn → List COutPoint → Except Failure Unit
  | [], _ => .ok ()
  | txin :: vin, vInOutPoints =>
    if txin.prevout ∈ vInOutPoints then
      .error (.dos 100 "CTransaction::CheckTransaction() : duplicate inputs" false)
    else checkDuplicateInputs vin (txin.prevout :: vInOutPoints)

/-- The size of a coinbase script, and no null prevout outside a coinbase. -/
def checkInputForm (tx : CTransaction) : Except Failure Unit :=
  if tx.isCoinBase then
    let nSize := ((tx.vin.head?.map CTxIn.scriptSig).getD []).length
    if nSize < 2 ∨ 100 < nSize then
      .error (.dos 100 "CTransaction::CheckTransaction() : coinbase script size" false)
    else .ok ()
  else if tx.vin.any fun txin => txin.prevout.isNull then
    .error (.dos 10 "CTransaction::CheckTransaction() : prevout is null" false)
  else .ok ()

def checkTransaction (tx : CTransaction) : Except Failure Unit :=
  if tx.vin = [] then
    .error (.dos 10 "CTransaction::CheckTransaction() : vin empty" false)
  else if tx.vout = [] then
    .error (.dos 10 "CTransaction::CheckTransaction() : vout empty" false)
  else if maxBlockSize < tx.getSerializeSize then
    .error (.dos 100 "CTransaction::CheckTransaction() : size limits failed" false)
  else do
    checkOutputs tx.vout 0
    checkDuplicateInputs tx.vin []
    checkInputForm tx

end CTransaction

inductive GetMinFeeMode
  | block
  | relay
  | send
  deriving DecidableEq, Repr

def defaultBlockPrioritySize : ℕ := 30000

/-- The options that override the two base fees are disabled. -/
def nMinTxFee : Int64 := minTxFee
def nMinRelayTxFee : Int64 := minTxFee

namespace CTransaction

def getMinFee (tx : CTransaction) (nBlockSize : ℕ) (fAllowFree : Bool)
    (mode : GetMinFeeMode) : Int64 :=
  let nBaseFee := if mode = .relay then nMinRelayTxFee else nMinTxFee
  let nBytes := tx.getSerializeSize
  let nNewBlockSize := nBlockSize + nBytes
  let nMinFee := (1 + Int64.ofNat (nBytes / 1000)) * nBaseFee
  let nMinFee :=
    if fAllowFree ∧ nBytes < (if mode = .send then 1000 else defaultBlockPrioritySize - 1000) then 0
    else nMinFee
  let nMinFee :=
    if nMinFee < nBaseFee ∧ mode = .send ∧ tx.vout.any (fun txout => txout.nValue < cent) then
      nBaseFee
    else nMinFee
  if nBlockSize ≠ 1 ∧ maxBlockSizeGen / 2 ≤ nNewBlockSize ∧ maxBlockSizeGen ≤ nNewBlockSize then
    maxMoney
  else
    let nMinFee :=
      if nBlockSize ≠ 1 ∧ maxBlockSizeGen / 2 ≤ nNewBlockSize then
        nMinFee * Int64.ofNat (maxBlockSizeGen / (maxBlockSizeGen - nNewBlockSize))
      else nMinFee
    if !moneyRange nMinFee then maxMoney else nMinFee

def valueOut (tx : CTransaction) : ℤ := (tx.vout.map fun txout => txout.nValue.toInt).sum

structure Checked (tx : CTransaction) : Prop where
  vin_ne_nil : tx.vin ≠ []
  vout_ne_nil : tx.vout ≠ []
  size_le : tx.getSerializeSize ≤ maxBlockSize
  amount : ∀ txout ∈ tx.vout, 1000000 ≤ txout.nValue.toInt ∧ txout.nValue.toInt ≤ 200000000000000000
  getValueOut_eq : ∃ nValueOut, tx.getValueOut = .ok nValueOut ∧
    nValueOut.toInt = tx.valueOut ∧ tx.valueOut ≤ 200000000000000000
  nodup : (tx.vin.map CTxIn.prevout).Nodup
  prevout_not_null : tx.isCoinBase = false → ∀ txin ∈ tx.vin, txin.prevout.isNull = false

/-- The running total stays in money range, so the 64-bit sum is the integer sum. -/
theorem checkOutputs_ok {vout : List CTxOut} {nValueOut : Int64}
    (h0 : moneyRange nValueOut = true) (h : checkOutputs vout nValueOut = .ok ()) :
    (∀ txout ∈ vout, 1000000 ≤ txout.nValue.toInt ∧ txout.nValue.toInt ≤ 200000000000000000) ∧
    ∃ total, getValueOutLoop vout nValueOut = .ok total ∧
      total.toInt = nValueOut.toInt + (vout.map fun txout => txout.nValue.toInt).sum ∧
      total.toInt ≤ 200000000000000000 := by
  induction vout generalizing nValueOut with
  | nil =>
    have hrange := (moneyRange_iff nValueOut).mp h0
    exact ⟨by simp, nValueOut, rfl, by simp, hrange.2⟩
  | cons txout vout ih =>
    simp only [checkOutputs, ite_error_eq_ok_iff, Bool.not_eq_true',
      Bool.not_eq_false, Int64.not_lt] at h
    obtain ⟨hmin, hmax, hsum, hrest⟩ := h
    have hlow : 1000000 ≤ txout.nValue.toInt := Int64.le_iff_toInt_le.mp hmin
    have hhigh : txout.nValue.toInt ≤ 200000000000000000 := Int64.le_iff_toInt_le.mp hmax
    have hacc := (moneyRange_iff nValueOut).mp h0
    have hadd : (nValueOut + txout.nValue).toInt = nValueOut.toInt + txout.nValue.toInt := by
      rw [Int64.toInt_add, Int.bmod_eq_of_le (by omega) (by omega)]
    obtain ⟨hamount, total, hloop, htotal, hle⟩ := ih hsum hrest
    have hthis : moneyRange txout.nValue = true :=
      (moneyRange_iff txout.nValue).mpr ⟨by omega, hhigh⟩
    refine ⟨?_, total, ?_, ?_, hle⟩
    · intro o ho
      rcases mem_cons.mp ho with rfl | ho
      · exact ⟨hlow, hhigh⟩
      · exact hamount o ho
    · simp only [getValueOutLoop, hthis, hsum, Bool.not_true, Bool.or_self,
        Bool.false_eq_true, if_false]
      exact hloop
    · rw [htotal, hadd, map_cons, sum_cons, add_assoc]

theorem checkDuplicateInputs_ok {vin : List CTxIn} {vInOutPoints : List COutPoint}
    (h : checkDuplicateInputs vin vInOutPoints = .ok ()) :
    (vin.map CTxIn.prevout).Nodup ∧ ∀ txin ∈ vin, txin.prevout ∉ vInOutPoints := by
  induction vin generalizing vInOutPoints with
  | nil => simp
  | cons txin vin ih =>
    simp only [checkDuplicateInputs, ite_error_eq_ok_iff] at h
    obtain ⟨hnew, hrest⟩ := h
    obtain ⟨hnodup, hout⟩ := ih hrest
    refine ⟨?_, ?_⟩
    · rw [map_cons, nodup_cons]
      refine ⟨?_, hnodup⟩
      intro hmem
      obtain ⟨other, hother, heq⟩ := mem_map.mp hmem
      exact hout other hother (by simp [heq])
    · intro other hother
      rcases mem_cons.mp hother with rfl | hother
      · exact hnew
      · exact fun hmem => hout other hother (mem_cons_of_mem _ hmem)

variable {tx : CTransaction}

theorem checkTransaction_ok (h : tx.checkTransaction = .ok ()) : tx.Checked := by
  simp only [checkTransaction, ite_error_eq_ok_iff, bind_eq_ok_iff] at h
  obtain ⟨hvin, hvout, hsize, _, hout, _, hdup, hform⟩ := h
  obtain ⟨hamount, total, hloop, htotal, hle⟩ := checkOutputs_ok (by decide) hout
  have hsum : total.toInt = tx.valueOut := by
    rw [htotal, valueOut]
    exact zero_add _
  refine ⟨hvin, hvout, not_lt.mp hsize, hamount, ⟨total, hloop, hsum, hsum ▸ hle⟩,
    (checkDuplicateInputs_ok hdup).1, ?_⟩
  intro hcb txin hmem
  simp only [checkInputForm, hcb, Bool.false_eq_true, if_false, ite_error_eq_ok_iff] at hform
  by_contra hnull
  exact hform.1 (any_eq_true.mpr ⟨txin, hmem, by simpa using hnull⟩)

theorem checkOutputs_avoids (vout : List CTxOut) (nValueOut : Int64) :
    Avoids Failure.isCrash (checkOutputs vout nValueOut) := by
  induction vout generalizing nValueOut with
  | nil => exact avoids_ok ()
  | cons txout vout ih => exact .guard rfl fun _ => .guard rfl fun _ => .guard rfl fun _ => ih _

theorem checkDuplicateInputs_avoids (vin : List CTxIn) (vInOutPoints : List COutPoint) :
    Avoids Failure.isCrash (checkDuplicateInputs vin vInOutPoints) := by
  induction vin generalizing vInOutPoints with
  | nil => exact avoids_ok ()
  | cons txin vin ih => exact .guard rfl fun _ => ih _

theorem checkTransaction_avoids (tx : CTransaction) :
    Avoids Failure.isCrash tx.checkTransaction := by
  refine .guard rfl fun _ => .guard rfl fun _ => .guard rfl fun _ =>
    (checkOutputs_avoids _ _).bind fun _ _ => (checkDuplicateInputs_avoids _ _).bind fun _ _ => ?_
  exact .ite (fun _ => .guard rfl fun _ => avoids_ok _) fun _ => .guard rfl fun _ => avoids_ok _

/-- The converse for outputs: amounts that are large enough and a total in range. -/
theorem checkOutputs_eq_ok {vout : List CTxOut} {nValueOut : Int64} (h0 : 0 ≤ nValueOut.toInt)
    (hamount : ∀ txout ∈ vout, 1000000 ≤ txout.nValue.toInt)
    (htotal : nValueOut.toInt + (vout.map fun txout => txout.nValue.toInt).sum ≤
      200000000000000000) : checkOutputs vout nValueOut = .ok () := by
  induction vout generalizing nValueOut with
  | nil => rfl
  | cons txout vout ih =>
    have hlow := hamount txout mem_cons_self
    have hrest : 0 ≤ (vout.map fun txout => txout.nValue.toInt).sum := by
      refine sum_nonneg fun x hx => ?_
      obtain ⟨o, ho, rfl⟩ := mem_map.mp hx
      have := hamount o (mem_cons_of_mem _ ho)
      omega
    rw [map_cons, sum_cons] at htotal
    have hadd : (nValueOut + txout.nValue).toInt = nValueOut.toInt + txout.nValue.toInt := by
      rw [Int64.toInt_add, Int.bmod_eq_of_le (by omega) (by omega)]
    simp only [checkOutputs, ite_error_eq_ok_iff, Bool.not_eq_true',
      Bool.not_eq_false, Int64.not_lt]
    refine ⟨Int64.le_iff_toInt_le.mpr hlow, ?_, ?_, ?_⟩
    · rw [Int64.le_iff_toInt_le]
      change _ ≤ 200000000000000000
      omega
    · rw [moneyRange_iff, hadd]
      omega
    · refine ih (by omega) (fun o ho => hamount o (mem_cons_of_mem _ ho)) ?_
      omega

theorem checkDuplicateInputs_eq_ok {vin : List CTxIn} {vInOutPoints : List COutPoint}
    (hnodup : (vin.map CTxIn.prevout).Nodup) (hnew : ∀ txin ∈ vin, txin.prevout ∉ vInOutPoints) :
    checkDuplicateInputs vin vInOutPoints = .ok () := by
  induction vin generalizing vInOutPoints with
  | nil => rfl
  | cons txin vin ih =>
    rw [map_cons, nodup_cons] at hnodup
    rw [checkDuplicateInputs, if_neg (hnew txin mem_cons_self)]
    refine ih hnodup.2 fun other hother hmem => ?_
    rcases mem_cons.mp hmem with heq | hmem
    · exact hnodup.1 (mem_map.mpr ⟨other, hother, heq⟩)
    · exact hnew other (mem_cons_of_mem _ hother) hmem

theorem checkTransaction_eq_ok (hvin : tx.vin ≠ []) (hvout : tx.vout ≠ [])
    (hsize : tx.getSerializeSize ≤ maxBlockSize)
    (hamount : ∀ txout ∈ tx.vout, 1000000 ≤ txout.nValue.toInt)
    (htotal : tx.valueOut ≤ 200000000000000000) (hnodup : (tx.vin.map CTxIn.prevout).Nodup)
    (hnull : ∀ txin ∈ tx.vin, txin.prevout.isNull = false) : tx.checkTransaction = .ok () := by
  have hcoinbase : tx.isCoinBase = false := by
    rw [isCoinBase]
    split
    · next txin heq => exact hnull txin (heq ▸ mem_singleton_self _)
    · rfl
  have hsum : (0 : Int64).toInt + (tx.vout.map fun txout => txout.nValue.toInt).sum ≤
      200000000000000000 := by
    change 0 + tx.valueOut ≤ _
    omega
  simp only [checkTransaction, ite_error_eq_ok_iff, bind_eq_ok_iff]
  refine ⟨hvin, hvout, not_lt.mpr hsize, (), checkOutputs_eq_ok le_rfl hamount hsum, (),
    checkDuplicateInputs_eq_ok hnodup (by simp), ?_⟩
  rw [checkInputForm, hcoinbase, if_neg Bool.false_ne_true, if_neg]
  rw [any_eq_true]
  rintro ⟨txin, hmem, h⟩
  rw [hnull txin hmem] at h
  cases h

theorem Checked.valueOut_pos (h : tx.Checked) : 0 < tx.valueOut := by
  refine sum_pos _ ?_ (by simpa using h.vout_ne_nil)
  intro x hx
  obtain ⟨txout, hmem, rfl⟩ := mem_map.mp hx
  have hamount := (h.amount txout hmem).1
  omega

/-- One base fee for each started kilobyte. -/
theorem toInt_getMinFee_block (hsize : tx.getSerializeSize ≤ maxBlockSize) :
    (tx.getMinFee 1 false .block).toInt = (1 + (tx.getSerializeSize / 1000 : ℕ)) * 1000000 := by
  have hmax : maxBlockSize = 1000000 := rfl
  have hfee : ((1 + Int64.ofNat (tx.getSerializeSize / 1000)) * nMinTxFee).toInt =
      (1 + (tx.getSerializeSize / 1000 : ℕ)) * 1000000 := by
    have hk : (Int64.ofNat (tx.getSerializeSize / 1000)).toInt =
        (tx.getSerializeSize / 1000 : ℕ) := Int64.toInt_ofNat_of_lt (by omega)
    have hone : (1 : Int64).toInt = 1 := rfl
    have hbase : nMinTxFee.toInt = 1000000 := rfl
    rw [Int64.toInt_mul, Int64.toInt_add, hk, hone, hbase,
      Int.bmod_eq_of_le (n := 1 + _) (by omega) (by omega),
      Int.bmod_eq_of_le (by omega) (by omega)]
  have hrange : moneyRange ((1 + Int64.ofNat (tx.getSerializeSize / 1000)) * nMinTxFee) = true := by
    rw [moneyRange_iff, hfee]
    omega
  simp only [getMinFee, reduceCtorEq, if_false, ne_eq, not_true_eq_false, false_and,
    Bool.false_eq_true, and_false, hrange, Bool.not_true]
  exact hfee

end CTransaction

end Primecoin
