import Primecoin.Control.Retry
import Primecoin.Wallet.SelectCoins

/-!
# Creating a transaction

A round selects coins for the amounts and the fee so far, moves change that is too small to the
fee, signs, and looks at the size: if the fee does not cover it, the next round starts with the
fee that would have.

The fee a size asks for is a multiple of one amount, at most 100 times it. Each round raises it,
so there are no more than 101 rounds.
-/

namespace Primecoin

open List COutput CTxIn
def maxStandardTxSize : ℕ := 100000

def CTxOut.isDust (txout : CTxOut) : Bool :=
  let nSize : Int32 := 3 * (Int32.ofNat txout.getSerializeSize + 148)
  txout.nValue * 1000 / nSize.toInt64 < nMinRelayTxFee

/-- The random choices, the order of coins by address, the change script of the reserved key if
there is one, and the signatures. -/
structure CreateRound where
  selection : Fin 3 → SelectRandom
  ordered : Finset COutPoint → List COutPoint
  nodup_ordered : ∀ setCoins, (ordered setCoins).Nodup
  toFinset_ordered : ∀ setCoins, (ordered setCoins).toFinset = setCoins
  getRandInt : ℕ → ℕ
  getRandInt_lt : ∀ nMax, 0 < nMax → getRandInt nMax < nMax
  scriptChange : Option CScript
  signSignature : CTransaction → ℕ → COutPoint → Option CScript

abbrev Payee := CScript × Int64

def Payee.txout (payee : Payee) : CTxOut := ⟨payee.2, payee.1⟩

/-- The transaction that is returned, and `nFeeRet`. -/
structure Created where
  wtxNew : CTransaction
  nFeeRet : Int64
  deriving DecidableEq, Repr

structure ChangeAndFee where
  nChange : Int64
  nFeeRet : Int64
  deriving DecidableEq, Repr

namespace ChangeAndFee

def raiseFee (c : ChangeAndFee) : ChangeAndFee :=
  if c.nFeeRet < nMinTxFee ∧ 0 < c.nChange ∧ c.nChange < cent then
    let nMoveToFee := min c.nChange (nMinTxFee - c.nFeeRet)
    ⟨c.nChange - nMoveToFee, c.nFeeRet + nMoveToFee⟩
  else c

def dropSubCent (c : ChangeAndFee) : ChangeAndFee :=
  if 0 < c.nChange ∧ c.nChange < minTxOutAmount then ⟨0, c.nFeeRet + c.nChange⟩ else c

end ChangeAndFee

def settleChange (round : CreateRound) (vout : List CTxOut) (c : ChangeAndFee) :
    Except Failure (List CTxOut × Int64) :=
  if 0 < c.nChange then
    match round.scriptChange with
    | none => .error (.assertion "reservekey.GetReservedKey(vchPubKey)")
    | some scriptChange =>
      let newTxOut : CTxOut := ⟨c.nChange, scriptChange⟩
      if newTxOut.isDust then .ok (vout, c.nFeeRet + c.nChange)
      else .ok (vout.insertIdx (round.getRandInt (vout.length + 1)) newTxOut, c.nFeeRet)
  else .ok (vout, c.nFeeRet)

/-- `CTxIn(coin.first->GetHash(), coin.second)`; the hash is the key of the coin. -/
def COutPoint.toTxIn (coin : COutPoint) : CTxIn := ⟨coin, [], 0xffffffff⟩

def CTransaction.setScriptSig (tx : CTransaction) (nIn : ℕ) (scriptSig : CScript) : CTransaction :=
  { tx with vin := tx.vin.modify nIn fun txin => { txin with scriptSig := scriptSig } }

open CTransaction

def signInputs (signSignature : CTransaction → ℕ → COutPoint → Option CScript) :
    List COutPoint → ℕ → CTransaction → Option CTransaction
  | [], _, tx => some tx
  | coin :: coins, nIn, tx =>
    match signSignature tx nIn coin with
    | none => none
    | some scriptSig => signInputs signSignature coins (nIn + 1) (tx.setScriptSig nIn scriptSig)

variable (nTransactionFee : Int64)

def payFee (nBytes : ℕ) : Int64 :=
  nTransactionFee * (1 + Int64.ofNat (nBytes / 1000))

variable (tx : CTransaction)

def requiredFee : Int64 :=
  max (payFee nTransactionFee tx.getSerializeSize) (tx.getMinFee 1 false .send)

/-- The end of a round: the transaction is returned, or the fee is raised. -/
def checkFee (nFeeRet : Int64) : Except Failure (Created ⊕ Int64) :=
  if maxStandardTxSize ≤ tx.getSerializeSize then .error (.error "Transaction too large")
  else if nFeeRet < requiredFee nTransactionFee tx then
    .ok (.inr (requiredFee nTransactionFee tx))
  else .ok (.inl ⟨tx, nFeeRet⟩)

/-- The running total of the amounts; `none` is the failure on a negative one. -/
def sumAmounts : List Payee → Int64 → Option Int64
  | [], nValue => some nValue
  | payee :: vecSend, nValue =>
    if nValue < 0 then none else sumAmounts vecSend (nValue + payee.2)

namespace CWallet

variable {hash : Bytes → UInt256} (wallet : CWallet hash) (context : WalletContext)

/-- The version and the lock time are those that `wtxNew` came with. -/
def createRound (nTransactionFee : Int64)
    (vecSend : List Payee) (wtxNew : CTransaction) (nValue : Int64) (round : CreateRound)
    (nFeeRet : Int64) : Except Failure (Created ⊕ Int64) :=
  if vecSend.any fun payee => payee.txout.isDust then
    .error (.error "Transaction amount too small")
  else
    match wallet.selectCoins context (nValue + nFeeRet) round.selection with
    | none => .error (.error "Insufficient funds")
    | some (setCoins, nValueIn) => do
        let c : ChangeAndFee := ⟨nValueIn - nValue - nFeeRet, nFeeRet⟩
        let (vout, nFeeRet) ← settleChange round (vecSend.map Payee.txout) c.raiseFee.dropSubCent
        let coins := round.ordered setCoins
        match signInputs round.signSignature coins 0
            { wtxNew with vin := coins.map COutPoint.toTxIn, vout := vout } with
        | none => .error (.error "Signing transaction failed")
        | some tx => checkFee nTransactionFee tx nFeeRet

/-- At most `n` rounds. -/
def createTransaction (nTransactionFee : Int64)
    (vecSend : List Payee) (wtxNew : CTransaction) (rounds : ℕ → CreateRound) (n : ℕ) :
    Option (Except Failure Created) :=
  match sumAmounts vecSend 0 with
  | none => some (.error (.error "Transaction amounts must be positive"))
  | some nValue =>
    if vecSend.isEmpty ∨ nValue < 0 then
      some (.error (.error "Transaction amounts must be positive"))
    else
      Retry.loop (fun k => wallet.createRound context nTransactionFee vecSend wtxNew nValue
        (rounds k)) n 0 nTransactionFee

end CWallet

/-! ### The fees -/

/-- The amount that the fee of every size is a multiple of. -/
def feeUnit : ℤ := max nTransactionFee.toInt cent.toInt

theorem cent_toInt : cent.toInt = 1000000 := by decide

/-- The amounts, the fee of the largest transaction and the cent that a selection looks beyond its
target add up in 64 bits. -/
structure FeeFits (nValue : ℤ) (nTransactionFee : Int64) : Prop where
  nonneg : 0 ≤ nTransactionFee.toInt
  lt : nValue + 100 * nTransactionFee.toInt + cent.toInt < 2 ^ 63

theorem toInt_kilobytes {n : ℕ} (h : n < 100) : (1 + Int64.ofNat n).toInt = 1 + n := by
  rw [Int64.toInt_add, Int64.toInt_ofNat_of_lt (by omega)]
  change (1 + (n : ℤ)).bmod _ = _
  exact Int.bmod_eq_of_le (by omega) (by omega)

theorem toInt_kilobytes_mul {n : ℕ} (hn : n < 100) {fee : Int64} (hnonneg : 0 ≤ fee.toInt)
    (hlt : 100 * fee.toInt < 2 ^ 63) :
    (fee * (1 + Int64.ofNat n)).toInt = (1 + n) * fee.toInt := by
  have hle : (1 + (n : ℤ)) * fee.toInt ≤ 100 * fee.toInt :=
    Int.mul_le_mul_of_nonneg_right (by omega) hnonneg
  have hpos : 0 ≤ (1 + (n : ℤ)) * fee.toInt := Int.mul_nonneg (by omega) hnonneg
  rw [Int64.toInt_mul, toInt_kilobytes hn, mul_comm, Int.bmod_eq_of_le (by omega) (by omega)]

theorem kilobytes_lt {tx : CTransaction} (hsize : tx.getSerializeSize < maxStandardTxSize) :
    tx.getSerializeSize / 1000 < 100 := by
  rw [maxStandardTxSize] at hsize
  omega

theorem toInt_getMinFee {tx : CTransaction} (hsize : tx.getSerializeSize < maxStandardTxSize) :
    (tx.getMinFee 1 false .send).toInt = (1 + (tx.getSerializeSize / 1000 : ℕ)) * cent.toInt := by
  have hkilobytes := kilobytes_lt hsize
  have hfee := toInt_kilobytes_mul hkilobytes (show 0 ≤ cent.toInt by decide) (by decide)
  rw [Int64.mul_comm] at hfee
  have hbase : ¬ (1 + Int64.ofNat (tx.getSerializeSize / 1000)) * cent < cent := by
    rw [Int64.lt_iff_toInt_lt, hfee, cent_toInt]
    omega
  have hrange : moneyRange ((1 + Int64.ofNat (tx.getSerializeSize / 1000)) * cent) = true := by
    rw [moneyRange_iff, hfee, cent_toInt]
    omega
  rw [← hfee]
  simp [getMinFee, nMinTxFee, minTxFee, hbase, hrange]

/-! ### Change -/

namespace ChangeAndFee

/-- Change and fee share an amount. -/
structure Splits (total : ℤ) (c : ChangeAndFee) : Prop where
  nChange_nonneg : 0 ≤ c.nChange.toInt
  nFeeRet_nonneg : 0 ≤ c.nFeeRet.toInt
  sum_eq : c.nChange.toInt + c.nFeeRet.toInt = total
  lt : total < 2 ^ 63

variable {total : ℤ} {c : ChangeAndFee}

theorem Splits.move (hc : c.Splits total) {n : Int64} (hn : 0 ≤ n.toInt)
    (hle : n.toInt ≤ c.nChange.toInt) :
    Splits total ⟨c.nChange - n, c.nFeeRet + n⟩ ∧ c.nFeeRet.toInt ≤ (c.nFeeRet + n).toInt ∧
      (c.nChange - n).toInt = c.nChange.toInt - n.toInt := by
  have hfee := hc.nFeeRet_nonneg
  have hsum := hc.sum_eq
  have hlt := hc.lt
  have hsub : (c.nChange - n).toInt = c.nChange.toInt - n.toInt := by
    rw [Int64.toInt_sub, Int.bmod_eq_of_le (by omega) (by omega)]
  have hadd : (c.nFeeRet + n).toInt = c.nFeeRet.toInt + n.toInt := by
    rw [Int64.toInt_add, Int.bmod_eq_of_le (by omega) (by omega)]
  refine ⟨⟨?_, ?_, ?_, hlt⟩, ?_, hsub⟩
  · change 0 ≤ (c.nChange - n).toInt
    omega
  · change 0 ≤ (c.nFeeRet + n).toInt
    omega
  · change (c.nChange - n).toInt + (c.nFeeRet + n).toInt = total
    omega
  · omega

theorem Splits.raiseFee (hc : c.Splits total) :
    c.raiseFee.Splits total ∧ c.nFeeRet.toInt ≤ c.raiseFee.nFeeRet.toInt := by
  rw [ChangeAndFee.raiseFee]
  split_ifs with h
  · have hfee := hc.nFeeRet_nonneg
    have hmin : c.nFeeRet.toInt < 1000000 := Int64.lt_iff_toInt_lt.mp h.1
    have hsub : (nMinTxFee - c.nFeeRet).toInt = 1000000 - c.nFeeRet.toInt := by
      rw [Int64.toInt_sub]
      change (1000000 - c.nFeeRet.toInt).bmod _ = _
      exact Int.bmod_eq_of_le (by omega) (by omega)
    have hmove : (min c.nChange (nMinTxFee - c.nFeeRet)).toInt =
        min c.nChange.toInt (1000000 - c.nFeeRet.toInt) := by
      rw [toInt_min, hsub]
    have hchange := hc.nChange_nonneg
    obtain ⟨hsplits, hle, -⟩ := hc.move (n := min c.nChange (nMinTxFee - c.nFeeRet))
      (by rw [hmove]; omega) (by rw [hmove]; exact min_le_left _ _)
    exact ⟨hsplits, hle⟩
  · exact ⟨hc, le_rfl⟩

theorem Splits.dropSubCent (hc : c.Splits total) :
    c.dropSubCent.Splits total ∧ c.nFeeRet.toInt ≤ c.dropSubCent.nFeeRet.toInt ∧
      (0 < c.dropSubCent.nChange → minTxOutAmount ≤ c.dropSubCent.nChange) := by
  rw [ChangeAndFee.dropSubCent]
  split_ifs with h
  · obtain ⟨hsplits, hle, -⟩ := hc.move hc.nChange_nonneg le_rfl
    rw [Int64.sub_self] at hsplits
    exact ⟨hsplits, hle, fun hpos => absurd hpos (show ¬ (0 : Int64) < 0 by decide)⟩
  · refine ⟨hc, le_rfl, fun hpos => ?_⟩
    rw [not_and, Int64.not_lt] at h
    exact h hpos

end ChangeAndFee

/-- The outputs pay the payees and at most one more output, the change. -/
structure PaysWithChange (payees vout change : List CTxOut) : Prop where
  length_le : change.length ≤ 1
  perm : vout.Perm (change ++ payees)
  minTxOutAmount_le : ∀ txout ∈ change, minTxOutAmount ≤ txout.nValue
  not_isDust : ∀ txout ∈ change, txout.isDust = false

theorem paysWithChange_nil (payees : List CTxOut) : PaysWithChange payees payees [] :=
  ⟨Nat.zero_le 1, .refl _, fun _ h => absurd h not_mem_nil, fun _ h => absurd h not_mem_nil⟩

def sumOutputs (vout : List CTxOut) : ℤ := (vout.map fun txout => txout.nValue.toInt).sum

theorem settleChange_ok {round : CreateRound} {payees vout : List CTxOut} {c : ChangeAndFee}
    {nFeeRet : Int64} {total : ℤ} (hc : c.Splits total)
    (hmin : 0 < c.nChange → minTxOutAmount ≤ c.nChange)
    (h : settleChange round payees c = .ok (vout, nFeeRet)) :
    ∃ change, PaysWithChange payees vout change ∧ sumOutputs change + nFeeRet.toInt = total ∧
      c.nFeeRet.toInt ≤ nFeeRet.toInt := by
  rw [settleChange] at h
  split_ifs at h with hpos
  · cases hscript : round.scriptChange with
    | none =>
      rw [hscript] at h
      cases h
    | some scriptChange =>
      rw [hscript] at h
      dsimp only at h
      split_ifs at h with hdust
      · cases h
        obtain ⟨hsplits, hle, hzero⟩ := hc.move hc.nChange_nonneg le_rfl
        have hsum := hsplits.sum_eq
        refine ⟨[], paysWithChange_nil _, ?_, hle⟩
        change (c.nChange - c.nChange).toInt + (c.nFeeRet + c.nChange).toInt = total at hsum
        rw [hzero, sub_self] at hsum
        exact hsum
      · cases h
        refine ⟨[⟨c.nChange, scriptChange⟩], ⟨le_rfl, ?_, ?_, ?_⟩, ?_, le_rfl⟩
        · exact perm_insertIdx _ _ (Nat.lt_succ_iff.mp (round.getRandInt_lt _ (Nat.succ_pos _)))
        · intro txout htxout
          rw [mem_singleton.mp htxout]
          exact hmin hpos
        · intro txout htxout
          rw [mem_singleton.mp htxout]
          exact Bool.not_eq_true _ ▸ hdust
        · rw [sumOutputs, map_singleton, sum_singleton]
          exact hc.sum_eq
  · cases h
    have hzero : c.nChange.toInt = 0 := by
      rw [Int64.lt_iff_toInt_lt, not_lt] at hpos
      exact le_antisymm hpos hc.nChange_nonneg
    have hsum := hc.sum_eq
    rw [hzero] at hsum
    exact ⟨[], paysWithChange_nil _, hsum, le_rfl⟩

/-! ### Signing -/

theorem prevouts_setScriptSig (nIn : ℕ) (scriptSig : CScript) :
    (tx.setScriptSig nIn scriptSig).vin.map prevout = tx.vin.map prevout := by
  rw [setScriptSig]
  generalize tx.vin = vin
  induction vin generalizing nIn with
  | nil => cases nIn <;> rfl
  | cons txin vin ih =>
    cases nIn with
    | zero => rfl
    | succ nIn => exact congrArg (txin.prevout :: ·) (ih nIn)

theorem signInputs_eq_some {signSignature : CTransaction → ℕ → COutPoint → Option CScript}
    {coins : List COutPoint} {nIn : ℕ} {tx tx' : CTransaction}
    (h : signInputs signSignature coins nIn tx = some tx') :
    tx'.vin.map prevout = tx.vin.map prevout ∧ tx'.vout = tx.vout := by
  induction coins generalizing nIn tx with
  | nil =>
    cases h
    exact ⟨rfl, rfl⟩
  | cons coin coins ih =>
    rw [signInputs] at h
    cases hsign : signSignature tx nIn coin with
    | none =>
      rw [hsign] at h
      cases h
    | some scriptSig =>
      rw [hsign] at h
      obtain ⟨hvin, hvout⟩ := ih h
      exact ⟨hvin.trans (prevouts_setScriptSig tx nIn scriptSig), hvout⟩

/-! ### Coins -/

/-- The coins of the wallet that a selection consists of. -/
structure Funds (vCoins coins : List COutput) (setCoins : Finset COutPoint) (nValueIn : Int64) :
    Prop where
  subset : coins ⊆ vCoins
  nodup : (coins.map outpoint).Nodup
  setCoins_eq : setCoins = (coins.map outpoint).toFinset
  nValueIn_eq : nValueIn.toInt = totalWorth coins

theorem exists_outputs {vCoins : List COutput} {coins : List ValuedCoin}
    (h : ∀ coin ∈ coins, ∃ output ∈ vCoins, output.valued = coin) :
    ∃ outputs : List COutput, outputs ⊆ vCoins ∧ outputs.map valued = coins := by
  induction coins with
  | nil => exact ⟨[], nil_subset _, rfl⟩
  | cons coin coins ih =>
    obtain ⟨output, houtput, hvalued⟩ := h coin mem_cons_self
    obtain ⟨outputs, houtputs, hmap⟩ := ih fun coin' h' => h coin' (mem_cons_of_mem _ h')
    refine ⟨output :: outputs, cons_subset.mpr ⟨houtput, houtputs⟩, ?_⟩
    rw [map_cons, hvalued, hmap]

theorem IsSelection.exists_funds {nTargetValue : Int64} {vCoins : List COutput}
    {result : Finset COutPoint × Int64} (h : IsSelection nTargetValue vCoins result) :
    ∃ coins, Funds vCoins coins result.1 result.2 := by
  obtain ⟨valued, hvalued, hnodup, hset, hvalue⟩ := h.coins
  obtain ⟨coins, hsubset, rfl⟩ := exists_outputs hvalued
  have hmap : (coins.map valued).map Prod.snd = coins.map outpoint := by
    rw [map_map]
    rfl
  exact ⟨coins, hsubset, hmap ▸ hnodup, hmap ▸ hset, hvalue⟩

namespace CWallet

variable {hash : Bytes → UInt256} {wallet : CWallet hash} {context : WalletContext}

theorem totalWorth_le_of_sublist {vCoins coins : List COutput}
    (hvalue : ∀ output ∈ vCoins, 0 < output.nValue) (h : coins.Sublist vCoins) :
    totalWorth coins ≤ totalWorth vCoins := by
  refine ((h.map _).map worth).sum_le_sum fun x hx => ?_
  obtain ⟨coin, hcoin, rfl⟩ := mem_map.mp hx
  obtain ⟨output, houtput, rfl⟩ := mem_map.mp hcoin
  exact (Int64.lt_iff_toInt_lt.mp (hvalue output houtput)).le

theorem selectCoins_eq_some {nTargetValue : Int64} {random : Fin 3 → SelectRandom}
    {setCoins : Finset COutPoint} {nValueIn : Int64}
    (hsum : totalWorth (wallet.availableCoins context) < 2 ^ 63) (htarget : 0 < nTargetValue)
    (hlt : nTargetValue.toInt + cent.toInt < 2 ^ 63)
    (h : wallet.selectCoins context nTargetValue random = some (setCoins, nValueIn)) :
    nTargetValue.toInt ≤ nValueIn.toInt ∧
      ∃ coins, Funds (wallet.availableCoins context) coins setCoins nValueIn := by
  have hvalue : ∀ output ∈ wallet.availableCoins context, 0 < output.nValue :=
    fun output houtput => (mem_availableCoins houtput).2
  -- each of the three calls
  have hcall : ∀ nConfMine nConfTheirs r,
      selectCoinsMinConf context.isFromMe nTargetValue nConfMine nConfTheirs
        (wallet.availableCoins context) r = some (setCoins, nValueIn) →
      nTargetValue.toInt ≤ nValueIn.toInt ∧
        ∃ coins, Funds (wallet.availableCoins context) coins setCoins nValueIn := by
    intro nConfMine nConfTheirs r hr
    have hselection := ((selectCoinsMinConf_chosen context.isFromMe nConfMine nConfTheirs r
      nodup_availableCoins hvalue htarget
      (lt_of_le_of_lt (totalWorth_le_of_sublist hvalue filter_sublist) hsum) hlt).2 _ hr).1
    obtain ⟨coins, hcoins⟩ := hselection.exists_funds
    exact ⟨hselection.reaches, coins, fun output h => (mem_filter.mp (hcoins.subset h)).1,
      hcoins.nodup, hcoins.setCoins_eq, hcoins.nValueIn_eq⟩
  rw [selectCoins] at h
  rcases Option.or_eq_some_iff.mp h with h | ⟨-, h⟩
  · exact hcall 1 6 _ h
  · rcases Option.or_eq_some_iff.mp h with h | ⟨-, h⟩
    · exact hcall 1 1 _ h
    · exact hcall 0 1 _ h

end CWallet

/-! ### Amounts -/

structure AmountsInRange (vecSend : List Payee) : Prop where
  amount : ∀ payee ∈ vecSend, moneyRange payee.2 = true
  total : sumOutputs (vecSend.map Payee.txout) ≤ maxMoney.toInt

theorem sumOutputs_nonneg {vecSend : List Payee}
    (h : ∀ payee ∈ vecSend, moneyRange payee.2 = true) :
    0 ≤ sumOutputs (vecSend.map Payee.txout) := by
  refine sum_nonneg fun x hx => ?_
  obtain ⟨txout, htxout, rfl⟩ := mem_map.mp hx
  obtain ⟨payee, hpayee, rfl⟩ := mem_map.mp htxout
  exact ((moneyRange_iff payee.2).mp (h payee hpayee)).1

variable {nValue : Int64}

theorem sumAmounts_eq {vecSend : List Payee}
    (h : ∀ payee ∈ vecSend, moneyRange payee.2 = true) (hn : 0 ≤ nValue.toInt)
    (hle : nValue.toInt + sumOutputs (vecSend.map Payee.txout) ≤ maxMoney.toInt) :
    ∃ total, sumAmounts vecSend nValue = some total ∧
      total.toInt = nValue.toInt + sumOutputs (vecSend.map Payee.txout) := by
  induction vecSend generalizing nValue with
  | nil => exact ⟨nValue, rfl, (add_zero _).symm⟩
  | cons payee vecSend ih =>
    have hmax : maxMoney.toInt = 200000000000000000 := by decide
    have hpayee := (moneyRange_iff payee.2).mp (h payee mem_cons_self)
    have hrest := sumOutputs_nonneg fun payee' h' => h payee' (mem_cons_of_mem _ h')
    have hcons : sumOutputs ((payee :: vecSend).map Payee.txout) =
        payee.2.toInt + sumOutputs (vecSend.map Payee.txout) := by
      rw [sumOutputs, map_cons, map_cons, sum_cons]
      rfl
    have hadd : (nValue + payee.2).toInt = nValue.toInt + payee.2.toInt := by
      rw [Int64.toInt_add, Int.bmod_eq_of_le (by omega) (by omega)]
    have hpos : ¬ nValue < 0 := by
      rw [Int64.lt_iff_toInt_lt]
      exact not_lt.mpr hn
    have hn' : 0 ≤ (nValue + payee.2).toInt := by omega
    obtain ⟨total, htotal, heq⟩ := ih (fun payee' h' => h payee' (mem_cons_of_mem _ h')) hn'
      (by omega)
    refine ⟨total, ?_, by omega⟩
    rw [sumAmounts, if_neg hpos, htotal]

theorem pos_of_not_isDust {txout : CTxOut} (hrange : 0 ≤ txout.nValue.toInt)
    (h : txout.isDust = false) : 0 < txout.nValue.toInt := by
  refine lt_of_le_of_ne hrange fun hzero => ?_
  have hvalue : txout.nValue = 0 := Int64.toInt_inj.mp hzero.symm
  rw [CTxOut.isDust, hvalue, Int64.zero_mul, Int64.zero_div] at h
  exact absurd h (by decide)

/-! ### Dust -/

theorem toInt_mul_thousand (hpos : 0 ≤ nValue.toInt) (hvalue : nValue.toInt ≤ 9223372036854775) :
    (nValue * 1000).toInt = nValue.toInt * 1000 := by
  have hthousand : (1000 : Int64).toInt = 1000 := rfl
  rw [Int64.toInt_mul, hthousand, Int.bmod_eq_of_le (by omega) (by omega)]

theorem isDust_iff {script : CScript} (hpos : 0 ≤ nValue.toInt)
    (hvalue : nValue.toInt ≤ 9223372036854775) (hsize : script.length < 0x02000000) :
    (⟨nValue, script⟩ : CTxOut).isDust = true ↔
      nValue.toInt * 1000 / (3 * (scriptSerializeSize script + 156)) < nMinRelayTxFee.toInt := by
  have hscript : scriptSerializeSize script < 2 ^ 26 := by
    have hcompact : getSizeOfCompactSize script.length ≤ 9 := by
      rw [getSizeOfCompactSize]
      split_ifs <;> omega
    rw [scriptSerializeSize]
    omega
  have hnat : (Int32.ofNat (8 + scriptSerializeSize script)).toInt =
      (8 + scriptSerializeSize script : ℕ) := Int32.toInt_ofNat_of_lt (by omega)
  have hthree : (3 * (Int32.ofNat (8 + scriptSerializeSize script) + 148)).toInt =
      3 * (scriptSerializeSize script + 156) := by
    rw [Int32.toInt_mul, Int32.toInt_add, hnat]
    have h3 : (3 : Int32).toInt = 3 := rfl
    have h148 : (148 : Int32).toInt = 148 := rfl
    rw [h3, h148, Int.bmod_eq_of_le (n := _ + 148) (by omega) (by omega),
      Int.bmod_eq_of_le (by omega) (by omega)]
    omega
  have hquot : nValue.toInt * 1000 / (3 * (scriptSerializeSize script + 156)) ≤
    nValue.toInt * 1000 := Int.ediv_le_self _ (by omega)
  have hquot' : 0 ≤ nValue.toInt * 1000 / (3 * (scriptSerializeSize script + 156)) :=
    Int.ediv_nonneg (by omega) (by omega)
  rw [CTxOut.isDust, decide_eq_true_iff, Int64.lt_iff_toInt_lt, Int64.toInt_div,
    Int32.toInt_toInt64, CTxOut.getSerializeSize, hthree,
    toInt_mul_thousand hpos hvalue, Int.tdiv_eq_ediv_of_nonneg (by omega),
    Int.bmod_eq_of_le (by omega) (by omega)]

/-- The product stays in 64 bits and less of the same is dust too exactly up to a value far below
`MAX_MONEY`. -/
theorem isDust_exact_iff {txout : CTxOut} (hrange : moneyRange txout.nValue = true)
    (hsize : txout.scriptPubKey.length < 0x02000000) :
    ((txout.nValue * 1000).toInt = txout.nValue.toInt * 1000 ∧ (txout.isDust = true →
        ∀ nValue : Int64, 0 ≤ nValue → nValue < txout.nValue →
          (⟨nValue, txout.scriptPubKey⟩ : CTxOut).isDust = true)) ↔
      txout.nValue.toInt ≤ 9223372036854775 := by
  obtain ⟨hpos, -⟩ := (moneyRange_iff _).mp hrange
  constructor
  · rintro ⟨hexact, -⟩
    have hlt := Int64.toInt_lt (txout.nValue * 1000)
    omega
  · intro hle
    refine ⟨toInt_mul_thousand hpos hle, fun hdust nValue hnonneg hless => ?_⟩
    rw [Int64.le_iff_toInt_le, Int64.toInt_zero] at hnonneg
    rw [Int64.lt_iff_toInt_lt] at hless
    refine (isDust_iff hnonneg (by omega) hsize).mpr ?_
    have hmono := Int.ediv_le_ediv (c := 3 * (scriptSerializeSize txout.scriptPubKey + 156))
      (by omega) (show nValue.toInt * 1000 ≤ txout.nValue.toInt * 1000 by omega)
    exact hmono.trans_lt ((isDust_iff hpos hle hsize).mp hdust)

def dustScript : CScript := [0x76, 0xa9, 0x14] ++ replicate 20 0 ++ [0x88, 0xac]

theorem isDust_exact_cent : (cent * 1000).toInt = cent.toInt * 1000 ∧
    (CTxOut.isDust ⟨cent, dustScript⟩ = true → ∀ nValue : Int64, 0 ≤ nValue → nValue < cent →
      CTxOut.isDust ⟨nValue, dustScript⟩ = true) :=
  (@isDust_exact_iff ⟨cent, dustScript⟩ (by decide) (by decide)).mpr (by decide)

/-- The product takes the larger value below zero, and only that one is dust. -/
theorem not_isDust_exact : moneyRange 9223372036854776 = true ∧
    CTxOut.isDust ⟨9223372036854776, dustScript⟩ = true ∧
    CTxOut.isDust ⟨9223372036854775, dustScript⟩ = false := by
  decide

/-! ### Rounds -/

/-- The inputs are distinct coins, and their values are the outputs and the fee. -/
def Funded (vCoins : List COutput) (tx : CTransaction) (nFeeRet : Int64) : Prop :=
  ∃ coins : List COutput, coins ⊆ vCoins ∧ (coins.map outpoint).Nodup ∧
    (tx.vin.map prevout).Perm (coins.map outpoint) ∧
    totalWorth coins = tx.valueOut + nFeeRet.toInt

/-- What is true of a transaction that is returned. -/
structure Created.Sound (vCoins : List COutput) (nTransactionFee : Int64) (vecSend : List Payee)
    (created : Created) : Prop where
  funded : Funded vCoins created.wtxNew created.nFeeRet
  payFee_le : nTransactionFee.toInt * (1 + (created.wtxNew.getSerializeSize / 1000 : ℕ)) ≤
    created.nFeeRet.toInt
  getMinFee_le : created.wtxNew.getMinFee 1 false .send ≤ created.nFeeRet
  pays : ∃ change, PaysWithChange (vecSend.map Payee.txout) created.wtxNew.vout change

/-- What the fee is checked of at the end of a round that started with `nFeeRet`. -/
structure Drafted (vCoins : List COutput) (vecSend : List Payee) (nFeeRet : Int64)
    (tx : CTransaction) (fee : Int64) : Prop where
  fee_le : nFeeRet.toInt ≤ fee.toInt
  funded : Funded vCoins tx fee
  pays : ∃ change, PaysWithChange (vecSend.map Payee.txout) tx.vout change

theorem totalWorth_le_of_subset {vCoins coins : List COutput}
    (hvalue : ∀ output ∈ vCoins, 0 < output.nValue) (hnodup : (coins.map outpoint).Nodup)
    (hsubset : coins ⊆ vCoins) : totalWorth coins ≤ totalWorth vCoins := by
  obtain ⟨l, hperm, hl⟩ := subperm_of_subset hnodup.of_map hsubset
  have heq : totalWorth l = totalWorth coins := ((hperm.map _).map worth).sum_eq
  exact heq ▸ CWallet.totalWorth_le_of_sublist hvalue hl

/-- A transaction with as many inputs as there are coins spends all of them. -/
theorem not_funded_of_all {vCoins : List COutput} {tx : CTransaction} {nFeeRet : Int64}
    (hlength : vCoins.length ≤ tx.vin.length)
    (hne : tx.valueOut + nFeeRet.toInt ≠ totalWorth vCoins) : ¬Funded vCoins tx nFeeRet := by
  rintro ⟨coins, hsubset, hnodup, hperm, hworth⟩
  have hcount : tx.vin.length = coins.length := by simpa using hperm.length_eq
  have hall : coins.Perm vCoins :=
    (subperm_of_subset hnodup.of_map hsubset).perm_of_length_le (hcount ▸ hlength)
  exact hne (hworth.symm.trans ((hall.map _).map worth).sum_eq)

theorem sumOutputs_perm_append {payees vout change : List CTxOut}
    (h : PaysWithChange payees vout change) :
    sumOutputs vout = sumOutputs change + sumOutputs payees := by
  rw [sumOutputs, (h.perm.map _).sum_eq, map_append, sum_append]
  rfl

namespace CWallet

variable {hash : Bytes → UInt256} {wallet : CWallet hash} {context : WalletContext}
  {nTransactionFee : Int64} {vecSend : List Payee} {wtxNew : CTransaction} {nValue : Int64}
  {round : CreateRound} {nFeeRet : Int64} {outcome : Created ⊕ Int64}

theorem exists_drafted (hcoins : totalWorth (wallet.availableCoins context) < 2 ^ 63)
    (hvalue : nValue.toInt = sumOutputs (vecSend.map Payee.txout)) (hpos : 0 < nValue.toInt)
    (hfee : 0 ≤ nFeeRet.toInt) (hlt : nValue.toInt + nFeeRet.toInt + cent.toInt < 2 ^ 63)
    (h : wallet.createRound context nTransactionFee vecSend wtxNew nValue round nFeeRet =
      .ok outcome) : ∃ tx fee, checkFee nTransactionFee tx fee = .ok outcome ∧
      Drafted (wallet.availableCoins context) vecSend nFeeRet tx fee := by
  have hcent := cent_toInt
  have htarget : (nValue + nFeeRet).toInt = nValue.toInt + nFeeRet.toInt := by
    rw [Int64.toInt_add, Int.bmod_eq_of_le (by omega) (by omega)]
  have hreal : 0 < nValue + nFeeRet := by
    rw [Int64.lt_iff_toInt_lt, htarget]
    change 0 < _
    omega
  rw [createRound] at h
  split_ifs at h
  cases hselect : wallet.selectCoins context (nValue + nFeeRet) round.selection with
  | none =>
    rw [hselect] at h
    cases h
  | some selected =>
    obtain ⟨setCoins, nValueIn⟩ := selected
    rw [hselect] at h
    obtain ⟨⟨vout, fee⟩, hsettle, h⟩ := Except.bind_eq_ok_iff.mp h
    obtain ⟨hreaches, coins, hfunds⟩ := selectCoins_eq_some hcoins hreal (by omega) hselect
    rw [htarget] at hreaches
    have hin := Int64.toInt_lt nValueIn
    -- the change and the fee share what the coins are worth beyond the amounts
    have hrest : (nValueIn - nValue).toInt = nValueIn.toInt - nValue.toInt := by
      rw [Int64.toInt_sub, Int.bmod_eq_of_le (by omega) (by omega)]
    have hchange : (nValueIn - nValue - nFeeRet).toInt =
        nValueIn.toInt - nValue.toInt - nFeeRet.toInt := by
      rw [Int64.toInt_sub, hrest, Int.bmod_eq_of_le (by omega) (by omega)]
    have hsplits : ChangeAndFee.Splits (nValueIn.toInt - nValue.toInt)
        ⟨nValueIn - nValue - nFeeRet, nFeeRet⟩ := by
      refine ⟨?_, hfee, ?_, by omega⟩
      · change 0 ≤ (nValueIn - nValue - nFeeRet).toInt
        omega
      · change (nValueIn - nValue - nFeeRet).toInt + nFeeRet.toInt = _
        omega
    obtain ⟨hraised, hraise⟩ := hsplits.raiseFee
    obtain ⟨hdropped, hdrop, hmin⟩ := hraised.dropSubCent
    obtain ⟨change, hpays, hsum, hle⟩ := settleChange_ok hdropped hmin hsettle
    cases hsign : signInputs round.signSignature (round.ordered setCoins) 0
        { wtxNew with vin := (round.ordered setCoins).map COutPoint.toTxIn, vout := vout } with
    | none =>
      simp only [hsign] at h
      cases h
    | some tx =>
      simp only [hsign] at h
      obtain ⟨hvin, hvout⟩ := signInputs_eq_some hsign
      have hprevouts : ((round.ordered setCoins).map COutPoint.toTxIn).map prevout =
          round.ordered setCoins := by
        rw [map_map]
        exact map_id _
      refine ⟨tx, fee, h, hraise.trans (hdrop.trans hle),
        ⟨coins, hfunds.subset, hfunds.nodup, ?_, ?_⟩, change, hvout ▸ hpays⟩
      · rw [hvin, hprevouts, hfunds.setCoins_eq]
        refine (perm_ext_iff_of_nodup (round.nodup_ordered _) hfunds.nodup).mpr fun coin => ?_
        rw [← mem_toFinset, round.toFinset_ordered, mem_toFinset]
      · have hout : tx.valueOut = sumOutputs vout := by
          rw [valueOut, hvout]
          rfl
        rw [← hfunds.nValueIn_eq, hout, sumOutputs_perm_append hpays, ← hvalue]
        omega

/-- Amounts that were added up, coins and a fee setting that leave room. -/
structure Payable (wallet : CWallet hash) (context : WalletContext) (nTransactionFee : Int64)
    (vecSend : List Payee) (nValue : Int64) : Prop where
  coins : totalWorth (wallet.availableCoins context) < 2 ^ 63
  fees : FeeFits nValue.toInt nTransactionFee
  nValue_eq : nValue.toInt = sumOutputs (vecSend.map Payee.txout)
  nValue_pos : 0 < nValue.toInt
  nValue_le : nValue.toInt ≤ maxMoney.toInt

def FeeInRange (nTransactionFee nFeeRet : Int64) : Prop :=
  0 ≤ nFeeRet.toInt ∧ nFeeRet.toInt ≤ 100 * feeUnit nTransactionFee

theorem feeUnit_pos (nTransactionFee : Int64) : 0 < feeUnit nTransactionFee :=
  lt_of_lt_of_le (by decide) (le_max_right _ _)

section Rounds

variable (hp : wallet.Payable context nTransactionFee vecSend nValue)
include hp

theorem Payable.fee_lt : 100 * nTransactionFee.toInt < 2 ^ 63 := by
  have hlt := hp.fees.lt
  have hpos := hp.nValue_pos
  have hcent := cent_toInt
  omega

theorem Payable.sum_lt (h : FeeInRange nTransactionFee nFeeRet) :
    nValue.toInt + nFeeRet.toInt + cent.toInt < 2 ^ 63 := by
  have hlt := hp.fees.lt
  have hle := hp.nValue_le
  have hcent := cent_toInt
  have hmoney : maxMoney.toInt = 200000000000000000 := by decide
  have hfee := h.2
  rw [feeUnit] at hfee
  omega

variable (hfee : FeeInRange nTransactionFee nFeeRet)
include hfee

theorem createRound_sound {created : Created}
    (h : wallet.createRound context nTransactionFee vecSend wtxNew nValue round nFeeRet =
      .ok (.inl created)) :
    created.Sound (wallet.availableCoins context) nTransactionFee vecSend ∧
      created.wtxNew.getSerializeSize < maxStandardTxSize := by
  obtain ⟨tx, fee, hcheck, hdrafted⟩ := exists_drafted hp.coins hp.nValue_eq hp.nValue_pos
    hfee.1 (hp.sum_lt hfee) h
  rw [checkFee] at hcheck
  split_ifs at hcheck with hlarge hlow
  · cases hcheck
  · cases hcheck
    rw [not_le] at hlarge
    rw [Int64.not_lt, Int64.le_iff_toInt_le, requiredFee, toInt_max, max_le_iff] at hlow
    refine ⟨⟨hdrafted.funded, ?_, Int64.le_iff_toInt_le.mpr hlow.2, hdrafted.pays⟩, hlarge⟩
    have hpay := hlow.1
    rw [payFee, toInt_kilobytes_mul (kilobytes_lt hlarge) hp.fees.nonneg hp.fee_lt, mul_comm] at hpay
    exact hpay

/-- A round that asks for another one raises the fee to a larger multiple. -/
theorem createRound_again {nFeeRet' : Int64}
    (h : wallet.createRound context nTransactionFee vecSend wtxNew nValue round nFeeRet =
      .ok (.inr nFeeRet')) :
    ∃ kilobytes : ℕ, kilobytes ≤ 100 ∧ nFeeRet'.toInt = kilobytes * feeUnit nTransactionFee ∧
      nFeeRet.toInt < nFeeRet'.toInt := by
  obtain ⟨tx, fee, hcheck, hdrafted⟩ := exists_drafted hp.coins hp.nValue_eq hp.nValue_pos
    hfee.1 (hp.sum_lt hfee) h
  rw [checkFee] at hcheck
  split_ifs at hcheck with hlarge hlow
  · cases hcheck
    rw [not_le] at hlarge
    have hkilobytes := kilobytes_lt hlarge
    refine ⟨1 + tx.getSerializeSize / 1000, by omega, ?_, ?_⟩
    · rw [requiredFee, toInt_max, payFee,
        toInt_kilobytes_mul hkilobytes hp.fees.nonneg hp.fee_lt, toInt_getMinFee hlarge, feeUnit,
        Nat.cast_add, Nat.cast_one, mul_max_of_nonneg _ _ (by omega)]
    · exact lt_of_le_of_lt hdrafted.fee_le (Int64.lt_iff_toInt_lt.mp hlow)
  · cases hcheck

end Rounds

def feeRank (nTransactionFee nFeeRet : Int64) : ℕ :=
  (nFeeRet.toInt / feeUnit nTransactionFee).toNat

theorem createRound_raises (hp : wallet.Payable context nTransactionFee vecSend nValue)
    {nFeeRet' : Int64} (hfee : FeeInRange nTransactionFee nFeeRet)
    (h : wallet.createRound context nTransactionFee vecSend wtxNew nValue round nFeeRet =
      .ok (.inr nFeeRet')) :
    FeeInRange nTransactionFee nFeeRet' ∧
      feeRank nTransactionFee nFeeRet < feeRank nTransactionFee nFeeRet' ∧
      feeRank nTransactionFee nFeeRet' ≤ 100 := by
  obtain ⟨kilobytes, hle, heq, hlt⟩ := createRound_again hp hfee h
  have hunit := feeUnit_pos nTransactionFee
  have hrank : feeRank nTransactionFee nFeeRet' = kilobytes := by
    rw [feeRank, heq, Int.mul_ediv_cancel _ hunit.ne', Int.toNat_natCast]
  refine ⟨⟨(hfee.1.trans hlt.le), ?_⟩, ?_, hrank ▸ hle⟩
  · rw [heq]
    exact Int.mul_le_mul_of_nonneg_right (by omega) hunit.le
  · rw [heq] at hlt
    have hdiv : nFeeRet.toInt / feeUnit nTransactionFee < kilobytes :=
      Int.ediv_lt_of_lt_mul hunit hlt
    have hnonneg : 0 ≤ nFeeRet.toInt / feeUnit nTransactionFee :=
      Int.ediv_nonneg hfee.1 hunit.le
    rw [hrank, feeRank]
    omega

theorem feeInRange_start (hnonneg : 0 ≤ nTransactionFee.toInt) :
    FeeInRange nTransactionFee nTransactionFee := by
  have hunit := feeUnit_pos nTransactionFee
  have hle : nTransactionFee.toInt ≤ feeUnit nTransactionFee := le_max_left _ _
  exact ⟨hnonneg, by omega⟩

theorem payable_of_amounts (hamounts : AmountsInRange vecSend) (hne : vecSend ≠ [])
    (hdust : ∀ payee ∈ vecSend, payee.txout.isDust = false)
    (hcoins : totalWorth (wallet.availableCoins context) < 2 ^ 63)
    (hfees : FeeFits (sumOutputs (vecSend.map Payee.txout)) nTransactionFee)
    (hvalue : nValue.toInt = sumOutputs (vecSend.map Payee.txout)) :
    wallet.Payable context nTransactionFee vecSend nValue := by
  refine ⟨hcoins, hvalue ▸ hfees, hvalue, ?_, hvalue ▸ hamounts.total⟩
  obtain ⟨payee, rest, rfl⟩ := exists_cons_of_ne_nil hne
  have hpayee : 0 < payee.txout.nValue.toInt :=
    pos_of_not_isDust ((moneyRange_iff _).mp (hamounts.amount payee mem_cons_self)).1
      (hdust payee mem_cons_self)
  have hrest := sumOutputs_nonneg fun payee' h' => hamounts.amount payee' (mem_cons_of_mem _ h')
  rw [hvalue, sumOutputs, map_cons, map_cons, sum_cons]
  exact add_pos_of_pos_of_nonneg hpayee hrest

theorem not_isDust_of_createRound
    (h : wallet.createRound context nTransactionFee vecSend wtxNew nValue round nFeeRet =
      .ok outcome) : ∀ payee ∈ vecSend, payee.txout.isDust = false := by
  rw [createRound] at h
  split_ifs at h with hdust
  · simpa using hdust

theorem createTransaction_eq (hamounts : AmountsInRange vecSend) (rounds : ℕ → CreateRound)
    (hne : vecSend ≠ []) : ∃ nValue : Int64, nValue.toInt = sumOutputs (vecSend.map Payee.txout) ∧
      ∀ n, wallet.createTransaction context nTransactionFee vecSend wtxNew rounds n =
        Retry.loop (fun k => wallet.createRound context nTransactionFee vecSend wtxNew nValue
          (rounds k)) n 0 nTransactionFee := by
  have hstart : (0 : Int64).toInt + sumOutputs (vecSend.map Payee.txout) ≤ maxMoney.toInt := by
    change 0 + _ ≤ _
    rw [zero_add]
    exact hamounts.total
  obtain ⟨nValue, hsum, htotal⟩ := sumAmounts_eq hamounts.amount le_rfl hstart
  have hvalue : nValue.toInt = sumOutputs (vecSend.map Payee.txout) := htotal.trans (zero_add _)
  have hnonneg : ¬ nValue < 0 := by
    rw [Int64.lt_iff_toInt_lt, hvalue]
    exact not_lt.mpr (sumOutputs_nonneg hamounts.amount)
  refine ⟨nValue, hvalue, fun n => ?_⟩
  rw [createTransaction, hsum]
  exact if_neg (not_or.mpr ⟨by rwa [List.isEmpty_iff], hnonneg⟩)

/-- A transaction that is returned comes from a round that started with a fee in range. -/
theorem exists_round_of_createTransaction (hamounts : AmountsInRange vecSend)
    (hcoins : totalWorth (wallet.availableCoins context) < 2 ^ 63)
    (hfees : FeeFits (sumOutputs (vecSend.map Payee.txout)) nTransactionFee)
    {rounds : ℕ → CreateRound} {n : ℕ} {created : Created}
    (h : wallet.createTransaction context nTransactionFee vecSend wtxNew rounds n =
      some (.ok created)) :
    created.Sound (wallet.availableCoins context) nTransactionFee vecSend ∧
      created.wtxNew.getSerializeSize < maxStandardTxSize ∧ vecSend ≠ [] := by
  have hne : vecSend ≠ [] := by
    rintro rfl
    cases h
  obtain ⟨nValue, hvalue, heq⟩ := createTransaction_eq hamounts rounds hne
  rw [heq] at h
  have hpay : ∀ {k nFeeRet outcome}, wallet.createRound context nTransactionFee vecSend wtxNew
      nValue (rounds k) nFeeRet = .ok outcome →
      wallet.Payable context nTransactionFee vecSend nValue := fun hround =>
    payable_of_amounts hamounts hne (not_isDust_of_createRound hround) hcoins hfees hvalue
  obtain ⟨k, nFeeRet, hfee, hround⟩ := Retry.exists_of_loop_eq_ok (FeeInRange nTransactionFee)
    (fun k nFeeRet nFeeRet' hfee hround => (createRound_raises (hpay hround) hfee hround).1)
    (feeInRange_start hfees.nonneg) h
  obtain ⟨hsound, hsize⟩ := createRound_sound (hpay hround) hfee hround
  exact ⟨hsound, hsize, hne⟩

/-- As long as the sums stay in 64 bits, whatever the random choices: `CreateTransaction` ends
after at most 101 rounds, and what it returns is balanced, pays the fees it must and the payees,
and has at most one more output. -/
theorem createTransaction_spec (wallet : CWallet hash) (context : WalletContext)
    (nTransactionFee : Int64) (vecSend : List Payee) (wtxNew : CTransaction)
    (rounds : ℕ → CreateRound) (hamounts : AmountsInRange vecSend)
    (hcoins : totalWorth (wallet.availableCoins context) < 2 ^ 63)
    (hfees : FeeFits (sumOutputs (vecSend.map Payee.txout)) nTransactionFee) :
    (∃ result, ∀ n, 101 ≤ n →
      wallet.createTransaction context nTransactionFee vecSend wtxNew rounds n = some result) ∧
    ∀ n created, wallet.createTransaction context nTransactionFee vecSend wtxNew rounds n =
        some (.ok created) →
      created.Sound (wallet.availableCoins context) nTransactionFee vecSend := by
  refine ⟨?_, fun n created h => (exists_round_of_createTransaction hamounts hcoins hfees h).1⟩
  by_cases hne : vecSend = []
  · rw [hne]
    exact ⟨_, fun n _ => rfl⟩
  · obtain ⟨nValue, hvalue, heq⟩ := createTransaction_eq hamounts rounds hne
    obtain ⟨result, hresult⟩ : ∃ result, Retry.loop (fun k => wallet.createRound context
        nTransactionFee vecSend wtxNew nValue (rounds k)) 101 0 nTransactionFee = some result := by
      refine Retry.exists_loop_eq_some (FeeInRange nTransactionFee) (feeRank nTransactionFee) 100
        (fun k nFeeRet nFeeRet' hfee hround => ?_) (feeInRange_start hfees.nonneg) (by omega)
        (by omega)
      exact createRound_raises (payable_of_amounts hamounts hne (not_isDust_of_createRound hround)
        hcoins hfees hvalue) hfee hround
    refine ⟨result, fun n hn => ?_⟩
    rw [heq]
    exact Retry.loop_mono hresult hn

def single (hash : Bytes → UInt256) (wtx : CWalletTx) (hsize : wtx.vout.length ≤ maxSize) :
    CWallet hash where
  mapWallet key := if key = wtx.getHash hash then some wtx else none
  keys := [wtx.getHash hash]
  nodup_keys := nodup_singleton _
  mem_keys key := by
    rw [mem_singleton]
    split_ifs with h <;> simp [h]
  getHash_eq key wtx' h := by
    split_ifs at h with hkey
    cases h
    exact hkey.symm
  vout_le key wtx' h := by
    split_ifs at h
    cases h
    exact hsize

end CWallet

namespace Sample

def coinKey (coin : COutPoint) : ℕ := coin.hash.toNat * 2 ^ 32 + coin.n.toNat

theorem coinKey_injective : Function.Injective coinKey := by
  intro coin coin' h
  have hn := coin.n.toNat_lt
  have hn' := coin'.n.toNat_lt
  simp only [coinKey] at h
  have hhash : coin.hash = coin'.hash := BitVec.eq_of_toNat_eq (by omega)
  have hnumber : coin.n = coin'.n := UInt32.toNat_inj.mp (by omega)
  cases coin
  cases coin'
  exact congrArg₂ COutPoint.mk hhash hnumber

variable (setCoins : Finset COutPoint)

def sortCoins : List COutPoint :=
  Quot.liftOn setCoins.val (insertionSort fun coin coin' => coinKey coin ≤ coinKey coin')
    fun l l' h => by
      have hperm := (perm_insertionSort (fun coin coin' => coinKey coin ≤ coinKey coin') l).trans
        (h.trans (perm_insertionSort (fun coin coin' => coinKey coin ≤ coinKey coin') l').symm)
      have : Std.Total fun coin coin' : COutPoint => coinKey coin ≤ coinKey coin' :=
        ⟨fun _ _ => Nat.le_total _ _⟩
      have : IsTrans COutPoint fun coin coin' => coinKey coin ≤ coinKey coin' :=
        ⟨fun _ _ _ => Nat.le_trans⟩
      refine hperm.eq_of_pairwise (fun coin coin' _ _ hle hle' => ?_)
        (pairwise_insertionSort _ _) (pairwise_insertionSort _ _)
      exact coinKey_injective (Nat.le_antisymm hle hle')

theorem coe_sortCoins : (sortCoins setCoins : Multiset COutPoint) = setCoins.val := by
  obtain ⟨s, hs⟩ := setCoins
  induction s using Quot.inductionOn with
  | h l => exact Multiset.coe_eq_coe.mpr (perm_insertionSort _ l)

/-- Coins by hash and number, change last, and signatures of the usual size. -/
def createRound : CreateRound where
  selection _ := .plain
  ordered := sortCoins
  nodup_ordered setCoins := by
    rw [← Multiset.coe_nodup, coe_sortCoins]
    exact setCoins.nodup
  toFinset_ordered setCoins := by
    ext coin
    rw [mem_toFinset, ← Multiset.mem_coe, coe_sortCoins, Finset.mem_val]
  getRandInt nMax := nMax - 1
  getRandInt_lt nMax h := Nat.sub_lt h one_pos
  scriptChange := some payScript
  signSignature _ _ _ := some (replicate 107 0)

def savingsWallet : CWallet fun _ => savingsHash := .single _ savings (by decide)

def emptyTx : CTransaction := ⟨1, [], [], 0⟩

def twoCents : List Payee := [(payScript, 2 * cent)]

def wealthyWallet : CWallet fun _ => savingsHash := .single _ (incoming [maxMoney]) (by decide)

def manyPayees : List Payee := replicate 38 (replicate 2600 0x51, 10 * cent)

/-- A hundred times this and the amounts of `manyPayees` are eight below 2^63. -/
def largestFee : Int64 := 92233720364747758

/-- The first coin is worth the amount of `hoardPayee`. With the next 98 it is worth 2^64 and a cent
more, and with the last one 2^64 and fifteen cents more. -/
def hoardValue (k : ℕ) : Int64 :=
  if k = 0 then 190000000000000000
  else if k < 98 then 188232082384801547
  else if k = 98 then 188232082384801557
  else 14 * cent

def hoarded (key : UInt256) : CWalletTx :=
  { incoming [hoardValue key.toNat] with
    vin := [⟨⟨7, UInt32.ofNat key.toNat⟩, [], 0xffffffff⟩]
    fFromMe := key = 99 }

/-- The number of the output that is spent, which tells the transactions apart. -/
def hoardHash (bytes : Bytes) : UInt256 := BitVec.ofNat 256 (bytes.getD 37 0).toNat

theorem getHash_hoarded : ∀ k < 100,
    (hoarded (BitVec.ofNat 256 k)).getHash hoardHash = BitVec.ofNat 256 k := by
  decide +kernel

def hoard : CWallet hoardHash where
  mapWallet key := if key.toNat < 100 then some (hoarded key) else none
  keys := (range 100).map (BitVec.ofNat 256)
  nodup_keys := by decide +kernel
  mem_keys key := by
    rw [mem_map]
    constructor
    · rintro ⟨k, hk, rfl⟩
      have hlt := mem_range.mp hk
      rw [if_pos (by rw [BitVec.toNat_ofNat]; omega)]
      rfl
    · intro h
      split_ifs at h with hlt
      · exact ⟨key.toNat, mem_range.mpr hlt, by rw [BitVec.ofNat_toNat, BitVec.setWidth_eq]⟩
      · cases h
  getHash_eq key wtx h := by
    split_ifs at h with hlt
    obtain rfl := Option.some.inj h
    have hkey := getHash_hoarded key.toNat hlt
    rwa [BitVec.ofNat_toNat, BitVec.setWidth_eq] at hkey
  vout_le key wtx h := by
    split_ifs at h
    cases h
    exact show 1 ≤ maxSize by decide

/-- The first coin has six confirmations, the next ones have one and the last, our own, has none. -/
def hoardContext : WalletContext :=
  { walletContext with
    isFromMe := CWalletTx.fFromMe
    getDepthInMainChain := fun wtx =>
      if wtx.fFromMe then 0
      else if wtx.vin.any fun txin => txin.prevout.n = 0 then 6 else 1 }

def hoardPayee : List Payee := [(payScript, 190000000000000000)]

theorem exists_created {run : Option (Except Failure Created)} {p : Created → Bool}
    (h : run.any (fun result => result.toOption.any p) = true) :
    ∃ created, run = some (.ok created) ∧ p created = true := by
  match run, h with
  | some (.ok created), h => exact ⟨created, rfl, h⟩

end Sample

namespace CWallet

open Sample

theorem createTransaction_spec_savings :
    (∃ result, ∀ n, 101 ≤ n → savingsWallet.createTransaction walletContext 0 twoCents emptyTx
      (fun _ => Sample.createRound) n = some result) ∧
    ∃ created, savingsWallet.createTransaction walletContext 0 twoCents emptyTx
        (fun _ => Sample.createRound) 2 = some (.ok created) ∧
      created.Sound (savingsWallet.availableCoins walletContext) 0 twoCents := by
  have h := createTransaction_spec savingsWallet walletContext 0 twoCents emptyTx
    (fun _ => Sample.createRound) ⟨by decide, by decide⟩ (by decide) ⟨by decide, by decide⟩
  obtain ⟨created, hrun, -⟩ := exists_created (p := fun _ => true)
    (show (savingsWallet.createTransaction walletContext 0 twoCents emptyTx
      (fun _ => Sample.createRound) 2).any _ = true by decide +kernel)
  exact ⟨h.1, created, hrun, h.2 2 created hrun⟩

/-- Sums that pass 64 bits. The fee for a hundred kilobytes and a cent of change make the target
negative, and one coin is enough for it. The coins of a wallet come out at the amount and the fee,
and all of them are given away. -/
theorem createTransaction_unfunded :
    (AmountsInRange manyPayees ∧ totalWorth (wealthyWallet.availableCoins walletContext) < 2 ^ 63 ∧
      ∃ created, wealthyWallet.createTransaction walletContext largestFee manyPayees emptyTx
          (fun _ => Sample.createRound) 2 = some (.ok created) ∧
        ¬Funded (wealthyWallet.availableCoins walletContext) created.wtxNew created.nFeeRet) ∧
    (AmountsInRange hoardPayee ∧ FeeFits (sumOutputs (hoardPayee.map Payee.txout)) 0 ∧
      ∃ created, hoard.createTransaction hoardContext 0 hoardPayee emptyTx
          (fun _ => Sample.createRound) 3 = some (.ok created) ∧
        ¬Funded (hoard.availableCoins hoardContext) created.wtxNew created.nFeeRet) := by
  refine ⟨⟨⟨by decide, by decide⟩, by decide, ?_⟩,
    ⟨by decide, by decide⟩, ⟨by decide, by decide⟩, ?_⟩
  · obtain ⟨created, hrun, hlt⟩ := exists_created (p := fun created => decide
      (totalWorth (wealthyWallet.availableCoins walletContext) <
        created.wtxNew.valueOut + created.nFeeRet.toInt))
      (show (wealthyWallet.createTransaction walletContext largestFee manyPayees emptyTx
        (fun _ => Sample.createRound) 2).any _ = true by decide +kernel)
    refine ⟨created, hrun, fun ⟨coins, hsubset, hnodup, _, hworth⟩ => ?_⟩
    have hle := totalWorth_le_of_subset
      (fun output houtput => (mem_availableCoins houtput).2) hnodup hsubset
    exact absurd (hworth ▸ hle) (not_le.mpr (of_decide_eq_true hlt))
  · obtain ⟨created, hrun, hall⟩ := exists_created (p := fun created => decide
      ((hoard.availableCoins hoardContext).length ≤ created.wtxNew.vin.length ∧
        created.wtxNew.valueOut + created.nFeeRet.toInt <
          totalWorth (hoard.availableCoins hoardContext)))
      (show (hoard.createTransaction hoardContext 0 hoardPayee emptyTx
        (fun _ => Sample.createRound) 3).any _ = true by decide +kernel)
    obtain ⟨hlength, hlt⟩ := of_decide_eq_true hall
    exact ⟨created, hrun, not_funded_of_all hlength hlt.ne⟩

end CWallet

end Primecoin
