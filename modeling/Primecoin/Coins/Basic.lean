import Primecoin.Data.Slots
import Primecoin.Transaction.Check

/-!
# The unspent outputs of one transaction

`CCoins` keeps the unspent outputs of a transaction, with the metadata consensus needs. A spent
output stays in the vector as a null output until it is last, when `Cleanup` drops it; so a record
means the function `unspent`, and the lemmas say what each operation does to it.

`CTxInUndo` is what `Spend` hands out to undo it. It holds the metadata only when the last unspent
output was spent.
-/

namespace Primecoin

open List Slots CTxOut

structure CCoins where
  fCoinBase : Bool
  vout : List CTxOut
  nHeight : Int32
  nVersion : Int32
  deriving DecidableEq, Repr

open CCoins

structure CTxInUndo where
  txout : CTxOut
  fCoinBase : Bool
  nHeight : UInt32
  nVersion : Int32
  deriving DecidableEq, Repr

namespace CTxInUndo

def ofTxOut (txout : CTxOut) : CTxInUndo := ⟨txout, false, 0, 0⟩

end CTxInUndo

namespace CCoins

variable {coins : CCoins} {n : ℕ} {txout : CTxOut}

def empty : CCoins := ⟨false, [], 0, 0⟩

def ofTransaction (tx : CTransaction) (nHeightIn : Int32) : CCoins :=
  ⟨tx.isCoinBase, tx.vout, nHeightIn, tx.nVersion⟩

section

variable (coins : CCoins)

def cleanup : CCoins :=
  { coins with vout := trim isNull coins.vout }

def isAvailable (nPos : ℕ) : Bool :=
  match coins.vout[nPos]? with
  | none => false
  | some txout => !txout.isNull

def isPruned : Bool := coins.vout.all isNull

/-- The record without the output and the undo data, or `none` where the source returns false. -/
def spend (out : COutPoint) : Option (CCoins × CTxInUndo) :=
  match coins.vout[out.n.toNat]? with
  | none => none
  | some txout =>
    if txout.isNull then none
    else
      let undo := CTxInUndo.ofTxOut txout
      let spent := { coins with vout := coins.vout.set out.n.toNat .null }.cleanup
      if spent.vout = [] then
        some (spent, { undo with
          nHeight := coins.nHeight.toUInt32
          fCoinBase := coins.fCoinBase
          nVersion := coins.nVersion })
      else some (spent, undo)

/-- The end of the undo loop: grow the vector to `n + 1` entries, a sum of `unsigned int`, and
write the output. It is `none` where the write would be out of bounds. -/
def putOutput (n : UInt32) (txout : CTxOut) : Option CCoins :=
  let nSize := (n + 1).toNat
  let vout :=
    if coins.vout.length < nSize then
      coins.vout ++ List.replicate (nSize - coins.vout.length) .null
    else coins.vout
  if n.toNat < vout.length then some { coins with vout := vout.set n.toNat txout } else none

def unspent (n : ℕ) : Option CTxOut := live isNull coins.vout n

def Clean : Prop := Trimmed isNull coins.vout

def value : ℤ :=
  sumLive isNull (fun txout => txout.nValue.toInt) coins.vout

def spent (n : ℕ) : CCoins :=
  { coins with vout := coins.vout.set n .null }.cleanup

/-- The metadata goes along with the last output. -/
def undo (n : ℕ) (txout : CTxOut) : CTxInUndo :=
  if (coins.spent n).isPruned then
    ⟨txout, coins.fCoinBase, coins.nHeight.toUInt32, coins.nVersion⟩
  else CTxInUndo.ofTxOut txout

end

theorem isAvailable_iff : coins.isAvailable n = true ↔ ∃ txout, coins.unspent n = some txout := by
  simp only [isAvailable, unspent, live]
  cases coins.vout[n]? with
  | none => simp
  | some txout => simp [Option.filter_eq_some_iff]

theorem isPruned_iff : coins.isPruned = true ↔ ∀ n, coins.unspent n = none := by
  rw [isPruned, all_eq_true, ← rdropWhile_eq_nil_iff]
  exact trim_eq_nil_iff

theorem not_isPruned_of_unspent (h : coins.unspent n = some txout) : coins.isPruned = false := by
  rw [← Bool.not_eq_true, isPruned_iff]
  intro hnone
  simp [hnone n] at h

@[simp] theorem unspent_cleanup (coins : CCoins) (n : ℕ) :
    coins.cleanup.unspent n = coins.unspent n := live_trim coins.vout n

theorem unspent_spent (coins : CCoins) (n m : ℕ) :
    (coins.spent n).unspent m = if m = n then none else coins.unspent m := by
  rw [spent, unspent_cleanup]
  exact live_set_dead isNull_null coins.vout n m

theorem clean_spent (coins : CCoins) (n : ℕ) : (coins.spent n).Clean :=
  trimmed_trim _

theorem vout_spent_eq_nil_iff : (coins.spent n).vout = [] ↔ (coins.spent n).isPruned = true := by
  rw [isPruned_iff]
  simp only [spent, unspent_cleanup]
  exact trim_eq_nil_iff

theorem spend_eq_some_iff {coins' : CCoins} {out : COutPoint} {undo : CTxInUndo} :
    coins.spend out = some (coins', undo) ↔
      ∃ txout, coins.unspent out.n.toNat = some txout ∧ coins' = coins.spent out.n.toNat ∧
        undo = coins.undo out.n.toNat txout := by
  simp only [CCoins.undo, ← vout_spent_eq_nil_iff]
  unfold spend unspent live
  cases coins.vout[out.n.toNat]? with
  | none => simp
  | some txout =>
    cases hnull : txout.isNull with
    | true => simp [Option.filter, hnull]
    | false =>
      have hset : ({ coins with vout := coins.vout.set out.n.toNat .null } : CCoins).cleanup =
          coins.spent out.n.toNat := rfl
      simp only [hset, Bool.false_eq_true, if_false, Option.filter_some, hnull, Bool.not_false,
        if_true, Option.some.injEq, exists_eq_left']
      split_ifs with hlast <;> simp [Prod.ext_iff, CTxInUndo.ofTxOut, eq_comm]

/-- Inside the range of `unsigned int` the growth cannot wrap. -/
theorem putOutput_eq {n : UInt32} (hn : n.toNat + 1 < 2 ^ 32) (txout : CTxOut) :
    coins.putOutput n txout =
      some { coins with vout := assign .null coins.vout n.toNat txout } := by
  have hnext : (n + 1).toNat = n.toNat + 1 := by
    rw [UInt32.toNat_add]
    exact Nat.mod_eq_of_lt hn
  unfold putOutput assign
  rw [hnext]
  by_cases hlen : coins.vout.length < n.toNat + 1
  · have hbound : n.toNat < (coins.vout ++
        List.replicate (n.toNat + 1 - coins.vout.length) null).length := by
      rw [length_append, length_replicate]
      omega
    simp only [if_pos hlen, if_pos hbound]
  · have hpad : n.toNat + 1 - coins.vout.length = 0 := by omega
    simp only [if_neg hlen, hpad, replicate_zero, append_nil]
    rw [if_pos (by omega)]

theorem unspent_assign (coins : CCoins) (h : txout.isNull = false) (n m : ℕ) :
    ({ coins with vout := assign .null coins.vout n txout } : CCoins).unspent m =
      if m = n then some txout else coins.unspent m :=
  live_assign isNull_null h coins.vout n m

theorem value_spent (h : coins.unspent n = some txout) :
    (coins.spent n).value = coins.value - txout.nValue.toInt := by
  simp only [value, spent, cleanup]
  rw [sumLive_trim]
  exact sumLive_set_dead _ isNull_null h

theorem unspent_isNull (h : coins.unspent n = some txout) : txout.isNull = false :=
  (live_eq_some_iff.mp h).2

theorem value_of_isPruned (h : coins.isPruned = true) : coins.value = 0 := by
  apply sum_eq_zero
  intro x hx
  obtain ⟨txout, htxout, rfl⟩ := mem_map.mp hx
  rw [if_pos (all_eq_true.mp h txout htxout)]

theorem value_nonneg
    (h : ∀ n txout, coins.unspent n = some txout → 0 ≤ txout.nValue.toInt) : 0 ≤ coins.value := by
  apply sum_nonneg
  intro x hx
  obtain ⟨txout, htxout, rfl⟩ := mem_map.mp hx
  obtain ⟨n, hn⟩ := mem_iff_getElem?.mp htxout
  split_ifs with hnull
  · exact le_rfl
  · exact h n txout (live_eq_some_iff.mpr ⟨hn, by simpa using hnull⟩)

end CCoins

namespace CTransaction.Checked

variable {tx : CTransaction}

theorem isNull_eq_false (h : tx.Checked) {txout : CTxOut} (hmem : txout ∈ tx.vout) :
    txout.isNull = false := by
  have hamount := (h.amount txout hmem).1
  rw [isNull, decide_eq_false_iff_not]
  rintro heq
  rw [heq] at hamount
  exact absurd hamount (by decide)

theorem clean_ofTransaction (h : tx.Checked) (nHeight : Int32) : (ofTransaction tx nHeight).Clean :=
  fun _ hlast => h.isNull_eq_false (mem_of_getLast? hlast)

theorem value_ofTransaction (h : tx.Checked) (nHeight : Int32) :
    (ofTransaction tx nHeight).value = tx.valueOut := by
  simp only [value, sumLive, ofTransaction, CTransaction.valueOut]
  congr 1
  apply map_congr_left
  intro txout hmem
  rw [h.isNull_eq_false hmem, if_neg Bool.false_ne_true]

theorem not_isPruned_ofTransaction (h : tx.Checked) (nHeight : Int32) :
    (ofTransaction tx nHeight).isPruned = false := by
  obtain ⟨txout, vout, hvout⟩ := exists_cons_of_ne_nil h.vout_ne_nil
  have hnull : txout.isNull = false := h.isNull_eq_false (by simp [hvout])
  simp [isPruned, ofTransaction, hvout, hnull]

end CTransaction.Checked

end Primecoin
