import Primecoin.Block.Basic
import Primecoin.Coins.Basic

/-!
# Coin views

A view answers for every transaction id with its coins and knows the block it is the state of. How
the caches of the source assemble the answers is not visible to the functions that use a view.

What an operation does to a view is stated through `output`, the map from outpoints to unspent
outputs, and `supply`, the sum of their amounts.
-/

namespace Primecoin

structure CCoinsView where
  coins : UInt256 → Option CCoins
  best : Option UInt256

namespace CCoinsView

variable (view : CCoinsView) (txid : UInt256)

def haveCoins : Bool := (view.coins txid).isSome

def getCoins : Except Failure CCoins :=
  match view.coins txid with
  | none => .error (.assertion "it != cacheCoins.end()")
  | some coins => .ok coins

def setCoins (coins : CCoins) : CCoinsView :=
  { view with coins := Function.update view.coins txid (some coins) }

def setBestBlock (pindex : Option UInt256) : CCoinsView :=
  { view with best := pindex }

def output (out : COutPoint) : Option CTxOut :=
  (view.coins out.hash).bind fun coins => coins.unspent out.n.toNat

/-- The coins of the transaction are absent or completely spent. -/
def Vacant : Prop :=
  ∀ coins, view.coins txid = some coins → coins.isPruned = true

def valueAt : ℤ := (view.coins txid).elim 0 CCoins.value

noncomputable def supply : ℤ := ∑ txid, view.valueAt txid

variable {view : CCoinsView} {txid : UInt256} {coins : CCoins} {out : COutPoint} {txout : CTxOut}

theorem getCoins_eq_ok_iff : view.getCoins txid = .ok coins ↔ view.coins txid = some coins := by
  unfold getCoins
  cases view.coins txid with
  | none => simp
  | some _ => simp

section

variable (view : CCoinsView)

@[simp] theorem best_setCoins (txid : UInt256) (coins : CCoins) :
    (view.setCoins txid coins).best = view.best := rfl

variable (pindex : Option UInt256)

@[simp] theorem supply_setBestBlock : (view.setBestBlock pindex).supply = view.supply := rfl

@[simp] theorem coins_setCoins_self (txid : UInt256) (coins : CCoins) :
    (view.setCoins txid coins).coins txid = some coins := Function.update_self ..

end

theorem coins_setCoins_of_ne {other : UInt256} (h : other ≠ txid) (view : CCoinsView)
    (coins : CCoins) : (view.setCoins txid coins).coins other = view.coins other :=
  Function.update_of_ne h _ _

theorem output_eq_some_iff : view.output out = some txout ↔
      ∃ coins, view.coins out.hash = some coins ∧ coins.unspent out.n.toNat = some txout := by
  simp [output, Option.bind_eq_some_iff]

theorem supply_setCoins (view : CCoinsView) (txid : UInt256) (coins : CCoins) :
    (view.setCoins txid coins).supply = view.supply - view.valueAt txid + coins.value := by
  have hrest : ∀ other ∈ Finset.univ.erase txid,
      (view.setCoins txid coins).valueAt other = view.valueAt other := by
    intro other hother
    simp only [valueAt, coins_setCoins_of_ne (Finset.ne_of_mem_erase hother)]
  have hself : (view.setCoins txid coins).valueAt txid = coins.value := by
    simp [valueAt]
  rw [supply, supply, ← Finset.add_sum_erase _ _ (Finset.mem_univ txid),
    ← Finset.add_sum_erase _ view.valueAt (Finset.mem_univ txid), hself,
    Finset.sum_congr rfl hrest]
  ring

theorem Vacant.valueAt_eq_zero (h : view.Vacant txid) : view.valueAt txid = 0 := by
  unfold valueAt
  cases hcoins : view.coins txid with
  | none => rfl
  | some coins => exact CCoins.value_of_isPruned (h coins hcoins)

theorem Vacant.output_eq_none (h : view.Vacant out.hash) : view.output out = none := by
  cases hout : view.output out with
  | none => rfl
  | some txout =>
    obtain ⟨coins, hcoins, hunspent⟩ := output_eq_some_iff.mp hout
    have hpruned := h coins hcoins
    rw [CCoins.not_isPruned_of_unspent hunspent] at hpruned
    cases hpruned

def NonNegative (view : CCoinsView) : Prop :=
  ∀ txid coins n txout, view.coins txid = some coins → coins.unspent n = some txout →
    0 ≤ txout.nValue.toInt

theorem NonNegative.supply_nonneg (h : view.NonNegative) : 0 ≤ view.supply := by
  refine Finset.sum_nonneg fun txid _ => ?_
  unfold valueAt
  cases hcoins : view.coins txid with
  | none => exact le_rfl
  | some coins => exact CCoins.value_nonneg fun n txout => h txid coins n txout hcoins

theorem NonNegative.setCoins (h : view.NonNegative)
    (hcoins : ∀ n txout, coins.unspent n = some txout → 0 ≤ txout.nValue.toInt) :
    (view.setCoins txid coins).NonNegative := by
  intro other record n txout hrecord hunspent
  by_cases hother : other = txid
  · subst hother
    rw [coins_setCoins_self, Option.some.injEq] at hrecord
    exact hcoins n txout (hrecord ▸ hunspent)
  · rw [coins_setCoins_of_ne hother] at hrecord
    exact h other record n txout hrecord hunspent

def empty : CCoinsView := ⟨fun _ => none, none⟩

theorem nonNegative_empty : empty.NonNegative := by
  intro txid coins n txout hcoins
  cases hcoins

theorem supply_empty : empty.supply = 0 := Finset.sum_eq_zero fun _ _ => rfl

end CCoinsView

end Primecoin
