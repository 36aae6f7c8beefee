import Primecoin.Coins.Inputs
import Primecoin.Data.KeyMap

/-!
# The memory pool

`CTxMemPool` holds the loose transactions by id and an index `mapNextTx` from every outpoint they
spend to the input that spends it. A pointer `&mapTx[hash]` is the key `hash`, and following it
fails when the key is gone.

`remove` calls itself on the transactions that spend an output before it takes anything out of the
maps. `depth` bounds the calls open at once.
-/

namespace Primecoin

structure CInPoint where
  ptx : UInt256
  n : ℕ
  deriving DecidableEq, Repr

structure CTxMemPool where
  mapTx : UInt256 → Option CTransaction
  mapNextTx : COutPoint → Option CInPoint
  nTransactionsUpdated : UInt32

/-- The standardness rules and the limiter for free transactions are policy of the node and are
left open. -/
structure PoolContext where
  network : Network
  isStandard : CTransaction → Bool
  areInputsStandard : CTransaction → CCoinsView → Bool
  rateLimited : Bool
  verifyScript : VerifyScript
  tree : BlockTree
  pcoinsTip : CCoinsView

namespace CTxMemPool

def empty : CTxMemPool := ⟨fun _ => none, fun _ => none, 0⟩

variable (pool : CTxMemPool)

/-- The coins of the base, and of a transaction of the pool where the base has none. -/
def coinsView (base : CCoinsView) : CCoinsView where
  coins txid := (base.coins txid).or
    ((pool.mapTx txid).map fun tx => CCoins.ofTransaction tx mempoolHeight)
  best := base.best

def inputEntries (hash : UInt256) (vin : List CTxIn) : List (COutPoint × CInPoint) :=
  vin.zipIdx.map fun input => (input.1.prevout, ⟨hash, input.2⟩)

def addUnchecked (hash : UInt256) (tx : CTransaction) : CTxMemPool where
  mapTx := Function.update pool.mapTx hash (some tx)
  mapNextTx := KeyMap.insertAll pool.mapNextTx (inputEntries hash tx.vin)
  nTransactionsUpdated := pool.nTransactionsUpdated + 1

def acceptForm (context : PoolContext) (tx : CTransaction) : Except Failure Unit := do
  tx.checkTransaction
  if tx.isCoinBase then
    .error (.dos 100 "CTxMemPool::accept() : coinbase as individual tx" false)
  else if 0x7fffffff < tx.nLockTime.toNat then
    .error (.error "CTxMemPool::accept() : not accepting nLockTime beyond 2038 yet")
  else if context.network = .official ∧ !context.isStandard tx then
    .error (.error "CTxMemPool::accept() : nonstandard transaction (%s)")
  else .ok ()

def acceptInputs (context : PoolContext) (tx : CTransaction) (view : CCoinsView)
    (fLimitFree : Bool) : Except Failure Unit := do
  if !(← tx.haveInputs view) then
    .error (.invalid "CTxMemPool::accept() : inputs already spent")
  else if !context.areInputsStandard tx view ∧ context.network = .official then
    .error (.error "CTxMemPool::accept() : nonstandard transaction input")
  else
    let nFees := (← tx.getValueIn view) - (← tx.getValueOut)
    if fLimitFree ∧ nFees < tx.getMinFee 1000 false .relay then
      .error (.error "CTxMemPool::accept() : not enough fees %s, %d < %d")
    else if fLimitFree ∧ nFees < nMinRelayTxFee ∧ context.rateLimited then
      .error (.error "CTxMemPool::accept() : free transaction rejected by rate limiter")
    else
      let _ ← tx.checkInputs context.verifyScript context.tree view
        (scriptVerifyP2SH ||| scriptVerifyStrictEnc) false
      .ok ()

variable (hash : Bytes → UInt256) (context : PoolContext)

/-- With the value of `*pfMissingInputs`. A conflict with the pool always rejects: the replacement
code behind it is switched off. -/
def accept (pool : CTxMemPool)
    (tx : CTransaction) (fCheckInputs fLimitFree : Bool) : Except Failure CTxMemPool × Bool :=
  match acceptForm context tx with
  | .error failure => (.error failure, false)
  | .ok () =>
    let txid := tx.getHash hash
    if (pool.mapTx txid).isSome then (.error (.error ""), false)
    else if tx.vin.any fun txin => (pool.mapNextTx txin.prevout).isSome then
      (.error (.error ""), false)
    else if fCheckInputs then
      let view := pool.coinsView context.pcoinsTip
      if view.haveCoins txid then (.error (.error ""), false)
      else if tx.vin.any fun txin => !view.haveCoins txin.prevout.hash then
        (.error (.error ""), true)
      else
        ((acceptInputs context tx view fLimitFree).map fun _ => pool.addUnchecked txid tx, false)
    else (.ok (pool.addUnchecked txid tx), false)

/-- An exception of `accept` becomes a system error. -/
def acceptToMemoryPool (pool : CTxMemPool)
    (tx : CTransaction) (fCheckInputs fLimitFree : Bool) : Except Failure CTxMemPool × Bool :=
  match pool.accept hash context tx fCheckInputs fLimitFree with
  | (.error (.exception message), fMissingInputs) =>
    (.error (.abort ("System error: " ++ message)), fMissingInputs)
  | result => result

/-- The end of `remove`: the transaction and the entries of its inputs go. -/
def erase (txid : UInt256) (tx : CTransaction) : CTxMemPool where
  mapTx := Function.update pool.mapTx txid none
  mapNextTx := KeyMap.eraseAll pool.mapNextTx (tx.vin.map CTxIn.prevout)
  nTransactionsUpdated := pool.nTransactionsUpdated + 1

def withSpender (out : COutPoint)
    (f : CTransaction → Except Failure CTxMemPool) : Except Failure CTxMemPool :=
  match pool.mapNextTx out with
  | none => .ok pool
  | some inPoint =>
    match pool.mapTx inPoint.ptx with
    | none => .error (.fault "*it->second.ptx")
    | some spender => f spender

def remove (hash : Bytes → UInt256) :
    ℕ → CTxMemPool → CTransaction → Bool → Except Failure CTxMemPool
  | 0, _, _, _ => .error (.fault "CTxMemPool::remove")
  | depth + 1, pool, tx, fRecursive =>
    let txid := tx.getHash hash
    let spendersRemoved : Except Failure CTxMemPool :=
      if fRecursive then
        (List.range tx.vout.length).foldlM (fun pool i =>
          pool.withSpender ⟨txid, UInt32.ofNat i⟩ fun spender =>
            remove hash depth pool spender true) pool
      else .ok pool
    spendersRemoved >>= fun pool =>
      if (pool.mapTx txid).isSome then .ok (pool.erase txid tx) else .ok pool

def removeConflicts (depth : ℕ) (pool : CTxMemPool)
    (tx : CTransaction) : Except Failure CTxMemPool :=
  tx.vin.foldlM (fun pool txin =>
    pool.withSpender txin.prevout fun txConflict =>
      if txConflict ≠ tx then pool.remove hash depth txConflict true else .ok pool) pool

section Avoids

variable {bad : Failure → Bool}

section

variable (hbad : ∀ expression, bad (.fault expression) = false)
include hbad

theorem withSpender_avoids
    {pool : CTxMemPool} {out : COutPoint} {f : CTransaction → Except Failure CTxMemPool}
    (hf : ∀ spender, Except.Avoids bad (f spender)) : Except.Avoids bad (pool.withSpender out f) := by
  rw [withSpender]
  split
  · exact Except.avoids_ok pool
  · split
    · exact Except.avoids_error (hbad _)
    · exact hf _

/-- The only way to fail is to follow a dangling pointer. -/
theorem remove_avoids (hash : Bytes → UInt256) (depth : ℕ) (pool : CTxMemPool) (tx : CTransaction)
    (fRecursive : Bool) : Except.Avoids bad (remove hash depth pool tx fRecursive) := by
  induction depth generalizing pool tx fRecursive with
  | zero => exact Except.avoids_error (hbad _)
  | succ depth ih =>
    rw [remove]
    refine Except.Avoids.bind (Except.Avoids.ite (fun _ => ?_) fun _ => Except.avoids_ok pool) ?_
    · exact Except.avoids_foldlM (motive := fun _ => True)
        (fun pool i _ _ => withSpender_avoids hbad fun spender => ih pool spender true)
        (fun _ _ _ _ _ _ => trivial) trivial
    · intro pool' _
      split_ifs <;> exact Except.avoids_ok _

theorem removeConflicts_avoids
    (hash : Bytes → UInt256) (depth : ℕ) (pool : CTxMemPool) (tx : CTransaction) :
    Except.Avoids bad (removeConflicts hash depth pool tx) :=
  Except.avoids_foldlM (motive := fun _ => True)
    (fun pool _ _ _ => withSpender_avoids hbad fun txConflict =>
      Except.Avoids.ite (fun _ => remove_avoids hbad hash depth pool txConflict true)
        fun _ => Except.avoids_ok pool)
    (fun _ _ _ _ _ _ => trivial) trivial

end

end Avoids

def clear : CTxMemPool :=
  { empty with nTransactionsUpdated := pool.nTransactionsUpdated + 1 }

end CTxMemPool

inductive PoolOp
  | accept (context : PoolContext) (tx : CTransaction) (fCheckInputs fLimitFree : Bool)
  | remove (tx : CTransaction) (fRecursive : Bool)
  | removeConflicts (tx : CTransaction)
  | clear

namespace CTxMemPool

/-- A transaction that is not accepted leaves the pool alone. -/
def step (hash : Bytes → UInt256) (depth : ℕ) (pool : CTxMemPool) :
    PoolOp → Except Failure CTxMemPool
  | .accept context tx fCheckInputs fLimitFree =>
    match pool.acceptToMemoryPool hash context tx fCheckInputs fLimitFree with
    | (.ok pool', _) => .ok pool'
    | (.error _, _) => .ok pool
  | .remove tx fRecursive => pool.remove hash depth tx fRecursive
  | .removeConflicts tx => pool.removeConflicts hash depth tx
  | .clear => .ok pool.clear

def run (hash : Bytes → UInt256) (depth : ℕ) (ops : List PoolOp) : Except Failure CTxMemPool :=
  ops.foldlM (step hash depth) empty

end CTxMemPool

end Primecoin
