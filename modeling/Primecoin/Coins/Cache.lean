import Primecoin.Block.Connect
import Primecoin.Coins.Serialize

/-!
# Coin caches

`CCoinsViewCache` keeps the records it was asked for, and those set or changed, in front of
another view, which may be a cache again; `CoinsStack` is such a pile down to the coin database.
What a pile answers is the `flat` view.

`Flush` hands the records and the best block down. In a cache below they stay as they are; the
database loses what the format of coins does not hold, and forgets a record that is completely
spent. A null best block stands for one not known yet, so it cannot be handed down.
-/

namespace Primecoin

open Codec Option Sample Function Except CCoins

/-- A pointer to an entry of `mapBlockIndex`. -/
abbrev BlockPtr (index : UInt256 → Bool) : Type := { hash : UInt256 // index hash = true }

/-- The coin database: records under `'c'` and the hash under `'B'`. -/
structure CCoinsViewDB where
  coins : UInt256 → Option Bytes
  hashBestChain : Option UInt256

/-- The base class has no coins and takes none. -/
inductive CoinsStack (index : UInt256 → Bool) where
  | view
  | db (db : CCoinsViewDB)
  | cache (cacheCoins : UInt256 → Option CCoins) (pindexTip : Option (BlockPtr index))
      (base : CoinsStack index)
  | memPool (mapTx : UInt256 → Option CTransaction) (base : CoinsStack index)

open CoinsStack

structure CCoinsViewCache (index : UInt256 → Bool) where
  cacheCoins : UInt256 → Option CCoins
  pindexTip : Option (BlockPtr index)
  base : CoinsStack index

variable {index : UInt256 → Bool}

namespace CCoinsViewDB

/-- `Read` returns false when the bytes cannot be read back. -/
def getCoins (keys : ECKeys) (db : CCoinsViewDB) (txid : UInt256) : Option CCoins :=
  (db.coins txid).bind fun bytes => (unserialize keys bytes).map Prod.fst

def getBestBlock (db : CCoinsViewDB) : Option (BlockPtr index) :=
  db.hashBestChain.bind fun hash => if h : index hash = true then some ⟨hash, h⟩ else none

/-- What is under the key afterwards. The assertion of `Serialize` holds of a record that is not
pruned. -/
def batchWriteCoins (keys : ECKeys) (coins : CCoins) : Option Bytes :=
  if coins.isPruned then none else (coins.serialize keys).toOption

def write (keys : ECKeys) (db : CCoinsViewDB) (mapCoins : UInt256 → Option CCoins)
    (pindex : Option (BlockPtr index)) : CCoinsViewDB where
  coins txid := (mapCoins txid).elim (db.coins txid) (batchWriteCoins keys)
  hashBestChain := (pindex.map Subtype.val).or db.hashBestChain

end CCoinsViewDB

namespace CoinsStack

/-- A cache keeps what it got from below. -/
def getCoins (keys : ECKeys) (txid : UInt256) : CoinsStack index → Option CCoins × CoinsStack index
  | view => (none, view)
  | db d => (d.getCoins keys txid, db d)
  | cache cacheCoins pindexTip base =>
    match cacheCoins txid with
    | some coins => (some coins, cache cacheCoins pindexTip base)
    | none =>
      match getCoins keys txid base with
      | (some coins, base) =>
        (some coins, cache (update cacheCoins txid (some coins)) pindexTip base)
      | (none, base) => (none, cache cacheCoins pindexTip base)
  | memPool mapTx base =>
    match getCoins keys txid base with
    | (some coins, base) => (some coins, memPool mapTx base)
    | (none, base) =>
      ((mapTx txid).map fun tx => ofTransaction tx mempoolHeight, memPool mapTx base)

def getBestBlock : CoinsStack index → Option (BlockPtr index) × CoinsStack index
  | view => (none, view)
  | db d => (d.getBestBlock, db d)
  | cache cacheCoins (some pindex) base => (some pindex, cache cacheCoins (some pindex) base)
  | cache cacheCoins none base =>
    let (pindex, base) := getBestBlock base
    (pindex, cache cacheCoins pindex base)
  | memPool mapTx base =>
    let (pindex, base) := getBestBlock base
    (pindex, memPool mapTx base)

/-- A batch of the database is written as a whole or not at all. -/
def batchWrite (keys : ECKeys) (io : IoResult) (mapCoins : UInt256 → Option CCoins)
    (pindex : Option (BlockPtr index)) :
    CoinsStack index → Except Failure Bool × CoinsStack index
  | view => (.ok false, view)
  | db d =>
    match io with
    | .ok => (.ok true, db (d.write keys mapCoins pindex))
    | .fails => (.ok false, db d)
    | .throws message => (.error (.exception message), db d)
  | cache cacheCoins _ base =>
    (.ok true, cache (fun txid => (mapCoins txid).or (cacheCoins txid)) pindex base)
  | memPool mapTx base =>
    let (result, base) := batchWrite keys io mapCoins pindex base
    (result, memPool mapTx base)

/-! ## Answers -/

def coins (keys : ECKeys) : CoinsStack index → UInt256 → Option CCoins
  | view, _ => none
  | db d, txid => d.getCoins keys txid
  | cache cacheCoins _ base, txid => (cacheCoins txid).or (base.coins keys txid)
  | memPool mapTx base, txid => (base.coins keys txid).or
      ((mapTx txid).map fun tx => ofTransaction tx mempoolHeight)

def best : CoinsStack index → Option (BlockPtr index)
  | view => none
  | db d => d.getBestBlock
  | cache _ pindexTip base => pindexTip.or base.best
  | memPool _ base => base.best

variable (keys : ECKeys) (stack : CoinsStack index)

def flat : CCoinsView where
  coins := stack.coins keys
  best := stack.best.map Subtype.val

theorem getCoins_fst (txid : UInt256) (stack : CoinsStack index) :
    (stack.getCoins keys txid).1 = stack.coins keys txid := by
  induction stack with
  | view => rfl
  | db d => rfl
  | cache cacheCoins pindexTip base ih =>
    rw [getCoins, coins]
    cases cacheCoins txid with
    | some coins => rfl
    | none =>
      rw [none_or, ← ih]
      rcases getCoins keys txid base with ⟨⟨⟩ | ⟨coins⟩, base'⟩ <;> rfl
  | memPool mapTx base ih =>
    rw [getCoins, coins, ← ih]
    rcases getCoins keys txid base with ⟨⟨⟩ | ⟨coins⟩, base'⟩ <;> rfl

theorem flat_getCoins (keys : ECKeys) (txid : UInt256) (stack : CoinsStack index) :
    (stack.getCoins keys txid).2.coins keys = stack.coins keys ∧
      (stack.getCoins keys txid).2.best = stack.best := by
  induction stack with
  | view => exact ⟨rfl, rfl⟩
  | db d => exact ⟨rfl, rfl⟩
  | cache cacheCoins pindexTip base ih =>
    have hread := getCoins_fst keys txid base
    rw [getCoins]
    cases hcached : cacheCoins txid with
    | some coins => exact ⟨rfl, rfl⟩
    | none =>
      rcases hbase : getCoins keys txid base with ⟨⟨⟩ | ⟨found⟩, base'⟩
      · rw [hbase] at ih
        refine ⟨?_, ?_⟩
        · funext other
          simp only [coins, ih.1]
        · simp only [best, ih.2]
      · rw [hbase] at ih hread
        refine ⟨?_, ?_⟩
        · funext other
          simp only [coins, ih.1]
          by_cases hother : other = txid
          · subst hother
            rw [update_self, hcached, none_or, some_or, ← hread]
          · rw [update_of_ne hother]
        · simp only [best, ih.2]
  | memPool mapTx base ih =>
    rw [getCoins]
    rcases hbase : getCoins keys txid base with ⟨⟨⟩ | ⟨found⟩, base'⟩ <;> rw [hbase] at ih <;>
      exact ⟨funext fun other => by simp only [coins, ih.1], by simp only [best, ih.2]⟩

theorem getBestBlock_fst : stack.getBestBlock.1 = stack.best := by
  induction stack with
  | view => rfl
  | db d => rfl
  | cache cacheCoins pindexTip base ih =>
    cases pindexTip with
    | some pindex => rfl
    | none =>
      rw [getBestBlock, best, none_or, ← ih]
  | memPool mapTx base ih => rw [getBestBlock, best, ← ih]

theorem best_getBestBlock : stack.getBestBlock.2.best = stack.best := by
  induction stack with
  | view => rfl
  | db d => rfl
  | cache cacheCoins pindexTip base ih =>
    cases pindexTip with
    | some pindex => rfl
    | none => simp only [getBestBlock, best, ih, getBestBlock_fst, Option.or_self, none_or]
  | memPool mapTx base ih => exact ih

theorem coins_getBestBlock : stack.getBestBlock.2.coins keys = stack.coins keys := by
  induction stack with
  | view => rfl
  | db d => rfl
  | cache cacheCoins pindexTip base ih =>
    cases pindexTip with
    | some pindex => rfl
    | none =>
      funext other
      simp only [getBestBlock, coins, ih]
  | memPool mapTx base ih =>
    funext other
    simp only [getBestBlock, coins, ih]

end CoinsStack

/-! ## The operations of a cache -/

/-- The reference that the second form of `GetCoins` returns is used to change the record. -/
inductive CacheOp (index : UInt256 → Bool) where
  | getCoins (txid : UInt256)
  | mutate (txid : UInt256) (change : CCoins → CCoins)
  | setCoins (txid : UInt256) (coins : CCoins)
  | haveCoins (txid : UInt256)
  | getBestBlock
  | setBestBlock (pindex : Option (BlockPtr index))

inductive CacheReply
  | coins (coins : Option CCoins)
  | flag (value : Bool)
  | block (pindex : Option UInt256)
  deriving DecidableEq

namespace CCoinsViewCache

def ofBase (base : CoinsStack index) : CCoinsViewCache index := ⟨fun _ => none, none, base⟩

variable (cache : CCoinsViewCache index)

def stack : CoinsStack index :=
  .cache cache.cacheCoins cache.pindexTip cache.base

variable (keys : ECKeys)

def flat (cache : CCoinsViewCache index) : CCoinsView := cache.stack.flat keys

def fetchCoins (cache : CCoinsViewCache index) (txid : UInt256) :
    Option CCoins × CCoinsViewCache index :=
  match cache.cacheCoins txid with
  | some coins => (some coins, cache)
  | none =>
    match cache.base.getCoins keys txid with
    | (some coins, base) =>
      (some coins, { cache with
        cacheCoins := update cache.cacheCoins txid (some coins), base := base })
    | (none, base) => (none, { cache with base := base })

def setCoins (txid : UInt256) (coins : CCoins) : CCoinsViewCache index :=
  { cache with cacheCoins := update cache.cacheCoins txid (some coins) }

def getBestBlock : Option (BlockPtr index) × CCoinsViewCache index :=
  match cache.pindexTip with
  | some pindex => (some pindex, cache)
  | none =>
    let (pindex, base) := cache.base.getBestBlock
    (pindex, { cache with pindexTip := pindex, base := base })

def setBestBlock (pindex : Option (BlockPtr index)) :
    CCoinsViewCache index := { cache with pindexTip := pindex }

/-- `Flush` keeps the records when the view below did not take them. -/
def flush (io : IoResult) (cache : CCoinsViewCache index) :
    Except Failure Bool × CCoinsViewCache index :=
  match cache.base.batchWrite keys io cache.cacheCoins cache.pindexTip with
  | (.ok true, base) => (.ok true, { cache with cacheCoins := fun _ => none, base := base })
  | (result, base) => (result, { cache with base := base })

end CCoinsViewCache

namespace CacheOp

def exec (keys : ECKeys) (cache : CCoinsViewCache index) :
    CacheOp index → Except Failure (CacheReply × CCoinsViewCache index)
  | getCoins txid =>
    let (coins, cache) := cache.fetchCoins keys txid
    .ok (.coins coins, cache)
  | mutate txid change =>
    match cache.fetchCoins keys txid with
    | (none, _) => .error (.assertion "it != cacheCoins.end()")
    | (some coins, cache) => .ok (.coins (some coins), cache.setCoins txid (change coins))
  | setCoins txid coins => .ok (.flag true, cache.setCoins txid coins)
  | haveCoins txid =>
    let (coins, cache) := cache.fetchCoins keys txid
    .ok (.flag coins.isSome, cache)
  | getBestBlock =>
    let (pindex, cache) := cache.getBestBlock
    .ok (.block (pindex.map Subtype.val), cache)
  | setBestBlock pindex => .ok (.flag true, cache.setBestBlock pindex)

/-- The same call on a flat view. -/
def spec (view : CCoinsView) : CacheOp index → Except Failure (CacheReply × CCoinsView)
  | getCoins txid => .ok (.coins (view.coins txid), view)
  | mutate txid change =>
    (view.getCoins txid).map fun coins =>
      (.coins (some coins), view.setCoins txid (change coins))
  | setCoins txid coins => .ok (.flag true, view.setCoins txid coins)
  | haveCoins txid => .ok (.flag (view.haveCoins txid), view)
  | getBestBlock => .ok (.block view.best, view)
  | setBestBlock pindex => .ok (.flag true, view.setBestBlock (pindex.map Subtype.val))

def run (keys : ECKeys) (cache : CCoinsViewCache index) (ops : List (CacheOp index)) :
    Except Failure (CCoinsViewCache index) :=
  ops.foldlM (fun cache op => (op.exec keys cache).map Prod.snd) cache

end CacheOp

namespace CCoinsViewCache

variable {cache : CCoinsViewCache index} (keys : ECKeys) (txid : UInt256)

section

variable (cache : CCoinsViewCache index)

theorem fetchCoins_stack : cache.stack.getCoins keys txid =
      ((cache.fetchCoins keys txid).1, (cache.fetchCoins keys txid).2.stack) := by
  rw [stack, getCoins, fetchCoins]
  cases cache.cacheCoins txid with
  | some coins => rfl
  | none => rcases cache.base.getCoins keys txid with ⟨⟨⟩ | ⟨coins⟩, base'⟩ <;> rfl

theorem fetchCoins_fst : (cache.fetchCoins keys txid).1 = (cache.flat keys).coins txid := by
  have hread := getCoins_fst keys txid cache.stack
  rwa [fetchCoins_stack] at hread

theorem flat_fetchCoins : (cache.fetchCoins keys txid).2.flat keys = cache.flat keys := by
  obtain ⟨hcoins, hbest⟩ := flat_getCoins keys txid cache.stack
  rw [fetchCoins_stack] at hcoins hbest
  rw [flat, flat, CoinsStack.flat, CoinsStack.flat, hcoins, hbest]

theorem flat_setCoins (cache : CCoinsViewCache index) (coins : CCoins) :
    (cache.setCoins txid coins).flat keys = (cache.flat keys).setCoins txid coins := by
  have hcoins : (cache.setCoins txid coins).stack.coins keys =
      update (cache.stack.coins keys) txid (some coins) := by
    funext other
    simp only [setCoins, stack, CoinsStack.coins]
    by_cases hother : other = txid
    · subst hother
      rw [update_self, update_self, some_or]
    · rw [update_of_ne hother, update_of_ne hother]
  rw [flat, CoinsStack.flat, hcoins]
  rfl

theorem getBestBlock_stack :
    cache.stack.getBestBlock = (cache.getBestBlock.1, cache.getBestBlock.2.stack) := by
  rcases cache with ⟨cacheCoins, ⟨⟩ | ⟨pindex⟩, base⟩ <;> rfl

theorem getBestBlock_fst : cache.getBestBlock.1.map Subtype.val = (cache.flat keys).best := by
  have hread := CoinsStack.getBestBlock_fst cache.stack
  rw [getBestBlock_stack] at hread
  exact congrArg (Option.map Subtype.val) hread

theorem flat_getBestBlock : cache.getBestBlock.2.flat keys = cache.flat keys := by
  have hcoins := coins_getBestBlock keys cache.stack
  have hbest := best_getBestBlock cache.stack
  rw [getBestBlock_stack] at hcoins hbest
  rw [flat, flat, CoinsStack.flat, CoinsStack.flat, hcoins, hbest]

end

end CCoinsViewCache

/-- A cache answers every call as the flat view does and changes as it does. -/
theorem CacheOp.exec_refines (keys : ECKeys) (cache : CCoinsViewCache index) {op : CacheOp index}
    (h : op ≠ .setBestBlock none) :
    (op.exec keys cache).map (Prod.map id (CCoinsViewCache.flat keys)) =
      op.spec (cache.flat keys) := by
  have hread := fun txid => cache.fetchCoins_fst keys txid
  have hsame := fun txid => cache.flat_fetchCoins keys txid
  cases op with
  | getCoins txid =>
    rw [exec, spec, ← hread]
    exact congrArg (fun view => ok (_, view)) (hsame txid)
  | mutate txid change =>
    have hread := hread txid
    have hsame := hsame txid
    rw [exec, spec, CCoinsView.getCoins, ← hread]
    rcases hfetch : cache.fetchCoins keys txid with ⟨⟨⟩ | ⟨coins⟩, cache'⟩
    · rfl
    · rw [hfetch] at hsame
      rw [← hsame]
      exact congrArg (fun view => ok (_, view))
        (CCoinsViewCache.flat_setCoins keys txid cache' (change coins))
  | setCoins txid coins =>
    exact congrArg (fun view => ok (_, view)) (cache.flat_setCoins keys txid coins)
  | haveCoins txid =>
    rw [exec, spec, CCoinsView.haveCoins, ← hread]
    exact congrArg (fun view => ok (_, view)) (hsame txid)
  | getBestBlock =>
    rw [exec, spec, ← cache.getBestBlock_fst keys]
    exact congrArg (fun view => ok (_, view)) (cache.flat_getBestBlock keys)
  | setBestBlock pindex =>
    cases pindex with
    | none => exact absurd rfl h
    | some pindex => rfl

/-- The replies to a sequence of calls, and the state they leave. -/
def CacheOp.serve {σ : Type} (exec : σ → CacheOp index → Except Failure (CacheReply × σ)) :
    List (CacheOp index) → σ → Except Failure (List CacheReply × σ)
  | [], s => .ok ([], s)
  | op :: ops, s =>
    (exec s op).bind fun next => (serve exec ops next.2).map (Prod.map (next.1 :: ·) id)

theorem CacheOp.serve_refines (keys : ECKeys) {ops : List (CacheOp index)}
    (h : ∀ op ∈ ops, op ≠ .setBestBlock none) (cache : CCoinsViewCache index) :
    (serve (exec keys) ops cache).map (Prod.map id (CCoinsViewCache.flat keys)) =
      serve spec ops (cache.flat keys) := by
  induction ops generalizing cache with
  | nil => rfl
  | cons op ops ih =>
    have hop := exec_refines keys cache (h op List.mem_cons_self)
    have hrest := ih fun op hmem => h op (List.mem_cons_of_mem _ hmem)
    rw [serve, serve, ← hop]
    rcases op.exec keys cache with failure | ⟨reply, next⟩
    · rfl
    · change _ = (serve spec ops (next.flat keys)).map (Prod.map (reply :: ·) id)
      rw [← hrest, Except.bind]
      cases serve (exec keys) ops next <;> rfl

/-! ## Writing back -/

namespace CoinsStack

/-- A batch given to the view ends up in the coin database. -/
def toDatabase : CoinsStack index → Bool
  | view => false
  | db _ => true
  | cache _ _ _ => false
  | memPool _ base => base.toDatabase

/-- The view below can hold the records: the database every unspent output in them, and a
transaction of the memory pool must not become completely spent in a database below, which would
forget it. -/
def Holds (mapCoins : UInt256 → Option CCoins) : CoinsStack index → Prop
  | view => True
  | db _ => ∀ txid coins, mapCoins txid = some coins → coins.isPruned = false → coins.Packable
  | cache _ _ _ => True
  | memPool mapTx base => Holds mapCoins base ∧ (base.toDatabase = true →
      ∀ txid coins, mapCoins txid = some coins → coins.isPruned = true → mapTx txid = none)

structure Written (keys : ECKeys) (mapCoins : UInt256 → Option CCoins)
    (base base' : CoinsStack index) : Prop where
  kept : ∀ txid, mapCoins txid = none → base'.coins keys txid = base.coins keys txid
  live : ∀ txid coins, mapCoins txid = some coins → coins.isPruned = false →
    ∃ coins', base'.coins keys txid = some coins' ∧ coins.Same coins'
  spent : ∀ txid coins, mapCoins txid = some coins → coins.isPruned = true →
    ∀ coins', base'.coins keys txid = some coins' → coins'.isPruned = true
  exact : base.toDatabase = false →
    ∀ txid, base'.coins keys txid = (mapCoins txid).or (base.coins keys txid)

variable {keys : ECKeys} {io : IoResult} {mapCoins : UInt256 → Option CCoins}
  {pindex : Option (BlockPtr index)} {base base' : CoinsStack index}

theorem written_db {d : CCoinsViewDB} (h : (db d : CoinsStack index).Holds mapCoins) :
    Written keys mapCoins (db d : CoinsStack index) (db (d.write keys mapCoins pindex)) where
  kept txid hnone := by
    simp only [coins, CCoinsViewDB.getCoins, CCoinsViewDB.write, hnone, elim_none]
  live txid coins hcoins hlive := by
    obtain ⟨bytes, hbytes, hread⟩ :=
      readsBack_serialize keys (h txid coins hcoins hlive) hlive
    have hall := hread []
    rw [List.append_nil] at hall
    refine ⟨coins.stored, ?_, coins.same_stored⟩
    simp only [CoinsStack.coins, CCoinsViewDB.getCoins, CCoinsViewDB.write, hcoins,
      elim_some, CCoinsViewDB.batchWriteCoins, hlive, Bool.false_eq_true, if_false, hbytes,
      Except.toOption, bind_some, hall, map_some]
  spent txid coins hcoins hpruned coins' hcoins' := by
    simp only [CoinsStack.coins, CCoinsViewDB.getCoins, CCoinsViewDB.write, hcoins,
      elim_some, CCoinsViewDB.batchWriteCoins, hpruned, if_true, bind_none] at hcoins'
    cases hcoins'
  exact h := by cases h

theorem written_cache {cacheCoins : UInt256 → Option CCoins} {pindexTip : Option (BlockPtr index)} :
    Written keys mapCoins (cache cacheCoins pindexTip base)
      (cache (fun txid => (mapCoins txid).or (cacheCoins txid)) pindex base) where
  kept txid hnone := by simp only [coins, hnone, none_or]
  live txid coins hcoins _ :=
    ⟨coins, by simp only [CoinsStack.coins, hcoins, some_or], .refl coins⟩
  spent txid coins hcoins hpruned coins' hcoins' := by
    simp only [CoinsStack.coins, hcoins, some_or, some.injEq] at hcoins'
    rwa [← hcoins']
  exact _ txid := by simp only [coins, Option.or_assoc]

theorem Written.memPool {mapTx : UInt256 → Option CTransaction} (h : Written keys mapCoins base base')
    (hpool : base.toDatabase = true →
      ∀ txid coins, mapCoins txid = some coins → coins.isPruned = true → mapTx txid = none) :
    Written keys mapCoins (memPool mapTx base) (memPool mapTx base') where
  kept txid hnone := by simp only [coins, h.kept txid hnone]
  live txid coins hcoins hlive := by
    obtain ⟨coins', hcoins', hsame⟩ := h.live txid coins hcoins hlive
    exact ⟨coins', by simp only [CoinsStack.coins, hcoins', some_or], hsame⟩
  spent txid coins hcoins hpruned coins' hcoins' := by
    rw [CoinsStack.coins] at hcoins'
    cases hbase : base'.coins keys txid with
    | some found =>
      rw [hbase, some_or, some.injEq] at hcoins'
      rw [← hcoins']
      exact h.spent txid coins hcoins hpruned found hbase
    | none =>
      cases hdatabase : base.toDatabase with
      | true =>
        rw [hbase, none_or, hpool hdatabase txid coins hcoins hpruned] at hcoins'
        cases hcoins'
      | false =>
        rw [h.exact hdatabase, hcoins, some_or] at hbase
        cases hbase
  exact hdatabase txid := by
    simp only [coins, h.exact hdatabase, Option.or_assoc]

theorem written_of_batchWrite (hholds : base.Holds mapCoins)
    (h : base.batchWrite keys io mapCoins pindex = (.ok true, base')) :
    Written keys mapCoins base base' := by
  induction base generalizing base' with
  | view => cases h
  | db d =>
    cases io with
    | ok =>
      obtain rfl := (Prod.mk.inj h).2
      exact written_db hholds
    | fails => cases h
    | throws message => cases h
  | cache cacheCoins pindexTip base =>
    obtain rfl := (Prod.mk.inj h).2
    exact written_cache
  | memPool mapTx base ih =>
    obtain ⟨hresult, rfl⟩ := Prod.mk.inj h
    exact (ih hholds.1 (Prod.ext hresult rfl)).memPool hholds.2

theorem best_batchWrite (hnull : pindex = none → base.best = none)
    (h : base.batchWrite keys io mapCoins pindex = (.ok true, base')) : base'.best = pindex := by
  induction base generalizing base' with
  | view => cases h
  | db d =>
    cases io with
    | ok =>
      obtain rfl := (Prod.mk.inj h).2
      cases pindex with
      | none => exact hnull rfl
      | some pindex =>
        simp only [best, CCoinsViewDB.getBestBlock, CCoinsViewDB.write, map_some,
          some_or, bind_some, dif_pos pindex.property]
    | fails => cases h
    | throws message => cases h
  | cache cacheCoins pindexTip base =>
    obtain rfl := (Prod.mk.inj h).2
    cases pindex with
    | none =>
      rw [best, none_or]
      exact (or_eq_none_iff.mp (hnull rfl)).2
    | some pindex => rfl
  | memPool mapTx base ih =>
    obtain ⟨hresult, rfl⟩ := Prod.mk.inj h
    change (base.batchWrite keys io mapCoins pindex).2.best = pindex
    exact ih hnull (Prod.ext hresult rfl)

theorem batchWrite_failed (h : (base.batchWrite keys io mapCoins pindex).1 ≠ .ok true) :
    (base.batchWrite keys io mapCoins pindex).2 = base := by
  induction base with
  | view => rfl
  | db d =>
    cases io with
    | ok => exact absurd rfl h
    | fails => rfl
    | throws message => rfl
  | cache cacheCoins pindexTip base => exact absurd rfl h
  | memPool mapTx base ih => exact congrArg (memPool mapTx) (ih h)

end CoinsStack

namespace CCoinsViewCache

variable {keys : ECKeys} {io : IoResult} {cache cache' : CCoinsViewCache index}

/-- The best block was read, or set to a block, since it was last set to null. -/
def Settled (cache : CCoinsViewCache index) : Prop :=
  cache.pindexTip = none → cache.base.best = none

structure Flushed (keys : ECKeys) (cache cache' : CCoinsViewCache index) : Prop where
  entry : ∀ txid, Option.Rel Same ((cache.flat keys).entry txid)
    ((cache'.base.flat keys).entry txid)
  exact : cache.base.toDatabase = false → (cache'.base.flat keys).coins = (cache.flat keys).coins
  best : (cache'.base.flat keys).best = (cache.flat keys).best

theorem flushed_of_flush (hsettled : cache.Settled) (hholds : cache.base.Holds cache.cacheCoins)
    (h : cache.flush keys io = (.ok true, cache')) : Flushed keys cache cache' := by
  have hwrite : cache.base.batchWrite keys io cache.cacheCoins cache.pindexTip =
      (.ok true, cache'.base) := by
    rw [flush] at h
    split at h
    · rename_i base hwrite
      obtain rfl := (Prod.mk.inj h).2
      exact hwrite
    · rename_i result base hne hwrite
      obtain ⟨rfl, -⟩ := Prod.mk.inj h
      exact absurd rfl hne
  have hwritten := CoinsStack.written_of_batchWrite hholds hwrite
  have hbest := CoinsStack.best_batchWrite hsettled hwrite
  refine ⟨fun txid => ?_, fun hdatabase => ?_, ?_⟩
  · cases hcached : cache.cacheCoins txid with
    | none =>
      have hsame : (cache'.base.flat keys).entry txid = (cache.flat keys).entry txid := by
        simp only [CCoinsView.entry, flat, stack, CoinsStack.flat, CoinsStack.coins, hcached,
          none_or, hwritten.kept txid hcached]
      rw [hsame]
      cases (cache.flat keys).entry txid with
      | none => exact .none
      | some coins => exact .some (.refl coins)
    | some coins =>
      have hcoins : (cache.flat keys).coins txid = some coins := by
        simp only [flat, stack, CoinsStack.flat, CoinsStack.coins, hcached, some_or]
      cases hpruned : coins.isPruned with
      | true =>
        have hbefore : (cache.flat keys).entry txid = none := by
          rw [CCoinsView.entry, hcoins, filter_some, hpruned]
          rfl
        have hafter : (cache'.base.flat keys).entry txid = none :=
          CCoinsView.entry_eq_none_iff.mpr (hwritten.spent txid coins hcached hpruned)
        rw [hbefore, hafter]
        exact .none
      | false =>
        obtain ⟨coins', hcoins', hsame⟩ := hwritten.live txid coins hcached hpruned
        have hafter : (cache'.base.flat keys).entry txid = some coins' :=
          CCoinsView.entry_eq_some_iff.mpr ⟨hcoins', hsame.isPruned.trans hpruned⟩
        rw [CCoinsView.entry_eq_some_iff.mpr ⟨hcoins, hpruned⟩, hafter]
        exact .some hsame
  · funext txid
    exact hwritten.exact hdatabase txid
  · simp only [CoinsStack.flat, flat, stack, CoinsStack.best, hbest]
    cases htip : cache.pindexTip with
    | none => rw [hsettled htip, none_or]
    | some pindex => rw [some_or]

theorem flush_fst (keys : ECKeys) (io : IoResult) (cache : CCoinsViewCache index) :
    (cache.flush keys io).1 =
      (cache.base.batchWrite keys io cache.cacheCoins cache.pindexTip).1 := by
  rw [flush]
  split
  · rename_i base hwrite
    rw [hwrite]
  · rename_i result base hne hwrite
    rw [hwrite]

theorem flush_failed (h : (cache.flush keys io).1 ≠ .ok true) :
    (cache.flush keys io).2 = cache := by
  have hbase := CoinsStack.batchWrite_failed (flush_fst keys io cache ▸ h)
  rw [flush_fst] at h
  rw [flush]
  split
  · rename_i base hwrite
    rw [hwrite] at h
    exact absurd rfl h
  · rename_i result base hne hwrite
    rw [hwrite] at hbase
    obtain rfl : base = cache.base := hbase
    rfl

end CCoinsViewCache

namespace CacheOp

/-- Whether the best block is known for sure after a call, given whether it was before. -/
def settles (settled : Bool) : CacheOp index → Bool
  | getBestBlock => true
  | setBestBlock pindex => pindex.isSome
  | _ => settled

variable {keys : ECKeys} {cache cache' : CCoinsViewCache index}

theorem fetchCoins_settled (keys : ECKeys) (txid : UInt256) (h : cache.Settled) :
    (cache.fetchCoins keys txid).2.Settled := by
  have hbase := (flat_getCoins keys txid cache.base).2
  rw [CCoinsViewCache.fetchCoins]
  cases cache.cacheCoins txid with
  | some coins => exact h
  | none =>
    rcases hread : cache.base.getCoins keys txid with ⟨⟨⟩ | ⟨coins⟩, base⟩ <;>
      rw [hread] at hbase <;>
      exact fun hnull => hbase.trans (h hnull)

theorem getBestBlock_settled (cache : CCoinsViewCache index) : cache.getBestBlock.2.Settled := by
  rw [CCoinsViewCache.getBestBlock]
  cases htip : cache.pindexTip with
  | some pindex => exact fun hnull => absurd (htip.symm.trans hnull) (some_ne_none pindex)
  | none =>
    intro hnull
    rw [best_getBestBlock, ← getBestBlock_fst]
    exact hnull

theorem exec_settled {op : CacheOp index} {reply : CacheReply} {settled : Bool}
    (h : settled = true → cache.Settled) (hexec : op.exec keys cache = .ok (reply, cache'))
    (hop : op.settles settled = true) : cache'.Settled := by
  cases op with
  | getCoins txid =>
    obtain ⟨-, rfl⟩ := Prod.mk.inj (ok.inj hexec)
    exact fetchCoins_settled keys txid (h hop)
  | mutate txid change =>
    have hfetched := fetchCoins_settled keys txid (h hop)
    rw [exec] at hexec
    rcases hfetch : cache.fetchCoins keys txid with ⟨⟨⟩ | ⟨coins⟩, next⟩
    · rw [hfetch] at hexec
      cases hexec
    · rw [hfetch] at hexec hfetched
      obtain ⟨-, rfl⟩ := Prod.mk.inj (ok.inj hexec)
      exact hfetched
  | setCoins txid coins =>
    obtain ⟨-, rfl⟩ := Prod.mk.inj (ok.inj hexec)
    exact h hop
  | haveCoins txid =>
    obtain ⟨-, rfl⟩ := Prod.mk.inj (ok.inj hexec)
    exact fetchCoins_settled keys txid (h hop)
  | getBestBlock =>
    obtain ⟨-, rfl⟩ := Prod.mk.inj (ok.inj hexec)
    exact getBestBlock_settled cache
  | setBestBlock pindex =>
    obtain ⟨-, rfl⟩ := Prod.mk.inj (ok.inj hexec)
    intro hnull
    rw [settles] at hop
    rw [isSome_iff_ne_none] at hop
    exact absurd hnull hop

theorem run_settled {ops : List (CacheOp index)} {settled : Bool}
    (h : settled = true → cache.Settled) (hrun : run keys cache ops = .ok cache')
    (hops : ops.foldl settles settled = true) : cache'.Settled := by
  induction ops generalizing cache settled with
  | nil =>
    obtain rfl := ok.inj hrun
    exact h hops
  | cons op ops ih =>
    rw [run, List.foldlM_cons, bind_eq_ok_iff] at hrun
    obtain ⟨next, hnext, hrest⟩ := hrun
    rcases hexec : op.exec keys cache with ⟨failure⟩ | ⟨reply, found⟩
    · rw [hexec] at hnext
      cases hnext
    · rw [hexec] at hnext
      obtain rfl := ok.inj hnext
      exact ih (exec_settled h hexec) hrest hops

end CacheOp

/-- Whatever calls a cache has served, a `Flush` that succeeds makes the view below answer as the
cache did, and one that fails changes no answer. -/
theorem CCoinsViewCache.flush_refines (keys : ECKeys) (base : CoinsStack index)
    {ops : List (CacheOp index)} {cache : CCoinsViewCache index}
    (hrun : CacheOp.run keys (ofBase base) ops = .ok cache)
    (hbest : ops.foldl CacheOp.settles false = true) (io : IoResult) :
    (∀ cache', cache.flush keys io = (.ok true, cache') →
        cache.base.Holds cache.cacheCoins → Flushed keys cache cache') ∧
      ∀ result cache', cache.flush keys io = (result, cache') → result ≠ .ok true →
        cache'.flat keys = cache.flat keys := by
  have hsettled : cache.Settled := CacheOp.run_settled (by simp) hrun hbest
  refine ⟨fun cache' h hholds => flushed_of_flush hsettled hholds h,
    fun result cache' h hfailed => ?_⟩
  have hsame : (cache.flush keys io).2 = cache := flush_failed (by rwa [h])
  rw [h] at hsame
  rw [← hsame]

namespace CCoinsViewCache

def twoBlocks (hash : UInt256) : Bool := hash == 1 || hash == 2

def atFirst : CoinsStack twoBlocks := .db ⟨fun _ => none, some 1⟩

def twoOutputs : CCoins := ⟨false, [⟨100, [0x51]⟩, ⟨200, [0x51]⟩], 5, 1⟩

theorem packable_twoOutputs_spent : (twoOutputs.spent 0).Packable where
  nHeight := by decide
  length := by decide
  vout n txout hout := by
    rw [unspent_spent] at hout
    split_ifs at hout with hn
    obtain ⟨hget, -⟩ := Slots.live_eq_some_iff.mp hout
    have hall : twoOutputs.vout.all (fun txout =>
        decide (txout.nValue.toUInt64.toNat < CTxOutCompressor.packedLimit ∧
          txout.scriptPubKey.length + CScriptCompressor.nSpecialScripts < 2 ^ 32)) = true := by
      decide
    have htxout := List.all_eq_true.mp hall txout (List.mem_of_getElem? hget)
    rw [decide_eq_true_iff] at htxout
    exact ⟨Or.inr htxout.1, htxout.2⟩

def spending : List (CacheOp twoBlocks) :=
  [.setCoins 7 twoOutputs, .haveCoins 8, .getBestBlock, .mutate 7 (spent · 0),
    .setBestBlock (some ⟨2, rfl⟩)]

theorem serve_refines_spending : (CacheOp.serve (CacheOp.exec keys) spending (ofBase atFirst)).map
      (Prod.map id (flat keys)) = CacheOp.serve CacheOp.spec spending ((ofBase atFirst).flat keys) :=
  CacheOp.serve_refines keys (by simp [spending]) _

theorem flush_refines_spending : ∃ cache cache',
    CacheOp.run keys (ofBase atFirst) spending = .ok cache ∧
      cache.flush keys .ok = (.ok true, cache') ∧ Flushed keys cache cache' := by
  have hrun : CacheOp.run keys (ofBase atFirst) spending = .ok ⟨update
      (update (fun _ => none) 7 (some twoOutputs)) 7 (some (twoOutputs.spent 0)),
      some ⟨2, rfl⟩, atFirst⟩ := rfl
  refine ⟨_, _, hrun, rfl, (flush_refines keys atFirst hrun rfl .ok).1 _ rfl ?_⟩
  intro txid coins hcoins _
  simp only at hcoins
  by_cases htxid : txid = 7
  · rw [htxid, update_self, Option.some.injEq] at hcoins
    rw [← hcoins]
    exact packable_twoOutputs_spent
  · rw [update_of_ne htxid, update_of_ne htxid] at hcoins
    cases hcoins

/-- A negative version and an amount that cannot be packed do not come back from the database; a
pool transaction that is completely spent comes back unspent if it is in no view below; and a null
best block uncovers the one below. -/
theorem flush_loses : (∃ cache cache' before after, CacheOp.run keys (ofBase atFirst)
        [.setCoins 7 { twoOutputs with nVersion := -1 }, .getBestBlock] = .ok cache ∧
      cache.flush keys .ok = (.ok true, cache') ∧
      (cache.flat keys).entry 7 = some before ∧
      (cache'.base.flat keys).entry 7 = some after ∧
      before.nVersion = -1 ∧ after.nVersion = 127) ∧
    (∃ cache cache' before after, CacheOp.run keys (ofBase atFirst)
        [.setCoins 7 { twoOutputs with vout := [⟨2049638230412172403, [0x51]⟩] },
          .getBestBlock] = .ok cache ∧
      cache.flush keys .ok = (.ok true, cache') ∧
      (cache.flat keys).entry 7 = some before ∧
      (cache'.base.flat keys).entry 7 = some after ∧
      before.unspent 0 = some ⟨2049638230412172403, [0x51]⟩ ∧
      after.unspent 0 = some ⟨10000, [0x51]⟩) ∧
    (∃ cache cache', CacheOp.run keys (ofBase (.memPool (update (fun _ => none) 7
          (some ⟨1, [⟨⟨9, 0⟩, [], 0xffffffff⟩], [⟨100, [0x51]⟩], 0⟩)) atFirst))
        [.mutate 7 (spent · 0), .getBestBlock] = .ok cache ∧
      cache.flush keys .ok = (.ok true, cache') ∧
      (cache.flat keys).entry 7 = none ∧
      (cache'.base.flat keys).entry 7 = some ⟨false, [⟨100, [0x51]⟩], mempoolHeight, 1⟩) ∧
    ∃ cache cache', CacheOp.run keys (ofBase (.cache (fun _ => none) (some ⟨2, rfl⟩) atFirst))
        [.setBestBlock none] = .ok cache ∧
      cache.flush keys .ok = (.ok true, cache') ∧
      (cache.flat keys).best = some 2 ∧
      (cache'.base.flat keys).best = some 1 := by
  refine ⟨⟨_, _, { twoOutputs with nVersion := -1 }, { twoOutputs with nVersion := 127 }, rfl, rfl,
      ?_, ?_, rfl, rfl⟩,
    ⟨_, _, { twoOutputs with vout := [⟨2049638230412172403, [0x51]⟩] },
      { twoOutputs with vout := [⟨10000, [0x51]⟩] }, rfl, rfl, ?_, ?_, rfl, rfl⟩,
    ⟨_, _, rfl, rfl, ?_, ?_⟩, ⟨_, _, rfl, rfl, ?_, ?_⟩⟩
  all_goals decide +kernel

end CCoinsViewCache

end Primecoin
