import Primecoin.Block.Outputs
import Primecoin.Chain.Stages
import Primecoin.Pool.Removal

/-!
# The memory pool after a change of the best block

`SetBestChain` ends with two loops over the pool. The transactions of the blocks taken off are
offered to the pool again, and with one that is refused go all that depend on it; those of the
blocks put on leave the pool with all that conflict with them.

`PoolValid`: an input spends an unspent output of the coins or of another pool transaction, and
the coinbases spent have matured. The loops keep it but for coinbases: those taken off are not
offered to the pool, so what depends on them stays, and nothing looks at the maturity again when
the new tip is lower. `Backed` lists where an input may come from while the loops are under way.
-/

namespace Primecoin

open List Stateful Option CTxMemPool CTransaction Except CBlockIndex

def ChainIo.transactions (io : ChainIo) (l : List UInt256) : List CTransaction :=
  l.flatMap fun h => ((io.readBlock h).map CBlock.vtx).getD []

namespace Node

variable {W : Type}

def Matured (node : Node W) (nHeight : Int32) : Prop :=
  ∃ pindex, node.pcoinsTip.best.bind node.mapBlockIndex = some pindex ∧
    ¬ pindex.nHeight + 1 - nHeight < coinbaseMaturity

structure PoolValid (node : Node W) : Prop where
  loose : ∀ txid tx, node.mempool.mapTx txid = some tx → tx.isCoinBase = false
  available : ∀ txid tx, node.mempool.mapTx txid = some tx → ∀ txin ∈ tx.vin,
    (∃ fCoinBase nHeight, node.pcoinsTip.Holds txin.prevout fCoinBase nHeight) ∨
      txin.prevout.hash ≠ txid ∧ ∃ parent, node.mempool.mapTx txin.prevout.hash = some parent ∧
        txin.prevout.n.toNat < parent.vout.length
  mature : ∀ txid tx, node.mempool.mapTx txid = some tx → ∀ txin ∈ tx.vin, ∀ nHeight,
    node.pcoinsTip.Holds txin.prevout true nHeight → node.Matured nHeight

/-- The pool, the coins, the blocks and their undo data go back to transactions with distinct ids.
The genesis block has only a coinbase. -/
structure Grounded (context : ChainContext W) (io : ChainIo) (known : Set CTransaction)
    (node : Node W) : Prop where
  injOn : Set.InjOn (getHash context.connect.hash) known
  consistent : node.Consistent
  pool : node.mempool.Sound context.connect.hash known
  coins : node.pcoinsTip.Genuine context.connect.hash known
  blocks : ∀ h block, io.readBlock h = some block → ∀ tx ∈ block.vtx, tx ∈ known
  undo : ∀ h block, io.readBlock h = some block → ∀ hashPrev vtxundo,
    CBlockUndo.readFromDisk context.keys context.connect.hash hashPrev (io.readUndo h) =
      .ok vtxundo → CBlockUndo.Genuine context.connect.hash known block.vtx vtxundo
  genesis : ∀ block, io.readBlock (hashGenesisBlock context.connect.network) = some block →
    ∀ tx ∈ block.vtx, tx.isCoinBase = true

/-- The coinbase outputs that a transaction spends, if it was in the pool and still is, are in the
new coins and have matured. -/
def KeepsCoinbases (node node' : Node W) : Prop :=
  ∀ txid tx, node.mempool.mapTx txid = some tx → node'.mempool.mapTx txid = some tx →
    ∀ txin ∈ tx.vin, ∀ nHeight, node.pcoinsTip.Holds txin.prevout true nHeight →
      ∃ nHeight', node'.pcoinsTip.Holds txin.prevout true nHeight' ∧ node'.Matured nHeight'

/-- No pool transaction spends a coinbase of one of the two branches, or one not old enough for
the new tip. -/
def SparesCoinbases (context : ChainContext W) (io : ChainIo) (pindexNew : UInt256)
    (node : Node W) : Prop :=
  ∀ vDisconnect vConnect pindex, node.mapBlockIndex.reorganization node.pcoinsTip.best pindexNew =
      .ok (vDisconnect, vConnect) → node.mapBlockIndex pindexNew = some pindex →
    ∀ txid tx, node.mempool.mapTx txid = some tx → ∀ txin ∈ tx.vin, ∀ nHeight,
      node.pcoinsTip.Holds txin.prevout true nHeight →
      (∀ other ∈ io.transactions (vDisconnect ++ vConnect),
        other.getHash context.connect.hash ≠ txin.prevout.hash) ∧
      ¬ pindex.nHeight + 1 - nHeight < coinbaseMaturity

/-! ## The coins -/

section Coins

variable {context : ChainContext W} {io : ChainIo} {known : Set CTransaction}
  {node node' : Node W} {tree : BlockTree} {view view' : CCoinsView} {h : UInt256}
  {l : List UInt256}

theorem transactions_cons {block : CBlock} (hblock : io.readBlock h = some block)
    (l : List UInt256) : io.transactions (h :: l) = block.vtx ++ io.transactions l := by
  simp [ChainIo.transactions, hblock]

section

variable (hground : node.Grounded context io known)
include hground

theorem Grounded.of_mem_transactions
    {tx : CTransaction} (htx : tx ∈ io.transactions l) : tx ∈ known := by
  obtain ⟨h, -, hmem⟩ := mem_flatMap.mp htx
  cases hblock : io.readBlock h with
  | none => simp [hblock] at hmem
  | some block =>
    rw [hblock] at hmem
    exact hground.blocks h block hblock tx hmem

theorem disconnectBranch_retreats {vResurrect : List CTransaction}
    (hok : disconnectBranch context io tree l view = .ok (view', vResurrect)) :
    view.Retreats context.connect.hash known (io.transactions l) view' ∧
      ∀ tx, tx ∈ vResurrect ↔ tx ∈ io.transactions l ∧ tx.isCoinBase = false := by
  induction l generalizing view view' vResurrect with
  | nil =>
    cases hok
    exact ⟨CCoinsView.retreats_nil _ _ view, by simp [ChainIo.transactions]⟩
  | cons h l ih =>
    simp only [disconnectBranch, bind_eq_ok_iff] at hok
    obtain ⟨⟨next, block⟩, htip, ⟨last, vRest⟩, hrest, hok⟩ := hok
    cases hok
    simp only [disconnectTip, bind_eq_ok_iff] at htip
    obtain ⟨found, hread, htip⟩ := htip
    obtain ⟨hblock, -⟩ := ChainIo.readBlock_of_readFromDisk hread
    cases hentry : tree h with
    | none => simp [hentry] at htip
    | some pindex =>
      simp only [hentry, bind_eq_ok_iff] at htip
      obtain ⟨⟨removed, fClean⟩, hdisconnect, htip⟩ := htip
      split_ifs at htip with hclean
      cases htip
      subst hclean
      obtain ⟨hlast, hmem⟩ := ih hrest
      have hfirst := CBlock.disconnectBlock_clean hground.injOn
        (hground.undo h block hblock) hdisconnect
      rw [transactions_cons hblock]
      refine ⟨hfirst.append hlast, fun tx => ?_⟩
      rw [mem_append, mem_append, hmem, mem_filter]
      simp only [Bool.not_eq_true']
      tauto

theorem connectFromDisk_advances
    (hroot : tree.Rooted) (hview : view.Genuine context.connect.hash known) {block : CBlock}
    {connected : Connected} {tree' : BlockTree}
    (hok : connectFromDisk context io tree view h = (.ok (block, connected), tree')) :
    io.readBlock h = some block ∧ view.Advances context.connect.hash block.vtx connected.view ∧
      connected.view.Genuine context.connect.hash known := by
  obtain ⟨hread, pindex, pindex', hentry, hrun⟩ := connectFromDisk_eq_ok hok
  obtain ⟨hblock, hhash⟩ := ChainIo.readBlock_of_readFromDisk hread
  have hgenesis : block.getHash context.connect.hash =
      hashGenesisBlock context.connect.network → ∀ tx ∈ block.vtx, tx.isCoinBase = true := by
    intro hgenesis
    refine hground.genesis block ?_
    rw [← hgenesis, hhash, hblock]
  exact ⟨hblock, @CBlock.advances_connectBlock known view { context.connect with tree := tree }
    (io.connect h) block pindex pindex' connected hground.injOn (hroot.height h pindex hentry)
    (hground.blocks h block hblock) hgenesis hview hrun⟩

theorem connectBranch_advances
    {reorganise : Stateful (Node W) Failure Unit} {state : CValidationState} {pindexNew : UInt256}
    {vDelete : List CTransaction} {now next : Node W}
    (hroot : now.mapBlockIndex.Rooted) (hview : view.Genuine context.connect.hash known)
    (hok : (connectBranch context io reorganise state pindexNew l view).run now =
      (.ok (view', vDelete), next)) :
    vDelete = io.transactions l ∧ view.Advances context.connect.hash vDelete view' ∧
      view'.Genuine context.connect.hash known ∧ next.mempool = now.mempool := by
  induction l generalizing view view' vDelete now with
  | nil =>
    cases hok
    exact ⟨rfl, CCoinsView.advances_nil _ view, hview, rfl⟩
  | cons h l ih =>
    obtain ⟨⟨block, connected⟩, mid, htip, hok⟩ := run_bind_eq_ok_iff.mp hok
    obtain ⟨⟨last, vRest⟩, mid', hrest, hok⟩ := run_bind_eq_ok_iff.mp hok
    cases hok
    rw [connectTip, run_get_bind] at htip
    rcases hdisk : connectFromDisk context io now.mapBlockIndex view h with ⟨result, tree'⟩
    simp only [hdisk, run_modify_bind] at htip
    cases result with
    | error failure =>
      obtain ⟨_, _, _, hlift⟩ := run_bind_eq_ok_iff.mp htip
      cases hlift
    | ok made =>
      cases htip
      have hmarked := marked_connectFromDisk context io now.mapBlockIndex view h
      rw [hdisk] at hmarked
      obtain ⟨hblock, hfirst, hgenuine⟩ := connectFromDisk_advances hground hroot hview hdisk
      obtain ⟨rfl, hlast, hgenuine', hpool⟩ := ih (hroot.congr hmarked.positions) hgenuine hrest
      rw [transactions_cons hblock]
      exact ⟨rfl, hfirst.append hlast, hgenuine', hpool⟩

end

end Coins

/-! ## The pool -/

/-- Where an input of a pool transaction may come from. The last three are still to be dealt with:
an output that a connected transaction spends, one of a connected transaction, and one of a
transaction that waits to be offered again. -/
inductive Backed (hash : Bytes → UInt256) (old : Node W) (matured : Int32 → Prop)
    (tip : CCoinsView) (vDelete pending : List CTransaction) (pool : CTxMemPool) (txid : UInt256)
    (tx : CTransaction) (out : COutPoint) : Prop
  | coin {fCoinBase : Bool} {nHeight : Int32} (holds : tip.Holds out fCoinBase nHeight)
      (mature : fCoinBase = true → matured nHeight)
  | coinbase {nHeight : Int32} (before : old.mempool.mapTx txid = some tx)
      (holds : old.pcoinsTip.Holds out true nHeight)
  | parent {parent : CTransaction} (other : out.hash ≠ txid)
      (mapTx : pool.mapTx out.hash = some parent) (n_lt : out.n.toNat < parent.vout.length)
  | spent (spent : SpentBy vDelete out)
  | connected {parent : CTransaction} (mem : parent ∈ vDelete) (loose : parent.isCoinBase = false)
      (hash_eq : parent.getHash hash = out.hash) (n_lt : out.n.toNat < parent.vout.length)
  | pending {parent : CTransaction} (mem : parent ∈ pending)
      (hash_eq : parent.getHash hash = out.hash) (n_lt : out.n.toNat < parent.vout.length)

structure Following (hash : Bytes → UInt256) (known : Set CTransaction) (old : Node W)
    (matured : Int32 → Prop) (tip : CCoinsView) (vDelete pending : List CTransaction)
    (pool : CTxMemPool) : Prop where
  sound : pool.Sound hash known
  loose : ∀ txid tx, pool.mapTx txid = some tx → tx.isCoinBase = false
  backed : ∀ txid tx, pool.mapTx txid = some tx → ∀ txin ∈ tx.vin,
    Backed hash old matured tip vDelete pending pool txid tx txin.prevout

section Pool

variable {hash : Bytes → UInt256} {known : Set CTransaction} {old : Node W}
  {matured : Int32 → Prop} {tip : CCoinsView} {vDelete pending : List CTransaction}
  {pool pool' : CTxMemPool} {tx : CTransaction}

theorem Backed.prunes {txid : UInt256} {txin : CTxIn}
    (hin : txin ∈ tx.vin) (hloose : ∀ txid tx, pool.mapTx txid = some tx → tx.isCoinBase = false)
    (hsound : pool.Sound hash known) {gone : Set CTransaction} (hgone : gone ⊆ {c | c ∈ vDelete})
    (hprunes : pool'.Prunes gone pool) (htx : pool'.mapTx txid = some tx)
    (h : Backed hash old matured tip vDelete pending pool txid tx txin.prevout) :
    Backed hash old matured tip vDelete pending pool' txid tx txin.prevout := by
  cases h with
  | coin hholds hmature => exact .coin hholds hmature
  | coinbase hbefore hholds => exact .coinbase hbefore hholds
  | parent hother hparent hn =>
    rcases hprunes.parent txid tx htx txin hin _ hparent hn with hdeleted | hkept
    · exact .connected (hgone hdeleted) (hloose _ _ hparent) (hsound.getHash_eq _ _ hparent) hn
    · exact .parent hother hkept hn
  | spent hspent => exact .spent hspent
  | connected hmem hbase hid hn => exact .connected hmem hbase hid hn
  | pending hmem hid hn => exact .pending hmem hid hn

theorem Following.remove (h : Following hash known old matured tip vDelete (tx :: pending) pool)
    (hremoved : Removed hash known tx pool pool') :
    Following hash known old matured tip vDelete pending pool' where
  sound := hremoved.sound
  loose txid t ht := h.loose txid t (hremoved.prunes.sub txid t ht)
  backed txid t ht txin hin := by
    have hbacked := (h.backed txid t (hremoved.prunes.sub txid t ht) txin hin).prunes hin h.loose
      h.sound (Set.empty_subset _) hremoved.prunes ht
    cases hbacked with
    | coin hholds hmature => exact .coin hholds hmature
    | coinbase hbefore hholds => exact .coinbase hbefore hholds
    | parent hother hparent hn => exact .parent hother hparent hn
    | spent hspent => exact .spent hspent
    | connected hmem hbase hid hn => exact .connected hmem hbase hid hn
    | pending hmem hid hn =>
      rcases mem_cons.mp hmem with rfl | hmem
      · obtain ⟨inPoint, hnext⟩ := hremoved.sound.exists_mapNextTx ht hin
        have hnone := hremoved.childless txin.prevout.n hn
        rw [hid] at hnone
        cases hnone.symm.trans hnext
      · exact .pending hmem hid hn

theorem holds_coinsView {base : CCoinsView} {out : COutPoint} {fCoinBase : Bool} {nHeight : Int32}
    (h : (pool.coinsView base).Holds out fCoinBase nHeight) :
    base.Holds out fCoinBase nHeight ∨
      ∃ parent, pool.mapTx out.hash = some parent ∧ out.n.toNat < parent.vout.length := by
  obtain ⟨coins, hcoins, havailable, hrest⟩ := h
  simp only [coinsView] at hcoins
  cases hbase : base.coins out.hash with
  | some found =>
    rw [hbase, some_or, some.injEq] at hcoins
    exact Or.inl ⟨coins, hbase.trans (congrArg some hcoins), havailable, hrest⟩
  | none =>
    rw [hbase, none_or] at hcoins
    obtain ⟨parent, hparent, rfl⟩ := map_eq_some_iff.mp hcoins
    exact Or.inr ⟨parent, hparent, CCoins.lt_of_isAvailable havailable⟩

theorem accept_inputs {context : PoolContext} {fLimitFree : Bool}
    (h : (pool.accept hash context tx true fLimitFree).1 = .ok pool') :
    tx.isCoinBase = false ∧ ∀ txin ∈ tx.vin, ∃ fCoinBase nHeight,
      (pool.coinsView context.pcoinsTip).Holds txin.prevout fCoinBase nHeight ∧
        (fCoinBase = true → ∃ pindex, context.pcoinsTip.best.bind context.tree = some pindex ∧
          ¬ pindex.nHeight + 1 - nHeight < coinbaseMaturity) := by
  simp only [accept] at h
  cases hform : acceptForm context tx with
  | error failure => simp [hform] at h
  | ok _ =>
    have hbase : tx.isCoinBase = false := by
      simp only [acceptForm, bind_eq_ok_iff, ite_error_eq_ok_iff] at hform
      obtain ⟨_, -, hbase, -⟩ := hform
      exact Bool.eq_false_of_not_eq_true hbase
    simp only [hform, if_true] at h
    split_ifs at h
    cases hinputs : acceptInputs context tx (pool.coinsView context.pcoinsTip) fLimitFree with
    | error failure => simp [hinputs, Except.map] at h
    | ok _ =>
      simp only [acceptInputs, bind_eq_ok_iff, ite_error_eq_ok_iff] at hinputs
      obtain ⟨_, -, -, -, _, -, _, -, -, -, vChecks, hchecks, -⟩ := hinputs
      obtain ⟨havail, -⟩ := checkInputs_ok hbase hchecks
      obtain ⟨pindex, hbest, hmature⟩ := checkInputs_mature hbase hchecks
      refine ⟨hbase, fun txin hin => ?_⟩
      obtain ⟨txout, hout⟩ := havail txin hin
      obtain ⟨coins, hcoins, hunspent⟩ := CCoinsView.output_eq_some_iff.mp hout
      exact ⟨coins.fCoinBase, coins.nHeight, ⟨coins, hcoins,
        CCoins.isAvailable_iff.mpr ⟨txout, hunspent⟩, rfl, rfl⟩,
        fun hcoinbase => ⟨pindex, hbest, hmature txin hin coins hcoins hcoinbase⟩⟩

theorem Following.accept {context : PoolContext} {fLimitFree : Bool}
    (h : Following hash known old matured tip vDelete (tx :: pending) pool) (htx : tx ∈ known)
    (htip : context.pcoinsTip = tip)
    (hmatured : ∀ nHeight, (∃ pindex, context.pcoinsTip.best.bind context.tree = some pindex ∧
      ¬ pindex.nHeight + 1 - nHeight < coinbaseMaturity) → matured nHeight)
    (haccept : (pool.acceptToMemoryPool hash context tx true fLimitFree).1 = .ok pool') :
    Following hash known old matured tip vDelete pending pool' := by
  have hsound := (h.sound.accept htx haccept).1
  have hok := accept_of_acceptToMemoryPool haccept
  obtain ⟨-, hnew, -, rfl⟩ := accept_ok hok
  obtain ⟨hbase, hinputs⟩ := accept_inputs hok
  have hmap : ∀ txid t, pool.mapTx txid = some t →
      (pool.addUnchecked (tx.getHash hash) tx).mapTx txid = some t := by
    intro txid t ht
    have hne : txid ≠ tx.getHash hash := by
      rintro rfl
      rw [hnew] at ht
      cases ht
    simpa [addUnchecked, Function.update_of_ne hne] using ht
  have hcases : ∀ txid t, (pool.addUnchecked (tx.getHash hash) tx).mapTx txid = some t →
      (txid = tx.getHash hash ∧ t = tx) ∨ (txid ≠ tx.getHash hash ∧ pool.mapTx txid = some t) := by
    intro txid t ht
    by_cases htxid : txid = tx.getHash hash
    · simp only [addUnchecked, htxid, Function.update_self, some.injEq] at ht
      exact Or.inl ⟨htxid, ht.symm⟩
    · simp only [addUnchecked, Function.update_of_ne htxid] at ht
      exact Or.inr ⟨htxid, ht⟩
  refine ⟨hsound, fun txid t ht => ?_, fun txid t ht txin hin => ?_⟩
  · rcases hcases txid t ht with ⟨-, rfl⟩ | ⟨-, ht⟩
    · exact hbase
    · exact h.loose txid t ht
  · rcases hcases txid t ht with ⟨rfl, rfl⟩ | ⟨hne, ht⟩
    · obtain ⟨fCoinBase, nHeight, hholds, hmature⟩ := hinputs txin hin
      rcases holds_coinsView hholds with hcoin | ⟨parent, hparent, hn⟩
      · rw [htip] at hcoin
        exact .coin hcoin fun hcoinbase => hmatured nHeight (hmature hcoinbase)
      · refine .parent (fun heq => ?_) (hmap _ _ hparent) hn
        rw [heq, hnew] at hparent
        cases hparent
    · cases h.backed txid t ht txin hin with
      | coin hholds hmature => exact .coin hholds hmature
      | coinbase hbefore hholds => exact .coinbase hbefore hholds
      | parent hother hparent hn => exact .parent hother (hmap _ _ hparent) hn
      | spent hspent => exact .spent hspent
      | connected hmem hloose hid hn => exact .connected hmem hloose hid hn
      | pending hmem hid hn =>
        rcases mem_cons.mp hmem with rfl | hmem
        · refine .parent (fun heq => hne (heq.symm.trans hid.symm)) ?_ hn
          rw [← hid]
          simp [addUnchecked]
        · exact .pending hmem hid hn

end Pool

/-! ## The loops -/

section Loops

variable {context : ChainContext W} {io : ChainIo} {known : Set CTransaction}
  {old node node' : Node W} {vDelete pending : List CTransaction} {tx : CTransaction}

theorem resurrect_ok (h : (resurrect context tx).run node = (.ok (), node')) :
    node'.pcoinsTip = node.pcoinsTip ∧ node'.mapBlockIndex = node.mapBlockIndex ∧
      ((node.mempool.acceptToMemoryPool context.connect.hash { context.pool with
          tree := node.mapBlockIndex, pcoinsTip := node.pcoinsTip } tx true false).1 =
            .ok node'.mempool ∨
        node.mempool.remove context.connect.hash context.depth tx true = .ok node'.mempool) := by
  rw [resurrect, run_get_bind] at h
  dsimp only at h
  split at h
  · next mempool haccept =>
      cases h
      exact ⟨rfl, rfl, Or.inl haccept⟩
  · split_ifs at h
    · obtain ⟨mempool, mid, hlift, h⟩ := run_bind_eq_ok_iff.mp h
      rw [run_lift, Prod.mk.injEq] at hlift
      obtain ⟨hremove, rfl⟩ := hlift
      cases h
      exact ⟨rfl, rfl, Or.inr hremove⟩
    · cases h

theorem deleteRedundant_ok (h : (deleteRedundant context tx).run node = (.ok (), node')) :
    ∃ mid, node.mempool.remove context.connect.hash context.depth tx false = .ok mid ∧
      mid.removeConflicts context.connect.hash context.depth tx = .ok node'.mempool := by
  rw [deleteRedundant, run_get_bind] at h
  obtain ⟨mid, _, hfirst, h⟩ := run_bind_eq_ok_iff.mp h
  obtain ⟨mempool, _, hsecond, h⟩ := run_bind_eq_ok_iff.mp h
  rw [run_lift, Prod.mk.injEq] at hfirst hsecond
  obtain ⟨hremove, rfl⟩ := hfirst
  obtain ⟨hconflicts, rfl⟩ := hsecond
  cases h
  exact ⟨mid, hremove, hconflicts⟩

theorem Following.resurrect (hinj : Set.InjOn (getHash context.connect.hash) known)
    (hknown : ∀ tx ∈ pending, tx ∈ known)
    (h : Following context.connect.hash known old node.Matured node.pcoinsTip vDelete pending
      node.mempool)
    (hrun : (pending.forM (Node.resurrect context)).run node = (.ok (), node')) :
    Following context.connect.hash known old node.Matured node.pcoinsTip vDelete []
      node'.mempool := by
  induction pending generalizing node with
  | nil =>
    cases hrun
    exact h
  | cons tx pending ih =>
    obtain ⟨_, next, hnext, hrest⟩ := run_bind_eq_ok_iff.mp hrun
    have htx := hknown tx (by simp)
    obtain ⟨htip, htree, hcases⟩ := resurrect_ok hnext
    have hfollows : Following context.connect.hash known old node.Matured node.pcoinsTip vDelete
        pending next.mempool := by
      rcases hcases with haccept | hremove
      · refine h.accept htx ?_ ?_ haccept
        · rfl
        · exact fun _ hmature => hmature
      · exact h.remove (h.sound.removed_of_remove hinj htx hremove)
    have hmatured : next.Matured = node.Matured := by
      funext nHeight
      simp only [Matured, htip, htree]
    have hlast := ih (fun other hother => hknown other (mem_cons_of_mem _ hother))
      (by rw [hmatured, htip]; exact hfollows) hrest
    rwa [hmatured, htip] at hlast

theorem Following.delete (hinj : Set.InjOn (getHash context.connect.hash) known)
    (hknown : ∀ tx ∈ vDelete, tx ∈ known) {matured : Int32 → Prop} {tip : CCoinsView}
    (h : Following context.connect.hash known old matured tip vDelete [] node.mempool)
    (hrun : (vDelete.forM (deleteRedundant context)).run node = (.ok (), node')) :
    Following context.connect.hash known old matured tip vDelete [] node'.mempool ∧
      ∀ tx ∈ vDelete, ∀ txin ∈ tx.vin, node'.mempool.mapNextTx txin.prevout = none := by
  obtain ⟨hsound, hprunes, hvisited⟩ := forM_eq_ok_visits
    (I := fun node : Node W => node.mempool.Sound context.connect.hash known)
    (R := fun node node' : Node W => node'.mempool.Prunes {c | c ∈ vDelete} node.mempool)
    (Q := fun (tx : CTransaction) (node : Node W) =>
      ∀ txin ∈ tx.vin, node.mempool.mapNextTx txin.prevout = none)
    (fun node => .refl _ node.mempool) (fun hfirst hsecond => hsecond.trans hfirst)
    (fun hs hs' hprunes hnone txin hin => hprunes.sub.mapNextTx_eq_none hs.toConsistent
      hs'.toConsistent (hnone txin hin))
    (by
      intro node tx htx node' hnode hturn
      obtain ⟨mid, hremove, hconflicts⟩ := deleteRedundant_ok hturn
      have hcleared := hnode.cleared hinj (hknown tx htx) hremove hconflicts
      refine ⟨hcleared.sound, hcleared.prunes.mono ?_, hcleared.unspent⟩
      rintro other rfl
      exact htx) h.sound hrun
  refine ⟨⟨hsound, fun txid tx htx => h.loose txid tx (hprunes.sub txid tx htx), ?_⟩, hvisited⟩
  intro txid tx htx txin hin
  exact (h.backed txid tx (hprunes.sub txid tx htx) txin hin).prunes hin h.loose h.sound
    subset_rfl hprunes htx

end Loops

/-! ## The whole call -/

section Whole

variable {context : ChainContext W} {io : ChainIo} {known : Set CTransaction}
  {reorganise : Stateful (Node W) Failure Unit} {state : CValidationState} {pindexNew : UInt256}
  {pindex : CBlockIndex} {node node' : Node W}

theorem flushCoins_shows (h : (flushCoins context io).run node = (.ok (), node'))
    (hview : node.pcoinsTip.Genuine context.connect.hash known) :
    node'.mempool = node.mempool ∧ node'.pcoinsTip.Genuine context.connect.hash known ∧
      ∀ out fCoinBase nHeight, node.pcoinsTip.Holds out fCoinBase nHeight →
        node'.pcoinsTip.Holds out fCoinBase nHeight := by
  rw [flushCoins, run_get_bind] at h
  split_ifs at h
  · cases h
  · obtain ⟨_, _, hlift, h⟩ := run_bind_eq_ok_iff.mp h
    rw [run_lift, Prod.mk.injEq] at hlift
    obtain ⟨-, rfl⟩ := hlift
    cases h
    exact ⟨rfl, hview.reload context.keys _, fun _ _ _ hholds => hholds.reload hview context.keys _⟩
  · cases h
    exact ⟨rfl, hview, fun _ _ _ hholds => hholds⟩

theorem Following.updateMemory
    (hinj : Set.InjOn (getHash context.connect.hash) known) {old : Node W}
    {vDisconnect vConnect : List UInt256} {vResurrect vDelete : List CTransaction}
    (hresurrect : ∀ tx ∈ vResurrect, tx ∈ known) (hdelete : ∀ tx ∈ vDelete, tx ∈ known)
    (h : Following context.connect.hash known old node'.Matured node'.pcoinsTip vDelete vResurrect
      node.mempool)
    (hrun : (Node.updateMemory context io vDisconnect vConnect vResurrect vDelete pindexNew).run
      node = (.ok (), node')) :
    Following context.connect.hash known old node'.Matured node'.pcoinsTip vDelete []
        node'.mempool ∧
      ∀ tx ∈ vDelete, ∀ txin ∈ tx.vin, node'.mempool.mapNextTx txin.prevout = none := by
  obtain ⟨htree, htip, -⟩ := updateMemory_ok hrun
  rw [Node.updateMemory, run_modify_bind] at hrun
  obtain ⟨_, resurrected, hresurrected, hrun⟩ := run_bind_eq_ok_iff.mp hrun
  obtain ⟨_, deleted, hdeleted, hrun⟩ := run_bind_eq_ok_iff.mp hrun
  have hmatured : node'.Matured = Matured { node with
      mapBlockIndex := node.mapBlockIndex.updateLinks vDisconnect vConnect } := by
    funext nHeight
    simp only [Matured, htip, htree]
  rw [hmatured, htip] at h ⊢
  have hmempool : node'.mempool = deleted.mempool := by
    cases hrun
    rfl
  rw [hmempool]
  exact (h.resurrect hinj hresurrect hresurrected).delete hinj hdelete hdeleted

/-- The coins across a call, and the pool it leaves. -/
structure Followed (context : ChainContext W) (io : ChainIo) (known : Set CTransaction)
    (pindexNew : UInt256) (node node' : Node W) (vDisconnect vConnect : List UInt256)
    (fork : CCoinsView) : Prop where
  plan : node.mapBlockIndex.reorganization node.pcoinsTip.best pindexNew =
    .ok (vDisconnect, vConnect)
  retreats : node.pcoinsTip.Retreats context.connect.hash known (io.transactions vDisconnect) fork
  advances : fork.Advances context.connect.hash (io.transactions vConnect) node'.pcoinsTip
  genuine : node'.pcoinsTip.Genuine context.connect.hash known
  following : node.PoolValid → Following context.connect.hash known node node'.Matured
    node'.pcoinsTip (io.transactions vConnect) [] node'.mempool
  unspent : node.PoolValid → ∀ tx ∈ io.transactions vConnect, ∀ txin ∈ tx.vin,
    node'.mempool.mapNextTx txin.prevout = none

theorem PoolValid.following (hvalid : node.PoolValid) {hash : Bytes → UInt256}
    (hpool : node.mempool.Sound hash known) {matured : Int32 → Prop} {fork tip : CCoinsView}
    {off vDelete vResurrect : List CTransaction}
    (hretreats : node.pcoinsTip.Retreats hash known off fork)
    (hadvances : fork.Advances hash vDelete tip)
    (hresurrect : ∀ tx, tx ∈ vResurrect ↔ tx ∈ off ∧ tx.isCoinBase = false) :
    Following hash known node matured tip vDelete vResurrect node.mempool where
  sound := hpool
  loose := hvalid.loose
  backed txid tx htx txin hin := by
    rcases hvalid.available txid tx htx txin hin with
      ⟨fCoinBase, nHeight, hholds⟩ | ⟨hother, parent, hparent, hn⟩
    · cases fCoinBase with
      | true => exact .coinbase htx hholds
      | false =>
        rcases hretreats.kept _ _ _ hholds with hfork | ⟨parent, hparent, hid, hn, hloose⟩
        · rcases hadvances.kept _ _ _ hfork with hspent | ⟨nHeight', htip, -⟩
          · exact .spent hspent
          · exact .coin htip fun hcoinbase => by cases hcoinbase
        · exact .pending ((hresurrect parent).mpr ⟨hparent, hloose⟩) hid hn
    · exact .parent hother hparent hn

theorem setBestChain_followed (hground : node.Grounded context io known)
    (hrun : (setBestChain context io reorganise state pindexNew).run node = (.ok (), node')) :
    ∃ vDisconnect vConnect fork,
      Followed context io known pindexNew node node' vDisconnect vConnect fork := by
  rw [setBestChain, run_get_bind] at hrun
  obtain ⟨⟨vDisconnect, vConnect⟩, _, hplan, hrun⟩ := run_bind_eq_ok_iff.mp hrun
  obtain ⟨⟨fork, vResurrect⟩, _, hdisconnect, hrun⟩ := run_bind_eq_ok_iff.mp hrun
  rw [run_lift, Prod.mk.injEq] at hplan hdisconnect
  obtain ⟨hplan, rfl⟩ := hplan
  obtain ⟨hdisconnect, rfl⟩ := hdisconnect
  obtain ⟨⟨view, vDelete⟩, joined, hconnect, hrun⟩ := run_bind_eq_ok_iff.mp hrun
  dsimp only at hrun
  rw [commit, run_modify_bind] at hrun
  obtain ⟨_, flushed, hflush, hrun⟩ := run_bind_eq_ok_iff.mp hrun
  obtain ⟨hretreats, hresurrect⟩ := disconnectBranch_retreats hground hdisconnect
  obtain ⟨rfl, hadvances, hgenuine, hjoined⟩ := connectBranch_advances hground
    hground.consistent.rooted (hretreats.genuine hground.coins) hconnect
  obtain ⟨hpool, hflushed, hshows⟩ := flushCoins_shows hflush hgenuine
  obtain ⟨-, htip, -⟩ := updateMemory_ok hrun
  rw [← htip] at hflushed hshows
  have hadvances' := hadvances.of_holds hshows
  have hloops : node.PoolValid → _ := fun hvalid =>
    Following.updateMemory hground.injOn
      (fun tx htx => hground.of_mem_transactions ((hresurrect tx).mp htx).1)
      (fun tx htx => hground.of_mem_transactions htx)
      (by
        rw [hpool, hjoined]
        exact hvalid.following hground.pool hretreats hadvances' hresurrect) hrun
  exact ⟨vDisconnect, vConnect, fork, hplan, hretreats, hadvances', hflushed,
    fun hvalid => (hloops hvalid).1, fun hvalid => (hloops hvalid).2⟩

theorem setBestChain_best (hnode : node.Consistent)
    (hnew : node.mapBlockIndex pindexNew = some pindex)
    (hrun : (setBestChain context io reorganise state pindexNew).run node = (.ok (), node')) :
    ∃ pindex', node'.pcoinsTip.best.bind node'.mapBlockIndex = some pindex' ∧
      pindex'.nHeight = pindex.nHeight := by
  obtain ⟨hconsistent, hpindexBest, hsame⟩ := setBestChain_consistent hnode hnew hrun
  obtain ⟨pindex', hentry, hposition⟩ := hsame.exists_of_eq_some hnew
  simp only [position, Prod.mk.injEq] at hposition
  refine ⟨pindex', ?_, hposition.2.2.1⟩
  rw [hconsistent.best, hpindexBest, bind_some, hentry]

variable {vDisconnect vConnect : List UInt256} {fork : CCoinsView} {tx : CTransaction}

theorem Followed.not_spentBy
    (h : Followed context io known pindexNew node node' vDisconnect vConnect fork)
    (hvalid : node.PoolValid) {txid : UInt256}
    (htx : node'.mempool.mapTx txid = some tx) {txin : CTxIn} (hin : txin ∈ tx.vin) :
    ¬ SpentBy (io.transactions vConnect) txin.prevout := by
  rintro ⟨spender, hspender, hout⟩
  obtain ⟨input, hinput, heq⟩ := mem_map.mp hout
  have hvin : input ∈ spender.vin := by
    unfold spentInputs at hinput
    split_ifs at hinput
    · cases hinput
    · exact hinput
  obtain ⟨inPoint, hnext⟩ := (h.following hvalid).sound.exists_mapNextTx htx hin
  rw [← heq, h.unspent hvalid spender hspender input hvin] at hnext
  cases hnext

/-- An old coinbase of neither branch is in the new coins as it was. -/
theorem Followed.keepsCoinbases
    (hnew : node.mapBlockIndex pindexNew = some pindex) (hvalid : node.PoolValid)
    (h : Followed context io known pindexNew node node' vDisconnect vConnect fork)
    (hbest : ∃ pindex', node'.pcoinsTip.best.bind node'.mapBlockIndex = some pindex' ∧
      pindex'.nHeight = pindex.nHeight)
    (hspares : node.SparesCoinbases context io pindexNew) : node.KeepsCoinbases node' := by
  intro txid tx hbefore hafter txin hin nHeight hholds
  obtain ⟨hother, hmature⟩ :=
    hspares vDisconnect vConnect pindex h.plan hnew txid tx hbefore txin hin nHeight hholds
  have hids : ∀ l, io.transactions l ⊆ io.transactions (vDisconnect ++ vConnect) →
      ¬ ∃ other ∈ io.transactions l, other.getHash context.connect.hash = txin.prevout.hash := by
    rintro l hsub ⟨other, hmem, hid⟩
    exact hother other (hsub hmem) hid
  have hsplit : io.transactions (vDisconnect ++ vConnect) =
      io.transactions vDisconnect ++ io.transactions vConnect := flatMap_append
  have hoff := hids vDisconnect (hsplit ▸ subset_append_left _ _)
  have hon := hids vConnect (hsplit ▸ subset_append_right _ _)
  rcases h.retreats.kept _ _ _ hholds with hfork | ⟨other, hmem, hid, -⟩
  · rcases h.advances.kept _ _ _ hfork with hspent | ⟨nHeight', htip, hheight⟩
    · exact absurd hspent (h.not_spentBy hvalid hafter hin)
    · rcases hheight with rfl | hid
      · obtain ⟨pindex', hbest, hsame⟩ := hbest
        exact ⟨nHeight', htip, pindex', hbest, hsame ▸ hmature⟩
      · exact absurd hid hon
  · exact absurd ⟨other, hmem, hid⟩ hoff

theorem Followed.source (hvalid : node.PoolValid)
    (h : Followed context io known pindexNew node node' vDisconnect vConnect fork)
    (hkeeps : node.KeepsCoinbases node') {txid : UInt256}
    (htx : node'.mempool.mapTx txid = some tx) {txin : CTxIn} (hin : txin ∈ tx.vin) :
    (∃ fCoinBase nHeight, node'.pcoinsTip.Holds txin.prevout fCoinBase nHeight ∧
        (fCoinBase = true → node'.Matured nHeight)) ∨
      txin.prevout.hash ≠ txid ∧ ∃ parent, node'.mempool.mapTx txin.prevout.hash = some parent ∧
        txin.prevout.n.toNat < parent.vout.length := by
  have hfree := h.not_spentBy hvalid htx hin
  cases (h.following hvalid).backed txid tx htx txin hin with
  | coin hholds hmature => exact Or.inl ⟨_, _, hholds, hmature⟩
  | coinbase hbefore hholds =>
    obtain ⟨nHeight, htip, hmature⟩ := hkeeps txid tx hbefore htx txin hin _ hholds
    exact Or.inl ⟨true, nHeight, htip, fun _ => hmature⟩
  | parent hother hparent hn => exact Or.inr ⟨hother, _, hparent, hn⟩
  | spent hspent => exact absurd hspent hfree
  | @connected parent hmem hloose hid hn =>
    have hout : (⟨parent.getHash context.connect.hash, txin.prevout.n⟩ : COutPoint) =
        txin.prevout := by
      rw [hid]
    rcases h.advances.created parent hmem hloose txin.prevout.n hn with hspent | ⟨nHeight, htip⟩
    · exact absurd (hout ▸ hspent) hfree
    · exact Or.inl ⟨false, nHeight, hout ▸ htip, fun hcoinbase => by cases hcoinbase⟩
  | pending hmem _ _ => cases hmem

/-- The pool is valid at the new tip exactly if the coinbases it goes on spending are there and
have matured. -/
theorem Followed.poolValid_iff (hground : node.Grounded context io known) (hvalid : node.PoolValid)
    (h : Followed context io known pindexNew node node' vDisconnect vConnect fork) :
    node'.PoolValid ↔ node.KeepsCoinbases node' := by
  have hfollowing := h.following hvalid
  -- a pool transaction is not a coinbase, whichever coins are asked
  have hparent : ∀ {view : CCoinsView} {out : COutPoint} {parent : CTransaction} {nHeight : Int32},
      view.Genuine context.connect.hash known → node'.mempool.mapTx out.hash = some parent →
        ¬ view.Holds out true nHeight := by
    intro view out parent nHeight hview hparent hholds
    have hbase := hview.isCoinBase_eq hground.injOn (hfollowing.sound.within _ parent hparent)
      (hfollowing.sound.getHash_eq _ parent hparent) hholds
    rw [hfollowing.loose _ parent hparent] at hbase
    cases hbase
  constructor
  · intro hvalid' txid tx hbefore hafter txin hin nHeight hholds
    rcases hvalid'.available txid tx hafter txin hin with
      ⟨fCoinBase, nHeight', htip⟩ | ⟨-, parent, hmap, -⟩
    · obtain rfl := hground.coins.fCoinBase_eq h.genuine hground.injOn hholds htip
      exact ⟨nHeight', htip, hvalid'.mature txid tx hafter txin hin nHeight' htip⟩
    · exact absurd hholds (hparent hground.coins hmap)
  · intro hkeeps
    refine ⟨hfollowing.loose, fun txid tx htx txin hin => ?_,
      fun txid tx htx txin hin nHeight hholds => ?_⟩
    · rcases h.source hvalid hkeeps htx hin with ⟨fCoinBase, nHeight, htip, -⟩ | hpool
      · exact Or.inl ⟨fCoinBase, nHeight, htip⟩
      · exact Or.inr hpool
    · rcases h.source hvalid hkeeps htx hin with
        ⟨fCoinBase, nHeight', htip, hmature⟩ | ⟨-, parent, hmap, -⟩
      · obtain ⟨rfl, rfl⟩ := hholds.unique htip
        exact hmature rfl
      · exact absurd hholds (hparent h.genuine hmap)

/-- After a change of the best block the pool is valid exactly if every coinbase output that it
still spends is in the new coins and has matured: so if no pool transaction spends a coinbase of
the two branches or one too young for the new tip. -/
theorem poolValid_setBestChain (hground : node.Grounded context io known)
    (hnew : node.mapBlockIndex pindexNew = some pindex) (hvalid : node.PoolValid)
    (hrun : (setBestChain context io reorganise state pindexNew).run node = (.ok (), node')) :
    (node'.PoolValid ↔ node.KeepsCoinbases node') ∧
      (node.SparesCoinbases context io pindexNew → node'.PoolValid) := by
  obtain ⟨vDisconnect, vConnect, fork, hfollowed⟩ := setBestChain_followed hground hrun
  have hiff := hfollowed.poolValid_iff hground hvalid
  refine ⟨hiff, fun hspares => hiff.mpr ?_⟩
  exact hfollowed.keepsCoinbases hnew hvalid (setBestChain_best hground.consistent hnew hrun) hspares

end Whole

end Node

/-! A reorganization to a lower tip. The network has stalled for a week after block 2999. On top
of it are three blocks of the time when it goes on, the last two at the target that has fallen
meanwhile, and two blocks at the old pace and target, which have more work. The ids of the blocks
up to 2999 stand for their hashes. -/

namespace Stalled

variable {h q : UInt256} {nHeight : Int32}

def coinbase (scriptSig : CScript) : CTransaction :=
  ⟨1, [⟨⟨0, 0xffffffff⟩, scriptSig, 0xffffffff⟩], [⟨1000000000, [0x51]⟩], 0⟩

def early : CTransaction := coinbase [0x53, 0x61]

def hashEarly : UInt256 := 0x379a0da780154a0602963cf0aec6c65b45a4a934ed9d02e12c85d3bbdfb85926

def spending : CTransaction := ⟨1, [⟨⟨hashEarly, 0⟩, [], 0xffffffff⟩], [⟨990000000, [0x51]⟩], 0⟩

def hashSpending : UInt256 := 0x9c767db73572a7e13f0fec47eeffa43fe55adc9ae8c3fb781dd64eded829a64e

def hashLate1 : UInt256 := 0xaa6a6aa3b96a7cb45b268df6b1e98e3b8820d76211d2f46b39e7c30889615b64
def hashLate2 : UInt256 := 0x288b41ad578482a22a3915481c4b42a614ea3f6dceab422aecf31e18007e7773
def hashLate3 : UInt256 := 0xb0551b45f37330e52a89f8f3f807dbd3e7621a3c54e10de370dfc579f8c257bf
def hashSteady1 : UInt256 := 0x1d689f829801300c337bdc12be1b58d80c3d5a82f3a4a0dbb7a3d2bb38a66c54
def hashSteady2 : UInt256 := 0x428c93294a34d33d36116cc65fb2a8ecdddd6020fb9bd0432fe09984813266e5

def late1 : CBlock where
  nVersion := 2
  hashPrevBlock := 2999
  hashMerkleRoot := 0x1b1b7185466b47ec0ee3b808d3197ae5a561063eb6dcbfc6fab1aab771eb7fc7
  nTime := 1400604800
  nBits := 0x03aaaaaa
  nNonce := 18
  bnPrimeChainMultiplier := 116902225530090
  vtx := [coinbase [2, 0xb8, 0x0b, 0x61]]

def late2 : CBlock where
  nVersion := 2
  hashPrevBlock := hashLate1
  hashMerkleRoot := 0x522d6fbd498167cd2bb504063c0a6b55108394b6323aff732173dd6738f90421
  nTime := 1400604860
  nBits := 0x030008a9
  nNonce := 1
  bnPrimeChainMultiplier := 41047526429910
  vtx := [coinbase [2, 0xb9, 0x0b, 0x61]]

def late3 : CBlock where
  nVersion := 2
  hashPrevBlock := hashLate2
  hashMerkleRoot := 0xc0b104a618061876b60c54e2c8c2bbe676b56d1f559792c21eff731a483d73e6
  nTime := 1400604920
  nBits := 0x030008a9
  nNonce := 12
  bnPrimeChainMultiplier := 76987341601170
  vtx := [coinbase [2, 0xba, 0x0b, 0x61]]

def steady1 : CBlock where
  nVersion := 2
  hashPrevBlock := 2999
  hashMerkleRoot := 0x10cf84552b1f004a2ecc1960142c892bea44c92503b2da1abac80def121b6ffd
  nTime := 1400000060
  nBits := 0x03aaaaaa
  nNonce := 4
  bnPrimeChainMultiplier := 48080752249530
  vtx := [coinbase [2, 0xb8, 0x0b, 0x62]]

def steady2 : CBlock where
  nVersion := 2
  hashPrevBlock := hashSteady1
  hashMerkleRoot := 0x2075ca3d7015a7f7eac21270ae7216b3a7a3fb6da215aeb3006df25a780d2ebc
  nTime := 1400000120
  nBits := 0x03aaaaaa
  nNonce := 6
  bnPrimeChainMultiplier := 45911397181650
  vtx := [coinbase [2, 0xb9, 0x0b, 0x62]]

def undoMessage (hashPrev : UInt256) : Bytes := Codec.leBytes 32 hashPrev.toNat ++ [0]

def sha256d (m : Bytes) : UInt256 :=
  if m = early.serialize then hashEarly
  else if m = spending.serialize then hashSpending
  else if m = (coinbase [2, 0xb8, 0x0b, 0x61]).serialize then late1.hashMerkleRoot
  else if m = (coinbase [2, 0xb9, 0x0b, 0x61]).serialize then late2.hashMerkleRoot
  else if m = (coinbase [2, 0xba, 0x0b, 0x61]).serialize then late3.hashMerkleRoot
  else if m = (coinbase [2, 0xb8, 0x0b, 0x62]).serialize then steady1.hashMerkleRoot
  else if m = (coinbase [2, 0xb9, 0x0b, 0x62]).serialize then steady2.hashMerkleRoot
  else if m = late1.toCBlockHeader.serialize then hashLate1
  else if m = late2.toCBlockHeader.serialize then hashLate2
  else if m = late3.toCBlockHeader.serialize then hashLate3
  else if m = steady1.toCBlockHeader.serialize then hashSteady1
  else if m = steady2.toCBlockHeader.serialize then hashSteady2
  else if m = steady1.headerBytes then
    0xbbfcb809c9cf43d24ba6331e722b40013e35cb1c0ae7092dbb2831573651efb9
  else if m = steady2.headerBytes then
    0xb4ca3f78b804507c61b3ec7626b8870c9d6f579a749b903a77379141b5817a7b
  else if m = undoMessage 2999 then
    0x40bcaa81f2fa7251784f8f8733d4c538a84a8b7bac3283db9417b4ae44b6f3fe
  else if m = undoMessage hashLate1 then
    0xbd81b7c664250c6a1b48fd89fee0334665f7cbafd53f37078ff9fa05e8f3ebf9
  else if m = undoMessage hashLate2 then
    0x9b44f189878e0e4996515e7ed277e4aad1b386ff242c8a7a82418b1345173667
  else 0

def entry (h pprev : UInt256) (pnext : Option UInt256) (nHeight : Int32) (nWork : UInt256)
    (block : CBlock) (nStatus : UInt32) : CBlockIndex :=
  ⟨some h, some pprev, pnext, nHeight, 0, 8, 8, 3000 * 23130 + nWork, 0, nStatus, 2,
    block.hashMerkleRoot, block.nTime, block.nBits, block.nNonce⟩

def ancestor (h : UInt256) : CBlockIndex :=
  ⟨some h, if h = 0 then none else some (h - 1),
    some (if h = 2999 then hashLate1 else h + 1), Int32.ofNat h.toNat, 0, 8, 8, (h + 1) * 23130, 0,
    blockHaveData ||| blockHaveUndo ||| blockValidScripts, 2, 0,
    1400000000 - 60 * (2999 - UInt32.ofNat h.toNat), 0x03aaaaaa, 0⟩

def tree : BlockTree := fun h =>
  if h.toNat < 3000 then some (ancestor h)
  else if h = hashLate1 then
    some (entry h 2999 (some hashLate2) 3000 23130 late1
      (blockHaveData ||| blockHaveUndo ||| blockValidScripts))
  else if h = hashLate2 then
    some (entry h hashLate1 (some hashLate3) 3001 31323 late2
      (blockHaveData ||| blockHaveUndo ||| blockValidScripts))
  else if h = hashLate3 then
    some (entry h hashLate2 none 3002 39516 late3
      (blockHaveData ||| blockHaveUndo ||| blockValidScripts))
  else if h = hashSteady1 then some (entry h 2999 none 3000 23130 steady1 blockHaveData)
  else if h = hashSteady2 then some (entry h hashSteady1 none 3001 46260 steady2 blockHaveData)
  else none

def chainContext : ChainContext Unit where
  keys := Sample.keys
  connect := ⟨sha256d, .testNet, fun _ _ _ _ _ => true, 0, false, 1400605000, tree⟩
  pool := ⟨.testNet, fun _ => true, fun _ _ => true, false, fun _ _ _ _ _ => true, tree, .empty⟩
  depth := 2
  syncWithWallets wallets _ _ _ := wallets
  setBestLocator wallets _ := wallets

def chainIo : ChainIo where
  readBlock h :=
    if h = hashLate1 then some late1
    else if h = hashLate2 then some late2
    else if h = hashLate3 then some late3
    else if h = hashSteady1 then some steady1
    else if h = hashSteady2 then some steady2
    else none
  readUndo h := some (CBlockUndo.writeToDisk Sample.keys sha256d
    (if h = hashLate1 then 2999 else if h = hashLate2 then hashLate1 else hashLate2) [])
  connect _ := ⟨.ok, .ok 8, .ok, .ok, .ok⟩
  fInitialDownload := false
  fCacheFull := false
  fDiskSpace := true
  flush := .ok

/-- At the tip of the late branch. The early coinbase is recorded at the given height. -/
def node (nHeight : Int32) : Node Unit where
  mapBlockIndex := tree
  pcoinsTip := {
    coins := fun txid =>
      if txid = hashEarly then some (.ofTransaction early nHeight)
      else if txid = late1.hashMerkleRoot then
        some (.ofTransaction (coinbase [2, 0xb8, 0x0b, 0x61]) 3000)
      else if txid = late2.hashMerkleRoot then
        some (.ofTransaction (coinbase [2, 0xb9, 0x0b, 0x61]) 3001)
      else if txid = late3.hashMerkleRoot then
        some (.ofTransaction (coinbase [2, 0xba, 0x0b, 0x61]) 3002)
      else none
    best := some hashLate3 }
  pindexBest := some hashLate3
  mempool := empty.addUnchecked hashSpending spending
  wallets := ()
  setBlockIndexValid := [hashLate3, hashSteady2]
  nBestInvalidWork := 0

def outcome (nHeight : Int32) : Except Failure Unit × Node Unit :=
  (Node.setBestChain chainContext chainIo (pure ()) .init hashSteady2).run (node nHeight)

theorem tree_of_lt (hh : h.toNat < 3000) : tree h = some (ancestor h) := by
  rw [tree, if_pos hh]

def above : List UInt256 := [hashLate1, hashLate2, hashLate3, hashSteady1, hashSteady2]

theorem forall_tree {motive : UInt256 → CBlockIndex → Prop}
    (hline : ∀ h : UInt256, h.toNat < 3000 → motive h (ancestor h))
    (habove : above.Forall fun h => ∀ pindex ∈ tree h, motive h pindex)
    {pindex : CBlockIndex} (hentry : tree h = some pindex) : motive h pindex := by
  by_cases hh : h.toNat < 3000
  · rw [tree_of_lt hh, some.injEq] at hentry
    exact hentry ▸ hline h hh
  · refine forall_iff_forall_mem.mp habove h ?_ pindex hentry
    rw [tree, if_neg hh] at hentry
    split_ifs at hentry <;> simp [above, *]

theorem toInt_ofNat_toNat (hh : h.toNat < 3000) :
    (Int32.ofNat h.toNat).toInt = h.toNat := Int32.toInt_ofNat_of_lt (by omega)

theorem depth_ancestor (hh : h.toNat < 3000) : (ancestor h).depth = h.toNat := by
  rw [depth, ancestor, toInt_ofNat_toNat hh, Int.toNat_natCast]

theorem pprev_ancestor_eq_none_iff : (ancestor h).pprev = none ↔ h = 0 := by
  simp [ancestor]

theorem pprev_ancestor_eq_some_iff : (ancestor h).pprev = some q ↔ h ≠ 0 ∧ h - 1 = q := by
  simp [ancestor]

theorem pnext_ancestor_of_ne (hne : h ≠ 2999) : (ancestor h).pnext = some (h + 1) := by
  rw [ancestor, if_neg hne]

theorem ranked_tree : Forest.Ranked pprev tree depth where
  root h pindex hentry := by
    refine forall_tree (motive := fun _ pindex => pindex.pprev = none → pindex.depth = 0) ?_
      (by decide) hentry
    intro h hh hprev
    rw [depth_ancestor hh, pprev_ancestor_eq_none_iff.mp hprev]
    rfl
  step h pindex hentry q := by
    refine forall_tree (motive := fun _ pindex => pindex.pprev = some q →
      ∃ b, tree q = some b ∧ pindex.depth = b.depth + 1) ?_ ?_ hentry
    · intro h hh hprev
      obtain ⟨hne, hq⟩ := pprev_ancestor_eq_some_iff.mp hprev
      have hlt : h.toNat = q.toNat + 1 := by bv_omega
      have hq' : q.toNat < 3000 := by omega
      exact ⟨ancestor q, tree_of_lt hq', by rw [depth_ancestor hh, depth_ancestor hq', hlt]⟩
    · have hstep : above.Forall fun h => ∀ pindex ∈ tree h,
          (pindex.pprev.all fun q => (tree q).any fun b => pindex.depth == b.depth + 1) = true := by
        decide
      refine List.Forall.imp (fun h hh pindex hentry hprev => ?_) hstep
      simpa [hprev, Option.any_eq_true] using hh pindex hentry

theorem rooted_tree : tree.Rooted where
  phashBlock h pindex hentry := by
    refine forall_tree (motive := fun h pindex => pindex.phashBlock = some h) ?_ (by decide) hentry
    intro h _
    rfl
  genesis h h' pindex pindex' hentry hentry' hroot hroot' := by
    have hzero : ∀ h pindex, tree h = some pindex → pindex.pprev = none → h = 0 := by
      intro h pindex hentry
      refine forall_tree (motive := fun h pindex => pindex.pprev = none → h = 0) ?_
        (by decide) hentry
      intro h _ hprev
      exact pprev_ancestor_eq_none_iff.mp hprev
    rw [hzero h pindex hentry hroot, hzero h' pindex' hentry' hroot']
  height h pindex hentry := by
    refine forall_tree (motive := fun _ pindex => 0 ≤ pindex.nHeight.toInt) ?_ (by decide) hentry
    intro h hh
    rw [ancestor, toInt_ofNat_toNat hh]
    exact Int.natCast_nonneg _
  ranked := ranked_tree

def below : ℕ → List UInt256
  | 0 => []
  | n + 1 => BitVec.ofNat 256 n :: below n

theorem mem_below {n : ℕ} (hn : n ≤ 3000) : q ∈ below n ↔ q.toNat < n := by
  induction n with
  | zero => simp [below]
  | succ n ih =>
    rw [below, mem_cons, ih (by omega), ← BitVec.toNat_inj, BitVec.toNat_ofNat,
      Nat.mod_eq_of_lt (by omega)]
    omega

theorem ancestry_cons {l : List UInt256} (hprev : tree.prev h = some q)
    (hl : tree.Ancestry (some q) l) : tree.Ancestry (some h) (h :: l) := by
  obtain ⟨pindex, hentry, hq⟩ := bind_eq_some_iff.mp hprev
  refine .step hentry ?_
  rw [hq]
  exact hl

theorem ancestry_below {n : ℕ} (hn : n < 3000) :
    tree.Ancestry (some (BitVec.ofNat 256 n)) (below (n + 1)) := by
  induction n with
  | zero => exact .step (tree_of_lt (by decide)) .root
  | succ n ih =>
    have htoNat : (BitVec.ofNat 256 (n + 1)).toNat = n + 1 := by
      rw [BitVec.toNat_ofNat]
      exact Nat.mod_eq_of_lt (by omega)
    refine ancestry_cons ?_ (ih (by omega))
    rw [BlockTree.prev, tree_of_lt (by omega), bind_some, pprev_ancestor_eq_some_iff]
    constructor
    · intro hzero
      rw [hzero] at htoNat
      cases htoNat
    · rw [BitVec.ofNat_add]
      exact BitVec.add_sub_cancel _ _

theorem prev_hashLate1 : tree.prev hashLate1 = some 2999 := by decide

theorem prev_hashLate2 : tree.prev hashLate2 = some hashLate1 := by decide

theorem prev_hashLate3 : tree.prev hashLate3 = some hashLate2 := by decide

theorem main_tree : tree.MainChain (some hashLate3) := by
  refine ⟨hashLate3 :: hashLate2 :: hashLate1 :: below 3000, ?_, fun p q => ?_⟩
  · exact ancestry_cons prev_hashLate3 (ancestry_cons prev_hashLate2
      (ancestry_cons prev_hashLate1 (ancestry_below (n := 2999) (by decide))))
  · simp only [mem_cons, mem_below le_rfl]
    constructor
    · intro hnext
      obtain ⟨pindex, hentry, hnext⟩ := bind_eq_some_iff.mp hnext
      revert hnext
      refine forall_tree (motive := fun p pindex => pindex.pnext = some q →
        (q = hashLate3 ∨ q = hashLate2 ∨ q = hashLate1 ∨ q.toNat < 3000) ∧
          tree.prev q = some p) ?_ ?_ hentry
      · intro p hp hnext
        by_cases hlast : p = 2999
        · subst hlast
          cases hnext
          exact ⟨by simp, by decide⟩
        · rw [pnext_ancestor_of_ne hlast] at hnext
          have hq : p + 1 = q := some.inj hnext
          have hlt : q.toNat < 3000 := by bv_omega
          refine ⟨.inr (.inr (.inr hlt)), ?_⟩
          rw [BlockTree.prev, tree_of_lt hlt, bind_some, pprev_ancestor_eq_some_iff]
          exact ⟨by bv_omega, by bv_omega⟩
      · have hlinks : above.Forall fun p => ∀ pindex ∈ tree p, (pindex.pnext.all fun q =>
            (q = hashLate3 ∨ q = hashLate2) ∧ tree.prev q = some p) = true := by
          decide
        refine List.Forall.imp (fun p hp pindex hentry hnext => ?_) hlinks
        have hlink := hp pindex hentry
        rw [hnext, all_some, decide_eq_true_iff] at hlink
        tauto
    · rintro ⟨rfl | rfl | rfl | hq, hprev⟩
      · cases prev_hashLate3.symm.trans hprev
        decide
      · cases prev_hashLate2.symm.trans hprev
        decide
      · cases prev_hashLate1.symm.trans hprev
        decide
      · rw [BlockTree.prev, tree_of_lt hq, bind_some, pprev_ancestor_eq_some_iff] at hprev
        have hlt : p.toNat < 3000 := by bv_omega
        have hlast : p ≠ 2999 := by bv_omega
        have hnext : p + 1 = q := by bv_omega
        rw [BlockTree.next, tree_of_lt hlt, bind_some, pnext_ancestor_of_ne hlast, hnext]

theorem consistent_node (nHeight : Int32) : (node nHeight).Consistent :=
  ⟨rooted_tree, main_tree, rfl⟩

def known : List CTransaction :=
  [early, spending, coinbase [2, 0xb8, 0x0b, 0x61], coinbase [2, 0xb9, 0x0b, 0x61],
    coinbase [2, 0xba, 0x0b, 0x61], coinbase [2, 0xb8, 0x0b, 0x62], coinbase [2, 0xb9, 0x0b, 0x62]]

theorem checked_of_mem {tx : CTransaction} (htx : tx ∈ known) : tx.Checked := by
  have hchecks : ∀ tx ∈ known, tx.checkTransaction = .ok () := by decide
  exact checkTransaction_ok (hchecks tx htx)

theorem mapTx_node {txid : UInt256} {tx : CTransaction}
    (htx : (node nHeight).mempool.mapTx txid = some tx) : txid = hashSpending ∧ tx = spending := by
  simp only [node, addUnchecked, empty, Function.update_apply] at htx
  split_ifs at htx with htxid
  exact ⟨htxid, (some.inj htx).symm⟩

theorem sound_node (nHeight : Int32) : (node nHeight).mempool.Sound sha256d {tx | tx ∈ known} := by
  have hhash : hashSpending = spending.getHash sha256d := by decide
  have hpool : (node nHeight).mempool = empty.addUnchecked hashSpending spending := rfl
  refine ⟨?_, fun txid tx htx => ?_⟩
  · rw [hpool, hhash]
    exact (consistent_empty sha256d).addUnchecked rfl (fun _ _ => rfl)
      (checked_of_mem (by decide)).nodup
  · rw [(mapTx_node htx).2]
    decide

theorem genuine_node (hheight : 0 ≤ nHeight.toInt) :
    (node nHeight).pcoinsTip.Genuine sha256d {tx | tx ∈ known} := by
  have hrecord : ∀ tx ∈ known, ∀ nHeight : Int32, 0 ≤ nHeight.toInt →
      ∃ other ∈ {tx | tx ∈ known}, other.Checked ∧ other.getHash sha256d = tx.getHash sha256d ∧
        (CCoins.ofTransaction tx nHeight).Of other :=
    fun tx htx nHeight hnHeight =>
      ⟨tx, htx, checked_of_mem htx, rfl, CCoins.of_ofTransaction tx hnHeight⟩
  intro txid coins hcoins _
  simp only [node] at hcoins
  split_ifs at hcoins with h0 h1 h2 h3
  · cases hcoins
    rw [h0]
    exact hrecord early (by decide) nHeight hheight
  · cases hcoins
    rw [h1]
    exact hrecord (coinbase [2, 0xb8, 0x0b, 0x61]) (by decide) 3000 (by decide)
  · cases hcoins
    rw [h2]
    exact hrecord (coinbase [2, 0xb9, 0x0b, 0x61]) (by decide) 3001 (by decide)
  · cases hcoins
    rw [h3]
    exact hrecord (coinbase [2, 0xba, 0x0b, 0x61]) (by decide) 3002 (by decide)

theorem readBlock_chainIo {block : CBlock} (hread : chainIo.readBlock h = some block) :
    ∃ tx ∈ known, block.vtx = [tx] := by
  simp only [chainIo] at hread
  split_ifs at hread <;> cases hread <;> exact ⟨_, by decide, rfl⟩

theorem grounded_node (hheight : 0 ≤ nHeight.toInt) :
    (node nHeight).Grounded chainContext chainIo {tx | tx ∈ known} where
  injOn := by
    have hnodup : (known.map (getHash sha256d)).Nodup := by decide
    exact fun tx htx other hother heq => inj_on_of_nodup_map hnodup htx hother heq
  consistent := consistent_node nHeight
  pool := sound_node nHeight
  coins := genuine_node hheight
  blocks h block hread tx htx := by
    obtain ⟨other, hother, hvtx⟩ := readBlock_chainIo hread
    rw [hvtx, mem_singleton] at htx
    exact htx ▸ hother
  undo h block hread hashPrev vtxundo _ := by
    obtain ⟨tx, -, hvtx⟩ := readBlock_chainIo hread
    simp [CBlockUndo.Genuine, hvtx]
  genesis block hread := by
    have hnone : chainIo.readBlock (hashGenesisBlock .testNet) = none := by decide
    cases hnone.symm.trans hread

theorem holds_node {nHeight' : Int32} {out : COutPoint} {fCoinBase : Bool}
    (hout : out.hash = hashEarly) (h : (node nHeight).pcoinsTip.Holds out fCoinBase nHeight') :
    nHeight' = nHeight := by
  obtain ⟨coins, hcoins, -, -, rfl⟩ := h
  rw [hout] at hcoins
  cases hcoins
  rfl

theorem poolValid_node
    (hmature : ¬ (3002 : Int32) + 1 - nHeight < coinbaseMaturity) : (node nHeight).PoolValid where
  loose txid tx htx := by
    rw [(mapTx_node htx).2]
    rfl
  available txid tx htx txin htxin := by
    rw [(mapTx_node htx).2] at htxin
    rw [mem_singleton.mp htxin]
    exact .inl ⟨true, nHeight, .ofTransaction early nHeight, rfl,
      CCoins.isAvailable_ofTransaction_of_lt (checked_of_mem (by decide)) (by decide) nHeight,
      rfl, rfl⟩
  mature txid tx htx txin htxin nHeight' hholds := by
    rw [(mapTx_node htx).2] at htxin
    rw [mem_singleton.mp htxin] at hholds
    rw [holds_node rfl hholds]
    have htip : tree hashLate3 = some (entry hashLate3 hashLate2 none 3002 39516 late3
        (blockHaveData ||| blockHaveUndo ||| blockValidScripts)) := by
      decide
    exact ⟨_, htip, hmature⟩

theorem tree_hashSteady2 : tree hashSteady2 =
    some (entry hashSteady2 hashSteady1 none 3001 46260 steady2 blockHaveData) := by
  decide

theorem sparesCoinbases_node : (node 2).SparesCoinbases chainContext chainIo hashSteady2 := by
  have hplan : tree.reorganization (some hashLate3) hashSteady2 =
      .ok ([hashLate3, hashLate2, hashLate1], [hashSteady1, hashSteady2]) := by
    decide
  have hids : ∀ other ∈ chainIo.transactions
      ([hashLate3, hashLate2, hashLate1] ++ [hashSteady1, hashSteady2]),
        other.getHash sha256d ≠ hashEarly := by
    decide
  rintro vDisconnect vConnect pindex hbranches hpindex txid tx htx txin htxin nHeight hholds
  cases hplan.symm.trans hbranches
  cases tree_hashSteady2.symm.trans hpindex
  rw [(mapTx_node htx).2] at htxin
  rw [mem_singleton.mp htxin] at hholds ⊢
  rw [holds_node rfl hholds]
  exact ⟨hids, by decide⟩

end Stalled

open Stalled

/-- The steady branch is one block shorter, so the coinbase of block 3 cannot be spent above it;
the transaction that spends it stays in the pool. -/
theorem Node.setBestChain_not_poolValid :
    (node 3).Grounded chainContext chainIo {tx | tx ∈ Stalled.known} ∧
      (node 3).PoolValid ∧ (outcome 3).1 = .ok () ∧ ¬ (outcome 3).2.PoolValid := by
  have hfacts : (outcome 3).1 = .ok () ∧ (outcome 3).2.mempool.mapTx hashSpending = some spending ∧
      (outcome 3).2.pcoinsTip.coins hashEarly = some (.ofTransaction early 3) ∧
      (((outcome 3).2.pcoinsTip.best.bind (outcome 3).2.mapBlockIndex).map
        nHeight) = some 3001 := by
    decide +kernel
  obtain ⟨hresult, hpool, hcoins, htip⟩ := hfacts
  refine ⟨grounded_node (by decide), poolValid_node (by decide), hresult, fun hvalid => ?_⟩
  generalize (outcome 3).2 = node' at hvalid hpool hcoins htip
  have hholds : node'.pcoinsTip.Holds ⟨hashEarly, 0⟩ true 3 :=
    ⟨_, hcoins, by decide, rfl, rfl⟩
  obtain ⟨pindex, hpindex, hmatured⟩ := hvalid.mature _ _ hpool
    ⟨⟨hashEarly, 0⟩, [], 0xffffffff⟩ (by decide) 3 hholds
  rw [hpindex, Option.map_some, Option.some.injEq] at htip
  rw [htip] at hmatured
  exact hmatured (by decide)

/-- The coinbase of block 2 can be spent above either branch. -/
theorem Node.poolValid_setBestChain_stalled : (node 2).PoolValid ∧ (outcome 2).2.PoolValid := by
  have hvalid : (node 2).PoolValid := poolValid_node (by decide)
  have hresult : (outcome 2).1 = .ok () := by decide +kernel
  rcases hrun : outcome 2 with ⟨result, node'⟩
  rw [hrun] at hresult
  cases hresult
  rw [outcome] at hrun
  have hground : (node 2).Grounded chainContext chainIo
      {tx | tx ∈ Stalled.known} := grounded_node (by decide)
  have hnew : (node 2).mapBlockIndex hashSteady2 = _ := tree_hashSteady2
  exact ⟨hvalid, (Node.poolValid_setBestChain hground hnew hvalid hrun).2 sparesCoinbases_node⟩

end Primecoin
