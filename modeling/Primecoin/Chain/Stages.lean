import Primecoin.Chain.SetBestChain

/-!
# The stages of a change of the best block

What each stage of `SetBestChain` changes. No stage before the last touches the links, the pool,
the best block or the coins of the node: blocks are taken off and put on in a view, and a block
that cannot be connected only leaves marks on the index.

`Connects` is the loop over the new branch as a relation. `Connects.run_append` says that the loop
follows it, and `connects_or_fails` finds the first block that fails. `setBestChain_cases` puts
the stages together.
-/

namespace Primecoin

open List Stateful Except BlockTree Function

namespace Node

variable {W : Type}

structure Unmoved (node node' : Node W) : Prop where
  positions : node.mapBlockIndex.SamePositions node'.mapBlockIndex
  next : ∀ h, node'.mapBlockIndex.next h = node.mapBlockIndex.next h
  pcoinsTip : node'.pcoinsTip = node.pcoinsTip
  pindexBest : node'.pindexBest = node.pindexBest
  mempool : node'.mempool = node.mempool

theorem Unmoved.refl (node : Node W) : Unmoved node node :=
  ⟨.refl _, fun _ => rfl, rfl, rfl, rfl⟩

theorem Unmoved.trans {node node' node'' : Node W} (h : Unmoved node node')
    (h' : Unmoved node' node'') : Unmoved node node'' where
  positions := h.positions.trans h'.positions
  next q := (h'.next q).trans (h.next q)
  pcoinsTip := h'.pcoinsTip.trans h.pcoinsTip
  pindexBest := h'.pindexBest.trans h.pindexBest
  mempool := h'.mempool.trans h.mempool

/-- Between calls the links mark the branch of the best block, and the coins are those at that
block. -/
structure Consistent (node : Node W) : Prop where
  rooted : node.mapBlockIndex.Rooted
  main : node.mapBlockIndex.MainChain node.pindexBest
  best : node.pcoinsTip.best = node.pindexBest

theorem Unmoved.consistent {node node' : Node W} (h : Unmoved node node')
    (hnode : node.Consistent) : node'.Consistent where
  rooted := hnode.rooted.congr h.positions
  main := by
    rw [h.pindexBest]
    exact hnode.main.congr h.positions h.next
  best := by rw [h.pcoinsTip, h.pindexBest, hnode.best]

def NoneFailed (node : Node W) : Prop :=
  ∀ h ∈ node.setBlockIndexValid, node.mapBlockIndex.isFailed h = false

/-- The indexes differ at most in what `ConnectBlock` writes. -/
def Marked (tree tree' : BlockTree) : Prop :=
  ∀ ⦃γ : Type⦄ ⦃f : CBlockIndex → γ⦄, CBlock.Unwritten f → ∀ q, (tree' q).map f = (tree q).map f

variable {tree tree' : BlockTree}

theorem Marked.positions (h : Marked tree tree') : tree.SamePositions tree' :=
  h ⟨⟨fun _ _ => rfl, fun _ => rfl⟩, fun _ _ => rfl⟩

theorem Marked.next (h : Marked tree tree') (q : UInt256) : tree'.next q = tree.next q := by
  have hbind := congrArg (Option.bind · id)
    (@h _ CBlockIndex.pnext ⟨⟨fun _ _ => rfl, fun _ => rfl⟩, fun _ _ => rfl⟩ q)
  rwa [Option.bind_map, Option.bind_map] at hbind

theorem Marked.isFailed (h : Marked tree tree') (q : UInt256) :
    tree'.isFailed q = tree.isFailed q := by
  refine isFailed_congr (h ⟨⟨fun pindex _ => ?_, fun pindex => ?_⟩, fun _ _ => rfl⟩ q)
  · exact or_and_of_disjoint pindex.nStatus (by decide)
  · exact validScripts_and_of_disjoint pindex.nStatus (by decide) (by decide)

section Frame

variable {context : ChainContext W} {io : ChainIo} {tree : BlockTree} {view : CCoinsView}
  {h : UInt256}

theorem marked_connectFromDisk (context : ChainContext W) (io : ChainIo) (tree : BlockTree)
    (view : CCoinsView) (h : UInt256) : Marked tree (connectFromDisk context io tree view h).2 := by
  intro γ f hf q
  cases hread : io.readFromDisk context.connect.hash h with
  | error failure => simp only [connectFromDisk, hread]
  | ok block =>
    cases hentry : tree h with
    | none => simp only [connectFromDisk, hread, hentry]
    | some pindex =>
      simp only [connectFromDisk, hread, hentry]
      by_cases hq : q = h
      · have hkeeps := CBlock.keeps_connectBlock hf
          { context.connect with tree := tree } (io.connect h) block view false pindex
        rw [hq, update_self, hentry, Option.map_some, Option.map_some, hkeeps]
      · rw [update_of_ne hq]

variable {block : CBlock} {connected : Connected}

theorem connectFromDisk_eq_ok {tree' : BlockTree}
    (hok : connectFromDisk context io tree view h = (.ok (block, connected), tree')) :
    io.readFromDisk context.connect.hash h = .ok block ∧ ∃ pindex pindex',
      tree h = some pindex ∧ (block.connectBlock { context.connect with tree := tree }
        (io.connect h) view false).run pindex = (.ok connected, pindex') := by
  cases hread : io.readFromDisk context.connect.hash h with
  | error failure => simp [connectFromDisk, hread] at hok
  | ok found =>
    cases hentry : tree h with
    | none => simp [connectFromDisk, hread, hentry] at hok
    | some pindex =>
      simp only [connectFromDisk, hread, hentry, Prod.mk.injEq] at hok
      rcases hrun : (found.connectBlock { context.connect with tree := tree } (io.connect h)
        view false).run pindex with ⟨result, pindex'⟩
      rw [hrun] at hok
      cases result with
      | error failure => cases hok.1
      | ok made =>
        obtain ⟨hok, -⟩ := hok
        cases hok
        exact ⟨rfl, pindex, pindex', rfl, hrun⟩

theorem connectFromDisk_ok {tree' : BlockTree} (hroot : tree.Rooted)
    (hok : connectFromDisk context io tree view h = (.ok (block, connected), tree')) :
    connected.view.best = some h := by
  obtain ⟨-, pindex, pindex', hentry, hrun⟩ := connectFromDisk_eq_ok hok
  obtain ⟨-, -, hcases⟩ := CBlock.connectBlock_ok hrun
  rcases hcases with ⟨-, hconnected, -⟩ | ⟨-, st, -, -, hview, -⟩
  · rw [hconnected, ← hroot.phashBlock h pindex hentry]
    rfl
  · rw [hview, ← hroot.phashBlock h pindex hentry]
    rfl

theorem disconnectTip_ok {view' : CCoinsView}
    (hok : disconnectTip context io tree view h = .ok (view', block)) :
    ∃ pindex, tree h = some pindex ∧ view'.best = pindex.pprev := by
  rw [disconnectTip, bind_eq_ok_iff] at hok
  obtain ⟨block', -, hok⟩ := hok
  cases hentry : tree h with
  | none => simp [hentry] at hok
  | some pindex =>
    refine ⟨pindex, rfl, ?_⟩
    simp only [hentry, bind_eq_ok_iff] at hok
    obtain ⟨⟨view'', fClean⟩, hdisconnect, hok⟩ := hok
    split_ifs at hok
    cases hok
    exact (CBlock.disconnectBlock_ok hdisconnect).1

theorem disconnectBranch_best {best : Option UInt256} {d t : List UInt256}
    {view' : CCoinsView} {vResurrect : List CTransaction} (hl : tree.Ancestry best (d ++ t))
    (hview : view.best = best)
    (hok : disconnectBranch context io tree d view = .ok (view', vResurrect)) :
    view'.best = t.head? := by
  induction d generalizing best view view' vResurrect with
  | nil =>
    cases hok
    rw [hview, ← hl.head?_eq, nil_append]
  | cons h d ih =>
    simp only [disconnectBranch, bind_eq_ok_iff] at hok
    obtain ⟨⟨next, block⟩, htip, ⟨last, vRest⟩, hrest, hok⟩ := hok
    cases hok
    obtain ⟨pindex, hentry, hbest⟩ := disconnectTip_ok htip
    cases hl with
    | step hentry' hl =>
      rw [hentry, Option.some.injEq] at hentry'
      subst hentry'
      exact ih hl hbest hrest

end Frame

/-! ## What becomes of a block that is not connected -/

section Report

variable {node : Node W} {pindexNew h : UInt256} {pindex : CBlockIndex}

theorem unmoved_raiseInvalidWork (nChainWork : UInt256) (node : Node W) :
    Unmoved node (raiseInvalidWork nChainWork node) ∧
      (raiseInvalidWork nChainWork node).wallets = node.wallets := by
  rw [raiseInvalidWork]
  split_ifs
  · exact ⟨⟨.refl _, fun _ => rfl, rfl, rfl, rfl⟩, rfl⟩
  · exact ⟨.refl node, rfl⟩

theorem map_markFailed {γ : Type} {f : CBlockIndex → γ}
    (hf : ∀ pindex nStatus, f { pindex with nStatus := nStatus } = f pindex) (flag : UInt32)
    (h : UInt256) (node : Node W) (q : UInt256) :
    ((node.markFailed flag h).mapBlockIndex q).map f = (node.mapBlockIndex q).map f := by
  simp only [markFailed]
  by_cases hq : q = h
  · rw [hq, update_self, Option.map_map]
    exact congrArg (Option.map · _) (funext fun pindex => hf pindex _)
  · rw [update_of_ne hq]

theorem unmoved_markFailed (flag : UInt32) (h : UInt256) (node : Node W) :
    Unmoved node (node.markFailed flag h) where
  positions := map_markFailed (fun _ _ => rfl) flag h node
  next q := by
    have hbind := congrArg (Option.bind · id)
      (map_markFailed (f := CBlockIndex.pnext) (fun _ _ => rfl) flag h node q)
    rwa [Option.bind_map, Option.bind_map] at hbind
  pcoinsTip := rfl
  pindexBest := rfl
  mempool := rfl

theorem unmoved_eraseValid (h : UInt256) (node : Node W) : Unmoved node (node.eraseValid h) :=
  ⟨.refl _, fun _ => rfl, rfl, rfl, rfl⟩

theorem NoneFailed.raiseInvalidWork (h : node.NoneFailed) (nChainWork : UInt256) :
    (node.raiseInvalidWork nChainWork).NoneFailed := by
  rw [Node.raiseInvalidWork]
  split_ifs
  · exact h
  · exact h

theorem NoneFailed.mark (hnode : node.NoneFailed) (flag : UInt32) (h : UInt256) :
    ((node.markFailed flag h).eraseValid h).NoneFailed := by
  intro q hq
  simp only [eraseValid, mem_filter, decide_eq_true_eq] at hq
  have hkept := hnode q hq.1
  simp only [isFailed, eraseValid, markFailed, update_of_ne hq.2] at hkept ⊢
  exact hkept

theorem run_invalidChainFound (hentry : node.mapBlockIndex pindexNew = some pindex) :
    (invalidChainFound pindexNew).run node =
      (if node.pindexBest = none then .error (.fault "pindexBest->GetBlockTime()") else .ok (),
        node.raiseInvalidWork pindex.nChainWork) := by
  rw [invalidChainFound, run_get_bind]
  simp only [hentry, run_modify_bind]
  split_ifs <;> rfl

theorem run_invalidBlockFound (reorganise : Stateful (Node W) Failure Unit)
    (hentry : node.mapBlockIndex h = some pindex) (hnext : node.mapBlockIndex.next h = none) :
    (invalidBlockFound reorganise h).run node =
      (if node.pindexBest = none then .error (.fault "pindexBest->GetBlockTime()") else .ok (),
        ((node.markFailed blockFailedValid h).eraseValid h).raiseInvalidWork pindex.nChainWork) := by
  have hmoved := (unmoved_markFailed blockFailedValid h node).trans
    (unmoved_eraseValid h (node.markFailed blockFailedValid h))
  have hraised := hmoved.trans (unmoved_raiseInvalidWork pindex.nChainWork _).1
  have hmarked : ((node.markFailed blockFailedValid h).eraseValid h).mapBlockIndex h =
      some { pindex with nStatus := pindex.nStatus ||| blockFailedValid } := by
    simp [markFailed, eraseValid, hentry]
  rw [invalidBlockFound, run_modify_bind, run_modify_bind]
  by_cases hbest : node.pindexBest = none
  · rw [run_bind_of_error (by
      rw [run_invalidChainFound hmarked, hmoved.pindexBest, if_pos hbest]), if_pos hbest]
  · rw [run_bind_of_ok (a := ()) (by
      rw [run_invalidChainFound hmarked, hmoved.pindexBest, if_neg hbest]), if_neg hbest,
      run_get_bind, hraised.next, hnext]
    rfl

end Report

/-- A rule is broken while there is no best block yet: the report follows the null pointer. -/
def ReportCrashes (pindexBest : Option UInt256) (state : CValidationState) (failure : Failure) :
    Prop :=
  (failure.isReturn ∧ (state.record failure).isInvalid) ∧ pindexBest = none

instance (pindexBest : Option UInt256) (state : CValidationState) (failure : Failure) :
    Decidable (ReportCrashes pindexBest state failure) :=
  inferInstanceAs (Decidable (_ ∧ _))

/-- A block that is not connected and not on the main chain moves nothing. -/
theorem run_reportInvalid (state : CValidationState) (node : Node W) {pindexNew h : UInt256}
    {pindex pindex' : CBlockIndex} (failure : Failure)
    (hnew : node.mapBlockIndex pindexNew = some pindex)
    (hentry : node.mapBlockIndex h = some pindex') (hnext : node.mapBlockIndex.next h = none) :
    ∃ node', (∀ reorganise, (reportInvalid reorganise state pindexNew h failure).run node =
        (if ReportCrashes node.pindexBest state failure then
          .error (.fault "pindexBest->GetBlockTime()") else .ok (), node')) ∧
      Unmoved node node' ∧ node'.wallets = node.wallets ∧
      (node.NoneFailed → node'.NoneFailed) := by
  simp only [reportInvalid]
  by_cases hinvalid : failure.isReturn ∧ (state.record failure).isInvalid
  · obtain ⟨hraised, hwallets⟩ := unmoved_raiseInvalidWork pindex.nChainWork node
    by_cases hbest : node.pindexBest = none
    · refine ⟨_, fun reorganise => ?_, hraised, hwallets, fun hnone => hnone.raiseInvalidWork _⟩
      rw [if_pos hinvalid, if_pos ⟨hinvalid, hbest⟩]
      exact run_bind_of_error (by rw [run_invalidChainFound hnew, if_pos hbest])
    · obtain ⟨pindex'', hentry', -⟩ := hraised.positions.exists_of_eq_some hentry
      have hmarked := (unmoved_markFailed blockFailedValid h
        (node.raiseInvalidWork pindex.nChainWork)).trans (unmoved_eraseValid h _)
      obtain ⟨hraised', hwallets'⟩ := unmoved_raiseInvalidWork pindex''.nChainWork
        (((node.raiseInvalidWork pindex.nChainWork).markFailed blockFailedValid h).eraseValid h)
      refine ⟨_, fun reorganise => ?_, hraised.trans (hmarked.trans hraised'),
        hwallets'.trans hwallets,
        fun hnone => ((hnone.raiseInvalidWork _).mark _ h).raiseInvalidWork _⟩
      rw [if_pos hinvalid, if_neg fun hcrash => hbest hcrash.2,
        run_bind_of_ok (by rw [run_invalidChainFound hnew, if_neg hbest]),
        run_invalidBlockFound reorganise hentry' ((hraised.next h).trans hnext),
        hraised.pindexBest, if_neg hbest]
  · refine ⟨node, fun _ => ?_, .refl node, rfl, id⟩
    rw [if_neg hinvalid, if_neg fun hcrash => hinvalid hcrash.1]
    rfl

/-! ## Connecting the new branch -/

/-- What changes while the new branch is connected. -/
structure Progress (W : Type) where
  tree : BlockTree
  view : CCoinsView
  wallets : W

/-- The blocks are read and connected one after the other, each to the coins the one before has
left. -/
inductive Connects (context : ChainContext W) (io : ChainIo) :
    List UInt256 → Progress W → Progress W → Prop
  | nil (s : Progress W) : Connects context io [] s s
  | cons {h : UInt256} {rest : List UInt256} {s s' : Progress W} {block : CBlock}
      {connected : Connected} {tree : BlockTree} :
      connectFromDisk context io s.tree s.view h = (.ok (block, connected), tree) →
      Connects context io rest
        ⟨tree, connected.view, syncBlock context s.wallets block connected⟩ s' →
      Connects context io (h :: rest) s s'

def during (node : Node W) (s : Progress W) : Node W :=
  { node with mapBlockIndex := s.tree, wallets := s.wallets }

section Branch

variable {context : ChainContext W} {io : ChainIo} {reorganise : Stateful (Node W) Failure Unit}
  {state : CValidationState} {pindexNew h : UInt256} {node : Node W} {s s' : Progress W}
  {l : List UInt256}

theorem Connects.marked (hconnects : Connects context io l s s') : Marked s.tree s'.tree := by
  induction hconnects with
  | nil s => exact fun _ _ _ _ => rfl
  | @cons h rest s s' block connected tree htip _ ih =>
    have hmarked := marked_connectFromDisk context io s.tree s.view h
    rw [htip] at hmarked
    exact fun _ _ hf q => (ih hf q).trans (hmarked hf q)

theorem Connects.unmoved (hconnects : Connects context io l s s') (node : Node W) :
    Unmoved (node.during s) (node.during s') :=
  ⟨hconnects.marked.positions, hconnects.marked.next, rfl, rfl, rfl⟩

theorem Connects.best_eq (hroot : s.tree.Rooted) (hconnects : Connects context io l s s') :
    s'.view.best = l.getLast?.or s.view.best := by
  induction hconnects with
  | nil s => rfl
  | @cons h rest s s' block connected tree htip _ ih =>
    have hmarked := marked_connectFromDisk context io s.tree s.view h
    rw [htip] at hmarked
    rw [ih (hroot.congr hmarked.positions), connectFromDisk_ok hroot htip]
    cases rest with
    | nil => rfl
    | cons k rest => simp [getLast?_cons]

theorem connects_or_fails (context : ChainContext W) (io : ChainIo) (l : List UInt256)
    (s : Progress W) : (∃ s', Connects context io l s s') ∨
      ∃ done h rest s' failure tree, l = done ++ h :: rest ∧ Connects context io done s s' ∧
        connectFromDisk context io s'.tree s'.view h = (.error failure, tree) := by
  induction l generalizing s with
  | nil => exact Or.inl ⟨s, .nil s⟩
  | cons h l ih =>
    rcases htip : connectFromDisk context io s.tree s.view h with ⟨result, tree⟩
    cases result with
    | error failure => exact Or.inr ⟨[], h, l, s, failure, tree, rfl, .nil s, htip⟩
    | ok connected =>
      obtain ⟨block, connected⟩ := connected
      rcases ih ⟨tree, connected.view, syncBlock context s.wallets block connected⟩ with
        ⟨s', hs'⟩ | ⟨done, k, rest, s', failure, tree', hl, hs', hfails⟩
      · exact Or.inl ⟨s', .cons htip hs'⟩
      · exact Or.inr ⟨h :: done, k, rest, s', failure, tree', by rw [hl, cons_append],
          .cons htip hs', hfails⟩

/-- The loop over `vConnect` after the blocks it has connected. -/
theorem Connects.run_append (hconnects : Connects context io l s s') (node : Node W) :
    ∃ vDelete, ∀ reorganise state pindexNew rest,
      (connectBranch context io reorganise state pindexNew (l ++ rest) s.view).run (node.during s) =
        (connectBranch context io reorganise state pindexNew rest s'.view >>= fun result =>
          pure (result.1, vDelete ++ result.2)).run (node.during s') := by
  induction hconnects with
  | nil s =>
    refine ⟨[], fun reorganise state pindexNew rest => ?_⟩
    rcases hrun : (connectBranch context io reorganise state pindexNew rest s.view).run
      (node.during s) with ⟨result, node'⟩
    rw [nil_append, hrun]
    cases result with
    | error failure => rw [run_bind_of_error hrun]
    | ok result => rw [run_bind_of_ok hrun, nil_append, run_pure]
  | @cons h l s s' block connected tree htip _ ih =>
    obtain ⟨vDelete, hrun⟩ := ih
    refine ⟨block.vtx ++ vDelete, fun reorganise state pindexNew rest => ?_⟩
    have hstep : (connectTip context io reorganise state pindexNew s.view h).run (node.during s) =
        (.ok (block, connected), node.during
          ⟨tree, connected.view, syncBlock context s.wallets block connected⟩) := by
      rw [connectTip, run_get_bind]
      simp only [during, htip]
      rfl
    rw [cons_append, connectBranch, run_bind_of_ok hstep]
    rcases hrest : (connectBranch context io reorganise state pindexNew rest s'.view).run
      (node.during s') with ⟨result, node'⟩
    have htail := hrun reorganise state pindexNew rest
    cases result with
    | error failure =>
      rw [run_bind_of_error hrest] at htail ⊢
      rw [run_bind_of_error htail]
    | ok result =>
      rw [run_bind_of_ok hrest] at htail ⊢
      rw [run_bind_of_ok htail, append_assoc]

theorem run_connectTip_error (state : CValidationState) (node : Node W)
    {pindex pindex' : CBlockIndex} {failure : Failure} {tree : BlockTree}
    (hnew : s.tree pindexNew = some pindex) (hentry : s.tree h = some pindex')
    (hnext : s.tree.next h = none)
    (htip : connectFromDisk context io s.tree s.view h = (.error failure, tree)) :
    ∃ node', (∀ reorganise,
        (connectTip context io reorganise state pindexNew s.view h).run (node.during s) =
          (.error (if ReportCrashes node.pindexBest state failure then
            .fault "pindexBest->GetBlockTime()" else failure), node')) ∧
      Unmoved (node.during s) node' ∧ node'.wallets = s.wallets ∧
      ((node.during s).NoneFailed → node'.NoneFailed) := by
  have hmarked := marked_connectFromDisk context io s.tree s.view h
  rw [htip] at hmarked
  obtain ⟨_, hnew', -⟩ := hmarked.positions.exists_of_eq_some hnew
  obtain ⟨_, hentry', -⟩ := hmarked.positions.exists_of_eq_some hentry
  have hmoved : Unmoved (node.during s) (node.during ⟨tree, s.view, s.wallets⟩) :=
    ⟨hmarked.positions, hmarked.next, rfl, rfl, rfl⟩
  obtain ⟨node', hrun, hunmoved, hwallets, hnone'⟩ := run_reportInvalid state
    (node.during ⟨tree, s.view, s.wallets⟩) failure hnew' hentry' ((hmarked.next h).trans hnext)
  have hstep : ∀ reorganise,
      (connectTip context io reorganise state pindexNew s.view h).run (node.during s) =
        (reportInvalid reorganise state pindexNew h failure >>= fun _ =>
          lift (.error failure)).run (node.during ⟨tree, s.view, s.wallets⟩) := by
    intro reorganise
    rw [connectTip, run_get_bind]
    simp only [during, htip]
    rfl
  refine ⟨node', fun reorganise => ?_, hmoved.trans hunmoved, hwallets,
    fun hnone => hnone' fun q hq => (hmarked.isFailed q).trans (hnone q hq)⟩
  rw [hstep]
  by_cases hcrash : ReportCrashes node.pindexBest state failure
  · rw [if_pos hcrash]
    exact run_bind_of_error ((hrun reorganise).trans (congrArg (·, node') (if_pos hcrash)))
  · rw [if_neg hcrash]
    exact run_bind_of_ok ((hrun reorganise).trans (congrArg (·, node') (if_neg hcrash)))

end Branch

/-! ## Writing the coins and updating memory -/

section Memory

variable {context : ChainContext W} {io : ChainIo} {node node' : Node W}

theorem run_flushCoins_of_fails (context : ChainContext W) (node : Node W)
    (hfails : io.flushFails node.pindexBest = true) :
    ∃ message, (flushCoins context io).run node = (.error (.abort message), node) := by
  rw [ChainIo.flushFails, Bool.and_eq_true] at hfails
  obtain ⟨hneeded, hfails⟩ := hfails
  rw [flushCoins, run_get_bind, if_pos hneeded]
  by_cases hspace : (!io.fDiskSpace) = true
  · exact ⟨_, by rw [if_pos hspace]; rfl⟩
  · rw [Bool.not_eq_true] at hspace
    rw [hspace, Bool.false_or, decide_eq_true_eq] at hfails
    refine ⟨"Failed to write to coin database", ?_⟩
    rw [hspace, if_neg Bool.false_ne_true, hfails]
    rfl

theorem flushCoins_avoids (hfails : io.flushFails node.pindexBest = false) :
    Avoids Failure.isReturn ((flushCoins context io).run node).1 := by
  rw [flushCoins, run_get_bind]
  by_cases hneeded : io.flushNeeded node.pindexBest = true
  · rw [ChainIo.flushFails, hneeded, Bool.true_and, Bool.or_eq_false_iff,
      decide_eq_false_iff_not] at hfails
    rw [if_pos hneeded, hfails.1, if_neg Bool.false_ne_true]
    refine avoids_lift_bind ?_ fun _ _ => avoids_ok _
    cases hflush : io.flush with
    | ok => exact avoids_ok _
    | fails => exact absurd hflush hfails.2
    | throws message => exact avoids_error rfl
  · rw [if_neg hneeded]
    exact avoids_ok _

theorem keeps_flushCoins (context : ChainContext W) (io : ChainIo) {γ : Type} {f : Node W → γ}
    (hf : ∀ node : Node W, f { node with
      pcoinsTip := node.pcoinsTip.reload context.keys fun _ => false } = f node) :
    Keeps f (flushCoins context io) := by
  refine keeps_get.bind fun node => ?_
  split_ifs
  · exact keeps_lift _
  · exact (keeps_lift _).bind fun _ => keeps_modify hf
  · exact keeps_pure _

theorem flushCoins_ok (h : (flushCoins context io).run node = (.ok (), node')) :
    node'.mapBlockIndex = node.mapBlockIndex ∧ node'.pcoinsTip.best = node.pcoinsTip.best := by
  have hkept := keeps_flushCoins context io
    (f := fun node : Node W => (node.mapBlockIndex, node.pcoinsTip.best)) (fun _ => rfl) node
  rw [h] at hkept
  exact Prod.mk.injEq _ _ _ _ ▸ hkept

theorem resurrect_avoids (tx : CTransaction) (node : Node W) :
    Avoids Failure.isReturn ((resurrect context tx).run node).1 := by
  rw [resurrect, run_get_bind]
  dsimp only
  split
  · exact avoids_ok _
  · split_ifs with hreturn
    · exact avoids_lift_bind (CTxMemPool.remove_avoids (fun _ => rfl) _ _ _ _ _)
        fun _ _ => avoids_ok _
    · exact avoids_error (Bool.eq_false_of_not_eq_true hreturn)

theorem deleteRedundant_avoids (tx : CTransaction) (node : Node W) :
    Avoids Failure.isReturn ((deleteRedundant context tx).run node).1 := by
  rw [deleteRedundant, run_get_bind]
  refine avoids_lift_bind (CTxMemPool.remove_avoids (fun _ => rfl) _ _ _ _ _) fun mempool _ => ?_
  exact avoids_lift_bind (CTxMemPool.removeConflicts_avoids (fun _ => rfl) _ _ _ _)
    fun _ _ => avoids_ok _

theorem keeps_resurrect (context : ChainContext W) {γ : Type} {f : Node W → γ}
    (hf : ∀ node mempool wallets, f { node with mempool := mempool, wallets := wallets } = f node)
    (tx : CTransaction) : Keeps f (resurrect context tx) := by
  refine keeps_get.bind fun node => ?_
  dsimp only
  split
  · exact keeps_modify fun node => hf node _ _
  · split_ifs
    · exact (keeps_lift _).bind fun _ => keeps_modify fun node =>
        hf node _ node.wallets
    · exact keeps_lift _

theorem keeps_deleteRedundant (context : ChainContext W) {γ : Type} {f : Node W → γ}
    (hf : ∀ node mempool, f { node with mempool := mempool } = f node)
    (tx : CTransaction) : Keeps f (deleteRedundant context tx) :=
  keeps_get.bind fun _ => (keeps_lift _).bind fun _ =>
    (keeps_lift _).bind fun _ => keeps_modify fun node => hf node _

theorem updateMemory_ok {vDisconnect vConnect : List UInt256}
    {vResurrect vDelete : List CTransaction} {pindexNew : UInt256}
    (h : (updateMemory context io vDisconnect vConnect vResurrect vDelete pindexNew).run node =
      (.ok (), node')) :
    node'.mapBlockIndex = node.mapBlockIndex.updateLinks vDisconnect vConnect ∧
      node'.pcoinsTip = node.pcoinsTip ∧ node'.pindexBest = some pindexNew := by
  rw [updateMemory, run_modify_bind] at h
  obtain ⟨_, resurrected, hresurrect, h⟩ := run_bind_eq_ok_iff.mp h
  obtain ⟨_, deleted, hdelete, h⟩ := run_bind_eq_ok_iff.mp h
  cases h
  have hfirst := Keeps.forM (l := vResurrect)
    (f := fun node : Node W => (node.mapBlockIndex, node.pcoinsTip))
    (keeps_resurrect context fun _ _ _ => rfl)
    { node with mapBlockIndex := node.mapBlockIndex.updateLinks vDisconnect vConnect }
  have hsecond := Keeps.forM (l := vDelete)
    (f := fun node : Node W => (node.mapBlockIndex, node.pcoinsTip))
    (keeps_deleteRedundant context fun _ _ => rfl) resurrected
  rw [hresurrect] at hfirst
  rw [hdelete, hfirst, Prod.mk.injEq] at hsecond
  exact ⟨hsecond.1, hsecond.2, rfl⟩

variable {vDisconnect vConnect : List UInt256} {vResurrect vDelete : List CTransaction}
  {pindexNew : UInt256} {view : CCoinsView}

theorem run_commit_of_fails (context : ChainContext W) (vDisconnect vConnect : List UInt256)
    (vResurrect : List CTransaction) (pindexNew : UInt256) (view : CCoinsView)
    (vDelete : List CTransaction) (node : Node W) (hfails : io.flushFails node.pindexBest = true) :
    ∃ message, (commit context io vDisconnect vConnect vResurrect pindexNew view vDelete).run node =
      (.error (.abort message), { node with pcoinsTip := view }) := by
  obtain ⟨message, hrun⟩ := run_flushCoins_of_fails context { node with pcoinsTip := view } hfails
  refine ⟨message, ?_⟩
  rw [commit, run_modify_bind]
  exact run_bind_of_error hrun

theorem commit_avoids (hfails : io.flushFails node.pindexBest = false) : Avoids Failure.isReturn
      ((commit context io vDisconnect vConnect vResurrect pindexNew view vDelete).run node).1 := by
  rw [commit, run_modify_bind]
  refine avoids_bind (flushCoins_avoids hfails) fun _ _ _ => ?_
  rw [updateMemory, run_modify_bind]
  refine avoids_bind (avoids_forM resurrect_avoids _) fun _ _ _ => ?_
  exact avoids_bind (avoids_forM deleteRedundant_avoids _) fun _ _ _ => avoids_ok _

theorem commit_ok
    (h : (commit context io vDisconnect vConnect vResurrect pindexNew view vDelete).run node =
      (.ok (), node')) :
    node'.mapBlockIndex = node.mapBlockIndex.updateLinks vDisconnect vConnect ∧
      node'.pcoinsTip.best = view.best ∧ node'.pindexBest = some pindexNew := by
  rw [commit, run_modify_bind] at h
  obtain ⟨_, flushed, hflush, hupdate⟩ := run_bind_eq_ok_iff.mp h
  obtain ⟨htree, hbest⟩ := flushCoins_ok hflush
  obtain ⟨htree', htip, hnew⟩ := updateMemory_ok hupdate
  exact ⟨htree'.trans (congrArg (updateLinks · vDisconnect vConnect) htree),
    (congrArg CCoinsView.best htip).trans hbest, hnew⟩

end Memory

/-! ## The whole call -/

/-- The old branch can be taken off; `vConnect` is the new branch, and `view` the coins at the
fork. -/
def AtFork (context : ChainContext W) (io : ChainIo) (node : Node W) (pindexNew : UInt256)
    (vConnect : List UInt256) (view : CCoinsView) : Prop :=
  ∃ vDisconnect vResurrect,
    node.mapBlockIndex.reorganization node.pcoinsTip.best pindexNew = .ok (vDisconnect, vConnect) ∧
      disconnectBranch context io node.mapBlockIndex vDisconnect node.pcoinsTip =
        .ok (view, vResurrect)

section Whole

variable {context : ChainContext W} {io : ChainIo} {reorganise : Stateful (Node W) Failure Unit}
  {state : CValidationState} {pindexNew : UInt256} {pindex : CBlockIndex} {node : Node W}
  {vDisconnect vConnect : List UInt256} {vResurrect : List CTransaction} {view : CCoinsView}

/-- The blocks of the new branch are not on the main chain. -/
theorem Consistent.exists_branches (hnode : node.Consistent)
    (hnew : node.mapBlockIndex pindexNew = some pindex) :
    ∃ d c t, node.mapBlockIndex.reorganization node.pcoinsTip.best pindexNew =
        .ok (d, c.reverse) ∧ node.mapBlockIndex.Ancestry node.pindexBest (d ++ t) ∧
      node.mapBlockIndex.Ancestry (some pindexNew) (c ++ t) ∧
      (∀ q ∈ c, q ∉ d ++ t) ∧ ∀ q ∈ c, node.mapBlockIndex.next q = none := by
  obtain ⟨lbest, hbest, hlinks⟩ := hnode.main
  obtain ⟨lnew, hlnew⟩ := hnode.rooted.ranked.exists_ascends hnew
  obtain ⟨d, c, t, hplan, rfl, rfl, hdisjoint⟩ :=
    reorganization_ok hnode.rooted hbest hlnew
  refine ⟨d, c, t, by rw [hnode.best, hplan], hbest, hlnew, hdisjoint, fun q hq => ?_⟩
  cases hnext : node.mapBlockIndex.next q with
  | none => rfl
  | some r =>
    obtain ⟨hr, hprev⟩ := (hlinks q r).mp hnext
    obtain ⟨entry, hentry, hup⟩ := Option.bind_eq_some_iff.mp hprev
    exact absurd (hbest.up_mem hr hentry hup) (hdisjoint q hq)

theorem branches_eq_nil {tree : BlockTree} {d c t : List UInt256}
    (hbest : tree.Ancestry (some pindexNew) (d ++ t))
    (hnew : tree.Ancestry (some pindexNew) (c ++ t)) (hdisjoint : ∀ q ∈ c, q ∉ d ++ t) :
    d = [] ∧ c = [] := by
  have heq : d = c := append_cancel_right (hbest.unique hnew)
  have hc : c = [] := by
    cases c with
    | nil => rfl
    | cons q c =>
      refine absurd (mem_append_left t ?_) (hdisjoint q mem_cons_self)
      rw [heq]
      exact mem_cons_self
  exact ⟨heq.trans hc, hc⟩

section Planned

variable (state : CValidationState) {s : Progress W}
  (hplan : node.mapBlockIndex.reorganization node.pcoinsTip.best pindexNew =
    .ok (vDisconnect, vConnect))
  (hdisconnect : disconnectBranch context io node.mapBlockIndex vDisconnect node.pcoinsTip =
    .ok (view, vResurrect))
include hplan hdisconnect

theorem run_setBestChain : (setBestChain context io reorganise state pindexNew).run node =
    (connectBranch context io reorganise state pindexNew vConnect view >>= fun result =>
      commit context io vDisconnect vConnect vResurrect pindexNew result.1 result.2).run node := by
  rw [setBestChain, run_get_bind, run_lift_bind_of_ok hplan, run_lift_bind_of_ok hdisconnect]

theorem Connects.run_setBestChain
    (hconnects : Connects context io vConnect ⟨node.mapBlockIndex, view, node.wallets⟩ s) :
    ∃ vDelete, ∀ reorganise, (setBestChain context io reorganise state pindexNew).run node =
      (commit context io vDisconnect vConnect vResurrect pindexNew s.view vDelete).run
        (node.during s) := by
  obtain ⟨vDelete, hrun⟩ := hconnects.run_append node
  refine ⟨vDelete ++ [], fun reorganise => ?_⟩
  have hbranch := hrun reorganise state pindexNew []
  rw [append_nil] at hbranch
  rw [Node.run_setBestChain state hplan hdisconnect]
  exact run_bind_of_ok hbranch

theorem Connects.run_setBestChain_error {done rest : List UInt256} {h : UInt256}
    {pindex' : CBlockIndex} {failure : Failure} {tree : BlockTree}
    (hsplit : vConnect = done ++ h :: rest)
    (hconnects : Connects context io done ⟨node.mapBlockIndex, view, node.wallets⟩ s)
    (hnew : node.mapBlockIndex pindexNew = some pindex)
    (hentry : node.mapBlockIndex h = some pindex') (hnext : node.mapBlockIndex.next h = none)
    (hfails : connectFromDisk context io s.tree s.view h = (.error failure, tree)) :
    ∃ node', (∀ reorganise, (setBestChain context io reorganise state pindexNew).run node =
        (.error (if ReportCrashes node.pindexBest state failure then
          .fault "pindexBest->GetBlockTime()" else failure), node')) ∧
      Unmoved node node' ∧ node'.wallets = s.wallets ∧
      (node.NoneFailed → node'.NoneFailed) := by
  subst hsplit
  obtain ⟨vDelete, hrun⟩ := hconnects.run_append node
  obtain ⟨_, hnew', -⟩ := hconnects.marked.positions.exists_of_eq_some hnew
  obtain ⟨_, hentry', -⟩ := hconnects.marked.positions.exists_of_eq_some hentry
  obtain ⟨node', htip, hunmoved, hwallets, hnone⟩ := run_connectTip_error state node hnew'
    hentry' ((hconnects.marked.next h).trans hnext) hfails
  refine ⟨node', fun reorganise => ?_, (hconnects.unmoved node).trans hunmoved, hwallets,
    fun hnode => hnone fun q hq => (hconnects.marked.isFailed q).trans (hnode q hq)⟩
  rw [Node.run_setBestChain state hplan hdisconnect]
  refine run_bind_of_error ((hrun reorganise state pindexNew (h :: rest)).trans ?_)
  exact run_bind_of_error (run_bind_of_error (htip reorganise))

end Planned

section Committed

variable {s : Progress W} {d c t : List UInt256} (hnode : node.Consistent)
  (hbest : node.mapBlockIndex.Ancestry node.pindexBest (d ++ t))
  (hnew : node.mapBlockIndex.Ancestry (some pindexNew) (c ++ t))
  (hdisconnect : disconnectBranch context io node.mapBlockIndex d node.pcoinsTip =
    .ok (view, vResurrect))
  (hconnects : Connects context io c.reverse ⟨node.mapBlockIndex, view, node.wallets⟩ s)
include hnode hbest hnew hdisconnect hconnects

theorem best_of_connects : s.view.best = some pindexNew := by
  have hfork := disconnectBranch_best hbest hnode.best hdisconnect
  have hhead := hnew.head?_eq
  rw [head?_append, ← getLast?_reverse] at hhead
  rw [hconnects.best_eq hnode.rooted, ← hhead]
  exact congrArg _ hfork

theorem commit_agrees {node' : Node W} {vDelete : List CTransaction}
    (hcommit : (commit context io d c.reverse vResurrect pindexNew s.view vDelete).run
      (node.during s) = (.ok (), node')) :
    node'.Consistent ∧ node'.pindexBest = some pindexNew := by
  obtain ⟨htree, htip, hpindex⟩ := commit_ok hcommit
  have hsame := hconnects.marked.positions
  have hmain := hnode.main.congr hsame hconnects.marked.next
  refine ⟨⟨?_, ?_, ?_⟩, hpindex⟩
  · rw [htree]
    exact (hnode.rooted.congr hsame).congr (samePositions_updateLinks _ _ _)
  · rw [htree, hpindex]
    exact hmain.updateLinks (hbest.congr hsame) (hnew.congr hsame)
  · rw [htip, hpindex, best_of_connects hnode hbest hnew hdisconnect hconnects]

end Committed

/-- A call for a block of the index ends while the old branch is taken off, at a block of the new
branch, or in the stage that commits. -/
theorem setBestChain_cases (context : ChainContext W) (io : ChainIo) (state : CValidationState)
    (hnode : node.Consistent) (hnew : node.mapBlockIndex pindexNew = some pindex) :
    (∃ failure, ∀ reorganise, (setBestChain context io reorganise state pindexNew).run node =
        (.error failure, node)) ∨
      (∃ done h rest view s failure tree node',
        AtFork context io node pindexNew (done ++ h :: rest) view ∧
        Connects context io done ⟨node.mapBlockIndex, view, node.wallets⟩ s ∧
        connectFromDisk context io s.tree s.view h = (.error failure, tree) ∧
        (∀ reorganise, (setBestChain context io reorganise state pindexNew).run node =
          (.error (if ReportCrashes node.pindexBest state failure then
            .fault "pindexBest->GetBlockTime()" else failure), node')) ∧
        Unmoved node node' ∧ node'.wallets = s.wallets ∧ (node.NoneFailed → node'.NoneFailed)) ∨
      ∃ d c t view vResurrect s vDelete, AtFork context io node pindexNew c.reverse view ∧
        node.mapBlockIndex.Ancestry node.pindexBest (d ++ t) ∧
        node.mapBlockIndex.Ancestry (some pindexNew) (c ++ t) ∧ (∀ q ∈ c, q ∉ d ++ t) ∧
        disconnectBranch context io node.mapBlockIndex d node.pcoinsTip = .ok (view, vResurrect) ∧
        Connects context io c.reverse ⟨node.mapBlockIndex, view, node.wallets⟩ s ∧
        ∀ reorganise, (setBestChain context io reorganise state pindexNew).run node =
          (commit context io d c.reverse vResurrect pindexNew s.view vDelete).run
            (node.during s) := by
  obtain ⟨d, c, t, hplan, hbest, hlnew, hdisjoint, hnext⟩ := hnode.exists_branches hnew
  cases hdisconnect : disconnectBranch context io node.mapBlockIndex d node.pcoinsTip with
  | error failure =>
    refine Or.inl ⟨failure, fun reorganise => ?_⟩
    rw [setBestChain, run_get_bind, run_lift_bind_of_ok hplan]
    exact run_lift_bind_of_error hdisconnect _ _
  | ok forked =>
    obtain ⟨view, vResurrect⟩ := forked
    rcases connects_or_fails context io c.reverse ⟨node.mapBlockIndex, view, node.wallets⟩ with
      ⟨s, hconnects⟩ | ⟨done, h, rest, s, failure, tree, hsplit, hconnects, hfails⟩
    · obtain ⟨vDelete, hrun⟩ := hconnects.run_setBestChain state hplan hdisconnect
      exact Or.inr (Or.inr ⟨d, c, t, view, vResurrect, s, vDelete,
        ⟨d, vResurrect, hplan, hdisconnect⟩, hbest, hlnew, hdisjoint, hdisconnect, hconnects,
        hrun⟩)
    · have hmem : h ∈ c := by
        rw [← mem_reverse, hsplit]
        exact mem_append_right done mem_cons_self
      obtain ⟨pindex', hentry⟩ := hlnew.exists_of_mem (mem_append_left t hmem)
      obtain ⟨node', hrun⟩ := hconnects.run_setBestChain_error state hplan hdisconnect hsplit hnew
        hentry (hnext h hmem) hfails
      exact Or.inr (Or.inl ⟨done, h, rest, view, s, failure, tree, node',
        ⟨d, vResurrect, hsplit ▸ hplan, hdisconnect⟩, hconnects, hfails, hrun⟩)

/-- A call that succeeds moves the node to the block it was called for. -/
theorem setBestChain_consistent {node' : Node W} (hnode : node.Consistent)
    (hnew : node.mapBlockIndex pindexNew = some pindex)
    (hrun : (setBestChain context io reorganise state pindexNew).run node = (.ok (), node')) :
    node'.Consistent ∧ node'.pindexBest = some pindexNew ∧
      node.mapBlockIndex.SamePositions node'.mapBlockIndex := by
  rcases setBestChain_cases context io state hnode hnew with ⟨failure, hfails⟩ |
    ⟨_, _, _, _, _, _, _, _, -, -, -, hfails, -⟩ |
    ⟨d, c, t, view, vResurrect, s, vDelete, -, hbest, hlnew, -, hdisconnect, hconnects, hcommits⟩
  · rw [hfails reorganise] at hrun
    cases hrun
  · rw [hfails reorganise] at hrun
    cases hrun
  · rw [hcommits reorganise] at hrun
    obtain ⟨hconsistent, hpindexBest⟩ :=
      commit_agrees hnode hbest hlnew hdisconnect hconnects hrun
    obtain ⟨htree, -, -⟩ := commit_ok hrun
    refine ⟨hconsistent, hpindexBest, ?_⟩
    rw [htree]
    exact hconnects.marked.positions.trans (samePositions_updateLinks _ _ _)

end Whole

end Node

end Primecoin
