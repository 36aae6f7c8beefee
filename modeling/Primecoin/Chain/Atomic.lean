import Primecoin.Chain.Retarget
import Primecoin.Chain.Stages

/-!
# Is a change of the best block all or nothing?

A call of `SetBestChain` that returns `false` should leave the node as it was, and after any call
the coins, the best block and the links `pnext` should agree: `AllOrNothing`.

It fails at two places: the wallets hear of a block before the next one is tried, and the coins
are replaced before they are written to disk. `setBestChain_allOrNothing_iff` is the exact
condition.
-/

namespace Primecoin

open Backdated Except
namespace Node

variable {W : Type}

/-- A call that returns `false` changes nothing of the coins, the best block, the links, the pool
and the wallets, and after any return the coins and the links are those of the best block. -/
structure AllOrNothing (node : Node W) (outcome : Except Failure Unit × Node W) : Prop where
  unchanged : ∀ failure, outcome.1 = .error failure → failure.isReturn = true →
    outcome.2.pcoinsTip = node.pcoinsTip ∧ outcome.2.pindexBest = node.pindexBest ∧
      (∀ h, outcome.2.mapBlockIndex.next h = node.mapBlockIndex.next h) ∧
      outcome.2.mempool = node.mempool ∧ outcome.2.wallets = node.wallets
  agrees : (∀ failure, outcome.1 = .error failure → failure.isReturn = true) →
    outcome.2.pcoinsTip.best = outcome.2.pindexBest ∧
      outcome.2.mapBlockIndex.Followed outcome.2.pindexBest

/-- No wallet takes up a block of the new branch before a later one fails, and if all connect to a
new best block, writing the coins does not fail. -/
structure Committed (context : ChainContext W) (io : ChainIo) (state : CValidationState)
    (pindexNew : UInt256) (node : Node W) : Prop where
  wallets : ∀ done h rest view s failure tree,
    AtFork context io node pindexNew (done ++ h :: rest) view →
      Connects context io done ⟨node.mapBlockIndex, view, node.wallets⟩ s →
      connectFromDisk context io s.tree s.view h = (.error failure, tree) →
      failure.isReturn = true → ¬ ReportCrashes node.pindexBest state failure →
      s.wallets = node.wallets
  flush : ∀ vConnect view s, AtFork context io node pindexNew vConnect view →
    Connects context io vConnect ⟨node.mapBlockIndex, view, node.wallets⟩ s →
      io.flushFails node.pindexBest = true → node.pindexBest = some pindexNew

section Whole

variable {context : ChainContext W} {io : ChainIo} {reorganise : Stateful (Node W) Failure Unit}
  {state : CValidationState} {pindexNew : UInt256} {pindex : CBlockIndex} {node : Node W}
  {vDisconnect vConnect : List UInt256} {vResurrect : List CTransaction} {view : CCoinsView}

theorem Unmoved.allOrNothing {node' : Node W} {result : Except Failure Unit}
    (h : Unmoved node node') (hnode : node.Consistent)
    (hwallets : ∀ failure, result = .error failure → failure.isReturn = true →
      node'.wallets = node.wallets) : AllOrNothing node (result, node') where
  unchanged failure hresult hreturn :=
    ⟨h.pcoinsTip, h.pindexBest, h.next, h.mempool, hwallets failure hresult hreturn⟩
  agrees _ := ⟨(h.consistent hnode).best, (h.consistent hnode).main.followed⟩

theorem allOrNothing_of_avoids {outcome : Except Failure Unit × Node W}
    (havoids : Avoids Failure.isReturn outcome.1)
    (hok : outcome.1 = .ok () → outcome.2.pcoinsTip.best = outcome.2.pindexBest ∧
      outcome.2.mapBlockIndex.Followed outcome.2.pindexBest) : AllOrNothing node outcome where
  unchanged failure hfailure hreturn := by
    rw [havoids failure hfailure] at hreturn
    cases hreturn
  agrees hreturns := by
    cases hresult : outcome.1 with
    | ok => exact hok hresult
    | error failure =>
      have hreturn := hreturns failure hresult
      rw [havoids failure hresult] at hreturn
      cases hreturn

theorem committed_of_allOrNothing (hnode : node.Consistent)
    (hnew : node.mapBlockIndex pindexNew = some pindex)
    (hall : AllOrNothing node ((setBestChain context io reorganise state pindexNew).run node)) :
    Committed context io state pindexNew node := by
  obtain ⟨d, c, t, hplan, hbest, hlnew, -, hnext⟩ := hnode.exists_branches hnew
  constructor
  · rintro done h rest view s failure tree ⟨vDisconnect, vResurrect, hplan', hdisconnect⟩
      hconnects hfails hreturn hcrash
    have hmem : h ∈ c := by
      rw [hplan, ok.injEq, Prod.mk.injEq] at hplan'
      rw [← List.mem_reverse, hplan'.2]
      exact List.mem_append_right done List.mem_cons_self
    obtain ⟨pindex', hentry⟩ := hlnew.exists_of_mem (List.mem_append_left t hmem)
    obtain ⟨node', hrun, -, hwallets, -⟩ := hconnects.run_setBestChain_error state hplan'
      hdisconnect rfl hnew hentry (hnext h hmem) hfails
    rw [hrun, if_neg hcrash] at hall
    exact hwallets.symm.trans (hall.unchanged failure rfl hreturn).2.2.2.2
  · rintro vConnect view s ⟨vDisconnect, vResurrect, hplan', hdisconnect⟩ hconnects hfails
    obtain ⟨vDelete, hrun⟩ := hconnects.run_setBestChain state hplan' hdisconnect
    obtain ⟨message, hcommit⟩ := run_commit_of_fails context vDisconnect vConnect vResurrect
      pindexNew s.view vDelete (node.during s) hfails
    rw [hplan, ok.injEq, Prod.mk.injEq] at hplan'
    obtain ⟨rfl, rfl⟩ := hplan'
    rw [hrun, hcommit] at hall
    have hagrees := (hall.agrees fun failure hfailure => by cases hfailure; rfl).1
    exact hagrees.symm.trans (best_of_connects hnode hbest hlnew hdisconnect hconnects)

theorem Committed.allOrNothing (hcommitted : Committed context io state pindexNew node)
    (hnode : node.Consistent) (hnew : node.mapBlockIndex pindexNew = some pindex) :
    AllOrNothing node ((setBestChain context io reorganise state pindexNew).run node) := by
  rcases setBestChain_cases context io state hnode hnew with ⟨failure, hrun⟩ |
    ⟨done, h, rest, view, s, failure, tree, node', hfork, hconnects, hfails, hrun, hunmoved,
      hwallets, -⟩ |
    ⟨d, c, t, view, vResurrect, s, vDelete, hfork, hbest, hlnew, hdisjoint, hdisconnect,
      hconnects, hrun⟩
  · rw [hrun]
    exact (Unmoved.refl node).allOrNothing hnode fun _ _ _ => rfl
  · rw [hrun]
    refine hunmoved.allOrNothing hnode fun failure' hfailure' hreturn => ?_
    rw [error.injEq] at hfailure'
    split_ifs at hfailure' with hcrash
    · rw [← hfailure'] at hreturn
      cases hreturn
    · rw [← hfailure'] at hreturn
      exact hwallets.trans (hcommitted.wallets done h rest view s failure tree hfork hconnects
        hfails hreturn hcrash)
  · rw [hrun]
    cases hflush : io.flushFails node.pindexBest with
    | false =>
      refine allOrNothing_of_avoids (commit_avoids hflush) fun hok => ?_
      obtain ⟨hconsistent, -⟩ := commit_agrees hnode hbest hlnew hdisconnect hconnects
        (Prod.ext hok rfl)
      exact ⟨hconsistent.best, hconsistent.main.followed⟩
    | true =>
      -- the call has not moved anything: the new tip is the best block already
      rw [hcommitted.flush c.reverse view s hfork hconnects hflush] at hbest
      obtain ⟨rfl, rfl⟩ := branches_eq_nil hbest hlnew hdisjoint
      cases hdisconnect
      cases hconnects
      obtain ⟨message, hcommit⟩ := run_commit_of_fails context [] [] [] pindexNew
        node.pcoinsTip vDelete node hflush
      exact (congrArg (AllOrNothing node) hcommit).mpr
        ((Unmoved.refl node).allOrNothing hnode fun _ _ _ => rfl)

theorem setBestChain_allOrNothing_iff (hnode : node.Consistent)
    (hnew : node.mapBlockIndex pindexNew = some pindex) :
    AllOrNothing node ((setBestChain context io reorganise state pindexNew).run node) ↔
      Committed context io state pindexNew node :=
  ⟨committed_of_allOrNothing hnode hnew, fun hcommitted => hcommitted.allOrNothing hnode hnew⟩

end Whole

end Node

/-! A node of the test network at the genesis block, with two blocks on top of it in the index.
The wallets list the transactions they are told of. -/

namespace Backdated

def chainContext : ChainContext (List UInt256) where
  keys := Sample.keys
  connect := ⟨sha256d, .testNet, fun _ _ _ _ _ => false, 0, false, 1373366254, tree2⟩
  pool := ⟨.testNet, fun _ => false, fun _ _ => false, false, fun _ _ _ _ _ => false, tree2, .empty⟩
  depth := 1
  syncWithWallets wallets txid _ _ := wallets ++ [txid]
  setBestLocator wallets _ := wallets

def chainIo (fDiskSpace : Bool) : ChainIo where
  readBlock h := if h = hash1 then some block1 else none
  readUndo _ := none
  connect _ := ⟨.ok, .ok 8, .ok, .ok, .ok⟩
  fInitialDownload := false
  fCacheFull := false
  fDiskSpace := fDiskSpace
  flush := .ok

def node : Node (List UInt256) where
  mapBlockIndex := tree2
  pcoinsTip := ⟨fun _ => none, some (hashGenesisBlock .testNet)⟩
  pindexBest := some (hashGenesisBlock .testNet)
  mempool := .empty
  wallets := []
  setBlockIndexValid := [hashGenesisBlock .testNet, hash1, hash2]
  nBestInvalidWork := 0

theorem entry_hash1 : tree1 hash1 = some (newBlockIndex sha256d .testNet tree0 block1 ⟨0, 300⟩) := by
  decide

theorem rooted_tree2 : tree2.Rooted := by
  have hroot := BlockTree.rooted_genesisTree sha256d .testNet ⟨0, 8⟩
  have hprev : tree0 (hashGenesisBlock .testNet) = some (newBlockIndex sha256d .testNet
      (fun _ => none) (genesisBlock .testNet) ⟨0, 8⟩) := by
    decide
  have hroot1 : tree1.Rooted :=
    hroot.addToBlockIndex ⟨0, 300⟩ (by decide) hprev (by decide)
  exact hroot1.addToBlockIndex ⟨0, 500⟩ (by decide) entry_hash1 (by decide)

theorem next_tree2 (p : UInt256) : tree2.next p = none := by
  simp only [BlockTree.next, tree2, tree1, tree0, genesisTree, addToBlockIndex,
    Function.update_apply]
  split_ifs <;> rfl

theorem consistent_node : node.Consistent where
  rooted := rooted_tree2
  best := rfl
  main := by
    refine ⟨[hashGenesisBlock .testNet], ?_, fun p q => ?_⟩
    · exact .step (a := newBlockIndex sha256d .testNet (fun _ => none) (genesisBlock .testNet)
        ⟨0, 8⟩) (by decide) .root
    · have hprev : tree2.prev (hashGenesisBlock .testNet) = none := by decide
      constructor
      · intro hnext
        cases (next_tree2 p).symm.trans hnext
      · rintro ⟨hq, hp⟩
        rw [List.mem_singleton.mp hq] at hp
        cases hprev.symm.trans hp

end Backdated

/-- Without disk space the coins move to the first block and the best block does not. With disk
space and the second block unreadable, the call returns `false` after the wallets have heard of
the first. -/
theorem Node.setBestChain_not_allOrNothing :
    node.Consistent ∧ ¬ Node.AllOrNothing node ((Node.setBestChain chainContext
        (chainIo false) (pure ()) .init hash1).run node) ∧
      ¬ Node.AllOrNothing node ((Node.setBestChain chainContext
        (chainIo true) (pure ()) .init hash2).run node) := by
  refine ⟨consistent_node, fun hall => ?_, fun hall => ?_⟩
  · have hresult : ((Node.setBestChain chainContext (chainIo false) (pure ())
        .init hash1).run node).1 = .error (.abort "Error: Disk space is low!") := by
      decide
    have hbest := (hall.agrees fun failure hfailure => by
      rw [hresult] at hfailure
      cases hfailure
      rfl).1
    exact absurd hbest (by decide)
  · have hresult : ((Node.setBestChain chainContext (chainIo true) (pure ())
        .init hash2).run node).1 = .error (.abort "Failed to read block") := by
      decide
    exact absurd (hall.unchanged _ hresult rfl).2.2.2.2 (by decide)

/-- With disk space the first block becomes the best block. -/
theorem Node.setBestChain_allOrNothing_backdated :
    Node.AllOrNothing node ((Node.setBestChain chainContext
        (chainIo true) (pure ()) .init hash1).run node) ∧
      ((Node.setBestChain chainContext (chainIo true) (pure ()) .init
        hash1).run node).2.pindexBest = some hash1 := by
  have hnew : node.mapBlockIndex hash1 = some (newBlockIndex
      sha256d .testNet tree0 block1 ⟨0, 300⟩) := by
    decide
  refine ⟨(Node.setBestChain_allOrNothing_iff consistent_node hnew).mpr ⟨?_, ?_⟩, by decide⟩
  · rintro done h rest view s failure tree ⟨vDisconnect, vResurrect, hplan, -⟩ hconnects - - -
    have hbranch : node.mapBlockIndex.reorganization node.pcoinsTip.best
        hash1 = .ok ([], [hash1]) := by
      decide
    rw [hbranch, ok.injEq, Prod.mk.injEq] at hplan
    cases done with
    | nil =>
      cases hconnects
      rfl
    | cons k done => simp at hplan
  · intro vConnect view s _ _ hfails
    exact absurd hfails (by decide)

end Primecoin
