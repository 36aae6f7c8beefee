import Primecoin.Block.ConnectLoop
import Primecoin.Queue.Wait

/-!
# Script checks put off

With script check threads `ConnectBlock` hands the checks of every transaction to the check queue
and waits for them after the loop; without threads `CheckInputs` runs them on the spot. Whether
they pass decides nothing in between, so both ways connect the same blocks, with the same view,
undo data and index entry.
-/

namespace Primecoin

open CScriptCheck Except Stateful Sample
variable {verifyScript : VerifyScript}

namespace CScriptCheck

def Pass (verifyScript : VerifyScript) (vChecks : List CScriptCheck) : Prop :=
  ∀ check ∈ vChecks, check.run verifyScript = true

theorem pass_nil : Pass verifyScript [] := fun _ h => absurd h List.not_mem_nil

variable {vChecks : List CScriptCheck}

@[simp] theorem pass_cons {check : CScriptCheck} : Pass verifyScript (check :: vChecks) ↔
      check.run verifyScript = true ∧ Pass verifyScript vChecks :=
  List.forall_mem_cons

theorem pass_append {vChecks vChecks' : List CScriptCheck} :
    Pass verifyScript (vChecks ++ vChecks') ↔
      Pass verifyScript vChecks ∧ Pass verifyScript vChecks' :=
  List.forall_mem_append

theorem all_run_iff : vChecks.all (run verifyScript) = true ↔ Pass verifyScript vChecks :=
  List.all_eq_true

end CScriptCheck

open CScriptCheck (Pass)

namespace CTransaction

variable {tree : BlockTree} {tx : CTransaction} {view : CCoinsView} {flags : UInt32}

/-- Run on the spot, the scripts pass just when the checks put off do. -/
theorem checkInputScripts_follows (vin : List CTxIn) (i : ℕ) :
    Follows (Pass verifyScript) (fun _ => [])
      (checkInputScripts verifyScript tx view flags false vin i)
      (checkInputScripts verifyScript tx view flags true vin i) := by
  induction vin generalizing i with
  | nil => exact follows_ok pass_nil
  | cons txin vin ih =>
    simp only [checkInputScripts, Bool.false_eq_true, if_false, if_true]
    refine .after _ fun coins => ?_
    cases coins.vout[txin.prevout.n.toNat]? with
    | none => exact follows_error _ _
    | some txout =>
      by_cases hrun : run verifyScript ⟨txout.scriptPubKey, tx, i, flags⟩ = true
      · dsimp only
        rw [if_pos hrun, ← bind_pure (checkInputScripts verifyScript tx view flags false vin _)]
        refine (ih (i + 1)).bind (fun vChecks hpass => ?_) fun vChecks vChecks' h hpass => ?_
        · exact follows_ok (pass_cons.mpr ⟨hrun, hpass⟩)
        · cases h
          exact (pass_cons.mp hpass).2
      · have hfails : ∀ vChecks, (checkInputScripts verifyScript tx view flags true vin (i + 1)
            >>= fun vChecks => ok (⟨txout.scriptPubKey, tx, i, flags⟩ :: vChecks)) =
              .ok vChecks → ¬ Pass verifyScript vChecks := by
          intro vChecks h hpass
          obtain ⟨rest, -, hrest⟩ := bind_eq_ok_iff.mp h
          cases hrest
          exact hrun (pass_cons.mp hpass).1
        dsimp only
        rw [if_neg hrun]
        split_ifs
        · exact follows_error_of_not_good hfails
        · exact follows_error_of_not_good hfails

theorem checkInputs_follows : Follows (Pass verifyScript) (fun _ => [])
    (checkInputs verifyScript tree tx view flags false)
    (checkInputs verifyScript tree tx view flags true) := by
  rw [checkInputs, checkInputs]
  refine .ite (fun _ => follows_ok pass_nil) fun _ => .after _ fun fHave => ?_
  refine .guard fun _ => ?_
  cases view.best.bind tree with
  | none => exact follows_error _ _
  | some pindexBest =>
    refine .after _ fun nValueIn => .after _ fun nValueOut => ?_
    refine .guard fun _ => ?_
    refine .guard fun _ => ?_
    refine .guard fun _ => ?_
    refine .guard fun _ => ?_
    exact checkInputScripts_follows tx.vin 0

end CTransaction

namespace ConnectState

def inline (st : ConnectState) : ConnectState := { st with vChecks := [] }

end ConnectState

namespace CBlock

variable {context : ConnectContext} {pindex : CBlockIndex} {st st' : ConnectState}

def inlineContext (context : ConnectContext) : ConnectContext :=
  { context with nScriptCheckThreads := 0 }

def Passing (context : ConnectContext) (st : ConnectState) : Prop :=
  Pass context.verifyScript st.vChecks

theorem tallyInputs_follows (hthreads : context.nScriptCheckThreads ≠ 0) (tx : CTransaction)
    (hst : Passing context st) :
    Follows (Passing context) ConnectState.inline
      (tallyInputs (inlineContext context) pindex tx st.inline)
      (tallyInputs context pindex tx st) := by
  rw [tallyInputs, tallyInputs]
  refine .after _ fun fHave => .guard fun _ => ?_
  refine .after _ fun nP2SH => .guard fun _ => ?_
  refine .after _ fun nTxValueIn => .after _ fun nTxValueOut => ?_
  have hdefer : decide (context.nScriptCheckThreads ≠ 0) = true := decide_eq_true hthreads
  rw [hdefer]
  refine CTransaction.checkInputs_follows.bind (fun vChecks hpass => ?_) fun vChecks st' h hst' => ?_
  · exact @follows_ok _ _ _ (Passing context) ConnectState.inline { st with
        nSigOps := st.nSigOps + nP2SH
        nValueIn := st.nValueIn + nTxValueIn
        nValueOut := st.nValueOut + nTxValueOut
        nFees := st.nFees + (nTxValueIn - nTxValueOut)
        vChecks := st.vChecks ++ vChecks } (pass_append.mpr ⟨hst, hpass⟩)
  · cases h
    exact (pass_append.mp hst').2

theorem tallyTransaction_follows (hthreads : context.nScriptCheckThreads ≠ 0) (tx : CTransaction)
    (hst : Passing context st) :
    Follows (Passing context) ConnectState.inline
      (tallyTransaction (inlineContext context) pindex tx st.inline)
      (tallyTransaction context pindex tx st) := by
  rw [tallyTransaction, tallyTransaction]
  refine .ite (fun _ => .after _ fun nValueOut => ?_) fun _ => tallyInputs_follows hthreads tx hst
  exact @follows_ok _ _ _ (Passing context) ConnectState.inline
    { st with nValueOut := st.nValueOut + nValueOut } hst

theorem vChecks_tallyTransaction {tx : CTransaction}
    (h : tallyTransaction context pindex tx st = .ok st') : ∃ vChecks,
      st'.vChecks = st.vChecks ++ vChecks := by
  rw [tallyTransaction] at h
  split_ifs at h
  · obtain ⟨nValueOut, -, h⟩ := bind_eq_ok_iff.mp h
    cases h
    exact ⟨[], (List.append_nil _).symm⟩
  · simp only [tallyInputs, bind_eq_ok_iff, ite_error_eq_ok_iff] at h
    obtain ⟨fHave, -, -, nP2SH, -, -, nTxValueIn, -, nTxValueOut, -, vChecks, -, h⟩ := h
    cases h
    exact ⟨vChecks, rfl⟩

theorem connectTransaction_follows (hthreads : context.nScriptCheckThreads ≠ 0)
    (tx : CTransaction × UInt256) (hst : Passing context st) :
    Follows (Passing context) ConnectState.inline
      (connectTransaction (inlineContext context) pindex st.inline tx)
      (connectTransaction context pindex st tx) := by
  rw [connectTransaction, connectTransaction]
  refine .guard fun _ => ?_
  have hcounted : ∀ nSigOps, Passing context { st with nSigOps := nSigOps } := fun _ => hst
  refine (tallyTransaction_follows hthreads tx.1 (hcounted _)).bind
    (fun st₁ hst₁ => .after _ fun updated => ?_) fun st₁ st' h hst' => ?_
  · exact @follows_ok _ _ _ (Passing context) ConnectState.inline { st₁ with
        view := updated.1
        vtxundo := if tx.1.isCoinBase then st₁.vtxundo else st₁.vtxundo ++ [updated.2]
        pos := { st₁.pos with nTxOffset := st₁.pos.nTxOffset + tx.1.getSerializeSize }
        vPos := st₁.vPos ++ [(tx.2, st₁.pos)] } hst₁
  · obtain ⟨updated, -, h⟩ := bind_eq_ok_iff.mp h
    cases h
    exact hst'

theorem Passing.of_connectTransaction {tx : CTransaction × UInt256}
    (h : connectTransaction context pindex st tx = .ok st') (hst' : Passing context st') :
    Passing context st := by
  simp only [connectTransaction, ite_error_eq_ok_iff, bind_eq_ok_iff] at h
  obtain ⟨-, st₁, htally, updated, -, h⟩ := h
  obtain ⟨vChecks, hvChecks⟩ := vChecks_tallyTransaction htally
  cases h
  rw [Passing, hvChecks] at hst'
  exact (pass_append.mp hst').1

theorem connectTransactions_follows (hthreads : context.nScriptCheckThreads ≠ 0) (block : CBlock)
    (view : CCoinsView) :
    Follows (Passing context) ConnectState.inline
      (connectTransactions (inlineContext context) block pindex view)
      (connectTransactions context block pindex view) := by
  rw [connectTransactions, connectTransactions]
  refine .guard fun _ => ?_
  have hstart : Passing context (connectStart block pindex view) := pass_nil
  exact Follows.foldlM (fun st tx hst => connectTransaction_follows hthreads tx hst)
    (fun st tx st' h hst' => Passing.of_connectTransaction h hst') hstart
    (block.txWithHashes context.hash)

/-- Once the checks put off pass, nothing after the loop tells the ways apart. -/
theorem finishConnect_of_passing (hst : Passing context st) (io : ConnectIo) (block : CBlock)
    (fJustCheck : Bool) : finishConnect context io block st fJustCheck =
      finishConnect (inlineContext context) io block st.inline fJustCheck := by
  have hreward : ∀ pindex, checkReward context block pindex st =
      checkReward (inlineContext context) block pindex st.inline := by
    intro pindex
    have hall : st.vChecks.all (run context.verifyScript) = true :=
      all_run_iff.mpr hst
    rw [checkReward, checkReward, hall]
    rfl
  rw [finishConnect, finishConnect]
  simp only [hreward]
  rfl

theorem passing_of_finishConnect {io : ConnectIo} {block : CBlock} {fJustCheck : Bool}
    {connected : Connected} {pindex' : CBlockIndex}
    (h : (finishConnect context io block st fJustCheck).run pindex = (.ok connected, pindex')) :
    Passing context st := by
  obtain ⟨_, pindex₁, -, h⟩ := run_bind_eq_ok_iff.mp h
  rw [run_get_bind] at h
  obtain ⟨_, pindex₂, hreward, -⟩ := run_bind_eq_ok_iff.mp h
  rw [run_lift, Prod.mk.injEq] at hreward
  have hok := hreward.1
  rw [checkReward] at hok
  cases hvtx : block.vtx with
  | nil => rw [hvtx] at hok; cases hok
  | cons coinbase vtx =>
    rw [hvtx] at hok
    obtain ⟨nValueOut, -, hok⟩ := bind_eq_ok_iff.mp hok
    obtain ⟨-, hok⟩ := ite_error_eq_ok_iff.mp hok
    obtain ⟨hall, -⟩ := ite_error_eq_ok_iff.mp hok
    rw [Bool.not_eq_true, Bool.not_eq_false'] at hall
    exact all_run_iff.mp hall

/-- Checks put off and checks run on the spot connect the same blocks, with the same result and
index entry. -/
theorem connectBlock_threads_iff (hthreads : 0 < context.nScriptCheckThreads) (io : ConnectIo)
    (block : CBlock) (view : CCoinsView) (fJustCheck : Bool) :
    (∀ (n : ℕ) (events : List (CheckEvent (Fin n) CScriptCheck)) s fRet
      (vChecks : List CScriptCheck),
      Machine.run (CheckPool.step (run context.verifyScript)) (.new 128) events =
          some s → s.threads none = .returned fRet → s.finished.added = vChecks →
        fRet = vChecks.all (run context.verifyScript)) ∧
    ∀ connected pindex',
      (block.connectBlock context io view fJustCheck).run pindex = (.ok connected, pindex') ↔
        (block.connectBlock { context with nScriptCheckThreads := 0 } io view fJustCheck).run
          pindex = (.ok connected, pindex') := by
  refine ⟨fun n events s fRet vChecks hrun hret hadded => ?_, fun connected pindex' => ?_⟩
  · have hjudged := ((CheckPool.coherent_run hrun).phased.returned fRet hret).1
    rw [Bool.eq_iff_iff, hjudged, hadded, List.all_eq_true]
    rfl
  rw [connectBlock, connectBlock]
  cases block.checkBlock context.hash context.nAdjustedTime (!fJustCheck) (!fJustCheck) with
  | error failure =>
    rw [run_lift_bind_of_error rfl, run_lift_bind_of_error rfl]
  | ok checked =>
    rw [run_lift_bind_of_ok rfl, run_lift_bind_of_ok rfl, run_get_bind, run_get_bind]
    split_ifs
    · rfl
    · rfl
    · have hloop := @connectTransactions_follows context pindex hthreads.ne' block view
      change _ ↔ (lift (connectTransactions (inlineContext context) block pindex view) >>= fun st =>
        finishConnect (inlineContext context) io block st fJustCheck).run pindex = _
      simp only [run_bind_eq_ok_iff, run_lift, Prod.mk.injEq]
      constructor
      · rintro ⟨st, _, ⟨hst, rfl⟩, h⟩
        have hpass := passing_of_finishConnect h
        rw [finishConnect_of_passing hpass] at h
        exact ⟨st.inline, pindex, ⟨(hloop _).mpr ⟨st, hst, hpass, rfl⟩, rfl⟩, h⟩
      · rintro ⟨_, _, ⟨hinline, rfl⟩, h⟩
        obtain ⟨st, hst, hpass, rfl⟩ := (hloop _).mp hinline
        rw [← finishConnect_of_passing hpass] at h
        exact ⟨st, pindex, ⟨hst, rfl⟩, h⟩

/-- The sample block, whose second transaction spends a coin, with three threads. -/
theorem connectBlock_threads_sample : ∃ connected pindex',
    (block.connectBlock { connectContext with nScriptCheckThreads := 3 }
      connectIo view false).run pindexBlock = (.ok connected, pindex') ∧
    (block.connectBlock connectContext connectIo view false).run
      pindexBlock = (.ok connected, pindex') := by
  obtain ⟨connected, hinline⟩ := exists_run_eq_ok connects_block
  have hthreads : 0 < { connectContext with nScriptCheckThreads := 3 }.nScriptCheckThreads :=
    Nat.zero_lt_succ 2
  exact ⟨connected, _, ((connectBlock_threads_iff hthreads connectIo block
    view false).2 connected _).mpr hinline, hinline⟩

end CBlock

end Primecoin
