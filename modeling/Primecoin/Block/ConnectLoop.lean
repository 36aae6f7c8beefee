import Primecoin.Block.Connect

/-!
# The loop over the transactions of a block

`Turn` says everything one turn of the loop does to the view and the sums, and `Turns` is a run of
the loop. Two results on whole blocks follow: the loop rule `Turns.preserves`, and that no
assertion is reached, since an input is spent only after `HaveInputs` has found it and no other
input of the transaction spends the same output.
-/

namespace Primecoin

open CTransaction List Stateful Except Sample CBlockIndex

namespace CBlock

structure Turn (pindex : CBlockIndex) (tx : CTransaction × UInt256) (st st' : ConnectState) :
    Prop where
  available : InputsAvailable st.view tx.1.spentInputs
  updates : ∃ vprevout, tx.1.updateCoins st.view pindex.nHeight tx.2 = .ok (st'.view, vprevout) ∧
    st'.vtxundo = if tx.1.isCoinBase then st.vtxundo else st.vtxundo ++ [vprevout]
  sums : ∃ nTxValueIn nTxValueOut : Int64, nTxValueIn.toInt = tx.1.valueIn st.view ∧
    nTxValueOut.toInt = tx.1.valueOut ∧ st'.nValueIn = st.nValueIn + nTxValueIn ∧
    st'.nValueOut = st.nValueOut + nTxValueOut ∧
    st'.nFees = if tx.1.isCoinBase then st.nFees else st.nFees + (nTxValueIn - nTxValueOut)
  paid : tx.1.isCoinBase = false → tx.1.valueOut ≤ tx.1.valueIn st.view

section Turn

variable {context : ConnectContext} {pindex : CBlockIndex} {tx : CTransaction × UInt256}
  {st st' : ConnectState}

theorem tallyTransaction_ok {tx : CTransaction} (hchecked : tx.Checked)
    (h : tallyTransaction context pindex tx st = .ok st') :
    InputsAvailable st.view tx.spentInputs ∧
      (tx.isCoinBase = false → tx.valueOut ≤ tx.valueIn st.view) ∧
      ∃ nTxValueIn nTxValueOut nSigOps vChecks, nTxValueIn.toInt = tx.valueIn st.view ∧
        nTxValueOut.toInt = tx.valueOut ∧
        st' = { st with
          nSigOps := nSigOps
          nValueIn := st.nValueIn + nTxValueIn
          nValueOut := st.nValueOut + nTxValueOut
          nFees := if tx.isCoinBase then st.nFees else st.nFees + (nTxValueIn - nTxValueOut)
          vChecks := vChecks } := by
  obtain ⟨total, htotal, hvalue, -⟩ := hchecked.getValueOut_eq
  cases htx : tx.isCoinBase with
  | true =>
    simp only [tallyTransaction, htx, if_true, htotal, ok_bind, ok.injEq] at h
    refine ⟨by simp [InputsAvailable, spentInputs, htx], by simp, 0, total, st.nSigOps,
      st.vChecks, by simp [valueIn, htx], hvalue, ?_⟩
    rw [← h]
    simp
  | false =>
    simp only [tallyTransaction, tallyInputs, htx, Bool.false_eq_true, if_false, bind_eq_ok_iff,
      ite_error_eq_ok_iff] at h
    obtain ⟨_, -, -, nP2SH, -, -, nTxValueIn, hin, nTxValueOut, hout, vChecks, hchecks, hst⟩ := h
    obtain ⟨havail, nIn, nOut, hin', hsum, -, hout', hle⟩ := checkInputs_ok htx hchecks
    cases hin.symm.trans hin'
    cases hout.symm.trans hout'
    cases hout.symm.trans htotal
    rw [← hvalue, ← hsum]
    exact ⟨by simpa [spentInputs, htx] using havail, fun _ => hle, _, _, _, _, rfl, rfl,
      by simpa using (ok.inj hst).symm⟩

theorem connectTransaction_ok (hchecked : tx.1.Checked)
    (h : connectTransaction context pindex st tx = .ok st') : Turn pindex tx st st' := by
  simp only [connectTransaction, ite_error_eq_ok_iff, bind_eq_ok_iff, Prod.exists] at h
  obtain ⟨-, mid, htally, view, vprevout, hupdate, hst⟩ := h
  obtain ⟨havail, hle, nTxValueIn, nTxValueOut, nSigOps, vChecks, hin, hout, hmid⟩ :=
    tallyTransaction_ok hchecked htally
  subst hmid
  rw [← ok.inj hst]
  exact ⟨havail, ⟨vprevout, hupdate, rfl⟩, ⟨nTxValueIn, nTxValueOut, hin, hout, rfl, rfl, rfl⟩, hle⟩

theorem Turn.best_eq (h : Turn pindex tx st st') : st'.view.best = st.view.best := by
  obtain ⟨vprevout, hupdate, -⟩ := h.updates
  exact best_updateCoins hupdate

theorem Turn.vacant (h : Turn pindex tx st st') (hchecked : tx.1.Checked)
    (hvacant : st.view.Vacant tx.2) {txid : UInt256} (hne : txid ≠ tx.2)
    (hother : st.view.Vacant txid) : st'.view.Vacant txid := by
  obtain ⟨vprevout, hupdate, -⟩ := h.updates
  exact (updateCoins_ok hchecked h.available hvacant hupdate).2 txid hne hother

/-- A run of the loop. Every turn finds the id of its transaction vacant. -/
inductive Turns (pindex : CBlockIndex) :
    List (CTransaction × UInt256) → ConnectState → ConnectState → Prop
  | nil (st : ConnectState) : Turns pindex [] st st
  | cons {tx : CTransaction × UInt256} {txs : List (CTransaction × UInt256)}
      {st next st' : ConnectState} (checked : tx.1.Checked) (vacant : st.view.Vacant tx.2)
      (turn : Turn pindex tx st next) (rest : Turns pindex txs next st') :
      Turns pindex (tx :: txs) st st'

variable {txs : List (CTransaction × UInt256)}

theorem turns_of_foldlM (hchecked : ∀ tx ∈ txs, tx.1.Checked) (hnodup : (txs.map Prod.snd).Nodup)
    (hvacant : ∀ tx ∈ txs, st.view.Vacant tx.2)
    (h : txs.foldlM (connectTransaction context pindex) st = .ok st') :
    Turns pindex txs st st' := by
  induction txs generalizing st with
  | nil =>
    cases h
    exact .nil _
  | cons tx txs ih =>
    rw [foldlM_cons, bind_eq_ok_iff] at h
    obtain ⟨next, hnext, hrest⟩ := h
    rw [map_cons, nodup_cons] at hnodup
    have hturn := connectTransaction_ok (hchecked tx (by simp)) hnext
    have htx := hvacant tx (by simp)
    refine .cons (hchecked tx (by simp)) htx hturn
      (ih (fun other hother => hchecked other (mem_cons_of_mem _ hother)) hnodup.2 ?_ hrest)
    intro other hother
    have hne : other.2 ≠ tx.2 := fun heq => hnodup.1 (heq ▸ mem_map_of_mem hother)
    exact hturn.vacant (hchecked tx (by simp)) htx hne (hvacant other (mem_cons_of_mem _ hother))

/-- The loop rule: what every turn preserves holds at the end of the loop. -/
theorem Turns.preserves {motive : ConnectState → Prop} (h : Turns pindex txs st st')
    (hstep : ∀ st, ∀ tx ∈ txs, ∀ st', tx.1.Checked → st.view.Vacant tx.2 →
      Turn pindex tx st st' → motive st → motive st') (hst : motive st) : motive st' := by
  induction h with
  | nil st => exact hst
  | cons hchecked hvacant hturn hrest ih =>
    exact ih (fun st other hother => hstep st other (mem_cons_of_mem _ hother))
      (hstep _ _ (by simp) _ hchecked hvacant hturn hst)

theorem Turn.spends_unspent (h : Turn pindex tx st st') {vpre vpost : List CTxIn} {txin : CTxIn}
    (hvin : tx.1.spentInputs = vpre ++ txin :: vpost) (hchecked : tx.1.Checked) :
    ∃ now vprevout txout, spendInputs st.view vpre = .ok (now, vprevout) ∧
      now.output txin.prevout = some txout := by
  have hnodup := hchecked.nodup_spentInputs
  have havail := h.available
  rw [hvin] at hnodup havail
  rw [map_append, map_cons, nodup_append] at hnodup
  obtain ⟨now, vprevout, hnow⟩ := spendInputs_returns
    (fun other hother => havail other (mem_append_left _ hother)) hnodup.1
  obtain ⟨txout, hout⟩ := havail txin (by simp)
  refine ⟨now, vprevout, txout, hnow, ?_⟩
  rw [output_spendInputs hnow, if_neg, hout]
  exact fun hmem => hnodup.2.2 _ hmem _ (by simp) rfl

end Turn

variable {hash : Bytes → UInt256} {block : CBlock}

theorem txWithHashes_eq (hash : Bytes → UInt256) (block : CBlock) :
    block.txWithHashes hash = block.vtx.map fun tx => (tx, tx.getHash hash) :=
  zip_buildMerkleTree block.vtx

theorem Checked.of_mem_txWithHashes
    (h : block.Checked hash) : ∀ tx ∈ block.txWithHashes hash, tx.1.Checked := by
  intro tx htx
  rw [txWithHashes_eq] at htx
  obtain ⟨tx, hmem, rfl⟩ := mem_map.mp htx
  exact h.checked tx hmem

theorem Checked.nodup_txWithHashes
    (h : block.Checked hash) : ((block.txWithHashes hash).map Prod.snd).Nodup := by
  rw [txWithHashes_eq, map_map]
  exact h.nodup

theorem vacant_of_not_overwrites {view : CCoinsView}
    (h : block.overwrites hash view = false) : ∀ tx ∈ block.txWithHashes hash,
      view.Vacant tx.2 := by
  intro tx htx coins hcoins
  have htx := any_eq_false.mp h tx htx
  simpa [hcoins] using htx

theorem turns_of_connectTransactions {context : ConnectContext}
    {pindex : CBlockIndex} {view : CCoinsView} {st : ConnectState}
    (hchecked : block.Checked context.hash) (hexempt : isBip30Exempt pindex = false)
    (h : connectTransactions context block pindex view = .ok st) :
    Turns pindex (block.vtx.map fun tx => (tx, tx.getHash context.hash))
      (connectStart block pindex view) st := by
  simp only [connectTransactions, hexempt, Bool.not_false, Bool.true_and,
    ite_error_eq_ok_iff, Bool.not_eq_true] at h
  rw [← txWithHashes_eq]
  exact turns_of_foldlM hchecked.of_mem_txWithHashes hchecked.nodup_txWithHashes
    (vacant_of_not_overwrites h.1) h.2

/-! ## No assertion is reached -/

section Avoids

variable {bad : Failure → Bool} {context : ConnectContext} {pindex : CBlockIndex}
  {st : ConnectState}

variable (hbad : ∀ f, f.isCrash = false → bad f = false)
include hbad

theorem tallyTransaction_avoids (hbest : bad (.fault "inputs.GetBestBlock()->nHeight") = true →
      ∃ pindex, st.view.best.bind context.tree = some pindex) (tx : CTransaction) :
    Avoids bad (tallyTransaction context pindex tx st) := by
  unfold tallyTransaction
  refine Avoids.ite
    (fun _ => (getValueOut_avoids hbad tx).bind fun _ _ => avoids_ok _) fun htx => ?_
  rw [Bool.not_eq_true] at htx
  rw [tallyInputs, haveInputs_eq_ok htx, ok_bind]
  refine Avoids.guard (hbad _ rfl) fun hhave => ?_
  have havail : InputsAvailable st.view tx.vin := by
    rw [Bool.not_eq_true, Bool.not_eq_false'] at hhave
    rw [← haveInputs_eq_true_iff htx, haveInputs_eq_ok htx, hhave]
  obtain ⟨nP2SH, hP2SH⟩ : ∃ nSigOps, p2shSigOps pindex tx st.view = .ok nSigOps := by
    unfold p2shSigOps
    split_ifs
    · exact getP2SHSigOpCount_returns htx havail
    · exact ⟨0, rfl⟩
  obtain ⟨nTxValueIn, hin⟩ := getValueIn_returns htx havail
  rw [hP2SH, hin, ok_bind, ok_bind]
  exact Avoids.guard (hbad _ rfl) fun _ =>
    (getValueOut_avoids hbad tx).bind fun _ _ =>
      (checkInputs_avoids hbad context.verifyScript tx _ _ hbest).bind fun _ _ =>
        avoids_ok _

theorem connectTransaction_avoids (hbest : bad (.fault "inputs.GetBestBlock()->nHeight") = true →
      ∃ pindex, st.view.best.bind context.tree = some pindex)
    {tx : CTransaction × UInt256} (hchecked : tx.1.Checked) :
    Avoids bad (connectTransaction context pindex st tx) := by
  unfold connectTransaction
  refine Avoids.guard (hbad _ rfl) fun _ => ?_
  have htally : Avoids bad (tallyTransaction context pindex tx.1
      { st with nSigOps := st.nSigOps + tx.1.getLegacySigOpCount }) := by
    refine tallyTransaction_avoids hbad ?_ tx.1
    exact hbest
  refine htally.bind fun mid hmid => ?_
  obtain ⟨havail, -, _, _, _, _, -, -, hmid⟩ := tallyTransaction_ok hchecked hmid
  obtain ⟨view, vprevout, hupdate⟩ :=
    updateCoins_returns pindex.nHeight tx.2 hchecked havail
  have hsame : mid.view = st.view := by rw [hmid]
  rw [hsame, hupdate, ok_bind]
  exact avoids_ok _

theorem connectTransactions_avoids {block : CBlock} {view : CCoinsView}
    (hbest : bad (.fault "inputs.GetBestBlock()->nHeight") = true →
      ∃ pindex, view.best.bind context.tree = some pindex)
    (hchecked : ∀ tx ∈ block.vtx, tx.Checked) :
    Avoids bad (connectTransactions context block pindex view) := by
  unfold connectTransactions
  refine Avoids.guard (hbad _ rfl) fun _ => ?_
  have hmem : ∀ tx ∈ block.txWithHashes context.hash, tx.1.Checked := by
    rintro ⟨tx, txid⟩ htx
    exact hchecked tx (of_mem_zip htx).1
  refine avoids_foldlM (motive := fun st : ConnectState => st.view.best = view.best) ?_ ?_ rfl
  · intro st tx htx hst
    exact connectTransaction_avoids hbad (hst ▸ hbest) (hmem tx htx)
  · intro st tx htx st' hst h
    rw [(connectTransaction_ok (hmem tx htx) h).best_eq, hst]

theorem avoids_orAbort (message : String) (result : IoResult) :
    Avoids bad (result.orAbort message) := by
  cases result with
  | ok => exact avoids_ok _
  | fails => exact avoids_error (hbad _ rfl)
  | throws what => exact avoids_error (hbad _ rfl)

variable (io : ConnectIo)

theorem placeUndo_avoids
    (hparent : bad (.fault "pindex->pprev->GetBlockHash()") = true → pindex.pprev ≠ none) :
    Avoids bad ((placeUndo io).run pindex).1 := by
  unfold placeUndo
  rw [run_get_bind]
  split
  · refine avoids_bind ?_ fun nPos s' hpos => ?_
    · rw [run_lift]
      cases io.findUndoPos with
      | ok nPos => exact avoids_ok _
      | error failure => cases failure <;> exact avoids_error (hbad _ rfl)
    · split_ifs with hnone
      · refine avoids_error ?_
        rw [← Bool.not_eq_true]
        exact fun hfault => hparent hfault hnone
      · refine avoids_bind ?_ fun _ _ _ => avoids_ok _
        exact Avoids.guard (hbad _ rfl) fun _ => avoids_orAbort hbad _ io.writeUndo
  · exact avoids_ok _

theorem storeUndo_avoids
    (hparent : bad (.fault "pindex->pprev->GetBlockHash()") = true → pindex.pprev ≠ none) :
    Avoids bad ((storeUndo io).run pindex).1 := by
  unfold storeUndo
  rw [run_get_bind]
  split_ifs
  · refine avoids_bind (placeUndo_avoids hbad io hparent) fun _ _ _ => ?_
    rw [run_modify_bind]
    exact avoids_orAbort hbad _ io.writeBlockIndex
  · exact avoids_ok _

theorem recordMoneySupply_avoids (st : ConnectState) (fJustCheck : Bool)
    (hparent : bad (.fault "pindex->pprev->nMoneySupply") = true → ∀ p, pindex.pprev = some p →
      ∃ parent, context.tree p = some parent) :
    Avoids bad ((recordMoneySupply context io st fJustCheck).run pindex).1 := by
  unfold recordMoneySupply
  split_ifs
  · exact avoids_ok _
  · rw [run_get_bind]
    refine avoids_bind ?_ fun _ _ _ => ?_
    · rw [run_lift, parentMoneySupply]
      split
      · exact avoids_ok _
      · rename_i p hp
        split
        · rename_i hnone
          refine avoids_error ?_
          rw [← Bool.not_eq_true]
          intro hfault
          obtain ⟨parent, hfound⟩ := hparent hfault p hp
          rw [hnone] at hfound
          cases hfound
        · exact avoids_ok _
    · rw [run_modify_bind]
      exact avoids_orAbort hbad _ io.writeMoneySupply

theorem checkReward_avoids {block : CBlock} (hvtx : block.vtx ≠ []) (st : ConnectState) :
    Avoids bad (checkReward context block pindex st) := by
  unfold checkReward
  cases hblock : block.vtx with
  | nil => exact absurd hblock hvtx
  | cons coinbase rest =>
    exact (getValueOut_avoids hbad coinbase).bind fun _ _ =>
      Avoids.guard (hbad _ rfl) fun _ =>
        Avoids.guard (hbad _ rfl) fun _ =>
          avoids_ok _

end Avoids

/-! ## The index entry -/

section Frame

variable {γ : Type} {f : CBlockIndex → γ}

/-- A part of an index entry that storing the undo data does not write. -/
structure UndoUnwritten (f : CBlockIndex → γ) : Prop where
  undo : ∀ pindex nUndoPos, f { pindex with
    nUndoPos := nUndoPos
    nStatus := pindex.nStatus ||| blockHaveUndo } = f pindex
  valid : ∀ pindex, f { pindex with
    nStatus := pindex.nStatus &&& ~~~blockValidMask ||| blockValidScripts } = f pindex

/-- A part that `ConnectBlock` does not write, which also sets the money supply. -/
structure Unwritten (f : CBlockIndex → γ) : Prop extends UndoUnwritten f where
  supply : ∀ pindex nMoneySupply, f { pindex with nMoneySupply := nMoneySupply } = f pindex

theorem keeps_recordMoneySupply (hf : Unwritten f) (context : ConnectContext) (io : ConnectIo)
    (st : ConnectState) (fJustCheck : Bool) :
    Stateful.Keeps f (recordMoneySupply context io st fJustCheck) := by
  unfold recordMoneySupply
  split_ifs
  · exact keeps_pure _
  · exact keeps_get.bind fun _ => (keeps_lift _).bind fun _ =>
      (keeps_modify fun pindex => hf.supply pindex _).bind fun _ => keeps_lift _

theorem keeps_storeUndo (hf : UndoUnwritten f) (io : ConnectIo) :
    Stateful.Keeps f (storeUndo io) := by
  have hplace : Stateful.Keeps f (placeUndo io) := by
    refine keeps_get.bind fun pindex => ?_
    split
    · refine (keeps_lift _).bind fun nPos => ?_
      split_ifs
      · exact keeps_lift _
      · exact (keeps_lift _).bind fun _ =>
          keeps_modify fun pindex => hf.undo pindex nPos
    · exact keeps_pure _
  refine keeps_get.bind fun pindex => ?_
  split_ifs
  · exact hplace.bind fun _ => (keeps_modify hf.valid).bind fun _ => keeps_lift _
  · exact keeps_pure _

theorem keeps_connectBlock (hf : Unwritten f) (context : ConnectContext) (io : ConnectIo)
    (block : CBlock) (view : CCoinsView) (fJustCheck : Bool) :
    Stateful.Keeps f (connectBlock context io block view fJustCheck) := by
  refine (keeps_lift _).bind fun _ => keeps_get.bind fun pindex => ?_
  split
  · exact keeps_lift _
  · split
    · exact keeps_pure _
    · refine (keeps_lift _).bind fun st =>
        (keeps_recordMoneySupply hf context io st fJustCheck).bind fun _ =>
          keeps_get.bind fun _ => (keeps_lift _).bind fun _ => ?_
      split
      · exact keeps_pure _
      · exact (keeps_storeUndo hf.toUndoUnwritten io).bind fun _ =>
          (keeps_lift _).bind fun _ => keeps_pure _

end Frame

/-! ## What a connected block has passed -/

section Connected

variable {context : ConnectContext} {io : ConnectIo} {block : CBlock} {view : CCoinsView}
  {pindex pindex' : CBlockIndex} {connected : Connected}

theorem placeUndo_ok (h : (placeUndo io).run pindex = (.ok (), pindex')) :
    pindex'.getUndoPos.isNull = false := by
  rw [placeUndo, run_get_bind] at h
  split_ifs at h with hnull hgenesis
  · simp [run_bind_eq_ok_iff] at h
  · simp only [run_bind_eq_ok_iff, run_lift, run_modify, Prod.mk.injEq] at h
    obtain ⟨nPos, _, ⟨-, rfl⟩, _, _, ⟨hwrite, rfl⟩, -, rfl⟩ := h
    rw [ConnectIo.writeUndoAt, ite_error_eq_ok_iff] at hwrite
    have hhave : (pindex.nStatus ||| blockHaveUndo) &&& blockHaveUndo ≠ 0 := by
      rw [or_and_self]
      decide
    rw [getUndoPos, if_pos hhave]
    exact Bool.eq_false_of_not_eq_true hwrite.1
  · cases h
    exact Bool.eq_false_of_not_eq_true hnull

theorem storeUndo_ok (h : (storeUndo io).run pindex = (.ok (), pindex')) :
    pindex'.getUndoPos.isNull = false := by
  rw [storeUndo, run_get_bind] at h
  split_ifs at h with hcond
  · simp only [run_bind_eq_ok_iff, run_lift, run_modify, Prod.mk.injEq] at h
    obtain ⟨_, placed, hplace, _, _, ⟨-, rfl⟩, -, rfl⟩ := h
    have hpos := placeUndo_ok hplace
    simp only [getUndoPos] at hpos ⊢
    rwa [validScripts_and_of_disjoint _ (by decide) (by decide)]
  · cases h
    exact Bool.eq_false_of_not_eq_true fun hnull => hcond (Or.inl hnull)

theorem connectBlock_ok
    (h : (connectBlock context io block view false).run pindex = (.ok connected, pindex')) :
    block.Checked context.hash ∧ pindex.pprev = view.best ∧
      ((block.getHash context.hash = hashGenesisBlock context.network ∧
          connected = ⟨view.setBestBlock pindex.phashBlock, [], [], []⟩ ∧ pindex' = pindex) ∨
        (block.getHash context.hash ≠ hashGenesisBlock context.network ∧
          ∃ st, connectTransactions context block pindex view = .ok st ∧
            checkReward context block pindex st = .ok () ∧
            connected.view = st.view.setBestBlock pindex.phashBlock ∧
            connected.vtxundo = st.vtxundo ∧ pindex'.getUndoPos.isNull = false ∧
            ∃ nMoneySupply, parentMoneySupply context.tree pindex = .ok nMoneySupply ∧
              pindex'.nMoneySupply = nMoneySupply + st.nValueOut - st.nValueIn)) := by
  simp only [connectBlock, run_bind_eq_ok_iff, run_lift, run_get, Prod.mk.injEq, ok.injEq] at h
  obtain ⟨_, _, ⟨hcheck, rfl⟩, _, _, ⟨rfl, rfl⟩, h⟩ := h
  refine ⟨(checkBlock_ok hcheck).1, ?_⟩
  split_ifs at h with hbest hgenesis
  · cases h
  · cases h
    exact ⟨not_not.mp hbest, Or.inl ⟨hgenesis, rfl, rfl⟩⟩
  · simp only [run_bind_eq_ok_iff, run_lift, Prod.mk.injEq] at h
    obtain ⟨st, _, ⟨hst, rfl⟩, hfinish⟩ := h
    simp only [finishConnect, recordMoneySupply, Bool.false_eq_true, if_false,
      run_bind_eq_ok_iff, run_get, run_lift, run_modify,
      run_pure, Prod.mk.injEq, ok.injEq] at hfinish
    obtain ⟨_, _, ⟨_, _, ⟨rfl, rfl⟩, nMoneySupply, _, ⟨hparent, rfl⟩, _, _, ⟨-, rfl⟩, -, rfl⟩,
      _, _, ⟨rfl, rfl⟩, _, _, ⟨hreward, rfl⟩, _, _, hundo, _, _, ⟨-, rfl⟩, rfl, rfl⟩ := hfinish
    have hsupply := keeps_storeUndo (f := CBlockIndex.nMoneySupply) ⟨fun _ _ => rfl, fun _ => rfl⟩
      io { pindex with nMoneySupply := nMoneySupply + st.nValueOut - st.nValueIn }
    rw [hundo] at hsupply
    exact ⟨not_not.mp hbest, Or.inr ⟨hgenesis, st, hst, hreward, rfl, rfl, storeUndo_ok hundo,
      nMoneySupply, hparent, hsupply⟩⟩

end Connected

section NoAssertion

variable {bad : Failure → Bool} {context : ConnectContext} {block : CBlock} {view : CCoinsView}
  {pindex : CBlockIndex}

theorem finishConnect_avoids (hbad : ∀ f, f.isCrash = false → bad f = false) (io : ConnectIo)
    (hvtx : block.vtx ≠ []) (st : ConnectState) (fJustCheck : Bool)
    (hparent : (∃ e, bad (.fault e) = true) →
      ∃ p parent, pindex.pprev = some p ∧ context.tree p = some parent) :
    Avoids bad ((finishConnect context io block st fJustCheck).run pindex).1 := by
  unfold finishConnect
  refine avoids_bind (recordMoneySupply_avoids hbad io st fJustCheck ?_) ?_
  · intro hfault p hp
    obtain ⟨q, parent, hq, hfound⟩ := hparent ⟨_, hfault⟩
    rw [hp, Option.some.injEq] at hq
    exact ⟨parent, hq ▸ hfound⟩
  · intro _ recorded hrecord
    have hpprev := keeps_recordMoneySupply (f := pprev)
      ⟨⟨fun _ _ => rfl, fun _ => rfl⟩, fun _ _ => rfl⟩ context io st fJustCheck pindex
    rw [hrecord] at hpprev
    rw [run_get_bind]
    refine avoids_lift_bind (checkReward_avoids hbad hvtx st) fun _ _ => ?_
    split_ifs
    · exact avoids_ok _
    · refine avoids_bind (storeUndo_avoids hbad io ?_) fun _ _ _ => ?_
      · intro hfault
        obtain ⟨p, parent, hp, -⟩ := hparent ⟨_, hfault⟩
        rw [hpprev, hp]
        exact Option.some_ne_none p
      · refine avoids_lift_bind ?_ fun _ _ => avoids_ok _
        exact Avoids.ite (fun _ => avoids_orAbort hbad _ io.writeTxIndex) fun _ => avoids_ok _

theorem connectBlock_avoids (hbad : ∀ f, f.isCrash = false → bad f = false) (io : ConnectIo)
    (fJustCheck : Bool) (hbest : pindex.pprev = view.best)
    (hparent : (∃ e, bad (.fault e) = true) →
      ∃ p parent, pindex.pprev = some p ∧ context.tree p = some parent)
    (hcheck : block.checkBlock context.hash context.nAdjustedTime (!fJustCheck) (!fJustCheck) =
      .ok ()) :
    Avoids bad ((connectBlock context io block view fJustCheck).run pindex).1 := by
  have hchecked := (checkBlock_ok hcheck).1
  have hvtx : block.vtx ≠ [] := by
    obtain ⟨coinbase, rest, hvtx, -⟩ := hchecked.exists_coinBase
    simp [hvtx]
  unfold connectBlock
  rw [hcheck, run_bind_of_ok (run_lift _ _), run_get_bind, if_neg (not_not.mpr hbest)]
  split_ifs
  · exact avoids_ok _
  · refine avoids_lift_bind ?_ fun st _ => ?_
    · refine connectTransactions_avoids hbad ?_ hchecked.checked
      intro hfault
      obtain ⟨p, parent, hp, hfound⟩ := hparent ⟨_, hfault⟩
      exact ⟨parent, by rw [← hbest, hp, Option.bind_some, hfound]⟩
    · exact finishConnect_avoids hbad io hvtx st fJustCheck hparent

/-- A checked block on a view at its parent: no assertion fails, and no pointer or index is bad
while the parent is in the tree. Each input of a transaction that gets through spends a coin that
is there at that moment. -/
theorem connectBlock_no_assertion (io : ConnectIo) (fJustCheck : Bool)
    (hcheck : block.checkBlock context.hash context.nAdjustedTime (!fJustCheck) (!fJustCheck) =
      .ok ())
    (hbest : view.best = pindex.pprev) :
    (∀ e, ((connectBlock context io block view fJustCheck).run pindex).1 ≠ .error (.assertion e)) ∧
    ((∃ p parent, pindex.pprev = some p ∧ context.tree p = some parent) →
      ∀ e, ((connectBlock context io block view fJustCheck).run pindex).1 ≠ .error (.fault e)) ∧
    ∀ pre tx post st st', block.txWithHashes context.hash = pre ++ tx :: post →
      pre.foldlM (connectTransaction context pindex) (connectStart block pindex view) = .ok st →
      connectTransaction context pindex st tx = .ok st' →
      ∀ vpre txin vpost, tx.1.spentInputs = vpre ++ txin :: vpost →
        ∃ now vprevout txout, spendInputs st.view vpre = .ok (now, vprevout) ∧
          now.output txin.prevout = some txout := by
  refine ⟨?_, ?_, ?_⟩
  · intro e he
    have havoids : Avoids Failure.isAssertion _ := connectBlock_avoids
      (fun f hf => by cases f <;> simp_all [Failure.isCrash, Failure.isAssertion]) io fJustCheck
      hbest.symm (by rintro ⟨e, he⟩; cases he) hcheck
    exact Bool.false_ne_true (havoids _ he).symm
  · intro hparent e he
    have havoids : Avoids Failure.isCrash _ := connectBlock_avoids (fun f hf => hf) io
      fJustCheck hbest.symm (fun _ => hparent) hcheck
    exact Bool.false_ne_true (havoids _ he).symm
  · intro pre tx post st st' hsplit _ hturn vpre txin vpost hvin
    have hmem : tx ∈ block.txWithHashes context.hash := by simp [hsplit]
    have htx : tx.1.Checked := (checkBlock_ok hcheck).1.checked tx.1 (List.of_mem_zip hmem).1
    exact (connectTransaction_ok htx hturn).spends_unspent hvin htx

end NoAssertion

end CBlock

/-! The sample block on a view at its parent. -/

namespace Sample

def connectContext : ConnectContext where
  hash := sha256d
  network := .official
  verifyScript := verifyScript
  nScriptCheckThreads := 0
  fTxIndex := false
  nAdjustedTime := 1373064500
  tree := tree

def connectIo : ConnectIo := ⟨.ok, .ok 8, .ok, .ok, .ok⟩

def pindexBlock : CBlockIndex where
  phashBlock := some (block.getHash sha256d)
  pprev := some (hashGenesisBlock .official)
  pnext := none
  nHeight := 1
  nFile := 0
  nDataPos := 300
  nUndoPos := 0
  nChainWork := 2
  nMoneySupply := 0
  nStatus := blockValidTransactions ||| blockHaveData
  nVersion := 2
  hashMerkleRoot := block.hashMerkleRoot
  nTime := 1373064500
  nBits := 0x07000000
  nNonce := block.nNonce

theorem connects_block :
    ((block.connectBlock connectContext connectIo view false).run pindexBlock).1.toOption.isSome =
      true := by
  decide +kernel

end Sample

theorem CBlock.connectBlock_no_assertion_sample :
    (∀ e, ((block.connectBlock connectContext connectIo view false).run
        pindexBlock).1 ≠ .error (.assertion e)) ∧
      (∀ e, ((block.connectBlock connectContext connectIo view
        false).run pindexBlock).1 ≠ .error (.fault e)) ∧
      ((block.connectBlock connectContext connectIo view false).run
        pindexBlock).1.toOption.isSome = true := by
  have hno := @connectBlock_no_assertion connectContext block view
    pindexBlock connectIo false checkBlock_block rfl
  exact ⟨hno.1, hno.2.1 ⟨_, pindexGenesis, rfl, rfl⟩, connects_block⟩

end Primecoin
