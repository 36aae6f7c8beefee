import Primecoin.Block.Disconnect
import Primecoin.Script.Interpreter

/-!
# The undo data of connected blocks

The undo data of a connected block comes back as it was if no transaction has a negative version.
The height of a record is positive whenever its metadata is set, since the outputs of the genesis
block never enter a view, so the version is written exactly when it has to be.

The size of the data is an `unsigned int` and does not wrap: a block has room for some thirty
thousand inputs, and a script of more than 10000 bytes cannot be spent.
-/

namespace Primecoin

open Codec CTransaction List CBlockUndo Sample CBlock

/-- `VerifyScript` runs the second script, and `EvalScript` refuses a script of more
than 10000 bytes. -/
def VerifyScript.LimitsSize (verifyScript : VerifyScript) : Prop :=
  ∀ scriptSig scriptPubKey txTo nIn flags,
    verifyScript scriptSig scriptPubKey txTo nIn flags = true → scriptPubKey.length ≤ 10000

structure CCoinsView.Recordable (view : CCoinsView) : Prop where
  storable : view.Storable
  nVersion : ∀ txid coins, view.coins txid = some coins → 0 ≤ coins.nVersion.toInt

open CCoinsView

/-! ## The scripts of the inputs -/

namespace CTransaction

variable {view view' : CCoinsView} {vin : List CTxIn} {verifyScript : VerifyScript}
  {vChecks : List CScriptCheck}

def Examined (verifyScript : VerifyScript) (vChecks : List CScriptCheck) (script : CScript) :
    Prop :=
  ∃ check : CScriptCheck, check.scriptPubKey = script ∧
    (check ∈ vChecks ∨ check.run verifyScript = true)

theorem Examined.mono {vChecks' : List CScriptCheck} {script : CScript}
    (h : Examined verifyScript vChecks script) (hsub : vChecks ⊆ vChecks') :
    Examined verifyScript vChecks' script := by
  obtain ⟨check, hscript, hmem | hrun⟩ := h
  · exact ⟨check, hscript, Or.inl (hsub hmem)⟩
  · exact ⟨check, hscript, Or.inr hrun⟩

theorem checkInputScripts_examines {tx : CTransaction} {flags : UInt32} {fDefer : Bool} {i : ℕ}
    (h : checkInputScripts verifyScript tx view flags fDefer vin i = .ok vChecks) :
    ∀ txin ∈ vin, ∀ txout, view.output txin.prevout = some txout →
      Examined verifyScript vChecks txout.scriptPubKey := by
  induction vin generalizing vChecks i with
  | nil => simp
  | cons txin vin ih =>
    simp only [checkInputScripts, Except.bind_eq_ok_iff, getCoins_eq_ok_iff] at h
    obtain ⟨coins, hcoins, h⟩ := h
    cases hget : coins.vout[txin.prevout.n.toNat]? with
    | none => simp [hget] at h
    | some found =>
      simp only [hget] at h
      have hfirst : ∀ txout, view.output txin.prevout = some txout → txout = found := by
        intro txout hout
        obtain ⟨coins', hcoins', hunspent⟩ := output_eq_some_iff.mp hout
        rw [hcoins, Option.some.injEq] at hcoins'
        subst hcoins'
        rw [getElem?_of_unspent hunspent, Option.some.injEq] at hget
        exact hget
      intro other hother txout hout
      split_ifs at h with hdefer hrun
      · rw [Except.bind_eq_ok_iff] at h
        obtain ⟨rest, hrest, hok⟩ := h
        obtain rfl := Except.ok.inj hok
        rcases mem_cons.mp hother with rfl | hother
        · rw [hfirst txout hout]
          exact ⟨_, rfl, Or.inl mem_cons_self⟩
        · exact (ih hrest other hother txout hout).mono (subset_cons_self _ _)
      · rcases mem_cons.mp hother with rfl | hother
        · rw [hfirst txout hout]
          exact ⟨_, rfl, Or.inr hrun⟩
        · exact ih h other hother txout hout

theorem checkInputs_examines {tree : BlockTree} {tx : CTransaction} {flags : UInt32}
    {fDefer : Bool} (htx : tx.isCoinBase = false)
    (h : checkInputs verifyScript tree tx view flags fDefer = .ok vChecks) :
    ∀ txin ∈ tx.vin, ∀ txout, view.output txin.prevout = some txout →
      Examined verifyScript vChecks txout.scriptPubKey := by
  simp only [checkInputs, htx, Bool.false_eq_true, if_false, Except.bind_eq_ok_iff,
    Except.ite_error_eq_ok_iff] at h
  obtain ⟨fHave, -, -, h⟩ := h
  cases hbest : view.best.bind tree with
  | none => simp [hbest] at h
  | some pindexBest =>
    simp only [hbest, Except.bind_eq_ok_iff, Except.ite_error_eq_ok_iff] at h
    obtain ⟨_, -, _, -, -, -, -, -, h⟩ := h
    exact checkInputScripts_examines h

theorem spendInputs_txout {vprevout : List CTxInUndo}
    (h : spendInputs view vin = .ok (view', vprevout)) :
    ∀ undo ∈ vprevout, ∃ txin ∈ vin, view.output txin.prevout = some undo.txout := by
  induction vin generalizing view vprevout with
  | nil =>
    cases h
    simp
  | cons txin vin ih =>
    obtain ⟨next, first, rest, hfirst, hrest, rfl⟩ := spendInputs_cons_eq_ok_iff.mp h
    intro undo hundo
    rcases mem_cons.mp hundo with rfl | hundo
    · obtain ⟨coins, txout, hcoins, hunspent, -, rfl⟩ := spendInput_eq_ok_iff.mp hfirst
      refine ⟨txin, by simp, output_eq_some_iff.mpr ⟨coins, hcoins, ?_⟩⟩
      rw [hunspent, CCoins.undo]
      split_ifs <;> rfl
    · obtain ⟨other, hother, hout⟩ := ih hrest undo hundo
      rw [output_spendInput hfirst] at hout
      split_ifs at hout
      exact ⟨other, mem_cons_of_mem _ hother, hout⟩

end CTransaction

/-! ## One transaction -/

theorem CCoins.undo_stored {coins : CCoins} (n : ℕ) (txout : CTxOut)
    (hheight : 0 < coins.nHeight.toInt) (hversion : 0 ≤ coins.nVersion.toInt) :
    (coins.undo n txout).stored = coins.undo n txout := by
  unfold CCoins.undo
  split_ifs
  · refine CTxInUndo.stored_eq_self (fun _ => hversion) fun hzero => ?_
    have hnat := congrArg UInt32.toNat hzero
    simp only at hnat
    rw [Int32.toNat_toUInt32_of_le (Int32.le_iff_toInt_le.mpr hheight.le), Int32.toNatClampNeg,
      UInt32.toNat_zero] at hnat
    omega
  · exact CTxInUndo.stored_eq_self (fun hpos => absurd hpos (lt_irrefl 0)) fun _ => rfl

namespace CTransaction

variable {view view' : CCoinsView}

theorem recordable_spendInput {out : COutPoint} {undo : CTxInUndo}
    (hview : view.Recordable) (h : spendInput view out = .ok (view', undo)) :
    view'.Recordable ∧ undo.stored = undo := by
  have hstorable := (storable_spendInput hview.storable h).1
  obtain ⟨coins, txout, hcoins, -, rfl, rfl⟩ := spendInput_eq_ok_iff.mp h
  have hversion := hview.nVersion _ coins hcoins
  refine ⟨⟨hstorable, ?_⟩, CCoins.undo_stored _ _ (hview.storable _ coins hcoins).2 hversion⟩
  intro txid other hother
  by_cases heq : txid = out.hash
  · subst heq
    rw [coins_setCoins_self, Option.some.injEq] at hother
    exact hother ▸ hversion
  · rw [coins_setCoins_of_ne heq] at hother
    exact hview.nVersion txid other hother

theorem recordable_spendInputs {vin : List CTxIn}
    {vprevout : List CTxInUndo} (hview : view.Recordable)
    (h : spendInputs view vin = .ok (view', vprevout)) :
    view'.Recordable ∧ ∀ undo ∈ vprevout, undo.stored = undo := by
  induction vin generalizing view vprevout with
  | nil =>
    cases h
    exact ⟨hview, by simp⟩
  | cons txin vin ih =>
    obtain ⟨next, first, rest, hfirst, hrest, rfl⟩ := spendInputs_cons_eq_ok_iff.mp h
    obtain ⟨hnext, hstored⟩ := recordable_spendInput hview hfirst
    obtain ⟨hview', hall⟩ := ih hnext hrest
    exact ⟨hview', forall_mem_cons.mpr ⟨hstored, hall⟩⟩

theorem recordable_updateCoins {tx : CTransaction} {nHeight : Int32}
    {txhash : UInt256} {vprevout : List CTxInUndo} (hview : view.Recordable)
    (hchecked : tx.Checked) (hheight : 0 < nHeight.toInt) (hversion : 0 ≤ tx.nVersion.toInt)
    (h : tx.updateCoins view nHeight txhash = .ok (view', vprevout)) :
    view'.Recordable ∧ vprevout.length = tx.spentInputs.length ∧
      ∀ undo ∈ vprevout, undo.Storable ∧ undo.stored = undo := by
  obtain ⟨spent, hspent, rfl⟩ := updateCoins_eq_ok_iff.mp h
  obtain ⟨-, hlength, hstorable⟩ := storable_spendInputs hview.storable hspent
  obtain ⟨hrecordable, hstored⟩ := recordable_spendInputs hview hspent
  refine ⟨⟨?_, ?_⟩, hlength, fun undo hundo => ⟨hstorable undo hundo, hstored undo hundo⟩⟩
  · exact hrecordable.storable.setCoins (CCoins.storable_ofTransaction hchecked hheight.le) hheight
  · intro txid coins hcoins
    by_cases heq : txid = txhash
    · subst heq
      rw [coins_setCoins_self, Option.some.injEq] at hcoins
      exact hcoins ▸ hversion
    · rw [coins_setCoins_of_ne heq] at hcoins
      exact hrecordable.nVersion txid coins hcoins

/-- An input takes 41 bytes of a transaction and its script. -/
theorem mul_length_spentInputs_le (tx : CTransaction) :
    1 + 36 * tx.spentInputs.length ≤ tx.getSerializeSize := by
  have hvin : tx.spentInputs.length ≤ tx.vin.length := by
    unfold spentInputs
    split_ifs <;> simp
  have hsum : tx.vin.length * 36 ≤ (tx.vin.map CTxIn.getSerializeSize).sum := by
    have hcard := card_nsmul_le_sum (tx.vin.map CTxIn.getSerializeSize) 36 (by
      intro n hn
      obtain ⟨txin, -, rfl⟩ := mem_map.mp hn
      rw [CTxIn.getSerializeSize]
      omega)
    rwa [length_map, smul_eq_mul] at hcard
  rw [getSerializeSize]
  omega

end CTransaction

/-! ## The loop over the transactions -/

namespace CBlock

variable {context : ConnectContext} {pindex : CBlockIndex} {st st' : ConnectState}

structure Recorded (context : ConnectContext) (st : ConnectState) : Prop where
  view : st.view.Recordable
  undo : ∀ vprevout ∈ st.vtxundo, vprevout.length ≤ maxSize ∧ ∀ undo ∈ vprevout,
    undo.Storable ∧ undo.stored = undo ∧
      Examined context.verifyScript st.vChecks undo.txout.scriptPubKey
  size : st.vtxundo.length + 36 * (st.vtxundo.map List.length).sum ≤ st.pos.nTxOffset

theorem tallyTransaction_examines {tx : CTransaction}
    (h : tallyTransaction context pindex tx st = .ok st') :
    st'.view = st.view ∧ st'.vtxundo = st.vtxundo ∧ st'.pos = st.pos ∧
      st.vChecks ⊆ st'.vChecks ∧ ∀ txin ∈ tx.spentInputs, ∀ txout,
        st.view.output txin.prevout = some txout →
          Examined context.verifyScript st'.vChecks txout.scriptPubKey := by
  cases htx : tx.isCoinBase with
  | true =>
    simp only [tallyTransaction, htx, if_true, Except.bind_eq_ok_iff] at h
    obtain ⟨nValueOut, -, hst⟩ := h
    obtain rfl := Except.ok.inj hst
    exact ⟨rfl, rfl, rfl, List.Subset.refl _, by simp [spentInputs, htx]⟩
  | false =>
    simp only [tallyTransaction, htx, Bool.false_eq_true, if_false, tallyInputs,
      Except.bind_eq_ok_iff, Except.ite_error_eq_ok_iff] at h
    obtain ⟨_, -, -, _, -, -, _, -, _, -, vChecks, hchecks, hst⟩ := h
    obtain rfl := Except.ok.inj hst
    refine ⟨rfl, rfl, rfl, subset_append_left _ _, ?_⟩
    intro txin htxin txout hout
    simp only [spentInputs, htx, Bool.false_eq_true, if_false] at htxin
    exact (checkInputs_examines htx hchecks txin htxin txout hout).mono (subset_append_right _ _)

theorem Recorded.connectTransaction {tx : CTransaction × UInt256} (hst : Recorded context st)
    (hchecked : tx.1.Checked) (hversion : 0 ≤ tx.1.nVersion.toInt)
    (hheight : 0 < pindex.nHeight.toInt)
    (h : connectTransaction context pindex st tx = .ok st') :
    Recorded context st' ∧ st'.pos.nTxOffset = st.pos.nTxOffset + tx.1.getSerializeSize := by
  simp only [CBlock.connectTransaction, Except.ite_error_eq_ok_iff, Except.bind_eq_ok_iff,
    Prod.exists] at h
  obtain ⟨-, mid, htally, view, vprevout, hupdate, hok⟩ := h
  obtain ⟨hview, hundo, hpos, hsub, hexamined⟩ := tallyTransaction_examines htally
  simp only at hview hundo hpos hsub hexamined
  rw [hview] at hupdate
  obtain ⟨hrecordable, hlength, hall⟩ :=
    recordable_updateCoins hst.view hchecked hheight hversion hupdate
  have hbytes := tx.1.mul_length_spentInputs_le
  have holder : ∀ older ∈ st.vtxundo, older.length ≤ maxSize ∧ ∀ undo ∈ older,
      undo.Storable ∧ undo.stored = undo ∧
        Examined context.verifyScript mid.vChecks undo.txout.scriptPubKey := by
    intro older holder
    refine ⟨(hst.undo older holder).1, fun undo hmem => ?_⟩
    obtain ⟨hstorable, hstored, hscript⟩ := (hst.undo older holder).2 undo hmem
    exact ⟨hstorable, hstored, hscript.mono hsub⟩
  have hnew : vprevout.length ≤ maxSize ∧ ∀ undo ∈ vprevout, undo.Storable ∧ undo.stored = undo ∧
        Examined context.verifyScript mid.vChecks undo.txout.scriptPubKey := by
    constructor
    · have hsize := hchecked.size_le
      simp only [maxBlockSize] at hsize
      simp only [maxSize]
      omega
    · intro undo hmem
      obtain ⟨spent, hspent, -⟩ := updateCoins_eq_ok_iff.mp hupdate
      obtain ⟨txin, htxin, hout⟩ := spendInputs_txout hspent undo hmem
      exact ⟨(hall undo hmem).1, (hall undo hmem).2, hexamined txin htxin _ hout⟩
  have hsize := hst.size
  obtain rfl := Except.ok.inj hok
  simp only [hundo, hpos, and_true]
  refine ⟨hrecordable, ?_, ?_⟩
  · simp only
    split_ifs
    · exact holder
    · intro older hmem
      rcases mem_append.mp hmem with hmem | hmem
      · exact holder older hmem
      · exact mem_singleton.mp hmem ▸ hnew
  · simp only
    split_ifs
    · omega
    · simp only [length_append, length_singleton, map_append, map_singleton,
        sum_append, sum_singleton]
      omega

theorem Recorded.connectTransactions {txs : List (CTransaction × UInt256)}
    (hst : Recorded context st) (hchecked : ∀ tx ∈ txs, tx.1.Checked)
    (hversion : ∀ tx ∈ txs, 0 ≤ tx.1.nVersion.toInt) (hheight : 0 < pindex.nHeight.toInt)
    (h : txs.foldlM (CBlock.connectTransaction context pindex) st = .ok st') :
    Recorded context st' ∧ st'.pos.nTxOffset =
      st.pos.nTxOffset + (txs.map fun tx => tx.1.getSerializeSize).sum := by
  induction txs generalizing st with
  | nil =>
    cases h
    exact ⟨hst, rfl⟩
  | cons tx txs ih =>
    rw [foldlM_cons, Except.bind_eq_ok_iff] at h
    obtain ⟨next, hnext, hrest⟩ := h
    obtain ⟨hrecorded, hoffset⟩ :=
      hst.connectTransaction (hchecked tx (by simp)) (hversion tx (by simp)) hheight hnext
    obtain ⟨hdone, htotal⟩ := ih hrecorded
      (fun other hother => hchecked other (mem_cons_of_mem _ hother))
      (fun other hother => hversion other (mem_cons_of_mem _ hother)) hrest
    exact ⟨hdone, by rw [htotal, hoffset, map_cons, sum_cons, Nat.add_assoc]⟩

end CBlock

/-! ## The size on disk -/

theorem CTxInUndo.length_serialize_le (keys : ECKeys) (undo : CTxInUndo) :
    (undo.serialize keys).length ≤ undo.txout.scriptPubKey.length + 53 := by
  have hcode : (writeVarInt .uint32 undo.nCode.toNat).length ≤ 5 := length_writeVarInt_le .uint32 _
  have hversion : (writeVarInt .int32 undo.nVersion.toInt).length ≤ 5 :=
    length_writeVarInt_le .int32 _
  have hamount : (writeVarInt .uint64
      (CTxOutCompressor.compressAmount undo.txout.nValue.toUInt64).toNat).length ≤ 10 :=
    length_writeVarInt_le .uint64 _
  have hscript := CScriptCompressor.length_serialize_le keys undo.txout.scriptPubKey
  simp only [serialize, CTxOutCompressor.serialize, length_append]
  split_ifs
  · omega
  · rw [length_nil]
    omega

theorem length_writeVector_le {α : Type} {write : α → Bytes} {bound : α → ℕ} {v : List α}
    (h : ∀ x ∈ v, (write x).length ≤ bound x) :
    (writeVector write v).length ≤ 9 + (v.map bound).sum := by
  have hsize : getSizeOfCompactSize v.length ≤ 9 := by
    unfold getSizeOfCompactSize
    split_ifs <;> omega
  have hsum := sum_le_sum h
  rw [writeVector, length_append, length_writeCompactSize, length_flatMap]
  omega

theorem CBlockUndo.length_serialize_le (keys : ECKeys) {vtxundo : List (List CTxInUndo)}
    (h : ∀ vprevout ∈ vtxundo, ∀ undo ∈ vprevout,
      (undo : CTxInUndo).txout.scriptPubKey.length ≤ 10000) :
    (serialize keys vtxundo).length ≤
      9 + 280 * (vtxundo.length + 36 * (vtxundo.map List.length).sum) := by
  have hinner : ∀ vprevout ∈ vtxundo, (writeVector (CTxInUndo.serialize keys) vprevout).length ≤
        9 + 10053 * (vprevout : List CTxInUndo).length := by
    intro vprevout hmem
    have hbound : ∀ undo ∈ vprevout, (CTxInUndo.serialize keys undo).length ≤
        (fun _ => 10053 : CTxInUndo → ℕ) undo := by
      intro undo hundo
      have hscript := h vprevout hmem undo hundo
      have hbytes := undo.length_serialize_le keys
      change _ ≤ 10053
      omega
    have hle := length_writeVector_le hbound
    rw [map_const', sum_replicate, smul_eq_mul] at hle
    rwa [Nat.mul_comm]
  have houter := length_writeVector_le hinner
  have hsum : (vtxundo.map fun vprevout => 9 + 10053 * vprevout.length).sum ≤
      280 * (vtxundo.length + 36 * (vtxundo.map List.length).sum) := by
    rw [sum_map_add, map_const', sum_replicate, smul_eq_mul, sum_map_mul_left]
    omega
  exact houter.trans (Nat.add_le_add_left hsum 9)

/-! ## Connected blocks -/

namespace CBlock

variable {context : ConnectContext} {io : ConnectIo} {block : CBlock} {view : CCoinsView}
  {pindex pindex' : CBlockIndex} {connected : Connected}

structure Archived (keys : ECKeys) (context : ConnectContext) (connected : Connected) : Prop where
  view : connected.view.Recordable
  storable : Storable connected.vtxundo
  stored : stored connected.vtxundo = connected.vtxundo
  size : context.verifyScript.LimitsSize →
    (CBlockUndo.serialize keys connected.vtxundo).length < 2 ^ 32

theorem checkReward_verifies {st : ConnectState}
    (h : checkReward context block pindex st = .ok ()) :
    ∀ check ∈ st.vChecks, check.run context.verifyScript = true := by
  cases hvtx : block.vtx with
  | nil => simp [checkReward, hvtx] at h
  | cons coinbase rest =>
    simp only [checkReward, hvtx, Except.bind_eq_ok_iff, Except.ite_error_eq_ok_iff,
      Bool.not_eq_true, Bool.not_eq_false'] at h
    obtain ⟨_, -, -, hall, -⟩ := h
    exact all_eq_true.mp hall

theorem connectBlock_archived (keys : ECKeys) (hview : view.Recordable)
    (hheight : block.getHash context.hash ≠ hashGenesisBlock context.network →
      0 < pindex.nHeight.toInt) (hversion : ∀ tx ∈ block.vtx, 0 ≤ tx.nVersion.toInt)
    (h : (block.connectBlock context io view false).run pindex = (.ok connected, pindex')) :
    Archived keys context connected := by
  obtain ⟨hchecked, -, ⟨-, rfl, -⟩ | ⟨hgenesis, st, hst, hreward, hconnected, hvtxundo, -⟩⟩ :=
    connectBlock_ok h
  · refine ⟨⟨hview.storable, hview.nVersion⟩, ⟨Nat.zero_le _, by simp⟩, rfl, fun _ => ?_⟩
    simp [CBlockUndo.serialize, writeVector, length_writeCompactSize, getSizeOfCompactSize]
  · have hstart : Recorded context (connectStart block pindex view) :=
      ⟨hview, by simp [connectStart], Nat.zero_le _⟩
    simp only [connectTransactions, Except.ite_error_eq_ok_iff] at hst
    obtain ⟨hrecorded, hoffset⟩ := hstart.connectTransactions hchecked.of_mem_txWithHashes
      (fun tx htx => by
        rw [txWithHashes_eq] at htx
        obtain ⟨tx, hmem, rfl⟩ := mem_map.mp htx
        exact hversion tx hmem) (hheight hgenesis) hst.2
    have hbytes : st.pos.nTxOffset ≤ maxBlockSize := by
      have hsizes : ((block.txWithHashes context.hash).map fun tx => tx.1.getSerializeSize) =
          block.vtx.map CTransaction.getSerializeSize := by
        rw [txWithHashes_eq, map_map]
        rfl
      have hsize := hchecked.size_le
      rw [getSerializeSize] at hsize
      rw [hoffset, hsizes, connectStart]
      simp only
      omega
    have hcount := hrecorded.size
    simp only [maxBlockSize] at hbytes
    refine ⟨?_, ⟨?_, ?_⟩, ?_, fun hlimits => ?_⟩
    · rw [hconnected]
      exact ⟨hrecorded.view.storable, hrecorded.view.nVersion⟩
    · rw [hvtxundo]
      simp only [maxSize]
      omega
    · rw [hvtxundo]
      exact fun vprevout hmem => ⟨(hrecorded.undo vprevout hmem).1,
        fun undo hundo => ((hrecorded.undo vprevout hmem).2 undo hundo).1⟩
    · rw [hvtxundo, stored]
      have hinner : ∀ vprevout ∈ st.vtxundo, vprevout.map CTxInUndo.stored = id vprevout := by
        intro vprevout hmem
        rw [map_congr_left fun undo hundo =>
          ((hrecorded.undo vprevout hmem).2 undo hundo).2.1, map_id', id]
      rw [map_congr_left hinner, map_id]
    · have hscripts : ∀ vprevout ∈ st.vtxundo, ∀ undo ∈ vprevout,
          (undo : CTxInUndo).txout.scriptPubKey.length ≤ 10000 := by
        intro vprevout hmem undo hundo
        obtain ⟨check, hscript, hrun⟩ := ((hrecorded.undo vprevout hmem).2 undo hundo).2.2
        rw [← hscript]
        rcases hrun with hqueued | hrun
        · exact hlimits _ _ _ _ _ (checkReward_verifies hreward check hqueued)
        · exact hlimits _ _ _ _ _ hrun
      have hle := length_serialize_le keys hscripts
      rw [hvtxundo]
      omega

theorem Archived.readsBack {keys : ECKeys} (h : Archived keys context connected)
    (hlimits : context.verifyScript.LimitsSize) :
    (CBlockUndo.getSerializeSize keys connected.vtxundo).toNat =
        (CBlockUndo.serialize keys connected.vtxundo).length ∧
      ∀ hash hashBlock rest, readFromDisk keys hash hashBlock
        (some (writeToDisk keys hash hashBlock connected.vtxundo ++ rest)) =
          .ok connected.vtxundo := by
  constructor
  · rw [getSerializeSize_eq, UInt32.toNat_ofNat', Nat.mod_eq_of_lt (h.size hlimits)]
  · intro hash hashBlock rest
    rw [readFromDisk_writeToDisk keys hash hashBlock h.storable rest, h.stored]

/-- The undo data of a connected block comes back from its serialization, whose length is
`GetSerializeSize`, and `ReadFromDisk` accepts what `WriteToDisk` wrote for the same block hash.
This applies to the new view again. -/
theorem connectBlock_undo_readsBack (keys : ECKeys) (hview : view.Recordable)
    (hlimits : context.verifyScript.LimitsSize)
    (hheight : block.getHash context.hash ≠ hashGenesisBlock context.network →
      0 < pindex.nHeight.toInt) (hversion : ∀ tx ∈ block.vtx, 0 ≤ tx.nVersion.toInt)
    (h : (block.connectBlock context io view false).run pindex = (.ok connected, pindex')) :
    connected.view.Recordable ∧ (∀ rest, unserialize keys
        (CBlockUndo.serialize keys connected.vtxundo ++ rest) = some (connected.vtxundo, rest)) ∧
      (CBlockUndo.getSerializeSize keys connected.vtxundo).toNat =
        (CBlockUndo.serialize keys connected.vtxundo).length ∧
      ∀ hash hashBlock rest, readFromDisk keys hash hashBlock
        (some (writeToDisk keys hash hashBlock connected.vtxundo ++ rest)) =
          .ok connected.vtxundo := by
  have harchived := connectBlock_archived keys hview hheight hversion h
  have hread := readsBack_serialize keys harchived.storable
  rw [harchived.stored] at hread
  exact ⟨harchived.view, hread, harchived.readsBack hlimits⟩

end CBlock

/-! ## All views -/

namespace CCoins

theorem Storable.stored {coins : CCoins} (h : coins.Storable) : coins.stored.Storable where
  nHeight := h.nHeight
  length := by
    have hle := (List.rdropWhile_prefix CTxOut.isNull
      (Slots.canonical CTxOut.isNull .null coins.vout)).length_le
    rw [Slots.canonical, length_map] at hle
    exact hle.trans h.length
  vout n txout hout := h.vout n txout (by rwa [unspent_stored] at hout)

end CCoins

namespace CCoinsView

theorem recordable_empty : empty.Recordable := by
  constructor
  · intro txid coins hcoins
    cases hcoins
  · intro txid coins hcoins
    cases hcoins

theorem Recordable.reload {view : CCoinsView} (h : view.Recordable) (keys : ECKeys)
    (kept : UInt256 → Bool) : (view.reload keys kept).Recordable := by
  have hback : ∀ txid coins, (view.reload keys kept).coins txid = some coins →
      coins.Storable ∧ 0 < coins.nHeight.toInt ∧ 0 ≤ coins.nVersion.toInt := by
    intro txid coins hcoins
    simp only [CCoinsView.reload] at hcoins
    split_ifs at hcoins
    · exact ⟨(h.storable txid coins hcoins).1, (h.storable txid coins hcoins).2,
        h.nVersion txid coins hcoins⟩
    · obtain ⟨before, hbefore, hreload⟩ := Option.bind_eq_some_iff.mp hcoins
      obtain ⟨hstorable, hheight⟩ := h.storable txid before hbefore
      rw [CCoins.reload_eq keys hstorable] at hreload
      split_ifs at hreload
      obtain rfl := Option.some.inj hreload
      refine ⟨hstorable.stored, hheight, ?_⟩
      rw [(CCoins.same_stored before).nVersion (h.nVersion txid before hbefore)]
      exact h.nVersion txid before hbefore
  exact ⟨fun txid coins hcoins => ⟨(hback txid coins hcoins).1, (hback txid coins hcoins).2.1⟩,
    fun txid coins hcoins => (hback txid coins hcoins).2.2⟩

end CCoinsView

/-- The views that connecting blocks leads to, with coins flushed to disk and read again at any
time. -/
inductive CBlock.Reached : CCoinsView → Prop
  | empty : Reached .empty
  | connect {context : ConnectContext} {io : ConnectIo} {block : CBlock} {view : CCoinsView}
      {pindex pindex' : CBlockIndex} {connected : Connected} (prior : Reached view)
      (height : block.getHash context.hash ≠ hashGenesisBlock context.network →
        0 < pindex.nHeight.toInt)
      (version : ∀ tx ∈ block.vtx, 0 ≤ tx.nVersion.toInt)
      (connects : (block.connectBlock context io view false).run pindex =
        (.ok connected, pindex')) : Reached connected.view
  | reload {view : CCoinsView} (keys : ECKeys) (kept : UInt256 → Bool) (prior : Reached view) :
      Reached (view.reload keys kept)

theorem CBlock.Reached.recordable {view : CCoinsView} (h : Reached view) : view.Recordable := by
  induction h with
  | empty => exact recordable_empty
  | connect _ height version connects ih =>
    exact (connectBlock_archived keys ih height version connects).view
  | reload keys kept _ ih => exact ih.reload keys kept

theorem ScriptContext.limitsSize_verifies (c : ScriptContext) : c.verifies.LimitsSize := by
  intro scriptSig scriptPubKey txTo nIn flags h
  by_contra hlong
  simp only [ScriptContext.verifies, ScriptContext.verifyScript, evalScript,
    if_pos (not_le.mp hlong), Bool.false_and, Bool.not_false, if_true, decide_eq_true_eq] at h
  split_ifs at h <;> cases h

/-- With the scripts run by the interpreter, the undo data of every block on the way reads back. -/
theorem CBlock.Reached.undo_readsBack {view : CCoinsView} {context : ConnectContext}
    {io : ConnectIo} {block : CBlock} {pindex pindex' : CBlockIndex} {connected : Connected}
    {c : ScriptContext} (keys : ECKeys) (hview : Reached view)
    (hscripts : context.verifyScript = c.verifies)
    (hheight : block.getHash context.hash ≠ hashGenesisBlock context.network →
      0 < pindex.nHeight.toInt) (hversion : ∀ tx ∈ block.vtx, 0 ≤ tx.nVersion.toInt)
    (h : (block.connectBlock context io view false).run pindex = (.ok connected, pindex')) :
    (CBlockUndo.getSerializeSize keys connected.vtxundo).toNat =
        (CBlockUndo.serialize keys connected.vtxundo).length ∧
      ∀ hash hashBlock rest, readFromDisk keys hash hashBlock
        (some (writeToDisk keys hash hashBlock connected.vtxundo ++ rest)) =
          .ok connected.vtxundo := by
  have harchived := connectBlock_archived keys hview.recordable hheight hversion h
  exact harchived.readsBack (hscripts ▸ c.limitsSize_verifies)

/-! A coinbase, a block at the height from which on it can be spent and a block that spends it.
The blocks in between are left out. -/

namespace Matured

def coinbase (tag : UInt8) : CTransaction :=
  ⟨1, [⟨⟨0, 0xffffffff⟩, [1, tag], 0xffffffff⟩], replicate 2 ⟨500000000, [0x51]⟩, 0⟩

def hashCoinbase : UInt256 := 0xa62134eb608ae2e14e77e6cf9d1a85bf19aeed4b1a277e13338c9dd57720683b

def hashSpending : UInt256 := 0x8e59a2d95bf42ad21f74b04534458f7d0aadeb26b38be32c85310cf22dbb31f8

def spending : CTransaction :=
  ⟨1, [⟨⟨hashCoinbase, 0⟩, [], 0xffffffff⟩, ⟨⟨hashCoinbase, 1⟩, [], 0xffffffff⟩],
    [⟨990000000, [0x51]⟩], 0⟩

def minedOn (hashPrevBlock hashMerkleRoot : UInt256) (nTime : UInt32) (vtx : List CTransaction) :
    CBlock :=
  ⟨⟨2, hashPrevBlock, hashMerkleRoot, nTime, 0x07000000, 5, 210⟩, vtx⟩

def first : CBlock :=
  minedOn (hashGenesisBlock .official) hashCoinbase 1373064500 [coinbase 1]

def hashFirst : UInt256 := 0xc357c941601d3ee3514407dcd3740173d4fa42a70677aaf05966f22b5db56366

def last : CBlock :=
  minedOn hashFirst 0x21c6cc30f604b2ff06b36759f126583d2d0ed385900591f03db8eb8a8a01002 1373244500
    [coinbase 2]

def hashLast : UInt256 := 0xb34255591d7f2d71f67e206ed4f4a2f9be1c4f2934ce56d4e9d080c55467fa2

def spender : CBlock :=
  minedOn hashLast 0x38323cf70a813e996ea738034c79299fa2c168b579bc3d83df83bb485a0c06c6 1373244560
    [coinbase 3, spending]

def sha256d (m : Bytes) : UInt256 :=
  if m = genesisTransaction.serialize then (genesisBlock .official).hashMerkleRoot
  else if m = (genesisBlock .official).toCBlockHeader.serialize then hashGenesisBlock .official
  else if m = (coinbase 1).serialize then hashCoinbase
  else if m = (coinbase 2).serialize then last.hashMerkleRoot
  else if m = (coinbase 3).serialize then
    0x5c9d8795d5ca4130da9dcecddce71ae7820fed5cd140c1996532ae90681f23b4
  else if m = spending.serialize then hashSpending
  else if m = merkleMessage
      (0x5c9d8795d5ca4130da9dcecddce71ae7820fed5cd140c1996532ae90681f23b4, hashSpending) then
    spender.hashMerkleRoot
  else if m = first.toCBlockHeader.serialize then hashFirst
  else if m = last.toCBlockHeader.serialize then hashLast
  else if m = spender.toCBlockHeader.serialize then
    0x8b36df9b67c6554d1434cb5299a589d4086179eaa1be3b6883c80e30db1025b0
  else 0

def entry (block : CBlock) (nHeight : Int32) : CBlockIndex :=
  { pindexBlock with
    phashBlock := some (block.getHash sha256d)
    pprev := some block.hashPrevBlock
    nHeight := nHeight }

def context : ConnectContext := { connectContext with
  hash := sha256d
  verifyScript := signedInput.verifies
  nAdjustedTime := 1373244560
  tree := fun h =>
    if h = hashGenesisBlock .official then some pindexGenesis
    else if h = hashFirst then some (entry first 1)
    else if h = hashLast then some (entry last 3000)
    else none }

def viewAfter (block : CBlock) (pindex : CBlockIndex) (view : CCoinsView) : CCoinsView :=
  match ((block.connectBlock context connectIo view false).run pindex).1 with
  | .ok connected => connected.view
  | .error _ => view

def view : CCoinsView :=
  viewAfter last (entry last 3000) (viewAfter first (entry first 1)
    (viewAfter (genesisBlock .official) pindexGenesis .empty))

theorem reached_viewAfter {block : CBlock} {pindex : CBlockIndex} {view : CCoinsView}
    (hview : Reached view) (hheight : block.getHash sha256d ≠ hashGenesisBlock .official →
      0 < pindex.nHeight.toInt) (hversion : ∀ tx ∈ block.vtx, 0 ≤ tx.nVersion.toInt) :
    Reached (viewAfter block pindex view) := by
  rcases hrun : (block.connectBlock context connectIo view false).run pindex with
    ⟨failure | connected, pindex'⟩
  · simpa only [viewAfter, hrun] using hview
  · simpa only [viewAfter, hrun] using hview.connect hheight hversion hrun

theorem reached_view : Reached view := by
  have hgenesis : Reached (viewAfter (genesisBlock .official) pindexGenesis .empty) :=
    reached_viewAfter .empty (absurd (by decide)) (by decide)
  have hfirst : Reached (viewAfter first (entry first 1) _) :=
    reached_viewAfter hgenesis (fun _ => by decide) (by decide)
  exact reached_viewAfter hfirst (fun _ => by decide) (by decide)

def run : Except Failure Connected × CBlockIndex :=
  (spender.connectBlock context connectIo view false).run (entry spender 3001)

def vtxundo : List (List CTxInUndo) :=
  [[⟨⟨500000000, [0x51]⟩, false, 0, 0⟩, ⟨⟨500000000, [0x51]⟩, true, 1, 1⟩]]

theorem exists_connected :
    ∃ connected pindex', run = (.ok connected, pindex') ∧ connected.vtxundo = vtxundo := by
  have hundo : run.1.toOption.map Connected.vtxundo = some vtxundo := by decide +kernel
  rcases hrun : run with ⟨failure | connected, pindex'⟩
  · rw [hrun] at hundo
    cases hundo
  · rw [hrun] at hundo
    exact ⟨connected, pindex', rfl, Option.some.inj hundo⟩

end Matured

open Matured

theorem CBlock.Reached.undo_readsBack_matured : ∃ connected pindex',
    Matured.run = (.ok connected, pindex') ∧ connected.vtxundo = vtxundo ∧
    ∀ hash hashBlock rest, readFromDisk keys hash hashBlock
      (some (writeToDisk keys hash hashBlock connected.vtxundo ++ rest)) =
        .ok connected.vtxundo := by
  obtain ⟨connected, pindex', hrun, hundo⟩ := exists_connected
  exact ⟨connected, pindex', hrun, hundo,
    (Reached.undo_readsBack keys reached_view rfl (fun _ => by decide) (by decide) hrun).2⟩

theorem CBlock.connectBlock_undo_readsBack_sample : ∃ connected pindex',
    Matured.run = (.ok connected, pindex') ∧ connected.vtxundo = vtxundo ∧
    connected.view.Recordable ∧
    (∀ rest, unserialize keys
      (CBlockUndo.serialize keys connected.vtxundo ++ rest) = some (connected.vtxundo, rest)) ∧
    (CBlockUndo.getSerializeSize keys connected.vtxundo).toNat =
      (CBlockUndo.serialize keys connected.vtxundo).length ∧
    ∀ hash hashBlock rest, readFromDisk keys hash hashBlock
      (some (writeToDisk keys hash hashBlock connected.vtxundo ++ rest)) =
        .ok connected.vtxundo := by
  obtain ⟨connected, pindex', hrun, hundo⟩ := exists_connected
  exact ⟨connected, pindex', hrun, hundo, connectBlock_undo_readsBack keys reached_view.recordable
    signedInput.limitsSize_verifies (fun _ => by decide) (by decide) hrun⟩

end Primecoin
