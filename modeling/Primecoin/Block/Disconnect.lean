import Primecoin.Block.ConnectLoop
import Primecoin.Block.Undo

/-!
# Disconnecting a block

`disconnectBlock` is `CBlock::DisconnectBlock`: it takes the outputs of the transactions out of
the view, last transaction first, and puts back what they spent. A mismatch with the undo data is
only remembered, in `fClean`.

Disconnecting undoes connecting. The invariant compares the view on the way back with the view at
the same transaction on the way forth: their records show the same unspent outputs, but may differ
in traces of the order in which they got there.
-/

namespace Primecoin

open Sample Option CCoinsView CBlockUndo Except CTxInUndo Slots
namespace CCoinsView

/-- The lookup that copies the coins; they stay empty when there are none. -/
def coinsOrEmpty (view : CCoinsView) (txid : UInt256) : CCoins := (view.coins txid).getD .empty

end CCoinsView

namespace CBlock

/-- The record that the output of `undo` is written into, and whether the undo data fits what the
view has. -/
def undoRecord (coins : CCoins) (undo : CTxInUndo) : CCoins × Bool :=
  if undo.nHeight ≠ 0 then
    -- the undo data contains the height: the last output was spent
    (⟨undo.fCoinBase, [], undo.nHeight.toInt32, undo.nVersion⟩, coins.isPruned)
  else (coins, !coins.isPruned)

def restoreInput (st : CCoinsView × Bool) (out : COutPoint) (undo : CTxInUndo) :
    Except Failure (CCoinsView × Bool) :=
  let (view, fClean) := st
  let (coins, fFits) := undoRecord (view.coinsOrEmpty out.hash) undo
  let fClean := fClean && fFits && !coins.isAvailable out.n.toNat
  match coins.putOutput out.n undo.txout with
  | none => .error (.fault "coins.vout[out.n]")
  | some coins => .ok (view.setCoins out.hash coins, fClean)

def restoreInputs (tx : CTransaction) (vprevout : List CTxInUndo) (st : CCoinsView × Bool) :
    Except Failure (CCoinsView × Bool) :=
  if vprevout.length ≠ tx.vin.length then
    .error (.error "DisconnectBlock() : transaction and undo data inconsistent")
  else
    (tx.vin.zip vprevout).foldrM (fun input st => restoreInput st input.1.prevout input.2) st

variable (hash : Bytes → UInt256) (nHeight : Int32)

def removeOutputs (tx : CTransaction) (st : CCoinsView × Bool) : CCoinsView × Bool :=
  let (view, fClean) := st
  let txid := tx.getHash hash
  let fClean := fClean && view.haveCoins txid
  let outs := view.coinsOrEmpty txid
  let outsBlock := CCoins.ofTransaction tx nHeight
  -- a negative version does not survive the serialization
  let outs := if outsBlock.nVersion < 0 then { outs with nVersion := outsBlock.nVersion } else outs
  (view.setCoins txid .empty, fClean && outs = outsBlock)

/-- One turn of the loop; only the coinbase has no undo data. -/
def disconnectTransaction (tx : CTransaction × Option (List CTxInUndo)) (st : CCoinsView × Bool) :
    Except Failure (CCoinsView × Bool) :=
  match tx.2 with
  | none => .ok (removeOutputs hash nHeight tx.1 st)
  | some vprevout => restoreInputs tx.1 vprevout (removeOutputs hash nHeight tx.1 st)

def disconnectTransactions
    (vtx : List (CTransaction × Option (List CTxInUndo))) (view : CCoinsView) :
    Except Failure (CCoinsView × Bool) :=
  vtx.foldrM (disconnectTransaction hash nHeight) (view, true)

/-- `DisconnectBlock`, given what the undo file holds. The flag is `fClean`. -/
def disconnectBlock (keys : ECKeys) (hash : Bytes → UInt256) (block : CBlock)
    (pindex : CBlockIndex) (file : Option Bytes) (view : CCoinsView) :
    Except Failure (CCoinsView × Bool) :=
  if pindex.phashBlock ≠ view.best then
    .error (.assertion "pindex == view.GetBestBlock()")
  else if pindex.getUndoPos.isNull then
    .error (.error "DisconnectBlock() : no undo data available")
  else
    match pindex.pprev with
    | none => .error (.fault "pindex->pprev->GetBlockHash()")
    | some hashPrev => do
        let vtxundo ← readFromDisk keys hash hashPrev file
        if vtxundo.length + 1 ≠ block.vtx.length then
          .error (.error "DisconnectBlock() : block and undo data inconsistent")
        else
          let (view, fClean) ← disconnectTransactions hash pindex.nHeight
            (block.vtx.zip (none :: vtxundo.map some)) view
          .ok (view.setBestBlock pindex.pprev, fClean)

theorem disconnectBlock_ok {keys : ECKeys} {hash : Bytes → UInt256} {block : CBlock}
    {pindex : CBlockIndex} {file : Option Bytes} {view view' : CCoinsView} {fClean : Bool}
    (h : disconnectBlock keys hash block pindex file view = .ok (view', fClean)) :
    view'.best = pindex.pprev ∧ ∃ hashPrev vtxundo restored,
      readFromDisk keys hash hashPrev file = .ok vtxundo ∧
      vtxundo.length + 1 = block.vtx.length ∧ disconnectTransactions hash pindex.nHeight
        (block.vtx.zip (none :: vtxundo.map some)) view = .ok (restored, fClean) ∧
      view' = restored.setBestBlock pindex.pprev := by
  rw [disconnectBlock, ite_error_eq_ok_iff, ite_error_eq_ok_iff] at h
  cases hprev : pindex.pprev with
  | none => simp [hprev] at h
  | some hashPrev =>
    simp only [hprev, bind_eq_ok_iff, ite_error_eq_ok_iff] at h
    obtain ⟨-, -, vtxundo, hread, hlength, ⟨restored, clean⟩, hloop, hok⟩ := h
    cases hok
    exact ⟨rfl, hashPrev, vtxundo, restored, hread, not_not.mp hlength, hloop, rfl⟩

end CBlock

/-! ## Views that show the same coins -/

/-- A record on the way back and the one at the same place on the way forth. -/
structure CCoins.Restored (before after : CCoins) : Prop extends Same before after where
  clean : before.Clean → after.Clean

open CCoins

theorem CCoins.Restored.isPruned_eq {coins coins' : CCoins} (h : Restored coins coins') :
    coins'.isPruned = coins.isPruned := by
  rw [Bool.eq_iff_iff, isPruned_iff, isPruned_iff]
  simp only [h.unspent]

namespace CCoinsView

theorem eq_none_of_rel {o : Option CCoins} (h : Rel Restored none o) : o = none := by
  cases h
  rfl

theorem exists_of_rel {coins : CCoins} {o : Option CCoins} (h : Rel Restored (some coins) o) :
    ∃ coins', o = some coins' ∧ Restored coins coins' := by
  cases h with
  | some hrestored => exact ⟨_, rfl, hrestored⟩

/-- The views have the same records up to what a restored record may differ in. -/
def Tracks (view w : CCoinsView) : Prop :=
  ∀ txid, Rel Restored (view.entry txid) (w.entry txid)

section Tracks

variable {view w : CCoinsView} {txid : UInt256} {coins coins' : CCoins}

theorem coinsOrEmpty_of_entry_eq_some (h : w.entry txid = some coins) :
    w.coinsOrEmpty txid = coins := by
  rw [coinsOrEmpty, (entry_eq_some_iff.mp h).1, getD_some]

theorem isPruned_coinsOrEmpty (h : w.entry txid = none) :
    (w.coinsOrEmpty txid).isPruned = true := by
  rw [coinsOrEmpty]
  cases hcoins : w.coins txid with
  | none => rfl
  | some coins => exact entry_eq_none_iff.mp h coins hcoins

theorem Tracks.same (h : view.Tracks w) (txid : UInt256) :
    Rel Same (view.entry txid) (w.entry txid) := by
  have hrel := h txid
  generalize view.entry txid = before at hrel ⊢
  generalize w.entry txid = after at hrel ⊢
  cases hrel with
  | none => exact .none
  | some hrestored => exact .some hrestored.toSame

theorem Tracks.setCoins {replaced : CCoins} (h : Tracks (view.setCoins txid replaced) w)
    (hcoins : view.coins txid = some coins) (hrestored : Restored coins coins') :
    Tracks view (w.setCoins txid coins') := by
  intro other
  by_cases heq : other = txid
  · subst heq
    rw [entry_setCoins_self, entry, hcoins, filter_some, hrestored.isPruned_eq]
    cases coins.isPruned
    · exact .some hrestored
    · exact .none
  · rw [entry_setCoins_of_ne heq]
    have hother := h other
    rwa [entry_setCoins_of_ne heq] at hother

theorem Tracks.remove (h : Tracks (view.setCoins txid coins) w) (hvacant : view.Vacant txid) :
    Tracks view (w.setCoins txid .empty) := by
  intro other
  by_cases heq : other = txid
  · subst heq
    rw [entry_eq_none_iff.mpr hvacant, entry_setCoins_self]
    exact .none
  · rw [entry_setCoins_of_ne heq]
    have hother := h other
    rwa [entry_setCoins_of_ne heq] at hother

theorem tracks_reload (h : view.Storable) (keys : ECKeys) (kept : UInt256 → Bool) :
    view.Tracks (view.reload keys kept) := by
  intro txid
  simp only [entry, reload]
  cases hcoins : view.coins txid with
  | none => cases kept txid <;> exact .none
  | some coins =>
    cases hkept : kept txid with
    | true =>
      rw [if_pos rfl, filter_some]
      cases coins.isPruned
      · exact .some ⟨⟨rfl, rfl, fun _ => rfl, fun _ => rfl⟩, id⟩
      · exact .none
    | false =>
      have hrestored : Restored coins coins.stored :=
        ⟨coins.same_stored, fun _ => coins.clean_stored⟩
      have hsame := hrestored.isPruned_eq
      rw [if_neg Bool.false_ne_true, bind_some, reload_eq keys (h txid coins hcoins).1, filter_some]
      cases hpruned : coins.isPruned with
      | true => exact .none
      | false =>
        rw [if_neg Bool.false_ne_true, filter_some, hsame, hpruned]
        exact .some hrestored

end Tracks

end CCoinsView

/-! ## One input -/

namespace CBlock

open CTransaction List

variable {view w : CCoinsView} {coins : CCoins} {out : COutPoint} {txout : CTxOut}

theorem restored_spent {coins' : CCoins} {n : ℕ} (hunspent : coins.unspent n = some txout)
    (hbase : coins'.fCoinBase = coins.fCoinBase) (hheight : coins'.nHeight = coins.nHeight)
    (hversion : 0 ≤ coins.nVersion.toInt → coins'.nVersion = coins.nVersion)
    (hshown : ∀ m, coins'.unspent m = (coins.spent n).unspent m) (hclean : coins'.Clean) :
    Restored coins { coins' with vout := assign .null coins'.vout n txout } where
  fCoinBase := hbase
  nHeight := hheight
  nVersion := hversion
  unspent m := by
    rw [unspent_assign coins' (unspent_isNull hunspent), hshown, unspent_spent]
    by_cases hm : m = n
    · rw [if_pos hm, hm, hunspent]
    · rw [if_neg hm, if_neg hm]
  clean _ := trimmed_assign (unspent_isNull hunspent) hclean n

/-- The undo data fits the record it finds and gives back the record before the spend. -/
theorem undoRecord_stored {n : ℕ} (hheight : 0 < coins.nHeight.toInt)
    (hunspent : coins.unspent n = some txout)
    (h : Rel Restored
      (if (coins.spent n).isPruned then none else some (coins.spent n)) (w.entry out.hash)) :
    ∃ record, undoRecord (w.coinsOrEmpty out.hash) (coins.undo n txout).stored = (record, true) ∧
      record.isAvailable n = false ∧
      Restored coins { record with vout := assign .null record.vout n txout } := by
  cases hpruned : (coins.spent n).isPruned with
  | true =>
    rw [hpruned, if_pos rfl] at h
    have hpos : coins.nHeight.toUInt32 ≠ 0 := by
      intro hzero
      rw [← coins.nHeight.toInt32_toUInt32, hzero] at hheight
      exact absurd hheight (by decide)
    have hundo : (coins.undo n txout).stored = ⟨txout, coins.fCoinBase, coins.nHeight.toUInt32,
        Int32.ofInt (varIntImage coins.nVersion.toInt)⟩ := by
      rw [undo, hpruned, if_pos rfl, CTxInUndo.stored]
      simp only
      rw [if_pos (UInt32.pos_iff_ne_zero.mpr hpos)]
    refine ⟨⟨coins.fCoinBase, [], coins.nHeight, Int32.ofInt (varIntImage coins.nVersion.toInt)⟩,
      ?_, rfl, ?_⟩
    · rw [hundo, undoRecord, if_pos hpos, isPruned_coinsOrEmpty (eq_none_of_rel h)]
      rfl
    · refine restored_spent hunspent rfl rfl (fun hversion => ?_) (fun m => ?_) ?_
      · rw [varIntImage_of_nonneg hversion, Int32.ofInt_toInt]
      · rw [isPruned_iff.mp hpruned m]
        rfl
      · intro a ha
        cases ha
  | false =>
    rw [hpruned, if_neg Bool.false_ne_true] at h
    obtain ⟨other, hentry, hother⟩ := exists_of_rel h
    have hundo : (coins.undo n txout).stored = ofTxOut txout := by
      rw [undo, hpruned, if_neg Bool.false_ne_true]
      rfl
    refine ⟨other, ?_, ?_, ?_⟩
    · rw [hundo, undoRecord, coinsOrEmpty_of_entry_eq_some hentry]
      exact Prod.ext rfl (congrArg Bool.not (hother.isPruned_eq.trans hpruned))
    · rw [← Bool.not_eq_true, isAvailable_iff]
      rintro ⟨txout', htxout'⟩
      rw [hother.unspent, unspent_spent, if_pos rfl] at htxout'
      cases htxout'
    · exact restored_spent hunspent hother.fCoinBase hother.nHeight hother.nVersion
        hother.unspent (hother.clean (coins.clean_spent n))

theorem restoreInput_stored (fClean : Bool) (hcoins : view.coins out.hash = some coins)
    (hlength : coins.vout.length ≤ maxSize) (hheight : 0 < coins.nHeight.toInt)
    (hunspent : coins.unspent out.n.toNat = some txout)
    (h : (view.setCoins out.hash (coins.spent out.n.toNat)).Tracks w) :
    ∃ w', restoreInput (w, fClean) out (coins.undo out.n.toNat txout).stored = .ok (w', fClean) ∧
      view.Tracks w' := by
  have hrel := h out.hash
  rw [entry_setCoins_self] at hrel
  obtain ⟨record, hrecord, hnot, hrestored⟩ := undoRecord_stored hheight hunspent hrel
  have htxout : (coins.undo out.n.toNat txout).stored.txout = txout := by
    unfold undo
    split_ifs <;> rfl
  have hn : out.n.toNat + 1 < 2 ^ 32 := by
    have hlt := (List.getElem?_eq_some_iff.mp (live_eq_some_iff.mp hunspent).1).1
    simp only [maxSize] at hlength
    omega
  refine ⟨w.setCoins out.hash
    { record with vout := assign .null record.vout out.n.toNat txout }, ?_,
    h.setCoins hcoins hrestored⟩
  simp only [restoreInput, hrecord, htxout, putOutput_eq hn, hnot]
  simp

/-! ## The inputs of a transaction -/

section Inputs

variable {view' : CCoinsView} {vin : List CTxIn} {vprevout : List CTxInUndo}

theorem storable_spendInput {undo : CTxInUndo} (hview : view.Storable)
    (h : spendInput view out = .ok (view', undo)) : view'.Storable ∧ undo.Storable := by
  obtain ⟨coins, txout, hcoins, hunspent, rfl, rfl⟩ := spendInput_eq_ok_iff.mp h
  obtain ⟨hstorable, hheight⟩ := hview _ coins hcoins
  have htxout := hstorable.vout _ txout hunspent
  refine ⟨hview.setCoins (hstorable.spent _) hheight, ?_⟩
  unfold undo
  split_ifs
  · refine ⟨htxout, ?_⟩
    have hlt := coins.nHeight.toInt_lt
    rw [Int32.toNat_toUInt32_of_le (Int32.le_iff_toInt_le.mpr hheight.le), Int32.toNatClampNeg]
    omega
  · exact ⟨htxout, by simp [ofTxOut]⟩

theorem storable_spendInputs (hview : view.Storable)
    (h : spendInputs view vin = .ok (view', vprevout)) :
    view'.Storable ∧ vprevout.length = vin.length ∧ ∀ undo ∈ vprevout, undo.Storable := by
  induction vin generalizing view vprevout with
  | nil =>
    cases h
    exact ⟨hview, rfl, by simp⟩
  | cons txin vin ih =>
    obtain ⟨next, undo, rest, hfirst, hrest, rfl⟩ := spendInputs_cons_eq_ok_iff.mp h
    obtain ⟨hnext, hundo⟩ := storable_spendInput hview hfirst
    obtain ⟨hview', hlength, hall⟩ := ih hnext hrest
    refine ⟨hview', by simp [hlength], ?_⟩
    intro other hother
    rcases mem_cons.mp hother with rfl | hother
    · exact hundo
    · exact hall other hother

/-- Going back over the inputs meets the views of the way forth. -/
theorem foldrM_restoreInput (fClean : Bool) (hview : view.Storable)
    (hspend : spendInputs view vin = .ok (view', vprevout)) (h : view'.Tracks w) :
    ∃ w', (vin.zip (vprevout.map CTxInUndo.stored)).foldrM
        (fun input st => restoreInput st input.1.prevout input.2) (w, fClean) = .ok (w', fClean) ∧
      view.Tracks w' := by
  induction vin generalizing view vprevout with
  | nil =>
    cases hspend
    exact ⟨w, rfl, h⟩
  | cons txin vin ih =>
    obtain ⟨next, undo, rest, hfirst, hrest, rfl⟩ := spendInputs_cons_eq_ok_iff.mp hspend
    obtain ⟨back, hback, htracks⟩ := ih (storable_spendInput hview hfirst).1 hrest
    obtain ⟨coins, txout, hcoins, hunspent, rfl, rfl⟩ := spendInput_eq_ok_iff.mp hfirst
    obtain ⟨hstorable, hheight⟩ := hview _ coins hcoins
    obtain ⟨w', hw', htracks'⟩ := restoreInput_stored fClean hcoins hstorable.length hheight
      hunspent htracks
    refine ⟨w', ?_, htracks'⟩
    rw [map_cons, zip_cons_cons, foldrM_cons, hback, ok_bind]
    exact hw'

end Inputs

/-! ## The transactions of a block -/

section Transactions

variable {hash : Bytes → UInt256} {pindex : CBlockIndex} {tx : CTransaction} {st st' : ConnectState}

theorem removeOutputs_tracks (fClean : Bool) {nHeight : Int32} (hchecked : tx.Checked)
    (hvacant : view.Vacant (tx.getHash hash))
    (h : (view.setCoins (tx.getHash hash) (ofTransaction tx nHeight)).Tracks w) :
    ∃ w', removeOutputs hash nHeight tx (w, fClean) = (w', fClean) ∧ view.Tracks w' := by
  have hrel := h (tx.getHash hash)
  rw [entry_setCoins_self, hchecked.not_isPruned_ofTransaction, if_neg Bool.false_ne_true] at hrel
  obtain ⟨outs, hentry, houts⟩ := exists_of_rel hrel
  have hhave : w.haveCoins (tx.getHash hash) = true := by
    rw [haveCoins, (entry_eq_some_iff.mp hentry).1]
    rfl
  have hvout : outs.vout = tx.vout :=
    eq_of_live_eq (fun _ hmem => hchecked.isNull_eq_false hmem)
      (houts.clean (hchecked.clean_ofTransaction nHeight)) fun n => (houts.unspent n).symm
  have hsame : (if (ofTransaction tx nHeight).nVersion < 0 then
      { outs with nVersion := (ofTransaction tx nHeight).nVersion } else outs) =
        ofTransaction tx nHeight := by
    obtain ⟨fCoinBase, vout, nHeight', nVersion⟩ := outs
    obtain rfl : vout = tx.vout := hvout
    have hbase := houts.fCoinBase
    have hheight := houts.nHeight
    have hversion := houts.nVersion
    simp only at hbase hheight hversion
    subst hbase hheight
    split_ifs with hneg
    · rfl
    · rw [hversion (by
        rw [Int32.lt_iff_toInt_lt, not_lt] at hneg
        exact hneg)]
      rfl
  refine ⟨w.setCoins (tx.getHash hash) .empty, ?_, h.remove hvacant⟩
  simp only [removeOutputs, hhave, coinsOrEmpty_of_entry_eq_some hentry, hsame]
  simp

/-- The undo data of a turn can be stored and takes the view back. -/
theorem Turn.undone (hturn : Turn pindex (tx, tx.getHash hash) st st') (hchecked : tx.Checked)
    (hvacant : st.view.Vacant (tx.getHash hash)) (hview : st.view.Storable)
    (hheight : 0 < pindex.nHeight.toInt) :
    st'.view.Storable ∧ ∃ vprevout,
      st'.vtxundo = (if tx.isCoinBase then st.vtxundo else st.vtxundo ++ [vprevout]) ∧
      (vprevout.length ≤ maxSize ∧ ∀ undo ∈ vprevout, undo.Storable) ∧
      ∀ w fClean, st'.view.Tracks w → ∃ w', disconnectTransaction hash pindex.nHeight
          (tx, if tx.isCoinBase then none else some (vprevout.map stored)) (w, fClean) =
            .ok (w', fClean) ∧ st.view.Tracks w' := by
  obtain ⟨vprevout, hupdate, hvtxundo⟩ := hturn.updates
  obtain ⟨spent, hspent, hst'⟩ := updateCoins_eq_ok_iff.mp hupdate
  obtain ⟨hstorable, hlength, hall⟩ := storable_spendInputs hview hspent
  have hself : spent.Vacant (tx.getHash hash) := by
    intro coins hcoins
    rw [coins_spendInputs_of_notMem hspent (hturn.available.ne_of_vacant hvacant)] at hcoins
    exact hvacant coins hcoins
  have hvin : tx.spentInputs.length ≤ tx.vin.length := by
    unfold spentInputs
    split_ifs <;> simp
  have hsize := tx.length_vin_le.trans hchecked.size_le
  refine ⟨?_, vprevout, hvtxundo, ⟨?_, hall⟩, ?_⟩
  · rw [hst']
    exact hstorable.setCoins (storable_ofTransaction hchecked hheight.le) hheight
  · rw [hlength]
    exact hvin.trans (hsize.trans (by decide))
  · intro w fClean htracks
    rw [hst'] at htracks
    obtain ⟨removed, hremoved, hback⟩ := removeOutputs_tracks fClean hchecked hself htracks
    cases hcoinbase : tx.isCoinBase with
    | true =>
      have hsame : spent = st.view := by
        simp only [spentInputs, hcoinbase, if_true] at hspent
        cases hspent
        rfl
      exact ⟨removed, congrArg ok hremoved, hsame ▸ hback⟩
    | false =>
      have hinputs : tx.spentInputs = tx.vin := by simp [spentInputs, hcoinbase]
      rw [hinputs] at hspent hlength
      obtain ⟨w', hw', hfirst⟩ := foldrM_restoreInput fClean hview hspent hback
      refine ⟨w', ?_, hfirst⟩
      simp only [disconnectTransaction, Bool.false_eq_true, if_false, restoreInputs, hremoved]
      rw [if_neg (not_not.mpr (by rw [length_map, hlength])), hw']

/-- The undo data of the transactions after the coinbase takes the view back. -/
structure Undoes (hash : Bytes → UInt256) (nHeight : Int32) (vtx : List CTransaction)
    (vtxundo : List (List CTxInUndo)) (view view' : CCoinsView) : Prop where
  length : vtxundo.length = vtx.length
  storable : ∀ vprevout ∈ vtxundo, vprevout.length ≤ maxSize ∧ ∀ undo ∈ vprevout, undo.Storable
  back : ∀ w, view'.Tracks w → ∃ w', (vtx.zip ((stored vtxundo).map some)).foldrM
    (disconnectTransaction hash nHeight) (w, true) = .ok (w', true) ∧ view.Tracks w'

theorem Turns.undoes {vtx : List CTransaction} (hvtx : ∀ tx ∈ vtx, tx.isCoinBase = false)
    (h : Turns pindex (vtx.map fun tx => (tx, tx.getHash hash)) st st')
    (hview : st.view.Storable) (hheight : 0 < pindex.nHeight.toInt) :
    ∃ vtxundo, st'.vtxundo = st.vtxundo ++ vtxundo ∧
      Undoes hash pindex.nHeight vtx vtxundo st.view st'.view := by
  induction vtx generalizing st with
  | nil =>
    cases h
    exact ⟨[], by simp, ⟨rfl, by simp, fun w hw => ⟨w, rfl, hw⟩⟩⟩
  | cons tx vtx ih =>
    cases h with
    | @cons _ _ _ next _ hchecked hvacant hturn hrest =>
      obtain ⟨hnext, vprevout, hfirst, hstorable, hback⟩ :=
        hturn.undone hchecked hvacant hview hheight
      obtain ⟨vtxundo, hothers, hundoes⟩ :=
        ih (fun other hother => hvtx other (mem_cons_of_mem _ hother)) hrest hnext
      rw [hvtx tx (by simp), if_neg Bool.false_ne_true] at hfirst hback
      refine ⟨vprevout :: vtxundo, ?_, ?_, ?_, ?_⟩
      · rw [hothers, hfirst, append_assoc, singleton_append]
      · rw [length_cons, length_cons, hundoes.length]
      · intro other hother
        rcases mem_cons.mp hother with rfl | hother
        · exact hstorable
        · exact hundoes.storable other hother
      · intro w hw
        obtain ⟨mid, hmid, htracks⟩ := hundoes.back w hw
        obtain ⟨w', hw', htracks'⟩ := hback mid true htracks
        refine ⟨w', ?_, htracks'⟩
        rw [CBlockUndo.stored, map_cons, map_cons, zip_cons_cons, foldrM_cons]
        rw [CBlockUndo.stored] at hmid
        rw [hmid, ok_bind]
        exact hw'

end Transactions

theorem disconnectTransactions_ok {hash : Bytes → UInt256} {pindex : CBlockIndex} {block : CBlock}
    {st : ConnectState} (hchecked : block.Checked hash)
    (hturns : Turns pindex (block.vtx.map fun tx => (tx, tx.getHash hash))
      (connectStart block pindex view) st)
    (hview : view.Storable) (hheight : 0 < pindex.nHeight.toInt) :
    st.view.Storable ∧ Storable st.vtxundo ∧ st.vtxundo.length + 1 = block.vtx.length ∧
      ∀ w, st.view.Tracks w → ∃ w', disconnectTransactions hash pindex.nHeight
        (block.vtx.zip (none :: (stored st.vtxundo).map some)) w = .ok (w', true) ∧
          view.Tracks w' := by
  obtain ⟨coinbase, rest, hvtx, hcoinbase, hrest⟩ := hchecked.exists_coinBase
  have hlength : block.vtx.length ≤ maxSize :=
    block.length_vtx_le.trans (hchecked.size_le.trans (by decide))
  have hstorable : st.view.Storable := by
    refine hturns.preserves (motive := fun st => st.view.Storable) ?_ hview
    intro now tx htx next hnext hvacant hturn hnow
    obtain ⟨tx, -, rfl⟩ := mem_map.mp htx
    exact (hturn.undone hnext hvacant hnow hheight).1
  rw [hvtx] at hturns hlength
  rw [hvtx]
  cases hturns with
  | cons hfirst hvacant hturn hturns =>
    obtain ⟨hnext, vprevout, hnone, -, hback⟩ := hturn.undone hfirst hvacant hview hheight
    rw [hcoinbase, if_pos rfl] at hnone hback
    obtain ⟨vtxundo, hvtxundo, hundoes⟩ := hturns.undoes hrest hnext hheight
    rw [hnone] at hvtxundo
    change st.vtxundo = [] ++ vtxundo at hvtxundo
    rw [nil_append] at hvtxundo
    rw [hvtxundo]
    have hsize := hundoes.length
    rw [length_cons] at hlength
    refine ⟨hstorable, ⟨by omega, hundoes.storable⟩, by rw [hsize, length_cons], ?_⟩
    intro w hw
    obtain ⟨mid, hmid, htracks⟩ := hundoes.back w hw
    obtain ⟨w', hw', htracks'⟩ := hback mid true htracks
    refine ⟨w', ?_, htracks'⟩
    rw [disconnectTransactions, zip_cons_cons, foldrM_cons, hmid, ok_bind]
    exact hw'

/-- Disconnecting undoes connecting, also when the undo data and any of the coins have been to
disk in between: the way back is clean, ends at the parent and shows the coins there were. -/
theorem disconnectBlock_connectBlock (keys : ECKeys) {context : ConnectContext} {io : ConnectIo}
    {block : CBlock} {pindex pindex' : CBlockIndex} {connected : Connected} {parent : UInt256}
    (hgenesis : block.getHash context.hash ≠ hashGenesisBlock context.network)
    (hparent : pindex.pprev = some parent) (hheight : 0 < pindex.nHeight.toInt)
    (hexempt : isBip30Exempt pindex = false) (hview : view.Storable)
    (hconnect : (block.connectBlock context io view false).run pindex = (.ok connected, pindex'))
    (kept : UInt256 → Bool) (rest : Bytes) :
    ∃ view', block.disconnectBlock keys context.hash pindex'
        (some (writeToDisk keys context.hash parent connected.vtxundo ++ rest))
        (connected.view.reload keys kept) = .ok (view', true) ∧
      view'.best = view.best ∧
      ∀ txid, Rel Same (view.entry txid) (view'.entry txid) := by
  obtain ⟨hchecked, hbest, ⟨hno, -, -⟩ | ⟨-, st, hst, -, hconnected, hvtxundo, hpos, -⟩⟩ :=
    connectBlock_ok hconnect
  · exact absurd hno hgenesis
  · have hturns := turns_of_connectTransactions hchecked hexempt hst
    obtain ⟨hstorable, hundo, hlength, hback⟩ :=
      disconnectTransactions_ok hchecked hturns hview hheight
    have hreloaded : st.view.Tracks (connected.view.reload keys kept) := by
      rw [hconnected]
      exact tracks_reload hstorable keys kept
    obtain ⟨w', hw', htracks⟩ := hback _ hreloaded
    -- the index entry is still that of the block
    have hframe : pindex'.phashBlock = pindex.phashBlock ∧ pindex'.pprev = pindex.pprev ∧
        pindex'.nHeight = pindex.nHeight := by
      have hkeeps := keeps_connectBlock
        (f := fun pindex => (pindex.phashBlock, pindex.pprev, pindex.nHeight))
        ⟨⟨fun _ _ => rfl, fun _ => rfl⟩, fun _ _ => rfl⟩ context io block view false pindex
      rw [hconnect] at hkeeps
      simpa using hkeeps
    obtain ⟨hhash, hpprev, hsame⟩ := hframe
    have htip : pindex'.phashBlock = (connected.view.reload keys kept).best := by
      rw [hhash, hconnected]
      rfl
    refine ⟨w'.setBestBlock pindex'.pprev, ?_, hpprev.trans hbest, fun txid => ?_⟩
    · rw [disconnectBlock, if_neg (not_not.mpr htip), hpos, if_neg Bool.false_ne_true, hpprev,
        hparent]
      simp only
      rw [hvtxundo, readFromDisk_writeToDisk keys context.hash parent hundo rest,
        ok_bind, if_neg (by rw [CBlockUndo.stored, List.length_map]; exact not_not.mpr hlength),
        hsame, hw', ok_bind]
    · exact htracks.same txid

end CBlock

namespace Sample

def diskSha256d (m : Bytes) : UInt256 :=
  if m = Codec.leBytes 32 (hashGenesisBlock .official).toNat ++
      [2, 1, 2, 1, 10, 7, 81, 1, 2, 1, 197, 37, 7, 81] then
    0x69dba4e442f8f1aa79ea6c63a95ef8ea86d7ce6dcb28f3891d3fbeddd3ad456c
  else if m = Codec.leBytes 32 (hashGenesisBlock .official).toNat ++
      [2, 1, 0, 10, 7, 81, 1, 2, 1, 197, 37, 7, 81] then
    0x5341ce34b7f427bfc60346055519c474f794b6faf37df7b6671ee358a159d95
  else sha256d m

def diskContext : ConnectContext := { connectContext with hash := diskSha256d }

theorem storable_view : view.Storable := by
  intro txid coins hcoins
  simp only [view] at hcoins
  split_ifs at hcoins
  obtain rfl := some.inj hcoins
  refine ⟨⟨by decide, by decide, ?_⟩, by decide⟩
  intro n txout hout
  obtain ⟨hget, -⟩ := live_eq_some_iff.mp hout
  obtain rfl := List.mem_singleton.mp (List.mem_of_getElem? hget)
  exact ⟨by decide, by decide⟩

def hugeView : CCoinsView where
  coins txid :=
    if txid = 0x1111 then
      some ⟨false, [⟨1000000000, [0x51]⟩, ⟨9223372036854775807, []⟩], 1, 1⟩
    else none
  best := some (hashGenesisBlock .official)

def hugeBack : Option CTxOut := do
  let connected ← ((block.connectBlock diskContext connectIo hugeView false).run
    pindexBlock).1.toOption
  let back ← (block.disconnectBlock keys diskSha256d
    ((block.connectBlock diskContext connectIo hugeView false).run pindexBlock).2
    (some (writeToDisk keys diskSha256d (hashGenesisBlock .official)
      connected.vtxundo)) (connected.view.reload keys fun _ => false)).toOption
  let coins ← back.1.coins 0x1111
  coins.unspent 1

theorem hugeBack_eq : hugeBack = some ⟨-8198552921650578496, []⟩ := by
  decide +kernel

theorem connects_disk :
    ((block.connectBlock diskContext connectIo view false).run pindexBlock).1.toOption.isSome =
      true := by
  decide

theorem connects_huge : ((block.connectBlock diskContext connectIo hugeView false).run
      pindexBlock).1.toOption.isSome = true := by
  decide

end Sample

theorem CBlock.disconnectBlock_connectBlock_sample :
    ∃ connected pindex' view', (block.connectBlock diskContext connectIo view false).run
        pindexBlock = (.ok connected, pindex') ∧
      block.disconnectBlock keys diskSha256d pindex'
        (some (writeToDisk keys diskSha256d (hashGenesisBlock .official)
          connected.vtxundo ++ [0])) (connected.view.reload keys fun _ => false) =
            .ok (view', true) ∧
      view'.best = view.best ∧
      ∀ txid, Rel Same (view.entry txid) (view'.entry txid) := by
  have hconnects := connects_disk
  rcases hrun : (block.connectBlock diskContext connectIo view
    false).run pindexBlock with ⟨result, pindex'⟩
  rw [hrun] at hconnects
  cases result with
  | error failure => cases hconnects
  | ok connected =>
    obtain ⟨view', hback, hbest, hsame⟩ := disconnectBlock_connectBlock keys
      (by decide) rfl (by decide) (by decide) storable_view hrun (fun _ => false)
      [0]
    exact ⟨connected, pindex', view', rfl, hback, hbest, hsame⟩

/-- An amount above the money range does not survive the coin database. -/
theorem CBlock.disconnectBlock_loses_amount :
    (∀ txid coins, hugeView.coins txid = some coins → 0 < coins.nHeight.toInt) ∧
    ∃ connected pindex', (block.connectBlock diskContext connectIo hugeView false).run
        pindexBlock = (.ok connected, pindex') ∧
      ¬ ∃ view', block.disconnectBlock keys diskSha256d pindex'
          (some (writeToDisk keys diskSha256d (hashGenesisBlock .official)
            connected.vtxundo)) (connected.view.reload keys fun _ => false) = .ok (view', true) ∧
        view'.best = hugeView.best ∧
        ∀ txid, Rel Same (hugeView.entry txid) (view'.entry txid) := by
  refine ⟨?_, ?_⟩
  · intro txid coins hcoins
    simp only [hugeView] at hcoins
    split_ifs at hcoins
    obtain rfl := some.inj hcoins
    decide
  · have hconnects := connects_huge
    have hbackEq := hugeBack_eq
    unfold hugeBack at hbackEq
    rcases hrun : (block.connectBlock diskContext connectIo hugeView
      false).run pindexBlock with ⟨result, pindex'⟩
    rw [hrun] at hconnects hbackEq
    cases result with
    | error failure => cases hconnects
    | ok connected =>
      refine ⟨connected, pindex', rfl, ?_⟩
      rintro ⟨view', hback, -, hsame⟩
      simp only [Except.toOption, hback, bind_eq_bind, bind_some] at hbackEq
      obtain ⟨coins, hcoins, hlost⟩ := bind_eq_some_iff.mp hbackEq
      have hrel := hsame 0x1111
      have hbefore : hugeView.entry 0x1111 =
          some ⟨false, [⟨1000000000, [0x51]⟩, ⟨9223372036854775807, []⟩], 1, 1⟩ := rfl
      rw [hbefore] at hrel
      generalize hentry : view'.entry 0x1111 = after at hrel
      cases hrel with
      | some hsame =>
        rw [(entry_eq_some_iff.mp hentry).1, some.injEq] at hcoins
        rw [← hcoins, hsame.unspent] at hlost
        exact absurd hlost (by decide)

end Primecoin
