import Primecoin.Block.Disconnect

/-!
# Outputs across blocks

`Holds` says that a view has an output, with which coinbase flag and height. A block taken off
cleanly, `Retreats`, leaves every output but its own; a block put on, `Advances`, leaves every
output that it does not spend and adds its own.

The records of a `Genuine` view are records of known transactions. This lets an output survive the
coin database, and tells what is left of it when a block overwrites its record.
-/

namespace Primecoin

open List Except Option Slots
/-- A record of unspent outputs of the transaction. -/
structure CCoins.Of (tx : CTransaction) (coins : CCoins) : Prop where
  fCoinBase : coins.fCoinBase = tx.isCoinBase
  nHeight : 0 ≤ coins.nHeight.toInt
  length : coins.vout.length ≤ tx.vout.length
  unspent : ∀ n txout, coins.unspent n = some txout → tx.vout[n]? = some txout

open CCoins

namespace CCoins

variable {tx : CTransaction} {coins coins' : CCoins} {n : ℕ}

theorem of_ofTransaction (tx : CTransaction) {nHeight : Int32} (h : 0 ≤ nHeight.toInt) :
    (ofTransaction tx nHeight).Of tx where
  fCoinBase := rfl
  nHeight := h
  length := le_rfl
  unspent _ _ hout := (live_eq_some_iff.mp hout).1

theorem Of.spent (h : coins.Of tx) (n : ℕ) : (coins.spent n).Of tx where
  fCoinBase := h.fCoinBase
  nHeight := h.nHeight
  length := by
    have hle := (List.rdropWhile_prefix CTxOut.isNull (coins.vout.set n .null)).length_le
    rw [length_set] at hle
    exact hle.trans h.length
  unspent m txout hout := by
    rw [unspent_spent] at hout
    split_ifs at hout
    exact h.unspent m txout hout

theorem Of.putOutput (h : coins.Of tx) (hchecked : tx.Checked) {n : UInt32} {txout : CTxOut}
    (hout : tx.vout[n.toNat]? = some txout) (hput : coins.putOutput n txout = some coins') :
    coins'.Of tx := by
  have hlt := (List.getElem?_eq_some_iff.mp hout).1
  have hsize := tx.length_vout_le.trans hchecked.size_le
  simp only [maxBlockSize] at hsize
  rw [putOutput_eq (by omega), some.injEq] at hput
  subst hput
  refine ⟨h.fCoinBase, h.nHeight, ?_, fun m other hm => ?_⟩
  · have hlength := h.length
    simp only [assign, length_set, length_append, length_replicate]
    omega
  · rw [unspent_assign coins (hchecked.isNull_eq_false (mem_of_getElem? hout))] at hm
    split_ifs at hm with heq
    · rw [heq, ← hm]
      exact hout
    · exact h.unspent m other hm

theorem Of.storable (h : coins.Of tx) (hchecked : tx.Checked) : coins.Storable where
  nHeight := h.nHeight
  length := h.length.trans (storable_ofTransaction hchecked h.nHeight).length
  vout n txout hout := by
    have hget := h.unspent n txout hout
    refine (storable_ofTransaction hchecked h.nHeight).vout n txout ?_
    exact live_eq_some_iff.mpr ⟨hget, hchecked.isNull_eq_false (mem_of_getElem? hget)⟩

theorem Of.stored (h : coins.Of tx) : coins.stored.Of tx where
  fCoinBase := h.fCoinBase
  nHeight := h.nHeight
  length := by
    have hle := (List.rdropWhile_prefix CTxOut.isNull
      (canonical CTxOut.isNull .null coins.vout)).length_le
    rw [canonical, length_map] at hle
    exact hle.trans h.length
  unspent n txout hout := by
    rw [unspent_stored] at hout
    exact h.unspent n txout hout

theorem isPruned_eq_false_of_isAvailable (h : coins.isAvailable n = true) :
    coins.isPruned = false := by
  obtain ⟨txout, hout⟩ := isAvailable_iff.mp h
  exact not_isPruned_of_unspent hout

theorem lt_of_isAvailable (h : coins.isAvailable n = true) : n < coins.vout.length := by
  obtain ⟨txout, hout⟩ := isAvailable_iff.mp h
  exact (List.getElem?_eq_some_iff.mp (live_eq_some_iff.mp hout).1).1

theorem Of.isAvailable_ofTransaction (h : coins.Of tx) (hchecked : tx.Checked)
    (hn : coins.isAvailable n = true) (nHeight : Int32) :
    (ofTransaction tx nHeight).isAvailable n = true := by
  obtain ⟨txout, hout⟩ := isAvailable_iff.mp hn
  have hget := h.unspent n txout hout
  exact isAvailable_iff.mpr ⟨txout, live_eq_some_iff.mpr
    ⟨hget, hchecked.isNull_eq_false (mem_of_getElem? hget)⟩⟩

theorem isAvailable_ofTransaction_of_lt (hchecked : tx.Checked) (hn : n < tx.vout.length)
    (nHeight : Int32) : (ofTransaction tx nHeight).isAvailable n = true :=
  isAvailable_iff.mpr ⟨tx.vout[n], live_eq_some_iff.mpr
    ⟨getElem?_eq_getElem hn, hchecked.isNull_eq_false (getElem_mem hn)⟩⟩

theorem putOutput_of_ne {n : UInt32} {txout : CTxOut} {m : ℕ}
    (hput : coins.putOutput n txout = some coins') (hm : coins.isAvailable m = true)
    (hne : m ≠ n.toNat) :
    coins'.isAvailable m = true ∧ coins'.fCoinBase = coins.fCoinBase ∧
      coins'.nHeight = coins.nHeight := by
  have hlt := lt_of_isAvailable hm
  unfold putOutput at hput
  simp only at hput
  split_ifs at hput
  all_goals
    rw [some.injEq] at hput
    subst hput
    refine ⟨?_, rfl, rfl⟩
    simp only [isAvailable] at hm ⊢
    rw [getElem?_set_ne (Ne.symm hne)]
    first
      | rwa [getElem?_append_left hlt]
      | exact hm

end CCoins

namespace CCoinsView

/-- The output is there, in a record with the given coinbase flag and height. -/
def Holds (view : CCoinsView) (out : COutPoint) (fCoinBase : Bool) (nHeight : Int32) : Prop :=
  ∃ coins, view.coins out.hash = some coins ∧ coins.isAvailable out.n.toNat = true ∧
    coins.fCoinBase = fCoinBase ∧ coins.nHeight = nHeight

/-- Every record with an unspent output is one of a known transaction. -/
def Genuine (hash : Bytes → UInt256) (known : Set CTransaction) (view : CCoinsView) : Prop :=
  ∀ txid coins, view.coins txid = some coins → coins.isPruned = false →
    ∃ tx ∈ known, tx.Checked ∧ tx.getHash hash = txid ∧ coins.Of tx

variable {hash : Bytes → UInt256} {known : Set CTransaction} {view : CCoinsView}
  {out : COutPoint} {fCoinBase : Bool} {nHeight : Int32} {txid : UInt256} {coins : CCoins}

theorem Holds.setCoins_of_ne (h : view.Holds out fCoinBase nHeight) (hne : out.hash ≠ txid)
    (coins : CCoins) : (view.setCoins txid coins).Holds out fCoinBase nHeight := by
  obtain ⟨found, hfound, hrest⟩ := h
  exact ⟨found, by rw [coins_setCoins_of_ne hne, hfound], hrest⟩

theorem Genuine.setCoins (h : view.Genuine hash known) (hcoins : coins.isPruned = false →
      ∃ tx ∈ known, tx.Checked ∧ tx.getHash hash = txid ∧ coins.Of tx) :
    (view.setCoins txid coins).Genuine hash known := by
  intro other found hfound hpruned
  by_cases heq : other = txid
  · subst heq
    rw [coins_setCoins_self, some.injEq] at hfound
    subst hfound
    exact hcoins hpruned
  · rw [coins_setCoins_of_ne heq] at hfound
    exact h other found hfound hpruned

theorem Genuine.of (h : view.Genuine hash known)
    (hinj : Set.InjOn (CTransaction.getHash hash) known) {tx : CTransaction} (htx : tx ∈ known)
    (hcoins : view.coins (tx.getHash hash) = some coins) (hpruned : coins.isPruned = false) :
    tx.Checked ∧ coins.Of tx := by
  obtain ⟨other, hother, hchecked, hid, hof⟩ := h _ coins hcoins hpruned
  have hsame : other = tx := hinj hother htx hid
  rw [hsame] at hchecked hof
  exact ⟨hchecked, hof⟩

theorem Holds.reload (h : view.Holds out fCoinBase nHeight) (hview : view.Genuine hash known)
    (keys : ECKeys) (kept : UInt256 → Bool) :
    (view.reload keys kept).Holds out fCoinBase nHeight := by
  obtain ⟨coins, hcoins, havailable, hbase, hheight⟩ := h
  have hpruned := isPruned_eq_false_of_isAvailable havailable
  obtain ⟨tx, -, hchecked, -, hof⟩ := hview _ coins hcoins hpruned
  cases hkept : kept out.hash with
  | true => exact ⟨coins, by simp [CCoinsView.reload, hkept, hcoins], havailable, hbase, hheight⟩
  | false =>
    have hsame := coins.same_stored
    refine ⟨coins.stored, ?_, ?_, hsame.fCoinBase.trans hbase, hsame.nHeight.trans hheight⟩
    · simp only [CCoinsView.reload, hkept, Bool.false_eq_true, if_false, hcoins, bind_some]
      rw [reload_eq keys (hof.storable hchecked), hpruned, if_neg Bool.false_ne_true]
    · rw [isAvailable_iff] at havailable ⊢
      rwa [hsame.unspent]

theorem Genuine.reload (h : view.Genuine hash known) (keys : ECKeys) (kept : UInt256 → Bool) :
    (view.reload keys kept).Genuine hash known := by
  intro txid coins hcoins hpruned
  simp only [CCoinsView.reload] at hcoins
  split_ifs at hcoins
  · exact h txid coins hcoins hpruned
  · obtain ⟨found, hfound, hreload⟩ := bind_eq_some_iff.mp hcoins
    have hkept : found.isPruned = false := by
      cases hpruned' : found.isPruned with
      | false => rfl
      | true => simp [CCoins.reload, hpruned'] at hreload
    obtain ⟨tx, htx, hchecked, hid, hof⟩ := h txid found hfound hkept
    rw [reload_eq keys (hof.storable hchecked), hkept, if_neg Bool.false_ne_true,
      some.injEq] at hreload
    exact ⟨tx, htx, hchecked, hid, hreload ▸ hof.stored⟩

theorem Holds.unique {fCoinBase' : Bool} {nHeight' : Int32} (h : view.Holds out fCoinBase nHeight)
    (h' : view.Holds out fCoinBase' nHeight') : fCoinBase' = fCoinBase ∧ nHeight' = nHeight := by
  obtain ⟨coins, hcoins, -, rfl, rfl⟩ := h
  obtain ⟨found, hfound, -, rfl, rfl⟩ := h'
  rw [hcoins, some.injEq] at hfound
  exact ⟨by rw [hfound], by rw [hfound]⟩

theorem Genuine.isCoinBase_eq (h : view.Genuine hash known)
    (hinj : Set.InjOn (CTransaction.getHash hash) known) {tx : CTransaction} (htx : tx ∈ known)
    (hid : tx.getHash hash = out.hash) (hholds : view.Holds out fCoinBase nHeight) :
    tx.isCoinBase = fCoinBase := by
  obtain ⟨coins, hcoins, havailable, rfl, -⟩ := hholds
  rw [← hid] at hcoins
  exact (h.of hinj htx hcoins (isPruned_eq_false_of_isAvailable havailable)).2.fCoinBase.symm

theorem Genuine.fCoinBase_eq {view' : CCoinsView} (h : view.Genuine hash known)
    (h' : view'.Genuine hash known) (hinj : Set.InjOn (CTransaction.getHash hash) known)
    {fCoinBase' : Bool} {nHeight' : Int32} (hholds : view.Holds out fCoinBase nHeight)
    (hholds' : view'.Holds out fCoinBase' nHeight') : fCoinBase' = fCoinBase := by
  obtain ⟨coins, hcoins, havailable, -, -⟩ := id hholds
  obtain ⟨tx, htx, -, hid, -⟩ :=
    h _ coins hcoins (isPruned_eq_false_of_isAvailable havailable)
  rw [← h.isCoinBase_eq hinj htx hid hholds, h'.isCoinBase_eq hinj htx hid hholds']

end CCoinsView

/-! ## Putting blocks on -/

def SpentBy (txs : List CTransaction) (out : COutPoint) : Prop :=
  ∃ tx ∈ txs, out ∈ tx.spentInputs.map CTxIn.prevout

theorem SpentBy.mono {txs txs' : List CTransaction} {out : COutPoint} (hsub : txs ⊆ txs')
    (h : SpentBy txs out) : SpentBy txs' out := by
  obtain ⟨tx, htx, hout⟩ := h
  exact ⟨tx, hsub htx, hout⟩

namespace CCoinsView

/-- What the transactions do to a view when they are connected. -/
structure Advances (hash : Bytes → UInt256) (txs : List CTransaction) (view view' : CCoinsView) :
    Prop where
  kept : ∀ out fCoinBase nHeight, view.Holds out fCoinBase nHeight → SpentBy txs out ∨
    ∃ nHeight', view'.Holds out fCoinBase nHeight' ∧
      (nHeight' = nHeight ∨ ∃ tx ∈ txs, tx.getHash hash = out.hash)
  created : ∀ tx ∈ txs, tx.isCoinBase = false → ∀ n : UInt32, n.toNat < tx.vout.length →
    SpentBy txs ⟨tx.getHash hash, n⟩ ∨ ∃ nHeight, view'.Holds ⟨tx.getHash hash, n⟩ false nHeight

variable {hash : Bytes → UInt256} {known : Set CTransaction} {view mid view' : CCoinsView}

theorem advances_nil (hash : Bytes → UInt256) (view : CCoinsView) : Advances hash [] view view where
  kept _ _ nHeight h := Or.inr ⟨nHeight, h, Or.inl rfl⟩
  created := by simp

theorem Advances.of_holds {txs : List CTransaction} (h : Advances hash txs view mid)
    (hholds : ∀ out fCoinBase nHeight, mid.Holds out fCoinBase nHeight →
      view'.Holds out fCoinBase nHeight) : Advances hash txs view view' where
  kept out fCoinBase nHeight hout := by
    refine (h.kept out fCoinBase nHeight hout).imp_right ?_
    rintro ⟨nHeight', hmid, hheight⟩
    exact ⟨nHeight', hholds _ _ _ hmid, hheight⟩
  created tx htx hloose n hn := by
    refine (h.created tx htx hloose n hn).imp_right ?_
    rintro ⟨nHeight, hmid⟩
    exact ⟨nHeight, hholds _ _ _ hmid⟩

theorem Advances.append {txs txs' : List CTransaction} (h : Advances hash txs view mid)
    (h' : Advances hash txs' mid view') : Advances hash (txs ++ txs') view view' where
  kept out fCoinBase nHeight hholds := by
    rcases h.kept out fCoinBase nHeight hholds with hspent | ⟨height, hmid, hsame⟩
    · exact Or.inl (hspent.mono (subset_append_left txs txs'))
    · rcases h'.kept out fCoinBase height hmid with hspent | ⟨height', hlast, hsame'⟩
      · exact Or.inl (hspent.mono (subset_append_right txs txs'))
      · refine Or.inr ⟨height', hlast, ?_⟩
        rcases hsame' with rfl | ⟨tx, htx, hid⟩
        · rcases hsame with rfl | ⟨tx, htx, hid⟩
          · exact Or.inl rfl
          · exact Or.inr ⟨tx, mem_append_left _ htx, hid⟩
        · exact Or.inr ⟨tx, mem_append_right _ htx, hid⟩
  created tx htx hbase n hn := by
    rcases mem_append.mp htx with htx | htx
    · rcases h.created tx htx hbase n hn with hspent | ⟨height, hmid⟩
      · exact Or.inl (hspent.mono (subset_append_left txs txs'))
      · rcases h'.kept _ _ _ hmid with hspent | ⟨height', hlast, -⟩
        · exact Or.inl (hspent.mono (subset_append_right txs txs'))
        · exact Or.inr ⟨height', hlast⟩
    · exact (h'.created tx htx hbase n hn).imp_left (SpentBy.mono (subset_append_right txs txs'))

end CCoinsView

namespace CTransaction

open CCoinsView

variable {hash : Bytes → UInt256} {known : Set CTransaction} {view view' : CCoinsView}
  {tx : CTransaction} {vin : List CTxIn} {out : COutPoint} {fCoinBase : Bool} {nHeight : Int32}
  {vprevout : List CTxInUndo}

theorem genuine_spendInputs (hview : view.Genuine hash known)
    (h : spendInputs view vin = .ok (view', vprevout)) : view'.Genuine hash known := by
  induction vin generalizing view vprevout with
  | nil =>
    cases h
    exact hview
  | cons txin vin ih =>
    obtain ⟨next, undo, rest, hfirst, hrest, -⟩ := spendInputs_cons_eq_ok_iff.mp h
    obtain ⟨coins, txout, hcoins, hunspent, rfl, -⟩ := spendInput_eq_ok_iff.mp hfirst
    refine ih (hview.setCoins fun _ => ?_) hrest
    obtain ⟨tx, htx, hchecked, hid, hof⟩ :=
      hview _ coins hcoins (not_isPruned_of_unspent hunspent)
    exact ⟨tx, htx, hchecked, hid, hof.spent _⟩

theorem holds_spendInput {undo : CTxInUndo} {other : COutPoint}
    (h : spendInput view other = .ok (view', undo)) (hne : out ≠ other)
    (hholds : view.Holds out fCoinBase nHeight) : view'.Holds out fCoinBase nHeight := by
  obtain ⟨coins, txout, hcoins, -, rfl, -⟩ := spendInput_eq_ok_iff.mp h
  by_cases hhash : out.hash = other.hash
  · obtain ⟨found, hfound, havailable, hbase, hheight⟩ := hholds
    rw [hhash, hcoins, some.injEq] at hfound
    subst hfound
    have hn : out.n.toNat ≠ other.n.toNat := by
      intro hn
      refine hne ?_
      cases out
      cases other
      simp_all [UInt32.toNat_inj]
    refine ⟨coins.spent other.n.toNat, by rw [hhash, coins_setCoins_self], ?_, hbase, hheight⟩
    rw [isAvailable_iff] at havailable ⊢
    rwa [unspent_spent, if_neg hn]
  · exact hholds.setCoins_of_ne hhash _

theorem holds_spendInputs
    (h : spendInputs view vin = .ok (view', vprevout)) (hout : out ∉ vin.map CTxIn.prevout)
    (hholds : view.Holds out fCoinBase nHeight) : view'.Holds out fCoinBase nHeight := by
  induction vin generalizing view vprevout with
  | nil =>
    cases h
    exact hholds
  | cons txin vin ih =>
    obtain ⟨next, undo, rest, hfirst, hrest, -⟩ := spendInputs_cons_eq_ok_iff.mp h
    rw [map_cons, mem_cons, not_or] at hout
    exact ih hrest hout.2 (holds_spendInput hfirst hout.1 hholds)

/-- If the transaction overwrites a record of unspent outputs, that record is its own. -/
theorem advances_updateCoins (hview : view.Genuine hash known)
    (hinj : Set.InjOn (CTransaction.getHash hash) known) (htx : tx ∈ known)
    (hchecked : tx.Checked)
    (h : tx.updateCoins view nHeight (tx.getHash hash) = .ok (view', vprevout)) :
    Advances hash [tx] view view' := by
  obtain ⟨spent, hspent, rfl⟩ := updateCoins_eq_ok_iff.mp h
  constructor
  · intro out fCoinBase height hholds
    by_cases hout : out ∈ tx.spentInputs.map CTxIn.prevout
    · exact Or.inl ⟨tx, by simp, hout⟩
    · right
      by_cases hid : out.hash = tx.getHash hash
      · obtain ⟨coins, hcoins, havailable, hbase, -⟩ := hholds
        rw [hid] at hcoins
        obtain ⟨-, hof⟩ := hview.of hinj htx hcoins (isPruned_eq_false_of_isAvailable havailable)
        refine ⟨nHeight, ⟨_, by rw [hid, coins_setCoins_self],
          hof.isAvailable_ofTransaction hchecked havailable nHeight, ?_, rfl⟩,
          Or.inr ⟨tx, by simp, hid.symm⟩⟩
        rw [← hbase, hof.fCoinBase]
        rfl
      · exact ⟨height, (holds_spendInputs hspent hout hholds).setCoins_of_ne hid _, Or.inl rfl⟩
  · intro other hother hbase n hn
    rw [mem_singleton] at hother
    subst hother
    refine Or.inr ⟨nHeight, ?_⟩
    rw [← hbase]
    exact ⟨_, coins_setCoins_self .., isAvailable_ofTransaction_of_lt hchecked hn nHeight, rfl, rfl⟩

theorem genuine_updateCoins (hview : view.Genuine hash known)
    (htx : tx ∈ known) (hchecked : tx.Checked) (hheight : 0 ≤ nHeight.toInt)
    (h : tx.updateCoins view nHeight (tx.getHash hash) = .ok (view', vprevout)) :
    view'.Genuine hash known := by
  obtain ⟨spent, hspent, rfl⟩ := updateCoins_eq_ok_iff.mp h
  exact (genuine_spendInputs hview hspent).setCoins fun _ =>
    ⟨tx, htx, hchecked, rfl, of_ofTransaction tx hheight⟩

end CTransaction

namespace CBlock

open CCoinsView CTransaction

variable {hash : Bytes → UInt256} {known : Set CTransaction} {view view' : CCoinsView}
  {context : ConnectContext}

theorem advances_foldlM {pindex : CBlockIndex}
    (hinj : Set.InjOn (CTransaction.getHash context.hash) known)
    (hheight : 0 ≤ pindex.nHeight.toInt) {txs : List CTransaction} {st st' : ConnectState}
    (hknown : ∀ tx ∈ txs, tx ∈ known) (hchecked : ∀ tx ∈ txs, tx.Checked)
    (hview : st.view.Genuine context.hash known)
    (h : (txs.map fun tx => (tx, tx.getHash context.hash)).foldlM
      (connectTransaction context pindex) st = .ok st') :
    Advances context.hash txs st.view st'.view ∧ st'.view.Genuine context.hash known := by
  induction txs generalizing st with
  | nil =>
    cases h
    exact ⟨advances_nil _ _, hview⟩
  | cons tx txs ih =>
    rw [map_cons, foldlM_cons, bind_eq_ok_iff] at h
    obtain ⟨next, hnext, hrest⟩ := h
    have htx := hchecked tx (by simp)
    obtain ⟨vprevout, hupdate, -⟩ := (connectTransaction_ok htx hnext).updates
    have hfirst := advances_updateCoins hview hinj (hknown tx (by simp)) htx hupdate
    have hgenuine := genuine_updateCoins hview (hknown tx (by simp)) htx hheight hupdate
    obtain ⟨hlast, hview'⟩ := ih (fun other hother => hknown other (mem_cons_of_mem _ hother))
      (fun other hother => hchecked other (mem_cons_of_mem _ hother)) hgenuine hrest
    exact ⟨hfirst.append hlast, hview'⟩

theorem advances_connectBlock {io : ConnectIo} {block : CBlock}
    {pindex pindex' : CBlockIndex} {connected : Connected}
    (hinj : Set.InjOn (CTransaction.getHash context.hash) known)
    (hheight : 0 ≤ pindex.nHeight.toInt) (hknown : ∀ tx ∈ block.vtx, tx ∈ known)
    (hgenesis : block.getHash context.hash = hashGenesisBlock context.network →
      ∀ tx ∈ block.vtx, tx.isCoinBase = true) (hview : view.Genuine context.hash known)
    (h : (connectBlock context io block view false).run pindex = (.ok connected, pindex')) :
    Advances context.hash block.vtx view connected.view ∧
      connected.view.Genuine context.hash known := by
  obtain ⟨hchecked, -, ⟨hhash, rfl, -⟩ | ⟨-, st, hst, -, hconnected, -⟩⟩ := connectBlock_ok h
  · refine ⟨⟨fun out fCoinBase nHeight hholds => Or.inr ⟨nHeight, hholds, Or.inl rfl⟩, ?_⟩, hview⟩
    intro tx htx hbase
    rw [hgenesis hhash tx htx] at hbase
    cases hbase
  · rw [connectTransactions, ite_error_eq_ok_iff, txWithHashes_eq] at hst
    have hstart : (connectStart block pindex view).view.Genuine context.hash known := hview
    obtain ⟨hadvances, hgenuine⟩ :=
      advances_foldlM hinj hheight hknown hchecked.checked hstart hst.2
    rw [hconnected]
    exact ⟨⟨hadvances.kept, hadvances.created⟩, hgenuine⟩

end CBlock

/-! ## Taking blocks off -/

def CTxInUndo.Genuine (hash : Bytes → UInt256) (known : Set CTransaction) (out : COutPoint)
    (undo : CTxInUndo) : Prop :=
  ∃ tx ∈ known, tx.Checked ∧ tx.getHash hash = out.hash ∧ tx.vout[out.n.toNat]? = some undo.txout ∧
    (undo.nHeight ≠ 0 → undo.fCoinBase = tx.isCoinBase ∧ 0 ≤ undo.nHeight.toInt32.toInt)

def CBlockUndo.Genuine (hash : Bytes → UInt256) (known : Set CTransaction)
    (vtx : List CTransaction) (vtxundo : List (List CTxInUndo)) : Prop :=
  ∀ tx vprevout, (tx, some vprevout) ∈ vtx.zip (none :: vtxundo.map some) →
    ∀ input ∈ tx.vin.zip vprevout, input.2.Genuine hash known input.1.prevout

namespace CCoinsView

/-- What becomes of the outputs of a view when the transactions are taken off. -/
structure Retreats (hash : Bytes → UInt256) (known : Set CTransaction) (txs : List CTransaction)
    (view view' : CCoinsView) : Prop where
  kept : ∀ out fCoinBase nHeight, view.Holds out fCoinBase nHeight →
    view'.Holds out fCoinBase nHeight ∨
      ∃ tx ∈ txs, tx.getHash hash = out.hash ∧ out.n.toNat < tx.vout.length ∧
        tx.isCoinBase = fCoinBase
  genuine : view.Genuine hash known → view'.Genuine hash known

variable {hash : Bytes → UInt256} {known : Set CTransaction} {txs txs' : List CTransaction}
  {view mid view' : CCoinsView}

theorem retreats_nil (hash : Bytes → UInt256) (known : Set CTransaction) (view : CCoinsView) :
    Retreats hash known [] view view := ⟨fun _ _ _ h => Or.inl h, id⟩

theorem Retreats.append (h : Retreats hash known txs view mid)
    (h' : Retreats hash known txs' mid view') : Retreats hash known (txs ++ txs') view view' where
  kept out fCoinBase nHeight hholds := by
    rcases h.kept out fCoinBase nHeight hholds with hmid | ⟨tx, htx, hrest⟩
    · rcases h'.kept out fCoinBase nHeight hmid with hlast | ⟨tx, htx, hrest⟩
      · exact Or.inl hlast
      · exact Or.inr ⟨tx, mem_append_right _ htx, hrest⟩
    · exact Or.inr ⟨tx, mem_append_left _ htx, hrest⟩
  genuine hview := h'.genuine (h.genuine hview)

theorem Retreats.mono (hsub : txs ⊆ txs') (h : Retreats hash known txs view view') :
    Retreats hash known txs' view view' where
  kept out fCoinBase nHeight hholds := by
    refine (h.kept out fCoinBase nHeight hholds).imp_right ?_
    rintro ⟨tx, htx, hrest⟩
    exact ⟨tx, hsub htx, hrest⟩
  genuine := h.genuine

end CCoinsView

namespace CBlock

open CCoinsView

variable {hash : Bytes → UInt256} {known : Set CTransaction} {view view' : CCoinsView}
  {fClean : Bool} {out : COutPoint} {undo : CTxInUndo} {nHeight : Int32}

theorem removeOutputs_clean {tx : CTransaction}
    (h : removeOutputs hash nHeight tx (view, fClean) = (view', true)) :
    fClean = true ∧ Retreats hash known [tx] view view' := by
  simp only [removeOutputs, Prod.mk.injEq, Bool.and_eq_true, decide_eq_true_eq] at h
  obtain ⟨rfl, ⟨hclean, -⟩, houts⟩ := h
  have hfields : (view.coinsOrEmpty (tx.getHash hash)).vout = tx.vout ∧
      (view.coinsOrEmpty (tx.getHash hash)).fCoinBase = tx.isCoinBase := by
    split_ifs at houts
    · exact ⟨congrArg vout houts, congrArg fCoinBase houts⟩
    · exact ⟨congrArg vout houts, congrArg fCoinBase houts⟩
  refine ⟨hclean, fun out fCoinBase height hholds => ?_, fun hview => hview.setCoins ?_⟩
  · by_cases hid : out.hash = tx.getHash hash
    · obtain ⟨coins, hcoins, havailable, hbase, -⟩ := hholds
      rw [hid] at hcoins
      rw [coinsOrEmpty, hcoins, getD_some] at hfields
      refine Or.inr ⟨tx, by simp, hid.symm, ?_, hfields.2.symm.trans hbase⟩
      rw [← hfields.1]
      exact lt_of_isAvailable havailable
    · exact Or.inl (hholds.setCoins_of_ne hid _)
  · intro hpruned
    cases hpruned

theorem restoreInput_ok (h : restoreInput (view, fClean) out undo = .ok (view', true)) :
    fClean = true ∧ ∃ record coins, undoRecord (view.coinsOrEmpty out.hash) undo = (record, true) ∧
      record.isAvailable out.n.toNat = false ∧ record.putOutput out.n undo.txout = some coins ∧
      view' = view.setCoins out.hash coins := by
  rcases hrecord : undoRecord (view.coinsOrEmpty out.hash) undo with ⟨record, fFits⟩
  simp only [restoreInput, hrecord] at h
  cases hput : record.putOutput out.n undo.txout with
  | none =>
    rw [hput] at h
    cases h
  | some coins =>
    rw [hput] at h
    simp only [ok.injEq, Prod.mk.injEq, Bool.and_eq_true, Bool.not_eq_true'] at h
    obtain ⟨rfl, ⟨hclean, rfl⟩, hempty⟩ := h
    exact ⟨hclean, record, coins, rfl, hempty, hput, rfl⟩

theorem holds_restoreInput (h : restoreInput (view, fClean) out undo = .ok (view', true))
    {other : COutPoint} {fCoinBase : Bool}
    (hholds : view.Holds other fCoinBase nHeight) : view'.Holds other fCoinBase nHeight := by
  obtain ⟨-, record, coins', hrecord, hempty, hput, rfl⟩ := restoreInput_ok h
  by_cases hid : other.hash = out.hash
  · obtain ⟨coins, hcoins, havailable, hbase, hheight⟩ := hholds
    rw [hid] at hcoins
    have hpruned := isPruned_eq_false_of_isAvailable havailable
    rw [coinsOrEmpty, hcoins, getD_some, undoRecord] at hrecord
    split_ifs at hrecord with hnew
    · -- the record would have to be empty
      rw [Prod.mk.injEq, hpruned] at hrecord
      cases hrecord.2
    · rw [Prod.mk.injEq] at hrecord
      rw [← hrecord.1] at hput hempty
      have hne : other.n.toNat ≠ out.n.toNat := by
        intro hn
        rw [← hn, havailable] at hempty
        cases hempty
      obtain ⟨hkept, hbase', hheight'⟩ := putOutput_of_ne hput havailable hne
      exact ⟨coins', by rw [hid, coins_setCoins_self], hkept, hbase'.trans hbase,
        hheight'.trans hheight⟩
  · exact hholds.setCoins_of_ne hid _

section

variable (hinj : Set.InjOn (CTransaction.getHash hash) known)
include hinj

theorem genuine_restoreInput (hundo : undo.Genuine hash known out) (hview : view.Genuine hash known)
    (h : restoreInput (view, fClean) out undo = .ok (view', true)) : view'.Genuine hash known := by
  obtain ⟨parent, hparent, hchecked, hid, hout, hmetadata⟩ := hundo
  obtain ⟨-, record, coins', hrecord, -, hput, rfl⟩ := restoreInput_ok h
  have hof : record.Of parent := by
    rw [undoRecord] at hrecord
    split_ifs at hrecord with hnew
    · rw [Prod.mk.injEq] at hrecord
      rw [← hrecord.1]
      obtain ⟨hbase, hheight⟩ := hmetadata hnew
      exact ⟨hbase, hheight, Nat.zero_le _, fun n txout hn => by cases hn⟩
    · rw [Prod.mk.injEq, Bool.not_eq_true'] at hrecord
      obtain ⟨rfl, hpruned⟩ := hrecord
      cases hcoins : view.coins out.hash with
      | none =>
        rw [coinsOrEmpty, hcoins] at hpruned
        cases hpruned
      | some coins =>
        rw [coinsOrEmpty, hcoins, getD_some] at hpruned ⊢
        rw [← hid] at hcoins
        exact (hview.of hinj hparent hcoins hpruned).2
  exact hview.setCoins fun _ =>
    ⟨parent, hparent, hchecked, hid, hof.putOutput hchecked hout hput⟩

theorem foldrM_restoreInput_clean {inputs : List (CTxIn × CTxInUndo)}
    (hundo : ∀ input ∈ inputs, input.2.Genuine hash known input.1.prevout)
    (h : inputs.foldrM (fun input st => restoreInput st input.1.prevout input.2) (view, fClean) =
      .ok (view', true)) : fClean = true ∧ Retreats hash known [] view view' := by
  induction inputs generalizing view' with
  | nil =>
    cases h
    exact ⟨rfl, retreats_nil hash known view⟩
  | cons input inputs ih =>
    rw [foldrM_cons, bind_eq_ok_iff] at h
    obtain ⟨⟨mid, fMid⟩, hrest, hfirst⟩ := h
    obtain ⟨rfl, -⟩ := restoreInput_ok hfirst
    obtain ⟨hclean, hmid⟩ :=
      ih (fun other hother => hundo other (mem_cons_of_mem _ hother)) hrest
    refine ⟨hclean, hmid.append ⟨fun _ _ _ hholds => Or.inl (holds_restoreInput hfirst hholds),
      fun hview => genuine_restoreInput hinj (hundo input (by simp)) hview hfirst⟩⟩

theorem disconnectTransaction_clean {tx : CTransaction × Option (List CTxInUndo)}
    (hundo : ∀ vprevout, tx.2 = some vprevout → ∀ input ∈ tx.1.vin.zip vprevout,
      input.2.Genuine hash known input.1.prevout)
    (h : disconnectTransaction hash nHeight tx (view, fClean) = .ok (view', true)) :
    fClean = true ∧ Retreats hash known [tx.1] view view' := by
  obtain ⟨tx, vprevout⟩ := tx
  rcases hremoved : removeOutputs hash nHeight tx (view, fClean) with ⟨removed, fRemoved⟩
  cases vprevout with
  | none =>
    simp only [disconnectTransaction, hremoved, ok.injEq, Prod.mk.injEq] at h
    obtain ⟨rfl, rfl⟩ := h
    exact removeOutputs_clean hremoved
  | some vprevout =>
    simp only [disconnectTransaction, hremoved, restoreInputs, ite_error_eq_ok_iff] at h
    obtain ⟨rfl, hrestored⟩ := foldrM_restoreInput_clean hinj (hundo vprevout rfl) h.2
    have hclean : fClean = true ∧ Retreats hash known [tx] view removed :=
      removeOutputs_clean hremoved
    exact ⟨hclean.1, hclean.2.append hrestored⟩

theorem disconnectTransactions_clean {vtx : List (CTransaction × Option (List CTxInUndo))}
    (hundo : ∀ tx ∈ vtx, ∀ vprevout, tx.2 = some vprevout → ∀ input ∈ tx.1.vin.zip vprevout,
      input.2.Genuine hash known input.1.prevout)
    (h : disconnectTransactions hash nHeight vtx view = .ok (view', true)) :
    Retreats hash known (vtx.map Prod.fst) view view' := by
  rw [disconnectTransactions] at h
  induction vtx generalizing view' with
  | nil =>
    cases h
    exact retreats_nil hash known view
  | cons tx vtx ih =>
    rw [foldrM_cons, bind_eq_ok_iff] at h
    obtain ⟨⟨mid, fMid⟩, hrest, hfirst⟩ := h
    obtain ⟨rfl, hretreats⟩ := disconnectTransaction_clean hinj (hundo tx (by simp)) hfirst
    have hmid := ih (fun other hother => hundo other (mem_cons_of_mem _ hother)) hrest
    refine (hmid.append hretreats).mono ?_
    simp

end

theorem disconnectBlock_clean {keys : ECKeys} (hinj : Set.InjOn (CTransaction.getHash hash) known)
    {block : CBlock} {pindex : CBlockIndex} {file : Option Bytes}
    (hundo : ∀ hashPrev vtxundo, CBlockUndo.readFromDisk keys hash hashPrev file = .ok vtxundo →
      CBlockUndo.Genuine hash known block.vtx vtxundo)
    (h : disconnectBlock keys hash block pindex file view = .ok (view', true)) :
    Retreats hash known block.vtx view view' := by
  obtain ⟨-, hashPrev, vtxundo, restored, hread, hlength, hloop, rfl⟩ := disconnectBlock_ok h
  have hgenuine := hundo hashPrev vtxundo hread
  have hretreats := disconnectTransactions_clean hinj (fun tx htx vprevout heq =>
    hgenuine tx.1 vprevout (by rw [← heq]; exact htx)) hloop
  rw [map_fst_zip (by simp; omega)] at hretreats
  exact ⟨hretreats.kept, hretreats.genuine⟩

end CBlock

end Primecoin
