import Primecoin.Block.ConnectLoop

/-!
# The money supply

`ConnectBlock` records in the index entry of a block what the supply of its parent and the sums of
its inputs and outputs come to, in 64-bit arithmetic that may wrap. `Ledger` carries through the
loop what these sums stand for: the difference of the supply of the view, and the fees that left
it. The limit on the coinbase then bounds the growth.
-/

namespace Primecoin

open CTransaction CBlock Sample CCoinsView

variable (network : Network) (nBits : UInt32)

/-- `GetBlockValue` counts a failure as zero. -/
def mint : ℤ := ((targetGetMint network nBits).getD 0).toNat

theorem mint_nonneg : 0 ≤ mint network nBits :=
  Int.natCast_nonneg _

theorem mint_le : mint network nBits ≤ 99900000000 := by
  unfold mint
  cases hmint : targetGetMint network nBits with
  | none => simp
  | some nMint => exact_mod_cast targetGetMint_le hmint

theorem getBlockValue_eq (fees : ℤ) :
    getBlockValue network nBits (Int64.ofInt fees) = Int64.ofInt (mint network nBits + fees) := by
  rw [getBlockValue, Int64.ofInt_add, mint]
  congr 1
  apply Int64.toBitVec_inj.mp
  rw [UInt64.toBitVec_toInt64, Int64.toBitVec_ofInt, BitVec.ofInt_natCast]
  apply BitVec.eq_of_toNat_eq
  rw [BitVec.toNat_ofNat, Nat.mod_eq_of_lt (UInt64.toNat_lt _)]
  rfl

theorem le_of_le_toInt_ofInt {x y : ℤ} (hy : 0 < y) (hlow : -2 ^ 63 ≤ x) (hhigh : x < 2 ^ 64)
    (h : y ≤ (Int64.ofInt x).toInt) : y ≤ x := by
  by_cases hx : x < 2 ^ 63
  · rwa [Int64.toInt_ofInt_of_le hlow hx] at h
  · have hsize : Int64.size = 18446744073709551616 := rfl
    rw [Int64.toInt_ofInt, hsize, Int.bmod_def] at h
    split_ifs at h <;> omega

/-- `fees` has left the supply of the view and `reward` was added to it. -/
structure Ledger (view : CCoinsView) (reward : ℤ) (fees : ℤ) (st : ConnectState) : Prop where
  fees_nonneg : 0 ≤ fees
  nFees_eq : st.nFees = Int64.ofInt fees
  supply_eq : st.view.supply = view.supply + reward - fees
  sums_eq : st.nValueOut - st.nValueIn = Int64.ofInt (st.view.supply - view.supply)
  nonNegative : st.view.NonNegative

section Turn

variable {pindex : CBlockIndex} {tx : CTransaction × UInt256} {st st' : ConnectState}
  {view : CCoinsView} {reward fees : ℤ}

theorem CBlock.Turn.supply_eq (h : Turn pindex tx st st') (hchecked : tx.1.Checked)
    (hvacant : st.view.Vacant tx.2) :
    st'.view.supply = st.view.supply - tx.1.valueIn st.view + tx.1.valueOut := by
  obtain ⟨vprevout, hupdate, -⟩ := h.updates
  exact (updateCoins_ok hchecked h.available hvacant hupdate).1

theorem CBlock.Turn.sums_eq (h : Turn pindex tx st st') (hchecked : tx.1.Checked)
    (hvacant : st.view.Vacant tx.2)
    (hsums : st.nValueOut - st.nValueIn = Int64.ofInt (st.view.supply - view.supply)) :
    st'.nValueOut - st'.nValueIn = Int64.ofInt (st'.view.supply - view.supply) := by
  obtain ⟨nTxValueIn, nTxValueOut, hin, hout, hvalueIn, hvalueOut, -⟩ := h.sums
  have hdiff : st'.view.supply - view.supply =
      st.view.supply - view.supply + (nTxValueOut.toInt - nTxValueIn.toInt) := by
    rw [h.supply_eq hchecked hvacant, hin, hout]
    ring
  have hmoved : Int64.ofInt (nTxValueOut.toInt - nTxValueIn.toInt) = nTxValueOut - nTxValueIn := by
    rw [Int64.ofInt_sub, Int64.ofInt_toInt, Int64.ofInt_toInt]
  rw [hdiff, Int64.ofInt_add, hmoved, ← hsums, hvalueIn, hvalueOut]
  grind

theorem CBlock.Turn.nonNegative (h : Turn pindex tx st st') (hchecked : tx.1.Checked)
    (hview : st.view.NonNegative) : st'.view.NonNegative := by
  obtain ⟨vprevout, hupdate, -⟩ := h.updates
  exact nonNegative_updateCoins hchecked hview hupdate

theorem Ledger.coinbase (h : Ledger view 0 0 st) (hturn : Turn pindex tx st st')
    (htx : tx.1.isCoinBase = true) (hchecked : tx.1.Checked) (hvacant : st.view.Vacant tx.2) :
    Ledger view tx.1.valueOut 0 st' := by
  refine ⟨le_rfl, ?_, ?_, hturn.sums_eq hchecked hvacant h.sums_eq,
    hturn.nonNegative hchecked h.nonNegative⟩
  · obtain ⟨_, _, -, -, -, -, hfees⟩ := hturn.sums
    rw [hfees, htx, if_pos rfl, h.nFees_eq]
  · rw [hturn.supply_eq hchecked hvacant, h.supply_eq, valueIn, htx, if_pos rfl]
    ring

theorem Ledger.transaction (h : Ledger view reward fees st) (hturn : Turn pindex tx st st')
    (htx : tx.1.isCoinBase = false) (hchecked : tx.1.Checked) (hvacant : st.view.Vacant tx.2) :
    Ledger view reward (fees + (tx.1.valueIn st.view - tx.1.valueOut)) st' := by
  have hpaid := hturn.paid htx
  have hfees := h.fees_nonneg
  refine ⟨by omega, ?_, ?_, hturn.sums_eq hchecked hvacant h.sums_eq,
    hturn.nonNegative hchecked h.nonNegative⟩
  · obtain ⟨nTxValueIn, nTxValueOut, hin, hout, -, -, hsum⟩ := hturn.sums
    rw [hsum, htx, if_neg Bool.false_ne_true, h.nFees_eq, ← hin, ← hout, Int64.ofInt_add,
      Int64.ofInt_sub, Int64.ofInt_toInt, Int64.ofInt_toInt]
  · rw [hturn.supply_eq hchecked hvacant, h.supply_eq]
    ring

end Turn

section Block

variable {context : ConnectContext} {block : CBlock} {pindex : CBlockIndex} {view : CCoinsView}
  {st : ConnectState} {rest : List CTransaction} {coinbase : CTransaction}

/-- The first transaction brings the reward and the others pay the fees. -/
theorem ledger_of_connectTransactions (hchecked : block.Checked context.hash)
    (hexempt : isBip30Exempt pindex = false) (hview : view.NonNegative)
    (hvtx : block.vtx = coinbase :: rest)
    (h : connectTransactions context block pindex view = .ok st) :
    ∃ fees, Ledger view coinbase.valueOut fees st := by
  obtain ⟨first, others, hfirst, hcoinbase, hothers⟩ := hchecked.exists_coinBase
  rw [hvtx, List.cons.injEq] at hfirst
  obtain ⟨rfl, rfl⟩ := hfirst
  have hturns := turns_of_connectTransactions hchecked hexempt h
  rw [hvtx, List.map_cons] at hturns
  have hstart : Ledger view 0 0 (connectStart block pindex view) :=
    ⟨le_rfl, rfl, by simp [connectStart], by simp [connectStart], hview⟩
  cases hturns with
  | cons hfirst hvacant hturn hrest =>
    have hledger := hstart.coinbase hturn hcoinbase hfirst hvacant
    refine hrest.preserves (motive := fun st => ∃ fees, Ledger view coinbase.valueOut fees st)
      ?_ ⟨0, hledger⟩
    rintro now tx htx next hnext hempty hturn ⟨fees, hnow⟩
    obtain ⟨other, hother, rfl⟩ := List.mem_map.mp htx
    exact ⟨_, hnow.transaction hturn (hothers other hother) hnext hempty⟩

/-- The coinbase takes at most the mint and the fees. A limit that has wrapped is negative, and no
coinbase stays below it. -/
theorem reward_le {fees : ℤ} (hvtx : block.vtx = coinbase :: rest) (hchecked : coinbase.Checked)
    (hsupply : view.supply < 2 ^ 63) (hledger : Ledger view coinbase.valueOut fees st)
    (h : checkReward context block pindex st = .ok ()) :
    coinbase.valueOut ≤ mint context.network pindex.nBits + fees := by
  simp only [checkReward, hvtx, Except.bind_eq_ok_iff, Except.ite_error_eq_ok_iff] at h
  obtain ⟨nValueOut, hout, hlimit, -⟩ := h
  obtain ⟨total, htotal, hvalue, hmax⟩ := hchecked.getValueOut_eq
  rw [hout, Except.ok.injEq] at htotal
  subst htotal
  have hfee := toInt_getMinFee_block hchecked.size_le
  have hlimitEq : rewardLimit context coinbase pindex st.nFees =
      Int64.ofInt (mint context.network pindex.nBits + fees -
        (1 + (coinbase.getSerializeSize / 1000 : ℕ)) * 1000000 + 1000000) := by
    rw [rewardLimit, hledger.nFees_eq, getBlockValue_eq, ← hfee]
    simp only [Int64.ofInt_add, Int64.ofInt_sub, Int64.ofInt_toInt]
    rfl
  rw [Int64.not_lt, Int64.le_iff_toInt_le, hvalue, hlimitEq] at hlimit
  have hmint := mint_le context.network pindex.nBits
  have hmint0 := mint_nonneg context.network pindex.nBits
  have hfees := hledger.fees_nonneg
  have hafter := hledger.nonNegative.supply_nonneg
  have hsum := hledger.supply_eq
  have hsize := hchecked.size_le
  have hmaxSize : maxBlockSize = 1000000 := rfl
  have hle := le_of_le_toInt_ofInt hchecked.valueOut_pos (by omega) (by omega) hlimit
  omega

end Block

/-- A block connected on top of a tip whose entry is found through the parent pointer. -/
structure Connects (hash : Bytes → UInt256) (network : Network) (tip : CBlockIndex)
    (view : CCoinsView) (block : CBlock) (tip' : CBlockIndex) (view' : CCoinsView) : Prop where
  not_genesis : block.getHash hash ≠ hashGenesisBlock network
  connects : ∃ (context : ConnectContext) (io : ConnectIo) (pindex : CBlockIndex)
    (connected : Connected), context.hash = hash ∧ context.network = network ∧
      (∃ p, pindex.pprev = some p ∧ context.tree p = some tip) ∧ pindex.nBits = block.nBits ∧
      isBip30Exempt pindex = false ∧
      (block.connectBlock context io view false).run pindex = (.ok connected, tip') ∧
      connected.view = view'

/-- The chains connected block after block, with the entry of the tip, the view at the tip and the
total of the mints. -/
inductive ConnectedChain (hash : Bytes → UInt256) (network : Network) :
    CBlockIndex → CCoinsView → ℤ → Prop
  | genesis {context : ConnectContext} {io : ConnectIo} {block : CBlock}
      {pindex tip : CBlockIndex} {connected : Connected} (hhash : context.hash = hash)
      (hnetwork : context.network = network)
      (hblock : block.getHash hash = hashGenesisBlock network) (hnew : pindex.nMoneySupply = 0)
      (hconnect : (block.connectBlock context io .empty false).run pindex = (.ok connected, tip)) :
      ConnectedChain hash network tip connected.view 0
  | connect {tip tip' : CBlockIndex} {view view' : CCoinsView} {minted : ℤ} {block : CBlock}
      (hchain : ConnectedChain hash network tip view minted)
      (hconnects : Connects hash network tip view block tip' view') :
      ConnectedChain hash network tip' view' (minted + mint network block.nBits)

section Chain

variable {hash : Bytes → UInt256} {network : Network} {tip tip' : CBlockIndex}
  {view view' : CCoinsView} {minted : ℤ} {block : CBlock}

/-- The recorded supply follows the view, and the view grows by at most the mint. -/
theorem Connects.spec (h : Connects hash network tip view block tip' view')
    (hview : view.NonNegative) (htip : tip.nMoneySupply = Int64.ofInt view.supply) :
    view'.NonNegative ∧ tip'.nMoneySupply = Int64.ofInt view'.supply ∧
      (view.supply < 2 ^ 63 → view'.supply ≤ view.supply + mint network block.nBits) := by
  obtain ⟨context, io, pindex, connected, rfl, rfl, ⟨p, hp, hfound⟩, hbits, hexempt, hrun, rfl⟩ :=
    h.connects
  obtain ⟨hchecked, -, ⟨hgenesis, -, -⟩ | ⟨-, st, hst, hreward, hconnected, -, -, nMoneySupply,
    hparent, hsupply⟩⟩ := connectBlock_ok hrun
  · exact absurd hgenesis h.not_genesis
  · obtain ⟨coinbase, rest, hvtx, -, -⟩ := hchecked.exists_coinBase
    obtain ⟨fees, hledger⟩ := ledger_of_connectTransactions hchecked hexempt hview hvtx hst
    have hprev : nMoneySupply = tip.nMoneySupply := by
      simp only [parentMoneySupply, hp, hfound, Except.ok.injEq] at hparent
      exact hparent.symm
    rw [hconnected]
    refine ⟨hledger.nonNegative, ?_, fun hbound => ?_⟩
    · have hdiff : st.view.supply = view.supply + (st.view.supply - view.supply) := by ring
      rw [hsupply, hprev, htip, supply_setBestBlock, hdiff, Int64.ofInt_add, ← hledger.sums_eq]
      grind
    · have hle := reward_le hvtx (hchecked.checked coinbase (by simp [hvtx])) hbound hledger hreward
      rw [hbits] at hle
      rw [supply_setBestBlock, hledger.supply_eq]
      omega

theorem ConnectedChain.spec (h : ConnectedChain hash network tip view minted) :
    view.NonNegative ∧ tip.nMoneySupply = Int64.ofInt view.supply ∧
      (minted < 2 ^ 63 → view.supply ≤ minted) := by
  induction h with
  | @genesis context io block pindex tip connected hhash hnetwork hblock hnew hconnect =>
    obtain ⟨-, -, ⟨-, hconnected, htip⟩ | ⟨hgenesis, -⟩⟩ := connectBlock_ok hconnect
    · have hzero : connected.view.supply = 0 := by
        rw [hconnected, supply_setBestBlock, supply_empty]
      refine ⟨?_, ?_, fun _ => hzero.le⟩
      · rw [hconnected]
        exact nonNegative_empty
      · rw [htip, hnew, hzero]
        rfl
    · subst hhash hnetwork
      exact absurd hblock hgenesis
  | @connect _ _ _ _ minted block hchain hconnects ih =>
    obtain ⟨hview, htip, hle⟩ := ih
    obtain ⟨hview', htip', hgrowth⟩ := hconnects.spec hview htip
    refine ⟨hview', htip', fun hbound => ?_⟩
    have hmint := mint_nonneg network block.nBits
    omega

/-- On every chain from the genesis block the recorded supply is the sum of the unspent outputs,
and the next block adds at most the mint for its target. -/
theorem ConnectedChain.nMoneySupply_eq_supply (h : ConnectedChain hash network tip view minted)
    (hminted : minted < 2 ^ 63) :
    tip.nMoneySupply.toInt = view.supply ∧
      ∀ block tip' view', Connects hash network tip view block tip' view' →
        view'.supply ≤ view.supply + mint network block.nBits := by
  obtain ⟨hview, htip, hle⟩ := h.spec
  have hnonneg := hview.supply_nonneg
  refine ⟨?_, fun block tip' view' hconnects => ?_⟩
  · rw [htip, Int64.toInt_ofInt_of_le (by omega) (by omega)]
  · exact (hconnects.spec hview htip).2.2 (by omega)

end Chain

/-! The genesis block and a block on top of it that mints twenty coins. -/

namespace Sample

def mintBlock : CBlock := { block with
  hashMerkleRoot := 0xa75d8a6cf42a2c8f63a461f7ae494d8c606a82b36083c048a13d5e709d43e984
  vtx := [coinbase] }

def mintSha256d (m : Bytes) : UInt256 :=
  if m = genesisTransaction.serialize then
    0xaca30eb61dffbb9412d0ae743c3d74554f710853daec40ebd2514e830e05c9ff
  else if m = (genesisBlock .official).toCBlockHeader.serialize then hashGenesisBlock .official
  else if m = coinbase.serialize then
    0xa75d8a6cf42a2c8f63a461f7ae494d8c606a82b36083c048a13d5e709d43e984
  else if m = mintBlock.toCBlockHeader.serialize then
    0x0e806e9960adee295e2f8600ed62c8ec7e21a034ed63a4f3985bd9243a207f57
  else 0

def mintContext : ConnectContext := { connectContext with hash := mintSha256d }

def pindexMint : CBlockIndex := { pindexBlock with
  phashBlock := some 0x0e806e9960adee295e2f8600ed62c8ec7e21a034ed63a4f3985bd9243a207f57 }

theorem connects_genesis :
    (((genesisBlock .official).connectBlock mintContext connectIo .empty false).run
      pindexGenesis).1.toOption.isSome = true := by
  decide +kernel

end Sample

theorem ConnectedChain.nMoneySupply_eq_supply_sample :
    ∃ tip view, ConnectedChain mintSha256d .official tip view (0 + mint .official 0x07000000) ∧
      tip.nMoneySupply.toInt = 2000000000 ∧ tip.nMoneySupply.toInt = view.supply := by
  obtain ⟨first, hfirst⟩ := Stateful.exists_run_eq_ok connects_genesis
  obtain ⟨second, hsecond⟩ := Stateful.exists_run_eq_ok (s := pindexMint)
    (x := mintBlock.connectBlock mintContext connectIo
      (empty.setBestBlock (some (hashGenesisBlock .official))) false) (by decide +kernel)
  have hgenesis := ConnectedChain.genesis rfl rfl (by decide) rfl hfirst
  obtain ⟨-, -, ⟨-, hview, htip⟩ | ⟨hno, -⟩⟩ := CBlock.connectBlock_ok hfirst
  · rw [hview, htip] at hgenesis
    have hmint : Connects mintSha256d .official pindexGenesis _ mintBlock _ _ :=
      ⟨by decide, mintContext, connectIo, pindexMint, second, rfl, rfl,
        ⟨_, rfl, rfl⟩, rfl, rfl, hsecond, rfl⟩
    have hchain := hgenesis.connect hmint
    refine ⟨_, _, hchain, by decide +kernel, ?_⟩
    exact (ConnectedChain.nMoneySupply_eq_supply hchain (by decide)).1
  · exact absurd (by decide) hno

end Primecoin
