import Primecoin.Chain.MerkleTx

/-!
# The coins of a wallet

`mapWallet` holds the transactions by hash; a pointer to one of them is its key. `availableCoins`
lists the outputs that can be spent: those of final and confirmed transactions that are ours and
neither spent nor locked.

What the chain and the keystore say about a transaction is left open.
-/

namespace Primecoin

open List

/-- The fields that say what is spent. A flag missing at the end of `vfSpent` counts as unset. -/
structure CWalletTx extends CMerkleTx where
  vfSpent : List Bool
  fFromMe : Bool
  deriving DecidableEq, Repr

/-- The transactions, with the keys of the map in order. An entry is stored under its hash and was
read from a stream, so it has no more outputs than that allows. -/
structure CWallet (hash : Bytes → UInt256) where
  mapWallet : UInt256 → Option CWalletTx
  keys : List UInt256
  nodup_keys : keys.Nodup
  mem_keys : ∀ key, key ∈ keys ↔ (mapWallet key).isSome
  getHash_eq : ∀ key wtx, mapWallet key = some wtx → wtx.getHash hash = key
  vout_le : ∀ key wtx, mapWallet key = some wtx → wtx.vout.length ≤ maxSize

structure WalletContext where
  isMine : CTxOut → Bool
  isLockedCoin : COutPoint → Bool
  isFinal : CWalletTx → Bool
  isConfirmed : CWalletTx → Bool
  isFromMe : CWalletTx → Bool
  getDepthInMainChain : CWalletTx → Int32

def WalletContext.getBlocksToMaturity (context : WalletContext) (wtx : CWalletTx) : Int32 :=
  if !wtx.isCoinBase then 0
  else max 0 (coinbaseMaturity + 200 - context.getDepthInMainChain wtx)

/-- An output of a wallet transaction; `ptx` is the pointer to the transaction. -/
structure COutput where
  ptx : UInt256
  tx : CWalletTx
  i : Fin tx.vout.length
  nDepth : Int32

namespace COutput

variable (output : COutput)

def txout : CTxOut := output.tx.vout.get output.i

def nValue : Int64 := output.txout.nValue

def outpoint : COutPoint := ⟨output.ptx, UInt32.ofNat output.i⟩

end COutput

namespace CWalletTx

/-- The flag `IsSpent` reads. -/
def spent (wtx : CWalletTx) (nOut : ℕ) : Bool := wtx.vfSpent.getD nOut false

def availableOutputs (context : WalletContext) (key : UInt256) (wtx : CWalletTx) : List COutput :=
  (List.finRange wtx.vout.length).filterMap fun i =>
    let output : COutput := ⟨key, wtx, i, context.getDepthInMainChain wtx⟩
    if !wtx.spent i && context.isMine output.txout && !context.isLockedCoin output.outpoint &&
        0 < output.nValue then
      some output
    else none

theorem nodup_availableOutputs {context : WalletContext} {key : UInt256} {wtx : CWalletTx}
    (hsize : wtx.vout.length ≤ maxSize) :
    ((wtx.availableOutputs context key).map COutput.outpoint).Nodup := by
  have hsub : ((wtx.availableOutputs context key).map COutput.outpoint).Sublist
      ((finRange wtx.vout.length).map fun i : Fin _ => (⟨key, UInt32.ofNat i⟩ : COutPoint)) := by
    rw [availableOutputs]
    induction finRange wtx.vout.length with
    | nil => exact List.Sublist.refl _
    | cons i l ih =>
      rw [filterMap_cons]
      split
      · exact ih.cons _
      · next output houtput =>
          rw [Option.ite_none_right_eq_some] at houtput
          obtain ⟨-, houtput⟩ := houtput
          cases houtput
          exact ih.cons_cons _
  refine hsub.nodup ((nodup_finRange _).map fun i j hij => ?_)
  have hn := congrArg (fun o : COutPoint => o.n.toNat) hij
  have hi : i.1 < 2 ^ 32 := by have := i.2; simp only [maxSize] at hsize; omega
  have hj : j.1 < 2 ^ 32 := by have := j.2; simp only [maxSize] at hsize; omega
  simp only [UInt32.toNat_ofNat', Nat.mod_eq_of_lt hi, Nat.mod_eq_of_lt hj] at hn
  exact Fin.ext hn

end CWalletTx

namespace CWallet

variable {hash : Bytes → UInt256} {wallet : CWallet hash} {context : WalletContext}

section

variable (wallet : CWallet hash)

section

variable (context : WalletContext)

def coinsUnder (key : UInt256) : List COutput :=
  match wallet.mapWallet key with
  | none => []
  | some wtx =>
    if !context.isFinal wtx then []
    else if !context.isConfirmed wtx then []
    else if wtx.isCoinBase ∧ 0 < context.getBlocksToMaturity wtx then []
    else wtx.availableOutputs context key

/-- With `fOnlyConfirmed`, as `SelectCoins` calls it. -/
def availableCoins : List COutput :=
  wallet.keys.flatMap (wallet.coinsUnder context)

theorem coinsUnder_sublist (key : UInt256) : ∀ wtx, wallet.mapWallet key = some wtx →
      (wallet.coinsUnder context key).Sublist (wtx.availableOutputs context key) := by
  intro wtx hwtx
  rw [coinsUnder, hwtx]
  dsimp only
  split_ifs
  · exact nil_sublist _
  · exact nil_sublist _
  · exact nil_sublist _
  · exact List.Sublist.refl _

end

end

theorem mem_coinsUnder {key : UInt256} {output : COutput}
    (h : output ∈ wallet.coinsUnder context key) :
    output.ptx = key ∧ wallet.mapWallet key = some output.tx ∧ 0 < output.nValue := by
  cases hwtx : wallet.mapWallet key with
  | none =>
    rw [coinsUnder, hwtx] at h
    exact absurd h not_mem_nil
  | some wtx =>
    obtain ⟨i, -, h⟩ := mem_filterMap.mp
      ((wallet.coinsUnder_sublist context key wtx hwtx).subset h)
    rw [Option.ite_none_right_eq_some] at h
    obtain ⟨hkeep, h⟩ := h
    cases h
    rw [Bool.and_eq_true, decide_eq_true_iff] at hkeep
    exact ⟨rfl, rfl, hkeep.2⟩

theorem nodup_coinsUnder (key : UInt256) :
    ((wallet.coinsUnder context key).map COutput.outpoint).Nodup := by
  cases hwtx : wallet.mapWallet key with
  | none =>
    rw [coinsUnder, hwtx]
    exact nodup_nil
  | some wtx =>
    exact ((wallet.coinsUnder_sublist context key wtx hwtx).map _).nodup
      (CWalletTx.nodup_availableOutputs (wallet.vout_le key wtx hwtx))

theorem mem_availableCoins {output : COutput} (h : output ∈ wallet.availableCoins context) :
    wallet.mapWallet output.ptx = some output.tx ∧ 0 < output.nValue := by
  obtain ⟨key, -, h⟩ := mem_flatMap.mp h
  obtain ⟨rfl, hwtx, hpos⟩ := mem_coinsUnder h
  exact ⟨hwtx, hpos⟩

theorem nodup_availableCoins : ((wallet.availableCoins context).map COutput.outpoint).Nodup := by
  rw [availableCoins, map_flatMap, nodup_flatMap]
  refine ⟨fun key _ => nodup_coinsUnder key, wallet.nodup_keys.imp fun {key key'} hne => ?_⟩
  intro outpoint h h'
  obtain ⟨output, hmem, rfl⟩ := mem_map.mp h
  obtain ⟨output', hmem', heq⟩ := mem_map.mp h'
  apply hne
  calc key = output.outpoint.hash := (mem_coinsUnder hmem).1.symm
    _ = output'.outpoint.hash := congrArg COutPoint.hash heq.symm
    _ = key' := (mem_coinsUnder hmem').1

end CWallet

namespace Sample

def walletContext : WalletContext where
  isMine _ := true
  isLockedCoin _ := false
  isFinal _ := true
  isConfirmed _ := true
  isFromMe _ := false
  getDepthInMainChain _ := 10

def payScript : CScript := [0x76, 0xa9, 0x14] ++ List.replicate 20 0 ++ [0x88, 0xac]

def incoming (values : List Int64) : CWalletTx where
  nVersion := 1
  vin := [⟨⟨7, 0⟩, [], 0xffffffff⟩]
  vout := values.map fun nValue => ⟨nValue, payScript⟩
  nLockTime := 0
  hashBlock := 0
  vMerkleBranch := []
  nIndex := none
  fMerkleVerified := false
  vfSpent := []
  fFromMe := false

def savings : CWalletTx := incoming [3 * cent, 5 * cent, 20 * cent]

def savingsHash : UInt256 :=
  0x8fb4265f4c0aad49baf4abe789c908a97c07f2fc77e1662e740d3de69ec6859b

end Sample

end Primecoin
