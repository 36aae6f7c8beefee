import Primecoin.Block.Merkle
import Primecoin.Transaction.Check

/-!
# Context-free block rules

`checkBlock` is `CBlock::CheckBlock`. Proof of work is checked by the caller, so the flag for it
is not read. `CBlock.Checked` collects what a block that passes satisfies.

The rule against duplicate transaction ids makes the merkle root a commitment: the header of a
block that passes determines its transaction ids.
-/

namespace Primecoin

open List CTransaction

namespace CBlock

variable (hash : Bytes → UInt256)

/-- The ids the rule of March 2013 counts: of the transactions and of the outputs they spend,
without the input of the coinbase. -/
def referencedTxids (vtx : List CTransaction) : List UInt256 :=
  vtx.map (getHash hash) ++ vtx.tail.flatMap fun tx => tx.vin.map fun txin => txin.prevout.hash

def checkTransactions : List CTransaction → Except Failure Unit
  | [] => .ok ()
  | tx :: vtx => do
      tx.checkTransaction
      checkTransactions vtx

def checkBlock (nAdjustedTime : Int64) (block : CBlock)
    (_fCheckPOW fCheckMerkleRoot : Bool) : Except Failure Unit :=
  if block.vtx = [] ∨ maxBlockSize < block.vtx.length ∨ maxBlockSize < block.getSerializeSize then
    .error (.dos 100 "CheckBlock() : size limits failed" false)
  else if 1363867200 ≤ block.getBlockTime ∧ block.getBlockTime < 1368576000 ∧
      4500 < (referencedTxids hash block.vtx).dedup.length then
    .error (.error "CheckBlock() : 15 May maxlocks violation")
  else if nAdjustedTime + 2 * 60 * 60 < block.getBlockTime then
    .error (.invalid "CheckBlock() : block timestamp too far in the future")
  else if !(block.vtx.head?.any isCoinBase) then
    .error (.dos 100 "CheckBlock() : first tx is not coinbase" false)
  else if block.vtx.tail.any isCoinBase then
    .error (.dos 100 "CheckBlock() : more than one coinbase" false)
  else do
    checkTransactions block.vtx
    let vMerkleTree := buildMerkleTree hash block.vtx
    let uniqueTx := ((block.vtx.zip vMerkleTree).map Prod.snd).dedup
    if uniqueTx.length ≠ block.vtx.length then
      .error (.dos 100 "CheckBlock() : duplicate transaction" true)
    else if maxBlockSigops < (block.vtx.map getLegacySigOpCount).sum then
      .error (.dos 100 "CheckBlock() : out-of-bounds SigOpCount" false)
    else if fCheckMerkleRoot ∧ block.hashMerkleRoot ≠ merkleRoot hash block.vtx then
      .error (.dos 100 "CheckBlock() : hashMerkleRoot mismatch" false)
    else .ok ()

/-- What a block that passes `CheckBlock` satisfies. -/
structure Checked (hash : Bytes → UInt256) (block : CBlock) : Prop where
  size_le : block.getSerializeSize ≤ maxBlockSize
  exists_coinBase : ∃ coinbase rest, block.vtx = coinbase :: rest ∧
    coinbase.isCoinBase = true ∧ ∀ tx ∈ rest, tx.isCoinBase = false
  checked : ∀ tx ∈ block.vtx, tx.Checked
  nodup : (block.vtx.map (getHash hash)).Nodup

theorem checkTransactions_ok {vtx : List CTransaction} (h : checkTransactions vtx = .ok ()) :
    ∀ tx ∈ vtx, tx.Checked := by
  induction vtx with
  | nil => simp
  | cons tx vtx ih =>
    obtain ⟨_, htx, hrest⟩ := Except.bind_eq_ok_iff.mp h
    intro other hother
    rcases mem_cons.mp hother with rfl | hother
    · exact checkTransaction_ok htx
    · exact ih hrest other hother

theorem checkBlock_ok {hash : Bytes → UInt256} {nAdjustedTime : Int64} {block : CBlock}
    {fCheckPOW fCheckMerkleRoot : Bool}
    (h : checkBlock hash nAdjustedTime block fCheckPOW fCheckMerkleRoot = .ok ()) :
    block.Checked hash ∧
      (fCheckMerkleRoot = true → block.hashMerkleRoot = merkleRoot hash block.vtx) := by
  simp only [checkBlock, Except.ite_error_eq_ok_iff, Except.bind_eq_ok_iff, and_true] at h
  obtain ⟨hsize, -, -, hfirst, hrest, _, htxs, hunique, -, hroot⟩ := h
  obtain ⟨coinbase, rest, hvtx⟩ := exists_cons_of_ne_nil fun hnil => hsize (Or.inl hnil)
  have hids : (block.vtx.zip (buildMerkleTree hash block.vtx)).map Prod.snd =
      block.vtx.map (getHash hash) := by
    rw [zip_buildMerkleTree, map_map]
    rfl
  refine ⟨⟨?_, ⟨coinbase, rest, hvtx, ?_, ?_⟩, checkTransactions_ok htxs, ?_⟩, ?_⟩
  · exact not_lt.mp fun hlt => hsize (Or.inr (Or.inr hlt))
  · simpa [hvtx] using hfirst
  · intro tx htx
    by_contra hcb
    exact hrest (any_eq_true.mpr ⟨tx, by simpa [hvtx] using htx, by simpa using hcb⟩)
  · rw [hids, not_not] at hunique
    rw [← dedup_eq_self]
    exact (dedup_sublist _).eq_of_length (by rw [hunique, length_map])
  · intro hflag
    by_contra hne
    exact hroot ⟨hflag, hne⟩

def hashedMessages (block : CBlock) : List Bytes :=
  block.headerBytes :: (merkleMessages hash block.vtx ++ block.vtx.map CTransaction.serialize)

/-- The header of a block that passes determines the ids of its transactions, as long as no two
messages hashed for the two blocks collide and no transaction is as long as the message of an
inner node. -/
theorem map_getHash_eq_of_getHeaderHash_eq (hash : Bytes → UInt256) :
    (∀ (block other : CBlock) (nTime nTimeOther : Int64) (fCheckPOW fCheckPOWOther : Bool),
      checkBlock hash nTime block fCheckPOW true = .ok () →
      checkBlock hash nTimeOther other fCheckPOWOther true = .ok () →
      block.getHeaderHash hash = other.getHeaderHash hash →
      Set.InjOn hash {m | m ∈ hashedMessages hash block ++ hashedMessages hash other} →
      (∀ tx ∈ block.vtx ++ other.vtx, tx.serialize.length ≠ 64) →
      block.vtx.map (getHash hash) = other.vtx.map (getHash hash)) ∧
    ∀ (block other : CBlock) (repeated : List CTransaction) (nTime : Int64)
      (fCheckPOW fCheckMerkleRoot : Bool),
      repeated ≠ [] → repeated <:+ block.vtx → other.vtx = block.vtx ++ repeated →
      checkBlock hash nTime other fCheckPOW fCheckMerkleRoot ≠ .ok () := by
  refine ⟨?_, ?_⟩
  · intro block other nTime nTimeOther _ _ hblock hother hheader hinj h64
    obtain ⟨hchecked, hroot⟩ := checkBlock_ok hblock
    obtain ⟨hchecked', hroot'⟩ := checkBlock_ok hother
    obtain ⟨coinbase, rest, hvtx, -⟩ := hchecked.exists_coinBase
    obtain ⟨coinbase', rest', hvtx', -⟩ := hchecked'.exists_coinBase
    have hsame := CBlockHeader.hashMerkleRoot_eq_of_headerBytes_eq
      (hinj (by simp [hashedMessages]) (by simp [hashedMessages]) hheader)
    rw [hroot rfl, hroot' rfl] at hsame
    refine map_getHash_eq_of_merkleRoot_eq (by simp [hvtx]) (by simp [hvtx']) hchecked.nodup
      hchecked'.nodup (hinj.mono fun m hm => ?_) h64 hsame
    simp only [hashedMessages, map_append, mem_append, mem_cons, Set.mem_ofPred_eq] at hm ⊢
    tauto
  · intro block other repeated nTime _ _ hne hsuffix hvtx hother
    have hnodup := (checkBlock_ok hother).1.nodup
    rw [hvtx, map_append, nodup_append] at hnodup
    obtain ⟨tx, htx⟩ := exists_mem_of_ne_nil repeated hne
    exact hnodup.2.2 _ (mem_map_of_mem (hsuffix.subset htx)) _ (mem_map_of_mem htx) rfl

end CBlock

/-! A block of three transactions, the last of which spends the one before it,
and the double SHA-256 of every message hashed for it. -/

namespace Sample

def coinbase : CTransaction :=
  ⟨1, [⟨⟨0, 0xffffffff⟩, [1, 2], 0xffffffff⟩], [⟨2000000000, [0x51]⟩], 0⟩

def spending : CTransaction :=
  ⟨1, [⟨⟨0x1111, 0⟩, [], 0xffffffff⟩], [⟨999000000, [0x51]⟩], 0⟩

def chained : CTransaction :=
  ⟨-3, [⟨⟨0xc29035a7b69ae8a2dc35621805318bc7e92307eb9b34292b6740f6ce2096effa, 0⟩, [],
    0xffffffff⟩], [⟨998000000, [0x51]⟩], 0⟩

def block : CBlock where
  nVersion := 2
  hashPrevBlock := hashGenesisBlock .official
  hashMerkleRoot := 0x6e0ebc31556c7eab6f617f8110b960f192b6297cf9dbfbb1d45603c9d27d02a7
  nTime := 1373064500
  nBits := 0x07000000
  nNonce := 5
  bnPrimeChainMultiplier := 210
  vtx := [coinbase, spending, chained]

def recertified : CBlock := { block with bnPrimeChainMultiplier := 420 }

def sha256d (m : Bytes) : UInt256 :=
  if m = coinbase.serialize then
    0xa75d8a6cf42a2c8f63a461f7ae494d8c606a82b36083c048a13d5e709d43e984
  else if m = spending.serialize then
    0xc29035a7b69ae8a2dc35621805318bc7e92307eb9b34292b6740f6ce2096effa
  else if m = chained.serialize then
    0xae9fab96e718a7f0b87d70834f28766da61e220548feab32800ed8d8a214e47e
  else if m = merkleMessage (0xa75d8a6cf42a2c8f63a461f7ae494d8c606a82b36083c048a13d5e709d43e984,
       0xc29035a7b69ae8a2dc35621805318bc7e92307eb9b34292b6740f6ce2096effa) then
    0x2f2b630e08a4dfd99f0bbe2db197a1ff347228d0508cf2ae7826081876f0a692
  else if m = merkleMessage (0xae9fab96e718a7f0b87d70834f28766da61e220548feab32800ed8d8a214e47e,
       0xae9fab96e718a7f0b87d70834f28766da61e220548feab32800ed8d8a214e47e) then
    0xa62ea4e734dc8fc25ee903188b95172cb79e366012573edc9e49379c62cc664f
  else if m = merkleMessage (0x2f2b630e08a4dfd99f0bbe2db197a1ff347228d0508cf2ae7826081876f0a692,
       0xa62ea4e734dc8fc25ee903188b95172cb79e366012573edc9e49379c62cc664f) then
    0x6e0ebc31556c7eab6f617f8110b960f192b6297cf9dbfbb1d45603c9d27d02a7
  else if m = block.headerBytes then
    0xed9ba8edf76c4e677b7d3560dae50deed9a2928ba06d05d6e49394c82c0c898d
  else if m = block.toCBlockHeader.serialize then
    0x18dc837f62a0e6e0b6472c17a9647342558b1814e0a32cd015aef9917c007bd9
  else 0

theorem checkBlock_block : block.checkBlock sha256d 1373064500 true true = .ok () := by
  decide

theorem sha256d_injOn : ∀ m ∈ block.hashedMessages sha256d ++ recertified.hashedMessages sha256d,
      ∀ m' ∈ block.hashedMessages sha256d ++ recertified.hashedMessages sha256d,
        sha256d m = sha256d m' → m = m' := by
  decide

end Sample

open Sample

/-- A block with two prime certificates, and that block with its last transaction
repeated. -/
theorem CBlock.map_getHash_eq_sample :
    block.vtx.map (getHash sha256d) = recertified.vtx.map (getHash sha256d) ∧
      checkBlock sha256d 1373064500
        { block with vtx := block.vtx ++ [chained] } true true ≠ .ok () :=
  ⟨(map_getHash_eq_of_getHeaderHash_eq sha256d).1 block recertified
      1373064500 1373064500 true true checkBlock_block (by decide)
      rfl sha256d_injOn (by decide),
    (map_getHash_eq_of_getHeaderHash_eq sha256d).2 block _ [chained]
      1373064500 true true (by simp) (by decide) rfl⟩

end Primecoin
