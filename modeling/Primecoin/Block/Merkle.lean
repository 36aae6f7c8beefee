import Primecoin.Block.Basic
import Primecoin.Data.Pairing

/-!
# The merkle tree of a block

`buildMerkleTree` is `CBlock::BuildMerkleTree`: a vector that starts with the transaction ids and
grows by a row of joined hashes in every round. `exists_root_buildMerkleTree` identifies its last
entry with the root of the rounds of `Pairing`.
-/

namespace Primecoin

open Codec List CTransaction Pairing

def merkleMessage (p : UInt256 × UInt256) : Bytes :=
  leBytes 32 p.1.toNat ++ leBytes 32 p.2.toNat

variable (hash : Bytes → UInt256)

def merkleNode (p : UInt256 × UInt256) : UInt256 :=
  hash (merkleMessage p)

/-- The inner loop: the row pushed over the `nSize` entries from position `j` on. -/
def merkleRow (vMerkleTree : List UInt256) (j nSize : ℕ) : List UInt256 :=
  (List.range ((nSize + 1) / 2)).map fun k =>
    let i := 2 * k
    let i2 := min (i + 1) (nSize - 1)
    merkleNode hash (vMerkleTree.getD (j + i) 0, vMerkleTree.getD (j + i2) 0)

/-- The outer loop; `nSize` is halved in every round, so it bounds the rounds. -/
def merkleLoop (hash : Bytes → UInt256) : ℕ → List UInt256 → (j nSize : ℕ) → List UInt256
  | 0, vMerkleTree, _, _ => vMerkleTree
  | rounds + 1, vMerkleTree, j, nSize =>
    if 1 < nSize then
      merkleLoop hash rounds (vMerkleTree ++ merkleRow hash vMerkleTree j nSize) (j + nSize)
        ((nSize + 1) / 2)
    else vMerkleTree

def buildMerkleTree (hash : Bytes → UInt256) (vtx : List CTransaction) : List UInt256 :=
  merkleLoop hash vtx.length (vtx.map (getHash hash)) 0 vtx.length

def merkleRoot (hash : Bytes → UInt256) (vtx : List CTransaction) : UInt256 :=
  (buildMerkleTree hash vtx).getLastD 0

def merkleMessages (vtx : List CTransaction) : List Bytes :=
  (allPairs (merkleNode hash) vtx.length (vtx.map (getHash hash))).map merkleMessage

variable {hash : Bytes → UInt256}

theorem merkleMessage_injective : Function.Injective merkleMessage := by
  intro p q h
  obtain ⟨hfst, hsnd⟩ := append_inj h (by simp)
  refine Prod.ext ?_ ?_
  · exact BitVec.eq_of_toNat_eq (leBytes_inj p.1.isLt q.1.isLt hfst)
  · exact BitVec.eq_of_toNat_eq (leBytes_inj p.2.isLt q.2.isLt hsnd)

theorem merkleRow_eq_round (done row : List UInt256) :
    merkleRow hash (done ++ row) done.length row.length = round (merkleNode hash) row := by
  rw [Pairing.round, Pairing.pairs_eq_map_range 0 row, map_map, merkleRow]
  have hget : ∀ n, (done ++ row).getD (done.length + n) 0 = row.getD n 0 := by
    intro n
    rw [getD_eq_getElem?_getD, getD_eq_getElem?_getD,
      getElem?_append_right (Nat.le_add_right _ _), Nat.add_sub_cancel_left]
  refine map_congr_left fun k _ => ?_
  simp only [hget, Function.comp_apply]

theorem prefix_merkleLoop (rounds : ℕ) (vMerkleTree : List UInt256) (j nSize : ℕ) :
    vMerkleTree <+: merkleLoop hash rounds vMerkleTree j nSize := by
  induction rounds generalizing vMerkleTree j nSize with
  | zero => exact prefix_rfl
  | succ rounds ih =>
    unfold merkleLoop
    split_ifs
    · exact (prefix_append _ _).trans (ih _ _ _)
    · exact prefix_rfl

theorem getLast?_merkleLoop {k rounds : ℕ} {row : List UInt256} {r : UInt256}
    (h : Root (merkleNode hash) k row r) (hk : k ≤ rounds) (done : List UInt256) :
    (merkleLoop hash rounds (done ++ row) done.length row.length).getLast? = some r := by
  induction h generalizing rounds done with
  | leaf r =>
    have hstop : merkleLoop hash rounds (done ++ [r]) done.length [r].length = done ++ [r] := by
      cases rounds <;> simp [merkleLoop]
    rw [hstop, getLast?_concat]
  | @join k row r hlen _ ih =>
    obtain ⟨rounds, rfl⟩ := Nat.exists_eq_add_of_le' (Nat.one_le_of_lt hk)
    have hrounds : k ≤ rounds := by omega
    have hnext := ih hrounds (done ++ row)
    rw [length_append, length_round] at hnext
    rw [merkleLoop, if_pos hlen, merkleRow_eq_round]
    exact hnext

theorem exists_root_buildMerkleTree {vtx : List CTransaction} (h : vtx ≠ []) :
    ∃ k, Root (merkleNode hash) k (vtx.map (getHash hash)) (merkleRoot hash vtx) := by
  have hne : vtx.map (getHash hash) ≠ [] := by simpa using h
  have hlen : (vtx.map (getHash hash)).length ≤ vtx.length + 1 := by
    rw [length_map]
    omega
  obtain ⟨k, hk, r, hr⟩ : ∃ k ≤ vtx.length, ∃ r, Root (merkleNode hash) k _ r :=
    exists_root hlen hne
  have hlast := getLast?_merkleLoop hr hk []
  rw [nil_append, length_map] at hlast
  have hroot : merkleRoot hash vtx = r := by
    rw [merkleRoot, getLastD_eq_getLast?]
    exact congrArg (fun o => o.getD 0) hlast
  exact ⟨k, hroot ▸ hr⟩

theorem zip_buildMerkleTree (vtx : List CTransaction) :
    vtx.zip (buildMerkleTree hash vtx) = vtx.map fun tx => (tx, tx.getHash hash) := by
  obtain ⟨rest, hrest⟩ := @prefix_merkleLoop hash vtx.length (vtx.map (getHash hash)) 0 vtx.length
  have hzip : ∀ l : List CTransaction, l.zip (l.map (getHash hash) ++ rest) =
      l.map fun tx => (tx, tx.getHash hash) := by
    intro l
    induction l with
    | nil => simp
    | cons tx l ih => simp [ih]
  rw [buildMerkleTree, ← hrest]
  exact hzip vtx

/-- Two lists of transactions without duplicate ids and with one merkle root have the same ids,
unless two messages hashed for them collide. A transaction of 64 bytes could be taken for an inner
node. -/
theorem map_getHash_eq_of_merkleRoot_eq {vtx other : List CTransaction}
    (hne : vtx ≠ []) (hne' : other ≠ [])
    (hnodup : (vtx.map (getHash hash)).Nodup)
    (hnodup' : (other.map (getHash hash)).Nodup)
    (hinj : Set.InjOn hash {m | m ∈ merkleMessages hash vtx ++ merkleMessages hash other ++
      (vtx ++ other).map serialize})
    (h64 : ∀ tx ∈ vtx ++ other, tx.serialize.length ≠ 64)
    (h : merkleRoot hash vtx = merkleRoot hash other) :
    vtx.map (getHash hash) = other.map (getHash hash) := by
  obtain ⟨k, hk⟩ := @exists_root_buildMerkleTree hash vtx hne
  obtain ⟨k', hk'⟩ := @exists_root_buildMerkleTree hash other hne'
  rw [← h] at hk'
  let S : Set (UInt256 × UInt256) :=
    {p | merkleMessage p ∈ merkleMessages hash vtx ++ merkleMessages hash other}
  have hS : Set.InjOn (merkleNode hash) S := by
    intro p hp q hq hpq
    exact merkleMessage_injective (hinj (mem_append_left _ hp) (mem_append_left _ hq) hpq)
  -- an id that is also a node would make its transaction as long as a node message
  have hleaf : ∀ tx ∈ vtx ++ other, ∀ p ∈ S, merkleNode hash p ≠ tx.getHash hash := by
    intro tx htx p hp heq
    have hmsg : merkleMessage p = tx.serialize :=
      hinj (mem_append_left _ hp) (mem_append_right _ (mem_map_of_mem htx)) heq
    exact h64 tx htx (hmsg ▸ (by simp [merkleMessage]))
  refine eq_of_root_eq hS hk hk' hnodup hnodup' ?_ ?_ ?_ ?_
  · intro p hp
    rw [length_map] at hp
    exact mem_append_left _ (mem_map_of_mem hp)
  · intro p hp
    rw [length_map] at hp
    exact mem_append_right _ (mem_map_of_mem hp)
  · intro x hx
    obtain ⟨tx, htx, rfl⟩ := mem_map.mp hx
    exact hleaf tx (mem_append_left _ htx)
  · intro x hx
    obtain ⟨tx, htx, rfl⟩ := mem_map.mp hx
    exact hleaf tx (mem_append_right _ htx)

end Primecoin
