import Mathlib.Data.Nat.Bitwise
import Primecoin.Block.Merkle

/-!
# Merkle branches

`GetMerkleBranch` collects the siblings on the way from a transaction to the root, and
`CheckMerkleBranch` joins a hash with them again. One step up the branch is one round of the tree,
with the index halved, so the check of a transaction of the block comes to the root.
-/

namespace Primecoin

open List Pairing

/-- The loop of `GetMerkleBranch`, with as many rounds as there are
transactions. -/
def merkleBranchLoop (vMerkleTree : List UInt256) : ℕ → (j nSize nIndex : ℕ) → List UInt256
  | 0, _, _, _ => []
  | rounds + 1, j, nSize, nIndex =>
    if 1 < nSize then
      let i := min (nIndex ^^^ 1) (nSize - 1)
      vMerkleTree.getD (j + i) 0 ::
        merkleBranchLoop vMerkleTree rounds (j + nSize) ((nSize + 1) / 2) (nIndex >>> 1)
    else []

/-- `vMerkleTree` is what the block keeps from an earlier call of `BuildMerkleTree`, or empty. -/
def getMerkleBranch (hash : Bytes → UInt256) (vtx : List CTransaction)
    (vMerkleTree : List UInt256) (nIndex : ℕ) : List UInt256 :=
  merkleBranchLoop (if vMerkleTree = [] then buildMerkleTree hash vtx else vMerkleTree) vtx.length
    0 vtx.length nIndex

def foldMerkleBranch (hash : Bytes → UInt256) : UInt256 → List UInt256 → ℕ → UInt256
  | h, [], _ => h
  | h, otherside :: vMerkleBranch, nIndex =>
    foldMerkleBranch hash
      (if nIndex &&& 1 ≠ 0 then merkleNode hash (otherside, h) else merkleNode hash (h, otherside))
      vMerkleBranch (nIndex >>> 1)

/-- The index -1 is `none`. -/
def checkMerkleBranch (hash : Bytes → UInt256) (h : UInt256) (vMerkleBranch : List UInt256) :
    Option ℕ → UInt256
  | none => 0
  | some nIndex => foldMerkleBranch hash h vMerkleBranch nIndex

variable {hash : Bytes → UInt256}

theorem getD_round (row : List UInt256) {nIndex : ℕ} (hindex : nIndex < row.length) :
    (round (merkleNode hash) row).getD (nIndex >>> 1) 0 = if nIndex &&& 1 ≠ 0 then
        merkleNode hash (row.getD (min (nIndex ^^^ 1) (row.length - 1)) 0, row.getD nIndex 0)
      else merkleNode hash (row.getD nIndex 0, row.getD (min (nIndex ^^^ 1) (row.length - 1)) 0) := by
  have hhalf : nIndex >>> 1 < (row.length + 1) / 2 := by
    rw [Nat.shiftRight_one]
    omega
  rw [Pairing.round, Pairing.pairs_eq_map_range 0, map_map, getD_eq_getElem?_getD,
    getElem?_map, getElem?_range hhalf, Option.map_some, Option.getD_some,
    Function.comp_apply, Nat.shiftRight_one, Nat.and_one_is_mod]
  rcases Nat.even_or_odd nIndex with heven | hodd
  · have hmod : nIndex % 2 = 0 := Nat.even_iff.mp heven
    have hdouble : 2 * (nIndex / 2) = nIndex := by omega
    rw [if_neg (by omega), Nat.xor_one_of_even heven, hdouble]
  · have hmod : nIndex % 2 = 1 := Nat.odd_iff.mp hodd
    have hdouble : 2 * (nIndex / 2) + 1 = nIndex := by omega
    have hleft : 2 * (nIndex / 2) = nIndex - 1 := by omega
    rw [if_pos (by omega), Nat.xor_one_of_odd hodd, hdouble, min_eq_left (by omega),
      min_eq_left (by omega), hleft]

/-- Joined with the branch above a row, an entry of the row comes to the root. -/
theorem foldMerkleBranch_merkleBranchLoop {k rounds : ℕ} {row : List UInt256} {r : UInt256}
    (h : Root (merkleNode hash) k row r) (hk : k ≤ rounds) (done : List UInt256)
    {nIndex : ℕ} (hindex : nIndex < row.length) :
    foldMerkleBranch hash (row.getD nIndex 0)
      (merkleBranchLoop (merkleLoop hash rounds (done ++ row) done.length row.length) rounds
        done.length row.length nIndex) nIndex = r := by
  induction h generalizing rounds done nIndex with
  | leaf r =>
    have hstop : ∀ vMerkleTree, merkleBranchLoop vMerkleTree rounds done.length [r].length
        nIndex = [] := by
      intro vMerkleTree
      cases rounds <;> simp [merkleBranchLoop]
    rw [length_singleton, Nat.lt_one_iff] at hindex
    rw [hstop, hindex]
    rfl
  | @join k row r hlen _ ih =>
    obtain ⟨rounds, rfl⟩ := Nat.exists_eq_add_of_le' (Nat.one_le_of_lt hk)
    -- the vector goes on with the next row
    have hnext : merkleLoop hash (rounds + 1) (done ++ row) done.length row.length =
        merkleLoop hash rounds (done ++ row ++ round (merkleNode hash) row)
          (done ++ row).length (round (merkleNode hash) row).length := by
      rw [merkleLoop, if_pos hlen, merkleRow_eq_round, length_append, length_round]
    have hhalf : nIndex >>> 1 < (round (merkleNode hash) row).length := by
      rw [length_round, Nat.shiftRight_one]
      omega
    have hbranch := ih (Nat.le_of_succ_le_succ hk) (done ++ row) hhalf
    rw [← hnext, length_append, length_round, getD_round row hindex] at hbranch
    have hsibling : (merkleLoop hash (rounds + 1) (done ++ row) done.length row.length).getD
        (done.length + min (nIndex ^^^ 1) (row.length - 1)) 0 =
          row.getD (min (nIndex ^^^ 1) (row.length - 1)) 0 := by
      obtain ⟨rest, hrest⟩ := @prefix_merkleLoop hash (rounds + 1) (done ++ row) done.length
        row.length
      rw [← hrest, append_assoc, getD_eq_getElem?_getD, getD_eq_getElem?_getD,
        getElem?_append_right (Nat.le_add_right _ _), Nat.add_sub_cancel_left,
        getElem?_append_left (by omega)]
    rw [merkleBranchLoop, if_pos hlen]
    dsimp only
    rw [hsibling, foldMerkleBranch]
    exact hbranch

theorem checkMerkleBranch_getMerkleBranch {vtx : List CTransaction} {vMerkleTree : List UInt256}
    (hcache : vMerkleTree = [] ∨ vMerkleTree = buildMerkleTree hash vtx) {nIndex : ℕ}
    {tx : CTransaction} (htx : vtx[nIndex]? = some tx) :
    checkMerkleBranch hash (tx.getHash hash) (getMerkleBranch hash vtx vMerkleTree nIndex)
      (some nIndex) = merkleRoot hash vtx := by
  obtain ⟨hindex, hget⟩ := List.getElem?_eq_some_iff.mp htx
  have hne : vtx ≠ [] := ne_nil_of_length_pos (Nat.zero_lt_of_lt hindex)
  obtain ⟨k, hroot⟩ := @exists_root_buildMerkleTree hash vtx hne
  have hk := hroot.lt_length
  have htree : (if vMerkleTree = [] then buildMerkleTree hash vtx else vMerkleTree) =
      buildMerkleTree hash vtx := by
    split_ifs with hempty
    · rfl
    · exact hcache.resolve_left hempty
  have hid : (vtx.map (CTransaction.getHash hash)).getD nIndex 0 = tx.getHash hash := by
    rw [getD_eq_getElem?_getD, getElem?_map, htx, Option.map_some, Option.getD_some]
  rw [length_map] at hk
  have hindex' : nIndex < (vtx.map (CTransaction.getHash hash)).length := by
    rwa [length_map]
  have hfold := foldMerkleBranch_merkleBranchLoop hroot hk.le [] hindex'
  rw [hid, nil_append, length_map] at hfold
  rw [checkMerkleBranch, getMerkleBranch, htree]
  exact hfold

end Primecoin
