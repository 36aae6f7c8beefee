import Primecoin.Chain.Accept

/-!
# Retargeting along the tree

A block whose parent and grandparent are in the tree determines the target of its children through
`TargetGetNext`. In a tree a node can hold, that target stays within its bounds as long as the
divisor is not zero.

The divisor itself is not protected. Two consecutive times are related only through the median of
the last 99 times: a block stamped 302370 seconds before its parent makes the divisor zero, one
stamped earlier makes it negative.
-/

namespace Primecoin

open Forest Option
/-- The divisor of `GetNextWorkRequired`, where it retargets at all. -/
def retargetDivisor : List CBlockIndex → Option Int64
  | pindexPrev :: pindexPrevPrev :: _ :: _ =>
    some (targetDivisor (nTargetTimespan / nTargetSpacing) nTargetSpacing
      (pindexPrev.getBlockTime - pindexPrevPrev.getBlockTime))
  | _ => none

theorem toInt_getBlockTime (pindex : CBlockIndex) :
    pindex.getBlockTime.toInt = pindex.nTime.toNat := by
  have hlt := pindex.nTime.toNat_lt
  exact Int64.toInt_ofNat_of_lt (by omega)

variable (pindexPrev pindexPrevPrev : CBlockIndex)

theorem toInt_targetDivisor : (targetDivisor (nTargetTimespan / nTargetSpacing) nTargetSpacing
        (pindexPrev.getBlockTime - pindexPrevPrev.getBlockTime)).toInt =
      604740 + 2 * ((pindexPrev.nTime.toNat : ℤ) - pindexPrevPrev.nTime.toNat) := by
  have h1 := pindexPrev.nTime.toNat_lt
  have h2 := pindexPrevPrev.nTime.toNat_lt
  have hspacing : (pindexPrev.getBlockTime - pindexPrevPrev.getBlockTime).toInt =
      (pindexPrev.nTime.toNat : ℤ) - pindexPrevPrev.nTime.toNat := by
    rw [Int64.toInt_sub, toInt_getBlockTime, toInt_getBlockTime,
      Int.bmod_eq_of_le (by omega) (by omega)]
  have hbase : ((nTargetTimespan / nTargetSpacing - 1) * nTargetSpacing).toInt = 604740 := by
    decide
  rw [targetDivisor, Int64.toInt_add, Int64.toInt_add, hbase, hspacing,
    Int.bmod_eq_of_le (n := 604740 + _) (by omega) (by omega),
    Int.bmod_eq_of_le (by omega) (by omega)]
  ring

theorem targetDivisor_pos_iff : 0 < targetDivisor (nTargetTimespan / nTargetSpacing) nTargetSpacing
        (pindexPrev.getBlockTime - pindexPrevPrev.getBlockTime) ↔
      pindexPrevPrev.nTime.toNat < pindexPrev.nTime.toNat + 302370 := by
  rw [Int64.lt_iff_toInt_lt, toInt_targetDivisor]
  change (0 : ℤ) < _ ↔ _
  omega

section Bounds

variable {hash : Bytes → UInt256} {network : Network} {mapBlockIndex : BlockTree}

theorem targetGetInitial_spec (network : Network) :
    nTargetMinLength network ≤ targetGetLength (targetGetInitial network) ∧
      targetGetLength (targetGetInitial network) ≤ 100 ∧
      targetGetFractional (targetGetInitial network) ≤ 0xff0000 := by
  cases network <;> decide

/-- In a tree a node can hold, the required target has a length between the network minimum and
100 and a fraction of at most `0xff0000`, and a retarget moves the length by at most one, unless
the divisor is zero. -/
theorem getNextWorkRequired_bounded (h : Reachable hash network mapBlockIndex)
    (n : ℕ) (pindexLast : Option UInt256)
    (hdivisor : retargetDivisor (mapBlockIndex.chain n pindexLast) ≠ some 0) :
    ∃ nBits, getNextWorkRequired network (mapBlockIndex.chain n pindexLast) = .ok nBits ∧
      nTargetMinLength network ≤ targetGetLength nBits ∧ targetGetLength nBits ≤ 100 ∧
      targetGetFractional nBits ≤ 0xff0000 ∧
      ∀ pindexPrev pindexPrevPrev pindexThird rest,
        mapBlockIndex.chain n pindexLast = pindexPrev :: pindexPrevPrev :: pindexThird :: rest →
        targetGetNext network pindexPrev.nBits (nTargetTimespan / nTargetSpacing) nTargetSpacing
            (pindexPrev.getBlockTime - pindexPrevPrev.getBlockTime) = .ok nBits ∧
          (targetGetLength nBits).toNat ≤ (targetGetLength pindexPrev.nBits).toNat + 1 ∧
          (targetGetLength pindexPrev.nBits).toNat ≤ (targetGetLength nBits).toNat + 1 := by
  have hlength : ∀ pindexPrev rest, mapBlockIndex.chain n pindexLast = pindexPrev :: rest →
      (nTargetMinLength network).toNat ≤ pindexPrev.nBits.toNat / 2 ^ 24 ∧
        pindexPrev.nBits.toNat / 2 ^ 24 ≤ 99 := by
    intro pindexPrev rest hchain
    cases pindexLast with
    | none => simp [BlockTree.chain] at hchain
    | some p => exact h.wellFormed.length p pindexPrev (eq_some_of_path_eq_cons hchain)
  generalize mapBlockIndex.chain n pindexLast = chain at hlength hdivisor ⊢
  match chain with
  | [] =>
    refine ⟨_, rfl, ?_, ?_, ?_, fun _ _ _ _ h => by cases h⟩ <;> cases network <;> decide
  | [_] =>
    obtain ⟨hmin, hmax, hfrac⟩ := targetGetInitial_spec network
    exact ⟨_, rfl, hmin, hmax, hfrac, fun _ _ _ _ h => by cases h⟩
  | [_, _] =>
    obtain ⟨hmin, hmax, hfrac⟩ := targetGetInitial_spec network
    exact ⟨_, rfl, hmin, hmax, hfrac, fun _ _ _ _ h => by cases h⟩
  | pindexPrev :: pindexPrevPrev :: pindexThird :: rest =>
    obtain ⟨hlow, hhigh⟩ := hlength pindexPrev _ rfl
    have hne : targetDivisor (nTargetTimespan / nTargetSpacing) nTargetSpacing
        (pindexPrev.getBlockTime - pindexPrevPrev.getBlockTime) ≠ 0 := by
      intro hzero
      exact hdivisor (congrArg some hzero)
    obtain ⟨nBits, hnext, hmin, hup, hdown, hfrac⟩ := targetGetNext_spec hne hlow hhigh
    refine ⟨nBits, by simp only [getNextWorkRequired, hnext], ?_, ?_, ?_, ?_⟩
    · rwa [UInt32.le_iff_toNat_le, toNat_targetGetLength]
    · rw [UInt32.le_iff_toNat_le, toNat_targetGetLength]
      change _ ≤ 100
      omega
    · rw [UInt32.le_iff_toNat_le, toNat_targetGetFractional]
      exact hfrac
    · rintro _ _ _ _ ⟨⟩
      rw [toNat_targetGetLength, toNat_targetGetLength]
      exact ⟨hnext, hup, hdown⟩

end Bounds

def DivisorsPositive (mapBlockIndex : BlockTree) : Prop :=
  ∀ p divisor, retargetDivisor (mapBlockIndex.chain 3 (some p)) = some divisor → 0 < divisor

/-- In a tree a node can hold, all divisors are positive exactly when no block whose parent has a
parent is stamped 302370 seconds or more before its parent. -/
theorem divisorsPositive_iff {hash : Bytes → UInt256} {network : Network}
    {mapBlockIndex : BlockTree} (h : Reachable hash network mapBlockIndex) :
    DivisorsPositive mapBlockIndex ↔ ∀ p pindex pindexPrev, mapBlockIndex p = some pindex →
        pindex.pprev.bind mapBlockIndex = some pindexPrev → pindexPrev.pprev ≠ none →
        pindexPrev.nTime.toNat < pindex.nTime.toNat + 302370 := by
  constructor
  · intro hpos p pindex pindexPrev hp hprev hthird
    obtain ⟨q, hq, hprev⟩ := bind_eq_some_iff.mp hprev
    obtain ⟨r, hr⟩ := ne_none_iff_exists'.mp hthird
    obtain ⟨pindexThird, hthird⟩ := h.wellFormed.closed q pindexPrev hprev r hr
    have hchain : mapBlockIndex.chain 3 (some p) = [pindex, pindexPrev, pindexThird] := by
      rw [BlockTree.chain, path_succ_of_eq_some hp, hq, path_succ_of_eq_some hprev,
        hr, path_succ_of_eq_some hthird]
      rfl
    exact (targetDivisor_pos_iff _ _).mp (hpos p _ (by rw [hchain]; rfl))
  · intro htimes p divisor hdivisor
    match hchain : mapBlockIndex.chain 3 (some p), hdivisor with
    | pindex :: pindexPrev :: pindexThird :: rest, hdivisor =>
      have hp := eq_some_of_path_eq_cons hchain
      rw [BlockTree.chain, path_succ_of_eq_some hp, List.cons.injEq] at hchain
      obtain ⟨q, hq⟩ : ∃ q, pindex.pprev = some q := by
        cases hprev : pindex.pprev with
        | none => simp [hprev] at hchain
        | some q => exact ⟨q, rfl⟩
      have hprev := eq_some_of_path_eq_cons (hq ▸ hchain.2)
      have hthird : pindexPrev.pprev ≠ none := by
        intro hnone
        have hrest := hchain.2
        rw [hq, path_succ_of_eq_some hprev, hnone, path_none] at hrest
        cases hrest
      rw [retargetDivisor, some.injEq] at hdivisor
      rw [← hdivisor, targetDivisor_pos_iff]
      exact htimes p pindex pindexPrev hp (by rw [hq]; exact hprev) hthird

/-! Three blocks of the test network with their certificates. The second is stamped three and a
half days after the first, the third one second after the first, which is the median it has to
exceed. -/

namespace Backdated

def coinbase (tag : UInt8) : CTransaction :=
  ⟨1, [⟨⟨0, 0xffffffff⟩, [tag, tag], 0xffffffff⟩], [⟨1000000000, [0x51]⟩], 0⟩

def hash1 : UInt256 := 0x6d39a9dff2935042a3019a946407493e12e80d309bee14f5c1ced12e13f03a7e
def hash2 : UInt256 := 0x88766c176418ac92a8342ba7eba676df052878a3eb45d6988edac96e123ef85d
def hash3 : UInt256 := 0x9aa0e53ed7212fa7263235f3d6b03bacba9e8d6190f518725b5715889042c564

def block1 : CBlock where
  nVersion := 2
  hashPrevBlock := hashGenesisBlock .testNet
  hashMerkleRoot := 0xa8ce50fb459ee75250878c9a0429715faf069a1dab9f22a8e0feae82ef4d16ad
  nTime := 1373063883
  nBits := 0x05000000
  nNonce := 3
  bnPrimeChainMultiplier := 3663597870302370
  vtx := [coinbase 0x51]

def block2 : CBlock where
  nVersion := 2
  hashPrevBlock := hash1
  hashMerkleRoot := 0x5dda3e4c98fdc300fd901764b99bbf2d7a76373dbbf6a9d754a13a048be6717a
  nTime := 1373366254
  nBits := 0x05000000
  nNonce := 6
  bnPrimeChainMultiplier := 348900962900490
  vtx := [coinbase 0x52]

def block3 : CBlock where
  nVersion := 2
  hashPrevBlock := hash2
  hashMerkleRoot := 0xe8d416a4f1da4a6f3fa560270f7bbf19c59436bda7a29eb1b45ee69cdc66dfd5
  nTime := 1373063884
  nBits := 0x04ff0000
  nNonce := 42
  bnPrimeChainMultiplier := 1882928586108570
  vtx := [coinbase 0x53]

def sha256d (m : Bytes) : UInt256 :=
  if m = (coinbase 0x51).serialize then
    0xa8ce50fb459ee75250878c9a0429715faf069a1dab9f22a8e0feae82ef4d16ad
  else if m = (coinbase 0x52).serialize then
    0x5dda3e4c98fdc300fd901764b99bbf2d7a76373dbbf6a9d754a13a048be6717a
  else if m = (coinbase 0x53).serialize then
    0xe8d416a4f1da4a6f3fa560270f7bbf19c59436bda7a29eb1b45ee69cdc66dfd5
  else if m = block1.headerBytes then
    0xe55887d1c69406ab3dcb36c4fd38a346d74aaefd128404771e0bac2b607f4b7f
  else if m = block2.headerBytes then
    0x860cd692e0741bd4c16f50fedcdb142149914cedfd3555b1fc478702114a71f5
  else if m = block3.headerBytes then
    0x8d97d178e8aba522e818e85259824fc3d84cd5560b94762ae5733dbb88bb1203
  else if m = (genesisBlock .testNet).toCBlockHeader.serialize then hashGenesisBlock .testNet
  else if m = block1.toCBlockHeader.serialize then hash1
  else if m = block2.toCBlockHeader.serialize then hash2
  else if m = block3.toCBlockHeader.serialize then hash3
  else 0

def tree0 : BlockTree := genesisTree sha256d .testNet ⟨0, 8⟩
def tree1 : BlockTree := addToBlockIndex sha256d .testNet tree0 block1 ⟨0, 300⟩
def tree2 : BlockTree := addToBlockIndex sha256d .testNet tree1 block2 ⟨0, 500⟩
def tree3 : BlockTree := addToBlockIndex sha256d .testNet tree2 block3 ⟨0, 700⟩

theorem accepts1 : Accepts sha256d .testNet tree0 block1 1373366254 :=
  ⟨by decide +kernel, ⟨128, (.cunningham2, 88368248), by decide +kernel⟩, by decide +kernel⟩

theorem accepts2 : Accepts sha256d .testNet tree1 block2 1373366254 :=
  ⟨by decide +kernel, ⟨128, (.cunningham1, 97142641), by decide +kernel⟩, by decide +kernel⟩

theorem accepts3 : Accepts sha256d .testNet tree2 block3 1373366254 :=
  ⟨by decide +kernel, ⟨128, (.cunningham1, 85692615), by decide +kernel⟩, by decide +kernel⟩

theorem reachable2 : Reachable sha256d .testNet tree2 :=
  (Reachable.genesis _ (by decide)).accept _ accepts1 |>.accept _ accepts2

end Backdated

open Backdated

/-- The third block is accepted and leaves a divisor of zero, so the target of its children cannot
be computed. -/
theorem not_divisorsPositive_backdated :
    Reachable sha256d .testNet tree3 ∧ retargetDivisor (tree3.chain 3 (some hash3)) = some 0 ∧
      getNextWorkRequired .testNet (tree3.chain 3 (some hash3)) =
        .error (.exception "CBigNum::operator/ : BN_div failed") ∧
      ¬ DivisorsPositive tree3 := by
  have hzero : retargetDivisor (tree3.chain 3 (some hash3)) = some 0 := by
    decide
  refine ⟨reachable2.accept _ accepts3, hzero, by decide, ?_⟩
  intro hpos
  exact absurd (hpos _ _ hzero) (by decide)

/-- Up to the second block the times are in order. -/
theorem divisorsPositive_backdated : DivisorsPositive tree2 := by
  refine (divisorsPositive_iff reachable2).mpr ?_
  intro p pindex pindexPrev hp hprev hthird
  simp only [tree2, addToBlockIndex, tree1, tree0, genesisTree, Function.update_apply] at hp
  split_ifs at hp with h2 h1 h0 <;> cases hp
  · have htime : some (1373063883 : UInt32) = some pindexPrev.nTime :=
      Eq.trans (by decide) (congrArg (Option.map CBlockIndex.nTime) hprev)
    rw [← some.inj htime]
    decide
  · have hroot : some (none : Option UInt256) = some pindexPrev.pprev :=
      Eq.trans (by decide) (congrArg (Option.map CBlockIndex.pprev) hprev)
    exact absurd (some.inj hroot).symm hthird
  · cases hprev

/-- The target after the second block: the length drops by one. -/
theorem getNextWorkRequired_bounded_backdated :
    getNextWorkRequired .testNet (tree2.chain 3 (some hash2)) = .ok 0x04ff0000 ∧
      (targetGetLength 0x04ff0000).toNat + 1 = (targetGetLength block2.nBits).toNat ∧
      targetGetFractional 0x04ff0000 ≤ 0xff0000 := by
  have hvalue : getNextWorkRequired .testNet (tree2.chain 3 (some hash2)) =
      .ok 0x04ff0000 := by
    decide
  obtain ⟨nBits, hnext, -, -, hfrac, -⟩ := getNextWorkRequired_bounded reachable2 3
    (some hash2) (by decide)
  rw [hvalue, Except.ok.injEq] at hnext
  subst hnext
  exact ⟨hvalue, by decide, hfrac⟩

end Primecoin
