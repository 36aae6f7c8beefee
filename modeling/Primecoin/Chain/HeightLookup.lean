import Primecoin.Chain.Locator

/-!
# Lookup of blocks by height

`FindBlockByHeight` starts at the genesis block, the best block or the block it found last, and
follows the links of the main chain. The last block is dropped whenever the best block changes, so
all three are in the main chain, from where the links lead to every height.
-/

namespace Primecoin

open List Option CBlockIndex

namespace BlockTree

variable {tree : BlockTree} {b h : UInt256} {l : List UInt256} {nHeight : Int32}

/-- A loop that follows one of the links of the entries it passes. -/
def walk (tree : BlockTree) (link : CBlockIndex → Option UInt256) (passes : CBlockIndex → Bool) :
    ℕ → UInt256 → Except Failure UInt256
  | 0, _ => .error (.fault "FindBlockByHeight")
  | n + 1, h =>
    match tree h with
    | none => .error (.fault "pblockindex->nHeight")
    | some pblockindex =>
      if passes pblockindex then
        match link pblockindex with
        | none => .error (.fault "pblockindex->nHeight")
        | some q => walk tree link passes n q
      else .ok h

def heightOf (tree : BlockTree) (h : UInt256) : Int32 := ((tree h).map CBlockIndex.nHeight).getD 0

def lookupStart (tree : BlockTree) (pindexGenesisBlock pindexBest : UInt256)
    (pblockindexFBBHLast : Option UInt256) (nHeight : Int32) : UInt256 :=
  let pblockindex :=
    if nHeight < tree.heightOf pindexBest / 2 then pindexGenesisBlock else pindexBest
  match pblockindexFBBHLast with
  | none => pblockindex
  | some last =>
    if (nHeight - tree.heightOf last).abs < (nHeight - tree.heightOf pblockindex).abs then last
    else pblockindex

/-- The result is also the next `pblockindexFBBHLast`. -/
def findBlockByHeight (tree : BlockTree) (rounds : ℕ) (pindexGenesisBlock pindexBest : UInt256)
    (pblockindexFBBHLast : Option UInt256) (nHeight : Int32) : Except Failure UInt256 := do
  let pblockindex ← tree.walk pprev (nHeight < ·.nHeight) rounds
    (tree.lookupStart pindexGenesisBlock pindexBest pblockindexFBBHLast nHeight)
  tree.walk pnext (·.nHeight < nHeight) rounds pblockindex

variable {f : CBlockIndex → Option UInt256} {p : CBlockIndex → Bool}

theorem walk_ok {S : UInt256 → CBlockIndex → Prop} {d : CBlockIndex → ℕ}
    (hpasses : ∀ entry, p entry = true ↔ 0 < d entry)
    (hstep : ∀ h entry, S h entry → tree h = some entry → 0 < d entry →
      ∃ q entry', f entry = some q ∧ tree q = some entry' ∧ S q entry' ∧ d entry = d entry' + 1)
    {n : ℕ} {entry : CBlockIndex} (hentry : tree h = some entry) (hS : S h entry)
    (hn : d entry < n) :
    ∃ q entry', tree.walk f p n h = .ok q ∧ tree q = some entry' ∧ S q entry' ∧ d entry' = 0 := by
  induction n generalizing h entry with
  | zero => cases hn
  | succ n ih =>
    by_cases hpass : p entry = true
    · obtain ⟨q, entry', hlink, hentry', hS', hd⟩ :=
        hstep h entry hS hentry ((hpasses entry).mp hpass)
      simp only [walk, hentry, hpass, hlink, if_true]
      exact ih hentry' hS' (by omega)
    · refine ⟨h, entry, ?_, hentry, hS, ?_⟩
      · simp only [walk, hentry, hpass, Bool.false_eq_true, if_false]
      · rw [hpasses] at hpass
        omega

theorem walk_mem {S : Set UInt256}
    (hlink : ∀ h ∈ S, ∀ q, (tree h).bind f = some q → q ∈ S) {n : ℕ} {q : UInt256} (hh : h ∈ S)
    (hwalk : tree.walk f p n h = .ok q) : q ∈ S := by
  induction n generalizing h with
  | zero => cases hwalk
  | succ n ih =>
    rw [walk] at hwalk
    cases hentry : tree h with
    | none =>
      rw [hentry] at hwalk
      cases hwalk
    | some entry =>
      simp only [hentry] at hwalk
      split_ifs at hwalk
      · cases hnext : f entry with
        | none =>
          rw [hnext] at hwalk
          cases hwalk
        | some r =>
          rw [hnext] at hwalk
          exact ih (hlink h hh r (by rw [hentry, bind_some, hnext])) hwalk
      · cases hwalk
        exact hh

section Lookup

variable (hroot : tree.Rooted) (hl : tree.Ancestry (some b) l) {entry : CBlockIndex} {n : ℕ}
include hroot hl

theorem Rooted.walk_pprev (hheight : 0 ≤ nHeight.toInt) (hh : h ∈ l) (hentry : tree h = some entry)
    (hn : entry.nHeight.toInt < n) :
    ∃ q entry', tree.walk pprev (nHeight < ·.nHeight) n h = .ok q ∧
      tree q = some entry' ∧ q ∈ l ∧ entry'.nHeight.toInt ≤ nHeight.toInt := by
  have hpositive := hroot.height h entry hentry
  obtain ⟨q, entry', hwalk, hentry', hq, hd⟩ := walk_ok (f := pprev)
    (p := (nHeight < ·.nHeight)) (S := fun h _ => h ∈ l) (n := n)
    (d := fun entry => (entry.nHeight.toInt - nHeight.toInt).toNat)
    (fun entry => by
      rw [decide_eq_true_iff, Int32.lt_iff_toInt_lt]
      omega)
    (fun h entry hh hentry hd => by
      cases hup : entry.pprev with
      | none =>
        have hzero := hroot.ranked.root h entry hentry hup
        rw [CBlockIndex.depth] at hzero
        omega
      | some q =>
        obtain ⟨entry', hentry', hdepth⟩ := hroot.ranked.step h entry hentry q hup
        rw [CBlockIndex.depth, CBlockIndex.depth] at hdepth
        exact ⟨q, entry', rfl, hentry', hl.up_mem hh hentry hup, by omega⟩)
    hentry hh (by omega)
  exact ⟨q, entry', hwalk, hentry', hq, by omega⟩

theorem Rooted.walk_pnext (hmain : tree.MainChain (some b)) {best : CBlockIndex}
    (hbest : tree b = some best) (hle : nHeight.toInt ≤ best.nHeight.toInt) (hh : h ∈ l)
    (hentry : tree h = some entry) (hlow : entry.nHeight.toInt ≤ nHeight.toInt)
    (hn : nHeight.toInt < n) :
    ∃ q entry', tree.walk pnext (·.nHeight < nHeight) n h = .ok q ∧
      tree q = some entry' ∧ q ∈ l ∧ entry'.nHeight = nHeight := by
  have hpositive := hroot.height h entry hentry
  obtain ⟨q, entry', hwalk, hentry', hq, hd⟩ := walk_ok (f := pnext)
    (p := (·.nHeight < nHeight)) (n := n)
    (S := fun h entry => h ∈ l ∧ entry.nHeight.toInt ≤ nHeight.toInt)
    (d := fun entry => (nHeight.toInt - entry.nHeight.toInt).toNat)
    (fun entry => by
      rw [decide_eq_true_iff, Int32.lt_iff_toInt_lt]
      omega)
    (fun h entry hh hentry hd => by
      have hin := ((hmain.isInMainChain_iff hl h).mpr hh.1)
      rw [Bool.and_eq_true, isInMainChain, Bool.or_eq_true, beq_iff_eq, some.injEq] at hin
      rcases hin.2 with hnext | rfl
      · obtain ⟨q, hq⟩ := isSome_iff_exists.mp hnext
        obtain ⟨l', hl', hlinks⟩ := hmain
        obtain rfl := hl.unique hl'
        obtain ⟨hmem, hprev⟩ := (hlinks h q).mp hq
        obtain ⟨entry', hentry', hup⟩ := bind_eq_some_iff.mp hprev
        obtain ⟨_, hparent, hdepth⟩ := hroot.ranked.step q entry' hentry' h hup
        rw [hentry, some.injEq] at hparent
        subst hparent
        have hpositive := hroot.height h entry hentry
        rw [CBlockIndex.depth, CBlockIndex.depth] at hdepth
        rw [next, hentry, bind_some] at hq
        exact ⟨q, entry', hq, hentry', ⟨hmem, by omega⟩, by omega⟩
      · -- above the best block there is nothing to reach
        rw [hbest, some.injEq] at hentry
        subst hentry
        omega)
    hentry ⟨hh, hlow⟩ (by omega)
  exact ⟨q, entry', hwalk, hentry', hq.1, Int32.toInt_inj.mp (by omega)⟩

theorem Rooted.findBlockByHeight_ok (hmain : tree.MainChain (some b)) {best : CBlockIndex}
    (hbest : tree b = some best) (hheight : 0 ≤ nHeight) (hle : nHeight ≤ best.nHeight)
    (hn : best.depth < n) {genesis : UInt256} {last : Option UInt256}
    (hstart : tree.lookupStart genesis b last nHeight ∈ l) :
    ∃ q entry, tree.findBlockByHeight n genesis b last nHeight = .ok q ∧
      tree q = some entry ∧ q ∈ l ∧ entry.nHeight = nHeight := by
  rw [Int32.le_iff_toInt_le] at hheight hle
  rw [Int32.toInt_zero] at hheight
  obtain ⟨entry, hentry⟩ := hl.exists_of_mem hstart
  have hhigh := hl.rank_le hroot.ranked hbest hstart hentry
  rw [CBlockIndex.depth] at hn hhigh
  obtain ⟨p, low, hdown, hlow, hp, hbelow⟩ :=
    hroot.walk_pprev hl hheight hstart hentry (show _ < (n : ℤ) by
      rw [CBlockIndex.depth] at hhigh
      omega)
  obtain ⟨q, found, hup, hfound, hq, heq⟩ :=
    hroot.walk_pnext hl hmain hbest hle hp hlow hbelow (show _ < (n : ℤ) by omega)
  refine ⟨q, found, ?_, hfound, hq, heq⟩
  rw [findBlockByHeight, hdown]
  exact hup

theorem Rooted.eq_of_nHeight_eq {q : UInt256} {entry' : CBlockIndex} (hh : h ∈ l)
    (hentry : tree h = some entry) (hq : q ∈ l) (hentry' : tree q = some entry')
    (heq : entry.nHeight = entry'.nHeight) : h = q := by
  have hdepth : entry.depth = entry'.depth := congrArg (·.toInt.toNat) heq
  obtain ⟨s, hs, hhs⟩ := hl.of_mem hh
  obtain ⟨t, ht, hqt⟩ := hl.of_mem hq
  have hlength : s.length = t.length := by
    rw [hhs.length_eq hroot.ranked hentry, hqt.length_eq hroot.ranked hentry', hdepth]
  have hsame := (suffix_of_suffix_length_le hs ht hlength.le).eq_of_length hlength
  rw [hsame] at hhs
  exact some.inj (hhs.head?_eq.symm.trans hqt.head?_eq)

end Lookup

end BlockTree

namespace Node

variable {W : Type}

/-- The genesis block has no parent, and the cached block is in the main chain. -/
structure Cached (genesis : UInt256) (node : Node W) (cache : Option UInt256) : Prop
    extends Consistent node where
  genesis : (node.mapBlockIndex genesis).map pprev = some none
  cache : ∀ l, node.mapBlockIndex.Ancestry node.pindexBest l → ∀ last ∈ cache, last ∈ l

/-- `SetBestChain` succeeds, a block is looked up, or the index changes in a way that leaves the
main chain alone. -/
inductive LookupStep (genesis : UInt256) : Node W × Option UInt256 → Node W × Option UInt256 → Prop
  | setBestChain {node node' : Node W} {cache : Option UInt256} (context : ChainContext W)
      (io : ChainIo) (reorganise : Stateful (Node W) Failure Unit) (state : CValidationState)
      (pindexNew : UInt256) : (node.mapBlockIndex pindexNew).isSome →
      (setBestChain context io reorganise state pindexNew).run node = (.ok (), node') →
      LookupStep genesis (node, cache) (node', none)
  | lookup {node : Node W} {cache : Option UInt256} {b h : UInt256} (rounds : ℕ)
      (nHeight : Int32) : node.pindexBest = some b →
      node.mapBlockIndex.findBlockByHeight rounds genesis b cache nHeight = .ok h →
      LookupStep genesis (node, cache) (node, some h)
  | index {node node' : Node W} {cache : Option UInt256} : node'.Consistent →
      node'.pindexBest = node.pindexBest → node.mapBlockIndex.Within node'.mapBlockIndex →
      LookupStep genesis (node, cache) (node', cache)

section Cached

variable {genesis b : UInt256} {node node' : Node W} {cache cache' : Option UInt256}
  {l : List UInt256} {nHeight : Int32} (hcached : Cached genesis node cache)
include hcached

theorem Cached.genesis_mem (hl : node.mapBlockIndex.Ancestry (some b) l) : genesis ∈ l := by
  obtain ⟨q, hq, a, ha, hup⟩ := hl.exists_root
  obtain ⟨entry, hentry, hprev⟩ := map_eq_some_iff.mp hcached.genesis
  rwa [hcached.rooted.genesis genesis q entry a hentry ha hprev hup]

theorem Cached.lookupStart_mem (hbest : node.pindexBest = some b)
    (hl : node.mapBlockIndex.Ancestry (some b) l) (nHeight : Int32) :
    node.mapBlockIndex.lookupStart genesis b cache nHeight ∈ l := by
  have hfirst : (if nHeight < node.mapBlockIndex.heightOf b / 2 then genesis else b) ∈ l := by
    split_ifs
    · exact hcached.genesis_mem hl
    · exact mem_of_head? hl.head?_eq
  cases cache with
  | none => exact hfirst
  | some last =>
    simp only [BlockTree.lookupStart]
    generalize (if nHeight < node.mapBlockIndex.heightOf b / 2 then genesis else b) = first
      at hfirst ⊢
    split_ifs
    · exact hcached.cache l (hbest ▸ hl) last rfl
    · exact hfirst

theorem Cached.findBlockByHeight_mem (hbest : node.pindexBest = some b)
    (hl : node.mapBlockIndex.Ancestry (some b) l) {rounds : ℕ} {h : UInt256}
    (hfound : node.mapBlockIndex.findBlockByHeight rounds genesis b cache nHeight = .ok h) :
    h ∈ l := by
  obtain ⟨l', hl', hlinks⟩ := hbest ▸ hcached.main
  obtain rfl := hl.unique hl'
  obtain ⟨p, hdown, hup⟩ := Except.bind_eq_ok_iff.mp hfound
  refine BlockTree.walk_mem (S := (· ∈ l)) (fun q _ r hr => ((hlinks q r).mp hr).1) ?_ hup
  refine BlockTree.walk_mem (S := (· ∈ l)) (fun q hq r hr => ?_)
    (hcached.lookupStart_mem hbest hl nHeight) hdown
  obtain ⟨entry, hentry, hprev⟩ := bind_eq_some_iff.mp hr
  exact hl.up_mem hq hentry hprev

theorem Cached.step (hstep : LookupStep genesis (node, cache) (node', cache')) :
    Cached genesis node' cache' := by
  cases hstep with
  | setBestChain context io reorganise state pindexNew hnew hrun =>
    obtain ⟨pindex, hnew⟩ := isSome_iff_exists.mp hnew
    obtain ⟨hconsistent, -, hsame⟩ := setBestChain_consistent hcached.toConsistent hnew hrun
    exact ⟨hconsistent, (hsame.map_pprev genesis).trans hcached.genesis, fun _ _ _ h => nomatch h⟩
  | lookup rounds nHeight hbest hfound =>
    refine ⟨hcached.toConsistent, hcached.genesis, fun l hl last hlast => ?_⟩
    obtain rfl := some.inj hlast
    rw [hbest] at hl
    exact hcached.findBlockByHeight_mem hbest hl hfound
  | index hconsistent hbest hwithin =>
    obtain ⟨entry, hentry, hprev⟩ := map_eq_some_iff.mp hcached.genesis
    refine ⟨hconsistent, ?_, fun l hl => ?_⟩
    · rw [hwithin genesis entry hentry, hprev]
    · obtain ⟨l', hl', -⟩ := hcached.main
      rw [hbest] at hl
      obtain rfl := hl.unique (hwithin.ancestry hl')
      exact hcached.cache l hl'

end Cached

/-- After any history of successful calls of `SetBestChain` and of lookups, a lookup of a height
up to the best returns the one block of the main chain there. -/
theorem findBlockByHeight_history {genesis b : UInt256} {start node : Node W}
    {cache : Option UInt256} (hstart : start.Consistent)
    (hgenesis : (start.mapBlockIndex genesis).map pprev = some none)
    (hrun : Relation.ReflTransGen (LookupStep genesis) (start, none) (node, cache))
    (hbest : node.pindexBest = some b) {best : CBlockIndex}
    (hentry : node.mapBlockIndex b = some best) {nHeight : Int32} (hheight : 0 ≤ nHeight)
    (hle : nHeight ≤ best.nHeight) {rounds : ℕ} (hrounds : best.depth < rounds) :
    ∃ l q entry, node.mapBlockIndex.Ancestry (some b) l ∧
      node.mapBlockIndex.findBlockByHeight rounds genesis b cache nHeight = .ok q ∧ q ∈ l ∧
      node.mapBlockIndex q = some entry ∧ entry.nHeight = nHeight ∧
      ∀ q' ∈ l, ∀ entry', node.mapBlockIndex q' = some entry' → entry'.nHeight = nHeight →
        q' = q := by
  have hcached : ∀ s, Relation.ReflTransGen (LookupStep genesis) (start, none) s →
      Cached genesis s.1 s.2 := by
    intro s hs
    induction hs with
    | refl => exact ⟨hstart, hgenesis, fun _ _ _ h => nomatch h⟩
    | tail _ hstep ih => exact ih.step hstep
  have hcached := hcached _ hrun
  obtain ⟨l, hl, -⟩ := hbest ▸ hcached.main
  obtain ⟨q, entry, hfound, hq, hmem, heq⟩ := hcached.rooted.findBlockByHeight_ok hl
    (hbest ▸ hcached.main) hentry hheight hle hrounds (hcached.lookupStart_mem hbest hl nHeight)
  refine ⟨l, q, entry, hl, hfound, hmem, hq, heq, fun q' hq' entry' hentry' heq' => ?_⟩
  exact hcached.rooted.eq_of_nHeight_eq hl hq' hentry' hmem hq (heq'.trans heq.symm)

/-- The lookup after a block has been connected. -/
theorem findBlockByHeight_history_backdated :
    ∃ q, ((setBestChain Backdated.chainContext (Backdated.chainIo true) (pure ()) .init
      Backdated.hash1).run Backdated.node).2.mapBlockIndex.findBlockByHeight 2
        (hashGenesisBlock .testNet) Backdated.hash1 none 1 = .ok q := by
  set node := ((setBestChain Backdated.chainContext (Backdated.chainIo true) (pure ()) .init
    Backdated.hash1).run Backdated.node).2 with hnode
  have hentry : (node.mapBlockIndex Backdated.hash1).any
      (fun best => 1 ≤ best.nHeight ∧ best.depth < 2) = true := by decide
  obtain ⟨best, hbest, hheight⟩ := (Option.any_eq_true _ _).mp hentry
  rw [decide_eq_true_iff] at hheight
  have hstep : LookupStep (hashGenesisBlock .testNet) (Backdated.node, none) (node, none) :=
    .setBestChain Backdated.chainContext (Backdated.chainIo true) (pure ()) .init Backdated.hash1
      (by decide) (Prod.ext (by decide) rfl)
  obtain ⟨_, q, _, -, hfound, -⟩ := findBlockByHeight_history Backdated.consistent_node
    (by decide) (.single hstep) (by decide) hbest (by decide) hheight.1 hheight.2
  exact ⟨q, hfound⟩

end Node

end Primecoin
