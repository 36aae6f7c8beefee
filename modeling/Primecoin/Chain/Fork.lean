import Primecoin.Chain.Accept

/-!
# Forks and the main chain

The block index is a tree of entries linked by `pprev`; the links `pnext` mark one of its
branches, the main chain. `SetBestChain` moves them to the branch of the new best block:
`reorganization` finds the fork and the blocks on both sides, and `updateLinks` rewrites the links
once the coins have followed.

`Rooted` says what the functions rely on: one genesis block, and heights that count the links up
to it. `MainChain` says that `pnext` marks exactly the branch of the best block.
-/

namespace Primecoin

open List Option Function Forest

def CBlockIndex.depth (pindex : CBlockIndex) : ℕ := pindex.nHeight.toInt.toNat

open CBlockIndex

/-- What is fixed when an entry is made. -/
def CBlockIndex.position (pindex : CBlockIndex) :
    Option UInt256 × Option UInt256 × Int32 × UInt256 :=
  (pindex.phashBlock, pindex.pprev, pindex.nHeight, pindex.nChainWork)

namespace BlockTree

variable (tree : BlockTree) (h : UInt256)

def prev : Option UInt256 := (tree h).bind pprev

def next : Option UInt256 := (tree h).bind pnext

def depth : ℕ := ((tree h).map CBlockIndex.depth).getD 0

def isFailed : Bool := (tree h).any CBlockIndex.isFailed

def work : UInt256 :=
  ((tree h).map nChainWork).getD 0

def SamePositions (tree tree' : BlockTree) : Prop :=
  ∀ h, (tree' h).map position = (tree h).map position

/-- The higher of two blocks steps back to its parent, the old best block if they are of one
height. -/
def findFork (tree : BlockTree) : ℕ → UInt256 → UInt256 → Except Failure UInt256
  | 0, _, _ => .error (.fault "SetBestChain")
  | n + 1, pfork, plonger =>
    if pfork = plonger then .ok pfork
    else
      match tree pfork, tree plonger with
      | some fork, some longer =>
        if fork.nHeight < longer.nHeight then
          match longer.pprev with
          | none => .error (.assertion "plonger != NULL")
          | some pprev => findFork tree n pfork pprev
        else
          match fork.pprev with
          | none => .error (.assertion "pfork != NULL")
          | some pprev => findFork tree n pprev plonger
      | _, _ => .error (.fault "pfork->nHeight")

/-- The blocks from `pindex` down to the fork, without the fork. -/
def pathTo (tree : BlockTree) (pfork : Option UInt256) :
    ℕ → Option UInt256 → Except Failure (List UInt256)
  | 0, _ => .error (.fault "SetBestChain")
  | n + 1, pindex =>
    if pindex = pfork then .ok []
    else
      match pindex.bind fun h => (tree h).map fun entry => (h, entry.pprev) with
      | none => .error (.fault "pindex->pprev")
      | some (h, pprev) => do
          let rest ← pathTo tree pfork n pprev
          .ok (h :: rest)

variable (best : Option UInt256)

/-- The lists `vDisconnect` and `vConnect`, in the order in which their blocks are taken off and
put on. -/
def reorganization (pindexNew : UInt256) : Except Failure (List UInt256 × List UInt256) := do
  let pfork ← match best with
    | none => .ok none
    | some b => (findFork tree (tree.depth b + tree.depth pindexNew + 1) b pindexNew).map some
  let vDisconnect ← pathTo tree pfork ((best.map tree.depth).getD 0 + 2) best
  let vConnect ← pathTo tree pfork (tree.depth pindexNew + 2) (some pindexNew)
  .ok (vDisconnect, vConnect.reverse)

def relink (target : UInt256 → Option UInt256) (tree : BlockTree) (h : UInt256) : BlockTree :=
  match tree.prev h with
  | none => tree
  | some p => update tree p ((tree p).map fun pprev => { pprev with pnext := target h })

def updateLinks (vDisconnect vConnect : List UInt256) : BlockTree :=
  vConnect.foldl (relink some) (vDisconnect.foldl (relink fun _ => none) tree)

/-- One genesis block, heights that count the links up to it, and entries that know their hash. -/
structure Rooted (tree : BlockTree) : Prop where
  phashBlock : ∀ h pindex, tree h = some pindex → pindex.phashBlock = some h
  genesis : ∀ h h' pindex pindex', tree h = some pindex → tree h' = some pindex' →
    pindex.pprev = none → pindex'.pprev = none → h = h'
  height : ∀ h pindex, tree h = some pindex → 0 ≤ pindex.nHeight.toInt
  ranked : Ranked CBlockIndex.pprev tree CBlockIndex.depth

def Ancestry (pindex : Option UInt256) (l : List UInt256) : Prop :=
  Ascends pprev tree pindex l

/-- The links `pnext` lead along the ancestry of `best`, and nowhere else. -/
def MainChain : Prop :=
  ∃ l, tree.Ancestry best l ∧ ∀ p q, tree.next p = some q ↔ q ∈ l ∧ tree.prev q = some p

/-- Following `pnext` from the genesis block visits the ancestors of `best` and ends at it. -/
def Followed : Prop :=
  ∃ l, tree.Ancestry best l ∧ l.reverse.IsChain (fun p q => tree.next p = some q) ∧
    ∀ b, best = some b → tree.next b = none

section Positions

variable {tree tree' : BlockTree} {best : Option UInt256} {l : List UInt256}

theorem SamePositions.refl (tree : BlockTree) : SamePositions tree tree := fun _ => rfl

theorem SamePositions.trans {tree'' : BlockTree} (h : SamePositions tree tree')
    (h' : SamePositions tree' tree'') : SamePositions tree tree'' :=
  fun q => (h' q).trans (h q)

theorem SamePositions.symm (h : SamePositions tree tree') : SamePositions tree' tree :=
  fun q => (h q).symm

theorem SamePositions.exists_of_eq_some {h : UInt256} {pindex : CBlockIndex}
    (hsame : SamePositions tree tree') (hp : tree h = some pindex) :
    ∃ pindex', tree' h = some pindex' ∧ pindex'.position = pindex.position := by
  have := hsame h
  rwa [hp, map_some, map_eq_some_iff] at this

section

variable (hsame : SamePositions tree tree')
include hsame

theorem SamePositions.map_pprev (h : UInt256) : (tree' h).map pprev = (tree h).map pprev := by
  have := congrArg (Option.map fun position => position.2.1) (hsame h)
  rwa [Option.map_map, Option.map_map] at this

theorem SamePositions.prev_eq (h : UInt256) : tree'.prev h = tree.prev h := by
  have := congrArg (Option.bind · id) (hsame.map_pprev h)
  rwa [bind_map, bind_map] at this

theorem SamePositions.work_eq (h : UInt256) : tree'.work h = tree.work h := by
  have := congrArg (Option.map fun position => position.2.2.2) (hsame h)
  rw [Option.map_map, Option.map_map] at this
  exact congrArg (Option.getD · 0) this

theorem Ancestry.congr (h : tree.Ancestry best l) : tree'.Ancestry best l :=
  Ascends.congr hsame.map_pprev h

theorem Rooted.congr (hroot : tree.Rooted) : tree'.Rooted := by
  have hback : ∀ h pindex', tree' h = some pindex' →
      ∃ pindex, tree h = some pindex ∧ pindex.position = pindex'.position :=
    fun h pindex' hp => hsame.symm.exists_of_eq_some hp
  constructor
  · intro h pindex' hp
    obtain ⟨pindex, hq, hpos⟩ := hback h pindex' hp
    simp only [position, Prod.mk.injEq] at hpos
    rw [← hpos.1, hroot.phashBlock h pindex hq]
  · intro h h' pindex pindex' hp hp' hup hup'
    obtain ⟨entry, hq, hpos⟩ := hback h pindex hp
    obtain ⟨entry', hq', hpos'⟩ := hback h' pindex' hp'
    simp only [position, Prod.mk.injEq] at hpos hpos'
    exact hroot.genesis h h' entry entry' hq hq' (hpos.2.1.trans hup) (hpos'.2.1.trans hup')
  · intro h pindex' hp
    obtain ⟨pindex, hq, hpos⟩ := hback h pindex' hp
    simp only [position, Prod.mk.injEq] at hpos
    rw [← hpos.2.2.1]
    exact hroot.height h pindex hq
  · constructor
    · intro h pindex' hp hup
      obtain ⟨pindex, hq, hpos⟩ := hback h pindex' hp
      simp only [position, Prod.mk.injEq] at hpos
      rw [CBlockIndex.depth, ← hpos.2.2.1]
      exact hroot.ranked.root h pindex hq (hpos.2.1.trans hup)
    · intro h pindex' hp q hup
      obtain ⟨pindex, hq, hpos⟩ := hback h pindex' hp
      simp only [position, Prod.mk.injEq] at hpos
      obtain ⟨parent, hparent, hdepth⟩ := hroot.ranked.step h pindex hq q (hpos.2.1.trans hup)
      obtain ⟨parent', hparent', hpos'⟩ := hsame.exists_of_eq_some hparent
      simp only [position, Prod.mk.injEq] at hpos'
      refine ⟨parent', hparent', ?_⟩
      rw [CBlockIndex.depth, CBlockIndex.depth, ← hpos.2.2.1, hpos'.2.2.1]
      exact hdepth

end

end Positions

theorem isFailed_congr {tree tree' : BlockTree} {h : UInt256}
    (hstatus : (tree' h).map (fun pindex => pindex.nStatus &&& blockFailedMask) =
      (tree h).map fun pindex => pindex.nStatus &&& blockFailedMask) :
    tree'.isFailed h = tree.isFailed h := by
  have hany := congrArg (Option.any fun bits : UInt32 => decide (bits ≠ 0)) hstatus
  rwa [Option.any_map, Option.any_map] at hany

section Growth

variable {hash : Bytes → UInt256} {network : Network} {tree : BlockTree}

theorem rooted_genesisTree (hash : Bytes → UInt256) (network : Network) (pos : CDiskBlockPos) :
    (genesisTree hash network pos).Rooted := by
  have hentry : ∀ {h pindex}, genesisTree hash network pos h = some pindex →
      h = (genesisBlock network).getHash hash ∧
        pindex = newBlockIndex hash network (fun _ => none) (genesisBlock network) pos := by
    intro h pindex hp
    rw [genesisTree, addToBlockIndex, update_apply] at hp
    split_ifs at hp with heq
    exact ⟨heq, (some.inj hp).symm⟩
  constructor
  · intro h pindex hp
    obtain ⟨rfl, rfl⟩ := hentry hp
    rfl
  · intro h h' pindex pindex' hp hp' _ _
    rw [(hentry hp).1, (hentry hp').1]
  · intro h pindex hp
    obtain ⟨-, rfl⟩ := hentry hp
    exact le_of_eq Int32.toInt_zero.symm
  · constructor
    · intro h pindex hp _
      obtain ⟨-, rfl⟩ := hentry hp
      rfl
    · intro h pindex hp q hq
      obtain ⟨-, rfl⟩ := hentry hp
      cases hq

/-- A new block keeps the tree rooted as long as its height can be counted. -/
theorem Rooted.addToBlockIndex (hroot : tree.Rooted) {block : CBlock} {pindexPrev : CBlockIndex}
    (pos : CDiskBlockPos) (hnew : tree (block.getHash hash) = none)
    (hprev : tree block.hashPrevBlock = some pindexPrev)
    (hheight : pindexPrev.nHeight.toInt + 1 < 2 ^ 31) :
    (addToBlockIndex hash network tree block pos).Rooted := by
  have hpprev : (newBlockIndex hash network tree block pos).pprev = some block.hashPrevBlock := by
    simp [newBlockIndex, hprev]
  have hpositive := hroot.height _ _ hprev
  have hnHeight : (newBlockIndex hash network tree block pos).nHeight.toInt =
      pindexPrev.nHeight.toInt + 1 := by
    simp only [newBlockIndex, hprev, map_some, getD_some, Int32.toInt_add]
    rw [Int32.toInt_one, Int.bmod_eq_of_le (by omega) (by omega)]
  have hentry : ∀ {h pindex}, Primecoin.addToBlockIndex hash network tree block pos h =
      some pindex → (h = block.getHash hash ∧ pindex = newBlockIndex hash network tree block pos) ∨
        tree h = some pindex := by
    intro h pindex hp
    rw [Primecoin.addToBlockIndex, update_apply] at hp
    split_ifs at hp with heq
    · exact Or.inl ⟨heq, (some.inj hp).symm⟩
    · exact Or.inr hp
  have hold : ∀ {h pindex}, tree h = some pindex →
      Primecoin.addToBlockIndex hash network tree block pos h = some pindex := by
    intro h pindex hp
    have hne : h ≠ block.getHash hash := by
      rintro rfl
      rw [hnew] at hp
      cases hp
    rw [Primecoin.addToBlockIndex, update_of_ne hne, hp]
  constructor
  · intro h pindex hp
    rcases hentry hp with ⟨rfl, rfl⟩ | hp
    · rfl
    · exact hroot.phashBlock h pindex hp
  · intro h h' pindex pindex' hp hp' hup hup'
    rcases hentry hp with ⟨rfl, rfl⟩ | hp
    · rw [hpprev] at hup
      cases hup
    · rcases hentry hp' with ⟨rfl, rfl⟩ | hp'
      · rw [hpprev] at hup'
        cases hup'
      · exact hroot.genesis h h' pindex pindex' hp hp' hup hup'
  · intro h pindex hp
    rcases hentry hp with ⟨-, rfl⟩ | hp
    · rw [hnHeight]
      omega
    · exact hroot.height h pindex hp
  · constructor
    · intro h pindex hp hup
      rcases hentry hp with ⟨-, rfl⟩ | hp
      · rw [hpprev] at hup
        cases hup
      · exact hroot.ranked.root h pindex hp hup
    · intro h pindex hp q hup
      rcases hentry hp with ⟨-, rfl⟩ | hp
      · rw [hpprev, some.injEq] at hup
        subst hup
        refine ⟨pindexPrev, hold hprev, ?_⟩
        rw [CBlockIndex.depth, CBlockIndex.depth, hnHeight]
        omega
      · obtain ⟨parent, hparent, hdepth⟩ := hroot.ranked.step h pindex hp q hup
        exact ⟨parent, hold hparent, hdepth⟩

end Growth

section Reorganization

variable {tree : BlockTree} {best : Option UInt256} {pfork plonger pindexNew : UInt256}
  {fork longer : CBlockIndex}

theorem Rooted.lt_iff_depth_lt (hroot : tree.Rooted) (hfork : tree pfork = some fork)
    (hlonger : tree plonger = some longer) :
    fork.nHeight < longer.nHeight ↔ fork.depth < longer.depth := by
  have := hroot.height pfork fork hfork
  have := hroot.height plonger longer hlonger
  rw [Int32.lt_iff_toInt_lt, CBlockIndex.depth, CBlockIndex.depth]
  omega

theorem Rooted.exists_pprev (hroot : tree.Rooted) (hfork : tree pfork = some fork)
    (hlonger : tree plonger = some longer) (hne : pfork ≠ plonger)
    (hle : longer.depth ≤ fork.depth) : ∃ p, fork.pprev = some p := by
  cases hup : fork.pprev with
  | some p => exact ⟨p, rfl⟩
  | none =>
    have hzero := hroot.ranked.root pfork fork hfork hup
    cases hup' : longer.pprev with
    | none => exact absurd (hroot.genesis _ _ _ _ hfork hlonger hup hup') hne
    | some q =>
      obtain ⟨_, -, hdepth⟩ := hroot.ranked.step plonger longer hlonger q hup'
      omega

/-- A common ancestor, and no block above it on the new side is an ancestor of the old one. -/
theorem findFork_ok (hroot : tree.Rooted) {n : ℕ} (hfork : tree pfork = some fork)
    (hlonger : tree plonger = some longer) (hn : fork.depth + longer.depth < n) :
    ∃ p d c t, findFork tree n pfork plonger = .ok p ∧
      tree.Ancestry (some pfork) (d ++ p :: t) ∧ tree.Ancestry (some plonger) (c ++ p :: t) ∧
      ∀ q ∈ c, q ∉ d ++ p :: t := by
  induction n generalizing pfork plonger fork longer with
  | zero => omega
  | succ n ih =>
    by_cases heq : pfork = plonger
    · subst heq
      obtain ⟨l, hl⟩ := hroot.ranked.exists_ascends hfork
      cases hl with
      | step ha ht =>
        refine ⟨pfork, [], [], _, ?_, .step ha ht, .step ha ht, by simp⟩
        rw [findFork, if_pos rfl]
    · rw [findFork, if_neg heq]
      simp only [hfork, hlonger]
      by_cases hlt : fork.nHeight < longer.nHeight
      · have hdepth := (hroot.lt_iff_depth_lt hfork hlonger).mp hlt
        obtain ⟨q, hq⟩ := hroot.exists_pprev hlonger hfork (Ne.symm heq) hdepth.le
        obtain ⟨parent, hparent, hstep⟩ := hroot.ranked.step plonger longer hlonger q hq
        obtain ⟨p, d, c, t, hok, hd, hc, hdisjoint⟩ := ih hfork hparent (by omega)
        refine ⟨p, d, plonger :: c, t, ?_, hd, .step hlonger (hq ▸ hc), ?_⟩
        · rw [if_pos hlt, hq]
          exact hok
        · intro r hr hmem
          rcases mem_cons.mp hr with rfl | hr
          · have := hd.rank_le hroot.ranked hfork hmem hlonger
            omega
          · exact hdisjoint r hr hmem
      · have hdepth := mt (hroot.lt_iff_depth_lt hfork hlonger).mpr hlt
        obtain ⟨q, hq⟩ := hroot.exists_pprev hfork hlonger heq (not_lt.mp hdepth)
        obtain ⟨parent, hparent, hstep⟩ := hroot.ranked.step pfork fork hfork q hq
        obtain ⟨p, d, c, t, hok, hd, hc, hdisjoint⟩ := ih hparent hlonger (by omega)
        refine ⟨p, pfork :: d, c, t, ?_, .step hfork (hq ▸ hd), hc, ?_⟩
        · rw [if_neg hlt, hq]
          exact hok
        · intro r hr hmem
          rcases mem_cons.mp hmem with rfl | hmem
          · exact heq (hc.eq_of_rank_le hroot.ranked hlonger (mem_append_left _ hr) hfork
              (not_lt.mp hdepth))
          · exact hdisjoint r hr hmem

theorem pathTo_ok {n : ℕ} {pindex : Option UInt256} {d t : List UInt256}
    (h : tree.Ancestry pindex (d ++ t)) (hn : d.length < n) :
    pathTo tree t.head? n pindex = .ok d := by
  induction d generalizing n pindex with
  | nil =>
    obtain ⟨n, rfl⟩ := Nat.exists_eq_succ_of_ne_zero (Nat.ne_of_gt hn)
    rw [nil_append] at h
    rw [pathTo, if_pos h.head?_eq.symm]
  | cons k d ih =>
    have hnodup := h.nodup
    obtain ⟨n, rfl⟩ := Nat.exists_eq_succ_of_ne_zero (Nat.ne_of_gt (Nat.zero_lt_of_lt hn))
    rw [length_cons] at hn
    cases h with
    | @step _ pindex _ hk hrest =>
      have hne : some k ≠ t.head? := fun heq =>
        (nodup_cons.mp hnodup).1 (mem_append_right d (mem_of_head? heq.symm))
      rw [pathTo, if_neg hne]
      simp only [bind_some, hk, map_some]
      rw [ih hrest (by omega), Except.ok_bind]

/-- The ancestries of the old and the new best block without the part they share. The blocks to
connect are not on the old branch. -/
theorem reorganization_ok (hroot : tree.Rooted) {lbest lnew : List UInt256}
    (hbest : tree.Ancestry best lbest) (hnew : tree.Ancestry (some pindexNew) lnew) :
    ∃ d c t, reorganization tree best pindexNew = .ok (d, c.reverse) ∧
      lbest = d ++ t ∧ lnew = c ++ t ∧ ∀ q ∈ c, q ∉ lbest := by
  have hpath : ∀ {h pindex} {d t : List UInt256}, tree h = some pindex →
      tree.Ancestry (some h) (d ++ t) → d.length < tree.depth h + 2 := by
    intro h pindex d t hh hl
    have hlength := hl.length_eq hroot.ranked hh
    rw [length_append] at hlength
    rw [depth, hh]
    simp only [map_some, getD_some]
    omega
  obtain ⟨longer, hlonger⟩ := hnew.exists_of_mem (mem_of_head? hnew.head?_eq)
  cases hbest with
  | root =>
    refine ⟨[], lnew, [], ?_, rfl, by simp, by simp⟩
    rw [← append_nil lnew] at hnew
    have hconnect := pathTo_ok hnew (hpath hlonger hnew)
    simp only [head?_nil] at hconnect
    simp only [reorganization, Except.ok_bind, hconnect]
    rfl
  | @step b fork l hfork hl =>
    have hdepth : tree.depth b + tree.depth pindexNew = fork.depth + longer.depth := by
      simp [depth, hfork, hlonger]
    obtain ⟨p, d, c, t, hok, hd, hc, hdisjoint⟩ := findFork_ok hroot hfork hlonger
      (Nat.lt_succ_of_le hdepth.ge)
    have hlbest := (Ascends.step hfork hl).unique hd
    have hlnew := hnew.unique hc
    refine ⟨d, c, p :: t, ?_, hlbest, hlnew, hlbest ▸ hdisjoint⟩
    have hdisconnect := pathTo_ok hd (hpath hfork hd)
    have hconnect := pathTo_ok hc (hpath hlonger hc)
    rw [head?_cons] at hdisconnect hconnect
    simp only [reorganization, hok, Except.map, Except.ok_bind, map_some,
      getD_some, hdisconnect, hconnect]

end Reorganization

section Links

variable {tree : BlockTree} {target : UInt256 → Option UInt256} {h p q : UInt256} {l : List UInt256}

theorem map_relink {γ : Type} {f : CBlockIndex → γ}
    (hf : ∀ pindex pnext, f { pindex with pnext := pnext } = f pindex)
    (target : UInt256 → Option UInt256) (tree : BlockTree) (h q : UInt256) :
    (relink target tree h q).map f = (tree q).map f := by
  cases hp : tree.prev h with
  | none => simp only [relink, hp]
  | some p =>
    simp only [relink, hp]
    by_cases hq : q = p
    · rw [hq, update_self, Option.map_map]
      exact congrArg (Option.map · _) (funext fun pindex => hf pindex _)
    · rw [update_of_ne hq]

theorem map_foldl_relink {γ : Type} {f : CBlockIndex → γ}
    (hf : ∀ pindex pnext, f { pindex with pnext := pnext } = f pindex)
    (target : UInt256 → Option UInt256) (tree : BlockTree) (l : List UInt256) (q : UInt256) :
    (l.foldl (relink target) tree q).map f = (tree q).map f := by
  induction l generalizing tree with
  | nil => rfl
  | cons h l ih => exact (ih _).trans (map_relink hf target tree h q)

theorem samePositions_foldl_relink (target : UInt256 → Option UInt256) (tree : BlockTree)
    (l : List UInt256) : SamePositions tree (l.foldl (relink target) tree) :=
  map_foldl_relink (fun _ _ => rfl) target tree l

theorem next_relink_of_ne (hp : tree.prev h ≠ some p) : (relink target tree h).next p =
    tree.next p := by
  rw [relink]
  split
  · rfl
  · rename_i r hr
    have hne : p ≠ r := by
      rintro rfl
      exact hp hr
    rw [next, update_of_ne hne, next]

theorem next_relink (hp : tree.prev h = some p) {pprev : CBlockIndex}
    (hpprev : tree p = some pprev) : (relink target tree h).next p = target h := by
  simp [relink, hp, next, hpprev]

theorem next_foldl_relink_of_ne (hp : ∀ h ∈ l, tree.prev h ≠ some p) :
    (l.foldl (relink target) tree).next p = tree.next p := by
  induction l generalizing tree with
  | nil => rfl
  | cons h l ih =>
    have hprev := SamePositions.prev_eq (map_relink (fun _ _ => rfl) target tree h)
    rw [foldl_cons, ih, next_relink_of_ne (hp h mem_cons_self)]
    intro q hq
    rw [hprev]
    exact hp q (mem_cons_of_mem h hq)

/-- Where all children of `p` in the list agree on the target, it is the new link. -/
theorem next_foldl_relink (target : UInt256 → Option UInt256) {pprev : CBlockIndex}
    (hpprev : tree p = some pprev) (hh : h ∈ l)
    (hp : tree.prev h = some p)
    (hagree : ∀ q ∈ l, tree.prev q = some p → target q = target h) :
    (l.foldl (relink target) tree).next p = target h := by
  induction l using reverseRecOn with
  | nil => cases hh
  | append_singleton l q ih =>
    have hsame := samePositions_foldl_relink target tree l
    rw [foldl_append, foldl_cons, foldl_nil]
    by_cases hq : tree.prev q = some p
    · obtain ⟨pprev', hpprev', -⟩ := hsame.exists_of_eq_some hpprev
      rw [next_relink ((hsame.prev_eq q).trans hq) hpprev',
        hagree q (mem_append_right l mem_cons_self) hq]
    · rw [next_relink_of_ne (by rwa [hsame.prev_eq])]
      refine ih ?_ fun r hr => hagree r (mem_append_left _ hr)
      rcases mem_append.mp hh with hh | hh
      · exact hh
      · rw [mem_singleton.mp hh] at hp
        exact absurd hp hq

theorem samePositions_updateLinks (tree : BlockTree) (vDisconnect vConnect : List UInt256) :
    SamePositions tree (updateLinks tree vDisconnect vConnect) :=
  (samePositions_foldl_relink _ tree vDisconnect).trans (samePositions_foldl_relink _ _ vConnect)

theorem isFailed_updateLinks (tree : BlockTree) (vDisconnect vConnect : List UInt256)
    (q : UInt256) : (updateLinks tree vDisconnect vConnect).isFailed q = tree.isFailed q :=
  (isFailed_congr (map_foldl_relink (fun _ _ => rfl) _ _ vConnect q)).trans
    (isFailed_congr (map_foldl_relink (fun _ _ => rfl) _ tree vDisconnect q))

theorem Ancestry.child_unique {pindex : Option UInt256} {q' : UInt256}
    (hl : tree.Ancestry pindex l) (hq : q ∈ l) (hq' : q' ∈ l) (hp : tree.prev q = some p)
    (hp' : tree.prev q' = some p) : q = q' := by
  obtain ⟨entry, hentry, hup⟩ := bind_eq_some_iff.mp hp
  obtain ⟨entry', hentry', hup'⟩ := bind_eq_some_iff.mp hp'
  exact hl.eq_of_up_eq hq hq' hentry hentry' (hup.trans hup'.symm)

theorem Ancestry.exists_prev {pindex : Option UInt256} (hl : tree.Ancestry pindex l) (hq : q ∈ l)
    (hp : tree.prev q = some p) : ∃ pprev, tree p = some pprev := by
  obtain ⟨entry, hentry, hup⟩ := bind_eq_some_iff.mp hp
  exact hl.exists_of_mem (hl.up_mem hq hentry hup)

section

variable {best : Option UInt256}

theorem MainChain.congr {tree' : BlockTree} (hmain : tree.MainChain best)
    (hsame : SamePositions tree tree') (hnext : ∀ h, tree'.next h = tree.next h) :
    tree'.MainChain best := by
  obtain ⟨l, hl, hlinks⟩ := hmain
  refine ⟨l, hl.congr hsame, fun p q => ?_⟩
  rw [hnext, hsame.prev_eq]
  exact hlinks p q

theorem MainChain.updateLinks {pindexNew : UInt256}
    {d c t : List UInt256} (hmain : tree.MainChain best) (hbest : tree.Ancestry best (d ++ t))
    (hnew : tree.Ancestry (some pindexNew) (c ++ t)) :
    (updateLinks tree d c.reverse).MainChain (some pindexNew) := by
  obtain ⟨l, hl, hlinks⟩ := hmain
  rw [hl.unique hbest] at hlinks
  have hdisconnect := samePositions_foldl_relink (fun _ => none) tree d
  have hall := samePositions_updateLinks tree d c.reverse
  refine ⟨c ++ t, hnew.congr hall, fun p q => ?_⟩
  rw [hall.prev_eq, BlockTree.updateLinks]
  by_cases hc : ∃ h ∈ c, tree.prev h = some p
  · -- a block of the new branch has been put on top of `p`
    obtain ⟨h, hh, hp⟩ := hc
    have hmem := mem_append_left t hh
    obtain ⟨pprev, hpprev⟩ := hnew.exists_prev hmem hp
    obtain ⟨pprev', hpprev', -⟩ := hdisconnect.exists_of_eq_some hpprev
    rw [next_foldl_relink some hpprev' (mem_reverse.mpr hh) ((hdisconnect.prev_eq h).trans hp)]
    · constructor
      · intro heq
        rw [some.injEq] at heq
        exact heq ▸ ⟨hmem, hp⟩
      · rintro ⟨hq, hpq⟩
        rw [hnew.child_unique hmem hq hp hpq]
    · intro r hr hpr
      rw [hdisconnect.prev_eq] at hpr
      rw [hnew.child_unique hmem (mem_append_left t (mem_reverse.mp hr)) hp hpr]
  · have hnone : ∀ h ∈ c.reverse, (d.foldl (relink fun _ => none) tree).prev h ≠ some p := by
      intro h hh hp
      rw [hdisconnect.prev_eq] at hp
      exact hc ⟨h, mem_reverse.mp hh, hp⟩
    have hin : ∀ q, tree.prev q = some p → q ∈ c ++ t → q ∈ t := by
      intro q hp hq
      rcases mem_append.mp hq with hq | hq
      · exact absurd ⟨q, hq, hp⟩ hc
      · exact hq
    rw [next_foldl_relink_of_ne hnone]
    by_cases hd : ∃ h ∈ d, tree.prev h = some p
    · -- the child of `p` has been taken off and none has taken its place
      obtain ⟨h, hh, hp⟩ := hd
      obtain ⟨pprev, hpprev⟩ := hbest.exists_prev (mem_append_left t hh) hp
      rw [next_foldl_relink (fun _ => none) hpprev hh hp fun _ _ _ => rfl]
      constructor
      · intro heq
        cases heq
      · rintro ⟨hq, hpq⟩
        have ht := hin q hpq hq
        rw [hbest.child_unique (mem_append_left t hh) (mem_append_right d ht) hp hpq] at hh
        exact absurd ht (disjoint_of_nodup_append hbest.nodup hh)
    · rw [next_foldl_relink_of_ne fun h hh hp => hd ⟨h, hh, hp⟩, hlinks]
      constructor
      · rintro ⟨hq, hpq⟩
        rcases mem_append.mp hq with hq | hq
        · exact absurd ⟨q, hq, hpq⟩ hd
        · exact ⟨mem_append_right c hq, hpq⟩
      · rintro ⟨hq, hpq⟩
        exact ⟨mem_append_right d (hin q hpq hq), hpq⟩

theorem MainChain.followed (hmain : tree.MainChain best) : tree.Followed best := by
  obtain ⟨l, hl, hlinks⟩ := hmain
  refine ⟨l, hl, ?_, ?_⟩
  · rw [isChain_reverse]
    refine isChain_iff_forall_rel_of_append_cons_cons.mpr fun q p s t hsplit => ?_
    have hq : q ∈ l := by
      rw [hsplit]
      exact mem_append_right s mem_cons_self
    obtain ⟨entry, hentry⟩ := hl.exists_of_mem hq
    have hup := Ascends.up_eq (hsplit ▸ hl) hentry
    exact (hlinks p q).mpr ⟨hq, by rw [prev, hentry, bind_some, hup, head?_cons]⟩
  · rintro b rfl
    cases hnext : tree.next b with
    | none => rfl
    | some q =>
      obtain ⟨hq, hp⟩ := (hlinks b q).mp hnext
      obtain ⟨entry, hentry, hup⟩ := bind_eq_some_iff.mp hp
      exact absurd hup (hl.up_ne hq hentry)

end

end Links

end BlockTree

end Primecoin
