import Primecoin.Chain.Atomic

/-!
# The choice of the best block

`connectBestBlock` takes the block with the most work from `setBlockIndexValid` and looks at its
ancestors. If one has failed, the blocks above it are marked and leave the set, and the search
starts again; otherwise `SetBestChain` is called for the blocks above the best block, one after
the other.

Every round ends the search or makes the set smaller, so a number of rounds above its size is
enough. `connectBestBlock_elects` says what the search leaves behind, whatever happens in the
calls of `SetBestChain`.
-/

namespace Primecoin

open List Stateful Backdated

/-- `CBlockIndexWorkComparator`: less work comes first, and with the same work the greater hash.
-/
def BlockTree.workLess (tree : BlockTree) (pa pb : UInt256) : Bool :=
  if tree.work pb < tree.work pa then false
  else if tree.work pa < tree.work pb then true
  else if pa < pb then false
  else if pb < pa then true
  else false

open BlockTree

/-- `*setBlockIndexValid.rbegin()`, if the set is not empty. -/
def BlockTree.lastValid (tree : BlockTree) : List UInt256 → Option UInt256
  | [] => none
  | h :: l =>
    match tree.lastValid l with
    | none => some h
    | some b => if tree.workLess b h then some h else some b

/-- What the look at the ancestors finds: a failed block, or the blocks to attach, the lowest
first. -/
inductive Candidate
  | failed (pindexTest : UInt256)
  | attach (vAttach : List UInt256)
  deriving DecidableEq, Repr

/-- `pindexBest == NULL || pindexTest->nChainWork > pindexBest->nChainWork` -/
def BlockTree.exceeds (tree : BlockTree) (pindexBest : Option UInt256) (h : UInt256) : Bool :=
  pindexBest.all fun best => decide (tree.work best < tree.work h)

/-- The loop over the ancestors. The list grows at the front, as after `reverse`. -/
def BlockTree.checkAncestry (tree : BlockTree) (pindexBest : Option UInt256) :
    ℕ → UInt256 → List UInt256 → Except Failure Candidate
  | 0, _, _ => .error (.fault "ConnectBestBlock")
  | n + 1, pindexTest, vAttach =>
    match tree pindexTest with
    | none => .error (.fault "pindexTest->nStatus")
    | some pindex =>
      if pindex.isFailed then .ok (.failed pindexTest)
      else
        let vAttach :=
          if tree.exceeds pindexBest pindexTest then pindexTest :: vAttach else vAttach
        match pindex.pprev, pindex.pnext with
        | some pprev, none => checkAncestry tree pindexBest n pprev vAttach
        | _, _ => .ok (.attach vAttach)

def Failure.toSystemError : Failure → Failure
  | .exception message => .abort ("System error: " ++ message)
  | failure => failure

namespace Node

variable {W : Type}

def markDescendants (pindexTest : UInt256) : ℕ → UInt256 → Stateful (Node W) Failure Unit
  | 0, _ => lift (.error (.fault "ConnectBestBlock"))
  | n + 1, pindexFailed =>
    if pindexTest = pindexFailed then pure ()
    else do
      modify (markFailed blockFailedChild pindexFailed)
      modify (eraseValid pindexFailed)
      let node ← get
      match node.mapBlockIndex.prev pindexFailed with
      | none => lift (.error (.fault "pindexFailed->nStatus"))
      | some pprev => markDescendants pindexTest n pprev

def rejectBranch (pindexTest pindexNewBest : UInt256) : Stateful (Node W) Failure Unit := do
  let node ← get
  markDescendants pindexTest (node.mapBlockIndex.depth pindexNewBest + 1) pindexNewBest
  invalidChainFound pindexNewBest

def attachAll (context : ChainContext W) (io : UInt256 → ChainIo)
    (reorganise : Stateful (Node W) Failure Unit) (state : CValidationState) :
    List UInt256 → Stateful (Node W) Failure Unit
  | [] => pure ()
  | pindexSwitch :: vAttach => do
      (setBestChain context (io pindexSwitch) reorganise state pindexSwitch).mapError
        Failure.toSystemError
      attachAll context io reorganise state vAttach

def nothingToDo (node : Node W) (pindexNewBest : UInt256) : Bool :=
  node.pindexBest = some pindexNewBest || node.pindexBest.any fun best =>
      decide (node.mapBlockIndex.work pindexNewBest = node.mapBlockIndex.work best)

/-- With a bound on the rounds, `none` if they do not suffice. -/
def connectBestBlock (context : ChainContext W) (io : UInt256 → ChainIo) :
    ℕ → CValidationState → Node W → Option (Except Failure Unit × Node W)
  | 0, _, _ => none
  | n + 1, state, node =>
    match node.mapBlockIndex.lastValid node.setBlockIndexValid with
    | none => some (.ok (), node)
    | some pindexNewBest =>
      if node.nothingToDo pindexNewBest then some (.ok (), node)
      else
        match node.mapBlockIndex.checkAncestry node.pindexBest
          (node.mapBlockIndex.depth pindexNewBest + 1) pindexNewBest [] with
        | .error failure => some (.error failure, node)
        | .ok (.attach vAttach) =>
          let reorganise : Stateful (Node W) Failure Unit := fun node =>
            (connectBestBlock context io n .init node).getD
              (.error (.fault "ConnectBestBlock"), node)
          some ((attachAll context io reorganise state vAttach).run node)
        | .ok (.failed pindexTest) =>
          match (rejectBranch pindexTest pindexNewBest).run node with
          | (.error failure, node) => some (.error failure, node)
          | (.ok (), node) => connectBestBlock context io n state node

end Node

/-! ## The parts of a round -/

namespace BlockTree

variable {tree : BlockTree} {l : List UInt256} {b h : UInt256}

theorem work_le_of_workLess (hless : tree.workLess b h = true) : tree.work b ≤ tree.work h := by
  rw [workLess] at hless
  split_ifs at hless with h1 h2 h3 h4
  · exact BitVec.le_of_lt h2
  · exact BitVec.not_lt.mp h1

theorem work_le_of_not_workLess (hless : ¬ tree.workLess b h = true) :
    tree.work h ≤ tree.work b := by
  rw [workLess] at hless
  split_ifs at hless with h1 h2 h3 h4
  · exact BitVec.le_of_lt h1
  · exact absurd rfl hless
  · exact BitVec.not_lt.mp h2
  · exact absurd rfl hless
  · exact BitVec.not_lt.mp h2

theorem lastValid_eq_none (hlast : tree.lastValid l = none) : l = [] := by
  cases l with
  | nil => rfl
  | cons h l =>
    rw [lastValid] at hlast
    split at hlast
    · cases hlast
    · split_ifs at hlast

theorem lastValid_eq_some (hlast : tree.lastValid l = some b) :
    b ∈ l ∧ ∀ q ∈ l, tree.work q ≤ tree.work b := by
  induction l generalizing b with
  | nil => cases hlast
  | cons h l ih =>
    rw [lastValid] at hlast
    cases hrest : tree.lastValid l with
    | none =>
      simp only [hrest, Option.some.injEq] at hlast
      subst hlast
      rw [lastValid_eq_none hrest]
      refine ⟨mem_cons_self, fun q hq => ?_⟩
      rw [mem_singleton.mp hq]
      exact BitVec.le_refl _
    | some c =>
      obtain ⟨hmem, hmax⟩ := ih hrest
      simp only [hrest] at hlast
      split_ifs at hlast with hless
      · cases hlast
        refine ⟨mem_cons_self, fun q hq => ?_⟩
        rcases mem_cons.mp hq with rfl | hq
        · exact BitVec.le_refl _
        · exact BitVec.le_trans (hmax q hq) (work_le_of_workLess hless)
      · cases hlast
        refine ⟨mem_cons_of_mem h hmem, fun q hq => ?_⟩
        rcases mem_cons.mp hq with rfl | hq
        · exact work_le_of_not_workLess hless
        · exact hmax q hq

theorem isFailed_eq {pindex : CBlockIndex} (hentry : tree h = some pindex) :
    tree.isFailed h = pindex.isFailed := by
  rw [isFailed, hentry, Option.any_some]

theorem checkAncestry_ok (pindexBest : Option UInt256) {n : ℕ} (vAttach : List UInt256)
    (hl : tree.Ancestry (some h) l) (hn : l.length ≤ n) :
    (∃ s failed t, l = s ++ failed :: t ∧ tree.isFailed failed = true ∧
        (∀ q ∈ s, tree.isFailed q = false) ∧
        tree.checkAncestry pindexBest n h vAttach = .ok (.failed failed)) ∨
      ∃ s stop t, l = s ++ stop :: t ∧ (∀ q ∈ s ++ [stop], tree.isFailed q = false) ∧
        (t = [] ∨ tree.next stop ≠ none) ∧
        tree.checkAncestry pindexBest n h vAttach =
          .ok (.attach (((s ++ [stop]).filter (tree.exceeds pindexBest)).reverse ++ vAttach)) := by
  induction n generalizing h l vAttach with
  | zero =>
    rw [length_eq_zero_iff.mp (Nat.le_zero.mp hn)] at hl
    cases hl
  | succ n ih =>
    cases hl with
    | @step _ pindex l hentry hl =>
      rw [length_cons] at hn
      simp only [checkAncestry, hentry]
      cases hfailed : pindex.isFailed with
      | true =>
        refine Or.inl ⟨[], h, l, rfl, (isFailed_eq hentry).trans hfailed, by simp, ?_⟩
        rw [if_pos rfl]
      | false =>
        have hsound : tree.isFailed h = false := (isFailed_eq hentry).trans hfailed
        have hattach : ∀ acc, (([h].filter (tree.exceeds pindexBest)).reverse ++ acc) =
            if tree.exceeds pindexBest h then h :: acc else acc := by
          intro acc
          cases hexceeds : tree.exceeds pindexBest h with
          | true => simp [hexceeds]
          | false => simp [hexceeds]
        rw [if_neg Bool.false_ne_true]
        cases hup : pindex.pprev with
        | none =>
          rw [hup] at hl
          cases hl
          refine Or.inr ⟨[], h, [], rfl, by simpa using hsound, Or.inl rfl, ?_⟩
          rw [nil_append, hattach]
        | some p =>
          cases hdown : pindex.pnext with
          | some q =>
            refine Or.inr ⟨[], h, l, rfl, by simpa using hsound, Or.inr ?_, ?_⟩
            · rw [next, hentry, Option.bind_some, hdown]
              exact Option.some_ne_none q
            · rw [nil_append, hattach]
          | none =>
            rw [hup] at hl
            rcases ih (if tree.exceeds pindexBest h then h :: vAttach else vAttach) hl
              (Nat.le_of_succ_le_succ hn) with
              ⟨s, failed, t, rfl, hfail, hs, hrun⟩ | ⟨s, stop, t, rfl, hs, hstop, hrun⟩
            · refine Or.inl ⟨h :: s, failed, t, rfl, hfail, ?_, hrun⟩
              exact forall_mem_cons.mpr ⟨hsound, hs⟩
            · refine Or.inr ⟨h :: s, stop, t, rfl, ?_, hstop, ?_⟩
              · exact forall_mem_cons.mpr ⟨hsound, hs⟩
              · refine hrun.trans ?_
                rw [← hattach, ← append_assoc, ← reverse_append, ← filter_append]
                rfl

end BlockTree

namespace Node

variable {W : Type} {context : ChainContext W} {node : Node W} {h : UInt256}

theorem run_markDescendants {failed : UInt256} {s t : List UInt256} {n : ℕ}
    (hl : node.mapBlockIndex.Ancestry (some h) (s ++ failed :: t)) (hn : s.length < n) :
    ∃ node', (markDescendants failed n h).run node = (.ok (), node') ∧ Unmoved node node' ∧
      (∀ q, q ∉ s → node'.mapBlockIndex.isFailed q = node.mapBlockIndex.isFailed q) ∧
      node'.setBlockIndexValid = node.setBlockIndexValid.filter (· ∉ s) ∧
      (node.NoneFailed → node'.NoneFailed) := by
  induction s generalizing node h n with
  | nil =>
    obtain ⟨n, rfl⟩ := Nat.exists_eq_succ_of_ne_zero (Nat.ne_of_gt hn)
    have hhead := hl.head?_eq
    rw [nil_append, head?_cons, Option.some.injEq] at hhead
    refine ⟨node, ?_, .refl node, fun _ _ => rfl, by simp, id⟩
    rw [markDescendants, if_pos hhead, run_pure]
  | cons k s ih =>
    obtain ⟨n, rfl⟩ := Nat.exists_eq_succ_of_ne_zero (Nat.ne_of_gt (Nat.zero_lt_of_lt hn))
    have hnodup := hl.nodup
    have hmoved := (unmoved_markFailed blockFailedChild k node).trans (unmoved_eraseValid k _)
    cases hl with
    | @step _ pindex _ hentry hrest =>
      have hne : failed ≠ k := by
        rintro rfl
        exact (nodup_cons.mp hnodup).1 (mem_append_right s mem_cons_self)
      obtain ⟨p, hp⟩ : ∃ p, pindex.pprev = some p := by
        rw [← hrest.head?_eq]
        cases s with
        | nil => exact ⟨failed, rfl⟩
        | cons q s => exact ⟨q, rfl⟩
      have hprev : ((node.markFailed blockFailedChild k).eraseValid k).mapBlockIndex.prev k =
          some p := by
        rw [hmoved.positions.prev_eq, BlockTree.prev, hentry, Option.bind_some, hp]
      rw [hp] at hrest
      obtain ⟨node', hrun, hunmoved, hfailed, hvalid, hnone⟩ :=
        ih (Ancestry.congr hmoved.positions hrest) (Nat.lt_of_succ_lt_succ hn)
      refine ⟨node', ?_, hmoved.trans hunmoved, fun q hq => ?_, ?_,
        fun hnode => hnone (hnode.mark blockFailedChild k)⟩
      · rw [markDescendants, if_neg hne, run_modify_bind, run_modify_bind, run_get_bind, hprev]
        exact hrun
      · rw [mem_cons, not_or] at hq
        rw [hfailed q hq.2]
        simp only [isFailed, eraseValid, markFailed, Function.update_of_ne hq.1]
      · rw [hvalid]
        simp only [eraseValid, markFailed, filter_filter]
        refine filter_congr fun q _ => ?_
        simp [Bool.and_comm]

/-! ## The calls of `SetBestChain` -/

/-- What a successful call leaves as it was, besides a consistent node. -/
structure Advanced (node node' : Node W) : Prop where
  consistent : node'.Consistent
  positions : node.mapBlockIndex.SamePositions node'.mapBlockIndex
  isFailed : ∀ q, node'.mapBlockIndex.isFailed q = node.mapBlockIndex.isFailed q
  valid : node'.setBlockIndexValid = node.setBlockIndexValid

section

variable (context : ChainContext W)

theorem keeps_commit (io : ChainIo) {vDisconnect vConnect : List UInt256}
    {γ : Type} {f : Node W → γ} (hlinks : ∀ node : Node W, f { node with
      mapBlockIndex := node.mapBlockIndex.updateLinks vDisconnect vConnect } = f node)
    (hf : ∀ node view mempool wallets best, f { node with
      pcoinsTip := view, mempool := mempool, wallets := wallets, pindexBest := best } = f node)
    (vResurrect vDelete : List CTransaction) (pindexNew : UInt256) (view : CCoinsView) :
    Keeps f (commit context io vDisconnect vConnect vResurrect pindexNew view vDelete) := by
  refine (keeps_modify fun node => hf node view _ _ _).bind fun _ => ?_
  refine (keeps_flushCoins context io fun node => hf node _ _ _ _).bind fun _ => ?_
  refine (keeps_modify hlinks).bind fun _ => ?_
  refine (Keeps.forM (keeps_resurrect context fun node mempool wallets =>
    hf node _ mempool wallets _)).bind fun _ => ?_
  refine (Keeps.forM (keeps_deleteRedundant context fun node mempool =>
    hf node _ mempool _ _)).bind fun _ => ?_
  exact keeps_modify fun node => hf node _ _ _ _

/-- A call never leaves a failed block in the set, and if it succeeds it marks nothing. -/
theorem setBestChain_marks (io : ChainIo) (state : CValidationState)
    {pindexNew : UInt256} {pindex : CBlockIndex} (hnode : node.Consistent)
    (hnone : node.NoneFailed) (hnew : node.mapBlockIndex pindexNew = some pindex) :
    ∃ outcome, (∀ reorganise,
        (setBestChain context io reorganise state pindexNew).run node = outcome) ∧
      outcome.2.NoneFailed ∧
      (outcome.1 = .ok () → Advanced node outcome.2 ∧ outcome.2.pindexBest = some pindexNew) := by
  rcases setBestChain_cases context io state hnode hnew with ⟨failure, hrun⟩ |
    ⟨done, h, rest, view, s, failure, tree, node', -, -, -, hrun, -, -, hkept⟩ |
    ⟨d, c, t, view, vResurrect, s, vDelete, -, hbest, hlnew, -, hdisconnect, hconnects, hrun⟩
  · refine ⟨_, hrun, hnone, fun hok => ?_⟩
    cases hok
  · refine ⟨_, hrun, hkept hnone, fun hok => ?_⟩
    cases hok
  · have hkeeps := keeps_commit context io
      (f := fun node : Node W => (node.setBlockIndexValid, node.mapBlockIndex.isFailed))
      (fun node => congrArg (Prod.mk node.setBlockIndexValid)
        (funext (isFailed_updateLinks node.mapBlockIndex d c.reverse)))
      (fun _ _ _ _ _ => rfl) vResurrect vDelete pindexNew s.view (node.during s)
    rw [Prod.mk.injEq] at hkeeps
    refine ⟨_, hrun, ?_, fun hok => ?_⟩
    · intro q hq
      rw [hkeeps.1] at hq
      rw [hkeeps.2]
      exact (hconnects.marked.isFailed q).trans (hnone q hq)
    · have hcommit := Prod.ext (y := (Except.ok (), _)) hok rfl
      obtain ⟨hconsistent, hpindex⟩ :=
        commit_agrees hnode hbest hlnew hdisconnect hconnects hcommit
      refine ⟨⟨hconsistent, ?_, fun q => ?_, hkeeps.1⟩, hpindex⟩
      · rw [(commit_ok hcommit).1]
        exact hconnects.marked.positions.trans (samePositions_updateLinks _ _ _)
      · rw [hkeeps.2]
        exact hconnects.marked.isFailed q

theorem Advanced.refl (hnode : node.Consistent) : Advanced node node :=
  ⟨hnode, .refl _, fun _ => rfl, rfl⟩

theorem Advanced.trans {node' node'' : Node W} (h : Advanced node node')
    (h' : Advanced node' node'') : Advanced node node'' where
  consistent := h'.consistent
  positions := h.positions.trans h'.positions
  isFailed q := (h'.isFailed q).trans (h.isFailed q)
  valid := h'.valid.trans h.valid

/-- If all calls succeed, the last block is the best block. -/
theorem attachAll_marks (io : UInt256 → ChainIo)
    (state : CValidationState) (vAttach : List UInt256) (hnode : node.Consistent)
    (hnone : node.NoneFailed)
    (hknown : ∀ q ∈ vAttach, ∃ pindex, node.mapBlockIndex q = some pindex) :
    ∃ outcome, (∀ reorganise, (attachAll context io reorganise state vAttach).run node = outcome) ∧
      outcome.2.NoneFailed ∧ (outcome.1 = .ok () → Advanced node outcome.2 ∧
        outcome.2.pindexBest = vAttach.getLast?.or node.pindexBest) := by
  induction vAttach generalizing node with
  | nil => exact ⟨_, fun _ => rfl, hnone, fun _ => ⟨.refl hnode, rfl⟩⟩
  | cons q vAttach ih =>
    obtain ⟨pindex, hq⟩ := hknown q mem_cons_self
    obtain ⟨⟨result, node'⟩, hrun, hnone', hadvanced⟩ :=
      setBestChain_marks context (io q) state hnode hnone hq
    have hstep : ∀ reorganise, ((setBestChain context (io q) reorganise state q).mapError
        Failure.toSystemError).run node = (result.mapError Failure.toSystemError, node') := by
      intro reorganise
      rw [run_mapError, hrun]
    cases result with
    | error failure =>
      refine ⟨_, fun reorganise => run_bind_of_error (hstep reorganise), hnone', fun hok => ?_⟩
      cases hok
    | ok =>
      obtain ⟨hfirst, hbest⟩ := hadvanced rfl
      obtain ⟨outcome, hrest, hnone'', hlast⟩ := ih hfirst.consistent hnone' fun r hr => by
        obtain ⟨pindex', hr'⟩ := hknown r (mem_cons_of_mem q hr)
        obtain ⟨pindex'', hr'', -⟩ := hfirst.positions.exists_of_eq_some hr'
        exact ⟨pindex'', hr''⟩
      refine ⟨outcome, fun reorganise => ?_, hnone'', fun hok => ?_⟩
      · exact (run_bind_of_ok (hstep reorganise)).trans (hrest reorganise)
      · obtain ⟨hsecond, hpindex⟩ := hlast hok
        refine ⟨hfirst.trans hsecond, hpindex.trans ?_⟩
        rw [hbest]
        cases vAttach with
        | nil => rfl
        | cons r vAttach => simp [getLast?_cons]

end

/-! ## The whole search -/

/-- What the search starts from: a consistent node whose set holds blocks of the index that have
not failed, and whose best block has no failed ancestor. -/
structure Orderly (node : Node W) : Prop extends Consistent node where
  known : ∀ q ∈ node.setBlockIndexValid, ∃ pindex, node.mapBlockIndex q = some pindex
  noneFailed : node.NoneFailed
  bestSound : ∀ l, node.mapBlockIndex.Ancestry node.pindexBest l →
    ∀ q ∈ l, node.mapBlockIndex.isFailed q = false

/-- After a success the best block has the most work of the set and no failed ancestor. -/
structure Elected (outcome : Except Failure Unit × Node W) : Prop where
  noneFailed : outcome.2.NoneFailed
  maximal : outcome.1 = .ok () → ∀ q ∈ outcome.2.setBlockIndexValid,
    ∃ best, outcome.2.pindexBest = some best ∧
      outcome.2.mapBlockIndex.work q ≤ outcome.2.mapBlockIndex.work best
  bestSound : outcome.1 = .ok () → ∀ l, outcome.2.mapBlockIndex.Ancestry outcome.2.pindexBest l →
      ∀ q ∈ l, outcome.2.mapBlockIndex.isFailed q = false

section Search

variable {b : UInt256}

theorem Orderly.elected (hnode : node.Orderly)
    (hmax : ∀ q ∈ node.setBlockIndexValid, ∃ best, node.pindexBest = some best ∧
      node.mapBlockIndex.work q ≤ node.mapBlockIndex.work best) :
    Elected ((.ok (), node) : Except Failure Unit × Node W) :=
  ⟨hnode.noneFailed, fun _ => hmax, fun _ => hnode.bestSound⟩

theorem elected_of_error {failure : Failure} (hnode : node.NoneFailed) :
    Elected ((.error failure, node) : Except Failure Unit × Node W) :=
  ⟨hnode, nofun, nofun⟩

theorem Orderly.elected_of_nothingToDo (hnode : node.Orderly)
    (hlast : node.mapBlockIndex.lastValid node.setBlockIndexValid = some b)
    (hnothing : node.nothingToDo b = true) :
    Elected ((.ok (), node) : Except Failure Unit × Node W) := by
  obtain ⟨-, hmax⟩ := lastValid_eq_some hlast
  refine hnode.elected fun q hq => ?_
  rw [nothingToDo, Bool.or_eq_true, decide_eq_true_eq, Option.any_eq_true] at hnothing
  rcases hnothing with hbest | ⟨best, hbest, hwork⟩
  · exact ⟨b, hbest, hmax q hq⟩
  · refine ⟨best, hbest, ?_⟩
    rw [← of_decide_eq_true hwork]
    exact hmax q hq

variable {s t : List UInt256}

theorem Orderly.reject (hnode : node.Orderly) {failed : UInt256}
    {n : ℕ} (hb : b ∈ node.setBlockIndexValid)
    (hl : node.mapBlockIndex.Ancestry (some b) (s ++ failed :: t))
    (hfailed : node.mapBlockIndex.isFailed failed = true) (hn : s.length < n) :
    ∃ node', (do markDescendants failed n b; invalidChainFound b :
        Stateful (Node W) Failure Unit).run node =
          (if node.pindexBest = none then .error (.fault "pindexBest->GetBlockTime()")
            else .ok (), node') ∧
      node'.Orderly ∧ node'.setBlockIndexValid.length < node.setBlockIndexValid.length := by
  obtain ⟨marked, hrun, hmoved, hsame, hvalid, hnone⟩ := run_markDescendants hl hn
  obtain ⟨pindex, hentry⟩ := hnode.known b hb
  obtain ⟨pindex', hentry', -⟩ := hmoved.positions.exists_of_eq_some hentry
  have hraised := unmoved_raiseInvalidWork pindex'.nChainWork marked
  have hall := hmoved.trans hraised.1
  have hset : (marked.raiseInvalidWork pindex'.nChainWork).setBlockIndexValid =
      marked.setBlockIndexValid := by
    rw [raiseInvalidWork]
    split_ifs <;> rfl
  have htree : (marked.raiseInvalidWork pindex'.nChainWork).mapBlockIndex =
      marked.mapBlockIndex := by
    rw [raiseInvalidWork]
    split_ifs <;> rfl
  have hbs : b ∈ s := by
    cases s with
    | nil =>
      have hhead := hl.head?_eq
      rw [nil_append, head?_cons, Option.some.injEq] at hhead
      rw [hhead, hnode.noneFailed b hb] at hfailed
      cases hfailed
    | cons k s =>
      have hhead := hl.head?_eq
      rw [cons_append, head?_cons, Option.some.injEq] at hhead
      rw [hhead]
      exact mem_cons_self
  refine ⟨marked.raiseInvalidWork pindex'.nChainWork, ?_, ⟨hall.consistent hnode.toConsistent,
    ?_, (hnone hnode.noneFailed).raiseInvalidWork _, ?_⟩, ?_⟩
  · rw [run_bind_of_ok hrun, run_invalidChainFound hentry', hmoved.pindexBest]
  · intro q hq
    rw [hset, hvalid] at hq
    obtain ⟨entry, hq'⟩ := hnode.known q (mem_filter.mp hq).1
    obtain ⟨entry', hq'', -⟩ := hall.positions.exists_of_eq_some hq'
    exact ⟨entry', hq''⟩
  · intro l hlbest q hq
    rw [hall.pindexBest] at hlbest
    have hlbest' := hlbest.congr hall.positions.symm
    rw [htree, hsame q, hnode.bestSound l hlbest' q hq]
    -- a marked ancestor of the best block would have the failed block above it
    intro hqs
    obtain ⟨u, v, rfl⟩ := append_of_mem hqs
    rw [append_assoc, cons_append] at hl
    obtain ⟨l', hsuffix, hl'⟩ := hlbest'.of_mem hq
    have hmem : failed ∈ l' := by
      rw [hl'.unique hl.of_append]
      exact mem_cons_of_mem q (mem_append_right v mem_cons_self)
    rw [hnode.bestSound l hlbest' failed (hsuffix.subset hmem)] at hfailed
    cases hfailed
  · rw [hset, hvalid]
    refine length_filter_lt_length_iff_exists.mpr ⟨b, hb, ?_⟩
    simpa using hbs

theorem exists_best_of_filter {tree : BlockTree} {stop : UInt256}
    (hhead : (s ++ stop :: t).head? = some b) (pindexBest : Option UInt256) :
    ∃ best, ((s ++ [stop]).filter (tree.exceeds pindexBest)).head?.or pindexBest = some best ∧
      tree.work b ≤ tree.work best := by
  obtain ⟨rest, hrest⟩ : ∃ rest, s ++ [stop] = b :: rest := by
    cases s with
    | nil => exact ⟨[], by simpa using hhead⟩
    | cons k s => exact ⟨s ++ [stop], by simpa using hhead⟩
  cases hexceeds : tree.exceeds pindexBest b with
  | true => exact ⟨b, by rw [hrest, filter_cons_of_pos hexceeds]; rfl, BitVec.le_refl _⟩
  | false =>
    cases pindexBest with
    | none => cases hexceeds
    | some c =>
      have hle : tree.work b ≤ tree.work c := by
        simpa [exceeds, BitVec.not_lt] using hexceeds
      cases hfilter : ((s ++ [stop]).filter (tree.exceeds (some c))).head? with
      | none => exact ⟨c, rfl, hle⟩
      | some best =>
        have hbest := (mem_filter.mp (mem_of_head? hfilter)).2
        have hlt : tree.work c < tree.work best := by
          simpa [exceeds] using hbest
        exact ⟨best, rfl, BitVec.le_trans hle (BitVec.le_of_lt hlt)⟩

theorem Orderly.attach (context : ChainContext W) (io : UInt256 → ChainIo)
    (state : CValidationState) (hnode : node.Orderly) {stop : UInt256}
    (hlast : node.mapBlockIndex.lastValid node.setBlockIndexValid = some b)
    (hl : node.mapBlockIndex.Ancestry (some b) (s ++ stop :: t))
    (hsound : ∀ q ∈ s ++ [stop], node.mapBlockIndex.isFailed q = false)
    (hstop : t = [] ∨ node.mapBlockIndex.next stop ≠ none) :
    ∃ outcome, (∀ reorganise, (attachAll context io reorganise state
        ((s ++ [stop]).filter (node.mapBlockIndex.exceeds node.pindexBest)).reverse).run node =
          outcome) ∧ Elected outcome := by
  have hsplit : s ++ stop :: t = (s ++ [stop]) ++ t := by simp
  have hallSound : ∀ q ∈ s ++ stop :: t, node.mapBlockIndex.isFailed q = false := by
    intro q hq
    rw [hsplit, mem_append] at hq
    rcases hq with hq | hq
    · exact hsound q hq
    · rcases hstop with rfl | hnext
      · cases hq
      · -- below the stop the ancestors are those of the best block
        obtain ⟨lbest, hlbest, hlinks⟩ := hnode.main
        obtain ⟨r, hr⟩ := Option.ne_none_iff_exists'.mp hnext
        obtain ⟨hrmem, hprev⟩ := (hlinks stop r).mp hr
        obtain ⟨entry, hentry, hup⟩ := Option.bind_eq_some_iff.mp hprev
        obtain ⟨l', hsuffix, hl'⟩ := hlbest.of_mem (hlbest.up_mem hrmem hentry hup)
        have hmem : q ∈ l' := by
          rw [hl'.unique hl.of_append]
          exact mem_cons_of_mem stop hq
        exact hnode.bestSound lbest hlbest q (hsuffix.subset hmem)
  obtain ⟨-, hmax⟩ := lastValid_eq_some hlast
  obtain ⟨outcome, hrun, hnone, hok⟩ := attachAll_marks context io state
    ((s ++ [stop]).filter (node.mapBlockIndex.exceeds node.pindexBest)).reverse
    hnode.toConsistent hnode.noneFailed (fun q hq => by
      rw [mem_reverse, mem_filter] at hq
      exact hl.exists_of_mem (hsplit ▸ mem_append_left t hq.1))
  refine ⟨outcome, hrun, hnone, fun hresult q hq => ?_, fun hresult l hlbest q hq => ?_⟩
  · obtain ⟨hadvanced, hbest⟩ := hok hresult
    rw [hadvanced.valid] at hq
    simp only [hadvanced.positions.work_eq]
    obtain ⟨best, hhead, hwork⟩ := exists_best_of_filter (hl.head?_eq) node.pindexBest
    rw [getLast?_reverse, hhead] at hbest
    exact ⟨best, hbest, BitVec.le_trans (hmax q hq) hwork⟩
  · obtain ⟨hadvanced, hbest⟩ := hok hresult
    rw [hadvanced.isFailed]
    have hlbest' := hlbest.congr hadvanced.positions.symm
    rw [hbest, getLast?_reverse] at hlbest'
    cases hhead : ((s ++ [stop]).filter (node.mapBlockIndex.exceeds node.pindexBest)).head? with
    | none =>
      rw [hhead, Option.none_or] at hlbest'
      exact hnode.bestSound l hlbest' q hq
    | some best =>
      rw [hhead, Option.some_or] at hlbest'
      have hmem := (mem_filter.mp (mem_of_head? hhead)).1
      obtain ⟨l', hsuffix, hl'⟩ := hl.of_mem (hsplit ▸ mem_append_left t hmem)
      rw [hlbest'.unique hl'] at hq
      exact hallSound q (hsuffix.subset hq)

theorem connectBestBlock_elects (context : ChainContext W) (io : UInt256 → ChainIo)
    (state : CValidationState) (hnode : node.Orderly) :
    ∃ outcome, (∀ n, node.setBlockIndexValid.length < n →
        connectBestBlock context io n state node = some outcome) ∧ Elected outcome := by
  induction hk : node.setBlockIndexValid.length using Nat.strong_induction_on generalizing node with
  | _ k ih =>
    have hround : ∀ {n}, k < n → ∃ m, n = m + 1 ∧ k ≤ m := by
      intro n hn
      obtain ⟨m, rfl⟩ := Nat.exists_eq_succ_of_ne_zero (Nat.ne_of_gt (Nat.zero_lt_of_lt hn))
      exact ⟨m, rfl, Nat.le_of_lt_succ hn⟩
    cases hlast : node.mapBlockIndex.lastValid node.setBlockIndexValid with
    | none =>
      refine ⟨(.ok (), node), fun n hn => ?_, hnode.elected ?_⟩
      · obtain ⟨m, rfl, -⟩ := hround hn
        simp only [connectBestBlock, hlast]
      · rw [lastValid_eq_none hlast]
        exact fun q hq => absurd hq List.not_mem_nil
    | some b =>
      obtain ⟨hb, -⟩ := lastValid_eq_some hlast
      cases hnothing : node.nothingToDo b with
      | true =>
        refine ⟨(.ok (), node), fun n hn => ?_, hnode.elected_of_nothingToDo hlast hnothing⟩
        obtain ⟨m, rfl, -⟩ := hround hn
        simp only [connectBestBlock, hlast, hnothing, if_true]
      | false =>
        obtain ⟨pindex, hentry⟩ := hnode.known b hb
        obtain ⟨l, hl⟩ := hnode.rooted.ranked.exists_ascends hentry
        have hlength : l.length = node.mapBlockIndex.depth b + 1 := by
          rw [hl.length_eq hnode.rooted.ranked hentry, depth, hentry]
          rfl
        rcases checkAncestry_ok node.pindexBest [] hl hlength.le with
          ⟨s, failed, t, rfl, hfailed, -, hcheck⟩ | ⟨s, stop, t, rfl, hsound, hstop, hcheck⟩
        · have hn : s.length < node.mapBlockIndex.depth b + 1 := by
            rw [← hlength, List.length_append, List.length_cons]
            omega
          obtain ⟨node', hreject, hnode', hless⟩ := hnode.reject hb hl hfailed hn
          by_cases hbest : node.pindexBest = none
          · rw [if_pos hbest] at hreject
            refine ⟨(.error (.fault "pindexBest->GetBlockTime()"), node'), fun n hn => ?_,
              elected_of_error hnode'.noneFailed⟩
            obtain ⟨m, rfl, -⟩ := hround hn
            simp only [connectBestBlock, hlast, hnothing, Bool.false_eq_true, if_false,
              hcheck, rejectBranch, run_get_bind, hreject]
          · rw [if_neg hbest] at hreject
            obtain ⟨outcome, hrest, helected⟩ := ih _ (hk ▸ hless) hnode' rfl
            refine ⟨outcome, fun n hn => ?_, helected⟩
            obtain ⟨m, rfl, hm⟩ := hround hn
            simp only [connectBestBlock, hlast, hnothing, Bool.false_eq_true, if_false,
              hcheck, rejectBranch, run_get_bind, hreject]
            exact hrest m (by omega)
        · obtain ⟨outcome, hrun, helected⟩ := Orderly.attach context io state hnode hlast hl hsound
            hstop
          refine ⟨outcome, fun n hn => ?_, helected⟩
          obtain ⟨m, rfl, -⟩ := hround hn
          simp only [connectBestBlock, hlast, hnothing, Bool.false_eq_true, if_false,
            hcheck, List.append_nil]
          exact congrArg some (hrun _)

end Search

end Node

namespace Backdated

def fullIo : ChainIo :=
  { chainIo true with
    readBlock := fun h =>
      if h = hash1 then some block1 else if h = hash2 then some block2 else none }

theorem valid_node : (node.setBlockIndexValid.all fun h =>
    (tree2 h).isSome && !tree2.isFailed h) = true := by
  decide

theorem orderly_node : node.Orderly where
  toConsistent := consistent_node
  known q hq := by
    have hvalid := all_eq_true.mp valid_node q hq
    rw [Bool.and_eq_true] at hvalid
    exact Option.isSome_iff_exists.mp hvalid.1
  noneFailed q hq := by
    have hvalid := all_eq_true.mp valid_node q hq
    rw [Bool.and_eq_true, Bool.not_eq_true'] at hvalid
    exact hvalid.2
  bestSound := by
    intro l hl q hq
    have hgenesis : node.mapBlockIndex.Ancestry node.pindexBest [hashGenesisBlock .testNet] :=
      .step (a := newBlockIndex sha256d .testNet (fun _ => none) (genesisBlock .testNet) ⟨0, 8⟩)
        (by decide) .root
    rw [hl.unique hgenesis, mem_singleton] at hq
    rw [hq]
    decide

end Backdated

/-- From the genesis block the search goes to the second block. -/
theorem Node.connectBestBlock_elects_backdated :
    ∃ outcome, Node.connectBestBlock chainContext (fun _ => fullIo) 4 .init
        node = some outcome ∧ Node.Elected outcome ∧ outcome.1 = .ok () ∧
      outcome.2.pindexBest = some hash2 := by
  obtain ⟨outcome, hrun, helected⟩ := Node.connectBestBlock_elects chainContext
    (fun _ => fullIo) .init orderly_node
  have hsome := hrun 4 (by decide)
  have hresult : (Node.connectBestBlock chainContext (fun _ => fullIo) 4 .init
      node).map (fun outcome => (outcome.1, outcome.2.pindexBest)) = some (.ok (), some hash2) := by
    decide +kernel
  rw [hsome, Option.map_some, Option.some.injEq, Prod.mk.injEq] at hresult
  exact ⟨outcome, hsome, helected, hresult⟩

end Primecoin
