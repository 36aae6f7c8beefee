import Primecoin.Chain.ProcessBlock
import Primecoin.Control.Along

/-!
# The orphan blocks and the index

The two maps of orphan blocks are to hold the same blocks, and no orphan is to be kept once its
parent is in the index: `Settled`.

While orphans are resolved, those that wait for a block in the work queue are still stored. An
orphan whose parent is in the index and not in the queue is stranded: nothing will come back to
it. This happens when `AcceptBlock` fails after it has made the entry of a block, and when an
exception ends the loop.
-/

namespace Primecoin

open Runs List Stateful Function OrphanBlocks Option

namespace OrphanBlocks

variable {hash : Bytes → UInt256} {orphans : OrphanBlocks}

/-- The two maps hold the same blocks, each once and under its parent. -/
structure Agree (hash : Bytes → UInt256) (orphans : OrphanBlocks) : Prop where
  filed : ∀ h block, orphans.stored h = some block →
    h = block.getHash hash ∧ block ∈ orphans.mapOrphanBlocksByPrev block.hashPrevBlock
  stored : ∀ prev block, block ∈ orphans.mapOrphanBlocksByPrev prev →
    block.hashPrevBlock = prev ∧ orphans.stored (block.getHash hash) = some block
  nodup : ∀ prev, (orphans.mapOrphanBlocksByPrev prev).Nodup

theorem agree_empty (hash : Bytes → UInt256) : empty.Agree hash where
  filed h block hstored := by cases hstored
  stored prev block hmem := by cases hmem
  nodup prev := nodup_nil

variable {block : CBlock}

theorem stored_erase {h q : UInt256} :
    (orphans.erase h).stored q = some block ↔ q ≠ h ∧ orphans.stored q = some block := by
  rw [stored, erase]
  by_cases hq : q = h
  · rw [hq, AList.lookup_erase]
    simp
  · rw [AList.lookup_erase_ne hq]
    simp [hq, stored]

theorem Agree.insertBlock (hagree : orphans.Agree hash)
    (hnew : orphans.stored (block.getHash hash) = none) :
    (orphans.insertBlock (block.getHash hash) block).Agree hash := by
  have hstored : ∀ q, (orphans.insertBlock (block.getHash hash) block).stored q =
      if q = block.getHash hash then some block else orphans.stored q := by
    intro q
    simp only [OrphanBlocks.stored, OrphanBlocks.insertBlock]
    split_ifs with hq
    · rw [hq, AList.lookup_insert]
    · rw [AList.lookup_insert_ne hq]
  have hbyPrev : ∀ prev other,
      other ∈ (orphans.insertBlock (block.getHash hash) block).mapOrphanBlocksByPrev prev ↔
        other ∈ orphans.mapOrphanBlocksByPrev prev ∨ prev = block.hashPrevBlock ∧ other = block := by
    intro prev other
    simp only [OrphanBlocks.insertBlock]
    by_cases hprev : prev = block.hashPrevBlock
    · rw [hprev, update_self, mem_append, mem_singleton]
      simp
    · rw [update_of_ne hprev]
      simp [hprev]
  have hfresh : ∀ prev, block ∉ orphans.mapOrphanBlocksByPrev prev := by
    intro prev hmem
    have hold := (hagree.stored prev block hmem).2
    rw [hnew] at hold
    cases hold
  constructor
  · intro h other hother
    rw [hbyPrev]
    rw [hstored] at hother
    split_ifs at hother with hh
    · cases hother
      exact ⟨hh, .inr ⟨rfl, rfl⟩⟩
    · exact ⟨(hagree.filed h other hother).1, .inl (hagree.filed h other hother).2⟩
  · intro prev other hother
    rw [hstored]
    rcases (hbyPrev prev other).mp hother with hold | ⟨rfl, rfl⟩
    · have hne : other.getHash hash ≠ block.getHash hash := by
        intro heq
        have hcontra := (hagree.stored prev other hold).2
        rw [heq, hnew] at hcontra
        cases hcontra
      rw [if_neg hne]
      exact hagree.stored prev other hold
    · exact ⟨rfl, if_pos rfl⟩
  · intro prev
    simp only [OrphanBlocks.insertBlock]
    by_cases hprev : prev = block.hashPrevBlock
    · rw [hprev, update_self]
      refine (hagree.nodup _).append (nodup_singleton block) ?_
      rw [disjoint_singleton]
      exact hfresh _
    · rw [update_of_ne hprev]
      exact hagree.nodup prev

/-- In the inner loop the maps agree up to the orphans that have been visited. -/
theorem Agree.visit (hagree : orphans.Agree hash) {hashPrev : UInt256} {orphan : CBlock}
    {waiting : List CBlock}
    (hwaiting : orphans.mapOrphanBlocksByPrev hashPrev = orphan :: waiting) :
    ((orphans.erase (orphan.getHash hash)).setWaiting hashPrev waiting).Agree hash := by
  have horphan := hagree.stored hashPrev orphan (hwaiting ▸ mem_cons_self)
  have hnodup := hagree.nodup hashPrev
  rw [hwaiting, nodup_cons] at hnodup
  have hbyPrev : ∀ prev block, block ∈ update orphans.mapOrphanBlocksByPrev hashPrev waiting prev ↔
      block ∈ orphans.mapOrphanBlocksByPrev prev ∧ block ≠ orphan := by
    intro prev block
    by_cases hprev : prev = hashPrev
    · rw [hprev, update_self, hwaiting, mem_cons]
      constructor
      · exact fun hmem => ⟨.inr hmem, fun heq => hnodup.1 (heq ▸ hmem)⟩
      · rintro ⟨rfl | hmem, hne⟩
        · exact absurd rfl hne
        · exact hmem
    · rw [update_of_ne hprev]
      refine ⟨fun hmem => ⟨hmem, ?_⟩, And.left⟩
      rintro rfl
      exact hprev ((hagree.stored prev block hmem).1.symm.trans horphan.1)
  constructor
  · intro h block hblock
    obtain ⟨hne, hblock⟩ := stored_erase.mp hblock
    obtain ⟨hh, hmem⟩ := hagree.filed h block hblock
    refine ⟨hh, (hbyPrev _ _).mpr ⟨hmem, ?_⟩⟩
    rintro rfl
    exact hne hh
  · intro prev block hblock
    obtain ⟨hmem, hne⟩ := (hbyPrev prev block).mp hblock
    obtain ⟨hprev, hh⟩ := hagree.stored prev block hmem
    refine ⟨hprev, stored_erase.mpr ⟨fun heq => hne ?_, hh⟩⟩
    rw [heq, horphan.2, some.injEq] at hh
    exact hh.symm
  · intro prev
    change (update orphans.mapOrphanBlocksByPrev hashPrev waiting prev).Nodup
    by_cases hprev : prev = hashPrev
    · rw [hprev, update_self]
      exact hnodup.2
    · rw [update_of_ne hprev]
      exact hagree.nodup prev

theorem size_erase_lt {h : UInt256} (hstored : orphans.stored h = some block) :
    (orphans.erase h).size + 1 = orphans.size := by
  have hmem : h ∈ orphans.mapOrphanBlocks.keys :=
    AList.mem_keys.mp (AList.lookup_isSome.mp (isSome_iff_exists.mpr ⟨block, hstored⟩))
  have hpos := length_pos_of_mem hmem
  simp only [size, erase, AList.keys_erase]
  rw [length_erase_of_mem hmem]
  omega

end OrphanBlocks

namespace Chainstate

variable {W : Type}

structure Settled (hash : Bytes → UInt256) (s : Chainstate W) : Prop where
  agree : s.orphans.Agree hash
  parentless : ∀ h block, s.orphans.stored h = some block →
    s.node.mapBlockIndex block.hashPrevBlock = none

/-- The parent of an orphan is in the index, and the loop will not come to it. -/
def Stranded (pending : List UInt256) (s : Chainstate W) : Prop :=
  ∃ h block, s.orphans.stored h = some block ∧ s.node.known block.hashPrevBlock = true ∧
    block.hashPrevBlock ∉ pending

theorem settled_iff {hash : Bytes → UInt256} {s : Chainstate W} :
    s.Settled hash ↔ s.orphans.Agree hash ∧ ¬s.Stranded [] := by
  constructor
  · rintro ⟨hagree, hparentless⟩
    refine ⟨hagree, ?_⟩
    rintro ⟨h, block, hstored, hknown, -⟩
    rw [Node.known, hparentless h block hstored] at hknown
    cases hknown
  · rintro ⟨hagree, hstranded⟩
    refine ⟨hagree, fun h block hstored => ?_⟩
    by_contra hknown
    refine hstranded ⟨h, block, hstored, ?_, not_mem_nil⟩
    exact isSome_iff_ne_none.mpr hknown

variable (context : ChainContext W) (rounds : ℕ)

/-- `AcceptBlock` puts the block into the index and fails, while an orphan waits for
it. -/
def Strands (io : AcceptIo) (state : CValidationState) (dbp : Option FilePos) (block : CBlock)
    (s : Chainstate W) : Prop :=
  s.node.known (block.getHash context.connect.hash) = false ∧
    ((acceptBlock context rounds io state dbp block).run s).2.node.known
      (block.getHash context.connect.hash) = true ∧
    ((acceptBlock context rounds io state dbp block).run s).1 ≠ .ok () ∧
    ∃ h orphan, s.orphans.stored h = some orphan ∧
      orphan.hashPrevBlock = block.getHash context.connect.hash

def Throws (io : AcceptIo) (state : CValidationState) (dbp : Option FilePos) (block : CBlock)
    (s : Chainstate W) : Prop :=
  ∃ message, ((acceptBlock context rounds io state dbp block).run s).1 = .error (.exception message)

section Loop

variable (io : UInt256 → AcceptIo)

/-- The call for an orphan neither throws nor strands another one. -/
def Spares (s : Chainstate W) (orphan : CBlock) : Prop :=
  ¬Throws context rounds (io (orphan.getHash context.connect.hash)) .init none orphan s ∧
    ¬Strands context rounds (io (orphan.getHash context.connect.hash)) .init none orphan s

def Takes (s : Chainstate W) (orphan : CBlock) (s' : Chainstate W) : Prop :=
  ∃ accepted, (tryOrphan context rounds io orphan).run s = (.ok accepted, s')

def SparesAll : ℕ → List UInt256 → Chainstate W → Prop
  | _, [], _ => True
  | 0, _ :: _, _ => True
  | n + 1, hashPrev :: vWorkQueue, s =>
    Along (Takes context rounds io) (Spares context rounds io) s
        (s.orphans.mapOrphanBlocksByPrev hashPrev) ∧
      ∀ queue s', (resolveWaiting context rounds io (s.orphans.mapOrphanBlocksByPrev hashPrev)
          vWorkQueue).run s = (.ok queue, s') →
        SparesAll n queue { s' with orphans := s'.orphans.setWaiting hashPrev [] }

end Loop

/-- What a part of the resolution does to the orphans whose parents are in the index. The loop is
still to come to the `pending` blocks; `harmless` says that nothing is stranded on the way. -/
structure Resolved (harmless : Prop) (pending pending' : List UInt256) (s s' : Chainstate W) :
    Prop where
  known : (∀ q ∈ pending, s.node.known q = true) → ∀ q ∈ pending', s'.node.known q = true
  clear : harmless → ¬s.Stranded pending → ¬s'.Stranded pending'
  strands : ¬harmless → s'.Stranded pending'
  stays : s.Stranded pending → s'.Stranded pending'
  size : s'.orphans.size + pending'.length ≤ s.orphans.size + pending.length

theorem Resolved.trans {harmless harmless' : Prop} {pending pending' pending'' : List UInt256}
    {s s' s'' : Chainstate W} (h : Resolved harmless pending pending' s s')
    (h' : Resolved harmless' pending' pending'' s' s'') :
    Resolved (harmless ∧ harmless') pending pending'' s s'' where
  known := h'.known ∘ h.known
  clear hharmless := h'.clear hharmless.2 ∘ h.clear hharmless.1
  strands hharm := by
    by_cases hfirst : harmless
    · exact h'.strands fun hsecond => hharm ⟨hfirst, hsecond⟩
    · exact h'.stays (h.strands hfirst)
  stays := h'.stays ∘ h.stays
  size := h'.size.trans h.size

section Resolution

variable {context : ChainContext W} {rounds : ℕ} {io : UInt256 → AcceptIo} {s s' : Chainstate W}
  {orphan : CBlock} {hashPrev : UInt256} {vWorkQueue : List UInt256} {accepted : Bool}
  {waiting : List CBlock}

theorem run_tryOrphan (context : ChainContext W) (rounds : ℕ) (io : UInt256 → AcceptIo)
    (orphan : CBlock) (s : Chainstate W) :
    (tryOrphan context rounds io orphan).run s =
      match (acceptBlock context rounds (io (orphan.getHash context.connect.hash)) .init none
        orphan).run s with
      | (.ok (), s) => (.ok true, s.eraseOrphan (orphan.getHash context.connect.hash))
      | (.error failure, s) =>
        if failure.isReturn then
          (.ok false, s.eraseOrphan (orphan.getHash context.connect.hash))
        else (.error failure, s) := rfl

theorem tryOrphan_ok (hrun : (tryOrphan context rounds io orphan).run s = (.ok accepted, s')) :
    ∃ result s₁, (acceptBlock context rounds (io (orphan.getHash context.connect.hash)) .init none
        orphan).run s = (result, s₁) ∧ (∀ message, result ≠ .error (.exception message)) ∧
      (accepted = true ↔ result = .ok ()) ∧
      s' = s₁.eraseOrphan (orphan.getHash context.connect.hash) := by
  rw [run_tryOrphan] at hrun
  rcases haccept : (acceptBlock context rounds (io (orphan.getHash context.connect.hash)) .init
    none orphan).run s with ⟨failure | _, s₁⟩
  · rw [haccept] at hrun
    simp only at hrun
    split_ifs at hrun with hreturn
    · cases hrun
      refine ⟨_, _, rfl, fun message heq => ?_, by simp, rfl⟩
      rw [Except.error.inj heq] at hreturn
      cases hreturn
    · cases hrun
  · rw [haccept] at hrun
    cases hrun
    exact ⟨_, _, rfl, fun message heq => (by cases heq), by simp, rfl⟩

theorem tryOrphan_error {failure : Failure}
    (hrun : (tryOrphan context rounds io orphan).run s = (.error failure, s')) :
    (acceptBlock context rounds (io (orphan.getHash context.connect.hash)) .init none orphan).run s =
      (.error failure, s') ∧ failure.isReturn = false := by
  rw [run_tryOrphan] at hrun
  rcases haccept : (acceptBlock context rounds (io (orphan.getHash context.connect.hash)) .init
    none orphan).run s with ⟨failure' | _, s₁⟩
  · rw [haccept] at hrun
    simp only at hrun
    split_ifs at hrun with hreturn
    · cases hrun
    · cases hrun
      exact ⟨rfl, Bool.eq_false_iff.mpr hreturn⟩
  · rw [haccept] at hrun
    cases hrun

theorem stored_of_agree {hash : Bytes → UInt256}
    (hagree : (s.orphans.setWaiting hashPrev (orphan :: waiting)).Agree hash) :
    orphan.hashPrevBlock = hashPrev ∧ s.orphans.stored (orphan.getHash hash) = some orphan :=
  hagree.stored hashPrev orphan (by
    rw [setWaiting]
    simp only [update_self]
    exact mem_cons_self)

theorem mem_pushAccepted {q : UInt256} : q ∈ pushAccepted context orphan accepted vWorkQueue ↔
      q ∈ vWorkQueue ∨ accepted = true ∧ q = orphan.getHash context.connect.hash := by
  rw [pushAccepted]
  split_ifs with haccepted
  · simp [haccepted]
  · simp [haccepted]

theorem tryOrphan_resolved
    (hagree : (s.orphans.setWaiting hashPrev (orphan :: waiting)).Agree context.connect.hash)
    (hpending : ∀ q ∈ hashPrev :: vWorkQueue, s.node.known q = true)
    (hrun : (tryOrphan context rounds io orphan).run s = (.ok accepted, s')) :
    (s'.orphans.setWaiting hashPrev waiting).Agree context.connect.hash ∧
      Resolved (Spares context rounds io s orphan) (hashPrev :: vWorkQueue)
        (hashPrev :: pushAccepted context orphan accepted vWorkQueue) s s' := by
  obtain ⟨result, s₁, haccept, hthrows, haccepted, rfl⟩ := tryOrphan_ok hrun
  obtain ⟨hprev, hstored⟩ := stored_of_agree hagree
  have hadds := acceptBlock_adds context rounds (io (orphan.getHash context.connect.hash)) .init none
    orphan s
  rw [haccept] at hadds
  obtain ⟨hverdict, horphans : s₁.orphans = s.orphans⟩ := hadds
  have hkept : ∀ q block, s.orphans.stored q = some block → block.hashPrevBlock ≠ hashPrev →
      (s₁.eraseOrphan (orphan.getHash context.connect.hash)).orphans.stored q = some block := by
    intro q block hblock hne
    rw [eraseOrphan, horphans]
    refine stored_erase.mpr ⟨?_, hblock⟩
    rintro rfl
    rw [hstored, some.injEq] at hblock
    exact hne (hblock ▸ hprev)
  refine ⟨?_, ?_, ?_, ?_, ?_, ?_⟩
  · have hvisit := hagree.visit (update_self hashPrev _ _)
    rw [setWaiting, erase] at hvisit
    simp only [setWaiting, update_idem] at hvisit
    rw [eraseOrphan, horphans]
    exact hvisit
  · intro _ q hq
    rw [mem_cons, mem_pushAccepted] at hq
    rcases hq with rfl | hq | ⟨hok, rfl⟩
    · exact hverdict.known_mono (hpending q mem_cons_self)
    · exact hverdict.known_mono (hpending q (mem_cons_of_mem hashPrev hq))
    · rw [haccepted.mp hok] at hverdict
      exact hverdict.of_ok.2
  · rintro hspares hclear ⟨q, block, hblock, hknown, hnot⟩
    rw [eraseOrphan, horphans] at hblock
    replace hblock := (stored_erase.mp hblock).2
    rw [mem_cons, mem_pushAccepted, not_or, not_or] at hnot
    obtain ⟨hne, hqueue, hpushed⟩ := hnot
    cases hold : s.node.known block.hashPrevBlock with
    | true => exact hclear ⟨q, block, hblock, hold, not_mem_cons_of_ne_of_not_mem hne hqueue⟩
    | false =>
      -- the parent is new, so it is the orphan that has just been visited
      have heq := hverdict.eq_of_known hknown hold
      rw [heq] at hold hknown
      refine hspares.2 ⟨hold, ?_, ?_, q, block, hblock, heq⟩
      · rw [haccept]
        exact hknown
      · rw [haccept]
        exact fun hok => hpushed ⟨haccepted.mpr hok, heq⟩
  · intro hharm
    have hstrands : Strands context rounds (io (orphan.getHash context.connect.hash)) .init none
        orphan s := by
      by_contra hno
      refine hharm ⟨?_, hno⟩
      rintro ⟨message, hthrow⟩
      rw [haccept] at hthrow
      exact hthrows message hthrow
    obtain ⟨hnew, hknown, herror, q, block, hblock, hparent⟩ := hstrands
    rw [haccept] at hknown herror
    have hunseen : orphan.getHash context.connect.hash ∉ hashPrev :: vWorkQueue := by
      intro hmem
      rw [hpending _ hmem] at hnew
      cases hnew
    rw [mem_cons, not_or] at hunseen
    refine ⟨q, block, hkept q block hblock ?_, ?_, ?_⟩
    · rw [hparent]
      exact hunseen.1
    · rw [hparent]
      exact hknown
    · rw [hparent, mem_cons, mem_pushAccepted]
      rintro (hmem | hmem | ⟨hok, -⟩)
      · exact hunseen.1 hmem
      · exact hunseen.2 hmem
      · exact herror (haccepted.mp hok)
  · rintro ⟨q, block, hblock, hknown, hnot⟩
    rw [mem_cons, not_or] at hnot
    refine ⟨q, block, hkept q block hblock hnot.1, hverdict.known_mono hknown, ?_⟩
    rw [mem_cons, mem_pushAccepted]
    rintro (hmem | hmem | ⟨hok, heq⟩)
    · exact hnot.1 hmem
    · exact hnot.2 hmem
    · rw [haccepted.mp hok] at hverdict
      have hnew := hverdict.of_ok.1
      rw [← heq, hknown] at hnew
      cases hnew
  · have hsize := size_erase_lt hstored
    have hlength : (pushAccepted context orphan accepted vWorkQueue).length ≤
        vWorkQueue.length + 1 := by
      rw [pushAccepted]
      split_ifs
      · rw [length_append, length_singleton]
      · exact Nat.le_succ _
    rw [eraseOrphan]
    simp only [length_cons, horphans]
    omega

theorem resolveWaiting_resolved {queue : List UInt256}
    (hagree : (s.orphans.setWaiting hashPrev waiting).Agree context.connect.hash)
    (hpending : ∀ q ∈ hashPrev :: vWorkQueue, s.node.known q = true)
    (hrun : (resolveWaiting context rounds io waiting vWorkQueue).run s = (.ok queue, s')) :
    (s'.orphans.setWaiting hashPrev []).Agree context.connect.hash ∧
      Resolved (Along (Takes context rounds io) (Spares context rounds io) s waiting)
        (hashPrev :: vWorkQueue) (hashPrev :: queue) s s' := by
  induction waiting generalizing s vWorkQueue with
  | nil =>
    cases hrun
    exact ⟨hagree, id, fun _ => id, fun hharm => absurd trivial hharm, id, le_rfl⟩
  | cons orphan waiting ih =>
    rw [resolveWaiting] at hrun
    obtain ⟨accepted, s₁, htry, hrest⟩ := run_bind_eq_ok_iff.mp hrun
    obtain ⟨hagree₁, hfirst⟩ := tryOrphan_resolved hagree hpending htry
    obtain ⟨hagree', hlater⟩ := ih hagree₁ (hfirst.known hpending) hrest
    have hnext : ∀ u, Takes context rounds io s orphan u ↔ u = s₁ := by
      intro u
      rw [Takes, htry]
      simp [eq_comm]
    rw [along_cons_of_unique hnext]
    exact ⟨hagree', hfirst.trans hlater⟩

theorem resolveWaiting_error {failure : Failure}
    (hagree : (s.orphans.setWaiting hashPrev waiting).Agree context.connect.hash)
    (hpending : ∀ q ∈ hashPrev :: vWorkQueue, s.node.known q = true)
    (hrun : (resolveWaiting context rounds io waiting vWorkQueue).run s = (.error failure, s'))
    (hcrash : failure.isCrash = false) :
    s'.Stranded [] ∧ ¬Along (Takes context rounds io) (Spares context rounds io) s waiting := by
  induction waiting generalizing s vWorkQueue with
  | nil => cases hrun
  | cons orphan waiting ih =>
    rw [resolveWaiting] at hrun
    rcases run_bind_eq_error_iff.mp hrun with htry | ⟨accepted, s₁, htry, hrest⟩
    · obtain ⟨haccept, hreturn⟩ := tryOrphan_error htry
      obtain ⟨message, rfl⟩ : ∃ message, failure = .exception message := by
        cases failure <;> simp_all [Failure.isReturn, Failure.isCrash]
      obtain ⟨hprev, hstored⟩ := stored_of_agree hagree
      rw [acceptBlock_exception context rounds haccept]
      refine ⟨⟨_, orphan, hstored, ?_, not_mem_nil⟩, fun halong => halong.1.1 ⟨message, ?_⟩⟩
      · rw [hprev]
        exact hpending hashPrev mem_cons_self
      · rw [haccept]
    · obtain ⟨hagree₁, hfirst⟩ := tryOrphan_resolved hagree hpending htry
      obtain ⟨hstranded, hlater⟩ := ih hagree₁ (hfirst.known hpending) hrest
      exact ⟨hstranded, fun halong => hlater (halong.2 s₁ ⟨accepted, htry⟩)⟩

theorem setWaiting_self (orphans : OrphanBlocks) (hashPrev : UInt256) :
    orphans.setWaiting hashPrev (orphans.mapOrphanBlocksByPrev hashPrev) = orphans := by
  rw [setWaiting, update_eq_self]

theorem stranded_setWaiting {hash : Bytes → UInt256}
    (hagree : (s.orphans.setWaiting hashPrev []).Agree hash) (queue : List UInt256) :
    Stranded queue { s with orphans := s.orphans.setWaiting hashPrev [] } ↔
      Stranded (hashPrev :: queue) s := by
  refine exists_congr fun h => exists_congr fun block => ?_
  refine and_congr_right fun hstored => and_congr_right fun _ => ?_
  have hne : block.hashPrevBlock ≠ hashPrev := by
    intro heq
    have hmem := (hagree.filed h block hstored).2
    rw [heq, setWaiting] at hmem
    simp only [update_self] at hmem
    cases hmem
  rw [mem_cons, not_or]
  exact ⟨fun hnot => ⟨hne, hnot⟩, And.right⟩

theorem round_resolved {queue : List UInt256} (hagree : s.orphans.Agree context.connect.hash)
    (hpending : ∀ q ∈ hashPrev :: vWorkQueue, s.node.known q = true)
    (hrun : (resolveWaiting context rounds io (s.orphans.mapOrphanBlocksByPrev hashPrev)
      vWorkQueue).run s = (.ok queue, s')) :
    (s'.orphans.setWaiting hashPrev []).Agree context.connect.hash ∧
      Resolved (Along (Takes context rounds io) (Spares context rounds io) s
          (s.orphans.mapOrphanBlocksByPrev hashPrev)) (hashPrev :: vWorkQueue) queue s
        { s' with orphans := s'.orphans.setWaiting hashPrev [] } ∧
      (s'.orphans.setWaiting hashPrev []).size + queue.length <
        s.orphans.size + (hashPrev :: vWorkQueue).length := by
  rw [← setWaiting_self s.orphans hashPrev] at hagree
  obtain ⟨hagree', hresolved⟩ := resolveWaiting_resolved hagree hpending hrun
  have hsize : (s'.orphans.setWaiting hashPrev []).size + queue.length <
      s.orphans.size + (hashPrev :: vWorkQueue).length := by
    have hle := hresolved.size
    rw [length_cons] at hle
    exact hle
  have hstranded := stranded_setWaiting hagree' queue
  refine ⟨hagree', ⟨?_, ?_, ?_, ?_, hsize.le⟩, hsize⟩
  · exact fun h q hq => hresolved.known h q (mem_cons_of_mem hashPrev hq)
  · intro hharmless hclear
    rw [hstranded]
    exact hresolved.clear hharmless hclear
  · intro hharm
    exact hstranded.mpr (hresolved.strands hharm)
  · intro h
    exact hstranded.mpr (hresolved.stays h)

theorem resolveOrphans_settled {n : ℕ} {result : Except Failure Unit}
    (hagree : s.orphans.Agree context.connect.hash)
    (hpending : ∀ q ∈ vWorkQueue, s.node.known q = true)
    (hrun : (resolveOrphans context rounds io n vWorkQueue).run s = (result, s'))
    (hsurvives : ∀ failure, result = .error failure → failure.isCrash = false) :
    (SparesAll context rounds io n vWorkQueue s → ¬s.Stranded vWorkQueue →
        s'.Settled context.connect.hash) ∧
      (¬SparesAll context rounds io n vWorkQueue s ∨ s.Stranded vWorkQueue → s'.Stranded []) := by
  induction n generalizing s vWorkQueue with
  | zero =>
    cases vWorkQueue with
    | nil =>
      cases hrun
      refine ⟨fun _ hclear => settled_iff.mpr ⟨hagree, hclear⟩, ?_⟩
      rintro (hharm | hstranded)
      · exact absurd trivial hharm
      · exact hstranded
    | cons hashPrev vWorkQueue =>
      cases hrun
      cases hsurvives _ rfl
  | succ n ih =>
    cases vWorkQueue with
    | nil =>
      cases hrun
      refine ⟨fun _ hclear => settled_iff.mpr ⟨hagree, hclear⟩, ?_⟩
      rintro (hharm | hstranded)
      · exact absurd trivial hharm
      · exact hstranded
    | cons hashPrev vWorkQueue =>
      rw [resolveOrphans, run_get_bind] at hrun
      rcases hround : (resolveWaiting context rounds io
        (s.orphans.mapOrphanBlocksByPrev hashPrev) vWorkQueue).run s with ⟨failure | queue, s₁⟩
      · rw [run_bind_of_error hround] at hrun
        cases hrun
        rw [← setWaiting_self s.orphans hashPrev] at hagree
        obtain ⟨hstranded, hharm⟩ := resolveWaiting_error hagree hpending hround
          (hsurvives failure rfl)
        exact ⟨fun hspares => absurd hspares.1 hharm, fun _ => hstranded⟩
      · rw [run_bind_of_ok hround, run_modify_bind] at hrun
        obtain ⟨hagree₁, hresolved, -⟩ := round_resolved hagree hpending hround
        obtain ⟨hsettled, hstranded⟩ := ih hagree₁ (hresolved.known hpending) hrun
        have hspares : SparesAll context rounds io (n + 1) (hashPrev :: vWorkQueue) s ↔
            Along (Takes context rounds io) (Spares context rounds io) s
                (s.orphans.mapOrphanBlocksByPrev hashPrev) ∧
              SparesAll context rounds io n queue
                { s₁ with orphans := s₁.orphans.setWaiting hashPrev [] } := by
          rw [SparesAll, hround]
          refine and_congr_right fun _ => ⟨fun h => h queue s₁ rfl, ?_⟩
          rintro h queue' s' heq
          cases heq
          exact h
        rw [hspares]
        refine ⟨fun hall hclear => hsettled hall.2 (hresolved.clear hall.1 hclear), ?_⟩
        rintro (hharm | hold)
        · by_cases hfirst : Along (Takes context rounds io) (Spares context rounds io) s
            (s.orphans.mapOrphanBlocksByPrev hashPrev)
          · exact hstranded (.inl fun hlater => hharm ⟨hfirst, hlater⟩)
          · exact hstranded (.inr (hresolved.strands hfirst))
        · exact hstranded (.inr (hresolved.stays hold))

/-- The loop of the source, without a bound on the rounds: it ends with the queue, or in a round
in which a call of `AcceptBlock` throws. -/
inductive Resolves (context : ChainContext W) (rounds : ℕ) (io : UInt256 → AcceptIo) :
    List UInt256 → Chainstate W → Except Failure Unit × Chainstate W → Prop
  | done (s : Chainstate W) : Resolves context rounds io [] s (.ok (), s)
  | throws {hashPrev : UInt256} {vWorkQueue : List UInt256} {s s' : Chainstate W}
      {failure : Failure}
      (round : (resolveWaiting context rounds io (s.orphans.mapOrphanBlocksByPrev hashPrev)
        vWorkQueue).run s = (.error failure, s')) :
      Resolves context rounds io (hashPrev :: vWorkQueue) s (.error failure, s')
  | round {hashPrev : UInt256} {vWorkQueue queue : List UInt256} {s s' : Chainstate W}
      {final : Except Failure Unit × Chainstate W}
      (round : (resolveWaiting context rounds io (s.orphans.mapOrphanBlocksByPrev hashPrev)
        vWorkQueue).run s = (.ok queue, s'))
      (rest : Resolves context rounds io queue
        { s' with orphans := s'.orphans.setWaiting hashPrev [] } final) :
      Resolves context rounds io (hashPrev :: vWorkQueue) s final

/-- The loop ends, and a round for every orphan and every block in the queue is enough for it. -/
theorem resolveOrphans_rounds {n m : ℕ} (hagree : s.orphans.Agree context.connect.hash)
    (hpending : ∀ q ∈ vWorkQueue, s.node.known q = true)
    (hn : s.orphans.size + vWorkQueue.length ≤ n) (hm : n ≤ m) :
    Resolves context rounds io vWorkQueue s
        ((resolveOrphans context rounds io n vWorkQueue).run s) ∧
      (resolveOrphans context rounds io m vWorkQueue).run s =
        (resolveOrphans context rounds io n vWorkQueue).run s := by
  induction n generalizing s vWorkQueue m with
  | zero =>
    cases vWorkQueue with
    | nil => exact ⟨.done s, by cases m <;> rfl⟩
    | cons hashPrev vWorkQueue => simp at hn
  | succ n ih =>
    obtain ⟨m, rfl⟩ := Nat.exists_eq_succ_of_ne_zero (Nat.ne_of_gt (Nat.lt_of_lt_of_le
      (Nat.succ_pos n) hm))
    cases vWorkQueue with
    | nil => exact ⟨.done s, rfl⟩
    | cons hashPrev vWorkQueue =>
      rw [resolveOrphans, resolveOrphans, run_get_bind, run_get_bind]
      rcases hround : (resolveWaiting context rounds io
        (s.orphans.mapOrphanBlocksByPrev hashPrev) vWorkQueue).run s with ⟨failure | queue, s₁⟩
      · rw [run_bind_of_error hround, run_bind_of_error hround]
        exact ⟨.throws hround, rfl⟩
      · rw [run_bind_of_ok hround, run_bind_of_ok hround, run_modify_bind, run_modify_bind]
        obtain ⟨hagree₁, hresolved, hsize⟩ := round_resolved hagree hpending hround
        obtain ⟨hends, hsame⟩ := ih hagree₁ (hresolved.known hpending)
          (Nat.le_of_lt_succ (hsize.trans_le hn)) (Nat.le_of_succ_le_succ hm)
        exact ⟨.round hround hends, hsame⟩

end Resolution

/-! ## Calls of `ProcessBlock` -/

section Calls

variable (context : ChainContext W) (rounds : ℕ) (s : Chainstate W) (call : ProcessBlockCall)

def Survives : Prop :=
  ∀ failure, ((processBlock context rounds call).run s).1 = .error failure → failure.isCrash = false

def Steps (s' : Chainstate W) : Prop :=
  Survives context rounds s call ∧ ((processBlock context rounds call).run s).2 = s'

def Settles : Prop :=
  Survives context rounds s call →
    ((processBlock context rounds call).run s).2.Settled context.connect.hash

/-- Whenever `AcceptBlock` is called, no orphan waits for a block that is put into the index
although the call fails, and no call for an orphan throws. -/
def Harmless : Prop :=
  Survives context rounds s call → checkNew context rounds call s = .ok () →
    isOrphan call.block s = false → ¬Strands (callContext context call) rounds
          (call.io (call.block.getHash context.connect.hash)) call.state call.dbp call.block s ∧
        ∀ s', (acceptBlock (callContext context call) rounds
            (call.io (call.block.getHash context.connect.hash)) call.state call.dbp
            call.block).run s = (.ok (), s') →
          SparesAll (callContext context call) rounds call.io (s'.orphans.size + 1)
            [call.block.getHash context.connect.hash] s'

end Calls

section Calls

variable {context : ChainContext W} {rounds : ℕ} {s : Chainstate W} {call : ProcessBlockCall}
  {s' : Chainstate W} {failure : Failure}

theorem checkNew_ok (h : checkNew context rounds call s = .ok ()) :
    s.orphans.stored (call.block.getHash context.connect.hash) = none := by
  rw [checkNew, Except.ite_error_eq_ok_iff, Except.ite_error_eq_ok_iff] at h
  simpa using h.2.1

theorem Settled.insertBlock (hsettled : s.Settled context.connect.hash)
    (hnew : checkNew context rounds call s = .ok ()) (horphan : isOrphan call.block s = true) :
    Settled context.connect.hash { s with
      orphans := s.orphans.insertBlock (call.block.getHash context.connect.hash) call.block } := by
  refine ⟨hsettled.agree.insertBlock (checkNew_ok hnew), fun h block hstored => ?_⟩
  rw [isOrphan, Bool.and_eq_true, isNone_iff_eq_none] at horphan
  simp only [OrphanBlocks.stored, OrphanBlocks.insertBlock] at hstored
  by_cases hh : h = call.block.getHash context.connect.hash
  · rw [hh, AList.lookup_insert, some.injEq] at hstored
    rw [← hstored]
    exact horphan.2
  · rw [AList.lookup_insert_ne hh] at hstored
    exact hsettled.parentless h block hstored

section Accepted

variable {io : AcceptIo} {state : CValidationState} {dbp : Option FilePos} {block : CBlock}
  {result : Except Failure Unit} (hsettled : s.Settled context.connect.hash)
  (hrun : (acceptBlock context rounds io state dbp block).run s = (result, s'))
include hsettled hrun

theorem new_of_stranded {pending : List UInt256} (h : s'.Stranded pending) :
    block.getHash context.connect.hash ∉ pending ∧
      s.node.known (block.getHash context.connect.hash) = false ∧
      s'.node.known (block.getHash context.connect.hash) = true ∧
      ∃ h orphan, s.orphans.stored h = some orphan ∧
        orphan.hashPrevBlock = block.getHash context.connect.hash := by
  have hadds := acceptBlock_adds context rounds io state dbp block s
  rw [hrun] at hadds
  obtain ⟨hverdict, horphans : s'.orphans = s.orphans⟩ := hadds
  obtain ⟨h, orphan, hstored, hknown, hnot⟩ := h
  rw [horphans] at hstored
  have hold : s.node.known orphan.hashPrevBlock = false := by
    rw [Node.known, hsettled.parentless h orphan hstored, isSome_none]
  have heq := hverdict.eq_of_known hknown hold
  rw [heq] at hold hknown hnot
  exact ⟨hnot, hold, hknown, h, orphan, hstored, heq⟩

theorem settled_of_error (herror : result ≠ .ok ()) :
    s'.Settled context.connect.hash ↔ ¬Strands context rounds io state dbp block s := by
  have horphans := (acceptBlock_adds context rounds io state dbp block s).2
  rw [hrun] at horphans
  rw [settled_iff, and_iff_right (horphans ▸ hsettled.agree), not_iff_not, Strands, hrun]
  constructor
  · intro hstranded
    obtain ⟨-, hnew, hknown, hwaits⟩ := new_of_stranded hsettled hrun hstranded
    exact ⟨hnew, hknown, herror, hwaits⟩
  · rintro ⟨-, hknown, -, h, orphan, hstored, heq⟩
    refine ⟨h, orphan, ?_, ?_, not_mem_nil⟩
    · exact horphans ▸ hstored
    · rw [heq]
      exact hknown

theorem pending_of_ok (hok : result = .ok ()) : s'.orphans.Agree context.connect.hash ∧
      s'.node.known (block.getHash context.connect.hash) = true ∧
      ¬s'.Stranded [block.getHash context.connect.hash] := by
  have hadds := acceptBlock_adds context rounds io state dbp block s
  rw [hrun, hok] at hadds
  obtain ⟨hverdict, horphans : s'.orphans = s.orphans⟩ := hadds
  refine ⟨horphans ▸ hsettled.agree, hverdict.of_ok.2, fun hstranded => ?_⟩
  exact (new_of_stranded hsettled hrun hstranded).1 (mem_singleton_self _)

end Accepted

/-! The ways through `ProcessBlock`. -/

theorem settles_iff (hsettled : s.Settled context.connect.hash) :
    Settles context rounds s call ↔ Harmless context rounds s call := by
  refine imp_congr_right fun hsurvives => ?_
  rw [Survives] at hsurvives
  cases hcheck : checkNew context rounds call s with
  | error failure =>
    rw [processBlock, run_get_bind, run_lift_bind_of_error hcheck]
    exact iff_of_true hsettled fun hok => by cases hok
  | ok _ =>
    cases horphan : isOrphan call.block s with
    | true =>
      rw [processBlock, run_get_bind, run_lift_bind_of_ok hcheck, if_pos horphan]
      refine iff_of_true ?_ fun _ hfalse => by cases hfalse
      split_ifs
      · exact hsettled.insertBlock hcheck horphan
      · exact hsettled
    | false =>
      have hsettled' : s.Settled (callContext context call).connect.hash := hsettled
      simp only [forall_const]
      rw [processBlock, run_get_bind, run_lift_bind_of_ok hcheck,
        if_neg (Bool.eq_false_iff.mp horphan)] at hsurvives ⊢
      rcases haccept : (acceptBlock (callContext context call) rounds
          (call.io (call.block.getHash context.connect.hash)) call.state call.dbp
          call.block).run s with ⟨failure | _, s'⟩
      · rw [run_bind_of_error haccept]
        have herror := settled_of_error hsettled' haccept nofun
        exact herror.trans ⟨fun hno => ⟨hno, fun _ heq => by cases heq⟩, And.left⟩
      · rw [run_bind_of_ok haccept, run_get_bind] at hsurvives ⊢
        obtain ⟨hagree, hknown, hclear⟩ := pending_of_ok hsettled' haccept rfl
        have hpending : ∀ q ∈ [call.block.getHash context.connect.hash],
            s'.node.known q = true := by
          intro q hq
          rw [mem_singleton.mp hq]
          exact hknown
        rcases hresolve : (resolveOrphans (callContext context call) rounds call.io
            (s'.orphans.size + 1) [call.block.getHash context.connect.hash]).run s' with
          ⟨result, s''⟩
        rw [hresolve] at hsurvives
        obtain ⟨hkept, hlost⟩ := resolveOrphans_settled hagree hpending hresolve hsurvives
        have hno : ¬Strands (callContext context call) rounds
            (call.io (call.block.getHash context.connect.hash)) call.state call.dbp
            call.block s := by
          rintro ⟨-, -, herror, -⟩
          rw [haccept] at herror
          exact herror rfl
        constructor
        · intro hafter
          refine ⟨hno, fun s₁ heq => ?_⟩
          cases heq
          by_contra hharm
          exact (settled_iff.mp hafter).2 (hlost (.inl hharm))
        · rintro ⟨-, hspares⟩
          exact hkept (hspares s' rfl) hclear

/-- Along every run from an index without orphans, the orphans are settled after each call just
when every call is harmless. -/
theorem along_settles_iff (context : ChainContext W) (rounds : ℕ) (node : Node W)
    (files : BlockFiles) (calls : List ProcessBlockCall) :
    Along (Steps context rounds) (Settles context rounds) ⟨node, files, .empty⟩ calls ↔
      Along (Steps context rounds) (Harmless context rounds) ⟨node, files, .empty⟩ calls := by
  refine along_congr (I := Settled context.connect.hash) ?_
    (fun s call hsettled => settles_iff hsettled) ?_ calls
  · rintro s call s' - hsettles ⟨hsurvives, rfl⟩
    exact hsettles hsurvives
  · exact ⟨agree_empty _, fun h block hstored => by cases hstored⟩

end Calls

end Chainstate

/-! Two blocks of the test network with their certificates. The coinbase of the first
pays more than the reward, the second is on top of it. -/

namespace Overpaid

def coinbase (tag : UInt8) (nValue : Int64) : CTransaction :=
  ⟨1, [⟨⟨0, 0xffffffff⟩, [tag, tag], 0xffffffff⟩], [⟨nValue, [0x51]⟩], 0⟩

def hashParent : UInt256 := 0xa9f927ea0dc0fd9953cd1f12ecf284dc7b49f2605ffd297dd50365aaa39ddb85
def hashChild : UInt256 := 0xe1f69b64191c8835128100f283e02c53fbc6f9053c350537f2651c23db58a3ac

def parent : CBlock where
  nVersion := 2
  hashPrevBlock := hashGenesisBlock .testNet
  hashMerkleRoot := 0x505fac3f167b272c420cae38f4261045232de008a81d814242a09df60f649b62
  nTime := 1373063883
  nBits := 0x05000000
  nNonce := 13
  bnPrimeChainMultiplier := 2546035554952890
  vtx := [coinbase 0x61 10000000000]

def child : CBlock where
  nVersion := 2
  hashPrevBlock := hashParent
  hashMerkleRoot := 0x7be42f954426dca5d4f15f9472c2b7e2068db4259e452998e80cf10b6f4a5693
  nTime := 1373063884
  nBits := 0x05000000
  nNonce := 25
  bnPrimeChainMultiplier := 174323653153650
  vtx := [coinbase 0x62 1000000000]

def sha256d (m : Bytes) : UInt256 :=
  if m = (coinbase 0x61 10000000000).serialize then
    0x505fac3f167b272c420cae38f4261045232de008a81d814242a09df60f649b62
  else if m = (coinbase 0x62 1000000000).serialize then
    0x7be42f954426dca5d4f15f9472c2b7e2068db4259e452998e80cf10b6f4a5693
  else if m = parent.headerBytes then
    0x955ba12852d5500b11573f51f7c371ccdee2f3bef56c046560918f6b20a0eea1
  else if m = child.headerBytes then
    0x86710a7e6426bc451be38d793d42d34c22afb1a32e1721155530adb138c1878b
  else if m = (genesisBlock .testNet).toCBlockHeader.serialize then hashGenesisBlock .testNet
  else if m = parent.toCBlockHeader.serialize then hashParent
  else if m = child.toCBlockHeader.serialize then hashChild
  else 0

def chainContext : ChainContext Unit where
  keys := Sample.keys
  connect := ⟨sha256d, .testNet, fun _ _ _ _ _ => false, 0, false, 0, fun _ => none⟩
  pool := ⟨.testNet, fun _ => false, fun _ _ => false, false, fun _ _ _ _ _ => false,
    fun _ => none, .empty⟩
  depth := 1
  syncWithWallets wallets _ _ _ := wallets
  setBestLocator wallets _ := wallets

def io (_ : UInt256) : AcceptIo where
  file := ⟨true, .ok⟩
  writeBlock := .ok
  writeIndex := .ok
  chain _ := {
    readBlock := fun h =>
      if h = hashParent then some parent else if h = hashChild then some child else none
    readUndo := fun _ => none
    connect := fun _ => ⟨.ok, .ok 8, .ok, .ok, .ok⟩
    fInitialDownload := false
    fCacheFull := false
    fDiskSpace := true
    flush := .ok }
  flush := .ok

def start : Chainstate Unit where
  node := {
    mapBlockIndex := genesisTree sha256d .testNet ⟨0, 8⟩
    pcoinsTip := ⟨fun _ => none, some (hashGenesisBlock .testNet)⟩
    pindexBest := some (hashGenesisBlock .testNet)
    mempool := .empty
    wallets := ()
    setBlockIndexValid := [hashGenesisBlock .testNet]
    nBestInvalidWork := 0 }
  files := .fresh
  orphans := .empty

def waiting : Chainstate Unit :=
  { start with orphans := OrphanBlocks.empty.insertBlock (parent.getHash sha256d) parent }

def call (block : CBlock) : ProcessBlockCall := ⟨block, .init, true, none, 1373063884, false, io⟩

def afterChild : Chainstate Unit :=
  ((Chainstate.processBlock chainContext 128 (call child)).run start).2

theorem result_child :
    ((Chainstate.processBlock chainContext 128 (call child)).run start).1 = .ok () := by
  decide +kernel

theorem result_parent :
    ((Chainstate.processBlock chainContext 128 (call parent)).run afterChild).1 =
      .error (.dos 100 "ConnectBlock() : coinbase pays too much (actual=%s vs limit=%s)" false) := by
  decide +kernel

end Overpaid

open Overpaid

/-- The orphan that waits for the genesis block is tried and dropped. -/
theorem Chainstate.resolveOrphans_rounds_waiting :
    waiting.orphans.stored hashParent = some parent ∧
    Resolves chainContext 128 io [hashGenesisBlock .testNet] waiting
      ((resolveOrphans chainContext 128 io 2 [hashGenesisBlock .testNet]).run waiting) ∧
    ((resolveOrphans chainContext 128 io 2 [hashGenesisBlock .testNet]).run waiting).1 =
      .ok () := by
  have hagree : waiting.orphans.Agree sha256d := (OrphanBlocks.agree_empty _).insertBlock rfl
  have hknown : ∀ q ∈ [hashGenesisBlock .testNet], waiting.node.known q = true := by
    intro q hq
    rw [mem_singleton.mp hq]
    decide +kernel
  exact ⟨by decide +kernel, (resolveOrphans_rounds hagree hknown le_rfl le_rfl).1,
    by decide +kernel⟩

/-- The child is sent first and kept; then the parent enters the index and fails, and the child is
still kept. -/
theorem Chainstate.not_along_settles_overpaid :
    ¬Along (Steps chainContext 128) (Settles chainContext 128) start [call child, call parent] := by
  rintro ⟨-, hnext⟩
  have hchild : Steps chainContext 128 start (call child)
      afterChild := by
    refine ⟨fun failure hfailure => ?_, rfl⟩
    rw [result_child] at hfailure
    cases hfailure
  have hsurvives : Survives chainContext 128 afterChild (call parent) := by
    intro failure hfailure
    rw [result_parent] at hfailure
    cases hfailure
    rfl
  have hsettled := (hnext _ hchild).1 hsurvives
  have hparentless := hsettled.parentless hashChild child (by decide +kernel)
  have hknown : ((processBlock chainContext 128 (call parent)).run
      afterChild).2.node.known child.hashPrevBlock = true := by
    decide +kernel
  rw [Node.known, hparentless] at hknown
  cases hknown

end Primecoin
