import Primecoin.Control.Machine
import Primecoin.Queue.Coherent

/-!
# What `Wait` returns

`Wait` answers for the checks of its batch, leaves the queue as the next `CCheckQueueControl`
asserts it, and does return: while the master is in it some thread can go on without being woken
out of nothing, and only so many of these events can happen before it returns.
-/

open Function Tally

namespace Primecoin

open LoopState
namespace CheckPool

variable {ι T : Type*} [DecidableEq ι] [Fintype ι] {check : T → Bool} {s : CheckPool ι T}

theorem coherent_run {nBatchSize : ℕ} {events : List (CheckEvent ι T)}
    (hrun : Machine.run (step check) (new nBatchSize) events = some s) : s.Coherent check :=
  Machine.run_invariant (I := Coherent check) (fun _ _ _ h hstep => h.step hstep)
    (coherent_new nBatchSize) hrun

omit [DecidableEq ι] in
theorem Tallied.ran_le_added (h : s.Tallied check) : s.batch.ran ≤ s.batch.added := by
  rw [h.added, add_assoc]
  exact (Multiset.le_add_right _ _).trans (Multiset.le_add_left _ _)

omit [DecidableEq ι] in
/-- Whenever the master has no control, the queue is as the next one wants it. -/
theorem Coherent.unused (h : s.Coherent check) (hclosed : (s.threads none).Closed) :
    s.shared.queue = [] ∧ s.shared.Unused := by
  obtain ⟨hzero, hadded⟩ := h.phased.closed hclosed
  have htodo : s.shared.queue.length = 0 ∧ tally todo s.threads = 0 :=
    Nat.add_eq_zero_iff.mp (h.tallied.todo.symm.trans hzero)
  refine ⟨List.length_eq_zero_iff.mp htodo.1, ?_, hzero, ?_⟩
  · rw [h.tallied.total, h.tallied.idle]
    exact tally_congr fun t =>
      ((h.proper t).of_todo_eq_zero (eq_zero_of_tally htodo.2 t)).2.2
  · rw [← Bool.not_eq_false]
    intro hfalse
    obtain ⟨c, hc, -⟩ := h.tallied.verdict.mp (.inl hfalse)
    have hnone := Multiset.mem_of_le h.tallied.ran_le_added hc
    rw [hadded] at hnone
    exact Multiset.notMem_zero c hnone

/-- What is left to do before `Wait` returns: to take, to run and to answer for every
check. -/
def pending (s : CheckPool ι T) : ℕ := 3 * s.shared.queue.length + tally cost s.threads

theorem pending_lock {t : Option ι} {q : CCheckQueue T}
    (hq : s.shared.Releases (s.threads t) q) (notified : Bool) :
    pending { s.lock t q with notified := notified } + (s.threads t).cost = s.pending := by
  have hcost : tally cost (update s.threads t .locked) + (s.threads t).cost =
      tally cost s.threads := tally_update _ _ _ _
  simp only [pending, lock, hq.queue]
  omega

/-- A critical section ends `Wait` or leaves no more to do. -/
theorem pending_proceed (h : s.Tallied check) {t : Option ι} (hlock : s.threads t = .locked)
    (hwait : t = none ∨ (s.threads none).InWait) :
    (∃ fRet, (s.proceed t).threads none = .returned fRet) ∨
      ((s.proceed t).threads none).InWait ∧ (s.proceed t).pending ≤ s.pending := by
  have hcost : ∀ l : LoopState T, tally cost (update s.threads t l) =
      tally cost s.threads + l.cost :=
    tally_update_of_eq_zero (by rw [hlock]; rfl)
  have hmaster : ∀ l : LoopState T, l.InWait → (update s.threads t l none).InWait := by
    intro l hl
    cases t with
    | none => rwa [update_self]
    | some i => exact threads_update_worker s i l ▸ hwait.resolve_left (Option.some_ne_none i)
  obtain ⟨-, rfl, -, heq⟩ | ⟨-, -, heq⟩ | ⟨nNow, hpos, hle, heq⟩ := proceed_cases h t <;> rw [heq]
  · exact .inl ⟨s.shared.fAllOk, update_self none _ s.threads⟩
  · refine .inr ⟨hmaster .waiting trivial, ?_⟩
    exact Nat.add_le_add_left (hcost .waiting).le _
  · refine .inr ⟨hmaster (.working nNow _ _) trivial, ?_⟩
    simp only [pending, hcost, cost, List.length_take, List.length_drop]
    omega

/-- While the master is in `Wait`, every event brings its return closer unless it is a wake-up out
of nothing or the start of a worker. -/
theorem pending_step {s' : CheckPool ι T} {event : CheckEvent ι T} (h : s.Coherent check)
    (hwait : (s.threads none).InWait) (hstep : s.step check event = some s') :
    (∃ fRet, s'.threads none = .returned fRet) ∨
      (s'.threads none).InWait ∧ s'.pending + (s.signalled event).toNat ≤ s.pending := by
  obtain ⟨hclosed, -⟩ | ⟨vChecks, hadding, -⟩ | ⟨t, nNow, c, vChecks, fOk, hwork, rfl⟩ |
    ⟨t, q, notified, hq, -, hcost, rfl⟩ := step_cases h.tallied hstep
  · rcases hwait.cases with hmaster | ⟨nNow, vChecks, fOk, hmaster⟩ <;> rw [hmaster] at hclosed
    · exact hclosed.elim
    · exact hclosed.elim
  · rw [hadding] at hwait
    exact hwait.elim
  · obtain ⟨fOk', ran, skipped, heq⟩ := executeCheck_spec check s t nNow c vChecks fOk
    have hcost := tally_update cost s.threads t (.working nNow vChecks fOk')
    rw [hwork] at hcost
    rw [heq]
    refine .inr ⟨?_, ?_⟩
    · cases t with
      | none => exact (congrArg InWait (update_self none _ s.threads)).mpr trivial
      | some i => exact (threads_update_worker s i (.working nNow vChecks fOk')).symm ▸ hwait
    · have := Bool.toNat_le (s.signalled event)
      simp only [pending, cost, List.length_cons] at hcost ⊢
      omega
  · have htallied := h.tallied.lock hq notified
    have hlocked : (s.lock t q).threads t = .locked := update_self t _ s.threads
    rcases hcost with hcost | ⟨rfl, hmaster, hnotified⟩
    · have hthread : t = none ∨ ((s.lock t q).threads none).InWait := by
        cases t with
        | none => exact .inl rfl
        | some i => exact .inr ((threads_update_worker s i .locked).symm ▸ hwait)
      have hlock := pending_lock hq notified
      refine (pending_proceed htallied hlocked hthread).imp_right fun ⟨hin, hle⟩ => ⟨hin, ?_⟩
      omega
    · obtain ⟨hempty, hiff⟩ := h.phased.waiting hmaster
      have hzero : q.nTodo = 0 :=
        (Nat.add_eq_zero_iff.mp (hq.todo.trans (hiff.mp hnotified))).1
      obtain ⟨-, -, -, heq⟩ | ⟨-, htodo, -⟩ | ⟨nNow, hpos, hle, -⟩ := proceed_cases htallied none
      · rw [heq]
        exact .inl ⟨q.fAllOk, update_self none (.returned q.fAllOk) (s.lock none q).threads⟩
      · exact absurd hzero (htodo rfl)
      · have hlength : q.queue.length = 0 := by rw [hq.queue, hempty, List.length_nil]
        exact absurd (hpos.trans_le hle) (Nat.not_lt.mpr hlength.le)

/-- While the master is in `Wait`, an event can happen that needs no wake-up out of nothing: the
master is signalled as soon as nobody is at work. -/
theorem Coherent.exists_signalled (h : s.Coherent check) (hwait : (s.threads none).InWait) :
    ∃ event s', s.step check event = some s' ∧ s.signalled event = true := by
  by_cases hwork : ∃ t nNow vChecks fOk, s.threads t = .working nNow vChecks fOk
  · obtain ⟨t, nNow, vChecks, fOk, hwork⟩ := hwork
    cases vChecks with
    | nil => exact ⟨.cleanUp t, _, by rw [CheckPool.step, hwork], rfl⟩
    | cons c vChecks => exact ⟨.execute t, _, by rw [CheckPool.step, hwork], rfl⟩
  · have hmaster : s.threads none = .waiting := by
      rcases hwait.cases with hmaster | ⟨nNow, vChecks, fOk, hmaster⟩
      · exact hmaster
      · exact absurd ⟨none, nNow, vChecks, fOk, hmaster⟩ hwork
    have htodo : tally todo s.threads = 0 := by
      refine tally_eq_zero fun t => ?_
      cases ht : s.threads t with
      | working nNow vChecks fOk => exact absurd ⟨t, nNow, vChecks, fOk, ht⟩ hwork
      | _ => rfl
    obtain ⟨hempty, hiff⟩ := h.phased.waiting hmaster
    refine ⟨.wake none, _, by rw [CheckPool.step, hmaster], hiff.mpr ?_⟩
    rw [h.tallied.todo, hempty, htodo]
    rfl

/-- Over every interleaving and any number of batches: what `Wait` returns, what has been run, how
it leaves the queue, and that it does return. -/
theorem wait_spec {nBatchSize : ℕ} {events : List (CheckEvent ι T)}
    (hrun : Machine.run (step check) (new nBatchSize) events = some s) :
    s.batch.ran ≤ s.batch.added ∧
    (∀ fRet, s.threads none = .returned fRet →
      s.finished.Judged check fRet ∧ s.shared.queue = [] ∧ s.shared.nTodo = 0 ∧
        s.shared.fAllOk = true ∧ s.shared.nTotal = s.shared.nIdle) ∧
    ((s.threads none).Closed → s.shared.Unused) ∧
    ((s.threads none).InWait →
      (∃ event s', s.step check event = some s' ∧ s.signalled event = true) ∧
      ∀ more s', Machine.run (step check) s more = some s' →
        s.pending < Machine.hits (step check) signalled s more →
        ∃ n s'' fRet, Machine.run (step check) s (more.take n) = some s'' ∧
          s''.threads none = .returned fRet) := by
  have h := coherent_run hrun
  refine ⟨h.tallied.ran_le_added, fun fRet hret => ?_, fun hclosed => (h.unused hclosed).2,
    fun hwait => ⟨h.exists_signalled hwait, fun more s' hmore hlt => ?_⟩⟩
  · obtain ⟨hempty, htotal, htodo, hok⟩ := h.unused (hret ▸ trivial)
    exact ⟨h.phased.returned fRet hret, hempty, htodo, hok, htotal⟩
  · obtain ⟨n, s'', hn, fRet, hret⟩ := Machine.exists_goal_of_lt_hits
      (I := fun s => Coherent check s ∧ (s.threads none).InWait) pending
      (fun s event t hI ht => (pending_step hI.1 hI.2 ht).imp_right fun hin =>
        ⟨⟨hI.1.step ht, hin.1⟩, hin.2⟩) ⟨h, hwait⟩ hmore hlt
    exact ⟨n, s'', fRet, hn, hret⟩

/-- Two workers and the master share three checks. One fails before the last one is
taken, which is then passed over. -/
def sharedEvents : List (CheckEvent (Fin 2) ℕ) :=
  [.start (some 0), .control, .add [1, 2], .add [0], .wake (some 0), .start none,
    .execute (some 0), .cleanUp (some 0), .execute none, .execute (some 0), .start (some 1),
    .cleanUp none, .cleanUp (some 0), .wake none]

theorem wait_spec_shared : ∃ s : CheckPool (Fin 2) ℕ,
    Machine.run (step (· != 0)) (new 128) sharedEvents = some s ∧
      s.threads none = .returned false ∧ s.finished.skipped = {1} ∧
      s.finished.Judged (· != 0) false ∧ s.shared.Unused := by
  have hend : (Machine.run (step (· != 0)) (new 128) sharedEvents).map
      (fun s => (s.threads none, s.finished.skipped)) = some (.returned false, {1}) := by decide
  obtain ⟨s, hrun, heq⟩ := Option.map_eq_some_iff.mp hend
  obtain ⟨hret, hskipped⟩ : s.threads none = .returned false ∧ s.finished.skipped = {1} :=
    Prod.ext_iff.mp heq
  obtain ⟨-, hjudged, hunused, -⟩ := wait_spec hrun
  have hclosed : (s.threads none).Closed := hret ▸ trivial
  exact ⟨s, hrun, hret, hskipped, (hjudged false hret).1, hunused hclosed⟩

end CheckPool

end Primecoin
