import Primecoin.Data.Tally
import Primecoin.Queue.CheckQueue

/-!
# The invariant of the check queue

The counters of the queue are tallies over the threads, so each critical section is checked by
what it does to one thread. `Tallied` says this for the counters, the checks and the failures;
`Phased` says what the master can rely on while it has no control, while it waits and when it has
returned.
-/

open Function Tally

namespace Primecoin

open LoopState Multiset
namespace LoopState

variable {T : Type*}

def total : LoopState T → ℕ
  | .locked | .waiting | .working _ _ _ => 1
  | _ => 0

def idle : LoopState T → ℕ
  | .waiting => 1
  | _ => 0

def todo : LoopState T → ℕ
  | .working nNow _ _ => nNow
  | _ => 0

def left : LoopState T → Multiset T
  | .working _ vChecks _ => vChecks
  | _ => 0

def failed : LoopState T → ℕ
  | .working _ _ false => 1
  | _ => 0

def cost : LoopState T → ℕ
  | .working _ vChecks _ => vChecks.length + 1
  | _ => 0

/-- No thread is seen inside a critical section, and one at work has taken checks. -/
def Proper : LoopState T → Prop
  | .locked => False
  | .working nNow _ _ => 0 < nNow
  | _ => True

def Closed : LoopState T → Prop
  | .outside | .returned _ => True
  | _ => False

def InWait : LoopState T → Prop
  | .waiting | .working _ _ _ => True
  | _ => False

theorem InWait.cases {l : LoopState T} (hl : l.InWait) :
    l = .waiting ∨ ∃ nNow vChecks fOk, l = .working nNow vChecks fOk := by
  cases l with
  | waiting => exact .inl rfl
  | working nNow vChecks fOk => exact .inr ⟨nNow, vChecks, fOk, rfl⟩
  | _ => exact hl.elim

theorem Proper.of_todo_eq_zero {l : LoopState T} (hl : l.Proper) (h : l.todo = 0) :
    l.left = 0 ∧ l.failed = 0 ∧ l.total = l.idle := by
  cases l with
  | locked => exact hl.elim
  | working nNow vChecks fOk => exact absurd h (Nat.ne_of_gt hl)
  | _ => exact ⟨rfl, rfl, rfl⟩

end LoopState

namespace CCheckQueue

variable {T : Type*}

/-- A thread leaves its batch, its wait or the outside and takes the mutex: what it counted for
goes out of the counters, and it counts as one in the loop. -/
structure Releases (q : CCheckQueue T) (l : LoopState T) (q' : CCheckQueue T) : Prop where
  left : l.left = 0
  queue : q'.queue = q.queue
  total : q'.nTotal + l.total = q.nTotal + 1
  idle : q'.nIdle + l.idle = q.nIdle
  todo : q'.nTodo + l.todo = q.nTodo
  ok : q'.fAllOk = (q.fAllOk && l.failed == 0)
  quit : q'.fQuit = q.fQuit

theorem releases_enter (q : CCheckQueue T) {l : LoopState T} (hl : l = .outside ∨ l = .adding) :
    q.Releases l q.enter := by
  rcases hl with rfl | rfl <;> exact ⟨rfl, rfl, rfl, rfl, rfl, (Bool.and_true _).symm, rfl⟩

theorem releases_wakeUp {q : CCheckQueue T} (hidle : 0 < q.nIdle) : q.Releases .waiting q.wakeUp :=
  ⟨rfl, rfl, rfl, Nat.sub_add_cancel hidle, rfl, (Bool.and_true _).symm, rfl⟩

theorem releases_cleanUp {q : CCheckQueue T} {nNow : ℕ} (fOk : Bool) (hle : nNow ≤ q.nTodo) :
    q.Releases (.working nNow [] fOk) (q.cleanUp nNow fOk) := by
  cases fOk <;> exact ⟨rfl, rfl, rfl, rfl, Nat.sub_add_cancel hle, rfl, rfl⟩

end CCheckQueue

namespace Batch

variable {T : Type*}

/-- The verdict is right, no check was run more often than added, and all were run unless one
fails. -/
def Judged (check : T → Bool) (batch : Batch T) (fRet : Bool) : Prop :=
  (fRet = true ↔ ∀ c ∈ batch.added, check c = true) ∧ batch.ran ≤ batch.added ∧
    (batch.ran ≠ batch.added → ∃ c ∈ batch.added, check c = false)

theorem judged_of_eq_add {check : T → Bool} {batch : Batch T} {fRet : Bool}
    (hadded : batch.added = batch.ran + batch.skipped)
    (hret : fRet = false ↔ ∃ c ∈ batch.ran, check c = false)
    (hskipped : batch.skipped ≠ 0 → ∃ c ∈ batch.ran, check c = false) :
    batch.Judged check fRet := by
  have hle : batch.ran ≤ batch.added := hadded ▸ le_add_right _ _
  have hbad : (∃ c ∈ batch.ran, check c = false) → ∃ c ∈ batch.added, check c = false :=
    fun ⟨c, hc, hfalse⟩ => ⟨c, mem_of_le hle hc, hfalse⟩
  have hall : batch.skipped = 0 → batch.ran = batch.added := fun h => by rw [hadded, h, add_zero]
  refine ⟨⟨fun htrue c hc => ?_, fun hgood => ?_⟩, hle, fun hne => ?_⟩
  · rw [← Bool.not_eq_false]
    intro hfalse
    have hran : ∃ c ∈ batch.ran, check c = false := by
      by_cases hzero : batch.skipped = 0
      · exact ⟨c, hall hzero ▸ hc, hfalse⟩
      · exact hskipped hzero
    rw [hret.mpr hran] at htrue
    cases htrue
  · rw [← Bool.not_eq_false, hret]
    intro hran
    obtain ⟨c, hc, hfalse⟩ := hbad hran
    rw [hgood c hc] at hfalse
    cases hfalse
  · exact hbad (hskipped fun hzero => hne (hall hzero))

end Batch

namespace CheckPool

variable {ι T : Type*} [DecidableEq ι] [Fintype ι] {check : T → Bool} {s : CheckPool ι T}

/-- The counters agree with the threads, every check added is somewhere, and the failure of a
check is reported or about to be. -/
structure Tallied (check : T → Bool) (s : CheckPool ι T) : Prop where
  total : s.shared.nTotal = tally total s.threads
  idle : s.shared.nIdle = tally idle s.threads
  todo : s.shared.nTodo = s.shared.queue.length + tally todo s.threads
  added : s.batch.added = s.shared.queue + tally left s.threads + s.batch.ran + s.batch.skipped
  verdict : s.shared.fAllOk = false ∨ 0 < tally failed s.threads ↔
    ∃ c ∈ s.batch.ran, check c = false
  skipped : s.batch.skipped ≠ 0 → ∃ c ∈ s.batch.ran, check c = false
  quit : s.shared.fQuit = false

/-- What holds in each phase of the master. -/
structure Phased (check : T → Bool) (s : CheckPool ι T) : Prop where
  closed : (s.threads none).Closed → s.shared.nTodo = 0 ∧ s.batch.added = 0
  waiting : s.threads none = .waiting →
    s.shared.queue = [] ∧ (s.notified = true ↔ s.shared.nTodo = 0)
  returned : ∀ fRet, s.threads none = .returned fRet → s.finished.Judged check fRet

structure Coherent (check : T → Bool) (s : CheckPool ι T) : Prop where
  tallied : s.Tallied check
  phased : s.Phased check
  proper : ∀ t, (s.threads t).Proper

theorem Tallied.lock (h : s.Tallied check) {t : Option ι} {q : CCheckQueue T}
    (hq : s.shared.Releases (s.threads t) q) (notified : Bool) :
    Tallied check { s.lock t q with notified := notified } := by
  have hT : tally LoopState.total (update s.threads t .locked) + (s.threads t).total =
      tally LoopState.total s.threads + 1 := tally_update _ _ _ _
  have hI : tally LoopState.idle (update s.threads t .locked) + (s.threads t).idle =
      tally LoopState.idle s.threads := tally_update _ _ _ _
  have hD : tally LoopState.todo (update s.threads t .locked) + (s.threads t).todo =
      tally LoopState.todo s.threads := tally_update _ _ _ _
  have hL : tally left (update s.threads t .locked) = tally left s.threads :=
    (tally_update_of_eq_zero hq.left _).trans (add_zero _)
  have hF : tally failed (update s.threads t .locked) + (s.threads t).failed =
      tally failed s.threads := tally_update _ _ _ _
  obtain ⟨-, hqueue, htotal, hidle, htodo, hok, hquit⟩ := hq
  have := h.total
  have := h.idle
  have := h.todo
  refine ⟨?_, ?_, ?_, ?_, ?_, h.skipped, hquit.trans h.quit⟩ <;> simp only [CheckPool.lock]
  · omega
  · omega
  · rw [hqueue]
    omega
  · rw [hL, hqueue, h.added]
  · rw [← h.verdict, ← hF, hok]
    by_cases hzero : (s.threads t).failed = 0
    · simp [hzero]
    · simp [hzero, Nat.pos_of_ne_zero hzero]

omit [Fintype ι] in
theorem executeCheck_spec (check : T → Bool) (s : CheckPool ι T) (t : Option ι) (nNow : ℕ) (c : T)
    (vChecks : List T) (fOk : Bool) :
    ∃ fOk' ran skipped, s.executeCheck check t nNow c vChecks fOk = { s with
      threads := update s.threads t (.working nNow vChecks fOk')
      batch := { s.batch with ran := ran, skipped := skipped } } := by
  cases fOk with
  | true => exact ⟨check c, _, _, rfl⟩
  | false => exact ⟨false, _, _, rfl⟩

theorem Tallied.executeCheck (h : s.Tallied check) {t : Option ι} {nNow : ℕ} {c : T}
    {vChecks : List T} {fOk : Bool} (ht : s.threads t = .working nNow (c :: vChecks) fOk) :
    (s.executeCheck check t nNow c vChecks fOk).Tallied check := by
  -- the thread keeps its batch, one check shorter, whatever comes of the check
  have hcounts : ∀ fOk', tally LoopState.total (update s.threads t (.working nNow vChecks fOk')) =
        tally LoopState.total s.threads ∧
      tally LoopState.idle (update s.threads t (.working nNow vChecks fOk')) =
        tally LoopState.idle s.threads ∧
      tally LoopState.todo (update s.threads t (.working nNow vChecks fOk')) =
        tally LoopState.todo s.threads ∧
      tally LoopState.left s.threads =
        c ::ₘ tally LoopState.left (update s.threads t (.working nNow vChecks fOk')) := by
    intro fOk'
    have hT := tally_update LoopState.total s.threads t (.working nNow vChecks fOk')
    have hI := tally_update LoopState.idle s.threads t (.working nNow vChecks fOk')
    have hD := tally_update LoopState.todo s.threads t (.working nNow vChecks fOk')
    have hL := tally_update LoopState.left s.threads t (.working nNow vChecks fOk')
    rw [ht] at hT hI hD hL
    simp only [left, ← cons_coe, add_cons, ← cons_add] at hL
    exact ⟨add_right_cancel hT, add_right_cancel hI, add_right_cancel hD,
      (add_right_cancel hL).symm⟩
  have hF := fun fOk' => tally_update failed s.threads t (.working nNow vChecks fOk')
  rw [ht] at hF
  cases fOk with
  | true =>
    obtain ⟨hT, hI, hD, hL⟩ := hcounts (check c)
    specialize hF (check c)
    simp only [CheckPool.executeCheck, if_true]
    refine ⟨?_, ?_, ?_, ?_, ?_, fun hskipped => ?_, h.quit⟩ <;> dsimp only
    · rw [hT, h.total]
    · rw [hI, h.idle]
    · rw [hD, h.todo]
    · rw [h.added, hL]
      simp only [add_cons, cons_add]
    · simp only [mem_cons, exists_eq_or_imp, ← h.verdict]
      cases hc : check c <;> rw [hc] at hF <;> simp only [failed, add_zero] at hF
      · simp [hF]
      · simp [hF]
    · obtain ⟨d, hd, hfalse⟩ := h.skipped hskipped
      exact ⟨d, mem_cons_of_mem hd, hfalse⟩
  | false =>
    obtain ⟨hT, hI, hD, hL⟩ := hcounts false
    have hfailed : 0 < tally failed s.threads :=
      (by rw [ht]; exact Nat.one_pos : 0 < (s.threads t).failed).trans_le (le_tally _ _ t)
    simp only [CheckPool.executeCheck, Bool.false_eq_true, if_false]
    refine ⟨?_, ?_, ?_, ?_, ?_, fun _ => h.verdict.mp (.inr hfailed), h.quit⟩ <;> dsimp only
    · rw [hT, h.total]
    · rw [hI, h.idle]
    · rw [hD, h.todo]
    · rw [h.added, hL]
      simp only [add_cons, cons_add]
    · rw [← h.verdict, add_right_cancel (hF false)]

/-- Threads outside the loop count for nothing. -/
theorem Tallied.open (h : s.Tallied check) (hclosed : (s.threads none).Closed) :
    Tallied check { s with threads := update s.threads none .adding } := by
  have hzero : (s.threads none).total = 0 ∧ (s.threads none).idle = 0 ∧
      (s.threads none).todo = 0 ∧ (s.threads none).left = 0 ∧ (s.threads none).failed = 0 := by
    cases hmaster : s.threads none <;> rw [hmaster] at hclosed
    case outside => exact ⟨rfl, rfl, rfl, rfl, rfl⟩
    case returned => exact ⟨rfl, rfl, rfl, rfl, rfl⟩
    all_goals exact hclosed.elim
  obtain ⟨hT, hI, hD, hL, hF⟩ := hzero
  refine ⟨?_, ?_, ?_, ?_, ?_, h.skipped, h.quit⟩ <;> dsimp only
  · rw [tally_update_of_eq_zero hT, h.total]
    rfl
  · rw [tally_update_of_eq_zero hI, h.idle]
    rfl
  · rw [tally_update_of_eq_zero hD, h.todo]
    rfl
  · simp only [tally_update_of_eq_zero hL, h.added, left, add_zero]
  · rw [tally_update_of_eq_zero hF, ← h.verdict]
    rfl

omit [DecidableEq ι] in
theorem Tallied.add (h : s.Tallied check) (vChecks : List T) : Tallied check { s with
      shared := s.shared.add vChecks
      batch := { s.batch with added := s.batch.added + vChecks } } := by
  refine ⟨h.total, h.idle, ?_, ?_, h.verdict, h.skipped, h.quit⟩
  · simp only [CCheckQueue.add, h.todo, List.length_append, List.length_reverse]
    omega
  · simp only [CCheckQueue.add, h.added, ← coe_add, coe_reverse]
    abel

/-- What a critical section does: the master returns at the end of the batch, the
thread waits, or it takes a batch. -/
theorem proceed_cases (h : s.Tallied check) (t : Option ι) :
    (s.shared.queue = [] ∧ t = none ∧ s.shared.nTodo = 0 ∧ s.proceed t = { s with
        shared := { s.shared with nTotal := s.shared.nTotal - 1, fAllOk := true }
        threads := update s.threads none (.returned s.shared.fAllOk)
        notified := false
        batch := ⟨0, 0, 0⟩
        finished := s.batch }) ∨
    (s.shared.queue = [] ∧ (t = none → s.shared.nTodo ≠ 0) ∧ s.proceed t = { s with
        shared := { s.shared with nIdle := s.shared.nIdle + 1 }
        threads := update s.threads t .waiting
        notified := s.notified && t.isSome }) ∨
    ∃ nNow, 0 < nNow ∧ nNow ≤ s.shared.queue.length ∧ s.proceed t = { s with
        shared := { s.shared with queue := s.shared.queue.drop nNow }
        threads := update s.threads t (.working nNow (s.shared.queue.take nNow) s.shared.fAllOk)
        notified := s.notified && t.isSome } := by
  by_cases hqueue : s.shared.queue = []
  · by_cases hreturn : t = none ∧ s.shared.nTodo = 0
    · left
      obtain ⟨rfl, htodo⟩ := hreturn
      refine ⟨hqueue, rfl, htodo, ?_⟩
      simp [proceed, CCheckQueue.proceed, hqueue, htodo, closeBatch]
    · right; left
      refine ⟨hqueue, fun ht htodo => hreturn ⟨ht, htodo⟩, ?_⟩
      cases t with
      | none =>
        have htodo : s.shared.nTodo ≠ 0 := fun htodo => hreturn ⟨rfl, htodo⟩
        simp [proceed, CCheckQueue.proceed, hqueue, htodo, closeBatch]
      | some i => simp [proceed, CCheckQueue.proceed, hqueue, h.quit]
  · right; right
    have hlength : 0 < s.shared.queue.length := List.length_pos_iff.mpr hqueue
    refine ⟨s.shared.batchLength, Nat.le_max_left _ _, ?_, ?_⟩
    · refine Nat.max_le.mpr ⟨hlength, (Nat.min_le_right _ _).trans (Nat.div_le_self _ _)⟩
    · have hempty : s.shared.queue.isEmpty = false := by simpa using hqueue
      cases t with
      | none => simp [proceed, CCheckQueue.proceed, hempty, closeBatch]
      | some i => simp [proceed, CCheckQueue.proceed, hempty]

/-- Without checks to answer for, no thread but the one that has the mutex is busy. -/
theorem Tallied.of_nTodo_eq_zero (h : s.Tallied check) (hzero : s.shared.nTodo = 0)
    {t : Option ι} (ht : (s.threads t).left = 0 ∧ (s.threads t).failed = 0)
    (hproper : ∀ u ≠ t, (s.threads u).Proper) :
    tally left s.threads = 0 ∧ tally failed s.threads = 0 := by
  have htodo : tally LoopState.todo s.threads = 0 := by
    have := h.todo
    omega
  have hquiet : ∀ u, (s.threads u).left = 0 ∧ (s.threads u).failed = 0 := by
    intro u
    by_cases hu : u = t
    · exact hu ▸ ht
    · obtain ⟨hleft, hfailed, -⟩ := (hproper u hu).of_todo_eq_zero (eq_zero_of_tally htodo u)
      exact ⟨hleft, hfailed⟩
  exact ⟨tally_eq_zero fun u => (hquiet u).1, tally_eq_zero fun u => (hquiet u).2⟩

section Sections

variable {t : Option ι} {notified : Bool}

theorem Tallied.park (h : s.Tallied check) (hlock : s.threads t = .locked) : Tallied check { s with
      shared := { s.shared with nIdle := s.shared.nIdle + 1 }
      threads := update s.threads t .waiting
      notified := notified } := by
  have hT := tally_update LoopState.total s.threads t .waiting
  have hI := tally_update LoopState.idle s.threads t .waiting
  have hD := tally_update LoopState.todo s.threads t .waiting
  have hL := tally_update LoopState.left s.threads t .waiting
  have hF := tally_update LoopState.failed s.threads t .waiting
  rw [hlock] at hT hI hD hL hF
  refine ⟨?_, ?_, ?_, ?_, ?_, h.skipped, h.quit⟩
  · exact h.total.trans (add_right_cancel hT).symm
  · exact (congrArg (· + 1) h.idle).trans hI.symm
  · exact h.todo.trans (congrArg (_ + ·) (add_right_cancel hD).symm)
  · rw [h.added, ← add_right_cancel hL]
  · rw [← h.verdict, ← add_right_cancel hF]

theorem Tallied.take (h : s.Tallied check) (hlock : s.threads t = .locked) {nNow : ℕ}
    (hle : nNow ≤ s.shared.queue.length) :
    Tallied check { s with
      shared := { s.shared with queue := s.shared.queue.drop nNow }
      threads := update s.threads t (.working nNow (s.shared.queue.take nNow) s.shared.fAllOk)
      notified := notified } := by
  set taken := LoopState.working nNow (s.shared.queue.take nNow) s.shared.fAllOk with htaken
  have hT := tally_update LoopState.total s.threads t taken
  have hI := tally_update LoopState.idle s.threads t taken
  have hD := tally_update LoopState.todo s.threads t taken
  have hL := tally_update LoopState.left s.threads t taken
  have hF := tally_update LoopState.failed s.threads t taken
  rw [hlock] at hT hI hD hL hF
  have hqueue : (s.shared.queue : Multiset T) =
      taken.left + (s.shared.queue.drop nNow : Multiset T) := by
    rw [htaken, left, coe_add, List.take_append_drop]
  refine ⟨?_, ?_, ?_, ?_, ?_, h.skipped, h.quit⟩
  · exact h.total.trans (add_right_cancel hT).symm
  · exact h.idle.trans (add_right_cancel hI).symm
  · have := h.todo
    simp only [htaken, LoopState.todo] at hD ⊢
    rw [List.length_drop]
    omega
  · have hleft : tally LoopState.left (update s.threads t taken) =
        tally LoopState.left s.threads + taken.left := (add_zero _).symm.trans hL
    rw [h.added, hqueue, hleft]
    abel
  · have hfailed : tally failed (update s.threads t taken) =
        tally failed s.threads + taken.failed := (add_zero _).symm.trans hF
    rw [← h.verdict, hfailed, htaken]
    cases s.shared.fAllOk <;> simp [failed]

/-- The master returns: the next batch starts from nothing. -/
theorem Tallied.close (h : s.Tallied check) (hlock : s.threads none = .locked)
    (hproper : ∀ u ≠ none, (s.threads u).Proper) (hqueue : s.shared.queue = [])
    (hzero : s.shared.nTodo = 0) {fRet : Bool} :
    Tallied check { s with
      shared := { s.shared with nTotal := s.shared.nTotal - 1, fAllOk := true }
      threads := update s.threads none (.returned fRet)
      notified := notified
      batch := ⟨0, 0, 0⟩
      finished := s.batch } := by
  have hT := tally_update LoopState.total s.threads none (.returned fRet)
  have hI := tally_update LoopState.idle s.threads none (.returned fRet)
  have hD := tally_update LoopState.todo s.threads none (.returned fRet)
  have hL := tally_update LoopState.left s.threads none (.returned fRet)
  have hF := tally_update LoopState.failed s.threads none (.returned fRet)
  rw [hlock] at hT hI hD hL hF
  obtain ⟨hleft, hfailed⟩ := h.of_nTodo_eq_zero hzero
    (t := none) (by rw [hlock]; exact ⟨rfl, rfl⟩) hproper
  refine ⟨?_, ?_, ?_, ?_, ?_, fun hne => absurd rfl hne, h.quit⟩
  · exact (congrArg (· - 1) (h.total.trans hT.symm)).trans (Nat.add_sub_cancel _ _)
  · exact h.idle.trans (add_right_cancel hI).symm
  · exact h.todo.trans (congrArg (_ + ·) (add_right_cancel hD).symm)
  · rw [add_right_cancel hL, hleft, hqueue]
    rfl
  · rw [add_right_cancel hF, hfailed]
    simp

end Sections

omit [Fintype ι] in
theorem proper_update {t : Option ι} {l : LoopState T}
    (hproper : ∀ u ≠ t, (s.threads u).Proper) (hl : l.Proper) (u : Option ι) :
    (update s.threads t l u).Proper := by
  by_cases hu : u = t
  · rw [hu, update_self]
    exact hl
  · rw [update_of_ne hu]
    exact hproper u hu

omit [DecidableEq ι] [Fintype ι] in
theorem phased_of_busy {l : LoopState T} (hmaster : s.threads none = l) (hclosed : ¬ l.Closed)
    (hwaiting : l ≠ .waiting) : s.Phased check := by
  refine ⟨fun h => absurd (hmaster ▸ h) hclosed, fun h => absurd (hmaster.symm.trans h) hwaiting,
    fun fRet h => ?_⟩
  rw [hmaster.symm.trans h] at hclosed
  exact absurd trivial hclosed

omit [DecidableEq ι] [Fintype ι] in
/-- Nothing changes for the master while it has no control or waits. -/
theorem Phased.keep {s' : CheckPool ι T} (h : s.Phased check)
    (hmaster : s'.threads none = s.threads none)
    (htodo : s.shared.nTodo = 0 → s'.shared.nTodo = 0) (hadded : s'.batch.added = s.batch.added)
    (hwaiting : s.shared.queue = [] → (s.notified = true ↔ s.shared.nTodo = 0) →
      s'.shared.queue = [] ∧ (s'.notified = true ↔ s'.shared.nTodo = 0))
    (hfinished : s'.finished = s.finished) : s'.Phased check := by
  refine ⟨fun hclosed => ?_, fun hwait => ?_, fun fRet hret => ?_⟩
  · obtain ⟨hzero, hnone⟩ := h.closed (hmaster ▸ hclosed)
    exact ⟨htodo hzero, hadded.trans hnone⟩
  · obtain ⟨hempty, hiff⟩ := h.waiting (hmaster.symm.trans hwait)
    exact hwaiting hempty hiff
  · exact hfinished ▸ h.returned fRet (hmaster.symm.trans hret)

omit [Fintype ι] in
theorem threads_update_worker (s : CheckPool ι T) (i : ι) (l : LoopState T) :
    update s.threads (some i) l none = s.threads none :=
  update_of_ne (Option.some_ne_none i).symm l s.threads

omit [Fintype ι] in
theorem Phased.lock (h : s.Phased check) (t : Option ι) {q : CCheckQueue T}
    (hq : s.shared.Releases (s.threads t) q) {notified : Bool}
    (hnotified : t ≠ none → (s.notified = true ↔ s.shared.nTodo = 0) →
      (notified = true ↔ q.nTodo = 0)) :
    Phased check { s.lock t q with notified := notified } := by
  cases t with
  | none =>
    have hself := update_self none (.locked : LoopState T) s.threads
    exact phased_of_busy hself id (by rintro ⟨⟩)
  | some i =>
    exact h.keep (threads_update_worker s i .locked)
      (fun hzero => (Nat.add_eq_zero_iff.mp (hq.todo.trans hzero)).1) rfl
      (fun hempty hiff => ⟨hq.queue.trans hempty, hnotified (Option.some_ne_none i) hiff⟩) rfl

theorem Coherent.proceed (htallied : s.Tallied check) (hphased : s.Phased check)
    {t : Option ι} (hlock : s.threads t = .locked) (hproper : ∀ u ≠ t, (s.threads u).Proper) :
    (s.proceed t).Coherent check := by
  obtain ⟨hqueue, rfl, hzero, heq⟩ | ⟨hqueue, hmaster, heq⟩ | ⟨nNow, hpos, hle, heq⟩ :=
    proceed_cases htallied t
  · have hself := update_self none (.returned s.shared.fAllOk) s.threads
    obtain ⟨hleft, hfailed⟩ := htallied.of_nTodo_eq_zero hzero
      (t := none) (by rw [hlock]; exact ⟨rfl, rfl⟩) hproper
    rw [heq]
    refine ⟨htallied.close hlock hproper hqueue hzero, ⟨fun _ => ⟨hzero, rfl⟩, fun hwait => ?_,
      fun fRet hret => ?_⟩, proper_update hproper trivial⟩
    · cases hself.symm.trans hwait
    · cases hself.symm.trans hret
      refine Batch.judged_of_eq_add ?_ ?_ htallied.skipped
      · rw [htallied.added, hqueue, hleft, coe_nil, zero_add, zero_add]
      · rw [← htallied.verdict, hfailed, or_iff_left (Nat.lt_irrefl 0)]
  · rw [heq]
    refine ⟨htallied.park hlock, ?_, proper_update hproper trivial⟩
    cases t with
    | none =>
      have hself := update_self none (.waiting : LoopState T) s.threads
      refine ⟨fun hclosed => ?_, fun _ => ⟨hqueue, ?_⟩, fun fRet hret => ?_⟩
      · exact ((congrArg Closed hself).mp hclosed).elim
      · simp [hmaster rfl]
      · cases hself.symm.trans hret
    | some i =>
      refine hphased.keep (threads_update_worker s i .waiting) id rfl (fun _ hiff => ?_) rfl
      exact ⟨hqueue, by simpa using hiff⟩
  · have hne : s.shared.queue ≠ [] := List.length_pos_iff.mp (hpos.trans_le hle)
    rw [heq]
    refine ⟨htallied.take hlock hle, ?_, proper_update hproper hpos⟩
    cases t with
    | none =>
      have hself := update_self none
        (.working nNow (s.shared.queue.take nNow) s.shared.fAllOk) s.threads
      exact phased_of_busy hself id (by rintro ⟨⟩)
    | some i =>
      have hother := threads_update_worker s i
        (.working nNow (s.shared.queue.take nNow) s.shared.fAllOk)
      exact hphased.keep hother id rfl (fun hqueue _ => absurd hqueue hne) rfl

omit [DecidableEq ι] in
theorem coherent_new (nBatchSize : ℕ) : (new nBatchSize : CheckPool ι T).Coherent check := by
  refine ⟨⟨?_, ?_, ?_, ?_, ?_, fun h => absurd rfl h, rfl⟩,
    ⟨fun _ => ⟨rfl, rfl⟩, fun h => ?_, fun fRet h => ?_⟩, fun _ => trivial⟩
  · exact (tally_eq_zero fun _ => rfl).symm
  · exact (tally_eq_zero fun _ => rfl).symm
  · have htodo : tally todo (new nBatchSize : CheckPool ι T).threads = 0 :=
      tally_eq_zero fun _ => rfl
    rw [htodo]
    rfl
  · have hleft : tally left (new nBatchSize : CheckPool ι T).threads = 0 :=
      tally_eq_zero fun _ => rfl
    rw [hleft]
    rfl
  · have hfailed : tally failed (new nBatchSize : CheckPool ι T).threads = 0 :=
      tally_eq_zero fun _ => rfl
    rw [hfailed]
    simp [new, CCheckQueue.new]
  · cases h
  · cases h

/-- The master opens a batch or adds to it, a check is run, or a thread takes the mutex and goes
through a critical section. -/
theorem step_cases {s' : CheckPool ι T} (h : s.Tallied check) {event : CheckEvent ι T}
    (hstep : s.step check event = some s') :
    ((s.threads none).Closed ∧ s' = { s with threads := update s.threads none .adding }) ∨
    (∃ vChecks, s.threads none = .adding ∧ s' = { s with
      shared := s.shared.add vChecks
      batch := { s.batch with added := s.batch.added + vChecks } }) ∨
    (∃ t nNow c vChecks fOk, s.threads t = .working nNow (c :: vChecks) fOk ∧
      s' = s.executeCheck check t nNow c vChecks fOk) ∨
    ∃ t q notified, s.shared.Releases (s.threads t) q ∧
      (t ≠ none → (s.notified = true ↔ s.shared.nTodo = 0) → (notified = true ↔ q.nTodo = 0)) ∧
      ((s.signalled event).toNat ≤ (s.threads t).cost ∨
        t = none ∧ s.threads t = .waiting ∧ s.notified = true) ∧
      s' = CheckPool.proceed { s.lock t q with notified := notified } t := by
  cases event with
  | control =>
    left
    simp only [step] at hstep
    split at hstep <;> cases hstep <;> rename_i hmaster <;> rw [hmaster] <;> exact ⟨trivial, rfl⟩
  | add vChecks =>
    right; left
    simp only [step] at hstep
    split at hstep <;> cases hstep
    rename_i hmaster
    exact ⟨vChecks, hmaster, rfl⟩
  | start t =>
    right; right; right
    have hout : (s.threads t = .outside ∨ s.threads t = .adding) ∧
        s' = (s.lock t s.shared.enter).proceed t := by
      simp only [step] at hstep
      split at hstep <;> cases hstep <;> rename_i hout <;> simp [hout]
    exact ⟨t, s.shared.enter, s.notified, CCheckQueue.releases_enter _ hout.1, fun _ => id,
      .inl (Nat.zero_le _), hout.2⟩
  | execute t =>
    right; right; left
    simp only [step] at hstep
    split at hstep <;> cases hstep
    rename_i nNow c vChecks fOk hwork
    exact ⟨t, nNow, c, vChecks, fOk, hwork, rfl⟩
  | cleanUp t =>
    right; right; right
    simp only [step] at hstep
    split at hstep <;> cases hstep
    rename_i nNow fOk hwork
    have hle : nNow ≤ s.shared.nTodo := by
      have hone := le_tally todo s.threads t
      rw [hwork] at hone
      exact hone.trans (h.todo ▸ Nat.le_add_left _ _)
    refine ⟨t, s.shared.cleanUp nNow fOk, _, hwork ▸ CCheckQueue.releases_cleanUp fOk hle,
      fun ht hiff => ?_, .inl (by rw [hwork]; rfl), rfl⟩
    have hsome : t.isSome = true := Option.isSome_iff_ne_none.mpr ht
    simp only [lock, CCheckQueue.cleanUp, hsome, Bool.and_true, Bool.or_eq_true, beq_iff_eq, hiff]
    omega
  | wake t =>
    right; right; right
    simp only [step] at hstep
    split at hstep <;> cases hstep
    rename_i hwait
    have hidle : 0 < s.shared.nIdle := by
      have hone := le_tally idle s.threads t
      rw [hwait] at hone
      exact h.idle ▸ hone
    refine ⟨t, s.shared.wakeUp, s.notified, hwait ▸ CCheckQueue.releases_wakeUp hidle,
      fun _ => id, ?_, rfl⟩
    cases t with
    | none =>
      cases hnotified : s.notified with
      | false => exact .inl (by rw [signalled, hnotified]; exact Nat.zero_le _)
      | true => exact .inr ⟨rfl, hwait, rfl⟩
    | some i => exact .inl (Nat.zero_le _)

theorem Coherent.step {s' : CheckPool ι T} (h : s.Coherent check) {event : CheckEvent ι T}
    (hstep : s.step check event = some s') : s'.Coherent check := by
  obtain ⟨htallied, hphased, hproper⟩ := h
  obtain ⟨hclosed, rfl⟩ | ⟨vChecks, hadding, rfl⟩ | ⟨t, nNow, c, vChecks, fOk, hwork, rfl⟩ |
    ⟨t, q, notified, hq, hnotified, -, rfl⟩ := step_cases htallied hstep
  · have hself := update_self none (.adding : LoopState T) s.threads
    refine ⟨htallied.open hclosed, phased_of_busy hself id (by rintro ⟨⟩), ?_⟩
    exact proper_update (fun u _ => hproper u) trivial
  · exact ⟨htallied.add vChecks, phased_of_busy hadding id (by rintro ⟨⟩), hproper⟩
  · refine ⟨htallied.executeCheck hwork, ?_, ?_⟩
    · obtain ⟨fOk', ran, skipped, heq⟩ := executeCheck_spec check s t nNow c vChecks fOk
      rw [heq]
      cases t with
      | none =>
        have hself := update_self none (.working nNow vChecks fOk') s.threads
        exact phased_of_busy hself id (by rintro ⟨⟩)
      | some i =>
        exact hphased.keep (threads_update_worker s i (.working nNow vChecks fOk')) id rfl
          (fun hempty hiff => ⟨hempty, hiff⟩) rfl
    · obtain ⟨fOk', ran, skipped, heq⟩ := executeCheck_spec check s t nNow c vChecks fOk
      have hpos : (working nNow vChecks fOk').Proper := by
        have := hproper t
        rw [hwork] at this
        exact this
      rw [heq]
      exact proper_update (fun u _ => hproper u) hpos
  · refine Coherent.proceed (htallied.lock hq notified) (hphased.lock t hq hnotified)
      (update_self t _ s.threads) ?_
    exact fun u hu => (congrArg Proper (update_of_ne hu _ s.threads)).mpr (hproper u)

end CheckPool

end Primecoin
