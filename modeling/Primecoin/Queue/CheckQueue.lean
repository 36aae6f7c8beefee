import Mathlib.Tactic

/-!
# The check queue

The master adds the checks of a batch to a `CCheckQueue` and then joins the workers in `Loop`
until all of them are done.

Every thread works on the shared fields under one mutex, so a critical section is one event and
the checks run between two of them. A thread that waits may wake up at any time. For the master
the signal counts, since nobody else returns from `Wait`.

The counters are naturals: `nTodo` never exceeds the checks of a batch. Nothing sets `fQuit`.
-/

open Function

namespace Primecoin

/-- The back of the vector `queue` is the head of the list. -/
structure CCheckQueue (T : Type*) where
  queue : List T
  nIdle : ℕ
  nTotal : ℕ
  fAllOk : Bool
  nTodo : ℕ
  fQuit : Bool
  nBatchSize : ℕ

/-- Before `Loop`, where the master may hold a control and add checks, in it, or back from it. A
thread at work took `nNow` checks, of which `vChecks` are left. -/
inductive LoopState (T : Type*)
  | outside
  | adding
  | locked
  | waiting
  | working (nNow : ℕ) (vChecks : List T) (fOk : Bool)
  | returned (fRet : Bool)
  deriving DecidableEq

namespace CCheckQueue

variable {T : Type*}

def new (nBatchSize : ℕ) : CCheckQueue T where
  queue := []
  nIdle := 0
  nTotal := 0
  fAllOk := true
  nTodo := 0
  fQuit := false
  nBatchSize := nBatchSize

variable (q : CCheckQueue T)

def add (vChecks : List T) : CCheckQueue T :=
  { q with queue := vChecks.reverse ++ q.queue, nTodo := q.nTodo + vChecks.length }

def enter : CCheckQueue T := { q with nTotal := q.nTotal + 1 }

def wakeUp : CCheckQueue T := { q with nIdle := q.nIdle - 1 }

def cleanUp (nNow : ℕ) (fOk : Bool) : CCheckQueue T :=
  { q with fAllOk := q.fAllOk && fOk, nTodo := q.nTodo - nNow }

def batchLength : ℕ :=
  max 1 (min q.nBatchSize (q.queue.length / (q.nTotal + q.nIdle + 1)))

/-- One turn of `while (queue.empty())`, or what follows it: the thread returns, waits or takes a
batch. -/
def proceed (fMaster : Bool) : CCheckQueue T × LoopState T :=
  if q.queue.isEmpty then
    if (fMaster || q.fQuit) && q.nTodo == 0 then
      ({ q with nTotal := q.nTotal - 1, fAllOk := fMaster || q.fAllOk }, .returned q.fAllOk)
    else ({ q with nIdle := q.nIdle + 1 }, .waiting)
  else
    let nNow := q.batchLength
    ({ q with queue := q.queue.drop nNow }, .working nNow (q.queue.take nNow) q.fAllOk)

/-- What `CCheckQueueControl` asserts. It takes no lock; here it reads the fields between two
critical sections. -/
def Unused : Prop := q.nTotal = q.nIdle ∧ q.nTodo = 0 ∧ q.fAllOk = true

end CCheckQueue

/-- The checks added, and of these the ones that have been run and those passed over. -/
structure Batch (T : Type*) where
  added : Multiset T
  ran : Multiset T
  skipped : Multiset T

/-- The queue with its threads, `none` being the master. `notified` says that `condMaster` has
been signalled since the master began to wait. The checks of the open batch and of the last one
waited for are kept as history. -/
structure CheckPool (ι T : Type*) where
  shared : CCheckQueue T
  threads : Option ι → LoopState T
  notified : Bool
  batch : Batch T
  finished : Batch T

inductive CheckEvent (ι T : Type*)
  | control
  | add (vChecks : List T)
  | start (t : Option ι)
  | execute (t : Option ι)
  | cleanUp (t : Option ι)
  | wake (t : Option ι)

namespace CheckPool

variable {ι T : Type*} [DecidableEq ι]

def new (nBatchSize : ℕ) : CheckPool ι T where
  shared := .new nBatchSize
  threads _ := .outside
  notified := false
  batch := ⟨0, 0, 0⟩
  finished := ⟨0, 0, 0⟩

variable (s : CheckPool ι T) (t : Option ι)

def lock (q : CCheckQueue T) : CheckPool ι T :=
  { s with shared := q, threads := update s.threads t .locked }

def closeBatch : CheckPool ι T :=
  match s.threads none with
  | .returned _ => { s with batch := ⟨0, 0, 0⟩, finished := s.batch }
  | _ => s

def proceed : CheckPool ι T :=
  let s' := { s with
    shared := (s.shared.proceed t.isNone).1
    threads := update s.threads t (s.shared.proceed t.isNone).2
    notified := s.notified && t.isSome }
  if t.isNone then s'.closeBatch else s'

def notifyMaster : CheckPool ι T :=
  { s with notified := s.notified || (s.shared.nTodo == 0 && t.isSome) }

/-- One check of the batch of a thread, run only as long as none has failed. -/
def executeCheck (check : T → Bool) (s : CheckPool ι T) (t : Option ι) (nNow : ℕ) (c : T)
    (vChecks : List T) (fOk : Bool) : CheckPool ι T :=
  if fOk then
    { s with
      threads := update s.threads t (.working nNow vChecks (check c))
      batch := { s.batch with ran := c ::ₘ s.batch.ran } }
  else
    { s with
      threads := update s.threads t (.working nNow vChecks fOk)
      batch := { s.batch with skipped := c ::ₘ s.batch.skipped } }

def step (check : T → Bool) (s : CheckPool ι T) : CheckEvent ι T → Option (CheckPool ι T)
  | .control =>
    match s.threads none with
    | .outside | .returned _ => some { s with threads := update s.threads none .adding }
    | _ => none
  | .add vChecks =>
    match s.threads none with
    | .adding =>
      some { s with
        shared := s.shared.add vChecks
        batch := { s.batch with added := s.batch.added + vChecks } }
    | _ => none
  | .start t =>
    match t, s.threads t with
    | none, .adding | some _, .outside =>
      some ((s.lock t s.shared.enter).proceed t)
    | _, _ => none
  | .execute t =>
    match s.threads t with
    | .working nNow (c :: vChecks) fOk => some (s.executeCheck check t nNow c vChecks fOk)
    | _ => none
  | .cleanUp t =>
    match s.threads t with
    | .working nNow [] fOk =>
      some (((s.lock t (s.shared.cleanUp nNow fOk)).notifyMaster t).proceed t)
    | _ => none
  | .wake t =>
    match s.threads t with
    | .waiting => some ((s.lock t s.shared.wakeUp).proceed t)
    | _ => none

def signalled : CheckEvent ι T → Bool
  | .execute _ | .cleanUp _ => true
  | .wake none => s.notified
  | _ => false

end CheckPool

end Primecoin
