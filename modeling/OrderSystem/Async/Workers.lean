/-
ASYNC mode: the pending queue of an instance, its dispatcher and its workers.

A consumer thread adds the records it receives and revokes partitions. A dispatch pass takes
the heads of the queue once and offers them to `AdmissionPolicy` one by one; an admitted task
is handed to the executor. A worker delivers a task by `process` (the statements of the
partner service, on its database), acknowledges it when its assignment is still current, and
takes it from the queue. Every method of the queue and of the policy is one step.

* `AsyncTask`: a task object of the queue; copies of one record are different objects.
* `AsyncPendingQueue`: `add`, `heads`, `completed`, `isCurrent`, `revoke`.
* `Store`: `pass` is what a dispatch pass has left of its snapshot, `active` the admitted
  tasks and where they are. `trace` are the lines of the tracer these results speak of.
* `RunPc`: `WorkerDispatcher.run`.
* `async`: the system, with any other work on the database beside it.
-/
import OrderSystem.Foundations.KeyedQueues
import OrderSystem.Partner.Admission

namespace OrderSystem.Async

open KeyedQueues (Queues)
open Partner (PartnerTask DeliveryTask AdmissionPolicy)

/-! ### The queue -/

/-- A `PartnerTask` in the queue: the object is named by `id`, and `epoch` is the generation
of its partition when it was added. -/
structure AsyncTask extends PartnerTask where
  id : ℕ
  epoch : ℕ
  deriving DecidableEq, Repr

/-- `key()`: the order of the task. -/
def AsyncTask.key (x : AsyncTask) : String := x.event.key

/-- `AsyncPendingQueue`. -/
structure AsyncPendingQueue where
  pending : Queues String AsyncTask := []
  generations : ℕ → ℕ := fun _ => 0

namespace AsyncPendingQueue

/-- The queued tasks of an order. -/
def queue (q : AsyncPendingQueue) (key : String) : List AsyncTask :=
  KeyedQueues.queue key q.pending

/-- The object `add(task)` queues. -/
def stamp (q : AsyncPendingQueue) (id : ℕ) (task : PartnerTask) : AsyncTask :=
  { task with id := id, epoch := q.generations task.partition }

/-- `add(task)`, once the task has its epoch. -/
def add (q : AsyncPendingQueue) (x : AsyncTask) : AsyncPendingQueue :=
  { q with pending := KeyedQueues.add AsyncTask.key x q.pending }

/-- `heads()`. -/
def heads (q : AsyncPendingQueue) : List AsyncTask := KeyedQueues.heads q.pending

/-- `completed(task)`. -/
def completed (q : AsyncPendingQueue) (x : AsyncTask) : AsyncPendingQueue :=
  { q with pending := KeyedQueues.removeHead AsyncTask.key x q.pending }

/-- `isCurrent(task)`. -/
def isCurrent (q : AsyncPendingQueue) (x : AsyncTask) : Bool :=
  x.epoch == q.generations x.partition

/-- `revoke(partitions)`. -/
def revoke (q : AsyncPendingQueue) (partitions : List ℕ) : AsyncPendingQueue where
  pending := KeyedQueues.removeIf (fun x => x.partition ∈ partitions) q.pending
  generations := fun p => q.generations p + partitions.count p

end AsyncPendingQueue

/-! ### The store -/

/-- `PartnerSettings`, as far as this mode reads them. -/
structure Settings where
  owner : String
  workers : ℤ
  sellerConcurrency : ℤ
  retryBudget : ℕ
  retryWindowMs : ℤ
  retainedLimit : ℕ
  retryDelayMs : ℤ
  reports : Bool

/-- Where an admitted task is: with the dispatcher, in the queue of the executor, or on a
thread. -/
inductive Place where
  | submitting
  | queued
  | thread (t : ℕ)
  deriving DecidableEq, Repr

/-- The lines of the trace: a record was added, partitions were revoked, a task was
admitted (as a retry or not) and executed, its acknowledgement was sent, its run succeeded,
its run ended after it succeeded. -/
inductive Line where
  | added (x : AsyncTask)
  | revoked (partitions : List ℕ)
  | admitted (x : AsyncTask) (retry : Bool)
  | executed (x : AsyncTask)
  | acknowledged (x : AsyncTask)
  | succeeded (x : AsyncTask)
  | ended (x : AsyncTask)
  deriving DecidableEq, Repr

/-- The partner service on its database, and the memory of the instance. The counter
`attempts` and the time `nextAt` of a task object are found under its id. -/
structure Store where
  partner : Partner.Store := {}
  queue : AsyncPendingQueue := {}
  admission : AdmissionPolicy
  attempts : ℕ → ℕ := fun _ => 0
  nextAt : ℕ → ℤ := fun _ => 0
  nextTask : ℕ := 0
  pass : List AsyncTask := []
  active : List (AsyncTask × Place) := []
  trace : List Line := []

namespace Store

/-- The task as `AdmissionPolicy` sees it. -/
def task (s : Store) (x : AsyncTask) : DeliveryTask :=
  { x.toPartnerTask with attempts := s.attempts x.id, nextAt := s.nextAt x.id }

def log (s : Store) (lines : List Line) : Store :=
  { s with trace := s.trace ++ lines }

/-- `task.nextAttempt()`. -/
def nextAttempt (s : Store) (x : AsyncTask) : Store :=
  { s with attempts := Function.update s.attempts x.id (s.attempts x.id + 1) }

/-- `task.nextAt(now + retryDelayMs)`. -/
def delay (s : Store) (x : AsyncTask) (time : ℤ) : Store :=
  { s with nextAt := Function.update s.nextAt x.id time }

/-- `admission.release(task)`; the task is not active any more. -/
def release (s : Store) (x : AsyncTask) (place : Place) : Store :=
  { s with admission := s.admission.release (s.task x)
           active := s.active.filter (· ≠ (x, place)) }

/-- The task goes from one place to another. -/
def move (s : Store) (x : AsyncTask) (src dst : Place) : Store :=
  { s with active := s.active.map fun e => if e = (x, src) then (x, dst) else e }

end Store

/-! ### Local states -/

/-- The next step of `run(task)`. In the `finally` block `success` says that the `try` block
was left normally. -/
inductive RunPc where
  | started
  | processing (process : Partner.Proc)
  | checking
  | acknowledging
  | completing
  | releasing (success : Bool)
  deriving DecidableEq, Repr

/-- A process: other work on the database or a free thread, or a worker with its task. -/
inductive Proc where
  | service (process : Partner.Proc)
  | running (x : AsyncTask) (pc : RunPc)
  deriving DecidableEq, Repr

/-- The choices of the environment. `go` runs the next step with the clock of the JVM,
`throw` lets it fail. -/
inductive Act where
  | service (act : Partner.Act)
  | add (task : PartnerTask)
  | revoke (partitions : List ℕ)
  | dispatch
  | tryAdmit (now : ℤ)
  | execute (rejected : Bool)
  | take (x : AsyncTask)
  | go (jvm : ℤ)
  | throw (jvm : ℤ)
  deriving DecidableEq, Repr

/-! ### The dispatcher -/

/-- The admitted task that is about to be handed to the executor. -/
def Store.submitting (s : Store) : Option AsyncTask :=
  (s.active.find? fun e => e.2 = Place.submitting).map Prod.fst

/-- `dispatchAsync` takes its snapshot; `dispatch` is synchronized. -/
def dispatch (s : Store) : Option Store :=
  if s.pass = [] ∧ s.submitting = none then some { s with pass := s.queue.heads } else none

/-- The next task of the snapshot: `admission.tryAdmit(task)`. -/
def tryAdmit (s : Store) (now : ℤ) : Option Store :=
  match s.pass, s.submitting with
  | x :: rest, none =>
      let decision := s.admission.tryAdmit (s.task x) true now
      let s := { s with admission := decision.2, pass := rest }
      if decision.1.admitted then
        some ({ s with active := s.active ++ [(x, Place.submitting)] }.log
          [.admitted x decision.1.retry])
      else some s
  | _, _ => none

/-- `executor.execute(() -> run(task))`. -/
def execute (s : Store) (rejected : Bool) : Option Store :=
  s.submitting.map fun x =>
    if rejected then s.release x .submitting
    else (s.move x .submitting .queued).log [.executed x]

/-! ### The workers -/

section Workers

variable (cfg : Settings)

/-- The delivery of a task: `processor.process(task)`. -/
def job (s : Store) (x : AsyncTask) : Partner.ProcessJob where
  event := x.event
  claim := none
  owner := cfg.owner
  attempts := s.attempts x.id
  inboxMode := false
  reports := cfg.reports
  finishedLimit := cfg.retainedLimit

/-- The `catch` block. -/
def failed (s : Store) (x : AsyncTask) (jvm : ℤ) : Store × Proc :=
  (s.delay x (jvm + cfg.retryDelayMs), .running x (.releasing false))

/-- The next statement of `process`. -/
def processStep (t : ℕ) (s : Store) (x : AsyncTask) (p : Partner.Proc) (jvm : ℤ) :
    Option (Store × Proc) :=
  (Partner.next t s.partner p (.go jvm)).map fun r =>
    let s' := { s with partner := r.1 }
    match p, r.2 with
    | .delivering _ .returned, _ => (s', .running x .checking)
    | _, .idle => failed cfg s' x jvm
    | _, p' => (s', .running x (.processing p'))

/-- The next step of `run`. -/
def runNext (t : ℕ) (s : Store) (x : AsyncTask) (jvm : ℤ) : RunPc → Option (Store × Proc)
  | .started =>
      let s := s.nextAttempt x
      some (s, .running x (.processing (Partner.begin (.process (job cfg s x)))))
  | .processing p => processStep cfg t s x p jvm
  | .checking =>
      some (s, .running x (if s.queue.isCurrent x then .acknowledging else .completing))
  | .acknowledging => some (s.log [.acknowledged x], .running x .completing)
  | .completing =>
      some ({ s with queue := s.queue.completed x }.log [.succeeded x],
        .running x (.releasing true))
  | .releasing success =>
      some ((s.release x (.thread t)).log (if success then [.ended x] else []), .service .idle)

/-- The next step of `run` throws. -/
def runThrow (t : ℕ) (s : Store) (x : AsyncTask) (jvm : ℤ) : RunPc → Option (Store × Proc)
  | .processing _ => some (failed cfg { s with partner := s.partner.unlock t } x jvm)
  | .checking | .acknowledging => some (failed cfg s x jvm)
  | _ => none

/-! ### The system -/

/-- A task the executor has accepted starts on a free thread. -/
def take (t : ℕ) (s : Store) (x : AsyncTask) : Option (Store × Proc) :=
  if (x, .queued) ∈ s.active then
    some (s.move x .queued (.thread t), .running x .started)
  else none

/-- A record is added: the next object. -/
def addTask (s : Store) (task : PartnerTask) : Store :=
  let x := s.queue.stamp s.nextTask task
  { s with queue := s.queue.add x, nextTask := s.nextTask + 1 }.log [.added x]

/-- Partitions are revoked. -/
def revoke (s : Store) (partitions : List ℕ) : Store :=
  { s with queue := s.queue.revoke partitions }.log [.revoked partitions]

/-- One step of process `t`. -/
def next (t : ℕ) (s : Store) : Proc → Act → Option (Store × Proc)
  | .service p, .service a =>
      (Partner.next t s.partner p a).map fun r => ({ s with partner := r.1 }, .service r.2)
  | .service .idle, .add task => some (addTask s task, .service .idle)
  | .service .idle, .revoke partitions => some (revoke s partitions, .service .idle)
  | .service .idle, .dispatch => (dispatch s).map (·, .service .idle)
  | .service .idle, .tryAdmit now => (tryAdmit s now).map (·, .service .idle)
  | .service .idle, .execute rejected => (execute s rejected).map (·, .service .idle)
  | .service .idle, .take x => take t s x
  | .running x pc, .go jvm => runNext cfg t s x jvm pc
  | .running x pc, .throw jvm => runThrow cfg t s x jvm pc
  | _, _ => none

/-- The instance with its database. -/
def async : Interleaving.Program Store Proc Act := ⟨next cfg⟩

/-- Empty tables and an empty queue, no process running. -/
def initial : Interleaving.Config Store Proc :=
  ⟨{ admission :=
      { workers := cfg.workers, sellerConcurrency := cfg.sellerConcurrency
        finishedLimit := cfg.retainedLimit
        retryBudget := { limit := cfg.retryBudget, windowMs := cfg.retryWindowMs } } },
    fun _ => .service .idle⟩

end Workers

/-! ### Runs that show the results at work -/

def sampleSettings : Settings where
  owner := "w"
  workers := 2
  sellerConcurrency := 2
  retryBudget := 3
  retryWindowMs := 1000
  retainedLimit := 10
  retryDelayMs := 0
  reports := false

/-- A record of partition 0. -/
def sampleRecord (eventId : String) (sequence : ℕ) : PartnerTask :=
  ⟨Partner.sampleEvent eventId sequence, 0, sequence - 1⟩

/-- Its task, when it was added before any revocation. -/
def sampleTask (id : ℕ) (eventId : String) (sequence : ℕ) : AsyncTask :=
  { sampleRecord eventId sequence with id := id, epoch := 0 }

/-- The first task of a queue is handed to the executor and taken by process `t`. -/
def sampleTake (t : ℕ) (x : AsyncTask) : List (ℕ × Act) :=
  [(1, .dispatch), (1, .tryAdmit 0), (1, .execute false), (t, .take x)]

/-- The first `n` steps of a run behind the answer of the partner. -/
def sampleDelivery (t : ℕ) (x : AsyncTask) (n : ℕ) : List (ℕ × Act) :=
  List.replicate 4 (t, .go 0) ++
    (3, .service (.serve ⟨0, x.event⟩ false false)) :: List.replicate n (t, .go 0)

end OrderSystem.Async
