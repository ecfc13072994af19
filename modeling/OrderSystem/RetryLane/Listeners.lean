/-
The retry lane: the listeners of the main topic and of the retry topic in RETRY_TOPIC and
KAFKA_RETRY modes.

A listener handles one record after the other. It delivers the record by `process` (the
statements of the partner service, on its database) or parks it on the retry topic, and
acknowledges it then. An exception that leaves a listener leaves its position where it
was, and the record is read again.

* `Memory`: `RetryLane` and `AdmissionPolicy` of one instance.
* `ListenPc`: `deliverOrPark` and `deliverAdmittedOrPark` of `PartnerListener`, `receive`
  and `deliverOrParkAgain` of `RetryTopicListener`, with `admitOrPark` and `park`.
* `Act`: the environment fails a delivery (an open circuit, a timeout, an error of the
  database) or a send, appends a record that was sent although its answer is lost, hands a
  partition to another consumer, or ends a process anywhere.
* `lane`: the system.
-/
import OrderSystem.Partner.Admission
import OrderSystem.Partner.Workers

namespace OrderSystem.RetryLane

open Partner (DeliveryTask AdmissionPolicy Admission Reason)

/-! ### Settings -/

/-- The modes for which `usesRetryTopic` holds. -/
inductive Mode where
  | retryTopic
  | kafkaRetry
  deriving DecidableEq, Repr

/-- `PartnerSettings`, as far as the lane reads them. `delayMs` is `RetryBackoff.delayMs`
of an event id and its failures, `partition` the partitioner of the producer, `reports`
says that a completion topic is configured. -/
structure Settings where
  mode : Mode
  workers : ℤ
  sellerConcurrency : ℤ
  retryBudget : ℕ
  retryWindowMs : ℤ
  retainedLimit : ℕ
  retryDelayMs : ℤ
  delayMs : String → ℕ → ℤ
  partition : String → ℕ
  reports : Bool

/-- A record of the retry topic: the event, and the headers with its counters and the time
before which it waits. -/
structure RetryRecord where
  event : PartnerOrderEvent
  attempts : ℕ
  httpAttempts : ℕ
  failures : ℕ
  notBefore : ℤ
  deriving DecidableEq, Repr

/-! ### The store -/

/-- What an instance keeps in memory. `parkedByOrder` holds the pairs of an order key and
the id of an event parked under it. -/
structure Memory where
  admission : AdmissionPolicy
  parkedByOrder : List (String × String) := []

namespace Memory

/-- `hasParked(orderKey)`. -/
def hasParked (m : Memory) (orderKey : String) : Bool :=
  m.parkedByOrder.any fun x => x.1 = orderKey

/-- The bookkeeping of `park`. -/
def parked (m : Memory) (e : PartnerOrderEvent) : Memory :=
  if (e.key, e.eventId) ∈ m.parkedByOrder then m
  else { m with parkedByOrder := m.parkedByOrder ++ [(e.key, e.eventId)] }

/-- `delivered(task)`. -/
def delivered (m : Memory) (e : PartnerOrderEvent) : Memory :=
  { m with parkedByOrder := m.parkedByOrder.filter (· ≠ (e.key, e.eventId)) }

/-- The end of a `try` whose task was admitted: `release(task)`. -/
def releaseIf (m : Memory) (admitted : Bool) (task : DeliveryTask) : Memory :=
  if admitted then { m with admission := m.admission.release task } else m

end Memory

/-- The two listeners. -/
inductive Listener where
  | main
  | retry
  deriving DecidableEq, Repr

/-- Everything the processes share: the partner service with its database and the main
topic, the retry topic, the committed offsets of the two groups, the numbered sends to the
retry topic that are in flight and the acknowledged ones, and the memory of each
instance. -/
structure Store where
  partner : Partner.Store := {}
  retryTopic : ℕ → List RetryRecord := fun _ => []
  committed : Listener → ℕ → ℕ := fun _ _ => 0
  sending : List (ℕ × RetryRecord) := []
  nextSend : ℕ := 0
  acks : List ℕ := []
  memory : String → Memory

namespace Store

def setMemory (s : Store) (owner : String) (m : Memory) : Store :=
  { s with memory := Function.update s.memory owner m }

/-- The broker appends a record to the retry topic. -/
def put (s : Store) (q : ℕ) (r : RetryRecord) : Store :=
  { s with retryTopic := Function.update s.retryTopic q (s.retryTopic q ++ [r]) }

/-- The group of the listener commits an offset. -/
def commit (s : Store) (l : Listener) (q n : ℕ) : Store :=
  { s with committed := Function.update s.committed l (Function.update (s.committed l) q n) }

end Store

/-! ### Local states -/

/-- The record a listener call is about: the consumer with its positions, the partition and
the offset of the record, the task and its `notBefore` header. -/
structure Reading where
  listener : Listener
  owner : String
  positions : List (ℕ × ℕ)
  task : DeliveryTask
  notBefore : ℤ := 0
  deriving DecidableEq, Repr

/-- The next step of a listener call; `admitted` says that the admission of the task has to
be released at the end. -/
inductive ListenPc where
  | received
  | admitting (deadline : ℤ)
  | processing (admitted : Bool) (process : Partner.Proc)
  | publishing (admitted : Bool)
  | awaiting (admitted : Bool) (send : ℕ)
  | acknowledge
  deriving DecidableEq, Repr

/-- The local state of a process: other work of the partner service, a consumer between
two records, or a listener call. -/
inductive Proc where
  | service (process : Partner.Proc)
  | consuming (listener : Listener) (owner : String) (positions : List (ℕ × ℕ))
  | listening (reading : Reading) (pc : ListenPc)
  deriving DecidableEq, Repr

/-- The choices of the environment. `go` runs the next step with the clock of the JVM,
`throw` lets it fail. -/
inductive Act where
  | service (act : Partner.Act)
  | restart (owner : String)
  | listen (listener : Listener) (owner : String)
  | assign (partition : ℕ)
  | revoke (partition : ℕ)
  | take (partition : ℕ)
  | go (jvm : ℤ)
  | throw
  | abort
  | append (send : ℕ) (lost : Bool)
  deriving DecidableEq, Repr

/-! ### The listeners -/

section Listeners

variable (cfg : Settings)

/-- The delivery of a task: `processor.process(task)`. -/
def Reading.job (r : Reading) : Partner.ProcessJob where
  event := r.task.event
  claim := none
  owner := r.owner
  attempts := r.task.attempts
  inboxMode := false
  reports := cfg.reports
  finishedLimit := cfg.retainedLimit

/-- The listener calls `process`. -/
def deliver (s : Store) (r : Reading) (admitted : Bool) : Store × Proc :=
  (s, .listening r (.processing admitted (Partner.begin (.process (r.job cfg)))))

/-- The record that `park` publishes. -/
def parkedRecord (task : DeliveryTask) (jvm : ℤ) : RetryRecord :=
  let delay := match cfg.mode with
    | .retryTopic => cfg.retryDelayMs
    | .kafkaRetry => cfg.delayMs task.event.eventId task.failures
  ⟨task.event, task.attempts, task.httpAttempts, task.failures, jvm + delay⟩

/-- The start of `deliverOrPark` or `deliverAdmittedOrPark`, behind `validate()`. -/
def receiveMain (s : Store) (r : Reading) (jvm : ℤ) : Store × Proc :=
  if (s.memory r.owner).hasParked r.task.event.key then (s, .listening r (.publishing false))
  else match cfg.mode with
    | .retryTopic => deliver cfg s { r with task := r.task.nextAttempt } false
    | .kafkaRetry => (s, .listening r (.admitting (jvm + 30000)))

/-- The start of `RetryTopicListener.receive`, behind the wait. -/
def receiveRetry (s : Store) (r : Reading) (jvm : ℤ) : Store × Proc :=
  match cfg.mode with
  | .retryTopic => deliver cfg s { r with task := r.task.nextAttempt } false
  | .kafkaRetry =>
      -- a retry is an admission after a partner call may have started for this event
      let task := { r.task with attempts := r.task.httpAttempts }
      (s, .listening { r with task := task } (.admitting (jvm + 30000)))

/-- One round of the loop of `admitOrPark`. -/
def admitOrPark (s : Store) (r : Reading) (deadline jvm : ℤ) : Store × Proc :=
  let m := s.memory r.owner
  let decision := m.admission.tryAdmit r.task true jvm
  let s := s.setMemory r.owner { m with admission := decision.2 }
  if decision.1.admitted then deliver cfg s r true
  else if decision.1.reason = .sellerFull ∨ decision.1.reason = .retryBudget ∨ deadline < jvm then
    (s, .listening r (.publishing false))
  else (s, .listening r (.admitting deadline))

/-- `process` has returned. -/
def delivered (s : Store) (r : Reading) (admitted : Bool) : Store × Proc :=
  let m := s.memory r.owner
  let m := match r.listener with
    | .main => m
    | .retry => m.delivered r.task.event
  (s.setMemory r.owner (m.releaseIf admitted r.task), .listening r .acknowledge)

/-- The next statement of `process`; an exception parks the task. -/
def processStep (t : ℕ) (s : Store) (r : Reading) (admitted : Bool) (p : Partner.Proc)
    (jvm : ℤ) : Option (Store × Proc) :=
  (Partner.next t s.partner p (.go jvm)).map fun x =>
    let s' := { s with partner := x.1 }
    match p, x.2 with
    | .delivering _ .returned, _ => delivered s' r admitted
    | _, .idle => (s', .listening r (.publishing admitted))
    | .delivering _ .submit, p' =>
        (s', .listening { r with task := r.task.markHttpAttempt } (.processing admitted p'))
    | _, p' => (s', .listening r (.processing admitted p'))

/-- `park` sends the record. -/
def publish (s : Store) (r : Reading) (admitted : Bool) (jvm : ℤ) : Store × Proc :=
  let task := r.task.nextFailure
  ({ s with sending := s.sending ++ [(s.nextSend, parkedRecord cfg task jvm)]
            nextSend := s.nextSend + 1 },
    .listening { r with task := task } (.awaiting admitted s.nextSend))

/-- The next step of a listener call. -/
def listenNext (t : ℕ) (s : Store) (r : Reading) (jvm : ℤ) : ListenPc → Option (Store × Proc)
  | .received =>
      match r.listener with
      | .main =>
          -- an event that does not pass `validate` fails the listener call
          if r.task.event.valid then some (receiveMain cfg s r jvm)
          else some (s, .consuming r.listener r.owner r.positions)
      | .retry => if r.notBefore ≤ jvm then some (receiveRetry cfg s r jvm) else none
  | .admitting deadline => some (admitOrPark cfg s r deadline jvm)
  | .processing admitted p => processStep t s r admitted p jvm
  | .publishing admitted => some (publish cfg s r admitted jvm)
  | .awaiting admitted n =>
      if n ∈ s.acks then
        let m := (s.memory r.owner).parked r.task.event
        some (s.setMemory r.owner (m.releaseIf admitted r.task), .listening r .acknowledge)
      else none
  | .acknowledge =>
      let next := (r.task.partition, r.task.offset + 1)
      some (s.commit r.listener next.1 next.2,
        .consuming r.listener r.owner (next :: r.positions))

/-- The next step of a listener call fails. An exception of `process` parks the task;
every other one leaves the listener, and the record is read again. -/
def listenThrow (t : ℕ) (s : Store) (r : Reading) : ListenPc → Store × Proc
  | .processing admitted _ =>
      ({ s with partner := s.partner.unlock t }, .listening r (.publishing admitted))
  | .publishing admitted | .awaiting admitted _ =>
      (s.setMemory r.owner ((s.memory r.owner).releaseIf admitted r.task),
        .consuming r.listener r.owner r.positions)
  | _ => (s, .consuming r.listener r.owner r.positions)

/-! ### The system -/

/-- Other work of the partner service in these modes: the completion relay and the
environment of the service. -/
def background : Partner.Act → Bool
  | .start (.relay _) => true
  | .start _ | .restart _ => false
  | _ => true

/-- The record at the position of a consumer. -/
def readingOf (s : Store) (l : Listener) (owner : String) (positions : List (ℕ × ℕ)) (q n : ℕ) :
    Option Reading :=
  match l with
  | .main => ((s.partner.topic q)[n]?).map fun e =>
      ⟨.main, owner, positions, { event := e, partition := q, offset := n }, 0⟩
  | .retry => ((s.retryTopic q)[n]?).map fun r =>
      ⟨.retry, owner, positions,
        { event := r.event, partition := q, offset := n, attempts := r.attempts
          httpAttempts := r.httpAttempts, failures := r.failures }, r.notBefore⟩

/-- A send that is in flight reaches the retry topic, in the partition of its key. -/
def append (s : Store) (n : ℕ) (lost : Bool) : Option Store :=
  (s.sending.lookup n).map fun r =>
    { s.put (cfg.partition r.event.key) r with
      sending := s.sending.filter fun x => x.1 ≠ n
      acks := if lost then s.acks else s.acks ++ [n] }

/-- A new instance. -/
def newMemory : Memory where
  admission :=
    { workers := cfg.workers, sellerConcurrency := cfg.sellerConcurrency
      finishedLimit := cfg.retainedLimit
      retryBudget := { limit := cfg.retryBudget, windowMs := cfg.retryWindowMs } }

/-- An instance loses its memory. -/
def restart (s : Store) (owner : String) : Store :=
  { s.setMemory owner (newMemory cfg) with partner := s.partner.restart owner }

/-- One step of process `t`. -/
def next (t : ℕ) (s : Store) : Proc → Act → Option (Store × Proc)
  | _, .abort => some ({ s with partner := s.partner.unlock t }, .service .idle)
  | .service .idle, .listen l owner => some (s, .consuming l owner [])
  | .service .idle, .restart owner => some (restart cfg s owner, .service .idle)
  | .service .idle, .append n lost => (append cfg s n lost).map (·, .service .idle)
  | .service p, .service a =>
      if background a then
        (Partner.next t s.partner p a).map fun x => ({ s with partner := x.1 }, .service x.2)
      else none
  | .consuming l owner positions, .assign q =>
      some (s, .consuming l owner ((q, s.committed l q) :: positions))
  | .consuming l owner positions, .revoke q =>
      some (s, .consuming l owner (positions.filter fun x => x.1 ≠ q))
  | .consuming l owner positions, .take q =>
      (positions.lookup q).bind fun n =>
        (readingOf s l owner positions q n).map fun r => (s, .listening r .received)
  | .listening r pc, .go jvm => listenNext cfg t s r jvm pc
  | .listening r pc, .throw => some (listenThrow t s r pc)
  | _, _ => none

/-- The partner service with its retry lane. -/
def lane : Interleaving.Program Store Proc Act := ⟨next cfg⟩

/-- Empty tables and topics, no process running. -/
def initial : Interleaving.Config Store Proc :=
  ⟨{ memory := fun _ => newMemory cfg }, fun _ => .service .idle⟩

end Listeners

end OrderSystem.RetryLane
