/-
SEQUENTIAL and CIRCUIT_BREAKER mode: the listener delivers a record in place.

`deliverInPlace` calls `process` (the statements of the partner service, on its database) until
it returns, and acknowledges the record then. An exception of `process`, an open circuit among
them, starts another round. An exception that leaves the listener leaves its position where it
was, and the record is read again.

* `ListenPc`: `receive` and the loop of `deliverInPlace`.
* `Act`: the environment fails a statement, hands a partition to another consumer, or ends a
  process anywhere.
* `listener`: the system, with the completion relay and the environment of the partner service
  beside it.
-/
import OrderSystem.Partner.Admission
import OrderSystem.Partner.Workers

namespace OrderSystem.InPlace

open Partner (DeliveryTask)

/-- `PartnerSettings`, as far as the delivery reads them. -/
structure Settings where
  owner : String
  retainedLimit : ℕ
  reports : Bool

/-- The partner service with its database and the main topic, and the committed offsets. -/
structure Store where
  partner : Partner.Store := {}
  committed : ℕ → ℕ := fun _ => 0

/-- `ack.acknowledge()`: the offset behind the record is committed. -/
def Store.commit (s : Store) (q n : ℕ) : Store :=
  { s with committed := Function.update s.committed q n }

/-! ### Local states -/

/-- The record a listener call is about: the positions of the consumer, and the task. -/
structure Reading where
  positions : List (ℕ × ℕ)
  task : DeliveryTask
  deriving DecidableEq, Repr

/-- The next step of a listener call: `validate()`, and from `attempting` on the loop of
`deliverInPlace`. -/
inductive ListenPc where
  | received
  | attempting
  | processing (process : Partner.Proc)
  | sleeping
  | acknowledge
  deriving DecidableEq, Repr

/-- The local state of a process: other work of the partner service, a consumer between two
records, or a listener call. -/
inductive Proc where
  | service (process : Partner.Proc)
  | consuming (positions : List (ℕ × ℕ))
  | listening (reading : Reading) (pc : ListenPc)
  deriving DecidableEq, Repr

/-- The choices of the environment. `go` runs the next step with the clock of the JVM, `throw`
lets it fail. -/
inductive Act where
  | service (act : Partner.Act)
  | listen
  | assign (partition : ℕ)
  | revoke (partition : ℕ)
  | take (partition : ℕ)
  | go (jvm : ℤ)
  | throw
  | abort
  deriving DecidableEq, Repr

/-! ### The listener -/

section Listener

variable (cfg : Settings)

/-- The delivery of a task: `processor.process(task)`. -/
def Reading.job (r : Reading) : Partner.ProcessJob where
  event := r.task.event
  claim := none
  owner := cfg.owner
  attempts := r.task.attempts
  inboxMode := false
  reports := cfg.reports
  finishedLimit := cfg.retainedLimit

/-- The next statement of `process`; an exception ends the round. -/
def processStep (t : ℕ) (s : Store) (r : Reading) (p : Partner.Proc) (jvm : ℤ) :
    Option (Store × Proc) :=
  (Partner.next t s.partner p (.go jvm)).map fun x =>
    let s' := { s with partner := x.1 }
    match p, x.2 with
    | .delivering _ .returned, _ => (s', .listening r .acknowledge)
    | _, .idle => (s', .listening r .sleeping)
    | .delivering _ .submit, p' =>
        (s', .listening { r with task := r.task.markHttpAttempt } (.processing p'))
    | _, p' => (s', .listening r (.processing p'))

/-- The next step of a listener call. -/
def listenNext (t : ℕ) (s : Store) (r : Reading) (jvm : ℤ) : ListenPc → Option (Store × Proc)
  | .received =>
      -- an event that does not pass `validate` fails the listener call
      if r.task.event.valid then some (s, .listening r .attempting)
      else some (s, .consuming r.positions)
  | .attempting =>
      let r := { r with task := r.task.nextAttempt }
      some (s, .listening r (.processing (Partner.begin (.process (r.job cfg)))))
  | .processing p => processStep t s r p jvm
  | .sleeping => some (s, .listening r .attempting)
  | .acknowledge =>
      let next := (r.task.partition, r.task.offset + 1)
      some (s.commit next.1 next.2, .consuming (next :: r.positions))

/-- The next step of a listener call fails. The loop catches what `process` throws; an
interrupted sleep and a failed commit leave the listener. -/
def listenThrow (t : ℕ) (s : Store) (r : Reading) : ListenPc → Store × Proc
  | .processing _ => ({ s with partner := s.partner.unlock t }, .listening r .sleeping)
  | _ => (s, .consuming r.positions)

/-! ### The system -/

/-- Other work of the partner service in these modes: the completion relay and the environment
of the service. -/
def background : Partner.Act → Bool
  | .start (.relay _) => true
  | .start _ => false
  | _ => true

/-- The record at the position of a consumer. -/
def readingOf (s : Store) (positions : List (ℕ × ℕ)) (q n : ℕ) : Option Reading :=
  ((s.partner.topic q)[n]?).map fun e =>
    ⟨positions, { event := e, partition := q, offset := n }⟩

/-- One step of process `t`. -/
def next (t : ℕ) (s : Store) : Proc → Act → Option (Store × Proc)
  | _, .abort => some ({ s with partner := s.partner.unlock t }, .service .idle)
  | .service .idle, .listen => some (s, .consuming [])
  | .service p, .service a =>
      if background a then
        (Partner.next t s.partner p a).map fun x => ({ s with partner := x.1 }, .service x.2)
      else none
  | .consuming positions, .assign q => some (s, .consuming ((q, s.committed q) :: positions))
  | .consuming positions, .revoke q =>
      some (s, .consuming (positions.filter fun x => x.1 ≠ q))
  | .consuming positions, .take q =>
      (positions.lookup q).bind fun n =>
        (readingOf s positions q n).map fun r => (s, .listening r .received)
  | .listening r pc, .go jvm => listenNext cfg t s r jvm pc
  | .listening r pc, .throw => some (listenThrow t s r pc)
  | _, _ => none

/-- The partner service with its in-place listener. -/
def listener : Interleaving.Program Store Proc Act := ⟨next cfg⟩

end Listener

/-- Empty tables and topics, no process running. -/
def initial : Interleaving.Config Store Proc := ⟨{}, fun _ => .service .idle⟩

end OrderSystem.InPlace
