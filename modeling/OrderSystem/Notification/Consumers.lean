/-
The notifications of the stock results: `NotificationConsumer` as consumers of one group.

* `Store`: the topic, the owners of the partitions and the committed offsets of the group, the
  history, what was sent, and the dead letters. `undone` lists the events whose transaction ended
  without a commit behind its send.
* `Pc`, `listenNext`: `notify`, from `existsByEventId` to the commit of its transaction.
* `listenThrow`: `DefaultErrorHandler` with `FixedBackOff(1000, 3)`. The record is read again, and
  behind the third retry it is published to the dead letter topic (`recover`).
* `Act`: the records are published at any time, partitions are assigned and revoked, offsets are
  committed, a step may `throw`, and a consumer may die anywhere (`abort`). `expire` takes a
  partition from a consumer that does not know it.
* `partition` is where a record is published.
-/
import OrderSystem.Common.Events
import OrderSystem.Foundations.Consumer
import OrderSystem.Foundations.Interleaving

namespace OrderSystem.Notices

/-! ### The store -/

/-- `NotificationHistory.Type`. -/
inductive NotificationType where
  | orderConfirmed
  | orderCancelled
  deriving DecidableEq, Repr

/-- A row of `notification_history`; its event id is not unique in the table. -/
structure NotificationHistory where
  eventId : String
  orderId : ℤ
  type : NotificationType
  deriving DecidableEq, Repr

/-- A notification that was sent, with the event it is for. -/
structure Notice where
  eventId : String
  orderId : ℤ
  type : NotificationType
  reason : Option String
  deriving DecidableEq, Repr

/-- The notification of `onOrderConfirmed` or `onOrderCancelled`. -/
def Notice.of (event : StockEvent) : Notice where
  eventId := event.eventId
  orderId := event.orderId
  type := match event.result with
    | .updated => .orderConfirmed
    | .failed _ => .orderCancelled
  reason := match event.result with
    | .updated => none
    | .failed reason => some reason

/-- The row `notify` saves. -/
def Notice.row (m : Notice) : NotificationHistory :=
  ⟨m.eventId, m.orderId, m.type⟩

/-- Everything the consumers share. -/
structure Store where
  topic : ℕ → List StockEvent := fun _ => []
  owner : ℕ → Option ℕ := fun _ => none
  committed : ℕ → ℕ := fun _ => 0
  history : List NotificationHistory := []
  sent : List Notice := []
  deadLetters : List StockEvent := []
  undone : List String := []

namespace Store

/-- `existsByEventId`. -/
def existsByEventId (s : Store) (eventId : String) : Prop :=
  ∃ h ∈ s.history, h.eventId = eventId

instance (s : Store) (eventId : String) : Decidable (s.existsByEventId eventId) :=
  inferInstanceAs (Decidable (∃ h ∈ s.history, h.eventId = eventId))

/-- A record is appended to partition `q`. -/
def publish (s : Store) (q : ℕ) (event : StockEvent) : Store :=
  { s with topic := Function.update s.topic q (s.topic q ++ [event]) }

/-- Partition `q` gets another owner, or none. -/
def assign (s : Store) (q : ℕ) (t : Option ℕ) : Store :=
  { s with owner := Function.update s.owner q t }

/-- Process `t` leaves the group. -/
def leave (s : Store) (t : ℕ) : Store :=
  { s with owner := fun q => if s.owner q = some t then none else s.owner q }

end Store

/-! ### The consumers -/

/-- The positions of a consumer, and how often the record at an offset failed, by partition. -/
structure Consumer where
  positions : List (ℕ × ℕ) := []
  failures : List (ℕ × ℕ × ℕ) := []
  deriving DecidableEq, Repr

/-- The record a listener call is about. -/
structure Reading where
  consumer : Consumer
  partition : ℕ
  offset : ℕ
  event : StockEvent
  deriving DecidableEq, Repr

/-- The next statement of a listener call. -/
inductive Pc where
  | existsByEventId
  | send
  | save
  | commit
  | recover
  deriving DecidableEq, Repr

/-- The local state of a process. -/
inductive Proc where
  | idle
  | consuming (consumer : Consumer)
  | listening (reading : Reading) (pc : Pc)
  deriving DecidableEq, Repr

/-- The choices of the environment. -/
inductive Act where
  | publish (event : StockEvent)
  | expire (partition : ℕ)
  | listen
  | assign (partition : ℕ)
  | revoke (partition : ℕ)
  | commit (partition : ℕ)
  | take (partition : ℕ)
  | go
  | throw
  | abort
  deriving DecidableEq, Repr

namespace Reading

/-- The consumer behind the record. -/
def advance (r : Reading) : Consumer :=
  { r.consumer with positions := (r.partition, r.offset + 1) :: r.consumer.positions }

/-- The failures of the record so far. -/
def failures (r : Reading) : ℕ :=
  match r.consumer.failures.lookup r.partition with
  | some (offset, n) => if offset = r.offset then n else 0
  | none => 0

/-- The consumer with one more failure of the record. -/
def failed (r : Reading) : Consumer :=
  { r.consumer with
    failures := (r.partition, r.offset, r.failures + 1) ::
      r.consumer.failures.filter fun x => x.1 ≠ r.partition }

/-- The failures of the partition are forgotten. -/
def reset (r : Reading) : Consumer :=
  { r.consumer with failures := r.consumer.failures.filter fun x => x.1 ≠ r.partition }

end Reading

/-- The transaction of a process ends without a commit. -/
def Store.rollback (s : Store) : Proc → Store
  | .listening r .save | .listening r .commit => { s with undone := s.undone ++ [r.event.eventId] }
  | _ => s

/-- The statement `pc` of a listener call. -/
def listenNext (idempotencyEnabled : Bool) (s : Store) (r : Reading) : Pc → Store × Proc
  | .existsByEventId =>
      if idempotencyEnabled = true ∧ s.existsByEventId r.event.eventId then
        (s, .consuming r.advance)
      else (s, .listening r .send)
  | .send => ({ s with sent := s.sent ++ [.of r.event] }, .listening r .save)
  | .save => (s, .listening r .commit)
  | .commit =>
      ({ s with history := s.history ++ [(Notice.of r.event).row] }, .consuming r.advance)
  | .recover =>
      ({ s with deadLetters := s.deadLetters ++ [r.event] },
        .consuming { r.reset with positions := r.advance.positions })

/-- The statement `pc` of a listener call fails. -/
def listenThrow (s : Store) (r : Reading) (pc : Pc) : Store × Proc :=
  match pc with
  -- the record could not be published: its retries start again
  | .recover => (s, .consuming r.reset)
  | pc =>
      if r.failures < 3 then (s.rollback (.listening r pc), .consuming r.failed)
      else (s.rollback (.listening r pc), .listening { r with consumer := r.failed } .recover)

/-- One step of process `t`. -/
def next (idempotencyEnabled : Bool) (partition : StockEvent → ℕ) (t : ℕ) (s : Store) :
    Proc → Act → Option (Store × Proc)
  | p, .publish e => some (s.publish (partition e) e, p)
  | p, .expire q => some (s.assign q none, p)
  | p, .abort => some ((s.rollback p).leave t, .idle)
  | .idle, .listen => some (s, .consuming {})
  | .consuming k, .assign q =>
      if s.owner q = none then
        some (s.assign q (some t),
          .consuming { k with positions := (q, s.committed q) :: k.positions })
      else none
  | .consuming k, .revoke q =>
      some (if s.owner q = some t then s.assign q none else s,
        .consuming { k with positions := k.positions.filter fun x => x.1 ≠ q })
  | .consuming k, .commit q =>
      if s.owner q = some t then
        (k.positions.lookup q).map fun n =>
          ({ s with committed := Function.update s.committed q n }, .consuming k)
      else none
  | .consuming k, .take q =>
      (k.positions.lookup q).bind fun n =>
        ((s.topic q)[n]?).map fun e => (s, .listening ⟨k, q, n, e⟩ .existsByEventId)
  | .listening r pc, .go => some (listenNext idempotencyEnabled s r pc)
  | .listening r pc, .throw => some (listenThrow s r pc)
  | _, _ => none

/-- The consumers of the notification group. -/
def consumers (idempotencyEnabled : Bool) (partition : StockEvent → ℕ) :
    Interleaving.Program Store Proc Act :=
  ⟨next idempotencyEnabled partition⟩

/-- Nothing published, nothing sent, no consumer running. -/
def initial : Interleaving.Config Store Proc := ⟨{}, fun _ => .idle⟩

end OrderSystem.Notices
