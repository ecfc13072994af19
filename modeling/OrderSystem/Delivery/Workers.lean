/-
Accepting operations and closing their obligations, as interleaved processes over
the source database.

A transaction runs at REPEATABLE READ: plain reads see the snapshot of its first
read, statements that write or lock see the last committed version of a row, and the
rows they touch stay locked until the transaction ends. A process may stop for good
before any statement (`abort`: a crash, a lost connection, an exception), and a poll
that failed is read again (`retry`).

* `AcceptPc`: the controller's `accept`, that is `DeliveryObligations.accept` in one
  transaction and the answer behind it.
* `ResolvePc`: `CompletionListener.receive`, one transaction with a `resolve` for each
  report of the poll, and the acknowledgement.
* `Act`: what the environment chooses, with the broker (`assign`, `revoke`, `poll`,
  `report`), the other transactions of order-service that write partner requests
  (`enqueue`), the relay (`publish`) and the purge of the outbox.

`answers` are the answers clients have received, `topic` is the completion topic and
`requests` the partner requests the relay has published.
-/
import OrderSystem.Foundations.Consumer
import OrderSystem.Foundations.Interleaving
import OrderSystem.Foundations.Locks
import OrderSystem.Delivery.Database

namespace OrderSystem.Delivery

open Orders (OutboxRow javaInt)

/-! ### The store -/

/-- The rows and keys a statement can lock. -/
inductive Resource where
  | obligation (eventId : String)
  | quota (sellerId : String)
  | outboxId (eventId : String)
  deriving DecidableEq, Repr

/-- An answer a client received. -/
structure Answer where
  request : PartnerOrderEvent
  acceptance : Acceptance
  deriving DecidableEq, Repr

/-- Everything the processes share. -/
structure Store where
  db : Db := {}
  nextId : ℕ := 0
  locks : Locks.Table Resource := []
  answers : List Answer := []
  requests : List PartnerOrderEvent := []
  topic : ℕ → List PartnerCompletionEvent := fun _ => []
  committed : ℕ → ℕ := fun _ => 0

namespace Store

/-- The resource is not locked by another process. -/
def canLock (s : Store) (t : ℕ) (r : Resource) : Bool :=
  Locks.available s.locks t (· == r)

/-- Process `t` takes a lock. -/
def lock (s : Store) (t : ℕ) (r : Resource) : Store :=
  { s with locks := Locks.acquire s.locks t [r] }

/-- The transaction of process `t` ends. -/
def unlock (s : Store) (t : ℕ) : Store :=
  { s with locks := Locks.release s.locks t }

end Store

/-! ### Local states -/

/-- A request to accept an operation, with the quota of the instance it reaches. -/
structure AcceptJob where
  request : PartnerOrderEvent
  routingKey : String
  sellerQuota : ℤ
  deriving DecidableEq, Repr

/-- The next statement of `accept`, with the snapshot of the transaction where it is
read again and the rows written so far. -/
inductive AcceptPc where
  | readExisting
  | insertQuota
  | selectUsed (w : Writes)
  | updateUsed (w : Writes)
  | readCreate (snapshot : List Obligation)
  | insertObligation (w : Writes)
  | insertOutbox (w : Writes) (createdAt : ℤ)
  | commit (w : Writes) (answer : Acceptance)
  | respond (answer : Acceptance)
  deriving DecidableEq, Repr

/-- A poll of the listener: its records, and the positions before and behind
them. -/
structure Poll where
  records : List PartnerCompletionEvent
  before : List (ℕ × ℕ)
  ends : List (ℕ × ℕ)
  deriving DecidableEq, Repr

/-- The next statement of `receive`. -/
inductive ResolvePc where
  | update (todo : List PartnerCompletionEvent) (w : Writes)
  | giveBack (sellerId : String) (todo : List PartnerCompletionEvent) (w : Writes)
  | acknowledge
  deriving DecidableEq, Repr

/-- The local state of a process. -/
inductive Proc where
  | idle
  | accepting (job : AcceptJob) (pc : AcceptPc)
  | consuming (positions : List (ℕ × ℕ))
  | resolving (poll : Poll) (pc : ResolvePc)
  deriving DecidableEq, Repr

/-- The choices of the environment. `go` runs the next statement; its argument is
what `System.currentTimeMillis()` returns there. -/
inductive Act where
  | accept (job : AcceptJob)
  | consume
  | go (jvm : ℤ)
  | abort
  | retry
  | assign (partition : ℕ)
  | revoke (partition : ℕ)
  | poll (counts : List (ℕ × ℕ))
  | report (partition : ℕ) (event : PartnerCompletionEvent)
  | enqueue (event : PartnerOrderEvent)
  | publish (row : OutboxRow)
  | purge (ids : List ℕ)
  deriving DecidableEq, Repr

/-! ### Accepting -/

/-- The statement `pc` of `accept`. -/
def acceptNext (t : ℕ) (s : Store) (job : AcceptJob) (jvm : ℤ) :
    AcceptPc → Option (Store × Proc)
  | .readExisting =>
      match s.db.obligation job.request.eventId with
      | some o => some (s, .accepting job (.commit {} (.accepted o.createdAt)))
      | none =>
          some (s, .accepting job
            (if 0 < job.sellerQuota then
              if job.request.sequence = 1 then .insertQuota else .readCreate s.db.obligations
            else .insertObligation {}))
  | .insertQuota =>
      -- INSERT IGNORE
      let seller := job.request.sellerId
      if s.canLock t (.quota seller) then
        if (s.db.quota seller).isSome then some (s, .accepting job (.selectUsed {}))
        else some (s.lock t (.quota seller), .accepting job (.selectUsed { quotas := [⟨seller, 0⟩] }))
      else none
  | .selectUsed w =>
      let seller := job.request.sellerId
      if s.canLock t (.quota seller) then
        match w.viewQuota s.db seller with
        | some q =>
            if job.sellerQuota < javaInt (q.used + operationsPerOrder) then
              some (s.lock t (.quota seller),
                .accepting job (.commit w (.rejected "seller quota")))
            else some (s.lock t (.quota seller), .accepting job (.updateUsed w))
        -- EmptyResultDataAccessException
        | none => some (s.unlock t, .idle)
      else none
  | .updateUsed w =>
      match w.viewQuota s.db job.request.sellerId with
      | some q =>
          -- the column is an INT
          if q.reserve.used < 2 ^ 31 then
            some (s, .accepting job (.insertObligation (w.putQuota q.reserve)))
          else some (s.unlock t, .idle)
      | none => some (s, .accepting job (.insertObligation w))
  | .readCreate snapshot =>
      if ∃ o ∈ snapshot, o.order = job.request.order ∧ o.seq = 1 then
        some (s, .accepting job (.insertObligation {}))
      else some (s, .accepting job (.commit {} (.rejected "order not accepted")))
  | .insertObligation w =>
      let id := job.request.eventId
      if s.canLock t (.obligation id) then
        -- DuplicateKeyException
        if (s.db.obligation id).isSome then some (s.unlock t, .idle)
        else some (s.lock t (.obligation id),
          .accepting job (.insertOutbox (w.putObligation (.of job.request jvm)) jvm))
      else none
  | .insertOutbox w createdAt =>
      let event := published job.request createdAt
      if s.canLock t (.outboxId event.eventId) then
        if event.valid = true ∧ s.db.admits event.eventId then
          some ({ s.lock t (.outboxId event.eventId) with nextId := s.nextId + 1 },
            .accepting job (.commit (w.insertOutbox (outboxRow s.nextId job.routingKey event))
              (.accepted createdAt)))
        else some (s.unlock t, .idle)
      else none
  | .commit w answer =>
      some ({ s with db := s.db.commit w }.unlock t, .accepting job (.respond answer))
  | .respond answer => some ({ s with answers := s.answers ++ [⟨job.request, answer⟩] }, .idle)

/-! ### Resolving -/

/-- The statement `pc` of `receive`. -/
def resolveNext (t : ℕ) (s : Store) (poll : Poll) (jvm : ℤ) : ResolvePc → Option (Store × Proc)
  | .update [] w => some ({ s with db := s.db.commit w }.unlock t, .resolving poll .acknowledge)
  | .update (r :: todo) w =>
      if s.canLock t (.obligation r.eventId) then
        match w.viewObligation s.db r.eventId with
        | some o =>
            if o.resolvedAt = none then
              some (s.lock t (.obligation r.eventId), .resolving poll
                (.giveBack r.sellerId todo (w.putObligation (o.resolve jvm r.completedAt))))
            else some (s, .resolving poll (.update todo w))
        | none => some (s, .resolving poll (.update todo w))
      else none
  | .giveBack seller todo w =>
      if s.canLock t (.quota seller) then
        match w.viewQuota s.db seller with
        | some q => some (s.lock t (.quota seller),
            .resolving poll (.update todo (w.putQuota q.giveBack)))
        | none => some (s, .resolving poll (.update todo w))
      else none
  | .acknowledge =>
      some ({ s with committed := Consumer.commitOffsets poll.ends s.committed },
        .consuming (poll.ends ++ poll.before))

/-! ### The service -/

/-- The first local state of a request; `validate` fails it before the transaction. -/
def begin (job : AcceptJob) : Proc :=
  if job.request.valid then .accepting job .readExisting else .idle

/-- Another transaction of order-service commits a partner request. -/
def enqueue (t : ℕ) (s : Store) (e : PartnerOrderEvent) : Option Store :=
  if s.canLock t (.outboxId e.eventId) ∧ s.db.admits e.eventId then
    some { s with db := s.db.commit { outbox := [outboxRow s.nextId e.key e] }
                  nextId := s.nextId + 1 }
  else none

/-- The broker appends the record of an outbox row. -/
def publish (s : Store) (r : OutboxRow) : Option Store :=
  if r ∈ s.db.outbox then some { s with requests := s.requests ++ r.partner.toList } else none

/-- One step of process `t`. -/
def next (t : ℕ) (s : Store) : Proc → Act → Option (Store × Proc)
  | _, .abort => some (s.unlock t, .idle)
  | .idle, .accept job => some (s, begin job)
  | .idle, .consume => some (s, .consuming [])
  | .idle, .report p r =>
      some ({ s with topic := Function.update s.topic p (s.topic p ++ [r]) }, .idle)
  | .idle, .enqueue e => (enqueue t s e).map (·, .idle)
  | .idle, .publish r => (publish s r).map (·, .idle)
  | .idle, .purge ids =>
      some ({ s with db := { s.db with outbox := s.db.outbox.filter fun r => r.id ∉ ids } }, .idle)
  | .consuming positions, .assign p => some (s, .consuming ((p, s.committed p) :: positions))
  | .consuming positions, .revoke p => some (s, .consuming (positions.filter fun x => x.1 ≠ p))
  | .consuming positions, .poll counts =>
      (Consumer.poll s.topic positions counts).map fun batch =>
        (s, .resolving ⟨batch.1, positions, batch.2⟩ (.update batch.1 {}))
  | .accepting job pc, .go jvm => acceptNext t s job jvm pc
  | .resolving poll pc, .go jvm => resolveNext t s poll jvm pc
  -- the error handler seeks back to the failed records
  | .resolving poll _, .retry => some (s.unlock t, .consuming poll.before)
  | _, _ => none

/-- The delivery tracking of order-service. -/
def service : Interleaving.Program Store Proc Act := ⟨next⟩

/-- Empty tables, an empty topic, no process running. -/
def initial : Interleaving.Config Store Proc := ⟨{}, fun _ => .idle⟩

/-! ### Sample runs -/

/-- An operation of order 7 of seller `S`, for the runs that show the results at
work. -/
def sampleRequest (eventId : String) (sequence : ℤ) : PartnerOrderEvent where
  eventId := eventId
  runId := "run"
  sellerId := "S"
  orderId := 7
  sequence := sequence
  operation := if sequence = 1 then .create else .change
  occurredAt := 1
  schemaVersion := 1
  quantity := 2
  price := ⟨0⟩

/-- The next `n` statements of process `t`, with the clock at 5. -/
def statements (t n : ℕ) : List (ℕ × Act) :=
  List.replicate n (t, .go 5)

/-- Process `t` accepts an operation and answers it, in `n` statements. -/
def accepting (t n : ℕ) (e : PartnerOrderEvent) (sellerQuota : ℤ) : List (ℕ × Act) :=
  (t, .accept ⟨e, "0", sellerQuota⟩) :: statements t n

end OrderSystem.Delivery
