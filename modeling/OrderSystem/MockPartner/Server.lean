/-
The seller's mock as a server with many handler threads and one writer
(`mock-partner-api/server.py`, path `/orders`).

A handler decides under the lock of the ledger against the state in memory. Its
records go to a queue; the writer commits whatever has queued up as one group, and
the handler answers when the group that holds its records has been committed.

* `File`, `Statement`: the SQLite file and what the statements do to it.
* `Ledger`: the state in memory, with `load`, the constructor over a file.
* `firstSection`, `secondSection`: the two sections of `do_POST` under the lock.
* `Writer`: `write_loop`, item by item up to 2000. A commit may fail, and then the
  group is rolled back.
* `next`: the steps of the threads. Statements are put on the queue after the lock
  has been released. `crash` is the end of the process and its restart from the file;
  the threads of the old process do not go on.

An item of the queue carries the event and the status its handler will answer with,
and `answered` lists the answers that were sent; the program keeps neither.
-/
import OrderSystem.Common.Events
import OrderSystem.Foundations.Interleaving
import OrderSystem.Foundations.Table

namespace OrderSystem.MockPartner

/-- The statuses `do_POST` answers on `/orders`. -/
inductive Status where
  | ok200
  | badRequest400
  | conflict409
  | unavailable503
  deriving DecidableEq, Repr

/-! ### The file -/

/-- A row of `effects`; the payload holds the event. -/
structure EffectRow where
  index : ℕ
  event : PartnerOrderEvent
  deriving DecidableEq, Repr

/-- A row of `attempts`. -/
structure AttemptRow where
  id : ℕ
  eventId : String
  status : Option Status := none
  responseLost : Bool := false
  deriving DecidableEq, Repr

/-- A row of `orders`. -/
structure OrderRow where
  order : OrderKey
  seq : ℤ
  operation : Operation
  quantity : ℤ
  price : Double
  deriving DecidableEq, Repr

/-- The tables of the ledger. -/
structure File where
  effects : List EffectRow := []
  attempts : List AttemptRow := []
  orders : List OrderRow := []
  deriving DecidableEq, Repr

/-- The statements `do_POST` queues. -/
inductive Statement where
  | insertAttempt (id : ℕ) (eventId : String)
  | insertEffect (index : ℕ) (event : PartnerOrderEvent)
  | upsertOrder (event : PartnerOrderEvent)
  | updateAttempt (id : ℕ) (status : Status) (responseLost : Bool)
  deriving DecidableEq, Repr

/-- What a statement does to the tables; `none` when a primary key is taken. -/
def Statement.execute (f : File) : Statement → Option File
  | .insertAttempt id eventId =>
      if f.attempts.any (fun r => r.id = id) then none
      else some { f with attempts := f.attempts ++ [{ id := id, eventId := eventId }] }
  | .insertEffect index event =>
      if f.effects.any (fun r => r.index = index) then none
      else some { f with effects := f.effects ++ [⟨index, event⟩] }
  | .upsertOrder e =>
      let row : OrderRow := ⟨e.order, e.sequence, e.operation, e.quantity, e.price⟩
      some { f with orders := Table.put OrderRow.order row f.orders }
  | .updateAttempt id status responseLost =>
      some { f with attempts := f.attempts.map fun r =>
        if r.id = id then { r with status := some status, responseLost := responseLost } else r }

/-- The statements of a group, in the order of the queue. -/
def executeAll (f : File) (statements : List Statement) : Option File :=
  statements.foldlM Statement.execute f

/-! ### The ledger in memory -/

/-- `Ledger`, as far as the decisions read it. -/
structure Ledger where
  effects : String → Option PartnerOrderEvent := fun _ => none
  orders : OrderKey → Option ℤ := fun _ => none
  attemptCounts : String → ℕ := fun _ => 0
  nextAttempt : ℕ := 1
  nextEffect : ℕ := 1

/-- `Ledger.__init__`: the state is read from the file; the last row of an event id
counts. -/
def load (f : File) : Ledger where
  effects key := (f.effects.filter fun r => r.event.eventId = key).getLast?.map (·.event)
  orders order := (Table.get OrderRow.order order f.orders).map (·.seq)
  attemptCounts key := f.attempts.countP fun r => r.eventId = key
  nextAttempt := (f.attempts.map (·.id)).foldl max 0 + 1
  nextEffect := (f.effects.map (·.index)).foldl max 0 + 1

/-- The fault policy of a request, as copied from `controls`. -/
structure Policy where
  failureCount : ℕ := 0
  idempotent : Bool := true
  dropResponse : Bool := false
  deriving DecidableEq, Repr

/-- The first section under the lock: the number of earlier attempts, the number of
this one, and the ledger after it. -/
def firstSection (l : Ledger) (key : String) : ℕ × ℕ × Ledger :=
  (l.attemptCounts key, l.nextAttempt,
    { l with attemptCounts := Function.update l.attemptCounts key (l.attemptCounts key + 1)
             nextAttempt := l.nextAttempt + 1 })

/-- The sequence the next operation of an order must have, `state + 1 if state
else 1`. -/
def expected (state : Option ℤ) : ℤ :=
  match state with
  | some seq => if seq = 0 then 1 else seq + 1
  | none => 1

/-- The decision of the second section: the status, the statements of an applied
effect, and the ledger after it. -/
def secondSection (l : Ledger) (data : PartnerOrderEvent) (policy : Policy) (count : ℕ) :
    Status × List Statement × Ledger :=
  if count < policy.failureCount then (.unavailable503, [], l)
  else
    match l.effects data.eventId, policy.idempotent with
    | some prior, true => (if prior ≠ data then .conflict409 else .ok200, [], l)
    | _, _ =>
        if data.sequence ≠ expected (l.orders data.order) then (.conflict409, [], l)
        else (.ok200, [.insertEffect l.nextEffect data, .upsertOrder data],
          { l with effects := Function.update l.effects data.eventId (some data)
                   orders := Function.update l.orders data.order (some data.sequence)
                   nextEffect := l.nextEffect + 1 })

/-! ### Threads -/

/-- An entry of the queue: statements with their `done` record, here a number. -/
structure Item where
  id : ℕ
  statements : List Statement
  eventId : String
  status : Option Status
  deriving DecidableEq, Repr

/-- Where the writer is in `write_loop`. -/
inductive Writer where
  | waiting
  | collecting (batch : List Item)
  | writing (batch : List Item)
  | signalling (batch : List Item) (committed : Bool)
  deriving DecidableEq, Repr

/-- What the threads share. -/
structure Store where
  file : File := {}
  ledger : Ledger := {}
  queue : List Item := []
  writer : Writer := .waiting
  nextItem : ℕ := 0
  done : List (Item × Bool) := []
  epoch : ℕ := 0
  answered : List (String × Status) := []

/-- The next step of `do_POST`. -/
inductive Pc where
  | firstSection
  | enqueueStart (count attempt : ℕ)
  | secondSection (count attempt : ℕ)
  | enqueue (statements : List Statement) (status : Status) (dropped : Bool)
  | wait (item : Item) (status : Status) (dropped : Bool)
  deriving DecidableEq, Repr

/-- The local state of a handler thread, with the process it belongs to. -/
inductive Proc where
  | idle
  | handling (epoch : ℕ) (data : PartnerOrderEvent) (policy : Policy) (pc : Pc)
  deriving DecidableEq, Repr

/-- The choices of the environment. -/
inductive Act where
  | post (key : String) (data : PartnerOrderEvent) (policy : Policy)
  | go
  | collect
  | commit (fails : Bool)
  | signal
  | crash
  deriving DecidableEq, Repr

/-- `enqueue(statements)`: the item goes to the end of the queue. -/
def Store.put (s : Store) (item : Item) : Store :=
  { s with queue := s.queue ++ [item], nextItem := s.nextItem + 1 }

/-- One step of a handler. -/
def handleNext (s : Store) (epoch : ℕ) (data : PartnerOrderEvent) (policy : Policy) :
    Pc → Option (Store × Proc)
  | .firstSection =>
      let (count, attempt, ledger) := firstSection s.ledger data.eventId
      some ({ s with ledger := ledger }, .handling epoch data policy (.enqueueStart count attempt))
  | .enqueueStart count attempt =>
      some (s.put ⟨s.nextItem, [.insertAttempt attempt data.eventId], data.eventId, none⟩,
        .handling epoch data policy (.secondSection count attempt))
  | .secondSection count attempt =>
      let (status, statements, ledger) := secondSection s.ledger data policy count
      let dropped := status = .ok200 ∧ policy.dropResponse ∧ count = 0
      some ({ s with ledger := ledger }, .handling epoch data policy
        (.enqueue (statements ++ [.updateAttempt attempt status dropped]) status dropped))
  | .enqueue statements status dropped =>
      let item : Item := ⟨s.nextItem, statements, data.eventId, some status⟩
      some (s.put item, .handling epoch data policy (.wait item status dropped))
  | .wait item status dropped =>
      if (item, true) ∈ s.done then
        if dropped then some (s, .idle)
        else some ({ s with answered := s.answered ++ [(data.eventId, status)] }, .idle)
      -- the error of the group is raised and the request is not answered
      else if (item, false) ∈ s.done then some (s, .idle)
      else none

/-- `write_loop` up to the group: the first item is waited for, further ones are taken
while there are any, up to 2000. -/
def collect (s : Store) : Option Store :=
  match s.writer, s.queue with
  | .waiting, item :: queue => some { s with queue := queue, writer := .collecting [item] }
  | .collecting batch, item :: queue =>
      if batch.length < 2000 then
        some { s with queue := queue, writer := .collecting (batch ++ [item]) }
      else some { s with writer := .writing batch }
  | .collecting batch, [] => some { s with writer := .writing batch }
  | _, _ => none

/-- The tables after the group, or `none` when it is rolled back. -/
def Store.committed (s : Store) (batch : List Item) (fails : Bool) : Option File :=
  if fails then none else executeAll s.file (batch.flatMap (·.statements))

/-- The commit of the group, or its rollback. -/
def commit (s : Store) (fails : Bool) : Option Store :=
  match s.writer with
  | .writing batch =>
      match s.committed batch fails with
      | some file => some { s with file := file, writer := .signalling batch true }
      | none => some { s with writer := .signalling batch false }
  | _ => none

/-- The handlers of the group are told. -/
def signal (s : Store) : Option Store :=
  match s.writer with
  | .signalling batch committed =>
      some { s with writer := .waiting, done := s.done ++ batch.map (·, committed) }
  | _ => none

/-- The process ends and is started again from the file. -/
def Store.crash (s : Store) : Store :=
  { s with ledger := load s.file, queue := [], writer := .waiting, done := []
           epoch := s.epoch + 1 }

/-- One step of thread `t`. -/
def next (_ : ℕ) (s : Store) : Proc → Act → Option (Store × Proc)
  | .idle, .post key data policy =>
      if key ≠ data.eventId then
        some ({ s with answered := s.answered ++ [(data.eventId, .badRequest400)] }, .idle)
      else some (s, .handling s.epoch data policy .firstSection)
  | .handling epoch data policy pc, .go =>
      if epoch = s.epoch then handleNext s epoch data policy pc else none
  | .idle, .collect => (collect s).map (·, .idle)
  | .idle, .commit fails => (commit s fails).map (·, .idle)
  | .idle, .signal => (signal s).map (·, .idle)
  | .idle, .crash => some (s.crash, .idle)
  | _, _ => none

/-- The seller's mock. -/
def server : Interleaving.Program Store Proc Act := ⟨next⟩

/-- An empty ledger, no request running. -/
def initial : Interleaving.Config Store Proc := ⟨{}, fun _ => .idle⟩

end OrderSystem.MockPartner
