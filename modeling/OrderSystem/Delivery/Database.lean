/-
Delivery obligations of order-service (`delivery_obligation`, `seller_quota`) and the
rows `DeliveryObligations` writes.

* `Obligation`: opened when an operation is accepted, closed by `resolve`.
* `QuotaRow`: the units of a seller that are in use. `reserve` takes the units of an
  order, `giveBack` returns one of them.
* `Acceptance`: the answer of `accept`, with its reason when the operation was not
  taken.
* `Db`, `Writes`: the tables, and the rows a transaction has written so far. A
  transaction reads its own rows first (`viewQuota`, `viewObligation`), and `commit`
  brings them into the tables.
-/
import OrderSystem.Orders.Database

namespace OrderSystem.Delivery

open Orders (OutboxRow javaInt)

/-! ### Rows -/

/-- A row of `delivery_obligation`. -/
structure Obligation where
  eventId : String
  runId : String
  order : OrderKey
  seq : ℤ
  operation : Operation
  createdAt : ℤ
  resolvedAt : Option ℤ := none
  completedAt : Option ℤ := none
  deriving DecidableEq, Repr

namespace Obligation

/-- The row `accept` inserts. -/
def of (e : PartnerOrderEvent) (createdAt : ℤ) : Obligation where
  eventId := e.eventId
  runId := e.runId
  order := e.order
  seq := e.sequence
  operation := e.operation
  createdAt := createdAt

/-- The update of `resolve`. -/
def resolve (time completedAt : ℤ) (o : Obligation) : Obligation :=
  { o with resolvedAt := some time, completedAt := some completedAt }

@[simp] lemma of_eventId (e : PartnerOrderEvent) (createdAt : ℤ) :
    (of e createdAt).eventId = e.eventId := rfl

@[simp] lemma resolve_eventId (time completedAt : ℤ) (o : Obligation) :
    (o.resolve time completedAt).eventId = o.eventId := rfl

end Obligation

/-- A row of `seller_quota`. -/
structure QuotaRow where
  sellerId : String
  used : ℤ
  deriving DecidableEq, Repr

/-- `OPERATIONS_PER_ORDER`. -/
def operationsPerOrder : ℤ := 3

namespace QuotaRow

/-- `used=used+?` for the operations of an order. -/
def reserve (q : QuotaRow) : QuotaRow :=
  { q with used := q.used + operationsPerOrder }

/-- `used=GREATEST(used-1,0)`. -/
def giveBack (q : QuotaRow) : QuotaRow :=
  { q with used := max (q.used - 1) 0 }

@[simp] lemma reserve_sellerId (q : QuotaRow) : q.reserve.sellerId = q.sellerId := rfl

@[simp] lemma giveBack_sellerId (q : QuotaRow) : q.giveBack.sellerId = q.sellerId := rfl

end QuotaRow

/-- `Acceptance`: accepted at a time, or refused for a reason. -/
inductive Acceptance where
  | accepted (createdAt : ℤ)
  | rejected (reason : String)
  deriving DecidableEq, Repr

/-- The operation was not accepted. -/
def Acceptance.refused : Acceptance → Bool
  | .accepted _ => false
  | .rejected _ => true

/-- The event `accept` publishes: the request with the time of the obligation. -/
def published (e : PartnerOrderEvent) (createdAt : ℤ) : PartnerOrderEvent :=
  { e with occurredAt := createdAt, schemaVersion := 1 }

/-- The outbox row `accept` inserts. -/
def outboxRow (id : ℕ) (routingKey : String) (e : PartnerOrderEvent) : OutboxRow where
  id := id
  eventId := e.eventId
  aggregateId := routingKey
  topic := .partnerRequests
  payload := .partner e

/-! ### The tables -/

/-- The tables. -/
structure Db where
  obligations : List Obligation := []
  quotas : List QuotaRow := []
  outbox : List OutboxRow := []
  deriving DecidableEq, Repr

/-- The rows a transaction has written. -/
structure Writes where
  obligations : List Obligation := []
  quotas : List QuotaRow := []
  outbox : List OutboxRow := []
  deriving DecidableEq, Repr

namespace Db

/-- The obligation of an event. -/
def obligation (db : Db) (eventId : String) : Option Obligation :=
  Table.get Obligation.eventId eventId db.obligations

/-- The quota row of a seller. -/
def quota (db : Db) (sellerId : String) : Option QuotaRow :=
  Table.get QuotaRow.sellerId sellerId db.quotas

/-- `used` of a seller; a seller without a row uses nothing. -/
def used (db : Db) (sellerId : String) : ℤ :=
  ((db.quota sellerId).map QuotaRow.used).getD 0

/-- The unique key of the outbox. -/
def admits (db : Db) (eventId : String) : Prop :=
  ∀ r ∈ db.outbox, r.eventId ≠ eventId

instance (db : Db) (eventId : String) : Decidable (db.admits eventId) :=
  inferInstanceAs (Decidable (∀ r ∈ db.outbox, r.eventId ≠ eventId))

/-- The accepted operations of a seller whose obligation is not resolved. -/
def undelivered (db : Db) (sellerId : String) : ℕ :=
  db.obligations.countP fun o => o.order.sellerId = sellerId ∧ o.resolvedAt = none

/-- The operations of an order that were accepted. -/
def accepted (db : Db) (order : OrderKey) : ℕ :=
  db.obligations.countP fun o => o.order = order

/-- The `CREATE`s of an order that were accepted. -/
def creates (db : Db) (order : OrderKey) : ℕ :=
  db.obligations.countP fun o => o.order = order ∧ o.seq = 1

/-- The commit of a transaction. -/
def commit (db : Db) (w : Writes) : Db where
  obligations := Table.putAll Obligation.eventId w.obligations db.obligations
  quotas := Table.putAll QuotaRow.sellerId w.quotas db.quotas
  outbox := db.outbox ++ w.outbox

end Db

namespace Writes

/-- The obligation of an event as the transaction sees it. -/
def viewObligation (w : Writes) (db : Db) (eventId : String) : Option Obligation :=
  (Table.get Obligation.eventId eventId w.obligations).or (db.obligation eventId)

/-- The quota row of a seller as the transaction sees it. -/
def viewQuota (w : Writes) (db : Db) (sellerId : String) : Option QuotaRow :=
  (Table.get QuotaRow.sellerId sellerId w.quotas).or (db.quota sellerId)

/-- An obligation is written. -/
def putObligation (w : Writes) (o : Obligation) : Writes :=
  { w with obligations := Table.put Obligation.eventId o w.obligations }

/-- A quota row is written. -/
def putQuota (w : Writes) (q : QuotaRow) : Writes :=
  { w with quotas := Table.put QuotaRow.sellerId q w.quotas }

/-- An outbox row is inserted. -/
def insertOutbox (w : Writes) (r : OutboxRow) : Writes :=
  { w with outbox := w.outbox ++ [r] }

@[simp] lemma putObligation_quotas (w : Writes) (o : Obligation) :
    (w.putObligation o).quotas = w.quotas := rfl

@[simp] lemma putObligation_obligations (w : Writes) (o : Obligation) :
    (w.putObligation o).obligations = Table.put Obligation.eventId o w.obligations := rfl

@[simp] lemma putQuota_quotas (w : Writes) (q : QuotaRow) :
    (w.putQuota q).quotas = Table.put QuotaRow.sellerId q w.quotas := rfl

@[simp] lemma putQuota_obligations (w : Writes) (q : QuotaRow) :
    (w.putQuota q).obligations = w.obligations := rfl

@[simp] lemma insertOutbox_obligations (w : Writes) (r : OutboxRow) :
    (w.insertOutbox r).obligations = w.obligations := rfl

@[simp] lemma insertOutbox_quotas (w : Writes) (r : OutboxRow) :
    (w.insertOutbox r).quotas = w.quotas := rfl

end Writes

end OrderSystem.Delivery
