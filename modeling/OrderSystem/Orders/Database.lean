/-
The tables of `order_db` and the code that reads and writes their rows: the
entity `Order`, the outbox, and the checks of `OrderController`.

* `Order`: `confirm`, `cancel`, `changeForPartner`, `cancelForPartner` and
  `nextPartnerSequence`, the transitions of the entity. A transition that throws
  or refuses is `none`. The `version` column is not modelled: the rows are written
  under their own row lock, so the version check cannot fail.
* `CreateOrderRequest.isInvalid`, `ChangeRequest.isInvalid`: the input checks.
* `OutboxRow`: a row of `outbox_event`; the payload is the event it serializes,
  with its event type.
* `Db`: the tables, the counts of the capacity checks, and `markSent`,
  `deleteSent` and `findTop500ByStatus` of the relay.
-/
import OrderSystem.Common.Events
import OrderSystem.Foundations.Table

namespace OrderSystem.Orders

/-- A Java `int` after an operation that may overflow. -/
def javaInt (n : ℤ) : ℤ :=
  Int.bmod n (2 ^ 32)

lemma javaInt_eq {n : ℤ} (h0 : 0 ≤ n) (h : n < 2 ^ 31) : javaInt n = n := by
  rw [javaInt, Int.bmod_eq_of_le (by omega) (by omega)]

/-! ### Orders -/

/-- `OrderStatus`. -/
inductive OrderStatus where
  | pending
  | confirmed
  | cancelled
  | shipped
  deriving DecidableEq, Repr

/-- A row of `orders`. -/
structure Order where
  orderId : ℤ
  productCode : String
  sellerId : String
  runId : String
  partnerSequence : ℤ := 0
  quantity : ℤ
  price : Double
  status : OrderStatus
  deriving DecidableEq, Repr

namespace Order

/-- `transitionTo`: only a pending order is confirmed or cancelled. -/
def transitionTo (target : OrderStatus) (o : Order) : Option Order :=
  if o.status = .pending then some { o with status := target } else none

/-- `confirm()`. -/
def confirm (o : Order) : Option Order := o.transitionTo .confirmed

/-- `cancel()`. -/
def cancel (o : Order) : Option Order := o.transitionTo .cancelled

/-- `changeForPartner(quantity, price)`. -/
def changeForPartner (quantity : ℤ) (price : Double) (o : Order) : Option Order :=
  if o.status = .confirmed then some { o with quantity := quantity, price := price } else none

/-- `cancelForPartner()`. -/
def cancelForPartner (o : Order) : Option Order :=
  if o.status = .confirmed then some { o with status := .cancelled } else none

/-- `nextPartnerSequence()`. -/
def nextPartnerSequence (o : Order) : Order :=
  { o with partnerSequence := javaInt (o.partnerSequence + 1) }

end Order

/-! ### Requests -/

/-- `CreateOrderRequest`; absent JSON fields are null. -/
structure CreateOrderRequest where
  productCode : Option String
  quantity : ℤ
  price : Double
  sellerId : Option String
  runId : Option String
  deriving DecidableEq, Repr

namespace CreateOrderRequest

/-- `isInvalid()`. -/
def isInvalid (r : CreateOrderRequest) : Bool :=
  (match r.productCode with
    | none => true
    | some code => isBlank code) ||
    r.quantity ≤ 0 || r.price.ltZero || !r.price.isFinite ||
    (match r.runId with
      | none => false
      | some run => isBlank run || 64 < javaLength run) ||
    (match r.sellerId with
      | none => false
      | some seller => !sellerPattern seller)

/-- The order `createOrder` builds, before its key is assigned. -/
def toOrder (r : CreateOrderRequest) : Order where
  orderId := 0
  productCode := r.productCode.getD ""
  sellerId := r.sellerId.getD "legacy"
  runId := r.runId.getD "api"
  quantity := r.quantity
  price := r.price
  status := .pending

end CreateOrderRequest

/-- `ChangeRequest`. -/
structure ChangeRequest where
  quantity : ℤ
  price : Double
  deriving DecidableEq, Repr

/-- The check of `change`. -/
def ChangeRequest.isInvalid (r : ChangeRequest) : Bool :=
  r.quantity ≤ 0 || r.price.ltZero || !r.price.isFinite

/-! ### The outbox -/

/-- The topics order-service publishes to. -/
inductive Topic where
  | orderCreated
  | partnerRequests
  deriving DecidableEq, Repr

/-- The event a row of the outbox serializes. -/
inductive Payload where
  | created (event : OrderCreatedEvent)
  | partner (event : PartnerOrderEvent)
  deriving DecidableEq, Repr

/-- `OutboxEvent.Status`. -/
inductive OutboxStatus where
  | pending
  | sent
  deriving DecidableEq, Repr

/-- A row of `outbox_event`. -/
structure OutboxRow where
  id : ℕ
  eventId : String
  aggregateId : String
  topic : Topic
  payload : Payload
  status : OutboxStatus := .pending
  sentAt : Option ℤ := none
  deriving DecidableEq, Repr

namespace OutboxRow

/-- The partner event a row carries. -/
def partner (r : OutboxRow) : Option PartnerOrderEvent :=
  match r.payload with
  | .partner e => some e
  | .created _ => none

/-- The update of `markSent`. -/
def markSent (time : ℤ) (r : OutboxRow) : OutboxRow :=
  { r with status := .sent, sentAt := some time }

@[simp] lemma partner_markSent (time : ℤ) (r : OutboxRow) :
    (r.markSent time).partner = r.partner := rfl

/-- The row `createWithOutbox` writes for a saved order. -/
def ofOrder (id : ℕ) (uuid : String) (o : Order) : OutboxRow where
  id := id
  eventId := uuid
  aggregateId := toString o.orderId
  topic := .orderCreated
  payload := .created ⟨uuid, o.orderId, o.productCode, o.quantity, o.price⟩

/-- The row `enqueuePartner` writes for an event. -/
def ofPartner (id : ℕ) (e : PartnerOrderEvent) : OutboxRow where
  id := id
  eventId := e.eventId
  aggregateId := e.key
  topic := .partnerRequests
  payload := .partner e

end OutboxRow

/-- The event `enqueuePartner` builds, once the sequence is drawn. -/
def Order.partnerEvent (o : Order) (uuid : String) (operation : Operation) (time : ℤ) :
    PartnerOrderEvent where
  eventId := uuid
  runId := o.runId
  sellerId := o.sellerId
  orderId := o.orderId
  sequence := o.partnerSequence
  operation := operation
  occurredAt := time
  schemaVersion := 1
  quantity := o.quantity
  price := o.price

/-! ### The tables -/

/-- The tables of `order_db`. -/
structure Db where
  orders : List Order := []
  outbox : List OutboxRow := []
  capacityRow : Bool := true
  deriving DecidableEq, Repr

namespace Db

/-- The order under a key. -/
def order (db : Db) (id : ℤ) : Option Order :=
  Table.get Order.orderId id db.orders

/-- `countUnfinishedBusiness()`, with the event ids that are in
`partner_effect`. -/
def countUnfinishedBusiness (db : Db) (delivered : List String) : ℕ :=
  (db.orders.filter fun o => o.status = .pending).length +
    (db.outbox.filter fun r => r.topic = .partnerRequests ∧ r.eventId ∉ delivered).length

/-- The unique key on `event_id`. -/
def admits (db : Db) (eventId : String) : Prop :=
  ∀ r ∈ db.outbox, r.eventId ≠ eventId

instance (db : Db) (eventId : String) : Decidable (db.admits eventId) :=
  inferInstanceAs (Decidable (∀ r ∈ db.outbox, r.eventId ≠ eventId))

/-- The commit of `createWithOutbox`. -/
def insertOrder (db : Db) (o : Order) (row : OutboxRow) : Db :=
  { db with orders := db.orders ++ [o], outbox := db.outbox ++ [row] }

/-- The commit of a transaction that updates an order. -/
def updateOrder (db : Db) (o : Order) : Db :=
  { db with orders := Table.put Order.orderId o db.orders }

/-- The commit of a transaction that updates an order and enqueues an event. -/
def enqueue (db : Db) (o : Order) (row : OutboxRow) : Db :=
  { db.updateOrder o with outbox := db.outbox ++ [row] }

/-- `findTop500ByStatusOrderByIdAsc(PENDING)`. -/
def findTop500Pending (db : Db) : List OutboxRow :=
  ((db.outbox.filter fun r => r.status = .pending).insertionSort fun r x => r.id ≤ x.id).take 500

/-- `markSent(ids, sentAt)`. -/
def markSent (db : Db) (ids : List ℕ) (time : ℤ) : Db :=
  { db with outbox := db.outbox.map fun r => if r.id ∈ ids then r.markSent time else r }

/-- `deleteSentBefore(before)` for the rows it picks. -/
def deleteSent (db : Db) (ids : List ℕ) : Db :=
  { db with outbox := db.outbox.filter fun r => r.id ∉ ids }

@[simp] lemma insertOrder_orders (db : Db) (o : Order) (row : OutboxRow) :
    (db.insertOrder o row).orders = db.orders ++ [o] := rfl

@[simp] lemma insertOrder_outbox (db : Db) (o : Order) (row : OutboxRow) :
    (db.insertOrder o row).outbox = db.outbox ++ [row] := rfl

@[simp] lemma updateOrder_orders (db : Db) (o : Order) :
    (db.updateOrder o).orders = Table.put Order.orderId o db.orders := rfl

@[simp] lemma updateOrder_outbox (db : Db) (o : Order) : (db.updateOrder o).outbox = db.outbox := rfl

@[simp] lemma enqueue_orders (db : Db) (o : Order) (row : OutboxRow) :
    (db.enqueue o row).orders = Table.put Order.orderId o db.orders := rfl

@[simp] lemma enqueue_outbox (db : Db) (o : Order) (row : OutboxRow) :
    (db.enqueue o row).outbox = db.outbox ++ [row] := rfl

@[simp] lemma markSent_orders (db : Db) (ids : List ℕ) (time : ℤ) :
    (db.markSent ids time).orders = db.orders := rfl

@[simp] lemma deleteSent_orders (db : Db) (ids : List ℕ) :
    (db.deleteSent ids).orders = db.orders := rfl

/-- Marking rows keeps their number. -/
@[simp] lemma length_outbox_markSent (db : Db) (ids : List ℕ) (time : ℤ) :
    (db.markSent ids time).outbox.length = db.outbox.length :=
  List.length_map _

end Db

end OrderSystem.Orders
