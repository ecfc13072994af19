/-
inventory-service as interleaved handlers over one database.

As in the other services every statement is a step, locked rows block, writes reach the
tables with the commit, and a handler may stop for good at any point (`abort`: a crash, a
timeout, an exception, a rollback). The database runs under its default isolation: the
plain reads of a transaction see the tables as they were at the first of them (`view`),
while an `INSERT`, an `UPDATE` and a `FOR UPDATE` see the committed ones.

* `Inventory`, `StockHistory`, `OutboxRow`, `Db`: the tables of `inventory_db`.
* `Writes`: what a transaction has written and not committed.
* `handlerNext`: `InventoryConsumer.handleOrderCreatedEvent` with
  `InventoryProducer.sendMessage`. The stock is updated under the version that was read.
* `Act`: any event may be delivered to any handler at any time; `markSent` is the update of
  the relay.

Product codes are compared as the collation of the table does: `fold` is the key of a text.
-/
import OrderSystem.Common.Events
import OrderSystem.Foundations.Interleaving
import OrderSystem.Foundations.Locks
import OrderSystem.Foundations.Table

namespace OrderSystem.Stock

/-! ### The tables -/

/-- A row of `inventories`. -/
structure Inventory where
  inventoryId : ℕ
  productCode : String
  stockQuantity : ℤ
  version : ℕ
  deriving DecidableEq, Repr

/-- A row of `stock_history`. -/
structure StockHistory where
  eventId : String
  orderId : ℤ
  delta : ℤ
  deriving DecidableEq, Repr

/-- `Topics.STOCK_UPDATED` and `Topics.STOCK_UPDATE_FAILED`. -/
inductive Topic where
  | stockUpdated
  | stockUpdateFailed
  deriving DecidableEq, Repr

/-- A row of `outbox_event`; the payload is the result it serializes. -/
structure OutboxRow where
  aggregateId : String
  topic : Topic
  payload : StockEvent
  sent : Bool := false
  deriving DecidableEq, Repr

/-- The row `sendMessage` saves for a result. -/
def OutboxRow.of (payload : StockEvent) : OutboxRow where
  aggregateId := toString payload.orderId
  topic := match payload.result with
    | .updated => .stockUpdated
    | .failed _ => .stockUpdateFailed
  payload := payload

/-- The tables of `inventory_db`. -/
structure Db where
  inventories : List Inventory := []
  stockHistory : List StockHistory := []
  outbox : List OutboxRow := []
  capacityRow : Bool := true
  deriving DecidableEq, Repr

/-- The rows a transaction has written. -/
structure Writes where
  history : StockHistory
  inventory : Option Inventory := none
  deriving DecidableEq, Repr

namespace Db

/-- The row under a key. -/
def inventory (db : Db) (id : ℕ) : Option Inventory :=
  Table.get Inventory.inventoryId id db.inventories

/-- `findByProductCode`. -/
def findByProductCode (fold : String → String) (db : Db) (code : String) : List Inventory :=
  db.inventories.filter fun inv => fold inv.productCode = fold code

/-- `existsByEventId`. -/
def existsByEventId (db : Db) (eventId : String) : Prop :=
  ∃ h ∈ db.stockHistory, h.eventId = eventId

instance (db : Db) (eventId : String) : Decidable (db.existsByEventId eventId) :=
  inferInstanceAs (Decidable (∃ h ∈ db.stockHistory, h.eventId = eventId))

/-- The unique key on `event_id` of the outbox. -/
def admits (db : Db) (eventId : String) : Prop :=
  ∀ r ∈ db.outbox, r.payload.eventId ≠ eventId

instance (db : Db) (eventId : String) : Decidable (db.admits eventId) :=
  inferInstanceAs (Decidable (∀ r ∈ db.outbox, r.payload.eventId ≠ eventId))

/-- The commit of a transaction. -/
def commit (db : Db) (w : Writes) (row : OutboxRow) : Db :=
  { db with
    inventories := match w.inventory with
      | some inv => Table.put Inventory.inventoryId inv db.inventories
      | none => db.inventories
    stockHistory := db.stockHistory ++ [w.history]
    outbox := db.outbox ++ [row] }

/-- `record.markSent()` and its save. -/
def markSent (db : Db) (eventId : String) : Db :=
  { db with outbox := db.outbox.map fun r =>
      if r.payload.eventId = eventId then { r with sent := true } else r }

end Db

/-! ### The processes -/

/-- The rows and keys a statement can lock. -/
inductive Resource where
  | history (eventId : String)
  | inventory (id : ℕ)
  | capacity
  deriving DecidableEq, Repr

/-- Everything the handlers share. -/
structure Store where
  db : Db := {}
  locks : Locks.Table Resource := []

namespace Store

/-- The resource is not locked by another process. -/
def canLock (s : Store) (t : ℕ) (r : Resource) : Bool :=
  Locks.available s.locks t (· == r)

/-- Process `t` takes a lock. -/
def lock (s : Store) (t : ℕ) (r : Resource) : Store :=
  { s with locks := Locks.acquire s.locks t [r] }

/-- The transaction of process `t` ends. -/
def unlock (s : Store) (t : ℕ) : Store :=
  { s with locks := Locks.release s.locks t }

end Store

/-- The next statement of `handleOrderCreatedEvent`. From `lockCapacity` on it is inside
`sendMessage`, with the result to be sent. -/
inductive Pc where
  | existsByEventId
  | saveHistory (view : Option Db)
  | findByProductCode (view : Option Db) (w : Writes)
  | updateDelta (view : Db) (w : Writes) (inv : Inventory)
  | saveInventory (view : Db) (w : Writes) (inv : Inventory)
  | lockCapacity (view : Db) (w : Writes) (result : StockResult)
  | count (view : Db) (w : Writes) (result : StockResult)
  | saveOutbox (w : Writes) (result : StockResult)
  | commit (w : Writes) (row : OutboxRow)
  deriving DecidableEq, Repr

/-- The local state of a handler; `threw` is a listener call that ended with an exception. -/
inductive Proc where
  | idle
  | handling (event : OrderCreatedEvent) (pc : Pc)
  | threw (message : String)
  deriving DecidableEq, Repr

/-- The choices of the environment; `go` runs the next statement with the UUID it draws. -/
inductive Act where
  | deliver (event : OrderCreatedEvent)
  | go (uuid : String)
  | markSent (eventId : String)
  | abort
  deriving DecidableEq, Repr

/-- An exception rolls the transaction back and leaves the listener. -/
def rollback (t : ℕ) (s : Store) (message : String) : Option (Store × Proc) :=
  some (s.unlock t, .threw message)

/-- The statement `pc` of `handleOrderCreatedEvent`. -/
def handlerNext (idempotencyEnabled : Bool) (fold : String → String) (t : ℕ) (s : Store)
    (event : OrderCreatedEvent) (uuid : String) : Pc → Option (Store × Proc)
  | .existsByEventId =>
      if idempotencyEnabled then
        if s.db.existsByEventId event.eventId then some (s.unlock t, .idle)
        else some (s, .handling event (.saveHistory (some s.db)))
      else some (s, .handling event (.saveHistory none))
  | .saveHistory view =>
      if s.canLock t (.history event.eventId) then
        if s.db.existsByEventId event.eventId then rollback t s "DataIntegrityViolationException"
        else some (s.lock t (.history event.eventId),
          .handling event (.findByProductCode view ⟨⟨event.eventId, event.orderId, 0⟩, none⟩))
      else none
  | .findByProductCode view w =>
      let view := view.getD s.db
      match view.findByProductCode fold event.productCode with
      | [] => some (s, .handling event
          (.lockCapacity view w (.failed ("Product not found: " ++ event.productCode))))
      | [inv] =>
          if inv.stockQuantity < event.quantity then
            some (s, .handling event (.lockCapacity view w (.failed "Insufficient stock")))
          else some (s, .handling event (.updateDelta view w inv))
      | _ => rollback t s "IncorrectResultSizeDataAccessException"
  | .updateDelta view w inv =>
      let history := { w.history with delta := -event.quantity }
      some (s, .handling event (.saveInventory view { w with history := history } inv))
  | .saveInventory view w inv =>
      if s.canLock t (.inventory inv.inventoryId) then
        match s.db.inventory inv.inventoryId with
        | none => rollback t s "ObjectOptimisticLockingFailureException"
        | some row =>
            if row.version = inv.version then
              let inv' := { inv with stockQuantity := inv.stockQuantity - event.quantity
                                     version := inv.version + 1 }
              some (s.lock t (.inventory inv.inventoryId),
                .handling event (.lockCapacity view { w with inventory := some inv' } .updated))
            else rollback t s "ObjectOptimisticLockingFailureException"
      else none
  | .lockCapacity view w result =>
      if s.canLock t .capacity then
        if s.db.capacityRow then some (s.lock t .capacity, .handling event (.count view w result))
        else rollback t s "Outbox capacity row missing"
      else none
  | .count view w result =>
      if 2000 ≤ view.outbox.length then
        rollback t s "Inventory Outbox retained-row limit reached"
      else some (s, .handling event (.saveOutbox w result))
  | .saveOutbox w result =>
      if s.db.admits uuid then
        some (s, .handling event (.commit w (.of ⟨uuid, event.orderId, result⟩)))
      else rollback t s "DataIntegrityViolationException"
  | .commit w row => some ({ s with db := s.db.commit w row }.unlock t, .idle)

/-- One step of process `t`. -/
def next (idempotencyEnabled : Bool) (fold : String → String) (t : ℕ) (s : Store) :
    Proc → Act → Option (Store × Proc)
  | _, .abort => some (s.unlock t, .idle)
  | .idle, .deliver event => some (s, .handling event .existsByEventId)
  | .idle, .markSent eventId => some ({ s with db := s.db.markSent eventId }, .idle)
  | .handling event pc, .go uuid => handlerNext idempotencyEnabled fold t s event uuid pc
  | .threw _, .go _ => some (s, .idle)
  | _, _ => none

/-- inventory-service. -/
def service (idempotencyEnabled : Bool) (fold : String → String) :
    Interleaving.Program Store Proc Act :=
  ⟨next idempotencyEnabled fold⟩

/-- The stock before the first event, nothing handled, no handler running. -/
def initial (stock : List Inventory) : Interleaving.Config Store Proc :=
  ⟨{ db := { inventories := stock } }, fun _ => .idle⟩

end OrderSystem.Stock
