/-
order-service as interleaved processes over one database and one broker, with the
outbox enabled.

As in the partner service every statement of a transaction is a step, locked rows
block, writes reach the tables with the commit, and a process may stop for good at
any point (`abort`: a crash, a timeout, a lost connection, a rollback).

* `Tx`, `TxPc`: `createWithOutbox`, and `enqueuePartner` inside the transaction of
  `mutate` or of `handleStockUpdatedEvent`, from the capacity checks
  (`requireOutboxCapacity`, `requireBusinessCapacity`) to the commit.
* `mutateNext`, `handleNext`: the locking read of `mutate` and of the two stock
  listeners, and what they decide on the order.
* `RelayPc`: `OutboxRelay.relayPendingEvents`. A batch is sent, the answers are
  awaited in order, the confirmed rows are marked, old `SENT` rows are purged. A
  record in flight is appended by the broker at any time or never (`append`), and
  the answer may be lost.
* `Act`: requests, stock events in any order and number, and the environment's
  part of a statement: the UUID, the clock, and the ids in `partner_effect`.

`written` lists the outbox rows whose source transaction committed, `broker` the
records the broker has appended; neither forgets what is purged.
-/
import OrderSystem.Foundations.Interleaving
import OrderSystem.Foundations.Locks
import OrderSystem.Orders.Database

namespace OrderSystem.Orders

/-! ### The store -/

/-- The rows a statement can lock. -/
inductive Resource where
  | capacity
  | order (id : ℤ)
  deriving DecidableEq, Repr

/-- Everything the processes share. -/
structure Store where
  db : Db := {}
  nextOrder : ℤ := 1
  nextOutbox : ℕ := 1
  locks : Locks.Table Resource := []
  inFlight : List (ℕ × OutboxRow) := []
  nextSend : ℕ := 0
  acked : List ℕ := []
  broker : List OutboxRow := []
  written : List OutboxRow := []

namespace Store

/-- The partner events whose source transaction committed. -/
def accepted (s : Store) : List PartnerOrderEvent :=
  s.written.filterMap OutboxRow.partner

/-- The resource is not locked by another process. -/
def canLock (s : Store) (t : ℕ) (r : Resource) : Bool :=
  Locks.available s.locks t (· == r)

/-- Process `t` takes a lock. -/
def lock (s : Store) (t : ℕ) (r : Resource) : Store :=
  { s with locks := Locks.acquire s.locks t [r] }

/-- The transaction of process `t` ends. -/
def unlock (s : Store) (t : ℕ) : Store :=
  { s with locks := Locks.release s.locks t }

end Store

/-! ### Local states -/

/-- A transaction that writes to the outbox, with the entity it holds in
memory. -/
inductive Tx where
  | create (order : Order)
  | enqueue (order : Order) (operation : Operation)
  deriving DecidableEq, Repr

/-- The next statement of the transaction. The two counts read one snapshot, the
one of the first plain read of the transaction. -/
inductive TxPc where
  | lockCapacity
  | countOutbox
  | countBusiness (view : Db)
  | saveOrder
  | saveOutbox
  | commit (row : OutboxRow)
  deriving DecidableEq, Repr

/-- The next statement of `relayPendingEvents`; sends are numbered. -/
inductive RelayPc where
  | sending (todo : List OutboxRow) (sends : List (ℕ × OutboxRow))
  | awaiting (sends : List (ℕ × OutboxRow)) (sent : List ℕ)
  | marking (sent : List ℕ)
  | purging
  deriving DecidableEq, Repr

/-- What a request or a listener call ends with. -/
inductive Result where
  | ok (order : Order)
  | badRequest (body : Option String)
  | refused (message : String)
  | failed
  | skipped
  deriving DecidableEq, Repr

/-- The local state of a process. -/
inductive Proc where
  | idle
  | mutating (id : ℤ) (quantity : ℤ) (price : Double) (cancel : Bool)
  | handling (event : StockEvent)
  | inside (tx : Tx) (pc : TxPc)
  | cancelling (order : Order)
  | answered (result : Result)
  | relaying (pc : RelayPc)
  deriving DecidableEq, Repr

/-- The choices of the environment. -/
inductive Act where
  | createOrder (request : CreateOrderRequest)
  | change (id : ℤ) (request : ChangeRequest)
  | cancel (id : ℤ)
  | deliver (event : StockEvent)
  | relay
  | go (uuid : String) (time : ℤ) (delivered : List String)
  | fail
  | append (send : ℕ) (lost : Bool)
  | purge (before : ℤ) (ids : List ℕ)
  | abort
  deriving DecidableEq, Repr

/-! ### Transactions -/

/-- An `IllegalStateException` ends the transaction. -/
def refuse (t : ℕ) (s : Store) (message : String) : Option (Store × Proc) :=
  some (s.unlock t, .answered (.refused message))

/-- Whether `requireBusinessCapacity` is called: not for the confirmation of an
order that was admitted as pending. -/
def Tx.checksBusiness : Tx → Bool
  | .create _ => true
  | .enqueue _ operation => operation ≠ .create

/-- The statement after the capacity checks. -/
def Tx.afterChecks : Tx → TxPc
  | .create _ => .saveOrder
  | .enqueue _ _ => .saveOutbox

/-- The statement `pc` of a transaction that writes to the outbox. -/
def txNext (t : ℕ) (s : Store) (tx : Tx) (uuid : String) (time : ℤ) (delivered : List String) :
    TxPc → Option (Store × Proc)
  | .lockCapacity =>
      if s.canLock t .capacity then
        if s.db.capacityRow then some (s.lock t .capacity, .inside tx .countOutbox)
        else refuse t s "Outbox capacity row missing"
      else none
  | .countOutbox =>
      if 2000 ≤ s.db.outbox.length then
        refuse t s "Source Outbox retained-row limit reached; archive before admission"
      else some (s, .inside tx (if tx.checksBusiness then .countBusiness s.db else tx.afterChecks))
  | .countBusiness view =>
      if 200 ≤ view.countUnfinishedBusiness delivered then
        refuse t s "Global unfinished business budget reached (200)"
      else some (s, .inside tx tx.afterChecks)
  | .saveOrder =>
      match tx with
      | .create o => some ({ s with nextOrder := s.nextOrder + 1 },
          .inside (.create { o with orderId := s.nextOrder }) .saveOutbox)
      | .enqueue _ _ => none
  | .saveOutbox =>
      -- the key of the row is drawn whether or not the transaction commits
      if s.db.admits uuid then
        match tx with
        | .create o => some ({ s with nextOutbox := s.nextOutbox + 1 },
            .inside (.create o) (.commit (.ofOrder s.nextOutbox uuid o)))
        | .enqueue o operation =>
            let o' := o.nextPartnerSequence
            some ({ s with nextOutbox := s.nextOutbox + 1 }, .inside (.enqueue o' operation)
              (.commit (.ofPartner s.nextOutbox (o'.partnerEvent uuid operation time))))
      else some (s.unlock t, .answered .failed)
  | .commit row =>
      match tx with
      | .create o =>
          some ({ s with db := s.db.insertOrder o row,
                         written := s.written ++ [row] }.unlock t, .answered (.ok o))
      | .enqueue o _ =>
          some ({ s with db := s.db.enqueue o row,
                         written := s.written ++ [row] }.unlock t, .answered (.ok o))

/-- `mutate` up to `enqueuePartner`. -/
def mutateNext (t : ℕ) (s : Store) (id quantity : ℤ) (price : Double) (cancel : Bool) :
    Option (Store × Proc) :=
  if s.canLock t (.order id) then
    match s.db.order id with
    | none => refuse t s "Order missing"
    | some o =>
        if o.partnerSequence = 0 then
          refuse t s "Legacy order requires partner CREATE backfill before change/cancel"
        else
          match if cancel then o.cancelForPartner else o.changeForPartner quantity price with
          | none => refuse t s
              (if cancel then "Only confirmed orders can cancel"
                else "Only confirmed orders can change")
          | some o' => some (s.lock t (.order id),
              .inside (.enqueue o' (if cancel then .cancel else .change)) .lockCapacity)
  else none

/-- `handleStockUpdatedEvent` and `handleStockUpdateFailedEvent` up to
`enqueuePartner` or the commit. -/
def handleNext (t : ℕ) (s : Store) (event : StockEvent) : Option (Store × Proc) :=
  if s.canLock t (.order event.orderId) then
    match s.db.order event.orderId with
    | none => some (s.unlock t, .answered .skipped)
    | some o =>
        match event.result with
        | .updated =>
            match o.confirm with
            | some o' => some (s.lock t (.order event.orderId),
                .inside (.enqueue o' .create) .lockCapacity)
            | none => some (s.unlock t, .answered .skipped)
        | .failed _ =>
            match o.cancel with
            | some o' => some (s.lock t (.order event.orderId), .cancelling o')
            | none => some (s.unlock t, .answered .skipped)
  else none

/-! ### The relay -/

/-- The statement `pc` of `relayPendingEvents`. -/
def relayNext (s : Store) (time : ℤ) : RelayPc → Option (Store × Proc)
  | .sending [] sends => some (s, .relaying (.awaiting sends []))
  | .sending (r :: todo) sends =>
      some ({ s with inFlight := s.inFlight ++ [(s.nextSend, r)], nextSend := s.nextSend + 1 },
        .relaying (.sending todo (sends ++ [(s.nextSend, r)])))
  | .awaiting [] sent => some (s, .relaying (.marking sent))
  | .awaiting ((n, r) :: sends) sent =>
      if n ∈ s.acked then some (s, .relaying (.awaiting sends (sent ++ [r.id]))) else none
  | .marking sent =>
      if sent = [] then some (s, .relaying .purging)
      else some ({ s with db := s.db.markSent sent time }, .relaying .purging)
  | .purging => some (s, .idle)

/-- The broker appends a record that is in flight; its answer may be lost. -/
def append (s : Store) (n : ℕ) (lost : Bool) : Option Store :=
  match s.inFlight.lookup n with
  | none => none
  | some r =>
      some { s with inFlight := s.inFlight.filter fun x => x.1 ≠ n
                    broker := s.broker ++ [r]
                    acked := if lost then s.acked else s.acked ++ [n] }

/-- `deleteSentBefore` picks at most 5000 of the old `SENT` rows. -/
def purgeSent (s : Store) (before : ℤ) (ids : List ℕ) : Option Store :=
  if ids.length ≤ 5000 ∧ ∀ r ∈ s.db.outbox, r.id ∈ ids →
      r.status = .sent ∧ ∃ time ∈ r.sentAt, time < before then
    some { s with db := s.db.deleteSent ids }
  else none

/-! ### The service -/

/-- One step of process `t`. -/
def next (t : ℕ) (s : Store) : Proc → Act → Option (Store × Proc)
  | _, .abort => some (s.unlock t, .idle)
  | .idle, .createOrder request =>
      if request.isInvalid then
        some (s, .answered (.badRequest
          (some "productCode는 필수, quantity > 0, price >= 0 이어야 합니다")))
      else some (s, .inside (.create request.toOrder) .lockCapacity)
  | .idle, .change id request =>
      if request.isInvalid then some (s, .answered (.badRequest none))
      else some (s, .mutating id request.quantity request.price false)
  | .idle, .cancel id => some (s, .mutating id 0 ⟨0⟩ true)
  | .idle, .deliver event => some (s, .handling event)
  | .idle, .relay => some (s, .relaying (.sending s.db.findTop500Pending []))
  | .idle, .append n lost => (append s n lost).map (·, .idle)
  | .mutating id quantity price cancel, .go _ _ _ => mutateNext t s id quantity price cancel
  | .handling event, .go _ _ _ => handleNext t s event
  | .inside tx pc, .go uuid time delivered => txNext t s tx uuid time delivered pc
  | .cancelling o, .go _ _ _ =>
      some ({ s with db := s.db.updateOrder o }.unlock t, .answered (.ok o))
  | .answered _, .go _ _ _ => some (s, .idle)
  | .relaying pc, .go _ time _ => relayNext s time pc
  -- a record that cannot be prepared ends the sending, a failed answer the waiting
  | .relaying (.sending _ sends), .fail => some (s, .relaying (.awaiting sends []))
  | .relaying (.awaiting _ sent), .fail => some (s, .relaying (.marking sent))
  | .relaying .purging, .purge before ids => (purgeSent s before ids).map (·, .idle)
  | _, _ => none

/-- order-service. -/
def service : Interleaving.Program Store Proc Act := ⟨next⟩

/-- Empty tables, nothing published, no process running. -/
def initial : Interleaving.Config Store Proc := ⟨{}, fun _ => .idle⟩

/-! ### Sample runs -/

/-- A printed UUID, for the runs that show the results at work. -/
def sampleUuid (digit : Char) : String :=
  "00000000-0000-0000-0000-00000000000" ++ digit.toString

/-- A request for two pieces of a product. -/
def sampleRequest : CreateOrderRequest :=
  ⟨some "P", 2, ⟨0⟩, some "S", none⟩

/-- The next `n` statements of process `t`. -/
def statements (t n : ℕ) (digit : Char) : List (ℕ × Act) :=
  List.replicate n (t, .go (sampleUuid digit) 1 [])

end OrderSystem.Orders
