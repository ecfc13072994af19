/-
The tables of `partner_db` (`schema.sql`) and what the statements of
`InboxRepository`, `PartnerOrderRepository` and `CompletionOutbox` read from
them and write to their rows.

The columns `event_id`, `run_id`, `seller_id`, `order_id`, `seq` and `payload`
of an inbox row all come from one record, so a row carries the event itself.
Text ids are compared by equality, in the JVM, in the keys of the tables and at
the seller alike.

* `InboxRow`: `fresh` is the `INSERT` of `storeAll`, `claimable` the condition
  of `findReady` and `claim`, `heldBy` the condition of `holds`, `renew` and
  `giveBack`, and `claim`, `renew`, `complete`, `giveBack`, `markDone`,
  `scheduleRetry` the `UPDATE`s.
* `PermitRow`: the slots of a seller, with `free`, `heldBy`, `take`, `renew` and
  `release`.
* `Db`: the tables; `isDelivered`, `lastSequence`, `recordDelivery` and the
  counts of the capacity check.
-/
import OrderSystem.Common.Events
import OrderSystem.Foundations.Table

namespace OrderSystem.Partner

/-- `PartnerTask`, as far as it is stored: the event and where it was read. -/
structure PartnerTask where
  event : PartnerOrderEvent
  partition : ℕ
  offset : ℕ
  deriving DecidableEq, Repr

/-- `InboxRepository.Claim`: the token an owner presents on every write after
the claim. -/
structure Claim where
  eventId : String
  sellerId : String
  owner : String
  generation : ℕ
  slot : ℕ
  retry : Bool
  reclaimed : Bool
  deriving DecidableEq, Repr

/-! ### Inbox rows -/

/-- The `state` column of `inbox`. -/
inductive InboxState where
  | pending
  | claimed
  | done
  deriving DecidableEq, Repr

/-- A row of `inbox`. -/
structure InboxRow where
  event : PartnerOrderEvent
  partition : ℕ
  offset : ℕ
  receivedAt : ℤ
  state : InboxState := .pending
  attempts : ℕ := 0
  nextAt : ℤ := 0
  doneAt : Option ℤ := none
  owner : Option String := none
  generation : ℕ := 0
  leaseUntil : ℤ := 0
  deriving DecidableEq, Repr

namespace InboxRow

/-- The primary key of `inbox`. -/
def eventId (r : InboxRow) : String := r.event.eventId

/-- The unique key `order_seq` of `inbox`. -/
def orderSeq (r : InboxRow) : OrderKey × ℤ := (r.event.order, r.event.sequence)

/-- The row `storeAll` inserts for a task; the other columns get their
defaults. -/
def fresh (task : PartnerTask) (receivedAt : ℤ) : InboxRow :=
  { event := task.event, partition := task.partition, offset := task.offset,
    receivedAt := receivedAt }

/-- Claimed under a lease that has not run out at `now`. -/
def live (now : ℤ) (r : InboxRow) : Prop :=
  r.state = .claimed ∧ now ≤ r.leaseUntil

/-- The row may be claimed: pending and due by the clock of the JVM, or claimed
under a lease that has run out on the database clock, and next in its order. -/
def claimable (now jvm last : ℤ) (r : InboxRow) : Prop :=
  ((r.state = .pending ∧ r.nextAt ≤ jvm) ∨ (r.state = .claimed ∧ r.leaseUntil < now)) ∧
    r.event.sequence = last + 1

/-- `event_id=? AND owner=? AND generation=?`. -/
def tokenOf (c : Claim) (r : InboxRow) : Prop :=
  r.eventId = c.eventId ∧ r.owner = some c.owner ∧ r.generation = c.generation

/-- The condition of `holds`: the token matches, and the lease has not run
out. -/
def heldBy (c : Claim) (now : ℤ) (r : InboxRow) : Prop :=
  r.tokenOf c ∧ r.live now

instance (now : ℤ) (r : InboxRow) : Decidable (r.live now) :=
  inferInstanceAs (Decidable (_ ∧ _))

instance (now jvm last : ℤ) (r : InboxRow) : Decidable (r.claimable now jvm last) :=
  inferInstanceAs (Decidable (_ ∧ _))

instance (c : Claim) (r : InboxRow) : Decidable (r.tokenOf c) :=
  inferInstanceAs (Decidable (_ ∧ _ ∧ _))

instance (c : Claim) (now : ℤ) (r : InboxRow) : Decidable (r.heldBy c now) :=
  inferInstanceAs (Decidable (_ ∧ _))

/-- The update of `claim`. -/
def claim (owner : String) (lease : ℤ) (r : InboxRow) : InboxRow :=
  { r with state := .claimed, owner := some owner, generation := r.generation + 1,
           attempts := r.attempts + 1, leaseUntil := lease }

/-- The update of `renew`. -/
def renew (lease : ℤ) (r : InboxRow) : InboxRow :=
  { r with leaseUntil := lease }

/-- The update of `complete`. -/
def complete (doneAt : ℤ) (r : InboxRow) : InboxRow :=
  { r with state := .done, doneAt := some doneAt, owner := none, leaseUntil := 0 }

/-- The update of `giveBack`. -/
def giveBack (nextAt : ℤ) (r : InboxRow) : InboxRow :=
  { r with state := .pending, owner := none, leaseUntil := 0, nextAt := nextAt }

/-- The update of `scheduleRetry`. -/
def scheduleRetry (nextAt : ℤ) (attempts : ℕ) (r : InboxRow) : InboxRow :=
  { r with nextAt := nextAt, attempts := max r.attempts attempts }

/-- The update of `markDone`. -/
def markDone (doneAt : ℤ) (attempts : ℕ) (r : InboxRow) : InboxRow :=
  { r with state := .done, doneAt := some doneAt, attempts := max r.attempts attempts }

end InboxRow

/-! ### Seller permits -/

/-- A row of `seller_permit`: one execution slot of a seller. -/
structure PermitRow where
  sellerId : String
  slot : ℕ
  owner : Option String := none
  eventId : Option String := none
  generation : ℕ := 0
  leaseUntil : ℤ := 0
  deriving DecidableEq, Repr

namespace PermitRow

/-- The primary key of `seller_permit`. -/
def slotKey (p : PermitRow) : String × ℕ := (p.sellerId, p.slot)

/-- `owner IS NULL OR lease_until<now`. -/
def free (now : ℤ) (p : PermitRow) : Prop :=
  p.owner = none ∨ p.leaseUntil < now

/-- `owner=? AND event_id=? AND generation=?` on the slot of the token. -/
def heldBy (c : Claim) (p : PermitRow) : Prop :=
  p.sellerId = c.sellerId ∧ p.slot = c.slot ∧ p.owner = some c.owner ∧
    p.eventId = some c.eventId ∧ p.generation = c.generation

instance (now : ℤ) (p : PermitRow) : Decidable (p.free now) :=
  inferInstanceAs (Decidable (_ ∨ _))

instance (c : Claim) (p : PermitRow) : Decidable (p.heldBy c) :=
  inferInstanceAs (Decidable (_ ∧ _ ∧ _ ∧ _ ∧ _))

/-- The update of `claim`. -/
def take (owner eventId : String) (generation : ℕ) (lease : ℤ) (p : PermitRow) : PermitRow :=
  { p with owner := some owner, eventId := some eventId, generation := generation,
           leaseUntil := lease }

/-- The update of `renew`. -/
def renew (lease : ℤ) (p : PermitRow) : PermitRow :=
  { p with leaseUntil := lease }

/-- The update of `release`. -/
def release (p : PermitRow) : PermitRow :=
  { p with owner := none, eventId := none, leaseUntil := 0 }

end PermitRow

/-! ### The delivery ledger -/

/-- A row of `retry_admission`. -/
structure RetryAdmission where
  sellerId : String
  eventId : String
  admittedAt : ℤ
  deriving DecidableEq, Repr

/-- A row of `partner_effect`. -/
structure EffectRow where
  eventId : String
  runId : String
  order : OrderKey
  seq : ℤ
  operation : Operation
  quantity : ℤ
  price : Double
  completedAt : ℤ
  deriving DecidableEq, Repr

/-- A row of `partner_order`. -/
structure OrderRow where
  order : OrderKey
  seq : ℤ
  operation : Operation
  quantity : ℤ
  price : Double
  deriving DecidableEq, Repr

/-- A row of `completion_outbox`. -/
structure CompletionRow where
  eventId : String
  order : OrderKey
  sequence : ℤ
  completedAt : ℤ
  owner : String
  createdAt : ℤ
  sentAt : Option ℤ := none
  deriving DecidableEq, Repr

/-- The row `recordDelivery` inserts into `partner_effect`. -/
def EffectRow.of (e : PartnerOrderEvent) (completedAt : ℤ) : EffectRow :=
  ⟨e.eventId, e.runId, e.order, e.sequence, e.operation, e.quantity, e.price, completedAt⟩

/-- The row `recordDelivery` writes to `partner_order`. -/
def OrderRow.of (e : PartnerOrderEvent) : OrderRow :=
  ⟨e.order, e.sequence, e.operation, e.quantity, e.price⟩

/-- The tables of `partner_db`. -/
structure Db where
  inbox : List InboxRow := []
  sellerPermit : List PermitRow := []
  retryAdmission : List RetryAdmission := []
  partnerEffect : List EffectRow := []
  partnerOrder : List OrderRow := []
  completionOutbox : List CompletionRow := []
  deriving DecidableEq, Repr

namespace Db

/-- The inbox row of an event. -/
def inboxRow (db : Db) (eventId : String) : Option InboxRow :=
  Table.get InboxRow.eventId eventId db.inbox

/-- The permit row of a slot. -/
def permitRow (db : Db) (sellerId : String) (slot : ℕ) : Option PermitRow :=
  Table.get PermitRow.slotKey (sellerId, slot) db.sellerPermit

/-- `PartnerOrderRepository.isDelivered`. -/
def isDelivered (db : Db) (eventId : String) : Prop :=
  ∃ r ∈ db.partnerEffect, r.eventId = eventId

instance (db : Db) (eventId : String) : Decidable (db.isDelivered eventId) :=
  inferInstanceAs (Decidable (∃ r ∈ db.partnerEffect, _))

/-- `PartnerOrderRepository.lastSequence`. -/
def lastSequence (db : Db) (order : OrderKey) : ℤ :=
  match Table.get OrderRow.order order db.partnerOrder with
  | some r => r.seq
  | none => 0

/-- `SELECT COUNT(*) FROM inbox WHERE state<>'DONE'`. -/
def pendingCount (db : Db) : ℕ :=
  db.inbox.countP fun r => r.state ≠ .done

/-- `SELECT COUNT(*) FROM inbox`. -/
def retainedCount (db : Db) : ℕ := db.inbox.length

/-- Retry admissions of a seller inside the window that ends at `now`. -/
def retryCount (db : Db) (sellerId : String) (now windowMs : ℤ) : ℕ :=
  db.retryAdmission.countP fun r => r.sellerId = sellerId ∧ now - windowMs < r.admittedAt

/-- The row written back to `inbox`. -/
def setInbox (row : InboxRow) (db : Db) : Db :=
  { db with inbox := Table.put InboxRow.eventId row db.inbox }

/-- The row written back to `seller_permit`. -/
def setPermit (row : PermitRow) (db : Db) : Db :=
  { db with sellerPermit := Table.put PermitRow.slotKey row db.sellerPermit }

/-- The slots `ensurePermits` inserts; `INSERT IGNORE` skips those that
exist. -/
def insertPermits (sellerId : String) (slots : List ℕ) (db : Db) : Db :=
  slots.foldl (fun db slot =>
    if (db.permitRow sellerId slot).isSome then db
    else { db with sellerPermit := db.sellerPermit ++ [{ sellerId := sellerId, slot := slot }] }) db

/-- The batch `INSERT` of `storeAll`. -/
def insertInbox (rows : List InboxRow) (db : Db) : Db :=
  { db with inbox := db.inbox ++ rows }

/-- The unique keys of `inbox` admit the new rows. -/
def admitsRows (db : Db) (rows : List InboxRow) : Prop :=
  ((db.inbox ++ rows).map InboxRow.eventId).Nodup ∧
    ((db.inbox ++ rows).map InboxRow.orderSeq).Nodup

instance (db : Db) (rows : List InboxRow) : Decidable (db.admitsRows rows) :=
  inferInstanceAs (Decidable (_ ∧ _))

/-- The unique keys of `partner_effect` admit a row for the event. -/
def admitsEffect (db : Db) (e : PartnerOrderEvent) : Prop :=
  ∀ r ∈ db.partnerEffect, r.eventId ≠ e.eventId ∧ (r.order, r.seq) ≠ (e.order, e.sequence)

instance (db : Db) (e : PartnerOrderEvent) : Decidable (db.admitsEffect e) :=
  inferInstanceAs (Decidable (∀ r ∈ db.partnerEffect, _))

/-- `PartnerOrderRepository.recordDelivery`. -/
def recordDelivery (e : PartnerOrderEvent) (completedAt : ℤ) (db : Db) : Db :=
  { db with
    partnerEffect := db.partnerEffect ++ [EffectRow.of e completedAt]
    partnerOrder := Table.put OrderRow.order (OrderRow.of e) db.partnerOrder }

/-- `CompletionOutbox.record`: an `INSERT IGNORE` under the unique event id. -/
def recordCompletion (owner : String) (e : PartnerOrderEvent) (completedAt : ℤ) (db : Db) : Db :=
  if db.completionOutbox.any (fun r => r.eventId = e.eventId) then db
  else { db with completionOutbox := db.completionOutbox ++
    [⟨e.eventId, e.order, e.sequence, completedAt, owner, completedAt, none⟩] }

/-- The reports `CompletionRelay.relay` of an instance selects: unsent, its own or
orphaned, at most a batch. -/
def unsentReports (owner : String) (now : ℤ) (db : Db) : List CompletionRow :=
  (db.completionOutbox.filter fun r =>
    r.sentAt = none ∧ (r.owner = owner ∨ r.createdAt < now - 10000)).take 500

/-- The reports that were sent; the unique event id stands for the id of the row. -/
def markReports (ids : List String) (time : ℤ) (db : Db) : Db :=
  { db with completionOutbox := db.completionOutbox.map fun r =>
      if r.eventId ∈ ids then { r with sentAt := some time } else r }

/-- The purge of sent reports on the rows it picked. -/
def deleteReports (ids : List String) (db : Db) : Db :=
  { db with completionOutbox := db.completionOutbox.filter fun r => r.eventId ∉ ids }

/-- `deleteDoneBefore` on the rows it picked. -/
def deleteInbox (ids : List String) (db : Db) : Db :=
  { db with inbox := db.inbox.filter fun r => r.eventId ∉ ids }

/-- The cutoff of `deleteRetryAdmissionsBefore`. The argument `windowMs * 10` is a
Java `long`, and a difference outside the range of `BIGINT` fails the
statement. -/
def admissionCutoff (now windowMs : ℤ) : Option ℤ :=
  let cutoff := now - javaLong (windowMs * 10)
  if -2 ^ 63 ≤ cutoff ∧ cutoff < 2 ^ 63 then some cutoff else none

/-- `deleteRetryAdmissionsBefore(windowMs, limit)` picks at most `limit` of the old
rows, named by their position. -/
def deleteRetryAdmissionsBefore (now windowMs : ℤ) (limit : ℕ) (picked : List ℕ) (db : Db) :
    Option Db :=
  match admissionCutoff now windowMs with
  | none => none
  | some cutoff =>
      if picked.length ≤ limit ∧ ∀ x ∈ db.retryAdmission.zipIdx, x.2 ∈ picked →
          x.1.admittedAt < cutoff then
        some { db with
          retryAdmission := (db.retryAdmission.zipIdx.filter fun x => x.2 ∉ picked).map (·.1) }
      else none

/-- Only the table of the admissions changes. -/
lemma deleteRetryAdmissionsBefore_eq {now windowMs : ℤ} {limit : ℕ} {picked : List ℕ} {db db' : Db}
    (h : db.deleteRetryAdmissionsBefore now windowMs limit picked = some db') :
    ∃ rows, db' = { db with retryAdmission := rows } := by
  unfold deleteRetryAdmissionsBefore at h
  split at h
  · cases h
  · split_ifs at h
    cases h
    exact ⟨_, rfl⟩

end Db

/-! ### Batch ingestion -/

/-- The loop of `storeAll` over the tasks of a poll: the events that are not
known yet, each once, in the order of the poll. -/
def newRows (receivedAt : ℤ) : List String → List PartnerTask → List InboxRow
  | _, [] => []
  | known, task :: tasks =>
      if task.event.eventId ∈ known then newRows receivedAt known tasks
      else InboxRow.fresh task receivedAt ::
        newRows receivedAt (task.event.eventId :: known) tasks

/-- The ids of the batch that `SELECT event_id ... IN (...)` finds in
`inbox`. -/
def knownInInbox (db : Db) (tasks : List PartnerTask) : List String :=
  (tasks.map (·.event.eventId)).filter fun e => (db.inboxRow e).isSome

/-- The ids of the batch that the second lookup finds in `partner_effect`. -/
def knownInLedger (db : Db) (tasks : List PartnerTask) : List String :=
  (tasks.map (·.event.eventId)).filter fun e => db.isDelivered e

/-- `AdmissionPolicy.markFinished` on the insertion-ordered set of finished
event ids. -/
def markFinished (finishedLimit : ℕ) (finished : List String) (eventId : String) : List String :=
  let added := if eventId ∈ finished then finished else finished ++ [eventId]
  if finishedLimit < added.length then added.tail else added

/-! ### What the statements leave alone -/

section Frames

variable (db : Db) (row : InboxRow) (permit : PermitRow) (rows : List InboxRow)
  (ids : List String) (e : PartnerOrderEvent) (time : ℤ) (owner : String)

@[simp] lemma Db.setInbox_permits : (db.setInbox row).sellerPermit = db.sellerPermit := rfl

@[simp] lemma Db.setInbox_effects : (db.setInbox row).partnerEffect = db.partnerEffect := rfl

@[simp] lemma Db.setInbox_orders : (db.setInbox row).partnerOrder = db.partnerOrder := rfl

@[simp] lemma Db.setPermit_inbox : (db.setPermit permit).inbox = db.inbox := rfl

@[simp] lemma Db.setPermit_effects :
    (db.setPermit permit).partnerEffect = db.partnerEffect := rfl

@[simp] lemma Db.setPermit_orders : (db.setPermit permit).partnerOrder = db.partnerOrder := rfl

@[simp] lemma Db.insertInbox_permits :
    (db.insertInbox rows).sellerPermit = db.sellerPermit := rfl

@[simp] lemma Db.insertInbox_effects :
    (db.insertInbox rows).partnerEffect = db.partnerEffect := rfl

@[simp] lemma Db.insertInbox_orders : (db.insertInbox rows).partnerOrder = db.partnerOrder := rfl

@[simp] lemma Db.deleteInbox_permits :
    (db.deleteInbox ids).sellerPermit = db.sellerPermit := rfl

@[simp] lemma Db.deleteInbox_effects :
    (db.deleteInbox ids).partnerEffect = db.partnerEffect := rfl

@[simp] lemma Db.deleteInbox_orders : (db.deleteInbox ids).partnerOrder = db.partnerOrder := rfl

@[simp] lemma Db.recordDelivery_inbox : (db.recordDelivery e time).inbox = db.inbox := rfl

@[simp] lemma Db.recordDelivery_permits :
    (db.recordDelivery e time).sellerPermit = db.sellerPermit := rfl

@[simp] lemma Db.recordCompletion_inbox :
    (db.recordCompletion owner e time).inbox = db.inbox := by
  unfold recordCompletion
  split_ifs <;> rfl

@[simp] lemma Db.recordCompletion_permits :
    (db.recordCompletion owner e time).sellerPermit = db.sellerPermit := by
  unfold recordCompletion
  split_ifs <;> rfl

@[simp] lemma Db.recordCompletion_effects :
    (db.recordCompletion owner e time).partnerEffect = db.partnerEffect := by
  unfold recordCompletion
  split_ifs <;> rfl

@[simp] lemma Db.recordCompletion_orders :
    (db.recordCompletion owner e time).partnerOrder = db.partnerOrder := by
  unfold recordCompletion
  split_ifs <;> rfl

end Frames

/-- Only the permit table changes when slots are inserted. -/
lemma Db.insertPermits_eq (sellerId : String) (slots : List ℕ) (db : Db) :
    db.insertPermits sellerId slots =
      { db with sellerPermit := (db.insertPermits sellerId slots).sellerPermit } := by
  induction slots generalizing db with
  | nil => rfl
  | cons slot slots ih =>
      have hcons : db.insertPermits sellerId (slot :: slots) =
          (db.insertPermits sellerId [slot]).insertPermits sellerId slots := rfl
      rw [hcons, ih]
      simp only [insertPermits, List.foldl_cons, List.foldl_nil]
      split_ifs <;> rfl

@[simp] lemma Db.insertPermits_inbox (sellerId : String) (slots : List ℕ) (db : Db) :
    (db.insertPermits sellerId slots).inbox = db.inbox := by
  rw [insertPermits_eq]

@[simp] lemma Db.insertPermits_effects (sellerId : String) (slots : List ℕ) (db : Db) :
    (db.insertPermits sellerId slots).partnerEffect = db.partnerEffect := by
  rw [insertPermits_eq]

@[simp] lemma Db.insertPermits_orders (sellerId : String) (slots : List ℕ) (db : Db) :
    (db.insertPermits sellerId slots).partnerOrder = db.partnerOrder := by
  rw [insertPermits_eq]

@[simp] lemma Db.insertPermits_completions (sellerId : String) (slots : List ℕ) (db : Db) :
    (db.insertPermits sellerId slots).completionOutbox = db.completionOutbox := by
  rw [insertPermits_eq]

lemma Db.unique_insertPermits (sellerId : String) (slots : List ℕ) {db : Db}
    (h : Table.Unique PermitRow.slotKey db.sellerPermit) :
    Table.Unique PermitRow.slotKey (db.insertPermits sellerId slots).sellerPermit := by
  induction slots generalizing db with
  | nil => exact h
  | cons slot slots ih =>
      have hcons : db.insertPermits sellerId (slot :: slots) =
          (db.insertPermits sellerId [slot]).insertPermits sellerId slots := rfl
      rw [hcons]
      refine ih ?_
      simp only [insertPermits, List.foldl_cons, List.foldl_nil]
      split_ifs with hrow
      · exact h
      · exact h.concat (Option.not_isSome_iff_eq_none.mp hrow)

/-- The permit rows after `ensurePermits`: the old ones, and a free row for each
new slot. -/
lemma Db.permitRow_insertPermits (sellerId : String) (slots : List ℕ) (db : Db)
    (seller : String) (slot : ℕ) :
    (db.insertPermits sellerId slots).permitRow seller slot =
      (db.permitRow seller slot).or
        (if seller = sellerId ∧ slot ∈ slots then some { sellerId := sellerId, slot := slot }
          else none) := by
  induction slots generalizing db with
  | nil => simp [insertPermits]
  | cons x slots ih =>
      have hcons : db.insertPermits sellerId (x :: slots) =
          (db.insertPermits sellerId [x]).insertPermits sellerId slots := rfl
      have hone : (db.insertPermits sellerId [x]).permitRow seller slot =
          (db.permitRow seller slot).or
            (if seller = sellerId ∧ slot = x then some { sellerId := sellerId, slot := x }
              else none) := by
        simp only [insertPermits, List.foldl_cons, List.foldl_nil]
        by_cases hrow : (db.permitRow sellerId x).isSome
        · rw [if_pos hrow]
          split_ifs with hx
          · obtain ⟨rfl, rfl⟩ := hx
            obtain ⟨r, hr⟩ := Option.isSome_iff_exists.mp hrow
            simp [hr]
          · simp
        · rw [if_neg hrow]
          simp only [permitRow, Table.get_append, Table.get_singleton, PermitRow.slotKey,
            Prod.mk.injEq]
          by_cases hx : seller = sellerId ∧ slot = x
          · simp [hx]
          · rw [if_neg hx, if_neg fun h => hx ⟨h.1.symm, h.2.symm⟩]
      rw [hcons, ih, hone]
      cases hrow : db.permitRow seller slot with
      | some r => simp
      | none =>
          by_cases hx : seller = sellerId ∧ slot = x
          · simp [hx]
          · have hmem : (seller = sellerId ∧ slot ∈ x :: slots) ↔
                (seller = sellerId ∧ slot ∈ slots) := by
              simp only [List.mem_cons]
              tauto
            simp only [hmem, if_neg hx, Option.none_or]

/-- A row of the permit table after `ensurePermits` was there before or is a free
row of a new slot, and the old rows stay. -/
lemma Db.mem_insertPermits {sellerId : String} {slots : List ℕ} {db : Db}
    (h : Table.Unique PermitRow.slotKey db.sellerPermit) {permit : PermitRow} :
    permit ∈ (db.insertPermits sellerId slots).sellerPermit ↔
      permit ∈ db.sellerPermit ∨ (db.permitRow permit.sellerId permit.slot = none ∧
        permit.slot ∈ slots ∧ permit = { sellerId := sellerId, slot := permit.slot }) := by
  have hget : ∀ {t : List PermitRow}, Table.Unique PermitRow.slotKey t →
      (permit ∈ t ↔ Table.get PermitRow.slotKey (permit.sellerId, permit.slot) t = some permit) :=
    fun ht => ⟨fun hmem => (Table.get_eq_some ht).mpr ⟨hmem, rfl⟩, Table.mem_of_get⟩
  have hrow := db.permitRow_insertPermits sellerId slots permit.sellerId permit.slot
  rw [hget (Db.unique_insertPermits sellerId slots h), hget h]
  rw [permitRow] at hrow
  rw [hrow]
  change _ ↔ db.permitRow permit.sellerId permit.slot = some permit ∨ _
  cases hold : db.permitRow permit.sellerId permit.slot with
  | some old => simp
  | none =>
      simp only [Option.none_or, reduceCtorEq, true_and, false_or]
      constructor
      · intro hnew
        split_ifs at hnew with hin
        exact ⟨hin.2, (Option.some.inj hnew).symm⟩
      · rintro ⟨hin, heq⟩
        rw [if_pos ⟨by rw [heq], hin⟩, ← heq]

end OrderSystem.Partner
