/-
The partner integration service as interleaved processes over one database, one
seller API and one topic.

Every statement of a transaction is a step of its own. A transaction reads the
committed tables (READ COMMITTED), keeps its writes to itself and holds the
locks of the rows it wrote or read `FOR UPDATE` until it ends; the writes reach
the tables with the commit. A statement that needs a locked row is not enabled.
Between any two steps a process may stop for good (`abort`: a crash, a timeout,
an exception, a rollback), the database clock may advance (`tick`), and other
processes may run.

* `StoreJob`, `StorePc`: `InboxRepository.storeAll` in the transaction of
  `receiveBatch` or `storeInInbox`, then the acknowledgement of the poll.
* `ClaimJob`, `ClaimPc`: `InboxRepository.claim` with `ensurePermits`.
* `RenewPc`: `InboxRepository.renew` for one claim; its two updates are
  committed one by one.
* `ProcessJob`, `ProcessPc`: `PartnerOrderProcessor.process` and the call of
  the seller's API, then `AdmissionPolicy.markFinished` of `runClaimed`.
* `GiveBackPc`: `giveBack` and `release`.
* `RelayPc`: `CompletionRelay.relay`. A batch of reports is sent and marked only when
  the whole batch was acknowledged.
* `Act`: what the environment chooses, with the purges of the janitor and the
  relay, the broker (`produce`, `assign`, `revoke`, `poll`, `appendReport`) and the
  seller answering a request that is in flight (`serve`), in whatever order and
  however late.

`issued` and `recorded` are the `claimed` and `business_commit` lines of the
trace: the tokens handed out, and the tokens deliveries were recorded under.
-/
import OrderSystem.Foundations.Interleaving
import OrderSystem.Foundations.Locks
import OrderSystem.Partner.Database
import OrderSystem.Partner.SellerApi

namespace OrderSystem.Partner

/-! ### The store -/

/-- The rows and keys a statement can lock. -/
inductive Resource where
  | capacity
  | inboxRow (eventId : String)
  | permits (sellerId : String)
  | permit (sellerId : String) (slot : ℕ)
  | effectId (eventId : String)
  | effectSeq (order : OrderKey) (seq : ℤ)
  | orderRow (order : OrderKey)
  deriving DecidableEq, Repr

/-- A permit row of the seller, or all of them. -/
def Resource.isPermitOf (sellerId : String) : Resource → Bool
  | .permits s => s == sellerId
  | .permit s _ => s == sellerId
  | _ => false

/-- One HTTP request. -/
structure Call where
  id : ℕ
  event : PartnerOrderEvent
  deriving DecidableEq, Repr

/-- A token handed out by `claim`, with the event of the task it was claimed
for. -/
structure Issued where
  claim : Claim
  event : PartnerOrderEvent
  deriving DecidableEq, Repr

/-- Everything the processes share, and per instance (named by its owner id) the
in-memory sets `sellersWithPermits` and `finished`. -/
structure Store where
  now : ℤ := 0
  db : Db := {}
  locks : Locks.Table Resource := []
  api : SellerApi := {}
  requests : List Call := []
  replies : List (Call × Status) := []
  nextCall : ℕ := 0
  sellersWithPermits : String → List String := fun _ => []
  finished : String → List String := fun _ => []
  issued : List Issued := []
  recorded : List Claim := []
  topic : ℕ → List PartnerOrderEvent := fun _ => []
  committed : ℕ → ℕ := fun _ => 0
  reporting : List (ℕ × CompletionRow) := []
  nextReport : ℕ := 0
  reportAcks : List ℕ := []

namespace Store

/-- The resource is not locked by another process. -/
def canLock (s : Store) (t : ℕ) (r : Resource) : Bool :=
  Locks.available s.locks t (· == r)

/-- Process `t` takes locks. -/
def lock (s : Store) (t : ℕ) (rs : List Resource) : Store :=
  { s with locks := Locks.acquire s.locks t rs }

/-- The transaction of process `t` ends. -/
def unlock (s : Store) (t : ℕ) : Store :=
  { s with locks := Locks.release s.locks t }

/-- `sellersWithPermits.add(sellerId)` on one instance. -/
def rememberSeller (s : Store) (owner sellerId : String) : Store :=
  let sellers := sellerId :: s.sellersWithPermits owner
  { s with sellersWithPermits := Function.update s.sellersWithPermits owner sellers }

/-- `admission.markFinished(eventId)` on one instance. -/
def finish (s : Store) (owner : String) (limit : ℕ) (eventId : String) : Store :=
  let ids := markFinished limit (s.finished owner) eventId
  { s with finished := Function.update s.finished owner ids }

/-- An instance loses its memory. -/
def restart (s : Store) (owner : String) : Store :=
  { s with sellersWithPermits := Function.update s.sellersWithPermits owner []
           finished := Function.update s.finished owner [] }

/-- A record is appended to a partition of the topic. -/
def produce (s : Store) (p : ℕ) (e : PartnerOrderEvent) : Store :=
  { s with topic := Function.update s.topic p (s.topic p ++ [e]) }

end Store

/-! ### Local states -/

/-- A call of `storeAll`. For a poll, `poll` holds the positions of the consumer
before the batch and the positions after it. -/
structure StoreJob where
  tasks : List PartnerTask
  pendingLimit : ℕ
  retainedLimit : ℕ
  receivedAt : ℤ
  poll : Option (List (ℕ × ℕ) × List (ℕ × ℕ)) := none
  deriving DecidableEq, Repr

/-- The next statement of `storeAll` and of its caller. -/
inductive StorePc where
  | lockCapacity
  | readInbox
  | readLedger (known : List String)
  | countPending (rows : List InboxRow)
  | countRetained (rows : List InboxRow)
  | insert (rows : List InboxRow)
  | commit (rows : List InboxRow)
  | acknowledge
  deriving DecidableEq, Repr

/-- The arguments of `claim`, with the candidate task of `findReady`. -/
structure ClaimJob where
  event : PartnerOrderEvent
  owner : String
  sellerPermits : ℕ
  retryBudget : ℕ
  retryWindowMs : ℤ
  leaseMs : ℤ
  deriving DecidableEq, Repr

/-- `ClaimResult`, with the rows a successful claim writes. -/
inductive ClaimResult where
  | sellerFull
  | taken
  | retryBudget
  | claimed (slot : ℕ) (row : InboxRow) (admittedAt : Option ℤ) (row' : InboxRow)
      (permit : PermitRow)
  deriving DecidableEq, Repr

/-- The next statement of `claim`; `inserted` are the slots `ensurePermits`
inserted in this transaction. -/
inductive ClaimPc where
  | ensurePermits
  | ensure (slot : ℕ) (inserted : List ℕ)
  | selectPermits (inserted : List ℕ)
  | selectRow (inserted : List ℕ) (slot : ℕ)
  | countAdmissions (inserted : List ℕ) (slot : ℕ) (row : InboxRow)
  | insertAdmission (inserted : List ℕ) (slot : ℕ) (row : InboxRow)
  | updateRow (inserted : List ℕ) (slot : ℕ) (row : InboxRow) (admittedAt : Option ℤ)
  | updatePermit (inserted : List ℕ) (slot : ℕ) (row : InboxRow) (admittedAt : Option ℤ)
      (row' : InboxRow)
  | commit (inserted : List ℕ) (result : ClaimResult)
  deriving DecidableEq, Repr

/-- The next statement of `renew` for one claim. -/
inductive RenewPc where
  | row
  | permit
  deriving DecidableEq, Repr

/-- A call of `process`. `inboxMode` is `settings.mode() == INBOX`, `reports`
says that a completion topic is configured. -/
structure ProcessJob where
  event : PartnerOrderEvent
  claim : Option Claim
  owner : String
  attempts : ℕ
  inboxMode : Bool
  reports : Bool
  finishedLimit : ℕ
  deriving DecidableEq, Repr

/-- The next statement of `process`. From `complete` on, `delivery` is the
completion time when the transaction records the delivery, and `none` when the
event was delivered before and only the claim is closed. -/
inductive ProcessPc where
  | isDelivered
  | duplicateHolds
  | lastSequence
  | submit
  | calling (call : Call)
  | holds
  | checkDelivered
  | checkSequence
  | insertEffect
  | upsertOrder (now : ℤ)
  | insertCompletion (now : ℤ)
  | complete (delivery : Option ℤ)
  | release (delivery : Option ℤ) (row : Option InboxRow)
  | commit (delivery : Option ℤ) (row : Option InboxRow) (permit : Option PermitRow)
  | returned
  deriving DecidableEq, Repr

/-- The next statement of `giveBack`; `release` alone starts at its second
statement. -/
inductive GiveBackPc where
  | row (nextAt : ℤ)
  | release (row : Option InboxRow)
  | commit (row : Option InboxRow) (permit : Option PermitRow)
  deriving DecidableEq, Repr

/-- The next statement of `CompletionRelay.relay`; sends are numbered. -/
inductive RelayPc where
  | select
  | sending (todo : List CompletionRow) (sends : List (ℕ × CompletionRow))
  | awaiting (sends : List (ℕ × CompletionRow))
  | marking (ids : List String)
  deriving DecidableEq, Repr

/-- The local state of a process. -/
inductive Proc where
  | idle
  | consuming (positions : List (ℕ × ℕ))
  | storing (job : StoreJob) (pc : StorePc)
  | claiming (job : ClaimJob) (pc : ClaimPc)
  | renewing (claim : Claim) (leaseMs : ℤ) (pc : RenewPc)
  | delivering (job : ProcessJob) (pc : ProcessPc)
  | givingBack (claim : Claim) (pc : GiveBackPc)
  | relaying (owner : String) (pc : RelayPc)
  deriving DecidableEq, Repr

/-- What a free process can begin. -/
inductive Job where
  | consume
  | storeAll (job : StoreJob)
  | claim (job : ClaimJob)
  | renew (claim : Claim) (leaseMs : ℤ)
  | process (job : ProcessJob)
  | giveBack (claim : Claim) (nextAt : ℤ)
  | release (claim : Claim)
  | relay (owner : String)
  deriving DecidableEq, Repr

/-- The choices of the environment. `go` runs the next statement; its argument is
what `System.currentTimeMillis()` returns there, while `NOW(3)` is the database
clock of the store. -/
inductive Act where
  | start (job : Job)
  | go (jvm : ℤ)
  | abort
  | tick (now : ℤ)
  | restart (owner : String)
  | serve (call : Call) (rejected lost : Bool)
  | produce (partition : ℕ) (event : PartnerOrderEvent)
  | assign (partition : ℕ)
  | revoke (partition : ℕ)
  | poll (counts : List (ℕ × ℕ)) (pendingLimit retainedLimit : ℕ) (receivedAt : ℤ)
  | scheduleRetry (eventId : String) (nextAt : ℤ) (attempts : ℕ)
  | deleteDoneBefore (cutoff : ℤ) (limit : ℕ) (ids : List String)
  | deleteRetryAdmissionsBefore (windowMs : ℤ) (limit : ℕ) (picked : List ℕ)
  | appendReport (send : ℕ) (lost : Bool)
  | purgeReports (now : ℤ) (ids : List String)
  deriving DecidableEq, Repr

/-! ### Ingestion -/

/-- The records a poll returns from one partition. -/
def polled (s : Store) (partition position count : ℕ) : List PartnerTask :=
  (((s.topic partition).drop position).take count).zipIdx.map fun x =>
    ⟨x.1, partition, position + x.2⟩

/-- The whole poll: for each named partition the records from the consumer's
position on; `none` when a partition is not assigned. -/
def pollBatch (s : Store) (positions : List (ℕ × ℕ)) :
    List (ℕ × ℕ) → Option (List PartnerTask × List (ℕ × ℕ))
  | [] => some ([], [])
  | (p, n) :: rest => do
      let position ← positions.lookup p
      let (tasks, ends) ← pollBatch s positions rest
      let records := polled s p position n
      return (records ++ tasks, (p, position + records.length) :: ends)

/-- Where a failed or finished `storeAll` leaves its process: a consumer reads
the same records again, or goes on behind them. -/
def StoreJob.failed (job : StoreJob) : Proc :=
  match job.poll with
  | none => .idle
  | some (before, _) => .consuming before

/-- The statement `pc` of `storeAll`. -/
def storeNext (t : ℕ) (s : Store) (job : StoreJob) : StorePc → Option (Store × Proc)
  | .lockCapacity =>
      if s.canLock t .capacity then
        some (s.lock t [.capacity], .storing job .readInbox)
      else none
  | .readInbox => some (s, .storing job (.readLedger (knownInInbox s.db job.tasks)))
  | .readLedger known =>
      let rows := newRows job.receivedAt (known ++ knownInLedger s.db job.tasks) job.tasks
      if rows = [] then some (s.unlock t, .storing job .acknowledge)
      else some (s, .storing job (.countPending rows))
  | .countPending rows =>
      -- InboxFullException rolls the transaction back
      if job.pendingLimit < s.db.pendingCount + rows.length then some (s.unlock t, job.failed)
      else some (s, .storing job (.countRetained rows))
  | .countRetained rows =>
      if job.retainedLimit < s.db.retainedCount + rows.length then some (s.unlock t, job.failed)
      else some (s, .storing job (.insert rows))
  | .insert rows =>
      -- a duplicate key fails the whole batch
      if s.db.admitsRows rows then some (s, .storing job (.commit rows))
      else some (s.unlock t, job.failed)
  | .commit rows =>
      some ({ s with db := s.db.insertInbox rows }.unlock t, .storing job .acknowledge)
  | .acknowledge =>
      match job.poll with
      | none => some (s, .idle)
      | some (before, ends) =>
          some ({ s with committed := fun p => (ends.lookup p).getD (s.committed p) },
            .consuming (ends ++ before))

/-! ### Claims -/

/-- The permit rows of a seller as the claiming transaction sees them. -/
def permitsOf (db : Db) (sellerId : String) : List PermitRow :=
  db.sellerPermit.filter fun p => p.sellerId = sellerId

/-- The lowest free slot: the first free row in the order of the slots. -/
def firstFree (now : ℤ) (permits : List PermitRow) : Option ℕ :=
  ((permits.filter fun p => p.free now).map (·.slot)).min?

/-- The token of a successful claim. -/
def ClaimJob.token (job : ClaimJob) (slot : ℕ) (row : InboxRow) : Claim :=
  ⟨job.event.eventId, job.event.sellerId, job.owner, row.generation + 1, slot,
    0 < row.attempts, row.state = .claimed⟩

/-- The tables after the claim transaction commits. -/
def commitClaim (job : ClaimJob) (inserted : List ℕ) (db : Db) : ClaimResult → Db
  | .claimed _ _ admittedAt row' permit =>
      let db := db.insertPermits job.event.sellerId inserted
      let admission := admittedAt.map (RetryAdmission.mk job.event.sellerId job.event.eventId)
      let db := { db with retryAdmission := db.retryAdmission ++ admission.toList }
      (db.setInbox row').setPermit permit
  | _ => db.insertPermits job.event.sellerId inserted

/-- The statement `pc` of `claim`. -/
def claimNext (t : ℕ) (s : Store) (job : ClaimJob) (jvm : ℤ) :
    ClaimPc → Option (Store × Proc)
  | .ensurePermits =>
      some (s, .claiming job
        (if job.event.sellerId ∈ s.sellersWithPermits job.owner then .selectPermits []
          else .ensure 1 []))
  | .ensure slot inserted =>
      let seller := job.event.sellerId
      if job.sellerPermits < slot then
        some (s.rememberSeller job.owner seller, .claiming job (.selectPermits inserted))
      else if s.canLock t (.permit seller slot) then
        if (s.db.permitRow seller slot).isSome then
          some (s, .claiming job (.ensure (slot + 1) inserted))
        else some (s.lock t [.permit seller slot],
          .claiming job (.ensure (slot + 1) (inserted ++ [slot])))
      else none
  | .selectPermits inserted =>
      let seller := job.event.sellerId
      if Locks.available s.locks t (Resource.isPermitOf seller) then
        let view := permitsOf (s.db.insertPermits seller inserted) seller
        let rows := view.map fun p => Resource.permit seller p.slot
        match firstFree s.now view with
        | none => some (s.lock t rows, .claiming job (.commit inserted .sellerFull))
        | some slot =>
            some (s.lock t (.permits seller :: rows), .claiming job (.selectRow inserted slot))
      else none
  | .selectRow inserted slot =>
      let e := job.event.eventId
      match s.db.inboxRow e with
      | none => some (s, .claiming job (.commit inserted .taken))
      | some row =>
          -- SKIP LOCKED: a row another transaction holds is treated as absent
          if row.claimable s.now jvm (s.db.lastSequence row.event.order) ∧
              s.canLock t (.inboxRow e) then
            some (s.lock t [.inboxRow e], .claiming job
              (if 0 < row.attempts then .countAdmissions inserted slot row
                else .updateRow inserted slot row none))
          else some (s, .claiming job (.commit inserted .taken))
  | .countAdmissions inserted slot row =>
      if job.retryBudget ≤ s.db.retryCount job.event.sellerId s.now job.retryWindowMs then
        some (s, .claiming job (.commit inserted .retryBudget))
      else some (s, .claiming job (.insertAdmission inserted slot row))
  | .insertAdmission inserted slot row =>
      some (s, .claiming job (.updateRow inserted slot row (some s.now)))
  | .updateRow inserted slot row admittedAt =>
      some (s, .claiming job (.updatePermit inserted slot row admittedAt
        (row.claim job.owner (s.now + job.leaseMs))))
  | .updatePermit inserted slot row admittedAt row' =>
      match (s.db.insertPermits job.event.sellerId inserted).permitRow job.event.sellerId slot with
      | none => none
      | some permit =>
          some (s, .claiming job (.commit inserted (.claimed slot row admittedAt row'
            (permit.take job.owner job.event.eventId (row.generation + 1)
              (s.now + job.leaseMs)))))
  | .commit inserted result =>
      let s' := { s with db := commitClaim job inserted s.db result }.unlock t
      match result with
      | .claimed slot row _ _ _ =>
          some ({ s' with issued := s'.issued ++ [⟨job.token slot row, job.event⟩] }, .idle)
      | _ => some (s', .idle)

/-! ### Renewal -/

/-- The statement `pc` of `renew` for one claim; each is committed at once. -/
def renewNext (t : ℕ) (s : Store) (c : Claim) (leaseMs : ℤ) : RenewPc → Option (Store × Proc)
  | .row =>
      if s.canLock t (.inboxRow c.eventId) then
        match s.db.inboxRow c.eventId with
        | some row =>
            if row.heldBy c s.now then
              some ({ s with db := s.db.setInbox (row.renew (s.now + leaseMs)) },
                .renewing c leaseMs .permit)
            else some (s, .idle)
        | none => some (s, .idle)
      else none
  | .permit =>
      if s.canLock t (.permit c.sellerId c.slot) then
        match s.db.permitRow c.sellerId c.slot with
        | some permit =>
            if permit.heldBy c then
              some ({ s with db := s.db.setPermit (permit.renew (s.now + leaseMs)) }, .idle)
            else some (s, .idle)
        | none => some (s, .idle)
      else none

/-! ### Delivery -/

/-- `release` as a statement: the freed permit row, when the token still holds
it. -/
def releasedPermit (db : Db) (c : Claim) : Option PermitRow :=
  match db.permitRow c.sellerId c.slot with
  | some permit => if permit.heldBy c then some permit.release else none
  | none => none

/-- The inbox row and the permit row written back by a commit. -/
def writeBack (row : Option InboxRow) (permit : Option PermitRow) (db : Db) : Db :=
  let db := match row with
    | some r => db.setInbox r
    | none => db
  match permit with
  | some p => db.setPermit p
  | none => db

/-- The tables after the recording transaction commits. -/
def commitDelivery (job : ProcessJob) (delivery : Option ℤ) (row : Option InboxRow)
    (permit : Option PermitRow) (db : Db) : Db :=
  let db := match delivery with
    | none => db
    | some now =>
        let db := db.recordDelivery job.event now
        if job.reports then db.recordCompletion job.owner job.event now else db
  writeBack row permit db

/-- The statement `pc` of `process`. -/
def processNext (t : ℕ) (s : Store) (job : ProcessJob) (jvm : ℤ) :
    ProcessPc → Option (Store × Proc)
  | .isDelivered =>
      if s.db.isDelivered job.event.eventId then
        match job.claim with
        | some _ => some (s, .delivering job .duplicateHolds)
        | none => some (s, .delivering job .returned)
      else some (s, .delivering job .lastSequence)
  | .duplicateHolds =>
      match job.claim with
      | none => none
      | some c =>
          if s.canLock t (.inboxRow c.eventId) then
            match s.db.inboxRow c.eventId with
            | some row =>
                if row.heldBy c s.now then
                  some (s.lock t [.inboxRow c.eventId], .delivering job (.complete none))
                else some (s, .delivering job (.release none none))
            | none => some (s, .delivering job (.release none none))
          else none
  | .lastSequence =>
      -- DeliveryDeferredException(PREDECESSOR_PENDING)
      if s.db.lastSequence job.event.order + 1 ≠ job.event.sequence then some (s, .idle)
      else some (s, .delivering job .submit)
  | .submit =>
      let call : Call := ⟨s.nextCall, job.event⟩
      some ({ s with requests := call :: s.requests, nextCall := s.nextCall + 1 },
        .delivering job (.calling call))
  | .calling call =>
      if (call, Status.ok200) ∈ s.replies then
        some (s, .delivering job (if job.claim.isSome then .holds else .checkDelivered))
      else if s.replies.any (fun r => r.1 = call) then some (s, .idle)
      else none
  | .holds =>
      match job.claim with
      | none => none
      | some c =>
          if s.canLock t (.inboxRow c.eventId) then
            match s.db.inboxRow c.eventId with
            | some row =>
                if row.heldBy c s.now then
                  some (s.lock t [.inboxRow c.eventId], .delivering job .checkDelivered)
                -- StaleClaimException
                else some (s.unlock t, .idle)
            | none => some (s.unlock t, .idle)
          else none
  | .checkDelivered =>
      if s.db.isDelivered job.event.eventId then
        if job.claim.isSome then some (s, .delivering job (.complete none))
        else some (s.unlock t, .delivering job .returned)
      else some (s, .delivering job .checkSequence)
  | .checkSequence =>
      -- IllegalStateException("Predecessor changed")
      if s.db.lastSequence job.event.order + 1 ≠ job.event.sequence then some (s.unlock t, .idle)
      else some (s, .delivering job .insertEffect)
  | .insertEffect =>
      let keys := [Resource.effectId job.event.eventId,
        .effectSeq job.event.order job.event.sequence]
      if keys.all (s.canLock t) then
        if s.db.admitsEffect job.event then
          some (s.lock t keys, .delivering job (.upsertOrder jvm))
        -- DuplicateKeyException
        else some (s.unlock t, .idle)
      else none
  | .upsertOrder doneAt =>
      if s.canLock t (.orderRow job.event.order) then
        some (s.lock t [.orderRow job.event.order], .delivering job (.insertCompletion doneAt))
      else none
  | .insertCompletion doneAt => some (s, .delivering job (.complete (some doneAt)))
  | .complete delivery =>
      match job.claim with
      | some c =>
          some (s, .delivering job (.release delivery
            ((s.db.inboxRow c.eventId).filter (fun row => row.tokenOf c) |>.map
              (InboxRow.complete (delivery.getD jvm)))))
      | none =>
          if job.inboxMode ∧ delivery.isSome then
            if s.canLock t (.inboxRow job.event.eventId) then
              some (s.lock t [.inboxRow job.event.eventId], .delivering job (.commit delivery
                ((s.db.inboxRow job.event.eventId).map
                  (InboxRow.markDone (delivery.getD jvm) job.attempts)) none))
            else none
          else some (s, .delivering job (.commit delivery none none))
  | .release delivery row =>
      match job.claim with
      | none => none
      | some c =>
          if s.canLock t (.permit c.sellerId c.slot) then
            match releasedPermit s.db c with
            | some permit => some (s.lock t [.permit c.sellerId c.slot],
                .delivering job (.commit delivery row (some permit)))
            | none => some (s, .delivering job (.commit delivery row none))
          else none
  | .commit delivery row permit =>
      let s' := { s with db := commitDelivery job delivery row permit s.db }.unlock t
      let s' := match delivery, job.claim with
        | some _, some c => { s' with recorded := s'.recorded ++ [c] }
        | _, _ => s'
      some (s', .delivering job .returned)
  | .returned =>
      match job.claim with
      | some _ => some (s.finish job.owner job.finishedLimit job.event.eventId, .idle)
      | none => some (s, .idle)

/-! ### Giving back -/

/-- The statement `pc` of `giveBack`. -/
def giveBackNext (t : ℕ) (s : Store) (c : Claim) : GiveBackPc → Option (Store × Proc)
  | .row nextAt =>
      if s.canLock t (.inboxRow c.eventId) then
        match s.db.inboxRow c.eventId with
        | some row =>
            if row.heldBy c s.now then
              some (s.lock t [.inboxRow c.eventId],
                .givingBack c (.release (some (row.giveBack nextAt))))
            else some (s, .givingBack c (.release none))
        | none => some (s, .givingBack c (.release none))
      else none
  | .release row =>
      if s.canLock t (.permit c.sellerId c.slot) then
        match releasedPermit s.db c with
        | some permit => some (s.lock t [.permit c.sellerId c.slot],
            .givingBack c (.commit row (some permit)))
        | none => some (s, .givingBack c (.commit row none))
      else none
  | .commit row permit =>
      some ({ s with db := writeBack row permit s.db }.unlock t, .idle)

/-! ### Completion reports -/

/-- The statement `pc` of `CompletionRelay.relay`. An exception ends it before the
marking (`abort`), and the batch is sent again by a later run. -/
def relayNext (s : Store) (owner : String) (jvm : ℤ) : RelayPc → Option (Store × Proc)
  | .select =>
      match s.db.unsentReports owner jvm with
      | [] => some (s, .idle)
      | rows => some (s, .relaying owner (.sending rows []))
  | .sending [] sends => some (s, .relaying owner (.awaiting sends))
  | .sending (r :: todo) sends =>
      some ({ s with reporting := s.reporting ++ [(s.nextReport, r)]
                     nextReport := s.nextReport + 1 },
        .relaying owner (.sending todo (sends ++ [(s.nextReport, r)])))
  | .awaiting sends =>
      if ∀ x ∈ sends, x.1 ∈ s.reportAcks then
        some (s, .relaying owner (.marking (sends.map (·.2.eventId))))
      else none
  | .marking ids => some ({ s with db := s.db.markReports ids jvm }, .idle)

/-- The broker appends a report that is in flight to the completion topic; its
answer may be lost. -/
def appendReport (s : Store) (n : ℕ) (lost : Bool) : Option Store :=
  match s.reporting.lookup n with
  | none => none
  | some _ =>
      some { s with reporting := s.reporting.filter fun x => x.1 ≠ n
                    reportAcks := if lost then s.reportAcks else s.reportAcks ++ [n] }

/-- The purge of the relay picks at most 5000 of the reports that were sent a minute
ago. -/
def purgeReports (s : Store) (now : ℤ) (ids : List String) : Option Store :=
  if ids.length ≤ 5000 ∧ ∀ r ∈ s.db.completionOutbox, r.eventId ∈ ids →
      ∃ time ∈ r.sentAt, time < now - 60000 then
    some { s with db := s.db.deleteReports ids }
  else none

/-- The store with other reports. -/
def Store.withReports (s : Store) (rows : List CompletionRow) (reporting : List (ℕ × CompletionRow))
    (nextReport : ℕ) (reportAcks : List ℕ) : Store :=
  { s with db := { s.db with completionOutbox := rows }, reporting := reporting
           nextReport := nextReport, reportAcks := reportAcks }

/-- The relay touches nothing but the reports. -/
lemma relayNext_eq {s s' : Store} {owner : String} {jvm : ℤ} {pc : RelayPc} {p' : Proc}
    (h : relayNext s owner jvm pc = some (s', p')) :
    (∃ rows reporting n acks, s' = s.withReports rows reporting n acks) ∧
      ((∃ pc', p' = .relaying owner pc') ∨ p' = .idle) := by
  unfold relayNext at h
  split at h <;> (try split at h) <;> cases h
  all_goals refine ⟨⟨_, _, _, _, rfl⟩, ?_⟩
  all_goals first
    | exact Or.inr rfl
    | exact Or.inl ⟨_, rfl⟩

lemma appendReport_eq {s s' : Store} {n : ℕ} {lost : Bool} (h : appendReport s n lost = some s') :
    ∃ rows reporting n acks, s' = s.withReports rows reporting n acks := by
  unfold appendReport at h
  split at h <;> cases h
  exact ⟨_, _, _, _, rfl⟩

lemma purgeReports_eq {s s' : Store} {now : ℤ} {ids : List String}
    (h : purgeReports s now ids = some s') :
    ∃ rows reporting n acks, s' = s.withReports rows reporting n acks := by
  unfold purgeReports at h
  split_ifs at h
  cases h
  exact ⟨_, _, _, _, rfl⟩

/-! ### The service -/

/-- The first local state of a job. -/
def begin : Job → Proc
  | .consume => .consuming []
  | .storeAll job => .storing job (if job.tasks = [] then .acknowledge else .lockCapacity)
  | .claim job => .claiming job .ensurePermits
  | .renew c leaseMs => .renewing c leaseMs .row
  | .process job => .delivering job .isDelivered
  | .giveBack c nextAt => .givingBack c (.row nextAt)
  | .release c => .givingBack c (.release none)
  | .relay owner => .relaying owner .select

/-- The seller answers a request that is in flight; the answer may be lost. -/
def serve (s : Store) (call : Call) (rejected lost : Bool) : Option Store :=
  if call ∈ s.requests then
    let (api, status) := s.api.doPost call.event rejected
    some { s with api := api, requests := s.requests.erase call,
                  replies := if lost then s.replies else (call, status) :: s.replies }
  else none

/-- `deleteDoneBefore` picks at most `limit` of the old finished rows; rows that
are locked make it wait. -/
def deleteDone (t : ℕ) (s : Store) (cutoff : ℤ) (limit : ℕ) (ids : List String) :
    Option Store :=
  if ids.length ≤ limit ∧ (∀ e ∈ ids, s.canLock t (.inboxRow e)) ∧
      ∀ r ∈ s.db.inbox, r.eventId ∈ ids → r.state = .done ∧ ∃ d ∈ r.doneAt, d < cutoff then
    some { s with db := s.db.deleteInbox ids }
  else none

/-- `deleteRetryAdmissionsBefore` on the database clock. -/
def deleteAdmissions (s : Store) (windowMs : ℤ) (limit : ℕ) (picked : List ℕ) : Option Store :=
  (s.db.deleteRetryAdmissionsBefore s.now windowMs limit picked).map fun db => { s with db := db }

lemma deleteAdmissions_eq {s s' : Store} {windowMs : ℤ} {limit : ℕ} {picked : List ℕ}
    (h : deleteAdmissions s windowMs limit picked = some s') :
    ∃ rows, s' = { s with db := { s.db with retryAdmission := rows } } := by
  obtain ⟨db, hdb, rfl⟩ := Option.map_eq_some_iff.mp h
  obtain ⟨rows, rfl⟩ := Db.deleteRetryAdmissionsBefore_eq hdb
  exact ⟨rows, rfl⟩

/-- One step of process `t`. -/
def next (t : ℕ) (s : Store) : Proc → Act → Option (Store × Proc)
  | _, .abort => some (s.unlock t, .idle)
  | .idle, .start job => some (s, begin job)
  | .idle, .tick now => if s.now ≤ now then some ({ s with now := now }, .idle) else none
  | .idle, .restart owner => some (s.restart owner, .idle)
  | .idle, .serve call rejected lost => (serve s call rejected lost).map (·, .idle)
  | .idle, .produce p e => some (s.produce p e, .idle)
  | .idle, .scheduleRetry e nextAt attempts =>
      if s.canLock t (.inboxRow e) then
        match s.db.inboxRow e with
        | some row =>
            some ({ s with db := s.db.setInbox (row.scheduleRetry nextAt attempts) }, .idle)
        | none => some (s, .idle)
      else none
  | .idle, .deleteDoneBefore cutoff limit ids =>
      (deleteDone t s cutoff limit ids).map (·, .idle)
  | .idle, .deleteRetryAdmissionsBefore windowMs limit picked =>
      (deleteAdmissions s windowMs limit picked).map (·, .idle)
  | .idle, .appendReport n lost => (appendReport s n lost).map (·, .idle)
  | .idle, .purgeReports now ids => (purgeReports s now ids).map (·, .idle)
  | .consuming positions, .assign p => some (s, .consuming ((p, s.committed p) :: positions))
  | .consuming positions, .revoke p =>
      some (s, .consuming (positions.filter fun x => x.1 ≠ p))
  | .consuming positions, .poll counts pendingLimit retainedLimit receivedAt =>
      (pollBatch s positions counts).map fun batch =>
        -- an event that does not pass `validate` fails the listener call
        if batch.1.all (·.event.valid) then
          (s, begin (.storeAll
            ⟨batch.1, pendingLimit, retainedLimit, receivedAt, some (positions, batch.2)⟩))
        else (s, .consuming positions)
  | .storing job pc, .go _ => storeNext t s job pc
  | .claiming job pc, .go jvm => claimNext t s job jvm pc
  | .renewing c leaseMs pc, .go _ => renewNext t s c leaseMs pc
  | .delivering job pc, .go jvm => processNext t s job jvm pc
  | .givingBack c pc, .go _ => giveBackNext t s c pc
  | .relaying owner pc, .go jvm => relayNext s owner jvm pc
  | _, _ => none

/-- The partner integration service. -/
def service : Interleaving.Program Store Proc Act := ⟨next⟩

/-- Empty tables, an empty topic, an empty ledger at the seller, no process
running. -/
def initial : Interleaving.Config Store Proc := ⟨{}, fun _ => .idle⟩

/-! ### Sample runs -/

/-- An operation of order 7 of seller `S`, for the runs that show the results at
work. -/
def sampleEvent (eventId : String) (sequence : ℤ) : PartnerOrderEvent where
  eventId := eventId
  runId := "run"
  sellerId := "S"
  orderId := 7
  sequence := sequence
  operation := if sequence = 1 then .create else .change
  occurredAt := 1
  schemaVersion := 1
  quantity := 2
  price := ⟨0⟩

/-- The next `n` statements of process `t`, with the clock of its JVM at
`jvm`. -/
def statements (t n : ℕ) (jvm : ℤ) : List (ℕ × Act) :=
  List.replicate n (t, .go jvm)

/-- Process `t` stores one event, from the capacity lock to the
acknowledgement. -/
def storing (t : ℕ) (e : PartnerOrderEvent) : List (ℕ × Act) :=
  (t, .start (.storeAll ⟨[⟨e, 0, 0⟩], 10, 10, 0, none⟩)) :: statements t 8 0

/-- Process `t` claims an event for owner `w` under a lease of 10, with one permit
for the seller, when none of its permits exist yet. -/
def claiming (t : ℕ) (e : PartnerOrderEvent) (owner : String) : List (ℕ × Act) :=
  (t, .start (.claim ⟨e, owner, 1, 5, 1000, 10⟩)) :: statements t 8 0

/-- Process `t` delivers an event under a claim; `call` is the number of its
request. -/
def delivering (t call : ℕ) (e : PartnerOrderEvent) (c : Claim) : List (ℕ × Act) :=
  (t, .start (.process ⟨e, some c, c.owner, 1, true, true, 10⟩)) :: statements t 3 0 ++
    (t + 1, .serve ⟨call, e⟩ false false) :: statements t 11 0

end OrderSystem.Partner
