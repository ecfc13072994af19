/-
What one step of a reachable state does to the shared state.

* `knows`: what a process may rely on at each statement, because of the locks it
  holds: the rows it is about to write back are those it read, and the keys it
  is about to insert are still free.
* `Effect`: every change of the store a step can make, with the conditions that
  hold when it is made. Inside a transaction only locks change (`quiet`); the
  tables change with a commit, or with one of the statements that are committed
  at once. `next_effect` is the inversion of `next` that the invariants of the
  service are derived from.
* `InboxChange`, `PermitChange`, `LedgerChange`: the same, table by table.
* `Sound`: the key constraints of the tables and the delivery ledger.
  `reachable_sound` and `reachable_knows` hold in every run.
-/
import OrderSystem.Foundations.Log
import OrderSystem.Partner.Ledger
import OrderSystem.Partner.Steps

namespace OrderSystem.Partner

open Interleaving

variable {t u : ℕ} {s s' : Store} {p p' : Proc} {a : Act}

/-! ### What a process may rely on -/

/-- The rows `storeAll` is about to insert: the events of the batch that have no
row, each once. -/
structure FreshRows (db : Db) (job : StoreJob) (rows : List InboxRow) : Prop where
  ofTask : ∀ r ∈ rows, ∃ task ∈ job.tasks, r = InboxRow.fresh task job.receivedAt
  distinct : (rows.map InboxRow.eventId).Nodup
  absent : ∀ r ∈ rows, db.inboxRow r.eventId = none

/-- The row `claim` has locked: it may be claimed. -/
structure Selected (db : Db) (now : ℤ) (job : ClaimJob) (row : InboxRow) : Prop where
  stored : db.inboxRow job.event.eventId = some row
  free : row.state = .pending ∨ (row.state = .claimed ∧ row.leaseUntil < now)

/-- The permit row `claim` takes: a free row of the table, or one of the slots
inserted in this transaction. -/
def slotRow (db : Db) (job : ClaimJob) (inserted : List ℕ) (slot : ℕ) : Option PermitRow :=
  (db.insertPermits job.event.sellerId inserted).permitRow job.event.sellerId slot

/-- The row is claimed under the token. -/
structure Holding (db : Db) (c : Claim) (row : InboxRow) : Prop where
  stored : db.inboxRow c.eventId = some row
  token : row.tokenOf c
  claimed : row.state = .claimed

/-- The event is the next operation of its order, and its keys are free in
`partner_effect`. -/
structure Recording (db : Db) (e : PartnerOrderEvent) : Prop where
  admits : db.admitsEffect e
  next : e.sequence = db.lastSequence e.order + 1

/-- The inbox row a delivery writes back: the claimed row, completed, or, without
a claim, the row of the event, marked done. -/
inductive Closing (db : Db) (job : ProcessJob) (delivery : Option ℤ) :
    Option InboxRow → Prop
  | lost {c : Claim} (hc : job.claim = some c) (hd : delivery = none) :
      Closing db job delivery none
  | complete {c : Claim} {row : InboxRow} (doneAt : ℤ) (hc : job.claim = some c)
      (h : Holding db c row) : Closing db job delivery (some (row.complete doneAt))
  | unclaimed (hc : job.claim = none) : Closing db job delivery none
  | markDone {row : InboxRow} (doneAt : ℤ) (hc : job.claim = none) (hd : delivery.isSome)
      (h : db.inboxRow job.event.eventId = some row) :
      Closing db job delivery (some (row.markDone doneAt job.attempts))

/-- The inbox row a give-back writes. -/
inductive Returning (db : Db) (c : Claim) : Option InboxRow → Prop
  | lost : Returning db c none
  | giveBack {row : InboxRow} (nextAt : ℤ) (h : Holding db c row) :
      Returning db c (some (row.giveBack nextAt))

/-- The permit row `release` writes: the slot of the token, freed. -/
inductive Freeing (db : Db) : Option Claim → Option PermitRow → Prop
  | lost {c : Option Claim} : Freeing db c none
  | release {c : Claim} {permit : PermitRow} (h : db.permitRow c.sellerId c.slot = some permit)
      (hheld : permit.heldBy c) : Freeing db (some c) (some permit.release)

/-- What `storeAll` may rely on. -/
def StorePc.knows (s : Store) (job : StoreJob) : StorePc → Prop
  | .readLedger known => ∀ task ∈ job.tasks, task.event.eventId ∉ known →
      s.db.inboxRow task.event.eventId = none
  | .countPending rows | .countRetained rows | .insert rows => FreshRows s.db job rows
  | .commit rows => FreshRows s.db job rows ∧ s.db.admitsRows rows
  | _ => True

/-- The rows a successful claim writes. -/
structure Claiming (db : Db) (now : ℤ) (job : ClaimJob) (inserted : List ℕ) (slot : ℕ)
    (row row' : InboxRow) (permit : PermitRow) : Prop where
  selected : Selected db now job row
  claimed : ∃ lease, row' = row.claim job.owner lease
  taken : ∃ old lease, slotRow db job inserted slot = some old ∧
    permit = old.take job.owner job.event.eventId (row.generation + 1) lease

/-- What `claim` may rely on. -/
def ClaimPc.knows (s : Store) (job : ClaimJob) : ClaimPc → Prop
  | .countAdmissions _ _ row | .insertAdmission _ _ row | .updateRow _ _ row _ =>
      Selected s.db s.now job row
  | .updatePermit _ _ row _ row' =>
      Selected s.db s.now job row ∧ ∃ lease, row' = row.claim job.owner lease
  | .commit inserted (.claimed slot row _ row' permit) =>
      Claiming s.db s.now job inserted slot row row' permit
  | _ => True

/-- A delivery under a claim still has the row of its claim. -/
def ProcessJob.holding (db : Db) (job : ProcessJob) : Prop :=
  ∀ c, job.claim = some c → ∃ row, Holding db c row

/-- What `process` may rely on. -/
def ProcessPc.knows (s : Store) (job : ProcessJob) : ProcessPc → Prop
  | .checkDelivered | .checkSequence => job.holding s.db
  | .insertEffect => job.holding s.db ∧ 1 ≤ job.event.sequence ∧
      job.event.sequence ≤ s.db.lastSequence job.event.order + 1
  | .upsertOrder _ | .insertCompletion _ => job.holding s.db ∧ Recording s.db job.event
  | .complete delivery => job.holding s.db ∧ (delivery.isSome → Recording s.db job.event)
  | .release delivery row =>
      Closing s.db job delivery row ∧ (delivery.isSome → Recording s.db job.event)
  | .commit delivery row permit =>
      Closing s.db job delivery row ∧ (delivery.isSome → Recording s.db job.event) ∧
        Freeing s.db job.claim permit
  | _ => True

/-- What `giveBack` may rely on. -/
def GiveBackPc.knows (s : Store) (c : Claim) : GiveBackPc → Prop
  | .row _ => True
  | .release r => Returning s.db c r
  | .commit r permit => Returning s.db c r ∧ Freeing s.db (some c) permit

/-- What a process may rely on. -/
def Proc.knows (s : Store) : Proc → Prop
  | .storing job pc => pc.knows s job
  | .claiming job pc => pc.knows s job
  | .delivering job pc => pc.knows s job
  | .givingBack c pc => pc.knows s c
  | _ => True

/-! ### Effects -/

/-- The store after the seller answered a call. -/
def Store.answered (s : Store) (call : Call) (rejected lost : Bool) : Store :=
  { s with api := (s.api.doPost call.event rejected).1
           requests := s.requests.erase call
           replies := if lost then s.replies
             else (call, (s.api.doPost call.event rejected).2) :: s.replies }

/-- The store after a transaction wrote its tables and ended. -/
def Store.committing (s : Store) (db : Db) (locks : Locks.Table Resource) : Store :=
  { s with db := db, locks := locks }

/-- The changes of the store a step of process `t` in local state `p` can
make. -/
inductive Effect (t : ℕ) (s : Store) (p : Proc) : Store → Prop
  | quiet (locks : Locks.Table Resource) (sellers : String → List String) :
      Effect t s p { s with locks := locks, sellersWithPermits := sellers }
  | tick (now : ℤ) (h : s.now ≤ now) : Effect t s p { s with now := now }
  | restart (owner : String) : Effect t s p (s.restart owner)
  | produce (q : ℕ) (e : PartnerOrderEvent) (hp : p = .idle) : Effect t s p (s.produce q e)
  | submit {job : ProcessJob} (hp : p = .delivering job .submit) :
      Effect t s p { s with requests := ⟨s.nextCall, job.event⟩ :: s.requests
                            nextCall := s.nextCall + 1 }
  | answer {call : Call} (rejected lost : Bool) (h : call ∈ s.requests) :
      Effect t s p (s.answered call rejected lost)
  | acknowledge {job : StoreJob} {before ends : List (ℕ × ℕ)}
      (hp : p = .storing job .acknowledge) (hpoll : job.poll = some (before, ends)) :
      Effect t s p { s with committed := fun q => (ends.lookup q).getD (s.committed q) }
  | finish {job : ProcessJob} {c : Claim} (hp : p = .delivering job .returned)
      (hc : job.claim = some c) :
      Effect t s p (s.finish job.owner job.finishedLimit job.event.eventId)
  | store {job : StoreJob} {rows : List InboxRow} (locks : Locks.Table Resource)
      (hp : p = .storing job (.commit rows)) (hfresh : FreshRows s.db job rows)
      (hadm : s.db.admitsRows rows) (hcap : s.mine t .capacity) :
      Effect t s p (s.committing (s.db.insertInbox rows) locks)
  | ensure {job : ClaimJob} {inserted : List ℕ} {result : ClaimResult}
      (locks : Locks.Table Resource) (hp : p = .claiming job (.commit inserted result))
      (hmine : ∀ slot ∈ inserted, s.mine t (.permit job.event.sellerId slot)) :
      Effect t s p (s.committing (s.db.insertPermits job.event.sellerId inserted) locks)
  | claim {job : ClaimJob} {inserted : List ℕ} {slot : ℕ} {row row' : InboxRow}
      {admittedAt : Option ℤ} {permit : PermitRow} (locks : Locks.Table Resource)
      (hp : p = .claiming job (.commit inserted (.claimed slot row admittedAt row' permit)))
      (hclaim : Claiming s.db s.now job inserted slot row row' permit)
      (hrow : s.mine t (.inboxRow job.event.eventId))
      (hslot : s.mine t (.permit job.event.sellerId slot))
      (hmine : ∀ slot ∈ inserted, s.mine t (.permit job.event.sellerId slot)) :
      Effect t s p
        { s.committing (commitClaim job inserted s.db
            (.claimed slot row admittedAt row' permit)) locks with
          issued := s.issued ++ [⟨job.token slot row, job.event⟩] }
  | renewRow {c : Claim} {leaseMs : ℤ} {row : InboxRow} (hp : p = .renewing c leaseMs .row)
      (h : Holding s.db c row) (hlive : s.now ≤ row.leaseUntil)
      (hmine : s.mine t (.inboxRow c.eventId)) :
      Effect t s p { s with db := s.db.setInbox (row.renew (s.now + leaseMs)) }
  | renewPermit {c : Claim} {leaseMs : ℤ} {permit : PermitRow}
      (hp : p = .renewing c leaseMs .permit)
      (h : s.db.permitRow c.sellerId c.slot = some permit) (hheld : permit.heldBy c)
      (hmine : s.mine t (.permit c.sellerId c.slot)) :
      Effect t s p { s with db := s.db.setPermit (permit.renew (s.now + leaseMs)) }
  | record {job : ProcessJob} {doneAt : ℤ} {row : Option InboxRow} {permit : Option PermitRow}
      (locks : Locks.Table Resource)
      (hp : p = .delivering job (.commit (some doneAt) row permit))
      (hclose : Closing s.db job (some doneAt) row) (hrec : Recording s.db job.event)
      (hfree : Freeing s.db job.claim permit) (hmine : ∀ r ∈ p.held, s.mine t r) :
      Effect t s p
        { s.committing (commitDelivery job (some doneAt) row permit s.db) locks with
          recorded := s.recorded ++ job.claim.toList }
  | close {job : ProcessJob} {row : Option InboxRow} {permit : Option PermitRow}
      (locks : Locks.Table Resource) (hp : p = .delivering job (.commit none row permit))
      (hclose : Closing s.db job none row)
      (hfree : Freeing s.db job.claim permit) (hmine : ∀ r ∈ p.held, s.mine t r) :
      Effect t s p (s.committing (writeBack row permit s.db) locks)
  | giveBack {c : Claim} {row : Option InboxRow} {permit : Option PermitRow}
      (locks : Locks.Table Resource) (hp : p = .givingBack c (.commit row permit))
      (hreturn : Returning s.db c row) (hfree : Freeing s.db (some c) permit)
      (hmine : ∀ r ∈ p.held, s.mine t r) :
      Effect t s p (s.committing (writeBack row permit s.db) locks)
  | scheduleRetry {e : String} {row : InboxRow} (nextAt : ℤ) (attempts : ℕ)
      (h : s.db.inboxRow e = some row) (hmine : s.mine t (.inboxRow e)) :
      Effect t s p { s with db := s.db.setInbox (row.scheduleRetry nextAt attempts) }
  | purge {ids : List String} (hmine : ∀ e ∈ ids, s.mine t (.inboxRow e))
      (hdone : ∀ r ∈ s.db.inbox, r.eventId ∈ ids → r.state = .done) :
      Effect t s p { s with db := s.db.deleteInbox ids }
  | purgeAdmissions (rows : List RetryAdmission) :
      Effect t s p { s with db := { s.db with retryAdmission := rows } }
  | reports (rows : List CompletionRow) (reporting : List (ℕ × CompletionRow)) (n : ℕ)
      (acks : List ℕ) : Effect t s p (s.withReports rows reporting n acks)

namespace Effect

lemma refl : Effect t s p s := .quiet s.locks s.sellersWithPermits

lemma lock (rs : List Resource) : Effect t s p (s.lock t rs) := .quiet _ s.sellersWithPermits

lemma unlock : Effect t s p (s.unlock t) := .quiet _ s.sellersWithPermits

end Effect

lemma storeNext_effect {job : StoreJob} {pc : StorePc}
    (hmine : ∀ r ∈ (Proc.storing job pc).held, s.mine t r) (hknows : pc.knows s job)
    (h : storeNext t s job pc = some (s', p')) : Effect t s (.storing job pc) s' := by
  cases pc with
  | lockCapacity =>
      simp only [storeNext] at h
      split_ifs at h
      cases h
      exact .lock _
  | readInbox =>
      cases h
      exact .refl
  | readLedger known =>
      simp only [storeNext] at h
      split_ifs at h <;> cases h
      · exact .unlock
      · exact .refl
  | countPending rows =>
      simp only [storeNext] at h
      split_ifs at h <;> cases h
      · exact .unlock
      · exact .refl
  | countRetained rows =>
      simp only [storeNext] at h
      split_ifs at h <;> cases h
      · exact .unlock
      · exact .refl
  | insert rows =>
      simp only [storeNext] at h
      split_ifs at h <;> cases h
      · exact .refl
      · exact .unlock
  | commit rows =>
      cases h
      exact .store _ rfl hknows.1 hknows.2 (hmine _ (by simp [Proc.held, StorePc.held]))
  | acknowledge =>
      simp only [storeNext] at h
      split at h <;> cases h
      · exact .refl
      · exact .acknowledge rfl ‹_›

lemma claimNext_effect {job : ClaimJob} {jvm : ℤ} {pc : ClaimPc}
    (hmine : ∀ r ∈ (Proc.claiming job pc).held, s.mine t r) (hknows : pc.knows s job)
    (h : claimNext t s job jvm pc = some (s', p')) : Effect t s (.claiming job pc) s' := by
  cases pc with
  | ensurePermits =>
      cases h
      exact .refl
  | ensure slot inserted =>
      simp only [claimNext] at h
      split_ifs at h <;> cases h
      · exact .quiet s.locks _
      · exact .refl
      · exact .lock _
  | selectPermits inserted =>
      simp only [claimNext] at h
      split_ifs at h
      split at h <;> cases h <;> exact .lock _
  | selectRow inserted slot =>
      simp only [claimNext] at h
      split at h
      · cases h
        exact .refl
      · split_ifs at h <;> cases h
        · exact .lock _
        · exact .lock _
        · exact .refl
  | countAdmissions inserted slot row =>
      simp only [claimNext] at h
      split_ifs at h <;> cases h <;> exact .refl
  | insertAdmission inserted slot row =>
      cases h
      exact .refl
  | updateRow inserted slot row admittedAt =>
      cases h
      exact .refl
  | updatePermit inserted slot row admittedAt row' =>
      simp only [claimNext] at h
      split at h <;> cases h
      exact .refl
  | commit inserted result =>
      have hslots : ∀ slot ∈ inserted, s.mine t (.permit job.event.sellerId slot) := by
        intro slot hslot
        refine hmine _ ?_
        cases result <;> simp [Proc.held, ClaimPc.held, hslot]
      cases result with
      | claimed slot row admittedAt row' permit =>
          cases h
          exact .claim _ rfl hknows (hmine _ (by simp [Proc.held, ClaimPc.held]))
            (hmine _ (by simp [Proc.held, ClaimPc.held])) hslots
      | _ =>
          cases h
          exact .ensure _ rfl hslots

lemma renewNext_effect {c : Claim} {leaseMs : ℤ} {pc : RenewPc}
    (h : renewNext t s c leaseMs pc = some (s', p')) :
    Effect t s (.renewing c leaseMs pc) s' := by
  cases pc with
  | row =>
      simp only [renewNext] at h
      split_ifs at h with hcan
      split at h
      · rename_i row hrow
        split_ifs at h with hheld <;> cases h
        · exact .renewRow rfl ⟨hrow, hheld.1, hheld.2.1⟩ hheld.2.2 (mine_of_canLock hcan)
        · exact .refl
      · cases h
        exact .refl
  | permit =>
      simp only [renewNext] at h
      split_ifs at h with hcan
      split at h
      · rename_i permit hpermit
        split_ifs at h with hheld <;> cases h
        · exact .renewPermit rfl hpermit hheld (mine_of_canLock hcan)
        · exact .refl
      · cases h
        exact .refl

lemma processNext_effect {job : ProcessJob} {jvm : ℤ} {pc : ProcessPc}
    (hmine : ∀ r ∈ (Proc.delivering job pc).held, s.mine t r) (hknows : pc.knows s job)
    (h : processNext t s job jvm pc = some (s', p')) :
    Effect t s (.delivering job pc) s' := by
  cases pc with
  | isDelivered =>
      simp only [processNext] at h
      split_ifs at h
      · split at h <;> cases h <;> exact .refl
      · cases h
        exact .refl
  | duplicateHolds =>
      simp only [processNext] at h
      split at h
      · cases h
      · split_ifs at h
        split at h
        · split_ifs at h <;> cases h
          · exact .lock _
          · exact .refl
        · cases h
          exact .refl
  | lastSequence =>
      simp only [processNext] at h
      split_ifs at h <;> cases h <;> exact .refl
  | submit =>
      cases h
      exact .submit rfl
  | calling call =>
      simp only [processNext] at h
      split_ifs at h <;> cases h <;> exact .refl
  | holds =>
      simp only [processNext] at h
      split at h
      · cases h
      · split_ifs at h
        split at h
        · split_ifs at h <;> cases h
          · exact .lock _
          · exact .unlock
        · cases h
          exact .unlock
  | checkDelivered =>
      simp only [processNext] at h
      split_ifs at h <;> cases h
      · exact .refl
      · exact .unlock
      · exact .refl
  | checkSequence =>
      simp only [processNext] at h
      split_ifs at h <;> cases h
      · exact .unlock
      · exact .refl
  | insertEffect =>
      simp only [processNext] at h
      split_ifs at h <;> cases h
      · exact .lock _
      · exact .unlock
  | upsertOrder doneAt =>
      simp only [processNext] at h
      split_ifs at h
      cases h
      exact .lock _
  | insertCompletion doneAt =>
      cases h
      exact .refl
  | complete delivery =>
      simp only [processNext] at h
      split at h
      · cases h
        exact .refl
      · split_ifs at h <;> cases h
        · exact .lock _
        · exact .refl
  | release delivery row =>
      simp only [processNext] at h
      split at h
      · cases h
      · split_ifs at h
        split at h <;> cases h
        · exact .lock _
        · exact .refl
  | commit delivery row permit =>
      obtain ⟨hclose, hrec, hfree⟩ := hknows
      cases delivery with
      | none =>
          cases h
          exact .close _ rfl hclose hfree hmine
      | some doneAt =>
          have heff := Effect.record (Locks.release s.locks t) rfl hclose (hrec rfl) hfree hmine
          cases hc : job.claim with
          | none =>
              simp only [processNext, hc] at h
              cases h
              rw [hc, Option.toList_none, List.append_nil] at heff
              exact heff
          | some c =>
              simp only [processNext, hc] at h
              cases h
              rw [hc] at heff
              exact heff
  | returned =>
      simp only [processNext] at h
      split at h <;> cases h
      · exact .finish rfl ‹_›
      · exact .refl

lemma giveBackNext_effect {c : Claim} {pc : GiveBackPc}
    (hmine : ∀ r ∈ (Proc.givingBack c pc).held, s.mine t r) (hknows : pc.knows s c)
    (h : giveBackNext t s c pc = some (s', p')) : Effect t s (.givingBack c pc) s' := by
  cases pc with
  | row nextAt =>
      simp only [giveBackNext] at h
      split_ifs at h
      split at h
      · split_ifs at h <;> cases h
        · exact .lock _
        · exact .refl
      · cases h
        exact .refl
  | release row =>
      simp only [giveBackNext] at h
      split_ifs at h
      split at h <;> cases h
      · exact .lock _
      · exact .refl
  | commit row permit =>
      cases h
      exact .giveBack _ rfl hknows.1 hknows.2 hmine

lemma idle_effect (h : next t s .idle a = some (s', .idle)) : Effect t s .idle s' := by
  cases a with
  | abort =>
      cases h
      exact .unlock
  | start job =>
      simp only [next, Option.some.injEq, Prod.mk.injEq] at h
      rw [← h.1]
      exact .refl
  | tick now =>
      simp only [next] at h
      split_ifs at h with hnow
      cases h
      exact .tick now hnow
  | restart owner =>
      cases h
      exact .restart owner
  | produce q e =>
      cases h
      exact .produce q e rfl
  | serve call rejected lost =>
      obtain ⟨s₁, hserve, h⟩ := Option.map_eq_some_iff.mp h
      cases h
      by_cases hmem : call ∈ s.requests
      · rw [serve, if_pos hmem] at hserve
        cases hserve
        exact .answer rejected lost hmem
      · rw [serve, if_neg hmem] at hserve
        cases hserve
  | scheduleRetry e nextAt attempts =>
      simp only [next] at h
      split_ifs at h with hcan
      split at h <;> cases h
      · exact .scheduleRetry nextAt attempts ‹_› (mine_of_canLock hcan)
      · exact .refl
  | deleteDoneBefore cutoff limit ids =>
      obtain ⟨s₁, hdelete, h⟩ := Option.map_eq_some_iff.mp h
      simp only [deleteDone] at hdelete
      split_ifs at hdelete with hok
      cases hdelete
      cases h
      exact .purge (fun e he => mine_of_canLock (hok.2.1 e he))
        fun r hr hid => (hok.2.2 r hr hid).1
  | deleteRetryAdmissionsBefore windowMs limit picked =>
      obtain ⟨s₁, hdelete, h⟩ := Option.map_eq_some_iff.mp h
      obtain ⟨rows, rfl⟩ := deleteAdmissions_eq hdelete
      cases h
      exact .purgeAdmissions _
  | appendReport n lost =>
      obtain ⟨s₁, happend, h⟩ := Option.map_eq_some_iff.mp h
      obtain ⟨rows, reporting, n, acks, rfl⟩ := appendReport_eq happend
      cases h
      exact .reports rows reporting n acks
  | purgeReports now ids =>
      obtain ⟨s₁, hpurge, h⟩ := Option.map_eq_some_iff.mp h
      obtain ⟨rows, reporting, n, acks, rfl⟩ := purgeReports_eq hpurge
      cases h
      exact .reports rows reporting n acks
  | _ => cases h

/-- **What a step does to the store**: one of the changes `Effect` lists. -/
theorem next_effect (hex : Locks.Exclusive s.locks) (hheld : ∀ r ∈ p.held, (r, t) ∈ s.locks)
    (hknows : p.knows s) (h : next t s p a = some (s', p')) : Effect t s p s' := by
  have hmine : ∀ r ∈ p.held, s.mine t r := fun r hr => mine_of_held hex (hheld r hr)
  cases next_move h with
  | abort p => exact .unlock
  | free h => exact idle_effect h
  | store h => exact storeNext_effect hmine hknows h
  | claim h => exact claimNext_effect hmine hknows h
  | renew h => exact renewNext_effect h
  | deliver h => exact processNext_effect hmine hknows h
  | giveBack h => exact giveBackNext_effect hmine hknows h
  | relay h =>
      obtain ⟨⟨rows, reporting, n, acks, rfl⟩, hp⟩ := relayNext_eq h
      exact .reports rows reporting n acks
  | _ => exact .refl

/-! ### Table by table -/

section Commits

variable (row : Option InboxRow) (permit : Option PermitRow) (db : Db) (job : ProcessJob)
  (doneAt : ℤ)

@[simp] lemma writeBack_inbox : (writeBack row permit db).inbox =
    row.elim db.inbox fun r => Table.put InboxRow.eventId r db.inbox := by
  cases row <;> cases permit <;> rfl

@[simp] lemma writeBack_permits : (writeBack row permit db).sellerPermit =
    permit.elim db.sellerPermit fun r => Table.put PermitRow.slotKey r db.sellerPermit := by
  cases row <;> cases permit <;> rfl

@[simp] lemma writeBack_effects : (writeBack row permit db).partnerEffect = db.partnerEffect := by
  cases row <;> cases permit <;> rfl

@[simp] lemma writeBack_orders : (writeBack row permit db).partnerOrder = db.partnerOrder := by
  cases row <;> cases permit <;> rfl

@[simp] lemma commitDelivery_inbox : (commitDelivery job (some doneAt) row permit db).inbox =
    row.elim db.inbox fun r => Table.put InboxRow.eventId r db.inbox := by
  simp only [commitDelivery, writeBack_inbox]
  split_ifs <;> simp

@[simp] lemma commitDelivery_permits :
    (commitDelivery job (some doneAt) row permit db).sellerPermit =
      permit.elim db.sellerPermit fun r => Table.put PermitRow.slotKey r db.sellerPermit := by
  simp only [commitDelivery, writeBack_permits]
  split_ifs <;> simp

@[simp] lemma commitDelivery_effects :
    (commitDelivery job (some doneAt) row permit db).partnerEffect =
      (db.recordDelivery job.event doneAt).partnerEffect := by
  simp only [commitDelivery, writeBack_effects]
  split_ifs <;> simp

@[simp] lemma commitDelivery_orders :
    (commitDelivery job (some doneAt) row permit db).partnerOrder =
      (db.recordDelivery job.event doneAt).partnerOrder := by
  simp only [commitDelivery, writeBack_orders]
  split_ifs <;> simp

end Commits

/-- What a step does to the inbox: nothing, insert new rows under the capacity
lock, update one row it has to itself, or delete finished rows. An update keeps
the event, never reopens a finished row and never lowers the generation. -/
inductive InboxChange (t : ℕ) (s : Store) (p : Proc) (s' : Store) : Prop
  | same (h : s'.db.inbox = s.db.inbox)
  | insert {job : StoreJob} {rows : List InboxRow} (hp : p = .storing job (.commit rows))
      (hcap : s.mine t .capacity) (hfresh : FreshRows s.db job rows) (hadm : s.db.admitsRows rows)
      (h : s'.db.inbox = s.db.inbox ++ rows)
  | update (row row' : InboxRow) (hrow : s.db.inboxRow row.eventId = some row)
      (hmine : s.mine t (.inboxRow row.eventId)) (hevent : row'.event = row.event)
      (hdone : row.state = .done → row'.state = .done)
      (hgen : row.generation ≤ row'.generation)
      (h : s'.db.inbox = Table.put InboxRow.eventId row' s.db.inbox)
  | delete {ids : List String} (hmine : ∀ e ∈ ids, s.mine t (.inboxRow e))
      (hdone : ∀ r ∈ s.db.inbox, r.eventId ∈ ids → r.state = .done)
      (h : s'.db.inbox = s.db.inbox.filter fun r => r.eventId ∉ ids)

/-- What a step does to the permits: nothing, insert slots it has locked, write
one slot it has locked, or both. -/
inductive PermitChange (t : ℕ) (s s' : Store) : Prop
  | same (h : s'.db.sellerPermit = s.db.sellerPermit)
  | insert {sellerId : String} {slots : List ℕ}
      (hmine : ∀ slot ∈ slots, s.mine t (.permit sellerId slot))
      (h : s'.db.sellerPermit = (s.db.insertPermits sellerId slots).sellerPermit)
  | update (sellerId : String) (slots : List ℕ) (permit : PermitRow)
      (hslots : ∀ slot ∈ slots, s.mine t (.permit sellerId slot))
      (hmine : s.mine t (.permit permit.sellerId permit.slot))
      (h : s'.db.sellerPermit =
        Table.put PermitRow.slotKey permit (s.db.insertPermits sellerId slots).sellerPermit)

/-- What a step does to the ledger: nothing, or it records one operation whose
keys it has locked. -/
inductive LedgerChange (t : ℕ) (s s' : Store) : Prop
  | same (he : s'.db.partnerEffect = s.db.partnerEffect)
      (ho : s'.db.partnerOrder = s.db.partnerOrder)
  | record (e : PartnerOrderEvent) (doneAt : ℤ) (hrec : Recording s.db e)
      (hid : s.mine t (.effectId e.eventId)) (hseq : s.mine t (.effectSeq e.order e.sequence))
      (he : s'.db.partnerEffect = (s.db.recordDelivery e doneAt).partnerEffect)
      (ho : s'.db.partnerOrder = (s.db.recordDelivery e doneAt).partnerOrder)

/-- A step hands out a token, or leaves the issued tokens alone. -/
inductive IssuedChange (s : Store) (p : Proc) (s' : Store) : Prop
  | same (h : s'.issued = s.issued)
  | claim {job : ClaimJob} {inserted : List ℕ} {slot : ℕ} {row row' : InboxRow}
      {admittedAt : Option ℤ} {permit : PermitRow}
      (hp : p = .claiming job (.commit inserted (.claimed slot row admittedAt row' permit)))
      (hclaim : Claiming s.db s.now job inserted slot row row' permit)
      (h : s'.issued = s.issued ++ [⟨job.token slot row, job.event⟩])
      (hin : s'.db.inbox = Table.put InboxRow.eventId row' s.db.inbox)
      (hrec : s'.recorded = s.recorded)

/-- The row found under an id has that id. -/
lemma eventId_of_inboxRow {db : Db} {id : String} {row : InboxRow}
    (h : db.inboxRow id = some row) : row.eventId = id :=
  Table.key_of_get h

namespace Effect

lemma inboxChange (h : Effect t s p s') : InboxChange t s p s' := by
  -- a row that is written back under its lock
  have hwrite : ∀ {id : String} (row row' : InboxRow), s.db.inboxRow id = some row →
      s.mine t (.inboxRow id) → row'.event = row.event →
      (row.state = .done → row'.state = .done) → row.generation ≤ row'.generation →
      s'.db.inbox = Table.put InboxRow.eventId row' s.db.inbox → InboxChange t s p s' := by
    intro id row row' hrow hmine hev hdone hgen hin
    obtain rfl := eventId_of_inboxRow hrow
    exact .update row row' hrow hmine hev hdone hgen hin
  have hclaimed : ∀ {c : Claim} {row row' : InboxRow}, Holding s.db c row →
      row.state = .done → row'.state = .done := by
    intro c row row' hhold hdone
    rw [hhold.claimed] at hdone
    cases hdone
  cases h with
  | store locks hp hfresh hadm hcap => exact .insert hp hcap hfresh hadm rfl
  | ensure locks hp hmine => exact .same (by simp [Store.committing])
  | @claim job inserted slot row row' _ _ locks hp hclaim hrow hslot hmine =>
      obtain ⟨lease, hrow'⟩ := hclaim.claimed
      refine hwrite row row' hclaim.selected.stored hrow (by rw [hrow']; rfl) ?_ ?_ ?_
      · intro hdone
        have hfree := hclaim.selected.free
        simp [hdone] at hfree
      · rw [hrow']
        exact Nat.le_succ _
      · simp [Store.committing, commitClaim, Db.setPermit, Db.setInbox]
  | @renewRow c leaseMs row hp hhold hlive hmine =>
      exact hwrite row (row.renew (s.now + leaseMs)) hhold.stored hmine rfl (hclaimed hhold)
        le_rfl rfl
  | @record job doneAt row permit locks hp hclose hrec hfree hmine =>
      subst hp
      cases hclose with
      | lost hc hd => cases hd
      | @complete c row x hc hhold =>
          have hlock : s.mine t (.inboxRow c.eventId) := by
            refine hmine _ ?_
            simp [Proc.held, ProcessPc.held, rowLocks, ProcessJob.rowId, hc]
          exact hwrite row (row.complete x) hhold.stored hlock rfl (hclaimed hhold) le_rfl
            (by simp [Store.committing])
      | unclaimed hc => exact .same (by simp [Store.committing])
      | @markDone row x hc hd hrow =>
          have hlock : s.mine t (.inboxRow job.event.eventId) := by
            refine hmine _ ?_
            simp [Proc.held, ProcessPc.held, rowLocks, ProcessJob.rowId, hc]
          exact hwrite row (row.markDone x job.attempts) hrow hlock rfl (fun _ => rfl) le_rfl
            (by simp [Store.committing])
  | @close job row permit locks hp hclose hfree hmine =>
      subst hp
      cases hclose with
      | lost hc hd => exact .same (by simp [Store.committing])
      | @complete c row x hc hhold =>
          have hlock : s.mine t (.inboxRow c.eventId) := by
            refine hmine _ ?_
            simp [Proc.held, ProcessPc.held, rowLocks, ProcessJob.rowId, hc]
          exact hwrite row (row.complete x) hhold.stored hlock rfl (hclaimed hhold) le_rfl
            (by simp [Store.committing])
      | unclaimed hc => exact .same (by simp [Store.committing])
      | markDone x hc hd hrow => cases hd
  | @giveBack c row permit locks hp hreturn hfree hmine =>
      subst hp
      cases hreturn with
      | lost => exact .same (by simp [Store.committing])
      | @giveBack row nextAt hhold =>
          have hlock : s.mine t (.inboxRow c.eventId) := by
            refine hmine _ ?_
            simp [Proc.held, GiveBackPc.held, rowLocks]
          exact hwrite row (row.giveBack nextAt) hhold.stored hlock rfl (hclaimed hhold) le_rfl
            (by simp [Store.committing])
  | @scheduleRetry e row nextAt attempts hrow hmine =>
      exact hwrite row (row.scheduleRetry nextAt attempts) hrow hmine rfl id le_rfl rfl
  | purge hmine hdone => exact .delete hmine hdone rfl
  | _ => exact .same rfl

lemma permitChange (h : Effect t s p s') : PermitChange t s s' := by
  -- a slot freed by the token that holds it
  have hfreed : ∀ {c : Option Claim} {permit : Option PermitRow}, Freeing s.db c permit →
      (∀ r ∈ permitLocks c permit, s.mine t r) →
      s'.db.sellerPermit = permit.elim s.db.sellerPermit
        (fun r => Table.put PermitRow.slotKey r s.db.sellerPermit) → PermitChange t s s' := by
    intro c permit hfree hmine heq
    cases hfree with
    | lost => exact .same heq
    | @release c old hold hheld =>
        refine .update "" [] old.release (by simp) ?_ heq
        have hlock := hmine (.permit c.sellerId c.slot) (by simp [permitLocks])
        simpa [PermitRow.release, hheld.1, hheld.2.1] using hlock
  cases h with
  | ensure locks hp hmine => exact .insert hmine rfl
  | @claim job inserted slot row row' admittedAt permit locks hp hclaim hrow hslot hmine =>
      obtain ⟨old, lease, hold, hpermit⟩ := hclaim.taken
      have hkey := Table.key_of_get hold
      simp only [PermitRow.slotKey, Prod.mk.injEq] at hkey
      refine .update job.event.sellerId inserted permit hmine ?_ ?_
      · simpa [hpermit, PermitRow.take, hkey.1, hkey.2] using hslot
      · simp [Store.committing, commitClaim, Db.setPermit, Db.setInbox]
  | @renewPermit c leaseMs permit hp hrow hheld hmine =>
      refine .update "" [] (permit.renew (s.now + leaseMs)) (by simp) ?_ rfl
      simpa [PermitRow.renew, hheld.1, hheld.2.1] using hmine
  | record locks hp hclose hrec hfree hmine =>
      subst hp
      exact hfreed hfree (fun r hr => hmine r (List.mem_append_right _ hr))
        (by simp [Store.committing])
  | close locks hp hclose hfree hmine =>
      subst hp
      exact hfreed hfree (fun r hr => hmine r (List.mem_append_right _ hr))
        (by simp [Store.committing])
  | giveBack locks hp hreturn hfree hmine =>
      subst hp
      exact hfreed hfree (fun r hr => hmine r (List.mem_append_right _ hr))
        (by simp [Store.committing])
  | _ => exact .same rfl

lemma ledgerChange (h : Effect t s p s') : LedgerChange t s s' := by
  cases h with
  | ensure locks hp hmine => exact .same (by simp [Store.committing]) (by simp [Store.committing])
  | claim locks hp hclaim hrow hslot hmine =>
      exact .same (by simp [Store.committing, commitClaim]) (by simp [Store.committing, commitClaim])
  | @record job doneAt row permit locks hp hclose hrec hfree hmine =>
      subst hp
      refine .record job.event doneAt hrec (hmine _ ?_) (hmine _ ?_) (by simp [Store.committing])
        (by simp [Store.committing]) <;>
      simp [Proc.held, ProcessPc.held, ProcessJob.effectLocks]
  | close locks hp hclose hfree hmine =>
      exact .same (by simp [Store.committing]) (by simp [Store.committing])
  | giveBack locks hp hreturn hfree hmine =>
      exact .same (by simp [Store.committing]) (by simp [Store.committing])
  | _ => exact .same rfl rfl

lemma issuedChange (h : Effect t s p s') : IssuedChange s p s' := by
  cases h with
  | claim locks hp hclaim hrow hslot hmine =>
      exact .claim hp hclaim rfl
        (by simp [Store.committing, commitClaim, Db.setPermit, Db.setInbox]) rfl
  | _ => exact .same rfl

/-- Issued tokens are not taken back. -/
lemma issued_mono (h : Effect t s p s') {i : Issued} (hi : i ∈ s.issued) : i ∈ s'.issued := by
  cases h.issuedChange with
  | same h => rwa [h]
  | claim hp hclaim h hin hrec =>
      rw [h]
      exact List.mem_append_left _ hi

/-- Only a free process appends to the topic. -/
lemma topic_eq (h : Effect t s p s') (hp : p ≠ .idle) : s'.topic = s.topic := by
  cases h with
  | produce q e hidle => exact absurd hidle hp
  | _ => rfl

/-- A step marks a delivered event as finished, forgets on a restart, or leaves
the finished events alone. -/
lemma finished_cases (h : Effect t s p s') :
    s'.finished = s.finished ∨ (∃ owner, s' = s.restart owner) ∨
      ∃ job c, p = .delivering job .returned ∧ job.claim = some c ∧
        s' = s.finish job.owner job.finishedLimit job.event.eventId := by
  cases h with
  | restart owner => exact Or.inr (Or.inl ⟨owner, rfl⟩)
  | @finish job c hp hc => exact Or.inr (Or.inr ⟨job, c, hp, hc, rfl⟩)
  | _ => exact Or.inl rfl

end Effect

/-- What a step appends to the topic. -/
lemma next_topic (heff : Effect t s p s') (h : next t s p a = some (s', p')) :
    s'.topic = s.topic ∨
      ∃ q e, a = .produce q e ∧ s'.topic = Function.update s.topic q (s.topic q ++ [e]) := by
  by_cases hp : p = .idle
  · subst hp
    cases a with
    | produce q e =>
        cases h
        exact Or.inr ⟨q, e, rfl, rfl⟩
    | start job =>
        cases h
        exact Or.inl rfl
    | abort =>
        cases h
        exact Or.inl rfl
    | restart owner =>
        cases h
        exact Or.inl rfl
    | tick now =>
        simp only [next] at h
        split_ifs at h
        cases h
        exact Or.inl rfl
    | scheduleRetry e nextAt attempts =>
        simp only [next] at h
        split_ifs at h
        split at h <;> cases h <;> exact Or.inl rfl
    | serve call rejected lost =>
        obtain ⟨s₁, hserve, h⟩ := Option.map_eq_some_iff.mp h
        simp only [serve] at hserve
        split_ifs at hserve <;> cases hserve <;> cases h <;> exact Or.inl rfl
    | deleteDoneBefore cutoff limit ids =>
        obtain ⟨s₁, hdelete, h⟩ := Option.map_eq_some_iff.mp h
        simp only [deleteDone] at hdelete
        split_ifs at hdelete
        cases hdelete
        cases h
        exact Or.inl rfl
    | deleteRetryAdmissionsBefore windowMs limit picked =>
        obtain ⟨s₁, hdelete, h⟩ := Option.map_eq_some_iff.mp h
        obtain ⟨rows, rfl⟩ := deleteAdmissions_eq hdelete
        cases h
        exact Or.inl rfl
    | appendReport n lost =>
        obtain ⟨s₁, happend, h⟩ := Option.map_eq_some_iff.mp h
        obtain ⟨_, _, _, _, rfl⟩ := appendReport_eq happend
        cases h
        exact Or.inl rfl
    | purgeReports now ids =>
        obtain ⟨s₁, hpurge, h⟩ := Option.map_eq_some_iff.mp h
        obtain ⟨_, _, _, _, rfl⟩ := purgeReports_eq hpurge
        cases h
        exact Or.inl rfl
    | _ => cases h
  · exact Or.inl (heff.topic_eq hp)

/-- The topic only grows. -/
lemma topic_grows (heff : Effect t s p s') (h : next t s p a = some (s', p')) (q : ℕ) :
    s.topic q <+: s'.topic q := by
  rcases next_topic heff h with heq | ⟨q', e, -, heq⟩
  · rw [heq]
  · rw [heq]
    exact Log.update_grows _ _ _ _

/-! ### Key constraints and the ledger -/

/-- The key constraints of the tables, and the delivery ledger. -/
structure Sound (s : Store) : Prop where
  inboxIds : Table.Unique InboxRow.eventId s.db.inbox
  inboxSeqs : Table.Unique InboxRow.orderSeq s.db.inbox
  permits : Table.Unique PermitRow.slotKey s.db.sellerPermit
  ledger : Ledger s.db

lemma InboxChange.unique (h : InboxChange t s p s')
    (hids : Table.Unique InboxRow.eventId s.db.inbox)
    (hseqs : Table.Unique InboxRow.orderSeq s.db.inbox) :
    Table.Unique InboxRow.eventId s'.db.inbox ∧ Table.Unique InboxRow.orderSeq s'.db.inbox := by
  cases h with
  | same h =>
      rw [h]
      exact ⟨hids, hseqs⟩
  | insert hp hcap hfresh hadm h =>
      rw [h]
      exact hadm
  | update row row' hrow hmine hevent hdone hgen h =>
      rw [h]
      refine ⟨hids.put row', ?_⟩
      have hmem := Table.mem_of_get hrow
      rw [Table.Unique, Table.map_put hids hmem (by simp [InboxRow.eventId, hevent])
        (by simp [InboxRow.orderSeq, hevent])]
      exact hseqs
  | delete hmine hdone h =>
      rw [h]
      exact ⟨(List.filter_sublist.map _).nodup hids, (List.filter_sublist.map _).nodup hseqs⟩

lemma PermitChange.unique (h : PermitChange t s s')
    (hkeys : Table.Unique PermitRow.slotKey s.db.sellerPermit) :
    Table.Unique PermitRow.slotKey s'.db.sellerPermit := by
  cases h with
  | same h => rwa [h]
  | insert hmine h =>
      rw [h]
      exact Db.unique_insertPermits _ _ hkeys
  | update sellerId slots permit hslots hmine h =>
      rw [h]
      exact (Db.unique_insertPermits _ _ hkeys).put permit

lemma LedgerChange.ledger (h : LedgerChange t s s') (hl : Ledger s.db) : Ledger s'.db := by
  cases h with
  | same he ho => exact hl.congr he ho
  | record e doneAt hrec hid hseq he ho =>
      exact (hl.recordDelivery hrec.admits hrec.next).congr he ho

/-- A step keeps the constraints. -/
lemma Sound.step (hs : Sound s) (h : Effect t s p s') : Sound s' := by
  obtain ⟨hids, hseqs⟩ := h.inboxChange.unique hs.inboxIds hs.inboxSeqs
  exact ⟨hids, hseqs, h.permitChange.unique hs.permits, h.ledgerChange.ledger hs.ledger⟩

/-! ### What the others cannot disturb -/

namespace Effect

/-- The database clock does not go back. -/
lemma now_le (h : Effect t s p s') : s.now ≤ s'.now := by
  cases h with
  | tick now h => exact h
  | _ => exact le_rfl

/-- An inbox row that another process has locked stays. -/
lemma inboxRow_locked (h : Effect t s p s') (hs : Sound s) {id : String} {row : InboxRow}
    (hlock : (.inboxRow id, u) ∈ s.locks) (hut : u ≠ t) (hrow : s.db.inboxRow id = some row) :
    s'.db.inboxRow id = some row := by
  have hids := (h.inboxChange.unique hs.inboxIds hs.inboxSeqs).1
  obtain ⟨hmem, hid⟩ := (Table.get_eq_some hs.inboxIds).mp hrow
  refine (Table.get_eq_some hids).mpr ⟨?_, hid⟩
  cases h.inboxChange with
  | same h => rwa [h]
  | insert hp hcap hfresh hadm h =>
      rw [h]
      exact List.mem_append_left _ hmem
  | update r r' hr hmine hevent hdone hgen h =>
      rw [h]
      refine Table.mem_put.mpr (Or.inr ⟨hmem, ?_⟩)
      intro heq
      have heq' : r.eventId = id := by
        rw [← hid, heq]
        simp [InboxRow.eventId, hevent]
      exact hut (hmine u (by rwa [heq']))
  | delete hmine hdone h =>
      rw [h]
      refine List.mem_filter.mpr ⟨hmem, ?_⟩
      simp only [decide_eq_true_eq]
      intro hin
      rw [hid] at hin
      exact hut (hmine id hin u hlock)

/-- While another process holds the capacity row, no row is inserted. -/
lemma inbox_capacity (h : Effect t s p s') (hs : Sound s) (hlock : (.capacity, u) ∈ s.locks)
    (hut : u ≠ t) :
    (s'.db.inbox.map InboxRow.event).Sublist (s.db.inbox.map InboxRow.event) := by
  cases h.inboxChange with
  | same h => rw [h]
  | insert hp hcap hfresh hadm h => exact absurd (hcap u hlock) hut
  | update r r' hr hmine hevent hdone hgen h =>
      rw [h, Table.map_put hs.inboxIds (Table.mem_of_get hr) (by simp [InboxRow.eventId, hevent])
        hevent]
  | delete hmine hdone h =>
      rw [h]
      exact List.filter_sublist.map _

/-- A permit row that another process has locked stays. -/
lemma permitRow_locked (h : Effect t s p s') (hs : Sound s) {seller : String} {slot : ℕ}
    (hlock : (.permit seller slot, u) ∈ s.locks) (hut : u ≠ t) :
    s'.db.permitRow seller slot = s.db.permitRow seller slot := by
  have hins : ∀ (sellerId : String) (slots : List ℕ),
      (∀ x ∈ slots, s.mine t (.permit sellerId x)) →
      (s.db.insertPermits sellerId slots).permitRow seller slot =
        s.db.permitRow seller slot := by
    intro sellerId slots hmine
    rw [Db.permitRow_insertPermits, if_neg, Option.or_none]
    rintro ⟨rfl, hx⟩
    exact hut (hmine slot hx u hlock)
  cases h.permitChange with
  | same h => rw [Db.permitRow, h, Db.permitRow]
  | insert hmine h =>
      rw [Db.permitRow, h]
      exact hins _ _ hmine
  | update sellerId slots permit hslots hmine h =>
      rw [← hins sellerId slots hslots, Db.permitRow, h]
      refine Table.get_put_ne (Db.unique_insertPermits _ _ hs.permits) ?_
      intro heq
      obtain ⟨h1, h2⟩ := Prod.mk.inj heq
      rw [h1, h2] at hmine
      exact hut (hmine u hlock)

/-- A delivered event stays delivered. -/
lemma isDelivered (h : Effect t s p s') {id : String} (hd : s.db.isDelivered id) :
    s'.db.isDelivered id := by
  cases h.ledgerChange with
  | same he ho => rwa [Db.isDelivered, he]
  | record e doneAt hrec hid hseq he ho =>
      rw [Db.isDelivered, he]
      exact isDelivered_recordDelivery.mpr (Or.inl hd)

/-- The last sequence of an order never goes back. -/
lemma lastSequence_le (h : Effect t s p s') (hs : Sound s) (o : OrderKey) :
    s.db.lastSequence o ≤ s'.db.lastSequence o := by
  cases h.ledgerChange with
  | same he ho => rw [Db.lastSequence, Db.lastSequence, ho]
  | record e doneAt hrec hid hseq he ho =>
      have hnew : s'.db.lastSequence o = if e.order = o then e.sequence
          else s.db.lastSequence o := by
        rw [← hs.ledger.lastSequence_recordDelivery e doneAt o, Db.lastSequence, ho]
        rfl
      rw [hnew]
      split_ifs with ho
      · rw [hrec.next, ho]
        omega
      · exact le_rfl

/-- An operation that is about to be recorded, with its keys locked, stays next
in its order. -/
lemma recording_locked (h : Effect t s p s') (hs : Sound s) {e : PartnerOrderEvent}
    (hid : (.effectId e.eventId, u) ∈ s.locks)
    (hseq : (.effectSeq e.order e.sequence, u) ∈ s.locks) (hut : u ≠ t) (hrec : Recording s.db e) :
    Recording s'.db e := by
  cases h.ledgerChange with
  | same he ho =>
      refine ⟨?_, ?_⟩
      · rw [Db.admitsEffect, he]
        exact hrec.admits
      · rw [Db.lastSequence, ho]
        exact hrec.next
  | record e' doneAt hrec' hid' hseq' he ho =>
      have hne : e'.order ≠ e.order := by
        intro heq
        have hsame : e'.sequence = e.sequence := by
          rw [hrec'.next, hrec.next, heq]
        rw [heq, hsame] at hseq'
        exact hut (hseq' u hseq)
      refine ⟨?_, ?_⟩
      · rw [Db.admitsEffect, he]
        intro r hr
        rcases List.mem_append.mp hr with hr | hr
        · exact hrec.admits r hr
        · rw [List.mem_singleton.mp hr]
          refine ⟨fun heq => ?_, fun heq => hne (Prod.mk.inj heq).1⟩
          have heq' : e'.eventId = e.eventId := heq
          rw [heq'] at hid'
          exact hut (hid' u hid)
      · have hlast := hs.ledger.lastSequence_recordDelivery e' doneAt e.order
        rw [if_neg hne] at hlast
        rw [hrec.next, ← hlast, Db.lastSequence, Db.lastSequence, ho]

end Effect

/-- No row appears when the events of the inbox only get fewer. -/
lemma inboxRow_eq_none_of_sublist {db db' : Db} {id : String}
    (h : (db'.inbox.map InboxRow.event).Sublist (db.inbox.map InboxRow.event))
    (hnone : db.inboxRow id = none) : db'.inboxRow id = none := by
  refine Table.get_eq_none.mpr fun r hr hid => ?_
  obtain ⟨r', hr', hrr'⟩ := List.mem_map.mp (h.subset (List.mem_map_of_mem hr))
  refine Table.get_eq_none.mp hnone r' hr' ?_
  rw [← hid, InboxRow.eventId, hrr', InboxRow.eventId]

lemma admitsRows_of_sublist {db db' : Db} {rows : List InboxRow}
    (h : (db'.inbox.map InboxRow.event).Sublist (db.inbox.map InboxRow.event))
    (hadm : db.admitsRows rows) : db'.admitsRows rows := by
  have hcol : ∀ {β : Type} (f : PartnerOrderEvent → β),
      ((db.inbox ++ rows).map (f ∘ InboxRow.event)).Nodup →
      ((db'.inbox ++ rows).map (f ∘ InboxRow.event)).Nodup := by
    intro β f hnodup
    rw [List.map_append, ← List.map_map] at hnodup ⊢
    exact ((h.map f).append (List.Sublist.refl _)).nodup hnodup
  exact ⟨hcol PartnerOrderEvent.eventId hadm.1, hcol (fun e => (e.order, e.sequence)) hadm.2⟩

/-! ### Knowledge survives the steps of the others -/

section Others

variable (h : Effect t s p s') (hs : Sound s) (hut : u ≠ t)

include h hs hut

lemma FreshRows.other {job : StoreJob} {rows : List InboxRow}
    (hlock : (.capacity, u) ∈ s.locks) (hf : FreshRows s.db job rows) : FreshRows s'.db job rows :=
  ⟨hf.ofTask, hf.distinct, fun r hr =>
    inboxRow_eq_none_of_sublist (h.inbox_capacity hs hlock hut) (hf.absent r hr)⟩

lemma StorePc.knows_other {job : StoreJob} {pc : StorePc}
    (hheld : ∀ r ∈ pc.held, (r, u) ∈ s.locks) (hk : pc.knows s job) : pc.knows s' job := by
  cases pc with
  | readLedger known =>
      have hcap := hheld .capacity (by simp [StorePc.held])
      exact fun task htask hid =>
        inboxRow_eq_none_of_sublist (h.inbox_capacity hs hcap hut) (hk task htask hid)
  | countPending rows =>
      exact FreshRows.other h hs hut (hheld .capacity (by simp [StorePc.held])) hk
  | countRetained rows =>
      exact FreshRows.other h hs hut (hheld .capacity (by simp [StorePc.held])) hk
  | insert rows => exact FreshRows.other h hs hut (hheld .capacity (by simp [StorePc.held])) hk
  | commit rows =>
      have hcap := hheld .capacity (by simp [StorePc.held])
      exact ⟨FreshRows.other h hs hut hcap hk.1,
        admitsRows_of_sublist (h.inbox_capacity hs hcap hut) hk.2⟩
  | _ => trivial

lemma Selected.other {job : ClaimJob} {row : InboxRow}
    (hlock : (.inboxRow job.event.eventId, u) ∈ s.locks) (hsel : Selected s.db s.now job row) :
    Selected s'.db s'.now job row :=
  ⟨h.inboxRow_locked hs hlock hut hsel.stored,
    hsel.free.imp id fun hc => ⟨hc.1, lt_of_lt_of_le hc.2 h.now_le⟩⟩

lemma slotRow_other {job : ClaimJob} {inserted : List ℕ} {slot : ℕ}
    (hlock : (.permit job.event.sellerId slot, u) ∈ s.locks) :
    slotRow s'.db job inserted slot = slotRow s.db job inserted slot := by
  rw [slotRow, slotRow, Db.permitRow_insertPermits, Db.permitRow_insertPermits,
    h.permitRow_locked hs hlock hut]

lemma ClaimPc.knows_other {job : ClaimJob} {pc : ClaimPc}
    (hheld : ∀ r ∈ pc.held job, (r, u) ∈ s.locks) (hk : pc.knows s job) : pc.knows s' job := by
  cases pc with
  | countAdmissions inserted slot row =>
      exact Selected.other h hs hut (hheld _ (by simp [ClaimPc.held])) hk
  | insertAdmission inserted slot row =>
      exact Selected.other h hs hut (hheld _ (by simp [ClaimPc.held])) hk
  | updateRow inserted slot row admittedAt =>
      exact Selected.other h hs hut (hheld _ (by simp [ClaimPc.held])) hk
  | updatePermit inserted slot row admittedAt row' =>
      exact ⟨Selected.other h hs hut (hheld _ (by simp [ClaimPc.held])) hk.1, hk.2⟩
  | commit inserted result =>
      cases result with
      | claimed slot row admittedAt row' permit =>
          refine ⟨Selected.other h hs hut (hheld _ (by simp [ClaimPc.held])) hk.selected,
            hk.claimed, ?_⟩
          rw [slotRow_other h hs hut (hheld _ (by simp [ClaimPc.held]))]
          exact hk.taken
      | _ => trivial
  | _ => trivial

lemma Holding.other {c : Claim} {row : InboxRow} (hlock : (.inboxRow c.eventId, u) ∈ s.locks)
    (hh : Holding s.db c row) : Holding s'.db c row :=
  ⟨h.inboxRow_locked hs hlock hut hh.stored, hh.token, hh.claimed⟩

lemma ProcessJob.holding_other {job : ProcessJob}
    (hlock : ∀ r ∈ job.claimLocks, (r, u) ∈ s.locks) (hh : job.holding s.db) : job.holding s'.db := by
  intro c hc
  obtain ⟨row, hrow⟩ := hh c hc
  exact ⟨row, hrow.other h hs hut
    (hlock _ (by simp [ProcessJob.claimLocks, ProcessJob.rowId, hc]))⟩

lemma Recording.other {job : ProcessJob} (hlock : ∀ r ∈ job.effectLocks, (r, u) ∈ s.locks)
    (hrec : Recording s.db job.event) : Recording s'.db job.event :=
  h.recording_locked hs (hlock _ (by simp [ProcessJob.effectLocks]))
    (hlock _ (by simp [ProcessJob.effectLocks])) hut hrec

lemma Closing.other {job : ProcessJob} {delivery : Option ℤ} {row : Option InboxRow}
    (hlock : ∀ r ∈ rowLocks job.rowId row, (r, u) ∈ s.locks) (hc : Closing s.db job delivery row) :
    Closing s'.db job delivery row := by
  cases hc with
  | lost hc hd => exact .lost hc hd
  | complete doneAt hc hhold =>
      exact .complete doneAt hc (hhold.other h hs hut
        (hlock _ (by simp [rowLocks, ProcessJob.rowId, hc])))
  | unclaimed hc => exact .unclaimed hc
  | markDone doneAt hc hd hrow =>
      exact .markDone doneAt hc hd (h.inboxRow_locked hs
        (hlock _ (by simp [rowLocks, ProcessJob.rowId, hc])) hut hrow)

lemma Returning.other {c : Claim} {row : Option InboxRow}
    (hlock : ∀ r ∈ rowLocks c.eventId row, (r, u) ∈ s.locks) (hr : Returning s.db c row) :
    Returning s'.db c row := by
  cases hr with
  | lost => exact .lost
  | giveBack nextAt hhold =>
      exact .giveBack nextAt (hhold.other h hs hut (hlock _ (by simp [rowLocks])))

lemma Freeing.other {c : Option Claim} {permit : Option PermitRow}
    (hlock : ∀ r ∈ permitLocks c permit, (r, u) ∈ s.locks) (hf : Freeing s.db c permit) :
    Freeing s'.db c permit := by
  cases hf with
  | lost => exact .lost
  | release hrow hheld =>
      refine .release ?_ hheld
      rw [h.permitRow_locked hs (hlock _ (by simp [permitLocks])) hut]
      exact hrow

lemma ProcessPc.knows_other {job : ProcessJob} {pc : ProcessPc}
    (hheld : ∀ r ∈ pc.held job, (r, u) ∈ s.locks) (hk : pc.knows s job) : pc.knows s' job := by
  -- from `complete` on, the effect keys are locked when a delivery is recorded
  have hrec : ∀ (delivery : Option ℤ),
      (∀ r ∈ (if delivery.isSome then job.effectLocks else []), (r, u) ∈ s.locks) →
      (delivery.isSome → Recording s.db job.event) → delivery.isSome → Recording s'.db job.event := by
    intro delivery hlock hrec hd
    rw [if_pos hd] at hlock
    exact (hrec hd).other h hs hut hlock
  cases pc with
  | checkDelivered => exact job.holding_other h hs hut hheld hk
  | checkSequence => exact job.holding_other h hs hut hheld hk
  | insertEffect =>
      have hlast := h.lastSequence_le hs job.event.order
      exact ⟨job.holding_other h hs hut hheld hk.1, hk.2.1, by have := hk.2.2; omega⟩
  | upsertOrder doneAt =>
      exact ⟨job.holding_other h hs hut (fun r hr => hheld r (List.mem_append_right _ hr)) hk.1,
        hk.2.other h hs hut fun r hr => hheld r (List.mem_append_left _ hr)⟩
  | insertCompletion doneAt =>
      exact ⟨job.holding_other h hs hut (fun r hr => hheld r (List.mem_append_right _ hr)) hk.1,
        hk.2.other h hs hut fun r hr => hheld r (List.mem_append_left _ hr)⟩
  | complete delivery =>
      exact ⟨job.holding_other h hs hut (fun r hr => hheld r (List.mem_append_right _ hr)) hk.1,
        hrec delivery (fun r hr => hheld r (List.mem_append_left _ hr)) hk.2⟩
  | release delivery row =>
      exact ⟨hk.1.other h hs hut fun r hr => hheld r (List.mem_append_right _ hr),
        hrec delivery (fun r hr => hheld r (List.mem_append_left _ hr)) hk.2⟩
  | commit delivery row permit =>
      refine ⟨hk.1.other h hs hut fun r hr => hheld r ?_,
        hrec delivery (fun r hr => hheld r ?_) hk.2.1,
        hk.2.2.other h hs hut fun r hr => hheld r (List.mem_append_right _ hr)⟩
      · exact List.mem_append_left _ (List.mem_append_right _ hr)
      · exact List.mem_append_left _ (List.mem_append_left _ hr)
  | _ => trivial

lemma GiveBackPc.knows_other {c : Claim} {pc : GiveBackPc}
    (hheld : ∀ r ∈ pc.held c, (r, u) ∈ s.locks) (hk : pc.knows s c) : pc.knows s' c := by
  cases pc with
  | row nextAt => trivial
  | release r => exact Returning.other h hs hut hheld hk
  | commit r permit =>
      exact ⟨Returning.other h hs hut (fun x hx => hheld x (List.mem_append_left _ hx)) hk.1,
        hk.2.other h hs hut fun x hx => hheld x (List.mem_append_right _ hx)⟩

/-- What a process may rely on is not disturbed by the others. -/
lemma Proc.knows_other {q : Proc} (hheld : ∀ r ∈ q.held, (r, u) ∈ s.locks) (hk : q.knows s) :
    q.knows s' := by
  cases q with
  | storing job pc => exact StorePc.knows_other h hs hut hheld hk
  | claiming job pc => exact ClaimPc.knows_other h hs hut hheld hk
  | delivering job pc => exact ProcessPc.knows_other h hs hut hheld hk
  | givingBack c pc => exact GiveBackPc.knows_other h hs hut hheld hk
  | _ => trivial

end Others

/-! ### Knowledge gained by a statement -/

/-- The rows of a batch: events of the batch that were not known, each once. -/
lemma newRows_spec (receivedAt : ℤ) (known : List String) (tasks : List PartnerTask) :
    (∀ r ∈ newRows receivedAt known tasks, ∃ task ∈ tasks,
      r = InboxRow.fresh task receivedAt ∧ task.event.eventId ∉ known) ∧
    ((newRows receivedAt known tasks).map InboxRow.eventId).Nodup := by
  induction tasks generalizing known with
  | nil => exact ⟨by simp [newRows], by simp [newRows]⟩
  | cons task tasks ih =>
      by_cases hknown : task.event.eventId ∈ known
      · simp only [newRows, if_pos hknown]
        refine ⟨fun r hr => ?_, (ih known).2⟩
        obtain ⟨task', htask', hr', hid⟩ := (ih known).1 r hr
        exact ⟨task', List.mem_cons_of_mem _ htask', hr', hid⟩
      · simp only [newRows, if_neg hknown]
        obtain ⟨hrows, hnodup⟩ := ih (task.event.eventId :: known)
        refine ⟨fun r hr => ?_, ?_⟩
        · rcases List.mem_cons.mp hr with rfl | hr
          · exact ⟨task, List.mem_cons_self, rfl, hknown⟩
          · obtain ⟨task', htask', hr', hid⟩ := hrows r hr
            exact ⟨task', List.mem_cons_of_mem _ htask', hr',
              fun h => hid (List.mem_cons_of_mem _ h)⟩
        · rw [List.map_cons, List.nodup_cons]
          refine ⟨fun hmem => ?_, hnodup⟩
          obtain ⟨r, hr, hrid⟩ := List.mem_map.mp hmem
          obtain ⟨task', -, rfl, hid⟩ := hrows r hr
          exact hid (List.mem_cons.mpr (Or.inl hrid))

lemma storeNext_knows {job : StoreJob} {pc : StorePc} (hk : pc.knows s job)
    (h : storeNext t s job pc = some (s', p')) : p'.knows s' := by
  have hfailed : job.failed.knows (s.unlock t) := by
    unfold StoreJob.failed
    split <;> trivial
  cases pc with
  | lockCapacity =>
      simp only [storeNext] at h
      split_ifs at h
      cases h
      trivial
  | readInbox =>
      cases h
      intro task htask hid
      by_contra hsome
      refine hid (List.mem_filter.mpr ⟨List.mem_map_of_mem htask, ?_⟩)
      simpa [Option.isSome_iff_ne_none] using hsome
  | readLedger known =>
      simp only [storeNext] at h
      split_ifs at h <;> cases h
      · trivial
      · obtain ⟨hrows, hnodup⟩ :=
          newRows_spec job.receivedAt (known ++ knownInLedger s.db job.tasks) job.tasks
        refine ⟨fun r hr => ?_, hnodup, fun r hr => ?_⟩
        · obtain ⟨task, htask, hr, -⟩ := hrows r hr
          exact ⟨task, htask, hr⟩
        · obtain ⟨task, htask, rfl, hid⟩ := hrows r hr
          exact hk task htask fun hin => hid (List.mem_append_left _ hin)
  | countPending rows =>
      simp only [storeNext] at h
      split_ifs at h <;> cases h
      · exact hfailed
      · exact hk
  | countRetained rows =>
      simp only [storeNext] at h
      split_ifs at h <;> cases h
      · exact hfailed
      · exact hk
  | insert rows =>
      simp only [storeNext] at h
      split_ifs at h with hadm <;> cases h
      · exact ⟨hk, hadm⟩
      · exact hfailed
  | commit rows =>
      cases h
      trivial
  | acknowledge =>
      simp only [storeNext] at h
      split at h <;> cases h <;> trivial

lemma claimNext_knows {job : ClaimJob} {jvm : ℤ} {pc : ClaimPc}
    (hk : pc.knows s job) (h : claimNext t s job jvm pc = some (s', p')) : p'.knows s' := by
  cases pc with
  | ensurePermits =>
      cases h
      simp only [Proc.knows]
      split_ifs <;> trivial
  | ensure slot inserted =>
      simp only [claimNext] at h
      split_ifs at h <;> cases h <;> trivial
  | selectPermits inserted =>
      simp only [claimNext] at h
      split_ifs at h
      split at h <;> cases h <;> trivial
  | selectRow inserted slot =>
      simp only [claimNext] at h
      split at h
      · cases h
        trivial
      · rename_i row hrow
        have hsel : row.claimable s.now jvm (s.db.lastSequence row.event.order) →
            Selected s.db s.now job row := by
          intro hclaim
          exact ⟨hrow, hclaim.1.imp And.left id⟩
        split_ifs at h with hok hretry <;> cases h
        · exact hsel hok.1
        · exact hsel hok.1
        · trivial
  | countAdmissions inserted slot row =>
      simp only [claimNext] at h
      split_ifs at h <;> cases h
      · trivial
      · exact hk
  | insertAdmission inserted slot row =>
      cases h
      exact hk
  | updateRow inserted slot row admittedAt =>
      cases h
      exact ⟨hk, _, rfl⟩
  | updatePermit inserted slot row admittedAt row' =>
      simp only [claimNext] at h
      split at h <;> cases h
      rename_i permit hpermit
      exact ⟨hk.1, hk.2, permit, _, hpermit, rfl⟩
  | commit inserted result =>
      simp only [claimNext] at h
      split at h <;> cases h <;> trivial

lemma releasedPermit_freeing {c : Claim} : Freeing s.db (some c) (releasedPermit s.db c) := by
  unfold releasedPermit
  split
  · split_ifs with hheld
    · exact .release ‹_› hheld
    · exact .lost
  · exact .lost

lemma processNext_knows {job : ProcessJob} {jvm : ℤ} {pc : ProcessPc} (hs : Sound s)
    (hk : pc.knows s job) (h : processNext t s job jvm pc = some (s', p')) :
    p'.knows s' := by
  have hholding : ∀ {c : Claim} {row : InboxRow}, job.claim = some c →
      s.db.inboxRow c.eventId = some row → row.heldBy c s.now → job.holding s.db := by
    intro c row hc hrow hheld c' hc'
    obtain rfl := Option.some.inj (hc.symm.trans hc')
    exact ⟨row, hrow, hheld.1, hheld.2.1⟩
  cases pc with
  | isDelivered =>
      simp only [processNext] at h
      split_ifs at h
      · split at h <;> cases h <;> trivial
      · cases h
        trivial
  | duplicateHolds =>
      simp only [processNext] at h
      split at h
      · cases h
      · rename_i c hc
        split_ifs at h
        split at h
        · rename_i row hrow
          split_ifs at h with hheld <;> cases h
          · exact ⟨hholding hc hrow hheld, by simp⟩
          · exact ⟨.lost hc rfl, by simp⟩
        · cases h
          exact ⟨.lost hc rfl, by simp⟩
  | lastSequence =>
      simp only [processNext] at h
      split_ifs at h <;> cases h <;> trivial
  | submit =>
      cases h
      trivial
  | calling call =>
      simp only [processNext] at h
      split_ifs at h with hok hclaim <;> cases h
      · trivial
      · intro c hc
        simp [hc] at hclaim
      · trivial
  | holds =>
      simp only [processNext] at h
      split at h
      · cases h
      · rename_i c hc
        split_ifs at h
        split at h
        · rename_i row hrow
          split_ifs at h with hheld <;> cases h
          · exact hholding hc hrow hheld
          · trivial
        · cases h
          trivial
  | checkDelivered =>
      simp only [processNext] at h
      split_ifs at h <;> cases h
      · exact ⟨hk, by simp⟩
      · trivial
      · exact hk
  | checkSequence =>
      simp only [processNext] at h
      split_ifs at h with hseq <;> cases h
      · trivial
      · have hlast := hs.ledger.lastSequence_nonneg job.event.order
        exact ⟨hk, by omega, by omega⟩
  | insertEffect =>
      simp only [processNext] at h
      split_ifs at h with hcan hadm <;> cases h
      · exact ⟨hk.1, hadm, hs.ledger.eq_next hadm hk.2.1 hk.2.2⟩
      · trivial
  | upsertOrder doneAt =>
      simp only [processNext] at h
      split_ifs at h
      cases h
      exact hk
  | insertCompletion doneAt =>
      cases h
      exact ⟨hk.1, fun _ => hk.2⟩
  | complete delivery =>
      simp only [processNext] at h
      split at h
      · rename_i c hc
        cases h
        obtain ⟨row, hhold⟩ := hk.1 c hc
        refine ⟨?_, hk.2⟩
        rw [hhold.stored, Option.filter_some, if_pos (by simpa using hhold.token)]
        exact .complete _ hc hhold
      · rename_i hc
        split_ifs at h with hmode hcan <;> cases h
        · refine ⟨?_, hk.2, by rw [hc]; exact .lost⟩
          cases hrow : s.db.inboxRow job.event.eventId with
          | none => exact .unclaimed hc
          | some row => exact .markDone _ hc hmode.2 hrow
        · exact ⟨.unclaimed hc, hk.2, by rw [hc]; exact .lost⟩
  | release delivery row =>
      simp only [processNext] at h
      split at h
      · cases h
      · rename_i c hc
        split_ifs at h
        have hfree : Freeing s.db (some c) (releasedPermit s.db c) := releasedPermit_freeing
        split at h <;> cases h
        · rename_i permit hpermit
          rw [hpermit] at hfree
          exact ⟨hk.1, hk.2, by rw [hc]; exact hfree⟩
        · exact ⟨hk.1, hk.2, by rw [hc]; exact .lost⟩
  | commit delivery row permit =>
      simp only [processNext] at h
      split at h <;> cases h <;> trivial
  | returned =>
      simp only [processNext] at h
      split at h <;> cases h <;> trivial

lemma giveBackNext_knows {c : Claim} {pc : GiveBackPc} (hk : pc.knows s c)
    (h : giveBackNext t s c pc = some (s', p')) : p'.knows s' := by
  cases pc with
  | row nextAt =>
      simp only [giveBackNext] at h
      split_ifs at h
      split at h
      · rename_i row hrow
        split_ifs at h with hheld <;> cases h
        · exact .giveBack nextAt ⟨hrow, hheld.1, hheld.2.1⟩
        · exact .lost
      · cases h
        exact .lost
  | release row =>
      simp only [giveBackNext] at h
      split_ifs at h
      have hfree : Freeing s.db (some c) (releasedPermit s.db c) := releasedPermit_freeing
      split at h <;> cases h
      · rename_i permit hpermit
        rw [hpermit] at hfree
        exact ⟨hk, hfree⟩
      · exact ⟨hk, .lost⟩
  | commit row permit =>
      cases h
      trivial

lemma begin_knows (job : Job) : (begin job).knows s := by
  cases job with
  | storeAll job =>
      simp only [begin, Proc.knows]
      split_ifs <;> trivial
  | release c => exact .lost
  | _ => trivial

lemma renewNext_knows {c : Claim} {leaseMs : ℤ} {pc : RenewPc}
    (h : renewNext t s c leaseMs pc = some (s', p')) : p'.knows s' := by
  cases pc with
  | row =>
      simp only [renewNext] at h
      split_ifs at h
      split at h
      · split_ifs at h <;> cases h <;> trivial
      · cases h
        trivial
  | permit =>
      simp only [renewNext] at h
      split_ifs at h
      split at h
      · split_ifs at h <;> cases h <;> trivial
      · cases h
        trivial

/-- A statement leaves its process with what it may rely on next. -/
lemma next_knows (hs : Sound s) (hk : p.knows s) (h : next t s p a = some (s', p')) :
    p'.knows s' := by
  cases next_move h with
  | start job => exact begin_knows job
  | poll pendingLimit retainedLimit receivedAt hbatch hvalid => exact begin_knows _
  | store h => exact storeNext_knows hk h
  | claim h => exact claimNext_knows hk h
  | renew h => exact renewNext_knows h
  | deliver h => exact processNext_knows hs hk h
  | giveBack h => exact giveBackNext_knows hk h
  | relay h => obtain ⟨pc', rfl⟩ | rfl := (relayNext_eq h).2 <;> trivial
  | _ => trivial

/-! ### Every run -/

/-- **Every reachable state is sound**, and every process may rely on what it
read. -/
theorem reachable_sound {ok : Config Store Proc → ℕ → Act → Prop} {c : Config Store Proc}
    (h : Run service ok initial c) : Sound c.store ∧ ∀ t, (c.procs t).knows c.store := by
  refine Run.invariant (I := Sound) (J := fun _ s p => p.knows s) (fun _ => reachable_locks)
    ?_ ?_ ?_ h
  · exact ⟨⟨List.nodup_nil, List.nodup_nil, List.nodup_nil, ledger_empty⟩, fun _ => trivial⟩
  · intro c t a s' p' hlocks _ hs hk hnext
    exact ⟨hs.step (next_effect hlocks.1 (hlocks.2 t) (hk t) hnext), next_knows hs (hk t) hnext⟩
  · intro c t a s' p' u hlocks _ hs hk hnext hut
    exact Proc.knows_other (next_effect hlocks.1 (hlocks.2 t) (hk t) hnext) hs hut (hlocks.2 u)
      (hk u)

/-- In a reachable state every step has one of the effects. -/
lemma reachable_effect {ok : Config Store Proc → ℕ → Act → Prop} {c : Config Store Proc}
    (h : Run service ok initial c) (hnext : next t c.store (c.procs t) a = some (s', p')) :
    Effect t c.store (c.procs t) s' :=
  next_effect (reachable_locks h).1 ((reachable_locks h).2 t) ((reachable_sound h).2 t) hnext

end OrderSystem.Partner
