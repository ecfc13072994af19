/-
The completion reports of the partner service: what a step does to
`completion_outbox` and to the sends of the relay.

* `Store.reports`: the delivered operations, the rows, the sends in flight, their
  numbers and the acknowledgements.
* `ReportChange`, `next_reports`: the commit of a delivery records a report, the relay
  sends and marks, the broker appends, the purge deletes. Every other step leaves the
  reports alone.
-/
import OrderSystem.Partner.Effects

namespace OrderSystem.Partner

open Interleaving

variable {t : ℕ} {s s' : Store} {p p' : Proc} {a : Act}

/-- The report of a row, as it is sent. -/
def CompletionRow.report (r : CompletionRow) : PartnerCompletionEvent where
  eventId := r.eventId
  sellerId := r.order.sellerId
  orderId := r.order.orderId
  sequence := r.sequence
  completedAt := r.completedAt

/-- The key a report is sent under. -/
def CompletionRow.key (r : CompletionRow) : String :=
  r.order.sellerId ++ ":" ++ toString r.order.orderId

/-- The delivered operations and their reports. -/
def Store.reports (s : Store) :
    List EffectRow × List CompletionRow × List (ℕ × CompletionRow) × ℕ × List ℕ :=
  (s.db.partnerEffect, s.db.completionOutbox, s.reporting, s.nextReport, s.reportAcks)

/-- What a step does to the reports. -/
inductive ReportChange (s : Store) (p : Proc) (a : Act) (s' : Store) : Prop
  | same (h : s'.reports = s.reports)
  | record {job : ProcessJob} {doneAt : ℤ} {row : Option InboxRow} {permit : Option PermitRow}
      (hp : p = .delivering job (.commit (some doneAt) row permit))
      (h : s'.reports = (s.db.partnerEffect ++ [.of job.event doneAt],
        (if job.reports then s.db.recordCompletion job.owner job.event doneAt
          else s.db).completionOutbox, s.reporting, s.nextReport, s.reportAcks))
  | send {owner : String} {r : CompletionRow} {todo : List CompletionRow}
      {sends : List (ℕ × CompletionRow)} (hp : p = .relaying owner (.sending (r :: todo) sends))
      (h : s' = { s with reporting := s.reporting ++ [(s.nextReport, r)]
                         nextReport := s.nextReport + 1 })
  | mark {owner : String} {ids : List String} (time : ℤ) (hp : p = .relaying owner (.marking ids))
      (h : s' = { s with db := s.db.markReports ids time })
  | append {n : ℕ} {lost : Bool} {r : CompletionRow} (ha : a = .appendReport n lost)
      (hr : s.reporting.lookup n = some r)
      (h : s' = { s with reporting := s.reporting.filter fun x => x.1 ≠ n
                         reportAcks := if lost then s.reportAcks else s.reportAcks ++ [n] })
  | purge {ids : List String} (hsent : ∀ r ∈ s.db.completionOutbox, r.eventId ∈ ids →
        r.sentAt ≠ none) (h : s' = { s with db := s.db.deleteReports ids })

/-! ### The other statements -/

-- The inbox, the permits and the ledger are other tables, so each branch of the other
-- transactions hands the reports on.

lemma storeNext_reports {job : StoreJob} {pc : StorePc} (h : storeNext t s job pc = some (s', p')) :
    s'.reports = s.reports := by
  cases pc <;> simp only [storeNext] at h <;> (repeat' split at h) <;>
    first
      | (cases h; rfl)
      | cases h

lemma claimNext_reports {job : ClaimJob} {jvm : ℤ} {pc : ClaimPc}
    (h : claimNext t s job jvm pc = some (s', p')) : s'.reports = s.reports := by
  cases pc with
  | commit inserted result =>
      cases result <;> cases h <;>
        simp [Store.reports, Store.unlock, commitClaim, Db.setPermit, Db.setInbox]
  | _ =>
      simp only [claimNext] at h
      (repeat' split at h) <;>
        first
          | (cases h; rfl)
          | cases h

lemma renewNext_reports {c : Claim} {leaseMs : ℤ} {pc : RenewPc}
    (h : renewNext t s c leaseMs pc = some (s', p')) : s'.reports = s.reports := by
  cases pc <;> simp only [renewNext] at h <;> (repeat' split at h) <;>
    first
      | (cases h; rfl)
      | cases h

lemma giveBackNext_reports {c : Claim} {pc : GiveBackPc}
    (h : giveBackNext t s c pc = some (s', p')) : s'.reports = s.reports := by
  cases pc with
  | commit row permit => cases row <;> cases permit <;> cases h <;> rfl
  | _ =>
      simp only [giveBackNext] at h
      (repeat' split at h) <;>
        first
          | (cases h; rfl)
          | cases h

/-- The rows of the outbox after the commit of a delivery. -/
lemma commitDelivery_completions {job : ProcessJob} {doneAt : ℤ} {row : Option InboxRow}
    {permit : Option PermitRow} {db : Db} :
    (commitDelivery job (some doneAt) row permit db).completionOutbox =
      (if job.reports then db.recordCompletion job.owner job.event doneAt
        else db).completionOutbox := by
  cases row <;> cases permit <;> cases hr : job.reports <;>
    simp [commitDelivery, writeBack, hr, Db.setInbox, Db.setPermit, Db.recordDelivery,
      Db.recordCompletion] <;> split_ifs <;> rfl

lemma processNext_reports {job : ProcessJob} {jvm : ℤ} {pc : ProcessPc}
    (h : processNext t s job jvm pc = some (s', p')) :
    ReportChange s (.delivering job pc) a s' := by
  cases pc with
  | commit delivery row permit =>
      cases delivery with
      | none =>
          refine .same ?_
          cases row <;> cases permit <;> cases h <;> rfl
      | some doneAt =>
          refine .record rfl ?_
          have hcommit : s'.db = commitDelivery job (some doneAt) row permit s.db ∧
              s'.reporting = s.reporting ∧ s'.nextReport = s.nextReport ∧
              s'.reportAcks = s.reportAcks := by
            cases hc : job.claim <;> simp only [processNext, hc] at h <;> cases h <;>
              exact ⟨rfl, rfl, rfl, rfl⟩
          obtain ⟨hdb, hreporting, hnext, hacks⟩ := hcommit
          rw [Store.reports, hdb, hreporting, hnext, hacks, commitDelivery_completions,
            commitDelivery_effects]
          rfl
  | _ =>
      refine .same ?_
      simp only [processNext] at h
      (repeat' split at h) <;>
        first
          | (cases h; rfl)
          | cases h

lemma idle_reports (h : next t s .idle a = some (s', .idle)) : ReportChange s .idle a s' := by
  cases a with
  | appendReport n lost =>
      obtain ⟨s₁, happend, h⟩ := Option.map_eq_some_iff.mp h
      unfold appendReport at happend
      split at happend <;> cases happend
      cases h
      exact .append rfl ‹_› rfl
  | purgeReports now ids =>
      obtain ⟨s₁, hpurge, h⟩ := Option.map_eq_some_iff.mp h
      unfold purgeReports at hpurge
      split_ifs at hpurge with hok
      cases hpurge
      cases h
      refine .purge (fun r hr hid hnone => ?_) rfl
      obtain ⟨time, htime, -⟩ := hok.2 r hr hid
      rw [hnone] at htime
      cases htime
  | deleteRetryAdmissionsBefore windowMs limit picked =>
      obtain ⟨s₁, hdelete, h⟩ := Option.map_eq_some_iff.mp h
      obtain ⟨rows, rfl⟩ := deleteAdmissions_eq hdelete
      cases h
      exact .same rfl
  | start job =>
      have hs : s = s' := (Prod.mk.inj (Option.some.inj h)).1
      exact .same (by rw [hs])
  | _ =>
      refine .same ?_
      simp only [next, serve, deleteDone] at h
      first
        | (cases h; rfl)
        | (repeat' split at h) <;> first
            | (cases h; rfl)
            | cases h

lemma relayNext_reports {owner : String} {jvm : ℤ} {pc : RelayPc}
    (h : relayNext s owner jvm pc = some (s', p')) :
    ReportChange s (.relaying owner pc) a s' := by
  cases pc with
  | select =>
      simp only [relayNext] at h
      split at h <;> cases h <;> exact .same rfl
  | sending todo sends =>
      cases todo with
      | nil =>
          cases h
          exact .same rfl
      | cons r todo =>
          cases h
          exact .send rfl rfl
  | awaiting sends =>
      simp only [relayNext] at h
      split_ifs at h
      cases h
      exact .same rfl
  | marking ids =>
      cases h
      exact .mark jvm rfl rfl

/-- **What a step does to the reports**: one of the changes, or nothing. -/
theorem next_reports (h : next t s p a = some (s', p')) : ReportChange s p a s' := by
  cases next_move h with
  | free h => exact idle_reports h
  | store h => exact .same (storeNext_reports h)
  | claim h => exact .same (claimNext_reports h)
  | renew h => exact .same (renewNext_reports h)
  | deliver h => exact processNext_reports h
  | giveBack h => exact .same (giveBackNext_reports h)
  | relay h => exact relayNext_reports h
  | _ => exact .same rfl

end OrderSystem.Partner
