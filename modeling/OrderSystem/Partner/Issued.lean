/-
The deliveries of INBOX mode.

* `reachable_issued`: a token is issued for an event of `E`, the one of its inbox row.
* `deliversFrom_of_inboxMode`: so the deliveries under claims are deliveries of events of
  `E`, and what is known of those holds in INBOX mode.
-/
import OrderSystem.Partner.InboxMode
import OrderSystem.Partner.SellerLedger

namespace OrderSystem.Partner

open Interleaving

variable {E : PartnerOrderEvent → Prop} {c : Config Store Proc}

/-- Tokens are issued for events of `E`. -/
theorem reachable_issued (h : Run service (inboxMode E) initial c) :
    ∀ i ∈ c.store.issued, E i.event := by
  refine (Run.invariant (I := fun s => ∀ i ∈ s.issued, E i.event) (J := fun _ _ _ => True)
    (K := fun c => Run service (inboxMode E) initial c) (fun _ h => h)
    ⟨by simp [initial], fun _ => trivial⟩ ?_ (fun _ _ _ _ _ _ _ _ _ _ _ _ => trivial) h).1
  intro c t a s' p' hrun _ hI _ hnext
  refine ⟨fun i hi => ?_, trivial⟩
  cases (reachable_effect hrun hnext).issuedChange with
  | same hsame =>
      rw [hsame] at hi
      exact hI i hi
  | @claim job inserted slot row row' admittedAt permit hp hclaim hnew hin hrec =>
      rw [hnew] at hi
      rcases List.mem_append.mp hi with hi | hi
      · exact hI i hi
      · rw [List.mem_singleton.mp hi]
        -- the row of the claim carries the event of the task
        obtain ⟨hagree, hmode⟩ := reachable_agrees hrun
        have hseen := hmode t
        rw [hp] at hseen
        have hstored := hclaim.selected.stored
        have hmem : row ∈ c.store.db.inbox := Table.mem_of_get hstored
        have hevent : row.event = job.event :=
          hseen.1.payload row hmem (eventId_of_inboxRow hstored)
        show E job.event
        rw [← hevent]
        exact (hagree.rows row hmem).1

/-- What is delivered in INBOX mode are events of `E`. -/
lemma deliversFrom_of_inboxMode (h : Run service (inboxMode E) initial c) :
    Run service (deliversFrom E) initial c := by
  refine h.mono_of (K := fun c => ∀ i ∈ c.store.issued, E i.event)
    (fun _ hrun => reachable_issued hrun) fun c c' t a hissued hok _ e he => ?_
  cases a with
  | start job =>
      cases job with
      | process job =>
          cases he
          obtain ⟨i, hi, -, hie⟩ := hok.1 _ rfl
          rw [← hie]
          exact hissued i hi
      | _ => cases he
  | _ => cases he

end OrderSystem.Partner
