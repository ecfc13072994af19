/-
From the delivery record back to the obligation: the partner service and the delivery
tracking of order-service over one completion topic.

* `tracking`: the two services side by side. A report the broker appends for the relay
  is a record of the completion topic, in the partition of its key.
* `reported`: the environment. A completion topic is configured, the partner delivers
  what the source has published, and only the relay fills the topic.
* `every_delivery_reported`: a delivered operation has an unsent report, or a report
  that is still to be read, or its obligation is resolved; only delivered operations are
  resolved; and a resolved obligation does not change.
-/
import OrderSystem.Foundations.Coupling
import OrderSystem.Delivery.Effects
import OrderSystem.Partner.Reports

namespace OrderSystem.Pipeline

open Interleaving

/-! ### The two services -/

/-- The record of the completion topic that an append of the broker is. -/
def reportOf (partition : String → ℕ) (s : Partner.Store) : Partner.Act → Option Delivery.Act
  | .appendReport n _ =>
      (s.reporting.lookup n).map fun r => .report (partition r.key) r.report
  | _ => none

/-- The partner service and the delivery tracking over one broker; `partition` is the
partitioner of the producer. -/
def tracking (partition : String → ℕ) :
    Program (Partner.Store × Delivery.Store) (Partner.Proc × Delivery.Proc)
      (Partner.Act ⊕ Delivery.Act) :=
  Partner.service.couple Delivery.service (reportOf partition)

/-- Both services with empty tables. -/
def untracked : Config (Partner.Store × Delivery.Store) (Partner.Proc × Delivery.Proc) :=
  Config.pair Partner.initial Delivery.initial

/-- A configuration of the two services. -/
abbrev Tracking := Config (Partner.Store × Delivery.Store) (Partner.Proc × Delivery.Proc)

/-- A completion topic is configured, and the partner delivers published requests. The
ids the other transactions of order-service draw satisfy `own`; no client uses one of
them for a request of its own. -/
def reported (own : String → Prop) (c : Tracking) (_ : ℕ) : Partner.Act ⊕ Delivery.Act → Prop
  | .inl (.start (.process job)) => job.reports = true ∧ job.event ∈ c.snd.store.requests
  | .inl _ => True
  | .inr (.accept job) => ¬ own job.request.eventId
  | .inr (.enqueue e) => own e.eventId
  | .inr (.report _ _) => False
  | .inr _ => True

instance [DecidablePred own] (c : Tracking) (t : ℕ) (a : Partner.Act ⊕ Delivery.Act) :
    Decidable (reported own c t a) :=
  match a with
  | .inl (.start (.process job)) => inferInstanceAs
      (Decidable (job.reports = true ∧ job.event ∈ c.snd.store.requests))
  | .inl (.start (.consume)) | .inl (.start (.storeAll _)) | .inl (.start (.claim _))
  | .inl (.start (.renew _ _)) | .inl (.start (.giveBack _ _)) | .inl (.start (.release _))
  | .inl (.start (.relay _)) | .inl (.go _) | .inl .abort | .inl (.tick _) | .inl (.restart _)
  | .inl (.serve _ _ _) | .inl (.produce _ _) | .inl (.assign _) | .inl (.revoke _)
  | .inl (.poll _ _ _ _) | .inl (.scheduleRetry _ _ _) | .inl (.deleteDoneBefore _ _ _)
  | .inl (.deleteRetryAdmissionsBefore _ _ _) | .inl (.appendReport _ _)
  | .inl (.purgeReports _ _) => isTrue trivial
  | .inr (.accept job) => inferInstanceAs (Decidable (¬ own job.request.eventId))
  | .inr (.enqueue e) => inferInstanceAs (Decidable (own e.eventId))
  | .inr (.report _ _) => isFalse id
  | .inr .consume | .inr (.go _) | .inr .abort | .inr .retry | .inr (.assign _)
  | .inr (.revoke _) | .inr (.poll _) | .inr (.publish _) | .inr (.purge _) => isTrue trivial

variable {own : String → Prop} {partition : String → ℕ} {c : Tracking} {t u : ℕ}
  {s s' : Partner.Store} {d d' : Delivery.Store} {p p' : Partner.Proc} {q q' : Delivery.Proc}
  {a : Partner.Act} {b : Delivery.Act}

/-! ### Facts that stay -/

/-- The operation is known to the source. -/
def Known (own : String → Prop) (d : Delivery.Store) (eventId : String) : Prop :=
  own eventId ∨ ∃ o ∈ d.db.obligations, o.eventId = eventId

/-- The obligation of the operation, if there is one, is resolved. -/
def Closed (own : String → Prop) (d : Delivery.Store) (eventId : String) : Prop :=
  own eventId ∨ ∃ o ∈ d.db.obligations, o.eventId = eventId ∧ o.resolvedAt ≠ none

/-- A report of the operation is in the topic. -/
def InTopic (d : Delivery.Store) (eventId : String) : Prop :=
  ∃ p, ∃ r ∈ d.topic p, r.eventId = eventId

/-- What a step of the delivery tracking keeps. -/
structure Later (own : String → Prop) (d d' : Delivery.Store) : Prop where
  known : ∀ id, Known own d id → Known own d' id
  closed : ∀ id, Closed own d id → Closed own d' id
  topic : ∀ p, d.topic p <+: d'.topic p

lemma Later.refl (d : Delivery.Store) : Later own d d :=
  ⟨fun _ h => h, fun _ h => h, fun _ => List.prefix_refl _⟩

lemma Later.inTopic (h : Later own d d') {id : String} (hin : InTopic d id) : InTopic d' id := by
  obtain ⟨p, r, hr, hid⟩ := hin
  exact ⟨p, r, (h.topic p).subset hr, hid⟩

lemma later_of_next (hs : Delivery.Sound d.db) (hk : q.knows d.db)
    (h : Delivery.next t d q b = some (d', q')) : Later own d d' := by
  have hchange := Delivery.next_change hk h
  refine ⟨fun id => Or.imp_right fun ⟨o, ho, hid⟩ => ?_,
    fun id => Or.imp_right fun ⟨o, ho, hid, hres⟩ => ?_, fun p => ?_⟩
  · obtain ⟨o', ho', hkept⟩ := hchange.keeps hs ho
    exact ⟨o', ho', hkept.eventId.trans hid⟩
  · obtain ⟨o', ho', hkept⟩ := hchange.keeps hs ho
    obtain rfl := hkept.resolved hres
    exact ⟨o', ho', hid, hres⟩
  · rcases Delivery.next_topic h with heq | ⟨p', r, -, heq⟩
    · rw [heq]
    · rw [heq]
      exact Log.update_grows _ _ _ _

/-! ### The invariant -/

/-- What holds of the tables, the sends and the topic. -/
structure Reporting (own : String → Prop) (s : Partner.Store) (d : Delivery.Store) : Prop where
  delivered : ∀ id, s.db.isDelivered id →
    Known own d id ∧ ((∃ r ∈ s.db.completionOutbox, r.eventId = id) ∨ InTopic d id)
  rows : ∀ r ∈ s.db.completionOutbox,
    s.db.isDelivered r.eventId ∧ (r.sentAt = none ∨ InTopic d r.eventId)
  sends : ∀ x ∈ s.reporting, x.1 < s.nextReport ∧ s.db.isDelivered x.2.eventId
  numbers : (s.reporting.map Prod.fst).Nodup
  acks : ∀ n ∈ s.reportAcks, n < s.nextReport
  topic : ∀ p, ∀ r ∈ d.topic p, s.db.isDelivered r.eventId
  requests : ∀ e ∈ d.requests, Known own d e.eventId
  outbox : ∀ r ∈ d.db.outbox, ∀ e ∈ r.partner, Known own d e.eventId
  obligations : ∀ o ∈ d.db.obligations, ¬ own o.eventId ∧
    (o.resolvedAt ≠ none → s.db.isDelivered o.eventId)
  committed : ∀ p, Log.Behind (fun r => Closed own d r.eventId) (d.topic p) (d.committed p)

/-- The sends of a relay: their numbers are used, and an acknowledged one is in the
topic. -/
def Sends (s : Partner.Store) (d : Delivery.Store)
    (sends : List (ℕ × Partner.CompletionRow)) : Prop :=
  ∀ x ∈ sends, x.1 < s.nextReport ∧ (∀ y ∈ s.reporting, y.1 = x.1 → y.2 = x.2) ∧
    (x.1 ∈ s.reportAcks → InTopic d x.2.eventId)

/-- What a relay knows of its batch. -/
def relayFacts (s : Partner.Store) (d : Delivery.Store) : Partner.RelayPc → Prop
  | .select => True
  | .sending todo sends => (∀ r ∈ todo, s.db.isDelivered r.eventId) ∧ Sends s d sends
  | .awaiting sends => Sends s d sends
  | .marking ids => ∀ id ∈ ids, InTopic d id

/-- What a process of the partner service knows. -/
def partnerFacts (own : String → Prop) (s : Partner.Store) (d : Delivery.Store) :
    Partner.Proc → Prop
  | .delivering job _ => job.reports = true ∧ Known own d job.event.eventId
  | .relaying _ pc => relayFacts s d pc
  | _ => True

/-- The reports of a poll that are not settled yet. -/
def resolveFacts (own : String → Prop) (d : Delivery.Store) (poll : Delivery.Poll) :
    Delivery.ResolvePc → Prop
  | .update todo w | .giveBack _ todo w => ∀ r ∈ poll.records, r ∈ todo ∨ Closed own d r.eventId ∨
      ∃ o ∈ w.obligations, o.eventId = r.eventId
  | .acknowledge => ∀ r ∈ poll.records, Closed own d r.eventId

/-- What a process of the delivery tracking knows. -/
def deliveryFacts (own : String → Prop) (s : Partner.Store) (d : Delivery.Store) :
    Delivery.Proc → Prop
  | .idle => True
  | .accepting job _ => ¬ own job.request.eventId
  | .consuming positions =>
      Consumer.Settled (fun r => Closed own d r.eventId) d.topic positions
  | .resolving poll pc =>
      Consumer.Settled (fun r => Closed own d r.eventId) d.topic poll.before ∧
        Consumer.Settled (fun r => Closed own d r.eventId ∨ r ∈ poll.records) d.topic poll.ends ∧
        (∀ r ∈ poll.records, s.db.isDelivered r.eventId) ∧ resolveFacts own d poll pc

/-! ### Steps of the delivery tracking -/

/-- What others do keeps the facts of a delivery-tracking process. -/
lemma deliveryFacts_later (hlater : Later own d d')
    (hdelivered : ∀ id, s.db.isDelivered id → s'.db.isDelivered id)
    (hq : deliveryFacts own s d q) : deliveryFacts own s' d' q := by
  have hclosed : ∀ {r : PartnerCompletionEvent}, Closed own d r.eventId →
      Closed own d' r.eventId := fun h => hlater.closed _ h
  cases q with
  | idle => trivial
  | accepting job pc => exact hq
  | consuming positions => exact hq.later hlater.topic fun _ => hclosed
  | resolving poll pc =>
      obtain ⟨hbefore, hends, hrec, hpc⟩ := hq
      refine ⟨hbefore.later hlater.topic fun _ => hclosed,
        hends.later hlater.topic fun _ => Or.imp_left hclosed,
        fun r hr => hdelivered _ (hrec r hr), ?_⟩
      cases pc with
      | acknowledge => exact fun r hr => hclosed (hpc r hr)
      | _ => exact fun r hr => (hpc r hr).imp_right (Or.imp_left hclosed)

/-- What others do keeps the facts of a partner process. -/
lemma partnerFacts_later (hlater : Later own d d') (hp : partnerFacts own s d p) :
    partnerFacts own s d' p := by
  have hsends : ∀ {sends}, Sends s d sends → Sends s d' sends := by
    intro sends h x hx
    obtain ⟨hlt, huniq, hack⟩ := h x hx
    exact ⟨hlt, huniq, fun hn => hlater.inTopic (hack hn)⟩
  cases p with
  | delivering job pc => exact ⟨hp.1, hlater.known _ hp.2⟩
  | relaying owner pc =>
      cases pc with
      | select => trivial
      | sending todo sends => exact ⟨hp.1, hsends hp.2⟩
      | awaiting sends => exact hsends hp
      | marking ids => exact fun id hid => hlater.inTopic (hp id hid)
  | _ => trivial

/-- The tables and the topic after a step of the delivery tracking. -/
lemma Reporting.delivery (hR : Reporting own s d) (hs : Delivery.Sound d.db)
    (hk : q.knows d.db) (hq : deliveryFacts own s d q)
    (henqueue : ∀ e, b = .enqueue e → own e.eventId) (hreport : ∀ p r, b ≠ .report p r)
    (h : Delivery.next t d q b = some (d', q')) : Reporting own s d' := by
  have hlater : Later own d d' := later_of_next hs hk h
  have hchange := Delivery.next_change hk h
  have htopic : d'.topic = d.topic := by
    rcases Delivery.next_topic h with heq | ⟨p, r, rfl, -⟩
    · exact heq
    · exact absurd rfl (hreport p r)
  refine ⟨fun id hid => ?_, fun r hr => ?_, hR.sends, hR.numbers, hR.acks, fun p r hr => ?_,
    fun e he => ?_, fun r hr e he => ?_, fun o ho => ?_, fun p => ?_⟩
  · obtain ⟨hknown, hrow⟩ := hR.delivered id hid
    exact ⟨hlater.known id hknown, hrow.imp_right hlater.inTopic⟩
  · obtain ⟨hd, hsent⟩ := hR.rows r hr
    exact ⟨hd, hsent.imp_right hlater.inTopic⟩
  · rw [htopic] at hr
    exact hR.topic p r hr
  · cases Delivery.next_logs h with
    | same h =>
        rw [show d'.requests = d.requests from congrArg (·.1) h] at he
        exact hlater.known _ (hR.requests e he)
    | publish hr h =>
        rw [h] at he
        rcases List.mem_append.mp he with he | he
        · exact hlater.known _ (hR.requests e he)
        · exact hlater.known _ (hR.outbox _ hr e (Option.mem_toList.mp he))
    | report ha h =>
        rw [h] at he
        exact hlater.known _ (hR.requests e he)
    | acknowledge hp h =>
        rw [h] at he
        exact hlater.known _ (hR.requests e he)
  · rcases Delivery.next_outbox hk h hr with hr | ⟨e', rfl, hre⟩ | ⟨job, createdAt, hob, hre⟩
    · exact hlater.known _ (hR.outbox r hr e he)
    · obtain rfl := Option.some.inj (hre.symm.trans he)
      exact Or.inl (henqueue _ rfl)
    · obtain rfl := Option.some.inj (hre.symm.trans he)
      refine Or.inr ⟨.of job.request createdAt, ?_, rfl⟩
      rw [hob]
      exact List.mem_append_right _ List.mem_cons_self
  · rcases hchange.origin ho with ho | ⟨job, w, createdAt, rfl, -, rfl⟩ | ⟨poll, w, rfl, ho⟩
    · exact hR.obligations o ho
    · exact ⟨hq, fun hne => absurd rfl hne⟩
    · obtain ⟨x, hx, hid, -, r, hr, hrid, -⟩ := hk.2.rows o ho
      obtain ⟨-, -, hrec, -⟩ := hq
      exact ⟨hid ▸ (hR.obligations x hx).1, fun _ => hrid ▸ hrec r hr⟩
  · have hold : Log.Behind (fun r => Closed own d' r.eventId) (d'.topic p) (d.committed p) :=
      ((hR.committed p).mono fun r => hlater.closed r.eventId).append (hlater.topic p)
    cases Delivery.next_logs h with
    | same h =>
        rw [show d'.committed = d.committed from congrArg (·.2.2) h]
        exact hold
    | publish hr h => rwa [h] at hold ⊢
    | report ha h => rwa [h] at hold ⊢
    | @acknowledge poll hp heq =>
        subst hp
        obtain ⟨-, hends, -, hpc⟩ := hq
        have hsettled : Consumer.Settled (fun r => Closed own d' r.eventId) d'.topic poll.ends := by
          refine hends.later hlater.topic fun r hr => hlater.closed _ ?_
          exact hr.elim id fun hr => hpc r hr
        have hcommit := hsettled.commit fun p =>
          ((hR.committed p).mono fun r => hlater.closed r.eventId).append (hlater.topic p)
        rw [show d'.committed = Consumer.commitOffsets poll.ends d.committed by rw [heq]]
        exact hcommit p

/-- What a resolving process knows after its own statement. -/
lemma resolveNext_facts {poll : Delivery.Poll} {pc : Delivery.ResolvePc} {jvm : ℤ}
    (hR : Reporting own s d) (hs : Delivery.Sound d.db) (hk : pc.knows d.db poll)
    (hq : deliveryFacts own s d (.resolving poll pc))
    (h : Delivery.resolveNext t d poll jvm pc = some (d', q')) : deliveryFacts own s d' q' := by
  have hlater : Later own d d' :=
    later_of_next (q := .resolving poll pc) (b := .go jvm) hs hk h
  obtain ⟨hbefore, hends, hrec, hpc⟩ := hq
  have hclosed : ∀ r : PartnerCompletionEvent, Closed own d r.eventId → Closed own d' r.eventId :=
    fun r => hlater.closed r.eventId
  have hbefore' := hbefore.later hlater.topic hclosed
  have hends' := hends.later hlater.topic fun r : PartnerCompletionEvent =>
    Or.imp_left (hclosed r) (c := r ∈ poll.records)
  cases pc with
  | update todo w =>
      cases todo with
      | nil =>
          cases h
          refine ⟨hbefore', hends', hrec, fun r hr => ?_⟩
          rcases hpc r hr with hmem | hc | ⟨o, ho, hid⟩
          · cases hmem
          · exact hclosed r hc
          · obtain ⟨x, -, -, -, r', -, -, time, hx⟩ := hk.2.rows o ho
            refine Or.inr ⟨o, hk.2.mem_commit.mpr (Or.inl ho), hid, ?_⟩
            rw [hx]
            exact Option.some_ne_none time
      | cons r todo =>
          simp only [Delivery.resolveNext] at h
          split_ifs at h with hcan
          split at h
          · rename_i o ho
            have hid := Delivery.Writes.eventId_of_viewObligation ho
            split_ifs at h with hopen <;> cases h
            · -- the report resolves its obligation
              refine ⟨hbefore', hends', hrec, fun x hx => ?_⟩
              rcases hpc x hx with hmem | hc | ⟨y, hy, hyid⟩
              · rcases List.mem_cons.mp hmem with rfl | hmem
                · exact Or.inr (Or.inr ⟨_, Table.mem_put.mpr (Or.inl rfl), hid⟩)
                · exact Or.inl hmem
              · exact Or.inr (Or.inl hc)
              · refine Or.inr (Or.inr ⟨y, Table.mem_put.mpr (Or.inr ⟨hy, ?_⟩), hyid⟩)
                rw [Delivery.Obligation.resolve_eventId, hid]
                exact (hk.2.view_open ho hopen).2 y hy
            · refine ⟨hbefore', hends', hrec, fun x hx => ?_⟩
              rcases hpc x hx with hmem | hrest
              · rcases List.mem_cons.mp hmem with rfl | hmem
                · rcases Option.or_eq_some_iff.mp ho with ho | ⟨-, ho⟩
                  · exact Or.inr (Or.inr ⟨o, Table.mem_of_get ho, hid⟩)
                  · exact Or.inr (Or.inl (Or.inr ⟨o, Table.mem_of_get ho, hid, hopen⟩))
                · exact Or.inl hmem
              · exact Or.inr hrest
          · rename_i hnone
            cases h
            refine ⟨hbefore', hends', hrec, fun x hx => ?_⟩
            rcases hpc x hx with hmem | hrest
            · rcases List.mem_cons.mp hmem with rfl | hmem
              · -- a delivered operation without an obligation is one of the other ids
                rcases (hR.delivered _ (hrec x hx)).1 with hown | ⟨o, ho, hid⟩
                · exact Or.inr (Or.inl (Or.inl hown))
                · have hget := (Option.or_eq_none_iff.mp hnone).2
                  exact absurd hid (Table.get_eq_none.mp hget o ho)
              · exact Or.inl hmem
            · exact Or.inr hrest
  | giveBack seller todo w =>
      simp only [Delivery.resolveNext] at h
      split_ifs at h with hcan
      split at h <;> cases h <;> exact ⟨hbefore', hends', hrec, hpc⟩
  | acknowledge =>
      cases h
      intro x hx
      rcases List.mem_append.mp hx with hx | hx
      · exact (hends x hx).mono fun r hr => hr.elim id fun hr => hpc r hr
      · exact hbefore x hx

/-- What a delivery-tracking process knows after its own step. -/
lemma next_deliveryFacts (hR : Reporting own s d) (hs : Delivery.Sound d.db) (hk : q.knows d.db)
    (hq : deliveryFacts own s d q) (haccept : ∀ job, b = .accept job → ¬ own job.request.eventId)
    (h : Delivery.next t d q b = some (d', q')) : deliveryFacts own s d' q' := by
  cases Delivery.next_move h with
  | accept job =>
      rw [Delivery.begin]
      split_ifs
      · exact haccept job rfl
      · trivial
  | consume =>
      intro x hx
      cases hx
  | assign positions r =>
      intro x hx
      rcases List.mem_cons.mp hx with rfl | hx
      · exact hR.committed r
      · exact hq x hx
  | revoke positions r => exact fun x hx => hq x (List.mem_filter.mp hx).1
  | poll hpoll =>
      refine ⟨hq, ?_, fun r hr => ?_, fun r hr => Or.inl hr⟩
      · exact Consumer.poll_settled hpoll (fun x hx => (hq x hx).mono fun _ => Or.inl)
          fun r hr => Or.inr hr
      · obtain ⟨p, hp⟩ := Consumer.mem_of_poll hpoll r hr
        exact hR.topic p r hp
  | @accepting job pc jvm _ _ h =>
      obtain ⟨pc', rfl⟩ | rfl := Delivery.acceptNext_proc h
      · exact hq
      · trivial
  | resolving h => exact resolveNext_facts hR hs hk hq h
  | retry poll pc => exact hq.1
  | _ => trivial

/-! ### Steps of the partner service -/

/-- The topic after a step of the partner service: the same, or with the report of a send
in flight. -/
inductive Appended (partition : String → ℕ) (s : Partner.Store) (d : Delivery.Store)
    (a : Partner.Act) (d' : Delivery.Store) : Prop
  | none (h : d' = d) (ha : ∀ n lost r, a = .appendReport n lost → s.reporting.lookup n ≠ some r)
  | report {n : ℕ} {lost : Bool} {r : Partner.CompletionRow} (ha : a = .appendReport n lost)
      (hr : s.reporting.lookup n = some r)
      (h : d' = { d with topic := Function.update d.topic (partition r.key)
                           (d.topic (partition r.key) ++ [r.report]) })

lemma mem_of_lookup {n : ℕ} {r : Partner.CompletionRow} {l : List (ℕ × Partner.CompletionRow)}
    (h : l.lookup n = some r) : (n, r) ∈ l := by
  obtain ⟨l₁, l₂, rfl, -⟩ := List.lookup_eq_some_iff.mp h
  simp

/-- What the partner step of the coupled system does to the delivery tracking. -/
lemma appended_of_sync
    (h : (reportOf partition s a = none ∧ d' = d ∧ q' = q) ∨
      ∃ b, reportOf partition s a = some b ∧ Delivery.next t d q b = some (d', q')) :
    Appended partition s d a d' ∧ (q' = q ∨ q' = .idle) := by
  rcases h with ⟨hnone, hd, hq⟩ | ⟨b, hb, hnext⟩
  · refine ⟨.none hd fun n lost r ha hr => ?_, Or.inl hq⟩
    rw [ha, reportOf, hr] at hnone
    cases hnone
  · cases a with
    | appendReport n lost =>
        obtain ⟨r, hr, rfl⟩ := Option.map_eq_some_iff.mp hb
        cases q <;> cases hnext
        exact ⟨.report rfl hr rfl, Or.inl rfl⟩
    | _ => cases hb

namespace Appended

lemma later (h : Appended partition s d a d') : Later own d d' := by
  cases h with
  | none h ha =>
      subst h
      exact .refl _
  | report ha hr h =>
      subst h
      exact ⟨fun _ h => h, fun _ h => h, fun _ => Log.update_grows _ _ _ _⟩

/-- A record is an old one or the report of a send in flight. -/
lemma mem_topic (h : Appended partition s d a d') {p : ℕ} {r : PartnerCompletionEvent}
    (hr : r ∈ d'.topic p) : r ∈ d.topic p ∨ ∃ x ∈ s.reporting, r.eventId = x.2.eventId := by
  cases h with
  | none h ha => exact Or.inl (h ▸ hr)
  | @report n lost row ha hrow h =>
      subst h
      simp only [Function.update_apply] at hr
      split_ifs at hr with hp
      · rcases List.mem_append.mp hr with hr | hr
        · exact Or.inl (hp ▸ hr)
        · exact Or.inr ⟨_, mem_of_lookup hrow, by rw [List.mem_singleton.mp hr]; rfl⟩
      · exact Or.inl hr

/-- An acknowledged append is in the topic. -/
lemma inTopic (h : Appended partition s d a d') {n : ℕ} {lost : Bool} {r : Partner.CompletionRow}
    (ha : a = .appendReport n lost) (hr : s.reporting.lookup n = some r) :
    InTopic d' r.eventId := by
  cases h with
  | none h hno => exact absurd hr (hno n lost r ha)
  | @report n' lost' r' ha' hr' h =>
      subst h
      rw [ha] at ha'
      cases ha'
      obtain rfl := Option.some.inj (hr.symm.trans hr')
      refine ⟨partition r.key, r.report, ?_, rfl⟩
      simp

/-- Nothing else changes on the source side. -/
lemma rest (h : Appended partition s d a d') :
    d'.db = d.db ∧ d'.requests = d.requests ∧ d'.committed = d.committed := by
  cases h with
  | none h ha =>
      subst h
      exact ⟨rfl, rfl, rfl⟩
  | report ha hr h =>
      subst h
      exact ⟨rfl, rfl, rfl⟩

end Appended

/-- The facts about the sends of a relay stay. -/
lemma Sends.step {sends : List (ℕ × Partner.CompletionRow)}
    (hchange : Partner.ReportChange s p a s') (happ : Appended partition s d a d')
    (h : Sends s d sends) : Sends s' d' sends := by
  have hlater : Later (fun _ => False) d d' := happ.later
  intro x hx
  obtain ⟨hlt, huniq, hack⟩ := h x hx
  have hsame : s'.reporting = s.reporting → s'.nextReport = s.nextReport →
      s'.reportAcks = s.reportAcks → x.1 < s'.nextReport ∧
        (∀ y ∈ s'.reporting, y.1 = x.1 → y.2 = x.2) ∧
        (x.1 ∈ s'.reportAcks → InTopic d' x.2.eventId) := by
    intro hr hn hk
    rw [hr, hn, hk]
    exact ⟨hlt, huniq, fun hn => hlater.inTopic (hack hn)⟩
  cases hchange with
  | same h => exact hsame (congrArg (·.2.2.1) h) (congrArg (·.2.2.2.1) h) (congrArg (·.2.2.2.2) h)
  | record hp h =>
      exact hsame (congrArg (·.2.2.1) h) (congrArg (·.2.2.2.1) h) (congrArg (·.2.2.2.2) h)
  | mark time hp h =>
      subst h
      exact hsame rfl rfl rfl
  | purge hsent h =>
      subst h
      exact hsame rfl rfl rfl
  | send hp h =>
      subst h
      refine ⟨hlt.trans (Nat.lt_succ_self _), fun y hy hyx => ?_, fun hn => hlater.inTopic (hack hn)⟩
      rcases List.mem_append.mp hy with hy | hy
      · exact huniq y hy hyx
      · -- a new number is not one of the batch
        rw [List.mem_singleton.mp hy] at hyx
        exact absurd hlt (hyx ▸ lt_irrefl _)
  | @append n lost r ha hr h =>
      subst h
      refine ⟨hlt, fun y hy => huniq y (List.mem_filter.mp hy).1, fun hn => ?_⟩
      have hcases : x.1 ∈ s.reportAcks ∨ x.1 = n := by
        cases lost with
        | true => exact Or.inl hn
        | false => exact (List.mem_append.mp hn).imp_right List.mem_singleton.mp
      rcases hcases with hn | hn
      · exact hlater.inTopic (hack hn)
      · rw [← huniq (n, r) (mem_of_lookup hr) hn.symm]
        exact happ.inTopic ha hr

/-- What others do keeps the facts of a partner process. -/
lemma partnerFacts_step (hchange : Partner.ReportChange s p a s')
    (happ : Appended partition s d a d')
    (hdelivered : ∀ id, s.db.isDelivered id → s'.db.isDelivered id) {r : Partner.Proc}
    (hr : partnerFacts own s d r) : partnerFacts own s' d' r := by
  have hlater : Later own d d' := happ.later
  cases r with
  | delivering job pc => exact ⟨hr.1, hlater.known _ hr.2⟩
  | relaying owner pc =>
      cases pc with
      | select => trivial
      | sending todo sends =>
          exact ⟨fun r hrow => hdelivered _ (hr.1 r hrow), hr.2.step hchange happ⟩
      | awaiting sends => exact Sends.step hchange happ hr
      | marking ids => exact fun id hid => hlater.inTopic (hr id hid)
  | _ => trivial

/-- The tables, the sends and the topic after a step of the partner service. -/
lemma Reporting.partner (hR : Reporting own s d) (hp : partnerFacts own s d p)
    (hchange : Partner.ReportChange s p a s') (happ : Appended partition s d a d')
    (hdelivered : ∀ id, s.db.isDelivered id → s'.db.isDelivered id) : Reporting own s' d' := by
  have hlater : Later own d d' := happ.later
  obtain ⟨hdb, hrequests, hcommitted⟩ := happ.rest
  -- the facts about the source and the topic hold whatever happened to the reports
  have htopic : ∀ p, ∀ r ∈ d'.topic p, s'.db.isDelivered r.eventId := by
    intro p r hr
    rcases happ.mem_topic hr with hr | ⟨x, hx, hid⟩
    · exact hdelivered _ (hR.topic p r hr)
    · exact hid ▸ hdelivered _ (hR.sends x hx).2
  have hreq : ∀ e ∈ d'.requests, Known own d' e.eventId := by
    intro e he
    rw [hrequests] at he
    exact hlater.known _ (hR.requests e he)
  have houtbox : ∀ r ∈ d'.db.outbox, ∀ e ∈ r.partner, Known own d' e.eventId := by
    intro r hr e he
    rw [hdb] at hr
    exact hlater.known _ (hR.outbox r hr e he)
  have hob : ∀ o ∈ d'.db.obligations, ¬ own o.eventId ∧
      (o.resolvedAt ≠ none → s'.db.isDelivered o.eventId) := by
    intro o ho
    rw [hdb] at ho
    exact ⟨(hR.obligations o ho).1, fun hne => hdelivered _ ((hR.obligations o ho).2 hne)⟩
  have hcomm : ∀ p, Log.Behind (fun r => Closed own d' r.eventId) (d'.topic p) (d'.committed p) := by
    intro p
    rw [hcommitted]
    exact ((hR.committed p).mono fun r => hlater.closed r.eventId).append (hlater.topic p)
  have hold : ∀ {id}, (Known own d id ∧
      ((∃ r ∈ s.db.completionOutbox, r.eventId = id) ∨ InTopic d id)) → Known own d' id ∧
      ((∃ r ∈ s.db.completionOutbox, r.eventId = id) ∨ InTopic d' id) :=
    fun h => ⟨hlater.known _ h.1, h.2.imp_right hlater.inTopic⟩
  have hrows : ∀ r ∈ s.db.completionOutbox,
      s'.db.isDelivered r.eventId ∧ (r.sentAt = none ∨ InTopic d' r.eventId) :=
    fun r hr => ⟨hdelivered _ (hR.rows r hr).1, (hR.rows r hr).2.imp_right hlater.inTopic⟩
  have hsends : ∀ x ∈ s.reporting, x.1 < s.nextReport ∧ s'.db.isDelivered x.2.eventId :=
    fun x hx => ⟨(hR.sends x hx).1, hdelivered _ (hR.sends x hx).2⟩
  cases hchange with
  | same h =>
      obtain ⟨heff, h⟩ := Prod.mk.inj h
      obtain ⟨hrow, h⟩ := Prod.mk.inj h
      obtain ⟨hrep, h⟩ := Prod.mk.inj h
      obtain ⟨hnum, hack⟩ := Prod.mk.inj h
      refine ⟨fun id hid => ?_, hrow ▸ hrows, hrep ▸ hnum ▸ hsends, hrep ▸ hR.numbers,
        hack ▸ hnum ▸ hR.acks, htopic, hreq, houtbox, hob, hcomm⟩
      rw [Partner.Db.isDelivered, heff] at hid
      rw [hrow]
      exact hold (hR.delivered id hid)
  | @record job doneAt row permit hproc h =>
      subst hproc
      obtain ⟨hreports, hknown⟩ := hp
      obtain ⟨heff, h⟩ := Prod.mk.inj h
      obtain ⟨hrow, h⟩ := Prod.mk.inj h
      obtain ⟨hrep, h⟩ := Prod.mk.inj h
      obtain ⟨hnum, hack⟩ := Prod.mk.inj h
      rw [if_pos hreports] at hrow
      have hkeep : ∀ {id}, (∃ r ∈ s.db.completionOutbox, r.eventId = id) →
          ∃ r ∈ s'.db.completionOutbox, r.eventId = id := by
        rintro id ⟨r, hr, hid⟩
        refine ⟨r, ?_, hid⟩
        rw [hrow, Partner.Db.recordCompletion]
        split_ifs
        · exact hr
        · exact List.mem_append_left _ hr
      refine ⟨fun id hid => ?_, fun r hr => ?_, hrep ▸ hnum ▸ hsends, hrep ▸ hR.numbers,
        hack ▸ hnum ▸ hR.acks, htopic, hreq, houtbox, hob, hcomm⟩
      · obtain ⟨x, hx, hid⟩ := hid
        rw [heff] at hx
        rcases List.mem_append.mp hx with hx | hx
        · obtain ⟨hk, hrest⟩ := hold (hR.delivered id ⟨x, hx, hid⟩)
          exact ⟨hk, hrest.imp_left hkeep⟩
        · obtain rfl := List.mem_singleton.mp hx
          subst hid
          refine ⟨hlater.known _ hknown, Or.inl ?_⟩
          rw [hrow, Partner.Db.recordCompletion]
          split_ifs with hany
          · obtain ⟨r, hr, hid⟩ := List.any_eq_true.mp hany
            exact ⟨r, hr, of_decide_eq_true hid⟩
          · exact ⟨_, List.mem_append_right _ List.mem_cons_self, rfl⟩
      · rw [hrow, Partner.Db.recordCompletion] at hr
        split_ifs at hr with hany
        · exact hrows r hr
        · rcases List.mem_append.mp hr with hr | hr
          · exact hrows r hr
          · refine ⟨?_, Or.inl (by rw [List.mem_singleton.mp hr])⟩
            rw [List.mem_singleton.mp hr, Partner.Db.isDelivered, heff]
            exact ⟨_, List.mem_append_right _ List.mem_cons_self, rfl⟩
  | @send owner r todo sends hproc h =>
      subst hproc h
      have hnew : ∀ x ∈ s.reporting, x.1 ≠ s.nextReport := fun x hx => (hR.sends x hx).1.ne
      refine ⟨fun id hid => hold (hR.delivered id hid), hrows, fun x hx => ?_, ?_,
        fun n hn => (hR.acks n hn).trans (Nat.lt_succ_self _), htopic, hreq, houtbox, hob, hcomm⟩
      · rcases List.mem_append.mp hx with hx | hx
        · exact ⟨(hR.sends x hx).1.trans (Nat.lt_succ_self _), (hR.sends x hx).2⟩
        · rw [List.mem_singleton.mp hx]
          exact ⟨Nat.lt_succ_self _, hp.1 r List.mem_cons_self⟩
      · rw [List.map_append]
        refine List.Nodup.append hR.numbers (by simp) ?_
        intro n hn hn'
        obtain ⟨x, hx, rfl⟩ := List.mem_map.mp hn
        exact hnew x hx (by simpa using hn')
  | @mark owner ids time hproc h =>
      subst hproc h
      refine ⟨fun id hid => ?_, fun r hr => ?_, hR.sends, hR.numbers, hR.acks, htopic, hreq,
        houtbox, hob, hcomm⟩
      · obtain ⟨hk, hrow⟩ := hold (hR.delivered id hid)
        refine ⟨hk, hrow.imp_left ?_⟩
        rintro ⟨r, hr, hid⟩
        refine ⟨_, List.mem_map_of_mem hr, ?_⟩
        split_ifs <;> exact hid
      · obtain ⟨row, hrow, rfl⟩ := List.mem_map.mp hr
        by_cases hid : row.eventId ∈ ids
        · rw [if_pos hid]
          exact ⟨(hrows row hrow).1, Or.inr (hlater.inTopic (hp _ hid))⟩
        · rw [if_neg hid]
          exact hrows row hrow
  | @append n lost r ha hr h =>
      subst h
      have hmem := mem_of_lookup hr
      refine ⟨fun id hid => hold (hR.delivered id hid), hrows,
        fun x hx => hsends x (List.mem_filter.mp hx).1,
        hR.numbers.sublist (List.filter_sublist.map _), fun m hm => ?_, htopic, hreq, houtbox,
        hob, hcomm⟩
      cases lost with
      | true => exact hR.acks m hm
      | false =>
          rcases List.mem_append.mp hm with hm | hm
          · exact hR.acks m hm
          · rw [List.mem_singleton.mp hm]
            exact (hR.sends _ hmem).1
  | @purge ids hsent h =>
      subst h
      refine ⟨fun id hid => ?_, fun r hr => hrows r (List.mem_filter.mp hr).1, hR.sends,
        hR.numbers, hR.acks, htopic, hreq, houtbox, hob, hcomm⟩
      obtain ⟨hk, hrow⟩ := hold (hR.delivered id hid)
      refine ⟨hk, ?_⟩
      rcases hrow with ⟨r, hr, rfl⟩ | hin
      · by_cases hid : r.eventId ∈ ids
        · exact Or.inr ((hrows r hr).2.resolve_left (hsent r hr hid))
        · exact Or.inl ⟨r, List.mem_filter.mpr ⟨hr, by simpa using hid⟩, rfl⟩
      · exact Or.inr hin

/-- What a relay knows after its own statement. -/
lemma relayNext_facts {owner : String} {jvm : ℤ} {pc : Partner.RelayPc}
    (hR : Reporting own s d) (hp : relayFacts s d pc)
    (h : Partner.relayNext s owner jvm pc = some (s', p')) : partnerFacts own s' d p' := by
  cases pc with
  | select =>
      simp only [Partner.relayNext] at h
      split at h <;> cases h
      · trivial
      · refine ⟨fun r hr => ?_, fun x hx => by cases hx⟩
        exact (hR.rows r (List.mem_filter.mp (List.mem_of_mem_take hr)).1).1
  | sending todo sends =>
      obtain ⟨htodo, hsends⟩ := hp
      cases todo with
      | nil =>
          cases h
          exact hsends
      | cons r todo =>
          cases h
          refine ⟨fun x hx => htodo x (List.mem_cons_of_mem _ hx), fun x hx => ?_⟩
          rcases List.mem_append.mp hx with hx | hx
          · obtain ⟨hlt, huniq, hack⟩ := hsends x hx
            refine ⟨hlt.trans (Nat.lt_succ_self _), fun y hy hyx => ?_, hack⟩
            rcases List.mem_append.mp hy with hy | hy
            · exact huniq y hy hyx
            · rw [List.mem_singleton.mp hy] at hyx
              exact absurd hlt (hyx ▸ lt_irrefl _)
          · obtain rfl := List.mem_singleton.mp hx
            refine ⟨Nat.lt_succ_self _, fun y hy hyx => ?_, fun hn => ?_⟩
            · rcases List.mem_append.mp hy with hy | hy
              · exact absurd (hR.sends y hy).1 (hyx ▸ lt_irrefl _)
              · rw [List.mem_singleton.mp hy]
            · exact absurd (hR.acks _ hn) (lt_irrefl _)
  | awaiting sends =>
      simp only [Partner.relayNext] at h
      split_ifs at h with hacked
      cases h
      intro id hid
      obtain ⟨x, hx, rfl⟩ := List.mem_map.mp hid
      exact (hp x hx).2.2 (hacked x hx)
  | marking ids =>
      cases h
      trivial

/-- What a partner process knows after its own step. -/
lemma next_partnerFacts (hR : Reporting own s d) (hp : partnerFacts own s d p)
    (hstart : ∀ job, a = .start (.process job) → job.reports = true ∧ job.event ∈ d.requests)
    (hchange : Partner.ReportChange s p a s') (happ : Appended partition s d a d')
    (hdelivered : ∀ id, s.db.isDelivered id → s'.db.isDelivered id)
    (h : Partner.next t s p a = some (s', p')) : partnerFacts own s' d' p' := by
  cases Partner.next_move h with
  | start job =>
      cases job with
      | process job =>
          obtain ⟨hreports, hevent⟩ := hstart job rfl
          exact ⟨hreports, happ.later.known _ (hR.requests _ hevent)⟩
      | _ => trivial
  | poll => trivial
  | store h => obtain ⟨_, rfl⟩ | rfl | ⟨_, rfl⟩ := Partner.storeNext_proc h <;> trivial
  | claim h => obtain ⟨_, rfl⟩ | rfl := Partner.claimNext_proc h <;> trivial
  | renew h => obtain rfl | rfl := Partner.renewNext_proc h <;> trivial
  | giveBack h => obtain ⟨_, rfl⟩ | rfl := Partner.giveBackNext_proc h <;> trivial
  | deliver h =>
      obtain ⟨pc', rfl⟩ | rfl := Partner.processNext_proc h
      · exact ⟨hp.1, happ.later.known _ hp.2⟩
      · trivial
  | @relay owner pc jvm _ _ h =>
      have hd : d' = d := by
        cases happ with
        | none h ha => exact h
        | report ha hr h => cases ha
      rw [hd]
      exact relayNext_facts hR hp h
  | _ => trivial

/-! ### Every run -/

lemma run_reporting (h : Run (tracking partition) (reported own) untracked c) :
    Run Partner.service (fun _ _ _ => True) Partner.initial c.fst :=
  h.fst fun _ _ _ _ => trivial

lemma run_obligations (h : Run (tracking partition) (reported own) untracked c) :
    Run Delivery.service (fun _ _ _ => True) Delivery.initial c.snd :=
  h.snd (fun _ _ _ _ _ _ => trivial) fun _ _ _ _ => trivial

/-- The facts about reports and obligations hold in every run. -/
theorem reachable_reporting (h : Run (tracking partition) (reported own) untracked c) :
    Reporting own c.store.1 c.store.2 ∧ ∀ t, partnerFacts own c.store.1 c.store.2 (c.procs t).1 ∧
      deliveryFacts own c.store.1 c.store.2 (c.procs t).2 := by
  refine Run.invariant (I := fun s => Reporting own s.1 s.2)
    (J := fun _ s p => partnerFacts own s.1 s.2 p.1 ∧ deliveryFacts own s.1 s.2 p.2)
    (K := fun c => Run (tracking partition) (reported own) untracked c) (fun _ h => h) ?_ ?_ ?_ h
  · refine ⟨⟨?_, ?_, ?_, List.nodup_nil, ?_, ?_, ?_, ?_, ?_, fun p => Log.behind_zero⟩,
      fun _ => ⟨trivial, trivial⟩⟩
    · rintro id ⟨x, hx, -⟩
      cases hx
    all_goals simp [untracked, Config.pair, Partner.initial, Delivery.initial]
  · intro c t a s' p' hrun hok hR hq hnext
    have hpartner := run_reporting hrun
    have hsound := Delivery.reachable_sound (run_obligations hrun)
    cases a with
    | inl a =>
        obtain ⟨hnext, hsync⟩ := Program.couple_inl hnext
        obtain ⟨happ, hidle⟩ := appended_of_sync hsync
        have hchange := Partner.next_reports hnext
        have heff : Partner.Effect t c.store.1 (c.procs t).1 s'.1 :=
          Partner.reachable_effect hpartner hnext
        have hdel : ∀ id, c.store.1.db.isDelivered id → s'.1.db.isDelivered id :=
          fun id => heff.isDelivered
        refine ⟨hR.partner (hq t).1 hchange happ hdel, ?_, ?_⟩
        · refine next_partnerFacts hR (hq t).1 ?_ hchange happ hdel hnext
          rintro job rfl
          exact hok
        · rcases hidle with heq | heq
          · rw [heq]
            exact deliveryFacts_later happ.later hdel (hq t).2
          · rw [heq]
            trivial
    | inr b =>
        obtain ⟨hnext, hs, hp⟩ := Program.couple_inr hnext
        rw [hs, hp]
        have hlater : Later own c.store.2 s'.2 := later_of_next hsound.1 (hsound.2 t) hnext
        refine ⟨hR.delivery hsound.1 (hsound.2 t) (hq t).2 ?_ ?_ hnext,
          partnerFacts_later hlater (hq t).1,
          next_deliveryFacts hR hsound.1 (hsound.2 t) (hq t).2 ?_ hnext⟩
        · rintro e rfl
          exact hok
        · rintro p r rfl
          exact hok
        · rintro job rfl
          exact hok
  · intro c t a s' p' u hrun hok hR hq hnext hut
    have hsound := Delivery.reachable_sound (run_obligations hrun)
    cases a with
    | inl a =>
        obtain ⟨hnext, hsync⟩ := Program.couple_inl hnext
        obtain ⟨happ, -⟩ := appended_of_sync hsync
        have heff : Partner.Effect t c.store.1 (c.procs t).1 s'.1 :=
          Partner.reachable_effect (run_reporting hrun) hnext
        have hdel : ∀ id, c.store.1.db.isDelivered id → s'.1.db.isDelivered id :=
          fun id => heff.isDelivered
        exact ⟨partnerFacts_step (Partner.next_reports hnext) happ hdel (hq u).1,
          deliveryFacts_later happ.later hdel (hq u).2⟩
    | inr b =>
        obtain ⟨hnext, hs, -⟩ := Program.couple_inr hnext
        have hlater : Later own c.store.2 s'.2 := later_of_next hsound.1 (hsound.2 t) hnext
        rw [hs]
        exact ⟨partnerFacts_later hlater (hq u).1,
          deliveryFacts_later hlater (fun _ h => h) (hq u).2⟩

/-! ### The result -/

/-- Where the report of a delivered operation is. -/
inductive ReportState (c : Tracking) (eventId : String) : Prop
  | unsent (r : Partner.CompletionRow) (hr : r ∈ c.fst.store.db.completionOutbox)
      (hid : r.eventId = eventId) (h : r.sentAt = none)
  | unread (p i : ℕ) (hi : c.snd.store.committed p ≤ i) (r : PartnerCompletionEvent)
      (hr : (c.snd.store.topic p)[i]? = some r) (hid : r.eventId = eventId)
  | resolved (h : ∀ o ∈ c.snd.store.db.obligations, o.eventId = eventId → o.resolvedAt ≠ none)

/-- A report below the committed offset has resolved its obligation. -/
lemma reportState_of_inTopic (h : Run (tracking partition) (reported own) untracked c)
    {eventId : String} (hin : InTopic c.snd.store eventId) : ReportState c eventId := by
  have hR := (reachable_reporting h).1
  have hsound := (Delivery.reachable_sound (run_obligations h)).1
  obtain ⟨p, r, hr, hid⟩ := hin
  obtain ⟨i, hi⟩ := List.mem_iff_getElem?.mp hr
  by_cases hlt : i < c.snd.store.committed p
  · refine .resolved fun o ho hoid => ?_
    rcases Consumer.settled_getElem (hR.committed p) hlt hi with hown | ⟨x, hx, hxid, hres⟩
    · rw [hid, ← hoid] at hown
      exact absurd hown (hR.obligations o ho).1
    · rwa [hsound.ids.eq ho hx (hoid.trans (hid.symm.trans hxid.symm))]
  · exact .unread p i (not_lt.mp hlt) r hi hid

/-- A resolved obligation stays as it is. -/
lemma resolved_kept {c' : Tracking} (h : Run (tracking partition) (reported own) untracked c)
    (h' : Run (tracking partition) (reported own) c c') {o : Delivery.Obligation}
    (ho : o ∈ c.snd.store.db.obligations) (hres : o.resolvedAt ≠ none) :
    o ∈ c'.snd.store.db.obligations := by
  induction h' with
  | nil => exact ho
  | @snoc c₁ c₂ t a hrun hok hstep ih =>
      obtain ⟨s', p', hnext, rfl⟩ := Program.step_eq_some _ hstep
      have hsound := Delivery.reachable_sound (run_obligations (h.trans hrun))
      cases a with
      | inl a =>
          have happ := (appended_of_sync (Program.couple_inl hnext).2).1
          show o ∈ s'.2.db.obligations
          rw [happ.rest.1]
          exact ih
      | inr b =>
          have hchange := Delivery.next_change (hsound.2 t) (Program.couple_inr hnext).1
          obtain ⟨o', ho', hkept⟩ := hchange.keeps hsound.1 ih
          obtain rfl := hkept.resolved hres
          exact ho'

/-- **Every delivery is reported and every obligation is closed once.** In every
reachable state a delivered operation has an unsent report, or a report at or above the
committed offset, or its obligation is resolved; a resolved obligation belongs to a
delivered operation; and its row never changes again. -/
theorem every_delivery_reported (h : Run (tracking partition) (reported own) untracked c) :
    (∀ x ∈ c.fst.store.db.partnerEffect, ReportState c x.eventId) ∧
    (∀ o ∈ c.snd.store.db.obligations, o.resolvedAt ≠ none →
      c.fst.store.db.isDelivered o.eventId) ∧
    ∀ c', Run (tracking partition) (reported own) c c' →
      ∀ o ∈ c.snd.store.db.obligations, o.resolvedAt ≠ none →
        c'.snd.store.db.obligation o.eventId = some o := by
  have hR := (reachable_reporting h).1
  refine ⟨fun x hx => ?_, fun o ho => (hR.obligations o ho).2, fun c' h' o ho hres => ?_⟩
  · rcases (hR.delivered x.eventId ⟨x, hx, rfl⟩).2 with ⟨r, hr, hid⟩ | hin
    · rcases (hR.rows r hr).2 with hnone | hin
      · exact .unsent r hr hid hnone
      · rw [← hid]
        exact reportState_of_inTopic h hin
    · exact reportState_of_inTopic h hin
  · have hsound := (Delivery.reachable_sound (run_obligations (h.trans h'))).1
    exact (Table.get_eq_some hsound.ids).mpr ⟨resolved_kept h h' ho hres, rfl⟩

/-- An operation is accepted without a quota and published. -/
def acceptedOperation : List (ℕ × Delivery.Act) :=
  Delivery.accepting 0 5 (Delivery.sampleRequest "e1" 1) 0 ++
    [(0, .publish (Delivery.outboxRow 0 "0" (Delivery.published (Delivery.sampleRequest "e1" 1) 5)))]

/-- It is delivered, its report is sent, and the relay stops before it marks the
report. -/
def deliveredOperation : List (ℕ × Partner.Act) :=
  let e := Delivery.published (Delivery.sampleRequest "e1" 1) 5
  (1, .start (.process ⟨e, none, "w", 1, false, true, 10⟩)) :: Partner.statements 1 3 0 ++
    (2, .serve ⟨0, e⟩ false false) :: Partner.statements 1 9 0 ++
    (3, .start (.relay "w")) :: Partner.statements 3 3 0 ++
    [(4, .appendReport 0 false), (3, .abort)]

/-- The report is read and its obligation is resolved. -/
def resolvedOperation : List (ℕ × Delivery.Act) :=
  [(5, .consume), (5, .assign 0), (5, .poll [(0, 1)])] ++ Delivery.statements 5 4

theorem every_delivery_reported_once_sent :
    ∃ c, Run (tracking fun _ => 0) (reported fun _ => False) untracked c ∧
      (c.fst.store.db.completionOutbox.map (·.sentAt), c.snd.store.committed 0,
        c.snd.store.db.obligations.map (·.resolvedAt)) = ([none], 1, [some 5]) ∧
      (∀ x ∈ c.fst.store.db.partnerEffect, ReportState c x.eventId) ∧
      (∀ o ∈ c.snd.store.db.obligations, o.resolvedAt ≠ none →
        c.fst.store.db.isDelivered o.eventId) ∧
      ∀ c', Run (tracking fun _ => 0) (reported fun _ => False) c c' →
        ∀ o ∈ c.snd.store.db.obligations, o.resolvedAt ≠ none →
          c'.snd.store.db.obligation o.eventId = some o := by
  obtain ⟨c, hrun, hc⟩ := Run.exists_of_exec (tracking fun _ => 0) (reported fun _ => False)
    untracked
    (acceptedOperation.map (fun x => (x.1, .inr x.2)) ++
      deliveredOperation.map (fun x => (x.1, .inl x.2)) ++
      resolvedOperation.map (fun x => (x.1, .inr x.2)))
    (fun c => (c.fst.store.db.completionOutbox.map (·.sentAt), c.snd.store.committed 0,
      c.snd.store.db.obligations.map (·.resolvedAt)))
    ([none], 1, [some 5]) (by decide +kernel)
  exact ⟨c, hrun, hc, every_delivery_reported hrun⟩

end OrderSystem.Pipeline
