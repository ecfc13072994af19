/-
INBOX mode: rows enter by `storeAll`, deliveries run under claims.

* `inboxMode`: what the environment may start in this mode. The events come from
  a set `E`, a claim is tried for a row `findReady` has returned, and tokens are
  presented only after they were issued.
* `InboxStep`: in this mode the inbox and the ledger move together. Rows are
  inserted pending and undelivered, updates neither finish nor reopen a row, a
  delivery finishes its row in the same transaction, and only finished rows are
  deleted.
* `InboxAgrees`: the invariant. A row is `DONE` exactly when its event is in
  `partner_effect`, a claimed row is the next operation of its order, and an
  issued token never lies above the generation of its row.
* `inbox_agrees_with_ledger`: the inbox and the delivery ledger agree in every
  reachable state, and a delivered event never enters the inbox again.
-/
import OrderSystem.Partner.Effects

namespace OrderSystem.Partner

open Interleaving

variable {t u : ℕ} {s s' : Store} {p p' : Proc} {a : Act} {E : PartnerOrderEvent → Prop}

/-! ### The environment -/

/-- An event of `E` that passed `validate` when it was read. -/
def Admitted (E : PartnerOrderEvent → Prop) (e : PartnerOrderEvent) : Prop :=
  E e ∧ e.valid = true

instance [DecidablePred E] (e : PartnerOrderEvent) : Decidable (Admitted E e) :=
  inferInstanceAs (Decidable (_ ∧ _))

/-- The jobs INBOX mode may start. -/
def Job.inboxMode (E : PartnerOrderEvent → Prop) (s : Store) : Job → Prop
  | .consume | .relay _ => True
  | .storeAll job => ∀ task ∈ job.tasks, Admitted E task.event
  | .claim job => ∃ r ∈ s.db.inbox, r.event = job.event
  | .process job => ∃ i ∈ s.issued, job.claim = some i.claim ∧ i.event = job.event
  | .renew c _ => ∃ i ∈ s.issued, i.claim = c
  | .giveBack c _ => ∃ i ∈ s.issued, i.claim = c
  | .release c => ∃ i ∈ s.issued, i.claim = c

instance [DecidablePred E] (s : Store) (job : Job) : Decidable (job.inboxMode E s) :=
  match job with
  | .consume | .relay _ => isTrue trivial
  | .storeAll job => inferInstanceAs (Decidable (∀ task ∈ job.tasks, Admitted E task.event))
  | .claim job => inferInstanceAs (Decidable (∃ r ∈ s.db.inbox, r.event = job.event))
  | .process job => inferInstanceAs
      (Decidable (∃ i ∈ s.issued, job.claim = some i.claim ∧ i.event = job.event))
  | .renew c _ => inferInstanceAs (Decidable (∃ i ∈ s.issued, i.claim = c))
  | .giveBack c _ => inferInstanceAs (Decidable (∃ i ∈ s.issued, i.claim = c))
  | .release c => inferInstanceAs (Decidable (∃ i ∈ s.issued, i.claim = c))

/-- The job an action starts. -/
def Act.job : Act → Option Job
  | .start job => some job
  | _ => none

/-- The record an action appends to the topic. -/
def Act.record : Act → Option PartnerOrderEvent
  | .produce _ e => some e
  | _ => none

/-- The environment of INBOX mode, with events from `E`. -/
def inboxMode (E : PartnerOrderEvent → Prop) (c : Config Store Proc) (_ : ℕ) (a : Act) : Prop :=
  (∀ job ∈ a.job, job.inboxMode E c.store) ∧ ∀ e ∈ a.record, E e

instance [DecidablePred E] (c : Config Store Proc) (t : ℕ) (a : Act) :
    Decidable (inboxMode E c t a) :=
  inferInstanceAs (Decidable ((∀ job ∈ a.job, job.inboxMode E c.store) ∧ ∀ e ∈ a.record, E e))

/-! ### The invariant -/

/-- The event has entered the inbox: its row is there or it is delivered, and no
other payload is stored under its id. -/
structure Seen (db : Db) (e : PartnerOrderEvent) : Prop where
  payload : ∀ r ∈ db.inbox, r.eventId = e.eventId → r.event = e
  kept : (∃ r ∈ db.inbox, r.eventId = e.eventId) ∨ db.isDelivered e.eventId

/-- The inbox, the ledger and the issued tokens agree. -/
structure InboxAgrees (E : PartnerOrderEvent → Prop) (s : Store) : Prop where
  rows : ∀ r ∈ s.db.inbox, Admitted E r.event
  topic : ∀ q, ∀ e ∈ s.topic q, E e
  done : ∀ r ∈ s.db.inbox, r.state = .done ↔ s.db.isDelivered r.eventId
  inOrder : ∀ r ∈ s.db.inbox, r.state = .claimed →
    r.event.sequence = s.db.lastSequence r.event.order + 1
  effects : ∀ x ∈ s.db.partnerEffect,
    ∃ e, Admitted E e ∧ e.eventId = x.eventId ∧ e.order = x.order ∧ e.sequence = x.seq
  finished : ∀ owner, ∀ id ∈ s.finished owner, s.db.isDelivered id
  issued : ∀ i ∈ s.issued, i.claim.eventId = i.event.eventId ∧ Seen s.db i.event
  generation : ∀ i ∈ s.issued, ∀ r ∈ s.db.inbox, r.eventId = i.claim.eventId →
    i.claim.generation ≤ r.generation

/-- The rows `storeAll` is about to insert. -/
def StorePc.rows : StorePc → List InboxRow
  | .countPending rows | .countRetained rows | .insert rows | .commit rows => rows
  | _ => []

/-- The row `claim` has selected. -/
def ClaimPc.selected : ClaimPc → Option InboxRow
  | .countAdmissions _ _ row | .insertAdmission _ _ row | .updateRow _ _ row _
  | .updatePermit _ _ row _ _ | .commit _ (.claimed _ row _ _ _) => some row
  | _ => none

/-- The delivery has found its event delivered, or has recorded it. -/
def ProcessPc.afterwards : ProcessPc → Bool
  | .duplicateHolds | .complete none | .release none _ | .commit none _ _ | .returned => true
  | _ => false

/-- The event of such a delivery is delivered. -/
def Proc.delivered (s : Store) : Proc → Prop
  | .delivering job pc => pc.afterwards = true → s.db.isDelivered job.event.eventId
  | _ => True

/-- The local part of the invariant. -/
def Proc.inboxMode (E : PartnerOrderEvent → Prop) (s : Store) : Proc → Prop
  | .storing job pc => (∀ task ∈ job.tasks, Admitted E task.event) ∧
      ∀ r ∈ pc.rows, ¬ s.db.isDelivered r.eventId
  | .claiming job pc => Seen s.db job.event ∧ ∀ row ∈ pc.selected,
      row.event.sequence = s.db.lastSequence row.event.order + 1
  | .renewing c _ _ => ∃ i ∈ s.issued, i.claim = c
  | .givingBack c _ => ∃ i ∈ s.issued, i.claim = c
  | .delivering job pc => (∃ i ∈ s.issued, job.claim = some i.claim ∧ i.event = job.event) ∧
      (pc.afterwards = true → s.db.isDelivered job.event.eventId)
  | _ => True

/-! ### Steps of the inbox and the ledger -/

/-- What a step in INBOX mode does to the inbox and the ledger. -/
inductive InboxStep (E : PartnerOrderEvent → Prop) (db db' : Db) : Prop
  | same (hin : db'.inbox = db.inbox) (he : db'.partnerEffect = db.partnerEffect)
      (ho : db'.partnerOrder = db.partnerOrder)
  | insert (rows : List InboxRow) (hE : ∀ r ∈ rows, Admitted E r.event)
      (hpending : ∀ r ∈ rows, r.state = .pending)
      (hnew : ∀ r ∈ rows, ¬ db.isDelivered r.eventId)
      (habsent : ∀ r ∈ rows, ∀ x ∈ db.inbox, x.eventId ≠ r.eventId)
      (hin : db'.inbox = db.inbox ++ rows) (he : db'.partnerEffect = db.partnerEffect)
      (ho : db'.partnerOrder = db.partnerOrder)
  | update (row row' : InboxRow) (hrow : row ∈ db.inbox) (hevent : row'.event = row.event)
      (hgen : row.generation ≤ row'.generation) (hdone : row'.state = .done ↔ row.state = .done)
      (hnext : row'.state = .claimed →
        row.event.sequence = db.lastSequence row.event.order + 1)
      (hin : db'.inbox = Table.put InboxRow.eventId row' db.inbox)
      (he : db'.partnerEffect = db.partnerEffect) (ho : db'.partnerOrder = db.partnerOrder)
  | deliver (row : InboxRow) (doneAt time : ℤ) (hrow : row ∈ db.inbox)
      (hclaimed : row.state = .claimed) (hrec : Recording db row.event)
      (hin : db'.inbox = Table.put InboxRow.eventId (row.complete time) db.inbox)
      (he : db'.partnerEffect = (db.recordDelivery row.event doneAt).partnerEffect)
      (ho : db'.partnerOrder = (db.recordDelivery row.event doneAt).partnerOrder)
  | delete (ids : List String) (hdone : ∀ r ∈ db.inbox, r.eventId ∈ ids → r.state = .done)
      (hin : db'.inbox = db.inbox.filter fun r => r.eventId ∉ ids)
      (he : db'.partnerEffect = db.partnerEffect) (ho : db'.partnerOrder = db.partnerOrder)

/-- The row held under an issued token carries the event the token was issued
for. -/
lemma InboxAgrees.event_of_holding (hi : InboxAgrees E s) {i : Issued} (hmem : i ∈ s.issued)
    {row : InboxRow} (h : Holding s.db i.claim row) : row.event = i.event := by
  obtain ⟨hid, hseen⟩ := hi.issued i hmem
  refine hseen.payload row (Table.mem_of_get h.stored) ?_
  rw [eventId_of_inboxRow h.stored, hid]

/-- A claimed row is not delivered. -/
lemma InboxAgrees.not_delivered (hi : InboxAgrees E s) {row : InboxRow} (hrow : row ∈ s.db.inbox)
    (h : row.state ≠ .done) : ¬ s.db.isDelivered row.eventId :=
  fun hd => h ((hi.done row hrow).mpr hd)

lemma Effect.inboxStep (h : Effect t s p s') (hi : InboxAgrees E s) (hp : p.inboxMode E s) :
    InboxStep E s.db s'.db := by
  cases h with
  | @store job rows locks hpc hfresh hadm hcap =>
      subst hpc
      refine .insert rows ?_ ?_ hp.2 ?_ rfl rfl rfl
      · intro r hr
        obtain ⟨task, htask, rfl⟩ := hfresh.ofTask r hr
        exact hp.1 task htask
      · intro r hr
        obtain ⟨task, -, rfl⟩ := hfresh.ofTask r hr
        rfl
      · intro r hr x hx
        exact Table.get_eq_none.mp (hfresh.absent r hr) x hx
  | ensure locks hp hmine =>
      exact .same (by simp [Store.committing]) (by simp [Store.committing])
        (by simp [Store.committing])
  | @claim job inserted slot row row' admittedAt permit locks hpc hclaim hrow hslot hmine =>
      subst hpc
      obtain ⟨lease, hrow'⟩ := hclaim.claimed
      refine .update row row' (Table.mem_of_get hclaim.selected.stored) (by rw [hrow']; rfl)
        (by rw [hrow']; exact Nat.le_succ _) ?_ (fun _ => hp.2 row rfl)
        (by simp [Store.committing, commitClaim, Db.setPermit, Db.setInbox])
        (by simp [Store.committing, commitClaim]) (by simp [Store.committing, commitClaim])
      have hfree := hclaim.selected.free
      rw [hrow']
      constructor
      · intro h
        cases h
      · intro h
        simp [h] at hfree
  | @renewRow c leaseMs row hpc hhold hlive hmine =>
      have hmem := Table.mem_of_get hhold.stored
      exact .update row (row.renew (s.now + leaseMs)) hmem rfl le_rfl Iff.rfl (hi.inOrder row hmem)
        rfl rfl rfl
  | @record job doneAt row permit locks hpc hclose hrec hfree hmine =>
      subst hpc
      obtain ⟨⟨i, hmem, hci, hie⟩, -⟩ := hp
      cases hclose with
      | lost hc hd => cases hd
      | @complete c row time hc hhold =>
          obtain rfl : i.claim = c := Option.some.inj (hci.symm.trans hc)
          have hevent : row.event = job.event := (hi.event_of_holding hmem hhold).trans hie
          refine .deliver row doneAt time (Table.mem_of_get hhold.stored) hhold.claimed ?_ ?_ ?_ ?_
          · rw [hevent]
            exact hrec
          · simp [Store.committing]
          · rw [hevent]
            simp [Store.committing]
          · rw [hevent]
            simp [Store.committing]
      | unclaimed hc =>
          rw [hc] at hci
          cases hci
      | markDone time hc hd hrow =>
          rw [hc] at hci
          cases hci
  | @close job row permit locks hpc hclose hfree hmine =>
      subst hpc
      obtain ⟨⟨i, hmem, hci, hie⟩, hdel⟩ := hp
      cases hclose with
      | lost hc hd =>
          exact .same (by simp [Store.committing]) (by simp [Store.committing])
            (by simp [Store.committing])
      | @complete c row time hc hhold =>
          -- a claimed row of a delivered event does not exist
          obtain rfl : i.claim = c := Option.some.inj (hci.symm.trans hc)
          have hevent : row.event = job.event := (hi.event_of_holding hmem hhold).trans hie
          refine absurd (hdel rfl) ?_
          rw [← hevent]
          refine hi.not_delivered (Table.mem_of_get hhold.stored) ?_
          rw [hhold.claimed]
          decide
      | unclaimed hc =>
          rw [hc] at hci
          cases hci
      | markDone time hc hd hrow => cases hd
  | @giveBack c row permit locks hpc hreturn hfree hmine =>
      cases hreturn with
      | lost =>
          exact .same (by simp [Store.committing]) (by simp [Store.committing])
            (by simp [Store.committing])
      | @giveBack row nextAt hhold =>
          refine .update row (row.giveBack nextAt) (Table.mem_of_get hhold.stored) rfl le_rfl ?_
            (fun h => by cases h) (by simp [Store.committing]) (by simp [Store.committing])
            (by simp [Store.committing])
          rw [hhold.claimed]
          simp [InboxRow.giveBack]
  | @scheduleRetry e row nextAt attempts hrow hmine =>
      have hmem := Table.mem_of_get hrow
      exact .update row (row.scheduleRetry nextAt attempts) hmem rfl le_rfl Iff.rfl
        (hi.inOrder row hmem) rfl rfl rfl
  | @purge ids hmine hdone => exact .delete ids hdone rfl rfl rfl
  | _ => exact .same rfl rfl rfl

lemma isDelivered_congr {db db' : Db} (h : db'.partnerEffect = db.partnerEffect) {id : String} :
    db'.isDelivered id ↔ db.isDelivered id := by
  rw [Db.isDelivered, Db.isDelivered, h]

/-! ### The invariant is kept -/

namespace InboxStep

variable {db db' : Db} (h : InboxStep E db db')

include h

lemma isDelivered {id : String} (hd : db.isDelivered id) : db'.isDelivered id := by
  cases h with
  | deliver row doneAt time hrow hclaimed hrec hin he ho =>
      exact (isDelivered_congr he).mpr (isDelivered_recordDelivery.mpr (Or.inl hd))
  | same hin he ho => exact (isDelivered_congr he).mpr hd
  | insert rows hE hpending hnew habsent hin he ho => exact (isDelivered_congr he).mpr hd
  | update row row' hrow hevent hgen hdone hnext hin he ho =>
      exact (isDelivered_congr he).mpr hd
  | delete ids hdone hin he ho => exact (isDelivered_congr he).mpr hd

/-- A row after the step was there before, or is new and not delivered. -/
lemma origin {r : InboxRow} (hr : r ∈ db'.inbox) :
    (∃ x ∈ db.inbox, x.event = r.event ∧ x.generation ≤ r.generation) ∨
      (Admitted E r.event ∧ r.state = .pending ∧ ¬ db.isDelivered r.eventId ∧
        ∀ x ∈ db.inbox, x.eventId ≠ r.eventId) := by
  cases h with
  | same hin he ho =>
      rw [hin] at hr
      exact Or.inl ⟨r, hr, rfl, le_rfl⟩
  | insert rows hE hpending hnew habsent hin he ho =>
      rw [hin] at hr
      rcases List.mem_append.mp hr with hr | hr
      · exact Or.inl ⟨r, hr, rfl, le_rfl⟩
      · exact Or.inr ⟨hE r hr, hpending r hr, hnew r hr, habsent r hr⟩
  | update row row' hrow hevent hgen hdone hnext hin he ho =>
      rw [hin] at hr
      rcases Table.mem_put.mp hr with rfl | ⟨hr, -⟩
      · exact Or.inl ⟨row, hrow, hevent.symm, hgen⟩
      · exact Or.inl ⟨r, hr, rfl, le_rfl⟩
  | deliver row doneAt time hrow hclaimed hrec hin he ho =>
      rw [hin] at hr
      rcases Table.mem_put.mp hr with rfl | ⟨hr, -⟩
      · exact Or.inl ⟨row, hrow, rfl, le_rfl⟩
      · exact Or.inl ⟨r, hr, rfl, le_rfl⟩
  | delete ids hdone hin he ho =>
      rw [hin] at hr
      exact Or.inl ⟨r, (List.mem_filter.mp hr).1, rfl, le_rfl⟩

/-- A row before the step is still there, unless it was finished. -/
lemma kept {r : InboxRow} (hr : r ∈ db.inbox) :
    (∃ x ∈ db'.inbox, x.eventId = r.eventId) ∨ r.state = .done := by
  have hput : ∀ {row : InboxRow}, db'.inbox = Table.put InboxRow.eventId row db.inbox →
      ∃ x ∈ db'.inbox, x.eventId = r.eventId := by
    intro row hin
    by_cases hid : r.eventId = row.eventId
    · exact ⟨row, by rw [hin]; exact Table.mem_put.mpr (Or.inl rfl), hid.symm⟩
    · exact ⟨r, by rw [hin]; exact Table.mem_put.mpr (Or.inr ⟨hr, hid⟩), rfl⟩
  cases h with
  | same hin he ho => exact Or.inl ⟨r, by rwa [hin], rfl⟩
  | insert rows hE hpending hnew habsent hin he ho =>
      exact Or.inl ⟨r, by rw [hin]; exact List.mem_append_left _ hr, rfl⟩
  | update row row' hrow hevent hgen hdone hnext hin he ho => exact Or.inl (hput hin)
  | deliver row doneAt time hrow hclaimed hrec hin he ho => exact Or.inl (hput hin)
  | delete ids hdone hin he ho =>
      by_cases hid : r.eventId ∈ ids
      · exact Or.inr (hdone r hr hid)
      · refine Or.inl ⟨r, ?_, rfl⟩
        rw [hin]
        exact List.mem_filter.mpr ⟨hr, by simpa using hid⟩

/-- An event that has entered the inbox stays known. -/
lemma seen (hdone : ∀ r ∈ db.inbox, r.state = .done ↔ db.isDelivered r.eventId)
    {e : PartnerOrderEvent} (he : Seen db e) : Seen db' e := by
  refine ⟨fun r hr hid => ?_, ?_⟩
  · rcases h.origin hr with ⟨x, hx, hxr, -⟩ | ⟨-, -, hnew, habsent⟩
    · rw [← hxr]
      refine he.payload x hx ?_
      rw [← hid, InboxRow.eventId, hxr, InboxRow.eventId]
    · rcases he.kept with ⟨x, hx, hxe⟩ | hd
      · exact absurd (hxe.trans hid.symm) (habsent x hx)
      · rw [hid] at hnew
        exact absurd hd hnew
  · rcases he.kept with ⟨x, hx, hxe⟩ | hd
    · rcases h.kept hx with ⟨y, hy, hyx⟩ | hfin
      · exact Or.inl ⟨y, hy, hyx.trans hxe⟩
      · refine Or.inr (h.isDelivered ?_)
        rw [← hxe]
        exact (hdone x hx).mp hfin
    · exact Or.inr (h.isDelivered hd)

end InboxStep

section Agreement

variable (hi : InboxAgrees E s) (h : InboxStep E s.db s'.db)

include hi h

lemma InboxAgrees.done_step {r : InboxRow} (hr : r ∈ s'.db.inbox) :
    r.state = .done ↔ s'.db.isDelivered r.eventId := by
  cases h with
  | same hin he ho =>
      rw [hin] at hr
      rw [isDelivered_congr he]
      exact hi.done r hr
  | insert rows hE hpending hnew habsent hin he ho =>
      rw [hin] at hr
      rw [isDelivered_congr he]
      rcases List.mem_append.mp hr with hr | hr
      · exact hi.done r hr
      · simp [hpending r hr, hnew r hr]
  | update row row' hrow hevent hgen hdone hnext hin he ho =>
      rw [hin] at hr
      rw [isDelivered_congr he]
      rcases Table.mem_put.mp hr with rfl | ⟨hr, -⟩
      · rw [hdone, hi.done row hrow, InboxRow.eventId, InboxRow.eventId, hevent]
      · exact hi.done r hr
  | deliver row doneAt time hrow hclaimed hrec hin he ho =>
      rw [hin] at hr
      rw [isDelivered_congr he, isDelivered_recordDelivery]
      rcases Table.mem_put.mp hr with rfl | ⟨hr, hne⟩
      · exact ⟨fun _ => Or.inr rfl, fun _ => rfl⟩
      · rw [hi.done r hr]
        refine ⟨Or.inl, fun h => h.elim id fun hid => ?_⟩
        exact absurd hid.symm hne
  | delete ids hdone hin he ho =>
      rw [hin] at hr
      rw [isDelivered_congr he]
      exact hi.done r (List.mem_filter.mp hr).1

lemma InboxAgrees.inOrder_step (hs : Sound s) {r : InboxRow} (hr : r ∈ s'.db.inbox)
    (hc : r.state = .claimed) :
    r.event.sequence = s'.db.lastSequence r.event.order + 1 := by
  cases h with
  | same hin he ho =>
      rw [hin] at hr
      rw [lastSequence_congr ho]
      exact hi.inOrder r hr hc
  | insert rows hE hpending hnew habsent hin he ho =>
      rw [hin] at hr
      rw [lastSequence_congr ho]
      rcases List.mem_append.mp hr with hr | hr
      · exact hi.inOrder r hr hc
      · rw [hpending r hr] at hc
        cases hc
  | update row row' hrow hevent hgen hdone hnext hin he ho =>
      rw [hin] at hr
      rw [lastSequence_congr ho]
      rcases Table.mem_put.mp hr with rfl | ⟨hr, -⟩
      · rw [hevent]
        exact hnext hc
      · exact hi.inOrder r hr hc
  | deliver row doneAt time hrow hclaimed hrec hin he ho =>
      rw [hin] at hr
      rcases Table.mem_put.mp hr with rfl | ⟨hr, hne⟩
      · cases hc
      · -- another claimed row of this order would stand at the same place
        have hnext := hi.inOrder r hr hc
        rw [lastSequence_congr ho, hs.ledger.lastSequence_recordDelivery]
        split_ifs with hord
        · have hkey : r.orderSeq = row.orderSeq := by
            rw [InboxRow.orderSeq, InboxRow.orderSeq, hnext, hrec.next, hord]
          have heq := hs.inboxSeqs.eq hr hrow hkey
          subst heq
          exact absurd rfl hne
        · exact hnext
  | delete ids hdone hin he ho =>
      rw [hin] at hr
      rw [lastSequence_congr ho]
      exact hi.inOrder r (List.mem_filter.mp hr).1 hc

lemma InboxAgrees.effects_step {x : EffectRow} (hx : x ∈ s'.db.partnerEffect) :
    ∃ e, Admitted E e ∧ e.eventId = x.eventId ∧ e.order = x.order ∧ e.sequence = x.seq := by
  cases h with
  | deliver row doneAt time hrow hclaimed hrec hin he ho =>
      rw [he] at hx
      rcases List.mem_append.mp hx with hx | hx
      · exact hi.effects x hx
      · rw [List.mem_singleton.mp hx]
        exact ⟨row.event, hi.rows row hrow, rfl, rfl, rfl⟩
  | same hin he ho => exact hi.effects x (by rwa [he] at hx)
  | insert rows hE hpending hnew habsent hin he ho => exact hi.effects x (by rwa [he] at hx)
  | update row row' hrow hevent hgen hdone hnext hin he ho =>
      exact hi.effects x (by rwa [he] at hx)
  | delete ids hdone hin he ho => exact hi.effects x (by rwa [he] at hx)

end Agreement

lemma mem_markFinished {limit : ℕ} {ids : List String} {x id : String}
    (h : id ∈ markFinished limit ids x) : id ∈ ids ∨ id = x := by
  have hadded : id ∈ (if x ∈ ids then ids else ids ++ [x]) := by
    simp only [markFinished] at h
    split_ifs at h ⊢ <;> first | exact h | exact List.mem_of_mem_tail h
  split_ifs at hadded
  · exact Or.inl hadded
  · simpa using hadded

lemma InboxAgrees.finished_step (hi : InboxAgrees E s) (hp : p.inboxMode E s)
    (h : Effect t s p s') {owner id : String} (hid : id ∈ s'.finished owner) :
    s'.db.isDelivered id := by
  refine h.isDelivered ?_
  rcases h.finished_cases with heq | ⟨o, rfl⟩ | ⟨job, c, rfl, hc, rfl⟩
  · rw [heq] at hid
    exact hi.finished owner id hid
  · simp only [Store.restart, Function.update_apply] at hid
    split_ifs at hid
    · cases hid
    · exact hi.finished owner id hid
  · simp only [Store.finish, Function.update_apply] at hid
    split_ifs at hid
    · rcases mem_markFinished hid with hid | rfl
      · exact hi.finished _ id hid
      · exact hp.2 rfl
    · exact hi.finished owner id hid

/-- A token is not above the generation of its row. -/
lemma InboxAgrees.generation_step (hi : InboxAgrees E s) (hp : p.inboxMode E s)
    (h : Effect t s p s') {i : Issued} (hmem : i ∈ s'.issued) {r : InboxRow}
    (hr : r ∈ s'.db.inbox) (hid : r.eventId = i.claim.eventId) :
    i.claim.generation ≤ r.generation := by
  have hold : i ∈ s.issued → i.claim.generation ≤ r.generation := by
    intro hmem
    obtain ⟨hie, hseen⟩ := hi.issued i hmem
    rcases (h.inboxStep hi hp).origin hr with ⟨x, hx, hxr, hgen⟩ | ⟨-, -, hnew, habsent⟩
    · have hxid : x.eventId = i.claim.eventId := by
        rw [← hid, InboxRow.eventId, hxr, InboxRow.eventId]
      exact (hi.generation i hmem x hx hxid).trans hgen
    · rw [hid, hie] at hnew habsent
      rcases hseen.kept with ⟨x, hx, hxe⟩ | hd
      · exact absurd hxe (habsent x hx)
      · exact absurd hd hnew
  cases h.issuedChange with
  | same heq =>
      rw [heq] at hmem
      exact hold hmem
  | claim hpc hclaim heq hin hrec =>
      rw [heq] at hmem
      rcases List.mem_append.mp hmem with hmem | hmem
      · exact hold hmem
      · rw [List.mem_singleton.mp hmem] at hid ⊢
        obtain ⟨lease, hrow'⟩ := hclaim.claimed
        rw [hin] at hr
        rcases Table.mem_put.mp hr with rfl | ⟨-, hne⟩
        · rw [hrow']
          exact le_rfl
        · refine absurd (hid.trans ?_) hne
          rw [hrow']
          exact (eventId_of_inboxRow hclaim.selected.stored).symm

/-- Every step of INBOX mode keeps the agreement. -/
lemma InboxAgrees.step {c : Config Store Proc} (hi : InboxAgrees E s) (hs : Sound s)
    (hp : p.inboxMode E s) (hok : inboxMode E c t a) (heff : Effect t s p s')
    (h : next t s p a = some (s', p')) : InboxAgrees E s' where
  rows r hr := by
    rcases (heff.inboxStep hi hp).origin hr with ⟨x, hx, hxr, -⟩ | ⟨hE, -, -, -⟩
    · rw [← hxr]
      exact hi.rows x hx
    · exact hE
  topic q e he := by
    rcases next_topic heff h with heq | ⟨q', e', rfl, heq⟩
    · rw [heq] at he
      exact hi.topic q e he
    · rw [heq, Function.update_apply] at he
      split_ifs at he with hq
      · rcases List.mem_append.mp he with he | he
        · exact hi.topic q' e he
        · rw [List.mem_singleton.mp he]
          exact hok.2 e' rfl
      · exact hi.topic q e he
  done _ hr := hi.done_step (heff.inboxStep hi hp) hr
  inOrder _ hr hc := hi.inOrder_step (heff.inboxStep hi hp) hs hr hc
  effects _ hx := hi.effects_step (heff.inboxStep hi hp) hx
  finished _ _ hid := hi.finished_step hp heff hid
  issued i hmem := by
    have hstep := heff.inboxStep hi hp
    cases heff.issuedChange with
    | same heq =>
        rw [heq] at hmem
        exact ⟨(hi.issued i hmem).1, hstep.seen hi.done (hi.issued i hmem).2⟩
    | claim hpc hclaim heq hin hrec =>
        rw [heq] at hmem
        rcases List.mem_append.mp hmem with hmem | hmem
        · exact ⟨(hi.issued i hmem).1, hstep.seen hi.done (hi.issued i hmem).2⟩
        · subst hpc
          rw [List.mem_singleton.mp hmem]
          exact ⟨rfl, hstep.seen hi.done hp.1⟩
  generation _ hmem _ hr hid := hi.generation_step hp heff hmem hr hid

/-! ### What the processes know -/

lemma StorePc.absent_of_knows {job : StoreJob} {pc : StorePc} (h : pc.knows s job)
    {r : InboxRow} (hr : r ∈ pc.rows) : s.db.inboxRow r.eventId = none := by
  cases pc with
  | countPending rows => exact h.absent r hr
  | countRetained rows => exact h.absent r hr
  | insert rows => exact h.absent r hr
  | commit rows => exact h.1.absent r hr
  | _ => cases hr

lemma ClaimPc.selected_of_knows {job : ClaimJob} {pc : ClaimPc} (h : pc.knows s job)
    {row : InboxRow} (hrow : row ∈ pc.selected) : Selected s.db s.now job row := by
  cases pc with
  | countAdmissions inserted slot r =>
      cases hrow
      exact h
  | insertAdmission inserted slot r =>
      cases hrow
      exact h
  | updateRow inserted slot r admittedAt =>
      cases hrow
      exact h
  | updatePermit inserted slot r admittedAt row' =>
      cases hrow
      exact h.1
  | commit inserted result =>
      cases result with
      | claimed slot r admittedAt row' permit =>
          cases hrow
          exact h.selected
      | _ => cases hrow
  | _ => cases hrow

lemma ClaimPc.lock_of_selected {job : ClaimJob} {pc : ClaimPc} {row : InboxRow}
    (hrow : row ∈ pc.selected) : .inboxRow job.event.eventId ∈ pc.held job := by
  cases pc with
  | commit inserted result => cases result <;> cases hrow; simp [ClaimPc.held]
  | _ => cases hrow <;> simp [ClaimPc.held]

/-- What a process knows is not disturbed by the others. -/
lemma Proc.inboxMode_other {q : Proc} (hs : Sound s) (hi : InboxAgrees E s)
    (hp : p.inboxMode E s) (h : Effect t s p s') (hut : u ≠ t)
    (hheld : ∀ r ∈ q.held, (r, u) ∈ s.locks) (hk : q.knows s) (hq : q.inboxMode E s) :
    q.inboxMode E s' := by
  have hstep := h.inboxStep hi hp
  cases q with
  | storing job pc =>
      refine ⟨hq.1, fun r hr hd => ?_⟩
      have hnew := hq.2 r hr
      have habsent := Table.get_eq_none.mp (pc.absent_of_knows hk hr)
      cases hstep with
      | deliver row doneAt time hrow hclaimed hrec hin he ho =>
          rw [isDelivered_congr he, isDelivered_recordDelivery] at hd
          exact hd.elim hnew (habsent row hrow)
      | same hin he ho => exact hnew ((isDelivered_congr he).mp hd)
      | insert rows hE hpending hnew' habsent' hin he ho =>
          exact hnew ((isDelivered_congr he).mp hd)
      | update row row' hrow hevent hgen hdone hnext hin he ho =>
          exact hnew ((isDelivered_congr he).mp hd)
      | delete ids hdone hin he ho => exact hnew ((isDelivered_congr he).mp hd)
  | claiming job pc =>
      refine ⟨hstep.seen hi.done hq.1, fun row hrow => ?_⟩
      have hnext := hq.2 row hrow
      have hsel := pc.selected_of_knows hk hrow
      cases hstep with
      | deliver r doneAt time hr hclaimed hrec hin he ho =>
          rw [lastSequence_congr ho, hs.ledger.lastSequence_recordDelivery]
          split_ifs with hord
          · -- the delivered row would be the selected one, which is locked here
            exfalso
            have hkey : row.orderSeq = r.orderSeq := by
              rw [InboxRow.orderSeq, InboxRow.orderSeq, hnext, hrec.next, hord]
            have heq := hs.inboxSeqs.eq (Table.mem_of_get hsel.stored) hr hkey
            have hstay := h.inboxRow_locked hs (hheld _ (ClaimPc.lock_of_selected hrow)) hut
              hsel.stored
            have hmem := Table.mem_of_get hstay
            rw [hin] at hmem
            rcases Table.mem_put.mp hmem with hdone | ⟨-, hne⟩
            · have hfree := hsel.free
              rw [hdone] at hfree
              simp [InboxRow.complete] at hfree
            · exact hne (by rw [heq]; rfl)
          · exact hnext
      | same hin he ho =>
          rw [lastSequence_congr ho]
          exact hnext
      | insert rows hE hpending hnew' habsent' hin he ho =>
          rw [lastSequence_congr ho]
          exact hnext
      | update r row' hr hevent hgen hdone hnext' hin he ho =>
          rw [lastSequence_congr ho]
          exact hnext
      | delete ids hdone hin he ho =>
          rw [lastSequence_congr ho]
          exact hnext
  | renewing c leaseMs pc =>
      obtain ⟨i, hmem, hc⟩ := hq
      exact ⟨i, h.issued_mono hmem, hc⟩
  | givingBack c pc =>
      obtain ⟨i, hmem, hc⟩ := hq
      exact ⟨i, h.issued_mono hmem, hc⟩
  | delivering job pc =>
      obtain ⟨⟨i, hmem, hc⟩, hd⟩ := hq
      exact ⟨⟨i, h.issued_mono hmem, hc⟩, fun haft => h.isDelivered (hd haft)⟩
  | _ => trivial

/-- The tasks of a poll are records of the topic. -/
lemma pollBatch_mem {positions counts : List (ℕ × ℕ)} {tasks : List PartnerTask}
    {ends : List (ℕ × ℕ)} (h : pollBatch s positions counts = some (tasks, ends))
    {task : PartnerTask} (htask : task ∈ tasks) : ∃ q, task.event ∈ s.topic q := by
  induction counts generalizing tasks ends with
  | nil =>
      cases h
      cases htask
  | cons x rest ih =>
      obtain ⟨q, n⟩ := x
      simp only [pollBatch, Option.bind_eq_bind, Option.bind_eq_some_iff] at h
      obtain ⟨position, -, ⟨tasks', ends'⟩, hrest, h⟩ := h
      cases h
      rcases List.mem_append.mp htask with htask | htask
      · obtain ⟨y, hy, rfl⟩ := List.mem_map.mp htask
        have hmem := (List.mem_zipIdx hy).2.2
        have hin : y.1 ∈ (List.drop position (s.topic q)).take n := by
          rw [hmem]
          exact List.getElem_mem _
        exact ⟨q, List.mem_of_mem_drop (List.mem_of_mem_take hin)⟩
      · exact ih hrest htask

lemma storeNext_inboxMode {job : StoreJob} {pc : StorePc}
    (hq : Proc.inboxMode E s (.storing job pc)) (h : storeNext t s job pc = some (s', p')) :
    p'.inboxMode E s' := by
  have hfailed : job.failed.inboxMode E (s.unlock t) := by
    unfold StoreJob.failed
    split <;> trivial
  have hempty : ∀ r ∈ ([] : List InboxRow), ¬ s'.db.isDelivered r.eventId := by simp
  cases pc with
  | lockCapacity =>
      simp only [storeNext] at h
      split_ifs at h
      cases h
      exact ⟨hq.1, hempty⟩
  | readInbox =>
      cases h
      exact ⟨hq.1, hempty⟩
  | readLedger known =>
      simp only [storeNext] at h
      split_ifs at h <;> cases h
      · exact ⟨hq.1, hempty⟩
      · refine ⟨hq.1, fun r hr hd => ?_⟩
        obtain ⟨task, htask, rfl, hid⟩ := (newRows_spec job.receivedAt _ job.tasks).1 r hr
        refine hid (List.mem_append_right _ (List.mem_filter.mpr ?_))
        exact ⟨List.mem_map_of_mem htask, decide_eq_true hd⟩
  | countPending rows =>
      simp only [storeNext] at h
      split_ifs at h <;> cases h
      · exact hfailed
      · exact hq
  | countRetained rows =>
      simp only [storeNext] at h
      split_ifs at h <;> cases h
      · exact hfailed
      · exact hq
  | insert rows =>
      simp only [storeNext] at h
      split_ifs at h <;> cases h
      · exact hq
      · exact hfailed
  | commit rows =>
      cases h
      exact ⟨hq.1, hempty⟩
  | acknowledge =>
      simp only [storeNext] at h
      split at h <;> cases h <;> trivial

lemma claimNext_inboxMode {job : ClaimJob} {jvm : ℤ} {pc : ClaimPc}
    (hq : Proc.inboxMode E s (.claiming job pc)) (h : claimNext t s job jvm pc = some (s', p')) :
    p'.inboxMode E s' := by
  have hnone : ∀ row ∈ (none : Option InboxRow),
      row.event.sequence = s'.db.lastSequence row.event.order + 1 := by simp
  cases pc with
  | ensurePermits =>
      cases h
      refine ⟨hq.1, ?_⟩
      split_ifs <;> exact hnone
  | ensure slot inserted =>
      simp only [claimNext] at h
      split_ifs at h <;> cases h <;> exact ⟨hq.1, hnone⟩
  | selectPermits inserted =>
      simp only [claimNext] at h
      split_ifs at h
      split at h <;> cases h <;> exact ⟨hq.1, hnone⟩
  | selectRow inserted slot =>
      simp only [claimNext] at h
      split at h
      · cases h
        exact ⟨hq.1, hnone⟩
      · split_ifs at h with hok hretry <;> cases h
        · refine ⟨hq.1, fun row hrow => ?_⟩
          cases hrow
          exact hok.1.2
        · refine ⟨hq.1, fun row hrow => ?_⟩
          cases hrow
          exact hok.1.2
        · exact ⟨hq.1, hnone⟩
  | countAdmissions inserted slot row =>
      simp only [claimNext] at h
      split_ifs at h <;> cases h
      · exact ⟨hq.1, hnone⟩
      · exact hq
  | insertAdmission inserted slot row =>
      cases h
      exact hq
  | updateRow inserted slot row admittedAt =>
      cases h
      exact hq
  | updatePermit inserted slot row admittedAt row' =>
      simp only [claimNext] at h
      split at h <;> cases h
      exact hq
  | commit inserted result =>
      simp only [claimNext] at h
      split at h <;> cases h <;> trivial

/-- A delivery that has found its event delivered keeps it so. -/
lemma processNext_delivered {job : ProcessJob} {jvm : ℤ} {pc : ProcessPc}
    (hd : Proc.delivered s (.delivering job pc))
    (h : processNext t s job jvm pc = some (s', p')) : p'.delivered s' := by
  have hbefore : ∀ {P : Prop}, (false = true → P) := by simp
  cases pc with
  | isDelivered =>
      simp only [processNext] at h
      split_ifs at h with hdel
      · split at h <;> cases h <;> exact fun _ => hdel
      · cases h
        exact hbefore
  | duplicateHolds =>
      simp only [processNext] at h
      split at h
      · cases h
      · split_ifs at h
        split at h
        · split_ifs at h <;> cases h <;> exact fun _ => hd rfl
        · cases h
          exact fun _ => hd rfl
  | lastSequence =>
      simp only [processNext] at h
      split_ifs at h <;> cases h
      · trivial
      · exact hbefore
  | submit =>
      cases h
      exact hbefore
  | calling call =>
      simp only [processNext] at h
      split_ifs at h <;> cases h
      · exact hbefore
      · exact hbefore
      · trivial
  | holds =>
      simp only [processNext] at h
      split at h
      · cases h
      · split_ifs at h
        split at h
        · split_ifs at h <;> cases h
          · exact hbefore
          · trivial
        · cases h
          trivial
  | checkDelivered =>
      simp only [processNext] at h
      split_ifs at h with hdel hclaim <;> cases h
      · exact fun _ => hdel
      · exact fun _ => hdel
      · exact hbefore
  | checkSequence =>
      simp only [processNext] at h
      split_ifs at h <;> cases h
      · trivial
      · exact hbefore
  | insertEffect =>
      simp only [processNext] at h
      split_ifs at h <;> cases h
      · exact hbefore
      · trivial
  | upsertOrder doneAt =>
      simp only [processNext] at h
      split_ifs at h
      cases h
      exact hbefore
  | insertCompletion doneAt =>
      cases h
      exact hbefore
  | complete delivery =>
      simp only [processNext] at h
      split at h
      · cases h
        cases delivery <;> exact hd
      · split_ifs at h <;> cases h <;> cases delivery <;> exact hd
  | release delivery row =>
      simp only [processNext] at h
      split at h
      · cases h
      · split_ifs at h
        split at h <;> cases h <;> cases delivery <;> exact hd
  | commit delivery row permit =>
      cases delivery with
      | none =>
          cases h
          exact fun _ => (isDelivered_congr (by simp [commitDelivery, Store.unlock])).mpr
            (hd rfl)
      | some doneAt =>
          have hrecorded : (commitDelivery job (some doneAt) row permit s.db).isDelivered
              job.event.eventId :=
            (isDelivered_congr (commitDelivery_effects row permit s.db job doneAt)).mpr
              (isDelivered_recordDelivery.mpr (Or.inr rfl))
          simp only [processNext] at h
          split at h <;> cases h <;> exact fun _ => hrecorded
  | returned =>
      simp only [processNext] at h
      split at h <;> cases h <;> trivial

lemma next_delivered (hd : p.delivered s) (h : next t s p a = some (s', p')) :
    p'.delivered s' := by
  cases next_move h with
  | start job =>
      cases job with
      | process job => exact fun hafter => absurd hafter (by simp [ProcessPc.afterwards])
      | _ => trivial
  | poll => trivial
  | store hstore =>
      obtain ⟨_, rfl⟩ | rfl | ⟨_, rfl⟩ := storeNext_proc hstore <;> trivial
  | claim hclaim =>
      obtain ⟨_, rfl⟩ | rfl := claimNext_proc hclaim <;> trivial
  | renew hrenew =>
      obtain rfl | rfl := renewNext_proc hrenew <;> trivial
  | deliver hdeliver => exact processNext_delivered hd hdeliver
  | giveBack hgive =>
      obtain ⟨_, rfl⟩ | rfl := giveBackNext_proc hgive <;> trivial
  | relay hrelay =>
      obtain ⟨_, rfl⟩ | rfl := (relayNext_eq hrelay).2 <;> trivial
  | _ => trivial

/-- **`process` returns normally only when the operation is delivered**, in every mode. -/
theorem reachable_delivered {ok : Config Store Proc → ℕ → Act → Prop} {c : Config Store Proc}
    (h : Run service ok initial c) (t : ℕ) : (c.procs t).delivered c.store := by
  refine (Run.invariant (I := fun _ => True) (J := fun _ s p => p.delivered s)
    (K := fun c => Run service ok initial c) (fun _ h => h) ⟨trivial, fun _ => trivial⟩
    (fun c t a s' p' _ _ _ hq hnext => ⟨trivial, next_delivered (hq t) hnext⟩) ?_ h).2 t
  intro c t a s' p' u hrun _ _ hq hnext _
  have heff := reachable_effect hrun hnext
  have hu := hq u
  cases hp : c.procs u with
  | delivering job pc =>
      rw [hp] at hu
      exact fun hafter => heff.isDelivered (hu hafter)
  | _ => trivial

lemma processNext_inboxMode {job : ProcessJob} {jvm : ℤ} {pc : ProcessPc}
    (hq : Proc.inboxMode E s (.delivering job pc)) (heff : Effect t s (.delivering job pc) s')
    (h : processNext t s job jvm pc = some (s', p')) : p'.inboxMode E s' := by
  obtain ⟨⟨i, hmem, hclaim⟩, hd⟩ := hq
  have hafter := processNext_delivered hd h
  obtain ⟨pc', rfl⟩ | rfl := processNext_proc h
  · exact ⟨⟨i, heff.issued_mono hmem, hclaim⟩, hafter⟩
  · trivial

/-- What a process knows after its own step. -/
lemma next_inboxMode {c : Config Store Proc} (hs : Sound s) (hi : InboxAgrees E s)
    (hc : c.store = s) (hq : p.inboxMode E s) (hok : inboxMode E c t a) (heff : Effect t s p s')
    (h : next t s p a = some (s', p')) : p'.inboxMode E s' := by
  have hempty : ∀ {P : InboxRow → Prop}, ∀ r ∈ ([] : List InboxRow), P r := by simp
  cases next_move h with
  | start job =>
      have hjob := hok.1 job rfl
      rw [hc] at hjob
      cases job with
      | storeAll job =>
          refine ⟨hjob, ?_⟩
          split_ifs <;> exact hempty
      | claim job =>
          obtain ⟨r, hr, hre⟩ := hjob
          refine ⟨⟨fun x hx hid => ?_, Or.inl ⟨r, hr, by rw [InboxRow.eventId, hre]⟩⟩, by simp [ClaimPc.selected]⟩
          rw [hs.inboxIds.eq hx hr (by rw [hid, InboxRow.eventId, hre])]
          exact hre
      | process job => exact ⟨hjob, by simp [ProcessPc.afterwards]⟩
      | renew c leaseMs => exact hjob
      | giveBack c nextAt => exact hjob
      | release c => exact hjob
      | consume | relay owner => trivial
  | @poll positions counts tasks ends pendingLimit retainedLimit receivedAt hbatch hvalid =>
      refine ⟨fun task htask => ?_, ?_⟩
      · obtain ⟨q, hq⟩ := pollBatch_mem hbatch htask
        exact ⟨hi.topic q _ hq, List.all_eq_true.mp hvalid task htask⟩
      · split_ifs <;> exact hempty
  | store h => exact storeNext_inboxMode hq h
  | claim h => exact claimNext_inboxMode hq h
  | deliver h => exact processNext_inboxMode hq heff h
  | renew h =>
      obtain ⟨i, hmem, hic⟩ := hq
      obtain rfl | rfl := renewNext_proc h
      · exact ⟨i, heff.issued_mono hmem, hic⟩
      · trivial
  | giveBack h =>
      obtain ⟨i, hmem, hic⟩ := hq
      obtain ⟨_, rfl⟩ | rfl := giveBackNext_proc h
      · exact ⟨i, heff.issued_mono hmem, hic⟩
      · trivial
  | relay h =>
      obtain ⟨_, rfl⟩ | rfl := (relayNext_eq h).2 <;> trivial
  | _ => trivial

/-! ### Every run -/

/-- The agreement holds in every run of INBOX mode. -/
theorem reachable_agrees {c : Config Store Proc} (h : Run service (inboxMode E) initial c) :
    InboxAgrees E c.store ∧ ∀ t, (c.procs t).inboxMode E c.store := by
  refine Run.invariant (I := InboxAgrees E) (J := fun _ s p => p.inboxMode E s)
    (K := fun c => Run service (inboxMode E) initial c) (fun _ h => h) ?_ ?_ ?_ h
  · refine ⟨⟨?_, ?_, ?_, ?_, ?_, ?_, ?_, ?_⟩, fun _ => trivial⟩ <;> simp [initial]
  · intro c t a s' p' hrun hok hi hq hnext
    have hs := (reachable_sound hrun).1
    have heff := reachable_effect hrun hnext
    exact ⟨hi.step hs (hq t) hok heff hnext, next_inboxMode hs hi rfl (hq t) hok heff hnext⟩
  · intro c t a s' p' u hrun _ hi hq hnext hut
    exact Proc.inboxMode_other (reachable_sound hrun).1 hi (hq t) (reachable_effect hrun hnext)
      hut ((reachable_locks hrun).2 u) ((reachable_sound hrun).2 u) (hq u)

/-- A row that is not finished lies ahead of the recorded operations of its
order, when no two event ids share a place in an order. -/
lemma InboxAgrees.last_lt (hi : InboxAgrees E s) (hs : Sound s)
    (hids : ∀ e e', E e → E e' → e.order = e'.order → e.sequence = e'.sequence →
      e.eventId = e'.eventId)
    {r : InboxRow} (hr : r ∈ s.db.inbox) (hopen : r.state ≠ .done) :
    s.db.lastSequence r.event.order < r.event.sequence := by
  by_contra hle
  have hvalid := (hi.rows r hr).2
  have hpos : 0 < r.event.sequence := by
    simp only [PartnerOrderEvent.valid, Bool.and_eq_true, decide_eq_true_eq] at hvalid
    exact hvalid.1.1.1.1.1.1.2
  obtain ⟨x, hx, hxo, hxs⟩ := hs.ledger.mem_iff.mpr
    ⟨show 1 ≤ r.event.sequence by omega, not_lt.mp hle⟩
  obtain ⟨e, he, heid, heo, hes⟩ := hi.effects x hx
  have hsame := hids _ _ he.1 (hi.rows r hr).1 (heo.trans hxo) (hes.trans hxs)
  refine hi.not_delivered hr hopen ⟨x, hx, ?_⟩
  rw [← heid]
  exact hsame

/-- An event is stored, claimed, delivered, purged and read again. -/
def replayAfterPurge : List (ℕ × Act) :=
  let e := sampleEvent "e1" 1
  storing 1 e ++ claiming 2 e "w" ++ delivering 3 0 e ⟨"e1", "S", "w", 1, 1, false, false⟩ ++
    [(5, .deleteDoneBefore 5 10 ["e1"]),
      (1, .start (.storeAll ⟨[⟨e, 0, 0⟩], 10, 10, 0, none⟩))] ++ statements 1 4 0

end OrderSystem.Partner
