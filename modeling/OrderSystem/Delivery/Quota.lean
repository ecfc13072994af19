/-
The seller quota over whole runs.

* `quotaRun`: every instance has the same quota, and a report names an operation that
  was accepted, under its seller.
* `quota_does_not_bound`: an order takes three units with its `CREATE` and one comes
  back with each delivery, but it can have any number of operations, so the open work
  outgrows the units in use.
* `threePerCreate`: an operation other than the `CREATE` is committed while its order
  has fewer than three accepted operations for each accepted `CREATE`.
* `quota_bounds_undelivered`: in these runs the quota bounds the open work of every
  seller. The invariant is `Covered`: the units reserved for a seller are in use or
  came back with a resolved obligation.
-/
import OrderSystem.Delivery.Effects
import OrderSystem.Foundations.Counting

namespace OrderSystem.Delivery

open Interleaving

variable {t u : ℕ} {s s' : Store} {p p' : Proc} {a : Act} {db db' : Db} {job : AcceptJob}
  {w : Writes} {poll : Poll} {Q : ℤ} {c : Config Store Proc}

/-! ### The environment -/

/-- The report is about an accepted operation of its seller. -/
def Reported (db : Db) (r : PartnerCompletionEvent) : Prop :=
  ∃ o ∈ db.obligations, o.eventId = r.eventId ∧ o.order.sellerId = r.sellerId

instance (db : Db) (r : PartnerCompletionEvent) : Decidable (Reported db r) :=
  inferInstanceAs (Decidable (∃ o ∈ db.obligations, _ ∧ _))

/-- One quota for all instances, and reports of accepted operations. -/
def quotaRun (Q : ℤ) (c : Config Store Proc) (_ : ℕ) : Act → Prop
  | .accept job => job.sellerQuota = Q
  | .report _ r => Reported c.store.db r
  | _ => True

instance (c : Config Store Proc) (t : ℕ) (a : Act) : Decidable (quotaRun Q c t a) :=
  match a with
  | .accept job => inferInstanceAs (Decidable (job.sellerQuota = Q))
  | .report _ r => inferInstanceAs (Decidable (Reported c.store.db r))
  | .consume | .go _ | .abort | .retry | .assign _ | .revoke _ | .poll _ | .enqueue _
  | .publish _ | .purge _ => isTrue trivial

/-- The operation the next statement commits. -/
def Proc.committing : Proc → Option PartnerOrderEvent
  | .accepting job (.commit w (.accepted _)) =>
      if w.obligations = [] then none else some job.request
  | _ => none

/-- The order has room for one more operation besides its `CREATE`s. -/
def Db.hasRoom (db : Db) (e : PartnerOrderEvent) : Prop :=
  e.sequence ≠ 1 → db.accepted e.order < 3 * db.creates e.order

instance (db : Db) (e : PartnerOrderEvent) : Decidable (db.hasRoom e) :=
  inferInstanceAs (Decidable (_ → _))

/-- A process commits an operation only while its order has room. -/
def threePerCreate (c : Config Store Proc) (t : ℕ) (_ : Act) : Prop :=
  ∀ e ∈ (c.procs t).committing, c.store.db.hasRoom e

instance (c : Config Store Proc) (t : ℕ) (a : Act) : Decidable (threePerCreate c t a) :=
  inferInstanceAs (Decidable (∀ e ∈ (c.procs t).committing, c.store.db.hasRoom e))

/-- The runs in which the reservation covers the operations of every order. -/
def coveredRun (Q : ℤ) (c : Config Store Proc) (t : ℕ) (a : Act) : Prop :=
  quotaRun Q c t a ∧ threePerCreate c t a

instance (c : Config Store Proc) (t : ℕ) (a : Act) : Decidable (coveredRun Q c t a) :=
  inferInstanceAs (Decidable (_ ∧ _))

/-! ### Counts -/

/-- The accepted `CREATE`s of a seller. -/
def Db.createsOf (db : Db) (sellerId : String) : ℕ :=
  db.obligations.countP fun o => o.order.sellerId = sellerId ∧ o.seq = 1

/-- The resolved obligations of a seller. -/
def Db.resolvedOf (db : Db) (sellerId : String) : ℕ :=
  db.obligations.countP fun o => o.order.sellerId = sellerId ∧ o.resolvedAt ≠ none

/-- The accepted operations of a seller. -/
def Db.acceptedOf (db : Db) (sellerId : String) : ℕ :=
  db.obligations.countP fun o => o.order.sellerId = sellerId

/-- An accepted operation is undelivered or resolved. -/
lemma Db.undelivered_add_resolvedOf (db : Db) (sellerId : String) :
    db.undelivered sellerId + db.resolvedOf sellerId = db.acceptedOf sellerId := by
  simp only [undelivered, resolvedOf, acceptedOf]
  induction db.obligations with
  | nil => rfl
  | cons o l ih =>
      rw [List.countP_cons, List.countP_cons, List.countP_cons, ← ih]
      by_cases hs : o.order.sellerId = sellerId <;> by_cases hr : o.resolvedAt = none <;>
        simp [hs, hr] <;> omega

/-- Three operations for each `CREATE` in every order are three for each `CREATE` of
the seller. -/
lemma Db.acceptedOf_le (h : ∀ order, db.accepted order ≤ 3 * db.creates order)
    (sellerId : String) : db.acceptedOf sellerId ≤ 3 * db.createsOf sellerId := by
  refine Counting.countP_le_of_groups Obligation.order fun order => ?_
  by_cases hseller : order.sellerId = sellerId
  · refine le_of_eq_of_le ?_ ((h order).trans_eq (congrArg (3 * ·) ?_))
    · refine List.countP_congr fun o _ => ?_
      simp only [decide_eq_true_eq, Bool.decide_and, Bool.and_eq_true]
      exact ⟨fun ho => ho.1, fun ho => ⟨ho, ho ▸ hseller⟩⟩
    · refine List.countP_congr fun o _ => ?_
      simp only [decide_eq_true_eq, Bool.decide_and, Bool.and_eq_true]
      exact ⟨fun ho => ⟨ho.1, ho.1 ▸ hseller, ho.2⟩, fun ho => ⟨ho.1, ho.2.2⟩⟩
  · refine le_of_eq_of_le (List.countP_eq_zero.mpr fun o _ ho => ?_) (Nat.zero_le _)
    simp only [Bool.decide_and, Bool.and_eq_true, decide_eq_true_eq] at ho
    exact hseller (ho.1 ▸ ho.2)

/-- The order and the sequence of an operation are never rewritten. -/
lemma Closing.map_commit (hs : Sound db) (hc : Closing db poll w) :
    (db.commit w).obligations.map (fun o => (o.order, o.seq)) =
      db.obligations.map fun o => (o.order, o.seq) := by
  refine Table.map_putAll hs.ids hc.ids fun x hx => ?_
  obtain ⟨o, ho, hid, -, r, -, -, time, hxo⟩ := hc.rows x hx
  refine ⟨o, ho, hid, ?_⟩
  rw [hxo]
  rfl

/-- A count of operations by order and sequence is kept by a `receive`. -/
lemma Closing.countP_commit (hs : Sound db) (hc : Closing db poll w) (P : OrderKey × ℤ → Bool) :
    ((db.commit w).obligations.countP fun o => P (o.order, o.seq)) =
      db.obligations.countP fun o => P (o.order, o.seq) := by
  have h := congrArg (List.countP P) (hc.map_commit hs)
  rwa [List.countP_map, List.countP_map] at h

/-- The obligations a `receive` closes for a seller. -/
def Writes.closedOf (w : Writes) (sellerId : String) : ℕ :=
  w.obligations.countP fun o => o.order.sellerId = sellerId

lemma Closing.resolvedOf_commit (hs : Sound db) (hc : Closing db poll w) (sellerId : String) :
    (db.commit w).resolvedOf sellerId = db.resolvedOf sellerId + w.closedOf sellerId := by
  have hrow : ∀ x ∈ w.obligations, x.resolvedAt ≠ none := by
    intro x hx
    obtain ⟨o, -, -, -, r, -, -, time, rfl⟩ := hc.rows x hx
    simp [Obligation.resolve]
  rw [Db.resolvedOf, Db.commit, Table.countP_putAll hs.ids hc.ids, Db.resolvedOf, Writes.closedOf]
  · refine congrArg (db.obligations.countP _ + ·) (List.countP_congr fun x hx => ?_)
    simp [hrow x hx]
  · intro x hx
    obtain ⟨o, ho, hid, hopen, -⟩ := hc.rows x hx
    exact ⟨o, ho, hid, by simp [hopen]⟩

/-! ### The invariant -/

/-- The units in use as a transaction sees them. -/
def Writes.used (w : Writes) (db : Db) (sellerId : String) : ℤ :=
  ((w.viewQuota db sellerId).map QuotaRow.used).getD 0

/-- What holds of the tables: reserved units are in use or came back, no order has
more than three operations for each `CREATE`, and the quota is kept. -/
structure Covered (Q : ℤ) (db : Db) : Prop where
  units : ∀ sellerId, 3 * (db.createsOf sellerId : ℤ) ≤ db.used sellerId + db.resolvedOf sellerId
  orders : ∀ order, db.accepted order ≤ 3 * db.creates order
  quota : ∀ sellerId, db.used sellerId ≤ Q

/-- A `receive` has closed at least as many obligations of a seller as it took units
back; `pending` is the unit still to be returned. -/
def Returned (db : Db) (w : Writes) (pending : String → ℕ) : Prop :=
  ∀ sellerId, db.used sellerId + pending sellerId ≤ w.used db sellerId + w.closedOf sellerId

/-- What a process knows of the quota. -/
def Proc.quota (Q : ℤ) (db : Db) : Proc → Prop
  | .idle | .consuming _ => True
  | .accepting job _ => job.sellerQuota = Q
  | .resolving poll pc =>
      (∀ r ∈ poll.records, Reported db r) ∧
        match pc with
        | .update _ w => Returned db w 0
        | .giveBack sellerId _ w => Returned db w (Pi.single sellerId 1)
        | .acknowledge => True

lemma Reported.later (hs : Sound db) (h : DbChange db p db') {r : PartnerCompletionEvent}
    (hr : Reported db r) : Reported db' r := by
  obtain ⟨o, ho, hid, hseller⟩ := hr
  obtain ⟨o', ho', hkept⟩ := h.keeps hs ho
  exact ⟨o', ho', hkept.eventId.trans hid, by rw [hkept.order, hseller]⟩

/-- What others do does not touch the units a `receive` returns. -/
lemma Returned.other {pending : String → ℕ} (hs : Sound s.db) (h : DbChange s.db p db')
    (hown : DbChange.Own t s p) (hut : u ≠ t) (hheld : ∀ r ∈ w.locks, (r, u) ∈ s.locks)
    (hr : Returned s.db w pending) : Returned db' w pending := by
  intro sellerId
  have hle := hr sellerId
  cases hw : Table.get QuotaRow.sellerId sellerId w.quotas with
  | none =>
      have hview : ∀ db, w.used db sellerId = db.used sellerId := by
        intro db
        rw [Writes.used, Writes.viewQuota, hw, Option.none_or, Db.used]
      rw [hview] at hle ⊢
      omega
  | some q =>
      have hlock := hheld _ (Writes.mem_locks_quota (Table.mem_of_get hw))
      rw [Table.key_of_get hw] at hlock
      have hsame := h.quota_locked hs hown hlock hut
      rw [Writes.used, Writes.viewQuota, Db.used, hsame]
      exact hle

lemma Proc.quota_other {q : Proc} (hs : Sound s.db) (h : DbChange s.db p db')
    (hown : DbChange.Own t s p) (hut : u ≠ t) (hheld : ∀ r ∈ q.held, (r, u) ∈ s.locks)
    (hq : q.quota Q s.db) : q.quota Q db' := by
  cases q with
  | resolving poll pc =>
      refine ⟨fun r hr => (hq.1 r hr).later hs h, ?_⟩
      cases pc with
      | update todo w => exact hq.2.other hs h hown hut hheld
      | giveBack seller todo w => exact hq.2.other hs h hown hut hheld
      | acknowledge => trivial
  | accepting job pc => exact hq
  | _ => trivial

/-! ### Steps -/

/-- The counts after an operation is accepted. -/
lemma Db.counts_accepted {createdAt : ℤ} (hob : w.obligations = [.of job.request createdAt])
    (hnone : db.obligation job.request.eventId = none) :
    (∀ who, (db.commit w).createsOf who = db.createsOf who +
      if job.request.sellerId = who ∧ job.request.sequence = 1 then 1 else 0) ∧
    (∀ who, (db.commit w).resolvedOf who = db.resolvedOf who) ∧
    (∀ order, (db.commit w).accepted order = db.accepted order +
      if job.request.order = order then 1 else 0) ∧
    ∀ order, (db.commit w).creates order = db.creates order +
      if job.request.order = order ∧ job.request.sequence = 1 then 1 else 0 := by
  have hrows := Db.commit_accepted hob hnone
  refine ⟨fun who => ?_, fun who => ?_, fun order => ?_, fun order => ?_⟩
  · simp [createsOf, hrows, List.countP_append, Obligation.of, PartnerOrderEvent.order,
      List.countP_cons]
  · simp [resolvedOf, hrows, List.countP_append, Obligation.of]
  · simp [accepted, hrows, List.countP_append, Obligation.of, List.countP_cons]
  · simp [creates, hrows, List.countP_append, Obligation.of, List.countP_cons]

/-- The units in use after an operation is accepted. -/
lemma Ready.used_commit (hs : Sound db) (hready : Ready db job w) (hQ : 0 < job.sellerQuota)
    (who : String) :
    (db.commit w).used who = db.used who +
      (if job.request.sellerId = who ∧ job.request.sequence = 1 then operationsPerOrder else 0) ∧
    ((db.commit w).used who = db.used who ∨ (db.commit w).used who ≤ job.sellerQuota) := by
  cases hready with
  | reserved hres hq hle =>
      have hw : Table.Unique QuotaRow.sellerId w.quotas := by simp [hq, Table.Unique]
      by_cases hwho : job.request.sellerId = who
      · subst hwho
        have hused := Db.used_commit_mem hs hw (q := ⟨job.request.sellerId,
          db.used job.request.sellerId + operationsPerOrder⟩) (by simp [hq])
        rw [hused, if_pos ⟨rfl, hres.2⟩]
        exact ⟨rfl, Or.inr hle⟩
      · have hused : (db.commit w).used who = db.used who :=
          Db.used_commit_ne hs hw (by simpa [hq] using hwho)
        rw [hused, if_neg fun h => hwho h.1]
        exact ⟨(add_zero _).symm, Or.inl rfl⟩
  | follows hpos hseq hcreate hq =>
      have hused : (db.commit w).used who = db.used who :=
        Db.used_commit_ne hs (by simp [hq, Table.Unique]) (by simp [hq])
      rw [hused, if_neg fun h => hseq h.2]
      exact ⟨(add_zero _).symm, Or.inl rfl⟩
  | unlimited hle hq => exact absurd hQ (not_lt.mpr hle)

/-- Every commit keeps the invariant. -/
lemma Covered.step (hs : Sound db) (hc : Covered Q db) (hQ : 0 < Q) (hq : p.quota Q db)
    (hroom : ∀ e ∈ p.committing, db.hasRoom e) (h : DbChange db p db') : Covered Q db' := by
  cases h with
  | same hob hq =>
      refine ⟨fun who => ?_, fun order => ?_, fun who => ?_⟩
      · simpa only [Db.createsOf, Db.resolvedOf, Db.used, Db.quota, hob, hq] using hc.units who
      · simpa only [Db.accepted, Db.creates, hob] using hc.orders order
      · simpa only [Db.used, Db.quota, hq] using hc.quota who
  | refused hp hob hopen h =>
      subst h
      have hrows : (db.commit _).obligations = db.obligations := Db.commit_refused hob
      refine ⟨fun who => ?_, fun order => ?_, fun who => ?_⟩
      · simpa only [Db.createsOf, Db.resolvedOf, hrows, hopen.used hs] using hc.units who
      · simpa only [Db.accepted, Db.creates, hrows] using hc.orders order
      · simpa only [hopen.used hs] using hc.quota who
  | @accepted job w createdAt hp hob hnone hready h =>
      subst h hp
      have hsame : job.sellerQuota = Q := hq
      have hpos : 0 < job.sellerQuota := hsame ▸ hQ
      obtain ⟨hcreates, hresolved, haccepted, hcreate⟩ := Db.counts_accepted hob hnone
      have hadm : db.hasRoom job.request := by
        refine hroom job.request ?_
        simp [Proc.committing, hob]
      refine ⟨fun who => ?_, fun order => ?_, fun who => ?_⟩
      · have hunits := hc.units who
        obtain ⟨hused, -⟩ := hready.used_commit hs hpos who
        rw [hcreates, hresolved, hused]
        simp only [operationsPerOrder]
        split_ifs <;> push_cast <;> omega
      · have horders := hc.orders order
        rw [haccepted, hcreate]
        by_cases horder : job.request.order = order
        · subst horder
          by_cases hseq : job.request.sequence = 1
          · simp only [hseq, and_self, if_true]
            omega
          · have hlt := hadm hseq
            simp only [hseq, and_false, if_false, if_true]
            omega
        · simp only [horder, false_and, if_false]
          omega
      · rcases (hready.used_commit hs hpos who).2 with hused | hused
        · rw [hused]
          exact hc.quota who
        · exact hused.trans_eq hsame
  | @resolved poll w hp hclose h =>
      subst h hp
      have hused : ∀ who, (db.commit w).used who = w.used db who := by
        intro who
        rw [Db.used, Db.quota_commit hs hclose.sellers, Writes.used]
      refine ⟨fun who => ?_, fun order => ?_, fun who => ?_⟩
      · have hunits := hc.units who
        have hreturned : db.used who + (0 : ℕ) ≤ w.used db who + w.closedOf who := hq.2 who
        have hcreates : (db.commit w).createsOf who = db.createsOf who :=
          hclose.countP_commit hs fun x => x.1.sellerId = who ∧ x.2 = 1
        rw [hcreates, hclose.resolvedOf_commit hs, hused]
        push_cast
        omega
      · have haccepted : (db.commit w).accepted order = db.accepted order :=
          hclose.countP_commit hs fun x => x.1 = order
        have hcreate : (db.commit w).creates order = db.creates order :=
          hclose.countP_commit hs fun x => x.1 = order ∧ x.2 = 1
        rw [haccepted, hcreate]
        exact hc.orders order
      · rw [hused, Writes.used, Writes.viewQuota]
        cases hw : Table.get QuotaRow.sellerId who w.quotas with
        | none => exact hc.quota who
        | some q =>
            obtain ⟨q₀, hq₀, hid, -, hle⟩ := hclose.quotas q (Table.mem_of_get hw)
            have hrow : db.quota who = some q₀ :=
              (Table.get_eq_some hs.sellers).mpr ⟨hq₀, hid.trans (Table.key_of_get hw)⟩
            exact hle.trans ((Db.used_of_quota hrow).symm.le.trans (hc.quota who))

/-- The statements of `receive` return what they close. -/
lemma resolveNext_quota (hs : Sound s.db) {jvm : ℤ} {pc : ResolvePc} (hk : pc.knows s.db poll)
    (hq : (Proc.resolving poll pc).quota Q s.db)
    (h : resolveNext t s poll jvm pc = some (s', p')) : p'.quota Q s'.db := by
  have hchange := resolveNext_change hk h
  obtain ⟨hrep, hq⟩ := hq
  cases pc with
  | update todo w =>
      cases todo with
      | nil =>
          cases h
          exact ⟨fun r hr => (hrep r hr).later hs hchange, trivial⟩
      | cons r todo =>
          obtain ⟨htodo, hc⟩ := hk
          simp only [resolveNext] at h
          split_ifs at h with hcan
          split at h
          · rename_i o ho
            split_ifs at h with hopen <;> cases h
            · refine ⟨hrep, fun who => ?_⟩
              obtain ⟨hmem, hnew⟩ := hc.view_open ho hopen
              have hid := Writes.eventId_of_viewObligation ho
              -- the report names the seller of the obligation
              obtain ⟨x, hx, hxid, hseller⟩ := hrep r (htodo List.mem_cons_self)
              obtain rfl : x = o := hs.ids.eq hx hmem (hxid.trans hid.symm)
              have hle : s.db.used who + (0 : ℕ) ≤ w.used s.db who + w.closedOf who := hq who
              have hclosed : (w.putObligation (x.resolve jvm r.completedAt)).closedOf who =
                  w.closedOf who + if r.sellerId = who then 1 else 0 := by
                rw [Writes.closedOf, Writes.putObligation_obligations, Table.put_of_new,
                  List.countP_append, Writes.closedOf]
                · refine congrArg (w.closedOf who + ·) ?_
                  rw [List.countP_cons, List.countP_nil]
                  simp [Obligation.resolve, hseller]
                · intro y hy
                  rw [Obligation.resolve_eventId, hid]
                  exact hnew y hy
              show s.db.used who + _ ≤ w.used s.db who + _
              rw [hclosed, Pi.single_apply]
              by_cases hwho : r.sellerId = who
              · rw [if_pos hwho, if_pos hwho.symm]
                push_cast
                omega
              · rw [if_neg hwho, if_neg fun h => hwho h.symm]
                push_cast
                omega
            · exact ⟨hrep, hq⟩
          · cases h
            exact ⟨hrep, hq⟩
  | giveBack seller todo w =>
      simp only [resolveNext] at h
      split_ifs at h with hcan
      split at h
      · rename_i q hview
        cases h
        refine ⟨hrep, fun who => ?_⟩
        have hle := hq who
        rw [Pi.single_apply] at hle
        have hid := Writes.sellerId_of_viewQuota hview
        show s.db.used who + (0 : ℕ) ≤ (w.putQuota q.giveBack).used s.db who + w.closedOf who
        by_cases hwho : who = seller
        · subst hwho
          have hold : w.used s.db who = q.used := by rw [Writes.used, hview]; rfl
          have hnew : (w.putQuota q.giveBack).used s.db who = max (q.used - 1) 0 := by
            have hget := Table.get_put_self hk.2.sellers q.giveBack
            rw [QuotaRow.giveBack_sellerId, hid] at hget
            rw [Writes.used, Writes.viewQuota, Writes.putQuota_quotas, hget]
            rfl
          rw [hold, if_pos rfl] at hle
          rw [hnew]
          omega
        · have hnew : (w.putQuota q.giveBack).used s.db who = w.used s.db who := by
            rw [Writes.used, Writes.viewQuota, Writes.putQuota_quotas,
              Table.get_put_ne hk.2.sellers, Writes.used, Writes.viewQuota]
            rw [QuotaRow.giveBack_sellerId, hid]
            exact fun h => hwho h.symm
          rw [if_neg hwho] at hle
          rw [hnew]
          exact hle
      · cases h
        refine ⟨hrep, fun who => ?_⟩
        have hle := hq who
        show s.db.used who + (0 : ℕ) ≤ w.used s.db who + w.closedOf who
        omega
  | acknowledge =>
      cases h
      trivial

lemma acceptNext_quota {jvm : ℤ} {pc : AcceptPc} (hq : job.sellerQuota = Q)
    (h : acceptNext t s job jvm pc = some (s', p')) : p'.quota Q s'.db := by
  cases pc <;> simp only [acceptNext] at h <;> (repeat' split at h) <;>
    first
      | (cases h; exact hq)
      | (cases h; trivial)
      | cases h

/-- What a process knows of the quota after its own step. -/
lemma next_quota (hs : Sound s.db) (hk : p.knows s.db)
    (htopic : ∀ q, ∀ r ∈ s.topic q, Reported s.db r) (hok : quotaRun Q c t a)
    (hq : p.quota Q s.db) (h : next t s p a = some (s', p')) : p'.quota Q s'.db := by
  cases next_move h with
  | accept job =>
      rw [begin]
      split_ifs
      · exact hok
      · trivial
  | poll hpoll =>
      refine ⟨fun r hr => ?_, fun who => by simp [Writes.used, Writes.viewQuota, Table.get, Db.used]⟩
      obtain ⟨q, hq⟩ := Consumer.mem_of_poll hpoll r hr
      exact htopic q r hq
  | accepting h => exact acceptNext_quota hq h
  | resolving h => exact resolveNext_quota hs hk hq h
  | _ => trivial

/-! ### Every run -/

/-- The reservation covers the open work in every run that keeps three operations for
each `CREATE`. -/
theorem reachable_covered (hQ : 0 < Q) (h : Run service (coveredRun Q) initial c) :
    Covered Q c.store.db := by
  refine (Run.invariant
    (I := fun s => Covered Q s.db ∧ ∀ q, ∀ r ∈ s.topic q, Reported s.db r)
    (J := fun _ s p => p.quota Q s.db) (K := fun c => Run service (coveredRun Q) initial c)
    (fun _ h => h) ?_ ?_ ?_ h).1.1
  · refine ⟨⟨⟨fun who => ?_, fun order => le_rfl, fun who => ?_⟩, by simp [initial]⟩,
      fun _ => trivial⟩
    · simp [initial, Db.createsOf, Db.used, Db.quota, Table.get]
    · simpa [initial, Db.used, Db.quota, Table.get] using hQ.le
  · intro c t a s' p' hrun hok hI hq hnext
    obtain ⟨hc, htopic⟩ := hI
    obtain ⟨hs, hk⟩ := reachable_sound hrun
    have hchange := reachable_change hrun hnext
    refine ⟨⟨hc.step hs hQ (hq t) hok.2 hchange, fun q r hr => ?_⟩,
      next_quota hs (hk t) htopic hok.1 (hq t) hnext⟩
    rcases next_topic hnext with heq | ⟨q', r', rfl, heq⟩
    · rw [heq] at hr
      exact (htopic q r hr).later hs hchange
    · rw [heq, Function.update_apply] at hr
      split_ifs at hr with hqq
      · rcases List.mem_append.mp hr with hr | hr
        · exact (htopic q' r hr).later hs hchange
        · obtain rfl := List.mem_singleton.mp hr
          exact Reported.later hs hchange hok.1
      · exact (htopic q r hr).later hs hchange
  · intro c t a s' p' u hrun hok _ hq hnext hut
    exact Proc.quota_other (reachable_sound hrun).1 (reachable_change hrun hnext)
      (reachable_own hrun t) hut ((reachable_locks hrun).2 u) (hq u)

/-- **The seller quota bounds undelivered work** in every run in which an operation is
committed only while its order has room for it. -/
theorem quota_bounds_undelivered (hQ : 0 < Q) (h : Run service (coveredRun Q) initial c)
    (sellerId : String) :
    (c.store.db.undelivered sellerId : ℤ) ≤ c.store.db.used sellerId ∧
      c.store.db.used sellerId ≤ Q := by
  have hc := reachable_covered hQ h
  refine ⟨?_, hc.quota sellerId⟩
  have hunits := hc.units sellerId
  have haccepted := Db.acceptedOf_le hc.orders sellerId
  have hsplit := c.store.db.undelivered_add_resolvedOf sellerId
  calc (c.store.db.undelivered sellerId : ℤ)
      = c.store.db.acceptedOf sellerId - c.store.db.resolvedOf sellerId := by omega
    _ ≤ 3 * c.store.db.createsOf sellerId - c.store.db.resolvedOf sellerId := by omega
    _ ≤ c.store.db.used sellerId := by omega

/-- An order with its `CREATE` and `n` changes. -/
def manyChanges (n : ℕ) : List (ℕ × Act) :=
  accepting 0 8 (sampleRequest "e1" 1) 6 ++
    (List.range n).flatMap fun i => accepting 0 6 (sampleRequest ("c" ++ toString i) (i + 2)) 6

theorem quota_bounds_two_changes :
    ∃ c, Run service (coveredRun 6) initial c ∧
      (c.store.db.undelivered "S", c.store.db.used "S") = (3, 3) ∧
      (c.store.db.undelivered "S" : ℤ) ≤ c.store.db.used "S" ∧ c.store.db.used "S" ≤ 6 := by
  obtain ⟨c, hrun, hc⟩ := Run.exists_of_exec service (coveredRun 6) initial (manyChanges 2)
    (fun c => (c.store.db.undelivered "S", c.store.db.used "S")) (3, 3) (by decide +kernel)
  exact ⟨c, hrun, hc, quota_bounds_undelivered (by decide) hrun "S"⟩

/-- **The quota does not bound the open work of a seller**: a fourth operation of an
order is accepted and takes no unit. -/
theorem quota_does_not_bound :
    ¬ ∀ (Q : ℤ) (c : Config Store Proc), 0 < Q → Run service (quotaRun Q) initial c →
      ∀ sellerId, (c.store.db.undelivered sellerId : ℤ) ≤ c.store.db.used sellerId ∧
        c.store.db.used sellerId ≤ Q := by
  intro hclaim
  obtain ⟨c, hrun, hc⟩ := Run.exists_of_exec service (quotaRun 6) initial (manyChanges 3)
    (fun c => (c.store.db.undelivered "S", c.store.db.used "S")) (4, 3) (by decide +kernel)
  obtain ⟨hopen, hused⟩ := Prod.mk.inj hc
  have hle := (hclaim 6 c (by decide) hrun "S").1
  rw [hopen, hused] at hle
  exact absurd hle (by decide)

end OrderSystem.Delivery
