/-
Deliveries outside the inbox, at a partner that accepts every call.

* `accepting`: the deliveries are those of events of `E`, and every call is answered and not
  rejected.
* `reachable_recorded`: what `partner_effect` holds are events of `E`.
* `Db.recordedBefore`: the earlier operations of an order are recorded, as they are behind a
  delivered predecessor (`recordedBefore_of_delivered`).
* `reachable_answered`: every answer is 200, and a call waits for its answer only while the
  request is at the partner.
* `ProcessPc.left`, `processNext_left`: the statements `process` has left. A statement throws only
  when the event was delivered meanwhile, or its predecessor was not.
* `processNext_waits`: a statement waits for the answer of the partner, or for a lock.
-/
import OrderSystem.Partner.Drain
import OrderSystem.Partner.Reports
import OrderSystem.Partner.SellerLedger

namespace OrderSystem.Partner

open Interleaving

variable {t : ℕ} {s s' : Store} {p p' : Proc} {a : Act} {E : PartnerOrderEvent → Prop}

/-! ### The environment -/

/-- The partner accepts the call, and its answer arrives. -/
def Act.serves : Act → Prop
  | .serve _ rejected lost => rejected = false ∧ lost = false
  | _ => True

instance (a : Act) : Decidable a.serves :=
  match a with
  | .serve _ rejected lost => inferInstanceAs (Decidable (rejected = false ∧ lost = false))
  | .start _ | .go _ | .abort | .tick _ | .restart _ | .produce .. | .assign _ | .revoke _
  | .poll .. | .scheduleRetry .. | .deleteDoneBefore .. | .deleteRetryAdmissionsBefore ..
  | .appendReport .. | .purgeReports .. => isTrue trivial

/-- Deliveries of events of `E`, at a partner that accepts every call. -/
def accepting (E : PartnerOrderEvent → Prop) (c : Config Store Proc) (t : ℕ) (a : Act) : Prop :=
  deliversFrom E c t a ∧ a.serves

lemma deliversFrom_of_accepting {c : Config Store Proc} (h : Run service (accepting E) initial c) :
    Run service (deliversFrom E) initial c :=
  h.mono fun _ _ _ hok => hok.1

/-! ### What is recorded -/

/-- The rows of `partner_effect` are those of events of `E`. -/
def Recorded (E : PartnerOrderEvent → Prop) (db : Db) : Prop :=
  ∀ x ∈ db.partnerEffect, ∃ e time, E e ∧ x = .of e time

lemma Recorded.congr {db db' : Db} (h : Recorded E db) (he : db'.partnerEffect = db.partnerEffect) :
    Recorded E db' := by
  intro x hx
  rw [he] at hx
  exact h x hx

/-- Only the commit of a delivery records an event. -/
lemma Recorded.step (h : Recorded E s.db) (hp : p.inStep E s)
    (hnext : next t s p a = some (s', p')) : Recorded E s'.db := by
  cases next_reports hnext with
  | same hsame => exact h.congr (congrArg Prod.fst hsame)
  | @record job doneAt row permit hproc hrec =>
      subst hproc
      have heffects : s'.db.partnerEffect = s.db.partnerEffect ++ [.of job.event doneAt] :=
        congrArg Prod.fst hrec
      intro x hx
      rw [heffects] at hx
      rcases List.mem_append.mp hx with hx | hx
      · exact h x hx
      · exact ⟨job.event, doneAt, hp.1, List.mem_singleton.mp hx⟩
  | send hproc heq =>
      subst heq
      exact h.congr rfl
  | mark time hproc heq =>
      subst heq
      exact h.congr rfl
  | append ha hr heq =>
      subst heq
      exact h.congr rfl
  | purge hsent heq =>
      subst heq
      exact h.congr rfl

theorem reachable_recorded (hE : Catalogue E) {c : Config Store Proc}
    (h : Run service (deliversFrom E) initial c) : Recorded E c.store.db := by
  refine (Run.invariant (I := fun s => Recorded E s.db) (J := fun _ _ _ => True)
    (K := fun c => Run service (deliversFrom E) initial c) (fun _ h => h)
    ⟨fun x hx => absurd hx List.not_mem_nil, fun _ => trivial⟩ ?_
    (fun _ _ _ _ _ _ _ _ _ _ _ _ => trivial) h).1
  intro c t a s' p' hrun _ hI _ hnext
  exact ⟨hI.step ((reachable_inStep hE hrun).2 t) hnext, trivial⟩

/-- The operations before `e` are recorded. -/
def Db.recordedBefore (db : Db) (e : PartnerOrderEvent) : Prop :=
  ∀ k, 1 ≤ k → k < e.sequence → ∃ x ∈ db.partnerEffect, x.order = e.order ∧ x.seq = k

/-- An operation whose predecessor is delivered has all earlier ones recorded. -/
lemma recordedBefore_of_delivered (hE : Catalogue E) {db : Db} (hledger : Ledger db)
    (hrec : Recorded E db) {x e : PartnerOrderEvent} (hx : E x) (hprec : Precedes x e)
    (hd : db.isDelivered x.eventId) : 1 ≤ e.sequence ∧ db.recordedBefore e := by
  obtain ⟨row, hrow, hid⟩ := hd
  obtain ⟨e', time, he', rfl⟩ := hrec row hrow
  obtain rfl : e' = x := hE.payloads e' x he' hx hid
  obtain ⟨hlow, hlast⟩ := hledger.mem_iff.mp ⟨_, hrow, rfl, rfl⟩
  obtain ⟨horder, hseq⟩ := hprec
  have hlow : 1 ≤ e'.sequence := hlow
  have hlast : e'.sequence ≤ db.lastSequence e'.order := hlast
  refine ⟨by omega, fun k hk1 hk2 => ?_⟩
  rw [← horder]
  exact hledger.mem_iff.mpr ⟨hk1, by omega⟩

/-- The first operation of an order has nothing before it. -/
lemma recordedBefore_of_first {db : Db} {e : PartnerOrderEvent} (h : First e) :
    1 ≤ e.sequence ∧ db.recordedBefore e := by
  rw [First] at h
  exact ⟨h.ge, fun k hlow hhigh => by omega⟩

/-- An operation whose predecessors are recorded is delivered or next in its order. -/
lemma next_of_preceded (hE : Catalogue E) {db : Db} (hledger : Ledger db) (hrec : Recorded E db)
    {e : PartnerOrderEvent} (he : E e) (hpos : 1 ≤ e.sequence) (hbefore : db.recordedBefore e)
    (hnew : ¬ db.isDelivered e.eventId) : db.lastSequence e.order + 1 = e.sequence := by
  have hlow : e.sequence - 1 ≤ db.lastSequence e.order := by
    by_cases hone : e.sequence = 1
    · have hnonneg := hledger.lastSequence_nonneg e.order
      omega
    · exact (hledger.mem_iff.mp (hbefore (e.sequence - 1) (by omega) (by omega))).2
  have hhigh : db.lastSequence e.order < e.sequence := by
    by_contra hle
    obtain ⟨x, hx, ho, hseq⟩ := hledger.mem_iff.mpr ⟨hpos, not_lt.mp hle⟩
    -- the place of the operation is taken by an event with its id
    obtain ⟨e', time, he', rfl⟩ := hrec x hx
    exact hnew ⟨_, hx, hE.ids e' e he' he ho hseq⟩
  omega

/-! ### Answers -/

/-- Every answer is 200. -/
def Store.answersOk (s : Store) : Prop :=
  ∀ x ∈ s.replies, x.2 = Status.ok200

/-- A call is at the partner or answered. -/
def Proc.called (s : Store) : Proc → Prop
  | .delivering _ (.calling call) => call ∈ s.requests ∨ (call, Status.ok200) ∈ s.replies
  | _ => True

/-- A call the partner accepts is answered 200. -/
lemma doPost_accepted (hE : Catalogue E) (hi : InStep E s) {call : Call}
    (hcall : call ∈ s.requests) : (s.api.doPost call.event false).2 = .ok200 := by
  have hc := hi.requests call hcall
  have hlast := hi.le call.event.order
  obtain ⟨after, status, hpost, hstatus, -⟩ :=
    doPost_cases hE hi.api hi.applied hc.event hc.pos (by have := hc.le; omega) false
  have hnot : (s.api.answer call.event false).2 ≠ .unavailable503 := by
    simp only [SellerApi.answer, Bool.false_eq_true, if_false]
    split
    · split_ifs <;> simp
    · split_ifs <;> simp
  have heq : (s.api.answer call.event false).2 = status := congrArg Prod.snd hpost
  rw [hpost]
  rw [heq] at hnot
  cases status with
  | ok200 => rfl
  | conflict409 => exact absurd rfl hstatus
  | unavailable503 => exact absurd rfl hnot

/-- The calls at the partner, and the answers. -/
def Store.calls (s : Store) : List Call × List (Call × Status) :=
  (s.requests, s.replies)

/-- What a step does to the calls. -/
inductive CallChange (s : Store) (p : Proc) (a : Act) (s' : Store) : Prop
  | same (h : s'.calls = s.calls)
  | submit {job : ProcessJob} (hp : p = .delivering job .submit)
      (h : s'.calls = (⟨s.nextCall, job.event⟩ :: s.requests, s.replies))
  | answer {call : Call} {rejected lost : Bool} (ha : a = .serve call rejected lost)
      (hcall : call ∈ s.requests) (h : s' = s.answered call rejected lost)

lemma idle_calls (h : next t s .idle a = some (s', .idle)) : CallChange s .idle a s' := by
  cases a with
  | serve call rejected lost =>
      obtain ⟨s₁, hserve, h⟩ := Option.map_eq_some_iff.mp h
      by_cases hmem : call ∈ s.requests
      · rw [serve, if_pos hmem] at hserve
        cases hserve
        cases h
        exact .answer rfl hmem rfl
      · rw [serve, if_neg hmem] at hserve
        cases hserve
  | deleteRetryAdmissionsBefore windowMs limit picked =>
      obtain ⟨s₁, hdelete, h⟩ := Option.map_eq_some_iff.mp h
      obtain ⟨rows, rfl⟩ := deleteAdmissions_eq hdelete
      cases h
      exact .same rfl
  | start job =>
      have hs : s = s' := (Prod.mk.inj (Option.some.inj h)).1
      exact .same (by rw [hs])
  | _ =>
      refine .same ?_
      simp only [next, deleteDone, appendReport, purgeReports] at h
      first
        | (cases h; rfl)
        | (repeat' split at h) <;> first
            | (cases h; rfl)
            | cases h

lemma processNext_calls {job : ProcessJob} {jvm : ℤ} {pc : ProcessPc}
    (h : processNext t s job jvm pc = some (s', p')) :
    CallChange s (.delivering job pc) (.go jvm) s' := by
  cases pc with
  | submit =>
      cases h
      exact .submit rfl rfl
  | _ =>
      refine .same ?_
      simp only [processNext] at h
      (repeat' split at h) <;> first
        | (cases h; rfl)
        | cases h

/-- **What a step does to the calls**: a request, an answer, or nothing. -/
theorem next_calls (h : next t s p a = some (s', p')) : CallChange s p a s' := by
  cases next_move h with
  | free h => exact idle_calls h
  | @store job pc jvm s' p' h =>
      cases pc <;> simp only [storeNext] at h <;> (repeat' split at h) <;> first
        | (cases h; exact .same rfl)
        | cases h
  | @claim job pc jvm s' p' h =>
      cases pc <;> simp only [claimNext] at h <;> (repeat' split at h) <;> first
        | (cases h; exact .same rfl)
        | cases h
  | @renew c leaseMs pc jvm s' p' h =>
      cases pc <;> simp only [renewNext] at h <;> (repeat' split at h) <;> first
        | (cases h; exact .same rfl)
        | cases h
  | deliver h => exact processNext_calls h
  | @giveBack c pc jvm s' p' h =>
      cases pc <;> simp only [giveBackNext] at h <;> (repeat' split at h) <;> first
        | (cases h; exact .same rfl)
        | cases h
  | relay h =>
      obtain ⟨⟨_, _, _, _, rfl⟩, -⟩ := relayNext_eq h
      exact .same rfl
  | _ => exact .same rfl

/-- A call the partner accepts is answered, and answered 200. -/
lemma answered_accepted (hE : Catalogue E) (hi : InStep E s) {call : Call}
    (hcall : call ∈ s.requests) : (s.answered call false false).calls =
      (s.requests.erase call, (call, .ok200) :: s.replies) := by
  rw [Store.calls, Store.answered, doPost_accepted hE hi hcall]
  rfl

lemma answersOk_step (hE : Catalogue E) (hi : InStep E s) (hok : a.serves) (h : s.answersOk)
    (hnext : next t s p a = some (s', p')) : s'.answersOk := by
  have hcongr : s'.replies = s.replies → s'.answersOk := by
    intro heq x hx
    rw [heq] at hx
    exact h x hx
  cases next_calls hnext with
  | same hsame => exact hcongr (congrArg Prod.snd hsame)
  | submit hp hcalls => exact hcongr (congrArg Prod.snd hcalls)
  | answer ha hcall heq =>
      subst ha heq
      obtain ⟨rfl, rfl⟩ := hok
      have hreplies := congrArg Prod.snd (answered_accepted hE hi hcall)
      intro x hx
      rw [show (s.answered _ false false).replies = _ from hreplies] at hx
      rcases List.mem_cons.mp hx with rfl | hx
      · rfl
      · exact h x hx

/-- A call stays at the partner until it is answered. -/
lemma Proc.called_later (hE : Catalogue E) (hi : InStep E s) (hok : a.serves) {p₁ : Proc}
    (hnext : next t s p a = some (s', p')) (h : p₁.called s) : p₁.called s' := by
  cases p₁ with
  | delivering job pc =>
      cases pc with
      | calling call =>
          cases next_calls hnext with
          | same hsame =>
              obtain ⟨hreq, hrep⟩ := Prod.mk.inj hsame
              rw [Proc.called, hreq, hrep]
              exact h
          | submit hp hcalls =>
              obtain ⟨hreq, hrep⟩ := Prod.mk.inj hcalls
              rw [Proc.called, hreq, hrep]
              exact h.imp_left (List.mem_cons_of_mem _)
          | @answer served rejected lost ha hcall heq =>
              subst ha heq
              obtain ⟨rfl, rfl⟩ := hok
              obtain ⟨hreq, hrep⟩ := Prod.mk.inj (answered_accepted hE hi hcall)
              rw [Proc.called, hreq, hrep]
              by_cases hserved : call = served
              · exact Or.inr (by rw [hserved]; exact List.mem_cons_self)
              · exact h.imp (List.mem_erase_of_ne hserved).mpr (List.mem_cons_of_mem _)
      | _ => trivial
  | _ => trivial

/-- A call is made with its request. -/
lemma processNext_called {job : ProcessJob} {jvm : ℤ} {pc : ProcessPc}
    (h : processNext t s job jvm pc = some (s', p')) : p'.called s' := by
  cases pc with
  | submit =>
      cases h
      exact Or.inl List.mem_cons_self
  | _ =>
      simp only [processNext] at h
      (repeat' split at h) <;> first
        | (cases h; trivial)
        | cases h

lemma next_called (h : next t s p a = some (s', p')) : p'.called s' := by
  cases next_move h with
  | start job =>
      cases job with
      | storeAll job =>
          rw [begin]
          split_ifs <;> trivial
      | _ => trivial
  | poll pendingLimit retainedLimit receivedAt hbatch hvalid =>
      rw [begin]
      split_ifs <;> trivial
  | store h => obtain ⟨_, rfl⟩ | rfl | ⟨_, rfl⟩ := storeNext_proc h <;> trivial
  | claim h => obtain ⟨_, rfl⟩ | rfl := claimNext_proc h <;> trivial
  | renew h => obtain rfl | rfl := renewNext_proc h <;> trivial
  | deliver h => exact processNext_called h
  | giveBack h => obtain ⟨_, rfl⟩ | rfl := giveBackNext_proc h <;> trivial
  | relay h => obtain ⟨_, rfl⟩ | rfl := (relayNext_eq h).2 <;> trivial
  | _ => trivial

/-- **No call is refused or forgotten**, in every run with a partner that accepts every call. -/
theorem reachable_answered (hE : Catalogue E) {c : Config Store Proc}
    (h : Run service (accepting E) initial c) :
    c.store.answersOk ∧ ∀ t, (c.procs t).called c.store := by
  refine Run.invariant (I := Store.answersOk) (J := fun _ s p => p.called s)
    (K := fun c => Run service (accepting E) initial c) (fun _ h => h)
    ⟨fun x hx => absurd hx List.not_mem_nil, fun _ => trivial⟩ ?_ ?_ h
  · intro c t a s' p' hrun hok hI _ hnext
    have hi := (reachable_inStep hE (deliversFrom_of_accepting hrun)).1
    exact ⟨answersOk_step hE hi hok.2 hI hnext, next_called hnext⟩
  · intro c t a s' p' u hrun hok _ hq hnext _
    have hi := (reachable_inStep hE (deliversFrom_of_accepting hrun)).1
    exact Proc.called_later hE hi hok.2 hnext (hq u)

/-! ### The statements that are left -/

/-- The statements of `process` outside the inbox up to the return, at most. A delivered event
is found at the first one. -/
def ProcessPc.left (delivered : Bool) : ProcessPc → ℕ
  | .isDelivered => if delivered then 2 else 12
  | .lastSequence => 11
  | .submit => 10
  | .calling _ => 9
  | .checkDelivered => 8
  | .checkSequence => 7
  | .insertEffect => 6
  | .upsertOrder _ => 5
  | .insertCompletion _ => 4
  | .complete _ => 3
  | .commit .. => 2
  | .returned => 1
  | .duplicateHolds | .holds | .release .. => 0

lemma ProcessPc.left_anti (pc : ProcessPc) (d : Bool) : pc.left true ≤ pc.left d := by
  cases pc <;> cases d <;> simp [ProcessPc.left]

/-- What is left of `process` after a statement. -/
inductive Left (job : ProcessJob) (pc : ProcessPc) (s s' : Store) : Proc → Prop
  | goesOn {pc' : ProcessPc} (h : pc'.left (s'.db.isDelivered job.event.eventId) <
      pc.left (s.db.isDelivered job.event.eventId)) : Left job pc s s' (.delivering job pc')
  | returned (h : pc = .returned) : Left job pc s s' .idle
  | threw (hd : s'.db.isDelivered job.event.eventId) (h : 6 ≤ pc.left true) :
      Left job pc s s' .idle

/-- **A statement outside the inbox** brings `process` closer to its return. It throws only when
the event was delivered meanwhile, as long as an event that is not delivered is next in its
order and the answers are 200. -/
theorem processNext_left {job : ProcessJob} {jvm : ℤ} {pc : ProcessPc} (hclaim : job.claim = none)
    (hmode : job.inboxMode = false) (hledger : Ledger s.db) (hok : s.answersOk)
    (hnext : ¬ s.db.isDelivered job.event.eventId →
      s.db.lastSequence job.event.order + 1 = job.event.sequence)
    (h : processNext t s job jvm pc = some (s', p')) : Left job pc s s' p' := by
  have hskip : s.db.lastSequence job.event.order + 1 ≠ job.event.sequence →
      s.db.isDelivered job.event.eventId := fun hne => by
    by_contra hnew
    exact hne (hnext hnew)
  cases pc with
  | isDelivered =>
      simp only [processNext, hclaim] at h
      split_ifs at h with hd <;> cases h
      · exact .goesOn (by simp [ProcessPc.left, hd])
      · exact .goesOn (by simp [ProcessPc.left, hd])
  | lastSequence =>
      simp only [processNext] at h
      split_ifs at h with hseq <;> cases h
      · exact .threw (hskip hseq) (by decide)
      · exact .goesOn (by simp [ProcessPc.left])
  | submit =>
      cases h
      exact .goesOn (by simp [ProcessPc.left])
  | calling call =>
      simp only [processNext, hclaim, Option.isSome_none, Bool.false_eq_true, if_false] at h
      split_ifs at h with h200 hother <;> cases h
      · exact .goesOn (by simp [ProcessPc.left])
      · -- the answer is not another one
        obtain ⟨⟨call', status⟩, hx, heq⟩ := List.any_eq_true.mp hother
        obtain rfl : call' = call := by simpa using heq
        obtain rfl : status = .ok200 := hok _ hx
        exact absurd hx h200
  | checkDelivered =>
      simp only [processNext, hclaim, Option.isSome_none, Bool.false_eq_true, if_false] at h
      split_ifs at h with hd <;> cases h
      · exact .goesOn (by simp [ProcessPc.left])
      · exact .goesOn (by simp [ProcessPc.left])
  | checkSequence =>
      simp only [processNext] at h
      split_ifs at h with hseq <;> cases h
      · exact .threw (hskip hseq) (by decide)
      · exact .goesOn (by simp [ProcessPc.left])
  | insertEffect =>
      simp only [processNext] at h
      split_ifs at h with hcan hadm <;> cases h
      · exact .goesOn (by simp [ProcessPc.left])
      · refine .threw ?_ (by decide)
        by_contra hnew
        refine hadm fun x hx => ⟨fun hid => hnew ⟨x, hx, hid⟩, fun hseq => ?_⟩
        -- the place behind the last operation is free
        obtain ⟨ho, hs⟩ := Prod.mk.inj hseq
        have hle := (hledger.mem_iff.mp ⟨x, hx, ho, hs⟩).2
        have := hnext hnew
        omega
  | upsertOrder doneAt =>
      simp only [processNext] at h
      split_ifs at h with hcan
      cases h
      exact .goesOn (by simp [ProcessPc.left])
  | insertCompletion doneAt =>
      cases h
      exact .goesOn (by simp [ProcessPc.left])
  | complete delivery =>
      simp only [processNext, hclaim, hmode] at h
      cases h
      exact .goesOn (by simp [ProcessPc.left])
  | commit delivery row permit =>
      simp only [processNext, hclaim] at h
      cases h
      exact .goesOn (by simp [ProcessPc.left])
  | returned =>
      simp only [processNext, hclaim] at h
      cases h
      exact .returned rfl
  | duplicateHolds =>
      simp only [processNext, hclaim] at h
      cases h
  | holds =>
      simp only [processNext, hclaim] at h
      cases h
  | release delivery row =>
      simp only [processNext, hclaim] at h
      cases h

/-! ### Waiting -/

/-- The statements without a claim. -/
def ProcessPc.unclaimed : ProcessPc → Bool
  | .duplicateHolds | .holds | .release .. => false
  | _ => true

lemma processNext_unclaimed {job : ProcessJob} {jvm : ℤ} {pc pc' : ProcessPc}
    (hclaim : job.claim = none) (h : processNext t s job jvm pc = some (s', .delivering job pc')) :
    pc'.unclaimed = true := by
  cases pc with
  | calling call =>
      simp only [processNext, hclaim, Option.isSome_none, Bool.false_eq_true, if_false] at h
      split_ifs at h <;> cases h
      rfl
  | _ =>
      simp only [processNext, hclaim] at h
      (repeat' split at h) <;> first
        | (cases h; rfl)
        | cases h

lemma exists_lock_of_not_canLock {r : Resource} (h : ¬ s.canLock t r = true) :
    ∃ u, u ≠ t ∧ (r, u) ∈ s.locks := by
  rw [Store.canLock, Locks.available_iff] at h
  push Not at h
  obtain ⟨r', u, hmem, hr, hut⟩ := h
  obtain rfl : r' = r := by simpa using hr
  exact ⟨u, hut, hmem⟩

/-- **A statement outside the inbox waits** only for the answer of the partner, or for a lock of
another process. -/
theorem processNext_waits {job : ProcessJob} {jvm : ℤ} {pc : ProcessPc} (hclaim : job.claim = none)
    (hpc : pc.unclaimed = true) (hcalled : (Proc.delivering job pc).called s)
    (h : processNext t s job jvm pc = none) :
    (∃ call ∈ s.requests, pc = .calling call) ∨ ∃ r u, u ≠ t ∧ (r, u) ∈ s.locks := by
  cases pc with
  | calling call =>
      left
      simp only [processNext, hclaim, Option.isSome_none, Bool.false_eq_true, if_false] at h
      split_ifs at h with h200 hother
      exact ⟨call, hcalled.resolve_right h200, rfl⟩
  | insertEffect =>
      right
      simp only [processNext] at h
      split_ifs at h with hcan
      rw [List.all_eq_true] at hcan
      push Not at hcan
      obtain ⟨r, -, hr⟩ := hcan
      obtain ⟨u, hut, hmem⟩ := exists_lock_of_not_canLock hr
      exact ⟨r, u, hut, hmem⟩
  | upsertOrder doneAt =>
      right
      simp only [processNext] at h
      split_ifs at h with hcan
      obtain ⟨u, hut, hmem⟩ := exists_lock_of_not_canLock hcan
      exact ⟨_, u, hut, hmem⟩
  | complete delivery =>
      right
      simp only [processNext, hclaim] at h
      split_ifs at h with hmode hcan
      obtain ⟨u, hut, hmem⟩ := exists_lock_of_not_canLock hcan
      exact ⟨_, u, hut, hmem⟩
  | duplicateHolds => cases hpc
  | holds => cases hpc
  | release delivery row => cases hpc
  | _ =>
      simp only [processNext, hclaim] at h
      (repeat' split at h) <;> cases h

end OrderSystem.Partner
