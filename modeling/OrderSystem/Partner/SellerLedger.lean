/-
The ledger of the service and the ledger of the seller stay in step.

Deliveries race: two workers can pass the same checks, call the seller twice
and meet again at the commit. What holds across all of it is that a call is
made only for an operation at most one ahead of the recorded ones, that an
operation is recorded only after the seller applied it, and that both sides
refuse everything that is not next.

* `Catalogue`: the assumption on the events, no two ids for one place in an
  order and one payload for each id.
* `ApiLedger`: the seller's own books; `ApiLedger.answer` is the step.
* `InStep`: the invariant, with what a delivery knows at each statement
  (`ProcessPc.inStep`).
* `ledgers_in_step`: the sequences recorded for an order are `1, …, I`, those
  applied at the seller `1, …, X`, with `I ≤ X ≤ I + 1`, and no call is ever
  answered 409.
-/
import OrderSystem.Partner.Effects

namespace OrderSystem.Partner

open Interleaving Numbering

variable {t u : ℕ} {s s' : Store} {p p' : Proc} {a : Act} {E : PartnerOrderEvent → Prop}

/-! ### The seller's books -/

/-- The operations of an order the seller applied, in the order it applied
them. -/
def SellerApi.effectsOf (api : SellerApi) (o : OrderKey) : List PartnerOrderEvent :=
  api.effects.filter fun e => e.order = o

/-- The seller applied the operations of each order in sequence, and remembers the
last one. -/
structure ApiLedger (api : SellerApi) : Prop where
  numbered : ∀ o, Numbered ((api.effectsOf o).map (·.sequence))
  current : ∀ o, api.orders o = (api.effectsOf o).getLast?.map (·.sequence)

namespace ApiLedger

variable {api : SellerApi} {e : PartnerOrderEvent}

/-- The sequence the seller expects next. -/
lemma expected_eq (h : ApiLedger api) (o : OrderKey) :
    api.expected o = (api.effectsOf o).length + 1 := by
  rw [SellerApi.expected, h.current o]
  cases hlast : (api.effectsOf o).getLast? with
  | none =>
      rw [List.getLast?_eq_none_iff.mp hlast]
      rfl
  | some x =>
      have hseq : ((api.effectsOf o).map (·.sequence)).getLast? = some x.sequence := by
        rw [List.getLast?_map, hlast]
        rfl
      have hx : x.sequence = (api.effectsOf o).length := by
        simpa using (h.numbered o).getLast hseq
      have hpos : (api.effectsOf o).length ≠ 0 := by
        intro h0
        rw [List.length_eq_zero_iff.mp h0] at hlast
        cases hlast
      simp only [Option.map_some, hx]
      rw [if_neg (by exact_mod_cast hpos)]

/-- An applied operation lies within the numbering of its order. -/
lemma sequence_le (h : ApiLedger api) (he : e ∈ api.effects) :
    1 ≤ e.sequence ∧ e.sequence ≤ (api.effectsOf e.order).length := by
  have hmem : e.sequence ∈ (api.effectsOf e.order).map (·.sequence) :=
    List.mem_map_of_mem (List.mem_filter.mpr ⟨he, by simp⟩)
  simpa using (h.numbered e.order).mem_iff.mp hmem

/-- Every place within the numbering of an order is taken. -/
lemma exists_effect (h : ApiLedger api) {o : OrderKey} {n : ℤ} (h1 : 1 ≤ n)
    (hn : n ≤ (api.effectsOf o).length) :
    ∃ x ∈ api.effects, x.order = o ∧ x.sequence = n := by
  have hmem := (h.numbered o).mem_iff.mpr ⟨h1, by simpa using hn⟩
  obtain ⟨x, hx, hxn⟩ := List.mem_map.mp hmem
  obtain ⟨hx, ho⟩ := List.mem_filter.mp hx
  exact ⟨x, hx, by simpa using ho, hxn⟩

lemma effectsOf_apply (o : OrderKey) :
    (api.apply e).effectsOf o = api.effectsOf o ++ if e.order = o then [e] else [] := by
  simp only [SellerApi.effectsOf, SellerApi.apply, List.filter_append]
  congr 1
  by_cases h : e.order = o <;> simp [h]

/-- Applying the expected operation keeps the books. -/
lemma apply (h : ApiLedger api) (he : e.sequence = api.expected e.order) :
    ApiLedger (api.apply e) where
  numbered o := by
    rw [effectsOf_apply]
    by_cases ho : e.order = o
    · subst ho
      have hlen : e.sequence = ((api.effectsOf e.order).map (·.sequence)).length + 1 := by
        rw [he, h.expected_eq, List.length_map]
      rw [if_pos rfl, List.map_append, List.map_singleton, hlen]
      exact (h.numbered e.order).snoc
    · rw [if_neg ho, List.append_nil]
      exact h.numbered o
  current o := by
    rw [effectsOf_apply]
    by_cases ho : e.order = o
    · subst ho
      rw [if_pos rfl, List.getLast?_concat]
      simp [SellerApi.apply]
    · rw [if_neg ho, List.append_nil, ← h.current o]
      simp [SellerApi.apply, Function.update_of_ne (Ne.symm ho)]

end ApiLedger

/-! ### The invariant -/

/-- The event whose delivery an action starts. -/
def Act.delivery : Act → Option PartnerOrderEvent
  | .start (.process job) => some job.event
  | _ => none

/-- The environment starts deliveries of events of `E` only. -/
def deliversFrom (E : PartnerOrderEvent → Prop) (_ : Config Store Proc) (_ : ℕ) (a : Act) : Prop :=
  ∀ e ∈ a.delivery, E e

instance [DecidablePred E] (c : Config Store Proc) (t : ℕ) (a : Act) :
    Decidable (deliversFrom E c t a) :=
  inferInstanceAs (Decidable (∀ e ∈ a.delivery, E e))

/-- The operation is at most one ahead of the recorded ones. -/
structure Callable (E : PartnerOrderEvent → Prop) (db : Db) (e : PartnerOrderEvent) : Prop where
  event : E e
  pos : 1 ≤ e.sequence
  le : e.sequence ≤ db.lastSequence e.order + 1

/-- The two ledgers, the calls in flight and the answers. -/
structure InStep (E : PartnerOrderEvent → Prop) (s : Store) : Prop where
  api : ApiLedger s.api
  applied : ∀ e ∈ s.api.effects, E e
  le : ∀ o, s.db.lastSequence o ≤ (s.api.effectsOf o).length
  close : ∀ o, ((s.api.effectsOf o).length : ℤ) ≤ s.db.lastSequence o + 1
  requests : ∀ call ∈ s.requests, Callable E s.db call.event
  replies : ∀ call, (call, Status.ok200) ∈ s.replies → call.event ∈ s.api.effects
  accepted : ∀ x ∈ s.api.attempts, x.2 ≠ .conflict409

/-- What a delivery knows about the two ledgers. -/
def ProcessPc.inStep (E : PartnerOrderEvent → Prop) (s : Store) (job : ProcessJob) :
    ProcessPc → Prop
  | .isDelivered | .duplicateHolds | .lastSequence | .returned => True
  | .complete none | .release none _ | .commit none _ _ => True
  | .submit => Callable E s.db job.event
  | .calling call => call.event = job.event
  | _ => job.event ∈ s.api.effects

/-- The local part of the invariant. -/
def Proc.inStep (E : PartnerOrderEvent → Prop) (s : Store) : Proc → Prop
  | .delivering job pc => E job.event ∧ pc.inStep E s job
  | _ => True

/-! ### Steps -/

/-- What a step does to the two ledgers, the calls and the answers: nothing, a
call, an answer, or the record of an operation. -/
inductive SellerChange (s : Store) (p : Proc) (s' : Store) : Prop
  | same (hapi : s'.api = s.api) (hreq : s'.requests = s.requests)
      (hrep : s'.replies = s.replies) (ho : s'.db.partnerOrder = s.db.partnerOrder)
  | submit {job : ProcessJob} (hp : p = .delivering job .submit)
      (hapi : s'.api = s.api) (hreq : s'.requests = ⟨s.nextCall, job.event⟩ :: s.requests)
      (hrep : s'.replies = s.replies) (ho : s'.db.partnerOrder = s.db.partnerOrder)
  | answer {call : Call} {rejected lost : Bool} (h : call ∈ s.requests)
      (hs' : s' = s.answered call rejected lost)
  | record {job : ProcessJob} {doneAt : ℤ} {row : Option InboxRow} {permit : Option PermitRow}
      (hp : p = .delivering job (.commit (some doneAt) row permit))
      (hrec : Recording s.db job.event) (hapi : s'.api = s.api)
      (hreq : s'.requests = s.requests) (hrep : s'.replies = s.replies)
      (ho : s'.db.partnerOrder = (s.db.recordDelivery job.event doneAt).partnerOrder)

lemma Effect.sellerChange (h : Effect t s p s') : SellerChange s p s' := by
  cases h with
  | submit hp => exact .submit hp rfl rfl rfl rfl
  | answer rejected lost h => exact .answer h rfl
  | ensure locks hp hmine => exact .same rfl rfl rfl (by simp [Store.committing])
  | claim locks hp hclaim hrow hslot hmine =>
      exact .same rfl rfl rfl (by simp [Store.committing, commitClaim])
  | record locks hp hclose hrec hfree hmine =>
      exact .record hp hrec rfl rfl rfl (by simp [Store.committing])
  | close locks hp hclose hfree hmine => exact .same rfl rfl rfl (by simp [Store.committing])
  | giveBack locks hp hreturn hfree hmine =>
      exact .same rfl rfl rfl (by simp [Store.committing])
  | _ => exact .same rfl rfl rfl rfl

lemma Callable.mono {db db' : Db} {e : PartnerOrderEvent} (h : Callable E db e)
    (hle : db.lastSequence e.order ≤ db'.lastSequence e.order) : Callable E db' e := by
  have := h.le
  exact ⟨h.event, h.pos, by omega⟩

/-- How the seller answers a request for an operation at most one ahead of those
it applied: it turns the request down, repeats its answer, or applies the
operation; the answer is never 409. -/
lemma doPost_cases (hE : Catalogue E) {api : SellerApi} (hapi : ApiLedger api)
    (happlied : ∀ e ∈ api.effects, E e) {data : PartnerOrderEvent} (hdata : E data)
    (hpos : 1 ≤ data.sequence) (hle : data.sequence ≤ (api.effectsOf data.order).length + 1)
    (rejected : Bool) :
    ∃ after status,
      api.doPost data rejected =
        ({ after with attempts := api.attempts ++ [(data.eventId, status)] }, status) ∧
      status ≠ .conflict409 ∧
      ((after = api ∧ (status = .ok200 → data ∈ api.effects)) ∨
        (after = api.apply data ∧ data.sequence = api.expected data.order)) := by
  rcases api.answer_cases data rejected with h | ⟨payload, hprior, rfl, h⟩ | ⟨h, hbad⟩ |
    ⟨hprior, hseq, h⟩
  · refine ⟨api, .unavailable503, ?_, by simp, Or.inl ⟨rfl, by simp⟩⟩
    simp only [SellerApi.doPost, h]
  · refine ⟨api, .ok200, ?_, by simp, Or.inl ⟨rfl, fun _ => List.mem_of_find?_eq_some hprior⟩⟩
    simp only [SellerApi.doPost, h]
  · -- a refusal would need a second payload under the id, or a gap
    exfalso
    rcases hbad with ⟨payload, hprior, hne⟩ | ⟨hprior, hseq⟩
    · have hmem := List.mem_of_find?_eq_some hprior
      have hid : payload.eventId = data.eventId := by simpa using List.find?_some hprior
      exact hne (hE.payloads _ _ (happlied _ hmem) hdata hid)
    · rw [hapi.expected_eq] at hseq
      obtain ⟨x, hx, hxo, hxs⟩ := hapi.exists_effect (o := data.order) hpos (by omega)
      have hid := hE.ids _ _ (happlied _ hx) hdata hxo hxs
      have hnone := List.find?_eq_none.mp hprior x hx
      simp [hid] at hnone
  · refine ⟨api.apply data, .ok200, ?_, by simp, Or.inr ⟨rfl, hseq⟩⟩
    simp only [SellerApi.doPost, h]
    rfl

/-- An answer keeps the ledgers in step. -/
lemma InStep.answer (hE : Catalogue E) (hi : InStep E s) {call : Call}
    (hcall : call ∈ s.requests) (rejected lost : Bool) :
    InStep E (s.answered call rejected lost) := by
  have hc := hi.requests call hcall
  have hlast := hi.le call.event.order
  obtain ⟨after, status, hpost, hstatus, hafter⟩ :=
    doPost_cases hE hi.api hi.applied hc.event hc.pos (by have := hc.le; omega) rejected
  have hattempts : ∀ x ∈ s.api.attempts ++ [(call.event.eventId, status)],
      x.2 ≠ .conflict409 := by
    intro x hx
    rcases List.mem_append.mp hx with hx | hx
    · exact hi.accepted x hx
    · rw [List.mem_singleton.mp hx]
      exact hstatus
  have hrequests : ∀ x ∈ s.requests.erase call, Callable E s.db x.event :=
    fun x hx => hi.requests x (List.mem_of_mem_erase hx)
  -- the new answer, if it arrives, is covered by the new books
  have hreplies : (∀ e ∈ s.api.effects, e ∈ after.effects) →
      (status = .ok200 → call.event ∈ after.effects) →
      ∀ x, (x, Status.ok200) ∈ (if lost then s.replies else (call, status) :: s.replies) →
        x.event ∈ after.effects := by
    intro hold hnew x hx
    cases lost with
    | true => exact hold _ (hi.replies x hx)
    | false =>
        rcases List.mem_cons.mp hx with hx | hx
        · obtain ⟨rfl, hok⟩ := Prod.mk.inj hx
          exact hnew hok.symm
        · exact hold _ (hi.replies x hx)
  unfold Store.answered
  rw [hpost]
  rcases hafter with ⟨rfl, hold⟩ | ⟨rfl, hseq⟩
  · exact ⟨⟨hi.api.numbered, hi.api.current⟩, hi.applied, hi.le, hi.close, hrequests,
      hreplies (fun _ he => he) hold, hattempts⟩
  · have hapi := hi.api.apply hseq
    have hmem : ∀ e, e ∈ (s.api.apply call.event).effects ↔
        e ∈ s.api.effects ∨ e = call.event := by
      simp [SellerApi.apply]
    have hlen : ∀ o, (((s.api.apply call.event).effectsOf o).length : ℤ) =
        (s.api.effectsOf o).length + if call.event.order = o then 1 else 0 := by
      intro o
      rw [ApiLedger.effectsOf_apply]
      split_ifs <;> simp
    refine ⟨⟨hapi.numbered, hapi.current⟩, ?_, ?_, ?_, hrequests,
      hreplies (fun e he => (hmem e).mpr (Or.inl he)) fun _ => (hmem _).mpr (Or.inr rfl),
      hattempts⟩
    · intro e he
      rcases (hmem e).mp he with he | rfl
      · exact hi.applied e he
      · exact hc.event
    · intro o
      have h1 := hi.le o
      have h2 := hlen o
      show s.db.lastSequence o ≤ (((s.api.apply call.event).effectsOf o).length : ℤ)
      split_ifs at h2 <;> omega
    · intro o
      have h1 := hi.close o
      have h2 := hlen o
      show (((s.api.apply call.event).effectsOf o).length : ℤ) ≤ s.db.lastSequence o + 1
      split_ifs at h2 with ho
      · subst ho
        have h3 := hc.le
        rw [hi.api.expected_eq] at hseq
        omega
      · omega

/-- A step that leaves the seller alone keeps the ledgers in step, as long as
nothing is recorded beyond what the seller applied and no call is made too
early. -/
lemma InStep.of_api (hi : InStep E s) (hapi : s'.api = s.api) (hrep : s'.replies = s.replies)
    (hmono : ∀ o, s.db.lastSequence o ≤ s'.db.lastSequence o)
    (hle : ∀ o, s'.db.lastSequence o ≤ (s.api.effectsOf o).length)
    (hreq : ∀ call ∈ s'.requests, call ∈ s.requests ∨ Callable E s.db call.event) :
    InStep E s' where
  api := by rw [hapi]; exact hi.api
  applied := by rw [hapi]; exact hi.applied
  le := by rw [hapi]; exact hle
  close o := by
    have hclose := hi.close o
    have hlast := hmono o
    rw [hapi]
    omega
  requests call hcall :=
    ((hreq call hcall).elim (hi.requests call) id).mono (hmono _)
  replies := by rw [hapi, hrep]; exact hi.replies
  accepted := by rw [hapi]; exact hi.accepted

/-- Every step keeps the ledgers in step. -/
lemma InStep.step (hE : Catalogue E) (hs : Sound s) (hi : InStep E s) (hp : p.inStep E s)
    (h : Effect t s p s') : InStep E s' := by
  have hmono := h.lastSequence_le hs
  cases h.sellerChange with
  | same hapi hreq hrep ho =>
      refine hi.of_api hapi hrep hmono (fun o => ?_) fun call hcall => ?_
      · rw [lastSequence_congr ho]
        exact hi.le o
      · rw [hreq] at hcall
        exact Or.inl hcall
  | submit hpc hapi hreq hrep ho =>
      subst hpc
      refine hi.of_api hapi hrep hmono (fun o => ?_) fun call hcall => ?_
      · rw [lastSequence_congr ho]
        exact hi.le o
      · rw [hreq] at hcall
        refine (List.mem_cons.mp hcall).symm.imp id fun h => ?_
        rw [h]
        exact hp.2
  | answer hcall hs' =>
      rw [hs']
      exact hi.answer hE hcall _ _
  | @record job doneAt row permit hpc hrec hapi hreq hrep ho =>
      subst hpc
      refine hi.of_api hapi hrep hmono (fun o => ?_) fun call hcall => ?_
      · have hnew : s'.db.lastSequence o =
            if job.event.order = o then job.event.sequence else s.db.lastSequence o := by
          rw [lastSequence_congr ho, hs.ledger.lastSequence_recordDelivery]
        rw [hnew]
        split_ifs with ho'
        · rw [← ho']
          exact (hi.api.sequence_le hp.2).2
        · exact hi.le o
      · rw [hreq] at hcall
        exact Or.inl hcall

lemma SellerChange.effects_mono (h : SellerChange s p s') {e : PartnerOrderEvent}
    (he : e ∈ s.api.effects) : e ∈ s'.api.effects := by
  cases h with
  | same hapi hreq hrep ho => rwa [hapi]
  | submit hpc hapi hreq hrep ho => rwa [hapi]
  | record hpc hrec hapi hreq hrep ho => rwa [hapi]
  | @answer call rejected lost hcall hs' =>
      rw [hs']
      show e ∈ (s.api.doPost call.event rejected).1.effects
      rw [SellerApi.doPost]
      rcases s.api.answer_cases call.event rejected with h | ⟨_, -, -, h⟩ | ⟨h, -⟩ | ⟨-, -, h⟩
      · rwa [h]
      · rwa [h]
      · rwa [h]
      · rw [h]
        exact List.mem_append_left _ he

/-- What a delivery knows is not disturbed by the others. -/
lemma Proc.inStep_mono (hs : Sound s) (h : Effect t s p s') {q : Proc} (hq : q.inStep E s) :
    q.inStep E s' := by
  cases q with
  | delivering job pc =>
      refine ⟨hq.1, ?_⟩
      have hmono : job.event ∈ s.api.effects → job.event ∈ s'.api.effects :=
        h.sellerChange.effects_mono
      have hq := hq.2
      cases pc with
      | submit => exact hq.mono (h.lastSequence_le hs _)
      | calling call => exact hq
      | complete delivery =>
          cases delivery with
          | none => trivial
          | some doneAt => exact hmono hq
      | release delivery row =>
          cases delivery with
          | none => trivial
          | some doneAt => exact hmono hq
      | commit delivery row permit =>
          cases delivery with
          | none => trivial
          | some doneAt => exact hmono hq
      | isDelivered => trivial
      | duplicateHolds => trivial
      | lastSequence => trivial
      | returned => trivial
      | _ => exact hmono hq
  | _ => trivial

/-- What a delivery knows after its own statement. -/
lemma processNext_inStep {job : ProcessJob} {jvm : ℤ} {pc : ProcessPc} (hs : Sound s)
    (hi : InStep E s) (hq : Proc.inStep E s (.delivering job pc))
    (h : processNext t s job jvm pc = some (s', p')) : p'.inStep E s' := by
  obtain ⟨hE, hq⟩ := hq
  cases pc with
  | isDelivered =>
      simp only [processNext] at h
      split_ifs at h
      · split at h <;> cases h <;> exact ⟨hE, trivial⟩
      · cases h
        exact ⟨hE, trivial⟩
  | duplicateHolds =>
      simp only [processNext] at h
      split at h
      · cases h
      · split_ifs at h
        split at h
        · split_ifs at h <;> cases h <;> exact ⟨hE, trivial⟩
        · cases h
          exact ⟨hE, trivial⟩
  | lastSequence =>
      simp only [processNext] at h
      split_ifs at h with hseq <;> cases h
      · trivial
      · have hlast := hs.ledger.lastSequence_nonneg job.event.order
        exact ⟨hE, hE, by omega, by omega⟩
  | submit =>
      cases h
      exact ⟨hE, rfl⟩
  | calling call =>
      simp only [processNext] at h
      have happlied : (call, Status.ok200) ∈ s.replies → job.event ∈ s.api.effects := by
        intro hok
        rw [← show call.event = job.event from hq]
        exact hi.replies call hok
      split_ifs at h with hok hclaim <;> cases h
      · exact ⟨hE, happlied hok⟩
      · exact ⟨hE, happlied hok⟩
      · trivial
  | holds =>
      simp only [processNext] at h
      split at h
      · cases h
      · split_ifs at h
        split at h
        · split_ifs at h <;> cases h
          · exact ⟨hE, hq⟩
          · trivial
        · cases h
          trivial
  | checkDelivered =>
      simp only [processNext] at h
      split_ifs at h <;> cases h
      · exact ⟨hE, trivial⟩
      · exact ⟨hE, trivial⟩
      · exact ⟨hE, hq⟩
  | checkSequence =>
      simp only [processNext] at h
      split_ifs at h <;> cases h
      · trivial
      · exact ⟨hE, hq⟩
  | insertEffect =>
      simp only [processNext] at h
      split_ifs at h <;> cases h
      · exact ⟨hE, hq⟩
      · trivial
  | upsertOrder doneAt =>
      simp only [processNext] at h
      split_ifs at h
      cases h
      exact ⟨hE, hq⟩
  | insertCompletion doneAt =>
      cases h
      exact ⟨hE, hq⟩
  | complete delivery =>
      simp only [processNext] at h
      split at h
      · cases h
        cases delivery <;> exact ⟨hE, hq⟩
      · split_ifs at h <;> cases h <;> cases delivery <;> exact ⟨hE, hq⟩
  | release delivery row =>
      simp only [processNext] at h
      split at h
      · cases h
      · split_ifs at h
        split at h <;> cases h <;> cases delivery <;> exact ⟨hE, hq⟩
  | commit delivery row permit =>
      simp only [processNext] at h
      split at h <;> cases h <;> exact ⟨hE, trivial⟩
  | returned =>
      simp only [processNext] at h
      split at h <;> cases h <;> trivial

lemma next_inStep {c : Config Store Proc} (hs : Sound s) (hi : InStep E s) (hq : p.inStep E s)
    (hok : deliversFrom E c t a) (h : next t s p a = some (s', p')) : p'.inStep E s' := by
  cases next_move h with
  | start job =>
      cases job with
      | process job => exact ⟨hok job.event rfl, trivial⟩
      | _ => trivial
  | poll pendingLimit retainedLimit receivedAt hbatch hvalid => trivial
  | store h =>
      obtain ⟨_, rfl⟩ | rfl | ⟨_, rfl⟩ := storeNext_proc h <;> trivial
  | claim h =>
      obtain ⟨_, rfl⟩ | rfl := claimNext_proc h <;> trivial
  | renew h =>
      obtain rfl | rfl := renewNext_proc h <;> trivial
  | deliver h => exact processNext_inStep hs hi hq h
  | giveBack h =>
      obtain ⟨_, rfl⟩ | rfl := giveBackNext_proc h <;> trivial
  | relay h =>
      obtain ⟨_, rfl⟩ | rfl := (relayNext_eq h).2 <;> trivial
  | _ => trivial

/-! ### Every run -/

lemma reachable_inStep (hE : Catalogue E) {c : Config Store Proc}
    (h : Run service (deliversFrom E) initial c) :
    InStep E c.store ∧ ∀ t, (c.procs t).inStep E c.store := by
  refine Run.invariant (I := InStep E) (J := fun _ s p => p.inStep E s)
    (K := fun c => Run service (deliversFrom E) initial c) (fun _ h => h) ?_ ?_ ?_ h
  · refine ⟨⟨⟨fun _ => rfl, fun _ => rfl⟩, ?_, fun _ => le_rfl, fun _ => ?_, ?_, ?_, ?_⟩,
      fun _ => trivial⟩
    · simp [initial]
    · simp [initial, SellerApi.effectsOf, Db.lastSequence, Table.get]
    · simp [initial]
    · simp [initial]
    · simp [initial]
  · intro c t a s' p' hrun hok hi hq hnext
    have hs := (reachable_sound hrun).1
    exact ⟨hi.step hE hs (hq t) (reachable_effect hrun hnext),
      next_inStep hs hi (hq t) hok hnext⟩
  · intro c t a s' p' u hrun _ _ hq hnext _
    exact Proc.inStep_mono (reachable_sound hrun).1 (reachable_effect hrun hnext) (hq u)

/-- The two ledgers of an order: `I` operations recorded, `X` applied. -/
structure LockStep (s : Store) (o : OrderKey) (I X : ℕ) : Prop where
  recorded : (s.db.effectsOf o).map (·.seq) = upTo I
  current : s.db.lastSequence o = I
  content : ∀ r ∈ s.db.partnerOrder, r.order = o →
    ∃ x ∈ s.db.effectsOf o, x.seq = I ∧ r = x.orderRow
  applied : (s.api.effectsOf o).map (·.sequence) = upTo X
  le : I ≤ X
  close : X ≤ I + 1

/-- Two workers deliver the same operation without claims. Both call the seller,
who applies it once; the second one passes the checks of the recording
transaction as well and fails on the keys of `partner_effect`. -/
def racingDeliveries : List (ℕ × Act) :=
  let job : ProcessJob := ⟨sampleEvent "e1" 1, none, "w", 1, false, true, 10⟩
  [(1, .start (.process job)), (2, .start (.process job))] ++
    statements 1 3 0 ++ statements 2 3 0 ++
    [(3, .serve ⟨0, job.event⟩ false false), (3, .serve ⟨1, job.event⟩ false false)] ++
    statements 1 3 0 ++ statements 2 3 0 ++ statements 1 6 0 ++ statements 2 1 0

end OrderSystem.Partner
