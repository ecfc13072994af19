/-
The seller's books and the books of order-service.

* `fresh`: the two services in INBOX mode, with random UUIDs that do not repeat.
  Outbox rows may be purged, sends may fail, answers may be lost, and everything else
  may crash and be repeated.
* `run_accepted`: what the partner service sees are the events order-service accepted.
* `Agrees`: how far the delivery ledger and the seller have followed an order. Both hold
  the first operations of its stream with their payloads, and a ledger that has followed
  the whole stream holds the order as it stands.
* `seller_agrees_with_source`: every order agrees in every reachable state, nothing else
  is in either ledger, and the seller never answers 409.
-/
import OrderSystem.Orders.Books
import OrderSystem.Partner.Issued
import OrderSystem.Partner.Unclaimed
import OrderSystem.Pipeline.NoLoss

namespace OrderSystem.Pipeline

open Interleaving Numbering

variable {partition : String → ℕ} {c : State} {o : Orders.Order}

/-! ### The environment -/

/-- INBOX mode behind a relay, with random UUIDs that do not repeat. -/
def fresh (c : State) (t : ℕ) : Orders.Act ⊕ Partner.Act → Prop
  | .inl a => Orders.unrepeated c.fst t a
  | .inr b => Partner.fromPolls anyEvent c.snd t b ∧ b.record = none

instance (c : State) (t : ℕ) (a : Orders.Act ⊕ Partner.Act) : Decidable (fresh c t a) :=
  match a with
  | .inl a => inferInstanceAs (Decidable (Orders.unrepeated c.fst t a))
  | .inr b => inferInstanceAs (Decidable (Partner.fromPolls anyEvent c.snd t b ∧ b.record = none))

lemma kafka_of_fresh (h : Run (pipeline partition) fresh initial c) :
    Run (pipeline partition) kafka initial c := by
  refine h.mono fun c t a hok => ?_
  cases a with
  | inl a => trivial
  | inr b => exact hok

lemma run_unrepeated (h : Run (pipeline partition) fresh initial c) :
    Run Orders.service Orders.unrepeated Orders.initial c.fst :=
  h.fst fun _ _ _ hok => hok

/-! ### What the partner service sees -/

/-- A step of the two services takes no accepted event back. -/
lemma accepted_subset {c' : State} {t : ℕ} {a : Orders.Act ⊕ Partner.Act}
    (h : Run (pipeline partition) kafka initial c)
    (hstep : (pipeline partition).step c t a = some c') :
    c.fst.store.accepted ⊆ c'.fst.store.accepted := by
  obtain ⟨x, hx, rfl⟩ := Option.map_eq_some_iff.mp hstep
  show c.store.1.accepted ⊆ x.1.1.accepted
  cases a with
  | inl a =>
      exact (Orders.reachable_effect (run_orders h) (Program.couple_inl hx).1).accepted_subset
  | inr b =>
      rw [(Program.couple_inr hx).2.1]
      exact List.Subset.refl _

/-- A record the broker appends for a send of the relay is an accepted event. -/
lemma carried_accepted {s : Orders.Store} (hs : Orders.Relayed s) {a : Orders.Act}
    {b : Partner.Act} (h : carried partition s a = some b) :
    ∃ q e, b = .produce q e ∧ e ∈ s.accepted := by
  cases a with
  | append n lost =>
      simp only [carried] at h
      split at h
      · next r hr =>
          obtain ⟨e, he, rfl⟩ := Option.map_eq_some_iff.mp h
          obtain ⟨l₁, l₂, hl, -⟩ := List.lookup_eq_some_iff.mp hr
          obtain ⟨w, hw, hwr⟩ := (hs.flight (n, r) (by rw [hl]; simp)).2
          exact ⟨_, e, rfl, List.mem_filterMap.mpr ⟨w, hw, hwr.partner.trans he⟩⟩
      · cases h
  | _ => cases h

/-- A job that stores no tasks of its own may run over any events. -/
lemma inboxMode_of_not_stores {E E' : PartnerOrderEvent → Prop} {s : Partner.Store}
    {job : Partner.Job} (hs : job.stores = false) (h : job.inboxMode E s) : job.inboxMode E' s := by
  cases job with
  | storeAll job => cases hs
  | _ => exact h

/-- **The partner service sees accepted events**: its part of a run is a run of INBOX mode
over any set that holds them. -/
theorem run_accepted {E : PartnerOrderEvent → Prop} (h : Run (pipeline partition) kafka initial c)
    (hE : ∀ e ∈ c.fst.store.accepted, E e) :
    Run Partner.service (Partner.fromPolls E) Partner.initial c.snd := by
  have hbounded := h.backwards (P := fun c => ∀ e ∈ c.fst.store.accepted, E e)
    (fun c c' t a hrun hstep hP e he => hP e (accepted_subset hrun hstep he)) hE
  have hrun : Run (pipeline partition) (fun c t a => kafka c t a ∧
      (∀ e ∈ c.fst.store.accepted, E e) ∧ Orders.Relayed c.fst.store) initial c :=
    hbounded.mono_of (K := fun c => Orders.Relayed c.fst.store)
      (fun c hrun => (Orders.reachable_relayed (run_orders (hrun.mono fun _ _ _ hok => hok.1))).1)
      fun _ _ _ _ hK hok _ => ⟨hok.1, hok.2, hK⟩
  refine hrun.snd (fun c t a b hok hb => ?_) fun c t b hok => ?_
  · obtain ⟨q, e, rfl, he⟩ := carried_accepted hok.2.2 hb
    exact ⟨⟨by simp [Partner.Act.job], fun e' he' => by cases he'; exact hok.2.1 e he⟩,
      by simp [Partner.Act.job]⟩
  · obtain ⟨⟨hpolls, hrecord⟩, -, -⟩ := hok
    exact ⟨⟨fun job hjob => inboxMode_of_not_stores (hpolls.2 job hjob) (hpolls.1.1 job hjob),
      by simp [hrecord]⟩, hpolls.2⟩

/-! ### Agreement -/

/-- The operations accepted for an order. -/
def stream (c : State) (o : Orders.Order) : List PartnerOrderEvent :=
  Orders.eventsOf o.orderId c.fst.store.accepted

/-- The order in the books of the seller. -/
def key (o : Orders.Order) : OrderKey := ⟨o.sellerId, o.orderId⟩

/-- The effect is the record of the event. -/
def Records (e : PartnerOrderEvent) (x : Partner.EffectRow) : Prop :=
  ∃ time, x = .of e time

/-- The row of `partner_order` is the order as it stands at the source. -/
structure Mirrors (row : Partner.OrderRow) (o : Orders.Order) : Prop where
  seq : row.seq = o.partnerSequence
  quantity : row.quantity = o.quantity
  price : row.price = o.price
  cancelled : row.operation = .cancel ↔ o.status = .cancelled

/-- The delivery ledger has followed `I` operations of an order, the seller `X`. -/
structure Agrees (c : State) (o : Orders.Order) (I X : ℕ) : Prop where
  le : I ≤ X
  close : X ≤ I + 1
  bound : X ≤ (stream c o).length
  recorded : List.Forall₂ Records ((stream c o).take I) (c.snd.store.db.effectsOf (key o))
  applied : c.snd.store.api.effectsOf (key o) = (stream c o).take X
  current : Table.get Partner.OrderRow.order (key o) c.snd.store.db.partnerOrder =
    ((stream c o).take I).getLast?.map Partner.OrderRow.of
  final : I = (stream c o).length → 0 < I →
    ∃ row ∈ c.snd.store.db.partnerOrder, row.order = key o ∧ Mirrors row o

/-- The last operation of a stream leaves the order as it stands. -/
lemma mirrors_of_last {e : PartnerOrderEvent} (h : Orders.Leaves e o) :
    Mirrors (.of e) o := by
  refine ⟨h.carries.sequence, h.carries.quantity, h.carries.price, ?_⟩
  have hstatus := h.status
  show e.operation = .cancel ↔ o.status = .cancelled
  split_ifs at hstatus with hcancel
  · simp [hcancel, hstatus]
  · simp [hcancel, hstatus]

/-- The last entries of two lists that follow each other. -/
lemma getLast?_of_forall₂ {events : List PartnerOrderEvent} {rows : List Partner.EffectRow}
    (h : List.Forall₂ Records events rows) :
    rows.getLast?.map Partner.EffectRow.orderRow = events.getLast?.map Partner.OrderRow.of := by
  induction h with
  | nil => rfl
  | @cons e x events rows hex hrest ih =>
      cases hrest with
      | nil =>
          obtain ⟨time, rfl⟩ := hex
          rfl
      | cons _ _ => simpa using ih

/-- An accepted event of an order is in its stream, under the key of the order. -/
lemma mem_stream (h : Run (pipeline partition) fresh initial c)
    (ho : o ∈ c.fst.store.db.orders) {e : PartnerOrderEvent} (he : e ∈ c.fst.store.accepted) :
    e.order = key o ↔ e ∈ stream c o := by
  have hsigned := (Orders.reachable_books (run_unrepeated h)).1.signed e he o ho
  constructor
  · intro horder
    have hid : e.orderId = o.orderId := congrArg OrderKey.orderId horder
    exact List.mem_filter.mpr ⟨he, by simpa using hid⟩
  · intro hmem
    have hid : e.orderId = o.orderId := by simpa using (List.mem_filter.mp hmem).2
    rw [PartnerOrderEvent.order, key, (hsigned hid.symm).1, hid]

section Result

variable (h : Run (pipeline partition) fresh initial c)
  (hfew : c.fst.store.accepted.length < 2 ^ 31)

include h hfew

/-- What is known of the partner service once its events are those accepted. -/
lemma partner_facts : Partner.InStep (· ∈ c.fst.store.accepted) c.snd.store ∧
    Partner.Recorded (· ∈ c.fst.store.accepted) c.snd.store.db ∧ Partner.Ledger c.snd.store.db := by
  have hE := Orders.accepted_catalogue (run_unrepeated h) hfew
  have hrun := Partner.deliversFrom_of_inboxMode (Partner.inboxMode_of_fromPolls
    (run_accepted (kafka_of_fresh h) fun _ he => he))
  exact ⟨(Partner.reachable_inStep hE hrun).1, Partner.reachable_recorded hE hrun,
    (Partner.reachable_sound hrun).1.ledger⟩

lemma agrees (ho : o ∈ c.fst.store.db.orders) : ∃ I X, Agrees c o I X := by
  obtain ⟨hi, hrec, hledger⟩ := partner_facts h hfew
  have hstamping := Orders.stamping_of_unrepeated (run_unrepeated h)
  have hstream := Orders.stream_of_few hstamping hfew ho
  have hnum : Numbered ((stream c o).map (·.sequence)) := by
    rw [Numbered, List.length_map]
    exact hstream.numbered
  obtain ⟨hI, hrecorded⟩ := hnum.forall₂_take (R := Records) (hledger.numbered (key o)) <| by
    intro x hx
    obtain ⟨hx, horder⟩ := List.mem_filter.mp hx
    obtain ⟨e, time, he, rfl⟩ := hrec x hx
    have horder : e.order = key o := of_decide_eq_true horder
    exact ⟨e, (mem_stream h ho he).mp horder, rfl, time, rfl⟩
  obtain ⟨hX, happlied⟩ := hnum.forall₂_take (R := (· = ·)) (hi.api.numbered (key o)) <| by
    intro e he
    obtain ⟨he, horder⟩ := List.mem_filter.mp he
    exact ⟨e, (mem_stream h ho (hi.applied e he)).mp (of_decide_eq_true horder), rfl, rfl⟩
  have hlast := hledger.lastSequence_eq (key o)
  have hle := hi.le (key o)
  have hclose := hi.close (key o)
  have hcurrent := (hledger.current (key o)).trans (getLast?_of_forall₂ hrecorded)
  refine ⟨_, _, ⟨by omega, by omega, hX, hrecorded, ?_, hcurrent, fun hall hpos => ?_⟩⟩
  · rw [List.forall₂_eq_eq_eq] at happlied
    exact happlied.symm
  · rw [hall, List.take_length] at hcurrent
    obtain ⟨e, he⟩ : ∃ e, (stream c o).getLast? = some e := by
      refine Option.isSome_iff_exists.mp ?_
      rw [List.getLast?_isSome]
      rintro hnil
      rw [hnil] at hall
      simp only [List.length_nil] at hall
      omega
    rw [he] at hcurrent
    refine ⟨.of e, Table.mem_of_get hcurrent, Table.key_of_get hcurrent, mirrors_of_last ?_⟩
    exact (Orders.reachable_books (run_unrepeated h)).1.current o ho e he

end Result

/-- **The seller agrees with the source.** In every reachable state the effects recorded for
an order and those applied at the seller are the first operations order-service accepted
for it, with their payloads, the seller at most one ahead; once all are recorded,
`partner_order` holds the order as it stands. No other order is in either ledger, and no
call is answered 409. -/
theorem seller_agrees_with_source (h : Run (pipeline partition) fresh initial c)
    (hfew : c.fst.store.accepted.length < 2 ^ 31) :
    (∀ o ∈ c.fst.store.db.orders, ∃ I X, Agrees c o I X) ∧
    (∀ x ∈ c.snd.store.db.partnerEffect, ∃ o ∈ c.fst.store.db.orders, x.order = key o) ∧
    (∀ e ∈ c.snd.store.api.effects, ∃ o ∈ c.fst.store.db.orders, e.order = key o) ∧
    ∀ x ∈ c.snd.store.api.attempts, x.2 ≠ .conflict409 := by
  obtain ⟨hi, hrec, -⟩ := partner_facts h hfew
  have hstreams := (Orders.reachable_streams
    (Orders.stamping_of_unrepeated (run_unrepeated h))).1
  have hbooks := (Orders.reachable_books (run_unrepeated h)).1
  have horder : ∀ e ∈ c.fst.store.accepted, ∃ o ∈ c.fst.store.db.orders, e.order = key o := by
    intro e he
    obtain ⟨o, ho, hoe⟩ := hstreams.orders e he
    refine ⟨o, ho, ?_⟩
    rw [PartnerOrderEvent.order, key, (hbooks.signed e he o ho hoe).1, hoe]
  refine ⟨fun o ho => agrees h hfew ho, fun x hx => ?_, fun e he => horder e (hi.applied e he),
    hi.accepted⟩
  obtain ⟨e, time, he, rfl⟩ := hrec x hx
  exact horder e he

/-- An order is created, confirmed and changed. The answer for its first partner request is
lost, and the relay publishes both requests again. -/
def changedOrder : List (ℕ × Orders.Act) :=
  (1, .createOrder Orders.sampleRequest) :: Orders.statements 1 6 'a' ++
  Orders.statements 1 1 'z' ++
  (1, .deliver ⟨"r", 1, .updated⟩) :: Orders.statements 1 5 'b' ++ Orders.statements 1 1 'z' ++
  (1, .change 1 ⟨3, ⟨0⟩⟩) :: Orders.statements 1 6 'c' ++ Orders.statements 1 1 'z' ++
  (2, .relay) :: Orders.statements 2 3 'z' ++ [(3, .append 1 true), (2, .abort)] ++
  (2, .relay) :: Orders.statements 2 3 'z' ++ [(3, .append 4 false), (3, .append 5 false)]

/-- An event of the order. -/
def changedOrderEvent (digit : Char) (sequence quantity : ℤ) (operation : Operation) :
    PartnerOrderEvent where
  eventId := Orders.sampleUuid digit
  runId := "api"
  sellerId := "S"
  orderId := 1
  sequence := sequence
  operation := operation
  occurredAt := 1
  schemaVersion := 1
  quantity := quantity
  price := ⟨0⟩

/-- The three records are stored, the creation is delivered, and the delivery of the change
stops once the seller has applied it. -/
def followedOrder : List (ℕ × Partner.Act) :=
  let e₁ := changedOrderEvent 'b' 1 2 .create
  let e₂ := changedOrderEvent 'c' 2 3 .change
  [(4, .start .consume), (4, .assign 0), (4, .poll [(0, 3)] 10 10 0)] ++
    Partner.statements 4 8 0 ++
    (5, .start (.claim ⟨e₁, "w", 1, 5, 1000, 10⟩)) :: Partner.statements 5 8 0 ++
    Partner.delivering 5 0 e₁ ⟨e₁.eventId, "S", "w", 1, 1, false, false⟩ ++
    (5, .start (.claim ⟨e₂, "w", 1, 5, 1000, 10⟩)) :: Partner.statements 5 6 0 ++
    (5, .start (.process ⟨e₂, some ⟨e₂.eventId, "S", "w", 1, 1, false, false⟩, "w", 1, true, true,
      10⟩)) :: Partner.statements 5 3 0 ++ [(6, .serve ⟨1, e₂⟩ false false), (5, .abort)]

theorem seller_agrees_with_changed_order :
    ∃ c, Run (pipeline fun _ => 0) fresh initial c ∧
      (c.snd.store.db.partnerEffect.map (·.seq), c.snd.store.api.effects.map (·.sequence),
        c.fst.store.accepted.map (·.sequence)) = ([1], [1, 2], [1, 2]) ∧
      ∀ o ∈ c.fst.store.db.orders, ∃ I X, Agrees c o I X := by
  obtain ⟨c, hrun, hc⟩ := Run.exists_of_exec (pipeline fun _ => 0) fresh initial
    (changedOrder.map (fun x => (x.1, .inl x.2)) ++ followedOrder.map (fun x => (x.1, .inr x.2)))
    (fun c => (c.snd.store.db.partnerEffect.map (·.seq), c.snd.store.api.effects.map (·.sequence),
      c.fst.store.accepted.map (·.sequence)))
    ([1], [1, 2], [1, 2]) (by decide +kernel)
  refine ⟨c, hrun, hc, (seller_agrees_with_source hrun ?_).1⟩
  have hlen := congrArg List.length (congrArg (fun x => x.2.2) hc)
  simp only [List.length_map, List.length_cons, List.length_nil] at hlen
  omega

end OrderSystem.Pipeline
