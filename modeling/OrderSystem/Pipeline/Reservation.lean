/-
From the stock reservation to the outcome of an order: inventory-service and order-service.

* `reservation`: the two services side by side.
* `reserving`: the environment. Order-created events reach the handlers in any order and
  number; a stock event that is delivered to order-service is a result inventory-service has
  committed to its outbox. Order-service keeps the rows of its outbox, as it does unless
  `app.outbox-retention-ms` is set.
* `Decided`: an order is confirmed by a result that the stock was updated, and without
  partner events it is cancelled by one that it was not.
* `Agreement`: stock, history, results and orders agree; `stock_and_outcome_agree` holds in
  every reachable state.
-/
import OrderSystem.Foundations.Coupling
import OrderSystem.Orders.Stream
import OrderSystem.Stock.Ledger

namespace OrderSystem.Pipeline

open Interleaving
open Stock (Inventory OnePerOrder OneRowPerProduct)
open Orders (Order eventsOf)

/-! ### The two services -/

/-- inventory-service and order-service. -/
def reservation (idempotencyEnabled : Bool) (fold : String → String) :
    Program (Stock.Store × Orders.Store) (Stock.Proc × Orders.Proc) (Stock.Act ⊕ Orders.Act) :=
  (Stock.service idempotencyEnabled fold).couple Orders.service fun _ _ => none

/-- A configuration of the two services. -/
abbrev ReservationState := Config (Stock.Store × Orders.Store) (Stock.Proc × Orders.Proc)

/-- The stock before the first order. -/
def beforeOrders (stock : List Inventory) : ReservationState :=
  Config.pair (Stock.initial stock) Orders.initial

/-- The results inventory-service has committed. -/
def results (s : Stock.Store) : List StockEvent := s.db.outbox.map (·.payload)

/-- The stock events of an action are committed results. -/
def committed (s : Stock.Store) (a : Orders.Act) : Prop :=
  match a with
  | .deliver ev => ev ∈ results s
  | _ => True

instance (s : Stock.Store) (a : Orders.Act) : Decidable (committed s a) :=
  match a with
  | .deliver ev => inferInstanceAs (Decidable (ev ∈ results s))
  | .createOrder _ | .change _ _ | .cancel _ | .relay | .go _ _ _ | .fail | .append _ _
  | .purge _ _ | .abort => isTrue trivial

/-- The environment of the two services. -/
def reserving (events : List OrderCreatedEvent) (c : ReservationState) (t : ℕ) :
    Stock.Act ⊕ Orders.Act → Prop
  | .inl a => Stock.delivers events c.fst t a
  | .inr a => Orders.retained c.snd t a ∧ committed c.store.1 a

variable {idempotencyEnabled : Bool} {fold : String → String} {events : List OrderCreatedEvent}
  {stock : List Inventory} {c : ReservationState}

lemma run_stock (h : Run (reservation idempotencyEnabled fold) (reserving events)
    (beforeOrders stock) c) :
    Run (Stock.service idempotencyEnabled fold) (Stock.delivers events) (Stock.initial stock)
      c.fst :=
  h.fst fun _ _ _ hok => hok

lemma run_reserved (h : Run (reservation idempotencyEnabled fold) (reserving events)
    (beforeOrders stock) c) : Run Orders.service Orders.retained Orders.initial c.snd :=
  h.snd (fun _ _ _ _ _ hsync => by cases hsync) fun _ _ _ hok => hok.1

/-! ### Orders and results -/

/-- A result says that the stock of the order was updated. -/
def Updated (rs : List StockEvent) (orderId : ℤ) : Prop :=
  ∃ ev ∈ rs, ev.orderId = orderId ∧ ev.result = .updated

/-- A result says that it was not. -/
def Failed (rs : List StockEvent) (orderId : ℤ) : Prop :=
  ∃ ev ∈ rs, ev.orderId = orderId ∧ ∃ reason, ev.result = .failed reason

/-- The events and the status of an order follow its result. -/
structure Decided (rs : List StockEvent) (orders : List Order)
    (accepted : List PartnerOrderEvent) : Prop where
  published : ∀ e ∈ accepted, Updated rs e.orderId
  confirmed : ∀ o ∈ orders, o.status = .confirmed → Updated rs o.orderId
  cancelled : ∀ o ∈ orders, o.status = .cancelled →
    Failed rs o.orderId ∨ ∃ e ∈ accepted, e.orderId = o.orderId

/-- What a process of order-service is about to do follows a result. -/
def follows (rs : List StockEvent) : Orders.Proc → Prop
  | .handling ev => ev ∈ rs
  | .inside (.enqueue o .create) _ => Updated rs o.orderId
  | .cancelling o => Failed rs o.orderId
  | _ => True

section Results

variable {rs rs' : List StockEvent} {orders : List Order} {accepted : List PartnerOrderEvent}
  {id : ℤ} {t : ℕ} {s s' : Orders.Store} {p p' : Orders.Proc} {a : Orders.Act}

lemma Updated.later (h : Updated rs id) (hrs : rs ⊆ rs') : Updated rs' id := by
  obtain ⟨ev, hev, hrest⟩ := h
  exact ⟨ev, hrs hev, hrest⟩

lemma Failed.later (h : Failed rs id) (hrs : rs ⊆ rs') : Failed rs' id := by
  obtain ⟨ev, hev, hrest⟩ := h
  exact ⟨ev, hrs hev, hrest⟩

lemma Decided.later (h : Decided rs orders accepted) (hrs : rs ⊆ rs') :
    Decided rs' orders accepted :=
  ⟨fun e he => (h.published e he).later hrs, fun o ho hc => (h.confirmed o ho hc).later hrs,
    fun o ho hc => (h.cancelled o ho hc).imp_left (·.later hrs)⟩

lemma follows_later (h : follows rs p) (hrs : rs ⊆ rs') : follows rs' p := by
  cases p with
  | handling ev => exact hrs h
  | inside tx pc =>
      cases tx with
      | create o => trivial
      | enqueue o operation =>
          cases operation with
          | create => exact Updated.later h hrs
          | _ => trivial
  | cancelling o => exact Failed.later h hrs
  | _ => trivial

/-- The statements of a transaction keep its order and its operation. -/
lemma txNext_enqueue {tx tx' : Orders.Tx} {uuid : String} {time : ℤ} {delivered : List String}
    {pc pc' : Orders.TxPc}
    (h : Orders.txNext t s tx uuid time delivered pc = some (s', .inside tx' pc'))
    {o' : Order} {operation : Operation} (htx : tx' = .enqueue o' operation) :
    ∃ o, tx = .enqueue o operation ∧ o'.orderId = o.orderId := by
  subst htx
  cases pc with
  | saveOutbox =>
      simp only [Orders.txNext] at h
      split_ifs at h
      · split at h <;> cases h
        exact ⟨_, rfl, rfl⟩
      · cases h
  | _ =>
      simp only [Orders.txNext, Orders.refuse] at h
      (repeat' split at h) <;>
        first
          | (cases h; exact ⟨_, rfl, rfl⟩)
          | cases h

/-- A statement of a transaction is followed by another one, or by the answer. -/
lemma txNext_proc {tx : Orders.Tx} {uuid : String} {time : ℤ} {delivered : List String}
    {pc : Orders.TxPc} (h : Orders.txNext t s tx uuid time delivered pc = some (s', p')) :
    (∃ tx' pc', p' = .inside tx' pc') ∨ ∃ r, p' = .answered r := by
  cases pc <;> simp only [Orders.txNext, Orders.refuse] at h
  all_goals
    (repeat' split at h) <;>
      first
        | (cases h; exact Or.inl ⟨_, _, rfl⟩)
        | (cases h; exact Or.inr ⟨_, rfl⟩)
        | cases h

/-- A step of order-service follows the results that were delivered. -/
lemma next_follows (hok : ∀ ev, a = .deliver ev → ev ∈ rs) (hf : follows rs p)
    (h : Orders.next t s p a = some (s', p')) : follows rs p' := by
  cases Orders.next_move h with
  | deliver event => exact hok event rfl
  | @mutate id quantity price cancel uuid time delivered _ _ h =>
      obtain ⟨_, h⟩ | ⟨o, o', -, -, -, -, -, rfl⟩ := Orders.mutateNext_cases h
      · cases h
        trivial
      · cases cancel <;> trivial
  | @handle event uuid time delivered _ _ h =>
      obtain ⟨-, rfl⟩ | ⟨o, o', -, ho, -, ⟨hr, ho', rfl⟩ | ⟨hr, ho', rfl⟩⟩ :=
        Orders.handleNext_cases h
      · trivial
      · have hid : o'.orderId = event.orderId :=
          (Orders.orderId_transitionTo ho').trans (Orders.orderId_of_order ho)
        exact ⟨event, hf, hid.symm, hr⟩
      · have hid : o'.orderId = event.orderId :=
          (Orders.orderId_transitionTo ho').trans (Orders.orderId_of_order ho)
        cases hres : event.result with
        | updated => exact absurd hres hr
        | failed reason => exact ⟨event, hf, hid.symm, reason, hres⟩
  | inside h =>
      obtain ⟨tx', pc', rfl⟩ | ⟨r, rfl⟩ := txNext_proc h
      · cases tx' with
        | create o => trivial
        | enqueue o' operation =>
            cases operation with
            | create =>
                obtain ⟨o, rfl, hid⟩ := txNext_enqueue h rfl
                show Updated rs o'.orderId
                rw [hid]
                exact hf
            | _ => trivial
      · trivial
  | relaying h =>
      unfold Orders.relayNext at h
      split at h <;> try split_ifs at h
      all_goals (cases h; trivial)
  | _ => trivial

/-- The commit of a partner operation follows a result. -/
lemma Decided.enqueue {old o : Order} {operation : Operation} (hd : Decided rs orders accepted)
    (hold : old ∈ orders) (hop : Orders.Operates old operation o)
    (hf : operation = .create → Updated rs o.orderId) (uuid : String) (time : ℤ) :
    Decided rs (Table.put Order.orderId o.nextPartnerSequence orders)
      (accepted ++ [o.nextPartnerSequence.partnerEvent uuid operation time]) := by
  have hid : o.orderId = old.orderId := hop.orderId
  -- an order is changed or cancelled only after its confirmation
  have hupdated : Updated rs o.orderId := by
    cases hop with
    | create hpending => exact hf rfl
    | change hconfirmed => exact hd.confirmed old hold hconfirmed
    | cancel hconfirmed => exact hd.confirmed old hold hconfirmed
  refine ⟨fun e he => ?_, fun x hx hc => ?_, fun x hx hc => ?_⟩
  · rcases List.mem_append.mp he with he | he
    · exact hd.published e he
    · rw [List.mem_singleton.mp he]
      exact hupdated
  · rcases Table.mem_put.mp hx with rfl | ⟨hx, -⟩
    · exact hupdated
    · exact hd.confirmed x hx hc
  · rcases Table.mem_put.mp hx with rfl | ⟨hx, -⟩
    · exact Or.inr ⟨_, List.mem_append_right _ (List.mem_singleton_self _), rfl⟩
    · refine (hd.cancelled x hx hc).imp_right ?_
      rintro ⟨e, he, horder⟩
      exact ⟨e, List.mem_append_left _ he, horder⟩

/-- **A step of order-service follows the results.** -/
lemma Decided.step (hd : Decided rs s.db.orders s.accepted) (hf : follows rs p)
    (h : Orders.Effect t s p s') : Decided rs s'.db.orders s'.accepted := by
  cases h with
  | @create o row locks hp hk hcap =>
      subst hp
      obtain ⟨⟨-, hpending, -, -⟩, -, hwrites⟩ := hk
      have hrow : row.partner = none := by
        rw [show row = _ from hwrites]
        rfl
      show Decided rs (s.db.orders ++ [o]) ((s.written ++ [row]).filterMap Orders.OutboxRow.partner)
      rw [Orders.accepted_append, hrow, Option.toList_none, List.append_nil]
      refine ⟨hd.published, fun x hx hc => ?_, fun x hx hc => ?_⟩
      · rcases List.mem_append.mp hx with hx | hx
        · exact hd.confirmed x hx hc
        · rw [List.mem_singleton.mp hx, hpending] at hc
          cases hc
      · rcases List.mem_append.mp hx with hx | hx
        · exact hd.cancelled x hx hc
        · rw [List.mem_singleton.mp hx, hpending] at hc
          cases hc
  | @enqueue o operation row locks hp hk hcap hmine =>
      subst hp
      obtain ⟨⟨old, hold, hprep⟩, -, uuid, time, hrow⟩ := hk
      have hpartner : row.partner = some (o.partnerEvent uuid operation time) := by
        rw [hrow]
        rfl
      show Decided rs (Table.put Order.orderId o s.db.orders)
        ((s.written ++ [row]).filterMap Orders.OutboxRow.partner)
      rw [Orders.accepted_append, hpartner]
      have hcreate : operation = .create → Updated rs o.orderId := by
        rintro rfl
        exact hf
      cases hprep with
      | drawn hop => exact hd.enqueue (Orders.mem_of_order hold) hop hcreate uuid time
  | @cancel o locks hp hk hmine =>
      subst hp
      obtain ⟨old, -, -, rfl⟩ := hk
      refine ⟨hd.published, fun x hx hc => ?_, fun x hx hc => ?_⟩
      · rcases Table.mem_put.mp hx with rfl | ⟨hx, -⟩
        · cases hc
        · exact hd.confirmed x hx hc
      · rcases Table.mem_put.mp hx with rfl | ⟨hx, -⟩
        · exact Or.inl hf
        · exact hd.cancelled x hx hc
  | _ => exact hd

end Results

/-! ### Every run -/

/-- The orders follow the results in every run. -/
theorem reachable_decided (hE : OnePerOrder events) (hstock : OneRowPerProduct fold stock)
    (h : Run (reservation idempotencyEnabled fold) (reserving events) (beforeOrders stock) c) :
    Decided (results c.store.1) c.store.2.db.orders c.store.2.accepted ∧
      ∀ t, follows (results c.store.1) (c.procs t).2 := by
  refine Run.invariant (I := fun s => Decided (results s.1) s.2.db.orders s.2.accepted)
    (J := fun _ s p => follows (results s.1) p.2)
    (K := fun c => Run (reservation idempotencyEnabled fold) (reserving events)
      (beforeOrders stock) c) (fun _ h => h) ?_ ?_ ?_ h
  · exact ⟨⟨by simp [beforeOrders, Config.pair, Orders.initial, Orders.Store.accepted],
      by simp [beforeOrders, Config.pair, Orders.initial],
      by simp [beforeOrders, Config.pair, Orders.initial]⟩, fun _ => trivial⟩
  · intro c t a s' p' hrun hok hd hf hnext
    cases a with
    | inl a =>
        obtain ⟨hnext, ⟨-, hs, hp⟩ | ⟨b, hb, -⟩⟩ := Program.couple_inl hnext
        · have hrs : results c.store.1 ⊆ results s'.1 := fun ev hev =>
            (Stock.reachable_change hE hstock (run_stock hrun) hnext).result hev
          rw [hs, hp]
          exact ⟨hd.later hrs, follows_later (hf t) hrs⟩
        · cases hb
    | inr a =>
        obtain ⟨hnext, hs, -⟩ := Program.couple_inr hnext
        rw [hs]
        refine ⟨hd.step (hf t) (Orders.reachable_effect (run_reserved hrun) hnext),
          next_follows ?_ (hf t) hnext⟩
        rintro ev rfl
        exact hok.2
  · intro c t a s' p' u hrun hok hd hf hnext hut
    cases a with
    | inl a =>
        have hnext := (Program.couple_inl hnext).1
        exact follows_later (hf u) fun ev hev =>
          (Stock.reachable_change hE hstock (run_stock hrun) hnext).result hev
    | inr a =>
        rw [(Program.couple_inr hnext).2.1]
        exact hf u

/-- A committed result stays committed. -/
lemma results_mono (hE : OnePerOrder events) (hstock : OneRowPerProduct fold stock)
    {c₀ : ReservationState}
    (h₀ : Run (reservation idempotencyEnabled fold) (reserving events) (beforeOrders stock) c₀)
    (h : Run (reservation idempotencyEnabled fold) (reserving events) c₀ c) :
    results c₀.store.1 ⊆ results c.store.1 := by
  induction h with
  | nil => exact List.Subset.refl _
  | @snoc c c' t a hrun hok hstep ih =>
      refine List.Subset.trans ih ?_
      obtain ⟨s', p', hnext, rfl⟩ := (reservation idempotencyEnabled fold).step_eq_some hstep
      cases a with
      | inl a =>
          have hnext := (Program.couple_inl hnext).1
          exact fun ev hev =>
            (Stock.reachable_change hE hstock (run_stock (h₀.trans hrun)) hnext).result hev
      | inr a =>
          obtain ⟨-, hs, -⟩ := Program.couple_inr hnext
          intro ev hev
          show ev ∈ results s'.1
          rw [hs]
          exact hev

/-! ### The result -/

/-- The result of the order is the only one, under its topic. -/
def resultIs (db : Stock.Db) (orderId : ℤ) (topic : Stock.Topic) : Prop :=
  ∃ r, db.resultsOf orderId = [r] ∧ r.topic = topic

/-- What the tables of the two services say about the stock and the orders. -/
structure Agreement (fold : String → String) (events : List OrderCreatedEvent)
    (stock : List Inventory) (db : Stock.Db) (orders : List Order) : Prop where
  products : ∀ p ∈ stock, ∃ inv ∈ db.inventories, inv.inventoryId = p.inventoryId
  stock : ∀ inv ∈ db.inventories, ∃ p ∈ stock, p.inventoryId = inv.inventoryId ∧
    p.productCode = inv.productCode ∧ 0 ≤ inv.stockQuantity ∧
    inv.stockQuantity = p.stockQuantity + db.deltas events fold inv.productCode
  history : Table.Unique Stock.StockHistory.eventId db.stockHistory
  result : ∀ h ∈ db.stockHistory, ∃ e ∈ events, e.eventId = h.eventId ∧ e.orderId = h.orderId ∧
    ∃ r, db.resultsOf h.orderId = [r] ∧ (r.topic = .stockUpdated ↔ h.delta = -e.quantity) ∧
      (r.topic = .stockUpdateFailed ↔ h.delta = 0)
  confirmed : ∀ o ∈ orders, o.status = .confirmed → resultIs db o.orderId .stockUpdated
  cancelled : ∀ o ∈ orders, o.status = .cancelled → o.partnerSequence = 0 →
    resultIs db o.orderId .stockUpdateFailed

lemma Updated.resultIs {db : Stock.Db} {id : ℤ} (h : Updated (db.outbox.map (·.payload)) id)
    (hs : Stock.Sound fold events stock db) : resultIs db id .stockUpdated := by
  obtain ⟨ev, hev, rfl, hresult⟩ := h
  obtain ⟨r, hr, rfl⟩ := List.mem_map.mp hev
  obtain ⟨honly, htopic, -⟩ := hs.resultOf hr
  exact ⟨r, honly, htopic hresult⟩

lemma Failed.resultIs {db : Stock.Db} {id : ℤ} (h : Failed (db.outbox.map (·.payload)) id)
    (hs : Stock.Sound fold events stock db) : resultIs db id .stockUpdateFailed := by
  obtain ⟨ev, hev, rfl, reason, hresult⟩ := h
  obtain ⟨r, hr, rfl⟩ := List.mem_map.mp hev
  obtain ⟨honly, -, htopic⟩ := hs.resultOf hr
  exact ⟨r, honly, htopic reason hresult⟩

/-- **Stock and order outcome agree.** The stock of a product is its initial stock plus the
deltas of its events and never negative, an event id has at most one history row and with it
exactly one result, which tells its delta, and an order that was CONFIRMED, or CANCELLED
without partner operations, at any time `c₀` has the result that says so ever after. -/
theorem stock_and_outcome_agree (hE : OnePerOrder events) (hstock : OneRowPerProduct fold stock)
    {c₀ : ReservationState}
    (h₀ : Run (reservation idempotencyEnabled fold) (reserving events) (beforeOrders stock) c₀)
    (h : Run (reservation idempotencyEnabled fold) (reserving events) c₀ c) :
    Agreement fold events stock c.store.1.db c₀.store.2.db.orders := by
  have hsound : Stock.Sound fold events stock c.store.1.db :=
    (Stock.reachable_sound hE hstock (run_stock (h₀.trans h))).1
  have hdecided := (reachable_decided hE hstock h₀).1.later (results_mono hE hstock h₀ h)
  refine ⟨fun p hp => ?_, hsound.stock, hsound.history, fun x hx => ?_, fun o ho hc => ?_,
    fun o ho hc hseq => ?_⟩
  · have hmem : (p.inventoryId, p.productCode) ∈
        c.store.1.db.inventories.map fun i => (i.inventoryId, i.productCode) := by
      rw [hsound.rows]
      exact List.mem_map_of_mem hp
    obtain ⟨inv, hinv, heq⟩ := List.mem_map.mp hmem
    exact ⟨inv, hinv, congrArg Prod.fst heq⟩
  · obtain ⟨e, he, hid, horder, r, hr, hout⟩ := hsound.settled x hx
    exact ⟨e, he, hid, horder, r, hr, hout.topic (hE.quantity e he)⟩
  · exact (hdecided.confirmed o ho hc).resultIs hsound
  · rcases hdecided.cancelled o ho hc with hfailed | ⟨e, he, horder⟩
    · exact hfailed.resultIs hsound
    · -- an order with a partner event has a sequence
      have hstream := (Orders.reachable_stream (run_reserved h₀) ho).sequence
      have hmem : e ∈ eventsOf o.orderId c₀.store.2.accepted :=
        List.mem_filter.mpr ⟨he, by simpa using horder⟩
      have hpos := List.length_pos_of_mem hmem
      have hzero : o.partnerSequence = 0 := hseq
      have hlen : o.partnerSequence = ((eventsOf o.orderId c₀.store.2.accepted).length : ℤ) :=
        hstream
      omega

/-- An order of two pieces and an order of nine, with a stock of five. -/
def sampleEvents : List OrderCreatedEvent :=
  [⟨"e1", 1, "P", 2, ⟨0⟩⟩, ⟨"e2", 2, "P", 9, ⟨0⟩⟩]

/-- An action of inventory-service and the `n` statements after it. -/
def handling (t : ℕ) (e : OrderCreatedEvent) (n : ℕ) (uuid : String) :
    List (ℕ × (Stock.Act ⊕ Orders.Act)) :=
  (t, .inl (.deliver e)) :: List.replicate n (t, .inl (.go uuid))

/-- An action of order-service and the `n` statements after it. -/
def ordering (t : ℕ) (a : Orders.Act) (n : ℕ) (digit : Char) :
    List (ℕ × (Stock.Act ⊕ Orders.Act)) :=
  ((t, a) :: Orders.statements t n digit).map fun x => (x.1, .inr x.2)

/-- Both orders are created, their events handled, the first one twice, and the results
delivered. -/
def reservationRun : List (ℕ × (Stock.Act ⊕ Orders.Act)) :=
  ordering 1 (.createOrder Orders.sampleRequest) 7 'a' ++
  ordering 2 (.createOrder Orders.sampleRequest) 7 'b' ++
  handling 3 ⟨"e1", 1, "P", 2, ⟨0⟩⟩ 9 "r1" ++ handling 4 ⟨"e1", 1, "P", 2, ⟨0⟩⟩ 1 "r3" ++
  handling 3 ⟨"e2", 2, "P", 9, ⟨0⟩⟩ 7 "r2" ++
  ordering 2 (.deliver ⟨"r2", 2, .failed "Insufficient stock"⟩) 2 'c' ++
  ordering 1 (.deliver ⟨"r1", 1, .updated⟩) 5 'd'

instance (events : List OrderCreatedEvent) (c : ReservationState) (t : ℕ)
    (a : Stock.Act ⊕ Orders.Act) : Decidable (reserving events c t a) :=
  match a with
  | .inl (.deliver e) => decidable_of_iff (e ∈ events)
      ⟨fun h x hx => by cases hx; exact h, fun h => h e rfl⟩
  | .inl (.go _) | .inl (.markSent _) | .inl .abort => isTrue fun _ h => by cases h
  | .inr a => inferInstanceAs (Decidable (Orders.retained c.snd t a ∧ committed c.store.1 a))

theorem agreement_of_two_orders :
    ∃ c, Run (reservation true id) (reserving sampleEvents) (beforeOrders [⟨1, "P", 5, 0⟩]) c ∧
      (c.store.1.db.inventories.map (·.stockQuantity), c.store.1.db.stockHistory.map (·.delta),
        c.store.1.db.outbox.map (·.topic), c.store.2.db.orders.map (·.status)) =
        ([3], [-2, 0], [.stockUpdated, .stockUpdateFailed], [.confirmed, .cancelled]) ∧
      Agreement id sampleEvents [⟨1, "P", 5, 0⟩] c.store.1.db c.store.2.db.orders := by
  obtain ⟨c, hrun, hc⟩ := Run.exists_of_exec (reservation true id) (reserving sampleEvents)
    (beforeOrders [⟨1, "P", 5, 0⟩]) reservationRun
    (fun c => (c.store.1.db.inventories.map (·.stockQuantity),
      c.store.1.db.stockHistory.map (·.delta), c.store.1.db.outbox.map (·.topic),
      c.store.2.db.orders.map (·.status)))
    ([3], [-2, 0], [.stockUpdated, .stockUpdateFailed], [.confirmed, .cancelled])
    (by decide +kernel)
  exact ⟨c, hrun, hc, stock_and_outcome_agree
    ⟨by simp [Table.Unique, sampleEvents], by simp [Table.Unique, sampleEvents], by decide⟩
    ⟨by simp [Table.Unique], by simp [Table.Unique], by decide⟩ hrun .nil⟩

end OrderSystem.Pipeline
