/-
The confirmation of an admitted order and the retained-row limit of the outbox.

A pending order was admitted by `createWithOutbox`. Its confirmation is exempt from the
business budget, in which the order is counted already, but not from the limit of 2000
retained rows, which `enqueuePartner` checks again.

* `Confirms`: the listener call of a `stock-updated` event commits the confirmation.
* `confirm_solo`, `full_refuses`: the call with room in the outbox and without.
* `confirmed_iff_room`: in every reachable state a pending order can be confirmed exactly
  while the outbox has room.
* `exists_filled`: by one cancelled order after the other the outbox fills up; with the last
  row a pending order is left behind, `pending_order_stranded`.
-/
import OrderSystem.Orders.Stream

namespace OrderSystem.Orders

open Interleaving

variable {t u : ℕ} {s s' : Store} {p p' : Proc} {a : Act} {o : Order} {uuid : String} {time : ℤ}
  {delivered : List String} {c : Config Store Proc} {event : StockEvent}

/-! ### The property -/

/-- The listener call of the event, undisturbed, commits the confirmation of its order
together with the first event of the order. -/
def Confirms (t : ℕ) (a : Act) (s : Store) (event : StockEvent) : Prop :=
  ∃ s' o, Solo service t a s (.handling event) s' (.answered (.ok o)) ∧
    s'.db.order event.orderId = some o ∧ o.status = .confirmed ∧
    ∃ e ∈ s'.db.events, e.orderId = event.orderId ∧ e.operation = .create ∧ e.sequence = 1

/-! ### Pending orders -/

/-- A pending order has no event yet, and the capacity row is there. -/
structure Unpublished (s : Store) : Prop where
  capacityRow : s.db.capacityRow = true
  pending : ∀ o ∈ s.db.orders, o.status = .pending → o.partnerSequence = 0

lemma Operates.not_pending {old : Order} {operation : Operation} (h : Operates old operation o) :
    o.status ≠ .pending := by
  cases h with
  | create hstatus => simp
  | change hstatus hseq hquantity hfinite hneg => simp [hstatus]
  | cancel hstatus hseq => simp

lemma Unpublished.put (h : Unpublished s) (ho : o.status ≠ .pending) :
    ∀ x ∈ Table.put Order.orderId o s.db.orders, x.status = .pending → x.partnerSequence = 0 := by
  intro x hx hpending
  rcases Table.mem_put.mp hx with rfl | ⟨hx, -⟩
  · exact absurd hpending ho
  · exact h.pending x hx hpending

lemma Unpublished.step (hu : Unpublished s) (h : Effect t s p s') : Unpublished s' := by
  cases h with
  | @create o row locks hp hk hcap =>
      subst hp
      obtain ⟨⟨-, -, hseq, -⟩, -⟩ := hk
      refine ⟨hu.capacityRow, fun x hx hpending => ?_⟩
      rcases List.mem_append.mp hx with hx | hx
      · exact hu.pending x hx hpending
      · rw [List.mem_singleton.mp hx]
        exact hseq
  | @enqueue o operation row locks hp hk hcap hmine =>
      subst hp
      obtain ⟨⟨old, -, hprep⟩, -⟩ := hk
      refine ⟨hu.capacityRow, hu.put ?_⟩
      cases hprep with
      | drawn hop => exact hop.not_pending
  | @cancel o locks hp hk hmine =>
      subst hp
      obtain ⟨old, -, -, rfl⟩ := hk
      exact ⟨hu.capacityRow, hu.put (by simp)⟩
  | _ => exact ⟨hu.capacityRow, hu.pending⟩

lemma reachable_unpublished {ok : Config Store Proc → ℕ → Act → Prop}
    (h : Run service ok initial c) : Unpublished c.store :=
  (Run.invariant (I := Unpublished) (J := fun _ _ _ => True)
    (K := fun c => Run service ok initial c) (fun _ h => h)
    ⟨⟨rfl, fun _ ho => absurd ho List.not_mem_nil⟩, fun _ => trivial⟩
    (fun _ _ _ _ _ hrun _ hu _ hnext => ⟨hu.step (reachable_effect hrun hnext), trivial⟩)
    (fun _ _ _ _ _ _ _ _ _ _ _ _ => trivial) h).1

/-! ### The listener call -/

lemma canLock_lock (r r' : Resource) : (s.lock t r).canLock t r' = s.canLock t r' := by
  simp [Store.canLock, Store.lock, Locks.available, Locks.acquire]

/-- The locking read finds a pending order and confirms it in memory. -/
lemma handle_pending (hlock : s.canLock t (.order event.orderId) = true)
    (hevent : event.result = .updated) (ho : s.db.order event.orderId = some o)
    (hpending : o.status = .pending) :
    service.next t s (.handling event) (.go uuid time delivered) =
      some (s.lock t (.order event.orderId),
        .inside (.enqueue { o with status := .confirmed } .create) .lockCapacity) := by
  simp [service, next, handleNext, hlock, ho, hevent, Order.confirm, Order.transitionTo, hpending]

/-- The capacity row is locked. -/
lemma lock_capacity {tx : Tx} (hlock : s.canLock t .capacity = true)
    (hrow : s.db.capacityRow = true) :
    service.next t s (.inside tx .lockCapacity) (.go uuid time delivered) =
      some (s.lock t .capacity, .inside tx .countOutbox) := by
  simp [service, next, txNext, hlock, hrow]

/-- The confirmation goes on behind the count of the rows. -/
lemma count_room (hroom : s.db.outbox.length < 2000) :
    service.next t s (.inside (.enqueue o .create) .countOutbox) (.go uuid time delivered) =
      some (s, .inside (.enqueue o .create) .saveOutbox) := by
  simp [service, next, txNext, Tx.checksBusiness, Tx.afterChecks, not_le.mpr hroom]

/-- The count refuses the confirmation. -/
lemma count_full {tx : Tx} (hfull : 2000 ≤ s.db.outbox.length) :
    service.next t s (.inside tx .countOutbox) (.go uuid time delivered) =
      some (s.unlock t, .answered (.refused
        "Source Outbox retained-row limit reached; archive before admission")) := by
  simp [service, next, txNext, refuse, hfull]

/-- The sequence is drawn and the row of the event is built. -/
lemma save_event (huuid : s.db.admits uuid) {operation : Operation} :
    service.next t s (.inside (.enqueue o operation) .saveOutbox) (.go uuid time delivered) =
      some ({ s with nextOutbox := s.nextOutbox + 1 },
        .inside (.enqueue o.nextPartnerSequence operation) (.commit (.ofPartner s.nextOutbox
          (o.nextPartnerSequence.partnerEvent uuid operation time)))) := by
  simp [service, next, txNext, huuid]

/-- **With room in the outbox the confirmation commits.** -/
lemma confirm_solo (hlock : s.canLock t .capacity = true) (hrow : s.db.capacityRow = true)
    (hroom : s.db.outbox.length < 2000) (huuid : s.db.admits uuid) :
    ∃ s', Solo service t (.go uuid time delivered) s (.inside (.enqueue o .create) .lockCapacity)
        s' (.answered (.ok o.nextPartnerSequence)) ∧
      s'.db = s.db.enqueue o.nextPartnerSequence (.ofPartner s.nextOutbox
        (o.nextPartnerSequence.partnerEvent uuid .create time)) := by
  have hcount : (s.lock t .capacity).db.outbox.length < 2000 := hroom
  have hadmits : (s.lock t .capacity).db.admits uuid := huuid
  exact ⟨_, .step (lock_capacity hlock hrow) <| .step (count_room hcount) <|
    .step (save_event hadmits) <| .step rfl (.refl _ _), rfl⟩

/-- **Without room the call never ends with the order.** -/
lemma full_refuses (hlock : s.canLock t .capacity = true) (hrow : s.db.capacityRow = true)
    (hfull : 2000 ≤ s.db.outbox.length) {tx : Tx} {r : Order} :
    ¬ Solo service t (.go uuid time delivered) s (.inside tx .lockCapacity) s'
      (.answered (.ok r)) := by
  intro h
  have hcount : 2000 ≤ (s.lock t .capacity).db.outbox.length := hfull
  have h₁ := h.after (by simp) (lock_capacity hlock hrow)
  have h₂ := h₁.after (by simp) (count_full hcount)
  have h₃ := h₂.after (by simp) (rfl : service.next _ _ (.answered _) (.go uuid time delivered) = _)
  exact absurd (h₃.stuck rfl) (by simp)

/-- With a full outbox no confirmation commits. -/
lemma not_confirms (event : StockEvent) (hu : Unpublished s)
    (ho : s.db.order event.orderId = some o)
    (hpending : o.status = .pending) (hevent : event.result = .updated)
    (horder : s.canLock t (.order event.orderId) = true) (hcap : s.canLock t .capacity = true)
    (hfull : 2000 ≤ s.db.outbox.length) :
    ¬ Confirms t (.go uuid time delivered) s event := by
  rintro ⟨s', r, hsolo, -⟩
  have hlock : (s.lock t (.order event.orderId)).canLock t .capacity = true := by
    rw [canLock_lock]
    exact hcap
  exact full_refuses hlock hu.capacityRow hfull
    (hsolo.after (by simp) (handle_pending horder hevent ho hpending))

/-- **A pending order can be confirmed exactly while the outbox has room.** The two rows the
call locks are free, and the random UUID is not in the outbox. -/
theorem confirmed_iff_room (h : Run service (fun _ _ _ => True) initial c)
    (ho : c.store.db.order event.orderId = some o) (hpending : o.status = .pending)
    (hevent : event.result = .updated) (horder : c.store.canLock t (.order event.orderId) = true)
    (hcap : c.store.canLock t .capacity = true) (huuid : c.store.db.admits uuid) :
    Confirms t (.go uuid time delivered) c.store event ↔ c.store.db.outbox.length < 2000 := by
  have hs := (reachable_sound h).1
  have hu := reachable_unpublished h
  have hkey := orderId_of_order ho
  constructor
  · intro hconfirms
    by_contra hfull
    exact not_confirms _ hu ho hpending hevent horder hcap (not_lt.mp hfull) hconfirms
  · intro hroom
    have hlock : (c.store.lock t (.order event.orderId)).canLock t .capacity = true := by
      rw [canLock_lock]
      exact hcap
    set o' : Order := { o with status := .confirmed } with ho'
    obtain ⟨s', hsolo, hdb⟩ := confirm_solo (o := o') hlock hu.capacityRow hroom huuid
    refine ⟨s', _, .step (handle_pending horder hevent ho hpending) hsolo, ?_, rfl,
      o'.nextPartnerSequence.partnerEvent uuid .create time, ?_, hkey, rfl, ?_⟩
    · rw [hdb, ← hkey]
      exact Table.get_put_self hs.orderIds o'.nextPartnerSequence
    · rw [hdb]
      exact List.mem_filterMap.mpr ⟨_, List.mem_append_right _ (List.mem_singleton_self _), rfl⟩
    · have hseq : o.partnerSequence = 0 := hu.pending o (mem_of_order ho) hpending
      change javaInt (o.partnerSequence + 1) = 1
      rw [hseq]
      exact javaInt_eq (by omega) (by omega)

/-- A first order is created and can be confirmed. -/
theorem confirmed_iff_room_created :
    ∃ c, Run service (fun _ _ _ => True) initial c ∧
      Confirms 1 (.go (sampleUuid 'b') 1 []) c.store ⟨"r", 1, .updated⟩ := by
  obtain ⟨c, hrun, hc⟩ := Run.exists_of_exec service (fun _ _ _ => True) initial
    ((1, .createOrder sampleRequest) :: statements 1 7 'a')
    (fun c => (c.store.db.order 1, c.store.canLock 1 (.order 1), c.store.canLock 1 .capacity,
      decide (c.store.db.admits (sampleUuid 'b')), c.store.db.outbox.length))
    (some { sampleRequest.toOrder with orderId := 1 }, true, true, true, 1) (by decide +kernel)
  simp only [Prod.mk.injEq] at hc
  obtain ⟨ho, horder, hcap, huuid, hlen⟩ := hc
  exact ⟨c, hrun, (confirmed_iff_room hrun ho rfl rfl horder hcap (of_decide_eq_true huuid)).mpr
    (by omega)⟩

/-! ### The outbox fills up -/

/-- The `n`-th printed UUID. -/
def fillUuid (n : ℕ) : String :=
  "00000000-0000-0000-0000-00000000" ++ String.ofList
    [(n / 1000 % 10).digitChar, (n / 100 % 10).digitChar, (n / 10 % 10).digitChar,
      (n % 10).digitChar]

lemma digitChar_inj {m n : ℕ} (hm : m < 10) (hn : n < 10) (h : m.digitChar = n.digitChar) :
    m = n := by
  have hall : ∀ i j : Fin 10, (i : ℕ).digitChar = (j : ℕ).digitChar → i = j := by decide
  exact congrArg Fin.val (hall ⟨m, hm⟩ ⟨n, hn⟩ h)

lemma fillUuid_inj {m n : ℕ} (hm : m < 10000) (hn : n < 10000) (h : fillUuid m = fillUuid n) :
    m = n := by
  have hlist := String.ofList_inj.mp ((String.append_right_inj _).mp h)
  simp only [List.cons.injEq, and_true] at hlist
  obtain ⟨h3, h2, h1, h0⟩ := hlist
  have h3 := digitChar_inj (by omega) (by omega) h3
  have h2 := digitChar_inj (by omega) (by omega) h2
  have h1 := digitChar_inj (by omega) (by omega) h1
  have h0 := digitChar_inj (by omega) (by omega) h0
  omega

/-- The outbox holds `n` creations, process 1 is free, and no order is pending. -/
structure Filled (n : ℕ) (c : Config Store Proc) : Prop where
  idle : c.procs 1 = .idle
  free : c.store.locks = []
  rows : c.store.db.outbox.length = n
  created : ∀ r ∈ c.store.db.outbox, r.topic = .orderCreated
  uuids : ∀ r ∈ c.store.db.outbox, ∃ i < n, r.eventId = fillUuid i
  settled : ∀ o ∈ c.store.db.orders, o.status ≠ .pending

/-- Creations of settled orders do not count as unfinished business. -/
lemma Filled.business {n : ℕ} (h : Filled n c) :
    c.store.db.countUnfinishedBusiness [] = 0 := by
  have horders : c.store.db.orders.filter (fun o => o.status = .pending) = [] :=
    List.filter_eq_nil_iff.mpr fun o ho => by simpa using h.settled o ho
  have houtbox : (c.store.db.outbox.filter fun r =>
      r.topic = .partnerRequests ∧ r.eventId ∉ ([] : List String)) = [] :=
    List.filter_eq_nil_iff.mpr fun r hr => by simp [h.created r hr]
  rw [Db.countUnfinishedBusiness, horders, houtbox]
  rfl

lemma Filled.admits {n : ℕ} (h : Filled n c) (hn : n < 10000) :
    c.store.db.admits (fillUuid n) := by
  intro r hr heq
  obtain ⟨i, hi, hri⟩ := h.uuids r hr
  have hin := fillUuid_inj (by omega) hn (hri.symm.trans heq)
  omega

/-- The order a creation inserts. -/
def Store.created (s : Store) (request : CreateOrderRequest) : Order :=
  { request.toOrder with orderId := s.nextOrder }

/-- A creation finds room in the outbox and in the business budget. -/
lemma count_creation (hroom : s.db.outbox.length < 2000) :
    service.next t s (.inside (.create o) .countOutbox) (.go uuid time delivered) =
      some (s, .inside (.create o) (.countBusiness s.db)) := by
  simp [service, next, txNext, Tx.checksBusiness, not_le.mpr hroom]

lemma count_business (hbusiness : s.db.countUnfinishedBusiness delivered < 200) :
    service.next t s (.inside (.create o) (.countBusiness s.db)) (.go uuid time delivered) =
      some (s, .inside (.create o) .saveOrder) := by
  simp [service, next, txNext, Tx.afterChecks, not_le.mpr hbusiness]

lemma save_creation (huuid : s.db.admits uuid) :
    service.next t s (.inside (.create o) .saveOutbox) (.go uuid time delivered) =
      some ({ s with nextOutbox := s.nextOutbox + 1 },
        .inside (.create o) (.commit (.ofOrder s.nextOutbox uuid o))) := by
  simp [service, next, txNext, huuid]

/-- A creation that finds room. -/
lemma create_solo (hfree : s.locks = []) (hrow : s.db.capacityRow = true)
    (hroom : s.db.outbox.length < 2000) (hbusiness : s.db.countUnfinishedBusiness [] < 200)
    (huuid : s.db.admits uuid) (request : CreateOrderRequest) :
    ∃ s', Solo service 1 (.go uuid 1 []) s (.inside (.create request.toOrder) .lockCapacity) s'
        .idle ∧ s'.locks = [] ∧
      s'.db = s.db.insertOrder (s.created request)
        (.ofOrder s.nextOutbox uuid (s.created request)) := by
  have hlock : s.canLock 1 .capacity = true := by simp [Store.canLock, hfree, Locks.available]
  set s₁ := s.lock 1 .capacity
  have hroom₁ : s₁.db.outbox.length < 2000 := hroom
  have hbusiness₁ : s₁.db.countUnfinishedBusiness [] < 200 := hbusiness
  have huuid₁ : ({ s₁ with nextOrder := s₁.nextOrder + 1 } : Store).db.admits uuid := huuid
  refine ⟨_, .step (lock_capacity hlock hrow) <| .step (count_creation hroom₁) <|
    .step (count_business hbusiness₁) <| .step rfl <| .step (save_creation huuid₁) <|
    .step rfl <| .step rfl (.refl _ _), ?_, rfl⟩
  simp [Store.lock, Store.unlock, Locks.acquire, Locks.release, hfree]

/-- The cancellation of a pending order by its `stock-failed` event. -/
lemma cancel_solo (event : StockEvent) (hfree : s.locks = [])
    (ho : s.db.order event.orderId = some o)
    (hpending : o.status = .pending) {reason : String} (hevent : event.result = .failed reason)
    (uuid : String) : ∃ s', Solo service 1 (.go uuid 1 []) s (.handling event) s' .idle ∧ s'.locks = [] ∧
      s'.db = s.db.updateOrder { o with status := .cancelled } := by
  have hlock : s.canLock 1 (.order event.orderId) = true := by
    simp [Store.canLock, hfree, Locks.available]
  have hhandle : service.next 1 s (.handling event) (.go uuid 1 []) =
      some (s.lock 1 (.order event.orderId), .cancelling { o with status := .cancelled }) := by
    simp [service, next, handleNext, hlock, ho, hevent, Order.cancel, Order.transitionTo, hpending]
  refine ⟨_, .step hhandle <| .step rfl <| .step rfl (.refl _ _), ?_, rfl⟩
  simp [Store.lock, Store.unlock, Locks.acquire, Locks.release, hfree]

/-- A process that is free takes a job and ends it alone. -/
lemma run_job {s' : Store} {p : Proc} {a b : Act}
    (h : Run service (fun _ _ _ => True) initial c) (hidle : c.procs 1 = .idle)
    (hstart : service.next 1 c.store .idle a = some (c.store, p))
    (hsolo : Solo service 1 b c.store p s' .idle) :
    ∃ c', Run service (fun _ _ _ => True) initial c' ∧ c'.store = s' ∧ c'.procs 1 = .idle := by
  have hstep : service.step c 1 a = some ⟨c.store, Function.update c.procs 1 p⟩ := by
    rw [Program.step, hidle, hstart]
    rfl
  exact ⟨_, (h.snoc trivial hstep).trans (hsolo.run (fun _ => trivial) c.procs), rfl,
    by simp⟩

/-- From a filled outbox with room, one more creation. -/
lemma Filled.create {n : ℕ} (h : Run service (fun _ _ _ => True) initial c) (hf : Filled n c)
    (hn : n < 2000) :
    ∃ c' : Config Store Proc, Run service (fun _ _ _ => True) initial c' ∧ c'.procs 1 = .idle ∧
      c'.store.locks = [] ∧ c'.store.db = c.store.db.insertOrder (c.store.created sampleRequest)
        (.ofOrder c.store.nextOutbox (fillUuid n) (c.store.created sampleRequest)) := by
  have hroom : c.store.db.outbox.length < 2000 := by
    rw [hf.rows]
    exact hn
  have hbusiness : c.store.db.countUnfinishedBusiness [] < 200 := by
    rw [hf.business]
    omega
  obtain ⟨s', hsolo, hlocks, hdb⟩ := create_solo hf.free (reachable_unpublished h).capacityRow
    hroom hbusiness (hf.admits (by omega)) sampleRequest
  obtain ⟨c', hrun, rfl, hidle⟩ := run_job (a := .createOrder sampleRequest) h hf.idle rfl hsolo
  exact ⟨c', hrun, hidle, hlocks, hdb⟩

/-- The new order is found under its key. -/
lemma order_created {row : OutboxRow} {db : Db} (h : Run service (fun _ _ _ => True) initial c)
    (hdb : c.store.db = db.insertOrder o row) : c.store.db.order o.orderId = some o := by
  refine (Table.get_eq_some (reachable_sound h).1.orderIds).mpr ⟨?_, rfl⟩
  rw [hdb]
  exact List.mem_append_right _ (List.mem_singleton_self _)

/-- **The outbox fills up.** -/
lemma exists_filled : ∀ n < 2000, ∃ c, Run service (fun _ _ _ => True) initial c ∧ Filled n c := by
  intro n
  induction n with
  | zero =>
      intro _
      exact ⟨initial, .nil, rfl, rfl, rfl, by simp [initial], by simp [initial], by simp [initial]⟩
  | succ n ih =>
      intro hn
      obtain ⟨c, hrun, hf⟩ := ih (by omega)
      obtain ⟨c₁, hrun₁, hidle₁, hfree₁, hdb₁⟩ := hf.create hrun (by omega)
      set o := c.store.created sampleRequest
      -- the new order is cancelled by its stock result
      have ho : c₁.store.db.order o.orderId = some o := order_created hrun₁ hdb₁
      obtain ⟨s', hsolo, hfree, hdb⟩ := cancel_solo ⟨"r", o.orderId, .failed "stock"⟩
        hfree₁ ho rfl rfl (fillUuid n)
      obtain ⟨c', hrun', rfl, hidle⟩ := run_job (a := .deliver ⟨"r", o.orderId, .failed "stock"⟩)
        hrun₁ hidle₁ rfl hsolo
      have houtbox : c'.store.db.outbox =
          c.store.db.outbox ++ [.ofOrder c.store.nextOutbox (fillUuid n) o] := by
        rw [hdb, Db.updateOrder_outbox, hdb₁, Db.insertOrder_outbox]
      refine ⟨c', hrun', hidle, hfree, ?_, fun r hr => ?_, fun r hr => ?_, fun x hx => ?_⟩
      · rw [houtbox, List.length_append, hf.rows, List.length_singleton]
      · rw [houtbox, List.mem_append, List.mem_singleton] at hr
        rcases hr with hr | rfl
        · exact hf.created r hr
        · rfl
      · rw [houtbox, List.mem_append, List.mem_singleton] at hr
        rcases hr with hr | rfl
        · obtain ⟨i, hi, hri⟩ := hf.uuids r hr
          exact ⟨i, by omega, hri⟩
        · exact ⟨n, by omega, rfl⟩
      · rw [hdb, hdb₁, Db.updateOrder_orders, Db.insertOrder_orders] at hx
        rcases Table.mem_put.mp hx with rfl | ⟨hx, hne⟩
        · simp
        · rcases List.mem_append.mp hx with hx | hx
          · exact hf.settled x hx
          · rw [List.mem_singleton.mp hx] at hne
            exact absurd rfl hne

/-- **A pending order can be stranded**: the creation that takes the last row of the outbox
leaves an order that its `stock-updated` event cannot confirm. -/
theorem pending_order_stranded :
    ¬ ∀ c, Run service (fun _ _ _ => True) initial c → ∀ t event o uuid time delivered,
      c.store.db.order event.orderId = some o → o.status = .pending → event.result = .updated →
      c.store.canLock t (.order event.orderId) = true → c.store.canLock t .capacity = true →
      c.store.db.admits uuid → Confirms t (.go uuid time delivered) c.store event := by
  intro hall
  obtain ⟨c, hrun, hf⟩ := exists_filled 1999 (by omega)
  obtain ⟨c', hrun', -, hfree, hdb⟩ := hf.create hrun (by omega)
  set o := c.store.created sampleRequest
  have ho : c'.store.db.order o.orderId = some o := order_created hrun' hdb
  have houtbox : c'.store.db.outbox =
      c.store.db.outbox ++ [.ofOrder c.store.nextOutbox (fillUuid 1999) o] := by
    rw [hdb, Db.insertOrder_outbox]
  have hfull : 2000 ≤ c'.store.db.outbox.length := by
    rw [houtbox, List.length_append, hf.rows, List.length_singleton]
  have huuid : c'.store.db.admits (fillUuid 2000) := by
    intro r hr heq
    rw [houtbox, List.mem_append, List.mem_singleton] at hr
    rcases hr with hr | rfl
    · obtain ⟨i, hi, hri⟩ := hf.uuids r hr
      have := fillUuid_inj (by omega) (by omega) (hri.symm.trans heq)
      omega
    · have := fillUuid_inj (by omega) (by omega) heq
      omega
  have hlock : ∀ r, c'.store.canLock 1 r = true := fun r => by
    simp [Store.canLock, hfree, Locks.available]
  exact not_confirms ⟨"r", o.orderId, .updated⟩ (reachable_unpublished hrun') ho rfl
    rfl (hlock _) (hlock _) hfull
    (hall c' hrun' 1 _ o (fillUuid 2000) 1 [] ho rfl rfl (hlock _) (hlock _) huuid)

end OrderSystem.Orders
