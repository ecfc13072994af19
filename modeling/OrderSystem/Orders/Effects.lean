/-
What one step of a reachable state does to the tables of order-service.

* `Operates`: the transitions of an order that are published, from the committed row
  to the entity in memory; `Prepared` adds the sequence once it is drawn.
* `Proc.knows`: what a process may rely on because of its locks. The row it changes
  is the committed one, the keys it writes are free, and there is room in the
  outbox.
* `Effect`: every change of the store a step can make; `reachable_effect`.
* `Sound`: the keys of the tables.
-/
import OrderSystem.Orders.Steps

namespace OrderSystem.Orders

open Interleaving

variable {t u : ℕ} {s s' : Store} {p p' : Proc} {a : Act}

/-! ### What a process may rely on -/

/-- What the checks of the controller promise of an order. -/
structure Order.Checked (o : Order) : Prop where
  quantity : 0 < o.quantity
  finite : o.price.isFinite = true
  nonneg : o.price.ltZero = false
  seller : sellerPattern o.sellerId = true
  run : javaLength o.runId ≤ 64

lemma checked_toOrder {r : CreateOrderRequest} (h : r.isInvalid = false) : r.toOrder.Checked := by
  obtain ⟨productCode, quantity, price, sellerId, runId⟩ := r
  simp only [CreateOrderRequest.isInvalid, Bool.or_eq_false_iff, decide_eq_false_iff_not, not_le,
    Bool.not_eq_false'] at h
  obtain ⟨⟨⟨⟨⟨-, hquantity⟩, hneg⟩, hfinite⟩, hrun⟩, hseller⟩ := h
  refine ⟨hquantity, hfinite, hneg, ?_, ?_⟩
  · cases sellerId with
    | none =>
        show sellerPattern "legacy" = true
        decide
    | some seller =>
        show sellerPattern seller = true
        simpa using hseller
  · cases runId with
    | none =>
        show javaLength "api" ≤ 64
        decide
    | some run =>
        simp only [Bool.or_eq_false_iff, decide_eq_false_iff_not, not_lt] at hrun
        exact hrun.2

/-- The transitions that are published. -/
inductive Operates (o : Order) : Operation → Order → Prop
  | create (h : o.status = .pending) : Operates o .create { o with status := .confirmed }
  | change {quantity : ℤ} {price : Double} (h : o.status = .confirmed)
      (hseq : o.partnerSequence ≠ 0) (hquantity : 0 < quantity) (hfinite : price.isFinite = true)
      (hneg : price.ltZero = false) :
      Operates o .change { o with quantity := quantity, price := price }
  | cancel (h : o.status = .confirmed) (hseq : o.partnerSequence ≠ 0) :
      Operates o .cancel { o with status := .cancelled }

/-- The entity in memory, before or after the sequence is drawn. -/
inductive Prepared (old : Order) (operation : Operation) : Bool → Order → Prop
  | operated {o : Order} (h : Operates old operation o) : Prepared old operation false o
  | drawn {o : Order} (h : Operates old operation o) :
      Prepared old operation true o.nextPartnerSequence

lemma Operates.orderId {old o : Order} {operation : Operation} (h : Operates old operation o) :
    o.orderId = old.orderId := by
  cases h <;> rfl

lemma Prepared.orderId {old o : Order} {operation : Operation} {drawn : Bool}
    (h : Prepared old operation drawn o) : o.orderId = old.orderId := by
  cases h with
  | operated h => exact h.orderId
  | drawn h => exact h.orderId

/-- A row that is about to be inserted into the outbox. -/
structure NewRow (s : Store) (row : OutboxRow) : Prop where
  room : s.db.outbox.length < 2000
  last : ∀ r ∈ s.written, r.id < row.id
  bound : row.id < s.nextOutbox
  pending : row.status = .pending
  admits : s.db.admits row.eventId

/-- The row belongs to the transaction. -/
def Tx.writes (row : OutboxRow) : Tx → Prop
  | .create o => row = .ofOrder row.id row.eventId o
  | .enqueue o operation => ∃ uuid time, row = .ofPartner row.id (o.partnerEvent uuid operation time)

/-- The order has its key. -/
def TxPc.saved : TxPc → Bool
  | .saveOutbox | .commit _ => true
  | _ => false

/-- The sequence is drawn. -/
def TxPc.drawn : TxPc → Bool
  | .commit _ => true
  | _ => false

/-- What a transaction may rely on about its order. -/
def Tx.knows (s : Store) (pc : TxPc) : Tx → Prop
  | .create o => o.Checked ∧ o.status = .pending ∧ o.partnerSequence = 0 ∧
      (pc.saved = true → s.db.order o.orderId = none ∧ 0 < o.orderId ∧ o.orderId < s.nextOrder)
  | .enqueue o operation =>
      ∃ old, s.db.order o.orderId = some old ∧ Prepared old operation pc.drawn o

/-- What a transaction may rely on about the outbox. -/
def TxPc.knows (s : Store) (tx : Tx) : TxPc → Prop
  | .lockCapacity | .countOutbox => True
  | .countBusiness _ | .saveOrder | .saveOutbox => s.db.outbox.length < 2000
  | .commit row => NewRow s row ∧ tx.writes row

/-- What a process may rely on. -/
def Proc.knows (s : Store) : Proc → Prop
  | .mutating _ quantity price cancel => cancel = false →
      0 < quantity ∧ price.isFinite = true ∧ price.ltZero = false
  | .inside tx pc => tx.knows s pc ∧ pc.knows s tx
  | .cancelling o => ∃ old, s.db.order o.orderId = some old ∧ old.status = .pending ∧
      o = { old with status := .cancelled }
  | _ => True

/-! ### Effects -/

/-- The changes of the store a step of process `t` in local state `p` can
make. -/
inductive Effect (t : ℕ) (s : Store) (p : Proc) : Store → Prop
  | quiet (locks : Locks.Table Resource) {orders : ℤ} {rows : ℕ} (ho : s.nextOrder ≤ orders)
      (hr : s.nextOutbox ≤ rows) :
      Effect t s p { s with locks := locks, nextOrder := orders, nextOutbox := rows }
  | create {o : Order} {row : OutboxRow} (locks : Locks.Table Resource)
      (hp : p = .inside (.create o) (.commit row)) (hk : p.knows s)
      (hcap : Locks.Mine s.locks t .capacity) :
      Effect t s p { s with db := s.db.insertOrder o row, locks := locks
                            written := s.written ++ [row] }
  | enqueue {o : Order} {operation : Operation} {row : OutboxRow}
      (locks : Locks.Table Resource) (hp : p = .inside (.enqueue o operation) (.commit row))
      (hk : p.knows s) (hcap : Locks.Mine s.locks t .capacity)
      (hmine : Locks.Mine s.locks t (.order o.orderId)) :
      Effect t s p { s with db := s.db.enqueue o row, locks := locks
                            written := s.written ++ [row] }
  | cancel {o : Order} (locks : Locks.Table Resource) (hp : p = .cancelling o) (hk : p.knows s)
      (hmine : Locks.Mine s.locks t (.order o.orderId)) :
      Effect t s p { s with db := s.db.updateOrder o, locks := locks }
  | send {r : OutboxRow} {todo : List OutboxRow} {sends : List (ℕ × OutboxRow)}
      (hp : p = .relaying (.sending (r :: todo) sends)) :
      Effect t s p { s with inFlight := s.inFlight ++ [(s.nextSend, r)]
                            nextSend := s.nextSend + 1 }
  | append {n : ℕ} {r : OutboxRow} (lost : Bool) (hp : p = .idle) (h : (n, r) ∈ s.inFlight) :
      Effect t s p { s with inFlight := s.inFlight.filter fun x => x.1 ≠ n
                            broker := s.broker ++ [r]
                            acked := if lost then s.acked else s.acked ++ [n] }
  | markSent {sent : List ℕ} (time : ℤ) (hp : p = .relaying (.marking sent)) :
      Effect t s p { s with db := s.db.markSent sent time }
  | purge {ids : List ℕ} (hp : p = .relaying .purging)
      (h : ∀ r ∈ s.db.outbox, r.id ∈ ids → r.status = .sent) :
      Effect t s p { s with db := s.db.deleteSent ids }

namespace Effect

lemma refl : Effect t s p s := .quiet s.locks le_rfl le_rfl

lemma lock (r : Resource) : Effect t s p (s.lock t r) := .quiet _ le_rfl le_rfl

lemma unlock : Effect t s p (s.unlock t) := .quiet _ le_rfl le_rfl

lemma refuse {message : String} (h : Orders.refuse t s message = some (s', p')) :
    Effect t s p s' := by
  cases h
  exact .unlock

end Effect

lemma txNext_effect {tx : Tx} {uuid : String} {time : ℤ} {delivered : List String} {pc : TxPc}
    (hmine : ∀ r ∈ (Proc.inside tx pc).held, Locks.Mine s.locks t r)
    (hk : Proc.knows s (.inside tx pc))
    (h : txNext t s tx uuid time delivered pc = some (s', p')) :
    Effect t s (.inside tx pc) s' := by
  cases pc with
  | lockCapacity =>
      simp only [txNext] at h
      split_ifs at h
      · cases h
        exact .lock _
      · exact .refuse h
  | countOutbox =>
      simp only [txNext] at h
      split_ifs at h
      · exact .refuse h
      · cases h
        exact .refl
      · cases h
        exact .refl
  | countBusiness view =>
      simp only [txNext] at h
      split_ifs at h
      · exact .refuse h
      · cases h
        exact .refl
  | saveOrder =>
      simp only [txNext] at h
      split at h <;> cases h
      exact .quiet s.locks (by omega) le_rfl
  | saveOutbox =>
      simp only [txNext] at h
      split_ifs at h
      · split at h <;> cases h <;> exact .quiet s.locks le_rfl (by omega)
      · cases h
        exact .unlock
  | commit row =>
      cases tx with
      | create o =>
          cases h
          exact .create _ rfl hk (hmine _ (by simp [Proc.held]))
      | enqueue o operation =>
          cases h
          exact .enqueue _ rfl hk (hmine _ (by simp [Proc.held]))
            (hmine _ (by simp [Proc.held, Tx.held]))

lemma relayNext_effect {time : ℤ} {pc : RelayPc} (h : relayNext s time pc = some (s', p')) :
    Effect t s (.relaying pc) s' := by
  cases pc with
  | sending todo sends =>
      cases todo <;> cases h
      · exact .refl
      · exact .send rfl
  | awaiting sends sent =>
      cases sends with
      | nil =>
          cases h
          exact .refl
      | cons x sends =>
          simp only [relayNext] at h
          split_ifs at h
          cases h
          exact .refl
  | marking sent =>
      simp only [relayNext] at h
      split_ifs at h <;> cases h
      · exact .refl
      · exact .markSent time rfl
  | purging =>
      cases h
      exact .refl

/-- **What a step does to the store.** -/
theorem next_effect (hex : Locks.Exclusive s.locks) (hheld : ∀ r ∈ p.held, (r, t) ∈ s.locks)
    (hk : p.knows s) (h : next t s p a = some (s', p')) : Effect t s p s' := by
  have hmine : ∀ r ∈ p.held, Locks.Mine s.locks t r :=
    fun r hr => Locks.mine_of_mem hex (hheld r hr)
  cases next_move h with
  | abort p => exact .unlock
  | append happend =>
      obtain ⟨r, hr, rfl⟩ := append_cases happend
      exact .append _ rfl hr
  | mutate h =>
      obtain ⟨_, h⟩ | ⟨o, o', -, -, -, -, rfl, -⟩ := mutateNext_cases h
      · exact .refuse h
      · exact .lock _
  | handle h =>
      obtain ⟨rfl, -⟩ | ⟨o, o', -, -, rfl, -⟩ := handleNext_cases h
      · exact .unlock
      · exact .lock _
  | inside h => exact txNext_effect hmine hk h
  | cancelling o uuid time delivered =>
      exact .cancel _ rfl hk (hmine _ (by simp [Proc.held]))
  | relaying h => exact relayNext_effect h
  | purge hpurge =>
      obtain ⟨hsent, rfl⟩ := purgeSent_cases hpurge
      exact .purge rfl hsent
  | _ => exact .refl

/-! ### Keys -/

/-- Two states of one row of the outbox. -/
structure OutboxRow.SameEvent (r x : OutboxRow) : Prop where
  id : r.id = x.id
  eventId : r.eventId = x.eventId
  aggregateId : r.aggregateId = x.aggregateId
  topic : r.topic = x.topic
  payload : r.payload = x.payload

namespace OutboxRow.SameEvent

lemma refl (r : OutboxRow) : r.SameEvent r := ⟨rfl, rfl, rfl, rfl, rfl⟩

lemma symm {r x : OutboxRow} (h : r.SameEvent x) : x.SameEvent r :=
  ⟨h.id.symm, h.eventId.symm, h.aggregateId.symm, h.topic.symm, h.payload.symm⟩

lemma trans {r x y : OutboxRow} (h : r.SameEvent x) (h' : x.SameEvent y) : r.SameEvent y :=
  ⟨h.id.trans h'.id, h.eventId.trans h'.eventId, h.aggregateId.trans h'.aggregateId,
    h.topic.trans h'.topic, h.payload.trans h'.payload⟩

lemma partner {r x : OutboxRow} (h : r.SameEvent x) : r.partner = x.partner := by
  rw [OutboxRow.partner, OutboxRow.partner, h.payload]

end OutboxRow.SameEvent

/-- The keys of the tables, and the rows of the outbox among those written. -/
structure Sound (s : Store) : Prop where
  orderIds : Table.Unique Order.orderId s.db.orders
  orderBound : ∀ o ∈ s.db.orders, 0 < o.orderId ∧ o.orderId < s.nextOrder
  positive : 0 < s.nextOrder
  writtenIds : Table.Unique OutboxRow.id s.written
  writtenBound : ∀ r ∈ s.written, r.id < s.nextOutbox
  outboxIds : Table.Unique OutboxRow.id s.db.outbox
  outbox : ∀ r ∈ s.db.outbox, ∃ w ∈ s.written, w.SameEvent r

/-- The ids of the outbox after `markSent`. -/
lemma map_id_markSent (db : Db) (ids : List ℕ) (time : ℤ) :
    (db.markSent ids time).outbox.map OutboxRow.id = db.outbox.map OutboxRow.id := by
  rw [Db.markSent, List.map_map]
  refine List.map_congr_left fun r _ => ?_
  simp only [Function.comp_apply]
  split_ifs <;> rfl

/-- A row of the outbox after `markSent`. -/
lemma mem_markSent {db : Db} {ids : List ℕ} {time : ℤ} {r : OutboxRow}
    (h : r ∈ (db.markSent ids time).outbox) :
    ∃ x ∈ db.outbox, r = if x.id ∈ ids then x.markSent time else x := by
  obtain ⟨x, hx, rfl⟩ := List.mem_map.mp h
  exact ⟨x, hx, rfl⟩

lemma origin_markSent {db : Db} {ids : List ℕ} {time : ℤ} {r : OutboxRow}
    (h : r ∈ (db.markSent ids time).outbox) : ∃ x ∈ db.outbox, x.SameEvent r := by
  obtain ⟨x, hx, rfl⟩ := mem_markSent h
  refine ⟨x, hx, ?_⟩
  split_ifs <;> exact ⟨rfl, rfl, rfl, rfl, rfl⟩

/-- The committed row of a transaction that changes an order. -/
lemma mem_of_order {db : Db} {id : ℤ} {o : Order} (h : db.order id = some o) : o ∈ db.orders :=
  Table.mem_of_get h

/-- What the commit of a new row does to the outbox. -/
structure RowsAfter (s : Store) (row : OutboxRow) : Prop where
  writtenIds : Table.Unique OutboxRow.id (s.written ++ [row])
  writtenBound : ∀ r ∈ s.written ++ [row], r.id < s.nextOutbox
  outboxIds : Table.Unique OutboxRow.id (s.db.outbox ++ [row])
  outbox : ∀ r ∈ s.db.outbox ++ [row], ∃ w ∈ s.written ++ [row], w.SameEvent r

lemma Sound.insert (hs : Sound s) {row : OutboxRow} (h : NewRow s row) : RowsAfter s row := by
  refine ⟨hs.writtenIds.concat (Table.get_eq_none.mpr fun r hr => ?_), fun r hr => ?_,
    hs.outboxIds.concat (Table.get_eq_none.mpr fun r hr => ?_), fun r hr => ?_⟩
  · have := h.last r hr
    omega
  · rcases List.mem_append.mp hr with hr | hr
    · exact hs.writtenBound r hr
    · rw [List.mem_singleton.mp hr]
      exact h.bound
  · obtain ⟨w, hw, hwr⟩ := hs.outbox r hr
    have := h.last w hw
    rw [hwr.id] at this
    omega
  · rcases List.mem_append.mp hr with hr | hr
    · obtain ⟨w, hw, hwr⟩ := hs.outbox r hr
      exact ⟨w, List.mem_append_left _ hw, hwr⟩
    · rw [List.mem_singleton.mp hr]
      exact ⟨row, by simp, .refl row⟩

/-- An update of a present order keeps the bounds on the keys. -/
lemma bound_put {orders : List Order} {n : ℤ} {o old : Order}
    (hb : ∀ x ∈ orders, 0 < x.orderId ∧ x.orderId < n) (hold : old ∈ orders)
    (hid : old.orderId = o.orderId) :
    ∀ x ∈ Table.put Order.orderId o orders, 0 < x.orderId ∧ x.orderId < n := by
  intro x hx
  rcases Table.mem_put.mp hx with rfl | ⟨hx, -⟩
  · rw [← hid]
    exact hb old hold
  · exact hb x hx

/-- Every step keeps the keys. -/
lemma Sound.step (hs : Sound s) (h : Effect t s p s') : Sound s' := by
  cases h with
  | quiet locks ho hr =>
      refine ⟨hs.orderIds, fun o hmem => ?_, lt_of_lt_of_le hs.positive ho, hs.writtenIds,
        fun r hmem => lt_of_lt_of_le (hs.writtenBound r hmem) hr, hs.outboxIds, hs.outbox⟩
      exact ⟨(hs.orderBound o hmem).1, lt_of_lt_of_le (hs.orderBound o hmem).2 ho⟩
  | @create o row locks hp hk hcap =>
      subst hp
      obtain ⟨⟨-, -, -, hsaved⟩, hrow, -⟩ := hk
      obtain ⟨habsent, hpos, hlt⟩ := hsaved rfl
      have hrows := hs.insert hrow
      refine ⟨hs.orderIds.concat habsent, fun x hx => ?_, hs.positive, hrows.writtenIds,
        hrows.writtenBound, hrows.outboxIds, hrows.outbox⟩
      rcases List.mem_append.mp hx with hx | hx
      · exact hs.orderBound x hx
      · rw [List.mem_singleton.mp hx]
        exact ⟨hpos, hlt⟩
  | @enqueue o operation row locks hp hk hcap hmine =>
      subst hp
      obtain ⟨⟨old, hold, hprep⟩, hrow, -⟩ := hk
      have hrows := hs.insert hrow
      exact ⟨hs.orderIds.put o, bound_put hs.orderBound (mem_of_order hold) hprep.orderId.symm,
        hs.positive, hrows.writtenIds, hrows.writtenBound, hrows.outboxIds, hrows.outbox⟩
  | @cancel o locks hp hk hmine =>
      subst hp
      obtain ⟨old, hold, -, ho⟩ := hk
      exact ⟨hs.orderIds.put o, bound_put hs.orderBound (mem_of_order hold) (by rw [ho]),
        hs.positive, hs.writtenIds, hs.writtenBound, hs.outboxIds, hs.outbox⟩
  | @markSent sent time hp =>
      refine ⟨hs.orderIds, hs.orderBound, hs.positive, hs.writtenIds, hs.writtenBound, ?_,
        fun r hr => ?_⟩
      · rw [Table.Unique, map_id_markSent]
        exact hs.outboxIds
      · obtain ⟨x, hx, hxr⟩ := origin_markSent hr
        obtain ⟨w, hw, hwx⟩ := hs.outbox x hx
        exact ⟨w, hw, hwx.trans hxr⟩
  | @purge ids hp hsent =>
      exact ⟨hs.orderIds, hs.orderBound, hs.positive, hs.writtenIds, hs.writtenBound,
        hs.outboxIds.sublist (List.filter_sublist.map _),
        fun r hr => hs.outbox r (List.mem_filter.mp hr).1⟩
  | _ =>
      exact ⟨hs.orderIds, hs.orderBound, hs.positive, hs.writtenIds, hs.writtenBound,
        hs.outboxIds, hs.outbox⟩

/-! ### What others cannot disturb -/

namespace Effect

variable (h : Effect t s p s')

include h

/-- Keys are only drawn upwards. -/
lemma nextOrder_le : s.nextOrder ≤ s'.nextOrder := by
  cases h with
  | quiet locks ho hr => exact ho
  | _ => exact le_rfl

lemma nextOutbox_le : s.nextOutbox ≤ s'.nextOutbox := by
  cases h with
  | quiet locks ho hr => exact hr
  | _ => exact le_rfl

/-- A locked order is not changed by the others. -/
lemma order_locked (hs : Sound s) {id : ℤ} {o : Order} (hlock : (.order id, u) ∈ s.locks)
    (hut : u ≠ t) (ho : s.db.order id = some o) : s'.db.order id = some o := by
  have hput : ∀ {x : Order}, Locks.Mine s.locks t (.order x.orderId) →
      Table.get Order.orderId id (Table.put Order.orderId x s.db.orders) = some o := by
    intro x hmine
    have hne : x.orderId ≠ id := by
      rintro rfl
      exact hmine.ne hlock hut rfl
    rw [Table.get_put_ne hs.orderIds hne]
    exact ho
  cases h with
  | create locks hp hk hcap =>
      show Table.get Order.orderId id (s.db.orders ++ [_]) = some o
      rw [Table.get_append]
      rw [Db.order] at ho
      rw [ho]
      rfl
  | enqueue locks hp hk hcap hmine => exact hput hmine
  | cancel locks hp hk hmine => exact hput hmine
  | _ => exact ho

/-- Under the capacity lock no order appears. -/
lemma order_absent {id : ℤ} (hlock : (.capacity, u) ∈ s.locks) (hut : u ≠ t)
    (ho : s.db.order id = none) : s'.db.order id = none := by
  cases h with
  | create locks hp hk hcap => exact absurd rfl (hcap.ne hlock hut)
  | enqueue locks hp hk hcap hmine => exact absurd rfl (hcap.ne hlock hut)
  | @cancel o locks hp hk hmine =>
      subst hp
      obtain ⟨old, hold, -, hoo⟩ := hk
      refine Table.get_eq_none.mpr fun x hx => ?_
      rcases Table.mem_put.mp hx with rfl | ⟨hx, -⟩
      · rw [show x.orderId = old.orderId by rw [hoo]]
        exact Table.get_eq_none.mp ho old (mem_of_order hold)
      · exact Table.get_eq_none.mp ho x hx
  | _ => exact ho

/-- Under the capacity lock nothing is written to the outbox, and its rows keep
their keys. -/
lemma outbox_capacity (hlock : (.capacity, u) ∈ s.locks) (hut : u ≠ t) :
    s'.written = s.written ∧ s'.db.outbox.length ≤ s.db.outbox.length ∧
      ∀ r ∈ s'.db.outbox, ∃ x ∈ s.db.outbox, x.SameEvent r := by
  cases h with
  | create locks hp hk hcap => exact absurd rfl (hcap.ne hlock hut)
  | enqueue locks hp hk hcap hmine => exact absurd rfl (hcap.ne hlock hut)
  | markSent time hp => exact ⟨rfl, by simp, fun r hr => origin_markSent hr⟩
  | purge hp hsent =>
      exact ⟨rfl, List.length_filter_le _ _, fun r hr => ⟨r, (List.mem_filter.mp hr).1, .refl r⟩⟩
  | _ => exact ⟨rfl, le_rfl, fun r hr => ⟨r, hr, .refl r⟩⟩

lemma room_capacity (hlock : (.capacity, u) ∈ s.locks) (hut : u ≠ t)
    (hroom : s.db.outbox.length < 2000) : s'.db.outbox.length < 2000 :=
  lt_of_le_of_lt (h.outbox_capacity hlock hut).2.1 hroom

lemma newRow_capacity (hlock : (.capacity, u) ∈ s.locks) (hut : u ≠ t) {row : OutboxRow}
    (hrow : NewRow s row) : NewRow s' row := by
  obtain ⟨hwritten, -, hrows⟩ := h.outbox_capacity hlock hut
  refine ⟨h.room_capacity hlock hut hrow.room, ?_, lt_of_lt_of_le hrow.bound h.nextOutbox_le,
    hrow.pending, fun r hr => ?_⟩
  · rw [hwritten]
    exact hrow.last
  · obtain ⟨x, hx, hxr⟩ := hrows r hr
    rw [← hxr.eventId]
    exact hrow.admits x hx

end Effect

/-- What a transaction knows of the outbox is not disturbed by the others. -/
lemma TxPc.knows_other (h : Effect t s p s') (hut : u ≠ t) {tx : Tx} {pc : TxPc}
    (hheld : ∀ r ∈ (Proc.inside tx pc).held, (r, u) ∈ s.locks) (hk : pc.knows s tx) :
    pc.knows s' tx := by
  cases pc with
  | lockCapacity => trivial
  | countOutbox => trivial
  | countBusiness view =>
      exact h.room_capacity (hheld _ (by simp [Proc.held])) hut hk
  | saveOrder => exact h.room_capacity (hheld _ (by simp [Proc.held])) hut hk
  | saveOutbox => exact h.room_capacity (hheld _ (by simp [Proc.held])) hut hk
  | commit row => exact ⟨h.newRow_capacity (hheld _ (by simp [Proc.held])) hut hk.1, hk.2⟩

lemma capacity_held {tx : Tx} {pc : TxPc} (h : pc.saved = true) :
    .capacity ∈ (Proc.inside tx pc).held := by
  cases pc with
  | saveOutbox => simp [Proc.held]
  | commit row => simp [Proc.held]
  | _ => cases h

lemma Tx.held_subset {tx : Tx} {pc : TxPc} {r : Resource} (h : r ∈ tx.held) :
    r ∈ (Proc.inside tx pc).held := by
  cases pc <;> simp [Proc.held, h]

/-- What a transaction knows of its order is not disturbed by the others. -/
lemma Tx.knows_other (hs : Sound s) (h : Effect t s p s') (hut : u ≠ t) {tx : Tx} {pc : TxPc}
    (hheld : ∀ r ∈ (Proc.inside tx pc).held, (r, u) ∈ s.locks) (hk : tx.knows s pc) :
    tx.knows s' pc := by
  cases tx with
  | create o =>
      obtain ⟨hchecked, hpending, hseq, hsaved⟩ := hk
      refine ⟨hchecked, hpending, hseq, fun hpc => ?_⟩
      obtain ⟨habsent, hpos, hlt⟩ := hsaved hpc
      exact ⟨h.order_absent (hheld _ (capacity_held hpc)) hut habsent, hpos,
        lt_of_lt_of_le hlt h.nextOrder_le⟩
  | enqueue o operation =>
      obtain ⟨old, hold, hprep⟩ := hk
      exact ⟨old, h.order_locked hs (hheld _ (Tx.held_subset (by simp [Tx.held]))) hut hold, hprep⟩

/-- What a process knows is not disturbed by the others. -/
lemma Proc.knows_other (hs : Sound s) (h : Effect t s p s') (hut : u ≠ t) {q : Proc}
    (hheld : ∀ r ∈ q.held, (r, u) ∈ s.locks) (hk : q.knows s) : q.knows s' := by
  cases q with
  | mutating id quantity price cancel => exact hk
  | inside tx pc => exact ⟨Tx.knows_other hs h hut hheld hk.1, TxPc.knows_other h hut hheld hk.2⟩
  | cancelling o =>
      obtain ⟨old, hold, hrest⟩ := hk
      exact ⟨old, h.order_locked hs (hheld _ (by simp [Proc.held])) hut hold, hrest⟩
  | _ => trivial

/-! ### Knowledge gained by a step -/

/-- The transition of `mutate` is published. -/
lemma operates_mutate {quantity : ℤ} {price : Double} {cancel : Bool} {o o' : Order}
    (hvalid : cancel = false → 0 < quantity ∧ price.isFinite = true ∧ price.ltZero = false)
    (hseq : o.partnerSequence ≠ 0) (h : o.mutate quantity price cancel = some o') :
    Operates o (if cancel then .cancel else .change) o' := by
  simp only [Order.mutate, Order.cancelForPartner, Order.changeForPartner] at h
  cases cancel with
  | true =>
      simp only [if_true] at h ⊢
      split_ifs at h with hstatus
      cases h
      exact .cancel hstatus hseq
  | false =>
      obtain ⟨hquantity, hfinite, hneg⟩ := hvalid rfl
      simp only [Bool.false_eq_true, if_false] at h ⊢
      split_ifs at h with hstatus
      cases h
      exact .change hstatus hseq hquantity hfinite hneg

lemma transitionTo_eq {target : OrderStatus} {o o' : Order}
    (h : o.transitionTo target = some o') :
    o.status = .pending ∧ o' = { o with status := target } := by
  simp only [Order.transitionTo] at h
  split_ifs at h with hstatus
  cases h
  exact ⟨hstatus, rfl⟩

/-- What the capacity checks have shown. -/
lemma knows_afterChecks {tx : Tx} (h : s.db.outbox.length < 2000) : tx.afterChecks.knows s tx := by
  cases tx <;> exact h

lemma Tx.knows_afterChecks {tx : Tx} {pc : TxPc} (hpc : pc.saved = false)
    (hk : tx.knows s pc) : tx.knows s tx.afterChecks := by
  cases tx with
  | create o =>
      obtain ⟨hchecked, hpending, hseq, -⟩ := hk
      exact ⟨hchecked, hpending, hseq, fun h => by cases h⟩
  | enqueue o operation =>
      cases pc <;> first | exact hk | cases hpc

lemma txNext_knows (hs : Sound s) {tx : Tx} {uuid : String} {time : ℤ} {delivered : List String}
    {pc : TxPc} (hk : Proc.knows s (.inside tx pc))
    (h : txNext t s tx uuid time delivered pc = some (s', p')) : p'.knows s' := by
  have hrefuse : ∀ {message : String}, refuse t s message = some (s', p') → p'.knows s' := by
    intro message h
    cases h
    trivial
  obtain ⟨htx, hpc⟩ := hk
  cases pc with
  | lockCapacity =>
      simp only [txNext] at h
      split_ifs at h
      · cases h
        cases tx with
        | create o =>
            obtain ⟨hchecked, hpending, hseq, -⟩ := htx
            exact ⟨⟨hchecked, hpending, hseq, fun h => by cases h⟩, trivial⟩
        | enqueue o operation => exact ⟨htx, trivial⟩
      · exact hrefuse h
  | countOutbox =>
      simp only [txNext] at h
      split_ifs at h with hfull hcheck
      · exact hrefuse h
      · cases h
        refine ⟨?_, not_le.mp hfull⟩
        cases tx with
        | create o =>
            obtain ⟨hchecked, hpending, hseq, -⟩ := htx
            exact ⟨hchecked, hpending, hseq, fun h => by cases h⟩
        | enqueue o operation => exact htx
      · cases h
        exact ⟨Tx.knows_afterChecks rfl htx, knows_afterChecks (not_le.mp hfull)⟩
  | countBusiness view =>
      simp only [txNext] at h
      split_ifs at h
      · exact hrefuse h
      · cases h
        exact ⟨Tx.knows_afterChecks rfl htx, knows_afterChecks hpc⟩
  | saveOrder =>
      cases tx with
      | create o =>
          cases h
          obtain ⟨⟨hq, hf, hn, hsel, hrun⟩, hpending, hseq, -⟩ := htx
          refine ⟨⟨⟨hq, hf, hn, hsel, hrun⟩, hpending, hseq, fun _ => ⟨?_, hs.positive, ?_⟩⟩, hpc⟩
          · refine Table.get_eq_none.mpr fun x hx hid => ?_
            have := (hs.orderBound x hx).2
            rw [hid] at this
            exact lt_irrefl _ this
          · show s.nextOrder < s.nextOrder + 1
            omega
      | enqueue o operation => cases h
  | saveOutbox =>
      simp only [txNext] at h
      split_ifs at h with hadm
      · -- the row takes the next key, above those in the table
        cases tx with
        | create o =>
            cases h
            exact ⟨htx, ⟨hpc, hs.writtenBound, Nat.lt_succ_self _, rfl, hadm⟩, rfl⟩
        | enqueue o operation =>
            cases h
            obtain ⟨old, hold, hprep⟩ := htx
            refine ⟨⟨old, hold, ?_⟩, ⟨hpc, hs.writtenBound, Nat.lt_succ_self _, rfl, hadm⟩,
              uuid, time, rfl⟩
            cases hprep with
            | operated hop => exact .drawn hop
      · cases h
        trivial
  | commit row =>
      simp only [txNext] at h
      split at h <;> cases h <;> trivial

lemma relayNext_knows {time : ℤ} {pc : RelayPc} (h : relayNext s time pc = some (s', p')) :
    p'.knows s' := by
  unfold relayNext at h
  split at h <;> try split_ifs at h
  all_goals (cases h; trivial)

/-- What a process knows after its own step. -/
lemma next_knows (hs : Sound s) (hk : p.knows s) (h : next t s p a = some (s', p')) :
    p'.knows s' := by
  cases next_move h with
  | createOrder hvalid =>
      exact ⟨⟨checked_toOrder hvalid, rfl, rfl, fun h => by cases h⟩, trivial⟩
  | change id hvalid =>
      intro _
      simp only [ChangeRequest.isInvalid, Bool.or_eq_false_iff, decide_eq_false_iff_not, not_le,
        Bool.not_eq_false'] at hvalid
      exact ⟨hvalid.1.1, hvalid.2, hvalid.1.2⟩
  | cancel id => exact fun h => by cases h
  | mutate h =>
      obtain ⟨_, h⟩ | ⟨o, o', -, ho, hseq, ho', rfl, rfl⟩ := mutateNext_cases h
      · cases h
        trivial
      · refine ⟨⟨o, ?_, .operated (operates_mutate hk hseq ho')⟩, trivial⟩
        rw [orderId_mutate ho', orderId_of_order ho]
        exact ho
  | handle h =>
      obtain ⟨rfl, rfl⟩ | ⟨o, o', -, ho, rfl, ⟨-, ho', rfl⟩ | ⟨-, ho', rfl⟩⟩ := handleNext_cases h
      · trivial
      · obtain ⟨hpending, rfl⟩ := transitionTo_eq ho'
        refine ⟨⟨o, ?_, .operated (.create hpending)⟩, trivial⟩
        show s.db.order o.orderId = some o
        rwa [orderId_of_order ho]
      · obtain ⟨hpending, rfl⟩ := transitionTo_eq ho'
        refine ⟨o, ?_, hpending, rfl⟩
        show s.db.order o.orderId = some o
        rwa [orderId_of_order ho]
  | inside h => exact txNext_knows hs hk h
  | relaying h => exact relayNext_knows h
  | _ => trivial

/-! ### Every run -/

/-- The keys hold in every run, and processes know what they rely on. -/
theorem reachable_sound {ok : Config Store Proc → ℕ → Act → Prop} {c : Config Store Proc}
    (h : Run service ok initial c) : Sound c.store ∧ ∀ t, (c.procs t).knows c.store := by
  refine Run.invariant (I := Sound) (J := fun _ s p => p.knows s)
    (K := fun c => Run service ok initial c) (fun _ h => h) ?_ ?_ ?_ h
  · refine ⟨⟨?_, ?_, ?_, ?_, ?_, ?_, ?_⟩, fun _ => trivial⟩ <;> simp [initial, Table.Unique]
  · intro c t a s' p' hrun _ hs hk hnext
    obtain ⟨hex, hheld⟩ := reachable_locks hrun
    exact ⟨hs.step (next_effect hex (hheld t) (hk t) hnext), next_knows hs (hk t) hnext⟩
  · intro c t a s' p' u hrun _ hs hk hnext hut
    obtain ⟨hex, hheld⟩ := reachable_locks hrun
    exact Proc.knows_other hs (next_effect hex (hheld t) (hk t) hnext) hut (hheld u) (hk u)

/-- What a step of a reachable state does. -/
lemma reachable_effect {ok : Config Store Proc → ℕ → Act → Prop} {c : Config Store Proc}
    (h : Run service ok initial c) (hnext : next t c.store (c.procs t) a = some (s', p')) :
    Effect t c.store (c.procs t) s' :=
  next_effect (reachable_locks h).1 ((reachable_locks h).2 t) ((reachable_sound h).2 t) hnext

end OrderSystem.Orders
