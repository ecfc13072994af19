/-
The partner events of order-service form one well-formed stream per order.

* `Stream`: the events of an order against its committed row. Their sequences are
  `1, …, n` with `n` the committed `partnerSequence`, the first is `CREATE`, a
  `CANCEL` is the last, all others are `CHANGE`.
* `Streams`: the invariant. Every order has its stream as long as the Java `int` of
  the sequence has not overflowed, and every event was stamped by checked data.
* `retained`: the steps of order-service while nothing is purged from the outbox
  (`app.outbox-retention-ms` is 0 unless it is set). Then the outbox holds every
  event, and its limit of 2000 rows keeps the sequences far from overflow.
* `source_stream_well_formed`: the streams of every run, with what a step that
  commits an event and a step that does not commit leave behind.
-/
import OrderSystem.Foundations.Numbering
import OrderSystem.Orders.Effects

namespace OrderSystem.Orders

open Interleaving Numbering

variable {t u : ℕ} {s s' : Store} {p p' : Proc} {a : Act}

/-! ### Streams -/

/-- The partner events in the outbox. -/
def Db.events (db : Db) : List PartnerOrderEvent :=
  db.outbox.filterMap OutboxRow.partner

/-- The events of one order. -/
def eventsOf (id : ℤ) (events : List PartnerOrderEvent) : List PartnerOrderEvent :=
  events.filter fun e => e.orderId = id

/-- The committed row of an order and its events. -/
structure Stream (o : Order) (events : List PartnerOrderEvent) : Prop where
  sequence : o.partnerSequence = events.length
  numbered : events.map (·.sequence) = upTo events.length
  first : ∀ i e, events[i]? = some e → (e.operation = .create ↔ i = 0)
  last : ∀ i e, events[i]? = some e → e.operation = .cancel →
    i + 1 = events.length ∧ o.status = .cancelled
  pending : o.status = .pending → events = []

/-- An order without events. -/
lemma stream_nil {o : Order} (h : o.partnerSequence = 0) : Stream o [] :=
  ⟨h, rfl, by simp, by simp, fun _ => rfl⟩

lemma Operates.partnerSequence {old o : Order} {operation : Operation}
    (h : Operates old operation o) : o.partnerSequence = old.partnerSequence := by
  cases h <;> rfl

/-- An operation is the first of its stream exactly when it confirms the order. -/
lemma Stream.operates {old o : Order} {operation : Operation} {events : List PartnerOrderEvent}
    (hs : Stream old events) (h : Operates old operation o) :
    old.status ≠ .cancelled ∧ o.status ≠ .pending ∧
      (operation = .create ↔ events.length = 0) ∧
      (operation = .cancel → o.status = .cancelled) := by
  have hseq := hs.sequence
  cases h with
  | create hpending => simp [hpending, hs.pending hpending]
  | change hconfirmed hne =>
      have : events.length ≠ 0 := by omega
      simp [hconfirmed, this]
  | cancel hconfirmed hne =>
      have : events.length ≠ 0 := by omega
      simp [hconfirmed, this]

/-- **An operation extends the stream of its order.** -/
lemma Stream.snoc {old o : Order} {operation : Operation} {events : List PartnerOrderEvent}
    (hs : Stream old events) (h : Operates old operation o) (uuid : String) (time : ℤ)
    (hlt : events.length + 1 < 2 ^ 31) :
    Stream o.nextPartnerSequence
      (events ++ [o.nextPartnerSequence.partnerEvent uuid operation time]) := by
  obtain ⟨hnot, hpending, hfirst, hlast⟩ := hs.operates h
  have hnext : o.nextPartnerSequence.partnerSequence = (events.length : ℤ) + 1 := by
    show javaInt (o.partnerSequence + 1) = _
    rw [h.partnerSequence, hs.sequence]
    exact javaInt_eq (by omega) (by omega)
  -- an index points into the old stream, or at the new event
  have hindex : ∀ i e, (events ++ [o.nextPartnerSequence.partnerEvent uuid operation time])[i]? =
      some e → events[i]? = some e ∨ (i = events.length ∧ e.operation = operation) := by
    intro i e he
    rcases Nat.lt_or_ge i events.length with hi | hi
    · rw [List.getElem?_append_left hi] at he
      exact Or.inl he
    · rw [List.getElem?_append_right hi] at he
      rcases Nat.eq_zero_or_pos (i - events.length) with hz | hpos
      · rw [hz] at he
        cases he
        exact Or.inr ⟨by omega, rfl⟩
      · rw [List.getElem?_eq_none (by simp; omega)] at he
        cases he
  refine ⟨?_, ?_, fun i e he => ?_, fun i e he hcancel => ?_, fun h => absurd h hpending⟩
  · rw [hnext]
    simp
  · rw [List.map_append, hs.numbered, List.length_append, List.length_singleton, upTo_succ]
    exact congrArg (fun n => upTo events.length ++ [n]) hnext
  · rcases hindex i e he with he | ⟨rfl, hop⟩
    · exact hs.first i e he
    · rw [hop]
      exact hfirst
  · rcases hindex i e he with he | ⟨rfl, hop⟩
    · exact absurd (hs.last i e he hcancel).2 hnot
    · rw [hop] at hcancel
      exact ⟨by simp, hlast hcancel⟩

/-! ### The invariant -/

/-- What an event carries apart from its place in the stream. -/
structure Stamped (e : PartnerOrderEvent) : Prop where
  id : javaLength e.eventId = 36
  run : javaLength e.runId ≤ 64
  seller : sellerPattern e.sellerId = true
  order : 0 < e.orderId
  version : e.schemaVersion = 1
  time : 0 < e.occurredAt
  quantity : 0 < e.quantity
  finite : e.price.isFinite = true
  nonneg : e.price.ltZero = false
  padding : e.padding = none

/-- A stamped event with a positive sequence passes `validate`. -/
lemma Stamped.valid {e : PartnerOrderEvent} (h : Stamped e) (hseq : 0 < e.sequence) :
    e.valid = true := by
  have hid := h.id
  simp [PartnerOrderEvent.valid, h.run, h.seller, h.order, h.version, h.time, h.quantity,
    h.finite, h.nonneg, h.padding, hseq, hid]

/-- Every order has its stream, and every event belongs to an order. -/
structure Streams (orders : List Order) (accepted : List PartnerOrderEvent) : Prop where
  checked : ∀ o ∈ orders, o.Checked
  streams : ∀ o ∈ orders, (eventsOf o.orderId accepted).length < 2 ^ 31 →
    Stream o (eventsOf o.orderId accepted)
  stamped : ∀ e ∈ accepted, Stamped e
  orders : ∀ e ∈ accepted, ∃ o ∈ orders, o.orderId = e.orderId

/-- The UUID and the clock of a statement are those of a JVM: a random UUID is
printed with 36 characters, and the clock stands after 1970. -/
def Act.stamped : Act → Prop
  | .go uuid time _ => javaLength uuid = 36 ∧ 0 < time
  | _ => True

instance (a : Act) : Decidable a.stamped :=
  match a with
  | .go uuid time _ => inferInstanceAs (Decidable (javaLength uuid = 36 ∧ 0 < time))
  | .createOrder _ | .change _ _ | .cancel _ | .deliver _ | .relay | .fail | .append _ _
  | .purge _ _ | .abort => isTrue trivial

/-- The environment of a JVM. -/
def stamping (_ : Config Store Proc) (_ : ℕ) (a : Act) : Prop :=
  a.stamped

/-- The event about to be committed carries a UUID and a time. -/
def Proc.stamped : Proc → Prop
  | .inside _ (.commit row) => ∀ e ∈ row.partner, javaLength e.eventId = 36 ∧ 0 < e.occurredAt
  | _ => True

lemma txNext_stamped {tx : Tx} {uuid : String} {time : ℤ} {delivered : List String} {pc : TxPc}
    (hok : javaLength uuid = 36 ∧ 0 < time)
    (h : txNext t s tx uuid time delivered pc = some (s', p')) : p'.stamped := by
  have hafter : (Proc.inside tx tx.afterChecks).stamped := by
    cases tx <;> trivial
  cases pc with
  | saveOutbox =>
      simp only [txNext] at h
      split_ifs at h
      · cases tx with
        | create o =>
            cases h
            intro e he
            cases he
        | enqueue o operation =>
            cases h
            intro e he
            cases he
            exact hok
      · cases h
        trivial
  | countOutbox =>
      simp only [txNext, refuse] at h
      split_ifs at h <;> cases h
      · trivial
      · trivial
      · exact hafter
  | countBusiness view =>
      simp only [txNext, refuse] at h
      split_ifs at h <;> cases h
      · trivial
      · exact hafter
  | lockCapacity =>
      simp only [txNext, refuse] at h
      split_ifs at h <;> cases h <;> trivial
  | saveOrder =>
      simp only [txNext] at h
      split at h <;> cases h
      trivial
  | commit row =>
      simp only [txNext] at h
      split at h <;> cases h <;> trivial

lemma next_stamped (hok : a.stamped) (h : next t s p a = some (s', p')) : p'.stamped := by
  cases next_move h with
  | inside h => exact txNext_stamped hok h
  | mutate h =>
      obtain ⟨_, h⟩ | ⟨_, _, -, -, -, -, -, rfl⟩ := mutateNext_cases h
      · cases h
        trivial
      · trivial
  | handle h =>
      obtain ⟨-, rfl⟩ | ⟨_, _, -, -, -, ⟨-, -, rfl⟩ | ⟨-, -, rfl⟩⟩ := handleNext_cases h <;> trivial
  | relaying h =>
      unfold relayNext at h
      split at h <;> try split_ifs at h
      all_goals (cases h; trivial)
  | _ => trivial

lemma eventsOf_append (id : ℤ) (events : List PartnerOrderEvent) (e : PartnerOrderEvent) :
    eventsOf id (events ++ [e]) =
      if e.orderId = id then eventsOf id events ++ [e] else eventsOf id events := by
  rw [eventsOf, List.filter_append]
  split_ifs with h
  · simp [eventsOf, h]
  · simp [eventsOf, h]

/-- An operation keeps what the controller checked. -/
lemma Operates.checked {old o : Order} {operation : Operation} (h : Operates old operation o)
    (hold : old.Checked) : o.nextPartnerSequence.Checked := by
  cases h with
  | create => exact ⟨hold.quantity, hold.finite, hold.nonneg, hold.seller, hold.run⟩
  | change hconfirmed hseq hquantity hfinite hneg =>
      exact ⟨hquantity, hfinite, hneg, hold.seller, hold.run⟩
  | cancel => exact ⟨hold.quantity, hold.finite, hold.nonneg, hold.seller, hold.run⟩

section Steps

variable {orders : List Order} {accepted : List PartnerOrderEvent} (hi : Streams orders accepted)

include hi

/-- An update of an order keeps every event with its order. -/
lemma Streams.orders_put {o : Order} {e : PartnerOrderEvent} (he : e ∈ accepted) :
    ∃ x ∈ Table.put Order.orderId o orders, x.orderId = e.orderId := by
  obtain ⟨y, hy, hye⟩ := hi.orders e he
  by_cases hyo : y.orderId = o.orderId
  · exact ⟨_, Table.mem_put.mpr (Or.inl rfl), hyo.symm.trans hye⟩
  · exact ⟨y, Table.mem_put.mpr (Or.inr ⟨hy, hyo⟩), hye⟩

/-- The commit of a partner operation keeps the streams. -/
lemma Streams.enqueue {old o : Order} {operation : Operation} {uuid : String} {time : ℤ}
    (hold : old ∈ orders) (hpos : 0 < old.orderId) (hop : Operates old operation o)
    (hid : javaLength uuid = 36) (htime : 0 < time) :
    Streams (Table.put Order.orderId o.nextPartnerSequence orders)
      (accepted ++ [o.nextPartnerSequence.partnerEvent uuid operation time]) := by
  have hchecked := hop.checked (hi.checked old hold)
  have hsame : o.nextPartnerSequence.orderId = old.orderId := hop.orderId
  refine ⟨fun x hx => ?_, fun x hx => ?_, fun x hx => ?_, fun x hx => ?_⟩
  · rcases Table.mem_put.mp hx with rfl | ⟨hx, -⟩
    · exact hchecked
    · exact hi.checked x hx
  · rw [eventsOf_append]
    rcases Table.mem_put.mp hx with rfl | ⟨hx, hne⟩
    · -- the stream of this order grows by one
      rw [if_pos (show (o.nextPartnerSequence.partnerEvent uuid operation time).orderId =
        o.nextPartnerSequence.orderId from rfl), hsame]
      intro hlt
      rw [List.length_append, List.length_singleton] at hlt
      exact (hi.streams old hold (by omega)).snoc hop uuid time hlt
    · rw [if_neg (fun h => hne h.symm)]
      exact hi.streams x hx
  · rcases List.mem_append.mp hx with hx | hx
    · exact hi.stamped x hx
    · rw [List.mem_singleton.mp hx]
      refine ⟨hid, hchecked.run, hchecked.seller, ?_, rfl, htime, hchecked.quantity,
        hchecked.finite, hchecked.nonneg, rfl⟩
      show 0 < o.nextPartnerSequence.orderId
      rw [hsame]
      exact hpos
  · rcases List.mem_append.mp hx with hx | hx
    · exact hi.orders_put hx
    · rw [List.mem_singleton.mp hx]
      exact ⟨_, Table.mem_put.mpr (Or.inl rfl), rfl⟩

/-- The commit of a new order starts an empty stream. -/
lemma Streams.create {o : Order} (hchecked : o.Checked) (hseq : o.partnerSequence = 0)
    (habsent : ∀ x ∈ orders, x.orderId ≠ o.orderId) : Streams (orders ++ [o]) accepted := by
  refine ⟨fun x hx => ?_, fun x hx => ?_, hi.stamped, fun e he => ?_⟩
  · rcases List.mem_append.mp hx with hx | hx
    · exact hi.checked x hx
    · rw [List.mem_singleton.mp hx]
      exact hchecked
  · rcases List.mem_append.mp hx with hx | hx
    · exact hi.streams x hx
    · rw [List.mem_singleton.mp hx]
      have hnone : eventsOf o.orderId accepted = [] := by
        refine List.filter_eq_nil_iff.mpr fun e he => ?_
        obtain ⟨y, hy, hye⟩ := hi.orders e he
        simpa [hye] using habsent y hy
      rw [hnone]
      exact fun _ => stream_nil hseq
  · obtain ⟨y, hy, hye⟩ := hi.orders e he
    exact ⟨y, List.mem_append_left _ hy, hye⟩

/-- The cancellation of a pending order keeps its empty stream. -/
lemma Streams.cancel {old : Order} (hold : old ∈ orders) (hpending : old.status = .pending) :
    Streams (Table.put Order.orderId { old with status := .cancelled } orders) accepted := by
  have hchecked := hi.checked old hold
  refine ⟨fun x hx => ?_, fun x hx => ?_, hi.stamped, fun e he => hi.orders_put he⟩
  · rcases Table.mem_put.mp hx with rfl | ⟨hx, -⟩
    · exact ⟨hchecked.quantity, hchecked.finite, hchecked.nonneg, hchecked.seller, hchecked.run⟩
    · exact hi.checked x hx
  · rcases Table.mem_put.mp hx with rfl | ⟨hx, -⟩
    · intro hlt
      have hstream := hi.streams old hold hlt
      have hnil := hstream.pending hpending
      show Stream _ (eventsOf old.orderId accepted)
      rw [hnil]
      refine stream_nil ?_
      show old.partnerSequence = 0
      rw [hstream.sequence, hnil]
      rfl
    · exact hi.streams x hx

end Steps

/-- The accepted events after a row is written. -/
lemma accepted_append (written : List OutboxRow) (row : OutboxRow) :
    (written ++ [row]).filterMap OutboxRow.partner =
      written.filterMap OutboxRow.partner ++ row.partner.toList := by
  rw [List.filterMap_append]
  cases h : row.partner <;> simp [h]

/-- Every step keeps the streams. -/
lemma Streams.step (hi : Streams s.db.orders s.accepted) (hs : Sound s) (hst : p.stamped)
    (h : Effect t s p s') : Streams s'.db.orders s'.accepted := by
  cases h with
  | @create o row locks hp hk hcap =>
      subst hp
      obtain ⟨⟨hchecked, -, hseq, hsaved⟩, -, hwrites⟩ := hk
      have hrow : row.partner = none := by
        rw [show row = _ from hwrites]
        rfl
      show Streams (s.db.orders ++ [o]) ((s.written ++ [row]).filterMap OutboxRow.partner)
      rw [accepted_append, hrow, Option.toList_none, List.append_nil]
      exact hi.create hchecked hseq (Table.get_eq_none.mp (hsaved rfl).1)
  | @enqueue o operation row locks hp hk hcap hmine =>
      subst hp
      obtain ⟨⟨old, hold, hprep⟩, -, uuid, time, hrow⟩ := hk
      have hmem := mem_of_order hold
      have hpartner : row.partner = some (o.partnerEvent uuid operation time) := by
        rw [hrow]
        rfl
      obtain ⟨hid, htime⟩ := hst _ hpartner
      show Streams (Table.put Order.orderId o s.db.orders)
        ((s.written ++ [row]).filterMap OutboxRow.partner)
      rw [accepted_append, hpartner]
      cases hprep with
      | drawn hop => exact hi.enqueue hmem (hs.orderBound old hmem).1 hop hid htime
  | @cancel o locks hp hk hmine =>
      subst hp
      obtain ⟨old, hold, hpending, rfl⟩ := hk
      exact hi.cancel (mem_of_order hold) hpending
  | _ => exact hi

/-- The streams of every run, with or without purges. -/
theorem reachable_streams {c : Config Store Proc} (h : Run service stamping initial c) :
    Streams c.store.db.orders c.store.accepted ∧ ∀ t, (c.procs t).stamped := by
  refine Run.invariant (I := fun s => Streams s.db.orders s.accepted)
    (J := fun _ _ p => p.stamped)
    (K := fun c => Run service stamping initial c) (fun _ h => h) ?_ ?_ ?_ h
  · refine ⟨⟨?_, ?_, ?_, ?_⟩, fun _ => trivial⟩ <;> simp [initial, Store.accepted]
  · intro c t a s' p' hrun hok hi hst hnext
    exact ⟨hi.step (reachable_sound hrun).1 (hst t) (reachable_effect hrun hnext),
      next_stamped hok hnext⟩
  · intro c t a s' p' u _ _ _ hst _ _
    exact hst u

/-! ### Without purges -/

/-- Whether an action deletes rows of the outbox. -/
def Act.purges : Act → Bool
  | .purge _ _ => true
  | _ => false

/-- Nothing is purged from the outbox. -/
def retained (_ : Config Store Proc) (_ : ℕ) (a : Act) : Prop :=
  a.stamped ∧ a.purges = false

instance (c : Config Store Proc) (t : ℕ) (a : Act) : Decidable (retained c t a) :=
  inferInstanceAs (Decidable (_ ∧ _))

lemma events_markSent (db : Db) (ids : List ℕ) (time : ℤ) :
    (db.markSent ids time).events = db.events := by
  rw [Db.events, Db.markSent, List.filterMap_map]
  refine List.filterMap_congr fun r _ => ?_
  simp only [Function.comp_apply]
  split_ifs <;> rfl

/-- The outbox holds every accepted event, within its limit. -/
structure Retains (s : Store) : Prop where
  events : s.db.events = s.accepted
  limit : s.db.outbox.length ≤ 2000

/-- A row that is written enters the outbox and the written rows alike. -/
lemma Retains.insert (hr : Retains s) {orders : List Order} {row : OutboxRow} {capacity : Bool}
    {locks : Locks.Table Resource} (hroom : s.db.outbox.length < 2000) :
    Retains { s with db := { orders := orders, outbox := s.db.outbox ++ [row],
                             capacityRow := capacity }
                     locks := locks, written := s.written ++ [row] } := by
  refine ⟨?_, ?_⟩
  · show (s.db.outbox ++ [row]).filterMap OutboxRow.partner =
      (s.written ++ [row]).filterMap OutboxRow.partner
    rw [accepted_append, accepted_append]
    exact congrArg (· ++ row.partner.toList) hr.events
  · show (s.db.outbox ++ [row]).length ≤ 2000
    rw [List.length_append, List.length_singleton]
    omega

lemma Retains.step (hr : Retains s) (h : Effect t s p s')
    (hpurge : p = .relaying .purging → s'.db = s.db) : Retains s' := by
  cases h with
  | @create o row locks hp hk hcap =>
      subst hp
      exact hr.insert hk.2.1.room
  | @enqueue o operation row locks hp hk hcap hmine =>
      subst hp
      exact hr.insert hk.2.1.room
  | markSent time hp =>
      refine ⟨?_, ?_⟩
      · show (s.db.markSent _ _).events = s.accepted
        rw [events_markSent]
        exact hr.events
      · have := hr.limit
        simpa using this
  | purge hp hsent =>
      have hdb := hpurge hp
      refine ⟨?_, ?_⟩
      · rw [hdb]
        exact hr.events
      · rw [hdb]
        exact hr.limit
  | _ => exact ⟨hr.events, hr.limit⟩

/-- Without a purge the last statement of the relay changes nothing. -/
lemma purging_quiet (hok : a.purges = false) (h : next t s (.relaying .purging) a = some (s', p')) :
    s'.db = s.db := by
  cases next_move h with
  | abort p => rfl
  | relaying h =>
      cases h
      rfl
  | purge h => cases hok

lemma reachable_retains {c : Config Store Proc} (h : Run service retained initial c) :
    Retains c.store := by
  refine (Run.invariant (I := Retains) (J := fun _ _ _ => True)
    (K := fun c => Run service retained initial c) (fun _ h => h) ?_ ?_ ?_ h).1
  · exact ⟨⟨rfl, by simp [initial]⟩, fun _ => trivial⟩
  · intro c t a s' p' hrun hok hr _ hnext
    refine ⟨hr.step (reachable_effect hrun hnext) fun hp => ?_, trivial⟩
    have hnext : next t c.store (c.procs t) a = some (s', p') := hnext
    rw [hp] at hnext
    exact purging_quiet hok.2 hnext
  · intros
    trivial

/-- An order has its stream in every run. -/
lemma reachable_stream {c : Config Store Proc} (h : Run service retained initial c) {o : Order}
    (ho : o ∈ c.store.db.orders) : Stream o (eventsOf o.orderId c.store.accepted) := by
  have hret := reachable_retains h
  refine (reachable_streams (h.mono fun _ _ _ hok => hok.1)).1.streams o ho ?_
  have hfilter : (eventsOf o.orderId c.store.accepted).length ≤ c.store.accepted.length :=
    List.length_filter_le _ _
  have hevents : c.store.accepted.length ≤ c.store.db.outbox.length := by
    rw [← hret.events]
    exact List.length_filterMap_le _ _
  have := hret.limit
  omega

/-! ### The result -/

/-- The order as it stands right after the operation of an event. -/
structure Carries (e : PartnerOrderEvent) (o : Order) : Prop where
  order : e.orderId = o.orderId
  seller : e.sellerId = o.sellerId
  sequence : e.sequence = o.partnerSequence
  quantity : e.quantity = o.quantity
  price : e.price = o.price

/-- A step commits one event together with its order, or none. -/
lemma Effect.accepted_cases (h : Effect t s p s') :
    s'.accepted = s.accepted ∨ ∃ e, s'.accepted = s.accepted ++ [e] ∧
      ∃ o ∈ s'.db.orders, Carries e o := by
  cases h with
  | @create o row locks hp hk hcap =>
      subst hp
      have hrow : row.partner = none := by
        rw [show row = _ from hk.2.2]
        rfl
      refine Or.inl ?_
      show (s.written ++ [row]).filterMap OutboxRow.partner = s.accepted
      rw [accepted_append, hrow]
      exact List.append_nil _
  | @enqueue o operation row locks hp hk hcap hmine =>
      subst hp
      obtain ⟨-, -, uuid, time, hrow⟩ := hk
      refine Or.inr ⟨o.partnerEvent uuid operation time, ?_, o, Table.mem_put.mpr (Or.inl rfl),
        rfl, rfl, rfl, rfl, rfl⟩
      show (s.written ++ [row]).filterMap OutboxRow.partner = s.accepted ++ [_]
      rw [accepted_append, show row.partner = some (o.partnerEvent uuid operation time) by
        rw [hrow]; rfl]
      rfl
  | _ => exact Or.inl rfl

lemma txNext_db {tx : Tx} {uuid : String} {time : ℤ} {delivered : List String} {pc : TxPc}
    (h : txNext t s tx uuid time delivered pc = some (s', p'))
    (hok : ∀ o, p' ≠ .answered (.ok o)) : s'.db = s.db := by
  cases pc with
  | lockCapacity =>
      simp only [txNext, refuse] at h
      split_ifs at h <;> cases h <;> rfl
  | countOutbox =>
      simp only [txNext, refuse] at h
      split_ifs at h <;> cases h <;> rfl
  | countBusiness view =>
      simp only [txNext, refuse] at h
      split_ifs at h <;> cases h <;> rfl
  | saveOrder =>
      simp only [txNext] at h
      split at h <;> cases h
      rfl
  | saveOutbox =>
      simp only [txNext] at h
      split_ifs at h
      · split at h <;> cases h <;> rfl
      · cases h
        rfl
  | commit row =>
      simp only [txNext] at h
      split at h <;> cases h <;> exact absurd rfl (hok _)

/-- Only a commit, which answers with the order, and the relay write the tables. -/
lemma next_db (hp : ∀ pc, p ≠ .relaying pc) (h : next t s p a = some (s', p'))
    (hok : ∀ o, p' ≠ .answered (.ok o)) : s'.db = s.db := by
  cases next_move h with
  | append happend =>
      obtain ⟨r, -, rfl⟩ := append_cases happend
      rfl
  | mutate h =>
      obtain ⟨_, h⟩ | ⟨o, o', -, -, -, -, rfl, -⟩ := mutateNext_cases h
      · cases h
        rfl
      · rfl
  | handle h =>
      obtain ⟨rfl, -⟩ | ⟨o, o', -, -, rfl, -⟩ := handleNext_cases h <;> rfl
  | inside h => exact txNext_db h hok
  | cancelling o => exact absurd rfl (hok o)
  | relaying h => exact absurd rfl (hp _)
  | purge h => exact absurd rfl (hp _)
  | _ => rfl

/-- An order is created and confirmed, changed and cancelled; the stock event is
delivered twice, and a change after the cancellation is refused. -/
def orderLife : List (ℕ × Act) :=
  (1, .createOrder sampleRequest) :: statements 1 7 'a' ++
  (1, .deliver ⟨"r", 1, .updated⟩) :: statements 1 6 'b' ++
  (1, .deliver ⟨"r", 1, .updated⟩) :: statements 1 2 'c' ++
  (1, .change 1 ⟨3, ⟨0⟩⟩) :: statements 1 7 'd' ++
  (1, .cancel 1) :: statements 1 7 'e' ++
  (1, .change 1 ⟨4, ⟨0⟩⟩) :: statements 1 1 'f'

end OrderSystem.Orders
