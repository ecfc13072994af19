/-
The accepted operations as the books of order-service.

* `unrepeated`: the environment of a JVM whose random UUIDs do not repeat.
* `Leaves`: an operation leaves its order as the row in the table stands.
* `Books`: no two written rows share an event id, an event names the seller and the run
  of its order, and the last event of an order leaves it as it stands.
* `reachable_books`: the books of every run, with or without purges of the outbox.
* `accepted_catalogue`: as long as no sequence can have overflowed, no two accepted events
  share an id or a place in an order.
-/
import OrderSystem.Orders.Relay
import OrderSystem.Orders.Stream

namespace OrderSystem.Orders

open Interleaving Numbering

variable {t u : ℕ} {s s' : Store} {p p' : Proc} {a : Act}

/-! ### The environment -/

/-- The process is about to draw the UUID of a row. -/
def Proc.draws : Proc → Prop
  | .inside _ .saveOutbox => True
  | _ => False

instance (p : Proc) : Decidable p.draws :=
  match p with
  | .inside _ .saveOutbox => isTrue trivial
  | .inside _ .lockCapacity | .inside _ .countOutbox | .inside _ (.countBusiness _)
  | .inside _ .saveOrder | .inside _ (.commit _) | .idle | .mutating .. | .handling _
  | .cancelling _ | .answered _ | .relaying _ => isFalse id

/-- No row was written under the UUID. -/
def Act.unused (s : Store) : Act → Prop
  | .go uuid _ _ => ∀ r ∈ s.written, r.eventId ≠ uuid
  | _ => True

instance (s : Store) (a : Act) : Decidable (a.unused s) :=
  match a with
  | .go uuid _ _ => inferInstanceAs (Decidable (∀ r ∈ s.written, r.eventId ≠ uuid))
  | .createOrder _ | .change _ _ | .cancel _ | .deliver _ | .relay | .fail | .append _ _
  | .purge _ _ | .abort => isTrue trivial

/-- A JVM whose random UUIDs do not repeat. -/
def unrepeated (c : Config Store Proc) (t : ℕ) (a : Act) : Prop :=
  a.stamped ∧ ((c.procs t).draws → a.unused c.store)

instance (c : Config Store Proc) (t : ℕ) (a : Act) : Decidable (unrepeated c t a) :=
  inferInstanceAs (Decidable (_ ∧ (_ → _)))

lemma stamping_of_unrepeated {c : Config Store Proc} (h : Run service unrepeated initial c) :
    Run service stamping initial c :=
  h.mono fun _ _ _ hok => hok.1

/-! ### The invariant -/

/-- The operation of an event leaves its order as the row stands. -/
structure Leaves (e : PartnerOrderEvent) (o : Order) : Prop where
  carries : Carries e o
  status : o.status = if e.operation = .cancel then .cancelled else .confirmed

/-- The orders against the rows that were written for them. -/
structure Books (orders : List Order) (written : List OutboxRow) : Prop where
  ids : Table.Unique OutboxRow.eventId written
  named : ∀ r ∈ written, ∀ e ∈ r.partner, e.eventId = r.eventId
  signed : ∀ e ∈ written.filterMap OutboxRow.partner, ∀ o ∈ orders, o.orderId = e.orderId →
    e.sellerId = o.sellerId ∧ e.runId = o.runId
  pending : ∀ o ∈ orders, o.status = .pending →
    eventsOf o.orderId (written.filterMap OutboxRow.partner) = []
  current : ∀ o ∈ orders, ∀ e,
    (eventsOf o.orderId (written.filterMap OutboxRow.partner)).getLast? = some e → Leaves e o

/-- The row about to be committed has an id of its own. -/
def Proc.unused (s : Store) : Proc → Prop
  | .inside _ (.commit row) => ∀ r ∈ s.written, r.eventId ≠ row.eventId
  | _ => True

/-! ### Steps -/

lemma Operates.sellerId {old o : Order} {operation : Operation} (h : Operates old operation o) :
    o.sellerId = old.sellerId ∧ o.runId = old.runId := by
  cases h <;> exact ⟨rfl, rfl⟩

/-- The status an operation leaves. -/
lemma Operates.status {old o : Order} {operation : Operation} (h : Operates old operation o) :
    o.status = if operation = .cancel then .cancelled else .confirmed := by
  cases h with
  | create hpending => rfl
  | change hconfirmed => exact hconfirmed
  | cancel hconfirmed => rfl

section Steps

variable {orders : List Order} {written : List OutboxRow} (hb : Books orders written)

include hb

/-- A new row with a new id keeps the ids. -/
lemma Books.ids_concat {row : OutboxRow} (hnew : ∀ r ∈ written, r.eventId ≠ row.eventId) :
    Table.Unique OutboxRow.eventId (written ++ [row]) :=
  hb.ids.concat (Table.get_eq_none.mpr hnew)

/-- The commit of a new order keeps the books. -/
lemma Books.create {o : Order} {row : OutboxRow} (hrow : row.partner = none)
    (hnew : ∀ r ∈ written, r.eventId ≠ row.eventId)
    (hnone : eventsOf o.orderId (written.filterMap OutboxRow.partner) = []) :
    Books (orders ++ [o]) (written ++ [row]) := by
  have haccepted : (written ++ [row]).filterMap OutboxRow.partner =
      written.filterMap OutboxRow.partner := by
    rw [accepted_append, hrow]
    exact List.append_nil _
  refine ⟨hb.ids_concat hnew, fun r hr e he => ?_, fun e he x hx hxe => ?_, fun x hx hp => ?_,
    fun x hx e he => ?_⟩
  · rcases List.mem_append.mp hr with hr | hr
    · exact hb.named r hr e he
    · rw [List.mem_singleton.mp hr, hrow] at he
      cases he
  · rw [haccepted] at he
    rcases List.mem_append.mp hx with hx | hx
    · exact hb.signed e he x hx hxe
    · -- an order that was just created has no events
      rw [List.mem_singleton.mp hx] at hxe
      have hmem : e ∈ eventsOf o.orderId (written.filterMap OutboxRow.partner) :=
        List.mem_filter.mpr ⟨he, by simp [hxe]⟩
      rw [hnone] at hmem
      cases hmem
  · rw [haccepted]
    rcases List.mem_append.mp hx with hx | hx
    · exact hb.pending x hx hp
    · rw [List.mem_singleton.mp hx]
      exact hnone
  · rw [haccepted] at he
    rcases List.mem_append.mp hx with hx | hx
    · exact hb.current x hx e he
    · rw [List.mem_singleton.mp hx, hnone] at he
      cases he

/-- The commit of a partner operation keeps the books. -/
lemma Books.enqueue {old o : Order} {operation : Operation} {row : OutboxRow} {uuid : String}
    {time : ℤ} (hold : old ∈ orders) (hop : Operates old operation o)
    (hpartner : row.partner = some (o.nextPartnerSequence.partnerEvent uuid operation time))
    (hid : row.eventId = uuid) (hnew : ∀ r ∈ written, r.eventId ≠ row.eventId) :
    Books (Table.put Order.orderId o.nextPartnerSequence orders) (written ++ [row]) := by
  have hsame : o.nextPartnerSequence.orderId = old.orderId := hop.orderId
  have hstatus : o.nextPartnerSequence.status =
      if operation = .cancel then .cancelled else .confirmed := hop.status
  refine ⟨hb.ids_concat hnew, fun r hr e he => ?_, fun e he x hx hxe => ?_, fun x hx hp => ?_,
    fun x hx e he => ?_⟩
  · rcases List.mem_append.mp hr with hr | hr
    · exact hb.named r hr e he
    · rw [List.mem_singleton.mp hr] at he ⊢
      rw [hpartner] at he
      cases he
      exact hid.symm
  · rw [accepted_append, hpartner] at he
    rcases List.mem_append.mp he with he | he
    · rcases Table.mem_put.mp hx with rfl | ⟨hx, -⟩
      · obtain ⟨hseller, hrun⟩ := hb.signed e he old hold (hsame.symm.trans hxe)
        exact ⟨hseller.trans hop.sellerId.1.symm, hrun.trans hop.sellerId.2.symm⟩
      · exact hb.signed e he x hx hxe
    · rw [Option.toList_some, List.mem_singleton] at he
      subst he
      rcases Table.mem_put.mp hx with rfl | ⟨hx, hne⟩
      · exact ⟨rfl, rfl⟩
      · exact absurd hxe hne
  · rw [accepted_append, hpartner, Option.toList_some, eventsOf_append]
    rcases Table.mem_put.mp hx with rfl | ⟨hx, hne⟩
    · rw [hstatus] at hp
      split_ifs at hp
    · rw [if_neg (fun h => hne h.symm)]
      exact hb.pending x hx hp
  · rw [accepted_append, hpartner, Option.toList_some, eventsOf_append] at he
    rcases Table.mem_put.mp hx with rfl | ⟨hx, hne⟩
    · rw [if_pos (show (o.nextPartnerSequence.partnerEvent uuid operation time).orderId =
        o.nextPartnerSequence.orderId from rfl), List.getLast?_concat] at he
      cases he
      exact ⟨⟨rfl, rfl, rfl, rfl, rfl⟩, hstatus⟩
    · rw [if_neg (fun h => hne h.symm)] at he
      exact hb.current x hx e he

/-- The cancellation of a pending order keeps the books. -/
lemma Books.cancel {old : Order} (hold : old ∈ orders) (hpending : old.status = .pending) :
    Books (Table.put Order.orderId { old with status := .cancelled } orders) written := by
  refine ⟨hb.ids, hb.named, fun e he x hx hxe => ?_, fun x hx hp => ?_, fun x hx e he => ?_⟩
  · rcases Table.mem_put.mp hx with rfl | ⟨hx, -⟩
    · exact hb.signed e he old hold hxe
    · exact hb.signed e he x hx hxe
  · rcases Table.mem_put.mp hx with rfl | ⟨hx, -⟩
    · cases hp
    · exact hb.pending x hx hp
  · rcases Table.mem_put.mp hx with rfl | ⟨hx, -⟩
    · rw [show eventsOf _ _ = [] from hb.pending old hold hpending] at he
      cases he
    · exact hb.current x hx e he

end Steps

/-- Every step keeps the books. -/
lemma Books.step (hb : Books s.db.orders s.written) (hi : Streams s.db.orders s.accepted)
    (hp : p.unused s) (h : Effect t s p s') : Books s'.db.orders s'.written := by
  cases h with
  | @create o row locks hproc hk hcap =>
      subst hproc
      obtain ⟨⟨-, -, -, hsaved⟩, -, hwrites⟩ := hk
      have habsent := Table.get_eq_none.mp (hsaved rfl).1
      refine hb.create (by rw [show row = _ from hwrites]; rfl) hp ?_
      refine List.filter_eq_nil_iff.mpr fun e he => ?_
      obtain ⟨y, hy, hye⟩ := hi.orders e he
      simpa [hye] using habsent y hy
  | @enqueue o operation row locks hproc hk hcap hmine =>
      subst hproc
      obtain ⟨⟨old, hold, hprep⟩, -, uuid, time, hrow⟩ := hk
      have hpartner : row.partner = some (o.partnerEvent uuid operation time) := by
        rw [hrow]
        rfl
      have hid : row.eventId = uuid := by
        rw [hrow]
        rfl
      cases hprep with
      | drawn hop => exact hb.enqueue (mem_of_order hold) hop hpartner hid hp
  | @cancel o locks hproc hk hmine =>
      subst hproc
      obtain ⟨old, hold, hpending, rfl⟩ := hk
      exact hb.cancel (mem_of_order hold) hpending
  | _ => exact hb

lemma txNext_unused {tx : Tx} {uuid : String} {time : ℤ} {delivered : List String} {pc : TxPc}
    (hok : pc = .saveOutbox → ∀ r ∈ s.written, r.eventId ≠ uuid)
    (h : txNext t s tx uuid time delivered pc = some (s', p')) : p'.unused s' := by
  have hafter : ∀ s : Store, (Proc.inside tx tx.afterChecks).unused s := by
    intro s
    cases tx <;> trivial
  cases pc with
  | lockCapacity =>
      simp only [txNext, refuse] at h
      split_ifs at h <;> cases h <;> trivial
  | countOutbox =>
      simp only [txNext, refuse] at h
      split_ifs at h <;> cases h
      · trivial
      · trivial
      · exact hafter _
  | countBusiness view =>
      simp only [txNext, refuse] at h
      split_ifs at h <;> cases h
      · trivial
      · exact hafter _
  | saveOrder =>
      simp only [txNext] at h
      split at h <;> cases h
      trivial
  | saveOutbox =>
      simp only [txNext] at h
      split_ifs at h
      · split at h <;> cases h <;> exact hok rfl
      · cases h
        trivial
  | commit row =>
      simp only [txNext] at h
      split at h <;> cases h <;> trivial

lemma next_unused (hok : p.draws → a.unused s) (h : next t s p a = some (s', p')) :
    p'.unused s' := by
  cases next_move h with
  | inside h =>
      refine txNext_unused (fun hpc => ?_) h
      subst hpc
      exact hok trivial
  | mutate h =>
      obtain ⟨_, h⟩ | ⟨_, _, -, -, -, -, -, rfl⟩ := mutateNext_cases h
      · cases h
        trivial
      · trivial
  | handle h =>
      obtain ⟨-, rfl⟩ | ⟨_, _, -, -, -, ⟨-, -, rfl⟩ | ⟨-, -, rfl⟩⟩ := handleNext_cases h <;> trivial
  | relaying h =>
      unfold relayNext at h
      split at h <;> try split_ifs at h
      all_goals (cases h; trivial)
  | _ => trivial

/-- Under the capacity lock no other row is written. -/
lemma Proc.unused_other (h : Effect t s p s') (hut : u ≠ t) {q : Proc}
    (hheld : ∀ r ∈ q.held, (r, u) ∈ s.locks) (hq : q.unused s) : q.unused s' := by
  cases q with
  | inside tx pc =>
      cases pc with
      | commit row =>
          intro r hr
          rw [(h.outbox_capacity (hheld _ (capacity_held rfl)) hut).1] at hr
          exact hq r hr
      | _ => trivial
  | _ => trivial

/-! ### Every run -/

/-- The books of every run. -/
theorem reachable_books {c : Config Store Proc} (h : Run service unrepeated initial c) :
    Books c.store.db.orders c.store.written ∧ ∀ t, (c.procs t).unused c.store := by
  refine Run.invariant (I := fun s => Books s.db.orders s.written) (J := fun _ s p => p.unused s)
    (K := fun c => Run service unrepeated initial c) (fun _ h => h) ?_ ?_ ?_ h
  · refine ⟨⟨List.nodup_nil, ?_, ?_, ?_, ?_⟩, fun _ => trivial⟩ <;> simp [initial]
  · intro c t a s' p' hrun hok hb hq hnext
    have hi := (reachable_streams (stamping_of_unrepeated hrun)).1
    exact ⟨hb.step hi (hq t) (reachable_effect hrun hnext), next_unused hok.2 hnext⟩
  · intro c t a s' p' u hrun _ _ hq hnext hut
    exact Proc.unused_other (reachable_effect hrun hnext) hut ((reachable_locks hrun).2 u) (hq u)

/-- The accepted events are never taken back. -/
lemma Effect.accepted_subset (h : Effect t s p s') : s.accepted ⊆ s'.accepted := by
  rcases h.accepted_cases with heq | ⟨e, heq, -⟩
  · rw [heq]
    exact List.Subset.refl _
  · rw [heq]
    exact List.subset_append_left _ _

/-- The stream of an order, while there are few operations. -/
lemma stream_of_few {c : Config Store Proc} (h : Run service stamping initial c)
    (hfew : c.store.accepted.length < 2 ^ 31) {o : Order} (ho : o ∈ c.store.db.orders) :
    Stream o (eventsOf o.orderId c.store.accepted) :=
  (reachable_streams h).1.streams o ho (lt_of_le_of_lt (List.length_filter_le _ _) hfew)

/-- **The accepted events are a catalogue**: no two of them share an id or a place in an
order. -/
theorem accepted_catalogue {c : Config Store Proc} (h : Run service unrepeated initial c)
    (hfew : c.store.accepted.length < 2 ^ 31) : Catalogue (· ∈ c.store.accepted) := by
  have hb := (reachable_books h).1
  have hstamping := stamping_of_unrepeated h
  refine ⟨fun e e' he he' horder hseq => ?_, fun e e' he he' hid => ?_⟩
  · obtain ⟨o, ho, hoe⟩ := (reachable_streams hstamping).1.orders e he
    have hstream := stream_of_few hstamping hfew ho
    have hnodup : ((eventsOf o.orderId c.store.accepted).map (·.sequence)).Nodup := by
      rw [hstream.numbered]
      exact nodup_upTo _
    have hid : e'.orderId = e.orderId := (congrArg OrderKey.orderId horder).symm
    have hmem : e ∈ eventsOf o.orderId c.store.accepted :=
      List.mem_filter.mpr ⟨he, by simp [hoe]⟩
    have hmem' : e' ∈ eventsOf o.orderId c.store.accepted :=
      List.mem_filter.mpr ⟨he', by simp [hoe, hid]⟩
    rw [List.inj_on_of_nodup_map hnodup hmem hmem' hseq]
  · obtain ⟨r, hr, hre⟩ := List.mem_filterMap.mp he
    obtain ⟨r', hr', hre'⟩ := List.mem_filterMap.mp he'
    have hrow : r = r' := by
      refine hb.ids.eq hr hr' ?_
      rw [← hb.named r hr e hre, ← hb.named r' hr' e' hre', hid]
    rw [hrow, hre'] at hre
    exact (Option.some.inj hre).symm

end OrderSystem.Orders
