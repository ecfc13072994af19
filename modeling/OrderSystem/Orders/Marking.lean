/-
What a cycle of the relay marks `SENT`.

* `Booked`: the rows, the sends in flight and the acknowledged ones. A row that is `SENT` has an
  acknowledged send, and acknowledged records are in the log in the order of their partition.
* `Cycle.Good`: the sends of a cycle are a front of its batch, in order, and none is made for a
  record that cannot be prepared. When the relay marks, it marks the sends before the first one
  that is not acknowledged (`acknowledged`).
* `Trail`: the sends behind the `SENT` rows of an aggregate in a topic. Their numbers and the ids
  of their rows grow together, as a later cycle sends later rows under later numbers.
* `relay_marks_acknowledged`: what each cycle marks, and where the marked rows are in the log.
-/
import Mathlib.Data.List.TakeWhile
import OrderSystem.Foundations.Log
import OrderSystem.Orders.Cycle
import OrderSystem.Orders.Relay

namespace OrderSystem.Orders

open Interleaving

variable {prepares : OutboxRow → Bool} {partition : Topic × String → ℕ} {s s' : Relay}
  {a : RelayAct} {cy : Cycle} {c : Config Relay Unit}

/-! ### What holds of a cycle -/

/-- The records of a partition, in the order the broker appended them. -/
def Store.log (partition : Topic × String → ℕ) (p : ℕ) (s : Store) : List OutboxRow :=
  s.broker.filter fun r => partition r.route = p

/-- The rows of the sends before the first one that is not acknowledged. -/
def Cycle.acknowledged (cy : Cycle) (s : Relay) : List OutboxRow :=
  (cy.handed.takeWhile fun x => x.1 ∈ s.store.acked).map Prod.snd

/-- The rows of an aggregate in a topic were committed in the order of their ids. -/
def InOrder (route : Topic × String) (s : Store) : Prop :=
  ((s.written.filter fun r => r.route = route).map OutboxRow.id).Pairwise (· < ·)

/-- The `SENT` rows of an aggregate in a topic, by id. -/
def Db.sentRows (route : Topic × String) (db : Db) : List OutboxRow :=
  (db.outbox.filter fun r => r.route = route ∧ r.status = .sent).insertionSort
    fun r x => r.id ≤ x.id

/-- What the relay may mark, and what it marks. -/
structure Marks (prepares : OutboxRow → Bool) (partition : Topic × String → ℕ) (s : Relay) :
    Prop where
  marks : ∀ cy sent time s', s.cycle = some cy → cy.pc = .marking sent →
    s.step (.go time) = some s' → cy.acknowledged s <+: cy.batch ∧
      (∀ r ∈ cy.batch, r ∉ cy.acknowledged s → r ∈ s'.store.db.outbox ∧ r.status = .pending) ∧
      s'.store.db.outbox = s.store.db.outbox.map fun r =>
        if r.id ∈ (cy.acknowledged s).map OutboxRow.id then r.markSent time else r
  handed : ∀ cy, s.cycle = some cy → cy.handed.map Prod.snd <+: cy.batch.takeWhile prepares
  logged : ∀ r ∈ s.store.db.outbox, r.status = .sent → r.plain ∈ s.store.broker
  ordered : ∀ route, InOrder route s.store →
    ((s.store.db.sentRows route).map OutboxRow.plain).Sublist
      (s.store.log partition (partition route))

/-! ### The invariants -/

/-- What holds of the rows and the sends. -/
structure Booked (partition : Topic × String → ℕ) (s : Relay) : Prop where
  ids : Table.Unique OutboxRow.id s.store.written
  rows : (s.store.db.outbox.map OutboxRow.plain).Sublist s.store.written
  pending : ∀ r ∈ s.store.db.outbox, r.status = .pending → r.plain = r
  sent : ∀ r ∈ s.store.db.outbox, r.status = .sent → ∃ x ∈ s.acks, x.2 = r.plain
  flight : ∀ x ∈ s.store.inFlight, x.1 < s.store.nextSend ∧ x.2 ∈ s.store.written
  acks : ∀ x ∈ s.acks, x.1 < s.store.nextSend ∧ x.2 ∈ s.store.written
  acked : s.store.acked = s.acks.map Prod.fst
  order : ∀ p, (s.acks.filter fun x => partition x.2.route = p).Pairwise (·.1 < ·.1)
  log : (s.acks.map Prod.snd).Sublist s.store.broker

/-- What the relay knows at its next statement. -/
def Cycle.knows (s : Relay) (cy : Cycle) : Prop :=
  match cy.pc with
  | .sending todo sends => sends = cy.handed ∧ cy.handed.map Prod.snd ++ todo = cy.batch
  | .awaiting sends sent => ∃ done, done ++ sends = cy.handed ∧ sent = done.map (·.2.id) ∧
      ∀ x ∈ done, x.1 ∈ s.store.acked
  | .marking sent => sent = (cy.acknowledged s).map OutboxRow.id
  | .purging => True

/-- What holds of a cycle. -/
structure Cycle.Good (prepares : OutboxRow → Bool) (s : Relay) (cy : Cycle) : Prop where
  batch : cy.pc ≠ .purging → ∀ r ∈ cy.batch, r ∈ s.store.db.outbox ∧ r.status = .pending
  wrote : ∀ r ∈ cy.batch, r ∈ s.store.written
  sorted : cy.batch.Pairwise (·.id < ·.id)
  front : cy.handed.map Prod.snd <+: cy.batch
  prepared : ∀ x ∈ cy.handed, prepares x.2 = true
  numbers : cy.handed.Pairwise (·.1 < ·.1)
  sends : ∀ x ∈ cy.handed, x.1 < s.store.nextSend ∧
    (∀ y ∈ s.store.inFlight, y.1 = x.1 → y = x) ∧ ∀ y ∈ s.acks, y.1 = x.1 → y = x
  knows : cy.knows s

/-- The sends behind the `SENT` rows of an aggregate in a topic. -/
structure Trail (route : Topic × String) (s : Relay) (trail : List (ℕ × OutboxRow)) : Prop where
  acks : trail ⊆ s.acks
  routed : ∀ x ∈ trail, x.2.route = route
  numbers : trail.Pairwise (·.1 < ·.1)
  ids : trail.Pairwise (·.2.id < ·.2.id)
  sent : ∀ r ∈ s.store.db.outbox, r.route = route → r.status = .sent →
    r.plain ∈ trail.map Prod.snd
  front : ∀ x ∈ trail, ∀ r ∈ s.store.db.outbox, r.route = route →
    r.status = .pending → x.2.id < r.id
  later : ∀ cy, s.cycle = some cy → cy.pc ≠ .purging → ∀ x ∈ trail, ∀ y ∈ cy.handed, x.1 < y.1
  closed : ∀ cy, s.cycle = some cy → ∀ y ∈ cy.batch, y.route = route →
    ∀ r ∈ s.store.db.outbox, r.route = route → r.status = .pending → r.id < y.id →
      r ∈ cy.batch

/-! ### Rows and sends -/

@[simp] lemma OutboxRow.plain_id (r : OutboxRow) : r.plain.id = r.id := rfl

@[simp] lemma OutboxRow.plain_route (r : OutboxRow) :
    r.plain.route = r.route := rfl

@[simp] lemma OutboxRow.plain_markSent (r : OutboxRow) (time : ℤ) :
    (r.markSent time).plain = r.plain := rfl

@[simp] lemma OutboxRow.plain_plain (r : OutboxRow) : r.plain.plain = r.plain := rfl

namespace Booked

lemma mem_written (h : Booked partition s) {r : OutboxRow} (hr : r ∈ s.store.db.outbox) :
    r.plain ∈ s.store.written :=
  h.rows.subset (List.mem_map_of_mem hr)

lemma outboxIds (h : Booked partition s) : Table.Unique OutboxRow.id s.store.db.outbox := by
  have hids := (h.rows.map OutboxRow.id).nodup h.ids
  rwa [List.map_map] at hids

/-- An acknowledged send of the cycle is in the list of the acknowledged ones. -/
lemma mem_acks (h : Booked partition s) (hgood : cy.Good prepares s) {x : ℕ × OutboxRow}
    (hx : x ∈ cy.handed) (hack : x.1 ∈ s.store.acked) : x ∈ s.acks := by
  rw [h.acked] at hack
  obtain ⟨y, hy, heq⟩ := List.mem_map.mp hack
  rwa [(hgood.sends x hx).2.2 y hy heq] at hy

end Booked

/-- The sends behind the acknowledged rows. -/
lemma Cycle.mem_acknowledged {r : OutboxRow} :
    r ∈ cy.acknowledged s ↔
      ∃ x ∈ cy.handed.takeWhile fun x => x.1 ∈ s.store.acked, x.2 = r :=
  List.mem_map

lemma mem_takeWhile_acked {handed : List (ℕ × OutboxRow)} {acked : List ℕ} {x : ℕ × OutboxRow}
    (h : x ∈ handed.takeWhile fun x => x.1 ∈ acked) : x ∈ handed ∧ x.1 ∈ acked := by
  have hack := List.mem_takeWhile_imp h
  exact ⟨(List.takeWhile_sublist _).subset h, of_decide_eq_true hack⟩

/-- The acknowledged rows are a front of the batch. -/
lemma Cycle.Good.acknowledged_front (h : cy.Good prepares s) :
    cy.acknowledged s <+: cy.batch := by
  have hfront : (cy.handed.takeWhile fun x => x.1 ∈ s.store.acked) <+: cy.handed :=
    ⟨_, List.takeWhile_append_dropWhile⟩
  exact (hfront.map Prod.snd).trans h.front

/-- Appending keeps what the relay may rely on. -/
lemma Booked.append (h : Booked partition s) {n : ℕ} {lost : Bool} {r : OutboxRow}
    (hmem : (n, r) ∈ s.store.inFlight) (hlookup : s.store.inFlight.lookup n = some r)
    (hok : answering prepares partition s (.append n lost)) :
    Booked partition { s with
      store := { s.store with inFlight := s.store.inFlight.filter fun x => x.1 ≠ n
                              broker := s.store.broker ++ [r]
                              acked := if lost then s.store.acked else s.store.acked ++ [n] }
      acks := if lost then s.acks else s.acks ++ [(n, r)] } := by
  have hflight : ∀ x ∈ s.store.inFlight.filter fun x => x.1 ≠ n,
      x.1 < s.store.nextSend ∧ x.2 ∈ s.store.written :=
    fun x hx => h.flight x (List.mem_filter.mp hx).1
  cases lost with
  | true =>
      exact ⟨h.ids, h.rows, h.pending, h.sent, hflight, h.acks, h.acked, h.order,
        h.log.trans (List.sublist_append_left _ _)⟩
  | false =>
      refine ⟨h.ids, h.rows, h.pending, fun x hx hsent => ?_, hflight, fun x hx => ?_, ?_,
        fun p => ?_, ?_⟩
      · obtain ⟨y, hy, heq⟩ := h.sent x hx hsent
        exact ⟨y, List.mem_append_left _ hy, heq⟩
      · rcases List.mem_append.mp hx with hx | hx
        · exact h.acks x hx
        · rw [List.mem_singleton.mp hx]
          exact h.flight _ hmem
      · show s.store.acked ++ [n] = (s.acks ++ [(n, r)]).map Prod.fst
        rw [List.map_append, ← h.acked]
        rfl
      · show ((s.acks ++ [(n, r)]).filter _).Pairwise _
        rw [List.filter_append, List.pairwise_append]
        refine ⟨h.order p, ?_, fun x hx y hy => ?_⟩
        · exact (List.pairwise_singleton _ (n, r)).sublist List.filter_sublist
        · obtain ⟨hx, hxp⟩ := List.mem_filter.mp hx
          obtain ⟨hy, hyp⟩ := List.mem_filter.mp hy
          rw [List.mem_singleton.mp hy] at hyp ⊢
          refine hok.2 r hlookup x hx ?_
          rw [of_decide_eq_true hxp, of_decide_eq_true hyp]
      · show ((s.acks ++ [(n, r)]).map Prod.snd).Sublist (s.store.broker ++ [r])
        rw [List.map_append]
        exact h.log.append (List.Sublist.refl _)

/-- Marking the acknowledged rows. -/
lemma Booked.mark (h : Booked partition s) (hgood : cy.Good prepares s) (cycle : Option Cycle)
    (time : ℤ) :
    Booked partition { s with
      store := { s.store with
        db := s.store.db.markSent ((cy.acknowledged s).map OutboxRow.id) time }
      cycle := cycle } := by
  refine ⟨h.ids, ?_, fun r hr hpending => ?_, fun r hr hsent => ?_, h.flight, h.acks, h.acked,
    h.order, h.log⟩
  · have hplain : (s.store.db.markSent ((cy.acknowledged s).map OutboxRow.id) time).outbox.map
        OutboxRow.plain = s.store.db.outbox.map OutboxRow.plain := by
      rw [Db.markSent, List.map_map]
      refine List.map_congr_left fun r _ => ?_
      simp only [Function.comp_apply]
      split_ifs <;> rfl
    show ((s.store.db.markSent _ time).outbox.map OutboxRow.plain).Sublist _
    rw [hplain]
    exact h.rows
  · obtain ⟨x, hx, rfl⟩ := mem_markSent hr
    split_ifs at hpending ⊢ with hid
    · cases hpending
    · exact h.pending x hx hpending
  · obtain ⟨x, hx, rfl⟩ := mem_markSent hr
    split_ifs at hsent ⊢ with hid
    · -- the row is the one of an acknowledged send
      obtain ⟨y, hy, hyid⟩ := List.mem_map.mp hid
      obtain ⟨z, hz, rfl⟩ := Cycle.mem_acknowledged.mp hy
      obtain ⟨hz, hack⟩ := mem_takeWhile_acked hz
      have hacks := h.mem_acks hgood hz hack
      have hrow : x.plain ∈ s.store.written := h.mem_written hx
      exact ⟨z, hacks, h.ids.eq (h.acks z hacks).2 hrow hyid⟩
    · exact h.sent x hx hsent

/-- **Every step keeps the books.** -/
lemma Booked.step (h : Booked partition s) (hgood : ∀ cy, s.cycle = some cy → cy.Good prepares s)
    (hok : answering prepares partition s a) (hmove : RelayMove s a s') : Booked partition s' := by
  cases hmove with
  | @commit row hnew =>
      have hsub : s.store.written ⊆ s.store.written ++ [row.plain] := List.subset_append_left _ _
      refine ⟨?_, ?_, fun r hr hpending => ?_, fun r hr hsent => ?_,
        fun x hx => ⟨(h.flight x hx).1, hsub (h.flight x hx).2⟩,
        fun x hx => ⟨(h.acks x hx).1, hsub (h.acks x hx).2⟩, h.acked, h.order, h.log⟩
      · exact h.ids.concat (Table.get_eq_none.mpr hnew)
      · show ((s.store.db.outbox ++ [row.plain]).map OutboxRow.plain).Sublist _
        rw [List.map_append]
        exact h.rows.append (List.Sublist.refl _)
      · rcases List.mem_append.mp hr with hr | hr
        · exact h.pending r hr hpending
        · rw [List.mem_singleton.mp hr]
          rfl
      · rcases List.mem_append.mp hr with hr | hr
        · exact h.sent r hr hsent
        · rw [List.mem_singleton.mp hr] at hsent
          cases hsent
  | @send time batch todo handed sends r hcy =>
      have hrow : r ∈ s.store.written := by
        have hr : r ∈ batch := by
          obtain ⟨-, hbatch⟩ := (hgood _ hcy).knows
          have hsplit : handed.map Prod.snd ++ r :: todo = batch := hbatch
          rw [← hsplit]
          simp
        obtain ⟨hr, hpending⟩ := (hgood _ hcy).batch (by simp) r hr
        have := h.mem_written hr
        rwa [h.pending r hr hpending] at this
      refine ⟨h.ids, h.rows, h.pending, h.sent, fun x hx => ?_,
        fun x hx => ⟨Nat.lt_succ_of_lt (h.acks x hx).1, (h.acks x hx).2⟩, h.acked, h.order, h.log⟩
      rcases List.mem_append.mp hx with hx | hx
      · exact ⟨Nat.lt_succ_of_lt (h.flight x hx).1, (h.flight x hx).2⟩
      · rw [List.mem_singleton.mp hx]
        exact ⟨Nat.lt_succ_self _, hrow⟩
  | @marked time batch handed sent hcy =>
      have hsent : sent = ((⟨batch, handed, .marking sent⟩ : Cycle).acknowledged s).map
        OutboxRow.id := (hgood _ hcy).knows
      have hmark := h.mark (hgood _ hcy) (some ⟨batch, handed, .purging⟩) time
      rwa [← hsent] at hmark
  | @purged before ids batch handed hcy hsent =>
      refine ⟨h.ids, (List.filter_sublist.map _).trans h.rows,
        fun r hr => h.pending r (List.mem_filter.mp hr).1,
        fun r hr => h.sent r (List.mem_filter.mp hr).1, h.flight, h.acks, h.acked, h.order, h.log⟩
  | append hmem hlookup => exact h.append hmem hlookup hok
  | _ => exact ⟨h.ids, h.rows, h.pending, h.sent, h.flight, h.acks, h.acked, h.order, h.log⟩

/-! ### Cycles -/

/-- Rows of the outbox in the order of their ids. -/
lemma Booked.sorted_rows (h : Booked partition s) (p : OutboxRow → Bool) :
    ((s.store.db.outbox.filter p).insertionSort fun r x => r.id ≤ x.id).Pairwise
      (·.id < ·.id) := by
  have hsorted := List.pairwise_insertionSort (fun r x : OutboxRow => r.id ≤ x.id)
    (s.store.db.outbox.filter p)
  have hnodup : ((s.store.db.outbox.filter p).insertionSort
      fun r x => r.id ≤ x.id).Pairwise fun r x => r.id ≠ x.id := by
    refine List.pairwise_map.mp ?_
    refine ((List.perm_insertionSort _ _).map OutboxRow.id).nodup_iff.mpr ?_
    exact (List.filter_sublist.map _).nodup h.outboxIds
  exact (hsorted.and hnodup).imp fun h => lt_of_le_of_ne h.1 h.2

/-- The batch is in the order of the ids. -/
lemma Booked.sorted_batch (h : Booked partition s) :
    s.store.db.findTop500Pending.Pairwise (·.id < ·.id) :=
  (h.sorted_rows _).sublist (List.take_sublist _ _)

/-- The acknowledged rows once the relay stops waiting. -/
lemma acknowledged_eq {handed done sends : List (ℕ × OutboxRow)} {batch : List OutboxRow}
    {pc : RelayPc} (hsplit : done ++ sends = handed) (hdone : ∀ x ∈ done, x.1 ∈ s.store.acked)
    (hnext : ∀ x ∈ sends.head?, x.1 ∉ s.store.acked) :
    (⟨batch, handed, pc⟩ : Cycle).acknowledged s = done.map Prod.snd := by
  have hrest : (sends.takeWhile fun x => x.1 ∈ s.store.acked) = [] := by
    cases sends with
    | nil => rfl
    | cons x sends => simp [hnext x rfl]
  show ((handed.takeWhile fun x => x.1 ∈ s.store.acked).map Prod.snd) = _
  rw [← hsplit, List.takeWhile_append_of_pos (by simpa using hdone), hrest, List.append_nil]

section Cycles

variable {batch todo : List OutboxRow} {handed sends : List (ℕ × OutboxRow)} {r : OutboxRow}
  {pc : RelayPc}

/-- The next record is handed to the broker. -/
lemma Cycle.Good.send (hb : Booked partition s)
    (h : (⟨batch, handed, .sending (r :: todo) sends⟩ : Cycle).Good prepares s)
    (hr : prepares r = true) :
    (⟨batch, handed ++ [(s.store.nextSend, r)],
      .sending todo (sends ++ [(s.store.nextSend, r)])⟩ : Cycle).Good prepares { s with
        store := { s.store with inFlight := s.store.inFlight ++ [(s.store.nextSend, r)]
                                nextSend := s.store.nextSend + 1 }
        cycle := some ⟨batch, handed ++ [(s.store.nextSend, r)],
          .sending todo (sends ++ [(s.store.nextSend, r)])⟩ } := by
  obtain ⟨hsends, hsplit⟩ : sends = handed ∧ handed.map Prod.snd ++ r :: todo = batch := h.knows
  have hsplit' : (handed ++ [(s.store.nextSend, r)]).map Prod.snd ++ todo = batch := by
    rw [← hsplit]
    simp
  refine ⟨fun _ => h.batch (by simp), h.wrote, h.sorted, ⟨todo, hsplit'⟩, fun x hx => ?_, ?_,
    fun x hx => ?_, ⟨by rw [hsends], hsplit'⟩⟩
  · rcases List.mem_append.mp hx with hx | hx
    · exact h.prepared x hx
    · rw [List.mem_singleton.mp hx]
      exact hr
  · refine List.pairwise_append.mpr ⟨h.numbers, List.pairwise_singleton _ _, fun x hx y hy => ?_⟩
    rw [List.mem_singleton.mp hy]
    exact (h.sends x hx).1
  · rcases List.mem_append.mp hx with hx | hx
    · obtain ⟨hlt, hflight, hacks⟩ := h.sends x hx
      refine ⟨Nat.lt_succ_of_lt hlt, fun y hy heq => ?_, hacks⟩
      rcases List.mem_append.mp hy with hy | hy
      · exact hflight y hy heq
      · rw [List.mem_singleton.mp hy] at heq
        exact absurd heq (Nat.ne_of_gt hlt)
    · rw [List.mem_singleton.mp hx]
      refine ⟨Nat.lt_succ_self _, fun y hy heq => ?_, fun y hy heq => ?_⟩
      · rcases List.mem_append.mp hy with hy | hy
        · exact absurd heq (Nat.ne_of_lt (hb.flight y hy).1)
        · exact List.mem_singleton.mp hy
      · exact absurd heq (Nat.ne_of_lt (hb.acks y hy).1)

/-- The broker appends a record. -/
lemma Cycle.Good.append (h : cy.Good prepares s) (hcy : s.cycle = some cy) {n : ℕ} {lost : Bool}
    (hmem : (n, r) ∈ s.store.inFlight) (hok : answering prepares partition s (.append n lost)) :
    cy.Good prepares { s with
      store := { s.store with inFlight := s.store.inFlight.filter fun x => x.1 ≠ n
                              broker := s.store.broker ++ [r]
                              acked := if lost then s.store.acked else s.store.acked ++ [n] }
      acks := if lost then s.acks else s.acks ++ [(n, r)] } := by
  have hacked : s.store.acked ⊆ if lost then s.store.acked else s.store.acked ++ [n] := by
    split_ifs
    · exact List.Subset.refl _
    · exact List.subset_append_left _ _
  refine ⟨h.batch, h.wrote, h.sorted, h.front, h.prepared, h.numbers, fun x hx => ?_, ?_⟩
  · obtain ⟨hlt, hflight, hacks⟩ := h.sends x hx
    refine ⟨hlt, fun y hy => hflight y (List.mem_filter.mp hy).1, fun y hy heq => ?_⟩
    cases lost with
    | true => exact hacks y hy heq
    | false =>
        rcases List.mem_append.mp hy with hy | hy
        · exact hacks y hy heq
        · rw [List.mem_singleton.mp hy] at heq ⊢
          exact hflight _ hmem heq
  · obtain ⟨batch, handed, pc⟩ := cy
    have hknows := h.knows
    cases pc with
    | sending todo sends => exact hknows
    | awaiting sends sent =>
        obtain ⟨done, hsplit, hsent, hdone⟩ := hknows
        exact ⟨done, hsplit, hsent, fun x hx => hacked (hdone x hx)⟩
    | marking sent =>
        cases lost with
        | true => exact hknows
        | false =>
            -- nobody waits for an answer any more
            obtain ⟨cy, hcy', x, hx, -⟩ := hok.1
            cases hcy.symm.trans hcy'
            cases hx
    | purging => trivial

/-- The relay stops waiting. -/
lemma Cycle.Good.stop {sent : List ℕ}
    (h : (⟨batch, handed, .awaiting sends sent⟩ : Cycle).Good prepares s)
    (hnext : ∀ x ∈ sends.head?, x.1 ∉ s.store.acked) :
    (⟨batch, handed, .marking sent⟩ : Cycle).Good prepares
      { s with cycle := some ⟨batch, handed, .marking sent⟩ } := by
  obtain ⟨done, hsplit, hsent, hdone⟩ := h.knows
  refine ⟨fun _ => h.batch (by simp), h.wrote, h.sorted, h.front, h.prepared, h.numbers,
    h.sends, ?_⟩
  show sent = ((⟨batch, handed, .marking sent⟩ : Cycle).acknowledged s).map OutboxRow.id
  rw [acknowledged_eq hsplit hdone hnext, hsent, List.map_map]
  rfl

end Cycles

/-- **Every step leaves the relay with what it knows.** -/
lemma Cycle.Good.step (hb : Booked partition s)
    (h : ∀ cy, s.cycle = some cy → cy.Good prepares s)
    (hok : answering prepares partition s a) (hmove : RelayMove s a s') :
    ∀ cy, s'.cycle = some cy → cy.Good prepares s' := by
  cases hmove with
  | commit hnew =>
      intro cy hcy
      have hg := h cy hcy
      refine ⟨fun hpc r hr => ?_, fun r hr => List.mem_append_left _ (hg.wrote r hr), hg.sorted,
        hg.front, hg.prepared, hg.numbers, hg.sends, hg.knows⟩
      exact ⟨List.mem_append_left _ (hg.batch hpc r hr).1, (hg.batch hpc r hr).2⟩
  | start hcy =>
      intro cy hcy'
      obtain rfl := Option.some.inj hcy'
      refine ⟨fun _ r hr => mem_findTop500Pending hr, fun r hr => ?_, hb.sorted_batch,
        ⟨_, rfl⟩, by simp, List.Pairwise.nil, by simp, rfl, rfl⟩
      obtain ⟨hr, hpending⟩ := mem_findTop500Pending hr
      have hwritten := hb.mem_written hr
      rwa [hb.pending r hr hpending] at hwritten
  | @send time batch todo handed sends r hcy =>
      intro cy hcy'
      obtain rfl := Option.some.inj hcy'
      exact (h _ hcy).send hb (hok _ hcy r rfl)
  | @sent time batch handed sends hcy =>
      intro cy hcy'
      obtain rfl := Option.some.inj hcy'
      have hg := h _ hcy
      exact ⟨fun _ => hg.batch (by simp), hg.wrote, hg.sorted, hg.front, hg.prepared, hg.numbers,
        hg.sends, [], hg.knows.1, rfl, by simp⟩
  | @unprepared batch todo handed sends hcy =>
      intro cy hcy'
      obtain rfl := Option.some.inj hcy'
      have hg := h _ hcy
      exact ⟨fun _ => hg.batch (by simp), hg.wrote, hg.sorted, hg.front, hg.prepared, hg.numbers,
        hg.sends, [], hg.knows.1, rfl, by simp⟩
  | @confirm time batch handed sends n r sent hcy hack =>
      intro cy hcy'
      obtain rfl := Option.some.inj hcy'
      have hg := h _ hcy
      obtain ⟨done, hsplit, hsent, hdone⟩ := hg.knows
      refine ⟨fun _ => hg.batch (by simp), hg.wrote, hg.sorted, hg.front, hg.prepared, hg.numbers,
        hg.sends, done ++ [(n, r)], ?_, ?_, fun x hx => ?_⟩
      · rw [← List.append_cons]
        exact hsplit
      · rw [hsent, List.map_append]
        rfl
      · rcases List.mem_append.mp hx with hx | hx
        · exact hdone x hx
        · rw [List.mem_singleton.mp hx]
          exact hack
  | @awaited time batch handed sent hcy =>
      intro cy hcy'
      obtain rfl := Option.some.inj hcy'
      exact (h _ hcy).stop (by simp)
  | @gaveUp batch handed sends sent hcy =>
      intro cy hcy'
      obtain rfl := Option.some.inj hcy'
      refine (h _ hcy).stop fun x hx => ?_
      cases sends with
      | nil => cases hx
      | cons y sends =>
          cases hx
          exact hok _ hcy _ rfl
  | @marked time batch handed sent hcy =>
      intro cy hcy'
      obtain rfl := Option.some.inj hcy'
      have hg := h _ hcy
      exact ⟨fun hpc => absurd rfl hpc, hg.wrote, hg.sorted, hg.front, hg.prepared, hg.numbers,
        hg.sends, trivial⟩
  | append hmem hlookup => exact fun cy hcy => (h cy hcy).append hcy hmem hok
  | _ =>
      intro cy hcy
      cases hcy

/-! ### Trails -/

section Trails

variable {route : Topic × String} {trail : List (ℕ × OutboxRow)}

/-- A row that is still `PENDING` behind the marking was not marked. -/
lemma pending_of_markSent {db : Db} {ids : List ℕ} {time : ℤ} {r : OutboxRow}
    (hr : r ∈ (db.markSent ids time).outbox) (hpending : r.status = .pending) :
    r ∈ db.outbox ∧ r.id ∉ ids := by
  obtain ⟨x, hx, rfl⟩ := mem_markSent hr
  split_ifs at hpending ⊢ with hid
  · cases hpending
  · exact ⟨hx, hid⟩

/-- A pending row of the aggregate comes behind the rows that are marked. -/
lemma Trail.behind_acknowledged (h : Trail route s trail) (hcy : s.cycle = some cy)
    (hgood : cy.Good prepares s) {x r : OutboxRow} (hx : x ∈ cy.acknowledged s)
    (hxa : x.route = route) (hr : r ∈ s.store.db.outbox)
    (hra : r.route = route) (hpending : r.status = .pending)
    (hnot : r.id ∉ (cy.acknowledged s).map OutboxRow.id) : x.id < r.id := by
  obtain ⟨rest, hsplit⟩ := hgood.acknowledged_front
  have hsorted := hgood.sorted
  rw [← hsplit, List.pairwise_append] at hsorted
  rcases lt_trichotomy x.id r.id with hlt | heq | hlt
  · exact hlt
  · exact absurd (List.mem_map.mpr ⟨x, hx, heq⟩) hnot
  · -- the batch had the row in front of the acknowledged one
    have hxb : x ∈ cy.batch := hgood.acknowledged_front.subset hx
    have hrb : r ∈ cy.batch := h.closed cy hcy x hxb hxa r hr hra hpending hlt
    rw [← hsplit] at hrb
    rcases List.mem_append.mp hrb with hrb | hrb
    · exact absurd (List.mem_map_of_mem hrb) hnot
    · exact hsorted.2.2 x hx r hrb

/-- The marked rows extend the trail. -/
lemma Trail.mark {batch : List OutboxRow} {handed : List (ℕ × OutboxRow)} {sent : List ℕ}
    {time : ℤ} (h : Trail route s trail) (hb : Booked partition s)
    (hcy : s.cycle = some ⟨batch, handed, .marking sent⟩)
    (hgood : (⟨batch, handed, .marking sent⟩ : Cycle).Good prepares s) :
    Trail route { s with store := { s.store with db := s.store.db.markSent sent time }
                         cycle := some ⟨batch, handed, .purging⟩ }
      (trail ++ (handed.takeWhile fun x => x.1 ∈ s.store.acked).filter
        fun x => x.2.route = route) := by
  set done := handed.takeWhile fun x => x.1 ∈ s.store.acked with hdone
  have hknows : sent = (done.map Prod.snd).map OutboxRow.id := hgood.knows
  have hmem : ∀ {x}, x ∈ done.filter (fun x => x.2.route = route) →
      x ∈ done ∧ x.2.route = route := by
    intro x hx
    obtain ⟨hx, ha⟩ := List.mem_filter.mp hx
    exact ⟨hx, of_decide_eq_true ha⟩
  have hbatch : ∀ {x}, x ∈ done → x.2 ∈ s.store.db.outbox ∧ x.2.status = .pending := by
    intro x hx
    exact hgood.batch (by simp) _ (hgood.acknowledged_front.subset (List.mem_map_of_mem hx))
  refine ⟨fun x hx => ?_, fun x hx => ?_, ?_, ?_, fun r hr hra hsent => ?_,
    fun x hx r hr hra hpending => ?_, fun cy hcy' hpc => ?_, fun cy hcy' y hy hya r hr hra => ?_⟩
  · rcases List.mem_append.mp hx with hx | hx
    · exact h.acks hx
    · obtain ⟨hxh, hack⟩ := mem_takeWhile_acked (hmem hx).1
      exact hb.mem_acks hgood hxh hack
  · rcases List.mem_append.mp hx with hx | hx
    · exact h.routed x hx
    · exact (hmem hx).2
  · refine List.pairwise_append.mpr ⟨h.numbers, ?_, fun x hx y hy => ?_⟩
    · exact hgood.numbers.sublist (List.filter_sublist.trans (List.takeWhile_sublist _))
    · exact h.later _ hcy (by simp) x hx y (mem_takeWhile_acked (hmem hy).1).1
  · refine List.pairwise_append.mpr ⟨h.ids, ?_, fun x hx y hy => ?_⟩
    · have hsorted : (done.map Prod.snd).Pairwise (·.id < ·.id) :=
        hgood.sorted.sublist hgood.acknowledged_front.sublist
      exact (List.pairwise_map.mp hsorted).sublist List.filter_sublist
    · obtain ⟨hy, hya⟩ := hmem hy
      exact h.front x hx y.2 (hbatch hy).1 hya (hbatch hy).2
  · obtain ⟨x, hx, rfl⟩ := mem_markSent hr
    rw [List.map_append, List.mem_append]
    split_ifs at hra hsent ⊢ with hid
    · refine Or.inr ?_
      rw [hknows] at hid
      obtain ⟨y, hy, hyid⟩ := List.mem_map.mp hid
      obtain ⟨z, hz, rfl⟩ := List.mem_map.mp hy
      obtain rfl : z.2 = x := hb.outboxIds.eq (hbatch hz).1 hx hyid
      refine List.mem_map.mpr ⟨z, List.mem_filter.mpr ⟨hz, decide_eq_true hra⟩, ?_⟩
      exact (hb.pending z.2 hx (hbatch hz).2).symm
    · exact Or.inl (h.sent x hx hra hsent)
  · obtain ⟨hr, hnot⟩ := pending_of_markSent hr hpending
    rcases List.mem_append.mp hx with hx | hx
    · exact h.front x hx r hr hra hpending
    · obtain ⟨hx, hxa⟩ := hmem hx
      rw [hknows] at hnot
      exact h.behind_acknowledged hcy hgood (List.mem_map_of_mem hx) hxa hr hra hpending hnot
  · obtain rfl := Option.some.inj hcy'
    exact absurd rfl hpc
  · intro hpending hlt
    obtain rfl := Option.some.inj hcy'
    obtain ⟨hr, -⟩ := pending_of_markSent hr hpending
    exact h.closed _ hcy y hy hya r hr hra hpending hlt

/-- Rows of the batch come with the pending rows in front of them. -/
lemma closed_findTop500Pending {db : Db} {y r : OutboxRow} (hy : y ∈ db.findTop500Pending)
    (hr : r ∈ db.outbox) (hpending : r.status = .pending) (hlt : r.id < y.id) :
    r ∈ db.findTop500Pending := by
  set rows := (db.outbox.filter fun r => r.status = .pending).insertionSort fun r x => r.id ≤ x.id
    with hrows
  have hsorted : rows.Pairwise (·.id ≤ ·.id) := List.pairwise_insertionSort _ _
  have hmem : r ∈ rows := (List.mem_insertionSort _).mpr
    (List.mem_filter.mpr ⟨hr, decide_eq_true hpending⟩)
  rw [← List.take_append_drop 500 rows, List.pairwise_append] at hsorted
  rw [← List.take_append_drop 500 rows] at hmem
  rcases List.mem_append.mp hmem with hmem | hmem
  · exact hmem
  · exact absurd (hsorted.2.2 y hy r hmem) (by omega)

/-- A row that is committed in order comes behind the rows of its aggregate. -/
lemma InOrder.last {written : List OutboxRow} {row x : OutboxRow}
    (h : (((written ++ [row]).filter fun r => r.route = route).map
      OutboxRow.id).Pairwise (· < ·))
    (hrow : row.route = route) (hx : x ∈ written) (hxa : x.route = route) :
    x.id < row.id := by
  rw [List.filter_append, List.map_append, List.pairwise_append] at h
  refine h.2.2 _ (List.mem_map_of_mem (List.mem_filter.mpr ⟨hx, decide_eq_true hxa⟩)) _ ?_
  exact List.mem_map_of_mem (List.mem_filter.mpr ⟨List.mem_singleton_self _, decide_eq_true hrow⟩)

/-- **Every step leaves a trail.** -/
lemma Trail.step (h : Trail route s trail) (hb : Booked partition s)
    (hgood : ∀ cy, s.cycle = some cy → cy.Good prepares s) (horder : InOrder route s'.store)
    (hmove : RelayMove s a s') : ∃ trail, Trail route s' trail := by
  cases hmove with
  | @commit row hnew =>
      refine ⟨trail, h.acks, h.routed, h.numbers, h.ids, fun r hr hra hsent => ?_,
        fun x hx r hr hra hpending => ?_, h.later, fun cy hcy y hy hya r hr hra hpending hlt => ?_⟩
      · rcases List.mem_append.mp hr with hr | hr
        · exact h.sent r hr hra hsent
        · rw [List.mem_singleton.mp hr] at hsent
          cases hsent
      · rcases List.mem_append.mp hr with hr | hr
        · exact h.front x hx r hr hra hpending
        · rw [List.mem_singleton.mp hr] at hra ⊢
          exact InOrder.last horder hra (hb.acks x (h.acks hx)).2 (h.routed x hx)
      · rcases List.mem_append.mp hr with hr | hr
        · exact h.closed cy hcy y hy hya r hr hra hpending hlt
        · -- the rows of the batch were committed before
          rw [List.mem_singleton.mp hr] at hra hlt
          have hyw : y ∈ s.store.written := (hgood cy hcy).wrote y hy
          exact absurd (InOrder.last horder hra hyw hya) (not_lt.mpr hlt.le)
  | start hcy =>
      refine ⟨trail, h.acks, h.routed, h.numbers, h.ids, h.sent, h.front,
        fun cy hcy' _ x hx y hy => ?_, fun cy hcy' y hy _ r hr _ hpending hlt => ?_⟩
      · obtain rfl := Option.some.inj hcy'
        cases hy
      · obtain rfl := Option.some.inj hcy'
        exact closed_findTop500Pending hy hr hpending hlt
  | @send time batch todo handed sends r hcy =>
      refine ⟨trail, h.acks, h.routed, h.numbers, h.ids, h.sent, h.front,
        fun cy hcy' _ x hx y hy => ?_, fun cy hcy' y hy => ?_⟩
      · obtain rfl := Option.some.inj hcy'
        rcases List.mem_append.mp hy with hy | hy
        · exact h.later _ hcy (by simp) x hx y hy
        · rw [List.mem_singleton.mp hy]
          exact (hb.acks x (h.acks hx)).1
      · obtain rfl := Option.some.inj hcy'
        exact h.closed _ hcy y hy
  | @marked time batch handed sent hcy => exact ⟨_, h.mark hb hcy (hgood _ hcy)⟩
  | @purged before ids batch handed hcy hsent =>
      refine ⟨trail, h.acks, h.routed, h.numbers, h.ids,
        fun r hr => h.sent r (List.mem_filter.mp hr).1,
        fun x hx r hr => h.front x hx r (List.mem_filter.mp hr).1, ?_, ?_⟩ <;>
        · intro cy hcy'
          cases hcy'
  | @append n lost r hmem hlookup =>
      refine ⟨trail, fun x hx => ?_, h.routed, h.numbers, h.ids, h.sent, h.front, h.later,
        h.closed⟩
      cases lost with
      | true => exact h.acks hx
      | false => exact List.mem_append_left _ (h.acks hx)
  | kept hcy | crash =>
      refine ⟨trail, h.acks, h.routed, h.numbers, h.ids, h.sent, h.front, ?_, ?_⟩ <;>
        · intro cy hcy'
          cases hcy'
  | sent hcy | unprepared hcy | confirm hcy hack | awaited hcy | gaveUp hcy =>
      have hlater := h.later _ hcy (by simp)
      have hclosed := h.closed _ hcy
      refine ⟨trail, h.acks, h.routed, h.numbers, h.ids, h.sent, h.front,
        fun cy hcy' _ => ?_, fun cy hcy' => ?_⟩ <;> obtain rfl := Option.some.inj hcy'
      · exact hlater
      · exact hclosed

/-- A run that commits the rows of an aggregate in order does so from the start. -/
lemma InOrder.back (hmove : RelayMove s a s') (h : InOrder route s'.store) :
    InOrder route s.store := by
  cases hmove with
  | commit hnew =>
      refine h.sublist (List.Sublist.map _ (List.Sublist.filter _ ?_))
      exact List.sublist_append_left _ _
  | _ => exact h

end Trails

/-! ### Runs -/

/-- What holds of every state of a run. -/
structure Kept (prepares : OutboxRow → Bool) (partition : Topic × String → ℕ) (s : Relay) :
    Prop where
  booked : Booked partition s
  good : ∀ cy, s.cycle = some cy → cy.Good prepares s
  trail : ∀ route, InOrder route s.store → ∃ trail, Trail route s trail

lemma Kept.idle : Kept prepares partition {} := by
  refine ⟨⟨List.nodup_nil, List.Sublist.refl _, ?_, ?_, ?_, ?_, rfl, fun _ => List.Pairwise.nil,
    List.Sublist.refl _⟩, ?_, fun route _ => ⟨[], ?_⟩⟩
  · exact fun _ hr => absurd hr List.not_mem_nil
  · exact fun _ hr => absurd hr List.not_mem_nil
  · exact fun _ hr => absurd hr List.not_mem_nil
  · exact fun _ hr => absurd hr List.not_mem_nil
  · exact fun _ hcy => by cases hcy
  · refine ⟨List.Subset.refl _, ?_, List.Pairwise.nil, List.Pairwise.nil, ?_, ?_, ?_, ?_⟩
    · exact fun _ hx => absurd hx List.not_mem_nil
    · exact fun _ hr => absurd hr List.not_mem_nil
    · exact fun _ hx => absurd hx List.not_mem_nil
    · exact fun _ hcy => by cases hcy
    · exact fun _ hcy => by cases hcy

lemma Kept.step (h : Kept prepares partition s) (hok : answering prepares partition s a)
    (hmove : RelayMove s a s') : Kept prepares partition s' := by
  refine ⟨h.booked.step h.good hok hmove, Cycle.Good.step h.booked h.good hok hmove,
    fun route horder => ?_⟩
  obtain ⟨trail, htrail⟩ := h.trail route (horder.back hmove)
  exact htrail.step h.booked h.good horder hmove

lemma Kept.of_run (h : Run relay (cycleRun prepares partition) idleRelay c) :
    Kept prepares partition c.store := by
  refine (Run.invariant (I := Kept prepares partition) (J := fun _ _ _ => True)
    (K := fun _ => True) (fun _ _ => trivial) ⟨.idle, fun _ => trivial⟩ ?_
    (fun _ _ _ _ _ _ _ _ _ _ _ _ => trivial) h).1
  intro c t a s' p' _ hok hkept _ hnext
  obtain ⟨s'', hstep, heq⟩ := Option.map_eq_some_iff.mp hnext
  cases heq
  exact ⟨hkept.step hok (step_move hstep), trivial⟩

/-- The statement that marks. -/
lemma Kept.marks (h : Kept prepares partition s) {sent : List ℕ} {time : ℤ}
    (hcy : s.cycle = some cy) (hpc : cy.pc = .marking sent) (hstep : s.step (.go time) = some s') :
    s'.store.db.outbox = s.store.db.outbox.map fun r =>
      if r.id ∈ (cy.acknowledged s).map OutboxRow.id then r.markSent time else r := by
  have hgood := h.good cy hcy
  obtain ⟨batch, handed, pc⟩ := cy
  obtain rfl : pc = .marking sent := hpc
  have hknows : sent = ((⟨batch, handed, .marking sent⟩ : Cycle).acknowledged s).map
    OutboxRow.id := hgood.knows
  rw [← hknows]
  cases step_move hstep with
  | marked h =>
      cases hcy.symm.trans h
      rfl
  | send h | sent h | confirm h | awaited h | kept h => cases hcy.symm.trans h

/-- The marking leaves the rest of the batch `PENDING`. -/
lemma Kept.leaves (h : Kept prepares partition s) {sent : List ℕ} {time : ℤ}
    (hcy : s.cycle = some cy) (hpc : cy.pc = .marking sent) (hstep : s.step (.go time) = some s')
    {r : OutboxRow} (hr : r ∈ cy.batch) (hnot : r ∉ cy.acknowledged s) :
    r ∈ s'.store.db.outbox ∧ r.status = .pending := by
  have hgood := h.good cy hcy
  have hbatch : ∀ x ∈ cy.batch, x ∈ s.store.db.outbox ∧ x.status = .pending :=
    hgood.batch (by simp [hpc])
  have hid : r.id ∉ (cy.acknowledged s).map OutboxRow.id := by
    intro hid
    obtain ⟨x, hx, heq⟩ := List.mem_map.mp hid
    have hxb := (hbatch x (hgood.acknowledged_front.subset hx)).1
    rw [h.booked.outboxIds.eq hxb (hbatch r hr).1 heq] at hx
    exact hnot hx
  refine ⟨?_, (hbatch r hr).2⟩
  rw [h.marks hcy hpc hstep]
  exact List.mem_map.mpr ⟨r, (hbatch r hr).1, if_neg hid⟩

/-- The sends of a cycle stop at the first record that cannot be prepared. -/
lemma Cycle.Good.handed_front (h : cy.Good prepares s) :
    cy.handed.map Prod.snd <+: cy.batch.takeWhile prepares := by
  obtain ⟨rest, hsplit⟩ := h.front
  rw [← hsplit, List.takeWhile_append_of_pos fun r hr => ?_]
  · exact List.prefix_append _ _
  · obtain ⟨x, hx, rfl⟩ := List.mem_map.mp hr
    exact h.prepared x hx

/-- The `SENT` rows are in the log in the order of their ids. -/
lemma Trail.sublist {route : Topic × String} {trail : List (ℕ × OutboxRow)}
    (h : Trail route s trail) (hb : Booked partition s) :
    ((s.store.db.sentRows route).map OutboxRow.plain).Sublist
      (s.store.log partition (partition route)) := by
  have hrows : ((s.store.db.sentRows route).map OutboxRow.plain).Sublist
      (trail.map Prod.snd) := by
    refine Log.sublist_of_subset (fun r hr => ?_) ?_ (List.pairwise_map.mpr h.ids)
    · obtain ⟨x, hx, rfl⟩ := List.mem_map.mp hr
      obtain ⟨hx, hp⟩ := List.mem_filter.mp ((List.mem_insertionSort _).mp hx)
      obtain ⟨hxa, hsent⟩ := of_decide_eq_true hp
      exact h.sent x hx hxa hsent
    · exact List.pairwise_map.mpr (hb.sorted_rows _)
  have htrail : trail.Sublist
      (s.acks.filter fun x => partition x.2.route = partition route) := by
    refine Log.sublist_of_subset (fun x hx => ?_) h.numbers (hb.order _)
    refine List.mem_filter.mpr ⟨h.acks hx, decide_eq_true ?_⟩
    rw [h.routed x hx]
  have hacks : ((s.acks.filter fun x => partition x.2.route = partition route).map
      Prod.snd).Sublist (s.store.log partition (partition route)) := by
    have hfilter := hb.log.filter fun r => partition r.route = partition route
    rwa [List.filter_map] at hfilter
  exact hrows.trans ((htrail.map Prod.snd).trans hacks)

/-- **The relay marks what it may.** In every run, a cycle marks the longest front of its batch
all of whose sends were acknowledged, and hands nothing to the broker from the first record on
that it cannot prepare; the `SENT` rows are in the log, and those of an aggregate whose rows were
committed in order are in the log in that order. -/
theorem relay_marks_acknowledged
    (h : Run relay (cycleRun prepares partition) idleRelay c) :
    Marks prepares partition c.store := by
  have hkept := Kept.of_run h
  refine ⟨fun cy sent time s' hcy hpc hstep => ⟨?_, ?_, ?_⟩, fun cy hcy => ?_,
    fun r hr hsent => ?_, fun route horder => ?_⟩
  · exact (hkept.good cy hcy).acknowledged_front
  · exact fun r hr hnot => hkept.leaves hcy hpc hstep hr hnot
  · exact hkept.marks hcy hpc hstep
  · exact (hkept.good cy hcy).handed_front
  · obtain ⟨x, hx, heq⟩ := hkept.booked.sent r hr hsent
    rw [← heq]
    exact hkept.booked.log.subset (List.mem_map_of_mem hx)
  · obtain ⟨trail, htrail⟩ := hkept.trail route horder
    exact htrail.sublist hkept.booked

/-- A row of an order event. -/
def sampleRow (id : ℕ) : OutboxRow :=
  ⟨id, "e", "42", .orderCreated, .created ⟨"e", 42, "P", 1, ⟨0⟩⟩, .pending, none⟩

/-- The first send of a cycle is not acknowledged and the second is; the next cycle sends both
again and both are acknowledged. -/
def resendingCycles : List (ℕ × RelayAct) :=
  [(0, .commit (sampleRow 1)), (0, .commit (sampleRow 2)), (0, .start), (0, .go 0), (0, .go 0),
    (0, .go 0), (0, .append 1 false), (0, .fail), (0, .go 0), (0, .go 0), (0, .append 0 true),
    (0, .start), (0, .go 1), (0, .go 1), (0, .go 1), (0, .append 2 false), (0, .append 3 false),
    (0, .go 1), (0, .go 1), (0, .go 1), (0, .go 1), (0, .go 1)]

theorem marks_of_resending_cycles :
    ∃ c, Run relay (cycleRun (fun _ => true) fun _ => 0) idleRelay c ∧
      (c.store.store.broker.map OutboxRow.id, c.store.store.db.outbox.map (·.status)) =
        ([2, 1, 1, 2], [.sent, .sent]) ∧
      Marks (fun _ => true) (fun _ => 0) c.store := by
  obtain ⟨c, hrun, hc⟩ := Run.exists_of_exec relay (cycleRun (fun _ => true) fun _ => 0) idleRelay
    resendingCycles
    (fun c => (c.store.store.broker.map OutboxRow.id, c.store.store.db.outbox.map (·.status)))
    ([2, 1, 1, 2], [.sent, .sent]) (by decide +kernel)
  exact ⟨c, hrun, hc, relay_marks_acknowledged hrun⟩

end OrderSystem.Orders
