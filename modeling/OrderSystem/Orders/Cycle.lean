/-
The cycles of the outbox relay, over rows of any transaction.

* `Relay`: the store of order-service with the one relay process, and what its cycle has done:
  the batch it read, and what it handed to the broker, by the number of the send.
* `Relay.step`: the statements of the relay are those of `Orders.next`; rows are committed by
  anyone, and the broker appends what is in flight.
* `answering`: a record the relay cannot prepare ends the sending, the relay gives up on a send
  that is not acknowledged, acknowledgements reach the sends it still waits for, and acknowledged
  records are appended to their partition in send order. Other records may be appended at any
  time.
* `step_move`: the inversion of a step.
-/
import OrderSystem.Foundations.Interleaving
import OrderSystem.Orders.Steps

namespace OrderSystem.Orders

open Interleaving

/-! ### The relay -/

/-- Where the record of the row goes: its topic, and the key that chooses the partition. -/
def OutboxRow.route (r : OutboxRow) : Topic × String :=
  (r.topic, r.aggregateId)

/-- The row as it was committed. -/
def OutboxRow.plain (r : OutboxRow) : OutboxRow :=
  { r with status := .pending, sentAt := none }

/-- A cycle of `relayPendingEvents`: its batch, the sends it made, and its next statement. -/
structure Cycle where
  batch : List OutboxRow
  handed : List (ℕ × OutboxRow)
  pc : RelayPc
  deriving DecidableEq, Repr

/-- order-service with one relay. `acks` lists the acknowledged sends, as they were appended. -/
structure Relay where
  store : Store := {}
  cycle : Option Cycle := none
  acks : List (ℕ × OutboxRow) := []

/-- The choices of the environment. -/
inductive RelayAct where
  | commit (row : OutboxRow)
  | start
  | go (time : ℤ)
  | fail
  | purge (before : ℤ) (ids : List ℕ)
  | crash
  | append (send : ℕ) (lost : Bool)
  deriving DecidableEq, Repr

namespace Relay

/-- The local state of the relay process. -/
def proc (s : Relay) : Proc :=
  match s.cycle with
  | none => .idle
  | some cy => .relaying cy.pc

/-- A statement of the relay process; what it puts in flight is handed to the broker. -/
def proceed (s : Relay) (a : Act) : Option Relay :=
  match next 0 s.store s.proc a with
  | some (store, .relaying pc) =>
      let cy := s.cycle.getD ⟨s.store.db.findTop500Pending, [], pc⟩
      let handed := cy.handed ++ store.inFlight.drop s.store.inFlight.length
      some { s with store := store, cycle := some ⟨cy.batch, handed, pc⟩ }
  | some (store, .idle) => some { s with store := store, cycle := none }
  | _ => none

/-- One step. A transaction commits a `PENDING` row with a new key. -/
def step (s : Relay) : RelayAct → Option Relay
  | .commit row =>
      if ∀ r ∈ s.store.written, r.id ≠ row.id then
        some { s with store := { s.store with
          db := { s.store.db with outbox := s.store.db.outbox ++ [row.plain] }
          written := s.store.written ++ [row.plain] } }
      else none
  | .start => s.proceed .relay
  | .go time => s.proceed (.go "" time [])
  | .fail => s.proceed .fail
  | .purge before ids => s.proceed (.purge before ids)
  | .crash => s.proceed .abort
  | .append n lost =>
      (append s.store n lost).map fun store =>
        { s with store := store
                 acks := if lost then s.acks
                   else s.acks ++ ((s.store.inFlight.lookup n).map (n, ·)).toList }

end Relay

/-- The relay as a program with one process. -/
def relay : Program Relay Unit RelayAct :=
  ⟨fun _ s _ a => (s.step a).map (·, ())⟩

/-- An empty outbox, and no cycle. -/
def idleRelay : Config Relay Unit := ⟨{}, fun _ => ()⟩

/-! ### The environment -/

namespace RelayPc

/-- The record the next statement prepares. -/
def preparing : RelayPc → Option OutboxRow
  | .sending (r :: _) _ => some r
  | _ => none

/-- The send whose answer the next statement waits for. -/
def asking : RelayPc → Option ℕ
  | .awaiting ((n, _) :: _) _ => some n
  | _ => none

/-- The sends whose answers the relay has not looked at. -/
def waits : RelayPc → List (ℕ × OutboxRow)
  | .sending _ sends | .awaiting sends _ => sends
  | _ => []

end RelayPc

/-- The broker and the records: `prepares` tells which records can be prepared, `partition` is
the partitioner of the producer. -/
def answering (prepares : OutboxRow → Bool) (partition : Topic × String → ℕ) (s : Relay) :
    RelayAct → Prop
  | .go _ => ∀ cy ∈ s.cycle, ∀ r ∈ cy.pc.preparing, prepares r = true
  | .fail => ∀ cy ∈ s.cycle, ∀ n ∈ cy.pc.asking, n ∉ s.store.acked
  | .append n false =>
      (∃ cy ∈ s.cycle, ∃ x ∈ cy.pc.waits, x.1 = n) ∧
        ∀ r ∈ s.store.inFlight.lookup n, ∀ x ∈ s.acks,
          partition x.2.route = partition r.route → x.1 < n
  | _ => True

variable {prepares : OutboxRow → Bool} {partition : Topic × String → ℕ} {s s' : Relay}
  {a : RelayAct}

instance (s : Relay) (a : RelayAct) : Decidable (answering prepares partition s a) :=
  match a with
  | .go _ => inferInstanceAs
      (Decidable (∀ cy ∈ s.cycle, ∀ r ∈ cy.pc.preparing, prepares r = true))
  | .fail => inferInstanceAs
      (Decidable (∀ cy ∈ s.cycle, ∀ n ∈ cy.pc.asking, n ∉ s.store.acked))
  | .append n false => inferInstanceAs
      (Decidable ((∃ cy ∈ s.cycle, ∃ x ∈ cy.pc.waits, x.1 = n) ∧
        ∀ r ∈ s.store.inFlight.lookup n, ∀ x ∈ s.acks,
          partition x.2.route = partition r.route → x.1 < n))
  | .append _ true | .commit _ | .start | .purge _ _ | .crash => isTrue trivial

/-- The runs of the relay. -/
def cycleRun (prepares : OutboxRow → Bool) (partition : Topic × String → ℕ)
    (c : Config Relay Unit) (_ : ℕ) (a : RelayAct) : Prop :=
  answering prepares partition c.store a

instance (c : Config Relay Unit) (t : ℕ) (a : RelayAct) :
    Decidable (cycleRun prepares partition c t a) :=
  inferInstanceAs (Decidable (answering prepares partition c.store a))

/-! ### Moves -/

/-- What a step of the relay is. -/
inductive RelayMove (s : Relay) : RelayAct → Relay → Prop
  | commit {row : OutboxRow} (hnew : ∀ r ∈ s.store.written, r.id ≠ row.id) :
      RelayMove s (.commit row) { s with store := { s.store with
        db := { s.store.db with outbox := s.store.db.outbox ++ [row.plain] }
        written := s.store.written ++ [row.plain] } }
  | start (h : s.cycle = none) :
      RelayMove s .start { s with cycle := some ⟨s.store.db.findTop500Pending, [],
        .sending s.store.db.findTop500Pending []⟩ }
  | send {time : ℤ} {batch todo : List OutboxRow} {handed sends : List (ℕ × OutboxRow)}
      {r : OutboxRow} (h : s.cycle = some ⟨batch, handed, .sending (r :: todo) sends⟩) :
      RelayMove s (.go time) { s with
        store := { s.store with inFlight := s.store.inFlight ++ [(s.store.nextSend, r)]
                                nextSend := s.store.nextSend + 1 }
        cycle := some ⟨batch, handed ++ [(s.store.nextSend, r)],
          .sending todo (sends ++ [(s.store.nextSend, r)])⟩ }
  | sent {time : ℤ} {batch : List OutboxRow} {handed sends : List (ℕ × OutboxRow)}
      (h : s.cycle = some ⟨batch, handed, .sending [] sends⟩) :
      RelayMove s (.go time) { s with cycle := some ⟨batch, handed, .awaiting sends []⟩ }
  | unprepared {batch todo : List OutboxRow} {handed sends : List (ℕ × OutboxRow)}
      (h : s.cycle = some ⟨batch, handed, .sending todo sends⟩) :
      RelayMove s .fail { s with cycle := some ⟨batch, handed, .awaiting sends []⟩ }
  | confirm {time : ℤ} {batch : List OutboxRow} {handed sends : List (ℕ × OutboxRow)} {n : ℕ}
      {r : OutboxRow} {sent : List ℕ}
      (h : s.cycle = some ⟨batch, handed, .awaiting ((n, r) :: sends) sent⟩)
      (hack : n ∈ s.store.acked) :
      RelayMove s (.go time)
        { s with cycle := some ⟨batch, handed, .awaiting sends (sent ++ [r.id])⟩ }
  | awaited {time : ℤ} {batch : List OutboxRow} {handed : List (ℕ × OutboxRow)} {sent : List ℕ}
      (h : s.cycle = some ⟨batch, handed, .awaiting [] sent⟩) :
      RelayMove s (.go time) { s with cycle := some ⟨batch, handed, .marking sent⟩ }
  | gaveUp {batch : List OutboxRow} {handed sends : List (ℕ × OutboxRow)} {sent : List ℕ}
      (h : s.cycle = some ⟨batch, handed, .awaiting sends sent⟩) :
      RelayMove s .fail { s with cycle := some ⟨batch, handed, .marking sent⟩ }
  | marked {time : ℤ} {batch : List OutboxRow} {handed : List (ℕ × OutboxRow)} {sent : List ℕ}
      (h : s.cycle = some ⟨batch, handed, .marking sent⟩) :
      RelayMove s (.go time) { s with
        store := { s.store with db := s.store.db.markSent sent time }
        cycle := some ⟨batch, handed, .purging⟩ }
  | kept {time : ℤ} {batch : List OutboxRow} {handed : List (ℕ × OutboxRow)}
      (h : s.cycle = some ⟨batch, handed, .purging⟩) :
      RelayMove s (.go time) { s with cycle := none }
  | purged {before : ℤ} {ids : List ℕ} {batch : List OutboxRow} {handed : List (ℕ × OutboxRow)}
      (h : s.cycle = some ⟨batch, handed, .purging⟩)
      (hsent : ∀ r ∈ s.store.db.outbox, r.id ∈ ids → r.status = .sent) :
      RelayMove s (.purge before ids)
        { s with store := { s.store with db := s.store.db.deleteSent ids }, cycle := none }
  | crash : RelayMove s .crash { s with store := s.store.unlock 0, cycle := none }
  | append {n : ℕ} {lost : Bool} {r : OutboxRow} (hmem : (n, r) ∈ s.store.inFlight)
      (hlookup : s.store.inFlight.lookup n = some r) :
      RelayMove s (.append n lost) { s with
        store := { s.store with inFlight := s.store.inFlight.filter fun x => x.1 ≠ n
                                broker := s.store.broker ++ [r]
                                acked := if lost then s.store.acked else s.store.acked ++ [n] }
        acks := if lost then s.acks else s.acks ++ [(n, r)] }

lemma Db.markSent_nil (db : Db) (time : ℤ) : db.markSent [] time = db := by
  simp [Db.markSent]

section Inversion

variable {batch : List OutboxRow} {handed : List (ℕ × OutboxRow)} {pc pc' : RelayPc} {b : Act}
  {store : Store}

/-- A statement inside a cycle that puts nothing in flight. -/
lemma proceed_within (hcy : s.cycle = some ⟨batch, handed, pc⟩)
    (hnext : next 0 s.store (.relaying pc) b = some (store, .relaying pc'))
    (hflight : store.inFlight = s.store.inFlight) (h : s.proceed b = some s') :
    s' = { s with store := store, cycle := some ⟨batch, handed, pc'⟩ } := by
  simp only [Relay.proceed, Relay.proc, hcy, hnext, hflight, Option.getD_some, List.drop_length,
    List.append_nil, Option.some.injEq] at h
  exact h.symm

/-- A statement that ends a cycle. -/
lemma proceed_out (hcy : s.cycle = some ⟨batch, handed, pc⟩)
    (hnext : next 0 s.store (.relaying pc) b = some (store, .idle)) (h : s.proceed b = some s') :
    s' = { s with store := store, cycle := none } := by
  simp only [Relay.proceed, Relay.proc, hcy, hnext, Option.some.injEq] at h
  exact h.symm

/-- A statement that is not one of the relay. -/
lemma proceed_none (hcy : s.cycle = some ⟨batch, handed, pc⟩)
    (hnext : next 0 s.store (.relaying pc) b = none) (h : s.proceed b = some s') : False := by
  simp only [Relay.proceed, Relay.proc, hcy, hnext] at h
  cases h

lemma go_move {time : ℤ} (h : s.proceed (.go "" time []) = some s') :
    RelayMove s (.go time) s' := by
  rcases hcy : s.cycle with - | ⟨batch, handed, pc⟩
  · simp [Relay.proceed, Relay.proc, hcy, next] at h
  · cases pc with
    | sending todo sends =>
        cases todo with
        | nil =>
            rw [proceed_within hcy rfl rfl h]
            exact .sent hcy
        | cons r todo =>
            simp only [Relay.proceed, Relay.proc, hcy, next, relayNext, Option.getD_some,
              List.drop_append_length, Option.some.injEq] at h
            rw [← h]
            exact .send hcy
    | awaiting sends sent =>
        cases sends with
        | nil =>
            rw [proceed_within hcy rfl rfl h]
            exact .awaited hcy
        | cons x sends =>
            obtain ⟨n, r⟩ := x
            by_cases hack : n ∈ s.store.acked
            · have hnext : next 0 s.store (.relaying (.awaiting ((n, r) :: sends) sent))
                  (.go "" time []) =
                    some (s.store, .relaying (.awaiting sends (sent ++ [r.id]))) := if_pos hack
              rw [proceed_within hcy hnext rfl h]
              exact .confirm hcy hack
            · have hnext : next 0 s.store (.relaying (.awaiting ((n, r) :: sends) sent))
                  (.go "" time []) = none := if_neg hack
              exact (proceed_none hcy hnext h).elim
    | marking sent =>
        by_cases hsent : sent = []
        · subst hsent
          have hnext : next 0 s.store (.relaying (.marking [])) (.go "" time []) =
              some (s.store, .relaying .purging) := by simp [next, relayNext]
          have hmarked : RelayMove s (.go time) _ := .marked hcy
          rw [Db.markSent_nil] at hmarked
          rw [proceed_within hcy hnext rfl h]
          exact hmarked
        · have hnext : next 0 s.store (.relaying (.marking sent)) (.go "" time []) =
              some ({ s.store with db := s.store.db.markSent sent time }, .relaying .purging) :=
            if_neg hsent
          rw [proceed_within hcy hnext rfl h]
          exact .marked hcy
    | purging =>
        rw [proceed_out hcy rfl h]
        exact .kept hcy

lemma fail_move (h : s.proceed .fail = some s') : RelayMove s .fail s' := by
  rcases hcy : s.cycle with - | ⟨batch, handed, pc⟩
  · simp [Relay.proceed, Relay.proc, hcy, next] at h
  · cases pc with
    | sending todo sends =>
        rw [proceed_within hcy rfl rfl h]
        exact .unprepared hcy
    | awaiting sends sent =>
        rw [proceed_within hcy rfl rfl h]
        exact .gaveUp hcy
    | _ => exact (proceed_none hcy rfl h).elim

lemma purge_move {before : ℤ} {ids : List ℕ} (h : s.proceed (.purge before ids) = some s') :
    RelayMove s (.purge before ids) s' := by
  rcases hcy : s.cycle with - | ⟨batch, handed, pc⟩
  · simp [Relay.proceed, Relay.proc, hcy, next] at h
  · cases pc with
    | purging =>
        have hmap : next 0 s.store (.relaying .purging) (.purge before ids) =
            (purgeSent s.store before ids).map (·, .idle) := rfl
        cases hpurge : purgeSent s.store before ids with
        | none =>
            rw [hpurge] at hmap
            exact (proceed_none hcy hmap h).elim
        | some store =>
            rw [hpurge] at hmap
            rw [proceed_out hcy hmap h]
            obtain ⟨hsent, rfl⟩ := purgeSent_cases hpurge
            exact .purged hcy hsent
    | _ => exact (proceed_none hcy rfl h).elim

end Inversion

/-- **The inversion of a step**: every step is one of the moves. -/
theorem step_move (h : s.step a = some s') : RelayMove s a s' := by
  cases a with
  | commit row =>
      simp only [Relay.step] at h
      split_ifs at h with hnew
      cases h
      exact .commit hnew
  | start =>
      rcases hcy : s.cycle with - | cy
      · simp only [Relay.step, Relay.proceed, Relay.proc, hcy, next, Option.getD_none,
          List.drop_length, List.append_nil, Option.some.injEq] at h
        rw [← h]
        exact .start hcy
      · simp [Relay.step, Relay.proceed, Relay.proc, hcy, next] at h
  | go time => exact go_move h
  | fail => exact fail_move h
  | purge before ids => exact purge_move h
  | crash =>
      simp only [Relay.step, Relay.proceed, next, Option.some.injEq] at h
      rw [← h]
      exact .crash
  | append n lost =>
      obtain ⟨store, happend, rfl⟩ := Option.map_eq_some_iff.mp h
      unfold append at happend
      split at happend
      · cases happend
      · rename_i r hlookup
        cases happend
        obtain ⟨l₁, l₂, hl, -⟩ := List.lookup_eq_some_iff.mp hlookup
        have hmem : (n, r) ∈ s.store.inFlight := by rw [hl]; simp
        rw [hlookup]
        exact .append hmem hlookup

end OrderSystem.Orders
