/-
The relay catches up.

* `publishing`: process 0 is the relay, process 1 the broker, which loses no answer; nothing
  else goes on.
* `run_cycle`: one cycle of `relayPendingEvents` sends its batch and marks all of it.
* `run_publish`: cycle by cycle every row leaves `PENDING`, and no table of order-service but the
  outbox changes.
-/
import OrderSystem.Orders.Books
import OrderSystem.Orders.Cycle

namespace OrderSystem.Orders

open Interleaving

variable {s s' : Store} {procs : ℕ → Proc}

/-! ### The environment -/

/-- Only the relay and the broker work, and no answer is lost. -/
def publishing (c : Config Store Proc) (t : ℕ) : Act → Prop
  | .abort => True
  | .relay => t = 0
  | .go uuid time _ => t = 0 ∧ (∃ pc, c.procs 0 = .relaying pc) ∧ javaLength uuid = 36 ∧ 0 < time
  | .append _ lost => t = 1 ∧ lost = false
  | _ => False

lemma unrepeated_of_publishing {c : Config Store Proc} {t : ℕ} {a : Act}
    (h : publishing c t a) : unrepeated c t a := by
  cases a with
  | go uuid time delivered =>
      obtain ⟨rfl, ⟨pc, hpc⟩, hlen, htime⟩ := h
      refine ⟨⟨hlen, htime⟩, fun hdraws => ?_⟩
      rw [hpc] at hdraws
      exact hdraws.elim
  | abort | relay | append => exact ⟨trivial, fun _ => trivial⟩
  | createOrder | change | cancel | deliver | fail | purge => exact h.elim

/-- A statement of the relay. -/
lemma run_go {c₀ : Config Store Proc} {pc : RelayPc} {p' : Proc}
    (h : Run service publishing c₀ ⟨s, Function.update procs 0 (.relaying pc)⟩)
    (hnext : relayNext s 1 pc = some (s', p')) :
    Run service publishing c₀ ⟨s', Function.update procs 0 p'⟩ := by
  have hpc : Function.update procs 0 (.relaying pc) 0 = .relaying pc := Function.update_self ..
  have hok : publishing ⟨s, Function.update procs 0 (.relaying pc)⟩ 0
      (.go (sampleUuid '0') 1 []) := ⟨rfl, ⟨pc, hpc⟩, by decide, by decide⟩
  exact h.step_of hok hnext

/-! ### A cycle -/

/-- The tables and the books of the relay, but for the records under way. -/
structure Store.Sends (s s' : Store) : Prop where
  db : s'.db = s.db
  written : s'.written = s.written
  flight : ∀ y ∈ s'.inFlight, y.1 < s'.nextSend

/-- One record after the other is sent, appended and acknowledged. -/
lemma run_send (hbroker : procs 1 = .idle) (todo : List OutboxRow) (sends : List (ℕ × OutboxRow))
    (hflight : ∀ y ∈ s.inFlight, y.1 < s.nextSend) (hacked : ∀ x ∈ sends, x.1 ∈ s.acked) :
    ∃ s' sends', Run service publishing
        ⟨s, Function.update procs 0 (.relaying (.sending todo sends))⟩
        ⟨s', Function.update procs 0 (.relaying (.sending [] sends'))⟩ ∧
      s.Sends s' ∧ (∀ x ∈ sends', x.1 ∈ s'.acked) ∧
      sends'.map Prod.snd = sends.map Prod.snd ++ todo := by
  induction todo generalizing s sends with
  | nil => exact ⟨s, sends, .nil, ⟨rfl, rfl, hflight⟩, hacked, by simp⟩
  | cons r todo ih =>
      let n := s.nextSend
      let s₁ : Store := { s with inFlight := s.inFlight ++ [(n, r)], nextSend := n + 1 }
      let s₂ : Store := { s₁ with
        inFlight := s₁.inFlight.filter fun x => x.1 ≠ n
        broker := s.broker ++ [r]
        acked := s.acked ++ [n] }
      have hsend : Run service publishing
          ⟨s, Function.update procs 0 (.relaying (.sending (r :: todo) sends))⟩
          ⟨s₁, Function.update procs 0 (.relaying (.sending todo (sends ++ [(n, r)])))⟩ :=
        run_go .nil rfl
      have hlookup : s₁.inFlight.lookup n = some r := by
        have hnone : s.inFlight.lookup n = none :=
          List.lookup_eq_none_iff.mpr fun y hy => by simpa using (hflight y hy).ne'
        rw [List.lookup_append, hnone]
        simp
      have happend : Run service publishing
          ⟨s₁, Function.update procs 0 (.relaying (.sending todo (sends ++ [(n, r)])))⟩
          ⟨s₂, Function.update procs 0 (.relaying (.sending todo (sends ++ [(n, r)])))⟩ := by
        let procs₁ := Function.update procs 0 (.relaying (.sending todo (sends ++ [(n, r)])))
        have hidle : procs₁ 1 = .idle := by
          rw [← hbroker]
          exact Function.update_of_ne one_ne_zero _ _
        have hstep : service.step ⟨s₁, procs₁⟩ 1 (.append n false) =
            some ⟨s₂, Function.update procs₁ 1 .idle⟩ := by
          simp only [Program.step, hidle, service, next, append, hlookup, Option.map_some]
          rfl
        have hok : publishing ⟨s₁, procs₁⟩ 1 (.append n false) := ⟨rfl, rfl⟩
        rw [← hidle, Function.update_eq_self] at hstep
        exact .snoc .nil hok hstep
      have hflight₂ : ∀ y ∈ s₂.inFlight, y.1 < s₂.nextSend := by
        intro y hy
        rcases List.mem_append.mp (List.mem_filter.mp hy).1 with hy | hy
        · exact Nat.lt_succ_of_lt (hflight y hy)
        · rw [List.mem_singleton.mp hy]
          exact Nat.lt_succ_self _
      have hacked₂ : ∀ x ∈ sends ++ [(n, r)], x.1 ∈ s₂.acked := by
        intro x hx
        rcases List.mem_append.mp hx with hx | hx
        · exact List.mem_append_left _ (hacked x hx)
        · rw [List.mem_singleton.mp hx]
          exact List.mem_append_right _ (List.mem_singleton.mpr rfl)
      obtain ⟨s₃, sends', hrest, hsends, hacked₃, hrows⟩ := ih (sends ++ [(n, r)]) hflight₂ hacked₂
      exact ⟨s₃, sends', (hsend.trans happend).trans hrest,
        ⟨hsends.db, hsends.written, hsends.flight⟩, hacked₃, by simp [hrows]⟩

/-- The answers are awaited in order. -/
lemma run_await (procs : ℕ → Proc) (sends : List (ℕ × OutboxRow)) (sent : List ℕ)
    (hacked : ∀ x ∈ sends, x.1 ∈ s.acked) :
    Run service publishing ⟨s, Function.update procs 0 (.relaying (.awaiting sends sent))⟩
      ⟨s, Function.update procs 0
        (.relaying (.awaiting [] (sent ++ sends.map fun x => x.2.id)))⟩ := by
  induction sends generalizing sent with
  | nil => simpa using Run.nil
  | cons x sends ih =>
      have hx : x.1 ∈ s.acked := hacked x List.mem_cons_self
      have hgo : Run service publishing
          ⟨s, Function.update procs 0 (.relaying (.awaiting (x :: sends) sent))⟩
          ⟨s, Function.update procs 0 (.relaying (.awaiting sends (sent ++ [x.2.id])))⟩ :=
        run_go .nil (by simp only [relayNext]; exact if_pos hx)
      have hrest := ih (sent ++ [x.2.id]) fun y hy => hacked y (List.mem_cons_of_mem x hy)
      rw [List.append_assoc, List.singleton_append] at hrest
      exact hgo.trans hrest

/-- **A cycle of the relay** that nothing disturbs marks its batch. -/
lemma run_cycle (hrelay : procs 0 = .idle) (hbroker : procs 1 = .idle)
    (hflight : ∀ y ∈ s.inFlight, y.1 < s.nextSend) :
    ∃ s', Run service publishing ⟨s, procs⟩ ⟨s', procs⟩ ∧
      s'.db = s.db.markSent (s.db.findTop500Pending.map OutboxRow.id) 1 ∧
      s'.written = s.written ∧ ∀ y ∈ s'.inFlight, y.1 < s'.nextSend := by
  let batch := s.db.findTop500Pending
  have hstart : Run service publishing ⟨s, procs⟩
      ⟨s, Function.update procs 0 (.relaying (.sending batch []))⟩ := by
    refine .snoc .nil (t := 0) (a := .relay) rfl ?_
    simp only [Program.step, hrelay, service, next, Option.map_some]
    rfl
  obtain ⟨s₁, sends, hsend, hsends, hacked, hrows⟩ :=
    run_send hbroker batch [] hflight (by simp)
  have hids : sends.map (fun x => x.2.id) = batch.map OutboxRow.id := by
    rw [show (fun x : ℕ × OutboxRow => x.2.id) = OutboxRow.id ∘ Prod.snd from rfl,
      ← List.map_map, hrows]
    rfl
  have hwait : Run service publishing
      ⟨s₁, Function.update procs 0 (.relaying (.sending [] sends))⟩
      ⟨s₁, Function.update procs 0 (.relaying (.awaiting sends []))⟩ := run_go .nil rfl
  have hawait := run_await procs sends [] hacked
  rw [List.nil_append, hids] at hawait
  have hmarking : Run service publishing
      ⟨s₁, Function.update procs 0 (.relaying (.awaiting [] (batch.map OutboxRow.id)))⟩
      ⟨s₁, Function.update procs 0 (.relaying (.marking (batch.map OutboxRow.id)))⟩ :=
    run_go .nil rfl
  let s₂ : Store := { s₁ with db := s₁.db.markSent (batch.map OutboxRow.id) 1 }
  have hmark : Run service publishing
      ⟨s₁, Function.update procs 0 (.relaying (.marking (batch.map OutboxRow.id)))⟩
      ⟨s₂, Function.update procs 0 (.relaying .purging)⟩ := by
    refine run_go .nil ?_
    simp only [relayNext]
    split_ifs with hnil
    · rw [show s₂ = s₁ by simp only [s₂, hnil, Db.markSent_nil]]
    · rfl
  have hend : Run service publishing ⟨s₂, Function.update procs 0 (.relaying .purging)⟩
      ⟨s₂, procs⟩ := by
    have hrun : Run service publishing ⟨s₂, Function.update procs 0 (.relaying .purging)⟩
        ⟨s₂, Function.update procs 0 .idle⟩ := run_go .nil rfl
    rwa [← hrelay, Function.update_eq_self] at hrun
  refine ⟨s₂, ((((hstart.trans hsend).trans hwait).trans hawait).trans hmarking).trans
    (hmark.trans hend), ?_, hsends.written, hsends.flight⟩
  show s₁.db.markSent _ 1 = _
  rw [hsends.db]

/-! ### All cycles -/

/-- The rows a cycle does not mark stay pending. -/
lemma pending_markSent (db : Db) (ids : List ℕ) (time : ℤ) :
    (db.markSent ids time).outbox.filter (fun r => r.status = .pending) =
      (db.outbox.filter fun r => r.status = .pending).filter (fun r => r.id ∉ ids) := by
  rw [Db.markSent, List.filter_filter]
  induction db.outbox with
  | nil => rfl
  | cons r rows ih =>
      by_cases hr : r.id ∈ ids
      · simpa [hr, OutboxRow.markSent] using ih
      · by_cases hp : r.status = .pending <;> simpa [hr, hp] using ih

/-- A cycle with anything to do marks something. -/
lemma pending_decreases {db : Db} {r : OutboxRow} (hr : r ∈ db.outbox)
    (hpending : r.status = .pending) (time : ℤ) :
    ((db.markSent (db.findTop500Pending.map OutboxRow.id) time).outbox.filter
        fun r => r.status = .pending).length <
      (db.outbox.filter fun r => r.status = .pending).length := by
  rw [pending_markSent]
  have hsorted : ((db.outbox.filter fun r => r.status = .pending).insertionSort
      fun r x => r.id ≤ x.id) ≠ [] := by
    intro hnil
    have hmem : r ∈ db.outbox.filter fun r => r.status = .pending :=
      List.mem_filter.mpr ⟨hr, by simpa using hpending⟩
    rw [← (List.perm_insertionSort (fun r x : OutboxRow => r.id ≤ x.id) _).mem_iff, hnil] at hmem
    exact absurd hmem List.not_mem_nil
  obtain ⟨x, rest, hx⟩ := List.exists_cons_of_ne_nil hsorted
  have hbatch : x ∈ db.findTop500Pending := by
    rw [Db.findTop500Pending, hx]
    exact List.mem_cons_self
  refine List.length_filter_lt_length_iff_exists.mpr ⟨x, ?_, ?_⟩
  · rw [← (List.perm_insertionSort (fun r x : OutboxRow => r.id ≤ x.id) _).mem_iff, hx]
    exact List.mem_cons_self
  · simpa using ⟨x, hbatch, rfl⟩

/-- **The relay catches up**: every row leaves `PENDING`. -/
lemma run_publish (hrelay : procs 0 = .idle) (hbroker : procs 1 = .idle)
    (hflight : ∀ y ∈ s.inFlight, y.1 < s.nextSend) :
    ∃ s', Run service publishing ⟨s, procs⟩ ⟨s', procs⟩ ∧ s'.written = s.written ∧
      s'.db.orders = s.db.orders ∧ ∀ r ∈ s'.db.outbox, r.status ≠ .pending := by
  obtain ⟨n, hn⟩ : ∃ n, (s.db.outbox.filter fun r => r.status = .pending).length ≤ n :=
    ⟨_, le_rfl⟩
  induction n generalizing s with
  | zero =>
      refine ⟨s, .nil, rfl, rfl, fun r hr hpending => ?_⟩
      have hmem : r ∈ s.db.outbox.filter fun r => r.status = .pending :=
        List.mem_filter.mpr ⟨hr, by simpa using hpending⟩
      rw [List.length_eq_zero_iff.mp (Nat.le_zero.mp hn)] at hmem
      exact absurd hmem List.not_mem_nil
  | succ n ih =>
      by_cases hany : ∃ r ∈ s.db.outbox, r.status = .pending
      · obtain ⟨r, hr, hpending⟩ := hany
        obtain ⟨s₁, hcycle, hdb, hwritten, hflight₁⟩ := run_cycle hrelay hbroker hflight
        have hlt := pending_decreases hr hpending 1
        rw [← hdb] at hlt
        obtain ⟨s₂, hrest, hwritten₂, horders₂, hall⟩ := ih hflight₁ (by omega)
        refine ⟨s₂, hcycle.trans hrest, hwritten₂.trans hwritten, ?_, hall⟩
        rw [horders₂, hdb, Db.markSent]
      · exact ⟨s, .nil, rfl, rfl, fun r hr hpending => hany ⟨r, hr, hpending⟩⟩

end OrderSystem.Orders
