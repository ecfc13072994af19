/-
inventory-service publishes its results in the order of their commits, and all of them.

* `Published`: the invariant of outbox, keys and broker. The keys follow the commits, a row that
  is `SENT` is in the log, and every record in flight is one whose predecessors are in the log.
* `Worker.knows`: what a thread relies on. A batch of the relay can be sent from its head on.
* `results_published_in_order`: failures, timeouts, lost answers, crashes and several relays make
  duplicates, but no record comes before a result that was committed before its own.
* `relay_catches_up`: a relay without failures publishes everything that was committed.
-/
import OrderSystem.Stock.Relay

namespace OrderSystem.Stock

open Interleaving Sends

variable {idempotencyEnabled : Bool} {fold : String → String} {t u : ℕ} {s s' : RelayStore}
  {w w' : Worker} {a : RelayAct} {stock : List Inventory} {c : Config RelayStore Worker}
  {r : OutboxRow}

/-! ### The invariant -/

/-- Outbox, keys and broker agree. -/
structure Published (s : RelayStore) : Prop where
  keys : s.stock.db.outbox.Pairwise fun r r' => s.key r < s.key r'
  drawn : ∀ r ∈ s.stock.db.outbox, s.key r < s.nextKey
  flight : s.broker.Sound (Ready s.rows s.broker.log)
  order : InOrder s.rows s.broker.log
  sent : ∀ r ∈ s.stock.db.outbox, r.sent = true → r.unsent ∈ s.broker.log

/-- The key of the row that is about to be committed is the last one. -/
structure Next (s : RelayStore) (row : OutboxRow) : Prop where
  unsent : row.sent = false
  last : ∀ r ∈ s.stock.db.outbox, s.key r < s.key row
  drawn : s.key row < s.nextKey

/-- What a thread relies on. -/
def Worker.knows (s : RelayStore) : Worker → Prop
  | .handler (.handling _ (.commit _ row)) => Next s row
  | .handler _ => True
  | .relay (.send todo) => Sendable s.rows s.broker.log todo
  | .relay (.get n r todo) =>
      Handed s.broker n r ∧ Ready s.rows s.broker.log r ∧
        Sendable s.rows (s.broker.log ++ [r]) todo
  | .relay (.save r todo) => r ∈ s.broker.log ∧ Sendable s.rows s.broker.log todo

lemma unsent_of_pending (h : r.sent = false) : r.unsent = r := by
  rw [OutboxRow.unsent, ← h]

/-- A mark is all a row loses. -/
@[simp] lemma rows_markSent (eventId : String) : (s.markSent eventId).rows = s.rows := by
  rw [RelayStore.rows, RelayStore.markSent, Db.markSent, List.map_map, RelayStore.rows]
  refine List.map_congr_left fun r _ => ?_
  rw [Function.comp_apply]
  split_ifs <;> rfl

lemma mem_rows : r ∈ s.rows ↔ ∃ x ∈ s.stock.db.outbox, x.unsent = r := List.mem_map

/-- Rows of one event are the same row. -/
lemma Published.eventId_injective (h : Published s) {r' : OutboxRow} (hr : r ∈ s.stock.db.outbox)
    (hr' : r' ∈ s.stock.db.outbox) (hid : r.payload.eventId = r'.payload.eventId) : r = r' := by
  have hkey : s.key r = s.key r' := by rw [RelayStore.key, hid, RelayStore.key]
  have hunique : Table.Unique s.key s.stock.db.outbox :=
    List.pairwise_map.mpr (h.keys.imp fun hlt => Nat.ne_of_lt hlt)
  exact hunique.eq hr hr' hkey

/-! ### Steps -/

section Keys

variable {uuid : String}

/-- A draw for an admitted row keeps the keys of the others. -/
lemma key_saveOutbox (hr : r ∈ s.stock.db.outbox) : (s.saveOutbox uuid).key r = s.key r := by
  rw [RelayStore.key, RelayStore.saveOutbox]
  split_ifs with hadmits
  · have hne : (r.payload.eventId == uuid) = false := by simpa using hadmits r hr
    rw [List.lookup_cons, hne, RelayStore.key]
  · rfl

/-- The key that is drawn for an admitted row is the last one. -/
lemma Published.next (h : Published s) (hadmits : s.stock.db.admits uuid) (orderId : ℤ)
    (result : StockResult) : Next (s.saveOutbox uuid) (.of ⟨uuid, orderId, result⟩) := by
  have hkey : (s.saveOutbox uuid).key (.of ⟨uuid, orderId, result⟩) = s.nextKey := by
    simp [RelayStore.key, RelayStore.saveOutbox, hadmits, OutboxRow.of]
  refine ⟨rfl, fun r hr => ?_, ?_⟩
  · have hmem : r ∈ s.stock.db.outbox := hr
    rw [hkey, key_saveOutbox hmem]
    exact h.drawn r hmem
  · rw [hkey]
    exact Nat.lt_succ_self _

end Keys

/-- The store after a step keeps what the relays rely on. -/
structure Grows (s s' : RelayStore) : Prop where
  rows : s.rows <+: s'.rows
  log : s.broker.log ⊆ s'.broker.log
  handed : ∀ n r, Handed s.broker n r → Handed s'.broker n r

lemma RelayEffect.grows (h : RelayEffect s w s') (hw : w.knows s) : Grows s s' := by
  have hsame : ∀ {st : Store}, st.db.outbox = s.stock.db.outbox →
      s.rows <+: st.db.outbox.map OutboxRow.unsent := by
    intro st hst
    rw [hst]
    exact List.prefix_refl _
  cases h with
  | same h => exact ⟨hsame h, List.Subset.refl _, fun _ _ h => h⟩
  | draw uuid h => exact ⟨hsame h, List.Subset.refl _, fun _ _ h => h⟩
  | @commit event wr row st h =>
      refine ⟨?_, List.Subset.refl _, fun _ _ h => h⟩
      show s.rows <+: st.db.outbox.map OutboxRow.unsent
      rw [h, List.map_append]
      exact List.prefix_append _ _
  | send r todo => exact ⟨List.prefix_refl _, List.Subset.refl _, fun _ _ h => h.send r⟩
  | @append w n lost b h =>
      obtain ⟨x, -, hlog⟩ := Broker.log_append h
      refine ⟨List.prefix_refl _, ?_, fun _ _ hh => hh.append h⟩
      rw [hlog]
      exact List.subset_append_left _ _
  | save r todo => exact ⟨by simp, List.Subset.refl _, fun _ _ h => h⟩

/-- What a relay relies on is not disturbed. -/
lemma Grows.knows (h : Grows s s') {pc : RelayPc} (hk : (Worker.relay pc).knows s) :
    (Worker.relay pc).knows s' := by
  cases pc with
  | send todo => exact Sendable.mono hk h.rows h.log
  | get n r todo =>
      refine ⟨h.handed n r hk.1, hk.2.1.mono h.rows h.log, hk.2.2.mono h.rows fun x hx => ?_⟩
      exact List.mem_append.mpr ((List.mem_append.mp hx).imp_left (h.log ·))
  | save r todo => exact ⟨h.log hk.1, hk.2.mono h.rows h.log⟩

/-- A row that is marked keeps its key. -/
lemma pairwise_markSent {R : ℕ → ℕ → Prop} {eventId : String} :
    ((s.markSent eventId).stock.db.outbox.Pairwise fun r r' =>
      R ((s.markSent eventId).key r) ((s.markSent eventId).key r')) ↔
      s.stock.db.outbox.Pairwise fun r r' => R (s.key r) (s.key r') := by
  have hkey : ∀ r : OutboxRow, (s.markSent eventId).key
      (if r.payload.eventId = eventId then { r with sent := true } else r) = s.key r := by
    intro r
    split_ifs <;> rfl
  simp only [RelayStore.markSent, Db.markSent, List.pairwise_map] at hkey ⊢
  simp only [hkey]

/-- **Every step keeps the invariant.** -/
lemma Published.step (h : Published s) (hw : w.knows s) (heff : RelayEffect s w s') :
    Published s' := by
  have hgrows := heff.grows hw
  cases heff with
  | @same w st hst =>
      have hrows : ({ s with stock := st } : RelayStore).rows = s.rows :=
        congrArg (List.map OutboxRow.unsent) hst
      refine ⟨?_, fun r hr => h.drawn r (hst ▸ hr), ?_, ?_, fun r hr => h.sent r (hst ▸ hr)⟩
      · show st.db.outbox.Pairwise fun r r' => s.key r < s.key r'
        rw [hst]
        exact h.keys
      · rw [hrows]
        exact h.flight
      · rw [hrows]
        exact h.order
  | @draw event wr result st uuid hst =>
      have hrows : ({ s.saveOutbox uuid with stock := st } : RelayStore).rows = s.rows :=
        congrArg (List.map OutboxRow.unsent) hst
      refine ⟨?_, fun r hr => ?_, ?_, ?_, fun r hr => h.sent r (hst ▸ hr)⟩
      · show st.db.outbox.Pairwise fun r r' =>
          (s.saveOutbox uuid).key r < (s.saveOutbox uuid).key r'
        rw [hst]
        refine h.keys.imp_of_mem fun hr hr' hlt => ?_
        rwa [key_saveOutbox hr, key_saveOutbox hr']
      · have hmem : r ∈ s.stock.db.outbox := hst ▸ hr
        show (s.saveOutbox uuid).key r < s.nextKey + 1
        rw [key_saveOutbox hmem]
        exact Nat.lt_succ_of_lt (h.drawn r hmem)
      · rw [hrows]
        exact h.flight
      · rw [hrows]
        exact h.order
  | @commit event wr row st hst =>
      have hnext : Next s row := hw
      have hmem : ∀ {r : OutboxRow}, r ∈ st.db.outbox → r ∈ s.stock.db.outbox ∨ r = row := by
        intro r hr
        rw [hst] at hr
        exact (List.mem_append.mp hr).imp_right List.mem_singleton.mp
      refine ⟨?_, fun r hr => ?_, ?_, h.order.mono hgrows.rows, fun r hr hsent => ?_⟩
      · show st.db.outbox.Pairwise fun r r' => s.key r < s.key r'
        rw [hst]
        refine List.pairwise_append.mpr ⟨h.keys, List.pairwise_singleton _ _, fun r hr x hx => ?_⟩
        rw [List.mem_singleton.mp hx]
        exact hnext.last r hr
      · rcases hmem hr with hr | rfl
        · exact h.drawn r hr
        · exact hnext.drawn
      · exact h.flight.mono fun r hr => hr.mono hgrows.rows (List.Subset.refl _)
      · rcases hmem hr with hr | rfl
        · exact h.sent r hr hsent
        · rw [hnext.unsent] at hsent
          cases hsent
  | send r todo =>
      have hsendable : Sendable s.rows s.broker.log (r :: todo) := hw
      exact ⟨h.keys, h.drawn, h.flight.send hsendable.1, h.order, h.sent⟩
  | @append w n lost b happ =>
      obtain ⟨x, hx, hlog⟩ := Broker.log_append happ
      have hready : Ready s.rows s.broker.log x := (h.flight.flight _ (Broker.mem_of_record hx)).2
      refine ⟨h.keys, h.drawn, (h.flight.append happ).mono fun r hr => ?_, ?_,
        fun r hr hsent => hgrows.log (h.sent r hr hsent)⟩
      · exact hr.mono (List.prefix_refl _) hgrows.log
      · show InOrder s.rows b.log
        rw [hlog]
        exact h.order.concat hready
  | save r todo =>
      obtain ⟨hlogged, -⟩ : r ∈ s.broker.log ∧ Sendable s.rows s.broker.log todo := hw
      refine ⟨pairwise_markSent.mpr h.keys, fun x hx => ?_, ?_, ?_, fun x hx hsent => ?_⟩
      · obtain ⟨y, hy, rfl⟩ := List.mem_map.mp hx
        have hlt := h.drawn y hy
        split_ifs <;> exact hlt
      · rw [rows_markSent]
        exact h.flight
      · rw [rows_markSent]
        exact h.order
      · obtain ⟨y, hy, rfl⟩ := List.mem_map.mp hx
        show _ ∈ s.broker.log
        split_ifs at hsent ⊢ with hid
        · -- the record that was answered is the record of this row
          obtain ⟨z, hz, hzr⟩ := mem_rows.mp (h.flight.log r hlogged).mem
          have hzid : z.payload.eventId = r.payload.eventId := by rw [← hzr]; rfl
          obtain rfl := h.eventId_injective hy hz (hid.trans hzid.symm)
          show y.unsent ∈ s.broker.log
          rw [hzr]
          exact hlogged
        · exact h.sent y hy hsent

/-- A draw or a commit of another thread is behind `lockCapacity`. -/
lemma RelayEffect.next_other (heff : RelayEffect s w s') (hw : ¬ w.proc.inOutbox) {row : OutboxRow}
    (h : Next s row) : Next s' row := by
  cases heff with
  | same hst => exact ⟨h.unsent, fun r hr => h.last r (hst ▸ hr), h.drawn⟩
  | draw uuid hst => exact absurd trivial hw
  | commit hst => exact absurd trivial hw
  | send r todo => exact ⟨h.unsent, h.last, h.drawn⟩
  | append happ => exact ⟨h.unsent, h.last, h.drawn⟩
  | save r todo =>
      refine ⟨h.unsent, fun x hx => ?_, h.drawn⟩
      obtain ⟨y, hy, rfl⟩ := List.mem_map.mp hx
      have hlt := h.last y hy
      split_ifs <;> exact hlt

/-- The batch of a new cycle can be sent. -/
lemma Published.sendable (h : Published s) :
    Sendable s.rows s.broker.log s.findTop100Pending := by
  have hsorted : (s.stock.db.outbox.filter fun r => !r.sent).Pairwise
      fun r r' => s.key r ≤ s.key r' :=
    (h.keys.filter _).imp fun hlt => Nat.le_of_lt hlt
  have hunsent : (((s.stock.db.outbox.filter fun r => !r.sent).take 100).map OutboxRow.unsent) =
      (s.stock.db.outbox.filter fun r => !r.sent).take 100 := by
    refine (List.map_congr_left fun r hr => ?_).trans (List.map_id _)
    have hpending := List.of_mem_filter (List.mem_of_mem_take hr)
    exact unsent_of_pending (by simpa using hpending)
  rw [RelayStore.findTop100Pending, List.Pairwise.insertionSort_eq hsorted, ← hunsent]
  have hnone : ∀ r ∈ ([] : List OutboxRow), r.unsent ∈ s.broker.log := by simp
  exact sendable_take OutboxRow.unsent (fun r => !r.sent) hnone fun r hr hsent =>
    h.sent r hr (by simpa using hsent)

/-- What a thread relies on after its own step. -/
lemma knows_own (h : Published s) (hw : w.knows s)
    (hmove : RelayMove idempotencyEnabled fold t s w a s' w') : w'.knows s' := by
  have hgrows := hmove.effect.grows hw
  cases hmove with
  | abort w => trivial
  | append w hb =>
      cases w with
      | relay pc => exact hgrows.knows hw
      | handler p =>
          cases p with
          | handling e pc =>
              cases pc with
              | commit wr row =>
                  have hnext : Next s row := hw
                  exact ⟨hnext.unsent, hnext.last, hnext.drawn⟩
              | _ => trivial
          | _ => trivial
  | @deliver p p' event st hnext =>
      cases p <;> cases hnext
      trivial
  | @handle p p' uuid st hnext =>
      cases p' with
      | handling e pc' =>
          cases pc' with
          | commit wr row =>
              cases p with
              | handling event pc =>
                  obtain ⟨result, rfl, hadmits, rfl, rfl⟩ := handlerNext_commit hnext
                  exact h.next hadmits event.orderId result
              | _ => cases hnext
          | _ => trivial
      | _ => trivial
  | start => exact h.sendable
  | send r todo uuid =>
      obtain ⟨hready, hsendable⟩ : Ready s.rows s.broker.log r ∧ _ := hw
      exact ⟨.new h.flight r, hready, hsendable⟩
  | get r todo uuid hacked =>
      obtain ⟨hhanded, -, hsendable⟩ := hw
      have hlogged := hhanded.answered hacked
      refine ⟨hlogged, hsendable.mono (List.prefix_refl _) fun x hx => ?_⟩
      rcases List.mem_append.mp hx with hx | hx
      · exact hx
      · rw [List.mem_singleton.mp hx]
        exact hlogged
  | save r todo uuid => exact (hgrows.knows hw).2
  | ends pc a hdeliver => trivial

/-! ### Every run -/

/-- The invariant holds in every run. -/
theorem reachable_published {ok : Config RelayStore Worker → ℕ → RelayAct → Prop}
    (h : Run (relaying idempotencyEnabled fold) ok (relayStart stock) c) :
    Published c.store ∧ ∀ t, (c.procs t).knows c.store := by
  refine Run.invariant (I := Published) (J := fun _ s w => w.knows s)
    (K := fun c => Run (relaying idempotencyEnabled fold) ok (relayStart stock) c)
    (fun _ h => h) ⟨⟨?_, ?_, ?_, inOrder_nil, ?_⟩, fun _ => trivial⟩ ?_ ?_ h
  · exact List.Pairwise.nil
  · simp [relayStart]
  · exact Broker.sound_empty
  · simp [relayStart]
  · intro c t a s' w' _ _ hs hk hnext
    exact ⟨hs.step (hk t) (relaying_move hnext).effect, knows_own hs (hk t) (relaying_move hnext)⟩
  · intro c t a s' w' u hrun _ hs hk hnext hut
    have heff := (relaying_move hnext).effect
    have hother := hk u
    cases hu : c.procs u with
    | relay pc =>
        rw [hu] at hother
        exact (heff.grows (hk t)).knows hother
    | handler p =>
        rw [hu] at hother
        cases p with
        | handling e pc =>
            cases pc with
            | commit wr row =>
                -- only one thread at a time is behind the capacity lock
                refine heff.next_other (fun ht => hut (inOutbox_unique hrun ht ?_)) hother
                rw [hu]
                trivial
            | _ => trivial
        | _ => trivial

/-- **Results are published in the order of their commits.** In every reachable state a row has
its event alone, a row that is `SENT` is in the log, and a record of the log is a committed result
that came to the log behind all results committed before it. -/
theorem results_published_in_order {ok : Config RelayStore Worker → ℕ → RelayAct → Prop}
    (h : Run (relaying idempotencyEnabled fold) ok (relayStart stock) c) :
    Table.Unique (fun r => r.payload.eventId) c.store.stock.db.outbox ∧
      (∀ r ∈ c.store.stock.db.outbox, r.sent = true → r.unsent ∈ c.store.broker.log) ∧
      InOrder c.store.rows c.store.broker.log := by
  have hs := (reachable_published h).1
  refine ⟨List.pairwise_map.mpr (hs.keys.imp fun {r r'} hlt hid => ?_), hs.sent, hs.order⟩
  rw [RelayStore.key, hid] at hlt
  exact lt_irrefl _ hlt

/-- An action of process `t` and the `n` statements after it. -/
def relayTurn (t : ℕ) (a : RelayAct) (n : ℕ) (uuid : String) : List (ℕ × RelayAct) :=
  (t, a) :: List.replicate n (t, .go uuid)

/-- Two events are handled. The first cycle of a relay ends with a timeout while its record is in
flight; the second one publishes both results, and then the record of the first one arrives. -/
def lateRecord : List (ℕ × RelayAct) :=
  relayTurn 1 (.deliver ⟨"e1", 1, "P", 2, ⟨0⟩⟩) 9 "r1" ++
  relayTurn 1 (.deliver ⟨"e2", 2, "P", 9, ⟨0⟩⟩) 7 "r2" ++
  relayTurn 2 .relay 1 "" ++ [(2, .fail)] ++
  relayTurn 2 .relay 1 "" ++ relayTurn 0 (.append 1 false) 0 "" ++
  List.replicate 3 (2, .go "") ++ relayTurn 0 (.append 2 false) 0 "" ++
  List.replicate 3 (2, .go "") ++ [(0, .append 0 false)]

theorem results_published_in_order_late_record :
    ∃ c, Run (relaying true id) (fun _ _ _ => True) (relayStart [⟨1, "P", 5, 0⟩]) c ∧
      (c.store.broker.log.map (·.payload.eventId), c.store.stock.db.outbox.map (·.sent)) =
        (["r1", "r2", "r1"], [true, true]) ∧
      InOrder c.store.rows c.store.broker.log := by
  obtain ⟨c, hrun, hc⟩ := Run.exists_of_exec (relaying true id) (fun _ _ _ => True)
    (relayStart [⟨1, "P", 5, 0⟩]) lateRecord
    (fun c => (c.store.broker.log.map (·.payload.eventId), c.store.stock.db.outbox.map (·.sent)))
    (["r1", "r2", "r1"], [true, true]) (by decide +kernel)
  exact ⟨c, hrun, hc, (results_published_in_order hrun).2.2⟩

/-! ### Catching up -/

/-- Only process `t` moves, as a relay whose sends are answered. -/
def relayAlone (t : ℕ) (_ : Config RelayStore Worker) (u : ℕ) (a : RelayAct) : Prop :=
  u = t ∧ (a = .relay ∨ a = .go "" ∨ ∃ n, a = .append n false)

/-- The rows that are `PENDING`. -/
def RelayStore.pending (s : RelayStore) : List OutboxRow :=
  s.stock.db.outbox.filter fun r => !r.sent

/-- A mark takes the rows of its event out. -/
lemma pending_markSent (eventId : String) :
    (s.markSent eventId).pending = s.pending.filter fun r => r.payload.eventId ≠ eventId := by
  rw [RelayStore.pending, RelayStore.markSent, Db.markSent, RelayStore.pending]
  dsimp only
  induction s.stock.db.outbox with
  | nil => rfl
  | cons r l ih =>
      by_cases hid : r.payload.eventId = eventId
      · cases hsent : r.sent <;> simp [hid, hsent, ih]
      · cases hsent : r.sent <;> simp [hid, hsent, ih]

lemma mem_findTop100Pending (h : r ∈ s.findTop100Pending) : r ∈ s.pending :=
  (List.mem_insertionSort _).mp (List.mem_of_mem_take h)

/-- A cycle has something to do while a row is `PENDING`. -/
lemma findTop100Pending_ne_nil (h : s.pending ≠ []) : s.findTop100Pending ≠ [] := by
  have hpos : 0 < s.pending.length := List.length_pos_iff.mpr h
  have hlength : s.findTop100Pending.length = min 100 s.pending.length := by
    rw [RelayStore.findTop100Pending, List.length_take, List.length_insertionSort]
    rfl
  refine List.length_pos_iff.mp ?_
  omega

section Cycle

variable {c₀ : Config RelayStore Worker} {procs : ℕ → Worker} {todo : List OutboxRow}

/-- The head of a batch is sent, answered and marked. -/
lemma head_published (hs : s.broker.Sound fun _ => True)
    (h : Run (relaying idempotencyEnabled fold) (relayAlone t) c₀
      ⟨s, Function.update procs t (.relay (.send (r :: todo)))⟩) :
    ∃ s' : RelayStore, s'.broker.Sound (fun _ => True) ∧
      s'.stock = (s.markSent r.payload.eventId).stock ∧
      Run (relaying idempotencyEnabled fold) (relayAlone t) c₀
        ⟨s', Function.update procs t (.relay (.send todo))⟩ := by
  obtain ⟨b, happend, hacked⟩ := Broker.append_send hs r
  have hsent := h.step_of (a := .go "") ⟨rfl, by simp⟩ rfl
  have hanswer : (relaying idempotencyEnabled fold).next t { s with broker := b }
      (.relay (.get s.broker.nextSend r todo)) (.go "") =
        some ({ s with broker := b }, .relay (.save r todo)) := if_pos hacked
  have hbroker : (relaying idempotencyEnabled fold).next t { s with broker := s.broker.send r }
      (.relay (.get s.broker.nextSend r todo)) (.append s.broker.nextSend false) =
        some ({ s with broker := b }, .relay (.get s.broker.nextSend r todo)) := by
    simp only [relaying, relayingNext, happend, Option.map_some]
  have happended := hsent.step_of (a := .append s.broker.nextSend false)
    ⟨rfl, Or.inr (Or.inr ⟨_, rfl⟩)⟩ hbroker
  have hanswered := happended.step_of (a := .go "") ⟨rfl, by simp⟩ hanswer
  have hmarked := hanswered.step_of (a := .go "") ⟨rfl, by simp⟩ rfl
  have hsound : b.Sound fun _ => True := (hs.send trivial).append happend
  exact ⟨({ s with broker := b } : RelayStore).markSent r.payload.eventId, hsound, rfl, hmarked⟩

/-- A batch is published, and its rows are no longer `PENDING`. -/
lemma batch_published (hs : s.broker.Sound fun _ => True)
    (h : Run (relaying idempotencyEnabled fold) (relayAlone t) c₀
      ⟨s, Function.update procs t (.relay (.send todo))⟩) :
    ∃ s' : RelayStore, s'.broker.Sound (fun _ => True) ∧ s'.rows = s.rows ∧
      s'.pending = (s.pending.filter fun r => ∀ x ∈ todo, r.payload.eventId ≠ x.payload.eventId) ∧
      Run (relaying idempotencyEnabled fold) (relayAlone t) c₀
        ⟨s', Function.update procs t (.handler .idle)⟩ := by
  induction todo generalizing s with
  | nil => exact ⟨s, hs, rfl, by simp, h.step_of (a := .go "") ⟨rfl, by simp⟩ rfl⟩
  | cons r todo ih =>
      obtain ⟨s₁, hs₁, hstock, hrun₁⟩ := head_published hs h
      obtain ⟨s', hs', hrows, hpending, hrun'⟩ := ih hs₁ hrun₁
      refine ⟨s', hs', ?_, ?_, hrun'⟩
      · rw [hrows, ← rows_markSent (s := s) r.payload.eventId, RelayStore.rows, hstock,
          RelayStore.rows]
      · have hmarked : s₁.pending = s.pending.filter
            fun x => x.payload.eventId ≠ r.payload.eventId := by
          rw [← pending_markSent, RelayStore.pending, hstock, RelayStore.pending]
        rw [hpending, hmarked, List.filter_filter]
        refine List.filter_congr fun x _ => ?_
        simp [Bool.and_comm]

/-- Cycle by cycle the `PENDING` rows get fewer. -/
lemma all_published (hs : s.broker.Sound fun _ => True)
    (h : Run (relaying idempotencyEnabled fold) (relayAlone t) c₀
      ⟨s, Function.update procs t (.handler .idle)⟩) :
    ∃ s' : RelayStore, s'.rows = s.rows ∧ s'.pending = [] ∧
      Run (relaying idempotencyEnabled fold) (relayAlone t) c₀
        ⟨s', Function.update procs t (.handler .idle)⟩ := by
  induction hn : s.pending.length using Nat.strong_induction_on generalizing s with
  | _ n ih =>
      by_cases hnil : s.pending = []
      · exact ⟨s, rfl, hnil, h⟩
      · have hbatch := h.step_of (a := .relay) ⟨rfl, by simp⟩ rfl
        obtain ⟨s₁, hs₁, hrows₁, hpending₁, hrun₁⟩ := batch_published hs hbatch
        obtain ⟨r, todo, htodo⟩ := List.exists_cons_of_ne_nil (findTop100Pending_ne_nil hnil)
        have hr : r ∈ s.findTop100Pending := by
          rw [htodo]
          exact List.mem_cons_self
        have hfewer : s₁.pending.length < n := by
          rw [hpending₁, ← hn]
          refine List.length_filter_lt_length_iff_exists.mpr ⟨r, mem_findTop100Pending hr, ?_⟩
          simpa using ⟨r, hr, rfl⟩
        obtain ⟨s', hrows', hpending', hrun'⟩ := ih _ hfewer hs₁ hrun₁ rfl
        exact ⟨s', hrows'.trans hrows₁, hpending', hrun'⟩

end Cycle

/-- **The relay catches up.** From every reachable state, whatever failed before, a relay whose
sends are answered publishes every committed result and marks every row. -/
theorem relay_catches_up {ok : Config RelayStore Worker → ℕ → RelayAct → Prop}
    (h : Run (relaying idempotencyEnabled fold) ok (relayStart stock) c)
    (ht : c.procs t = .handler .idle) :
    ∃ c', Run (relaying idempotencyEnabled fold) (relayAlone t) c c' ∧
      c'.store.rows = c.store.rows ∧ (∀ r ∈ c'.store.stock.db.outbox, r.sent = true) ∧
      c.store.rows ⊆ c'.store.broker.log := by
  have hstart : Run (relaying idempotencyEnabled fold) (relayAlone t) c
      ⟨c.store, Function.update c.procs t (.handler .idle)⟩ := by
    rw [← ht, Function.update_eq_self]
    exact .nil
  have hsound := (reachable_published h).1.flight.mono (Q := fun _ => True) fun _ _ => trivial
  obtain ⟨s', hrows, hpending, hrun⟩ := all_published hsound hstart
  have hsent : ∀ r ∈ s'.stock.db.outbox, r.sent = true := by
    simpa [RelayStore.pending] using hpending
  have hwhole : Run (relaying idempotencyEnabled fold) (fun _ _ _ => True) (relayStart stock)
      ⟨s', Function.update c.procs t (.handler .idle)⟩ :=
    (h.mono fun _ _ _ _ => trivial).trans (hrun.mono fun _ _ _ _ => trivial)
  refine ⟨_, hrun, hrows, hsent, fun r hr => ?_⟩
  rw [← hrows] at hr
  obtain ⟨x, hx, rfl⟩ := mem_rows.mp hr
  exact (reachable_published hwhole).1.sent x hx (hsent x hx)

/-- One result is sent and not answered, the other one waits. -/
theorem relay_catches_up_after_timeout :
    ∃ c c', Run (relaying true id) (relayAlone 2) c c' ∧
      (c.store.broker.log, c.store.rows.map (·.payload.eventId)) = ([], ["r1", "r2"]) ∧
      c.store.rows ⊆ c'.store.broker.log := by
  obtain ⟨c, hrun, hc⟩ := Run.exists_of_exec (relaying true id) (fun _ _ _ => True)
    (relayStart [⟨1, "P", 5, 0⟩])
    (relayTurn 1 (.deliver ⟨"e1", 1, "P", 2, ⟨0⟩⟩) 9 "r1" ++
      relayTurn 1 (.deliver ⟨"e2", 2, "P", 9, ⟨0⟩⟩) 7 "r2" ++
      relayTurn 2 .relay 1 "" ++ [(2, .fail)])
    (fun c => (c.store.broker.log, c.store.rows.map (·.payload.eventId), c.procs 2))
    ([], ["r1", "r2"], .handler .idle) (by decide +kernel)
  obtain ⟨hlog, hrest⟩ := Prod.mk.inj hc
  obtain ⟨hrows, hidle⟩ := Prod.mk.inj hrest
  obtain ⟨c', hrun', -, -, hpublished⟩ := relay_catches_up hrun hidle
  exact ⟨c, c', hrun', by rw [hlog, hrows], hpublished⟩

end OrderSystem.Stock
