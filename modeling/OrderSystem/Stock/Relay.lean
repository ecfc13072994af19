/-
The outbox relay of inventory-service beside its handlers.

* `RelayStore`: the tables with the keys of the outbox rows (`AUTO_INCREMENT`, drawn by the
  `INSERT` and not given back), and the broker.
* `RelayPc`, `relayNext`: `OutboxRelay.relayPendingEvents`. It reads the 100 oldest `PENDING` rows
  and sends them one at a time. A row is marked after its answer, and the first failure or timeout
  ends the cycle. A record whose `get` timed out stays in flight and may be appended later.
* `relaying`: the handlers of `service` and any number of such relays. `run_service` gives a run of
  `service` back.
* `RelayMove`: what a step is; `relaying_move` inverts `relayingNext`.
* `reachable_capacity`: the `INSERT` and the commit of a row are under the lock of the capacity
  row, so the keys are in the order of the commits.
* `RelayEffect`: what a step does to the outbox, the keys and the broker.
-/
import OrderSystem.Foundations.Coupling
import OrderSystem.Foundations.Sends
import OrderSystem.Stock.Ledger

namespace OrderSystem.Stock

open Interleaving Sends

/-! ### The relay -/

/-- The tables, the keys of the outbox rows, and the broker. -/
structure RelayStore where
  stock : Store := {}
  keys : List (String × ℕ) := []
  nextKey : ℕ := 1
  broker : Broker OutboxRow := {}

/-- The row as it was saved. -/
def OutboxRow.unsent (r : OutboxRow) : OutboxRow := { r with sent := false }

namespace RelayStore

/-- The `id` of a row. -/
def key (s : RelayStore) (r : OutboxRow) : ℕ :=
  (s.keys.lookup r.payload.eventId).getD 0

/-- The `INSERT` of an outbox row draws a key, also when the row is refused. -/
def saveOutbox (s : RelayStore) (uuid : String) : RelayStore :=
  { s with nextKey := s.nextKey + 1
           keys := if s.stock.db.admits uuid then (uuid, s.nextKey) :: s.keys else s.keys }

/-- `findTop100ByStatusOrderByIdAsc(PENDING)`. -/
def findTop100Pending (s : RelayStore) : List OutboxRow :=
  ((s.stock.db.outbox.filter fun r => !r.sent).insertionSort fun r r' => s.key r ≤ s.key r').take
    100

/-- The results that were committed, in the order of the commits. -/
def rows (s : RelayStore) : List OutboxRow :=
  s.stock.db.outbox.map OutboxRow.unsent

/-- `record.markSent()` and its save. -/
def markSent (s : RelayStore) (eventId : String) : RelayStore :=
  { s with stock := { s.stock with db := s.stock.db.markSent eventId } }

end RelayStore

/-- The next statement of `relayPendingEvents`, with the rest of the batch. -/
inductive RelayPc where
  | send (todo : List OutboxRow)
  | get (n : ℕ) (record : OutboxRow) (todo : List OutboxRow)
  | save (record : OutboxRow) (todo : List OutboxRow)
  deriving DecidableEq, Repr

/-- A thread of inventory-service. -/
inductive Worker where
  | handler (p : Proc)
  | relay (pc : RelayPc)
  deriving DecidableEq, Repr

/-- The choices of the environment. -/
inductive RelayAct where
  | deliver (event : OrderCreatedEvent)
  | relay
  | go (uuid : String)
  | fail
  | append (n : ℕ) (lost : Bool)
  | abort
  deriving DecidableEq, Repr

/-- The statement `pc` of `relayPendingEvents`. -/
def relayNext (s : RelayStore) : RelayPc → Option (RelayStore × Worker)
  | .send [] => some (s, .handler .idle)
  | .send (r :: todo) =>
      some ({ s with broker := s.broker.send r }, .relay (.get s.broker.nextSend r todo))
  | .get n r todo => if n ∈ s.broker.acked then some (s, .relay (.save r todo)) else none
  | .save r todo => some (s.markSent r.payload.eventId, .relay (.send todo))

/-- The key the next statement of a handler draws. -/
def Proc.drawsKey (s : RelayStore) (uuid : String) : Proc → RelayStore
  | .handling _ (.saveOutbox _ _) => s.saveOutbox uuid
  | _ => s

/-- One step of process `t`. -/
def relayingNext (idempotencyEnabled : Bool) (fold : String → String) (t : ℕ) (s : RelayStore) :
    Worker → RelayAct → Option (RelayStore × Worker)
  | _, .abort => some ({ s with stock := s.stock.unlock t }, .handler .idle)
  | w, .append n lost => (s.broker.append n lost).map fun b => ({ s with broker := b }, w)
  | .handler p, .deliver event =>
      (next idempotencyEnabled fold t s.stock p (.deliver event)).map fun r =>
        ({ s with stock := r.1 }, .handler r.2)
  | .handler p, .go uuid =>
      (next idempotencyEnabled fold t s.stock p (.go uuid)).map fun r =>
        ({ p.drawsKey s uuid with stock := r.1 }, .handler r.2)
  | .handler .idle, .relay => some (s, .relay (.send s.findTop100Pending))
  | .relay pc, .go _ => relayNext s pc
  -- the exception is logged, and the cycle ends
  | .relay _, .fail => some (s, .handler .idle)
  | _, _ => none

/-- inventory-service with its relays. -/
def relaying (idempotencyEnabled : Bool) (fold : String → String) :
    Program RelayStore Worker RelayAct :=
  ⟨relayingNext idempotencyEnabled fold⟩

/-- The stock before the first event, nothing published. -/
def relayStart (stock : List Inventory) : Config RelayStore Worker :=
  ⟨{ stock := { db := { inventories := stock } } }, fun _ => .handler .idle⟩

variable {idempotencyEnabled : Bool} {fold : String → String} {t u : ℕ} {s s' : RelayStore}
  {w w' : Worker} {a : RelayAct} {stock : List Inventory} {c : Config RelayStore Worker}

/-! ### Steps -/

/-- What a step of process `t` is. -/
inductive RelayMove (idempotencyEnabled : Bool) (fold : String → String) (t : ℕ) (s : RelayStore) :
    Worker → RelayAct → RelayStore → Worker → Prop
  | abort (w : Worker) :
      RelayMove idempotencyEnabled fold t s w .abort { s with stock := s.stock.unlock t }
        (.handler .idle)
  | append (w : Worker) {n : ℕ} {lost : Bool} {b : Broker OutboxRow}
      (h : s.broker.append n lost = some b) :
      RelayMove idempotencyEnabled fold t s w (.append n lost) { s with broker := b } w
  | deliver {p p' : Proc} {event : OrderCreatedEvent} {st : Store}
      (h : next idempotencyEnabled fold t s.stock p (.deliver event) = some (st, p')) :
      RelayMove idempotencyEnabled fold t s (.handler p) (.deliver event) { s with stock := st }
        (.handler p')
  | handle {p p' : Proc} {uuid : String} {st : Store}
      (h : next idempotencyEnabled fold t s.stock p (.go uuid) = some (st, p')) :
      RelayMove idempotencyEnabled fold t s (.handler p) (.go uuid)
        { p.drawsKey s uuid with stock := st } (.handler p')
  | start :
      RelayMove idempotencyEnabled fold t s (.handler .idle) .relay s
        (.relay (.send s.findTop100Pending))
  | send (r : OutboxRow) (todo : List OutboxRow) (uuid : String) :
      RelayMove idempotencyEnabled fold t s (.relay (.send (r :: todo))) (.go uuid)
        { s with broker := s.broker.send r } (.relay (.get s.broker.nextSend r todo))
  | get {n : ℕ} (r : OutboxRow) (todo : List OutboxRow) (uuid : String)
      (h : n ∈ s.broker.acked) :
      RelayMove idempotencyEnabled fold t s (.relay (.get n r todo)) (.go uuid) s
        (.relay (.save r todo))
  | save (r : OutboxRow) (todo : List OutboxRow) (uuid : String) :
      RelayMove idempotencyEnabled fold t s (.relay (.save r todo)) (.go uuid)
        (s.markSent r.payload.eventId) (.relay (.send todo))
  | ends (pc : RelayPc) (a : RelayAct) (h : ∀ e, a ≠ .deliver e) :
      RelayMove idempotencyEnabled fold t s (.relay pc) a s (.handler .idle)

/-- **The inversion of `relayingNext`**: every step is one of the moves. -/
theorem relaying_move (h : relayingNext idempotencyEnabled fold t s w a = some (s', w')) :
    RelayMove idempotencyEnabled fold t s w a s' w' := by
  cases a with
  | abort =>
      cases h
      exact .abort w
  | append n lost =>
      obtain ⟨b, hb, h⟩ := Option.map_eq_some_iff.mp h
      cases h
      exact .append w hb
  | deliver event =>
      cases w with
      | relay pc => cases pc <;> cases h
      | handler p =>
          obtain ⟨⟨st, p'⟩, hr, h⟩ := Option.map_eq_some_iff.mp h
          cases h
          exact .deliver hr
  | go uuid =>
      cases w with
      | handler p =>
          obtain ⟨⟨st, p'⟩, hr, h⟩ := Option.map_eq_some_iff.mp h
          cases h
          exact .handle hr
      | relay pc =>
          cases pc with
          | send todo =>
              cases todo with
              | nil =>
                  cases h
                  exact .ends _ _ (by simp)
              | cons r todo =>
                  cases h
                  exact .send r todo uuid
          | get n r todo =>
              simp only [relayingNext, relayNext] at h
              split_ifs at h with hacked
              cases h
              exact .get r todo uuid hacked
          | save r todo =>
              cases h
              exact .save r todo uuid
  | relay =>
      cases w with
      | relay pc => cases pc <;> cases h
      | handler p =>
          cases p <;> cases h
          exact .start
  | fail =>
      cases w with
      | handler p => cases p <;> cases h
      | relay pc =>
          cases pc <;> (cases h; exact .ends _ _ (by simp))

/-! ### The handlers -/

/-- The handler of a thread; the relay handles nothing. -/
def Worker.proc : Worker → Proc
  | .handler p => p
  | .relay _ => .idle

/-- Everything but the relay and the broker. -/
abbrev handlers (c : Config RelayStore Worker) : Config Store Proc :=
  c.view RelayStore.stock Worker.proc

/-- What a step does to the handlers. -/
lemma RelayMove.handlers (h : RelayMove idempotencyEnabled fold t s w a s' w') :
    (s'.stock = s.stock ∧ w'.proc = w.proc) ∨
      ∃ b, (∀ event, b = .deliver event → a = .deliver event) ∧
        next idempotencyEnabled fold t s.stock w.proc b = some (s'.stock, w'.proc) := by
  cases h with
  | abort w => exact Or.inr ⟨.abort, by simp, by cases w <;> rfl⟩
  | @deliver p p' event st h => exact Or.inr ⟨.deliver event, by simp, h⟩
  | @handle p p' uuid st h => exact Or.inr ⟨.go uuid, by simp, h⟩
  | save r todo uuid => exact Or.inr ⟨.markSent r.payload.eventId, by simp, rfl⟩
  | _ => exact Or.inl ⟨rfl, rfl⟩

/-- **The handlers of a run are a run of inventory-service**, the updates of the relay
included. -/
lemma run_service {ok : Config RelayStore Worker → ℕ → RelayAct → Prop}
    {ok' : Config Store Proc → ℕ → Act → Prop}
    (hdeliver : ∀ c t e, ok c t (.deliver e) → ok' (handlers c) t (.deliver e))
    (hother : ∀ c t a, (∀ e, a ≠ .deliver e) → ok' c t a)
    (h : Run (relaying idempotencyEnabled fold) ok (relayStart stock) c) :
    Run (service idempotencyEnabled fold) ok' (initial stock) (handlers c) := by
  refine Run.view (f := RelayStore.stock) (g := Worker.proc) (fun c t a s' w' hok hnext => ?_) h
  rcases (relaying_move hnext).handlers with hsame | ⟨b, hb, hnext⟩
  · exact Or.inl hsame
  · refine Or.inr ⟨b, ?_, hnext⟩
    cases b with
    | deliver event =>
        obtain rfl := hb event rfl
        exact hdeliver c t event hok
    | _ => exact hother _ _ _ (by simp)

/-! ### The capacity lock -/

/-- The process is behind `lockCapacity`. -/
def Proc.inOutbox : Proc → Prop
  | .handling _ (.count _ _ _) | .handling _ (.saveOutbox _ _) | .handling _ (.commit _ _) => True
  | _ => False

/-- The statements behind `lockCapacity` are under the lock of the capacity row. -/
lemma Advance.inOutbox {db : Db} {event : OrderCreatedEvent} {pc pc' : Pc} {r : Option Resource}
    (h : Advance fold db event pc pc' r) (hpc' : (Proc.handling event pc').inOutbox) :
    r = some .capacity ∨ (Proc.handling event pc).inOutbox := by
  cases h with
  | lockCapacity view w result => exact Or.inl rfl
  | count view w result => exact Or.inr trivial
  | saveOutbox w result uuid => exact Or.inr trivial
  | _ => exact hpc'.elim

lemma mem_locking {s : Store} {r : Option Resource} {x : Resource × ℕ} (h : x ∈ s.locks) :
    x ∈ (s.locking t r).locks := by
  cases r with
  | none => exact h
  | some r => exact List.mem_append_right _ h

/-- In every run a process behind `lockCapacity` has the lock. -/
lemma reachable_capacity {ok : Config Store Proc → ℕ → Act → Prop} {c : Config Store Proc}
    (h : Run (service idempotencyEnabled fold) ok (initial stock) c) :
    ∀ t, (c.procs t).inOutbox → (.capacity, t) ∈ c.store.locks := by
  refine (Run.invariant (I := fun _ => True)
    (J := fun t s p => p.inOutbox → (.capacity, t) ∈ s.locks)
    (K := fun c => Run (service idempotencyEnabled fold) ok (initial stock) c) (fun _ h => h)
    ⟨trivial, fun _ h => h.elim⟩ ?_ ?_ h).2
  · intro c t a s' p' _ _ _ hin hnext
    refine ⟨trivial, fun hp' => ?_⟩
    have hbefore := hin t
    generalize c.procs t = p at hbefore hnext
    cases next_move hnext with
    | ends hend =>
        cases p' with
        | handling e pc => exact absurd rfl (hend e pc)
        | _ => exact hp'.elim
    | advance hfree hadv =>
        rcases hadv.inOutbox hp' with rfl | hpc
        · exact List.mem_cons_self
        · exact mem_locking (hbefore hpc)
    | _ => exact hp'.elim
  · intro c t a s' p' u hrun _ _ hin hnext hut hu
    have hheld := (reachable_locks hrun).2 t
    exact ((next_locks hheld hnext).1.others hut).mpr (hin u hu)

/-- Two processes are not behind `lockCapacity` at once. -/
lemma inOutbox_unique {ok : Config RelayStore Worker → ℕ → RelayAct → Prop}
    (h : Run (relaying idempotencyEnabled fold) ok (relayStart stock) c)
    (ht : (c.procs t).proc.inOutbox) (hu : (c.procs u).proc.inOutbox) : u = t := by
  have hrun : Run (service idempotencyEnabled fold) (fun _ _ _ => True) (initial stock)
      (handlers c) := run_service (fun _ _ _ _ => trivial) (fun _ _ _ _ => trivial) h
  exact (reachable_locks hrun).1 .capacity u t (reachable_capacity hrun u hu)
    (reachable_capacity hrun t ht)

/-! ### The outbox -/

/-- A row that is about to be committed was admitted by the unique key. -/
lemma handlerNext_commit {st st' : Store} {event e : OrderCreatedEvent} {uuid : String} {pc : Pc}
    {wr : Writes} {row : OutboxRow}
    (h : handlerNext idempotencyEnabled fold t st event uuid pc =
      some (st', .handling e (.commit wr row))) :
    ∃ result, pc = .saveOutbox wr result ∧ st.db.admits uuid ∧ st' = st ∧
      row = .of ⟨uuid, event.orderId, result⟩ := by
  cases pc with
  | saveOutbox w result =>
      simp only [handlerNext] at h
      split_ifs at h with hadmits
      · cases h
        exact ⟨result, rfl, hadmits, rfl, rfl⟩
      · cases h
  | _ =>
      simp only [handlerNext, rollback] at h
      (repeat' split at h) <;> cases h

/-- What a step does to the outbox, the keys and the broker. -/
inductive RelayEffect (s : RelayStore) : Worker → RelayStore → Prop
  | same {w : Worker} {st : Store} (h : st.db.outbox = s.stock.db.outbox) :
      RelayEffect s w { s with stock := st }
  | draw {event : OrderCreatedEvent} {wr : Writes} {result : StockResult} {st : Store}
      (uuid : String) (h : st.db.outbox = s.stock.db.outbox) :
      RelayEffect s (.handler (.handling event (.saveOutbox wr result)))
        { s.saveOutbox uuid with stock := st }
  | commit {event : OrderCreatedEvent} {wr : Writes} {row : OutboxRow} {st : Store}
      (h : st.db.outbox = s.stock.db.outbox ++ [row]) :
      RelayEffect s (.handler (.handling event (.commit wr row))) { s with stock := st }
  | send (r : OutboxRow) (todo : List OutboxRow) :
      RelayEffect s (.relay (.send (r :: todo))) { s with broker := s.broker.send r }
  | append {w : Worker} {n : ℕ} {lost : Bool} {b : Broker OutboxRow}
      (h : s.broker.append n lost = some b) : RelayEffect s w { s with broker := b }
  | save (r : OutboxRow) (todo : List OutboxRow) :
      RelayEffect s (.relay (.save r todo)) (s.markSent r.payload.eventId)

lemma next_outbox {st st' : Store} {p p' : Proc} {uuid : String}
    (h : next idempotencyEnabled fold t st p (.go uuid) = some (st', p')) :
    st'.db.outbox = st.db.outbox ∨ ∃ event w row, p = .handling event (.commit w row) ∧
      st'.db.outbox = st.db.outbox ++ [row] := by
  cases next_move h with
  | commit event w row uuid => exact Or.inr ⟨event, w, row, rfl, rfl⟩
  | @advance event _ pc pc' r hfree hadv =>
      rw [locking_db]
      exact Or.inl rfl
  | _ => exact Or.inl rfl

lemma RelayMove.effect (h : RelayMove idempotencyEnabled fold t s w a s' w') :
    RelayEffect s w s' := by
  cases h with
  | abort w => exact .same rfl
  | append w hb => exact .append hb
  | @deliver p p' event st h =>
      cases p <;> cases h
      exact .same rfl
  | @handle p p' uuid st h =>
      rcases next_outbox h with hsame | ⟨event, wr, row, rfl, hrow⟩
      · cases p with
        | handling event pc =>
            cases pc with
            | saveOutbox wr result => exact .draw uuid hsame
            | _ => exact .same hsame
        | _ => exact .same hsame
      · exact .commit hrow
  | send r todo uuid => exact .send r todo
  | save r todo uuid => exact .save r todo
  | _ => exact .same rfl

end OrderSystem.Stock
