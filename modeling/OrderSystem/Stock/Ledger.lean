/-
The stock, the history and the results of inventory-service agree in every run.

* `OnePerOrder`: one event per order, with a positive quantity; `delivers` lets them arrive
  in any order, any number of times and at any handlers.
* `Writes.held`: the locks a transaction relies on; `reachable_locks`: they are its own.
* `Seen`: a row that was read. The committed row has a later version or is still the same.
* `Prepared`: what a transaction may be about to commit.
* `Effect`: what a step does to the tables; `Sound` is kept by it.
* `Sound`: every history row has its one result, and the stock of a product is its initial
  stock plus the deltas of its events.
-/
import OrderSystem.Stock.Workers

namespace OrderSystem.Stock

open Interleaving

variable {idempotencyEnabled : Bool} {fold : String → String} {t u : ℕ} {s s' : Store}
  {p p' : Proc} {a : Act} {event : OrderCreatedEvent} {events : List OrderCreatedEvent}
  {stock : List Inventory} {db : Db} {w : Writes} {row : OutboxRow} {inv : Inventory} {c : Config Store Proc}

/-! ### The assumptions -/

/-- One event per order, with a positive quantity. -/
structure OnePerOrder (events : List OrderCreatedEvent) : Prop where
  ids : Table.Unique OrderCreatedEvent.eventId events
  orders : Table.Unique OrderCreatedEvent.orderId events
  quantity : ∀ e ∈ events, 0 < e.quantity

/-- One row per product, with a stock that is not negative. -/
structure OneRowPerProduct (fold : String → String) (stock : List Inventory) : Prop where
  ids : Table.Unique Inventory.inventoryId stock
  products : Table.Unique (fun inv => fold inv.productCode) stock
  nonneg : ∀ inv ∈ stock, 0 ≤ inv.stockQuantity

/-- Only the given events are delivered. -/
def delivers (events : List OrderCreatedEvent) (_ : Config Store Proc) (_ : ℕ) (a : Act) : Prop :=
  ∀ e, a = .deliver e → e ∈ events

/-! ### Moves -/

/-- What `handleOrderCreatedEvent` does from one statement to the next, with the lock that
the statement takes. -/
inductive Advance (fold : String → String) (db : Db) (event : OrderCreatedEvent) :
    Pc → Pc → Option Resource → Prop
  | existsByEventId {view : Option Db} (h : ∀ v ∈ view, v = db) :
      Advance fold db event .existsByEventId (.saveHistory view) none
  | saveHistory (view : Option Db) (h : ¬ db.existsByEventId event.eventId) :
      Advance fold db event (.saveHistory view)
        (.findByProductCode view ⟨⟨event.eventId, event.orderId, 0⟩, none⟩)
        (some (.history event.eventId))
  | refused (view : Option Db) (w : Writes) (reason : String) :
      Advance fold db event (.findByProductCode view w)
        (.lockCapacity (view.getD db) w (.failed reason)) none
  | found {view : Option Db} (w : Writes) {inv : Inventory}
      (hmem : inv ∈ (view.getD db).inventories)
      (hcode : fold inv.productCode = fold event.productCode)
      (hstock : event.quantity ≤ inv.stockQuantity) :
      Advance fold db event (.findByProductCode view w) (.updateDelta (view.getD db) w inv) none
  | updateDelta (view : Db) (w : Writes) (inv : Inventory) :
      Advance fold db event (.updateDelta view w inv)
        (.saveInventory view { w with history := { w.history with delta := -event.quantity } } inv)
        none
  | saveInventory (view : Db) (w : Writes) {inv row : Inventory}
      (hrow : db.inventory inv.inventoryId = some row) (hversion : row.version = inv.version) :
      Advance fold db event (.saveInventory view w inv)
        (.lockCapacity view { w with inventory := some { inv with
          stockQuantity := inv.stockQuantity - event.quantity, version := inv.version + 1 } }
          .updated) (some (.inventory inv.inventoryId))
  | lockCapacity (view : Db) (w : Writes) (result : StockResult) :
      Advance fold db event (.lockCapacity view w result) (.count view w result) (some .capacity)
  | count (view : Db) (w : Writes) (result : StockResult) :
      Advance fold db event (.count view w result) (.saveOutbox w result) none
  | saveOutbox (w : Writes) (result : StockResult) (uuid : String) :
      Advance fold db event (.saveOutbox w result)
        (.commit w (.of ⟨uuid, event.orderId, result⟩)) none

/-- The store with the lock a statement took. -/
def Store.locking (s : Store) (t : ℕ) : Option Resource → Store
  | none => s
  | some r => s.lock t r

/-- The kinds of steps a process can take. -/
inductive Move (fold : String → String) (t : ℕ) (s : Store) : Proc → Act → Store → Proc → Prop
  | ends {p : Proc} {a : Act} {p' : Proc} (h : ∀ e pc, p' ≠ .handling e pc) :
      Move fold t s p a (s.unlock t) p'
  | returned (message uuid : String) : Move fold t s (.threw message) (.go uuid) s .idle
  | deliver (event : OrderCreatedEvent) :
      Move fold t s .idle (.deliver event) s (.handling event .existsByEventId)
  | markSent (eventId : String) :
      Move fold t s .idle (.markSent eventId) { s with db := s.db.markSent eventId } .idle
  | advance {event : OrderCreatedEvent} {uuid : String} {pc pc' : Pc} {r : Option Resource}
      (hfree : ∀ x ∈ r, s.canLock t x = true) (h : Advance fold s.db event pc pc' r) :
      Move fold t s (.handling event pc) (.go uuid) (s.locking t r) (.handling event pc')
  | commit (event : OrderCreatedEvent) (w : Writes) (row : OutboxRow) (uuid : String) :
      Move fold t s (.handling event (.commit w row)) (.go uuid)
        ({ s with db := s.db.commit w row }.unlock t) .idle

lemma rollback_move {message : String} (h : rollback t s message = some (s', p')) :
    Move fold t s p a s' p' := by
  cases h
  exact .ends fun e pc => by simp

lemma handlerNext_move {uuid : String} {pc : Pc}
    (h : handlerNext idempotencyEnabled fold t s event uuid pc = some (s', p')) :
    Move fold t s (.handling event pc) (.go uuid) s' p' := by
  have hnone : ∀ x ∈ (none : Option Resource), s.canLock t x = true := by simp
  cases pc with
  | existsByEventId =>
      simp only [handlerNext] at h
      split_ifs at h <;> cases h
      · exact .ends fun e pc => by simp
      · exact .advance hnone (.existsByEventId (by simp))
      · exact .advance hnone (.existsByEventId (by simp))
  | saveHistory view =>
      simp only [handlerNext] at h
      split_ifs at h with hcan hdup
      · exact rollback_move h
      · cases h
        exact .advance (by simpa using hcan) (.saveHistory view hdup)
  | findByProductCode view w =>
      simp only [handlerNext] at h
      split at h
      · cases h
        exact .advance hnone (.refused view w _)
      · next inv hfind =>
          have hinv : inv ∈ (view.getD s.db).findByProductCode fold event.productCode := by
            rw [hfind]
            exact List.mem_singleton_self inv
          obtain ⟨hmem, hcode⟩ := List.mem_filter.mp hinv
          split_ifs at h with hstock <;> cases h
          · exact .advance hnone (.refused view w _)
          · exact .advance hnone (.found w hmem (of_decide_eq_true hcode) (not_lt.mp hstock))
      · exact rollback_move h
  | updateDelta view w inv =>
      cases h
      exact .advance hnone (.updateDelta view w inv)
  | saveInventory view w inv =>
      simp only [handlerNext] at h
      split_ifs at h with hcan
      split at h
      · exact rollback_move h
      · next row hrow =>
          split_ifs at h with hversion
          · cases h
            exact .advance (by simpa using hcan) (.saveInventory view w hrow hversion)
          · exact rollback_move h
  | lockCapacity view w result =>
      simp only [handlerNext] at h
      split_ifs at h with hcan hrow
      · cases h
        exact .advance (by simpa using hcan) (.lockCapacity view w result)
      · exact rollback_move h
  | count view w result =>
      simp only [handlerNext] at h
      split_ifs at h
      · exact rollback_move h
      · cases h
        exact .advance hnone (.count view w result)
  | saveOutbox w result =>
      simp only [handlerNext] at h
      split_ifs at h
      · cases h
        exact .advance hnone (.saveOutbox w result uuid)
      · exact rollback_move h
  | commit w row =>
      cases h
      exact .commit event w row uuid

/-- **The inversion of `next`**: every step is one of the moves. -/
theorem next_move (h : next idempotencyEnabled fold t s p a = some (s', p')) :
    Move fold t s p a s' p' := by
  cases a with
  | abort =>
      cases h
      exact .ends fun e pc => by simp
  | deliver event =>
      cases p <;> cases h
      exact .deliver event
  | markSent eventId =>
      cases p <;> cases h
      exact .markSent eventId
  | go uuid =>
      cases p with
      | idle => cases h
      | handling event pc => exact handlerNext_move h
      | threw message =>
          cases h
          exact .returned message uuid

/-! ### Locks -/

/-- The rows a transaction has written and locked. -/
def Writes.held (w : Writes) : List Resource :=
  .history w.history.eventId :: (w.inventory.map fun inv => .inventory inv.inventoryId).toList

/-- The writes of a transaction. -/
def Pc.writes : Pc → Option Writes
  | .existsByEventId | .saveHistory _ => none
  | .findByProductCode _ w | .updateDelta _ w _ | .saveInventory _ w _ | .lockCapacity _ w _
  | .count _ w _ | .saveOutbox w _ | .commit w _ => some w

/-- The locks a process relies on. -/
def Proc.held : Proc → List Resource
  | .handling _ pc => (pc.writes.map Writes.held).getD []
  | .idle | .threw _ => []

lemma mine_of_canLock {r : Resource} (h : s.canLock t r = true) : Locks.Mine s.locks t r :=
  fun u hu => Locks.available_iff.mp h r u hu (by simp)

/-- A statement keeps what its transaction has locked, and locks what it writes. -/
lemma Advance.held {pc pc' : Pc} {r : Option Resource} (h : Advance fold db event pc pc' r) :
    ∀ x ∈ (Proc.handling event pc').held, x ∈ r ∨ x ∈ (Proc.handling event pc).held := by
  intro x hx
  cases h with
  | existsByEventId h => cases hx
  | saveHistory view h =>
      rw [List.mem_singleton.mp hx]
      exact Or.inl rfl
  | @saveInventory view w inv row hrow hversion =>
      rcases List.mem_cons.mp hx with rfl | hx
      · exact Or.inr List.mem_cons_self
      · rw [List.mem_singleton.mp hx]
        exact Or.inl rfl
  | _ => exact Or.inr hx

lemma locking_locks {r : Option Resource} (hfree : ∀ x ∈ r, s.canLock t x = true)
    {held : List Resource} (hheld : ∀ x ∈ held, x ∈ r ∨ (x, t) ∈ s.locks) :
    Locks.Kept t s.locks (s.locking t r).locks held := by
  cases r with
  | none => exact Locks.kept_same rfl fun x hx => (hheld x hx).resolve_left (by simp)
  | some r =>
      refine Locks.kept_take [r] ?_ rfl fun x hx => (hheld x hx).imp_left fun h => ?_
      · intro x hx
        rw [List.mem_singleton.mp hx]
        exact mine_of_canLock (hfree r rfl)
      · rw [Option.some.inj h]
        exact List.mem_singleton_self x

/-- **Locks are taken one holder at a time and kept.** -/
lemma next_locks (hheld : ∀ r ∈ p.held, (r, t) ∈ s.locks)
    (h : next idempotencyEnabled fold t s p a = some (s', p')) :
    Locks.Kept t s.locks s'.locks p'.held := by
  cases next_move h with
  | ends hend =>
      refine Locks.kept_drop rfl ?_
      cases p' with
      | handling e pc => exact absurd rfl (hend e pc)
      | _ => rfl
  | advance hfree hadv =>
      exact locking_locks hfree fun x hx => (hadv.held x hx).imp_right (hheld x)
  | commit event w row uuid => exact Locks.kept_drop rfl rfl
  | _ => exact Locks.kept_same rfl (by simp [Proc.held, Pc.writes])

/-- In every run the locks are exclusive, and every handler owns the locks it relies on. -/
theorem reachable_locks {ok : Config Store Proc → ℕ → Act → Prop}
    (h : Run (service idempotencyEnabled fold) ok (initial stock) c) :
    Locks.Exclusive c.store.locks ∧ ∀ t, ∀ r ∈ (c.procs t).held, (r, t) ∈ c.store.locks := by
  refine Run.invariant (I := fun s => Locks.Exclusive s.locks)
    (J := fun t s p => ∀ r ∈ p.held, (r, t) ∈ s.locks) (K := fun _ => True)
    (fun _ _ => trivial) ⟨Locks.exclusive_nil, by simp [initial, Proc.held]⟩ ?_ ?_ h
  · intro c t a s' p' _ _ hex hheld hnext
    obtain ⟨hchange, hkept⟩ := next_locks (hheld t) hnext
    exact ⟨hchange.exclusive hex, hkept⟩
  · intro c t a s' p' u _ _ _ hheld hnext hut r hr
    obtain ⟨hchange, -⟩ := next_locks (hheld t) hnext
    exact (hchange.others hut).mpr (hheld u r hr)

/-! ### What a handler knows -/

/-- A row that was read: the committed row is a later one of the same product, or the same. -/
def Seen (db : Db) (inv : Inventory) : Prop :=
  ∃ row ∈ db.inventories, row.inventoryId = inv.inventoryId ∧
    row.productCode = inv.productCode ∧ inv.version ≤ row.version ∧
    (row.version = inv.version → row = inv)

/-- The row has enough stock of the product of the event. -/
structure Suffices (fold : String → String) (event : OrderCreatedEvent) (inv : Inventory) :
    Prop where
  code : fold inv.productCode = fold event.productCode
  stock : event.quantity ≤ inv.stockQuantity

/-- The history row of an event. -/
def historyOf (event : OrderCreatedEvent) (delta : ℤ) : StockHistory :=
  ⟨event.eventId, event.orderId, delta⟩

/-- The writes of a transaction and the result it is going to send. -/
inductive Prepared (fold : String → String) (db : Db) (event : OrderCreatedEvent) :
    Writes → StockResult → Prop
  | updated {inv : Inventory} (hrow : inv ∈ db.inventories) (h : Suffices fold event inv) :
      Prepared fold db event ⟨historyOf event (-event.quantity), some { inv with
        stockQuantity := inv.stockQuantity - event.quantity, version := inv.version + 1 }⟩ .updated
  | failed (reason : String) :
      Prepared fold db event ⟨historyOf event 0, none⟩ (.failed reason)

/-- What a handler knows before its next statement. -/
def Pc.knows (fold : String → String) (db : Db) (event : OrderCreatedEvent) : Pc → Prop
  | .existsByEventId => True
  | .saveHistory view => ∀ v ∈ view, ∀ inv ∈ v.inventories, Seen db inv
  | .findByProductCode view w =>
      (∀ v ∈ view, ∀ inv ∈ v.inventories, Seen db inv) ∧ w = ⟨historyOf event 0, none⟩
  | .updateDelta _ w inv => Seen db inv ∧ Suffices fold event inv ∧ w = ⟨historyOf event 0, none⟩
  | .saveInventory _ w inv =>
      Seen db inv ∧ Suffices fold event inv ∧ w = ⟨historyOf event (-event.quantity), none⟩
  | .lockCapacity _ w result | .count _ w result | .saveOutbox w result =>
      Prepared fold db event w result
  | .commit w row => ∃ uuid result, row = .of ⟨uuid, event.orderId, result⟩ ∧
      Prepared fold db event w result

/-- The event is one of those delivered, and behind the insert of its history row no other
one is committed. -/
def Proc.knows (fold : String → String) (events : List OrderCreatedEvent) (db : Db) :
    Proc → Prop
  | .handling event pc => event ∈ events ∧ pc.knows fold db event ∧
      (pc.writes.isSome → ¬ db.existsByEventId event.eventId)
  | .idle | .threw _ => True

@[simp] lemma locking_db (r : Option Resource) : (s.locking t r).db = s.db := by
  cases r <;> rfl

@[simp] lemma unlock_db : (s.unlock t).db = s.db := rfl

lemma seen_of_mem {inv : Inventory} (h : inv ∈ db.inventories) : Seen db inv :=
  ⟨inv, h, rfl, rfl, le_rfl, fun _ => rfl⟩

/-- A view is at most as new as the tables. -/
lemma seen_view {view : Option Db} (h : ∀ v ∈ view, ∀ inv ∈ v.inventories, Seen db inv)
    {inv : Inventory} (hinv : inv ∈ (view.getD db).inventories) : Seen db inv := by
  cases view with
  | none => exact seen_of_mem hinv
  | some v => exact h v rfl inv hinv

/-- **The version that was read is still the committed one: so is the row.** -/
lemma Seen.current (h : Seen db inv) (hids : Table.Unique Inventory.inventoryId db.inventories)
    {row : Inventory} (hrow : db.inventory inv.inventoryId = some row)
    (hversion : row.version = inv.version) : inv ∈ db.inventories := by
  obtain ⟨x, hx, hid, -, -, hsame⟩ := h
  have hxrow : x = row := hids.eq hx (Table.mem_of_get hrow) (hid.trans (Table.key_of_get hrow).symm)
  rw [← hsame (hxrow ▸ hversion)]
  exact hx

/-- What a handler knows behind a statement. -/
lemma Advance.knows (hids : Table.Unique Inventory.inventoryId db.inventories) {pc pc' : Pc}
    {r : Option Resource} (h : Advance fold db event pc pc' r) (hk : pc.knows fold db event)
    (hnew : pc.writes.isSome → ¬ db.existsByEventId event.eventId) :
    pc'.knows fold db event ∧ (pc'.writes.isSome → ¬ db.existsByEventId event.eventId) := by
  cases h with
  | existsByEventId hview =>
      refine ⟨fun v hv inv hinv => ?_, by simp [Pc.writes]⟩
      rw [hview v hv] at hinv
      exact seen_of_mem hinv
  | saveHistory view hno => exact ⟨⟨hk, rfl⟩, fun _ => hno⟩
  | refused view w reason =>
      refine ⟨?_, fun _ => hnew rfl⟩
      rw [hk.2]
      exact .failed reason
  | found w hmem hcode hstock =>
      exact ⟨⟨seen_view hk.1 hmem, ⟨hcode, hstock⟩, hk.2⟩, fun _ => hnew rfl⟩
  | updateDelta view w inv =>
      obtain ⟨hseen, hsuffices, rfl⟩ := hk
      exact ⟨⟨hseen, hsuffices, rfl⟩, fun _ => hnew rfl⟩
  | saveInventory view w hrow hversion =>
      obtain ⟨hseen, hsuffices, rfl⟩ := hk
      exact ⟨.updated (hseen.current hids hrow hversion) hsuffices, fun _ => hnew rfl⟩
  | saveOutbox w result uuid => exact ⟨⟨uuid, result, rfl, hk⟩, fun _ => hnew rfl⟩
  | _ => exact ⟨hk, fun _ => hnew rfl⟩

/-! ### What a step does to the tables -/

/-- The tables after a step of `t`. -/
inductive Change (fold : String → String) (events : List OrderCreatedEvent) (t : ℕ) (s : Store) :
    Db → Prop
  | same : Change fold events t s s.db
  | commit {event : OrderCreatedEvent} {w : Writes} {result : StockResult} (uuid : String)
      (hevent : event ∈ events) (hnew : ¬ s.db.existsByEventId event.eventId)
      (hprepared : Prepared fold s.db event w result)
      (hmine : ∀ r ∈ w.held, Locks.Mine s.locks t r) :
      Change fold events t s (s.db.commit w (.of ⟨uuid, event.orderId, result⟩))
  | markSent (eventId : String) : Change fold events t s (s.db.markSent eventId)

/-- What a step of a handler that knows what it relies on does to the tables. -/
lemma next_change (hex : Locks.Exclusive s.locks) (hheld : ∀ r ∈ p.held, (r, t) ∈ s.locks)
    (hk : p.knows fold events s.db)
    (h : next idempotencyEnabled fold t s p a = some (s', p')) :
    Change fold events t s s'.db := by
  cases next_move h with
  | ends hend => exact .same
  | advance hfree hadv =>
      rw [locking_db]
      exact .same
  | commit event w row uuid =>
      obtain ⟨hevent, ⟨uuid, result, rfl, hprepared⟩, hnew⟩ := hk
      exact .commit uuid hevent (hnew rfl) hprepared fun r hr =>
        Locks.mine_of_mem hex (hheld r hr)
  | markSent eventId => exact .markSent eventId
  | _ => exact .same

/-- What a handler knows after its own step. -/
lemma next_knows (hids : Table.Unique Inventory.inventoryId s.db.inventories)
    (hok : ∀ e, a = .deliver e → e ∈ events) (hk : p.knows fold events s.db)
    (h : next idempotencyEnabled fold t s p a = some (s', p')) : p'.knows fold events s'.db := by
  cases next_move h with
  | ends hend =>
      cases p' with
      | handling e pc => exact absurd rfl (hend e pc)
      | _ => trivial
  | deliver event => exact ⟨hok event rfl, trivial, by simp [Pc.writes]⟩
  | advance hfree hadv =>
      rw [locking_db]
      exact ⟨hk.1, hadv.knows hids hk.2.1 hk.2.2⟩
  | _ => trivial

/-! ### What others cannot disturb -/

namespace Change

variable {db' : Db}

/-- A committed row stays or is replaced by its next version. -/
lemma inventory (h : Change fold events t s db')
    (hids : Table.Unique Inventory.inventoryId s.db.inventories) (hinv : inv ∈ s.db.inventories) :
    inv ∈ db'.inventories ∨ ∃ row ∈ db'.inventories, row.inventoryId = inv.inventoryId ∧
      row.productCode = inv.productCode ∧ row.version = inv.version + 1 ∧
      Locks.Mine s.locks t (.inventory inv.inventoryId) := by
  cases h with
  | same => exact Or.inl hinv
  | markSent eventId => exact Or.inl hinv
  | commit uuid hevent hnew hprepared hmine =>
      cases hprepared with
      | failed reason => exact Or.inl hinv
      | @updated x hx hsuffices =>
          by_cases hid : inv.inventoryId = x.inventoryId
          · obtain rfl := hids.eq hinv hx hid
            refine Or.inr ⟨_, Table.mem_put.mpr (Or.inl rfl), rfl, rfl, rfl, hmine _ ?_⟩
            simp [Writes.held]
          · exact Or.inl (Table.mem_put.mpr (Or.inr ⟨hinv, hid⟩))

lemma seen (h : Change fold events t s db')
    (hids : Table.Unique Inventory.inventoryId s.db.inventories) (hseen : Seen s.db inv) :
    Seen db' inv := by
  obtain ⟨row, hrow, hid, hcode, hle, hsame⟩ := hseen
  rcases h.inventory hids hrow with hrow | ⟨row', hrow', hid', hcode', hversion, -⟩
  · exact ⟨row, hrow, hid, hcode, hle, hsame⟩
  · exact ⟨row', hrow', hid'.trans hid, hcode'.trans hcode, by omega, fun heq => by omega⟩

/-- A locked row is not changed by the others. -/
lemma inventory_locked (h : Change fold events t s db')
    (hids : Table.Unique Inventory.inventoryId s.db.inventories)
    (hlock : (.inventory inv.inventoryId, u) ∈ s.locks) (hut : u ≠ t)
    (hinv : inv ∈ s.db.inventories) : inv ∈ db'.inventories := by
  rcases h.inventory hids hinv with hinv | ⟨_, -, -, -, -, hmine⟩
  · exact hinv
  · exact absurd (hmine u hlock) hut

/-- Under the lock of its key no history row appears. -/
lemma history_locked (h : Change fold events t s db') {eventId : String}
    (hlock : (.history eventId, u) ∈ s.locks) (hut : u ≠ t)
    (hnew : ¬ s.db.existsByEventId eventId) : ¬ db'.existsByEventId eventId := by
  cases h with
  | same => exact hnew
  | markSent _ => exact hnew
  | @commit event w result uuid hevent _ hprepared hmine =>
      rintro ⟨x, hx, hid⟩
      rcases List.mem_append.mp hx with hx | hx
      · exact hnew ⟨x, hx, hid⟩
      · rw [List.mem_singleton.mp hx] at hid
        exact hut (hmine _ (hid ▸ List.mem_cons_self) u hlock)

end Change

/-- What a handler knows is not disturbed by the others. -/
lemma Proc.knows_other {db' : Db} (h : Change fold events t s db')
    (hids : Table.Unique Inventory.inventoryId s.db.inventories) (hut : u ≠ t) {q : Proc}
    (hheld : ∀ r ∈ q.held, (r, u) ∈ s.locks) (hk : q.knows fold events s.db) :
    q.knows fold events db' := by
  cases q with
  | handling event pc =>
      obtain ⟨hevent, hk, hnew⟩ := hk
      have hseen : ∀ {inv : Inventory}, Seen s.db inv → Seen db' inv := h.seen hids
      have hprepared : ∀ {w : Writes} {result : StockResult}, (∀ r ∈ w.held, (r, u) ∈ s.locks) →
          Prepared fold s.db event w result → Prepared fold db' event w result := by
        intro w result hheld hprepared
        cases hprepared with
        | failed reason => exact .failed reason
        | @updated x hx hsuffices =>
            exact .updated (h.inventory_locked hids (hheld _ (by simp [Writes.held])) hut hx) hsuffices
      have hhistory : ∀ {w : Writes}, pc.writes = some w → w.history.eventId = event.eventId →
          ¬ db'.existsByEventId event.eventId := by
        intro w hw hid
        have hlock : (.history event.eventId, u) ∈ s.locks := by
          refine hheld _ ?_
          rw [Proc.held, hw, ← hid]
          exact List.mem_cons_self
        exact h.history_locked hlock hut (hnew (by rw [hw]; rfl))
      have hid : ∀ {w : Writes} {result : StockResult}, Prepared fold s.db event w result →
          w.history.eventId = event.eventId := by
        intro w result hprepared
        cases hprepared <;> rfl
      cases pc with
      | existsByEventId => exact ⟨hevent, trivial, by simp [Pc.writes]⟩
      | saveHistory view =>
          exact ⟨hevent, fun v hv inv hinv => hseen (hk v hv inv hinv), by simp [Pc.writes]⟩
      | findByProductCode view w =>
          refine ⟨hevent, ⟨fun v hv inv hinv => hseen (hk.1 v hv inv hinv), hk.2⟩, fun _ => ?_⟩
          exact hhistory rfl (by rw [hk.2]; rfl)
      | updateDelta view w inv =>
          refine ⟨hevent, ⟨hseen hk.1, hk.2⟩, fun _ => hhistory rfl ?_⟩
          rw [hk.2.2]
          rfl
      | saveInventory view w inv =>
          refine ⟨hevent, ⟨hseen hk.1, hk.2⟩, fun _ => hhistory rfl ?_⟩
          rw [hk.2.2]
          rfl
      | commit w row =>
          obtain ⟨uuid, result, hrow, hp⟩ := hk
          exact ⟨hevent, ⟨uuid, result, hrow, hprepared hheld hp⟩, fun _ => hhistory rfl (hid hp)⟩
      | _ => exact ⟨hevent, hprepared hheld hk, fun _ => hhistory rfl (hid hk)⟩
  | _ => trivial

/-! ### The invariant -/

/-- The sum of the deltas of the events of a product. -/
def Db.deltas (events : List OrderCreatedEvent) (fold : String → String) (code : String)
    (db : Db) : ℤ :=
  ((db.stockHistory.filter fun h =>
    ∃ e ∈ events, e.eventId = h.eventId ∧ fold e.productCode = fold code).map (·.delta)).sum

/-- The result row of an event agrees with its history row. -/
inductive Outcome (event : OrderCreatedEvent) (h : StockHistory) (r : OutboxRow) : Prop
  | updated (hdelta : h.delta = -event.quantity) (htopic : r.topic = .stockUpdated)
      (hresult : r.payload.result = .updated)
  | failed {reason : String} (hdelta : h.delta = 0) (htopic : r.topic = .stockUpdateFailed)
      (hresult : r.payload.result = .failed reason)

/-- The topic of the result row says which of the two it is. -/
lemma Outcome.topic {event : OrderCreatedEvent} {h : StockHistory} {r : OutboxRow}
    (ho : Outcome event h r) (hq : 0 < event.quantity) :
    (r.topic = .stockUpdated ↔ h.delta = -event.quantity) ∧
      (r.topic = .stockUpdateFailed ↔ h.delta = 0) := by
  cases ho with
  | updated hdelta htopic hresult =>
      have hne : -event.quantity ≠ 0 := by omega
      simp [hdelta, htopic, hne]
  | failed hdelta htopic hresult =>
      have hne : (0 : ℤ) ≠ -event.quantity := by omega
      simp [hdelta, htopic, hne]

/-- The result rows of an order. -/
def Db.resultsOf (db : Db) (orderId : ℤ) : List OutboxRow :=
  db.outbox.filter fun r => r.payload.orderId = orderId

/-- The history row belongs to an event that has exactly one result. -/
def Settled (events : List OrderCreatedEvent) (db : Db) (h : StockHistory) : Prop :=
  ∃ e ∈ events, e.eventId = h.eventId ∧ e.orderId = h.orderId ∧
    ∃ r, db.resultsOf h.orderId = [r] ∧ Outcome e h r

/-- The tables agree with each other and with the stock in the beginning. -/
structure Sound (fold : String → String) (events : List OrderCreatedEvent)
    (stock : List Inventory) (db : Db) : Prop where
  rows : db.inventories.map (fun i => (i.inventoryId, i.productCode)) =
    stock.map fun i => (i.inventoryId, i.productCode)
  history : Table.Unique StockHistory.eventId db.stockHistory
  settled : ∀ h ∈ db.stockHistory, Settled events db h
  results : ∀ r ∈ db.outbox, ∃ h ∈ db.stockHistory, h.orderId = r.payload.orderId
  stock : ∀ inv ∈ db.inventories, ∃ p ∈ stock, p.inventoryId = inv.inventoryId ∧
    p.productCode = inv.productCode ∧ 0 ≤ inv.stockQuantity ∧
    inv.stockQuantity = p.stockQuantity + db.deltas events fold inv.productCode

namespace Sound

variable {db' : Db}

lemma ids (h : Sound fold events stock db) (hstock : OneRowPerProduct fold stock) :
    Table.Unique Inventory.inventoryId db.inventories := by
  have hmap := congrArg (List.map Prod.fst) h.rows
  simp only [List.map_map] at hmap
  rw [Table.Unique]
  exact (congrArg List.Nodup hmap).mpr hstock.ids

lemma products (h : Sound fold events stock db) (hstock : OneRowPerProduct fold stock) :
    Table.Unique (fun inv => fold inv.productCode) db.inventories := by
  have hmap := congrArg (List.map fun x => fold x.2) h.rows
  simp only [List.map_map] at hmap
  rw [Table.Unique]
  exact (congrArg List.Nodup hmap).mpr hstock.products

/-- An event without a history row has no result, and neither has its order. -/
lemma fresh (h : Sound fold events stock db) (hE : OnePerOrder events) (hevent : event ∈ events)
    (hnew : ¬ db.existsByEventId event.eventId) :
    (∀ x ∈ db.stockHistory, x.orderId ≠ event.orderId) ∧ db.resultsOf event.orderId = [] := by
  have hhistory : ∀ x ∈ db.stockHistory, x.orderId ≠ event.orderId := by
    intro x hx horder
    obtain ⟨e, he, hid, heorder, -⟩ := h.settled x hx
    obtain rfl := hE.orders.eq he hevent (heorder.trans horder)
    exact hnew ⟨x, hx, hid.symm⟩
  refine ⟨hhistory, List.filter_eq_nil_iff.mpr fun r hr horder => ?_⟩
  obtain ⟨x, hx, hxorder⟩ := h.results r hr
  exact hhistory x hx (hxorder.trans (of_decide_eq_true horder))

/-- A result in the outbox is the only one of its order, under the topic of its kind. -/
lemma resultOf (h : Sound fold events stock db) {r : OutboxRow} (hr : r ∈ db.outbox) :
    db.resultsOf r.payload.orderId = [r] ∧
      (r.payload.result = .updated → r.topic = .stockUpdated) ∧
      ∀ reason, r.payload.result = .failed reason → r.topic = .stockUpdateFailed := by
  obtain ⟨x, hx, horder⟩ := h.results r hr
  obtain ⟨e, -, -, -, r', hr', hout⟩ := h.settled x hx
  rw [horder] at hr'
  have hmem : r ∈ db.resultsOf r.payload.orderId := List.mem_filter.mpr ⟨hr, by simp⟩
  rw [hr', List.mem_singleton] at hmem
  subst hmem
  refine ⟨hr', ?_⟩
  cases hout with
  | updated _ htopic hresult => simp [htopic, hresult]
  | failed _ htopic hresult => simp [htopic, hresult]

/-- The deltas of a product after the commit of an event. -/
lemma deltas_commit (hE : OnePerOrder events) (hevent : event ∈ events) {delta : ℤ}
    (hw : w.history = historyOf event delta) (row : OutboxRow) (code : String) :
    (db.commit w row).deltas events fold code =
      db.deltas events fold code + if fold event.productCode = fold code then delta else 0 := by
  have hmine : (∃ e ∈ events, e.eventId = event.eventId ∧ fold e.productCode = fold code) ↔
      fold event.productCode = fold code := by
    constructor
    · rintro ⟨e, he, hid, hcode⟩
      rwa [← hE.ids.eq he hevent hid]
    · exact fun hcode => ⟨event, hevent, rfl, hcode⟩
  have hdelta : ((([w.history].filter fun h => ∃ e ∈ events, e.eventId = h.eventId ∧
      fold e.productCode = fold code)).map (·.delta)).sum =
        if fold event.productCode = fold code then delta else 0 := by
    rw [hw]
    by_cases hcode : fold event.productCode = fold code
    · have hin := hmine.mpr hcode
      simp [historyOf, hin, hcode]
    · have hout := mt hmine.mp hcode
      simp [historyOf, hout, hcode]
  rw [Db.deltas, Db.commit, List.filter_append, List.map_append, List.sum_append, hdelta, Db.deltas]

lemma prepared_history {result : StockResult} (h : Prepared fold db event w result) :
    ∃ delta, w.history = historyOf event delta := by
  cases h <;> exact ⟨_, rfl⟩

/-- The history and the results after a commit. -/
lemma settled_commit (h : Sound fold events stock db) (hE : OnePerOrder events)
    (hevent : event ∈ events) (hnew : ¬ db.existsByEventId event.eventId) {result : StockResult}
    (hprepared : Prepared fold db event w result) (uuid : String) :
    ∀ x ∈ (db.commit w (.of ⟨uuid, event.orderId, result⟩)).stockHistory,
      Settled events (db.commit w (.of ⟨uuid, event.orderId, result⟩)) x := by
  obtain ⟨hhistory, hresults⟩ := h.fresh hE hevent hnew
  obtain ⟨delta, hw⟩ := prepared_history hprepared
  have hsplit : ∀ id, (db.commit w (.of ⟨uuid, event.orderId, result⟩)).resultsOf id =
      db.resultsOf id ++
        [OutboxRow.of ⟨uuid, event.orderId, result⟩].filter fun r => r.payload.orderId = id :=
    fun id => List.filter_append _ _
  intro x hx
  rcases List.mem_append.mp hx with hx | hx
  · obtain ⟨e, he, hid, horder, r, hr, hout⟩ := h.settled x hx
    refine ⟨e, he, hid, horder, r, ?_, hout⟩
    rw [hsplit, hr, List.filter_eq_nil_iff.mpr, List.append_nil]
    intro y hy
    rw [List.mem_singleton.mp hy]
    simpa [OutboxRow.of] using fun heq => hhistory x hx heq.symm
  · rw [List.mem_singleton.mp hx]
    refine ⟨event, hevent, by rw [hw]; rfl, by rw [hw]; rfl, .of ⟨uuid, event.orderId, result⟩,
      ?_, ?_⟩
    · have horder : w.history.orderId = event.orderId := by rw [hw]; rfl
      rw [horder, hsplit, hresults]
      simp [OutboxRow.of]
    · cases hprepared with
      | updated => exact .updated rfl rfl rfl
      | failed reason => exact .failed rfl rfl rfl

/-- The stock after a commit. -/
lemma stock_commit (h : Sound fold events stock db) (hE : OnePerOrder events)
    (hstock : OneRowPerProduct fold stock) (hevent : event ∈ events) {result : StockResult}
    (hprepared : Prepared fold db event w result) (row : OutboxRow) :
    ∀ inv ∈ (db.commit w row).inventories, ∃ p ∈ stock, p.inventoryId = inv.inventoryId ∧
      p.productCode = inv.productCode ∧ 0 ≤ inv.stockQuantity ∧ inv.stockQuantity =
        p.stockQuantity + (db.commit w row).deltas events fold inv.productCode := by
  intro inv hinv
  cases hprepared with
  | failed reason =>
      obtain ⟨p, hp, hid, hcode, hnonneg, hsum⟩ := h.stock inv hinv
      refine ⟨p, hp, hid, hcode, hnonneg, ?_⟩
      rw [deltas_commit hE hevent rfl, ite_self, add_zero]
      exact hsum
  | @updated x hx hsuffices =>
      rcases Table.mem_put.mp hinv with rfl | ⟨hinv, hne⟩
      · obtain ⟨p, hp, hid, hcode, -, hsum⟩ := h.stock x hx
        have hq := hsuffices.stock
        refine ⟨p, hp, hid, hcode, ?_, ?_⟩
        · show 0 ≤ x.stockQuantity - event.quantity
          omega
        · rw [deltas_commit hE hevent rfl, if_pos hsuffices.code.symm]
          show x.stockQuantity - event.quantity = p.stockQuantity +
            (db.deltas events fold x.productCode + -event.quantity)
          omega
      · obtain ⟨p, hp, hid, hcode, hnonneg, hsum⟩ := h.stock inv hinv
        refine ⟨p, hp, hid, hcode, hnonneg, ?_⟩
        have hother : fold event.productCode ≠ fold inv.productCode := by
          intro heq
          have hsame : inv = x :=
            (h.products hstock).eq hinv hx (heq.symm.trans hsuffices.code.symm)
          exact hne (by rw [hsame])
        rw [deltas_commit hE hevent rfl, if_neg hother, add_zero]
        exact hsum

/-- Marking a row as sent keeps its topic and its payload. -/
lemma resultsOf_markSent {orderId : ℤ} {r : OutboxRow} (hr : db.resultsOf orderId = [r])
    (eventId : String) : ∃ r', (db.markSent eventId).resultsOf orderId = [r'] ∧
      r'.topic = r.topic ∧ r'.payload = r.payload := by
  have hpayload : ∀ x : OutboxRow, (if x.payload.eventId = eventId then { x with sent := true }
      else x).payload = x.payload := by
    intro x
    split_ifs <;> rfl
  refine ⟨if r.payload.eventId = eventId then { r with sent := true } else r, ?_, ?_, hpayload r⟩
  · rw [Db.resultsOf, Db.markSent, List.filter_map]
    simp only [Function.comp_def, hpayload]
    rw [Db.resultsOf] at hr
    rw [hr]
    rfl
  · split_ifs <;> rfl

/-- **The tables stay in agreement.** -/
theorem step (h : Sound fold events stock s.db) (hE : OnePerOrder events)
    (hstock : OneRowPerProduct fold stock) (hchange : Change fold events t s db') :
    Sound fold events stock db' := by
  cases hchange with
  | same => exact h
  | @commit event w result uuid hevent hnew hprepared hmine =>
      obtain ⟨delta, hw⟩ := prepared_history hprepared
      refine ⟨?_, ?_, h.settled_commit hE hevent hnew hprepared uuid, fun r hr => ?_,
        h.stock_commit hE hstock hevent hprepared _⟩
      · cases hprepared with
        | failed reason => exact h.rows
        | @updated x hx hsuffices =>
            refine Eq.trans (Table.map_put (h.ids hstock) hx ?_ ?_) h.rows <;> rfl
      · refine h.history.concat (Table.get_eq_none.mpr fun x hx hid => hnew ⟨x, hx, ?_⟩)
        rw [hid, hw]
        rfl
      · rcases List.mem_append.mp hr with hr | hr
        · obtain ⟨x, hx, horder⟩ := h.results r hr
          exact ⟨x, List.mem_append_left _ hx, horder⟩
        · refine ⟨w.history, by simp [Db.commit], ?_⟩
          rw [List.mem_singleton.mp hr, hw]
          rfl
  | markSent eventId =>
      refine ⟨h.rows, h.history, fun x hx => ?_, fun r hr => ?_, h.stock⟩
      · obtain ⟨e, he, hid, horder, r, hr, hout⟩ := h.settled x hx
        rcases resultsOf_markSent hr eventId with ⟨r', hr', htopic, hpayload⟩
        refine ⟨e, he, hid, horder, r', hr', ?_⟩
        cases hout with
        | updated hdelta ht hresult =>
            exact .updated hdelta (htopic.trans ht) (hpayload ▸ hresult)
        | failed hdelta ht hresult =>
            exact .failed hdelta (htopic.trans ht) (hpayload ▸ hresult)
      · obtain ⟨r', hr', rfl⟩ := List.mem_map.mp hr
        obtain ⟨x, hx, horder⟩ := h.results r' hr'
        refine ⟨x, hx, ?_⟩
        split_ifs <;> exact horder

end Sound

/-! ### Every run -/

/-- Nothing is handled in the beginning. -/
lemma sound_initial (hstock : OneRowPerProduct fold stock) :
    Sound fold events stock (initial stock).store.db :=
  ⟨rfl, List.nodup_nil, by simp [initial], by simp [initial], fun inv hinv =>
    ⟨inv, hinv, rfl, rfl, hstock.nonneg inv hinv, by simp [initial, Db.deltas]⟩⟩

/-- **The tables agree in every run**, and the handlers know what they rely on. -/
theorem reachable_sound (hE : OnePerOrder events) (hstock : OneRowPerProduct fold stock)
    (h : Run (service idempotencyEnabled fold) (delivers events) (initial stock) c) :
    Sound fold events stock c.store.db ∧ ∀ t, (c.procs t).knows fold events c.store.db := by
  refine Run.invariant (I := fun s => Sound fold events stock s.db)
    (J := fun _ s p => p.knows fold events s.db)
    (K := fun c => Run (service idempotencyEnabled fold) (delivers events) (initial stock) c)
    (fun _ h => h) ⟨sound_initial hstock, fun _ => trivial⟩ ?_ ?_ h
  · intro c t a s' p' hrun hok hs hk hnext
    obtain ⟨hex, hheld⟩ := reachable_locks hrun
    exact ⟨hs.step hE hstock (next_change hex (hheld t) (hk t) hnext),
      next_knows (hs.ids hstock) hok (hk t) hnext⟩
  · intro c t a s' p' u hrun hok hs hk hnext hut
    obtain ⟨hex, hheld⟩ := reachable_locks hrun
    exact Proc.knows_other (next_change hex (hheld t) (hk t) hnext) (hs.ids hstock) hut (hheld u)
      (hk u)

/-- What a step of a reachable state does to the tables. -/
lemma reachable_change (hE : OnePerOrder events) (hstock : OneRowPerProduct fold stock)
    (h : Run (service idempotencyEnabled fold) (delivers events) (initial stock) c)
    (hnext : next idempotencyEnabled fold t c.store (c.procs t) a = some (s', p')) :
    Change fold events t c.store s'.db :=
  next_change (reachable_locks h).1 ((reachable_locks h).2 t)
    ((reachable_sound hE hstock h).2 t) hnext

/-- A result that was committed stays in the outbox. -/
lemma Change.result (h : Change fold events t s db) {ev : StockEvent}
    (hev : ev ∈ s.db.outbox.map (·.payload)) : ev ∈ db.outbox.map (·.payload) := by
  cases h with
  | same => exact hev
  | commit uuid hevent hnew hprepared hmine =>
      rw [Db.commit, List.map_append]
      exact List.mem_append_left _ hev
  | markSent eventId =>
      obtain ⟨r, hr, rfl⟩ := List.mem_map.mp hev
      refine List.mem_map.mpr ⟨_, List.mem_map_of_mem hr, ?_⟩
      split_ifs <;> rfl

end OrderSystem.Stock
