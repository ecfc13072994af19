/-
The backlog of order-service as `DeliveryObligations.backlog` reads it, the snapshot of it that
`DeliveryBacklogMonitor` keeps, and the signal the controller answers with.

* `Db.backlog`: the unresolved obligations by seller, with the oldest of them, how many there are,
  and how many are past the delivery target.
* `mem_backlog`: the entry of a seller sums up exactly his unresolved obligations.
* `BacklogMonitor.refreshNext`: the statements of the scheduled refresh. The time of a snapshot is
  read before the tables are. While the monitor is paused the last snapshot stays, with its time.
* `BacklogMonitor.observe`: the signal.
-/
import OrderSystem.Delivery.Database
import OrderSystem.Foundations.Dict

namespace OrderSystem.Delivery

/-! ### The query -/

/-- `SellerBacklog`. -/
structure SellerBacklog where
  oldestCreatedAt : ℤ
  unresolved : ℕ
  overdue : ℕ
  deriving DecidableEq, Repr

/-- `MIN(created_at)`, `COUNT(*)` and `SUM(created_at < ?)` of a group. -/
def SellerBacklog.of (cutoff : ℤ) (rows : List Obligation) : SellerBacklog where
  oldestCreatedAt := (rows.map (·.createdAt)).min?.getD 0
  unresolved := rows.length
  overdue := rows.countP fun o => o.createdAt < cutoff

/-- The seller of an obligation. -/
def Obligation.sellerId (o : Obligation) : String :=
  o.order.sellerId

/-- The rows `WHERE resolved_at IS NULL`. -/
def Db.unresolved (db : Db) : List Obligation :=
  db.obligations.filter fun o => o.resolvedAt = none

/-- `backlog(now, targetMs)`. -/
def Db.backlog (now targetMs : ℤ) (db : Db) : List (String × SellerBacklog) :=
  (db.unresolved.foldl (fun q o => KeyedQueues.add Obligation.sellerId o q) []).map
    fun g => (g.1, .of (javaLong (now - targetMs)) g.2)

/-- The unresolved obligations of a seller. -/
def Db.unresolvedOf (db : Db) (sellerId : String) : List Obligation :=
  db.unresolved.filter fun o => o.sellerId = sellerId

variable {db : Db} {now targetMs : ℤ}

/-- **The entry of a seller** sums up his unresolved obligations; a seller without any has none. -/
lemma mem_backlog {x : String × SellerBacklog} :
    x ∈ db.backlog now targetMs ↔ db.unresolvedOf x.1 ≠ [] ∧
      x.2 = .of (javaLong (now - targetMs)) (db.unresolvedOf x.1) := by
  set groups := db.unresolved.foldl (fun q o => KeyedQueues.add Obligation.sellerId o q) []
    with hgroups
  have hwf : KeyedQueues.Wf Obligation.sellerId groups := KeyedQueues.wf_foldl_add db.unresolved
  have hqueue : ∀ seller, KeyedQueues.queue seller groups = db.unresolvedOf seller :=
    fun seller => KeyedQueues.queue_foldl_add db.unresolved seller
  have hgroup : ∀ g ∈ groups, g.2 = db.unresolvedOf g.1 := by
    intro g hg
    rw [← hqueue]
    exact (KeyedQueues.queue_of_mem hwf.keys hg).symm
  rw [Db.backlog, List.mem_map]
  constructor
  · rintro ⟨g, hg, rfl⟩
    have hrows := hgroup g hg
    exact ⟨hrows ▸ hwf.nonempty g hg, by rw [← hrows]⟩
  · rintro ⟨hne, hx⟩
    have hmem : (x.1, KeyedQueues.queue x.1 groups) ∈ groups :=
      KeyedQueues.mem_of_queue (by rwa [hqueue])
    refine ⟨_, hmem, ?_⟩
    rw [hqueue, ← hx]

lemma oldest_le {cutoff : ℤ} {rows : List Obligation} {o : Obligation} (ho : o ∈ rows) :
    (SellerBacklog.of cutoff rows).oldestCreatedAt ≤ o.createdAt := by
  have hmem : o.createdAt ∈ rows.map (·.createdAt) := List.mem_map_of_mem ho
  rw [SellerBacklog.of]
  cases hmin : (rows.map (·.createdAt)).min? with
  | none =>
      rw [List.min?_eq_none_iff] at hmin
      rw [hmin] at hmem
      cases hmem
  | some least => exact (List.min?_eq_some_iff.mp hmin).2 _ hmem

/-- Some of the unresolved obligations of a seller are counted among all of them. -/
lemma counted_of_sublist {cutoff : ℤ} {rows rows' : List Obligation} (h : rows.Sublist rows') :
    (∀ o ∈ rows, (SellerBacklog.of cutoff rows').oldestCreatedAt ≤ o.createdAt) ∧
      rows.length ≤ (SellerBacklog.of cutoff rows').unresolved ∧
      (rows.countP fun o => o.createdAt < cutoff) ≤ (SellerBacklog.of cutoff rows').overdue :=
  ⟨fun _ ho => oldest_le (h.subset ho), h.length_le, h.countP_le⟩

/-! ### The monitor -/

/-- `DeliveryBacklogMonitor`: the snapshot it last took, and until when it is paused. -/
structure BacklogMonitor where
  takenAt : ℤ := 0
  sellers : List (String × SellerBacklog) := []
  pausedUntil : ℤ := 0
  deriving DecidableEq, Repr

/-- The next statement of `refresh()`, with the time it read first. -/
inductive RefreshPc where
  | start
  | query (now : ℤ)
  | publish (now : ℤ) (sellers : List (String × SellerBacklog))
  deriving DecidableEq, Repr

/-- The time a refresh works with. -/
def RefreshPc.time : RefreshPc → Option ℤ
  | .start => none
  | .query now | .publish now _ => some now

namespace BacklogMonitor

/-- `pause(durationMs)`. -/
def pause (m : BacklogMonitor) (now durationMs : ℤ) : BacklogMonitor :=
  { m with pausedUntil := javaLong (now + durationMs) }

/-- The statement `pc` of `refresh()`. -/
def refreshNext (m : BacklogMonitor) (clock targetMs : ℤ) (db : Db) :
    RefreshPc → BacklogMonitor × RefreshPc
  | .start => if clock < m.pausedUntil then (m, .start) else (m, .query clock)
  | .query now => (m, .publish now (db.backlog now targetMs))
  | .publish now sellers => ({ m with takenAt := now, sellers := sellers }, .start)

end BacklogMonitor

/-! ### The signal -/

/-- The entry of a seller in the answer of `observe()`. -/
structure SellerSignal where
  oldestAgeMs : ℤ
  unresolved : ℕ
  overdue : ℕ
  deriving DecidableEq, Repr

/-- The answer of `observe()`. -/
structure Signal where
  time : ℤ
  snapshotAt : ℤ
  targetMs : ℤ
  sellers : List (String × SellerSignal)
  deriving DecidableEq, Repr

/-- `DeliveryExperimentController.observe()`. -/
def BacklogMonitor.observe (m : BacklogMonitor) (clock targetMs : ℤ) : Signal where
  time := clock
  snapshotAt := m.takenAt
  targetMs := targetMs
  sellers := m.sellers.map fun x =>
    (x.1, ⟨javaLong (m.takenAt - x.2.oldestCreatedAt), x.2.unresolved, x.2.overdue⟩)

end OrderSystem.Delivery
