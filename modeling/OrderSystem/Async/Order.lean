/-
The asynchronous queue keeps the order of the records and loses none.

* `KeepsOrder`: what the queue promises, in terms of the trace.
* `Older`: tasks of one order, by the time they were added. A task goes from the queue
  through the snapshot of a pass to the executor; of one order, what is further on is older
  (`Inv`).
* `Inv.step`: a step keeps the invariant; one lemma for each effect.
* `async_queue_keeps_order`: the promises hold in every run.
-/
import OrderSystem.Async.Effects
import OrderSystem.Foundations.Trace

namespace OrderSystem.Async

open Interleaving Trace
open Partner (PartnerTask)

variable {cfg : Settings} {t u : ℕ} {p p' q : Proc} {x y : AsyncTask}

/-! ### The promises -/

/-- The line revokes the partition. -/
def Line.revokes (partition : ℕ) : Line → Prop
  | .revoked partitions => partition ∈ partitions
  | _ => False

/-- The partition of the task was revoked since the task was added. -/
def RevokedSince (trace : List Line) (x : AsyncTask) : Prop :=
  Since trace (.added x) (Line.revokes x.partition)

/-- The task `x` was added before the task `y`. -/
def AddedBefore (trace : List Line) (x y : AsyncTask) : Prop :=
  Since trace (.added x) (· = .added y)

/-- When a run of `y` succeeds, every task of the order that was added before has succeeded
or lost its partition, and none that was added later has succeeded. -/
def SucceedsInOrder (before : List Line) (line : Line) : Prop :=
  ∀ x y, line = .succeeded y → x.key = y.key →
    (AddedBefore before x y → .succeeded x ∈ before ∨ RevokedSince before x) ∧
      (AddedBefore before y x → .succeeded x ∉ before)

/-- The queued tasks of the order of `x` hold `x`. -/
def AsyncPendingQueue.holds (q : AsyncPendingQueue) (x : AsyncTask) : Prop :=
  x ∈ q.queue x.key

/-- What the queue promises. -/
structure KeepsOrder (s : Store) : Prop where
  /-- The first successful runs of an order happen in the order of arrival. -/
  order : Always SucceedsInOrder s.trace
  /-- A task stays queued until a run of it succeeded or its partition was revoked. -/
  stays : ∀ x, .added x ∈ s.trace →
    s.queue.holds x ∨ .succeeded x ∈ s.trace ∨ RevokedSince s.trace x
  /-- What was acknowledged is delivered. -/
  delivered : ∀ x, .acknowledged x ∈ s.trace → s.partner.db.isDelivered x.event.eventId
  /-- `revoke` removes the tasks of its partitions, and the others keep their places. -/
  revoked : ∀ partitions key, (s.queue.revoke partitions).queue key =
    (s.queue.queue key).filter fun x => x.partition ∉ partitions
  /-- `completed` removes no other task than its own. -/
  completed : ∀ x key, (s.queue.completed x).queue key = s.queue.queue key ∨
    s.queue.queue key = x :: (s.queue.completed x).queue key
  /-- No empty queue stays in the map. -/
  nonempty : ∀ e ∈ s.queue.pending, e.2 ≠ []

/-! ### The invariant -/

/-- Of one order, the tasks in `A` were added before those in `B`, or are the same. -/
def Older (A B : AsyncTask → Prop) : Prop :=
  ∀ x y, A x → B y → x.key = y.key → x.id ≤ y.id

lemma Older.mono {A A' B B' : AsyncTask → Prop} (h : Older A B) (hA : ∀ x, A' x → A x)
    (hB : ∀ x, B' x → B x) : Older A' B' :=
  fun x y hx hy => h x y (hA x hx) (hB y hy)

namespace Tasks

/-- The admitted tasks. -/
def running (s : Tasks) : List AsyncTask := s.active.map Prod.fst

/-- A run of the task succeeded. -/
def done (s : Tasks) (x : AsyncTask) : Prop := .succeeded x ∈ s.trace

/-- The task is queued. -/
def queued (s : Tasks) (x : AsyncTask) : Prop := s.queue.holds x

/-- The history of the queue. -/
structure History (s : Tasks) : Prop where
  fresh : ∀ x, .added x ∈ s.trace → x.id < s.nextTask
  ids : ∀ x y, AddedBefore s.trace x y → x.id < y.id
  done : ∀ x, s.done x → .added x ∈ s.trace
  epochs : ∀ x, .added x ∈ s.trace → x.epoch ≤ s.queue.generations x.partition ∧
    (RevokedSince s.trace x ↔ x.epoch < s.queue.generations x.partition)
  kept : ∀ x, .added x ∈ s.trace → s.queued x ∨ s.done x ∨ RevokedSince s.trace x
  order : Always SucceedsInOrder s.trace

/-- Where the tasks are. -/
structure Stages (s : Tasks) : Prop where
  wf : KeyedQueues.Wf AsyncTask.key s.queue.pending
  arrival : ∀ key, (s.queue.queue key).Pairwise fun x y => x.id < y.id
  known : ∀ x, s.queued x ∨ x ∈ s.pass ∨ x ∈ s.running → .added x ∈ s.trace
  keys : (s.running.map AsyncTask.key).Nodup
  held : ∀ x ∈ s.running, x.key ∈ s.keys
  heads : (s.pass.map AsyncTask.key).Nodup
  runningPass : Older (· ∈ s.running) (· ∈ s.pass)
  runningQueued : Older (· ∈ s.running) s.queued
  passQueued : Older (· ∈ s.pass) s.queued
  doneRunning : Older s.done (· ∈ s.running)
  donePass : Older s.done (· ∈ s.pass)
  doneQueued : Older s.done s.queued
  first : ∀ y, y ∈ s.pass ∨ y ∈ s.running → ∀ x, .added x ∈ s.trace → x.key = y.key →
    x.id < y.id → s.done x ∨ RevokedSince s.trace x

/-- The invariant. -/
structure Inv (s : Tasks) : Prop where
  history : s.History
  stages : s.Stages

end Tasks

/-- What a worker knows: its task is active, and once it has left the queue it is not
queued any more. -/
def Proc.holds (t : ℕ) (s : Tasks) : Proc → Prop
  | .service _ => True
  | .running x pc => (x, .thread t) ∈ s.active ∧
      (pc = .releasing true → ¬ s.queued x ∧ s.done x)

/-! ### Operations of the queue -/

namespace AsyncPendingQueue

variable {queue : AsyncPendingQueue}

lemma queue_add (h : KeyedQueues.Wf AsyncTask.key queue.pending) (key : String) :
    (queue.add x).queue key =
      if key = x.key then queue.queue key ++ [x] else queue.queue key :=
  KeyedQueues.queue_add h x key

lemma holds_add (h : KeyedQueues.Wf AsyncTask.key queue.pending) :
    (queue.add x).holds y ↔ queue.holds y ∨ y = x := by
  rw [holds, queue_add h]
  split_ifs with hkey
  · rw [List.mem_append, List.mem_singleton]
    rfl
  · exact ⟨Or.inl, fun h => h.resolve_right fun hyx => hkey (by rw [hyx])⟩

lemma queue_completed (h : KeyedQueues.Wf AsyncTask.key queue.pending) (key : String) :
    (queue.completed x).queue key =
      if key = x.key ∧ (queue.queue key).head? = some x then (queue.queue key).tail
      else queue.queue key :=
  KeyedQueues.queue_removeHead h x key

/-- `completed` removes its own task, when it is the first. -/
lemma queue_completed_cases (h : KeyedQueues.Wf AsyncTask.key queue.pending) (key : String) :
    (queue.completed x).queue key = queue.queue key ∨
      queue.queue key = x :: (queue.completed x).queue key := by
  rw [queue_completed h]
  split_ifs with hhead
  · exact Or.inr (List.eq_cons_of_mem_head? hhead.2)
  · exact Or.inl rfl

lemma queue_completed_sublist (h : KeyedQueues.Wf AsyncTask.key queue.pending) (key : String) :
    ((queue.completed x).queue key).Sublist (queue.queue key) := by
  rcases queue_completed_cases (x := x) h key with heq | heq
  · rw [heq]
  · rw [heq]
    exact List.sublist_cons_self _ _

lemma holds_completed (h : KeyedQueues.Wf AsyncTask.key queue.pending)
    (hy : (queue.completed x).holds y) : queue.holds y :=
  (queue_completed_sublist h y.key).subset hy

lemma queue_revoke (h : KeyedQueues.Wf AsyncTask.key queue.pending) (partitions : List ℕ)
    (key : String) : (queue.revoke partitions).queue key =
      (queue.queue key).filter fun x => x.partition ∉ partitions := by
  have hqueue : (queue.revoke partitions).queue key =
      (queue.queue key).filter fun x => !decide (x.partition ∈ partitions) :=
    KeyedQueues.queue_removeIf h _ key
  simpa only [decide_not] using hqueue

lemma holds_revoke (h : KeyedQueues.Wf AsyncTask.key queue.pending) {partitions : List ℕ} :
    (queue.revoke partitions).holds y ↔ queue.holds y ∧ y.partition ∉ partitions := by
  rw [holds, queue_revoke h, List.mem_filter, decide_eq_true_eq]
  rfl

end AsyncPendingQueue

variable {s s' : Tasks}

namespace Tasks

lemma mem_running {place : Place} (h : (x, place) ∈ s.active) : x ∈ s.running :=
  List.mem_map_of_mem h

/-- Two active tasks of one order are one. -/
lemma Stages.active_eq (h : s.Stages) {e f : AsyncTask × Place} (he : e ∈ s.active)
    (hf : f ∈ s.active) (hkey : e.1.key = f.1.key) : e = f := by
  have hkeys := h.keys
  rw [running, List.map_map] at hkeys
  exact List.inj_on_of_nodup_map hkeys he hf hkey

lemma Stages.running_eq (h : s.Stages) (hx : x ∈ s.running) (hy : y ∈ s.running)
    (hkey : x.key = y.key) : x = y :=
  List.inj_on_of_nodup_map h.keys hx hy hkey

/-- The first task of an order is the oldest. -/
lemma Stages.head_le (h : s.Stages) {key : String} (hx : (s.queue.queue key).head? = some x)
    (hy : y ∈ s.queue.queue key) : x = y ∨ x.id < y.id := by
  have hsorted := h.arrival key
  cases hq : s.queue.queue key with
  | nil =>
      rw [hq] at hx
      cases hx
  | cons z rest =>
      rw [hq] at hx hy hsorted
      obtain rfl : z = x := Option.some.inj hx
      rcases List.mem_cons.mp hy with rfl | hy
      · exact Or.inl rfl
      · exact Or.inr ((List.pairwise_cons.mp hsorted).1 y hy)

/-- A queued task that is at least as old as the queued tasks of its order is the first. -/
lemma Stages.head_of_le (h : s.Stages) (hx : s.queued x)
    (hle : ∀ y, s.queued y → x.key = y.key → x.id ≤ y.id) :
    (s.queue.queue x.key).head? = some x := by
  have hx' : x ∈ s.queue.queue x.key := hx
  cases hhead : (s.queue.queue x.key).head? with
  | none =>
      rw [List.head?_eq_none_iff] at hhead
      rw [hhead] at hx'
      cases hx'
  | some z =>
      have hz : z ∈ s.queue.queue x.key := List.mem_of_mem_head? hhead
      have hkey : z.key = x.key := h.wf.key_eq hz
      have hzq : s.queued z := by
        rw [queued, AsyncPendingQueue.holds, hkey]
        exact hz
      rcases h.head_le hhead hx' with rfl | hlt
      · rfl
      · exact absurd (hle z hzq hkey.symm) (not_le.mpr hlt)

/-! ### Lines that change nothing -/

end Tasks

/-- A line about an admission or the end of a run. -/
def Line.passing : Line → Prop
  | .admitted _ _ | .executed _ | .acknowledged _ | .ended _ => True
  | _ => False

section Passing

variable {l : List Line} {line : Line}

lemma mem_added_concat (h : line.passing) : .added x ∈ l ++ [line] ↔ Line.added x ∈ l := by
  cases line <;> simp_all [Line.passing]

lemma mem_succeeded_concat (h : line.passing) :
    .succeeded x ∈ l ++ [line] ↔ Line.succeeded x ∈ l := by
  cases line <;> simp_all [Line.passing]

lemma revokedSince_concat (h : line.passing) :
    RevokedSince (l ++ [line]) x ↔ RevokedSince l x := by
  rw [RevokedSince, since_concat]
  cases line <;> simp_all [Line.passing, Line.revokes, RevokedSince]

lemma addedBefore_concat (h : line.passing) :
    AddedBefore (l ++ [line]) x y ↔ AddedBefore l x y := by
  rw [AddedBefore, since_concat]
  cases line <;> simp_all [Line.passing, AddedBefore]

end Passing

namespace Tasks

lemma Inv.log (hi : s.Inv) {line : Line} (h : line.passing) : (s.log [line]).Inv := by
  obtain ⟨hh, hs⟩ := hi
  have hadded : ∀ {x}, .added x ∈ (s.log [line]).trace ↔ Line.added x ∈ s.trace :=
    mem_added_concat h
  have hdone : ∀ {x}, (s.log [line]).done x ↔ s.done x := mem_succeeded_concat h
  have hrev : ∀ {x}, RevokedSince (s.log [line]).trace x ↔ RevokedSince s.trace x :=
    revokedSince_concat h
  constructor
  · refine ⟨fun x hx => hh.fresh x (hadded.mp hx),
      fun x y hxy => hh.ids x y ((addedBefore_concat h).mp hxy),
      fun x hx => hadded.mpr (hh.done x (hdone.mp hx)), fun x hx => ?_, fun x hx => ?_, ?_⟩
    · rw [hrev]
      exact hh.epochs x (hadded.mp hx)
    · rw [hrev, hdone]
      exact hh.kept x (hadded.mp hx)
    · refine always_concat.mpr ⟨hh.order, fun x y hy => ?_⟩
      rw [hy] at h
      exact h.elim
  · exact ⟨hs.wf, hs.arrival, fun x hx => hadded.mpr (hs.known x hx), hs.keys, hs.held, hs.heads,
      hs.runningPass, hs.runningQueued, hs.passQueued,
      hs.doneRunning.mono (fun _ => hdone.mp) fun _ => id,
      hs.donePass.mono (fun _ => hdone.mp) fun _ => id,
      hs.doneQueued.mono (fun _ => hdone.mp) fun _ => id,
      fun y hy x hx hkey hlt => by
        rw [hdone, hrev]
        exact hs.first y hy x (hadded.mp hx) hkey hlt⟩

/-! ### Steps of the dispatcher -/

lemma Inv.dispatch (hi : s.Inv) : ({ s with pass := s.queue.heads } : Tasks).Inv := by
  obtain ⟨hh, hs⟩ := hi
  have hhead : ∀ x ∈ s.queue.heads, (s.queue.queue x.key).head? = some x :=
    fun x hx => (KeyedQueues.mem_heads hs.wf).mp hx
  have hqueued : ∀ x ∈ s.queue.heads, s.queued x := fun x hx => List.mem_of_mem_head? (hhead x hx)
  refine ⟨⟨hh.fresh, hh.ids, hh.done, hh.epochs, hh.kept, hh.order⟩, hs.wf, hs.arrival,
    fun x hx => ?_, hs.keys, hs.held, KeyedQueues.nodup_heads hs.wf,
    hs.runningQueued.mono (fun _ => id) hqueued, hs.runningQueued, fun x y hx hy hkey => ?_,
    hs.doneRunning, hs.doneQueued.mono (fun _ => id) hqueued, hs.doneQueued,
    fun y hy x hx hkey hlt => ?_⟩
  · rcases hx with hx | hx | hx
    · exact hs.known x (Or.inl hx)
    · exact hs.known x (Or.inl (hqueued x hx))
    · exact hs.known x (Or.inr (Or.inr hx))
  · have hy' : y ∈ s.queue.queue x.key := hkey ▸ hy
    rcases hs.head_le (hhead x hx) hy' with rfl | hlt
    · exact le_rfl
    · exact hlt.le
  · rcases hy with hy | hy
    · -- the task stands first, so the older ones are not queued any more
      rcases hh.kept x hx with hxq | hrest
      · have hx' : x ∈ s.queue.queue y.key := hkey ▸ hxq
        rcases hs.head_le (hhead y hy) hx' with rfl | hlt'
        · exact absurd hlt (lt_irrefl _)
        · omega
      · exact hrest
    · exact hs.first y (Or.inr hy) x hx hkey hlt

lemma Inv.reject (hi : s.Inv) {rest : List AsyncTask} (hpass : s.pass = x :: rest) :
    ({ s with pass := rest } : Tasks).Inv := by
  obtain ⟨hh, hs⟩ := hi
  have hsub : ∀ y ∈ rest, y ∈ s.pass := fun y hy => by
    rw [hpass]
    exact List.mem_cons_of_mem x hy
  have hheads := hs.heads
  rw [hpass, List.map_cons, List.nodup_cons] at hheads
  exact ⟨⟨hh.fresh, hh.ids, hh.done, hh.epochs, hh.kept, hh.order⟩, hs.wf, hs.arrival,
    fun y hy => hs.known y (hy.imp_right (Or.imp_left (hsub y))), hs.keys, hs.held, hheads.2,
    hs.runningPass.mono (fun _ => id) hsub, hs.runningQueued,
    hs.passQueued.mono hsub fun _ => id, hs.doneRunning, hs.donePass.mono (fun _ => id) hsub,
    hs.doneQueued, fun y hy => hs.first y (hy.imp_left (hsub y))⟩

/-- A task of the snapshot becomes active when no task of its order is. -/
lemma Inv.tryAdmit (hi : s.Inv) {rest : List AsyncTask} (hpass : s.pass = x :: rest)
    (hkey : x.key ∉ s.keys) :
    ({ s with pass := rest, active := s.active ++ [(x, Place.submitting)]
              keys := x.key :: s.keys } : Tasks).Inv := by
  have hs := hi.stages
  have hx : x ∈ s.pass := by
    rw [hpass]
    exact List.mem_cons_self
  obtain ⟨hh, hr⟩ := hi.reject hpass
  have hheads := hs.heads
  rw [hpass, List.map_cons, List.nodup_cons] at hheads
  have hrun : (s.active ++ [(x, Place.submitting)]).map Prod.fst = s.running ++ [x] := by
    rw [List.map_append]
    rfl
  have hsplit : ∀ {y}, y ∈ (s.active ++ [(x, Place.submitting)]).map Prod.fst →
      y ∈ s.running ∨ y = x := by
    intro y hy
    rw [hrun, List.mem_append, List.mem_singleton] at hy
    exact hy
  refine ⟨⟨hh.fresh, hh.ids, hh.done, hh.epochs, hh.kept, hh.order⟩, hr.wf, hr.arrival,
    fun y hy => ?_, ?_, fun y hy => ?_, hr.heads, fun y z hy hz hyz => ?_, fun y z hy hz hyz => ?_,
    hr.passQueued, fun y z hy hz hyz => ?_, hr.donePass, hr.doneQueued,
    fun y hy z hz hzy hlt => ?_⟩
  · rcases hy with hy | hy | hy
    · exact hr.known y (Or.inl hy)
    · exact hr.known y (Or.inr (Or.inl hy))
    · rcases hsplit hy with hy | rfl
      · exact hr.known y (Or.inr (Or.inr hy))
      · exact hs.known y (Or.inr (Or.inl hx))
  · rw [running, hrun, List.map_append]
    refine List.Nodup.append hs.keys (by simp) fun k hk hk' => ?_
    obtain ⟨y, hy, rfl⟩ := List.mem_map.mp hk
    have hyx : y.key = x.key := by simpa using hk'
    exact hkey (hyx ▸ hs.held y hy)
  · rcases hsplit hy with hy | rfl
    · exact List.mem_cons_of_mem _ (hs.held y hy)
    · exact List.mem_cons_self
  · rcases hsplit hy with hy | rfl
    · exact hr.runningPass y z hy hz hyz
    · exact absurd (List.mem_map.mpr ⟨z, hz, hyz.symm⟩) hheads.1
  · rcases hsplit hy with hy | rfl
    · exact hr.runningQueued y z hy hz hyz
    · exact hs.passQueued y z hx hz hyz
  · rcases hsplit hz with hz | rfl
    · exact hr.doneRunning y z hy hz hyz
    · exact hs.donePass y z hy hx hyz
  · rcases hy with hy | hy
    · exact hr.first y (Or.inl hy) z hz hzy hlt
    · rcases hsplit hy with hy | rfl
      · exact hr.first y (Or.inr hy) z hz hzy hlt
      · exact hs.first y (Or.inl hx) z hz hzy hlt

/-! ### Steps of the executor and of the workers -/

lemma running_move (s : Tasks) (x : AsyncTask) (src dst : Place) :
    (s.move x src dst).running = s.running := by
  rw [running, Tasks.move, List.map_map]
  refine List.map_congr_left fun e _ => ?_
  rw [Function.comp_apply]
  split_ifs with he
  · rw [he]
  · rfl

/-- Where an active task is makes no difference. -/
lemma Inv.move (hi : s.Inv) (src dst : Place) : (s.move x src dst).Inv := by
  obtain ⟨hh, hs⟩ := hi
  have hrun := s.running_move x src dst
  refine ⟨⟨hh.fresh, hh.ids, hh.done, hh.epochs, hh.kept, hh.order⟩, hs.wf, hs.arrival, ?_, ?_, ?_,
    hs.heads, ?_, ?_, hs.passQueued, ?_, hs.donePass, hs.doneQueued, ?_⟩
  all_goals rw [hrun]
  · exact hs.known
  · exact hs.keys
  · exact hs.held
  · exact hs.runningPass
  · exact hs.runningQueued
  · exact hs.doneRunning
  · exact hs.first

lemma running_release (s : Tasks) (x : AsyncTask) (place : Place) :
    (s.release x place).running.Sublist s.running :=
  (List.filter_sublist).map Prod.fst

/-- A released task frees the key of its order and no other. -/
lemma Inv.release (hi : s.Inv) {place : Place} (hmem : (x, place) ∈ s.active) :
    (s.release x place).Inv := by
  obtain ⟨hh, hs⟩ := hi
  have hrun := s.running_release x place
  have hsub : ∀ y ∈ (s.release x place).running, y ∈ s.running := fun y hy => hrun.subset hy
  refine ⟨⟨hh.fresh, hh.ids, hh.done, hh.epochs, hh.kept, hh.order⟩, hs.wf, hs.arrival,
    fun y hy => hs.known y (hy.imp_right (Or.imp_right (hsub y))), hs.keys.sublist (hrun.map _),
    fun y hy => ?_, hs.heads, hs.runningPass.mono hsub fun _ => id,
    hs.runningQueued.mono hsub fun _ => id, hs.passQueued, hs.doneRunning.mono (fun _ => id) hsub,
    hs.donePass, hs.doneQueued, fun y hy => hs.first y (hy.imp_right (hsub y))⟩
  refine List.mem_filter.mpr ⟨hs.held y (hsub y hy), ?_⟩
  obtain ⟨e, he, rfl⟩ := List.mem_map.mp hy
  obtain ⟨hein, hne⟩ := List.mem_filter.mp he
  rw [decide_eq_true_eq]
  intro hkey
  have hsame := hs.active_eq hein hmem hkey
  simp [hsame] at hne

/-- A task whose run succeeds leaves the queue, if it is still there. -/
lemma Inv.complete (hi : s.Inv) (hx : x ∈ s.running) :
    ({ s with queue := s.queue.completed x }.log [.succeeded x] : Tasks).Inv ∧
      ¬ (s.queue.completed x).holds x := by
  obtain ⟨hh, hs⟩ := hi
  have hqueue := AsyncPendingQueue.queue_completed (x := x) hs.wf
  have hqueued : ∀ y, (s.queue.completed x).holds y → s.queued y := fun y =>
    AsyncPendingQueue.holds_completed hs.wf
  -- a queued task that is active stands first
  have hhead : s.queued x → (s.queue.queue x.key).head? = some x := fun hxq =>
    hs.head_of_le hxq fun y hy hkey => hs.runningQueued x y hx hy hkey
  have hgone : ¬ (s.queue.completed x).holds x := by
    intro hxq
    have hfirst := hhead (hqueued x hxq)
    rw [AsyncPendingQueue.holds, hqueue, if_pos ⟨rfl, hfirst⟩] at hxq
    have hsorted := hs.arrival x.key
    cases hq : s.queue.queue x.key with
    | nil =>
        rw [hq] at hxq
        cases hxq
    | cons z rest =>
        rw [hq] at hfirst hxq hsorted
        obtain rfl : z = x := Option.some.inj hfirst
        exact absurd ((List.pairwise_cons.mp hsorted).1 z hxq) (lt_irrefl _)
  have hkeeps : ∀ y, s.queued y → (s.queue.completed x).holds y ∨ y = x := by
    intro y hy
    by_cases hyx : y = x
    · exact Or.inr hyx
    · refine Or.inl ?_
      have hy' : y ∈ s.queue.queue y.key := hy
      rw [AsyncPendingQueue.holds, hqueue]
      split_ifs with hfirst
      · cases hq : s.queue.queue y.key with
        | nil =>
            rw [hq] at hy'
            cases hy'
        | cons z rest =>
            rw [hq] at hfirst hy'
            obtain rfl : z = x := Option.some.inj hfirst.2
            exact (List.mem_cons.mp hy').resolve_left hyx
      · exact hy'
  have hadded : ∀ {y}, .added y ∈ s.trace ++ [Line.succeeded x] ↔ Line.added y ∈ s.trace := by
    simp
  have hdone : ∀ {y}, .succeeded y ∈ s.trace ++ [Line.succeeded x] ↔ s.done y ∨ y = x := by
    simp [done]
  have hrev : ∀ {y}, RevokedSince (s.trace ++ [.succeeded x]) y ↔ RevokedSince s.trace y := by
    simp [RevokedSince, since_concat, Line.revokes]
  have hbefore : ∀ {y z}, AddedBefore (s.trace ++ [.succeeded x]) y z ↔
      AddedBefore s.trace y z := by
    simp [AddedBefore, since_concat]
  have hknown := hs.known x (Or.inr (Or.inr hx))
  have holder : ∀ {B : AsyncTask → Prop}, Older s.done B → (∀ y, B y → x.key = y.key →
      x.id ≤ y.id) → Older (fun y => .succeeded y ∈ s.trace ++ [Line.succeeded x]) B := by
    intro B hB hxB y z hy hz hyz
    rcases hdone.mp hy with hy | rfl
    · exact hB y z hy hz hyz
    · exact hxB z hz hyz
  refine ⟨⟨⟨fun y hy => hh.fresh y (hadded.mp hy), fun y z h => hh.ids y z (hbefore.mp h),
    fun y hy => ?_, fun y hy => ?_, fun y hy => ?_, always_concat.mpr ⟨hh.order, ?_⟩⟩,
    hs.wf.removeHead x,
    fun key => (hs.arrival key).sublist (AsyncPendingQueue.queue_completed_sublist hs.wf key),
    fun y hy => ?_, hs.keys,
    hs.held, hs.heads, hs.runningPass, hs.runningQueued.mono (fun _ => id) hqueued,
    hs.passQueued.mono (fun _ => id) hqueued, holder hs.doneRunning ?_, holder hs.donePass ?_,
    (holder hs.doneQueued ?_).mono (fun _ => id) hqueued, fun y hy z hz hzy hlt => ?_⟩, hgone⟩
  · rcases hdone.mp hy with hy | rfl
    · exact hadded.mpr (hh.done y hy)
    · exact hadded.mpr hknown
  · change _ ∧ (RevokedSince (s.trace ++ [.succeeded x]) y ↔ _)
    rw [hrev]
    exact hh.epochs y (hadded.mp hy)
  · change _ ∨ .succeeded y ∈ s.trace ++ [Line.succeeded x] ∨
      RevokedSince (s.trace ++ [.succeeded x]) y
    rw [hrev, hdone]
    rcases hh.kept y (hadded.mp hy) with hyq | hyd | hyr
    · rcases hkeeps y hyq with hyq | hyx
      · exact Or.inl hyq
      · exact Or.inr (Or.inl (Or.inr hyx))
    · exact Or.inr (Or.inl (Or.inl hyd))
    · exact Or.inr (Or.inr hyr)
  · -- the run that succeeds now
    intro y z hz hkey
    cases hz
    constructor
    · intro hyx
      exact hs.first x (Or.inr hx) y hyx.mem hkey (hh.ids y x hyx)
    · intro hxy hyd
      exact absurd (hh.ids x y hxy) (not_lt.mpr (hs.doneRunning y x hyd hx hkey))
  · exact hadded.mpr (hs.known y (hy.imp_left (hqueued y)))
  · intro y hy hkey
    rw [hs.running_eq hx hy hkey]
  · exact fun y hy hkey => hs.runningPass x y hx hy hkey
  · exact fun y hy hkey => hs.runningQueued x y hx hy hkey
  · change .succeeded z ∈ s.trace ++ [Line.succeeded x] ∨
      RevokedSince (s.trace ++ [.succeeded x]) z
    rw [hrev, hdone]
    exact (hs.first y hy z (hadded.mp hz) hzy hlt).imp_left Or.inl

/-! ### Steps of the consumer -/

/-- A new task joins the end of its queue, with the present generation of its partition. -/
lemma Inv.add (hi : s.Inv) (task : PartnerTask) :
    ({ s with queue := s.queue.add (s.queue.stamp s.nextTask task)
              nextTask := s.nextTask + 1 }.log [.added (s.queue.stamp s.nextTask task)] :
        Tasks).Inv := by
  obtain ⟨hh, hs⟩ := hi
  generalize hz : s.queue.stamp s.nextTask task = z
  have hid : z.id = s.nextTask := by rw [← hz]; rfl
  have hepoch : z.epoch = s.queue.generations z.partition := by rw [← hz]; rfl
  have hqueued : ∀ {y}, (s.queue.add z).holds y ↔ s.queued y ∨ y = z :=
    AsyncPendingQueue.holds_add hs.wf
  have hadded : ∀ {y}, .added y ∈ s.trace ++ [Line.added z] ↔ .added y ∈ s.trace ∨ y = z := by
    simp
  have hdone : ∀ {y}, .succeeded y ∈ s.trace ++ [Line.added z] ↔ s.done y := by
    simp [done]
  have hrev : ∀ {y}, RevokedSince (s.trace ++ [.added z]) y ↔ RevokedSince s.trace y := by
    simp [RevokedSince, since_concat, Line.revokes]
  have hnew : Line.added z ∉ s.trace := fun h => absurd (hh.fresh z h) (by omega)
  have hlt : ∀ {y}, .added y ∈ s.trace → y.id < z.id := fun h => by
    rw [hid]
    exact hh.fresh _ h
  -- what was added before is older than the new task
  have holder : ∀ {A : AsyncTask → Prop}, Older A s.queued → (∀ y, A y → .added y ∈ s.trace) →
      Older A (s.queue.add z).holds := by
    intro A hA hAadded y w hy hw hyw
    rcases hqueued.mp hw with hw | rfl
    · exact hA y w hy hw hyw
    · exact (hlt (hAadded y hy)).le
  refine ⟨⟨fun y hy => ?_, fun y w h => ?_, fun y hy => ?_, fun y hy => ?_, fun y hy => ?_,
    always_concat.mpr ⟨hh.order, fun y w hw => by cases hw⟩⟩, hs.wf.add z, fun key => ?_,
    fun y hy => ?_, hs.keys, hs.held, hs.heads, hs.runningPass,
    holder hs.runningQueued fun y hy => hs.known y (Or.inr (Or.inr hy)),
    holder hs.passQueued fun y hy => hs.known y (Or.inr (Or.inl hy)),
    hs.doneRunning.mono (fun _ => hdone.mp) fun _ => id,
    hs.donePass.mono (fun _ => hdone.mp) fun _ => id,
    (holder hs.doneQueued hh.done).mono (fun _ => hdone.mp) fun _ => id,
    fun y hy w hw hwy hlt' => ?_⟩
  · rcases hadded.mp hy with hy | rfl
    · exact Nat.lt_succ_of_lt (hh.fresh y hy)
    · exact hid ▸ Nat.lt_succ_self _
  · rcases since_concat.mp h with h | ⟨hy, hw⟩
    · exact hh.ids y w h
    · cases hw
      exact hlt hy
  · exact hadded.mpr (Or.inl (hh.done y (hdone.mp hy)))
  · change _ ∧ (RevokedSince (s.trace ++ [.added z]) y ↔ _)
    rw [hrev]
    rcases hadded.mp hy with hy | rfl
    · exact hh.epochs y hy
    · refine ⟨hepoch.le, iff_of_false (fun h => hnew h.mem) ?_⟩
      exact fun hlt => absurd hepoch hlt.ne
  · change (s.queue.add z).holds y ∨ .succeeded y ∈ s.trace ++ [Line.added z] ∨
      RevokedSince (s.trace ++ [.added z]) y
    rw [hrev, hdone, hqueued]
    rcases hadded.mp hy with hy | rfl
    · exact (hh.kept y hy).imp_left Or.inl
    · exact Or.inl (Or.inr rfl)
  · change ((s.queue.add z).queue key).Pairwise _
    rw [AsyncPendingQueue.queue_add hs.wf]
    split_ifs with hkey
    · refine List.pairwise_append.mpr ⟨hs.arrival key, List.pairwise_singleton _ _, ?_⟩
      intro y hy w hw
      obtain rfl := List.mem_singleton.mp hw
      refine hlt (hs.known y (Or.inl ?_))
      rw [queued, AsyncPendingQueue.holds, hs.wf.key_eq hy]
      exact hy
    · exact hs.arrival key
  · rcases hy with hy | hy
    · rcases hqueued.mp hy with hy | rfl
      · exact hadded.mpr (Or.inl (hs.known y (Or.inl hy)))
      · exact hadded.mpr (Or.inr rfl)
    · exact hadded.mpr (Or.inl (hs.known y (Or.inr hy)))
  · change .succeeded w ∈ s.trace ++ [Line.added z] ∨ RevokedSince (s.trace ++ [.added z]) w
    rw [hrev, hdone]
    rcases hadded.mp hw with hw | rfl
    · exact hs.first y hy w hw hwy hlt'
    · exact absurd (hlt (hs.known y (Or.inr hy))) (not_lt.mpr hlt'.le)

/-- Revoked partitions take their tasks along. -/
lemma Inv.revoke (hi : s.Inv) (partitions : List ℕ) :
    ({ s with queue := s.queue.revoke partitions }.log [.revoked partitions] : Tasks).Inv := by
  obtain ⟨hh, hs⟩ := hi
  have hqueued : ∀ {y}, (s.queue.revoke partitions).holds y ↔
      s.queued y ∧ y.partition ∉ partitions := AsyncPendingQueue.holds_revoke hs.wf
  have hsub : ∀ y, (s.queue.revoke partitions).holds y → s.queued y := fun y hy =>
    (hqueued.mp hy).1
  have hadded : ∀ {y}, .added y ∈ s.trace ++ [Line.revoked partitions] ↔ .added y ∈ s.trace := by
    simp
  have hdone : ∀ {y}, .succeeded y ∈ s.trace ++ [Line.revoked partitions] ↔ s.done y := by
    simp [done]
  have hrev : ∀ {y}, RevokedSince (s.trace ++ [.revoked partitions]) y ↔
      RevokedSince s.trace y ∨ (.added y ∈ s.trace ∧ y.partition ∈ partitions) := by
    intro y
    rw [RevokedSince, since_concat]
    rfl
  have hbefore : ∀ {y z}, AddedBefore (s.trace ++ [.revoked partitions]) y z ↔
      AddedBefore s.trace y z := by
    simp [AddedBefore, since_concat]
  refine ⟨⟨fun y hy => hh.fresh y (hadded.mp hy), fun y z h => hh.ids y z (hbefore.mp h),
    fun y hy => hadded.mpr (hh.done y (hdone.mp hy)), fun y hy => ?_, fun y hy => ?_,
    always_concat.mpr ⟨hh.order, fun y z hz => by cases hz⟩⟩, hs.wf.removeIf _, fun key => ?_,
    fun y hy => hadded.mpr (hs.known y (hy.imp_left (hsub y))), hs.keys, hs.held, hs.heads,
    hs.runningPass, hs.runningQueued.mono (fun _ => id) hsub,
    hs.passQueued.mono (fun _ => id) hsub,
    hs.doneRunning.mono (fun _ => hdone.mp) fun _ => id,
    hs.donePass.mono (fun _ => hdone.mp) fun _ => id,
    hs.doneQueued.mono (fun _ => hdone.mp) hsub, fun y hy z hz hzy hlt => ?_⟩
  · have hy := hadded.mp hy
    obtain ⟨hle, hiff⟩ := hh.epochs y hy
    change y.epoch ≤ s.queue.generations y.partition + partitions.count y.partition ∧
      (RevokedSince (s.trace ++ [.revoked partitions]) y ↔
        y.epoch < s.queue.generations y.partition + partitions.count y.partition)
    have hcount : y.partition ∈ partitions ↔ 0 < partitions.count y.partition :=
      List.count_pos_iff.symm
    rw [hrev, hiff, hcount]
    refine ⟨by omega, ?_⟩
    constructor
    · rintro (h | ⟨-, h⟩) <;> omega
    · intro h
      by_cases hlt : y.epoch < s.queue.generations y.partition
      · exact Or.inl hlt
      · exact Or.inr ⟨hy, by omega⟩
  · have hy := hadded.mp hy
    change (s.queue.revoke partitions).holds y ∨
      .succeeded y ∈ s.trace ++ [Line.revoked partitions] ∨
      RevokedSince (s.trace ++ [.revoked partitions]) y
    rw [hrev, hdone, hqueued]
    rcases hh.kept y hy with hyq | hyd | hyr
    · by_cases hpart : y.partition ∈ partitions
      · exact Or.inr (Or.inr (Or.inr ⟨hy, hpart⟩))
      · exact Or.inl ⟨hyq, hpart⟩
    · exact Or.inr (Or.inl hyd)
    · exact Or.inr (Or.inr (Or.inl hyr))
  · change ((s.queue.revoke partitions).queue key).Pairwise _
    rw [AsyncPendingQueue.queue_revoke hs.wf]
    exact (hs.arrival key).filter _
  · change .succeeded z ∈ s.trace ++ [Line.revoked partitions] ∨
      RevokedSince (s.trace ++ [.revoked partitions]) z
    rw [hrev, hdone]
    exact (hs.first y hy z (hadded.mp hz) hzy hlt).imp_right Or.inl

end Tasks

/-! ### Every step -/

/-- A step keeps the invariant, and its process knows what it has to know. -/
lemma Effect.inv (h : Effect t s p p' s') (hi : s.Inv) (hp : p.holds t s) :
    s'.Inv ∧ p'.holds t s' := by
  cases h with
  | quiet hstay =>
      refine ⟨hi, ?_⟩
      cases p' with
      | service q => trivial
      | running x pc =>
          obtain ⟨hpc, -, pc', rfl⟩ := hstay x pc rfl
          exact ⟨hp.1, fun h => absurd h hpc⟩
  | add task => exact ⟨hi.add task, trivial⟩
  | revoke partitions => exact ⟨hi.revoke partitions, trivial⟩
  | dispatch hpass => exact ⟨hi.dispatch, trivial⟩
  | reject hpass => exact ⟨hi.reject hpass, trivial⟩
  | tryAdmit hpass hkey retry => exact ⟨(hi.tryAdmit hpass hkey).log (by trivial), trivial⟩
  | refuse hmem => exact ⟨hi.release hmem, trivial⟩
  | execute hmem => exact ⟨(hi.move _ _).log (by trivial), trivial⟩
  | @take x hmem =>
      refine ⟨hi.move _ _, ?_, by simp⟩
      exact List.mem_map.mpr ⟨_, hmem, if_pos rfl⟩
  | acknowledge x => exact ⟨hi.log (by trivial), hp.1, by simp⟩
  | complete x =>
      obtain ⟨hinv, hgone⟩ := hi.complete (Tasks.mem_running hp.1)
      exact ⟨hinv, hp.1, fun _ => ⟨hgone, by simp [Tasks.done, Tasks.log]⟩⟩
  | finish x success =>
      have hrel := hi.release hp.1
      refine ⟨?_, trivial⟩
      cases success with
      | true => exact hrel.log (by trivial)
      | false =>
          have hnil : (s.release x (.thread t)).log [] = s.release x (.thread t) := by
            simp [Tasks.log]
          rw [if_neg (by simp), hnil]
          exact hrel

/-- What a step of another process leaves of a task on a thread. -/
lemma Effect.keeps (h : Effect t s p p' s') (hi : s.Inv) (hut : u ≠ t)
    (hx : (x, .thread u) ∈ s.active) :
    (x, .thread u) ∈ s'.active ∧ (¬ s.queued x → ¬ s'.queued x) ∧ (s.done x → s'.done x) := by
  have hmove : ∀ {y src dst}, src ≠ .thread u → (x, .thread u) ∈ (s.move y src dst).active := by
    intro y src dst hsrc
    refine List.mem_map.mpr ⟨_, hx, if_neg ?_⟩
    rintro heq
    cases heq
    exact hsrc rfl
  have hrelease : ∀ {y place}, place ≠ .thread u → (x, .thread u) ∈ (s.release y place).active := by
    intro y place hplace
    refine List.mem_filter.mpr ⟨hx, ?_⟩
    rw [decide_eq_true_eq]
    rintro heq
    cases heq
    exact hplace rfl
  have hthread : (Place.thread t) ≠ .thread u := fun heq => hut (by cases heq; rfl)
  have hlog : ∀ {line}, s.done x → .succeeded x ∈ s.trace ++ [line] := fun h =>
    List.mem_append_left _ h
  cases h with
  | quiet _ => exact ⟨hx, id, id⟩
  | add task =>
      refine ⟨hx, fun hxq hxq' => ?_, hlog⟩
      rcases (AsyncPendingQueue.holds_add hi.stages.wf).mp hxq' with h | h
      · exact hxq h
      · have hlt := hi.history.fresh x (hi.stages.known x (Or.inr (Or.inr (Tasks.mem_running hx))))
        rw [h] at hlt
        exact absurd hlt (lt_irrefl _)
  | revoke partitions =>
      exact ⟨hx, fun hxq hxq' => hxq ((AsyncPendingQueue.holds_revoke hi.stages.wf).mp hxq').1, hlog⟩
  | dispatch _ => exact ⟨hx, id, id⟩
  | reject _ => exact ⟨hx, id, id⟩
  | tryAdmit _ _ _ => exact ⟨List.mem_append_left _ hx, id, hlog⟩
  | refuse _ => exact ⟨hrelease (by simp), id, id⟩
  | execute _ => exact ⟨hmove (by simp), id, hlog⟩
  | take _ => exact ⟨hmove (by simp), id, id⟩
  | acknowledge _ => exact ⟨hx, id, hlog⟩
  | complete y =>
      exact ⟨hx, fun hxq hxq' => hxq (AsyncPendingQueue.holds_completed hi.stages.wf hxq'), hlog⟩
  | finish y success => exact ⟨hrelease hthread, id, fun h => List.mem_append_left _ h⟩

lemma Proc.holds_other (h : Effect t s p p' s') (hi : s.Inv) (hut : u ≠ t) (hq : q.holds u s) :
    q.holds u s' := by
  cases q with
  | service q => trivial
  | running x pc =>
      obtain ⟨hx, hqueued, hdone⟩ := h.keeps hi hut hq.1
      exact ⟨hx, fun hpc => ⟨hqueued (hq.2 hpc).1, hdone (hq.2 hpc).2⟩⟩

/-- **The invariant holds in every run.** -/
theorem reachable_inv {ok : Config Store Proc → ℕ → Act → Prop} {c : Config Store Proc}
    (h : Run (async cfg) ok (initial cfg) c) :
    c.store.tasks.Inv ∧ ∀ t, (c.procs t).holds t c.store.tasks := by
  refine Run.invariant (I := fun s => s.tasks.Inv) (J := fun t s p => p.holds t s.tasks)
    (K := fun _ => True) (fun _ _ => trivial) ⟨?_, fun _ => trivial⟩
    (fun c t a s' p' _ _ hi hq hnext => (next_effect hnext).inv hi (hq t))
    (fun c t a s' p' u _ _ hi hq hnext hut => Proc.holds_other (next_effect hnext) hi hut (hq u)) h
  have hnone : ∀ line, line ∉ (initial cfg).store.tasks.trace := fun line => List.not_mem_nil
  refine ⟨⟨fun x hx => absurd hx (hnone _), fun x y h => absurd h.mem (hnone _),
    fun x hx => absurd hx (hnone _), fun x hx => absurd hx (hnone _),
    fun x hx => absurd hx (hnone _), always_nil⟩, ?_⟩
  refine ⟨KeyedQueues.wf_nil, fun key => List.Pairwise.nil, fun x hx => ?_, List.nodup_nil,
    fun x hx => absurd hx List.not_mem_nil, List.nodup_nil, ?_, ?_, ?_, ?_, ?_, ?_, ?_⟩
  · rcases hx with hx | hx | hx <;> cases hx
  case refine_8 => exact fun y _ x hx => absurd hx (hnone _)
  all_goals
    intro x y hx
    cases hx

/-! ### Deliveries -/

/-- The statements of `run` behind a normal return of `process`. -/
def RunPc.afterwards : RunPc → Bool
  | .checking | .acknowledging | .completing | .releasing true => true
  | _ => false

/-- A worker delivers the event of its task, and behind `process` it is delivered. -/
def Proc.delivers (s : Store) : Proc → Prop
  | .service _ => True
  | .running x (.processing q) => ∃ job pc, q = .delivering job pc ∧ job.event = x.event
  | .running x pc => pc.afterwards = true → s.partner.db.isDelivered x.event.eventId

/-- What was acknowledged is delivered. -/
def Store.Delivered (s : Store) : Prop :=
  ∀ x, .acknowledged x ∈ s.trace → s.partner.db.isDelivered x.event.eventId

section Deliveries

variable {ok : Config Store Proc → ℕ → Act → Prop} {c : Config Store Proc} {a : Act} {s' : Store}

/-- What is delivered stays delivered. -/
lemma reachable_isDelivered (h : Run (async cfg) ok (initial cfg) c)
    (hnext : next cfg t c.store (c.procs t) a = some (s', p')) {id : String}
    (hid : c.store.partner.db.isDelivered id) : s'.partner.db.isDelivered id := by
  rcases next_partner hnext with ⟨hs, -⟩ | ⟨b, hb⟩
  · rwa [hs]
  · exact (Partner.reachable_effect (run_partner h) hb).isDelivered hid

lemma Proc.delivers_later {s s' : Store} (hq : q.delivers s)
    (hlater : ∀ id, s.partner.db.isDelivered id → s'.partner.db.isDelivered id) :
    q.delivers s' := by
  cases q with
  | service q => trivial
  | running x pc =>
      cases pc with
      | processing q => exact hq
      | _ => exact fun h => hlater _ (hq h)

lemma next_delivers {s s' : Store} (hdel : p.partner.delivered s.partner) (hp : p.delivers s)
    (hlater : ∀ id, s.partner.db.isDelivered id → s'.partner.db.isDelivered id)
    (h : next cfg t s p a = some (s', p')) : p'.delivers s' := by
  cases next_move h with
  | take hmem => exact fun hafter => by cases hafter
  | @run x pc jvm s' p' hrun =>
      cases pc with
      | started =>
          cases hrun
          exact ⟨_, _, rfl, rfl⟩
      | processing q =>
          obtain ⟨job, pc, rfl, hjob⟩ := hp
          obtain ⟨ps, q', hnext, hcase⟩ := processStep_cases hrun
          cases hcase with
          | returned job' hq hq' =>
              cases hq
              refine fun _ => hlater _ ?_
              rw [← hjob]
              exact hdel rfl
          | failed hq' => exact fun hafter => by cases hafter
          | goesOn hq' =>
              obtain ⟨pc', rfl⟩ := (Partner.processNext_proc hnext).resolve_right hq'
              exact ⟨job, pc', rfl, hjob⟩
      | checking =>
          cases hrun
          split_ifs
          · exact fun _ => hlater _ (hp rfl)
          · exact fun _ => hlater _ (hp rfl)
      | acknowledging =>
          cases hrun
          exact fun _ => hlater _ (hp rfl)
      | completing =>
          cases hrun
          exact fun _ => hlater _ (hp rfl)
      | releasing success =>
          cases hrun
          trivial
  | @throw x pc jvm s' p' hthrow =>
      cases pc with
      | processing q =>
          cases hthrow
          exact fun hafter => by cases hafter
      | checking =>
          cases hthrow
          exact fun hafter => by cases hafter
      | acknowledging =>
          cases hthrow
          exact fun hafter => by cases hafter
      | _ => cases hthrow
  | _ => trivial

/-- The task whose `process` has returned when the line is written. -/
def Line.finished : Line → Option AsyncTask
  | .acknowledged x | .succeeded x | .ended x => some x
  | _ => none

lemma Line.due_finished {s : Tasks} {line : Line} (hdue : line.due s p) (hx : x ∈ line.finished) :
    ∃ pc : RunPc, p = .running x pc ∧ pc.afterwards = true := by
  cases line with
  | acknowledged y =>
      cases hx
      exact ⟨_, hdue, rfl⟩
  | succeeded y =>
      cases hx
      exact ⟨_, hdue, rfl⟩
  | ended y =>
      cases hx
      exact ⟨_, hdue, rfl⟩
  | _ => cases hx

/-- Behind a normal return of `process` the event is delivered. -/
lemma Proc.delivers_afterwards {s : Store} {pc : RunPc} (h : (Proc.running x pc).delivers s)
    (hpc : pc.afterwards = true) : s.partner.db.isDelivered x.event.eventId := by
  cases pc with
  | processing q => cases hpc
  | _ => exact h hpc

/-- **A task is finished only when its event is delivered.** -/
theorem reachable_finished (h : Run (async cfg) ok (initial cfg) c) :
    ∀ line ∈ c.store.trace, ∀ x ∈ line.finished,
      c.store.partner.db.isDelivered x.event.eventId := by
  refine (Run.invariant (I := fun s => ∀ line ∈ s.trace, ∀ x ∈ line.finished,
      s.partner.db.isDelivered x.event.eventId) (J := fun _ s p => p.delivers s)
    (K := fun c => Run (async cfg) ok (initial cfg) c) (fun _ h => h)
    ⟨fun x hx => absurd hx List.not_mem_nil, fun _ => trivial⟩ ?_ ?_ h).1
  · intro c t a s' p' hrun _ hI hq hnext
    have hlater : ∀ id, c.store.partner.db.isDelivered id → s'.partner.db.isDelivered id :=
      fun _ => reachable_isDelivered hrun hnext
    refine ⟨fun line hline x hx => hlater _ ?_,
      next_delivers (Partner.reachable_delivered (run_partner hrun) t) (hq t) hlater hnext⟩
    rcases (next_effect hnext).mem_trace hline with hline | hdue
    · exact hI line hline x hx
    · obtain ⟨pc, hp, hpc⟩ := Line.due_finished hdue hx
      have ht := hq t
      rw [hp] at ht
      exact Proc.delivers_afterwards ht hpc
  · intro c t a s' p' u hrun _ _ hq hnext _
    exact Proc.delivers_later (hq u) fun _ => reachable_isDelivered hrun hnext

/-- **A task is acknowledged only when its event is delivered.** -/
theorem reachable_acknowledged (h : Run (async cfg) ok (initial cfg) c) : c.store.Delivered :=
  fun x hx => reachable_finished h _ hx x rfl

end Deliveries

/-! ### The promises hold -/

/-- **The asynchronous queue keeps the order and loses nothing.** In every run of the
instance, with redelivered copies, failing runs and revocations at any point: the first
successful runs of an order happen in the order of arrival, a task stays queued until a run
of it succeeded or its partition was revoked, what is acknowledged is delivered, and
`revoke` and `completed` remove what they are meant to remove. -/
theorem async_queue_keeps_order {c : Config Store Proc}
    (h : Run (async cfg) (fun _ _ _ => True) (initial cfg) c) : KeepsOrder c.store := by
  obtain ⟨⟨hh, hs⟩, -⟩ := reachable_inv h
  exact ⟨hh.order, hh.kept, reachable_acknowledged h,
    fun partitions key => AsyncPendingQueue.queue_revoke hs.wf partitions key,
    fun x key => AsyncPendingQueue.queue_completed_cases hs.wf key, hs.wf.nonempty⟩

/-- Two operations of an order are added and the first one is delivered. -/
theorem async_queue_keeps_order_delivered :
    ∃ c, Run (async sampleSettings) (fun _ _ _ => True) (initial sampleSettings) c ∧
      KeepsOrder c.store ∧ c.store.queue.heads = [sampleTask 1 "e2" 2] := by
  obtain ⟨c, hrun, hc⟩ := Run.exists_of_exec (async sampleSettings) (fun _ _ _ => True)
    (initial sampleSettings)
    ([(0, .add (sampleRecord "e1" 1)), (0, .add (sampleRecord "e2" 2))] ++
      sampleTake 2 (sampleTask 0 "e1" 1) ++ sampleDelivery 2 (sampleTask 0 "e1" 1) 13)
    (fun c => c.store.queue.heads) [sampleTask 1 "e2" 2] (by decide +kernel)
  exact ⟨c, hrun, async_queue_keeps_order hrun, hc⟩

end OrderSystem.Async
