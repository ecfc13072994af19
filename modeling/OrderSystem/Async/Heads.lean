/-
The first task of an order and the records behind it.

* `Reads`: a partition is read in the order of the offsets, from a position with everything below
  acknowledged.
* `Arrived`: the tasks of an assignment were added in the order of their records.
* `feeding`, `heads_ready`: when every record is appended behind its predecessor, the operations
  before the first task of an order are recorded, so it has to wait for none of the tasks behind it.
* `ascending`, `heads_first`: when no record is appended behind a later operation of its order, no
  earlier operation is queued behind the first task.
-/
import OrderSystem.Async.Order
import OrderSystem.Foundations.Requeue
import OrderSystem.Partner.Unclaimed

namespace OrderSystem.Async

open Interleaving Trace
open Partner (PartnerTask)

variable {cfg : Settings} {t : ℕ} {p p' : Proc} {a : Act} {x y : AsyncTask}
  {topic topic' : ℕ → List PartnerOrderEvent} {E : PartnerOrderEvent → Prop} {home : String → ℕ}

/-! ### The consumer -/

/-- The tasks that were added. -/
def Tasks.added (s : Tasks) : List AsyncTask :=
  s.trace.filterMap fun
    | .added x => some x
    | _ => none

/-- The tasks that were added in the present assignment of their partition. -/
def Tasks.assigned (s : Tasks) : List AsyncTask :=
  s.added.filter s.queue.isCurrent

/-- A record is read at its offset, behind the records that were read in this assignment. What
lies below was acknowledged, or read in this assignment. -/
structure Reads (topic : ℕ → List PartnerOrderEvent) (s : Tasks) (task : PartnerTask) : Prop where
  record : (topic task.partition)[task.offset]? = some task.event
  behind : ∀ x ∈ s.assigned, x.partition = task.partition → x.offset < task.offset
  below : ∀ n < task.offset, ∃ x ∈ s.added, x.partition = task.partition ∧ x.offset = n ∧
    (.acknowledged x ∈ s.trace ∨ x ∈ s.assigned)

instance (topic : ℕ → List PartnerOrderEvent) (s : Tasks) (task : PartnerTask) :
    Decidable (Reads topic s task) :=
  decidable_of_iff
    ((topic task.partition)[task.offset]? = some task.event ∧
      (∀ x ∈ s.assigned, x.partition = task.partition → x.offset < task.offset) ∧
      ∀ n < task.offset, ∃ x ∈ s.added, x.partition = task.partition ∧ x.offset = n ∧
        (.acknowledged x ∈ s.trace ∨ x ∈ s.assigned))
    ⟨fun h => ⟨h.1, h.2.1, h.2.2⟩, fun h => ⟨h.1, h.2, h.3⟩⟩

/-- What is added is read from the topic. -/
def Act.reads (s : Store) : Act → Prop
  | .add task => Reads s.partner.topic s.tasks task
  | _ => True

instance (s : Store) (a : Act) : Decidable (a.reads s) :=
  match a with
  | .add task => inferInstanceAs (Decidable (Reads s.partner.topic s.tasks task))
  | .service _ | .revoke _ | .dispatch | .tryAdmit _ | .execute _ | .take _ | .go _ | .throw _ =>
      isTrue trivial

/-- The environment reads what it adds. -/
def reading (c : Config Store Proc) (_ : ℕ) (a : Act) : Prop := a.reads c.store

/-! ### Where the tasks stand -/

variable {s s' : Tasks}

lemma mem_added : x ∈ s.added ↔ .added x ∈ s.trace := by
  rw [Tasks.added, List.mem_filterMap]
  constructor
  · rintro ⟨line, hline, hx⟩
    cases line <;> cases hx
    exact hline
  · exact fun h => ⟨_, h, rfl⟩

lemma mem_assigned : x ∈ s.assigned ↔ .added x ∈ s.trace ∧ s.queue.isCurrent x = true := by
  rw [Tasks.assigned, List.mem_filter, mem_added]

/-- The tasks of an assignment were added in the order of their records, and nothing was left
out. -/
structure Arrived (topic : ℕ → List PartnerOrderEvent) (s : Tasks) : Prop where
  record : ∀ x ∈ s.added, (topic x.partition)[x.offset]? = some x.event
  current : ∀ x, s.queued x → x ∈ s.assigned
  rising : ∀ x ∈ s.assigned, ∀ y ∈ s.assigned, x.partition = y.partition → x.id < y.id →
    x.offset < y.offset
  below : ∀ x ∈ s.assigned, ∀ n < x.offset, ∃ y ∈ s.added, y.partition = x.partition ∧
    y.offset = n ∧ (.acknowledged y ∈ s.trace ∨ (y ∈ s.assigned ∧ y.id < x.id))

/-- A step that adds nothing and revokes nothing. -/
structure Passes (s s' : Tasks) : Prop where
  added : s'.added = s.added
  trace : s.trace ⊆ s'.trace
  generations : s'.queue.generations = s.queue.generations
  queued : ∀ x, s'.queued x → s.queued x

lemma Passes.same (hqueue : s'.queue = s.queue) (htrace : s'.trace = s.trace) : Passes s s' := by
  refine ⟨by rw [Tasks.added, htrace, Tasks.added], by rw [htrace]; exact List.Subset.refl _,
    by rw [hqueue], fun x hx => ?_⟩
  rwa [Tasks.queued, hqueue] at hx

/-- A line about a task that is there already. -/
lemma Passes.log {line : Line} (hline : ∀ x, line ≠ .added x)
    (hgen : s'.queue.generations = s.queue.generations) (hqueued : ∀ x, s'.queued x → s.queued x)
    (htrace : s'.trace = s.trace ++ [line]) : Passes s s' := by
  refine ⟨?_, by rw [htrace]; exact List.subset_append_left _ _, hgen, hqueued⟩
  rw [Tasks.added, htrace, List.filterMap_append, Tasks.added]
  cases line with
  | added x => exact absurd rfl (hline x)
  | _ => exact List.append_nil _

/-- A worker adds nothing and revokes nothing. -/
lemma Effect.passes {pc : RunPc} (h : Effect t s (.running x pc) p' s') (hi : s.Inv) :
    Passes s s' := by
  cases h with
  | quiet hp => exact .same rfl rfl
  | acknowledge x => exact .log (by simp) rfl (fun _ => id) rfl
  | complete x =>
      exact .log (by simp) rfl (fun y => AsyncPendingQueue.holds_completed hi.stages.wf) rfl
  | finish x success =>
      cases success with
      | true => exact .log (by simp) rfl (fun _ => id) rfl
      | false => exact .same rfl (List.append_nil _)

/-- What a step does to the tasks: a record is added, partitions are revoked, or neither. -/
inductive Arrival (s : Store) (a : Act) (s' : Store) : Prop
  | add (task : PartnerTask) (ha : a = .add task) (h : s' = addTask s task)
  | revoke (partitions : List ℕ) (h : s' = Async.revoke s partitions)
  | pass (h : Passes s.tasks s'.tasks)

lemma next_arrival {s s' : Store} (hi : s.tasks.Inv) (h : next cfg t s p a = some (s', p')) :
    Arrival s a s' := by
  cases next_move h with
  | add task => exact .add task rfl rfl
  | revoke partitions => exact .revoke partitions rfl
  | tryAdmit now hpass hadmitted => exact .pass (.log (by simp) rfl (fun _ => id) rfl)
  | execute hmem => exact .pass (.log (by simp) rfl (fun _ => id) rfl)
  | run hrun => exact .pass ((runNext_effect hrun).passes hi)
  | throw hthrow => exact .pass ((runThrow_effect hthrow).passes hi)
  | _ => exact .pass (.same rfl rfl)

namespace Arrived

lemma pass (h : Arrived topic s) (hpass : Passes s s') (htopic : ∀ q, topic q <+: topic' q) :
    Arrived topic' s' := by
  have hassigned : s'.assigned = s.assigned := by
    rw [Tasks.assigned, hpass.added, Tasks.assigned]
    refine List.filter_congr fun x _ => ?_
    rw [AsyncPendingQueue.isCurrent, hpass.generations, AsyncPendingQueue.isCurrent]
  refine ⟨fun x hx => ?_, fun x hx => ?_, ?_, fun x hx n hn => ?_⟩
  · rw [hpass.added] at hx
    exact Requeue.getElem?_of_isPrefix (htopic _) (h.record x hx)
  · rw [hassigned]
    exact h.current x (hpass.queued x hx)
  · rw [hassigned]
    exact h.rising
  · rw [hassigned] at hx
    obtain ⟨y, hy, hpart, hoff, hcase⟩ := h.below x hx n hn
    rw [hpass.added, hassigned]
    exact ⟨y, hy, hpart, hoff, hcase.imp_left fun hack => hpass.trace hack⟩

/-- A record that is read is behind the tasks of its assignment. -/
lemma add (h : Arrived topic s) (hi : s.Inv) {task : PartnerTask} (hread : Reads topic s task) :
    Arrived topic ({ s with queue := s.queue.add (s.queue.stamp s.nextTask task)
                            nextTask := s.nextTask + 1 }.log
      [.added (s.queue.stamp s.nextTask task)]) := by
  have hpart : (s.queue.stamp s.nextTask task).partition = task.partition := rfl
  have hoff : (s.queue.stamp s.nextTask task).offset = task.offset := rfl
  have hevent : (s.queue.stamp s.nextTask task).event = task.event := rfl
  have hid : (s.queue.stamp s.nextTask task).id = s.nextTask := rfl
  have hcurrent : s.queue.isCurrent (s.queue.stamp s.nextTask task) = true := by
    simp [AsyncPendingQueue.isCurrent, AsyncPendingQueue.stamp]
  generalize s.queue.stamp s.nextTask task = z at *
  have hadded : ({ s with queue := s.queue.add z, nextTask := s.nextTask + 1 }.log
      [.added z] : Tasks).added = s.added ++ [z] := by
    rw [Tasks.added, Tasks.log, List.filterMap_append]
    rfl
  have hassigned : ({ s with queue := s.queue.add z, nextTask := s.nextTask + 1 }.log
      [.added z] : Tasks).assigned = s.assigned ++ [z] := by
    rw [Tasks.assigned, hadded, List.filter_append]
    have hgen : (s.queue.add z).isCurrent = s.queue.isCurrent := rfl
    simp only [Tasks.log, hgen, List.filter_cons, hcurrent, if_true, List.filter_nil]
    rfl
  have hfresh : ∀ {y}, y ∈ s.added → y.id < z.id := fun hy => by
    rw [hid]
    exact hi.history.fresh _ (mem_added.mp hy)
  have hold : ∀ {y}, y ∈ s.assigned → y ∈ s.added := fun hy => (List.mem_filter.mp hy).1
  refine ⟨fun x hx => ?_, fun x hx => ?_, fun x hx y hy hxy hlt => ?_, fun x hx n hn => ?_⟩
  · rw [hadded] at hx
    rcases List.mem_append.mp hx with hx | hx
    · exact h.record x hx
    · rw [List.mem_singleton.mp hx, hpart, hoff, hevent]
      exact hread.record
  · rw [hassigned]
    rcases (AsyncPendingQueue.holds_add hi.stages.wf).mp hx with hx | rfl
    · exact List.mem_append_left _ (h.current x hx)
    · exact List.mem_append_right _ List.mem_cons_self
  · rw [hassigned] at hx hy
    rcases List.mem_append.mp hx with hx | hx
    · rcases List.mem_append.mp hy with hy | hy
      · exact h.rising x hx y hy hxy hlt
      · rw [List.mem_singleton.mp hy] at hxy ⊢
        rw [hoff]
        exact hread.behind x hx (hxy.trans hpart)
    · -- nothing is younger than the new task
      rw [List.mem_singleton.mp hx] at hlt
      rcases List.mem_append.mp hy with hy | hy
      · have := hfresh (hold hy)
        omega
      · rw [List.mem_singleton.mp hy] at hlt
        omega
  · rw [hassigned] at hx
    rw [hadded, hassigned]
    rcases List.mem_append.mp hx with hx | hx
    · obtain ⟨y, hy, hypart, hyoff, hcase⟩ := h.below x hx n hn
      exact ⟨y, List.mem_append_left _ hy, hypart, hyoff,
        hcase.imp (List.mem_append_left _) (And.imp_left (List.mem_append_left _))⟩
    · rw [List.mem_singleton.mp hx] at hn ⊢
      rw [hoff] at hn
      obtain ⟨y, hy, hypart, hyoff, hcase⟩ := hread.below n hn
      exact ⟨y, List.mem_append_left _ hy, hypart.trans hpart.symm, hyoff,
        hcase.imp (List.mem_append_left _) fun hys => ⟨List.mem_append_left _ hys, hfresh hy⟩⟩

/-- The tasks of a revoked partition are not of the present assignment any more. -/
lemma mem_revoked (hi : s.Inv) (partitions : List ℕ) :
    x ∈ ({ s with queue := s.queue.revoke partitions }.log [.revoked partitions] :
      Tasks).assigned ↔ x ∈ s.assigned ∧ x.partition ∉ partitions := by
  have hadded : .added x ∈ s.trace ++ [Line.revoked partitions] ↔ .added x ∈ s.trace := by simp
  rw [mem_assigned, mem_assigned]
  change .added x ∈ s.trace ++ [Line.revoked partitions] ∧ _ ↔ _
  rw [hadded, and_assoc, and_congr_right_iff]
  intro hx
  have hle := (hi.history.epochs x hx).1
  have hcount : x.partition ∉ partitions ↔ partitions.count x.partition = 0 :=
    List.count_eq_zero.symm
  change (x.epoch == s.queue.generations x.partition + partitions.count x.partition) = true ↔
    (x.epoch == s.queue.generations x.partition) = true ∧ _
  rw [hcount, beq_iff_eq, beq_iff_eq]
  omega

lemma revoke (h : Arrived topic s) (hi : s.Inv) (partitions : List ℕ) :
    Arrived topic ({ s with queue := s.queue.revoke partitions }.log [.revoked partitions]) := by
  have hadded : ({ s with queue := s.queue.revoke partitions }.log [.revoked partitions] :
      Tasks).added = s.added := by
    rw [Tasks.added, Tasks.log, List.filterMap_append]
    exact List.append_nil _
  refine ⟨fun x hx => ?_, fun x hx => ?_, fun x hx y hy hxy hlt => ?_, fun x hx n hn => ?_⟩
  · rw [hadded] at hx
    exact h.record x hx
  · obtain ⟨hqueued, hkept⟩ := (AsyncPendingQueue.holds_revoke hi.stages.wf).mp hx
    exact (mem_revoked hi partitions).mpr ⟨h.current x hqueued, hkept⟩
  · exact h.rising x ((mem_revoked hi partitions).mp hx).1 y ((mem_revoked hi partitions).mp hy).1
      hxy hlt
  · obtain ⟨hxs, hkept⟩ := (mem_revoked hi partitions).mp hx
    obtain ⟨y, hy, hypart, hyoff, hcase⟩ := h.below x hxs n hn
    rw [hadded]
    exact ⟨y, hy, hypart, hyoff, hcase.imp (List.mem_append_left _) (And.imp_left fun hys =>
      (mem_revoked hi partitions).mpr ⟨hys, hypart ▸ hkept⟩)⟩

end Arrived

/-- The topic only grows. -/
lemma reachable_topic_grows {ok : Config Store Proc → ℕ → Act → Prop} {c : Config Store Proc}
    {s' : Store} (h : Run (async cfg) ok (initial cfg) c)
    (hnext : next cfg t c.store (c.procs t) a = some (s', p')) (q : ℕ) :
    c.store.partner.topic q <+: s'.partner.topic q := by
  rcases next_partner hnext with ⟨hs, -⟩ | ⟨b, hb⟩
  · rw [hs]
  · exact Partner.topic_grows (Partner.reachable_effect (run_partner h) hb) hb q

/-- **The tasks stand in the order of their records**, in every run that reads what it adds. -/
theorem reachable_arrived {c : Config Store Proc} (h : Run (async cfg) reading (initial cfg) c) :
    Arrived c.store.partner.topic c.store.tasks := by
  refine (Run.invariant (I := fun s => Arrived s.partner.topic s.tasks) (J := fun _ _ _ => True)
    (K := fun c => Run (async cfg) reading (initial cfg) c) (fun _ h => h) ⟨?_, fun _ => trivial⟩ ?_
    (fun _ _ _ _ _ _ _ _ _ _ _ _ => trivial) h).1
  · refine ⟨fun x hx => absurd hx List.not_mem_nil, fun x hx => absurd hx List.not_mem_nil,
      fun x hx => absurd hx List.not_mem_nil, fun x hx => absurd hx List.not_mem_nil⟩
  · intro c t a s' p' hrun hok hI _ hnext
    have hi := (reachable_inv hrun).1
    refine ⟨?_, trivial⟩
    cases next_arrival hi hnext with
    | add task ha hs =>
        subst ha hs
        exact hI.add hi hok
    | revoke partitions hs =>
        subst hs
        exact hI.revoke hi partitions
    | pass hpass => exact hI.pass hpass (reachable_topic_grows hrun hnext)

/-! ### Records in sequence -/

/-- A record is an event of `E` and is appended behind its predecessor. What is delivered beside
the tasks are events of `E`. -/
def Act.feeds (E : PartnerOrderEvent → Prop) (s : Store) : Act → Prop
  | .service b => b.inSequence s.partner ∧ (∀ e ∈ b.record, E e) ∧ ∀ e ∈ b.delivery, E e
  | _ => True

/-- The environment of the instance. -/
def feeding (E : PartnerOrderEvent → Prop) (c : Config Store Proc) (_ : ℕ) (a : Act) : Prop :=
  a.reads c.store ∧ a.feeds E c.store

section Sequence

variable {c : Config Store Proc}

lemma reading_of_feeding (h : Run (async cfg) (feeding E) (initial cfg) c) :
    Run (async cfg) reading (initial cfg) c :=
  h.mono fun _ _ _ hok => hok.1

/-- What the instance hands to the partner service is allowed there. -/
lemma Act.feeds.carried {s : Store} (h : a.feeds E s) {b : Partner.Act} (hb : a.starts p b) :
    b.inSequence s.partner ∧ ∀ e ∈ b.record, E e := by
  rcases hb with rfl | ⟨hrecord, -⟩
  · exact ⟨h.1, h.2.1⟩
  · refine ⟨?_, by simp [hrecord]⟩
    cases b with
    | produce q e => cases hrecord
    | _ => trivial

theorem reachable_sequenced (h : Run (async cfg) (feeding E) (initial cfg) c) :
    Partner.Sequenced E c.store.partner := by
  refine (Run.invariant (I := fun s => Partner.Sequenced E s.partner) (J := fun _ _ _ => True)
    (K := fun c => Run (async cfg) (feeding E) (initial cfg) c) (fun _ h => h)
    ⟨Partner.Sequenced.empty, fun _ => trivial⟩ ?_ (fun _ _ _ _ _ _ _ _ _ _ _ _ => trivial) h).1
  intro c t a s' p' hrun hok hI _ hnext
  refine ⟨?_, trivial⟩
  rcases next_delivery hnext with ⟨hs, -⟩ | ⟨b, hstarts, hb⟩
  · rwa [hs]
  · obtain ⟨hseq, hrecord⟩ := Act.feeds.carried hok.2 hstarts
    exact hI.step hseq hrecord (Partner.reachable_effect (run_partner hrun) hb) hb

/-- A worker has a task that was added. -/
lemma running_added {ok : Config Store Proc → ℕ → Act → Prop} {pc : RunPc}
    (h : Run (async cfg) ok (initial cfg) c) (hp : c.procs t = .running x pc) :
    x ∈ c.store.tasks.added := by
  obtain ⟨hi, hholds⟩ := reachable_inv h
  have hx := hholds t
  rw [hp] at hx
  exact mem_added.mpr (hi.stages.known x (Or.inr (Or.inr (Tasks.mem_running hx.1))))

/-- The partner service delivers events of `E`. -/
theorem run_delivers (h : Run (async cfg) (feeding E) (initial cfg) c) :
    Run Partner.service (Partner.deliversFrom E) Partner.initial
      (c.view Store.partner Proc.partner) := by
  have htask : Run (async cfg) (fun c t a => a.feeds E c.store ∧
      ∀ x pc, c.procs t = .running x pc → E x.event) (initial cfg) c := by
    refine Run.mono_of (K := fun c => Run (async cfg) (feeding E) (initial cfg) c) (fun _ h => h)
      ?_ h
    intro c c' t a hrun hok _
    refine ⟨hok.2, fun x pc hx => ?_⟩
    have hrecord := (reachable_arrived (reading_of_feeding hrun)).record x (running_added hrun hx)
    exact (reachable_sequenced hrun).events _ _ (List.mem_of_getElem? hrecord)
  refine Run.view (f := Store.partner) (g := Proc.partner) (fun c t a s' p' hok hnext => ?_) htask
  refine (next_delivery hnext).imp_right ?_
  rintro ⟨b, hstarts, hb⟩
  refine ⟨b, fun e he => ?_, hb⟩
  rcases hstarts with rfl | ⟨-, hdelivery⟩
  · exact hok.1.2.2 e he
  · obtain ⟨x, pc, hx, rfl⟩ := hdelivery e he
    exact hok.2 x pc hx

/-- A task of the present assignment that is older than the first task of its order is
delivered. -/
lemma delivered_of_older (h : Run (async cfg) reading (initial cfg) c)
    (hx : (c.store.queue.queue x.key).head? = some x) (hy : y ∈ c.store.tasks.assigned)
    (hkey : y.key = x.key) (hlt : y.id < x.id) :
    c.store.partner.db.isDelivered y.event.eventId := by
  obtain ⟨hh, hs⟩ := (reachable_inv h).1
  obtain ⟨hadded, hcurrent⟩ := mem_assigned.mp hy
  rcases hh.kept y hadded with hqueued | hdone | hrevoked
  · -- an older task would stand in front of the first one
    have hmem : y ∈ c.store.queue.queue x.key := hkey ▸ hqueued
    rcases hs.head_le hx hmem with rfl | hlt'
    · exact absurd hlt (lt_irrefl _)
    · exact absurd hlt hlt'.asymm
  · exact reachable_finished h _ hdone y rfl
  · have hepoch := (hh.epochs y hadded).2.mp hrevoked
    have hsame : y.epoch = c.store.queue.generations y.partition := beq_iff_eq.mp hcurrent
    exact absurd hsame hepoch.ne

/-- The operations before the first task of an order are in `partner_effect`. -/
def Store.HeadsReady (s : Store) : Prop :=
  ∀ key x, (s.queue.queue key).head? = some x → s.partner.db.recordedBefore x.event

/-- **The operations before the first task of an order are recorded**, in every run whose records
come in sequence. -/
theorem heads_ready (hE : Catalogue E) (h : Run (async cfg) (feeding E) (initial cfg) c) :
    c.store.HeadsReady := by
  intro key x hx
  have hreading := reading_of_feeding h
  have harrived := reachable_arrived hreading
  have hs := (reachable_inv h).1.stages
  have hseq := reachable_sequenced h
  have hmem : x ∈ c.store.queue.queue key := List.mem_of_mem_head? hx
  obtain rfl : x.key = key := hs.wf.key_eq hmem
  have hassigned := harrived.current x hmem
  have hrecord := harrived.record x (mem_added.mpr (mem_assigned.mp hassigned).1)
  rcases (hseq.preceded _).entry hrecord with hfirst | ⟨j, hj, e, he, hprec⟩
  · exact (Partner.recordedBefore_of_first hfirst).2
  · -- the predecessor was read before
    obtain ⟨y, hy, hpart, hoff, hcase⟩ := harrived.below x hassigned j hj
    have hyrecord := harrived.record y hy
    rw [hpart, hoff, he] at hyrecord
    obtain rfl : e = y.event := Option.some.inj hyrecord
    have hdelivers := run_delivers h
    refine (Partner.recordedBefore_of_delivered hE (Partner.reachable_sound hdelivers).1.ledger
      (Partner.reachable_recorded hE hdelivers) (hseq.events _ _ (List.mem_of_getElem? he))
      hprec ?_).2
    rcases hcase with hack | ⟨hys, hlt⟩
    · exact reachable_acknowledged h y hack
    · obtain ⟨hseller, horder⟩ := OrderKey.mk.inj hprec.1
      have hkey : y.key = x.key := by
        rw [AsyncTask.key, PartnerOrderEvent.key, hseller, horder]
        rfl
      exact delivered_of_older hreading hx hys hkey hlt

end Sequence

/-! ### Records in ascending order -/

/-- A record is appended to the partition of its order, behind no later operation of the
order. -/
def Ascends (home : String → ℕ) (topic : ℕ → List PartnerOrderEvent) (q : ℕ)
    (e : PartnerOrderEvent) : Prop :=
  q = home e.key ∧ ∀ x ∈ topic q, x.order = e.order → x.sequence ≤ e.sequence

instance (q : ℕ) (e : PartnerOrderEvent) : Decidable (Ascends home topic q e) :=
  inferInstanceAs (Decidable (_ ∧ _))

/-- What is published ascends. -/
def Act.ascends (home : String → ℕ) (s : Store) : Act → Prop
  | .service (.produce q e) => Ascends home s.partner.topic q e
  | _ => True

/-- The environment of the instance. -/
def ascending (home : String → ℕ) (c : Config Store Proc) (_ : ℕ) (a : Act) : Prop :=
  a.reads c.store ∧ a.ascends home c.store

/-- The records of an order ascend, in one partition. -/
structure Ascending (home : String → ℕ) (topic : ℕ → List PartnerOrderEvent) : Prop where
  homes : ∀ q, ∀ e ∈ topic q, q = home e.key
  sorted : ∀ q, (topic q).Pairwise fun x e => x.order = e.order → x.sequence ≤ e.sequence

lemma Ascending.append (h : Ascending home topic) {q : ℕ} {e : PartnerOrderEvent}
    (he : Ascends home topic q e) :
    Ascending home (Function.update topic q (topic q ++ [e])) := by
  refine ⟨fun q' x hx => ?_, fun q' => ?_⟩
  · rw [Function.update_apply] at hx
    split_ifs at hx with hq
    · rcases List.mem_append.mp hx with hx | hx
      · exact hq ▸ h.homes q x hx
      · rw [hq, List.mem_singleton.mp hx]
        exact he.1
    · exact h.homes q' x hx
  · rw [Function.update_apply]
    split_ifs with hq
    · refine List.pairwise_append.mpr ⟨h.sorted q, List.pairwise_singleton _ _, ?_⟩
      intro x hx y hy
      rw [List.mem_singleton.mp hy]
      exact he.2 x hx
    · exact h.sorted q'

/-- An earlier record of an order is not a later operation. -/
lemma Ascending.le (h : Ascending home topic) {q i j : ℕ} {x e : PartnerOrderEvent} (hij : i < j)
    (hx : (topic q)[i]? = some x) (he : (topic q)[j]? = some e) (ho : x.order = e.order) :
    x.sequence ≤ e.sequence := by
  obtain ⟨hi, rfl⟩ := List.getElem?_eq_some_iff.mp hx
  obtain ⟨hj, rfl⟩ := List.getElem?_eq_some_iff.mp he
  exact List.pairwise_iff_getElem.mp (h.sorted q) i j hi hj hij ho

/-- The first task of a queue is of no later operation than the tasks of its order behind it. -/
def AsyncPendingQueue.HeadsFirst (q : AsyncPendingQueue) : Prop :=
  ∀ key x y, (q.queue key).head? = some x → y ∈ q.queue key → y.event.order = x.event.order →
    x.event.sequence ≤ y.event.sequence

section Ascent

variable {c : Config Store Proc}

theorem reachable_ascending (h : Run (async cfg) (ascending home) (initial cfg) c) :
    Ascending home c.store.partner.topic := by
  refine (Run.invariant (I := fun s => Ascending home s.partner.topic) (J := fun _ _ _ => True)
    (K := fun c => Run (async cfg) (ascending home) (initial cfg) c) (fun _ h => h)
    ⟨⟨fun _ _ he => absurd he List.not_mem_nil, fun _ => List.Pairwise.nil⟩, fun _ => trivial⟩ ?_
    (fun _ _ _ _ _ _ _ _ _ _ _ _ => trivial) h).1
  intro c t a s' p' hrun hok hI _ hnext
  refine ⟨?_, trivial⟩
  rcases next_delivery hnext with ⟨hs, -⟩ | ⟨b, hstarts, hb⟩
  · rwa [hs]
  · have heff := Partner.reachable_effect (run_partner hrun) hb
    rcases Partner.next_topic heff hb with heq | ⟨q, e, rfl, heq⟩
    · rwa [heq]
    · rw [heq]
      rcases hstarts with rfl | ⟨hnone, -⟩
      · exact hI.append hok.2
      · cases hnone

/-- **No earlier operation is queued behind the first task of an order**, in every run whose
records ascend. -/
theorem heads_first (h : Run (async cfg) (ascending home) (initial cfg) c) :
    c.store.queue.HeadsFirst := by
  intro key x y hx hy ho
  have harrived := reachable_arrived (h.mono fun _ _ _ hok => hok.1)
  have hascending := reachable_ascending h
  have hs := (reachable_inv h).1.stages
  obtain rfl : x.key = key := hs.wf.key_eq (List.mem_of_mem_head? hx)
  have hkey : y.key = x.key := hs.wf.key_eq hy
  rcases hs.head_le hx hy with rfl | hlt
  · exact le_rfl
  · have hxs := harrived.current x (List.mem_of_mem_head? hx)
    have hys := harrived.current y (by rw [Tasks.queued, AsyncPendingQueue.holds, hkey]; exact hy)
    have hxrec := harrived.record x (List.mem_of_mem_filter hxs)
    have hyrec := harrived.record y (List.mem_of_mem_filter hys)
    -- the records of an order are in one partition
    have hpart : x.partition = y.partition := by
      rw [hascending.homes _ _ (List.mem_of_getElem? hxrec),
        hascending.homes _ _ (List.mem_of_getElem? hyrec)]
      exact congrArg home hkey.symm
    rw [← hpart] at hyrec
    exact hascending.le (harrived.rising x hxs y hys hpart hlt) hxrec hyrec ho.symm

end Ascent

end OrderSystem.Async
