/-
Two windows between atomic methods: a snapshot that outlives a run, and a check that outlives
an assignment.

`dispatchAsync` goes on with its snapshot after a task of it was completed and released, and
`run` acknowledges in another step than the one in which it asked `isCurrent`.

* `RunsOnce`, `AcksCurrent`: what the trace should say of finished tasks and of
  acknowledgements.
* `finished_runs_again`, `acknowledged_after_revoke`: a run in each window.
* `leavesPass`: a task that releases its key after a success is not left in the snapshot.
  Then a task that is nowhere stays nowhere (`Effect.placed`), and `finished_runs_once`.
* `noRevokeMeanwhile`: no revocation falls between the check and the acknowledgement. Then
  the check still holds (`Proc.checked`), and `acknowledged_in_assignment`.
-/
import OrderSystem.Async.Order

namespace OrderSystem.Async

open Interleaving Trace
open Partner (PartnerTask)

variable {cfg : Settings} {t u : ℕ} {p p' q : Proc} {x y : AsyncTask} {s s' : Tasks}
  {c : Config Store Proc}

/-! ### Finished tasks -/

/-- The line admits, executes or acknowledges the task. -/
def Line.runs (x : AsyncTask) : Line → Prop
  | .admitted y _ | .executed y | .acknowledged y => y = x
  | _ => False

/-- A task whose run ended after a success is not run again. -/
def RunsOnce (before : List Line) (line : Line) : Prop :=
  ∀ x, .ended x ∈ before → ¬ line.runs x

/-- A pass takes its snapshot while the task runs, and goes on with it after the run. -/
def staleSnapshot : List (ℕ × Act) :=
  (0, .add (sampleRecord "e1" 1)) :: sampleTake 2 (sampleTask 0 "e1" 1) ++
    (1, .dispatch) :: sampleDelivery 2 (sampleTask 0 "e1" 1) 13 ++ [(1, .tryAdmit 0)]

theorem finished_runs_again :
    ¬ ∀ cfg c, Run (async cfg) (fun _ _ _ => True) (initial cfg) c → Always RunsOnce c.store.trace := by
  intro hall
  obtain ⟨c, hrun, hc⟩ := Run.exists_of_exec (async sampleSettings) (fun _ _ _ => True)
    (initial sampleSettings) staleSnapshot
    (fun c => (c.store.trace.dropLast.contains (.ended (sampleTask 0 "e1" 1)),
      c.store.trace.getLast?)) (true, some (.admitted (sampleTask 0 "e1" 1) true))
    (by decide +kernel)
  obtain ⟨hended, hlast⟩ := Prod.mk.inj hc
  have hsplit := List.dropLast_append_getLast? _ hlast
  exact hall _ c hrun _ _ [] hsplit.symm (sampleTask 0 "e1" 1)
    (List.contains_iff_mem.mp hended) rfl

/-- The task that releases its order key after a success. -/
def Proc.ending : Proc → Option AsyncTask
  | .running x (.releasing true) => some x
  | _ => none

/-- When a task releases its order key after a success, the pass has no copy of it left. -/
def leavesPass (c : Config Store Proc) (t : ℕ) (_a : Act) : Prop :=
  ∀ x ∈ (c.procs t).ending, x ∉ c.store.pass

instance (c : Config Store Proc) (t : ℕ) (a : Act) : Decidable (leavesPass c t a) :=
  inferInstanceAs (Decidable (∀ x ∈ (c.procs t).ending, _))

namespace Tasks

/-- The task is queued, in the snapshot or active. -/
def placed (s : Tasks) (x : AsyncTask) : Prop :=
  s.queued x ∨ x ∈ s.pass ∨ x ∈ s.running

end Tasks

/-- **A task that is nowhere stays nowhere.** -/
lemma Effect.placed (h : Effect t s p p' s') (hi : s.Inv) (hx : .added x ∈ s.trace)
    (hplaced : s'.placed x) : s.placed x := by
  cases h with
  | quiet hp => exact hplaced
  | add task =>
      refine hplaced.imp_left fun hxq => ?_
      rcases (AsyncPendingQueue.holds_add hi.stages.wf).mp hxq with hxq | hnew
      · exact hxq
      · have hlt := hi.history.fresh x hx
        rw [hnew] at hlt
        exact absurd hlt (lt_irrefl _)
  | revoke partitions =>
      exact hplaced.imp_left fun hxq => ((AsyncPendingQueue.holds_revoke hi.stages.wf).mp hxq).1
  | dispatch hpass =>
      rcases hplaced with hxq | hxp | hxr
      · exact Or.inl hxq
      · exact Or.inl (List.mem_of_mem_head? ((KeyedQueues.mem_heads hi.stages.wf).mp hxp))
      · exact Or.inr (Or.inr hxr)
  | reject hpass =>
      refine hplaced.imp_right (Or.imp_left fun hxp => ?_)
      rw [hpass]
      exact List.mem_cons_of_mem _ hxp
  | @tryAdmit y rest hpass hkey retry =>
      rcases hplaced with hxq | hxp | hxr
      · exact Or.inl hxq
      · refine Or.inr (Or.inl ?_)
        rw [hpass]
        exact List.mem_cons_of_mem _ hxp
      · obtain ⟨e, he, rfl⟩ := List.mem_map.mp hxr
        rcases List.mem_append.mp he with he | he
        · exact Or.inr (Or.inr (List.mem_map_of_mem he))
        · refine Or.inr (Or.inl ?_)
          rw [List.mem_singleton.mp he, hpass]
          exact List.mem_cons_self
  | @refuse y hmem =>
      exact hplaced.imp_right (Or.imp_right fun hxr => (s.running_release y _).subset hxr)
  | @execute y hmem =>
      refine hplaced.imp_right (Or.imp_right fun hxr => ?_)
      rw [← s.running_move y .submitting .queued]
      exact hxr
  | @take y hmem =>
      refine hplaced.imp_right (Or.imp_right fun hxr => ?_)
      rw [← s.running_move y .queued (.thread t)]
      exact hxr
  | acknowledge y => exact hplaced
  | complete y =>
      exact hplaced.imp_left fun hxq => AsyncPendingQueue.holds_completed hi.stages.wf hxq
  | finish y success =>
      exact hplaced.imp_right (Or.imp_right fun hxr => (s.running_release y _).subset hxr)

namespace Tasks

/-- Finished tasks are nowhere. -/
structure Finished (s : Tasks) : Prop where
  known : ∀ x, .ended x ∈ s.trace → .added x ∈ s.trace
  gone : ∀ x, .ended x ∈ s.trace → ¬ s.placed x
  once : Always RunsOnce s.trace

end Tasks

/-- A line about a run of a task is written while the task is in the snapshot or active. -/
lemma Line.due.placed {line : Line} (hdue : line.due s p) (hp : p.holds t s)
    (hruns : line.runs x) : s.placed x := by
  cases line with
  | admitted y retry =>
      obtain rfl := hruns
      exact Or.inr (Or.inl hdue)
  | executed y =>
      obtain rfl := hruns
      exact Or.inr (Or.inr (Tasks.mem_running hdue))
  | acknowledged y =>
      obtain rfl := hruns
      obtain rfl := hdue
      exact Or.inr (Or.inr (Tasks.mem_running hp.1))
  | _ => exact hruns.elim

/-- A step keeps finished tasks nowhere. -/
lemma Effect.finished (h : Effect t s p p' s') (hi : s.Inv) (hp : p.holds t s)
    (hf : s.Finished) (hpass : ∀ x ∈ p.ending, x ∉ s.pass) : s'.Finished := by
  have hknown : ∀ x, .ended x ∈ s'.trace → .added x ∈ s.trace := by
    intro x hx
    rcases h.mem_trace hx with hx | hdue
    · exact hf.known x hx
    · obtain rfl := hdue
      exact hi.stages.known x (Or.inr (Or.inr (Tasks.mem_running hp.1)))
  refine ⟨fun x hx => ?_, fun x hx => ?_, ?_⟩
  · rcases h.line with heq | ⟨line, heq, -⟩
    · rw [heq]
      exact hknown x hx
    · rw [heq]
      exact List.mem_append_left _ (hknown x hx)
  · by_cases hold : .ended x ∈ s.trace
    · exact fun hplaced => hf.gone x hold (h.placed hi (hf.known x hold) hplaced)
    · obtain rfl : p = .running x (.releasing true) := (h.mem_trace hx).resolve_left hold
      cases h with
      | quiet hstay => exact absurd hx hold
      | finish =>
          rintro (hxq | hxp | hxr)
          · exact (hp.2 rfl).1 hxq
          · exact hpass x rfl hxp
          · obtain ⟨e, he, hex⟩ := List.mem_map.mp hxr
            obtain ⟨hin, hne⟩ := List.mem_filter.mp he
            have hsame := hi.stages.active_eq hin hp.1 (congrArg AsyncTask.key hex)
            exact (of_decide_eq_true hne) hsame
  · rcases h.line with heq | ⟨line, heq, hdue⟩
    · rw [heq]
      exact hf.once
    · rw [heq]
      exact always_concat.mpr ⟨hf.once, fun x hx hruns => hf.gone x hx (hdue.placed hp hruns)⟩

/-- **A finished task never runs again**, in every run in which no task is left in the
snapshot of a pass when it releases its order key after a success. -/
theorem finished_runs_once (h : Run (async cfg) leavesPass (initial cfg) c) :
    Always RunsOnce c.store.trace := by
  have hfin := (Run.invariant (I := fun s => s.tasks.Finished) (J := fun _ _ _ => True)
    (K := fun c => Run (async cfg) leavesPass (initial cfg) c) (fun _ h => h)
    ⟨⟨fun x hx => absurd hx List.not_mem_nil, fun x hx => absurd hx List.not_mem_nil,
      always_nil⟩, fun _ => trivial⟩
    (fun c t a s' p' hrun hok hf _ hnext => ?_) (fun _ _ _ _ _ _ _ _ _ _ _ _ => trivial) h).1
  · exact hfin.once
  · obtain ⟨hi, hp⟩ := reachable_inv hrun
    exact ⟨(next_effect hnext).finished hi (hp t) hf hok, trivial⟩

/-- A delivered task ends its run. -/
theorem finished_runs_once_delivered :
    ∃ c, Run (async sampleSettings) leavesPass (initial sampleSettings) c ∧
      Always RunsOnce c.store.trace ∧
      c.store.trace.getLast? = some (.ended (sampleTask 0 "e1" 1)) := by
  obtain ⟨c, hrun, hc⟩ := Run.exists_of_exec (async sampleSettings) leavesPass
    (initial sampleSettings)
    ((0, .add (sampleRecord "e1" 1)) :: sampleTake 2 (sampleTask 0 "e1" 1) ++
      sampleDelivery 2 (sampleTask 0 "e1" 1) 13)
    (fun c => c.store.trace.getLast?) (some (.ended (sampleTask 0 "e1" 1))) (by decide +kernel)
  exact ⟨c, hrun, finished_runs_once hrun, hc⟩

/-! ### Acknowledgements -/

/-- An acknowledgement is sent in the assignment in which the task was added. -/
def AcksCurrent (before : List Line) (line : Line) : Prop :=
  ∀ x, line = .acknowledged x → ¬ RevokedSince before x

/-- The partition is revoked between `isCurrent` and the acknowledgement. -/
def revokedMeanwhile : List (ℕ × Act) :=
  (0, .add (sampleRecord "e1" 1)) :: sampleTake 2 (sampleTask 0 "e1" 1) ++
    sampleDelivery 2 (sampleTask 0 "e1" 1) 10 ++ [(0, .revoke [0]), (2, .go 0)]

theorem acknowledged_after_revoke :
    ¬ ∀ cfg c, Run (async cfg) (fun _ _ _ => True) (initial cfg) c →
      Always AcksCurrent c.store.trace := by
  intro hall
  obtain ⟨c, hrun, hc⟩ := Run.exists_of_exec (async sampleSettings) (fun _ _ _ => True)
    (initial sampleSettings) revokedMeanwhile (fun c => c.store.trace)
    [.added (sampleTask 0 "e1" 1), .admitted (sampleTask 0 "e1" 1) false,
      .executed (sampleTask 0 "e1" 1), .revoked [0], .acknowledged (sampleTask 0 "e1" 1)]
    (by decide +kernel)
  have hnot := hall _ c hrun [_, _, _, _] _ [] hc (sampleTask 0 "e1" 1) rfl
  exact hnot ⟨[], [_, _, _], rfl, .revoked [0], by simp, List.mem_singleton_self _⟩

/-- The active task is about to be acknowledged and belongs to these partitions. -/
def acknowledging (procs : ℕ → Proc) (partitions : List ℕ) : AsyncTask × Place → Bool
  | (x, .thread t) => procs t = .running x .acknowledging ∧ x.partition ∈ partitions
  | _ => false

/-- The partitions an action revokes. -/
def Act.revoked : Act → List ℕ
  | .revoke partitions => partitions
  | _ => []

/-- No partition is revoked while a worker is about to acknowledge a task of it. -/
def noRevokeMeanwhile (c : Config Store Proc) (_t : ℕ) (a : Act) : Prop :=
  ∀ e ∈ c.store.active, ¬ acknowledging c.procs a.revoked e

instance (c : Config Store Proc) (t : ℕ) (a : Act) : Decidable (noRevokeMeanwhile c t a) :=
  inferInstanceAs (Decidable (∀ e ∈ c.store.active, _))

/-- A worker that is about to acknowledge has a current task. -/
def Proc.checked (s : Tasks) : Proc → Prop
  | .running x .acknowledging => s.queue.isCurrent x
  | _ => True

lemma runNext_generations {s s' : Store} {jvm : ℤ} {pc : RunPc}
    (h : runNext cfg t s x jvm pc = some (s', p')) :
    s'.queue.generations = s.queue.generations := by
  cases pc with
  | processing q =>
      obtain ⟨ps, q', -, hcase⟩ := processStep_cases h
      cases hcase <;> rfl
  | _ =>
      cases h
      rfl

lemma runThrow_generations {s s' : Store} {jvm : ℤ} {pc : RunPc}
    (h : runThrow cfg t s x jvm pc = some (s', p')) :
    s'.queue.generations = s.queue.generations := by
  cases pc with
  | processing q =>
      cases h
      rfl
  | checking =>
      cases h
      rfl
  | acknowledging =>
      cases h
      rfl
  | _ => cases h

/-- Only a revocation ends an assignment. -/
lemma next_generations {s s' : Store} {a : Act} (h : next cfg t s p a = some (s', p'))
    {partition : ℕ} (hpart : partition ∉ a.revoked) :
    s'.queue.generations partition = s.queue.generations partition := by
  cases next_move h with
  | revoke partitions =>
      have hcount : partitions.count partition = 0 := List.count_eq_zero.mpr hpart
      change s.queue.generations partition + partitions.count partition = _
      omega
  | run hrun => rw [runNext_generations hrun]
  | throw hthrow => rw [runThrow_generations hthrow]
  | _ => rfl

/-- A worker that goes on to the acknowledgement has checked its task. -/
lemma Effect.checked (h : Effect t s p p' s') : p'.checked s' := by
  cases h with
  | quiet hp =>
      cases p' with
      | service q => trivial
      | running x pc =>
          cases pc with
          | acknowledging => exact (hp x _ rfl).2.1 rfl
          | _ => trivial
  | _ => trivial

/-- The check of a worker survives the steps of the others. -/
lemma Proc.checked_other {s s' : Store} {a : Act} (h : next cfg t s p a = some (s', p'))
    (hq : q.checked s.tasks) (hpart : ∀ x, q = .running x .acknowledging →
      x.partition ∉ a.revoked) : q.checked s'.tasks := by
  cases q with
  | service q => trivial
  | running x pc =>
      cases pc with
      | acknowledging =>
          have hgen := next_generations h (hpart x rfl)
          change s'.queue.isCurrent x = true
          rw [AsyncPendingQueue.isCurrent, hgen]
          exact hq
      | _ => trivial

/-- A task that is current has its partition since it was added. -/
lemma Tasks.Inv.current (hi : s.Inv) (hx : .added x ∈ s.trace) (h : s.queue.isCurrent x = true) :
    ¬ RevokedSince s.trace x := by
  obtain ⟨-, hiff⟩ := hi.history.epochs x hx
  have hepoch : x.epoch = s.queue.generations x.partition := by
    simpa [AsyncPendingQueue.isCurrent] using h
  rw [hiff]
  omega

/-- **No acknowledgement from an older assignment**, in every run in which no partition is
revoked while a worker is about to acknowledge a task of it. -/
theorem acknowledged_in_assignment (h : Run (async cfg) noRevokeMeanwhile (initial cfg) c) :
    Always AcksCurrent c.store.trace := by
  refine (Run.invariant (I := fun s => Always AcksCurrent s.trace)
    (J := fun _ s p => p.checked s.tasks)
    (K := fun c => Run (async cfg) noRevokeMeanwhile (initial cfg) c) (fun _ h => h)
    ⟨always_nil, fun _ => trivial⟩ ?_ ?_ h).1
  · intro c t a s' p' hrun _ hacks hq hnext
    obtain ⟨hi, hp⟩ := reachable_inv hrun
    have heff := next_effect hnext
    refine ⟨?_, heff.checked⟩
    rcases heff.line with heq | ⟨line, heq, hdue⟩
    · have htrace : s'.trace = c.store.trace := heq
      rw [htrace]
      exact hacks
    · have htrace : s'.trace = c.store.trace ++ [line] := heq
      rw [htrace]
      refine always_concat.mpr ⟨hacks, ?_⟩
      rintro x rfl
      have hproc : c.procs t = .running x .acknowledging := hdue
      have hholds := hp t
      have hcheck := hq t
      rw [hproc] at hholds hcheck
      exact hi.current (hi.stages.known x (Or.inr (Or.inr (Tasks.mem_running hholds.1)))) hcheck
  · intro c t a s' p' u hrun hok _ hq hnext _
    refine Proc.checked_other hnext (hq u) fun x hx hpart => ?_
    have hholds := (reachable_inv hrun).2 u
    rw [hx] at hholds
    refine hok _ hholds.1 ?_
    simp [acknowledging, hx, hpart]

/-- A task is acknowledged, and its partition is revoked afterwards. -/
theorem acknowledged_in_assignment_revoked :
    ∃ c, Run (async sampleSettings) noRevokeMeanwhile (initial sampleSettings) c ∧
      Always AcksCurrent c.store.trace ∧
      c.store.trace.drop 3 = [.acknowledged (sampleTask 0 "e1" 1), .revoked [0]] := by
  obtain ⟨c, hrun, hc⟩ := Run.exists_of_exec (async sampleSettings) noRevokeMeanwhile
    (initial sampleSettings)
    ((0, .add (sampleRecord "e1" 1)) :: sampleTake 2 (sampleTask 0 "e1" 1) ++
      sampleDelivery 2 (sampleTask 0 "e1" 1) 11 ++ [(0, .revoke [0])])
    (fun c => c.store.trace.drop 3) [.acknowledged (sampleTask 0 "e1" 1), .revoked [0]]
    (by decide +kernel)
  exact ⟨c, hrun, acknowledged_in_assignment hrun, hc⟩

end OrderSystem.Async
