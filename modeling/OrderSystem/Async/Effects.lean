/-
What one step of the asynchronous instance can do.

* `Move`, `next_move`: the inversion of `next`.
* `next_delivery`, `run_partner`: the partner service inside the instance takes its own steps, and
  delivers what the tasks say.
* `Tasks`: what the results on the queue speak of, without the counters and the database.
* `Effect`, `next_effect`: what a step does to the tasks.
* `Effect.line`: a step writes at most one line, and only when it is due.
-/
import OrderSystem.Async.Workers
import OrderSystem.Foundations.Coupling
import OrderSystem.Partner.InboxMode
import OrderSystem.Partner.SellerLedger

namespace OrderSystem.Async

open Interleaving
open Partner (PartnerTask DeliveryTask AdmissionPolicy)

variable {cfg : Settings} {t u : ℕ} {s s' : Store} {p p' : Proc} {a : Act} {x : AsyncTask}

/-! ### Moves -/

/-- What a step of process `t` is. -/
inductive Move (cfg : Settings) (t : ℕ) (s : Store) : Proc → Act → Store → Proc → Prop
  | service {q q' : Partner.Proc} {a : Partner.Act} {ps : Partner.Store}
      (h : Partner.next t s.partner q a = some (ps, q')) :
      Move cfg t s (.service q) (.service a) { s with partner := ps } (.service q')
  | add (task : PartnerTask) :
      Move cfg t s (.service .idle) (.add task) (addTask s task) (.service .idle)
  | revoke (partitions : List ℕ) :
      Move cfg t s (.service .idle) (.revoke partitions) (revoke s partitions) (.service .idle)
  | dispatch (h : s.pass = []) :
      Move cfg t s (.service .idle) .dispatch { s with pass := s.queue.heads } (.service .idle)
  | reject {x : AsyncTask} {rest : List AsyncTask} (now : ℤ) (hpass : s.pass = x :: rest)
      (h : (s.admission.tryAdmit (s.task x) true now).1.admitted = false) :
      Move cfg t s (.service .idle) (.tryAdmit now)
        { s with admission := (s.admission.tryAdmit (s.task x) true now).2, pass := rest }
        (.service .idle)
  | tryAdmit {x : AsyncTask} {rest : List AsyncTask} (now : ℤ) (hpass : s.pass = x :: rest)
      (h : (s.admission.tryAdmit (s.task x) true now).1.admitted = true) :
      Move cfg t s (.service .idle) (.tryAdmit now)
        ({ s with admission := (s.admission.tryAdmit (s.task x) true now).2
                  pass := rest, active := s.active ++ [(x, Place.submitting)] }.log
          [.admitted x (s.admission.tryAdmit (s.task x) true now).1.retry]) (.service .idle)
  | refuse {x : AsyncTask} (h : (x, .submitting) ∈ s.active) :
      Move cfg t s (.service .idle) (.execute true) (s.release x .submitting) (.service .idle)
  | execute {x : AsyncTask} (h : (x, .submitting) ∈ s.active) :
      Move cfg t s (.service .idle) (.execute false)
        ((s.move x .submitting .queued).log [.executed x]) (.service .idle)
  | take {x : AsyncTask} (h : (x, .queued) ∈ s.active) :
      Move cfg t s (.service .idle) (.take x) (s.move x .queued (.thread t)) (.running x .started)
  | run {x : AsyncTask} {pc : RunPc} {jvm : ℤ} {s' : Store} {p' : Proc}
      (h : runNext cfg t s x jvm pc = some (s', p')) :
      Move cfg t s (.running x pc) (.go jvm) s' p'
  | throw {x : AsyncTask} {pc : RunPc} {jvm : ℤ} {s' : Store} {p' : Proc}
      (h : runThrow cfg t s x jvm pc = some (s', p')) :
      Move cfg t s (.running x pc) (.throw jvm) s' p'

lemma submitting_mem (h : s.submitting = some x) : (x, .submitting) ∈ s.active := by
  obtain ⟨e, he, rfl⟩ := Option.map_eq_some_iff.mp h
  have hplace : e.2 = .submitting := by simpa using List.find?_some he
  rw [← hplace]
  exact List.mem_of_find?_eq_some he

lemma tryAdmit_move {now : ℤ} (h : tryAdmit s now = some s') :
    Move cfg t s (.service .idle) (.tryAdmit now) s' (.service .idle) := by
  unfold tryAdmit at h
  split at h
  · rename_i x rest hpass _
    dsimp only at h
    split_ifs at h with hadmitted <;> cases h
    · exact .tryAdmit now hpass hadmitted
    · exact .reject now hpass (by simpa using hadmitted)
  · cases h

/-- **The inversion of `next`**: every step is one of the moves. -/
theorem next_move (h : next cfg t s p a = some (s', p')) : Move cfg t s p a s' p' := by
  cases p with
  | running x pc =>
      cases a with
      | go jvm => exact .run h
      | throw jvm => exact .throw h
      | _ => cases h
  | service q =>
      cases a with
      | service a =>
          obtain ⟨⟨ps, q'⟩, hnext, h⟩ := Option.map_eq_some_iff.mp h
          cases h
          exact .service hnext
      | go jvm => cases q <;> cases h
      | throw jvm => cases q <;> cases h
      | add task =>
          cases q <;> cases h
          exact .add task
      | revoke partitions =>
          cases q <;> cases h
          exact .revoke partitions
      | dispatch =>
          cases q with
          | idle =>
              obtain ⟨s₁, hs, h⟩ := Option.map_eq_some_iff.mp h
              cases h
              rw [dispatch] at hs
              split_ifs at hs with hpass
              cases hs
              exact .dispatch hpass.1
          | _ => cases h
      | tryAdmit now =>
          cases q with
          | idle =>
              obtain ⟨s₁, hs, h⟩ := Option.map_eq_some_iff.mp h
              cases h
              exact tryAdmit_move hs
          | _ => cases h
      | execute rejected =>
          cases q with
          | idle =>
              obtain ⟨s₁, hs, h⟩ := Option.map_eq_some_iff.mp h
              cases h
              obtain ⟨x, hx, hs⟩ := Option.map_eq_some_iff.mp hs
              have hmem := submitting_mem hx
              cases rejected with
              | true =>
                  subst hs
                  exact .refuse hmem
              | false =>
                  subst hs
                  exact .execute hmem
          | _ => cases h
      | take x =>
          cases q with
          | idle =>
              change take t s x = _ at h
              unfold take at h
              split_ifs at h with hmem
              cases h
              exact .take hmem
          | _ => cases h

/-! ### The partner service inside the instance -/

/-- The statement of `process` a process is at. -/
def Proc.partner : Proc → Partner.Proc
  | .service p => p
  | .running _ (.processing p) => p
  | _ => .idle

/-- What a step is for the partner service: nothing, or a step of its own. -/
def PartnerStep (t : ℕ) (s : Store) (p : Partner.Proc) (s' : Store) (p' : Partner.Proc) : Prop :=
  (s'.partner = s.partner ∧ p' = p) ∨
    ∃ b, Partner.next t s.partner p b = some (s'.partner, p')

/-- A statement of `process`: it returns, or it throws, or the delivery goes on. -/
inductive Processed (cfg : Settings) (s : Store) (x : AsyncTask) (jvm : ℤ) (q : Partner.Proc)
    (ps : Partner.Store) (q' : Partner.Proc) : Store → Proc → Prop
  | returned (job : Partner.ProcessJob) (hq : q = .delivering job .returned) (hq' : q' = .idle) :
      Processed cfg s x jvm q ps q' { s with partner := ps } (.running x .checking)
  | failed (hq' : q' = .idle) :
      Processed cfg s x jvm q ps q' ({ s with partner := ps }.delay x (jvm + cfg.retryDelayMs))
        (.running x (.releasing false))
  | goesOn (hq' : q' ≠ .idle) :
      Processed cfg s x jvm q ps q' { s with partner := ps } (.running x (.processing q'))

lemma processStep_cases {q : Partner.Proc} {jvm : ℤ}
    (h : processStep cfg t s x q jvm = some (s', p')) :
    ∃ ps q', Partner.next t s.partner q (.go jvm) = some (ps, q') ∧
      Processed cfg s x jvm q ps q' s' p' := by
  rw [processStep] at h
  obtain ⟨⟨ps, q'⟩, hnext, hr⟩ := Option.map_eq_some_iff.mp h
  clear h
  refine ⟨ps, q', hnext, ?_⟩
  have hends : ∀ job, q = .delivering job .returned → q' = .idle := by
    rintro job rfl
    simp only [Partner.next, Partner.processNext] at hnext
    split at hnext <;> cases hnext <;> rfl
  dsimp only at hr
  split at hr
  · rename_i job
    cases hr
    exact .returned job rfl (hends job rfl)
  · cases hr
    exact .failed rfl
  · rename_i hgoes
    cases hr
    exact .goesOn hgoes

/-- A step publishes nothing and starts no delivery but the one of a task, unless it is one of
the database. -/
def Act.starts (a : Act) (p : Proc) (b : Partner.Act) : Prop :=
  a = .service b ∨ (b.record = none ∧ ∀ e ∈ b.delivery, ∃ x pc, p = .running x pc ∧ x.event = e)

lemma starts_of_none {a : Act} {b : Partner.Act} (hr : b.record = none) (hd : b.delivery = none) :
    a.starts p b := by
  refine Or.inr ⟨hr, fun e he => ?_⟩
  rw [hd] at he
  cases he

/-- What a step is for the partner service, and what it delivers. -/
def Delivers (t : ℕ) (s : Store) (p : Proc) (a : Act) (s' : Store) (p' : Proc) : Prop :=
  (s'.partner = s.partner ∧ p'.partner = p.partner) ∨
    ∃ b, a.starts p b ∧ Partner.next t s.partner p.partner b = some (s'.partner, p'.partner)

lemma runNext_delivers {jvm : ℤ} {pc : RunPc} (h : runNext cfg t s x jvm pc = some (s', p')) :
    Delivers t s (.running x pc) (.go jvm) s' p' := by
  cases pc with
  | started =>
      cases h
      refine Or.inr ⟨.start (.process _), Or.inr ⟨rfl, fun e he => ?_⟩, rfl⟩
      cases he
      exact ⟨x, _, rfl, rfl⟩
  | processing q =>
      obtain ⟨ps, q', hnext, hcase⟩ := processStep_cases h
      refine Or.inr ⟨.go jvm, starts_of_none rfl rfl, ?_⟩
      cases hcase with
      | returned job hq hq' =>
          obtain rfl := hq'
          exact hnext
      | failed hq' =>
          obtain rfl := hq'
          exact hnext
      | goesOn hq' => exact hnext
  | checking =>
      cases h
      split_ifs <;> exact Or.inl ⟨rfl, rfl⟩
  | releasing success =>
      cases h
      exact Or.inl ⟨rfl, rfl⟩
  | _ =>
      cases h
      exact Or.inl ⟨rfl, rfl⟩

/-- **What a step is for the partner service**: the database, or the delivery of a task. -/
theorem next_delivery (h : next cfg t s p a = some (s', p')) : Delivers t s p a s' p' := by
  cases next_move h with
  | service hnext => exact Or.inr ⟨_, Or.inl rfl, hnext⟩
  | run hrun => exact runNext_delivers hrun
  | @throw x pc jvm s' p' hthrow =>
      cases pc with
      | processing q =>
          cases hthrow
          exact Or.inr ⟨.abort, starts_of_none rfl rfl, by cases q <;> rfl⟩
      | checking =>
          cases hthrow
          exact Or.inl ⟨rfl, rfl⟩
      | acknowledging =>
          cases hthrow
          exact Or.inl ⟨rfl, rfl⟩
      | _ => cases hthrow
  | _ => exact Or.inl ⟨rfl, rfl⟩

lemma next_partner (h : next cfg t s p a = some (s', p')) :
    PartnerStep t s p.partner s' p'.partner :=
  (next_delivery h).imp_right fun ⟨b, _, hb⟩ => ⟨b, hb⟩

/-- **The partner service inside the instance runs as on its own.** -/
theorem run_partner {ok : Config Store Proc → ℕ → Act → Prop} {c : Config Store Proc}
    (h : Run (async cfg) ok (initial cfg) c) :
    Run Partner.service (fun _ _ _ => True) Partner.initial (c.view Store.partner Proc.partner) :=
  Run.view (f := Store.partner) (g := Proc.partner) (fun _ _ _ _ _ _ hnext =>
    (next_partner hnext).imp_right fun ⟨b, hb⟩ => ⟨b, trivial, hb⟩) h

/-! ### Effects -/

/-- The tasks of the instance: the queue, the rest of the snapshot, the active tasks, the
order keys the policy has given out, and what the tracer wrote. -/
structure Tasks where
  queue : AsyncPendingQueue
  pass : List AsyncTask
  active : List (AsyncTask × Place)
  keys : List String
  nextTask : ℕ
  trace : List Line

def Store.tasks (s : Store) : Tasks :=
  ⟨s.queue, s.pass, s.active, s.admission.activeKeys, s.nextTask, s.trace⟩

namespace Tasks

def log (s : Tasks) (lines : List Line) : Tasks :=
  { s with trace := s.trace ++ lines }

def release (s : Tasks) (x : AsyncTask) (place : Place) : Tasks :=
  { s with keys := s.keys.filter (· ≠ x.key), active := s.active.filter (· ≠ (x, place)) }

def move (s : Tasks) (x : AsyncTask) (src dst : Place) : Tasks :=
  { s with active := s.active.map fun e => if e = (x, src) then (x, dst) else e }

end Tasks

/-- The changes of the tasks a step of process `t` in local state `p` can make. -/
inductive Effect (t : ℕ) (s : Tasks) : Proc → Proc → Tasks → Prop
  | quiet {p p' : Proc} (hp : ∀ x pc, p' = .running x pc → pc ≠ .releasing true ∧
      (pc = .acknowledging → s.queue.isCurrent x = true) ∧ ∃ pc', p = .running x pc') :
      Effect t s p p' s
  | add (task : PartnerTask) : Effect t s (.service .idle) (.service .idle)
      ({ s with queue := s.queue.add (s.queue.stamp s.nextTask task)
                nextTask := s.nextTask + 1 }.log [.added (s.queue.stamp s.nextTask task)])
  | revoke (partitions : List ℕ) : Effect t s (.service .idle) (.service .idle)
      ({ s with queue := s.queue.revoke partitions }.log [.revoked partitions])
  | dispatch (h : s.pass = []) :
      Effect t s (.service .idle) (.service .idle) { s with pass := s.queue.heads }
  | reject {x : AsyncTask} {rest : List AsyncTask} (hpass : s.pass = x :: rest) :
      Effect t s (.service .idle) (.service .idle) { s with pass := rest }
  | tryAdmit {x : AsyncTask} {rest : List AsyncTask} (hpass : s.pass = x :: rest)
      (hkey : x.key ∉ s.keys) (retry : Bool) : Effect t s (.service .idle) (.service .idle)
      ({ s with pass := rest, active := s.active ++ [(x, Place.submitting)]
                keys := x.key :: s.keys }.log [.admitted x retry])
  | refuse {x : AsyncTask} (h : (x, .submitting) ∈ s.active) :
      Effect t s (.service .idle) (.service .idle) (s.release x .submitting)
  | execute {x : AsyncTask} (h : (x, .submitting) ∈ s.active) :
      Effect t s (.service .idle) (.service .idle)
        ((s.move x .submitting .queued).log [.executed x])
  | take {x : AsyncTask} (h : (x, .queued) ∈ s.active) :
      Effect t s (.service .idle) (.running x .started) (s.move x .queued (.thread t))
  | acknowledge (x : AsyncTask) :
      Effect t s (.running x .acknowledging) (.running x .completing) (s.log [.acknowledged x])
  | complete (x : AsyncTask) : Effect t s (.running x .completing) (.running x (.releasing true))
      ({ s with queue := s.queue.completed x }.log [.succeeded x])
  | finish (x : AsyncTask) (success : Bool) :
      Effect t s (.running x (.releasing success)) (.service .idle)
        ((s.release x (.thread t)).log (if success then [.ended x] else []))

/-- **An admission takes the order key, a refusal changes no place.** -/
lemma tryAdmit_keys (adm : AdmissionPolicy) (task : DeliveryTask) (now : ℤ) :
    ((adm.tryAdmit task true now).1.admitted = true ∧ task.event.key ∉ adm.activeKeys ∧
        (adm.tryAdmit task true now).2.activeKeys = task.event.key :: adm.activeKeys) ∨
      ((adm.tryAdmit task true now).1.admitted = false ∧
        (adm.tryAdmit task true now).2.activeKeys = adm.activeKeys) := by
  simp only [AdmissionPolicy.tryAdmit]
  split_ifs <;> first
    | exact Or.inr ⟨rfl, rfl⟩
    | exact Or.inl ⟨rfl, ‹_›, rfl⟩

/-- A step that stays on its task and ends no run changes no task. -/
lemma Effect.stays {pc pc' : RunPc} {s : Tasks} (h : pc' ≠ .releasing true)
    (hack : pc' = .acknowledging → s.queue.isCurrent x = true) :
    Effect t s (.running x pc) (.running x pc') s := by
  refine .quiet fun y pc hy => ?_
  cases hy
  exact ⟨h, hack, _, rfl⟩

lemma runNext_effect {jvm : ℤ} {pc : RunPc} (h : runNext cfg t s x jvm pc = some (s', p')) :
    Effect t s.tasks (.running x pc) p' s'.tasks := by
  cases pc with
  | started =>
      cases h
      exact .stays (by simp) (by simp)
  | processing q =>
      obtain ⟨ps, q', -, hcase⟩ := processStep_cases h
      cases hcase with
      | returned job hq hq' => exact .stays (by simp) (by simp)
      | failed hq' => exact .stays (by simp) (by simp)
      | goesOn hq' => exact .stays (by simp) (by simp)
  | checking =>
      cases h
      by_cases hcurrent : s.queue.isCurrent x = true
      · rw [if_pos hcurrent]
        exact .stays (by simp) fun _ => hcurrent
      · rw [if_neg hcurrent]
        exact .stays (by simp) (by simp)
  | acknowledging =>
      cases h
      exact .acknowledge x
  | completing =>
      cases h
      exact .complete x
  | releasing success =>
      cases h
      exact .finish x success

lemma runThrow_effect {jvm : ℤ} {pc : RunPc} (h : runThrow cfg t s x jvm pc = some (s', p')) :
    Effect t s.tasks (.running x pc) p' s'.tasks := by
  cases pc with
  | processing q =>
      cases h
      exact .stays (by simp) (by simp)
  | checking =>
      cases h
      exact .stays (by simp) (by simp)
  | acknowledging =>
      cases h
      exact .stays (by simp) (by simp)
  | _ => cases h

/-- **What a step does to the tasks.** -/
theorem next_effect (h : next cfg t s p a = some (s', p')) :
    Effect t s.tasks p p' s'.tasks := by
  cases next_move h with
  | service hnext => exact .quiet fun y pc hy => by cases hy
  | add task => exact .add task
  | revoke partitions => exact .revoke partitions
  | dispatch hpass => exact .dispatch hpass
  | @reject x rest now hpass hrefused =>
      rcases tryAdmit_keys s.admission (s.task x) now with ⟨hadmitted, -⟩ | ⟨-, hkeys⟩
      · rw [hadmitted] at hrefused
        cases hrefused
      · have heff : Effect t s.tasks (.service .idle) (.service .idle)
            { s.tasks with pass := rest } := .reject hpass
        simpa only [Store.tasks, hkeys] using heff
  | @tryAdmit x rest now hpass hadmitted =>
      rcases tryAdmit_keys s.admission (s.task x) now with ⟨-, hkey, hkeys⟩ | ⟨hrefused, -⟩
      · have heff := Effect.tryAdmit (t := t) (s := s.tasks) hpass hkey
          (s.admission.tryAdmit (s.task x) true now).1.retry
        have htask : (s.task x).event.key = x.key := rfl
        rw [htask] at hkeys
        simpa only [Store.tasks, Store.log, Tasks.log, hkeys] using heff
      · rw [hrefused] at hadmitted
        cases hadmitted
  | refuse hmem => exact .refuse hmem
  | execute hmem => exact .execute hmem
  | take hmem => exact .take hmem
  | run hrun => exact runNext_effect hrun
  | throw hthrow => exact runThrow_effect hthrow

/-! ### Lines -/

/-- When a step of a process in local state `p` writes the line. -/
def Line.due (s : Tasks) (p : Proc) : Line → Prop
  | .added x => x.id = s.nextTask
  | .revoked _ => True
  | .admitted x _ => x ∈ s.pass
  | .executed x => (x, .submitting) ∈ s.active
  | .acknowledged x => p = .running x .acknowledging
  | .succeeded x => p = .running x .completing
  | .ended x => p = .running x (.releasing true)

/-- A step writes at most one line. -/
lemma Effect.line {s s' : Tasks} (h : Effect t s p p' s') :
    s'.trace = s.trace ∨ ∃ line, s'.trace = s.trace ++ [line] ∧ line.due s p := by
  cases h with
  | quiet hp => exact Or.inl rfl
  | add task => exact Or.inr ⟨_, rfl, rfl⟩
  | revoke partitions => exact Or.inr ⟨_, rfl, trivial⟩
  | dispatch hpass => exact Or.inl rfl
  | reject hpass => exact Or.inl rfl
  | @tryAdmit x rest hpass hkey retry =>
      have hx : x ∈ s.pass := by
        rw [hpass]
        exact List.mem_cons_self
      exact Or.inr ⟨_, rfl, hx⟩
  | refuse hmem => exact Or.inl rfl
  | execute hmem => exact Or.inr ⟨_, rfl, hmem⟩
  | take hmem => exact Or.inl rfl
  | acknowledge x => exact Or.inr ⟨_, rfl, rfl⟩
  | complete x => exact Or.inr ⟨_, rfl, rfl⟩
  | finish x success =>
      cases success with
      | true => exact Or.inr ⟨_, rfl, rfl⟩
      | false => exact Or.inl (List.append_nil _)

/-- A line of the trace was there before, or it is due. -/
lemma Effect.mem_trace {s s' : Tasks} (h : Effect t s p p' s') {line : Line}
    (hline : line ∈ s'.trace) : line ∈ s.trace ∨ line.due s p := by
  rcases h.line with heq | ⟨l, heq, hdue⟩
  · rw [heq] at hline
    exact Or.inl hline
  · rw [heq, List.mem_append, List.mem_singleton] at hline
    rcases hline with hline | rfl
    · exact Or.inl hline
    · exact Or.inr hdue

end OrderSystem.Async
