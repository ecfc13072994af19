/-
Realtime before bulk.

* `Proc.announced`, `Proc.waiting`: a realtime caller that has incremented
  `realtimeWaiters`, and one that has no slot yet besides. `Proc.passing`: a bulk caller that
  found nobody waiting and has no slot yet.
* `Overtakes`: a bulk caller reserves a slot in front of a waiting realtime caller. The look
  at the counter and the reservation are two operations; `bulk_overtakes_realtime` puts the
  announcement between them.
* `reachable_waiters`: the counter is the number of announced callers.
* `bulk_keeps_behind`: nobody is overtaken in a run in which no realtime caller announces
  itself while a bulk caller is passing; `overtakes_of_passing`: whoever waits while one is
  passing can be overtaken.
-/
import OrderSystem.Foundations.Counting
import OrderSystem.Notification.Limiter

namespace OrderSystem.Notification

open Interleaving Counting

/-! ### The callers -/

/-- The operation is one between the increment and the decrement. -/
def Pc.inside : Pc → Prop
  | .announce | .look => False
  | _ => True

/-- A realtime caller that is counted. -/
def Proc.announced : Proc → Prop
  | .acquiring .realtime pc => pc.inside
  | _ => False

/-- A realtime caller that is counted and has no slot. -/
def Proc.waiting : Proc → Prop
  | .acquiring .realtime pc => pc.choosing
  | _ => False

/-- A bulk caller that is past its look and has no slot. -/
def Proc.passing : Proc → Prop
  | .acquiring .bulk pc => pc.choosing
  | _ => False

/-- The next step of `t` reserves a slot for a bulk caller, and a realtime caller waits. -/
def Overtakes (c : Config Store Proc) (t : ℕ) : Prop :=
  (∃ reserved, c.procs t = .acquiring .bulk (.cas c.store.nextSlotNanos reserved)) ∧
    ∃ u, (c.procs u).waiting

/-- No realtime caller announces itself while a bulk caller is passing. -/
def undisturbed (c : Config Store Proc) (t : ℕ) (_ : Act) : Prop :=
  c.procs t = .acquiring .realtime .announce → ∀ u, ¬ (c.procs u).passing

variable {interval start : ℤ} {t u : ℕ} {s s' : Store} {p p' : Proc} {a : Act}
  {c : Config Store Proc} {ok : Config Store Proc → ℕ → Act → Prop}

lemma waiting_announced (h : p.waiting) : p.announced := by
  cases p with
  | idle => exact h
  | acquiring priority pc =>
      cases priority with
      | realtime => cases pc <;> trivial
      | bulk => exact h

/-! ### A bulk caller overtakes -/

/-- A bulk caller looks, a realtime caller announces itself, the bulk caller reserves. -/
def overtaking : List (ℕ × Act) :=
  [(1, .acquire .bulk), (1, .go), (2, .acquire .realtime), (2, .go), (1, .go), (1, .go)]

/-- The callers of `overtaking` before the reservation. -/
def overtakingState (c : Config Store Proc) : ℤ × Proc × Proc :=
  (c.store.nextSlotNanos, c.procs 1, c.procs 2)

theorem bulk_overtakes_realtime :
    ¬ ∀ interval start c t, Run (limiter interval) (fun _ _ _ => True) (initial start) c →
      ¬ Overtakes c t := by
  intro h
  obtain ⟨c, hrun, hc⟩ := Run.exists_of_exec (limiter 100000) (fun _ _ _ => True) (initial 0)
    overtaking overtakingState
    (0, .acquiring .bulk (.cas 0 0), .acquiring .realtime .read) (by decide +kernel)
  simp only [overtakingState, Prod.mk.injEq] at hc
  obtain ⟨hslot, hbulk, hrealtime⟩ := hc
  refine h 100000 0 c 1 hrun ⟨⟨0, by rw [hbulk, hslot]⟩, 2, ?_⟩
  rw [hrealtime]
  trivial

/-! ### The counter -/

/-- Realtime callers do not look, and bulk callers do not announce themselves. -/
def Proc.formed : Proc → Prop
  | .idle => True
  | .acquiring .realtime pc => pc ≠ .look
  | .acquiring .bulk pc => pc ≠ .announce ∧ pc ≠ .leave

/-- What a step does to the counter. -/
inductive Counted (s : Store) (p : Proc) (s' : Store) (p' : Proc) : Prop
  | same (h : s'.realtimeWaiters = s.realtimeWaiters) (hp : p'.announced ↔ p.announced)
  | enters (h : s'.realtimeWaiters = s.realtimeWaiters + 1)
      (hp : p = .acquiring .realtime .announce) (hp' : p'.announced)
  | leaves (h : s'.realtimeWaiters = s.realtimeWaiters - 1) (hp : p.announced)
      (hp' : ¬ p'.announced)

lemma next_counted (hf : p.formed) (h : next interval t s p a = some (s', p')) :
    p'.formed ∧ Counted s p s' p' := by
  cases next_move h with
  | realtime => exact ⟨by simp [Proc.formed], .same rfl (by simp [Proc.announced, Pc.inside])⟩
  | bulk => exact ⟨by simp [Proc.formed], .same rfl (by simp [Proc.announced])⟩
  | tick => exact ⟨trivial, .same rfl Iff.rfl⟩
  | announce priority =>
      cases priority with
      | realtime => exact ⟨by simp [Proc.formed], .enters rfl rfl trivial⟩
      | bulk => exact absurd rfl hf.1
  | leave priority =>
      cases priority with
      | realtime => exact ⟨trivial, .leaves rfl trivial id⟩
      | bulk => exact absurd rfl hf.2
  | wake priority =>
      cases priority <;>
        exact ⟨by simp [Proc.formed], .same rfl (by simp [Proc.announced, Pc.inside])⟩
  | wait priority h => exact ⟨hf, .same rfl Iff.rfl⟩
  | pass priority h =>
      cases priority with
      | realtime => exact absurd rfl hf
      | bulk => exact ⟨by simp [Proc.formed], .same rfl (by simp [Proc.announced])⟩
  | _ priority =>
      cases priority <;>
        exact ⟨by simp [Proc.formed], .same rfl (by simp [Proc.announced, Pc.inside])⟩

lemma reachable_formed (h : Run (limiter interval) ok (initial start) c) :
    ∀ t, (c.procs t).formed := by
  refine (Run.invariant (I := fun _ => True) (J := fun _ _ p => p.formed) (K := fun _ => True)
    (fun _ _ => trivial) ⟨trivial, fun _ => trivial⟩ ?_ ?_ h).2
  · intro c t a s' p' _ _ _ hf hnext
    exact ⟨trivial, (next_counted (t := t) (hf t) hnext).1⟩
  · intro c t a s' p' u _ _ _ hf _ _
    exact hf u

/-- **The counter is the number of announced callers.** -/
theorem reachable_waiters (h : Run (limiter interval) ok (initial start) c) :
    Census Proc.announced c.procs c.store.realtimeWaiters := by
  induction h with
  | nil => exact Census.zero fun _ => id
  | @snoc c c' t a hrun hok hstep ih =>
      obtain ⟨s', p', hnext, rfl⟩ := (limiter interval).step_eq_some hstep
      cases (next_counted (t := t) (reachable_formed hrun t) hnext).2 with
      | same heq hp =>
          rw [heq]
          exact ih.same hp
      | enters heq hp hp' =>
          rw [heq]
          exact ih.enter (by rw [hp]; exact id) hp'
      | leaves heq hp hp' =>
          rw [heq]
          exact ih.leave hp hp'

/-! ### Nobody is overtaken -/

/-- A realtime caller begins to wait with its announcement. -/
lemma next_waiting (hf : p.formed) (h : next interval t s p a = some (s', p'))
    (hwaits : p'.waiting) : p.waiting ∨ p = .acquiring .realtime .announce := by
  cases next_move h with
  | announce priority =>
      cases priority with
      | realtime => exact Or.inr rfl
      | bulk => exact absurd hwaits id
  | pass priority =>
      cases priority with
      | realtime => exact absurd rfl hf
      | bulk => exact absurd hwaits id
  | wake priority => cases priority <;> exact absurd hwaits id
  | realtime | bulk | tick | leave => exact absurd hwaits id
  | reserve priority | park priority | wait priority => cases priority <;> exact absurd hwaits id
  | read priority | clock priority | lost priority =>
      cases priority with
      | realtime => exact Or.inl trivial
      | bulk => exact absurd hwaits id

/-- A bulk caller begins to pass when it finds nobody waiting. -/
lemma next_passing (hf : p.formed) (h : next interval t s p a = some (s', p'))
    (hpasses : p'.passing) : p.passing ∨ s' = s ∧ s.realtimeWaiters ≤ 0 := by
  cases next_move h with
  | announce priority =>
      cases priority with
      | realtime => exact absurd hpasses id
      | bulk => exact absurd rfl hf.1
  | pass priority hnone => exact Or.inr ⟨rfl, hnone⟩
  | wake priority => cases priority <;> exact absurd hpasses id
  | realtime | bulk | tick | leave => exact absurd hpasses id
  | reserve priority | park priority | wait priority =>
      cases priority <;> exact absurd hpasses id
  | read priority | clock priority | lost priority =>
      cases priority with
      | realtime => exact absurd hpasses id
      | bulk => exact Or.inl trivial

/-- No bulk caller is passing while a realtime caller waits. -/
def Apart (c : Config Store Proc) : Prop :=
  ∀ t u, (c.procs t).passing → ¬ (c.procs u).waiting

/-- **Undisturbed steps keep the callers apart.** -/
theorem apart_of_undisturbed {c₁ : Config Store Proc}
    (h₁ : Run (limiter interval) (fun _ _ _ => True) (initial start) c₁) (hapart : Apart c₁)
    (h : Run (limiter interval) undisturbed c₁ c) : Apart c := by
  induction h with
  | nil => exact hapart
  | @snoc c c' t a hrun hok hstep ih =>
      obtain ⟨s', p', hnext, rfl⟩ := (limiter interval).step_eq_some hstep
      have hreach := h₁.trans (hrun.mono fun _ _ _ _ => trivial)
      have hf := reachable_formed hreach
      have hcensus := reachable_waiters hreach
      -- a caller that passes now was passing before, or found nobody announced
      have hbefore : ∀ v, (Function.update c.procs t p' v).passing →
          (c.procs v).passing ∨ v = t ∧ ∀ w, ¬ (c.procs w).announced := by
        intro v hpasses
        by_cases hv : v = t
        · subst hv
          rw [Function.update_self] at hpasses
          refine (next_passing (t := v) (hf v) hnext hpasses).imp_right fun hnone => ⟨rfl, ?_⟩
          intro w hw
          have := hcensus.pos hw
          omega
        · rw [Function.update_of_ne hv] at hpasses
          exact Or.inl hpasses
      intro v w hpasses hwaits
      dsimp only at hpasses hwaits
      by_cases hw : w = t
      · subst hw
        rw [Function.update_self] at hwaits
        rcases next_waiting (t := w) (hf w) hnext hwaits with hwaits' | hannounce
        · rcases hbefore v hpasses with hv | ⟨-, hnone⟩
          · exact ih v w hv hwaits'
          · exact hnone w (waiting_announced hwaits')
        · -- the announcement is not made while another caller is passing
          rcases hbefore v hpasses with hv | ⟨rfl, -⟩
          · exact hok hannounce v hv
          · rw [Function.update_self] at hpasses
            cases p' with
            | idle => exact hpasses
            | acquiring priority pc => cases priority <;> first | exact hpasses | exact hwaits
      · rw [Function.update_of_ne hw] at hwaits
        rcases hbefore v hpasses with hv | ⟨-, hnone⟩
        · exact ih v w hv hwaits
        · exact hnone w (waiting_announced hwaits)

/-- From the read of the shared slot a bulk caller goes on to a reservation, alone. -/
lemma overtakes_of_read {procs : ℕ → Proc} (hwaits : (procs u).waiting) (hne : u ≠ t)
    (h : Run (limiter interval) undisturbed c
      ⟨s, Function.update procs t (.acquiring .bulk .read)⟩) :
    ∃ c', Run (limiter interval) undisturbed c c' ∧ Overtakes c' t := by
  have hclock : Run (limiter interval) undisturbed c
      ⟨s, Function.update procs t (.acquiring .bulk (.clock s.nextSlotNanos))⟩ :=
    h.step_of (a := .go) (by simp [undisturbed]) rfl
  have hcas : Run (limiter interval) undisturbed c
      ⟨s, Function.update procs t
        (.acquiring .bulk (.cas s.nextSlotNanos (max s.nextSlotNanos s.nanoTime)))⟩ :=
    hclock.step_of (a := .go) (by simp [undisturbed]) rfl
  refine ⟨_, hcas, ⟨max s.nextSlotNanos s.nanoTime, Function.update_self ..⟩, u, ?_⟩
  dsimp only
  rwa [Function.update_of_ne hne]

/-- So it does from a reservation that may fail. -/
lemma overtakes_of_cas {procs : ℕ → Proc} {current reserved : ℤ} (hwaits : (procs u).waiting)
    (hne : u ≠ t) (h : Run (limiter interval) undisturbed c
      ⟨s, Function.update procs t (.acquiring .bulk (.cas current reserved))⟩) :
    ∃ c', Run (limiter interval) undisturbed c c' ∧ Overtakes c' t := by
  by_cases hcurrent : s.nextSlotNanos = current
  · subst hcurrent
    refine ⟨_, h, ⟨reserved, Function.update_self ..⟩, u, ?_⟩
    dsimp only
    rwa [Function.update_of_ne hne]
  · have hread : Run (limiter interval) undisturbed c
        ⟨s, Function.update procs t (.acquiring .bulk .read)⟩ :=
      h.step_of (a := .go) (by simp [undisturbed])
        (by simp [limiter, next, acquireNext, hcurrent])
    exact overtakes_of_read hwaits hne hread

/-- **Whoever waits while a bulk caller is passing can be overtaken by it**, without a further
announcement. -/
theorem overtakes_of_passing (hpasses : (c.procs t).passing) (hwaits : (c.procs u).waiting) :
    ∃ c', Run (limiter interval) undisturbed c c' ∧ Overtakes c' t := by
  have hne : u ≠ t := by
    rintro rfl
    cases hp : c.procs u with
    | idle =>
        rw [hp] at hwaits
        exact hwaits
    | acquiring priority pc =>
        rw [hp] at hpasses hwaits
        cases priority <;> first | exact hpasses | exact hwaits
  have hself : Run (limiter interval) undisturbed c
      ⟨c.store, Function.update c.procs t (c.procs t)⟩ := by
    rw [Function.update_eq_self]
    exact .nil
  cases hp : c.procs t with
  | idle =>
      rw [hp] at hpasses
      exact absurd hpasses id
  | acquiring priority pc =>
      rw [hp] at hpasses hself
      cases priority with
      | realtime => exact absurd hpasses id
      | bulk =>
          cases pc with
          | read => exact overtakes_of_read hwaits hne hself
          | clock current =>
              have hcas : Run (limiter interval) undisturbed c ⟨c.store, Function.update c.procs t
                  (.acquiring .bulk (.cas current (max current c.store.nanoTime)))⟩ :=
                hself.step_of (a := .go) (by simp [undisturbed]) rfl
              exact overtakes_of_cas hwaits hne hcas
          | cas current reserved => exact overtakes_of_cas hwaits hne hself
          | announce | look | sleep | leave => exact absurd hpasses id

/-! ### The result -/

lemma not_overtakes (h : Apart c) (t : ℕ) : ¬ Overtakes c t := by
  rintro ⟨⟨reserved, hbulk⟩, u, hwaits⟩
  refine h t u ?_ hwaits
  rw [hbulk]
  trivial

/-- **Bulk sends keep behind waiting realtime sends** in every run in which no realtime caller
announces itself while a bulk caller is passing; and from any state, reached in whatever way,
they keep behind in such runs exactly when nobody waits there while a bulk caller is
passing. -/
theorem bulk_keeps_behind (interval start : ℤ) :
    (∀ c t, Run (limiter interval) undisturbed (initial start) c → ¬ Overtakes c t) ∧
    ∀ c, Run (limiter interval) (fun _ _ _ => True) (initial start) c →
      ((∀ c' t, Run (limiter interval) undisturbed c c' → ¬ Overtakes c' t) ↔ Apart c) := by
  have hinit : Apart (initial start) := fun _ _ hpasses => absurd hpasses id
  refine ⟨fun c t h => not_overtakes (apart_of_undisturbed .nil hinit h) t,
    fun c h => ⟨fun hnone t u hpasses hwaits => ?_, fun hapart c' t h' =>
      not_overtakes (apart_of_undisturbed h hapart h') t⟩⟩
  obtain ⟨c', hrun, hovertakes⟩ := overtakes_of_passing hpasses hwaits
  exact hnone c' t hrun hovertakes

/-- A realtime caller announces itself and waits. -/
theorem bulk_keeps_behind_one :
    ∃ c, Run (limiter 100000) undisturbed (initial 0) c ∧ (c.procs 2).waiting ∧
      ∀ t, ¬ Overtakes c t := by
  have hinit : Run (limiter 100000) undisturbed (initial 0)
      ⟨(initial 0).store, Function.update (fun _ => .idle) 2 .idle⟩ := by
    rw [Function.update_eq_self]
    exact .nil
  have hacquire : Run (limiter 100000) undisturbed (initial 0)
      ⟨(initial 0).store, Function.update (fun _ => .idle) 2 (.acquiring .realtime .announce)⟩ :=
    hinit.step_of (a := .acquire .realtime) (by simp [undisturbed]) rfl
  have hannounce : Run (limiter 100000) undisturbed (initial 0)
      ⟨{ (initial 0).store with realtimeWaiters := 0 + 1 },
        Function.update (fun _ => .idle) 2 (.acquiring .realtime .read)⟩ := by
    refine hacquire.step_of (a := .go) (fun _ u hpasses => ?_) rfl
    dsimp only at hpasses
    by_cases hu : u = 2
    · subst hu
      rw [Function.update_self] at hpasses
      exact hpasses
    · rw [Function.update_of_ne hu] at hpasses
      exact hpasses
  exact ⟨_, hannounce, trivial, fun t => (bulk_keeps_behind 100000 0).1 _ t hannounce⟩

end OrderSystem.Notification
