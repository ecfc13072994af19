/-
Interleaved processes over a shared store.

A `Program` says what one step of one process does: it may read and write the
store and moves the process to its next local state, or it is not enabled
(`none`), which is how a statement that waits for a lock is written. A
configuration is a store with one local state per process name, and a run is
any interleaving of enabled steps.

* `Run`: the runs from a configuration all of whose steps satisfy a guard. The
  guard carries the assumptions a result makes about its environment; `Run.mono`
  weakens it. `Run.backwards` adds what the end of the run says of all its steps.
* `Run.invariant`: the rule every safety result uses. A store invariant `I`
  and a family `J` of local assertions hold along all runs once a step keeps
  `I`, establishes the assertion of the process that moves, and does not
  disturb the assertions of the others. Facts already known of all runs may be
  used in each of these.
* `Run.relate`: the same induction for a relation between the two ends of a
  run, such as "a set only grows".
* `Solo`: one process moves alone, by one action again and again.
* `Turns`, `Turns.add_rank_le`: the variant rule. A rank that every step of a process lowers, and
  that the steps of the others do not raise, bounds the steps the process can take.
* `exec`: the executable form, for runs given step by step.
-/
import Mathlib.Tactic

namespace Interleaving

/-- One step of one process: process name, store, local state and the action
chosen by the environment, to the new store and the new local state. -/
structure Program (σ π α : Type) where
  next : ℕ → σ → π → α → Option (σ × π)

/-- A store together with the local state of every process. -/
structure Config (σ π : Type) where
  store : σ
  procs : ℕ → π

variable {σ π α : Type}

namespace Program

variable (M : Program σ π α)

/-- Process `t` takes the action `a`; all other processes keep their local
state. -/
def step (c : Config σ π) (t : ℕ) (a : α) : Option (Config σ π) :=
  (M.next t c.store (c.procs t) a).map fun r => ⟨r.1, Function.update c.procs t r.2⟩

lemma step_eq_some {c c' : Config σ π} {t : ℕ} {a : α} (h : M.step c t a = some c') :
    ∃ s p, M.next t c.store (c.procs t) a = some (s, p) ∧
      c' = ⟨s, Function.update c.procs t p⟩ := by
  obtain ⟨⟨s, p⟩, hnext, rfl⟩ := Option.map_eq_some_iff.mp h
  exact ⟨s, p, hnext, rfl⟩

/-- A whole schedule, run step by step; it stops at a step that breaks the guard
`ok` or is not enabled. -/
def exec (ok : Config σ π → ℕ → α → Prop) [∀ c t a, Decidable (ok c t a)]
    (c : Config σ π) : List (ℕ × α) → Option (Config σ π)
  | [] => some c
  | (t, a) :: rest => if ok c t a then (M.step c t a).bind fun c' => exec ok c' rest else none

end Program

/-- The configurations reached from `c₀` by steps that satisfy the guard
`ok`. -/
inductive Run (M : Program σ π α) (ok : Config σ π → ℕ → α → Prop) (c₀ : Config σ π) :
    Config σ π → Prop
  | nil : Run M ok c₀ c₀
  | snoc {c c' : Config σ π} {t : ℕ} {a : α} (hrun : Run M ok c₀ c) (hok : ok c t a)
      (hstep : M.step c t a = some c') : Run M ok c₀ c'

namespace Run

variable {M : Program σ π α} {ok ok' : Config σ π → ℕ → α → Prop} {c₀ c c' : Config σ π}

/-- A run under a guard is a run under every weaker guard. -/
lemma mono (hok : ∀ c t a, ok c t a → ok' c t a) (h : Run M ok c₀ c) : Run M ok' c₀ c := by
  induction h with
  | nil => exact nil
  | snoc _ hg hs ih => exact snoc ih (hok _ _ _ hg) hs

/-- A run whose steps satisfy another guard wherever they are taken. -/
lemma mono_of {K : Config σ π → Prop} (hK : ∀ c, Run M ok c₀ c → K c)
    (hok : ∀ c c' t a, K c → ok c t a → M.step c t a = some c' → ok' c t a) (h : Run M ok c₀ c) :
    Run M ok' c₀ c := by
  induction h with
  | nil => exact nil
  | snoc hrun hg hs ih => exact snoc ih (hok _ _ _ _ (hK _ hrun) hg hs) hs

/-- What holds at the end of a run and carries over from every configuration to the one
before it holds at every step. -/
lemma backwards {P : Config σ π → Prop}
    (hback : ∀ c c' t a, Run M ok c₀ c → M.step c t a = some c' → P c' → P c)
    (h : Run M ok c₀ c) (hP : P c) : Run M (fun c t a => ok c t a ∧ P c) c₀ c := by
  induction h with
  | nil => exact nil
  | snoc hrun hg hs ih =>
      have hbefore := hback _ _ _ _ hrun hs hP
      exact snoc (ih hbefore) ⟨hg, hbefore⟩ hs

/-- Runs concatenate. -/
lemma trans (h : Run M ok c₀ c) (h' : Run M ok c c') : Run M ok c₀ c' := by
  induction h' with
  | nil => exact h
  | snoc _ hg hs ih => exact snoc ih hg hs

/-- One more step of process `t`. -/
lemma step_of {t : ℕ} {a : α} {s s' : σ} {p p' : π} {procs : ℕ → π}
    (h : Run M ok c₀ ⟨s, Function.update procs t p⟩)
    (hok : ok ⟨s, Function.update procs t p⟩ t a) (hnext : M.next t s p a = some (s', p')) :
    Run M ok c₀ ⟨s', Function.update procs t p'⟩ := by
  refine .snoc h hok (t := t) (a := a) ?_
  simp [Program.step, hnext]

/-- Processes that take no step keep their local state. -/
lemma procs_eq {k : ℕ} (h : Run M (fun _ t _ => t < k) c₀ c) {t : ℕ} (ht : k ≤ t) :
    c.procs t = c₀.procs t := by
  induction h with
  | nil => rfl
  | snoc _ hg hs ih =>
      obtain ⟨s', p', -, rfl⟩ := M.step_eq_some hs
      dsimp only
      rw [Function.update_of_ne (by omega), ih]

/-- An executed schedule is a run. -/
lemma of_exec [∀ c t a, Decidable (ok c t a)] :
    ∀ (sched : List (ℕ × α)) {c₀ : Config σ π}, M.exec ok c₀ sched = some c → Run M ok c₀ c
  | [], c₀, h => by
      cases Option.some.inj h
      exact nil
  | (t, a) :: rest, c₀, h => by
      simp only [Program.exec] at h
      split_ifs at h with hok
      obtain ⟨c₁, hstep, hrest⟩ := Option.bind_eq_some_iff.mp h
      exact trans (snoc nil hok hstep) (of_exec rest hrest)

/-- A schedule that runs through gives a run, with what its evaluation shows of the
last configuration. -/
lemma exists_of_exec {β : Type} (M : Program σ π α) (ok : Config σ π → ℕ → α → Prop)
    [∀ c t a, Decidable (ok c t a)] (c₀ : Config σ π) (sched : List (ℕ × α))
    (f : Config σ π → β) (b : β) (h : (M.exec ok c₀ sched).map f = some b) :
    ∃ c, Run M ok c₀ c ∧ f c = b := by
  obtain ⟨c, hc, hf⟩ := Option.map_eq_some_iff.mp h
  exact ⟨c, of_exec sched hc, hf⟩

/-- **The invariant rule for interleaved processes.** `I` is a property of the
store, `J t` the assertion of process `t` about the store and its own local
state. A step of `t` has to keep `I`, to establish `J t` for its new local
state, and to leave the assertion of every other process intact. `K` is
anything already known of all runs. -/
theorem invariant {I : σ → Prop} {J : ℕ → σ → π → Prop} {K : Config σ π → Prop}
    (hK : ∀ c, Run M ok c₀ c → K c)
    (hinit : I c₀.store ∧ ∀ t, J t c₀.store (c₀.procs t))
    (hown : ∀ c t a s' p', K c → ok c t a → I c.store → (∀ u, J u c.store (c.procs u)) →
      M.next t c.store (c.procs t) a = some (s', p') → I s' ∧ J t s' p')
    (hother : ∀ c t a s' p' u, K c → ok c t a → I c.store → (∀ u, J u c.store (c.procs u)) →
      M.next t c.store (c.procs t) a = some (s', p') → u ≠ t → J u s' (c.procs u))
    (h : Run M ok c₀ c) : I c.store ∧ ∀ t, J t c.store (c.procs t) := by
  induction h with
  | nil => exact hinit
  | @snoc c c' t a hrun hg hs ih =>
      obtain ⟨s', p', hnext, rfl⟩ := M.step_eq_some hs
      have hkc := hK c hrun
      obtain ⟨hI, hJ⟩ := hown c t a s' p' hkc hg ih.1 ih.2 hnext
      refine ⟨hI, fun u => ?_⟩
      by_cases hut : u = t
      · subst hut
        simpa using hJ
      · simpa [Function.update_of_ne hut] using
          hother c t a s' p' u hkc hg ih.1 ih.2 hnext hut

/-- A reflexive and transitive relation between stores that every step respects
relates the two ends of a run. -/
theorem relate {R : σ → σ → Prop} (hrefl : ∀ s, R s s)
    (htrans : ∀ s s' s'', R s s' → R s' s'' → R s s'')
    (hstep : ∀ t s p a s' p', M.next t s p a = some (s', p') → R s s')
    (h : Run M ok c₀ c) : R c₀.store c.store := by
  induction h with
  | nil => exact hrefl _
  | snoc _ _ hs ih =>
      obtain ⟨s', p', hnext, rfl⟩ := M.step_eq_some hs
      exact htrans _ _ _ ih (hstep _ _ _ _ _ _ hnext)

end Run

/-! ### One process alone -/

/-- Process `t` moves alone, by the action `a` again and again. -/
inductive Solo (M : Program σ π α) (t : ℕ) (a : α) : σ → π → σ → π → Prop
  | refl (s : σ) (p : π) : Solo M t a s p s p
  | step {s s₁ s' : σ} {p p₁ p' : π} (h : M.next t s p a = some (s₁, p₁))
      (rest : Solo M t a s₁ p₁ s' p') : Solo M t a s p s' p'

namespace Solo

variable {M : Program σ π α} {ok : Config σ π → ℕ → α → Prop} {t : ℕ} {a : α} {s s₁ s' : σ}
  {p p₁ p' : π}

lemma trans (h : Solo M t a s p s₁ p₁) (h' : Solo M t a s₁ p₁ s' p') : Solo M t a s p s' p' := by
  induction h with
  | refl => exact h'
  | step hnext _ ih => exact .step hnext (ih h')

/-- A solo that does not end at once goes on behind the next step. -/
lemma after (h : Solo M t a s p s' p') (hp : p' ≠ p) (hnext : M.next t s p a = some (s₁, p₁)) :
    Solo M t a s₁ p₁ s' p' := by
  cases h with
  | refl => exact absurd rfl hp
  | step h rest =>
      rw [hnext] at h
      cases h
      exact rest

/-- A solo ends where no step is enabled. -/
lemma stuck (h : Solo M t a s p s' p') (hnext : M.next t s p a = none) : p' = p := by
  cases h with
  | refl => rfl
  | step h rest =>
      rw [hnext] at h
      cases h

/-- A solo is a run. -/
lemma run (h : Solo M t a s p s' p') (hok : ∀ c, ok c t a) (procs : ℕ → π) :
    Run M ok ⟨s, Function.update procs t p⟩ ⟨s', Function.update procs t p'⟩ := by
  induction h with
  | refl => exact .nil
  | @step s s₁ s' p p₁ p' hnext _ ih =>
      refine Run.trans (.snoc .nil (hok _) (t := t) (a := a) ?_) ih
      rw [Program.step]
      simp [hnext]

end Solo

/-! ### The steps of one process -/

/-- A run in which process `t` takes `n` steps. -/
inductive Turns (M : Program σ π α) (ok : Config σ π → ℕ → α → Prop) (t : ℕ) (c₀ : Config σ π) :
    ℕ → Config σ π → Prop
  | nil : Turns M ok t c₀ 0 c₀
  | own {n : ℕ} {c c' : Config σ π} {a : α} (h : Turns M ok t c₀ n c) (hok : ok c t a)
      (hstep : M.step c t a = some c') : Turns M ok t c₀ (n + 1) c'
  | other {n u : ℕ} {c c' : Config σ π} {a : α} (h : Turns M ok t c₀ n c) (hut : u ≠ t)
      (hok : ok c u a) (hstep : M.step c u a = some c') : Turns M ok t c₀ n c'

namespace Turns

variable {M : Program σ π α} {ok : Config σ π → ℕ → α → Prop} {t n : ℕ} {c₀ c : Config σ π}

lemma run (h : Turns M ok t c₀ n c) : Run M ok c₀ c := by
  induction h with
  | nil => exact .nil
  | own _ hok hstep ih => exact .snoc ih hok hstep
  | other _ _ hok hstep ih => exact .snoc ih hok hstep

/-- **The variant rule.** When every step of process `t` lowers the rank and no step of another
process raises it, `t` takes no more steps than the rank it starts with. -/
theorem add_rank_le (rank : σ → π → ℕ) {K : Config σ π → Prop} (hK : ∀ c, Run M ok c₀ c → K c)
    (hown : ∀ c a s' p', K c → ok c t a → M.next t c.store (c.procs t) a = some (s', p') →
      rank s' p' < rank c.store (c.procs t))
    (hother : ∀ c u a s' p', K c → ok c u a → u ≠ t →
      M.next u c.store (c.procs u) a = some (s', p') →
      rank s' (c.procs t) ≤ rank c.store (c.procs t))
    (h : Turns M ok t c₀ n c) :
    n + rank c.store (c.procs t) ≤ rank c₀.store (c₀.procs t) := by
  induction h with
  | nil => simp
  | @own n c c' a hturns hok hstep ih =>
      obtain ⟨s', p', hnext, rfl⟩ := M.step_eq_some hstep
      have hlt := hown c a s' p' (hK c hturns.run) hok hnext
      dsimp only
      rw [Function.update_self]
      omega
  | @other n u c c' a hturns hut hok hstep ih =>
      obtain ⟨s', p', hnext, rfl⟩ := M.step_eq_some hstep
      have hle := hother c u a s' p' (hK c hturns.run) hok hut hnext
      dsimp only
      rw [Function.update_of_ne hut.symm]
      omega

end Turns

end Interleaving
