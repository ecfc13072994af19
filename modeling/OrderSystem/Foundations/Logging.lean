/-
A program together with what its steps say.

* `Program.logged`: the program, with a log beside its store. A step appends what `out` says of it
  and does nothing else with the log.
* `Run.unlogged`, `Run.logged`: the runs of a program and of its logged version are the same, so a
  result about the log is a result about every run of the program.
-/
import OrderSystem.Foundations.Interleaving

namespace Interleaving

variable {σ π α β : Type}

/-- The program with a log of what its steps say. -/
def Program.logged (M : Program σ π α) (out : σ → π → α → List β) :
    Program (σ × List β) π α where
  next t s p a := (M.next t s.1 p a).map fun r => ((r.1, s.2 ++ out s.1 p a), r.2)

/-- The configuration without the log. -/
def Config.unlogged (c : Config (σ × List β) π) : Config σ π :=
  ⟨c.store.1, c.procs⟩

/-- The configuration with a log. -/
def Config.logged (c : Config σ π) (log : List β) : Config (σ × List β) π :=
  ⟨(c.store, log), c.procs⟩

/-- A guard that does not look at the log. -/
def unlogged (ok : Config σ π → ℕ → α → Prop) (c : Config (σ × List β) π) (t : ℕ) (a : α) :
    Prop :=
  ok c.unlogged t a

instance (ok : Config σ π → ℕ → α → Prop) [∀ c t a, Decidable (ok c t a)]
    (c : Config (σ × List β) π) (t : ℕ) (a : α) : Decidable (unlogged ok c t a) :=
  inferInstanceAs (Decidable (ok c.unlogged t a))

variable {M : Program σ π α} {out : σ → π → α → List β} {ok : Config σ π → ℕ → α → Prop}

/-- A step of the logged program is a step of the program. -/
lemma Program.logged_next {t : ℕ} {s s' : σ × List β} {p p' : π} {a : α} :
    (M.logged out).next t s p a = some (s', p') ↔
      M.next t s.1 p a = some (s'.1, p') ∧ s'.2 = s.2 ++ out s.1 p a := by
  constructor
  · intro h
    obtain ⟨r, hr, h⟩ := Option.map_eq_some_iff.mp h
    cases h
    exact ⟨hr, rfl⟩
  · rintro ⟨h, hlog⟩
    exact Option.map_eq_some_iff.mpr ⟨_, h, by rw [← hlog]⟩

/-- Without its log, a run is a run of the program. -/
theorem Run.unlogged {c₀ c : Config (σ × List β) π}
    (h : Run (M.logged out) (unlogged ok) c₀ c) : Run M ok c₀.unlogged c.unlogged := by
  induction h with
  | nil => exact .nil
  | @snoc c c' t a _ hok hstep ih =>
      obtain ⟨s', p', hnext, rfl⟩ := (M.logged out).step_eq_some hstep
      refine .snoc ih hok (t := t) (a := a) ?_
      have hnext := (Program.logged_next.mp hnext).1
      simp only [Program.step, Config.unlogged, hnext, Option.map_some]

/-- Every run of the program has a log. -/
theorem Run.logged {c₀ c : Config σ π} (h : Run M ok c₀ c) (log : List β) :
    ∃ log', Run (M.logged out) (Interleaving.unlogged ok) (c₀.logged log) (c.logged log') := by
  induction h with
  | nil => exact ⟨log, .nil⟩
  | @snoc c c' t a _ hok hstep ih =>
      obtain ⟨log', hrun⟩ := ih
      obtain ⟨s', p', hnext, rfl⟩ := M.step_eq_some hstep
      refine ⟨log' ++ out c.store (c.procs t) a, .snoc hrun hok (t := t) (a := a) ?_⟩
      simp only [Program.step, Program.logged, Config.logged, hnext, Option.map_some]

end Interleaving
