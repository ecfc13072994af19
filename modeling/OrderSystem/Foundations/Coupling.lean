/-
A system inside another one, and two systems side by side.

* `Config.view`: what a part of a configuration looks like on its own.
* `Run.view`: when every step of a system is a step of its part or leaves the part
  alone, the view of a run is a run, so that what holds of all runs of the part holds
  of it inside the whole.
* `couple` runs two programs over a pair of stores. Every process has a local state
  in each of them, and an action belongs to one of the two. An action of the first
  program can carry one of the second along (`sync`), as when a record that one
  service publishes appears in the topic another one reads.
* `Run.fst`, `Run.snd`: a run of the coupled system is a run of each of the two.
* `Run.inl`, `Run.inr`: a run of one of the two is a run of the coupled system, when the
  second one can follow the actions the first one carries along.
-/
import OrderSystem.Foundations.Interleaving

namespace Interleaving

variable {σ σ₁ σ₂ π π₁ π₂ α α₁ α₂ : Type}

/-! ### Views -/

/-- The part of a configuration that `f` sees of the store and `g` of the processes. -/
def Config.view (f : σ → σ₁) (g : π → π₁) (c : Config σ π) : Config σ₁ π₁ :=
  ⟨f c.store, fun t => g (c.procs t)⟩

lemma Config.view_update (f : σ → σ₁) (g : π → π₁) (c : Config σ π) (t : ℕ) (s : σ) (p : π) :
    Config.view f g ⟨s, Function.update c.procs t p⟩ =
      ⟨f s, Function.update (c.view f g).procs t (g p)⟩ := by
  refine congrArg (Config.mk (f s)) (funext fun u => ?_)
  by_cases hu : u = t
  · subst hu
    simp
  · simp [Config.view, hu]

/-- **The view of a run is a run** when every step is a step of the part or leaves the
part alone. -/
theorem Run.view {M : Program σ π α} {N : Program σ₁ π₁ α₁} {ok : Config σ π → ℕ → α → Prop}
    {ok₁ : Config σ₁ π₁ → ℕ → α₁ → Prop} {f : σ → σ₁} {g : π → π₁} {c₀ c : Config σ π}
    (hstep : ∀ c t a s' p', ok c t a → M.next t c.store (c.procs t) a = some (s', p') →
      (f s' = f c.store ∧ g p' = g (c.procs t)) ∨
        ∃ b, ok₁ (c.view f g) t b ∧
          N.next t (f c.store) (g (c.procs t)) b = some (f s', g p'))
    (h : Run M ok c₀ c) : Run N ok₁ (c₀.view f g) (c.view f g) := by
  induction h with
  | nil => exact .nil
  | @snoc c c' t a hrun hg hs ih =>
      obtain ⟨s', p', hnext, rfl⟩ := M.step_eq_some hs
      rw [Config.view_update]
      rcases hstep c t a s' p' hg hnext with ⟨hf, hp⟩ | ⟨b, hb, hnext'⟩
      · rw [hf, hp]
        have hself : Function.update (c.view f g).procs t (g (c.procs t)) = (c.view f g).procs :=
          Function.update_eq_self t (c.view f g).procs
        rw [hself]
        exact ih
      · refine .snoc ih hb (t := t) (a := b) ?_
        exact Option.map_eq_some_iff.mpr ⟨_, hnext', rfl⟩

/-! ### Two systems -/

/-- The view of the first system. -/
def Config.fst (c : Config (σ₁ × σ₂) (π₁ × π₂)) : Config σ₁ π₁ :=
  ⟨c.store.1, fun t => (c.procs t).1⟩

/-- The view of the second system. -/
def Config.snd (c : Config (σ₁ × σ₂) (π₁ × π₂)) : Config σ₂ π₂ :=
  ⟨c.store.2, fun t => (c.procs t).2⟩

/-- Two configurations side by side. -/
def Config.pair (c₁ : Config σ₁ π₁) (c₂ : Config σ₂ π₂) : Config (σ₁ × σ₂) (π₁ × π₂) :=
  ⟨(c₁.store, c₂.store), fun t => (c₁.procs t, c₂.procs t)⟩

namespace Program

/-- The coupled system; an action `a` of the first program in store `s` carries the
action `sync s a` of the second one along. -/
def couple (M : Program σ₁ π₁ α₁) (N : Program σ₂ π₂ α₂) (sync : σ₁ → α₁ → Option α₂) :
    Program (σ₁ × σ₂) (π₁ × π₂) (α₁ ⊕ α₂) where
  next t s p
    | .inl a => (M.next t s.1 p.1 a).bind fun r =>
        match sync s.1 a with
        | none => some ((r.1, s.2), (r.2, p.2))
        | some b => (N.next t s.2 p.2 b).map fun q => ((r.1, q.1), (r.2, q.2))
    | .inr b => (N.next t s.2 p.2 b).map fun q => ((s.1, q.1), (p.1, q.2))

variable {M : Program σ₁ π₁ α₁} {N : Program σ₂ π₂ α₂} {sync : σ₁ → α₁ → Option α₂}
  {t : ℕ} {s : σ₁ × σ₂} {p : π₁ × π₂} {r : (σ₁ × σ₂) × (π₁ × π₂)}

/-- A step of the first program, alone or with the second. -/
lemma couple_inl {a : α₁} (h : (M.couple N sync).next t s p (.inl a) = some r) :
    M.next t s.1 p.1 a = some (r.1.1, r.2.1) ∧
      ((sync s.1 a = none ∧ r.1.2 = s.2 ∧ r.2.2 = p.2) ∨
        ∃ b, sync s.1 a = some b ∧ N.next t s.2 p.2 b = some (r.1.2, r.2.2)) := by
  obtain ⟨r₁, hr₁, h⟩ := Option.bind_eq_some_iff.mp h
  cases hsync : sync s.1 a with
  | none =>
      rw [hsync] at h
      cases h
      exact ⟨hr₁, Or.inl ⟨rfl, rfl, rfl⟩⟩
  | some b =>
      rw [hsync] at h
      obtain ⟨q, hq, rfl⟩ := Option.map_eq_some_iff.mp h
      exact ⟨hr₁, Or.inr ⟨b, rfl, hq⟩⟩

/-- A step of the second program alone. -/
lemma couple_inr {b : α₂} (h : (M.couple N sync).next t s p (.inr b) = some r) :
    N.next t s.2 p.2 b = some (r.1.2, r.2.2) ∧ r.1.1 = s.1 ∧ r.2.1 = p.1 := by
  obtain ⟨q, hq, rfl⟩ := Option.map_eq_some_iff.mp h
  exact ⟨hq, rfl, rfl⟩

end Program

/-! ### The two views of a run -/

section Runs

variable {M : Program σ₁ π₁ α₁} {N : Program σ₂ π₂ α₂} {sync : σ₁ → α₁ → Option α₂}
  {ok : Config (σ₁ × σ₂) (π₁ × π₂) → ℕ → α₁ ⊕ α₂ → Prop}
  {ok₁ : Config σ₁ π₁ → ℕ → α₁ → Prop} {ok₂ : Config σ₂ π₂ → ℕ → α₂ → Prop}
  {c₀ c : Config (σ₁ × σ₂) (π₁ × π₂)}

/-- The steps of the first system in a coupled run. -/
theorem Run.fst (hok : ∀ c t a, ok c t (.inl a) → ok₁ c.fst t a)
    (h : Run (M.couple N sync) ok c₀ c) : Run M ok₁ c₀.fst c.fst := by
  refine Run.view (f := Prod.fst) (g := Prod.fst) (fun c t a s' p' hg hnext => ?_) h
  cases a with
  | inl a => exact Or.inr ⟨a, hok c t a hg, (Program.couple_inl hnext).1⟩
  | inr b => exact Or.inl (Program.couple_inr hnext).2

/-- The steps of the second system in a coupled run. -/
theorem Run.snd (hsync : ∀ c t a b, ok c t (.inl a) → sync c.store.1 a = some b → ok₂ c.snd t b)
    (hok : ∀ c t b, ok c t (.inr b) → ok₂ c.snd t b)
    (h : Run (M.couple N sync) ok c₀ c) : Run N ok₂ c₀.snd c.snd := by
  refine Run.view (f := Prod.snd) (g := Prod.snd) (fun c t a s' p' hg hnext => ?_) h
  cases a with
  | inl a =>
      rcases (Program.couple_inl hnext).2 with ⟨-, hkept⟩ | ⟨b, hb, hnext'⟩
      · exact Or.inl hkept
      · exact Or.inr ⟨b, hsync c t a b hg hb, hnext'⟩
  | inr b => exact Or.inr ⟨b, hok c t b hg, (Program.couple_inr hnext).1⟩

/-- The processes of two configurations side by side, after a step of one of them. -/
lemma Config.pair_update (c₁ : Config σ₁ π₁) (c₂ : Config σ₂ π₂) (t : ℕ) (p₁ : π₁) (p₂ : π₂) :
    Function.update (Config.pair c₁ c₂).procs t (p₁, p₂) =
      fun u => (Function.update c₁.procs t p₁ u, Function.update c₂.procs t p₂ u) := by
  refine funext fun u => ?_
  by_cases hu : u = t
  · subst hu
    simp
  · simp [Config.pair, hu]

/-- The second system runs while the first one stands. -/
theorem Run.inr {c₁ : Config σ₁ π₁} {d d' : Config σ₂ π₂}
    (hok : ∀ d t b, ok₂ d t b → ok (Config.pair c₁ d) t (.inr b)) (h : Run N ok₂ d d') :
    Run (M.couple N sync) ok (Config.pair c₁ d) (Config.pair c₁ d') := by
  induction h with
  | nil => exact .nil
  | @snoc d' d'' t b hrun hg hs ih =>
      obtain ⟨s', p', hnext, rfl⟩ := N.step_eq_some hs
      refine .snoc ih (hok d' t b hg) ?_
      simp only [Program.step, Program.couple, Config.pair, hnext, Option.map_some]
      have hprocs := Config.pair_update c₁ d' t (c₁.procs t) p'
      rw [Function.update_eq_self] at hprocs
      exact congrArg (fun procs => some (Config.mk (c₁.store, s') procs)) hprocs

/-- The first system runs, and the second one follows what is carried along. -/
theorem Run.inl {K : Config σ₂ π₂ → Prop} {c₁ c₁' : Config σ₁ π₁} {d : Config σ₂ π₂}
    (hok : ∀ c d t a, ok₁ c t a → K d → ok (Config.pair c d) t (.inl a))
    (hsync : ∀ c d t a b, ok₁ c t a → sync c.store a = some b → K d →
      ∃ d', N.step d t b = some d' ∧ K d')
    (h : Run M ok₁ c₁ c₁') (hd : K d) :
    ∃ d', K d' ∧ Run (M.couple N sync) ok (Config.pair c₁ d) (Config.pair c₁' d') := by
  induction h with
  | nil => exact ⟨d, hd, .nil⟩
  | @snoc c c' t a hrun hg hs ih =>
      obtain ⟨d₁, hd₁, hpair⟩ := ih
      obtain ⟨s', p', hnext, rfl⟩ := M.step_eq_some hs
      cases hcarried : sync c.store a with
      | none =>
          refine ⟨d₁, hd₁, .snoc hpair (hok c d₁ t a hg hd₁) ?_⟩
          simp only [Program.step, Program.couple, Config.pair, hnext, Option.bind_some, hcarried,
            Option.map_some]
          have hprocs := Config.pair_update c d₁ t p' (d₁.procs t)
          rw [Function.update_eq_self] at hprocs
          exact congrArg (fun procs => some (Config.mk (s', d₁.store) procs)) hprocs
      | some b =>
          obtain ⟨d₂, hstep₂, hd₂⟩ := hsync c d₁ t a b hg hcarried hd₁
          obtain ⟨s₂, p₂, hnext₂, rfl⟩ := N.step_eq_some hstep₂
          refine ⟨_, hd₂, .snoc hpair (hok c d₁ t a hg hd₁) ?_⟩
          simp only [Program.step, Program.couple, Config.pair, hnext, Option.bind_some, hcarried,
            hnext₂, Option.map_some]
          exact congrArg (fun procs => some (Config.mk (s', s₂) procs))
            (Config.pair_update c d₁ t p' p₂)

end Runs

end Interleaving
