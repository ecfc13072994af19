/-
Counting the entries of a list group by group, and the processes in a local state.

* `countP_eq_sum`: a count is the sum of the counts in the groups.
* `countP_le_of_groups`: a bound between two counts that holds in every group holds
  of the whole list.
* `Census`: the number of processes whose local state satisfies a predicate; it changes with
  the process that moves.
-/
import Mathlib.Tactic

namespace Counting

variable {α κ : Type} [DecidableEq κ]

/-- A count is the sum of the counts in the groups `f` makes. -/
lemma countP_eq_sum (f : α → κ) (P : α → Bool) (l : List α) (groups : Finset κ)
    (h : ∀ x ∈ l, f x ∈ groups) :
    l.countP P = ∑ k ∈ groups, l.countP fun x => f x = k ∧ P x := by
  induction l with
  | nil => simp
  | cons x l ih =>
      have hx : f x ∈ groups := h x List.mem_cons_self
      simp only [List.countP_cons]
      rw [Finset.sum_add_distrib, ← ih fun y hy => h y (List.mem_cons_of_mem _ hy)]
      refine congrArg (l.countP P + ·) ?_
      cases hP : P x with
      | false => simp
      | true => simp [hx]

/-- **A bound in every group is a bound of the whole.** -/
theorem countP_le_of_groups (f : α → κ) {P Q : α → Bool} {c : ℕ} {l : List α}
    (h : ∀ k, (l.countP fun x => f x = k ∧ P x) ≤ c * l.countP fun x => f x = k ∧ Q x) :
    l.countP P ≤ c * l.countP Q := by
  have hmem : ∀ x ∈ l, f x ∈ (l.map f).toFinset := by
    intro x hx
    exact List.mem_toFinset.mpr (List.mem_map_of_mem hx)
  calc l.countP P
      = ∑ k ∈ (l.map f).toFinset, l.countP fun x => f x = k ∧ P x :=
        countP_eq_sum f P l _ hmem
    _ ≤ ∑ k ∈ (l.map f).toFinset, c * l.countP fun x => f x = k ∧ Q x :=
        Finset.sum_le_sum fun k _ => h k
    _ = c * ∑ k ∈ (l.map f).toFinset, l.countP fun x => f x = k ∧ Q x := by
        rw [Finset.mul_sum]
    _ = c * l.countP Q := by rw [← countP_eq_sum f Q l _ hmem]

/-! ### Processes -/

/-- Exactly `n` processes satisfy `P`. -/
def Census {π : Type} (P : π → Prop) (procs : ℕ → π) (n : ℤ) : Prop :=
  ∃ who : Finset ℕ, (∀ t, t ∈ who ↔ P (procs t)) ∧ n = who.card

namespace Census

variable {π : Type} {P : π → Prop} {procs : ℕ → π} {n : ℤ} {t : ℕ} {p : π}

lemma zero (h : ∀ t, ¬ P (procs t)) : Census P procs 0 :=
  ⟨∅, fun t => by simp [h t], rfl⟩

lemma pos (h : Census P procs n) (ht : P (procs t)) : 0 < n := by
  obtain ⟨who, hwho, rfl⟩ := h
  exact_mod_cast Finset.card_pos.mpr ⟨t, (hwho t).mpr ht⟩

lemma same (h : Census P procs n) (hp : P p ↔ P (procs t)) :
    Census P (Function.update procs t p) n := by
  obtain ⟨who, hwho, hn⟩ := h
  refine ⟨who, fun u => ?_, hn⟩
  by_cases hu : u = t
  · subst hu
    rw [Function.update_self, hp]
    exact hwho u
  · rw [Function.update_of_ne hu]
    exact hwho u

lemma enter (h : Census P procs n) (hout : ¬ P (procs t)) (hp : P p) :
    Census P (Function.update procs t p) (n + 1) := by
  obtain ⟨who, hwho, rfl⟩ := h
  have hnot : t ∉ who := fun ht => hout ((hwho t).mp ht)
  refine ⟨insert t who, fun u => ?_, by simp [hnot]⟩
  by_cases hu : u = t
  · subst hu
    simp [hp]
  · rw [Function.update_of_ne hu, Finset.mem_insert, or_iff_right hu]
    exact hwho u

lemma leave (h : Census P procs n) (hin : P (procs t)) (hp : ¬ P p) :
    Census P (Function.update procs t p) (n - 1) := by
  obtain ⟨who, hwho, rfl⟩ := h
  have hmem : t ∈ who := (hwho t).mpr hin
  refine ⟨who.erase t, fun u => ?_, ?_⟩
  · by_cases hu : u = t
    · subst hu
      simp [hp]
    · rw [Function.update_of_ne hu, Finset.mem_erase, and_iff_right hu]
      exact hwho u
  · have := Finset.card_pos.mpr ⟨t, hmem⟩
    rw [Finset.card_erase_of_mem hmem]
    omega

end Census

end Counting
