/-
Logs that are read in order and may get a record put back at their end.

* `Settled D log n`: what was read below position `n` is dealt with; `D i x` says that
  the record `x` at position `i` is.
* `Again`: the record stands in the log once more, further up.
* `remains`: when every record below a position is done or stands in the log again, a
  record that is not done stands at or above the position.
-/
import Mathlib.Tactic

namespace Requeue

variable {α : Type} {D E : ℕ → α → Prop} {P : α → Prop} {log log' : List α} {n i : ℕ} {x : α}

/-- The records below position `n` are dealt with. -/
def Settled (D : ℕ → α → Prop) (log : List α) (n : ℕ) : Prop :=
  n ≤ log.length ∧ ∀ i < n, ∀ x, log[i]? = some x → D i x

namespace Settled

lemma zero : Settled D log 0 :=
  ⟨Nat.zero_le _, fun _ hi => absurd hi (Nat.not_lt_zero _)⟩

/-- Records stay dealt with while the log grows. -/
lemma carry (h : Settled D log n) (hlog : log <+: log')
    (hDE : ∀ i x, log[i]? = some x → D i x → E i x) : Settled E log' n := by
  refine ⟨h.1.trans hlog.length_le, fun i hi x hx => ?_⟩
  have hlt : i < log.length := by
    have := h.1
    omega
  have hx' : log[i]? = some x := by
    rw [← hx, List.getElem?_eq_getElem hlt, List.prefix_iff_getElem?.mp hlog i hlt]
  exact hDE i x hx' (h.2 i hi x hx')

lemma later (h : Settled D log n) (hlog : log <+: log') (hDE : ∀ i x, D i x → E i x) :
    Settled E log' n :=
  h.carry hlog fun i x _ => hDE i x

/-- The record at the position is dealt with, and the position moves over it. -/
lemma advance (h : Settled D log n) (hx : log[n]? = some x) (hD : D n x) :
    Settled D log (n + 1) := by
  refine ⟨(List.getElem?_eq_some_iff.mp hx).1, fun i hi y hy => ?_⟩
  rcases Nat.lt_succ_iff_lt_or_eq.mp hi with hi | rfl
  · exact h.2 i hi y hy
  · obtain rfl := Option.some.inj (hx.symm.trans hy)
    exact hD

end Settled

/-- The record stands in the log again, behind position `i`. -/
def Again (log : List α) (i : ℕ) (x : α) : Prop :=
  ∃ j, i < j ∧ log[j]? = some x

lemma getElem?_of_isPrefix (hlog : log <+: log') (hx : log[i]? = some x) : log'[i]? = some x := by
  obtain ⟨hi, rfl⟩ := List.getElem?_eq_some_iff.mp hx
  exact List.prefix_iff_getElem?.mp hlog i hi

lemma Again.later (h : Again log i x) (hlog : log <+: log') : Again log' i x := by
  obtain ⟨j, hj, hx⟩ := h
  exact ⟨j, hj, getElem?_of_isPrefix hlog hx⟩

/-- A record put at the end of the log stands behind every position of it. -/
lemma Again.concat (hi : i < log.length) (x : α) : Again (log ++ [x]) i x :=
  ⟨log.length, hi, by simp⟩

/-- **A record that is not done remains to be read** when the records below the position
are done or put back: the last one of its kind stands at or above the position. -/
theorem remains (h : Settled (fun i x => P x ∨ Again log i x) log n) (hx : x ∈ log)
    (hP : ¬ P x) : ∃ j, n ≤ j ∧ log[j]? = some x := by
  obtain ⟨i, hi⟩ := List.mem_iff_getElem?.mp hx
  -- the distance to the end of the log decreases
  induction hd : log.length - i using Nat.strong_induction_on generalizing i with
  | _ d ih =>
      by_cases hn : n ≤ i
      · exact ⟨i, hn, hi⟩
      · rcases h.2 i (not_le.mp hn) x hi with hdone | ⟨j, hij, hj⟩
        · exact absurd hdone hP
        · have hlt : j < log.length := (List.getElem?_eq_some_iff.mp hj).1
          exact ih (log.length - j) (by omega) j hj rfl

end Requeue
