/-
The delivery alert of the experiments (`experiments/isolation/observer.py`).

* `Observer.judge`: what a turn of the loop makes of a sample, with the two variables the loop
  carries.
* `verdict`: the rule itself. A sample without a fresh snapshot is `UNKNOWN`, one without an overdue
  operation `NORMAL`; an overdue one is judged by the sample before it.
* `Observer.judge_eq`: the loop follows the rule, so an alert depends on two samples and on nothing
  before them.
-/
import OrderSystem.Delivery.Backlog

namespace OrderSystem.Experiments

open Delivery (Signal)

/-! ### The loop -/

/-- `STALE_MS`. -/
def staleMs : ℤ := 3000

/-- `alert` of a sample. -/
inductive Alert where
  | unknown
  | alert
  | normal
  deriving DecidableEq, Repr

/-- A sample: when it was taken, and the signal unless the request failed. -/
structure Sample where
  time : ℤ
  source : Option Signal
  deriving DecidableEq, Repr

namespace Sample

/-- `valid`: there is a signal, and its snapshot is not stale. -/
def valid (s : Sample) : Bool :=
  s.source.any fun source => s.time - source.snapshotAt ≤ staleMs

/-- `overdue`: the sum over the sellers is positive. -/
def overdue (s : Sample) : Bool :=
  s.source.any fun source => 0 < (source.sellers.map fun v => v.2.overdue).sum

end Sample

/-- `previous_overdue` and `previous_state`. -/
structure Observer where
  previousOverdue : Bool := false
  previousState : Option Alert := none
  deriving DecidableEq, Repr

/-- The alert of a sample, and what the next turn starts with. -/
def Observer.judge (o : Observer) (s : Sample) : Alert × Observer :=
  if s.valid then
    let state : Alert :=
      if s.overdue ∧ o.previousOverdue then .alert
      else if s.overdue ∧ o.previousState = some .unknown then .unknown
      else .normal
    (state, ⟨s.overdue, some state⟩)
  else (.unknown, ⟨false, some .unknown⟩)

/-! ### The rule -/

/-- The alert of an overdue sample behind the sample `last`. -/
def confirmed : Option Sample → Alert
  | none => .normal
  | some last =>
      if last.valid = false then .unknown else if last.overdue then .alert else .normal

/-- The alert of a sample behind the sample `last`. -/
def verdict (last : Option Sample) (s : Sample) : Alert :=
  if s.valid = false then .unknown else if s.overdue = false then .normal else confirmed last

/-- What the two variables say of the sample before. When that one was overdue, the state does
not matter. -/
structure Observer.Follows (o : Observer) (last : Option Sample) : Prop where
  overdue : o.previousOverdue = last.any fun l => l.valid && l.overdue
  unknown : ∀ l ∈ last, l.valid = false → o.previousState = some .unknown
  known : (∀ l ∈ last, l.valid = true ∧ l.overdue = false) → o.previousState ≠ some .unknown

lemma Observer.follows_none : ({} : Observer).Follows none where
  overdue := rfl
  unknown := by simp
  known := by simp

variable {o : Observer} {last : Option Sample}

/-- An overdue sample, by the variables and by the sample before. -/
lemma Observer.Follows.confirmed_eq (h : o.Follows last) :
    (if o.previousOverdue then .alert
      else if o.previousState = some .unknown then .unknown else .normal) = confirmed last := by
  cases last with
  | none => simp [h.overdue, h.known, confirmed]
  | some l =>
      cases hvalid : l.valid with
      | false => simp [h.overdue, h.unknown l rfl hvalid, hvalid, confirmed]
      | true =>
          cases hoverdue : l.overdue with
          | false =>
              have hknown : o.previousState ≠ some .unknown :=
                h.known fun _ hl => by cases hl; exact ⟨hvalid, hoverdue⟩
              simp [h.overdue, hknown, hvalid, hoverdue, confirmed]
          | true => simp [h.overdue, hvalid, hoverdue, confirmed]

/-- **The loop follows the rule.** -/
lemma Observer.judge_eq (h : o.Follows last) (s : Sample) :
    (o.judge s).1 = verdict last s ∧ (o.judge s).2.Follows (some s) := by
  cases hvalid : s.valid with
  | false =>
      rw [Observer.judge, verdict, if_pos hvalid]
      simp only [hvalid, Bool.false_eq_true, if_false]
      exact ⟨trivial, by simp [hvalid], by simp, by simp [hvalid]⟩
  | true =>
      rw [Observer.judge, verdict, if_pos hvalid, ← h.confirmed_eq]
      cases hoverdue : s.overdue with
      | false => exact ⟨by simp [hvalid], by simp [hvalid, hoverdue], by simp [hvalid], by simp⟩
      | true =>
          exact ⟨by simp [hvalid], by simp [hvalid, hoverdue], by simp [hvalid], by simp [hoverdue]⟩

end OrderSystem.Experiments
