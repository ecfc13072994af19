/-
`AdmissionPolicy`: which task an instance may start now.

* `DeliveryTask`: `PartnerTask` with the counters of its delivery attempts.
* `tryAdmit`: the global worker limit, one running operation per order, the seller cap
  and the retry budget; `tryAdmitLocal` leaves the last two to the caller.
* `tryAdmitLocal_cases`: a refused task changes nothing, an admitted one occupies a
  worker, its order key and a place of its seller.
* `release_occupy`: `release` gives back exactly what an admission took.
* `SamePlaces`: two states with the same workers, order keys and seller counts taken.
-/
import OrderSystem.Partner.RetryBudget

namespace OrderSystem.Partner

/-! ### Tasks -/

/-- `PartnerTask` with its counters: `attempts` are tries of a delivery, `httpAttempts`
the calls that were started, `failures` drive the backoff. -/
structure DeliveryTask extends PartnerTask where
  attempts : ℕ := 0
  httpAttempts : ℕ := 0
  failures : ℕ := 0
  nextAt : ℤ := 0
  deriving DecidableEq, Repr

namespace DeliveryTask

def nextAttempt (task : DeliveryTask) : DeliveryTask :=
  { task with attempts := task.attempts + 1 }

def markHttpAttempt (task : DeliveryTask) : DeliveryTask :=
  { task with httpAttempts := task.httpAttempts + 1 }

def nextFailure (task : DeliveryTask) : DeliveryTask :=
  { task with failures := task.failures + 1 }

end DeliveryTask

/-! ### The policy -/

/-- `AdmissionPolicy.Reason`. -/
inductive Reason where
  | admitted
  | globalFull
  | orderBusy
  | sellerFull
  | notDue
  | finished
  | retryBudget
  deriving DecidableEq, Repr

/-- `AdmissionPolicy.Admission`. -/
structure Admission where
  admitted : Bool
  retry : Bool
  reason : Reason
  deriving DecidableEq, Repr

/-- `Admission.rejected(reason)`. -/
def Admission.rejected (reason : Reason) : Admission := ⟨false, false, reason⟩

/-- `AdmissionPolicy`. The set of keys is a list without duplicates, and a seller that
is not in the map counts 0. -/
structure AdmissionPolicy where
  workers : ℤ
  sellerConcurrency : ℤ
  finishedLimit : ℕ
  retryBudget : RollingWindowBudget
  activeKeys : List String := []
  activeSellers : String → ℤ := fun _ => 0
  finished : List String := []
  active : ℤ := 0

namespace AdmissionPolicy

variable {p : AdmissionPolicy} {task : DeliveryTask} {now : ℤ}

/-- The bookkeeping of an admission. -/
def occupy (p : AdmissionPolicy) (task : DeliveryTask) : AdmissionPolicy :=
  let seller := task.event.sellerId
  { p with active := p.active + 1
           activeKeys := task.event.key :: p.activeKeys
           activeSellers := Function.update p.activeSellers seller (p.activeSellers seller + 1) }

/-- `tryAdmit(task, sellerLimits)` with the clock at `now`. -/
def tryAdmit (p : AdmissionPolicy) (task : DeliveryTask) (sellerLimits : Bool) (now : ℤ) :
    Admission × AdmissionPolicy :=
  let seller := task.event.sellerId
  let retry : Bool := 0 < task.attempts
  if p.workers ≤ p.active then (.rejected .globalFull, p)
  else if task.event.key ∈ p.activeKeys then (.rejected .orderBusy, p)
  else if sellerLimits ∧ p.sellerConcurrency ≤ p.activeSellers seller then
    (.rejected .sellerFull, p)
  else if now < task.nextAt then (.rejected .notDue, p)
  else if task.event.eventId ∈ p.finished then (.rejected .finished, p)
  else if sellerLimits ∧ retry then
    let budget := p.retryBudget.tryAcquire seller now
    let p := { p with retryBudget := budget.2 }
    if budget.1 then (⟨true, retry, .admitted⟩, p.occupy task)
    else (.rejected .retryBudget, p)
  else (⟨true, retry, .admitted⟩, p.occupy task)

/-- `tryAdmitLocal(task)`: workers and one operation per order only. -/
def tryAdmitLocal (p : AdmissionPolicy) (task : DeliveryTask) (now : ℤ) :
    Admission × AdmissionPolicy :=
  p.tryAdmit task false now

/-- `markFinished(eventId)`. -/
def markFinished (p : AdmissionPolicy) (eventId : String) : AdmissionPolicy :=
  { p with finished := Partner.markFinished p.finishedLimit p.finished eventId }

/-- `release(task)`. -/
def release (p : AdmissionPolicy) (task : DeliveryTask) : AdmissionPolicy :=
  let seller := task.event.sellerId
  { p with active := p.active - 1
           activeKeys := p.activeKeys.filter (· ≠ task.event.key)
           activeSellers := Function.update p.activeSellers seller (p.activeSellers seller - 1) }

/-! ### What an admission takes -/

/-- The conditions under which a task is admitted locally. -/
structure AdmitsLocal (p : AdmissionPolicy) (task : DeliveryTask) (now : ℤ) : Prop where
  worker : p.active < p.workers
  order : task.event.key ∉ p.activeKeys
  due : task.nextAt ≤ now
  unfinished : task.event.eventId ∉ p.finished

/-- **A refused task changes nothing, an admitted one occupies its places.** -/
theorem tryAdmitLocal_cases :
    (p.AdmitsLocal task now ∧ (p.tryAdmitLocal task now).1.admitted = true ∧
        (p.tryAdmitLocal task now).2 = p.occupy task) ∨
      (¬ p.AdmitsLocal task now ∧ (p.tryAdmitLocal task now).1.admitted = false ∧
        (p.tryAdmitLocal task now).2 = p) := by
  simp only [tryAdmitLocal, tryAdmit, Bool.false_eq_true, false_and, if_false]
  split_ifs with hworker hkey hdue hfin
  · exact Or.inr ⟨fun h => absurd h.worker (not_lt.mpr hworker), rfl, rfl⟩
  · exact Or.inr ⟨fun h => h.order hkey, rfl, rfl⟩
  · exact Or.inr ⟨fun h => absurd h.due (not_le.mpr hdue), rfl, rfl⟩
  · exact Or.inr ⟨fun h => h.unfinished hfin, rfl, rfl⟩
  · exact Or.inl ⟨⟨not_le.mp hworker, hkey, not_lt.mp hdue, hfin⟩, rfl, rfl⟩

/-- The workers, the order keys and the seller counts of two states agree. -/
structure SamePlaces (p p' : AdmissionPolicy) : Prop where
  active : p'.active = p.active
  orderKeys : p'.activeKeys = p.activeKeys
  sellers : p'.activeSellers = p.activeSellers

lemma SamePlaces.refl (p : AdmissionPolicy) : p.SamePlaces p := ⟨rfl, rfl, rfl⟩

/-- **`release` gives back exactly what an admission took.** -/
theorem release_occupy (hkey : task.event.key ∉ p.activeKeys) : (p.occupy task).release task = p := by
  have hkeys : p.activeKeys.filter (fun k => !decide (k = task.event.key)) = p.activeKeys := by
    refine List.filter_eq_self.mpr fun k hk => ?_
    rw [Bool.not_eq_true', decide_eq_false_iff_not]
    rintro rfl
    exact hkey hk
  simp [occupy, release, hkeys]

/-- Marking the task as finished takes no place. -/
lemma release_markFinished (p : AdmissionPolicy) (task : DeliveryTask) (eventId : String) :
    (p.release task).SamePlaces ((p.markFinished eventId).release task) := ⟨rfl, rfl, rfl⟩

end AdmissionPolicy

end OrderSystem.Partner
