/-
What a task holds while `WorkerDispatcher` handles it in INBOX mode, and on which exits it
gives everything back.

The code runs over the memory of one instance, and its exceptions are those of `EStateM`:
what was written before a `throw` stays written. Every call that reaches the database, the
seller or the executor ends as `Outcomes` says.

* `process`, `callPartner`, `runClaimed`, `dispatchTask`: one candidate of `dispatchInbox`,
  from its admission to the end of its delivery.
* `Balanced`: the breaker permission was used once, the admission is what it was, and the
  claim is not tracked.
* `KeepsPermission`: the exits that give the permission back nowhere. A read of the
  ledger that fails leaves `process` before the permission is used; a `giveBack` that fails
  behind a rejected execution leaves `dispatchInbox` before anything is released.
* `dispatch_balances`: a task is balanced exactly on the other exits.
-/
import OrderSystem.Partner.Admission

namespace OrderSystem.Dispatch

open Partner (DeliveryTask AdmissionPolicy Claim)

/-! ### The memory of an instance -/

/-- A call of `SellerCircuitBreakers`. -/
inductive BreakerCall where
  | tryAcquire (sellerId : String) (granted : Bool)
  | release (sellerId : String)
  | onSuccess (sellerId : String)
  | onError (sellerId : String)
  deriving DecidableEq, Repr

/-- `AdmissionPolicy`, the calls of the circuit breakers so far, and the claims
`LeaseKeeper` renews, by event id. -/
structure Instance where
  admission : AdmissionPolicy
  breakers : List BreakerCall := []
  running : List (String × Claim) := []

namespace Instance

def breaker (i : Instance) (call : BreakerCall) : Instance :=
  { i with breakers := i.breakers ++ [call] }

/-- `LeaseKeeper.track`: `running.put(eventId, claim)`. -/
def track (i : Instance) (c : Claim) : Instance :=
  { i with running := (c.eventId, c) :: i.running.filter fun x => x.1 ≠ c.eventId }

/-- `LeaseKeeper.untrack`: `running.remove(eventId, claim)`. -/
def untrack (i : Instance) (c : Claim) : Instance :=
  { i with running := i.running.filter fun x => x ≠ (c.eventId, c) }

/-- `admission.release(task)`. -/
def release (i : Instance) (task : DeliveryTask) : Instance :=
  { i with admission := i.admission.release task }

/-- `admission.markFinished(eventId)`. -/
def markFinished (i : Instance) (eventId : String) : Instance :=
  { i with admission := i.admission.markFinished eventId }

end Instance

/-! ### Outcomes -/

/-- `StaleClaimException`, or any other exception. -/
inductive Failure where
  | stale
  | other
  deriving DecidableEq, Repr

/-- `InboxRepository.ClaimAttempt`. -/
inductive ClaimAttempt where
  | sellerFull
  | taken
  | retryBudget
  | claimed (claim : Claim)
  deriving DecidableEq, Repr

/-- How the calls of one handling end. -/
structure Outcomes where
  now : ℤ
  permission : Bool
  claim : Except Failure ClaimAttempt
  executes : Bool
  giveBackRejected : Except Failure Unit
  isDelivered : Except Failure Bool
  closeClaim : Except Failure Unit
  lastSequence : Except Failure ℤ
  submit : Except Failure Unit
  record : Except Failure Unit
  giveBack : Except Failure Bool

/-- A method of one instance. -/
abbrev Java := EStateM Failure Instance

/-- The state a method leaves behind, returned or thrown. -/
def Java.after {α : Type} (m : Java α) (i : Instance) : Instance :=
  match m.run i with
  | .ok _ i' => i'
  | .error _ i' => i'

/-- A call that ends in one of the outcomes. -/
def ends {α : Type} : Except Failure α → Java α
  | .ok a => pure a
  | .error e => throw e

@[simp] lemma ends_ok_bind {α β : Type} (a : α) (f : α → Java β) :
    (ends (.ok a) >>= f) = f a := rfl

@[simp] lemma ends_error_bind {α β : Type} (e : Failure) (f : α → Java β) :
    (ends (.error e) >>= f) = throw e := rfl

@[simp] lemma after_throw {α : Type} (e : Failure) (i : Instance) :
    (throw e : Java α).after i = i := rfl

/-! ### The code -/

section Code

variable (o : Outcomes) (task : DeliveryTask)

/-- `callPartner(task, true)`: the permission is used by the result of the call. -/
def callPartner : Java Unit :=
  tryCatch (do
      ends o.submit
      modify (·.breaker (.onSuccess task.event.sellerId)))
    fun failure => do
      modify (·.breaker (.onError task.event.sellerId))
      throw failure

/-- `process(task, claim, true)`. -/
def process : Java Unit := do
  let seller := task.event.sellerId
  if ← ends o.isDelivered then
    modify (·.breaker (.release seller))
    ends o.closeClaim
  else
    let last ← ends o.lastSequence
    if last + 1 ≠ task.event.sequence then
      modify (·.breaker (.release seller))
      -- DeliveryDeferredException(PREDECESSOR_PENDING)
      throw .other
    callPartner o task
    ends o.record

/-- `runClaimed(task, claim)`. -/
def runClaimed (c : Claim) : Java Unit := do
  tryCatch (do
      process o task
      modify (·.markFinished task.event.eventId))
    fun
      | .stale => pure ()
      | .other => tryCatch (discard (ends o.giveBack)) fun _ => pure ()
  -- finally
  modify (·.untrack c)
  modify (·.release task)

/-- The claim of a candidate whose permission was granted, and what follows. -/
def claimAndRun : Java Unit := do
  let seller := task.event.sellerId
  match o.claim with
  | .error _ =>
      modify (·.breaker (.release seller))
      modify (·.release task)
  | .ok (.claimed c) =>
      modify (·.track c)
      if o.executes then runClaimed o task c
      else
        -- RejectedExecutionException
        modify (·.untrack c)
        ends o.giveBackRejected
        modify (·.breaker (.release seller))
        modify (·.release task)
  | .ok _ =>
      modify (·.breaker (.release seller))
      modify (·.release task)

/-- One candidate in the loop of `dispatchInbox`. -/
def dispatchTask : Java Unit := do
  let decision ← modifyGet fun i =>
    let r := i.admission.tryAdmitLocal task o.now
    (r.1, { i with admission := r.2 })
  if decision.admitted then
    modify (·.breaker (.tryAcquire task.event.sellerId o.permission))
    if o.permission then claimAndRun o task
    else modify (·.release task)

end Code

/-! ### What a handling gives back -/

/-- Using a permission: it is released, or the result of the call is reported. -/
inductive Use (sellerId : String) : BreakerCall → Prop
  | release : Use sellerId (.release sellerId)
  | onSuccess : Use sellerId (.onSuccess sellerId)
  | onError : Use sellerId (.onError sellerId)

/-- The calls of a handling that uses the permission it obtains exactly once. -/
inductive UsedOnce (sellerId : String) : List BreakerCall → Prop
  | untouched : UsedOnce sellerId []
  | refused : UsedOnce sellerId [.tryAcquire sellerId false]
  | used {call : BreakerCall} (h : Use sellerId call) :
      UsedOnce sellerId [.tryAcquire sellerId true, call]

variable {o : Outcomes} {task : DeliveryTask} {i j : Instance} {c : Claim} {e : Failure}

/-- The task is admitted, the breaker permits it, and its row is claimed. -/
def Outcomes.claims (o : Outcomes) (task : DeliveryTask) (i : Instance) (c : Claim) : Prop :=
  i.admission.AdmitsLocal task o.now ∧ o.permission = true ∧ o.claim = .ok (.claimed c)

/-- Everything a handling has taken is back. -/
structure Balanced (o : Outcomes) (task : DeliveryTask) (i i' : Instance) : Prop where
  permission : ∃ calls, i'.breakers = i.breakers ++ calls ∧ UsedOnce task.event.sellerId calls
  places : i.admission.SamePlaces i'.admission
  lease : ∀ c, o.claims task i c → (c.eventId, c) ∉ i'.running

/-- A read of the ledger fails before the seller is called. -/
def Outcomes.readFails (o : Outcomes) : Prop :=
  (∃ e, o.isDelivered = .error e) ∨
    (o.isDelivered = .ok false ∧ ∃ e, o.lastSequence = .error e)

/-- The exits that keep the permission. -/
def Outcomes.KeepsPermission (o : Outcomes) (task : DeliveryTask) (i : Instance) : Prop :=
  (∃ c, o.claims task i c) ∧
    if o.executes then o.readFails else ∃ e, o.giveBackRejected = .error e

/-! ### The exits of `process` -/

lemma callPartner_uses (o : Outcomes) (task : DeliveryTask) (i : Instance) :
    ∃ call, Use task.event.sellerId call ∧
      ((callPartner o task).run i = .ok () (i.breaker call) ∨
        ∃ e, (callPartner o task).run i = .error e (i.breaker call)) := by
  cases hsubmit : o.submit with
  | error e =>
      refine ⟨_, .onError, Or.inr ⟨e, ?_⟩⟩
      simp only [callPartner, hsubmit]
      rfl
  | ok _ =>
      refine ⟨_, .onSuccess, Or.inl ?_⟩
      simp only [callPartner, hsubmit]
      rfl

/-- A failed read leaves `process` with nothing used. -/
lemma process_keeps (h : o.readFails) : (process o task).after i = i := by
  rcases h with ⟨e, hdel⟩ | ⟨hdel, e, hlast⟩
  · simp [process, hdel]
  · simp [process, hdel, hlast]

/-- On every other exit `process` has used the permission once. -/
lemma process_uses (h : ¬ o.readFails) :
    ∃ call, Use task.event.sellerId call ∧ (process o task).after i = i.breaker call := by
  cases hdel : o.isDelivered with
  | error e => exact absurd (Or.inl ⟨e, hdel⟩) h
  | ok delivered =>
      cases delivered with
      | true =>
          refine ⟨_, .release, ?_⟩
          simp only [process, hdel, ends_ok_bind, if_true]
          cases o.closeClaim <;> rfl
      | false =>
          cases hlast : o.lastSequence with
          | error e => exact absurd (Or.inr ⟨hdel, e, hlast⟩) h
          | ok last =>
              by_cases hseq : last + 1 = task.event.sequence
              · obtain ⟨call, huse, hcall⟩ := callPartner_uses o task i
                refine ⟨call, huse, ?_⟩
                have hrest : process o task = callPartner o task >>= fun _ => ends o.record := by
                  simp [process, hdel, hlast, hseq]
                rw [hrest, Java.after, EStateM.run_bind]
                rcases hcall with hcall | ⟨e, hcall⟩
                · rw [hcall]
                  cases o.record <;> rfl
                · rw [hcall]
              · refine ⟨_, .release, ?_⟩
                simp only [process, hdel, hlast, ends_ok_bind, Bool.false_eq_true, if_false,
                  ne_eq, hseq, not_false_eq_true, if_true]
                rfl

/-- `runClaimed` ends the tracking and the admission on every exit of `process`. -/
lemma runClaimed_after (o : Outcomes) (task : DeliveryTask) (c : Claim) (i : Instance) :
    ∃ j, (runClaimed o task c).after i = (j.untrack c).release task ∧
      (j = (process o task).after i ∨
        j = ((process o task).after i).markFinished task.event.eventId) := by
  have hrun : (runClaimed o task c).after i =
      match (process o task).run i with
      | .ok _ j => ((j.markFinished task.event.eventId).untrack c).release task
      | .error _ j => (j.untrack c).release task := by
    rw [Java.after, runClaimed]
    simp only [tryCatch, tryCatchThe, MonadExceptOf.tryCatch, EStateM.tryCatch, EStateM.run, bind,
      EStateM.bind]
    cases (process o task) i with
    | ok _ j => rfl
    | error e j =>
        cases e with
        | stale => rfl
        | other => cases o.giveBack <;> rfl
  rw [hrun, Java.after]
  cases (process o task).run i with
  | ok _ j => exact ⟨_, rfl, Or.inr rfl⟩
  | error e j => exact ⟨_, rfl, Or.inl rfl⟩

/-! ### The exits of a handling -/

/-- The state behind the admission and the answer of the breaker. -/
def Instance.acquired (i : Instance) (task : DeliveryTask) (granted : Bool) : Instance :=
  { i with admission := i.admission.occupy task }.breaker
    (.tryAcquire task.event.sellerId granted)

/-- What a handling leaves behind. -/
inductive Handled (o : Outcomes) (task : DeliveryTask) (i : Instance) : Instance → Prop
  | refused (h : ¬ i.admission.AdmitsLocal task o.now) : Handled o task i i
  | notPermitted (h : i.admission.AdmitsLocal task o.now) (hp : o.permission = false) :
      Handled o task i ((i.acquired task false).release task)
  | notClaimed (h : i.admission.AdmitsLocal task o.now) (hc : ∀ c, ¬ o.claims task i c) :
      Handled o task i
        (((i.acquired task true).breaker (.release task.event.sellerId)).release task)
  | executed (c : Claim) (h : o.claims task i c) (he : o.executes = true) :
      Handled o task i ((runClaimed o task c).after ((i.acquired task true).track c))
  | gaveBack (c : Claim) (h : o.claims task i c) (he : o.executes = false)
      (hg : o.giveBackRejected = .ok ()) :
      Handled o task i (((((i.acquired task true).track c).untrack c).breaker
        (.release task.event.sellerId)).release task)
  | kept (c : Claim) (h : o.claims task i c) (he : o.executes = false) (e : Failure)
      (hg : o.giveBackRejected = .error e) :
      Handled o task i (((i.acquired task true).track c).untrack c)

/-- The exits behind a granted permission. -/
lemma claimAndRun_handled (h : i.admission.AdmitsLocal task o.now) (hp : o.permission = true) :
    Handled o task i ((claimAndRun o task).after (i.acquired task true)) := by
  cases hclaim : o.claim with
  | error e =>
      rw [claimAndRun, hclaim]
      refine .notClaimed h fun c hc => ?_
      have hclaimed := hc.2.2
      simp [hclaim] at hclaimed
  | ok attempt =>
      cases attempt with
      | claimed c =>
          have hc : o.claims task i c := ⟨h, hp, hclaim⟩
          cases hexec : o.executes with
          | true =>
              rw [claimAndRun, hclaim, hexec]
              exact .executed c hc hexec
          | false =>
              rw [claimAndRun, hclaim, hexec]
              cases hgive : o.giveBackRejected with
              | error e => exact .kept c hc hexec e hgive
              | ok u => exact .gaveBack c hc hexec hgive
      | _ =>
          rw [claimAndRun, hclaim]
          refine .notClaimed h fun c hc => ?_
          have hclaimed := hc.2.2
          simp [hclaim] at hclaimed

/-- **The exits of `dispatchTask`.** -/
theorem dispatchTask_handled (o : Outcomes) (task : DeliveryTask) (i : Instance) :
    Handled o task i ((dispatchTask o task).after i) := by
  have hstart : (dispatchTask o task).after i =
      (if (i.admission.tryAdmitLocal task o.now).1.admitted then do
          modify (·.breaker (.tryAcquire task.event.sellerId o.permission))
          if o.permission then claimAndRun o task else modify (·.release task)
        else pure () : Java Unit).after
          { i with admission := (i.admission.tryAdmitLocal task o.now).2 } := rfl
  rw [hstart]
  rcases @AdmissionPolicy.tryAdmitLocal_cases i.admission task o.now with
    ⟨hadmits, hadmitted, hstate⟩ | ⟨hrefused, hadmitted, hstate⟩
  · rw [hadmitted, hstate, if_pos rfl]
    cases hpermission : o.permission with
    | false => exact .notPermitted hadmits hpermission
    | true =>
        exact claimAndRun_handled hadmits hpermission
  · rw [hadmitted, hstate, if_neg (by simp)]
    exact .refused hrefused

/-- The release of an admission, whatever was called and tracked in between. -/
lemma places_release (hkey : task.event.key ∉ i.admission.activeKeys)
    (hj : j.admission = i.admission.occupy task) :
    i.admission.SamePlaces (j.release task).admission := by
  rw [Instance.release, hj, AdmissionPolicy.release_occupy hkey]
  exact .refl _

lemma not_tracked (j : Instance) (c : Claim) : (c.eventId, c) ∉ (j.untrack c).running := by
  simp [Instance.untrack]

lemma process_admission (o : Outcomes) (task : DeliveryTask) (i : Instance) :
    ((process o task).after i).admission = i.admission := by
  by_cases h : o.readFails
  · rw [process_keeps h]
  · obtain ⟨call, -, hcall⟩ : ∃ call, Use task.event.sellerId call ∧
        (process o task).after i = i.breaker call := process_uses h
    rw [hcall]
    rfl

/-- The end of `runClaimed`: the admission is released, the claim is not tracked, and the
breaker has seen the calls of `process`. -/
lemma runClaimed_gives (hkey : task.event.key ∉ i.admission.activeKeys) (c : Claim)
    (hj : j.admission = i.admission.occupy task) :
    i.admission.SamePlaces ((runClaimed o task c).after j).admission ∧
      (c.eventId, c) ∉ ((runClaimed o task c).after j).running ∧
      ((runClaimed o task c).after j).breakers = ((process o task).after j).breakers := by
  obtain ⟨k, hk, hcases⟩ := runClaimed_after o task c j
  have hadmission : ((process o task).after j).admission = i.admission.occupy task := by
    rw [process_admission, hj]
  rw [hk]
  rcases hcases with rfl | rfl
  · exact ⟨places_release hkey hadmission, not_tracked _ c, rfl⟩
  · refine ⟨?_, not_tracked _ c, rfl⟩
    have hfinished := AdmissionPolicy.release_markFinished (i.admission.occupy task) task
      task.event.eventId
    rw [AdmissionPolicy.release_occupy hkey, ← hadmission] at hfinished
    exact hfinished

/-! ### The result -/

lemma Instance.acquired_breakers (i : Instance) (task : DeliveryTask) (granted : Bool) :
    (i.acquired task granted).breakers =
      i.breakers ++ [.tryAcquire task.event.sellerId granted] := rfl

/-- A permission that was granted and not used. -/
lemma not_balanced_of_kept (h : j.breakers = (i.acquired task true).breakers) :
    ¬ Balanced o task i j := by
  rintro ⟨⟨calls, hcalls, honce⟩, -, -⟩
  rw [h, Instance.acquired_breakers] at hcalls
  have hcalls' := List.append_cancel_left hcalls
  cases honce <;> cases hcalls'

/-- A permission that was granted and used once. -/
lemma used_once {call : BreakerCall} (huse : Use task.event.sellerId call)
    (h : j.breakers = (i.acquired task true).breakers ++ [call]) :
    ∃ calls, j.breakers = i.breakers ++ calls ∧ UsedOnce task.event.sellerId calls := by
  refine ⟨[.tryAcquire task.event.sellerId true, call], ?_, .used huse⟩
  rw [h, Instance.acquired_breakers, List.append_assoc]
  rfl

/-- A task that was executed is balanced unless a read of the ledger failed. -/
lemma balanced_executed (h : o.claims task i c) :
    Balanced o task i ((runClaimed o task c).after ((i.acquired task true).track c)) ↔
      ¬ o.readFails := by
  obtain ⟨hplaces, htracked, hbreakers⟩ := runClaimed_gives (o := o) (i := i)
    (j := (i.acquired task true).track c) h.1.order c rfl
  constructor
  · intro hbalanced hfails
    refine not_balanced_of_kept ?_ hbalanced
    rw [hbreakers, process_keeps hfails]
    rfl
  · intro hreads
    obtain ⟨call, huse, hcall⟩ : ∃ call, Use task.event.sellerId call ∧
        (process o task).after ((i.acquired task true).track c) =
          ((i.acquired task true).track c).breaker call := process_uses hreads
    refine ⟨used_once huse ?_, hplaces, fun c' hc' => ?_⟩
    · rw [hbreakers, hcall]
      rfl
    · obtain rfl : c' = c := by
        have hsame := hc'.2.2.symm.trans h.2.2
        cases hsame
        rfl
      exact htracked

/-- **Dispatch resources balance exactly on the exits that use the permission.** For every
task, every outcome of the calls and every state before: the breaker permission is used
exactly once, the worker, the order key and the count of the seller are back, and the claim
is not tracked, unless the task was claimed and the ledger could not be read, or the
executor rejected it and its row could not be given back. -/
theorem dispatch_balances (o : Outcomes) (task : DeliveryTask) (i : Instance) :
    Balanced o task i ((dispatchTask o task).after i) ↔ ¬ o.KeepsPermission task i := by
  have hrelease : i.admission.AdmitsLocal task o.now → ∀ j : Instance,
      j.admission = i.admission.occupy task → i.admission.SamePlaces (j.release task).admission :=
    fun h j hj => places_release h.order hj
  have hexit := dispatchTask_handled o task i
  generalize (dispatchTask o task).after i = i' at hexit ⊢
  cases hexit with
  | refused h =>
      refine iff_of_true ⟨⟨[], by simp, .untouched⟩, .refl _, fun c hc => absurd hc.1 h⟩ ?_
      rintro ⟨⟨c, hc⟩, -⟩
      exact h hc.1
  | notPermitted h hp =>
      have hnot : ∀ c, ¬ o.claims task i c := fun c hc => by
        have hgranted := hc.2.1
        simp [hp] at hgranted
      refine iff_of_true ⟨⟨_, Instance.acquired_breakers i task false, .refused⟩,
        hrelease h _ rfl, fun c hc => absurd hc (hnot c)⟩ ?_
      rintro ⟨⟨c, hc⟩, -⟩
      exact hnot c hc
  | notClaimed h hnot =>
      refine iff_of_true ⟨used_once .release rfl, hrelease h _ rfl,
        fun c hc => absurd hc (hnot c)⟩ ?_
      rintro ⟨⟨c, hc⟩, -⟩
      exact hnot c hc
  | executed c h he =>
      rw [balanced_executed h, Outcomes.KeepsPermission, he, if_pos rfl]
      exact not_congr ⟨fun hfails => ⟨⟨c, h⟩, hfails⟩, And.right⟩
  | gaveBack c h he hg =>
      refine iff_of_true ⟨used_once .release rfl, hrelease h.1 _ rfl, fun c' hc' => ?_⟩ ?_
      · have hsame := hc'.2.2.symm.trans h.2.2
        cases hsame
        exact not_tracked _ c
      · rintro ⟨-, hkeeps⟩
        rw [he, if_neg (by simp), hg] at hkeeps
        obtain ⟨e, he'⟩ := hkeeps
        cases he'
  | kept c h he e hg =>
      refine iff_of_false (not_balanced_of_kept rfl) (not_not.mpr ⟨⟨c, h⟩, ?_⟩)
      rw [he, if_neg (by simp)]
      exact ⟨e, hg⟩

/-- A claimed task whose ledger cannot be read: the database fails in `isDelivered`. -/
def ledgerFails : Outcomes where
  now := 0
  permission := true
  claim := .ok (.claimed ⟨"e", "S", "w", 1, 1, false, false⟩)
  executes := true
  giveBackRejected := .ok ()
  isDelivered := .error .other
  closeClaim := .ok ()
  lastSequence := .ok 0
  submit := .ok ()
  record := .ok ()
  giveBack := .ok true

/-- An instance with one worker and nothing running. -/
def idleInstance : Instance where
  admission :=
    { workers := 1, sellerConcurrency := 1, finishedLimit := 10
      retryBudget := { limit := 1, windowMs := 1000 } }

/-- The first operation of an order. -/
def firstTask : DeliveryTask := { event := Partner.sampleEvent "e" 1, partition := 0, offset := 0 }

/-- The permission is kept when the ledger cannot be read. -/
theorem dispatch_keeps_permission :
    ¬ ∀ (o : Outcomes) (task : DeliveryTask) (i : Instance),
      Balanced o task i ((dispatchTask o task).after i) := by
  intro h
  obtain ⟨calls, hcalls, honce⟩ := (h ledgerFails firstTask idleInstance).permission
  rw [show ((dispatchTask ledgerFails firstTask).after idleInstance).breakers =
    [.tryAcquire "S" true] by decide +kernel] at hcalls
  cases honce <;> cases hcalls

end OrderSystem.Dispatch
