/-
The call counter of the bucket consumer (`ParallelConsumerRunner.processUnderPolicy`).

* `processUnderPolicy`, `process`, `callPartner`: one invocation over the memory of an
  instance. The exceptions are those of `EStateM`: what was written before a `throw` stays
  written. Every call that reaches the database, the breaker or the seller ends as `Outcomes`
  says.
* `Invoked`: the exits of an invocation, with what it leaves in `httpAttempts`.
* `calls`: the partner calls of an event since its last normal return, counted from the
  traces.
* `attempts_exact_iff`: the counter holds exactly these calls, and the retry budget is asked
  exactly for the events with an entry, at every point of a run in which no invocation `Slips`:
  one that delivers its event by a call removes the entry and writes it back behind the
  `return`, and a full `int` counts no further call.
-/
import OrderSystem.Dispatch.Worker
import OrderSystem.Orders.Database
import OrderSystem.Partner.RetryBudget

namespace OrderSystem.Bucket

open Dispatch (BreakerCall)
open Orders (javaInt javaInt_eq)
open Partner (ParallelConsumerRunner)

/-! ### The memory of an instance -/

/-- `DeliveryDeferredException.Reason`. -/
inductive Reason where
  | predecessorPending
  | circuitOpen
  deriving DecidableEq, Repr

/-- A `DeliveryDeferredException`, or any other exception. -/
inductive Failure where
  | deferred (reason : Reason) (message : String)
  | other (message : String)
  deriving DecidableEq, Repr

/-- What an invocation does outside the memory. -/
inductive Note where
  | breaker (call : BreakerCall)
  | asked (granted : Bool)
  | submit
  deriving DecidableEq, Repr

/-- The two maps of the runner, `httpAttempts` of the task, and the trace of the
invocation. -/
structure Runner where
  admission : ParallelConsumerRunner
  httpAttempts : String → Option ℤ := fun _ => none
  taskAttempts : ℤ := 0
  trace : List Note := []

namespace Runner

/-- `httpAttempts.put(eventId, n)`. -/
def put (r : Runner) (eventId : String) (n : ℤ) : Runner :=
  { r with httpAttempts := Function.update r.httpAttempts eventId (some n) }

/-- `httpAttempts.remove(eventId)`. -/
def remove (r : Runner) (eventId : String) : Runner :=
  { r with httpAttempts := Function.update r.httpAttempts eventId none }

/-- The trace goes on. -/
def noted (r : Runner) (lines : List Note) : Runner :=
  { r with trace := r.trace ++ lines }

/-- `task.markHttpAttempt()`: an `int`. -/
def called (r : Runner) : Runner :=
  { r with taskAttempts := javaInt (r.taskAttempts + 1) }

/-- The `finally` block: the calls of the task are written back. -/
def written (r : Runner) (eventId : String) (started : ℤ) : Runner :=
  if started < r.taskAttempts then r.put eventId r.taskAttempts else r

end Runner

/-- How the calls of one invocation end. The reads of the ledger are repeated inside the
transaction that records the delivery. -/
structure Outcomes where
  now : ℤ
  permission : Bool
  isDelivered : Except Failure Bool
  lastSequence : Except Failure ℤ
  submit : Except Failure Unit
  transaction : Except Failure Unit
  isDeliveredNow : Except Failure Bool
  lastSequenceNow : Except Failure ℤ
  record : Except Failure Unit

/-- A method of one instance. -/
abbrev Java := EStateM Failure Runner

/-- A call that ends in one of the outcomes. -/
def ends {α : Type} : Except Failure α → Java α
  | .ok a => pure a
  | .error e => throw e

/-- A line of the trace. -/
def note (n : Note) : Java Unit :=
  modify (·.noted [n])

/-! ### The code -/

section Code

variable (o : Outcomes) (event : PartnerOrderEvent)

/-- `callPartner(task, true)`. -/
def callPartner : Java Unit := do
  modify (·.called)
  note .submit
  tryCatch (do
      ends o.submit
      note (.breaker (.onSuccess event.sellerId)))
    fun failure => do
      note (.breaker (.onError event.sellerId))
      throw failure

/-- The transaction behind the call. -/
def recordDelivery : Java Unit := do
  ends o.transaction
  if ← ends o.isDeliveredNow then return
  let last ← ends o.lastSequenceNow
  if last + 1 ≠ event.sequence then throw (.other "Predecessor changed")
  ends o.record

/-- `process(task, null, true)`. -/
def process : Java Unit := do
  if ← ends o.isDelivered then
    note (.breaker (.release event.sellerId))
  else
    let last ← ends o.lastSequence
    if last + 1 ≠ event.sequence then
      note (.breaker (.release event.sellerId))
      throw (.deferred .predecessorPending "Waiting for predecessor")
    callPartner o event
    recordDelivery o event

/-- `tryRetryAdmission(seller)`. -/
def tryRetryAdmission : Java Bool := do
  let granted ← modifyGet fun r =>
    let x := r.admission.tryRetryAdmission event.sellerId o.now
    (x.1, { r with admission := x.2 })
  note (.asked granted)
  return granted

/-- The `try` block with its `finally`. -/
def deliver (started : ℤ) : Java Unit := do
  tryCatch (do
      process o event
      modify (·.remove event.eventId))
    fun failure => do
      modify (·.written event.eventId started)
      throw failure
  modify (·.written event.eventId started)

/-- `processUnderPolicy(task)`. -/
def processUnderPolicy : Java Unit := do
  let started := ((← get).httpAttempts event.eventId).getD 0
  modify fun r => { r with taskAttempts := started }
  note (.breaker (.tryAcquire event.sellerId o.permission))
  if !o.permission then
    throw (.deferred .circuitOpen ("Circuit open for seller " ++ event.sellerId))
  if 0 < started then
    if !(← tryRetryAdmission o event) then
      note (.breaker (.release event.sellerId))
      throw (.deferred .circuitOpen ("Retry budget spent for seller " ++ event.sellerId))
  deliver o event started

end Code

/-! ### Invocations -/

/-- What an invocation leaves behind, and whether it returned normally. -/
structure Invocation where
  after : Runner
  returned : Bool

/-- How a method ended. -/
def Invocation.of : EStateM.Result Failure Runner Unit → Invocation
  | .ok _ r => ⟨r, true⟩
  | .error _ r => ⟨r, false⟩

/-- One invocation, with a new trace. -/
def invoke (r : Runner) (event : PartnerOrderEvent) (o : Outcomes) : Invocation :=
  .of ((processUnderPolicy o event).run { r with trace := [] })

namespace Invocation

/-- The breaker permitted the call. -/
def permitted (i : Invocation) (seller : String) : Prop :=
  .breaker (.tryAcquire seller true) ∈ i.after.trace

/-- The retry budget was asked. -/
def asked (i : Invocation) : Prop :=
  ∃ granted, .asked granted ∈ i.after.trace

/-- The partner calls that were started. -/
def submits (i : Invocation) : ℕ :=
  i.after.trace.count .submit

end Invocation

variable {r r' : Runner} {event : PartnerOrderEvent} {o : Outcomes}

/-- The calls started for an event before the invocation. -/
def Runner.started (r : Runner) (event : PartnerOrderEvent) : ℤ :=
  (r.httpAttempts event.eventId).getD 0

/-- The transaction behind the call succeeds. -/
def Records (o : Outcomes) (event : PartnerOrderEvent) : Prop :=
  o.transaction = .ok () ∧
    (o.isDeliveredNow = .ok true ∨
      o.isDeliveredNow = .ok false ∧ o.lastSequenceNow = .ok (event.sequence - 1) ∧
        o.record = .ok ())

/-- The event is neither delivered nor early. -/
def Due (o : Outcomes) (event : PartnerOrderEvent) : Prop :=
  o.isDelivered = .ok false ∧ o.lastSequence = .ok (event.sequence - 1)

/-- The invocation starts a partner call: the breaker permits it, the retry budget admits a
retry, and the event is due. -/
def Calls (r : Runner) (event : PartnerOrderEvent) (o : Outcomes) : Prop :=
  o.permission = true ∧
    (r.started event ≤ 0 ∨ (r.admission.tryRetryAdmission event.sellerId o.now).1 = true) ∧
    Due o event

/-- The call and its record succeed. -/
def Succeeds (o : Outcomes) (event : PartnerOrderEvent) : Prop :=
  o.submit = .ok () ∧ Records o event

/-! ### The exits of `process` -/

/-- Lines of the trace with `n` partner calls, and no question to the retry budget. -/
structure Quiet (n : ℕ) (lines : List Note) : Prop where
  submits : lines.count .submit = n
  asks : ∀ granted, .asked granted ∉ lines

lemma noted_cons (r : Runner) (n : Note) (lines : List Note) :
    r.noted (n :: lines) = (r.noted [n]).noted lines := by
  simp [Runner.noted]

/-- What `process` ends with. -/
inductive Processed (o : Outcomes) (event : PartnerOrderEvent) (r : Runner) :
    EStateM.Result Failure Runner Unit → Prop
  | deferred (e : Failure) {lines : List Note} (h : Quiet 0 lines) (hd : ¬ Due o event) :
      Processed o event r (.error e (r.noted lines))
  | duplicate {lines : List Note} (h : Quiet 0 lines) (hd : ¬ Due o event) :
      Processed o event r (.ok () (r.noted lines))
  | failed (e : Failure) {lines : List Note} (h : Quiet 1 lines) (hd : Due o event)
      (hs : ¬ Succeeds o event) : Processed o event r (.error e (r.called.noted lines))
  | delivered {lines : List Note} (h : Quiet 1 lines) (hd : Due o event)
      (hs : Succeeds o event) : Processed o event r (.ok () (r.called.noted lines))

@[simp] lemma ends_ok_bind {α β : Type} (a : α) (f : α → Java β) :
    (ends (.ok a) >>= f) = f a := rfl

@[simp] lemma ends_error_bind {α β : Type} (e : Failure) (f : α → Java β) :
    (ends (.error e) >>= f) = throw e := rfl

/-- The transaction changes no memory. -/
lemma recordDelivery_run (o : Outcomes) (event : PartnerOrderEvent) (r : Runner) :
    ((recordDelivery o event).run r = .ok () r ∧ Records o event) ∨
    ((∃ e, (recordDelivery o event).run r = .error e r) ∧ ¬ Records o event) := by
  cases htx : o.transaction with
  | error e => exact Or.inr ⟨⟨e, by simp only [recordDelivery, htx]; rfl⟩, by simp [Records, htx]⟩
  | ok _ =>
      cases hdel : o.isDeliveredNow with
      | error e => exact Or.inr ⟨⟨e, by simp only [recordDelivery, htx, hdel]; rfl⟩, by simp [Records, hdel]⟩
      | ok delivered =>
          cases delivered with
          | true => exact Or.inl ⟨by simp only [recordDelivery, htx, hdel]; rfl, htx, Or.inl hdel⟩
          | false =>
              cases hlast : o.lastSequenceNow with
              | error e =>
                  exact Or.inr ⟨⟨e, by simp only [recordDelivery, htx, hdel, hlast]; rfl⟩,
                    by simp [Records, hdel, hlast]⟩
              | ok last =>
                  by_cases hseq : last + 1 = event.sequence
                  · have hlast' : last = event.sequence - 1 := by omega
                    cases hrec : o.record with
                    | error e =>
                        refine Or.inr ⟨⟨e, ?_⟩, by simp [Records, hdel, hrec]⟩
                        simp only [recordDelivery, htx, hdel, hlast, hrec, ends_ok_bind, hseq,
                          Bool.false_eq_true, if_false, ne_eq, not_true_eq_false]
                        rfl
                    | ok _ =>
                        refine Or.inl ⟨?_, htx, Or.inr ⟨hdel, by rw [hlast, hlast'], hrec⟩⟩
                        simp only [recordDelivery, htx, hdel, hlast, hrec, ends_ok_bind, hseq,
                          Bool.false_eq_true, if_false, ne_eq, not_true_eq_false]
                        rfl
                  · refine Or.inr ⟨⟨.other "Predecessor changed", ?_⟩, ?_⟩
                    · simp only [recordDelivery, htx, hdel, hlast, ends_ok_bind, ne_eq, hseq,
                        not_false_eq_true, if_true]
                      rfl
                    · rintro ⟨-, h | ⟨-, h, -⟩⟩
                      · rw [hdel] at h
                        cases h
                      · have := Except.ok.inj (hlast.symm.trans h)
                        omega

/-- The exits of `process`. -/
lemma process_processed (o : Outcomes) (event : PartnerOrderEvent) (r : Runner) :
    Processed o event r ((process o event).run r) := by
  have hself : r = r.noted [] := by simp [Runner.noted]
  cases hdel : o.isDelivered with
  | error e =>
      have hrun : (process o event).run r = .error e (r.noted []) := by
        rw [← hself]
        simp only [process, hdel]
        rfl
      rw [hrun]
      exact .deferred e ⟨rfl, by simp⟩ (by simp [Due, hdel])
  | ok delivered =>
      cases delivered with
      | true =>
          have hrun : (process o event).run r =
              .ok () (r.noted [.breaker (.release event.sellerId)]) := by
            simp only [process, hdel]
            rfl
          rw [hrun]
          exact .duplicate ⟨rfl, by simp⟩ (by simp [Due, hdel])
      | false =>
          cases hlast : o.lastSequence with
          | error e =>
              have hrun : (process o event).run r = .error e (r.noted []) := by
                rw [← hself]
                simp only [process, hdel, hlast]
                rfl
              rw [hrun]
              exact .deferred e ⟨rfl, by simp⟩ (by simp [Due, hlast])
          | ok last =>
              by_cases hseq : last + 1 = event.sequence
              · have hlast' : last = event.sequence - 1 := by omega
                have hrest : process o event =
                    (callPartner o event >>= fun _ => recordDelivery o event) := by
                  simp [process, hdel, hlast, hseq]
                have hdue : Due o event := ⟨hdel, by rw [hlast, hlast']⟩
                rw [hrest, EStateM.run_bind]
                cases hsubmit : o.submit with
                | error e =>
                    have hcall : (callPartner o event).run r = .error e (r.called.noted
                        [.submit, .breaker (.onError event.sellerId)]) := by
                      rw [noted_cons, callPartner, hsubmit]
                      rfl
                    rw [hcall]
                    exact .failed e ⟨rfl, by simp⟩ hdue (by simp [Succeeds, hsubmit])
                | ok _ =>
                    have hcall : (callPartner o event).run r = .ok () (r.called.noted
                        [.submit, .breaker (.onSuccess event.sellerId)]) := by
                      rw [noted_cons, callPartner, hsubmit]
                      rfl
                    rw [hcall]
                    rcases recordDelivery_run o event (r.called.noted
                        [.submit, .breaker (.onSuccess event.sellerId)]) with
                      ⟨hrec, hok⟩ | ⟨⟨e, hrec⟩, hnot⟩
                    · show Processed o event r ((recordDelivery o event).run _)
                      rw [hrec]
                      exact .delivered ⟨rfl, by simp⟩ hdue ⟨hsubmit, hok⟩
                    · show Processed o event r ((recordDelivery o event).run _)
                      rw [hrec]
                      exact .failed e ⟨rfl, by simp⟩ hdue fun h => hnot h.2
              · have hrun : (process o event).run r =
                    .error (.deferred .predecessorPending "Waiting for predecessor")
                      (r.noted [.breaker (.release event.sellerId)]) := by
                  simp only [process, hdel, hlast, ends_ok_bind, Bool.false_eq_true, if_false,
                    ne_eq, hseq, not_false_eq_true, if_true]
                  rfl
                rw [hrun]
                refine .deferred _ ⟨rfl, by simp⟩ fun h => hseq ?_
                have := Except.ok.inj (hlast.symm.trans h.2)
                omega

/-! ### The exits of an invocation -/

/-- What the `finally` block leaves behind a call. -/
def writtenBack (httpAttempts : String → Option ℤ) (eventId : String) (started : ℤ) :
    String → Option ℤ :=
  if started < javaInt (started + 1) then
    Function.update httpAttempts eventId (some (javaInt (started + 1)))
  else httpAttempts

/-- The exits of an invocation: whether it asked the budget, the entries it leaves, the calls
it started and whether it returned. -/
inductive Invoked (r : Runner) (event : PartnerOrderEvent) (o : Outcomes) (i : Invocation) : Prop
  | refused (hp : ¬ i.permitted event.sellerId) (hc : ¬ Calls r event o)
      (hmap : i.after.httpAttempts = r.httpAttempts) (hcalls : i.submits = 0)
      (hret : i.returned = false)
  | deferred (hask : i.asked ↔ 0 < r.started event) (hc : ¬ Calls r event o)
      (hmap : i.after.httpAttempts = r.httpAttempts) (hcalls : i.submits = 0)
      (hret : i.returned = false)
  | duplicate (hask : i.asked ↔ 0 < r.started event) (hc : ¬ Calls r event o)
      (hmap : i.after.httpAttempts = Function.update r.httpAttempts event.eventId none)
      (hcalls : i.submits = 0) (hret : i.returned = true)
  | failed (hask : i.asked ↔ 0 < r.started event) (hc : Calls r event o)
      (hs : ¬ Succeeds o event)
      (hmap : i.after.httpAttempts =
        writtenBack r.httpAttempts event.eventId (r.started event))
      (hcalls : i.submits = 1) (hret : i.returned = false)
  | delivered (hask : i.asked ↔ 0 < r.started event) (hc : Calls r event o)
      (hs : Succeeds o event)
      (hmap : i.after.httpAttempts =
        writtenBack (Function.update r.httpAttempts event.eventId none) event.eventId
          (r.started event))
      (hcalls : i.submits = 1) (hret : i.returned = true)

lemma written_same {started : ℤ} (h : r.taskAttempts = started) :
    r.written event.eventId started = r :=
  if_neg (by omega)

lemma written_called (r : Runner) (eventId : String) {started : ℤ}
    (h : r.taskAttempts = javaInt (started + 1)) :
    (r.written eventId started).httpAttempts = writtenBack r.httpAttempts eventId started := by
  rw [Runner.written, writtenBack, h]
  split_ifs <;> rfl

lemma written_trace (r : Runner) (eventId : String) (started : ℤ) :
    (r.written eventId started).trace = r.trace := by
  rw [Runner.written]
  split_ifs <;> rfl

lemma deliver_run (o : Outcomes) (event : PartnerOrderEvent) (started : ℤ) (r : Runner) :
    (deliver o event started).run r =
      match (process o event).run r with
      | .ok _ r' => .ok () ((r'.remove event.eventId).written event.eventId started)
      | .error e r' => .error e (r'.written event.eventId started) := by
  rw [deliver]
  simp only [tryCatch, tryCatchThe, MonadExceptOf.tryCatch, EStateM.tryCatch, EStateM.run, bind,
    EStateM.bind]
  cases (process o event) r with
  | ok _ r' => rfl
  | error e r' => rfl

/-- The exits of the `try` block, from the memory behind the admission. -/
lemma deliver_invoked {r r₁ : Runner} {event : PartnerOrderEvent} {o : Outcomes}
    (hadmitted : Due o event ↔ Calls r event o) (htask : r₁.taskAttempts = r.started event)
    (hmap : r₁.httpAttempts = r.httpAttempts)
    (hask : (∃ granted, .asked granted ∈ r₁.trace) ↔ 0 < r.started event)
    (hcount : r₁.trace.count .submit = 0) :
    Invoked r event o (.of ((deliver o event (r.started event)).run r₁)) := by
  have hasks : ∀ {n : ℕ} {lines trace : List Note}, Quiet n lines → trace = r₁.trace ++ lines →
      ((∃ granted, .asked granted ∈ trace) ↔ 0 < r.started event) := by
    rintro n lines trace h rfl
    rw [← hask]
    refine exists_congr fun granted => ?_
    rw [List.mem_append, or_iff_left (h.asks granted)]
  have hcalls : ∀ {n : ℕ} {lines trace : List Note}, Quiet n lines →
      trace = r₁.trace ++ lines → trace.count .submit = n := by
    rintro n lines trace h rfl
    rw [List.count_append, hcount, h.submits, zero_add]
  have hcalled : ∀ lines, (r₁.called.noted lines).taskAttempts = javaInt (r.started event + 1) :=
    fun _ => congrArg (fun n => javaInt (n + 1)) htask
  have hprocessed := process_processed o event r₁
  rw [deliver_run]
  cases hrun : (process o event).run r₁ with
  | ok u r' =>
      rw [hrun] at hprocessed
      cases hprocessed with
      | @duplicate lines h hd =>
          have hkept : ((r₁.noted lines).remove event.eventId).written event.eventId
              (r.started event) = (r₁.noted lines).remove event.eventId := written_same htask
          show Invoked r event o ⟨((r₁.noted lines).remove event.eventId).written event.eventId
            (r.started event), true⟩
          rw [hkept]
          refine .duplicate (hasks h rfl) (fun hc => hd (hadmitted.mpr hc)) ?_ (hcalls h rfl) rfl
          rw [← hmap]
          rfl
      | @delivered lines h hd hs =>
          -- the entry that was removed is written back
          have hwritten := written_called ((r₁.called.noted lines).remove event.eventId)
            event.eventId (hcalled lines)
          have htrace := written_trace ((r₁.called.noted lines).remove event.eventId)
            event.eventId (r.started event)
          refine .delivered (hasks h htrace) (hadmitted.mp hd) hs ?_ (hcalls h htrace) rfl
          rw [← hmap]
          exact hwritten
  | error e r' =>
      rw [hrun] at hprocessed
      cases hprocessed with
      | @deferred e lines h hd =>
          have hkept : (r₁.noted lines).written event.eventId (r.started event) =
              r₁.noted lines := written_same htask
          show Invoked r event o
            ⟨(r₁.noted lines).written event.eventId (r.started event), false⟩
          rw [hkept]
          exact .deferred (hasks h rfl) (fun hc => hd (hadmitted.mpr hc)) hmap (hcalls h rfl) rfl
      | @failed e lines h hd hs =>
          have hwritten := written_called (r₁.called.noted lines) event.eventId
            (hcalled lines)
          have htrace := written_trace (r₁.called.noted lines) event.eventId (r.started event)
          refine .failed (hasks h htrace) (hadmitted.mp hd) hs ?_ (hcalls h htrace) rfl
          rw [← hmap]
          exact hwritten

/-- **The exits of an invocation.** -/
theorem invoke_invoked (r : Runner) (event : PartnerOrderEvent) (o : Outcomes) :
    Invoked r event o (invoke r event o) := by
  cases hp : o.permission with
  | false =>
      have hrun : invoke r event o = ⟨{ r with
          taskAttempts := r.started event
          trace := [.breaker (.tryAcquire event.sellerId false)] }, false⟩ := by
        rw [invoke, processUnderPolicy, hp]
        rfl
      rw [hrun]
      refine .refused (by simp [Invocation.permitted]) (fun h => ?_) rfl rfl rfl
      have := hp.symm.trans h.1
      cases this
  | true =>
      have hrun : invoke r event o = .of ((do
          if 0 < r.started event then
            if !(← tryRetryAdmission o event) then
              note (.breaker (.release event.sellerId))
              throw (.deferred .circuitOpen ("Retry budget spent for seller " ++ event.sellerId))
          deliver o event (r.started event) : Java Unit).run { r with
            taskAttempts := r.started event
            trace := [.breaker (.tryAcquire event.sellerId true)] }) := by
        rw [invoke, processUnderPolicy, hp]
        rfl
      rw [hrun]
      by_cases hstarted : 0 < r.started event
      · rw [if_pos hstarted]
        set r₁ : Runner := { r with
          taskAttempts := r.started event
          trace := [.breaker (.tryAcquire event.sellerId true)] } with hr₁
        set x := r.admission.tryRetryAdmission event.sellerId o.now with hx
        have hretry : (tryRetryAdmission o event).run r₁ =
            .ok x.1 ({ r₁ with admission := x.2 }.noted [.asked x.1]) := rfl
        simp only [EStateM.run_bind, hretry]
        cases hgranted : x.1 with
        | false =>
            refine .deferred ?_ ?_ rfl rfl rfl
            · exact ⟨fun _ => hstarted, fun _ =>
                ⟨false, List.mem_cons_of_mem _ (List.mem_cons_self ..)⟩⟩
            · rintro ⟨-, h | h, -⟩
              · omega
              · rw [← hx, hgranted] at h
                cases h
        | true =>
            have hask : (∃ granted, Note.asked granted ∈
                ({ r₁ with admission := x.2 }.noted [.asked true]).trace) ↔
                  0 < r.started event :=
              ⟨fun _ => hstarted, fun _ =>
                ⟨true, List.mem_cons_of_mem _ (List.mem_cons_self ..)⟩⟩
            exact deliver_invoked ⟨fun h => ⟨hp, Or.inr hgranted, h⟩, fun h => h.2.2⟩ rfl rfl
              hask rfl
      · rw [if_neg hstarted]
        exact deliver_invoked ⟨fun h => ⟨hp, Or.inl (by omega), h⟩, fun h => h.2.2⟩ rfl rfl
          (by simp [hstarted]) rfl

/-! ### Runs -/

/-- An invocation of a run, with the instance it meets. -/
structure Delivery where
  before : Runner
  event : PartnerOrderEvent
  outcomes : Outcomes

/-- What the invocation does. -/
def Delivery.invocation (d : Delivery) : Invocation :=
  invoke d.before d.event d.outcomes

/-- The invocations of a run, in order. -/
def deliveries (r : Runner) : List (PartnerOrderEvent × Outcomes) → List Delivery
  | [] => []
  | (event, o) :: rest => ⟨r, event, o⟩ :: deliveries (invoke r event o).after rest

/-- A new instance. -/
def Runner.fresh (retryBudget : ℕ) (retryWindowMs : ℤ) : Runner where
  admission := { retryBudget, retryWindowMs }

/-- The partner calls of an event since its last normal return. -/
def calls (eventId : String) (past : List Delivery) : ℕ :=
  past.foldl (fun n d =>
    if d.event.eventId ≠ eventId then n
    else if d.invocation.returned then 0
    else n + d.invocation.submits) 0

/-- The entry that `n` calls leave. -/
def entry (n : ℕ) : Option ℤ :=
  if n = 0 then none else some n

/-- The entries of `httpAttempts` are the calls of the invocations so far. -/
def Counts (past : List Delivery) (r : Runner) : Prop :=
  ∀ eventId, r.httpAttempts eventId = entry (calls eventId past)

/-- At every point of the run the counter is exact behind the invocation, and a permitted one
asks the budget exactly for an event with an entry. -/
def Exact (run : List Delivery) : Prop :=
  ∀ past d rest, run = past ++ d :: rest →
    Counts (past ++ [d]) d.invocation.after ∧
    (d.invocation.permitted d.event.sellerId →
      (d.invocation.asked ↔ d.before.httpAttempts d.event.eventId ≠ none))

/-- The invocation starts a call, and either succeeds, or fails with the counter full. -/
def Delivery.Slips (d : Delivery) : Prop :=
  Calls d.before d.event d.outcomes ∧
    (Succeeds d.outcomes d.event ↔ d.before.started d.event + 1 < 2 ^ 31)

lemma calls_append (eventId : String) (past : List Delivery) (d : Delivery) :
    calls eventId (past ++ [d]) =
      if d.event.eventId ≠ eventId then calls eventId past
      else if d.invocation.returned then 0
      else calls eventId past + d.invocation.submits := by
  rw [calls, List.foldl_append]
  rfl

lemma entry_inj {m n : ℕ} (h : entry m = entry n) : m = n := by
  unfold entry at h
  split_ifs at h with hm hn <;> simp_all

section Points

variable {past : List Delivery} {d : Delivery}

lemma Counts.started (h : Counts past d.before) :
    d.before.started d.event = calls d.event.eventId past := by
  rw [Runner.started, h, entry]
  split_ifs with h0
  · simp [h0]
  · rfl

lemma Counts.entry_iff (h : Counts past d.before) :
    0 < d.before.started d.event ↔ d.before.httpAttempts d.event.eventId ≠ none := by
  rw [h.started, h, entry]
  split_ifs with h0
  · simp [h0]
  · simp; omega

/-- The budget is asked for the events with an entry. -/
lemma Counts.asked (h : Counts past d.before)
    (hp : d.invocation.permitted d.event.sellerId) :
    d.invocation.asked ↔ d.before.httpAttempts d.event.eventId ≠ none := by
  rw [← h.entry_iff]
  cases invoke_invoked d.before d.event d.outcomes with
  | refused hnot => exact absurd hp hnot
  | deferred hask | duplicate hask | failed hask | delivered hask => exact hask

lemma writtenBack_of_lt {started : ℤ} (m : String → Option ℤ) (eventId : String)
    (h0 : 0 ≤ started) (h : started + 1 < 2 ^ 31) :
    writtenBack m eventId started = Function.update m eventId (some (started + 1)) := by
  have hint : javaInt (started + 1) = started + 1 := javaInt_eq (by omega) h
  rw [writtenBack, hint, if_pos (by omega)]

lemma writtenBack_of_le {started : ℤ} (m : String → Option ℤ) (eventId : String)
    (h : 2 ^ 31 ≤ started + 1) : writtenBack m eventId started = m := by
  have hint : javaInt (started + 1) < 2 ^ 31 := Int.bmod_lt (by decide)
  rw [writtenBack, if_neg (by omega)]

/-- The invocation changes the entry of its event only. -/
lemma Counts.append {v : Option ℤ} (h : Counts past d.before)
    (hmap : d.invocation.after.httpAttempts =
      Function.update d.before.httpAttempts d.event.eventId v) :
    Counts (past ++ [d]) d.invocation.after ↔
      v = entry (calls d.event.eventId (past ++ [d])) := by
  constructor
  · intro hcounts
    rw [← hcounts, hmap, Function.update_self]
  · intro hv eventId
    rw [hmap]
    by_cases heq : eventId = d.event.eventId
    · rw [heq, Function.update_self, hv]
    · rw [Function.update_of_ne heq, h, calls_append, if_pos (Ne.symm heq)]

lemma calls_raised (hret : d.invocation.returned = false) :
    calls d.event.eventId (past ++ [d]) = calls d.event.eventId past + d.invocation.submits := by
  simp [calls_append, hret]

lemma calls_returned (hret : d.invocation.returned = true) :
    calls d.event.eventId (past ++ [d]) = 0 := by
  simp [calls_append, hret]

/-- **The counter stays exact unless the invocation slips.** -/
theorem Counts.append_iff (h : Counts past d.before) :
    Counts (past ++ [d]) d.invocation.after ↔ ¬ d.Slips := by
  have hself : d.before.httpAttempts = Function.update d.before.httpAttempts d.event.eventId
      (entry (calls d.event.eventId past)) := by
    rw [← h, Function.update_eq_self]
  have hstarted := h.started
  cases invoke_invoked d.before d.event d.outcomes with
  | refused _ hc hmap hcalls hret | deferred _ hc hmap hcalls hret =>
      have hsubmits : d.invocation.submits = 0 := hcalls
      refine iff_of_true ((h.append (hmap.trans hself)).mpr ?_) fun hslips => hc hslips.1
      rw [calls_raised hret, hsubmits, add_zero]
  | duplicate _ hc hmap hcalls hret =>
      refine iff_of_true ((h.append hmap).mpr ?_) fun hslips => hc hslips.1
      rw [calls_returned hret]
      rfl
  | failed _ hc hs hmap hcalls hret =>
      have hsubmits : d.invocation.submits = 1 := hcalls
      by_cases hlt : d.before.started d.event + 1 < 2 ^ 31
      · rw [writtenBack_of_lt _ _ (by omega) hlt] at hmap
        refine iff_of_true ((h.append hmap).mpr ?_) fun hslips => hs (hslips.2.mpr hlt)
        rw [calls_raised hret, hsubmits, hstarted]
        rfl
      · -- the counter is full: the call is not written back
        rw [writtenBack_of_le _ _ (by omega)] at hmap
        refine iff_of_false (fun hcounts => ?_) fun hno => hno ⟨hc, iff_of_false hs hlt⟩
        have := entry_inj ((h.append (hmap.trans hself)).mp hcounts)
        rw [calls_raised hret, hsubmits] at this
        omega
  | delivered _ hc hs hmap hcalls hret =>
      by_cases hlt : d.before.started d.event + 1 < 2 ^ 31
      · rw [writtenBack_of_lt _ _ (by omega) hlt, Function.update_idem] at hmap
        refine iff_of_false (fun hcounts => ?_) fun hno => hno ⟨hc, iff_of_true hs hlt⟩
        have := (h.append hmap).mp hcounts
        rw [calls_returned hret] at this
        cases this
      · rw [writtenBack_of_le _ _ (by omega)] at hmap
        refine iff_of_true ((h.append hmap).mpr ?_) fun hslips => hlt (hslips.2.mp hs)
        rw [calls_returned hret]
        rfl

end Points

lemma counts_fresh (retryBudget : ℕ) (retryWindowMs : ℤ) :
    Counts [] (Runner.fresh retryBudget retryWindowMs) :=
  fun _ => rfl

/-- The instance behind an invocation is the one the next meets. -/
lemma exact_deliveries_iff {past : List Delivery} {r : Runner} (h : Counts past r)
    (events : List (PartnerOrderEvent × Outcomes)) :
    (∀ mid d rest, deliveries r events = mid ++ d :: rest →
      Counts (past ++ mid ++ [d]) d.invocation.after ∧
      (d.invocation.permitted d.event.sellerId →
        (d.invocation.asked ↔ d.before.httpAttempts d.event.eventId ≠ none))) ↔
    ∀ d ∈ deliveries r events, ¬ d.Slips := by
  induction events generalizing past r with
  | nil => simp [deliveries]
  | cons x events ih =>
      obtain ⟨event, o⟩ := x
      set d : Delivery := ⟨r, event, o⟩
      have hhead : Counts (past ++ [d]) d.invocation.after ↔ ¬ d.Slips := Counts.append_iff h
      have hlist : deliveries r ((event, o) :: events) =
        d :: deliveries d.invocation.after events := rfl
      rw [hlist]
      constructor
      · intro hpoints
        have hcounts := (hpoints [] d _ rfl).1
        rw [List.append_nil] at hcounts
        refine List.forall_mem_cons.mpr ⟨hhead.mp hcounts, (ih hcounts).mp ?_⟩
        intro mid e rest hsplit
        have := hpoints (d :: mid) e rest (by rw [hsplit]; rfl)
        rwa [List.append_cons past d mid] at this
      · intro hslips mid e rest hsplit
        obtain ⟨hd, htail⟩ := List.forall_mem_cons.mp hslips
        have hcounts := hhead.mpr hd
        cases mid with
        | nil =>
            obtain ⟨rfl, -⟩ := List.cons.inj hsplit
            rw [List.append_nil]
            exact ⟨hcounts, Counts.asked h⟩
        | cons a mid =>
            obtain ⟨rfl, htailsplit⟩ := List.cons.inj hsplit
            rw [List.append_cons past d mid]
            exact (ih hcounts).mpr htail mid e rest htailsplit

/-- **The counter is exact in a run exactly when no invocation of it starts a call and then
returns normally, or fails with the counter full.** -/
theorem attempts_exact_iff (retryBudget : ℕ) (retryWindowMs : ℤ)
    (events : List (PartnerOrderEvent × Outcomes)) :
    Exact (deliveries (Runner.fresh retryBudget retryWindowMs) events) ↔
      ∀ d ∈ deliveries (Runner.fresh retryBudget retryWindowMs) events, ¬ d.Slips :=
  exact_deliveries_iff (counts_fresh retryBudget retryWindowMs) events

/-- A delivery at the first call leaves the entry `1`. -/
theorem entry_left_behind :
    ¬ Exact (deliveries (Runner.fresh 10 60000)
      [(⟨"e1", "r", "s", 1, 1, .create, 0, 1, 1, ⟨0⟩, none⟩,
        ⟨0, true, .ok false, .ok 0, .ok (), .ok (), .ok false, .ok 0, .ok ()⟩)]) := by
  intro h
  have hcounts := (h [] _ [] rfl).1 "e1"
  revert hcounts
  decide +kernel

end OrderSystem.Bucket
