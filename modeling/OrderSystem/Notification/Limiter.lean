/-
The dispatch limiter of notification-service (`NotificationDispatchLimiter`).

* `intervalNanos`: the constructor.
* `Pc`, `acquireNext`: `acquire` and `waitForSlot`, one atomic operation a step: the
  increment, the read and the decrement of `realtimeWaiters`, the read and the
  `compareAndSet` of `nextSlotNanos`, and the two readings of the clock. A parked caller may
  wake at any time.
* `Act`: any number of callers in any order; the clock never goes back.

`slots` lists the slots in the order they were reserved, `returned` the slots whose callers
went on, with the time. A `long` wraps around; `realtimeWaiters` counts threads of one JVM
and stays far from it.
-/
import OrderSystem.Common.Events
import OrderSystem.Foundations.Interleaving

namespace OrderSystem.Notification

open Interleaving

/-! ### The limiter -/

/-- The constructor: the distance of two slots, in nanoseconds. -/
def intervalNanos (ratePerSecond : ℤ) : Except String ℤ :=
  if ratePerSecond ≤ 0 then .error "dispatch rate must be positive"
  else .ok (max 1 (1000000000 / ratePerSecond))

/-- `NotificationRequestedEvent.Priority`. -/
inductive Priority where
  | realtime
  | bulk
  deriving DecidableEq, Repr

/-- The next atomic operation of `acquire`; `read` to `sleep` are those of `waitForSlot`. -/
inductive Pc where
  | announce
  | look
  | read
  | clock (current : ℤ)
  | cas (current reserved : ℤ)
  | sleep (reserved : ℤ)
  | leave
  deriving DecidableEq, Repr

/-- The local state of a caller. -/
inductive Proc where
  | idle
  | acquiring (priority : Priority) (pc : Pc)
  deriving DecidableEq, Repr

/-- The two shared variables, the clock, and what has happened so far. -/
structure Store where
  nextSlotNanos : ℤ
  realtimeWaiters : ℤ := 0
  nanoTime : ℤ
  slots : List ℤ := []
  returned : List (ℤ × ℤ) := []
  deriving DecidableEq, Repr

/-- The choices of the environment. -/
inductive Act where
  | acquire (priority : Priority)
  | go
  | tick (nanos : ℕ)
  deriving DecidableEq, Repr

/-- The operation `pc` of `acquire`. -/
def acquireNext (interval : ℤ) (s : Store) (priority : Priority) : Pc → Option (Store × Proc)
  | .announce =>
      some ({ s with realtimeWaiters := s.realtimeWaiters + 1 }, .acquiring priority .read)
  | .look =>
      if 0 < s.realtimeWaiters then some (s, .acquiring priority .look)
      else some (s, .acquiring priority .read)
  | .read => some (s, .acquiring priority (.clock s.nextSlotNanos))
  | .clock current => some (s, .acquiring priority (.cas current (max current s.nanoTime)))
  | .cas current reserved =>
      if s.nextSlotNanos = current then
        some ({ s with nextSlotNanos := javaLong (reserved + interval)
                       slots := s.slots ++ [reserved] }, .acquiring priority (.sleep reserved))
      else some (s, .acquiring priority .read)
  | .sleep reserved =>
      if 0 < javaLong (reserved - s.nanoTime) then some (s, .acquiring priority (.sleep reserved))
      else some ({ s with returned := s.returned ++ [(reserved, s.nanoTime)] },
        match priority with
        | .realtime => .acquiring priority .leave
        | .bulk => .idle)
  | .leave => some ({ s with realtimeWaiters := s.realtimeWaiters - 1 }, .idle)

/-- One step of caller `t`. -/
def next (interval : ℤ) (_ : ℕ) (s : Store) : Proc → Act → Option (Store × Proc)
  | .idle, .acquire .realtime => some (s, .acquiring .realtime .announce)
  | .idle, .acquire .bulk => some (s, .acquiring .bulk .look)
  | .idle, .tick nanos => some ({ s with nanoTime := s.nanoTime + nanos }, .idle)
  | .acquiring priority pc, .go => acquireNext interval s priority pc
  | _, _ => none

/-- The callers of one limiter. -/
def limiter (interval : ℤ) : Program Store Proc Act :=
  ⟨next interval⟩

/-- A limiter that was constructed at `start`. -/
def initial (start : ℤ) : Config Store Proc :=
  ⟨{ nextSlotNanos := start, nanoTime := start }, fun _ => .idle⟩

/-! ### Moves -/

/-- The caller is past the announcement or the look, and has no slot yet. -/
def Pc.choosing : Pc → Prop
  | .read | .clock _ | .cas _ _ => True
  | _ => False

/-- The kinds of steps a caller can take. -/
inductive Move (interval : ℤ) (s : Store) : Proc → Act → Store → Proc → Prop
  | realtime : Move interval s .idle (.acquire .realtime) s (.acquiring .realtime .announce)
  | bulk : Move interval s .idle (.acquire .bulk) s (.acquiring .bulk .look)
  | tick (nanos : ℕ) :
      Move interval s .idle (.tick nanos) { s with nanoTime := s.nanoTime + nanos } .idle
  | announce (priority : Priority) :
      Move interval s (.acquiring priority .announce) .go
        { s with realtimeWaiters := s.realtimeWaiters + 1 } (.acquiring priority .read)
  | wait (priority : Priority) (h : 0 < s.realtimeWaiters) :
      Move interval s (.acquiring priority .look) .go s (.acquiring priority .look)
  | pass (priority : Priority) (h : s.realtimeWaiters ≤ 0) :
      Move interval s (.acquiring priority .look) .go s (.acquiring priority .read)
  | read (priority : Priority) :
      Move interval s (.acquiring priority .read) .go s
        (.acquiring priority (.clock s.nextSlotNanos))
  | clock (priority : Priority) (current : ℤ) :
      Move interval s (.acquiring priority (.clock current)) .go s
        (.acquiring priority (.cas current (max current s.nanoTime)))
  | reserve (priority : Priority) {current : ℤ} (reserved : ℤ) (h : s.nextSlotNanos = current) :
      Move interval s (.acquiring priority (.cas current reserved)) .go
        { s with nextSlotNanos := javaLong (reserved + interval), slots := s.slots ++ [reserved] }
        (.acquiring priority (.sleep reserved))
  | lost (priority : Priority) {current : ℤ} (reserved : ℤ) (h : s.nextSlotNanos ≠ current) :
      Move interval s (.acquiring priority (.cas current reserved)) .go s
        (.acquiring priority .read)
  | park (priority : Priority) {reserved : ℤ} (h : 0 < javaLong (reserved - s.nanoTime)) :
      Move interval s (.acquiring priority (.sleep reserved)) .go s
        (.acquiring priority (.sleep reserved))
  | wake (priority : Priority) {reserved : ℤ} (h : javaLong (reserved - s.nanoTime) ≤ 0) :
      Move interval s (.acquiring priority (.sleep reserved)) .go
        { s with returned := s.returned ++ [(reserved, s.nanoTime)] }
        (match priority with
          | .realtime => .acquiring priority .leave
          | .bulk => .idle)
  | leave (priority : Priority) :
      Move interval s (.acquiring priority .leave) .go
        { s with realtimeWaiters := s.realtimeWaiters - 1 } .idle

variable {interval : ℤ} {t : ℕ} {s s' : Store} {p p' : Proc} {a : Act}

/-- **The inversion of `next`**: every step is one of the moves. -/
theorem next_move (h : next interval t s p a = some (s', p')) : Move interval s p a s' p' := by
  cases p with
  | idle =>
      cases a with
      | acquire priority => cases priority <;> (cases h; constructor)
      | tick nanos =>
          cases h
          exact .tick nanos
      | go => cases h
  | acquiring priority pc =>
      cases a with
      | go =>
          cases pc with
          | announce =>
              cases h
              exact .announce priority
          | look =>
              simp only [next, acquireNext] at h
              split_ifs at h with hwaits <;> cases h
              · exact .wait priority hwaits
              · exact .pass priority (not_lt.mp hwaits)
          | read =>
              cases h
              exact .read priority
          | clock current =>
              cases h
              exact .clock priority current
          | cas current reserved =>
              simp only [next, acquireNext] at h
              split_ifs at h with heq <;> cases h
              · exact .reserve priority reserved heq
              · exact .lost priority reserved heq
          | sleep reserved =>
              simp only [next, acquireNext] at h
              split_ifs at h with hleft <;> cases h
              · exact .park priority hleft
              · exact .wake priority (not_lt.mp hleft)
          | leave =>
              cases h
              exact .leave priority
      | acquire priority => cases h
      | tick nanos => cases h

end OrderSystem.Notification
