/-
The relay sends again what failed, and the consumers read a partition in order.

A cycle of the relay hands its whole batch to the broker. When a send fails, the record is appended
in a later cycle, behind the records of its batch that were acknowledged, so an operation can stand
in front of its predecessor.

* `feed`: the relay beside a consumer of the partner topic, `cycles`: their runs. `fits` says what
  the broker may append.
* `run_consumer`: the consumer reads events of the rows, each in the partition of its order.
* `afterPredecessor`: the predecessor stands in the partition. Then no consumer waits for a record
  behind it (`no_wait_for_later_records`), also when records are sent again
  (`no_wait_for_resent_records`).
* `waits_when_first_send_fails`: the second of two operations is acknowledged and the first is not.
  The listener never leaves the record, and the queue waits for a task behind its first one.
-/
import OrderSystem.Async.Heads
import OrderSystem.InPlace.Progress
import OrderSystem.Orders.Marking

namespace OrderSystem.Pipeline

open Interleaving
open Orders (Relay RelayAct OutboxRow Topic answering)

variable {σ π β : Type} {E : PartnerOrderEvent → Prop} {prepares : OutboxRow → Bool}
  {partition : Topic × String → ℕ} {publish : ℕ → PartnerOrderEvent → β}
  {fits : σ → ℕ → PartnerOrderEvent → Prop} {ok ok' : Config σ π → ℕ → β → Prop}
  {N : Program σ π β} {d : Config σ π}

/-! ### The relay and a consumer -/

/-- The record of the partner topic that an append of the broker is. -/
def resent (partition : Topic × String → ℕ) (s : Relay) :
    RelayAct → Option (ℕ × PartnerOrderEvent)
  | .append n _ => (s.store.inFlight.lookup n).bind fun r =>
      r.partner.map fun e => (partition r.route, e)
  | _ => none

/-- The relay beside a consumer of the partner topic. -/
def feed (partition : Topic × String → ℕ) (N : Program σ π β)
    (publish : ℕ → PartnerOrderEvent → β) :
    Program (Relay × σ) (Unit × π) (RelayAct ⊕ β) :=
  Orders.relay.couple N fun s a => (resent partition s a).map fun x => publish x.1 x.2

/-- The partition of an order. -/
def homeOf (partition : Topic × String → ℕ) (key : String) : ℕ :=
  partition (.partnerRequests, key)

/-- A transaction writes an event of `E` for its topic, under the key of its order. -/
def writes (E : PartnerOrderEvent → Prop) : RelayAct → Prop
  | .commit row => ∀ e ∈ row.partner, E e ∧ row.route = (.partnerRequests, e.key)
  | _ => True

instance [DecidablePred E] (a : RelayAct) : Decidable (writes E a) :=
  match a with
  | .commit row => inferInstanceAs
      (Decidable (∀ e ∈ row.partner, E e ∧ row.route = (.partnerRequests, e.key)))
  | .start | .go _ | .fail | .purge _ _ | .crash | .append _ _ => isTrue trivial

/-- The cycles of the relay over rows of `E`, where the broker appends what `fits`; `ok` is the
environment of the consumer. -/
def cycles (E : PartnerOrderEvent → Prop) (prepares : OutboxRow → Bool)
    (partition : Topic × String → ℕ) (fits : σ → ℕ → PartnerOrderEvent → Prop)
    (ok : Config σ π → ℕ → β → Prop) (c : Config (Relay × σ) (Unit × π)) (t : ℕ) :
    RelayAct ⊕ β → Prop
  | .inl a => (answering prepares partition c.store.1 a ∧ writes E a) ∧
      ∀ x ∈ resent partition c.store.1 a, fits c.store.2 x.1 x.2
  | .inr b => ok c.snd t b

instance [DecidablePred E] [∀ s q e, Decidable (fits s q e)] [∀ c t b, Decidable (ok c t b)]
    (c : Config (Relay × σ) (Unit × π)) (t : ℕ) (a : RelayAct ⊕ β) :
    Decidable (cycles E prepares partition fits ok c t a) :=
  match a with
  | .inl a => inferInstanceAs
      (Decidable ((answering prepares partition c.store.1 a ∧ writes E a) ∧
        ∀ x ∈ resent partition c.store.1 a, fits c.store.2 x.1 x.2))
  | .inr b => inferInstanceAs (Decidable (ok c.snd t b))

/-! ### What the relay sends -/

/-- The rows are those of the transactions. -/
def Written (E : PartnerOrderEvent → Prop) (s : Relay) : Prop :=
  ∀ r ∈ s.store.written, ∀ e ∈ r.partner, E e ∧ r.route = (.partnerRequests, e.key)

lemma reachable_written {c : Config Relay Unit}
    (h : Run Orders.relay (fun c _ a => answering prepares partition c.store a ∧ writes E a)
      Orders.idleRelay c) : Written E c.store := by
  refine (Run.invariant (I := Written E) (J := fun _ _ _ => True) (K := fun _ => True)
    (fun _ _ => trivial) ⟨fun r hr => absurd hr List.not_mem_nil, fun _ => trivial⟩ ?_
    (fun _ _ _ _ _ _ _ _ _ _ _ _ => trivial) h).1
  intro c t a s' p' _ hok hI _ hnext
  obtain ⟨s'', hstep, heq⟩ := Option.map_eq_some_iff.mp hnext
  cases heq
  refine ⟨?_, trivial⟩
  cases Orders.step_move hstep with
  | @commit row hnew =>
      intro r hr
      rcases List.mem_append.mp hr with hr | hr
      · exact hI r hr
      · rw [List.mem_singleton.mp hr]
        exact hok.2
  | _ => exact hI

/-- What is appended is an event of a row, in the partition of its order. -/
lemma resent_mem {c : Config Relay Unit}
    (h : Run Orders.relay (fun c _ a => answering prepares partition c.store a ∧ writes E a)
      Orders.idleRelay c) {a : RelayAct} {x : ℕ × PartnerOrderEvent}
    (hx : x ∈ resent partition c.store a) : E x.2 ∧ x.1 = homeOf partition x.2.key := by
  cases a with
  | append n lost =>
      obtain ⟨r, hr, hx⟩ := Option.bind_eq_some_iff.mp hx
      obtain ⟨e, he, rfl⟩ := Option.map_eq_some_iff.mp hx
      obtain ⟨l₁, l₂, hl, -⟩ := List.lookup_eq_some_iff.mp hr
      have hkept := Orders.Kept.of_run (h.mono fun _ _ _ hok => hok.1)
      have hwritten := (hkept.booked.flight (n, r) (by rw [hl]; simp)).2
      obtain ⟨hE, hroute⟩ := reachable_written h r hwritten e he
      exact ⟨hE, congrArg partition hroute⟩
  | _ => cases hx

/-- **The consumer of a run**: its records are events of the rows that fit, each in the partition
of its order. -/
theorem run_consumer {c : Config (Relay × σ) (Unit × π)}
    (hpublish : ∀ c t q e, E e → q = homeOf partition e.key → fits c.store q e →
      ok' c t (publish q e))
    (hok : ∀ c t b, ok c t b → ok' c t b)
    (h : Run (feed partition N publish) (cycles E prepares partition fits ok)
      (Config.pair Orders.idleRelay d) c) : Run N ok' d c.snd := by
  have hrelay : ∀ c, Run (feed partition N publish) (cycles E prepares partition fits ok)
      (Config.pair Orders.idleRelay d) c →
      Run Orders.relay (fun c _ a => answering prepares partition c.store a ∧ writes E a)
        Orders.idleRelay c.fst :=
    fun c h => h.fst fun _ _ _ hok => hok.1
  have hfrom : Run (feed partition N publish)
      (fun c t a => cycles E prepares partition fits ok c t a ∧
        ∀ b, a = .inl b → ∀ x ∈ resent partition c.store.1 b,
          E x.2 ∧ x.1 = homeOf partition x.2.key) (Config.pair Orders.idleRelay d) c := by
    refine Run.mono_of hrelay (fun c c' t a hrun hok _ => ⟨hok, ?_⟩) h
    rintro b rfl x hx
    exact resent_mem hrun hx
  refine hfrom.snd (fun c t a b hcycle hb => ?_) fun c t b hcycle => hok _ _ _ hcycle.1
  obtain ⟨x, hx, rfl⟩ := Option.map_eq_some_iff.mp hb
  obtain ⟨hE, hhome⟩ := hcycle.2 a rfl x hx
  exact hpublish _ _ _ _ hE hhome (hcycle.1.2 x hx)

/-! ### The consumers -/

/-- The relay beside the in-place listener. -/
def relayInPlace (partition : Topic × String → ℕ) (cfg : InPlace.Settings) :=
  feed partition (InPlace.listener cfg) fun q e => .service (.produce q e)

/-- The relay beside the asynchronous instance. -/
def relayAsync (partition : Topic × String → ℕ) (cfg : Async.Settings) :=
  feed partition (Async.async cfg) fun q e => .service (.produce q e)

/-- Only the relay fills the topic, and the partner accepts every call. -/
def acceptsCalls (_ : Config InPlace.Store InPlace.Proc) (_ : ℕ) : InPlace.Act → Prop
  | .service b => b.serves ∧ b.record = none
  | _ => True

instance (c : Config InPlace.Store InPlace.Proc) (t : ℕ) (a : InPlace.Act) :
    Decidable (acceptsCalls c t a) :=
  match a with
  | .service b => inferInstanceAs (Decidable (b.serves ∧ b.record = none))
  | .listen | .assign _ | .revoke _ | .take _ | .go _ | .throw | .abort => isTrue trivial

/-- Only the relay fills the topic, and the consumer reads it in order. -/
def readsInOrder (E : PartnerOrderEvent → Prop) (c : Config Async.Store Async.Proc) (_ : ℕ) :
    Async.Act → Prop
  | .service b => b.record = none ∧ ∀ e ∈ b.delivery, E e
  | a => a.reads c.store

instance [DecidablePred E] (c : Config Async.Store Async.Proc) (t : ℕ) (a : Async.Act) :
    Decidable (readsInOrder E c t a) :=
  match a with
  | .service b => inferInstanceAs (Decidable (b.record = none ∧ ∀ e ∈ b.delivery, E e))
  | .add task => inferInstanceAs (Decidable ((Async.Act.add task).reads c.store))
  | .revoke _ | .dispatch | .tryAdmit _ | .execute _ | .take _ | .go _ | .throw _ => isTrue trivial

/-- The broker may append anything. -/
def anything (_ : σ) (_ : ℕ) (_ : PartnerOrderEvent) : Prop := True

instance (s : σ) (q : ℕ) (e : PartnerOrderEvent) : Decidable (anything s q e) := isTrue trivial

/-- The operation before it stands in the partition. -/
def afterPredecessor (topic : σ → ℕ → List PartnerOrderEvent) (s : σ) (q : ℕ)
    (e : PartnerOrderEvent) : Prop :=
  Partner.First e ∨ ∃ x ∈ topic s q, Partner.Precedes x e

instance (topic : σ → ℕ → List PartnerOrderEvent) (s : σ) (q : ℕ) (e : PartnerOrderEvent) :
    Decidable (afterPredecessor topic s q e) :=
  inferInstanceAs (Decidable (_ ∨ _))

/-- No later operation of its order stands in the partition. -/
def afterEarlier (topic : σ → ℕ → List PartnerOrderEvent) (s : σ) (q : ℕ)
    (e : PartnerOrderEvent) : Prop :=
  ∀ x ∈ topic s q, x.order = e.order → x.sequence ≤ e.sequence

instance (topic : σ → ℕ → List PartnerOrderEvent) (s : σ) (q : ℕ) (e : PartnerOrderEvent) :
    Decidable (afterEarlier topic s q e) :=
  inferInstanceAs (Decidable (∀ x ∈ _, _))

/-- The partner topic of the listener, and of the instance. -/
def inPlaceTopic (s : InPlace.Store) : ℕ → List PartnerOrderEvent := s.partner.topic

def asyncTopic (s : Async.Store) : ℕ → List PartnerOrderEvent := s.partner.topic

/-! ### No consumer waits for a record behind it -/

lemma run_listener {cfg : InPlace.Settings}
    {c : Config (Relay × InPlace.Store) (Unit × InPlace.Proc)}
    (h : Run (relayInPlace partition cfg)
      (cycles E prepares partition (afterPredecessor inPlaceTopic) acceptsCalls)
      (Config.pair Orders.idleRelay InPlace.initial) c) :
    Run (InPlace.listener cfg) (InPlace.feeding E) InPlace.initial c.snd := by
  refine run_consumer (fun c t q e hE _ hfits => ?_) (fun c t b hok => ?_) h
  · refine ⟨trivial, hfits, fun e' he => ?_⟩
    cases he
    exact hE
  · cases b with
    | service b =>
        refine ⟨hok.1, ?_, by simp [hok.2]⟩
        cases b with
        | produce q e => cases hok.2
        | _ => trivial
    | _ => trivial

lemma run_instance {cfg : Async.Settings} {c : Config (Relay × Async.Store) (Unit × Async.Proc)}
    (h : Run (relayAsync partition cfg)
      (cycles E prepares partition (afterPredecessor asyncTopic) (readsInOrder E))
      (Config.pair Orders.idleRelay (Async.initial cfg)) c) :
    Run (Async.async cfg) (Async.feeding E) (Async.initial cfg) c.snd := by
  refine run_consumer (fun c t q e hE _ hfits => ?_) (fun c t b hok => ?_) h
  · refine ⟨trivial, hfits, fun e' he => ?_, fun e' he => by cases he⟩
    cases he
    exact hE
  · cases b with
    | service b =>
        refine ⟨trivial, ?_, by simp [hok.1], hok.2⟩
        cases b with
        | produce q e => cases hok.1
        | _ => trivial
    | _ => exact ⟨hok, trivial⟩

lemma run_ascending {cfg : Async.Settings} {c : Config (Relay × Async.Store) (Unit × Async.Proc)}
    (h : Run (relayAsync partition cfg)
      (cycles E prepares partition (afterEarlier asyncTopic) (readsInOrder E))
      (Config.pair Orders.idleRelay (Async.initial cfg)) c) :
    Run (Async.async cfg) (Async.ascending (homeOf partition)) (Async.initial cfg) c.snd := by
  refine run_consumer (fun c t q e _ hhome hfits => ?_) (fun c t b hok => ?_) h
  · exact ⟨trivial, hhome, hfits⟩
  · cases b with
    | service b =>
        refine ⟨trivial, ?_⟩
        cases b with
        | produce q e => cases hok.1
        | _ => trivial
    | _ => exact ⟨hok, trivial⟩

/-- **No consumer waits for a record behind it**, in every run in which the broker appends a record
behind its predecessor: the loop of `deliverInPlace` ends, and the operations before the first task
of an order are recorded. When no record is appended behind a later operation of its order, no
earlier operation is queued behind the first task either. -/
theorem no_wait_for_later_records (hE : Catalogue E) (prepares : OutboxRow → Bool)
    (partition : Topic × String → ℕ) (inPlace : InPlace.Settings) (async : Async.Settings) :
    (∀ c, Run (relayInPlace partition inPlace)
        (cycles E prepares partition (afterPredecessor inPlaceTopic) acceptsCalls)
        (Config.pair Orders.idleRelay InPlace.initial) c → InPlace.Unblocked inPlace E c.snd) ∧
      (∀ c, Run (relayAsync partition async)
        (cycles E prepares partition (afterPredecessor asyncTopic) (readsInOrder E))
        (Config.pair Orders.idleRelay (Async.initial async)) c → c.snd.store.HeadsReady) ∧
      ∀ c, Run (relayAsync partition async)
        (cycles E prepares partition (afterEarlier asyncTopic) (readsInOrder E))
        (Config.pair Orders.idleRelay (Async.initial async)) c → c.snd.store.queue.HeadsFirst :=
  ⟨fun _ h => InPlace.listener_unblocked hE (run_listener h),
    fun _ h => Async.heads_ready hE (run_instance h),
    fun _ h => Async.heads_first (run_ascending h)⟩

/-! ### Runs that show the results at work -/

/-- The row of a partner request. -/
def requestRow (id : ℕ) (e : PartnerOrderEvent) : OutboxRow :=
  ⟨id, e.eventId, e.key, .partnerRequests, .partner e, .pending, none⟩

/-- The first two operations of an order. -/
def twoOperations : List PartnerOrderEvent :=
  [Partner.sampleEvent "e1" 1, Partner.sampleEvent "e2" 2]

/-- Their cycles beside the listener, and beside the instance. -/
abbrev listenerCycles (fits : InPlace.Store → ℕ → PartnerOrderEvent → Prop) :=
  cycles (· ∈ twoOperations) (fun _ => true) (fun _ => 0) fits acceptsCalls

abbrev instanceCycles (fits : Async.Store → ℕ → PartnerOrderEvent → Prop) :=
  cycles (· ∈ twoOperations) (fun _ => true) (fun _ => 0) fits (readsInOrder (· ∈ twoOperations))

lemma catalogue_twoOperations : Catalogue (· ∈ twoOperations) :=
  Catalogue.of_list (by decide)

/-- Two rows are committed, and a cycle hands both to the broker. -/
def handsBoth : List RelayAct :=
  [.start, .go 0, .go 0, .go 0]

def commitsBoth : List RelayAct :=
  [.commit (requestRow 1 (Partner.sampleEvent "e1" 1)),
    .commit (requestRow 2 (Partner.sampleEvent "e2" 2))] ++ handsBoth

/-- The first send fails and the second is acknowledged; the next cycle sends both again. -/
def firstSendFails : List RelayAct :=
  commitsBoth ++ [.append 1 false, .fail, .go 0, .go 0] ++ handsBoth ++
    [.append 2 false, .append 3 false]

/-- The steps of the relay. -/
def relaySteps (acts : List RelayAct) : List (ℕ × (RelayAct ⊕ β)) :=
  acts.map fun a => (1, .inl a)

/-- No answer of the broker is lost: a record whose send fails is not appended. -/
def answered : RelayAct ⊕ β → Bool
  | .inl (.append _ lost) => !lost
  | _ => true

def listenerSettings : InPlace.Settings := ⟨"w", 10, false⟩

/-- A listener reads the first record of partition 0. -/
def readsFirst : List (ℕ × (RelayAct ⊕ InPlace.Act)) :=
  [(2, .inr .listen), (2, .inr (.assign 0)), (2, .inr (.take 0)), (2, .inr (.go 0))]

/-- The task of a record of partition 0, when it was added before any revocation. -/
def readTask (e : PartnerOrderEvent) (n : ℕ) : Async.AsyncTask :=
  { event := e, partition := 0, offset := n, id := n, epoch := 0 }

/-- The instance reads the records of partition 0. -/
def readsAll (events : List PartnerOrderEvent) : List (ℕ × (RelayAct ⊕ Async.Act)) :=
  events.mapIdx fun n e => (2, .inr (.add (readTask e n).toPartnerTask))

/-- Both sends are acknowledged. -/
def bothAcknowledged : List RelayAct :=
  commitsBoth ++ [.append 0 false, .append 1 false]

/-- The relay stops before it marks the rows, and sends them again. -/
def sentTwice : List RelayAct :=
  bothAcknowledged ++ [.crash] ++ handsBoth ++ [.append 2 false, .append 3 false]

/-- The listener delivers the first record and reads the second. -/
def deliversFirst : List (ℕ × (RelayAct ⊕ InPlace.Act)) :=
  readsFirst ++ List.replicate 4 (2, .inr (.go 0)) ++
    (3, .inr (.service (.serve ⟨0, Partner.sampleEvent "e1" 1⟩ false false))) ::
      List.replicate 10 (2, .inr (.go 0)) ++ [(2, .inr (.take 0))]

theorem no_wait_for_resent_records :
    (∃ c, Run (relayInPlace (fun _ => 0) listenerSettings)
        (listenerCycles (afterPredecessor inPlaceTopic))
        (Config.pair Orders.idleRelay InPlace.initial) c ∧
      (c.snd.procs 2, c.snd.store.partner.topic 0) =
        (.listening ⟨[(0, 1), (0, 0)],
          { event := Partner.sampleEvent "e2" 2, partition := 0, offset := 1 }⟩ .received,
          twoOperations ++ twoOperations) ∧
      InPlace.Unblocked listenerSettings (· ∈ twoOperations) c.snd) ∧
    (∃ c, Run (relayAsync (fun _ => 0) Async.sampleSettings)
        (instanceCycles (afterPredecessor asyncTopic))
        (Config.pair Orders.idleRelay (Async.initial Async.sampleSettings)) c ∧
      c.snd.store.queue.heads = [readTask (Partner.sampleEvent "e1" 1) 0] ∧
      c.snd.store.HeadsReady) ∧
    ∃ c, Run (relayAsync (fun _ => 0) Async.sampleSettings)
        (instanceCycles (afterEarlier asyncTopic))
        (Config.pair Orders.idleRelay (Async.initial Async.sampleSettings)) c ∧
      c.snd.store.queue.heads = [readTask (Partner.sampleEvent "e1" 1) 0] ∧
      c.snd.store.queue.HeadsFirst := by
  obtain ⟨hlistener, hready, hfirst⟩ := no_wait_for_later_records catalogue_twoOperations
    (fun _ => true) (fun _ => 0) listenerSettings Async.sampleSettings
  refine ⟨?_, ?_, ?_⟩
  · obtain ⟨c, hrun, hc⟩ := Run.exists_of_exec (relayInPlace (fun _ => 0) listenerSettings)
      (listenerCycles (afterPredecessor inPlaceTopic))
      (Config.pair Orders.idleRelay InPlace.initial) (relaySteps sentTwice ++ deliversFirst)
      (fun c => (c.snd.procs 2, c.snd.store.partner.topic 0))
      (.listening ⟨[(0, 1), (0, 0)],
        { event := Partner.sampleEvent "e2" 2, partition := 0, offset := 1 }⟩ .received,
        twoOperations ++ twoOperations) (by decide +kernel)
    exact ⟨c, hrun, hc, hlistener c hrun⟩
  · obtain ⟨c, hrun, hc⟩ := Run.exists_of_exec (relayAsync (fun _ => 0) Async.sampleSettings)
      (instanceCycles (afterPredecessor asyncTopic))
      (Config.pair Orders.idleRelay (Async.initial Async.sampleSettings))
      (relaySteps sentTwice ++ readsAll (twoOperations ++ twoOperations))
      (fun c => c.snd.store.queue.heads) [readTask (Partner.sampleEvent "e1" 1) 0]
      (by decide +kernel)
    exact ⟨c, hrun, hc, hready c hrun⟩
  · obtain ⟨c, hrun, hc⟩ := Run.exists_of_exec (relayAsync (fun _ => 0) Async.sampleSettings)
      (instanceCycles (afterEarlier asyncTopic))
      (Config.pair Orders.idleRelay (Async.initial Async.sampleSettings))
      (relaySteps bothAcknowledged ++ readsAll twoOperations)
      (fun c => c.snd.store.queue.heads) [readTask (Partner.sampleEvent "e1" 1) 0]
      (by decide +kernel)
    exact ⟨c, hrun, hc, hfirst c hrun⟩

theorem waits_when_first_send_fails :
    (∃ c r, Run (relayInPlace (fun _ => 0) listenerSettings)
        (fun c t a => listenerCycles anything c t a ∧ answered a = true)
        (Config.pair Orders.idleRelay InPlace.initial) c ∧
      c.snd.procs 2 = .listening r .attempting ∧
      ¬ c.snd.store.partner.db.recordedBefore r.task.event ∧
      ∀ n, ∃ d, Turns (InPlace.listener listenerSettings) (InPlace.running (· ∈ twoOperations) 2) 2
        c.snd n d) ∧
    ∃ c, Run (relayAsync (fun _ => 0) Async.sampleSettings)
        (fun c t a => instanceCycles anything c t a ∧ answered a = true)
        (Config.pair Orders.idleRelay (Async.initial Async.sampleSettings)) c ∧
      ¬ c.snd.store.queue.HeadsFirst := by
  constructor
  · obtain ⟨c, hrun, hc⟩ := Run.exists_of_exec (relayInPlace (fun _ => 0) listenerSettings)
      (fun c t a => listenerCycles anything c t a ∧ answered a = true)
      (Config.pair Orders.idleRelay InPlace.initial)
      (relaySteps firstSendFails ++ readsFirst)
      (fun c => (c.snd.procs 2, c.snd.store.partner.db.partnerEffect,
        c.snd.store.partner.db.lastSequence ⟨"S", 7⟩))
      (.listening ⟨[(0, 0)], { event := Partner.sampleEvent "e2" 2, partition := 0, offset := 0 }⟩
        .attempting, [], 0) (by decide +kernel)
    obtain ⟨hproc, hrest⟩ := Prod.mk.inj hc
    obtain ⟨heffects, hlast⟩ := Prod.mk.inj hrest
    refine ⟨c, _, hrun, hproc, fun hbefore => ?_, fun n => InPlace.loop_goes_on hproc ?_ ?_ n⟩
    · obtain ⟨x, hx, -⟩ := hbefore 1 le_rfl (by decide)
      rw [heffects] at hx
      cases hx
    · rintro ⟨x, hx, -⟩
      rw [heffects] at hx
      cases hx
    · have hseven : c.snd.store.partner.db.lastSequence (Partner.sampleEvent "e2" 2).order = 0 :=
        hlast
      rw [hseven]
      decide
  · obtain ⟨c, hrun, hc⟩ := Run.exists_of_exec (relayAsync (fun _ => 0) Async.sampleSettings)
      (fun c t a => instanceCycles anything c t a ∧ answered a = true)
      (Config.pair Orders.idleRelay (Async.initial Async.sampleSettings))
      (relaySteps firstSendFails ++ readsAll twoOperations.reverse)
      (fun c => c.snd.store.queue.queue "S:7")
      [readTask (Partner.sampleEvent "e2" 2) 0, readTask (Partner.sampleEvent "e1" 1) 1]
      (by decide +kernel)
    refine ⟨c, hrun, fun hfirst => ?_⟩
    have hle := hfirst "S:7" (readTask (Partner.sampleEvent "e2" 2) 0)
      (readTask (Partner.sampleEvent "e1" 1) 1) (by rw [hc]; rfl) (by rw [hc]; simp) rfl
    exact absurd hle (by decide)

end OrderSystem.Pipeline
