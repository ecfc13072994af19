/-
From the source transaction to the delivery ledger: order-service and the partner
service over one broker.

* `pipeline`: the two services side by side. A partner request the broker appends
  for the relay is a record of the partner topic, in the partition of its key.
* `kafka`: the environment. Records enter the topic only through the relay, and the
  partner service runs in INBOX mode on what its polls return.
* `no_operation_lost`: in every reachable state an accepted operation is pending in
  the outbox, or waits in the topic at or above the committed offset, or waits in
  the inbox, or is delivered.
-/
import OrderSystem.Foundations.Coupling
import OrderSystem.Orders.Relay
import OrderSystem.Partner.Intake

namespace OrderSystem.Pipeline

open Interleaving

/-! ### The two services -/

/-- The record of the partner topic that an append of the broker is. -/
def carried (partition : String → ℕ) (s : Orders.Store) : Orders.Act → Option Partner.Act
  | .append n _ =>
      match s.inFlight.lookup n with
      | some r => r.partner.map (.produce (partition r.aggregateId))
      | none => none
  | _ => none

/-- order-service and the partner service over one broker; `partition` is the
partitioner of the producer. -/
def pipeline (partition : String → ℕ) :
    Program (Orders.Store × Partner.Store) (Orders.Proc × Partner.Proc)
      (Orders.Act ⊕ Partner.Act) :=
  Orders.service.couple Partner.service (carried partition)

/-- Both services with empty tables. -/
def initial : Config (Orders.Store × Partner.Store) (Orders.Proc × Partner.Proc) :=
  Config.pair Orders.initial Partner.initial

/-- A configuration of the two services. -/
abbrev State := Config (Orders.Store × Partner.Store) (Orders.Proc × Partner.Proc)

/-- Any event may be in the topic. -/
def anyEvent (_ : PartnerOrderEvent) : Prop := True

instance : DecidablePred anyEvent := fun _ => isTrue trivial

/-- The partner service in INBOX mode; only the relay fills its topic. -/
def kafka (c : State) (t : ℕ) : Orders.Act ⊕ Partner.Act → Prop
  | .inl _ => True
  | .inr b => Partner.fromPolls anyEvent c.snd t b ∧ b.record = none

instance (c : State) (t : ℕ) (a : Orders.Act ⊕ Partner.Act) : Decidable (kafka c t a) :=
  match a with
  | .inl _ => isTrue trivial
  | .inr b => inferInstanceAs (Decidable (Partner.fromPolls anyEvent c.snd t b ∧ b.record = none))

variable {partition : String → ℕ} {c : State}

lemma run_orders (h : Run (pipeline partition) kafka initial c) :
    Run Orders.service (fun _ _ _ => True) Orders.initial c.fst :=
  h.fst fun _ _ _ _ => trivial

lemma run_partner (h : Run (pipeline partition) kafka initial c) :
    Run Partner.service (Partner.fromPolls anyEvent) Partner.initial c.snd := by
  refine h.snd (fun c t a b _ hb => ?_) fun c t b hok => hok.1
  cases a with
  | append n lost =>
      simp only [carried] at hb
      split at hb
      · obtain ⟨e, -, rfl⟩ := Option.map_eq_some_iff.mp hb
        exact ⟨⟨by simp [Partner.Act.job], fun _ _ => trivial⟩, by simp [Partner.Act.job]⟩
      · cases hb
  | _ => cases hb

/-! ### Records -/

/-- What a step of order-service adds to the broker. -/
lemma next_broker {t : ℕ} {s s' : Orders.Store} {p p' : Orders.Proc} {a : Orders.Act}
    (h : Orders.next t s p a = some (s', p')) :
    s'.broker = s.broker ∨ ∃ n lost r, a = .append n lost ∧ s.inFlight.lookup n = some r ∧
      s'.broker = s.broker ++ [r] := by
  have hrefuse : ∀ {message : String}, Orders.refuse t s message = some (s', p') →
      s'.broker = s.broker := by
    intro message h
    cases h
    rfl
  cases Orders.next_move h with
  | @append n lost _ happend =>
      refine Or.inr ⟨n, lost, ?_⟩
      unfold Orders.append at happend
      split at happend <;> cases happend
      exact ⟨_, rfl, ‹_›, rfl⟩
  | mutate h =>
      obtain ⟨_, h⟩ | ⟨_, _, -, -, -, -, rfl, -⟩ := Orders.mutateNext_cases h
      · exact Or.inl (hrefuse h)
      · exact Or.inl rfl
  | handle h =>
      obtain ⟨rfl, -⟩ | ⟨_, _, -, -, rfl, -⟩ := Orders.handleNext_cases h <;> exact Or.inl rfl
  | inside h =>
      refine Or.inl ?_
      unfold Orders.txNext at h
      split at h <;> try split_ifs at h
      all_goals first
        | exact hrefuse h
        | (cases h; rfl)
        | (split at h <;> cases h <;> rfl)
  | relaying h =>
      refine Or.inl ?_
      unfold Orders.relayNext at h
      split at h <;> try split_ifs at h
      all_goals (cases h; rfl)
  | purge hpurge =>
      obtain ⟨-, rfl⟩ := Orders.purgeSent_cases hpurge
      exact Or.inl rfl
  | _ => exact Or.inl rfl

/-- The topic of the partner service only grows. -/
lemma topic_subset {ok : Config Partner.Store Partner.Proc → ℕ → Partner.Act → Prop}
    {d : Config Partner.Store Partner.Proc} (h : Run Partner.service ok Partner.initial d) {t : ℕ}
    {s' : Partner.Store} {p' : Partner.Proc} {b : Partner.Act}
    (hnext : Partner.next t d.store (d.procs t) b = some (s', p')) (q : ℕ) :
    d.store.topic q ⊆ s'.topic q :=
  (Partner.topic_grows (Partner.reachable_effect h hnext) hnext q).subset

lemma next_produce {t q : ℕ} {s s' : Partner.Store} {p p' : Partner.Proc} {e : PartnerOrderEvent}
    (h : Partner.next t s p (.produce q e) = some (s', p')) : s' = s.produce q e := by
  cases p <;> cases h
  rfl

/-- Every partner request in the broker is a record of the partner topic. -/
theorem broker_in_topic (h : Run (pipeline partition) kafka initial c) :
    ∀ r ∈ c.fst.store.broker, ∀ e ∈ r.partner, e ∈ c.snd.store.topic (partition r.aggregateId) := by
  induction h with
  | nil => exact fun r hr => by cases hr
  | @snoc c c' t a hrun hok hstep ih =>
      obtain ⟨x, hx, rfl⟩ := Option.map_eq_some_iff.mp hstep
      intro r hr e he
      have hr : r ∈ x.1.1.broker := hr
      show e ∈ x.1.2.topic (partition r.aggregateId)
      cases a with
      | inr b =>
          obtain ⟨hnext, hs, -⟩ := Program.couple_inr hx
          rw [hs] at hr
          exact topic_subset (run_partner hrun) hnext _ (ih r hr e he)
      | inl a =>
          obtain ⟨hnext, hsync⟩ := Program.couple_inl hx
          -- what was in the topic stays there
          have hold : r ∈ c.fst.store.broker → e ∈ x.1.2.topic (partition r.aggregateId) := by
            intro hr
            rcases hsync with ⟨-, hs, -⟩ | ⟨b, -, hnext⟩
            · rw [hs]
              exact ih r hr e he
            · exact topic_subset (run_partner hrun) hnext _ (ih r hr e he)
          rcases next_broker hnext with heq | ⟨n, lost, r', rfl, hlookup, heq⟩
          · rw [heq] at hr
            exact hold hr
          · rw [heq] at hr
            rcases List.mem_append.mp hr with hr | hr
            · exact hold hr
            · obtain rfl := List.mem_singleton.mp hr
              rw [Option.mem_def] at he
              rcases hsync with ⟨hnone, -, -⟩ | ⟨b, hb, hnext⟩
              · simp [carried, hlookup, he] at hnone
              · simp only [carried, hlookup, he, Option.map_some, Option.some.injEq] at hb
                subst hb
                rw [next_produce hnext]
                simp [Partner.Store.produce]

/-! ### The result -/

/-- The operation is somewhere between its source transaction and the ledger. -/
inductive Tracked (c : State) (e : PartnerOrderEvent) : Prop
  | pending (r : Orders.OutboxRow) (hr : r ∈ c.fst.store.db.outbox) (he : r.partner = some e)
      (h : r.status = .pending)
  | inTopic (q i : ℕ) (hi : c.snd.store.committed q ≤ i) (he : (c.snd.store.topic q)[i]? = some e)
  | inInbox (r : Partner.InboxRow) (hr : r ∈ c.snd.store.db.inbox) (he : r.eventId = e.eventId)
      (h : r.state ≠ .done)
  | delivered (h : c.snd.store.db.isDelivered e.eventId)

/-- **No accepted operation is lost.** For every partner operation whose source
transaction committed, in every reachable state, its outbox row is `PENDING`, or
its record is in the topic at or above the committed offset of its partition, or
its inbox row is not `DONE`, or it is in `partner_effect`. -/
theorem no_operation_lost (h : Run (pipeline partition) kafka initial c) :
    ∀ e ∈ c.fst.store.accepted, Tracked c e := by
  intro e he
  have hpartner := run_partner h
  rcases Orders.pending_or_published (run_orders h) he with ⟨r, hr, hre, hpending⟩ | ⟨r, hr, hre⟩
  · exact .pending r hr hre hpending
  · have htopic := broker_in_topic h r hr e hre
    obtain ⟨i, hi⟩ := List.mem_iff_getElem?.mp htopic
    rcases Nat.lt_or_ge i (c.snd.store.committed (partition r.aggregateId)) with hlt | hge
    · have hbelow : e ∈ (c.snd.store.topic (partition r.aggregateId)).take
          (c.snd.store.committed (partition r.aggregateId)) := by
        refine List.mem_iff_getElem?.mpr ⟨i, ?_⟩
        rw [List.getElem?_take_of_lt hlt]
        exact hi
      rcases Partner.committed_known hpartner hbelow with ⟨x, hx, hxe⟩ | hd
      · have hagree := (Partner.reachable_agrees (Partner.inboxMode_of_fromPolls hpartner)).1
        by_cases hdone : x.state = .done
        · refine .delivered ?_
          rw [← hxe]
          exact (hagree.done x hx).mp hdone
        · exact .inInbox x hx hxe hdone
      · exact .delivered hd
    · exact .inTopic _ i hge hi

/-- An order is created and confirmed and its request is published, but the answer
of the broker is lost and the relay stops. -/
def lostAnswer : List (ℕ × Orders.Act) :=
  (1, .createOrder Orders.sampleRequest) :: Orders.statements 1 7 'a' ++
  (1, .deliver ⟨"r", 1, .updated⟩) :: Orders.statements 1 6 'b' ++
  (2, .relay) :: Orders.statements 2 3 'c' ++
  [(3, .append 0 false), (3, .append 1 true), (2, .abort)]

/-- The partner service stores the record and stops before the acknowledgement. -/
def storedUnacknowledged : List (ℕ × Partner.Act) :=
  [(4, .start .consume), (4, .assign 0), (4, .poll [(0, 1)] 10 10 0)] ++
    Partner.statements 4 7 0 ++ [(4, .abort)]

theorem no_operation_lost_when_cut :
    ∃ c, Run (pipeline fun _ => 0) kafka initial c ∧
      (c.fst.store.accepted.map (·.sequence), c.snd.store.db.inbox.map (·.event.sequence),
        c.snd.store.committed 0) = ([1], [1], 0) ∧
      ∀ e ∈ c.fst.store.accepted, Tracked c e := by
  obtain ⟨c, hrun, hc⟩ := Run.exists_of_exec (pipeline fun _ => 0) kafka initial
    (lostAnswer.map (fun x => (x.1, .inl x.2)) ++
      storedUnacknowledged.map (fun x => (x.1, .inr x.2)))
    (fun c => (c.fst.store.accepted.map (·.sequence),
      c.snd.store.db.inbox.map (·.event.sequence), c.snd.store.committed 0))
    ([1], [1], 0) (by decide +kernel)
  exact ⟨c, hrun, hc, no_operation_lost hrun⟩

end OrderSystem.Pipeline
