/-
Purging sent outbox rows and the cap on unfinished business.

* `count_deleteSent_iff`: a purge keeps `countUnfinishedBusiness` exactly when the partner
  requests it deletes are delivered.
* `Tracks`: the undelivered requests of the outbox are all the undelivered requests that were
  accepted. A purge of delivered requests keeps it (`events_deleteSent`).
* `purge_invisible_iff`: the effect of every purge on the count, and at most 200 accepted and
  undelivered requests in the runs whose purges delete delivered requests only. `purgeSent` looks
  at the status and the age of a row, and a record that is `SENT` waits in the topic or in the
  inbox as long as the seller is away.
-/
import OrderSystem.Orders.Stream
import OrderSystem.Pipeline.Business

namespace OrderSystem.Pipeline

open Interleaving Orders

variable {t : ℕ} {s s' : Orders.Store} {p p' : Orders.Proc} {a : Orders.Act} {D D' : List String}
  {partition : String → ℕ} {c : State}

/-! ### Purges -/

/-- The accepted partner requests without a row in `partner_effect`. -/
def undelivered (s : Orders.Store) (D : List String) : ℕ :=
  (s.accepted.filter fun e => e.eventId ∉ D).length

/-- The partner requests under the keys are delivered. -/
def Delivered (db : Orders.Db) (D : List String) (ids : List ℕ) : Prop :=
  ∀ r ∈ db.outbox, r.id ∈ ids → r.topic = .partnerRequests → r.eventId ∈ D

instance (db : Orders.Db) (D : List String) (ids : List ℕ) : Decidable (Delivered db D ids) :=
  inferInstanceAs (Decidable (∀ r ∈ db.outbox, _ → _ → _))

/-- A purge deletes only partner requests that are delivered. -/
def purgesDelivered (c : State) : Orders.Act ⊕ Partner.Act → Prop
  | .inl (.purge _ ids) => Delivered c.store.1.db (effectIds c.store.2.db) ids
  | _ => True

instance (c : State) (a : Orders.Act ⊕ Partner.Act) : Decidable (purgesDelivered c a) :=
  match a with
  | .inl (.purge _ ids) =>
      inferInstanceAs (Decidable (Delivered c.store.1.db (effectIds c.store.2.db) ids))
  | .inl (.createOrder _) | .inl (.change _ _) | .inl (.cancel _) | .inl (.deliver _) | .inl .relay
  | .inl (.go _ _ _) | .inl .fail | .inl (.append _ _) | .inl .abort | .inr _ => isTrue trivial

/-- The runs whose purges delete only delivered requests. -/
def deliveredRun (c : State) (t : ℕ) (a : Orders.Act ⊕ Partner.Act) : Prop :=
  reading c t a ∧ purgesDelivered c a

instance (c : State) (t : ℕ) (a : Orders.Act ⊕ Partner.Act) : Decidable (deliveredRun c t a) :=
  inferInstanceAs (Decidable (_ ∧ _))

/-- **The count behind a purge** is the count before it exactly when the purged partner requests
are delivered. -/
theorem count_deleteSent_iff (db : Orders.Db) (D : List String) (ids : List ℕ) :
    (db.deleteSent ids).countUnfinishedBusiness D = db.countUnfinishedBusiness D ↔
      Delivered db D ids := by
  have hsplit := List.countP_eq_countP_filter_add db.outbox
    (fun r => r.topic = .partnerRequests ∧ r.eventId ∉ D) (fun r => r.id ∉ ids)
  have hrest : (db.deleteSent ids).outbox = db.outbox.filter fun r => r.id ∉ ids := rfl
  rw [count_eq, count_eq, hrest, Db.deleteSent_orders, hsplit]
  constructor
  · intro heq r hr hid htopic
    have hzero : (db.outbox.filter fun r => !decide (r.id ∉ ids)).countP
        (fun r => r.topic = .partnerRequests ∧ r.eventId ∉ D) = 0 := by omega
    by_contra hopen
    refine List.countP_eq_zero.mp hzero r (List.mem_filter.mpr ⟨hr, ?_⟩) ?_
    · simpa using hid
    · exact decide_eq_true ⟨htopic, hopen⟩
  · intro hdelivered
    have hzero : (db.outbox.filter fun r => !decide (r.id ∉ ids)).countP
        (fun r => r.topic = .partnerRequests ∧ r.eventId ∉ D) = 0 := by
      refine List.countP_eq_zero.mpr fun r hr hopen => ?_
      obtain ⟨hr, hid⟩ := List.mem_filter.mp hr
      obtain ⟨htopic, hopen⟩ := of_decide_eq_true hopen
      exact hopen (hdelivered r hr (by simpa using hid) htopic)
    omega

/-! ### The accepted requests -/

/-- The undelivered requests of the outbox are the accepted ones. -/
structure Tracks (D : List String) (s : Orders.Store) : Prop where
  rows : ∀ r ∈ s.db.outbox, ∀ e ∈ r.partner, r.topic = .partnerRequests ∧ r.eventId = e.eventId
  events : (s.db.events.filter fun e => e.eventId ∉ D) = s.accepted.filter fun e => e.eventId ∉ D

/-- The undelivered requests of the outbox are counted. -/
lemma Tracks.undelivered_le (h : Tracks D s) :
    undelivered s D ≤ s.db.countUnfinishedBusiness D := by
  rw [undelivered, ← h.events, Db.events, List.filter_filterMap, List.length_filterMap_eq_countP,
    count_eq]
  refine le_trans (List.countP_mono_left fun r hr hsome => ?_) (Nat.le_add_left _ _)
  obtain ⟨e, he⟩ := Option.isSome_iff_exists.mp hsome
  obtain ⟨he, hopen⟩ := Option.filter_eq_some_iff.mp he
  obtain ⟨htopic, hid⟩ := h.rows r hr e he
  refine decide_eq_true ⟨htopic, ?_⟩
  rw [hid]
  exact of_decide_eq_true hopen

/-- More deliveries, fewer undelivered requests on both sides. -/
lemma Tracks.mono (h : Tracks D s) (hD : D ⊆ D') : Tracks D' s := by
  refine ⟨h.rows, ?_⟩
  have hfilter : ∀ l : List PartnerOrderEvent, (l.filter fun e => e.eventId ∉ D') =
      (l.filter fun e => e.eventId ∉ D).filter fun e => e.eventId ∉ D' := by
    intro l
    rw [List.filter_filter]
    refine List.filter_congr fun e _ => ?_
    by_cases he : e.eventId ∈ D' <;> simp [he]
    exact fun hmem => he (hD hmem)
  rw [hfilter, h.events, ← hfilter]

/-- A purge of delivered requests keeps the undelivered ones. -/
lemma events_deleteSent {db : Orders.Db} {ids : List ℕ}
    (hrows : ∀ r ∈ db.outbox, ∀ e ∈ r.partner, r.topic = .partnerRequests ∧ r.eventId = e.eventId)
    (h : Delivered db D ids) :
    ((db.deleteSent ids).events.filter fun e => e.eventId ∉ D) =
      db.events.filter fun e => e.eventId ∉ D := by
  rw [Db.events, Db.events, Db.deleteSent, List.filter_filterMap, List.filter_filterMap,
    List.filterMap_filter]
  refine List.filterMap_congr fun r hr => ?_
  by_cases hid : r.id ∈ ids
  · rw [if_neg (by simpa using hid)]
    cases hpartner : r.partner with
    | none => rfl
    | some e =>
        obtain ⟨htopic, heq⟩ := hrows r hr e hpartner
        have hmem : e.eventId ∈ D := heq ▸ h r hr hid htopic
        simp [Option.filter, hmem]
  · rw [if_pos (by simpa using hid)]

/-- A row that is written enters the outbox and the written rows alike. -/
lemma Tracks.insert (h : Tracks D s) {orders : List Order} {row : OutboxRow} {capacity : Bool}
    {locks : Locks.Table Orders.Resource}
    (hrow : ∀ e ∈ row.partner, row.topic = .partnerRequests ∧ row.eventId = e.eventId) :
    Tracks D { s with db := { orders := orders, outbox := s.db.outbox ++ [row],
                              capacityRow := capacity }
                      locks := locks, written := s.written ++ [row] } := by
  refine ⟨fun r hr => ?_, ?_⟩
  · rcases List.mem_append.mp hr with hr | hr
    · exact h.rows r hr
    · rw [List.mem_singleton.mp hr]
      exact hrow
  · show ((s.db.outbox ++ [row]).filterMap OutboxRow.partner).filter _ =
      ((s.written ++ [row]).filterMap OutboxRow.partner).filter _
    rw [accepted_append, accepted_append, List.filter_append, List.filter_append]
    exact congrArg (· ++ row.partner.toList.filter _) h.events

/-- Every step keeps them, if a purge does. -/
lemma Tracks.step (h : Tracks D s) (heff : Orders.Effect t s p s')
    (hpurge : p = .relaying .purging → ∃ ids, Delivered s.db D ids ∧ s'.db = s.db.deleteSent ids) :
    Tracks D s' := by
  cases heff with
  | @create o row locks hp hk hcap =>
      subst hp
      refine h.insert fun e he => ?_
      rw [hk.2.2] at he
      cases he
  | @enqueue o operation row locks hp hk hcap hmine =>
      subst hp
      refine h.insert fun e he => ?_
      obtain ⟨uuid, time, hrow⟩ := hk.2.2
      rw [hrow] at he ⊢
      cases he
      exact ⟨rfl, rfl⟩
  | @markSent sent time hp =>
      refine ⟨fun r hr => ?_, ?_⟩
      · obtain ⟨x, hx, rfl⟩ := mem_markSent hr
        split_ifs <;> exact h.rows x hx
      · show ((s.db.markSent sent time).events.filter _) = _
        rw [events_markSent]
        exact h.events
  | purge hp hsent =>
      obtain ⟨ids, hdelivered, hdb⟩ := hpurge hp
      refine ⟨fun r hr => ?_, ?_⟩
      · rw [hdb] at hr
        exact h.rows r (List.mem_filter.mp hr).1
      · rw [hdb, events_deleteSent h.rows hdelivered]
        exact h.events
  | _ => exact ⟨h.rows, h.events⟩

/-- A purge deletes what the action names. -/
lemma next_purge {before : ℤ} {ids : List ℕ}
    (h : Orders.next t s p (.purge before ids) = some (s', p')) :
    s'.db = s.db.deleteSent ids := by
  cases p with
  | relaying pc =>
      cases pc with
      | purging =>
          obtain ⟨s₁, hpurge, h⟩ := Option.map_eq_some_iff.mp h
          obtain ⟨-, rfl⟩ := purgeSent_cases hpurge
          cases h
          rfl
      | _ => cases h
  | _ => cases h

/-- The last statement of the relay deletes rows, or nothing. -/
lemma purging_cases (h : Orders.next t s (.relaying .purging) a = some (s', p')) :
    s'.db = s.db ∨ ∃ before ids, a = .purge before ids := by
  cases next_move h with
  | abort p => exact Or.inl rfl
  | relaying h =>
      cases h
      exact Or.inl rfl
  | purge h => exact Or.inr ⟨_, _, rfl⟩

/-! ### Every run -/

/-- The outbox has every undelivered request in the runs whose purges spare them. -/
theorem reachable_tracks (h : Run (pipeline partition) deliveredRun initial c) :
    Tracks (effectIds c.store.2.db) c.store.1 := by
  refine (Run.invariant (I := fun s => Tracks (effectIds s.2.db) s.1) (J := fun _ _ _ => True)
    (K := fun c => Run (pipeline partition) deliveredRun initial c) (fun _ h => h) ?_ ?_ ?_ h).1
  · exact ⟨⟨by simp [initial, Config.pair, Orders.initial], rfl⟩, fun _ => trivial⟩
  · intro c t a x q hrun hok htracks _ hnext
    have hread : Run (pipeline partition) reading initial c := hrun.mono fun _ _ _ hok => hok.1
    obtain ⟨hD, ⟨hs, -⟩ | ⟨b, rfl, hb⟩⟩ := pipeline_step hread hnext
    · rw [hs]
      exact ⟨htracks.mono hD, trivial⟩
    · have horders : Run Orders.service (fun _ _ _ => True) Orders.initial c.fst :=
        hread.fst fun _ _ _ _ => trivial
      refine ⟨(htracks.step (reachable_effect horders hb) fun hp => ?_).mono hD, trivial⟩
      have hp : (c.procs t).1 = .relaying .purging := hp
      obtain hdb | ⟨before, ids, rfl⟩ := purging_cases (hp ▸ hb)
      · exact ⟨[], fun r _ hid => (List.not_mem_nil hid).elim, by rw [hdb]; simp [Db.deleteSent]⟩
      · exact ⟨ids, hok.2, next_purge hb⟩
  · intros
    trivial

/-- **A purge is invisible to admission exactly when it deletes delivered requests only**, and
then at most 200 accepted requests are undelivered. -/
theorem purge_invisible_iff (h : Run (pipeline partition) reading initial c) :
    (∀ t before ids x q, (pipeline partition).next t c.store (c.procs t) (.inl (.purge before ids)) =
        some (x, q) →
      (x.1.db.countUnfinishedBusiness (effectIds x.2.db) =
          c.store.1.db.countUnfinishedBusiness (effectIds c.store.2.db) ↔
        Delivered c.store.1.db (effectIds c.store.2.db) ids)) ∧
    (Run (pipeline partition) deliveredRun initial c →
      undelivered c.store.1 (effectIds c.store.2.db) ≤ 200) := by
  refine ⟨fun t before ids x q hnext => ?_, fun hrun => ?_⟩
  · obtain ⟨hb, ⟨-, hs, -⟩ | ⟨b, hb', -⟩⟩ := Program.couple_inl hnext
    · rw [hs, next_purge hb]
      exact count_deleteSent_iff _ _ _
    · cases hb'
  · exact (reachable_tracks hrun).undelivered_le.trans (unfinished_business_capped h)

/-- An order is confirmed, and the relay publishes its two records and marks them. -/
def publishedOrder : List (ℕ × (Orders.Act ⊕ Partner.Act)) :=
  ((1, .createOrder sampleRequest) :: statements 1 7 'a' ++
    (1, .deliver ⟨"r", 1, .updated⟩) :: statements 1 6 'b' ++ (2, .relay) :: statements 2 3 'c' ++ [(3, .append 0 false), (3, .append 1 false)] ++
    statements 2 4 'c' : List (ℕ × Orders.Act)).map fun x => (x.1, .inl x.2)

/-- The record of the stock request is purged, the partner request stays. -/
theorem purge_of_stock_request :
    ∃ c, Run (pipeline fun _ => 0) reading initial c ∧
      (c.store.1.db.outbox.map (·.id), undelivered c.store.1 (effectIds c.store.2.db)) = ([2], 1) ∧
      undelivered c.store.1 (effectIds c.store.2.db) ≤ 200 := by
  obtain ⟨c, hrun, hc⟩ := Run.exists_of_exec (pipeline fun _ => 0) deliveredRun initial
    (publishedOrder ++ [(2, .inl (.purge 2 [1]))])
    (fun c => (c.store.1.db.outbox.map (·.id), undelivered c.store.1 (effectIds c.store.2.db)))
    ([2], 1) (by decide +kernel)
  have hread := hrun.mono fun _ _ _ hok => hok.1
  exact ⟨c, hread, hc, (purge_invisible_iff hread).2 hrun⟩

/-- **A purge hides undelivered work**: the partner request is `SENT`, nothing is delivered, and
the purge takes it out of the count. -/
theorem purge_hides_request :
    ¬ ∀ (c : State), Run (pipeline fun _ => 0) reading initial c → ∀ t before ids x q,
      (pipeline fun _ => 0).next t c.store (c.procs t) (.inl (.purge before ids)) = some (x, q) →
        x.1.db.countUnfinishedBusiness (effectIds x.2.db) =
          c.store.1.db.countUnfinishedBusiness (effectIds c.store.2.db) := by
  intro hclaim
  obtain ⟨c, hrun, hc⟩ := Run.exists_of_exec (pipeline fun _ => 0) reading initial publishedOrder
    (fun c => (c.store.1.db.countUnfinishedBusiness (effectIds c.store.2.db),
      ((pipeline fun _ => 0).next 2 c.store (c.procs 2) (.inl (.purge 2 [2]))).map fun y =>
        y.1.1.db.countUnfinishedBusiness (effectIds y.1.2.db)))
    (1, some 0) (by decide +kernel)
  obtain ⟨hbefore, hafter⟩ := Prod.mk.inj hc
  obtain ⟨⟨x, q⟩, hnext, hcount⟩ := Option.map_eq_some_iff.mp hafter
  have heq := hclaim c hrun 2 2 [2] x q hnext
  rw [hbefore, hcount] at heq
  cases heq

end OrderSystem.Pipeline
