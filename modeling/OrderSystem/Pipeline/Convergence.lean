/-
The seller catches up with the source.

* `catchingUp`: what is left to do is done. The relay publishes, the broker answers, and one
  instance of the partner service under the given settings takes over and delivers; no request
  reaches order-service.
* `makesRoom_of_undelivered`: an inbox with room for the operations that are undelivered never
  blocks the topic, in whatever order the records come.
* `accepted_closed`: the accepted operations bring their predecessors along.
* `seller_catches_up`: from every reachable state the two services can get to one in which every
  order agrees in full.
-/
import OrderSystem.Orders.Publishing
import OrderSystem.Partner.Recovery
import OrderSystem.Pipeline.Agreement
import OrderSystem.Pipeline.Purge

namespace OrderSystem.Pipeline

open Interleaving Numbering

variable {partition : String → ℕ} {c : State} {settings : Partner.PartnerSettings}

/-! ### The environment -/

/-- The two services work off what is there. -/
def catchingUp (settings : Partner.PartnerSettings) (c : State) (t : ℕ) :
    Orders.Act ⊕ Partner.Act → Prop
  | .inl a => Orders.publishing c.fst t a
  | .inr b => Partner.resuming settings anyEvent c.snd t b

lemma fresh_of_catchingUp {c' : State} (h : Run (pipeline partition) (catchingUp settings) c c') :
    Run (pipeline partition) fresh c c' := by
  refine h.mono fun c t a hok => ?_
  cases a with
  | inl a => exact Orders.unrepeated_of_publishing hok
  | inr b => exact ⟨hok.1, hok.2.2⟩

/-- What the partner service does on its own it does inside the pipeline. -/
lemma run_service {E : PartnerOrderEvent → Prop} {c₁ : Config Orders.Store Orders.Proc}
    {d d' : Config Partner.Store Partner.Proc}
    (h : Run Partner.service (Partner.resuming settings E) d d') :
    Run (pipeline partition) (catchingUp settings) (Config.pair c₁ d) (Config.pair c₁ d') := by
  refine h.inr fun d t b hok => ?_
  obtain ⟨⟨⟨hjob, -⟩, hstores⟩, hconf, hrecord⟩ := hok
  exact ⟨⟨⟨fun job h => inboxMode_of_not_stores (hstores job h) (hjob job h),
    by simp [hrecord]⟩, hstores⟩, hconf, hrecord⟩

/-! ### The relay -/

/-- The partner service takes the record a send of the relay becomes. -/
lemma carried_step {s : Orders.Store} {a : Orders.Act} {b : Partner.Act}
    (hb : carried partition s a = some b) {d : Config Partner.Store Partner.Proc} {t : ℕ}
    (hidle : d.procs t = .idle) :
    ∃ d', Partner.service.step d t b = some d' ∧ d'.procs = d.procs ∧
      d'.store.db = d.store.db := by
  obtain ⟨q, e, rfl⟩ : ∃ q e, b = .produce q e := by
    cases a with
    | append n lost =>
        simp only [carried] at hb
        split at hb
        · obtain ⟨e, -, rfl⟩ := Option.map_eq_some_iff.mp hb
          exact ⟨_, e, rfl⟩
        · cases hb
    | _ => cases hb
  refine ⟨⟨d.store.produce q e, d.procs⟩, ?_, rfl, rfl⟩
  have hstep : Partner.service.step d t (.produce q e) =
      some ⟨d.store.produce q e, Function.update d.procs t .idle⟩ := by
    simp only [Program.step, hidle, Partner.service, Partner.next, Option.map_some]
  rwa [← hidle, Function.update_eq_self] at hstep

/-- **The relay catches up**, and the tables of the partner service stay what they are. -/
lemma run_relay (settings : Partner.PartnerSettings)
    (h : Run (pipeline partition) fresh initial c) :
    ∃ c', Run (pipeline partition) (catchingUp settings) c c' ∧
      c'.fst.store.written = c.fst.store.written ∧
      c'.fst.store.db.orders = c.fst.store.db.orders ∧
      c'.snd.store.db = c.snd.store.db ∧ ∀ r ∈ c'.fst.store.db.outbox, r.status ≠ .pending := by
  -- the broker is process 1, in both services
  have habort : ∀ c t, Partner.resuming settings anyEvent c t .abort := fun c t =>
    ⟨⟨⟨by simp [Partner.Act.job], by simp [Partner.Act.record]⟩, by simp [Partner.Act.job]⟩,
      trivial, rfl⟩
  obtain ⟨procs₂, hidle₂, hstop₂⟩ := Partner.run_settle habort [1] c.snd
  let d : Config Partner.Store Partner.Proc := ⟨{ c.snd.store with locks := [] }, procs₂⟩
  let s₁ : Orders.Store := (c.fst.store.unlock 0).unlock 1
  let procs₁ := Function.update (Function.update c.fst.procs 0 .idle) 1 .idle
  have hstop₁ : Run Orders.service Orders.publishing c.fst ⟨s₁, procs₁⟩ :=
    .snoc (.snoc .nil (t := 0) (a := .abort) trivial rfl) (t := 1) (a := .abort) trivial rfl
  have hflight : ∀ y ∈ s₁.inFlight, y.1 < s₁.nextSend := fun y hy =>
    ((Orders.reachable_relayed (run_unrepeated h)).1.flight y hy).1
  have hrelay : procs₁ 0 = .idle := rfl
  obtain ⟨s', hpublish, hwritten, horders, hall⟩ := Orders.run_publish hrelay rfl hflight
  let K : Config Partner.Store Partner.Proc → Prop :=
    fun d => d.procs 1 = .idle ∧ d.store.db = c.snd.store.db
  have hcarry : ∀ (c₁ : Config Orders.Store Orders.Proc) d t a b, Orders.publishing c₁ t a →
      carried partition c₁.store a = some b → K d →
        ∃ d', Partner.service.step d t b = some d' ∧ K d' := by
    intro c₁ d t a b hok hb hd
    obtain rfl : t = 1 := by
      cases a with
      | append n lost => exact hok.1
      | _ => cases hb
    obtain ⟨d', hstep, hprocs, hdb⟩ := carried_step hb hd.1
    exact ⟨d', hstep, by rw [hprocs]; exact hd.1, hdb.trans hd.2⟩
  obtain ⟨d', hd', hrun⟩ : ∃ d', K d' ∧ Run (pipeline partition) (catchingUp settings)
      (Config.pair c.fst d) (Config.pair ⟨s', procs₁⟩ d') :=
    Run.inl (fun _ _ _ _ hok _ => hok) hcarry (hstop₁.trans hpublish) ⟨hidle₂ 1 (by simp), rfl⟩
  have hsettled : Run (pipeline partition) (catchingUp settings) (Config.pair c.fst c.snd)
      (Config.pair c.fst d) := run_service hstop₂
  exact ⟨_, hsettled.trans hrun, hwritten, horders, hd'.2, hall⟩

/-! ### The inbox -/

/-- Deliveries are not taken back. -/
lemma delivered_later {E : PartnerOrderEvent → Prop} {d d' : Config Partner.Store Partner.Proc}
    (h : Run Partner.service (Partner.fromPolls E) Partner.initial d)
    (h' : Run Partner.service (Partner.fromPolls E) d d') {id : String}
    (hd : d.store.db.isDelivered id) : d'.store.db.isDelivered id := by
  induction h' with
  | nil => exact hd
  | snoc hrun hok hstep ih =>
      obtain ⟨s', p', hnext, rfl⟩ := Program.step_eq_some _ hstep
      exact (Partner.reachable_effect (h.trans hrun) hnext).isDelivered ih

lemma undelivered_mono (s : Orders.Store) {D D' : List String} (h : D ⊆ D') :
    undelivered s D' ≤ undelivered s D := by
  rw [undelivered, undelivered, ← List.countP_eq_length_filter, ← List.countP_eq_length_filter]
  refine List.countP_mono_left fun e _ he => ?_
  simp only [decide_eq_true_eq] at he ⊢
  exact fun hd => he (h hd)

/-- **Room for every undelivered operation is room enough**: the open rows are such
operations, and the finished ones can go. -/
lemma makesRoom_of_undelivered (source : Orders.Store) {procs : ℕ → Partner.Proc} :
    Partner.MakesRoom settings (· ∈ source.accepted) procs fun s =>
      Run Partner.service (Partner.fromPolls (· ∈ source.accepted)) Partner.initial ⟨s, procs⟩ ∧
        undelivered source (effectIds s.db) ≤ settings.backlogLimit ∧
        undelivered source (effectIds s.db) ≤ settings.retainedLimit := by
  refine ⟨fun s s' hP hrun => ?_, fun s e hP hready he hnew => ?_⟩
  · have hpolls := Partner.fromPolls_of_resuming hrun
    have hle := undelivered_mono source fun id hid =>
      mem_effectIds.mpr (delivered_later hP.1 hpolls (mem_effectIds.mp hid))
    exact ⟨hP.1.trans hpolls, hle.trans hP.2.1, hle.trans hP.2.2⟩
  · obtain ⟨s', hrun, hown, hon, hinbox, heffects⟩ := Partner.run_clear settings hready
    have hready' := hready.later hrun hown
    have hopen : ∀ r ∈ s'.db.inbox, r.state ≠ .done := by
      intro r hr
      rw [hinbox] at hr
      simpa using (List.mem_filter.mp hr).2
    -- the open rows and the new event are undelivered operations
    have hnodup : (e :: s'.db.inbox.map Partner.InboxRow.event).Nodup := by
      refine List.nodup_cons.mpr ⟨fun hmem => ?_, ?_⟩
      · obtain ⟨r, hr, rfl⟩ := List.mem_map.mp hmem
        exact hnew ((hon.known _).mp (Or.inl ⟨r, hr, rfl⟩))
      · refine List.Nodup.of_map PartnerOrderEvent.eventId ?_
        rw [List.map_map]
        exact hready'.sound.inboxIds
    have hsub : e :: s'.db.inbox.map Partner.InboxRow.event ⊆
        source.accepted.filter fun e => e.eventId ∉ effectIds s.db := by
      intro x hx
      rcases List.mem_cons.mp hx with rfl | hx
      · exact List.mem_filter.mpr
          ⟨he, by simpa using fun hd => hnew (Or.inr (mem_effectIds.mp hd))⟩
      · obtain ⟨r, hr, rfl⟩ := List.mem_map.mp hx
        have hnot : ¬ s.db.isDelivered r.event.eventId := fun hd =>
          hready'.agrees.not_delivered hr (hopen r hr) ((Partner.isDelivered_congr heffects).mpr hd)
        exact List.mem_filter.mpr ⟨(hready'.agrees.rows r hr).1,
          by simpa using fun hd => hnot (mem_effectIds.mp hd)⟩
    have hle := (hnodup.subperm hsub).length_le
    rw [List.length_cons, List.length_map] at hle
    have hcount : s'.db.pendingCount ≤ s'.db.inbox.length := List.countP_le_length
    exact ⟨s', hrun, hown, hon, le_trans (by omega) (hle.trans hP.2.1), hle.trans hP.2.2⟩

/-! ### The accepted operations -/

/-- An accepted operation that is not the first of its order follows an accepted one. -/
lemma accepted_closed (h : Run (pipeline partition) fresh initial c)
    (hfew : c.fst.store.accepted.length < 2 ^ 31) {e : PartnerOrderEvent}
    (he : e ∈ c.fst.store.accepted) :
    0 < e.sequence ∧ (Partner.First e ∨ ∃ x ∈ c.fst.store.accepted, Partner.Precedes x e) := by
  have hstamping := Orders.stamping_of_unrepeated (run_unrepeated h)
  obtain ⟨o, ho, hoe⟩ := (Orders.reachable_streams hstamping).1.orders e he
  have hstream := Orders.stream_of_few hstamping hfew ho
  have hnum : Numbered ((stream c o).map (·.sequence)) := by
    rw [Numbered, List.length_map]
    exact hstream.numbered
  have hkey : e.order = key o := by
    have hsigned := (Orders.reachable_books (run_unrepeated h)).1.signed e he o ho hoe
    rw [PartnerOrderEvent.order, key, hsigned.1, hoe]
  obtain ⟨i, hi, rfl⟩ := List.getElem_of_mem ((mem_stream h ho he).mp hkey)
  have hseq := hnum.getElem hi
  refine ⟨by omega, ?_⟩
  cases i with
  | zero => exact Or.inl (by simpa [Partner.First] using hseq)
  | succ i =>
      have hi' : i < (stream c o).length := Nat.lt_of_succ_lt hi
      have hprev := hnum.getElem hi'
      have hmem : (stream c o)[i] ∈ c.fst.store.accepted :=
        (List.mem_filter.mp (List.getElem_mem hi')).1
      refine Or.inr ⟨_, hmem, ?_, ?_⟩
      · rw [hkey]
        exact (mem_stream h ho hmem).mpr (List.getElem_mem _)
      · rw [hprev, hseq]
        push_cast
        ring

/-- An order whose operations are all delivered agrees in full. -/
lemma agrees_of_delivered (h : Run (pipeline partition) fresh initial c)
    (hfew : c.fst.store.accepted.length < 2 ^ 31)
    (hall : ∀ e ∈ c.fst.store.accepted, c.snd.store.db.isDelivered e.eventId)
    {o : Orders.Order} (ho : o ∈ c.fst.store.db.orders) :
    Agrees c o (stream c o).length (stream c o).length := by
  obtain ⟨I, X, hagree⟩ := agrees h hfew ho
  obtain ⟨-, hrec, hledger⟩ := partner_facts h hfew
  have hstream := Orders.stream_of_few (Orders.stamping_of_unrepeated (run_unrepeated h)) hfew ho
  have hnum : Numbered ((stream c o).map (·.sequence)) := by
    rw [Numbered, List.length_map]
    exact hstream.numbered
  have hI : I = (stream c o).length := by
    by_contra hne
    have hlt : I < (stream c o).length := by
      have := hagree.le
      have := hagree.bound
      omega
    -- the first operation behind the recorded ones is delivered
    have hmem : (stream c o)[I] ∈ c.fst.store.accepted :=
      (List.mem_filter.mp (List.getElem_mem hlt)).1
    have horder := (mem_stream h ho hmem).mpr (List.getElem_mem hlt)
    obtain ⟨x, hx, hid⟩ := hall _ hmem
    obtain ⟨e, time, he, rfl⟩ := hrec x hx
    have hE := Orders.accepted_catalogue (run_unrepeated h) hfew
    obtain rfl : e = (stream c o)[I] := hE.payloads _ _ he hmem hid
    have hle := (hledger.mem_iff.mp ⟨_, hx, rfl, rfl⟩).2
    have hseq : (Partner.EffectRow.of (stream c o)[I] time).seq = I + 1 := hnum.getElem hlt
    have hlen := hagree.recorded.length_eq
    rw [List.length_take, min_eq_left hlt.le] at hlen
    have hkey : (Partner.EffectRow.of (stream c o)[I] time).order = key o := horder
    rw [hseq, hkey, hledger.lastSequence_eq, ← hlen] at hle
    omega
  have hX : X = (stream c o).length := le_antisymm hagree.bound (hI ▸ hagree.le)
  rw [hI, hX] at hagree
  exact hagree

/-! ### Convergence -/

/-- **The seller catches up.** From every reachable state, with whatever is pending, in
flight, out of sequence, half stored or half delivered, the two services can get to a state
in which every accepted operation is delivered and every order agrees in full, without
another request, under any settings that do not shut out everything and have room for the
operations that are undelivered. -/
theorem seller_catches_up (h : Run (pipeline partition) fresh initial c)
    (hfew : c.fst.store.accepted.length < 2 ^ 31) (hset : settings.Open)
    (hbacklog : undelivered c.fst.store (effectIds c.snd.store.db) ≤ settings.backlogLimit)
    (hretained : undelivered c.fst.store (effectIds c.snd.store.db) ≤ settings.retainedLimit) :
    ∃ c', Run (pipeline partition) (catchingUp settings) c c' ∧
      c'.fst.store.accepted = c.fst.store.accepted ∧
      c'.fst.store.db.orders = c.fst.store.db.orders ∧
      (∀ e ∈ c'.fst.store.accepted, c'.snd.store.db.isDelivered e.eventId) ∧
      ∀ o ∈ c'.fst.store.db.orders, Agrees c' o (stream c' o).length (stream c' o).length := by
  obtain ⟨c₁, hrelay, hwritten, horders, hdb₁, hsent⟩ := run_relay settings h
  have h₁ := h.trans (fresh_of_catchingUp hrelay)
  have haccepted : c₁.fst.store.accepted = c.fst.store.accepted := by
    rw [Orders.Store.accepted, hwritten, Orders.Store.accepted]
  have hfew₁ : c₁.fst.store.accepted.length < 2 ^ 31 := by rwa [haccepted]
  have hE := Orders.accepted_catalogue (run_unrepeated h₁) hfew₁
  have hstamped := (Orders.reachable_streams
    (Orders.stamping_of_unrepeated (run_unrepeated h₁))).1.stamped
  have hvalid : ∀ e, e ∈ c₁.fst.store.accepted → e.valid = true := fun e he =>
    (hstamped e he).valid (accepted_closed h₁ hfew₁ he).1
  obtain ⟨s, procs, hstop, hready, htopic, hdb⟩ :=
    Partner.run_ready settings (run_accepted (kafka_of_fresh h₁) fun _ he => he)
  have hroom : undelivered c₁.fst.store (effectIds s.db) =
      undelivered c.fst.store (effectIds c.snd.store.db) := by
    rw [undelivered, haccepted, hdb, hdb₁, undelivered]
  obtain ⟨s₁, htake, hown₁, htopic₁, hall⟩ := Partner.run_topic hE hvalid
    (makesRoom_of_undelivered c₁.fst.store)
    ⟨hready.reached, hroom ▸ hbacklog, hroom ▸ hretained⟩ hready
  have hready₁ := hready.later htake hown₁
  -- every accepted operation is in the topic, and what is in the topic is taken over
  have hin : ∀ e ∈ c₁.fst.store.accepted, ∃ q, e ∈ s₁.topic q := by
    intro e he
    rcases Orders.pending_or_published (run_unrepeated h₁) he with ⟨r, hr, -, hp⟩ | ⟨r, hr, hre⟩
    · exact absurd hp (hsent r hr)
    · refine ⟨partition r.aggregateId, ?_⟩
      rw [htopic₁, htopic]
      exact broker_in_topic (kafka_of_fresh h₁) r hr e hre
  have hknown : ∀ e ∈ c₁.fst.store.accepted, s₁.db.known e := by
    intro e he
    obtain ⟨q, hq⟩ := hin e he
    refine (hready₁.behind q).2 e ?_
    show e ∈ (s₁.topic q).take (s₁.committed q)
    rwa [hall q, List.take_length]
  have hclosed : Partner.Closed (· ∈ c₁.fst.store.accepted) s₁.db := by
    intro e he _
    obtain hfirst | ⟨x, hx, hxe⟩ := (accepted_closed h₁ hfew₁ he).2
    · exact Or.inl hfirst
    · exact Or.inr ⟨x, hx, hxe, hknown x hx⟩
  obtain ⟨s₂, hdrain, hown₂, hon, hdone⟩ := Partner.run_drain hE hset hready₁ hclosed
  have hready₂ := hready₁.later hdrain hown₂
  have hend : ∀ q, s₂.committed q = (s₂.topic q).length := by
    rw [hon.committed, hon.topic]
    exact hall
  let c₂ : State := Config.pair c₁.fst ⟨s₂, procs⟩
  have hdelivered : ∀ e ∈ c₂.fst.store.accepted, c₂.snd.store.db.isDelivered e.eventId := by
    intro e he
    obtain ⟨q, hq⟩ := hin e he
    exact Partner.delivered_of_taken hready₂ hend hdone (by rw [hon.topic]; exact hq)
  have hservice : Run (pipeline partition) (catchingUp settings) (Config.pair c₁.fst c₁.snd) c₂ :=
    run_service (hstop.trans (htake.trans hdrain))
  have h₂ := h₁.trans (fresh_of_catchingUp hservice)
  exact ⟨c₂, hrelay.trans hservice, haccepted, horders, hdelivered,
    fun o ho => agrees_of_delivered h₂ hfew₁ hdelivered ho⟩

/-- The creation of the order is delivered, its change is at the seller and not recorded. -/
theorem seller_catches_up_with_changed_order :
    ∃ c, Run (pipeline fun _ => 0) fresh initial c ∧
      (c.snd.store.db.partnerEffect.map (·.seq), c.fst.store.accepted.map (·.sequence)) =
        ([1], [1, 2]) ∧
      ∃ c', Run (pipeline fun _ => 0) (catchingUp ⟨1, 1, 1000, 10, 1, 1⟩) c c' ∧
        c'.fst.store.accepted = c.fst.store.accepted ∧
        c'.fst.store.db.orders = c.fst.store.db.orders ∧
        (∀ e ∈ c'.fst.store.accepted, c'.snd.store.db.isDelivered e.eventId) ∧
        ∀ o ∈ c'.fst.store.db.orders, Agrees c' o (stream c' o).length (stream c' o).length := by
  obtain ⟨c, hrun, hc⟩ := Run.exists_of_exec (pipeline fun _ => 0) fresh initial
    (changedOrder.map (fun x => (x.1, .inl x.2)) ++ followedOrder.map (fun x => (x.1, .inr x.2)))
    (fun c => ((c.snd.store.db.partnerEffect.map (·.seq), c.fst.store.accepted.map (·.sequence)),
      undelivered c.fst.store (effectIds c.snd.store.db)))
    (([1], [1, 2]), 1) (by decide +kernel)
  obtain ⟨hc, hleft⟩ := Prod.mk.inj hc
  have hlen : c.fst.store.accepted.length = 2 := by
    simpa using congrArg (fun x => x.2.length) hc
  exact ⟨c, hrun, hc, seller_catches_up hrun (by omega)
    ⟨by decide, by decide, by decide, by decide, by decide⟩ hleft.le hleft.le⟩

end OrderSystem.Pipeline
