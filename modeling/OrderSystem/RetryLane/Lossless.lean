/-
The retry lane loses nothing.

* `Store.done`: a record of the main topic is dealt with once its event is delivered or
  stands in the retry topic; a record of the retry topic, once its event is delivered or
  stands in the partition again, behind the record.
* `Lossless`: everything below a committed offset is dealt with. The event of a record is
  always in the partition of its key, so a record that is put back lies behind itself.
* `Proc.knows`: a send that was acknowledged is in the topic; a listener acknowledges what
  is dealt with.
* `retry_lane_loses_nothing`: an event below the main group's offset is delivered, or a
  record of it stands at or above the retry group's offset.
-/
import OrderSystem.RetryLane.Effects

namespace OrderSystem.RetryLane

open Interleaving Requeue

variable {cfg : Settings} {t u : ℕ} {s s' : Store} {p p' : Proc} {a : Act} {l : Listener}
  {q i n : ℕ} {e : PartnerOrderEvent} {r : Reading}

/-! ### The invariant -/

/-- The event of the record at offset `i` stands in the retry topic, for a record of the
retry topic behind itself. -/
def Store.parked (s : Store) : Listener → ℕ → ℕ → PartnerOrderEvent → Prop
  | .main, _, _, e => ∃ q, e ∈ s.log .retry q
  | .retry, q, i, e => Again (s.log .retry q) i e

/-- The record at offset `i` is dealt with. -/
def Store.done (s : Store) (l : Listener) (q i : ℕ) (e : PartnerOrderEvent) : Prop :=
  s.partner.db.isDelivered e.eventId ∨ s.parked l q i e

/-- A position with everything below it dealt with. -/
def Store.settled (s : Store) (l : Listener) (q n : ℕ) : Prop :=
  Settled (s.done l q) (s.log l q) n

/-- The topics, the sends and the offsets in every reachable state. -/
structure Lossless (cfg : Settings) (s : Store) : Prop where
  committed : ∀ l q, s.settled l q (s.committed l q)
  routed : ∀ q, ∀ e ∈ s.log .retry q, cfg.partition e.key = q
  sends : ∀ x ∈ s.sending, x.1 < s.nextSend
  acks : ∀ n ∈ s.acks, n < s.nextSend

/-- The record a listener call is about stands at the position of the consumer. -/
structure Reading.stands (s : Store) (r : Reading) : Prop where
  positions : ∀ x ∈ r.positions, s.settled r.listener x.1 x.2
  position : s.settled r.listener r.task.partition r.task.offset
  record : (s.log r.listener r.task.partition)[r.task.offset]? = some r.task.event

/-- The record of the listener call is dealt with. -/
def Reading.done (s : Store) (r : Reading) : Prop :=
  s.done r.listener r.task.partition r.task.offset r.task.event

/-- What a listener call may rely on. -/
def ListenPc.knows (s : Store) (r : Reading) : ListenPc → Prop
  | .processing _ p => ∃ job pc, p = .delivering job pc ∧ job.event = r.task.event
  | .awaiting _ n => n < s.nextSend ∧ (∀ x, (n, x) ∈ s.sending → x.event = r.task.event) ∧
      (n ∈ s.acks → s.parked r.listener r.task.partition r.task.offset r.task.event)
  | .acknowledge => r.done s
  | _ => True

/-- What a process may rely on. -/
def Proc.knows (s : Store) : Proc → Prop
  | .service _ => True
  | .consuming l _ positions => ∀ x ∈ positions, s.settled l x.1 x.2
  | .listening r pc => r.stands s ∧ pc.knows s r

/-! ### What a step leaves alone -/

namespace Later

lemma parked (h : Later s s') (hp : s.parked l q i e) : s'.parked l q i e := by
  cases l with
  | main =>
      obtain ⟨q', he⟩ := hp
      exact ⟨q', (h.log .retry q').subset he⟩
  | retry => exact Again.later hp (h.log .retry q)

lemma done (h : Later s s') (hd : s.done l q i e) : s'.done l q i e :=
  hd.imp (h.delivered _) h.parked

lemma settled (h : Later s s') (hs : s.settled l q n) : s'.settled l q n :=
  Settled.later hs (h.log l q) fun _ _ => h.done

lemma stands (h : Later s s') (hr : r.stands s) : r.stands s' :=
  ⟨fun x hx => h.settled (hr.positions x hx), h.settled hr.position,
    getElem?_of_isPrefix (h.log _ _) hr.record⟩

end Later

/-- A record that was appended in the partition of its key parks its event for the
listener call it was sent by. -/
lemma parked_of_put {x : RetryRecord} (hI : Lossless cfg s) (hr : r.stands s)
    (hx : x.event = r.task.event) (hlog : s'.log .retry (cfg.partition x.event.key) =
      s.log .retry (cfg.partition x.event.key) ++ [x.event]) :
    s'.parked r.listener r.task.partition r.task.offset r.task.event := by
  have hrecord := hr.record
  cases hl : r.listener with
  | main =>
      refine ⟨cfg.partition x.event.key, ?_⟩
      rw [hlog, ← hx]
      exact List.mem_append_right _ (List.mem_singleton_self _)
  | retry =>
      rw [hl] at hrecord
      obtain ⟨hlt, -⟩ := List.getElem?_eq_some_iff.mp hrecord
      have hq : cfg.partition x.event.key = r.task.partition := by
        rw [hx]
        exact hI.routed _ _ (List.mem_of_getElem? hrecord)
      rw [hq] at hlog
      rw [Store.parked, hlog, hx]
      exact Again.concat hlt _

/-- A send that another process, or the broker, takes up stays what it was. -/
lemma ListenPc.knows_later {pc : ListenPc} (hI : Lossless cfg s) (heff : Effect cfg s p s')
    (hlater : Later s s') (hr : r.stands s) (hk : pc.knows s r) : pc.knows s' r := by
  cases pc with
  | awaiting admitted n =>
      obtain ⟨hn, hsend, hack⟩ := hk
      refine ⟨hn.trans_le hlater.nextSend, ?_⟩
      cases heff with
      | publish hp x hx =>
          refine ⟨fun y hy => ?_, hack⟩
          rcases List.mem_append.mp hy with hy | hy
          · exact hsend y hy
          · cases List.mem_singleton.mp hy
            exact absurd hn (lt_irrefl _)
      | @append m x lost hx =>
          refine ⟨fun y hy => hsend y (List.mem_filter.mp hy).1, fun hn' => ?_⟩
          by_cases hnm : n = m
          · obtain ⟨l₁, l₂, hl, -⟩ := List.lookup_eq_some_iff.mp hx
            refine parked_of_put hI hr (hsend x ?_) (by simp [Store.log, Store.put])
            rw [hl, hnm]
            simp
          · refine hlater.parked (hack ?_)
            split_ifs at hn'
            · exact hn'
            · simpa [hnm] using hn'
      | work ps memory => exact ⟨hsend, fun hn' => hlater.parked (hack hn')⟩
      | acknowledge hp => exact ⟨hsend, fun hn' => hlater.parked (hack hn')⟩
  | acknowledge => exact hlater.done hk
  | _ => exact hk

lemma Proc.knows_later {p₁ : Proc} (hI : Lossless cfg s) (heff : Effect cfg s p s')
    (hlater : Later s s') (hk : p₁.knows s) : p₁.knows s' := by
  cases p₁ with
  | service _ => trivial
  | consuming l owner positions => exact fun x hx => hlater.settled (hk x hx)
  | listening r pc => exact ⟨hlater.stands hk.1, ListenPc.knows_later hI heff hlater hk.1 hk.2⟩

/-! ### What a step establishes -/

/-- Every step keeps the invariant. -/
lemma Lossless.step (hI : Lossless cfg s) (hk : p.knows s) (heff : Effect cfg s p s')
    (hlater : Later s s') : Lossless cfg s' := by
  have hkept : ∀ l q, s'.settled l q (s.committed l q) := fun l q =>
    hlater.settled (hI.committed l q)
  cases heff with
  | work ps memory => exact ⟨hkept, hI.routed, hI.sends, hI.acks⟩
  | publish hp x hx =>
      refine ⟨hkept, hI.routed, fun y hy => ?_, fun n hn => Nat.lt_succ_of_lt (hI.acks n hn)⟩
      rcases List.mem_append.mp hy with hy | hy
      · exact Nat.lt_succ_of_lt (hI.sends y hy)
      · cases List.mem_singleton.mp hy
        exact Nat.lt_succ_self _
  | @append n x lost hx =>
      obtain ⟨l₁, l₂, hl, -⟩ := List.lookup_eq_some_iff.mp hx
      have hn : n < s.nextSend := hI.sends (n, x) (by rw [hl]; simp)
      refine ⟨hkept, fun q e he => ?_, fun y hy => hI.sends y (List.mem_filter.mp hy).1,
        fun m hm => ?_⟩
      · simp only [Store.log, Store.put, Function.update_apply] at he
        split_ifs at he with hq
        · subst hq
          rw [List.map_append] at he
          rcases List.mem_append.mp he with he | he
          · exact hI.routed _ e he
          · rw [List.mem_singleton.mp he]
        · exact hI.routed q e he
      · split_ifs at hm
        · exact hI.acks m hm
        · rcases List.mem_append.mp hm with hm | hm
          · exact hI.acks m hm
          · rwa [List.mem_singleton.mp hm]
  | @acknowledge r hp =>
      subst hp
      refine ⟨fun l q => ?_, hI.routed, hI.sends, hI.acks⟩
      obtain ⟨hr, hdone⟩ := hk
      simp only [Store.commit, Function.update_apply]
      by_cases hl : l = r.listener
      · subst hl
        rw [if_pos rfl, Function.update_apply]
        split_ifs with hq
        · subst hq
          exact hlater.settled (hr.position.advance hr.record hdone)
        · exact hkept _ _
      · rw [if_neg hl]
        exact hkept _ _

/-- The record a consumer takes stands at its position. -/
lemma stands_of_take {owner : String} {positions : List (ℕ × ℕ)}
    (hk : ∀ x ∈ positions, s.settled l x.1 x.2) (hn : positions.lookup q = some n)
    (hr : readingOf s l owner positions q n = some r) : r.stands s := by
  obtain ⟨l₁, l₂, hl, -⟩ := List.lookup_eq_some_iff.mp hn
  have hq : s.settled l q n := hk (q, n) (by rw [hl]; simp)
  cases l with
  | main =>
      obtain ⟨e, he, rfl⟩ := Option.map_eq_some_iff.mp hr
      exact ⟨hk, hq, he⟩
  | retry =>
      obtain ⟨x, hx, rfl⟩ := Option.map_eq_some_iff.mp hr
      exact ⟨hk, hq, by simp [Store.log, hx]⟩

/-- A statement of `process` leaves the delivery at work on its event. -/
lemma delivering_next {job : Partner.ProcessJob} {pc : Partner.ProcessPc} {jvm : ℤ}
    {ps ps' : Partner.Store} {q' : Partner.Proc}
    (h : Partner.next t ps (.delivering job pc) (.go jvm) = some (ps', q')) (hq' : q' ≠ .idle) :
    ∃ pc', q' = .delivering job pc' :=
  (Partner.processNext_proc h).resolve_right hq'

/-- What a listener call knows after its own step. -/
lemma listenNext_knows {pc : ListenPc} {jvm : ℤ} (hI : Lossless cfg s) (hlater : Later s s')
    (hdel : (Proc.listening r pc).partner.delivered s.partner)
    (hr : r.stands s) (hk : pc.knows s r) (h : listenNext cfg t s r jvm pc = some (s', p')) :
    p'.knows s' := by
  have hr' : r.stands s' := hlater.stands hr
  cases pc with
  | received =>
      simp only [listenNext, receiveMain, receiveRetry, deliver] at h
      repeat' split at h
      all_goals first
        | cases h
          first
            | exact ⟨⟨hr.positions, hr.position, hr.record⟩, trivial⟩
            | exact ⟨⟨hr.positions, hr.position, hr.record⟩, _, _, rfl, rfl⟩
            | exact hr.positions
        | cases h
  | admitting deadline =>
      simp only [listenNext, admitOrPark, deliver] at h
      repeat' split at h
      all_goals
        cases h
        first
          | exact ⟨hr', trivial⟩
          | exact ⟨hr', _, _, rfl, rfl⟩
  | processing admitted q =>
      obtain ⟨job, pc, rfl, hjob⟩ := hk
      obtain ⟨ps, q', hnext, hcase⟩ := processStep_cases h
      cases hcase with
      | returned job' hq hq' =>
          cases hq
          refine ⟨hr', Or.inl (hlater.delivered _ ?_)⟩
          rw [← hjob]
          exact hdel rfl
      | failed hq' => exact ⟨hr', trivial⟩
      | goesOn calls hq' =>
          obtain ⟨pc', rfl⟩ := delivering_next hnext hq'
          exact ⟨⟨hr'.positions, hr'.position, hr'.record⟩, job, pc', rfl, hjob⟩
  | publishing admitted =>
      cases h
      refine ⟨⟨hr'.positions, hr'.position, hr'.record⟩, Nat.lt_succ_self _, fun x hx => ?_,
        fun hn => absurd (hI.acks _ hn) (lt_irrefl _)⟩
      rcases List.mem_append.mp hx with hx | hx
      · exact absurd (hI.sends _ hx) (lt_irrefl _)
      · cases List.mem_singleton.mp hx
        rfl
  | awaiting admitted n =>
      simp only [listenNext] at h
      split_ifs at h with hack
      cases h
      exact ⟨hr', Or.inr (hlater.parked (hk.2.2 hack))⟩
  | acknowledge =>
      cases h
      intro x hx
      rcases List.mem_cons.mp hx with rfl | hx
      · exact hlater.settled (hr.position.advance hr.record hk)
      · exact hr'.positions x hx

/-- What a process knows after its own step. -/
lemma next_knows (hI : Lossless cfg s) (hlater : Later s s')
    (hdel : p.partner.delivered s.partner) (hk : p.knows s)
    (h : next cfg t s p a = some (s', p')) : p'.knows s' := by
  cases next_move h with
  | abort p => trivial
  | listen l owner => exact fun x hx => absurd hx (by simp)
  | restart owner => trivial
  | append happ => trivial
  | service hnext => trivial
  | assign l owner positions q =>
      intro x hx
      rcases List.mem_cons.mp hx with rfl | hx
      · exact hI.committed l q
      · exact hk x hx
  | revoke l owner positions q => exact fun x hx => hk x (List.mem_filter.mp hx).1
  | take hn hr => exact ⟨stands_of_take hk hn hr, trivial⟩
  | listener hlisten => exact listenNext_knows hI hlater hdel hk.1 hk.2 hlisten
  | throw r pc =>
      have hr := hlater.stands hk.1
      cases pc with
      | processing admitted q => exact ⟨hr, trivial⟩
      | _ => exact hr.positions

/-! ### Every run -/

/-- The invariant holds in every run. -/
theorem reachable_lossless {ok : Config Store Proc → ℕ → Act → Prop} {c : Config Store Proc}
    (h : Run (lane cfg) ok (initial cfg) c) :
    Lossless cfg c.store ∧ ∀ t, (c.procs t).knows c.store := by
  refine Run.invariant (I := Lossless cfg) (J := fun _ s p => p.knows s)
    (K := fun c => Run (lane cfg) ok (initial cfg) c) (fun _ h => h) ?_ ?_ ?_ h
  · refine ⟨⟨fun l q => ?_, fun q e he => ?_, by simp [initial], by simp [initial]⟩,
      fun _ => trivial⟩
    · exact Settled.zero
    · simp [initial, Store.log] at he
  · intro c t a s' p' hrun _ hI hq hnext
    have hlater := reachable_later hrun hnext
    exact ⟨hI.step (hq t) (next_effect hnext) hlater,
      next_knows hI hlater (Partner.reachable_delivered (run_partner hrun) t) (hq t) hnext⟩
  · intro c t a s' p' u hrun _ hI hq hnext _
    exact Proc.knows_later hI (next_effect hnext) (reachable_later hrun hnext) (hq u)

/-- **The retry lane loses nothing.** In every reachable state an event of the main topic
below the committed offset of the main group is delivered, or a record of it stands in the
retry topic at or above the committed offset of the retry group. -/
theorem retry_lane_loses_nothing {c : Config Store Proc}
    (h : Run (lane cfg) (fun _ _ _ => True) (initial cfg) c) (q : ℕ) :
    ∀ e ∈ (c.store.partner.topic q).take (c.store.committed .main q),
      c.store.partner.db.isDelivered e.eventId ∨
        ∃ q' i r, c.store.committed .retry q' ≤ i ∧ (c.store.retryTopic q')[i]? = some r ∧
          r.event = e := by
  intro e he
  by_cases hdel : c.store.partner.db.isDelivered e.eventId
  · exact Or.inl hdel
  · right
    have hI := (reachable_lossless h).1
    obtain ⟨i, hi⟩ := List.mem_iff_getElem?.mp he
    obtain ⟨hlt, -⟩ := List.getElem?_eq_some_iff.mp hi
    have hlt' : i < c.store.committed .main q := by
      rw [List.length_take] at hlt
      omega
    rw [List.getElem?_take_of_lt hlt'] at hi
    obtain ⟨q', hpark⟩ := ((hI.committed .main q).2 i hlt' e hi).resolve_left hdel
    obtain ⟨j, hj, hat⟩ := remains (hI.committed .retry q') hpark hdel
    obtain ⟨r, hr, rfl⟩ := Option.map_eq_some_iff.mp (List.getElem?_map.symm.trans hat)
    exact ⟨q', j, r, hj, hr, rfl⟩

/-- RETRY_TOPIC mode with one partition. -/
def sampleSettings : Settings where
  mode := .retryTopic
  workers := 1
  sellerConcurrency := 1
  retryBudget := 1
  retryWindowMs := 1000
  retainedLimit := 10
  retryDelayMs := 0
  delayMs := fun _ _ => 0
  partition := fun _ => 0
  reports := false

/-- The main listener parks an event whose call failed, and so does the retry listener;
`n` is the number of the send. -/
def parking (t n : ℕ) (l : Listener) : List (ℕ × Act) :=
  [(t, .listen l "w"), (t, .assign 0), (t, .take 0), (t, .go 0), (t, .throw), (t, .go 0),
    (0, .append n false), (t, .go 0), (t, .go 0)]

theorem retry_lane_loses_nothing_parked_again :
    ∃ c, Run (lane sampleSettings) (fun _ _ _ => True) (initial sampleSettings) c ∧
      (c.store.committed .main 0, c.store.committed .retry 0,
        (c.store.retryTopic 0).map (·.failures)) = (1, 1, [1, 2]) ∧
      ∀ e ∈ (c.store.partner.topic 0).take (c.store.committed .main 0),
        c.store.partner.db.isDelivered e.eventId ∨
          ∃ q' i r, c.store.committed .retry q' ≤ i ∧ (c.store.retryTopic q')[i]? = some r ∧
            r.event = e := by
  obtain ⟨c, hrun, hc⟩ := Run.exists_of_exec (lane sampleSettings) (fun _ _ _ => True)
    (initial sampleSettings)
    ((0, .service (.produce 0 (Partner.sampleEvent "e" 1))) :: parking 1 0 .main ++
      parking 2 1 .retry)
    (fun c => (c.store.committed .main 0, c.store.committed .retry 0,
      (c.store.retryTopic 0).map (·.failures)))
    (1, 1, [1, 2]) (by decide +kernel)
  exact ⟨c, hrun, hc, retry_lane_loses_nothing hrun 0⟩

end OrderSystem.RetryLane
