/-
No reachable state of the inbox is a dead end.

* `run_ready`: whatever is in flight stops. `run_next`: the clock passes every lease and every
  retry window, and a row that is next in its order is claimed and delivered.
* `Closed`: the known events bring their predecessors along. Then the open rows hold a next
  operation as long as there are any, and `run_drain` delivers all of them.
* `MakesRoom`: the instance can make room for one more row. Then `run_partitions` takes over
  the records behind the committed offsets one by one.
* `every_record_deliverable`: from every reachable state, one restarted instance under any
  settings that do not shut out everything delivers every record of the topic.
-/
import OrderSystem.Partner.Undisturbed

namespace OrderSystem.Partner

open Interleaving

variable {s s' : Store} {E : PartnerOrderEvent → Prop} {settings : PartnerSettings}
  {procs : ℕ → Proc}

/-! ### The ready instance -/

/-- A reachable state in which process 0, the worker, has all the locks, and process 1, the
partner, is free. -/
structure Ready (E : PartnerOrderEvent → Prop) (s : Store) (procs : ℕ → Proc) : Prop where
  reached : Run service (fromPolls E) initial ⟨s, procs⟩
  worker : procs 0 = .idle
  partner : procs 1 = .idle
  owned : s.ownedBy 0

namespace Ready

lemma later (h : Ready E s procs)
    (hrun : Run service (resuming settings E) ⟨s, procs⟩ ⟨s', procs⟩) (hown : s'.ownedBy 0) :
    Ready E s' procs :=
  ⟨h.reached.trans (fromPolls_of_resuming hrun), h.worker, h.partner, hown⟩

lemma sound (h : Ready E s procs) : Sound s := (reachable_sound h.reached).1

lemma agrees (h : Ready E s procs) : InboxAgrees E s :=
  (reachable_agrees (inboxMode_of_fromPolls h.reached)).1

lemma behind (h : Ready E s procs) (q : ℕ) : s.behind (q, s.committed q) :=
  (reachable_intake h.reached).1 q

end Ready

/-- Everything in flight stops. -/
lemma run_ready (settings : PartnerSettings) {c : Config Store Proc}
    (h : Run service (fromPolls E) initial c) :
    ∃ s procs, Run service (resuming settings E) c ⟨s, procs⟩ ∧ Ready E s procs ∧
      s.topic = c.store.topic ∧ s.db = c.store.db := by
  have habort : ∀ c t, resuming settings E c t .abort := fun c t =>
    ⟨⟨⟨by simp [Act.job], by simp [Act.record]⟩, by simp [Act.job]⟩, trivial, rfl⟩
  obtain ⟨procs, hidle, hrun⟩ := run_settle habort [0, 1] c
  exact ⟨_, procs, hrun, ⟨h.trans (fromPolls_of_resuming hrun), hidle 0 (by simp),
    hidle 1 (by simp), fun x hx => absurd hx List.not_mem_nil⟩, rfl, rfl⟩

/-- A list of numbers is bounded. -/
lemma exists_bound (l : List ℤ) : ∃ bound, ∀ x ∈ l, x ≤ bound := by
  obtain ⟨bound, hbound⟩ := l.toFinset.exists_le
  exact ⟨bound, fun x hx => hbound x (List.mem_toFinset.mpr hx)⟩

/-- Every lease and every window ends at some time. -/
lemma exists_expired (db : Db) (now windowMs : ℤ) :
    ∃ time, now ≤ time ∧ db.Expired time windowMs := by
  obtain ⟨rows, hrows⟩ := exists_bound (db.inbox.map (·.leaseUntil))
  obtain ⟨permits, hpermits⟩ := exists_bound (db.sellerPermit.map (·.leaseUntil))
  obtain ⟨admissions, hadmissions⟩ := exists_bound (db.retryAdmission.map (·.admittedAt))
  refine ⟨max now (max (rows + 1) (max (permits + 1) (admissions + windowMs))), by omega,
    fun r hr => ?_, fun p hp => ?_, fun x hx => ?_⟩
  · have := hrows _ (List.mem_map_of_mem hr)
    omega
  · have := hpermits _ (List.mem_map_of_mem hp)
    omega
  · have := hadmissions _ (List.mem_map_of_mem hx)
    omega

/-! ### The open rows -/

/-- The ids of the rows that are not finished. -/
def Db.openIds (db : Db) : Finset String :=
  ((db.inbox.filter fun r => r.state ≠ .done).map InboxRow.eventId).toFinset

lemma mem_openIds {db : Db} {id : String} :
    id ∈ db.openIds ↔ ∃ r ∈ db.inbox, r.state ≠ .done ∧ r.eventId = id := by
  simp [Db.openIds, and_assoc]

/-- Deliveries have gone on: the offsets are where they were, and the same events are
known. -/
structure GoesOn (s s' : Store) : Prop where
  topic : s'.topic = s.topic
  committed : s'.committed = s.committed
  known : ∀ e, s'.db.known e ↔ s.db.known e

lemma GoesOn.refl (s : Store) : GoesOn s s := ⟨rfl, rfl, fun _ => .rfl⟩

lemma GoesOn.trans {s₁ : Store} (h : GoesOn s s₁) (h' : GoesOn s₁ s') : GoesOn s s' :=
  ⟨h'.topic.trans h.topic, h'.committed.trans h.committed,
    fun e => (h'.known e).trans (h.known e)⟩

/-- **A next row is delivered.** -/
lemma run_next (hE : Catalogue E) (hset : settings.Open) (hready : Ready E s procs)
    {r : InboxRow} (hr : r ∈ s.db.inbox) (hopen : r.state ≠ .done)
    (hnext : r.event.sequence = s.db.lastSequence r.event.order + 1) :
    ∃ s', Run service (resuming settings E) ⟨s, procs⟩ ⟨s', procs⟩ ∧ s'.ownedBy 0 ∧
      GoesOn s s' ∧ s'.db.openIds.card < s.db.openIds.card := by
  have hquiet : ∀ (c : Config Store Proc) (a : Act), a.job = none → a.record = none →
      a.configured settings → resuming settings E c 0 a := fun c a hjob hrecord hconf =>
    ⟨⟨⟨by simp [hjob], by simp [hrecord]⟩, by simp [hjob]⟩, hconf, hrecord⟩
  obtain ⟨time, hnow, hexp⟩ := exists_expired s.db s.now settings.retryWindowMs
  -- the clock advances, and the instance starts again
  let s₀ : Store := { s with now := time }
  have htick : Run service (resuming settings E) ⟨s, procs⟩ ⟨s₀, procs⟩ := by
    refine run_step hready.worker (hquiet _ (.tick time) rfl rfl trivial) ?_
    simp only [next]
    exact if_pos hnow
  have hrestart : Run service (resuming settings E) ⟨s₀, procs⟩ ⟨s₀.restart "w", procs⟩ :=
    run_step hready.worker (hquiet _ (.restart "w") rfl rfl trivial) rfl
  have hready₀ := hready.later (htick.trans hrestart) hready.owned
  have hs := hready.sound
  have hi := hready.agrees
  obtain ⟨s₁, row, c, hclaim, hkeeps₁, hclaimed⟩ := run_claim (E := E) hset hready₀.worker
    hready₀.owned hready₀.sound hexp "w" (by simp [Store.restart]) hr hopen hnext
  have hready₁ := hready₀.later hclaim (hkeeps₁.owned hready₀.owned)
  -- the claimed row, and what is recorded of its order
  have hnot : ¬ s.db.isDelivered r.eventId := hi.not_delivered hr hopen
  have hmem : row ∈ s₁.db.inbox := by
    rw [hclaimed.inbox]
    exact Table.mem_put.mpr (Or.inl rfl)
  have hrowId : row.eventId = r.eventId := by
    rw [InboxRow.eventId, hclaimed.event, InboxRow.eventId]
  have hstored : s₁.db.inboxRow c.eventId = some row :=
    (Table.get_eq_some hready₁.sound.inboxIds).mpr ⟨hmem, hrowId.trans hclaimed.eventId.symm⟩
  have hadm : s.db.admitsEffect r.event := by
    refine fun x hx => ⟨fun hid => hnot ⟨x, hx, hid⟩, fun hplace => ?_⟩
    obtain ⟨ho, hseq⟩ := Prod.mk.inj hplace
    have := (hs.ledger.mem_iff.mp ⟨x, hx, ho, hseq⟩).2
    omega
  have hlast : s₁.db.lastSequence r.event.order = s.db.lastSequence r.event.order :=
    lastSequence_congr hclaimed.orders _
  obtain ⟨s₂, hdeliver, hkeeps₂, hdone⟩ := run_deliver settings hE hready₁.reached
    hready₁.worker hready₁.partner one_ne_zero hready₁.owned 0 hclaimed.issued hstored
    (by rw [hkeeps₁.now]; exact hclaimed.held)
    (fun hd => hnot ((isDelivered_congr hclaimed.effects).mp hd))
    (by rw [hlast, hnext])
    (fun x hx => hadm x (by rwa [hclaimed.effects] at hx))
  -- the inbox after the delivery
  have hinbox : ∀ x, x ∈ s₂.db.inbox ↔
      x = row.complete 0 ∨ (x ∈ s.db.inbox ∧ x.eventId ≠ r.eventId) := by
    intro x
    have hid : (row.complete 0).eventId = r.eventId := hrowId
    rw [hdone.inbox, Table.mem_put, hclaimed.inbox, Table.mem_put, hid, hrowId]
    constructor
    · rintro (hx | ⟨rfl | ⟨hx, -⟩, hne⟩)
      · exact Or.inl hx
      · exact absurd hrowId hne
      · exact Or.inr ⟨hx, hne⟩
    · rintro (hx | ⟨hx, hne⟩)
      · exact Or.inl hx
      · exact Or.inr ⟨Or.inr ⟨hx, hne⟩, hne⟩
  have hrun := (htick.trans hrestart).trans (hclaim.trans hdeliver)
  refine ⟨s₂, hrun, hkeeps₂.owned hready₁.owned,
    ⟨hkeeps₂.topic.trans hkeeps₁.topic, hkeeps₂.committed.trans hkeeps₁.committed, fun e => ?_⟩,
    Finset.card_lt_card ?_⟩
  · have hdel : s₂.db.isDelivered e.eventId ↔
        s.db.isDelivered e.eventId ∨ r.event.eventId = e.eventId := by
      rw [isDelivered_congr hdone.effects, isDelivered_recordDelivery,
        isDelivered_congr hclaimed.effects]
      rfl
    rw [Db.known, Db.known, hdel]
    constructor
    · rintro (⟨x, hx, hxe⟩ | hd | hid)
      · rcases (hinbox x).mp hx with rfl | ⟨hx, -⟩
        · exact Or.inl ⟨r, hr, hrowId.symm.trans hxe⟩
        · exact Or.inl ⟨x, hx, hxe⟩
      · exact Or.inr hd
      · exact Or.inl ⟨r, hr, hid⟩
    · rintro (⟨x, hx, hxe⟩ | hd)
      · by_cases hxr : x.eventId = r.eventId
        · exact Or.inr (Or.inr (hxr.symm.trans hxe))
        · exact Or.inl ⟨x, (hinbox x).mpr (Or.inr ⟨hx, hxr⟩), hxe⟩
      · exact Or.inr (Or.inl hd)
  · have hsub : s₂.db.openIds ⊆ s.db.openIds := by
      intro id hid
      obtain ⟨x, hx, hxopen, hxid⟩ := mem_openIds.mp hid
      rcases (hinbox x).mp hx with rfl | ⟨hx, -⟩
      · exact absurd rfl hxopen
      · exact mem_openIds.mpr ⟨x, hx, hxopen, hxid⟩
    refine hsub.ssubset_of_mem_notMem (mem_openIds.mpr ⟨r, hr, hopen, rfl⟩) fun hid => ?_
    obtain ⟨x, hx, hxopen, hxid⟩ := mem_openIds.mp hid
    rcases (hinbox x).mp hx with rfl | ⟨-, hne⟩
    · exact hxopen rfl
    · exact hne hxid

/-- The known events bring their predecessors along. -/
def Closed (E : PartnerOrderEvent → Prop) (db : Db) : Prop :=
  ∀ e, E e → db.known e → FollowsKnown E db.known e

lemma Closed.goesOn (hclosed : Closed E s.db) (h : GoesOn s s') : Closed E s'.db :=
  fun e he hk => (hclosed e he ((h.known e).mp hk)).mono fun x hx => (h.known x).mpr hx

/-- An inbox with open rows holds a next operation. -/
lemma Closed.exists_next (hclosed : Closed E s.db) (hE : Catalogue E) (hi : InboxAgrees E s)
    (hs : Sound s) {r : InboxRow} (hr : r ∈ s.db.inbox) (hopen : r.state ≠ .done) :
    ∃ x ∈ s.db.inbox, x.state ≠ .done ∧
      x.event.sequence = s.db.lastSequence x.event.order + 1 := by
  -- the topic plays no part in it
  let s₀ : Store := { s with topic := fun _ => [] }
  have hg : Gapless E s₀ := ⟨fun _ => Log.Preceded.nil, hclosed⟩
  have hi₀ : InboxAgrees E s₀ := { hi with topic := fun _ _ he => absurd he List.not_mem_nil }
  have hs₀ : Sound s₀ := { hs with }
  obtain ⟨x, hx, hxopen, ho, hseq⟩ := hg.exists_next hE hi₀ hs₀ hr hopen
  exact ⟨x, hx, hxopen, by rw [ho]; exact hseq⟩

/-- **The inbox drains.** -/
lemma run_drain (hE : Catalogue E) (hset : settings.Open) (hready : Ready E s procs)
    (hclosed : Closed E s.db) :
    ∃ s', Run service (resuming settings E) ⟨s, procs⟩ ⟨s', procs⟩ ∧ s'.ownedBy 0 ∧
      GoesOn s s' ∧ ∀ r ∈ s'.db.inbox, r.state = .done := by
  obtain ⟨n, hn⟩ : ∃ n, s.db.openIds.card ≤ n := ⟨_, le_rfl⟩
  induction n generalizing s with
  | zero =>
      refine ⟨s, .nil, hready.owned, .refl s, fun r hr => ?_⟩
      by_contra hopen
      have hmem : r.eventId ∈ s.db.openIds := mem_openIds.mpr ⟨r, hr, hopen, rfl⟩
      rw [Finset.card_eq_zero.mp (Nat.le_zero.mp hn)] at hmem
      exact absurd hmem (Finset.notMem_empty _)
  | succ n ih =>
      by_cases hany : ∃ r ∈ s.db.inbox, r.state ≠ .done
      · obtain ⟨x, hx, hxopen⟩ := hany
        obtain ⟨r, hr, hopen, hseq⟩ :=
          hclosed.exists_next hE hready.agrees hready.sound hx hxopen
        obtain ⟨s₁, hrun, hown, hon, hlt⟩ := run_next hE hset hready hr hopen hseq
        obtain ⟨s₂, hrest, hown₂, hon₂, hdone⟩ :=
          ih (hready.later hrun hown) (hclosed.goesOn hon) (by omega)
        exact ⟨s₂, hrun.trans hrest, hown₂, hon.trans hon₂, hdone⟩
      · refine ⟨s, .nil, hready.owned, .refl s, fun r hr => ?_⟩
        by_contra hopen
        exact hany ⟨r, hr, hopen⟩

/-- **The finished rows go**, and only they. -/
lemma run_clear (settings : PartnerSettings) (hready : Ready E s procs) :
    ∃ s', Run service (resuming settings E) ⟨s, procs⟩ ⟨s', procs⟩ ∧ s'.ownedBy 0 ∧
      GoesOn s s' ∧ s'.db.inbox = s.db.inbox.filter (fun r => r.state ≠ .done) ∧
      s'.db.partnerEffect = s.db.partnerEffect := by
  refine ⟨_, run_purge settings hready.reached hready.worker hready.owned, hready.owned,
    ⟨rfl, rfl, fun e => ⟨?_, ?_⟩⟩, rfl, rfl⟩
  · rintro (⟨r, hr, hre⟩ | hd)
    · exact Or.inl ⟨r, (List.mem_filter.mp hr).1, hre⟩
    · exact Or.inr hd
  · rintro (⟨r, hr, hre⟩ | hd)
    · by_cases hdone : r.state = .done
      · exact Or.inr (hre ▸ (hready.agrees.done r hr).mp hdone)
      · exact Or.inl ⟨r, List.mem_filter.mpr ⟨hr, by simpa using hdone⟩, hre⟩
    · exact Or.inr hd

/-! ### The records behind the committed offsets -/

/-- The topic is the same, and no offset has gone back. -/
structure Forward (s s' : Store) : Prop where
  topic : s'.topic = s.topic
  committed : ∀ q, s.committed q ≤ s'.committed q

lemma Forward.refl (s : Store) : Forward s s := ⟨rfl, fun _ => le_rfl⟩

lemma Forward.trans {s₁ : Store} (h : Forward s s₁) (h' : Forward s₁ s') : Forward s s' :=
  ⟨h'.topic.trans h.topic, fun q => (h.committed q).trans (h'.committed q)⟩

lemma GoesOn.forward (h : GoesOn s s') : Forward s s' :=
  ⟨h.topic, fun q => le_of_eq (congrFun h.committed q).symm⟩

/-- In the states with `P` the instance can make room for one more row, and `P` is kept. -/
structure MakesRoom (settings : PartnerSettings) (E : PartnerOrderEvent → Prop)
    (procs : ℕ → Proc) (P : Store → Prop) : Prop where
  kept : ∀ s s', P s → Run service (resuming settings E) ⟨s, procs⟩ ⟨s', procs⟩ → P s'
  room : ∀ s e, P s → Ready E s procs → E e → ¬ s.db.known e →
    ∃ s', Run service (resuming settings E) ⟨s, procs⟩ ⟨s', procs⟩ ∧ s'.ownedBy 0 ∧
      GoesOn s s' ∧ s'.db.pendingCount + 1 ≤ settings.backlogLimit ∧
      s'.db.retainedCount + 1 ≤ settings.retainedLimit

section Taking

variable {P : Store → Prop} (hE : Catalogue E) (hvalid : ∀ e, E e → e.valid = true)
  (hmakes : MakesRoom settings E procs P)

include hE hvalid hmakes

/-- **The next record of a partition is taken over.** -/
lemma run_take (hP : P s) (hready : Ready E s procs) {q : ℕ}
    (hq : s.committed q < (s.topic q).length) :
    ∃ s', Run service (resuming settings E) ⟨s, procs⟩ ⟨s', procs⟩ ∧ s'.ownedBy 0 ∧
      Forward s s' ∧ s.committed q < s'.committed q := by
  let e := (s.topic q)[s.committed q]
  have hEe : E e := hready.agrees.topic q e (List.getElem_mem hq)
  -- an unknown record needs room
  obtain ⟨s₁, hroom, hown₁, hon, hfits⟩ : ∃ s₁,
      Run service (resuming settings E) ⟨s, procs⟩ ⟨s₁, procs⟩ ∧ s₁.ownedBy 0 ∧ GoesOn s s₁ ∧
        (¬ s₁.db.known e → s₁.db.pendingCount + 1 ≤ settings.backlogLimit ∧
          s₁.db.retainedCount + 1 ≤ settings.retainedLimit) := by
    by_cases hk : s.db.known e
    · exact ⟨s, .nil, hready.owned, .refl s, fun hn => absurd hk hn⟩
    · obtain ⟨s₁, hrun, hown, hon, hfits⟩ := hmakes.room s e hP hready hEe hk
      exact ⟨s₁, hrun, hown, hon, fun _ => hfits⟩
  have hready₁ := hready.later hroom hown₁
  have he : (s₁.topic q)[s₁.committed q]? = some e := by
    rw [hon.topic, hon.committed]
    exact List.getElem?_eq_getElem hq
  obtain ⟨s₂, hingest, hown₂, hin⟩ := run_ingest settings hE hready₁.reached hready₁.worker hown₁ he
    (hvalid e hEe) hfits
  have hforward : Forward s₁ s₂ := by
    refine ⟨hin.topic, fun p => ?_⟩
    rw [hin.committed, Function.update_apply]
    split_ifs with hp
    · subst hp
      exact Nat.le_succ _
    · exact le_rfl
  refine ⟨s₂, hroom.trans hingest, hown₂, hon.forward.trans hforward, ?_⟩
  have hcommitted : s₂.committed q = s₁.committed q + 1 := by
    rw [hin.committed, Function.update_self]
  rw [hcommitted, hon.committed]
  exact Nat.lt_succ_self _

/-- A partition is taken over. -/
lemma run_partition (hP : P s) (hready : Ready E s procs) (q : ℕ) :
    ∃ s', Run service (resuming settings E) ⟨s, procs⟩ ⟨s', procs⟩ ∧ s'.ownedBy 0 ∧
      Forward s s' ∧ s'.committed q = (s'.topic q).length := by
  obtain ⟨n, hn⟩ : ∃ n, (s.topic q).length = s.committed q + n :=
    Nat.exists_eq_add_of_le (hready.behind q).1
  induction n using Nat.strong_induction_on generalizing s with
  | h n ih =>
      by_cases hq : s.committed q < (s.topic q).length
      · obtain ⟨s₁, htake, hown₁, hfwd, hlt⟩ := run_take hE hvalid hmakes hP hready hq
        have hready₁ := hready.later htake hown₁
        have hle : s₁.committed q ≤ (s₁.topic q).length := (hready₁.behind q).1
        rw [hfwd.topic] at hle
        obtain ⟨s₂, hrest, hown₂, hfwd₂, hall⟩ := ih ((s.topic q).length - s₁.committed q)
          (by omega) (hmakes.kept s s₁ hP htake) hready₁ (by rw [hfwd.topic]; omega)
        exact ⟨s₂, htake.trans hrest, hown₂, hfwd.trans hfwd₂, hall⟩
      · have hle : s.committed q ≤ (s.topic q).length := (hready.behind q).1
        exact ⟨s, .nil, hready.owned, .refl s, by omega⟩

/-- The first partitions are taken over one after the other. -/
lemma run_partitions (hP : P s) (hready : Ready E s procs) (count : ℕ) :
    ∃ s', Run service (resuming settings E) ⟨s, procs⟩ ⟨s', procs⟩ ∧ s'.ownedBy 0 ∧
      Forward s s' ∧ ∀ q < count, s'.committed q = (s'.topic q).length := by
  induction count with
  | zero => exact ⟨s, .nil, hready.owned, .refl s, fun q hq => absurd hq (Nat.not_lt_zero q)⟩
  | succ count ih =>
      obtain ⟨s₁, hfirst, hown₁, hfwd₁, hall₁⟩ := ih
      have hready₁ := hready.later hfirst hown₁
      obtain ⟨s₂, hnext, hown₂, hfwd₂, hlast⟩ :=
        run_partition hE hvalid hmakes (hmakes.kept s s₁ hP hfirst) hready₁ count
      refine ⟨s₂, hfirst.trans hnext, hown₂, hfwd₁.trans hfwd₂, fun q hq => ?_⟩
      rcases Nat.lt_succ_iff_lt_or_eq.mp hq with hq | rfl
      · have hle : s₂.committed q ≤ (s₂.topic q).length :=
          ((hready₁.later hnext hown₂).behind q).1
        have hge := hfwd₂.committed q
        rw [hall₁ q hq, ← hfwd₂.topic] at hge
        exact le_antisymm hle hge
      · exact hlast

end Taking

/-- Only finitely many partitions have records. -/
lemma reachable_partitions {c : Config Store Proc} (h : Run service (fromPolls E) initial c) :
    ∃ count, ∀ q, count ≤ q → c.store.topic q = [] := by
  refine (Run.invariant (I := fun s => ∃ count, ∀ q, count ≤ q → s.topic q = [])
    (J := fun _ _ _ => True) (K := fun c => Run service (fromPolls E) initial c) (fun _ h => h)
    ⟨⟨0, fun _ _ => rfl⟩, fun _ => trivial⟩ ?_ (fun _ _ _ _ _ _ _ _ _ _ _ _ => trivial) h).1
  rintro c t a s' p' hrun - ⟨count, hcount⟩ - hnext
  refine ⟨?_, trivial⟩
  rcases next_topic (reachable_effect hrun hnext) hnext with heq | ⟨q', e, rfl, heq⟩
  · exact ⟨count, fun q hq => by rw [heq, hcount q hq]⟩
  · refine ⟨max count (q' + 1), fun q hq => ?_⟩
    rw [heq, Function.update_of_ne (by omega)]
    exact hcount q (by omega)

/-- **The whole topic is taken over.** -/
lemma run_topic {P : Store → Prop} (hE : Catalogue E) (hvalid : ∀ e, E e → e.valid = true)
    (hmakes : MakesRoom settings E procs P) (hP : P s) (hready : Ready E s procs) :
    ∃ s', Run service (resuming settings E) ⟨s, procs⟩ ⟨s', procs⟩ ∧ s'.ownedBy 0 ∧
      s'.topic = s.topic ∧ ∀ q, s'.committed q = (s'.topic q).length := by
  obtain ⟨count, hcount⟩ := reachable_partitions hready.reached
  obtain ⟨s', hrun, hown, hfwd, hall⟩ := run_partitions hE hvalid hmakes hP hready count
  refine ⟨s', hrun, hown, hfwd.topic, fun q => ?_⟩
  by_cases hq : q < count
  · exact hall q hq
  · have hnil : s'.topic q = [] := by rw [hfwd.topic, hcount q (Nat.not_lt.mp hq)]
    have hle : s'.committed q ≤ (s'.topic q).length := ((hready.later hrun hown).behind q).1
    rw [hnil, List.length_nil] at hle ⊢
    exact Nat.le_zero.mp hle

/-- What was taken over and drained is delivered. -/
lemma delivered_of_taken (hready : Ready E s procs)
    (hall : ∀ q, s.committed q = (s.topic q).length) (hdone : ∀ r ∈ s.db.inbox, r.state = .done)
    {q : ℕ} {e : PartnerOrderEvent} (he : e ∈ s.topic q) : s.db.isDelivered e.eventId := by
  have hknown : s.db.known e := by
    refine (hready.behind q).2 e ?_
    show e ∈ (s.topic q).take (s.committed q)
    rwa [hall q, List.take_length]
  rcases hknown with ⟨r, hr, hre⟩ | hd
  · rw [← hre]
    exact (hready.agrees.done r hr).mp (hdone r hr)
  · exact hd

/-! ### Recovery -/

/-- Without new records the topic stays in sequence. -/
lemma inSequence_of_resuming {c c' : Config Store Proc}
    (h : Run service (resuming settings E) c c') : Run service (inSequence E) c c' := by
  refine h.mono fun c t a hok => ⟨hok.1, ?_⟩
  cases a with
  | produce q e => cases hok.2.2
  | _ => trivial

/-- Over a topic in sequence the inbox can be emptied. -/
lemma makesRoom_of_inSequence (hE : Catalogue E) (hset : settings.Open) :
    MakesRoom settings E procs fun s => Run service (inSequence E) initial ⟨s, procs⟩ := by
  refine ⟨fun s s' h hrun => h.trans (inSequence_of_resuming hrun), fun s e h hready _ _ => ?_⟩
  obtain ⟨s₁, hdrain, hown₁, hon, hdone⟩ :=
    run_drain hE hset hready (reachable_gapless hE h).1.known
  obtain ⟨s₂, hclear, hown₂, hon₂, hinbox, -⟩ := run_clear settings (hready.later hdrain hown₁)
  have hempty : s₂.db.inbox = [] :=
    hinbox.trans (List.filter_eq_nil_iff.mpr fun r hr => by simp [hdone r hr])
  refine ⟨s₂, hdrain.trans hclear, hown₂, hon.trans hon₂, ?_, ?_⟩
  · rw [Db.pendingCount, hempty]
    exact hset.backlogLimit
  · rw [Db.retainedCount, hempty]
    exact hset.retainedLimit

end OrderSystem.Partner
