/-
The capacity of the inbox across instances.

`storeAll` counts and then inserts; what makes the count still valid at the
commit is that the capacity row stays locked, so nobody else inserts, and that
every other writer only lowers the counts.

* `InboxChange.counts`: a step that inserts no rows raises no count.
* `sameLimits`: all instances use the same limits.
* `inbox_within_capacity`: the two counts stay within the limits, and a finished
  row stays finished.
-/
import OrderSystem.Partner.Effects

namespace OrderSystem.Partner

open Interleaving

variable {t u : ℕ} {s s' : Store} {p p' : Proc} {a : Act} {P R : ℕ}

/-! ### Counts -/

/-- Writing back a row that is not finished counts it only if it was counted
before. -/
lemma pendingCount_put {db db' : Db} (hids : Table.Unique InboxRow.eventId db.inbox)
    {row row' : InboxRow} (hrow : row ∈ db.inbox) (hid : row.eventId = row'.eventId)
    (hdone : row.state = .done → row'.state = .done)
    (hin : db'.inbox = Table.put InboxRow.eventId row' db.inbox) :
    db'.pendingCount ≤ db.pendingCount := by
  have hany : db.inbox.any (fun x => x.eventId = row'.eventId) = true :=
    List.any_eq_true.mpr ⟨row, hrow, by simpa using hid⟩
  rw [Db.pendingCount, Db.pendingCount, hin, Table.put, if_pos hany, List.countP_map]
  refine List.countP_mono_left fun x hx hcount => ?_
  simp only [Function.comp_apply, decide_eq_true_eq] at hcount ⊢
  split_ifs at hcount with hxid
  · rw [hids.eq hx hrow (hxid.trans hid.symm)]
    exact fun h => hcount (hdone h)
  · exact hcount

/-- A step raises no count, unless it inserts the rows of a `storeAll` that holds
the capacity row. -/
lemma InboxChange.counts (hs : Sound s) (h : InboxChange t s p s') :
    (s'.db.pendingCount ≤ s.db.pendingCount ∧ s'.db.retainedCount ≤ s.db.retainedCount) ∨
      ∃ job rows, p = .storing job (.commit rows) ∧ s.mine t .capacity ∧
        s'.db.inbox = s.db.inbox ++ rows := by
  cases h with
  | same h =>
      refine Or.inl ?_
      rw [Db.pendingCount, Db.retainedCount, h]
      exact ⟨le_rfl, le_rfl⟩
  | @insert job rows hp hmine hfresh hadm h => exact Or.inr ⟨job, rows, hp, hmine, h⟩
  | update row row' hrow hmine hevent hdone hgen h =>
      have hmem := Table.mem_of_get hrow
      have hid : row.eventId = row'.eventId := by
        rw [InboxRow.eventId, InboxRow.eventId, hevent]
      refine Or.inl ⟨pendingCount_put hs.inboxIds hmem hid hdone h, ?_⟩
      have hlen := congrArg List.length (Table.map_key_put ⟨row, hmem, hid⟩)
      rw [List.length_map, List.length_map] at hlen
      rw [Db.retainedCount, Db.retainedCount, h, hlen]
  | delete hmine hdone h =>
      refine Or.inl ?_
      rw [Db.pendingCount, Db.retainedCount, h]
      exact ⟨List.filter_sublist.countP_le, List.filter_sublist.length_le⟩

/-- A finished row stays finished. -/
lemma InboxChange.done_stays (hs : Sound s) (h : InboxChange t s p s') {r r' : InboxRow}
    (hr : r ∈ s.db.inbox) (hdone : r.state = .done) (hr' : r' ∈ s'.db.inbox)
    (hid : r'.eventId = r.eventId) : r'.state = .done := by
  have hold : r' ∈ s.db.inbox → r'.state = .done := by
    intro hmem
    rw [hs.inboxIds.eq hmem hr hid]
    exact hdone
  cases h with
  | same h => exact hold (by rwa [h] at hr')
  | insert hp hmine hfresh hadm h =>
      rw [h] at hr'
      rcases List.mem_append.mp hr' with hr' | hr'
      · exact hold hr'
      · exact absurd hid.symm (Table.get_eq_none.mp (hfresh.absent r' hr') r hr)
  | update row row' hrow hmine hevent hkeep hgen h =>
      rw [h] at hr'
      rcases Table.mem_put.mp hr' with rfl | ⟨hr', -⟩
      · refine hkeep ?_
        have hrid : row.eventId = r.eventId := by
          rw [← hid, InboxRow.eventId, InboxRow.eventId, hevent]
        rw [hs.inboxIds.eq (Table.mem_of_get hrow) hr hrid]
        exact hdone
      · exact hold hr'
  | delete hmine hfin h =>
      rw [h] at hr'
      exact hold (List.mem_filter.mp hr').1

/-! ### The invariant -/

/-- The limits an action passes to `storeAll`. -/
def Act.limits : Act → Option (ℕ × ℕ)
  | .start (.storeAll job) => some (job.pendingLimit, job.retainedLimit)
  | .poll _ pendingLimit retainedLimit _ => some (pendingLimit, retainedLimit)
  | _ => none

/-- All instances use the limits `P` and `R`. -/
def sameLimits (P R : ℕ) (_ : Config Store Proc) (_ : ℕ) (a : Act) : Prop :=
  ∀ x ∈ a.limits, x = (P, R)

instance (c : Config Store Proc) (t : ℕ) (a : Act) : Decidable (sameLimits P R c t a) :=
  inferInstanceAs (Decidable (∀ x ∈ a.limits, x = (P, R)))

/-- The room the checks of `storeAll` have found for its rows. -/
def StorePc.fits (P R : ℕ) (s : Store) : StorePc → Prop
  | .countRetained rows => s.db.pendingCount + rows.length ≤ P
  | .insert rows | .commit rows =>
      s.db.pendingCount + rows.length ≤ P ∧ s.db.retainedCount + rows.length ≤ R
  | _ => True

/-- The local part of the invariant. -/
def Proc.fits (P R : ℕ) (s : Store) : Proc → Prop
  | .storing job pc => (job.pendingLimit = P ∧ job.retainedLimit = R) ∧ pc.fits P R s
  | _ => True

lemma storeNext_fits {job : StoreJob} {pc : StorePc} (hq : Proc.fits P R s (.storing job pc))
    (h : storeNext t s job pc = some (s', p')) : p'.fits P R s' := by
  have hfailed : job.failed.fits P R (s.unlock t) := by
    unfold StoreJob.failed
    split <;> trivial
  cases pc with
  | lockCapacity =>
      simp only [storeNext] at h
      split_ifs at h
      cases h
      exact ⟨hq.1, trivial⟩
  | readInbox =>
      cases h
      exact ⟨hq.1, trivial⟩
  | readLedger known =>
      simp only [storeNext] at h
      split_ifs at h <;> cases h <;> exact ⟨hq.1, trivial⟩
  | countPending rows =>
      simp only [storeNext] at h
      split_ifs at h with hfull <;> cases h
      · exact hfailed
      · refine ⟨hq.1, ?_⟩
        rw [hq.1.1] at hfull
        exact not_lt.mp hfull
  | countRetained rows =>
      simp only [storeNext] at h
      split_ifs at h with hfull <;> cases h
      · exact hfailed
      · refine ⟨hq.1, hq.2, ?_⟩
        rw [hq.1.2] at hfull
        exact not_lt.mp hfull
  | insert rows =>
      simp only [storeNext] at h
      split_ifs at h <;> cases h
      · exact hq
      · exact hfailed
  | commit rows =>
      cases h
      exact ⟨hq.1, trivial⟩
  | acknowledge =>
      simp only [storeNext] at h
      split at h <;> cases h <;> trivial

lemma next_fits {c : Config Store Proc} (hq : p.fits P R s) (hok : sameLimits P R c t a)
    (h : next t s p a = some (s', p')) : p'.fits P R s' := by
  have hbegin : ∀ job : StoreJob, job.pendingLimit = P → job.retainedLimit = R →
      (begin (.storeAll job)).fits P R s := by
    intro job hP hR
    refine ⟨⟨hP, hR⟩, ?_⟩
    split_ifs <;> trivial
  cases next_move h with
  | start job =>
      cases job with
      | storeAll job =>
          obtain ⟨hP, hR⟩ := Prod.mk.inj (hok _ rfl)
          exact hbegin job hP hR
      | _ => trivial
  | poll pendingLimit retainedLimit receivedAt hbatch hvalid =>
      obtain ⟨hP, hR⟩ := Prod.mk.inj (hok _ rfl)
      exact hbegin _ hP hR
  | store h => exact storeNext_fits hq h
  | claim h =>
      obtain ⟨_, rfl⟩ | rfl := claimNext_proc h <;> trivial
  | renew h =>
      obtain rfl | rfl := renewNext_proc h <;> trivial
  | deliver h =>
      obtain ⟨_, rfl⟩ | rfl := processNext_proc h <;> trivial
  | giveBack h =>
      obtain ⟨_, rfl⟩ | rfl := giveBackNext_proc h <;> trivial
  | relay h =>
      obtain ⟨_, rfl⟩ | rfl := (relayNext_eq h).2 <;> trivial
  | _ => trivial

/-- The room found under the capacity lock stays while others run. -/
lemma Proc.fits_other {q : Proc} (hs : Sound s) (h : Effect t s p s') (hut : u ≠ t)
    (hheld : ∀ r ∈ q.held, (r, u) ∈ s.locks) (hq : q.fits P R s) : q.fits P R s' := by
  cases q with
  | storing job pc =>
      refine ⟨hq.1, ?_⟩
      have hle : .capacity ∈ pc.held → s'.db.pendingCount ≤ s.db.pendingCount ∧
          s'.db.retainedCount ≤ s.db.retainedCount := by
        intro hcap
        rcases h.inboxChange.counts hs with hle | ⟨_, _, -, hmine, -⟩
        · exact hle
        · exact absurd (hmine u (hheld _ hcap)) hut
      have hq := hq.2
      cases pc with
      | countRetained rows =>
          have hcounts := hle (by simp [StorePc.held])
          simp only [StorePc.fits] at hq ⊢
          omega
      | insert rows =>
          have hcounts := hle (by simp [StorePc.held])
          simp only [StorePc.fits] at hq ⊢
          omega
      | commit rows =>
          have hcounts := hle (by simp [StorePc.held])
          simp only [StorePc.fits] at hq ⊢
          omega
      | _ => trivial
  | _ => trivial

/-! ### Every run -/

/-- Both counts are within the limits. -/
def WithinCapacity (P R : ℕ) (s : Store) : Prop :=
  s.db.pendingCount ≤ P ∧ s.db.retainedCount ≤ R

lemma WithinCapacity.step (hs : Sound s) (hi : WithinCapacity P R s) (hq : p.fits P R s)
    (h : Effect t s p s') : WithinCapacity P R s' := by
  rcases h.inboxChange.counts hs with ⟨hpending, hretained⟩ | ⟨job, rows, rfl, -, hin⟩
  · exact ⟨hpending.trans hi.1, hretained.trans hi.2⟩
  · -- the rows are those the counts made room for
    obtain ⟨-, hpending, hretained⟩ := hq
    have hle : rows.countP (fun r => r.state ≠ .done) ≤ rows.length := List.countP_le_length
    simp only [Db.pendingCount, Db.retainedCount] at hpending hretained
    rw [WithinCapacity, Db.pendingCount, Db.retainedCount, hin, List.countP_append,
      List.length_append]
    omega

/-- **The capacity of the inbox holds across instances.** With the same limits
everywhere, in every reachable state the rows that are not finished and all rows
stay within them; and no step turns a finished row back. -/
theorem inbox_within_capacity {c : Config Store Proc}
    (h : Run service (sameLimits P R) initial c) :
    c.store.db.pendingCount ≤ P ∧ c.store.db.retainedCount ≤ R ∧
      ∀ t a c', service.step c t a = some c' →
        ∀ r ∈ c.store.db.inbox, r.state = .done →
          ∀ r' ∈ c'.store.db.inbox, r'.eventId = r.eventId → r'.state = .done := by
  have hinv := Run.invariant (I := WithinCapacity P R) (J := fun _ s p => p.fits P R s)
    (K := fun c => Run service (sameLimits P R) initial c) (fun _ h => h) ?_ ?_ ?_ h
  · refine ⟨hinv.1.1, hinv.1.2, fun t a c' hstep r hr hdone r' hr' hid => ?_⟩
    obtain ⟨s', p', hnext, rfl⟩ := service.step_eq_some hstep
    exact (reachable_effect h hnext).inboxChange.done_stays (reachable_sound h).1 hr hdone hr' hid
  · exact ⟨⟨Nat.zero_le _, Nat.zero_le _⟩, fun _ => trivial⟩
  · intro c t a s' p' hrun hok hi hq hnext
    exact ⟨hi.step (reachable_sound hrun).1 (hq t) (reachable_effect hrun hnext),
      next_fits (hq t) hok hnext⟩
  · intro c t a s' p' u hrun _ _ hq hnext hut
    exact Proc.fits_other (reachable_sound hrun).1 (reachable_effect hrun hnext) hut
      ((reachable_locks hrun).2 u) (hq u)

/-- Two instances store into an inbox with room for one open row: the second one
waits for the capacity row and is then turned away. -/
def racingStores : List (ℕ × Act) :=
  let job (e : PartnerOrderEvent) : StoreJob := ⟨[⟨e, 0, 0⟩], 1, 5, 0, none⟩
  [(1, .start (.storeAll (job (sampleEvent "e1" 1)))),
    (2, .start (.storeAll (job (sampleEvent "e2" 2))))] ++
    statements 1 8 0 ++ statements 2 4 0

theorem inbox_within_capacity_racing :
    ∃ c, Run service (sameLimits 1 5) initial c ∧
      (c.store.db.inbox.map (·.eventId), c.procs 2) = (["e1"], .idle) ∧
      c.store.db.pendingCount ≤ 1 ∧ c.store.db.retainedCount ≤ 5 := by
  obtain ⟨c, hrun, hc⟩ := Run.exists_of_exec service (sameLimits 1 5) initial racingStores
    (fun c => (c.store.db.inbox.map (·.eventId), c.procs 2)) (["e1"], .idle) (by decide +kernel)
  have hcap := inbox_within_capacity hrun
  exact ⟨c, hrun, hc, hcap.1, hcap.2.1⟩

end OrderSystem.Partner
