/-
From the topic into the inbox: offsets are committed for stored records only.

* `Db.known`: an event has been taken over, its inbox row exists or it is in
  `partner_effect`. `Later`: this is never undone, and the topic only grows.
* `fromPolls`: in INBOX mode, `storeAll` runs on what a poll returned.
* `Proc.intake`: what a consumer has behind its positions, and what a poll that is
  being stored has found or is about to insert.
* `committed_behind`: in every reachable state every record below the committed
  offset of its partition is known, whatever polls were rejected, repeated or cut
  off between the commit of the transaction and the acknowledgement.
-/
import OrderSystem.Foundations.Log
import OrderSystem.Partner.InboxMode

namespace OrderSystem.Partner

open Interleaving

variable {t u : ℕ} {s s' : Store} {p p' : Proc} {a : Act} {E : PartnerOrderEvent → Prop}

/-! ### Known events -/

/-- The event has been taken over from the topic. -/
def Db.known (db : Db) (e : PartnerOrderEvent) : Prop :=
  (∃ r ∈ db.inbox, r.eventId = e.eventId) ∨ db.isDelivered e.eventId

lemma InboxStep.known {db db' : Db} (h : InboxStep E db db')
    (hdone : ∀ r ∈ db.inbox, r.state = .done ↔ db.isDelivered r.eventId)
    {e : PartnerOrderEvent} (he : db.known e) : db'.known e := by
  rcases he with ⟨x, hx, hxe⟩ | hd
  · rcases h.kept hx with ⟨y, hy, hyx⟩ | hfin
    · exact Or.inl ⟨y, hy, hyx.trans hxe⟩
    · refine Or.inr (h.isDelivered ?_)
      rw [← hxe]
      exact (hdone x hx).mp hfin
  · exact Or.inr (h.isDelivered hd)

/-- Only the commit of `storeAll` makes events known. -/
lemma Effect.known_cases (h : Effect t s p s') (hi : InboxAgrees E s) (hp : p.inboxMode E s)
    {e : PartnerOrderEvent} (he : s'.db.known e) :
    s.db.known e ∨ ∃ job rows, p = .storing job (.commit rows) ∧ FreshRows s.db job rows ∧
      s'.db.inbox = s.db.inbox ++ rows ∧ ∃ r ∈ rows, r.eventId = e.eventId := by
  have hstep := h.inboxStep hi hp
  rcases he with ⟨r, hr, hre⟩ | hd
  · cases h.inboxChange with
    | same hin =>
        rw [hin] at hr
        exact Or.inl (Or.inl ⟨r, hr, hre⟩)
    | @insert job rows hpc hcap hfresh hadm hin =>
        rw [hin] at hr
        rcases List.mem_append.mp hr with hr | hr
        · exact Or.inl (Or.inl ⟨r, hr, hre⟩)
        · exact Or.inr ⟨job, rows, hpc, hfresh, hin, r, hr, hre⟩
    | update row row' hrow hmine hevent hdone hgen hin =>
        rw [hin] at hr
        refine Or.inl (Or.inl ?_)
        rcases Table.mem_put.mp hr with rfl | ⟨hr, -⟩
        · refine ⟨row, Table.mem_of_get hrow, ?_⟩
          rw [← hre, InboxRow.eventId, InboxRow.eventId, hevent]
        · exact ⟨r, hr, hre⟩
    | delete hmine hdone hin =>
        rw [hin] at hr
        exact Or.inl (Or.inl ⟨r, (List.mem_filter.mp hr).1, hre⟩)
  · -- a delivery is recorded under a claim, for an event that has its row
    refine Or.inl ?_
    cases hstep with
    | deliver row doneAt time hrow hclaimed hrec hin heff ho =>
        rw [isDelivered_congr heff, isDelivered_recordDelivery] at hd
        rcases hd with hd | hid
        · exact Or.inr hd
        · exact Or.inl ⟨row, hrow, hid⟩
    | same hin heff ho => exact Or.inr ((isDelivered_congr heff).mp hd)
    | insert rows hE hpending hnew habsent hin heff ho =>
        exact Or.inr ((isDelivered_congr heff).mp hd)
    | update row row' hrow hevent hgen hdone hnext hin heff ho =>
        exact Or.inr ((isDelivered_congr heff).mp hd)
    | delete ids hdone hin heff ho => exact Or.inr ((isDelivered_congr heff).mp hd)

/-- Known events stay known and the topic only grows. -/
structure Later (s s' : Store) : Prop where
  known : ∀ e, s.db.known e → s'.db.known e
  topic : ∀ q, s.topic q <+: s'.topic q

lemma Effect.later (heff : Effect t s p s') (hi : InboxAgrees E s) (hp : p.inboxMode E s)
    (h : next t s p a = some (s', p')) : Later s s' where
  known _ he := (heff.inboxStep hi hp).known hi.done he
  topic := topic_grows heff h

/-! ### The invariant -/

/-- Whether a job runs `storeAll` on tasks of its own. -/
def Job.stores : Job → Bool
  | .storeAll _ => true
  | _ => false

/-- INBOX mode where everything that is stored was read by a poll. -/
def fromPolls (E : PartnerOrderEvent → Prop) (c : Config Store Proc) (t : ℕ) (a : Act) : Prop :=
  inboxMode E c t a ∧ ∀ job ∈ a.job, job.stores = false

instance [DecidablePred E] (c : Config Store Proc) (t : ℕ) (a : Act) :
    Decidable (fromPolls E c t a) :=
  inferInstanceAs (Decidable (_ ∧ ∀ job ∈ a.job, job.stores = false))

lemma inboxMode_of_fromPolls {c : Config Store Proc} (h : Run service (fromPolls E) initial c) :
    Run service (inboxMode E) initial c :=
  h.mono fun _ _ _ hok => hok.1

/-- Everything below the position is known. -/
def Store.behind (s : Store) (x : ℕ × ℕ) : Prop :=
  Log.Behind s.db.known (s.topic x.1) x.2

/-- A record that is known, or is one of the tasks. -/
def Db.knownOr (db : Db) (tasks : List PartnerTask) (e : PartnerOrderEvent) : Prop :=
  db.known e ∨ ∃ task ∈ tasks, task.event = e

/-- The positions of a poll: everything below the first ones is known, everything
below the last ones is known or among the tasks. -/
def StoreJob.covered (s : Store) (job : StoreJob) : Prop :=
  ∃ before ends, job.poll = some (before, ends) ∧ (∀ x ∈ before, s.behind x) ∧
    ∀ x ∈ ends, Log.Behind (s.db.knownOr job.tasks) (s.topic x.1) x.2

/-- What a poll that is being stored has found. -/
def StorePc.found (db : Db) (job : StoreJob) : StorePc → Prop
  | .lockCapacity | .readInbox => True
  | .readLedger ids => ∀ task ∈ job.tasks, task.event.eventId ∈ ids → db.known task.event
  | .countPending rows | .countRetained rows | .insert rows | .commit rows =>
      ∀ task ∈ job.tasks, db.known task.event ∨ ∃ r ∈ rows, r.eventId = task.event.eventId
  | .acknowledge => ∀ task ∈ job.tasks, db.known task.event

/-- The local part of the invariant. -/
def Proc.intake (s : Store) : Proc → Prop
  | .consuming positions => ∀ x ∈ positions, s.behind x
  | .storing job pc => job.covered s ∧ pc.found s.db job
  | _ => True

section Monotone

variable (h : Later s s')

include h

lemma Store.behind_later {x : ℕ × ℕ} (hx : s.behind x) : s'.behind x :=
  (Log.Behind.mono hx h.known).append (h.topic _)

lemma StoreJob.covered_later {job : StoreJob} (hj : job.covered s) : job.covered s' := by
  obtain ⟨before, ends, hpoll, hbefore, hends⟩ := hj
  refine ⟨before, ends, hpoll, fun x hx => Store.behind_later h (hbefore x hx), fun x hx => ?_⟩
  exact ((hends x hx).mono fun e he => he.imp_left (h.known e)).append (h.topic _)

lemma StorePc.found_later {job : StoreJob} {pc : StorePc} (hf : pc.found s.db job) :
    pc.found s'.db job := by
  cases pc with
  | lockCapacity => trivial
  | readInbox => trivial
  | readLedger ids => exact fun task htask hid => h.known _ (hf task htask hid)
  | acknowledge => exact fun task htask => h.known _ (hf task htask)
  | countPending rows => exact fun task htask => (hf task htask).imp_left (h.known _)
  | countRetained rows => exact fun task htask => (hf task htask).imp_left (h.known _)
  | insert rows => exact fun task htask => (hf task htask).imp_left (h.known _)
  | commit rows => exact fun task htask => (hf task htask).imp_left (h.known _)

lemma Proc.intake_later {q : Proc} (hq : q.intake s) : q.intake s' := by
  cases q with
  | consuming positions => exact fun x hx => Store.behind_later h (hq x hx)
  | storing job pc => exact ⟨StoreJob.covered_later h hq.1, StorePc.found_later h hq.2⟩
  | _ => trivial

end Monotone

/-! ### Polls -/

/-- The records a poll reads from one partition, from its position on. -/
structure ReadFrom (s : Store) (positions : List (ℕ × ℕ)) (tasks : List PartnerTask)
    (q n m : ℕ) : Prop where
  position : (q, n) ∈ positions
  read : ∀ e ∈ Log.slice (s.topic q) n m, ∃ task ∈ tasks, task.event = e

lemma ReadFrom.mono {positions : List (ℕ × ℕ)} {tasks tasks' : List PartnerTask} {q n m : ℕ}
    (h : ReadFrom s positions tasks q n m) (hsub : tasks ⊆ tasks') :
    ReadFrom s positions tasks' q n m := by
  refine ⟨h.position, fun e he => ?_⟩
  obtain ⟨task, htask, rfl⟩ := h.read e he
  exact ⟨task, hsub htask, rfl⟩

lemma map_event_polled (q n m : ℕ) :
    (polled s q n m).map (·.event) = Log.slice (s.topic q) n m := by
  rw [polled, List.map_map]
  exact List.zipIdx_map_fst 0 _

/-- **The records of a poll.** Every task comes from a slice that was read whole,
and every new position stands at the end of such a slice. -/
lemma pollBatch_spec {positions counts : List (ℕ × ℕ)} {tasks : List PartnerTask}
    {ends : List (ℕ × ℕ)} (h : pollBatch s positions counts = some (tasks, ends)) :
    (∀ task ∈ tasks, ∃ q n m, ReadFrom s positions tasks q n m ∧
      task.event ∈ Log.slice (s.topic q) n m) ∧
    ∀ x ∈ ends, ∃ n m, ReadFrom s positions tasks x.1 n m ∧
      x.2 = n + (Log.slice (s.topic x.1) n m).length := by
  induction counts generalizing tasks ends with
  | nil =>
      cases h
      exact ⟨by simp, by simp⟩
  | cons x rest ih =>
      obtain ⟨q, m⟩ := x
      simp only [pollBatch, Option.bind_eq_bind, Option.bind_eq_some_iff] at h
      obtain ⟨n, hn, ⟨tasks', ends'⟩, hrest, h⟩ := h
      cases h
      have hread : ReadFrom s positions (polled s q n m ++ tasks') q n m := by
        obtain ⟨l₁, l₂, hl, -⟩ := List.lookup_eq_some_iff.mp hn
        refine ⟨by rw [hl]; simp, fun e he => ?_⟩
        rw [← map_event_polled] at he
        obtain ⟨task, htask, hte⟩ := List.mem_map.mp he
        exact ⟨task, List.mem_append_left _ htask, hte⟩
      obtain ⟨htasks, hends⟩ := ih hrest
      refine ⟨fun task htask => ?_, fun y hy => ?_⟩
      · rcases List.mem_append.mp htask with htask | htask
        · refine ⟨q, n, m, hread, ?_⟩
          rw [← map_event_polled]
          exact List.mem_map_of_mem htask
        · obtain ⟨q', n', m', hr, hmem⟩ := htasks task htask
          exact ⟨q', n', m', hr.mono (List.subset_append_right _ _), hmem⟩
      · rcases List.mem_cons.mp hy with rfl | hy
        · refine ⟨n, m, hread, ?_⟩
          rw [← map_event_polled, List.length_map]
        · obtain ⟨n', m', hr, heq⟩ := hends y hy
          exact ⟨n', m', hr.mono (List.subset_append_right _ _), heq⟩

/-- A poll from known positions is covered by its tasks. -/
lemma pollBatch_covered {positions counts : List (ℕ × ℕ)} {tasks : List PartnerTask}
    {ends : List (ℕ × ℕ)} (h : pollBatch s positions counts = some (tasks, ends))
    (hpos : ∀ x ∈ positions, s.behind x) {x : ℕ × ℕ} (hx : x ∈ ends) :
    Log.Behind (s.db.knownOr tasks) (s.topic x.1) x.2 := by
  obtain ⟨n, m, hread, heq⟩ := (pollBatch_spec h).2 x hx
  rw [heq]
  exact ((hpos _ hread.position).mono fun _ => Or.inl).read fun e he => Or.inr (hread.read e he)

/-- Every task of a batch is known or gets a row. -/
lemma newRows_covers (receivedAt : ℤ) (ids : List String) (tasks : List PartnerTask)
    {task : PartnerTask} (htask : task ∈ tasks) :
    task.event.eventId ∈ ids ∨
      ∃ r ∈ newRows receivedAt ids tasks, r.eventId = task.event.eventId := by
  induction tasks generalizing ids with
  | nil => cases htask
  | cons x tasks ih =>
      by_cases hx : x.event.eventId ∈ ids
      · simp only [newRows, if_pos hx]
        rcases List.mem_cons.mp htask with rfl | htask
        · exact Or.inl hx
        · exact ih ids htask
      · simp only [newRows, if_neg hx]
        rcases List.mem_cons.mp htask with rfl | htask
        · exact Or.inr ⟨_, List.mem_cons_self, rfl⟩
        · rcases ih (x.event.eventId :: ids) htask with hid | ⟨r, hr, hid⟩
          · rcases List.mem_cons.mp hid with hid | hid
            · exact Or.inr ⟨_, List.mem_cons_self, hid.symm⟩
            · exact Or.inl hid
          · exact Or.inr ⟨r, List.mem_cons_of_mem _ hr, hid⟩

/-! ### Steps -/

/-- What a process knows of the intake after a statement of `storeAll`. -/
lemma storeNext_intake {job : StoreJob} {pc : StorePc} (hl : Later s s')
    (hq : Proc.intake s (.storing job pc)) (h : storeNext t s job pc = some (s', p')) :
    p'.intake s' := by
  obtain ⟨hcov, hf⟩ := hq
  have hcov' := StoreJob.covered_later hl hcov
  have hf' := StorePc.found_later hl hf
  obtain ⟨before, ends, hpoll, hbefore, hends⟩ := hcov'
  have hfailed : job.failed.intake s' := by
    rw [StoreJob.failed, hpoll]
    exact hbefore
  replace hcov' : job.covered s' := ⟨before, ends, hpoll, hbefore, hends⟩
  cases pc with
  | lockCapacity =>
      simp only [storeNext] at h
      split_ifs at h
      cases h
      exact ⟨hcov', trivial⟩
  | readInbox =>
      cases h
      refine ⟨hcov', fun task htask hid => ?_⟩
      obtain ⟨r, hr⟩ := Option.isSome_iff_exists.mp (List.mem_filter.mp hid).2
      exact Or.inl ⟨r, Table.mem_of_get hr, eventId_of_inboxRow hr⟩
  | readLedger ids =>
      have hcovers : ∀ task ∈ job.tasks, s.db.known task.event ∨ ∃ r ∈ newRows job.receivedAt
          (ids ++ knownInLedger s.db job.tasks) job.tasks, r.eventId = task.event.eventId := by
        intro task htask
        refine (newRows_covers job.receivedAt _ job.tasks htask).imp_left fun hid => ?_
        rcases List.mem_append.mp hid with hid | hid
        · exact hf task htask hid
        · exact Or.inr (of_decide_eq_true (List.mem_filter.mp hid).2)
      simp only [storeNext] at h
      split_ifs at h with hrows <;> cases h
      · refine ⟨hcov', fun task htask => ?_⟩
        rcases hcovers task htask with hk | ⟨r, hr, -⟩
        · exact hk
        · rw [hrows] at hr
          cases hr
      · exact ⟨hcov', hcovers⟩
  | countPending rows =>
      simp only [storeNext] at h
      split_ifs at h <;> cases h
      · exact hfailed
      · exact ⟨hcov', hf'⟩
  | countRetained rows =>
      simp only [storeNext] at h
      split_ifs at h <;> cases h
      · exact hfailed
      · exact ⟨hcov', hf'⟩
  | insert rows =>
      simp only [storeNext] at h
      split_ifs at h <;> cases h
      · exact ⟨hcov', hf'⟩
      · exact hfailed
  | commit rows =>
      cases h
      refine ⟨hcov', fun task htask => ?_⟩
      rcases hf' task htask with hk | ⟨r, hr, hid⟩
      · exact hk
      · exact Or.inl ⟨r, List.mem_append_right _ hr, hid⟩
  | acknowledge =>
      simp only [storeNext, hpoll] at h
      cases h
      intro x hx
      rcases List.mem_append.mp hx with hx | hx
      · refine (hends x hx).mono fun e he => ?_
        rcases he with hk | ⟨task, htask, rfl⟩
        · exact hk
        · exact hf' task htask
      · exact hbefore x hx

/-- What a process knows of the intake after its own step. -/
lemma next_intake {c : Config Store Proc} (hcomm : ∀ q, s.behind (q, s.committed q))
    (hq : p.intake s) (hok : fromPolls E c t a) (hl : Later s s')
    (h : next t s p a = some (s', p')) : p'.intake s' := by
  cases next_move h with
  | start job =>
      cases job with
      | storeAll job => exact absurd (hok.2 _ rfl) (by simp [Job.stores])
      | consume => simp [begin, Proc.intake]
      | _ => trivial
  | assign positions q =>
      intro x hx
      rcases List.mem_cons.mp hx with rfl | hx
      · exact hcomm q
      · exact hq x hx
  | revoke positions q => exact fun x hx => hq x (List.mem_filter.mp hx).1
  | @poll positions counts tasks ends pendingLimit retainedLimit receivedAt hbatch hvalid =>
      refine ⟨⟨positions, ends, rfl, hq, fun x hx => pollBatch_covered hbatch hq hx⟩, ?_⟩
      split_ifs with hempty
      · intro task htask
        rw [hempty] at htask
        cases htask
      · trivial
  | reject positions a => exact hq
  | store h => exact storeNext_intake hl hq h
  | claim h => obtain ⟨_, rfl⟩ | rfl := claimNext_proc h <;> trivial
  | renew h => obtain rfl | rfl := renewNext_proc h <;> trivial
  | deliver h => obtain ⟨_, rfl⟩ | rfl := processNext_proc h <;> trivial
  | giveBack h => obtain ⟨_, rfl⟩ | rfl := giveBackNext_proc h <;> trivial
  | relay h => obtain ⟨_, rfl⟩ | rfl := (relayNext_eq h).2 <;> trivial
  | _ => trivial

/-- Offsets are committed by the acknowledgement of a poll. -/
lemma Effect.committed_cases (h : Effect t s p s') :
    s'.committed = s.committed ∨ ∃ job before ends, p = .storing job .acknowledge ∧
      job.poll = some (before, ends) ∧
      s'.committed = fun q => (ends.lookup q).getD (s.committed q) := by
  cases h with
  | @acknowledge job before ends hp hpoll => exact Or.inr ⟨job, before, ends, hp, hpoll, rfl⟩
  | _ => exact Or.inl rfl

/-- Every step keeps the committed offsets behind known records. -/
lemma Effect.committed_behind (heff : Effect t s p s') (hl : Later s s') (hq : p.intake s)
    (hcomm : ∀ q, s.behind (q, s.committed q)) (q : ℕ) : s'.behind (q, s'.committed q) := by
  rcases heff.committed_cases with heq | ⟨job, before, ends, rfl, hpoll, heq⟩
  · rw [heq]
    exact Store.behind_later hl (hcomm q)
  · rw [heq]
    cases hend : ends.lookup q with
    | none =>
        simp only [hend, Option.getD_none]
        exact Store.behind_later hl (hcomm q)
    | some n =>
        simp only [hend, Option.getD_some]
        obtain ⟨⟨before', ends', hpoll', -, hends⟩, hf⟩ := hq
        cases hpoll.symm.trans hpoll'
        obtain ⟨l₁, l₂, hl', -⟩ := List.lookup_eq_some_iff.mp hend
        refine Store.behind_later hl ((hends (q, n) (by rw [hl']; simp)).mono fun e he => ?_)
        rcases he with hk | ⟨task, htask, rfl⟩
        · exact hk
        · exact hf task htask

/-! ### Every run -/

/-- **Offsets are committed for known records only**, and consumers stand behind
known records. -/
theorem reachable_intake {c : Config Store Proc} (h : Run service (fromPolls E) initial c) :
    (∀ q, c.store.behind (q, c.store.committed q)) ∧ ∀ t, (c.procs t).intake c.store := by
  have hlater : ∀ c t a s' p', Run service (fromPolls E) initial c → fromPolls E c t a →
      next t c.store (c.procs t) a = some (s', p') → Later c.store s' := by
    intro c t a s' p' hrun hok hnext
    obtain ⟨hi, hq⟩ := reachable_agrees (inboxMode_of_fromPolls hrun)
    exact (reachable_effect hrun hnext).later hi (hq t) hnext
  refine Run.invariant (I := fun s => ∀ q, s.behind (q, s.committed q))
    (J := fun _ s p => p.intake s)
    (K := fun c => Run service (fromPolls E) initial c) (fun _ h => h) ?_ ?_ ?_ h
  · exact ⟨fun q => Log.behind_zero, fun _ => trivial⟩
  · intro c t a s' p' hrun hok hcomm hq hnext
    have hl := hlater c t a s' p' hrun hok hnext
    exact ⟨(reachable_effect hrun hnext).committed_behind hl (hq t) hcomm,
      next_intake hcomm (hq t) hok hl hnext⟩
  · intro c t a s' p' u hrun hok hcomm hq hnext hut
    exact Proc.intake_later (hlater c t a s' p' hrun hok hnext) (hq u)

/-- Every record below the committed offset is known. -/
lemma committed_known {c : Config Store Proc} (h : Run service (fromPolls E) initial c) {q : ℕ}
    {e : PartnerOrderEvent} (he : e ∈ (c.store.topic q).take (c.store.committed q)) :
    c.store.db.known e :=
  ((reachable_intake h).1 q).2 e he

end OrderSystem.Partner
