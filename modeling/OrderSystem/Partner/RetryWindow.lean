/-
The retry budget of a seller across instances.

A claim counts the admissions of the window and inserts its own some statements later, and what
it inserts can be seen by others only when it commits. The count stays valid since a claim locks
the permits of its seller before it counts (`claim` reads them `FOR UPDATE`), and keeps them
until it commits.

* `sharedBudget`: all instances use one budget and one window.
* `metered`: the service with the log of the admissions it commits, whether or not they were
  purged later.
* `ClaimPc.counting`: behind the locking read; claims of one seller are there one after the other.
* `WithinBudget`: the log keeps the budget, and the table counts like the log in every window that
  ends now or later.
* `AdmissionChange`, `next_admissions`: the commit of a claim appends to the table, the purge
  deletes, and every other step leaves the table alone.
* `retry_budget_across_instances`: at most the budget in any interval of the length of the window.
-/
import OrderSystem.Foundations.Logging
import OrderSystem.Partner.Effects
import OrderSystem.Partner.RetryBudget

namespace OrderSystem.Partner

open Interleaving Window

variable {t u : ℕ} {s s' : Store} {p p' : Proc} {a : Act} {budget : ℕ} {W : ℤ}

/-! ### The environment -/

/-- All instances use the same budget and window. -/
def sharedBudget (budget : ℕ) (W : ℤ) (_ : Config Store Proc) (_ : ℕ) : Act → Prop
  | .start (.claim job) => job.retryBudget ≤ budget ∧ job.retryWindowMs = W
  | .deleteRetryAdmissionsBefore windowMs _ _ => windowMs = W
  | _ => True

instance (budget : ℕ) (W : ℤ) (c : Config Store Proc) (t : ℕ) (a : Act) :
    Decidable (sharedBudget budget W c t a) :=
  match a with
  | .start (.claim _) => inferInstanceAs (Decidable (_ ∧ _))
  | .deleteRetryAdmissionsBefore windowMs _ _ => inferInstanceAs (Decidable (windowMs = W))
  | .start .consume | .start (.storeAll _) | .start (.process _) | .start (.renew _ _)
  | .start (.giveBack _ _) | .start (.release _) | .start (.relay _) | .go _ | .abort | .tick _
  | .restart _ | .produce .. | .serve .. | .assign _ | .revoke _ | .poll .. | .scheduleRetry ..
  | .deleteDoneBefore .. | .appendReport .. | .purgeReports .. => isTrue trivial

/-- The time at which the claim was admitted as a retry. -/
def ClaimPc.admittedAt : ClaimPc → Option ℤ
  | .commit _ (.claimed _ _ time _ _) => time
  | _ => none

/-- The admission a step commits. -/
def admission (_ : Store) : Proc → Act → List RetryAdmission
  | .claiming job pc, .go _ =>
      (pc.admittedAt.map (RetryAdmission.mk job.event.sellerId job.event.eventId)).toList
  | _, _ => []

/-- The service with the log of the admissions. -/
def metered : Program (Store × List RetryAdmission) Proc Act :=
  service.logged admission

/-- The times at which retries of a seller were admitted. -/
def timesOf (sellerId : String) (log : List RetryAdmission) : List ℤ :=
  (log.filter fun r => r.sellerId = sellerId).map (·.admittedAt)

lemma timesOf_append (sellerId : String) (log log' : List RetryAdmission) :
    timesOf sellerId (log ++ log') = timesOf sellerId log ++ timesOf sellerId log' := by
  rw [timesOf, List.filter_append, List.map_append]
  rfl

lemma timesOf_other {seller other eventId : String} (h : other ≠ seller) (time : Option ℤ) :
    timesOf other (time.map (RetryAdmission.mk seller eventId)).toList = [] := by
  cases time with
  | none => rfl
  | some time => simp [timesOf, h.symm]

/-- The seller and the event of an admission. -/
def RetryAdmission.key (r : RetryAdmission) : String × String :=
  (r.sellerId, r.eventId)

/-- The sellers and the events of the tokens that were handed out for a retry. -/
def Store.retries (s : Store) : List (String × String) :=
  (s.issued.filter fun i => i.claim.retry).map fun i => (i.claim.sellerId, i.claim.eventId)

/-! ### The statements of a claim -/

/-- The claim is behind the locking read of the permits, and has found a free one. -/
def ClaimPc.counting : ClaimPc → Prop
  | .selectRow .. | .countAdmissions .. | .insertAdmission .. | .updateRow .. | .updatePermit ..
  | .commit _ (.claimed ..) => True
  | _ => False

/-- The time the claim is admitted at. -/
def ClaimPc.admitting (now : ℤ) : ClaimPc → Option ℤ
  | .insertAdmission .. => some now
  | .updateRow _ _ _ time | .updatePermit _ _ _ time _ | .commit _ (.claimed _ _ time _ _) => time
  | _ => none

/-- A claim is admitted when its row had an attempt before, and only then. -/
def ClaimPc.admitsRetry : ClaimPc → Prop
  | .countAdmissions _ _ row | .insertAdmission _ _ row => 0 < row.attempts
  | .updateRow _ _ row time | .updatePermit _ _ row time _ | .commit _ (.claimed _ row time _ _) =>
      0 < row.attempts ↔ time.isSome
  | _ => True

/-- What a claim may rely on: the permits of its seller are locked, and the budget has room. -/
structure Metering (budget : ℕ) (W : ℤ) (t : ℕ) (s : Store) (log : List RetryAdmission)
    (job : ClaimJob) (pc : ClaimPc) : Prop where
  settings : job.retryBudget ≤ budget ∧ job.retryWindowMs = W
  retry : pc.admitsRetry
  locked : pc.counting → (.permits job.event.sellerId, t) ∈ s.locks
  room : ∀ time ∈ pc.admitting s.now, admits budget W (timesOf job.event.sellerId log) time

/-- The local part of the invariant. -/
def Proc.metering (budget : ℕ) (W : ℤ) (t : ℕ) (s : Store) (log : List RetryAdmission) :
    Proc → Prop
  | .claiming job pc => Metering budget W t s log job pc
  | _ => True

/-- The table and the log of the admissions. -/
structure WithinBudget (budget : ℕ) (W : ℤ) (s : Store) (log : List RetryAdmission) : Prop where
  clock : 0 ≤ s.now
  counts : ∀ seller, Counts W s.now (s.db.admissionTimes seller) (timesOf seller log)
  spread : ∀ seller, Spread budget W (timesOf seller log)
  issued : s.retries = log.map RetryAdmission.key

/-- A window that ends later holds no more of the times. -/
lemma recent_antitone {now now' : ℤ} (h : now ≤ now') (l : List ℤ) :
    recent W now' l ≤ recent W now l := by
  refine List.countP_mono_left fun x _ hx => ?_
  simp only [decide_eq_true_eq] at hx ⊢
  omega

/-- **A statement of a claim** before its commit. -/
lemma claimNext_metering {log : List RetryAdmission} {job : ClaimJob} {jvm : ℤ} {pc : ClaimPc}
    (hb : WithinBudget budget W s log) (hm : Metering budget W t s log job pc)
    (h : claimNext t s job jvm pc = some (s', p')) (hcommit : pc.admittedAt = none) :
    p'.metering budget W t s' log := by
  -- before the count there is nothing to rely on but the locks
  have hlocked : ∀ {rs : List Resource} {pc' : ClaimPc}, pc.counting → pc'.admitsRetry →
      pc'.admitting (s.lock t rs).now = none →
        (Proc.claiming job pc').metering budget W t (s.lock t rs) log := by
    intro rs pc' hc hretry hnone
    refine ⟨hm.settings, hretry, fun _ => Locks.mem_acquire.mpr (Or.inr (hm.locked hc)), ?_⟩
    rw [hnone]
    simp
  have hidle : ∀ {s' : Store} {pc' : ClaimPc}, ¬ pc'.counting → pc'.admitsRetry →
      pc'.admitting s'.now = none → (Proc.claiming job pc').metering budget W t s' log := by
    intro s' pc' hc hretry hnone
    refine ⟨hm.settings, hretry, fun h => absurd h hc, ?_⟩
    rw [hnone]
    simp
  cases pc with
  | ensurePermits =>
      simp only [claimNext] at h
      cases h
      split_ifs <;> exact hidle id trivial rfl
  | ensure slot inserted =>
      simp only [claimNext] at h
      split_ifs at h <;> cases h <;> exact hidle id trivial rfl
  | selectPermits inserted =>
      simp only [claimNext] at h
      split_ifs at h
      split at h <;> cases h
      · exact hidle id trivial rfl
      · exact ⟨hm.settings, trivial,
          fun _ => Locks.mem_acquire.mpr (Or.inl ⟨List.mem_cons_self, rfl⟩),
          by simp [ClaimPc.admitting]⟩
  | selectRow inserted slot =>
      simp only [claimNext] at h
      split at h
      · cases h
        exact hidle id trivial rfl
      · split_ifs at h with hok hretry <;> cases h
        · exact hlocked trivial hretry rfl
        · exact hlocked trivial (by simp [ClaimPc.admitsRetry, hretry]) rfl
        · exact hidle id trivial rfl
  | countAdmissions inserted slot row =>
      simp only [claimNext] at h
      split_ifs at h with hfull <;> cases h
      · exact hidle id trivial rfl
      · refine ⟨hm.settings, hm.retry, fun _ => hm.locked trivial, ?_⟩
        rintro time ⟨⟩
        rw [hm.settings.2, retryCount_eq, hb.counts _ _ le_rfl] at hfull
        exact lt_of_lt_of_le (not_le.mp hfull) hm.settings.1
  | insertAdmission inserted slot row =>
      cases h
      have hretry : 0 < row.attempts ↔ (some s.now).isSome = true := iff_of_true hm.retry rfl
      exact ⟨hm.settings, hretry, fun _ => hm.locked trivial, hm.room⟩
  | updateRow inserted slot row time =>
      cases h
      exact ⟨hm.settings, hm.retry, fun _ => hm.locked trivial, hm.room⟩
  | updatePermit inserted slot row time row' =>
      simp only [claimNext] at h
      split at h <;> cases h
      exact ⟨hm.settings, hm.retry, fun _ => hm.locked trivial, hm.room⟩
  | commit inserted result =>
      simp only [claimNext] at h
      split at h <;> cases h <;> trivial

/-- A commit that does not admit, or a statement before it, commits no admission. -/
lemma admission_eq_nil {job : ClaimJob} {pc : ClaimPc} (h : pc.admittedAt = none) :
    admission s (.claiming job pc) a = [] := by
  cases a with
  | go jvm => simp [admission, h]
  | _ => rfl

/-! ### The table of the admissions -/

/-- What a step does to the admissions. -/
inductive AdmissionChange (s : Store) (p : Proc) (a : Act) (s' : Store) : Prop
  | append (h : s'.db.retryAdmission = s.db.retryAdmission ++ admission s p a)
  | purge {windowMs : ℤ} {limit : ℕ} {picked : List ℕ} (hp : p = .idle)
      (ha : a = .deleteRetryAdmissionsBefore windowMs limit picked)
      (h : s.db.deleteRetryAdmissionsBefore s.now windowMs limit picked = some s'.db)
      (hnow : s'.now = s.now)

/-- A step that neither admits nor purges. -/
lemma AdmissionChange.same (h : s'.db.retryAdmission = s.db.retryAdmission)
    (hnone : admission s p a = []) : AdmissionChange s p a s' :=
  .append (by rw [h, hnone, List.append_nil])

lemma storeNext_admissions {job : StoreJob} {pc : StorePc}
    (h : storeNext t s job pc = some (s', p')) : s'.db.retryAdmission = s.db.retryAdmission := by
  cases pc <;> simp only [storeNext] at h <;> (repeat' split at h) <;>
    first
      | (cases h; rfl)
      | cases h

lemma renewNext_admissions {c : Claim} {leaseMs : ℤ} {pc : RenewPc}
    (h : renewNext t s c leaseMs pc = some (s', p')) :
    s'.db.retryAdmission = s.db.retryAdmission := by
  cases pc <;> simp only [renewNext] at h <;> (repeat' split at h) <;>
    first
      | (cases h; rfl)
      | cases h

lemma giveBackNext_admissions {c : Claim} {pc : GiveBackPc}
    (h : giveBackNext t s c pc = some (s', p')) : s'.db.retryAdmission = s.db.retryAdmission := by
  cases pc with
  | commit row permit => cases row <;> cases permit <;> cases h <;> rfl
  | _ =>
      simp only [giveBackNext] at h
      (repeat' split at h) <;>
        first
          | (cases h; rfl)
          | cases h

lemma commitDelivery_admissions {job : ProcessJob} {delivery : Option ℤ} {row : Option InboxRow}
    {permit : Option PermitRow} {db : Db} :
    (commitDelivery job delivery row permit db).retryAdmission = db.retryAdmission := by
  cases delivery <;> cases row <;> cases permit <;> cases hr : job.reports <;>
    simp [commitDelivery, writeBack, hr, Db.setInbox, Db.setPermit, Db.recordDelivery,
      Db.recordCompletion] <;> split_ifs <;> rfl

lemma processNext_admissions {job : ProcessJob} {jvm : ℤ} {pc : ProcessPc}
    (h : processNext t s job jvm pc = some (s', p')) :
    s'.db.retryAdmission = s.db.retryAdmission := by
  cases pc with
  | commit delivery row permit =>
      have hdb : s'.db = commitDelivery job delivery row permit s.db := by
        cases delivery <;> cases hc : job.claim <;> simp only [processNext, hc] at h <;> cases h <;>
          rfl
      rw [hdb, commitDelivery_admissions]
  | _ =>
      simp only [processNext] at h
      (repeat' split at h) <;>
        first
          | (cases h; rfl)
          | cases h

lemma insertPermits_admissions (sellerId : String) (slots : List ℕ) (db : Db) :
    (db.insertPermits sellerId slots).retryAdmission = db.retryAdmission := by
  rw [Db.insertPermits_eq]

/-- A claim that commits appends its admission. -/
lemma claimNext_admissions {job : ClaimJob} {jvm : ℤ} {pc : ClaimPc}
    (h : claimNext t s job jvm pc = some (s', p')) :
    AdmissionChange s (.claiming job pc) (.go jvm) s' := by
  cases pc with
  | commit inserted result =>
      cases result with
      | claimed slot row time row' permit =>
          cases h
          refine .append ?_
          simp [Store.unlock, commitClaim, Db.setPermit, Db.setInbox, insertPermits_admissions,
            admission, ClaimPc.admittedAt]
      | _ =>
          cases h
          exact .same (insertPermits_admissions _ _ _) rfl
  | _ =>
      refine .same ?_ rfl
      simp only [claimNext] at h
      (repeat' split at h) <;>
        first
          | (cases h; rfl)
          | cases h

lemma idle_admissions (h : next t s .idle a = some (s', .idle)) :
    AdmissionChange s .idle a s' := by
  cases a with
  | deleteRetryAdmissionsBefore windowMs limit picked =>
      obtain ⟨s₁, hdelete, h⟩ := Option.map_eq_some_iff.mp h
      obtain ⟨db, hdb, rfl⟩ := Option.map_eq_some_iff.mp hdelete
      cases h
      exact .purge rfl rfl hdb rfl
  | appendReport n lost =>
      obtain ⟨s₁, happend, h⟩ := Option.map_eq_some_iff.mp h
      obtain ⟨rows, reporting, n, acks, rfl⟩ := appendReport_eq happend
      cases h
      exact .same rfl rfl
  | purgeReports now ids =>
      obtain ⟨s₁, hpurge, h⟩ := Option.map_eq_some_iff.mp h
      obtain ⟨rows, reporting, n, acks, rfl⟩ := purgeReports_eq hpurge
      cases h
      exact .same rfl rfl
  | start job =>
      have hs : s = s' := (Prod.mk.inj (Option.some.inj h)).1
      exact .same (by rw [hs]) rfl
  | _ =>
      refine .same ?_ rfl
      simp only [next, serve, deleteDone] at h
      first
        | (cases h; rfl)
        | (repeat' split at h) <;> first
            | (cases h; rfl)
            | cases h

/-- **What a step does to the admissions**: an append, a purge, or nothing. -/
theorem next_admissions (h : next t s p a = some (s', p')) : AdmissionChange s p a s' := by
  cases next_move h with
  | free h => exact idle_admissions h
  | store h => exact .same (storeNext_admissions h) rfl
  | claim h => exact claimNext_admissions h
  | renew h => exact .same (renewNext_admissions h) rfl
  | deliver h => exact .same (processNext_admissions h) rfl
  | giveBack h => exact .same (giveBackNext_admissions h) rfl
  | relay h =>
      obtain ⟨rows, reporting, n, acks, rfl⟩ := (relayNext_eq h).1
      exact .same rfl rfl
  | abort p =>
      refine .same rfl ?_
      cases p <;> rfl
  | _ => exact .same rfl rfl

/-- The tokens handed out for a retry are those of the admissions. -/
lemma next_retries {log : List RetryAdmission} (heff : Effect t s p s')
    (hm : p.metering budget W t s log) (h : next t s p a = some (s', p')) :
    s'.retries = s.retries ++ (admission s p a).map RetryAdmission.key := by
  have hsame : s'.issued = s.issued → admission s p a = [] →
      s'.retries = s.retries ++ (admission s p a).map RetryAdmission.key := by
    intro hissued hnone
    rw [Store.retries, hissued, hnone, List.map_nil, List.append_nil]
    rfl
  have hother : (∀ job pc, p ≠ .claiming job pc) → s'.issued = s.issued := by
    intro hp
    cases heff.issuedChange with
    | same h => exact h
    | claim hp' hclaim h hin hrec => exact absurd hp' (hp _ _)
  cases next_move h with
  | abort p =>
      refine hsame rfl ?_
      cases p <;> rfl
  | @claim job pc jvm s' p' h =>
      cases pc with
      | commit inserted result =>
          cases result with
          | claimed slot row time row' permit =>
              cases h
              have hretry : 0 < row.attempts ↔ time.isSome := hm.retry
              cases time with
              | none =>
                  have hfirst : ¬ 0 < row.attempts := fun h => by simpa using hretry.mp h
                  simp [Store.retries, Store.unlock, admission, ClaimPc.admittedAt, ClaimJob.token,
                    hfirst]
              | some time =>
                  have hagain : 0 < row.attempts := hretry.mpr rfl
                  simp [Store.retries, Store.unlock, admission, ClaimPc.admittedAt, ClaimJob.token,
                    RetryAdmission.key, hagain]
          | _ =>
              cases h
              exact hsame rfl rfl
      | _ =>
          refine hsame ?_ rfl
          simp only [claimNext] at h
          (repeat' split at h) <;>
            first
              | (cases h; rfl)
              | cases h
  | _ => exact hsame (hother (by simp)) rfl

/-! ### Every run -/

/-- An admission comes from the commit of a claim. -/
lemma admission_cases (s : Store) (p : Proc) (a : Act) :
    admission s p a = [] ∨ ∃ job pc time, p = .claiming job pc ∧
      pc.counting ∧ time ∈ pc.admitting s.now ∧
      admission s p a = [⟨job.event.sellerId, job.event.eventId, time⟩] := by
  cases p with
  | claiming job pc =>
      cases a with
      | go jvm =>
          cases pc with
          | commit inserted result =>
              cases result with
              | claimed slot row time row' permit =>
                  cases time with
                  | none => exact Or.inl rfl
                  | some time => exact Or.inr ⟨job, _, time, rfl, trivial, rfl, rfl⟩
              | _ => exact Or.inl rfl
          | _ => exact Or.inl rfl
      | _ => exact Or.inl rfl
  | _ => exact Or.inl rfl

/-- A claim that has its admission is behind the locking read. -/
lemma counting_of_admitting {now time : ℤ} {pc : ClaimPc} (h : time ∈ pc.admitting now) :
    pc.counting := by
  cases pc with
  | commit inserted result =>
      cases result with
      | claimed slot row time row' permit => trivial
      | _ => cases h
  | insertAdmission inserted slot row => trivial
  | updateRow inserted slot row time => trivial
  | updatePermit inserted slot row time row' => trivial
  | _ => cases h

/-- The budget of a seller after one more admission. -/
lemma WithinBudget.add {log : List RetryAdmission} {job : ClaimJob} {pc : ClaimPc} {time : ℤ}
    (hb : WithinBudget budget W s log) (hm : Metering budget W t s log job pc)
    (htime : time ∈ pc.admitting s.now) (seller : String) :
    Counts W s.now (s.db.admissionTimes seller ++
        timesOf seller [⟨job.event.sellerId, job.event.eventId, time⟩])
      (timesOf seller log ++ timesOf seller [⟨job.event.sellerId, job.event.eventId, time⟩]) ∧
    Spread budget W
      (timesOf seller log ++ timesOf seller [⟨job.event.sellerId, job.event.eventId, time⟩]) := by
  by_cases hs : seller = job.event.sellerId
  · subst hs
    have hone : timesOf job.event.sellerId [⟨job.event.sellerId, job.event.eventId, time⟩] =
        [time] := by simp [timesOf]
    rw [hone]
    exact ⟨(hb.counts _).concat time, (hb.spread _).concat (hm.room time htime)⟩
  · have hnone : timesOf seller [⟨job.event.sellerId, job.event.eventId, time⟩] = [] :=
      timesOf_other hs (some time)
    rw [hnone, List.append_nil, List.append_nil]
    exact ⟨hb.counts seller, hb.spread seller⟩

/-- **The budget along a step.** -/
lemma WithinBudget.step {log : List RetryAdmission} (hW : purgeOutside W)
    (hb : WithinBudget budget W s log) (hm : p.metering budget W t s log)
    (hpurge : ∀ windowMs limit picked, a = .deleteRetryAdmissionsBefore windowMs limit picked →
      windowMs = W)
    (hle : s.now ≤ s'.now)
    (hissued : s'.retries = s.retries ++ (admission s p a).map RetryAdmission.key)
    (h : AdmissionChange s p a s') : WithinBudget budget W s' (log ++ admission s p a) := by
  have hretries : s'.retries = (log ++ admission s p a).map RetryAdmission.key := by
    rw [hissued, hb.issued, List.map_append]
  cases h with
  | append h =>
      have htable : ∀ seller, s'.db.admissionTimes seller =
          s.db.admissionTimes seller ++ timesOf seller (admission s p a) := by
        intro seller
        rw [Db.admissionTimes, h, List.filter_append, List.map_append]
        rfl
      refine ⟨hb.clock.trans hle, fun seller => ?_, fun seller => ?_, hretries⟩
      · rw [htable, timesOf_append]
        obtain hnone | ⟨job, pc, time, rfl, -, htime, hone⟩ := admission_cases s p a
        · rw [hnone]
          simpa [timesOf] using (hb.counts seller).mono hle
        · rw [hone]
          exact (hb.add hm htime seller).1.mono hle
      · rw [timesOf_append]
        obtain hnone | ⟨job, pc, time, rfl, -, htime, hone⟩ := admission_cases s p a
        · rw [hnone]
          simpa [timesOf] using hb.spread seller
        · rw [hone]
          exact (hb.add hm htime seller).2
  | @purge windowMs limit picked hp ha h hnow =>
      obtain rfl := hpurge _ _ _ ha
      subst hp
      have hnone : admission s .idle a = [] := rfl
      rw [hnone, List.append_nil] at hretries ⊢
      refine ⟨hnow ▸ hb.clock, fun seller => ?_, hb.spread, hretries⟩
      rw [hnow]
      refine (hb.counts seller).forget le_rfl fun now' hnow' => ?_
      have hkept := @purge_counts _ hW s.db _ hb.clock limit picked seller _ hnow'
      rwa [h, Option.getD_some] at hkept

/-- Admissions of others leave a claim its room: only one claim of a seller is behind the locking
read. -/
lemma Metering.other {log : List RetryAdmission} {job : ClaimJob} {pc : ClaimPc}
    (hex : Locks.Exclusive s.locks) (hm : Metering budget W u s log job pc)
    (hp : p.metering budget W t s log) (hut : u ≠ t) (hle : s.now ≤ s'.now)
    (hlocks : ∀ r, (r, u) ∈ s.locks → (r, u) ∈ s'.locks) :
    Metering budget W u s' (log ++ admission s p a) job pc := by
  refine ⟨hm.settings, hm.retry, fun hc => hlocks _ (hm.locked hc), fun time htime => ?_⟩
  have hroom : ∃ time', time' ∈ pc.admitting s.now ∧ time' ≤ time := by
    cases pc with
    | insertAdmission inserted slot row =>
        cases htime
        exact ⟨s.now, rfl, hle⟩
    | commit inserted result =>
        cases result with
        | claimed slot row time row' permit => exact ⟨_, htime, le_rfl⟩
        | _ => cases htime
    | updateRow inserted slot row time => exact ⟨_, htime, le_rfl⟩
    | updatePermit inserted slot row time row' => exact ⟨_, htime, le_rfl⟩
    | _ => cases htime
  obtain ⟨time', htime', hle'⟩ := hroom
  have hnone : timesOf job.event.sellerId (admission s p a) = [] := by
    obtain hnone | ⟨job', pc', time₁, rfl, hcounting, htime₁, hone⟩ := admission_cases s p a
    · rw [hnone]
      rfl
    · rw [hone]
      refine timesOf_other (fun hseller => hut ?_) (some time₁)
      have hmine := hm.locked (counting_of_admitting htime')
      rw [hseller] at hmine
      exact hex _ _ _ hmine (hp.locked hcounting)
  rw [timesOf_append, hnone, List.append_nil]
  exact lt_of_le_of_lt (recent_antitone hle' _) (hm.room time' htime')

/-- **A step of a process** leaves it with what it may rely on next. -/
lemma next_metering {log : List RetryAdmission} (hb : WithinBudget budget W s log)
    (hm : p.metering budget W t s log)
    (hstart : ∀ job, a = .start (.claim job) → job.retryBudget ≤ budget ∧ job.retryWindowMs = W)
    (h : next t s p a = some (s', p')) :
    p'.metering budget W t s' (log ++ admission s p a) := by
  cases next_move h with
  | start job =>
      cases job with
      | claim job => exact ⟨hstart job rfl, trivial, fun h => absurd h id, by
          simp [ClaimPc.admitting]⟩
      | _ => trivial
  | store h => obtain ⟨pc', rfl⟩ | rfl | ⟨positions, rfl⟩ := storeNext_proc h <;> trivial
  | @claim job pc jvm s' p' h =>
      by_cases hcommit : pc.admittedAt = none
      · rw [admission_eq_nil hcommit, List.append_nil]
        exact claimNext_metering hb hm h hcommit
      · obtain ⟨pc', rfl⟩ | rfl := claimNext_proc h
        · cases pc with
          | commit inserted result =>
              simp only [claimNext] at h
              split at h <;> cases h
          | _ => exact absurd rfl hcommit
        · trivial
  | renew h => obtain rfl | rfl := renewNext_proc h <;> trivial
  | deliver h => obtain ⟨pc', rfl⟩ | rfl := processNext_proc h <;> trivial
  | giveBack h => obtain ⟨pc', rfl⟩ | rfl := giveBackNext_proc h <;> trivial
  | relay h => obtain ⟨pc', rfl⟩ | rfl := (relayNext_eq h).2 <;> trivial
  | _ => trivial

/-- **The budget of every seller holds across the instances.** The tokens handed out for retries
are the admissions of the log, and of one seller at most the budget of them are admitted in any
interval of the length of the window, however the instances, the purges and the clock
interleave. -/
theorem retry_budget_across_instances (hW : purgeOutside W)
    {c : Config (Store × List RetryAdmission) Proc}
    (h : Run metered (unlogged (sharedBudget budget W)) (initial.logged []) c) :
    c.store.1.retries = c.store.2.map RetryAdmission.key ∧
      ∀ seller, Spread budget W (timesOf seller c.store.2) := by
  have hrun : ∀ c, Run metered (unlogged (sharedBudget budget W)) (initial.logged []) c →
      Run service (sharedBudget budget W) initial c.unlogged := fun c h => h.unlogged
  have hinv : WithinBudget budget W c.store.1 c.store.2 ∧
      ∀ t, (c.procs t).metering budget W t c.store.1 c.store.2 := by
    refine Run.invariant (I := fun x => WithinBudget budget W x.1 x.2)
      (J := fun t x p => p.metering budget W t x.1 x.2) hrun ?_ ?_ ?_ h
    · exact ⟨⟨le_rfl, fun _ => Counts.refl, fun _ => Spread.nil, rfl⟩, fun _ => trivial⟩
    · intro c t a x' p' hrun hok hb hm hnext
      obtain ⟨hnext, hlog⟩ := Program.logged_next.mp hnext
      have heff := reachable_effect hrun hnext
      rw [hlog]
      refine ⟨hb.step hW (hm t) ?_ heff.now_le (next_retries heff (hm t) hnext)
        (next_admissions hnext), next_metering hb (hm t) ?_ hnext⟩
      · rintro windowMs limit picked rfl
        exact hok
      · rintro job rfl
        exact hok
    · intro c t a x' p' u hrun hok hb hm hnext hut
      obtain ⟨hnext, hlog⟩ := Program.logged_next.mp hnext
      rw [hlog]
      have hlocks := reachable_locks hrun
      have hchange := (next_locks (hlocks.2 t) hnext).1
      have hq := hm u
      revert hq
      cases hproc : c.procs u with
      | claiming job pc =>
          intro hq
          exact hq.other hlocks.1 (hm t) hut (reachable_effect hrun hnext).now_le
            fun r hr => (hchange.others hut).mpr hr
      | _ => exact fun _ => trivial
  exact ⟨hinv.1.issued, hinv.1.spread⟩

/-- An instance claims the event with a budget of one retry. -/
def retrying (t n : ℕ) (owner : String) : List (ℕ × Act) :=
  (t, .start (.claim ⟨sampleEvent "A" 1, owner, 1, 1, 1000, 10⟩)) :: statements t n 0

/-- The event is claimed and given back twice, the second time as the retry of another instance. A
third claim finds the budget used up. -/
def budgetRun : List (ℕ × Act) :=
  storing 1 (sampleEvent "A" 1) ++ retrying 2 8 "w1" ++
    (2, .start (.giveBack ⟨"A", "S", "w1", 1, 1, false, false⟩ 0)) :: statements 2 3 0 ++
    (3, .tick 5) :: retrying 4 10 "w2" ++
    (4, .start (.giveBack ⟨"A", "S", "w2", 2, 1, true, false⟩ 0)) :: statements 4 3 0 ++
    (3, .tick 900) :: retrying 2 5 "w1"

/-- Two claims of three get a token, one of them as a retry. -/
theorem retry_budget_across_two_instances :
    ∃ c, Run metered (unlogged (sharedBudget 1 1000)) (initial.logged []) c ∧
      (c.store.1.issued.length = 2 ∧ c.store.2 = [⟨"S", "A", 5⟩]) ∧
      c.store.1.retries = c.store.2.map RetryAdmission.key ∧
        ∀ seller, Spread 1 1000 (timesOf seller c.store.2) := by
  obtain ⟨c, hrun, hvalue⟩ := Run.exists_of_exec metered (unlogged (sharedBudget 1 1000))
    (initial.logged []) budgetRun (fun c => (c.store.1.issued.length, c.store.2))
    (2, [⟨"S", "A", 5⟩]) (by decide +kernel)
  exact ⟨c, hrun, Prod.mk.inj hvalue, retry_budget_across_instances (by decide) hrun⟩

end OrderSystem.Partner
