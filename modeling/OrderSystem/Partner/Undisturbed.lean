/-
One instance of the partner service that nobody disturbs.

* `PartnerSettings`, `Act.configured`: the settings of the instance, and the actions that
  run under them. `resuming`: INBOX mode under these settings, without new records.
* `Store.ownedBy`: every lock belongs to one process, so that process never waits.
* `run_job`: a job of an idle process from its start to its end.
* `run_settle`: whatever the other processes were about, they stop and their locks go.
* `run_claim`, `run_deliver`: a due row that is next in its order is claimed and delivered.
* `run_ingest`: the next record of a partition is taken over and acknowledged.
* `run_purge`: a finished row is deleted.
-/
import OrderSystem.Partner.ClaimAlone
import OrderSystem.Partner.Issued
import OrderSystem.Partner.Unclaimed

namespace OrderSystem.Partner

open Interleaving

variable {t u : ℕ} {s s' : Store} {p p' : Proc} {E : PartnerOrderEvent → Prop}
  {ok : Config Store Proc → ℕ → Act → Prop} {procs : ℕ → Proc}

/-! ### The settings -/

/-- The settings of an instance that bound its work. -/
structure PartnerSettings where
  sellerConcurrency : ℕ
  retryBudget : ℕ
  retryWindowMs : ℤ
  leaseMs : ℤ
  backlogLimit : ℕ
  retainedLimit : ℕ
  deriving DecidableEq, Repr

/-- No limit shuts out everything. -/
structure PartnerSettings.Open (settings : PartnerSettings) : Prop where
  sellerConcurrency : 1 ≤ settings.sellerConcurrency
  retryBudget : 1 ≤ settings.retryBudget
  leaseMs : 0 ≤ settings.leaseMs
  backlogLimit : 1 ≤ settings.backlogLimit
  retainedLimit : 1 ≤ settings.retainedLimit

/-- The action runs under the settings. -/
def Act.configured (settings : PartnerSettings) : Act → Prop
  | .start (.claim job) => job.sellerPermits = settings.sellerConcurrency ∧
      job.retryBudget = settings.retryBudget ∧ job.retryWindowMs = settings.retryWindowMs ∧
      job.leaseMs = settings.leaseMs
  | .poll _ pendingLimit retainedLimit _ =>
      pendingLimit = settings.backlogLimit ∧ retainedLimit = settings.retainedLimit
  | .deleteDoneBefore _ limit _ => limit = 1000
  | _ => True

/-- INBOX mode under the settings, without new records. -/
def resuming (settings : PartnerSettings) (E : PartnerOrderEvent → Prop) (c : Config Store Proc)
    (t : ℕ) (a : Act) : Prop :=
  fromPolls E c t a ∧ a.configured settings ∧ a.record = none

lemma fromPolls_of_resuming {settings : PartnerSettings} {c c' : Config Store Proc}
    (h : Run service (resuming settings E) c c') : Run service (fromPolls E) c c' :=
  h.mono fun _ _ _ hok => hok.1

/-- Statements of a job run under any settings. -/
lemma resuming_go (settings : PartnerSettings) (E : PartnerOrderEvent → Prop)
    (c : Config Store Proc) (t : ℕ) (jvm : ℤ) : resuming settings E c t (.go jvm) :=
  ⟨⟨⟨by simp [Act.job], by simp [Act.record]⟩, by simp [Act.job]⟩, trivial, rfl⟩

/-! ### Locks and jobs -/

/-- Every lock belongs to process `t`. -/
def Store.ownedBy (s : Store) (t : ℕ) : Prop :=
  ∀ x ∈ s.locks, x.2 = t

namespace Store

lemma ownedBy.canLock (h : s.ownedBy t) (r : Resource) : s.canLock t r = true :=
  Locks.available_iff.mpr fun _ _ hr _ => h _ hr

lemma ownedBy.lock (h : s.ownedBy t) (rs : List Resource) : (s.lock t rs).ownedBy t := by
  intro x hx
  rcases List.mem_append.mp hx with hx | hx
  · obtain ⟨r, -, rfl⟩ := List.mem_map.mp hx
    rfl
  · exact h x hx

lemma ownedBy.unlock (h : s.ownedBy t) : (s.unlock t).ownedBy t :=
  fun x hx => h x (List.mem_filter.mp hx).1

end Store

/-- One step of an idle process. -/
lemma run_step {a : Act} (hidle : procs t = .idle) (hok : ok ⟨s, procs⟩ t a)
    (h : next t s .idle a = some (s', .idle)) : Run service ok ⟨s, procs⟩ ⟨s', procs⟩ := by
  have hstep : service.step ⟨s, procs⟩ t a = some ⟨s', Function.update procs t .idle⟩ := by
    simp only [Program.step, hidle, service, h, Option.map_some]
  rw [← hidle, Function.update_eq_self] at hstep
  exact .snoc .nil hok hstep

/-- The start of a job. -/
lemma run_start (job : Job) (hidle : procs t = .idle) (hok : ok ⟨s, procs⟩ t (.start job)) :
    Run service ok ⟨s, procs⟩ ⟨s, Function.update procs t (begin job)⟩ := by
  refine .snoc .nil hok ?_
  simp only [Program.step, hidle, service, next, Option.map_some]

/-- A job from its start to its end. -/
lemma run_job (hidle : procs t = .idle) {job : Job} {jvm : ℤ}
    (hok : ok ⟨s, procs⟩ t (.start job)) (hgo : ∀ c, ok c t (.go jvm))
    (h : Solo service t (.go jvm) s (begin job) s' .idle) :
    Run service ok ⟨s, procs⟩ ⟨s', procs⟩ := by
  have hrun := (run_start job hidle hok).trans (h.run hgo procs)
  rwa [← hidle, Function.update_eq_self] at hrun

/-- **Everything in flight stops**: the processes named and those that hold locks are
aborted, one after the other. -/
lemma run_settle (hok : ∀ c t, ok c t .abort) (names : List ℕ) (c : Config Store Proc) :
    ∃ procs, (∀ t ∈ names, procs t = .idle) ∧
      Run service ok c ⟨{ c.store with locks := [] }, procs⟩ := by
  have habort : ∀ (ts : List ℕ) (c : Config Store Proc), ∃ procs, (∀ t ∈ ts, procs t = .idle) ∧
      Run service ok c ⟨{ c.store with
        locks := c.store.locks.filter fun x => x.2 ∉ ts }, procs⟩ := by
    intro ts
    induction ts with
    | nil => exact fun c => ⟨c.procs, by simp, by simpa using Run.nil⟩
    | cons t ts ih =>
        intro c
        obtain ⟨procs, hidle, hrun⟩ := ih c
        refine ⟨Function.update procs t .idle, fun u hu => ?_, .snoc hrun (hok _ t) ?_⟩
        · by_cases hut : u = t
          · rw [hut, Function.update_self]
          · rw [Function.update_of_ne hut]
            exact hidle u ((List.mem_cons.mp hu).resolve_left hut)
        · have hlocks : Locks.release (c.store.locks.filter fun x => x.2 ∉ ts) t =
              c.store.locks.filter fun x => x.2 ∉ t :: ts := by
            rw [Locks.release, List.filter_filter]
            refine List.filter_congr fun x _ => ?_
            by_cases hx : x.2 = t <;> simp [hx]
          simp only [Program.step, service, next, Store.unlock, Option.map_some, hlocks]
  obtain ⟨procs, hidle, hrun⟩ := habort (names ++ c.store.locks.map (·.2)) c
  have hnone : (c.store.locks.filter fun x => x.2 ∉ names ++ c.store.locks.map (·.2)) = [] := by
    refine List.filter_eq_nil_iff.mpr fun x hx => ?_
    have hmem : x.2 ∈ names ++ c.store.locks.map (·.2) :=
      List.mem_append_right _ (List.mem_map_of_mem hx)
    simp [hmem]
  rw [hnone] at hrun
  exact ⟨procs, fun t ht => hidle t (List.mem_append_left _ ht), hrun⟩

/-! ### A claim -/

/-- The clock, the topic and the committed offsets stay, and the locks stay with their
owner. -/
structure Store.Keeps (t : ℕ) (s s' : Store) : Prop where
  now : s'.now = s.now
  topic : s'.topic = s.topic
  committed : s'.committed = s.committed
  owned : s.ownedBy t → s'.ownedBy t

namespace Store.Keeps

lemma refl (t : ℕ) (s : Store) : s.Keeps t s := ⟨rfl, rfl, rfl, id⟩

lemma trans {s₁ : Store} (h : s.Keeps t s₁) (h' : s₁.Keeps t s') : s.Keeps t s' :=
  ⟨h'.now.trans h.now, h'.topic.trans h.topic, h'.committed.trans h.committed,
    fun ho => h'.owned (h.owned ho)⟩

lemma lock (t : ℕ) (s : Store) (rs : List Resource) : s.Keeps t (s.lock t rs) :=
  ⟨rfl, rfl, rfl, fun ho => ho.lock rs⟩

end Store.Keeps

/-- A statement of a claim. -/
lemma claimNext_keeps {job : ClaimJob} {jvm : ℤ} {pc : ClaimPc}
    (h : claimNext t s job jvm pc = some (s', p')) : s.Keeps t s' := by
  have hunlock : ∀ {s' : Store}, s'.now = s.now → s'.topic = s.topic →
      s'.committed = s.committed → s'.locks = Locks.release s.locks t → s.Keeps t s' := by
    intro s' hnow htopic hcommitted hlocks
    refine ⟨hnow, htopic, hcommitted, fun ho x hx => ?_⟩
    rw [hlocks] at hx
    exact ho x (List.mem_filter.mp hx).1
  cases pc with
  | ensurePermits =>
      cases h
      exact .refl t s
  | ensure slot inserted =>
      simp only [claimNext] at h
      split_ifs at h <;> cases h
      · exact ⟨rfl, rfl, rfl, id⟩
      · exact .refl t s
      · exact .lock t s _
  | selectPermits inserted =>
      simp only [claimNext] at h
      split_ifs at h
      split at h <;> cases h <;> exact .lock t s _
  | selectRow inserted slot =>
      simp only [claimNext] at h
      split at h
      · cases h
        exact .refl t s
      · split_ifs at h <;> cases h
        · exact .lock t s _
        · exact .lock t s _
        · exact .refl t s
  | countAdmissions inserted slot row =>
      simp only [claimNext] at h
      split_ifs at h <;> cases h <;> exact .refl t s
  | insertAdmission inserted slot row =>
      cases h
      exact .refl t s
  | updateRow inserted slot row admittedAt =>
      cases h
      exact .refl t s
  | updatePermit inserted slot row admittedAt row' =>
      simp only [claimNext] at h
      split at h <;> cases h
      exact .refl t s
  | commit inserted result =>
      simp only [claimNext] at h
      split at h <;> cases h <;> exact hunlock rfl rfl rfl rfl

/-- A whole claim. -/
lemma claim_keeps {jvm : ℤ} (h : Solo service t (.go jvm) s p s' p')
    (hp : p = .idle ∨ ∃ job pc, p = .claiming job pc) : s.Keeps t s' := by
  induction h with
  | refl s p => exact .refl t s
  | step hnext _ ih =>
      obtain rfl | ⟨job, pc, rfl⟩ := hp
      · cases hnext
      · refine (claimNext_keeps hnext).trans (ih ?_)
        obtain ⟨pc', rfl⟩ | rfl := claimNext_proc hnext
        · exact Or.inr ⟨job, pc', rfl⟩
        · exact Or.inl rfl

/-- When every permit of the table is free, an instance that ensures at least one slot finds
a free one. -/
lemma exists_firstFree {db : Db} (hunique : Table.Unique PermitRow.slotKey db.sellerPermit)
    {now : ℤ} (hfree : ∀ p ∈ db.sellerPermit, p.leaseUntil < now) {count : ℕ} (hcount : 1 ≤ count)
    (seller : String) : ∃ slot, firstFree now (permitsOf
      (db.insertPermits seller (newSlots [] db seller count)) seller) = some slot := by
  have hslot :
      ((db.insertPermits seller (newSlots [] db seller count)).permitRow seller 1).isSome := by
    have hensured : (db.permitRow seller 1).isSome ∨ 1 ∈ newSlots [] db seller count :=
      newSlots_ensure (by simp) le_rfl hcount
    rw [Db.permitRow_insertPermits]
    rcases hensured with h | h
    · obtain ⟨p, hp⟩ := Option.isSome_iff_exists.mp h
      simp [hp]
    · rw [if_pos ⟨rfl, h⟩]
      cases db.permitRow seller 1 <;> rfl
  obtain ⟨p, hp⟩ := Option.isSome_iff_exists.mp hslot
  have hmem := Table.mem_of_get hp
  have hseller : p.sellerId = seller := congrArg Prod.fst (Table.key_of_get hp)
  have hfreep : p.free now := by
    rcases (Db.mem_insertPermits hunique).mp hmem with hold | ⟨-, -, hnew⟩
    · exact Or.inr (hfree p hold)
    · exact Or.inl (by rw [hnew])
  have hview : p ∈ (permitsOf (db.insertPermits seller (newSlots [] db seller count)) seller).filter
      fun p => p.free now :=
    List.mem_filter.mpr ⟨List.mem_filter.mpr ⟨hmem, by simpa using hseller⟩,
      by simpa using hfreep⟩
  rw [firstFree, ← Option.isSome_iff_exists, Option.isSome_iff_ne_none, Ne, List.min?_eq_none_iff,
    List.map_eq_nil_iff]
  exact List.ne_nil_of_mem hview

/-- The clock has passed every lease and every retry window. -/
structure Db.Expired (db : Db) (now windowMs : ℤ) : Prop where
  rows : ∀ r ∈ db.inbox, r.leaseUntil < now
  permits : ∀ p ∈ db.sellerPermit, p.leaseUntil < now
  admissions : ∀ x ∈ db.retryAdmission, x.admittedAt ≤ now - windowMs

/-- The token is issued for the row, which is claimed under it. -/
structure Claimed (s s' : Store) (r row : InboxRow) (c : Claim) : Prop where
  event : row.event = r.event
  held : row.heldBy c s.now
  eventId : c.eventId = r.eventId
  issued : ⟨c, r.event⟩ ∈ s'.issued
  inbox : s'.db.inbox = Table.put InboxRow.eventId row s.db.inbox
  effects : s'.db.partnerEffect = s.db.partnerEffect
  orders : s'.db.partnerOrder = s.db.partnerOrder

/-- **A row that is next in its order can be claimed** by an instance that has just started,
once the leases and the retry windows are over. -/
lemma run_claim {settings : PartnerSettings} (hset : settings.Open) (hidle : procs t = .idle)
    (hown : s.ownedBy t) (hs : Sound s) (hexp : s.db.Expired s.now settings.retryWindowMs)
    (owner : String) (hnew : s.sellersWithPermits owner = []) {r : InboxRow}
    (hr : r ∈ s.db.inbox) (hopen : r.state ≠ .done)
    (hnext : r.event.sequence = s.db.lastSequence r.event.order + 1) :
    ∃ s' row c, Run service (resuming settings E) ⟨s, procs⟩ ⟨s', procs⟩ ∧ s.Keeps t s' ∧
      Claimed s s' r row c := by
  let job : ClaimJob := ⟨r.event, owner, settings.sellerConcurrency, settings.retryBudget,
    settings.retryWindowMs, settings.leaseMs⟩
  have hstored : s.db.inboxRow job.event.eventId = some r :=
    (Table.get_eq_some hs.inboxIds).mpr ⟨hr, rfl⟩
  obtain ⟨slot, hslot⟩ := exists_firstFree hs.permits hexp.permits hset.sellerConcurrency
    r.event.sellerId
  have hclaimable : r.claimable s.now r.nextAt (s.db.lastSequence r.event.order) := by
    refine ⟨?_, hnext⟩
    cases hstate : r.state with
    | pending => exact Or.inl ⟨rfl, le_rfl⟩
    | claimed => exact Or.inr ⟨rfl, hexp.rows r hr⟩
    | done => exact absurd hstate hopen
  have hbudget : ¬ (0 < r.attempts ∧ job.retryBudget ≤
      s.db.retryCount job.event.sellerId s.now job.retryWindowMs) := by
    rintro ⟨-, hle⟩
    have hnone : s.db.retryCount job.event.sellerId s.now job.retryWindowMs = 0 := by
      refine List.countP_eq_zero.mpr fun x hx => ?_
      have := hexp.admissions x hx
      simp only [decide_eq_true_eq, not_and, not_lt]
      exact fun _ => this
    have := hset.retryBudget
    rw [hnone] at hle
    exact absurd (le_trans this hle) (by omega)
  have halone : Alone t s s := ⟨rfl, rfl, rfl, hown⟩
  obtain ⟨s', hsolo, hdb, hissued⟩ := claim_solo job r.nextAt halone
  -- no branch of the result is left but the last
  have hresult : ∃ admittedAt permit, (claimAlone job s.now r.nextAt
      (s.sellersWithPermits job.owner) s.db).1 = .claimed slot r admittedAt
        (r.claim owner (s.now + settings.leaseMs)) permit := by
    rw [show s.sellersWithPermits job.owner = [] from hnew]
    have hslot' : firstFree s.now (permitsOf (s.db.insertPermits job.event.sellerId
        (newSlots [] s.db job.event.sellerId job.sellerPermits)) job.event.sellerId) =
        some slot := hslot
    simp only [claimAlone, claimResult, hslot', hstored]
    rw [if_neg (not_not_intro hclaimable), if_neg hbudget]
    exact ⟨_, _, rfl⟩
  obtain ⟨admittedAt, permit, hresult⟩ := hresult
  obtain ⟨inserted, hdb'⟩ : ∃ inserted, s'.db = commitClaim job inserted s.db
      (.claimed slot r admittedAt (r.claim owner (s.now + settings.leaseMs)) permit) := by
    rw [← hresult]
    exact ⟨_, (congrArg Prod.snd hdb).symm⟩
  have hstart : resuming settings E ⟨s, procs⟩ t (.start (.claim job)) := by
    refine ⟨⟨⟨fun job' hjob' => ?_, by simp [Act.record]⟩, fun job' hjob' => ?_⟩,
      ⟨rfl, rfl, rfl, rfl⟩, rfl⟩
    · cases hjob'
      exact ⟨r, hr, rfl⟩
    · cases hjob'
      rfl
  have hlive := hset.leaseMs
  refine ⟨s', r.claim owner (s.now + settings.leaseMs), job.token slot r,
    run_job hidle hstart (fun c => resuming_go settings E c t _) hsolo,
    claim_keeps hsolo (Or.inr ⟨job, _, rfl⟩), rfl, ?_, rfl, ?_, ?_, ?_, ?_⟩
  · exact ⟨⟨rfl, rfl, rfl⟩, rfl, by show s.now ≤ s.now + settings.leaseMs; omega⟩
  · rw [hissued, hresult]
    exact List.mem_append_right _ (List.mem_singleton.mpr rfl)
  · rw [hdb']
    simp [commitClaim, Db.setPermit, Db.setInbox]
  · rw [hdb']
    simp [commitClaim]
  · rw [hdb']
    simp [commitClaim]

/-! ### A delivery -/

/-- The recording transaction wrote the row and the effect. -/
structure Delivered (s s' : Store) (e : PartnerOrderEvent) (row : InboxRow) (jvm : ℤ) : Prop where
  inbox : s'.db.inbox = Table.put InboxRow.eventId (row.complete jvm) s.db.inbox
  effects : s'.db.partnerEffect = (s.db.recordDelivery e jvm).partnerEffect

/-- The statements up to the call of the partner. -/
lemma call_solo (job : ProcessJob) (jvm : ℤ) (hnot : ¬ s.db.isDelivered job.event.eventId)
    (hnext : s.db.lastSequence job.event.order + 1 = job.event.sequence) :
    Solo service t (.go jvm) s (.delivering job .isDelivered)
      { s with requests := ⟨s.nextCall, job.event⟩ :: s.requests, nextCall := s.nextCall + 1 }
      (.delivering job (.calling ⟨s.nextCall, job.event⟩)) := by
  have hcheck : service.next t s (.delivering job .isDelivered) (.go jvm) =
      some (s, .delivering job .lastSequence) := by
    show processNext t s job jvm .isDelivered = _
    simp only [processNext]
    rw [if_neg hnot]
  have hlast : service.next t s (.delivering job .lastSequence) (.go jvm) =
      some (s, .delivering job .submit) := by
    show processNext t s job jvm .lastSequence = _
    simp only [processNext]
    rw [if_neg (not_not_intro hnext)]
  exact .step hcheck (.step hlast (.step rfl (.refl _ _)))

/-- The statements behind an answer 200, for a token that holds its row. -/
lemma record_solo (hown : s.ownedBy t) (job : ProcessJob) (jvm : ℤ) {c : Claim} {call : Call}
    {row : InboxRow} (hclaim : job.claim = some c) (hreply : (call, Status.ok200) ∈ s.replies)
    (hrow : s.db.inboxRow c.eventId = some row) (hheld : row.heldBy c s.now)
    (hnot : ¬ s.db.isDelivered job.event.eventId)
    (hnext : s.db.lastSequence job.event.order + 1 = job.event.sequence)
    (hadm : s.db.admitsEffect job.event) :
    ∃ s', Solo service t (.go jvm) s (.delivering job (.calling call)) s' .idle ∧
      s.Keeps t s' ∧ Delivered s s' job.event row jvm := by
  let keys := [Resource.effectId job.event.eventId, .effectSeq job.event.order job.event.sequence]
  let s₁ := s.lock t [.inboxRow c.eventId]
  let s₂ := s₁.lock t keys
  let s₃ := s₂.lock t [.orderRow job.event.order]
  have hown₁ : s₁.ownedBy t := hown.lock _
  have hown₂ : s₂.ownedBy t := hown₁.lock _
  have hown₃ : s₃.ownedBy t := hown₂.lock _
  have hanswer : service.next t s (.delivering job (.calling call)) (.go jvm) =
      some (s, .delivering job .holds) := by
    show processNext t s job jvm (.calling call) = _
    simp only [processNext]
    rw [if_pos hreply, hclaim]
    rfl
  have hholds : service.next t s (.delivering job .holds) (.go jvm) =
      some (s₁, .delivering job .checkDelivered) := by
    show processNext t s job jvm .holds = _
    simp only [processNext, hclaim, hrow]
    rw [if_pos (hown.canLock _), if_pos hheld]
  have hdelivered : service.next t s₁ (.delivering job .checkDelivered) (.go jvm) =
      some (s₁, .delivering job .checkSequence) := by
    show processNext t s₁ job jvm .checkDelivered = _
    simp only [processNext]
    exact if_neg hnot
  have hsequence : service.next t s₁ (.delivering job .checkSequence) (.go jvm) =
      some (s₁, .delivering job .insertEffect) := by
    show processNext t s₁ job jvm .checkSequence = _
    simp only [processNext]
    exact if_neg (not_not_intro hnext)
  have hinsert : service.next t s₁ (.delivering job .insertEffect) (.go jvm) =
      some (s₂, .delivering job (.upsertOrder jvm)) := by
    show processNext t s₁ job jvm .insertEffect = _
    simp only [processNext]
    rw [if_pos (List.all_eq_true.mpr fun r _ => hown₁.canLock r)]
    exact if_pos hadm
  have hupsert : service.next t s₂ (.delivering job (.upsertOrder jvm)) (.go jvm) =
      some (s₃, .delivering job (.insertCompletion jvm)) := by
    show processNext t s₂ job jvm (.upsertOrder jvm) = _
    simp only [processNext]
    exact if_pos (hown₂.canLock _)
  have hcomplete : service.next t s₃ (.delivering job (.complete (some jvm))) (.go jvm) =
      some (s₃, .delivering job (.release (some jvm) (some (row.complete jvm)))) := by
    show processNext t s₃ job jvm (.complete (some jvm)) = _
    have hrow₃ : s₃.db.inboxRow c.eventId = some row := hrow
    simp only [processNext, hclaim, hrow₃, Option.filter, hheld.1, decide_true, if_true,
      Option.map_some, Option.getD_some]
  have hrelease : ∃ permit, service.next t s₃
      (.delivering job (.release (some jvm) (some (row.complete jvm)))) (.go jvm) =
        some (s₃.lock t (permitLocks (some c) permit),
          .delivering job (.commit (some jvm) (some (row.complete jvm)) permit)) := by
    cases hfree : releasedPermit s₃.db c with
    | none =>
        refine ⟨none, ?_⟩
        show processNext t s₃ job jvm (.release _ _) = _
        simp only [processNext, hclaim, hfree]
        exact if_pos (hown₃.canLock _)
    | some permit =>
        refine ⟨some permit, ?_⟩
        show processNext t s₃ job jvm (.release _ _) = _
        simp only [processNext, hclaim, hfree]
        exact if_pos (hown₃.canLock _)
  obtain ⟨permit, hrelease⟩ := hrelease
  let db := commitDelivery job (some jvm) (some (row.complete jvm)) permit s.db
  let s₄ : Store := { Store.unlock { s₃.lock t (permitLocks (some c) permit) with db := db } t with
    recorded := s.recorded ++ [c] }
  have hcommit : service.next t (s₃.lock t (permitLocks (some c) permit))
      (.delivering job (.commit (some jvm) (some (row.complete jvm)) permit)) (.go jvm) =
        some (s₄, .delivering job .returned) := by
    show processNext t _ job jvm (.commit _ _ _) = _
    simp only [processNext, hclaim]
    rfl
  have hkeeps : s.Keeps t s₄ :=
    ⟨rfl, rfl, rfl, fun _ => (hown₃.lock (permitLocks (some c) permit)).unlock⟩
  have hreturned : service.next t s₄ (.delivering job .returned) (.go jvm) =
      some (s₄.finish job.owner job.finishedLimit job.event.eventId, .idle) := by
    show processNext t s₄ job jvm .returned = _
    simp only [processNext, hclaim]
  refine ⟨_, .step hanswer (.step hholds (.step hdelivered (.step hsequence (.step hinsert
    (.step hupsert (.step rfl (.step hcomplete (.step hrelease (.step hcommit (.step hreturned
      (.refl _ _))))))))))), hkeeps.trans ⟨rfl, rfl, rfl, id⟩, ?_, ?_⟩
  · show db.inbox = _
    simp [db]
  · show db.partnerEffect = _
    simp [db]

/-- **A claimed row can be delivered** once the partner answers the call. -/
lemma run_deliver (settings : PartnerSettings) (hE : Catalogue E)
    (hreach : Run service (fromPolls E) initial ⟨s, procs⟩) (hidle : procs t = .idle)
    (hserver : procs u = .idle) (hut : u ≠ t) (hown : s.ownedBy t) (jvm : ℤ)
    {e : PartnerOrderEvent} {c : Claim} {row : InboxRow} (hissued : ⟨c, e⟩ ∈ s.issued)
    (hrow : s.db.inboxRow c.eventId = some row) (hheld : row.heldBy c s.now)
    (hnot : ¬ s.db.isDelivered e.eventId) (hnext : s.db.lastSequence e.order + 1 = e.sequence)
    (hadm : s.db.admitsEffect e) :
    ∃ s', Run service (resuming settings E) ⟨s, procs⟩ ⟨s', procs⟩ ∧ s.Keeps t s' ∧
      Delivered s s' e row jvm := by
  let job : ProcessJob := ⟨e, some c, c.owner, 1, true, true, 0⟩
  let call : Call := ⟨s.nextCall, e⟩
  let s₁ : Store := { s with requests := call :: s.requests, nextCall := s.nextCall + 1 }
  have hstart : resuming settings E ⟨s, procs⟩ t (.start (.process job)) := by
    refine ⟨⟨⟨fun job' hjob' => ?_, by simp [Act.record]⟩, fun job' hjob' => ?_⟩, trivial, rfl⟩
    · cases hjob'
      exact ⟨⟨c, e⟩, hissued, rfl, rfl⟩
    · cases hjob'
      rfl
  have hcalling : Run service (resuming settings E) ⟨s, procs⟩
      ⟨s₁, Function.update procs t (.delivering job (.calling call))⟩ :=
    (run_start (.process job) hidle hstart).trans
      ((call_solo job jvm hnot hnext).run (fun c => resuming_go settings E c t jvm) procs)
  have hi : InStep E s₁ := (reachable_inStep hE (deliversFrom_of_inboxMode
    (inboxMode_of_fromPolls (hreach.trans (fromPolls_of_resuming hcalling))))).1
  have hcall : call ∈ s₁.requests := List.mem_cons_self
  have hserve : Run service (resuming settings E)
      ⟨s₁, Function.update procs t (.delivering job (.calling call))⟩
      ⟨s₁.answered call false false,
        Function.update procs t (.delivering job (.calling call))⟩ := by
    refine run_step (t := u) (a := .serve call false false) ?_ ?_ ?_
    · rw [Function.update_of_ne hut, hserver]
    · exact ⟨⟨⟨by simp [Act.job], by simp [Act.record]⟩, by simp [Act.job]⟩, trivial, rfl⟩
    · simp only [next, serve]
      rw [if_pos hcall]
      rfl
  have hreply : (call, Status.ok200) ∈ (s₁.answered call false false).replies := by
    rw [← doPost_accepted hE hi hcall]
    exact List.mem_cons_self
  obtain ⟨s', hsolo, hkeeps, hdone⟩ := record_solo
    (s := s₁.answered call false false) hown job jvm rfl hreply hrow hheld hnot hnext hadm
  refine ⟨s', (hcalling.trans hserve).trans ?_, ⟨hkeeps.now, hkeeps.topic, hkeeps.committed,
    hkeeps.owned⟩, hdone.inbox, hdone.effects⟩
  have hrun := hsolo.run (fun c => resuming_go settings E c t jvm) procs
  rwa [← hidle, Function.update_eq_self] at hrun

/-! ### An ingestion -/

instance decidableKnownEvent (db : Db) (e : PartnerOrderEvent) : Decidable (db.known e) :=
  inferInstanceAs (Decidable (_ ∨ _))

/-- What a record leaves: it is known, what was known stays known, and the partition is
committed behind it. -/
structure Ingested (s s' : Store) (q : ℕ) (e : PartnerOrderEvent) : Prop where
  now : s'.now = s.now
  topic : s'.topic = s.topic
  committed : s'.committed = Function.update s.committed q (s.committed q + 1)
  known : ∀ x, s'.db.known x ↔ s.db.known x ∨ x.eventId = e.eventId

/-- What the two lookups of `storeAll` find. -/
lemma mem_known_iff (db : Db) {tasks : List PartnerTask} {task : PartnerTask} (h : task ∈ tasks) :
    task.event.eventId ∈ knownInInbox db tasks ++ knownInLedger db tasks ↔ db.known task.event := by
  have hid : task.event.eventId ∈ tasks.map (·.event.eventId) := List.mem_map_of_mem h
  simp only [List.mem_append, knownInInbox, knownInLedger, List.mem_filter, hid, true_and,
    Db.known, decide_eq_true_eq]
  refine or_congr_left ?_
  constructor
  · intro hsome
    obtain ⟨r, hr⟩ := Option.isSome_iff_exists.mp hsome
    exact ⟨r, Table.mem_of_get hr, eventId_of_inboxRow hr⟩
  · rintro ⟨r, hr, hre⟩
    rw [Option.isSome_iff_ne_none, Ne, Db.inboxRow, Table.get_eq_none]
    exact fun hnone => hnone r hr hre

/-- A new event of a catalogue meets no key of the inbox. -/
lemma admits_fresh (hE : Catalogue E) (hs : Sound s) (hi : InboxAgrees E s) {task : PartnerTask}
    (he : E task.event) (hnew : ¬ s.db.known task.event) (receivedAt : ℤ) :
    s.db.admitsRows [.fresh task receivedAt] := by
  have hids : ∀ r ∈ s.db.inbox, r.eventId ≠ task.event.eventId :=
    fun r hr hre => hnew (Or.inl ⟨r, hr, hre⟩)
  refine ⟨hs.inboxIds.concat (Table.get_eq_none.mpr hids),
    hs.inboxSeqs.concat (Table.get_eq_none.mpr fun r hr hre => ?_)⟩
  obtain ⟨ho, hseq⟩ := Prod.mk.inj hre
  exact hids r hr (hE.ids _ _ (hi.rows r hr).1 he ho hseq)

/-- `storeAll` on one task and the acknowledgement of its poll. -/
lemma store_solo (hown : s.ownedBy t) (job : StoreJob) {task : PartnerTask}
    {before ends : List (ℕ × ℕ)} (htasks : job.tasks = [task])
    (hpoll : job.poll = some (before, ends))
    (hroom : ¬ s.db.known task.event → s.db.pendingCount + 1 ≤ job.pendingLimit ∧
      s.db.retainedCount + 1 ≤ job.retainedLimit ∧
      s.db.admitsRows [.fresh task job.receivedAt]) :
    ∃ s', Solo service t (.go 0) s (.storing job .lockCapacity) s' (.consuming (ends ++ before)) ∧
      s'.now = s.now ∧ s'.topic = s.topic ∧ s'.ownedBy t ∧
      s'.committed = (fun p => (ends.lookup p).getD (s.committed p)) ∧
      s'.db = if s.db.known task.event then s.db
        else s.db.insertInbox [.fresh task job.receivedAt] := by
  let s₁ := s.lock t [.capacity]
  have hown₁ : s₁.ownedBy t := hown.lock _
  have hrows : newRows job.receivedAt (knownInInbox s.db job.tasks ++ knownInLedger s.db job.tasks)
      job.tasks = if s.db.known task.event then [] else [.fresh task job.receivedAt] := by
    have hiff := mem_known_iff s.db (List.mem_singleton.mpr (rfl : task = task))
    rw [htasks]
    simp only [newRows]
    by_cases hk : s.db.known task.event
    · rw [if_pos (hiff.mpr hk), if_pos hk]
    · rw [if_neg (fun h => hk (hiff.mp h)), if_neg hk]
  have hlock : service.next t s (.storing job .lockCapacity) (.go 0) =
      some (s₁, .storing job .readInbox) := by
    show storeNext t s job .lockCapacity = _
    simp only [storeNext]
    exact if_pos (hown.canLock _)
  have hread : service.next t s₁ (.storing job .readInbox) (.go 0) =
      some (s₁, .storing job (.readLedger (knownInInbox s.db job.tasks))) := rfl
  -- the acknowledgement, once the transaction is over
  have hack : ∀ s₂ : Store, service.next t s₂ (.storing job .acknowledge) (.go 0) =
      some ({ s₂ with committed := fun p => (ends.lookup p).getD (s₂.committed p) },
        .consuming (ends ++ before)) := by
    intro s₂
    show storeNext t s₂ job .acknowledge = _
    simp only [storeNext, hpoll]
  by_cases hk : s.db.known task.event
  · rw [if_pos hk] at hrows ⊢
    have hledger : service.next t s₁ (.storing job (.readLedger (knownInInbox s.db job.tasks)))
        (.go 0) = some (s₁.unlock t, .storing job .acknowledge) := by
      show storeNext t s₁ job (.readLedger _) = _
      simp only [storeNext]
      exact if_pos hrows
    exact ⟨_, .step hlock (.step hread (.step hledger (.step (hack _) (.refl _ _)))), rfl, rfl,
      hown₁.unlock, rfl, rfl⟩
  · rw [if_neg hk] at hrows ⊢
    obtain ⟨hpending, hretained, hadm⟩ := hroom hk
    let row := InboxRow.fresh task job.receivedAt
    let s₂ : Store := Store.unlock { s₁ with db := s.db.insertInbox [row] } t
    have hledger : service.next t s₁ (.storing job (.readLedger (knownInInbox s.db job.tasks)))
        (.go 0) = some (s₁, .storing job (.countPending [row])) := by
      show storeNext t s₁ job (.readLedger _) = _
      have hrows₁ : newRows job.receivedAt (knownInInbox s.db job.tasks ++
        knownInLedger s₁.db job.tasks) job.tasks = [row] := hrows
      simp only [storeNext, hrows₁]
      exact if_neg (List.cons_ne_nil _ _)
    have hcount : service.next t s₁ (.storing job (.countPending [row])) (.go 0) =
        some (s₁, .storing job (.countRetained [row])) := by
      show storeNext t s₁ job (.countPending _) = _
      simp only [storeNext]
      exact if_neg (not_lt.mpr hpending)
    have hretain : service.next t s₁ (.storing job (.countRetained [row])) (.go 0) =
        some (s₁, .storing job (.insert [row])) := by
      show storeNext t s₁ job (.countRetained _) = _
      simp only [storeNext]
      exact if_neg (not_lt.mpr hretained)
    have hinsert : service.next t s₁ (.storing job (.insert [row])) (.go 0) =
        some (s₁, .storing job (.commit [row])) := by
      show storeNext t s₁ job (.insert _) = _
      simp only [storeNext]
      exact if_pos hadm
    have hcommit : service.next t s₁ (.storing job (.commit [row])) (.go 0) =
        some (s₂, .storing job .acknowledge) := rfl
    exact ⟨_, .step hlock (.step hread (.step hledger (.step hcount (.step hretain
      (.step hinsert (.step hcommit (.step (hack _) (.refl _ _)))))))), rfl, rfl,
      hown₁.unlock, rfl, rfl⟩

/-- The poll of one record. -/
lemma pollBatch_one {q n : ℕ} {e : PartnerOrderEvent} (h : (s.topic q)[n]? = some e) :
    pollBatch s [(q, n)] [(q, 1)] = some ([⟨e, q, n⟩], [(q, n + 1)]) := by
  have hpolled : polled s q n 1 = [⟨e, q, n⟩] := by
    obtain ⟨hlt, rfl⟩ := List.getElem?_eq_some_iff.mp h
    rw [polled, List.drop_eq_getElem_cons hlt]
    rfl
  simp [pollBatch, hpolled]

/-- **The next record of a partition can be taken over** when it is known, or when there is
room for one more row. -/
lemma run_ingest (settings : PartnerSettings) (hE : Catalogue E)
    (hreach : Run service (fromPolls E) initial ⟨s, procs⟩) (hidle : procs t = .idle)
    (hown : s.ownedBy t) {q : ℕ} {e : PartnerOrderEvent}
    (he : (s.topic q)[s.committed q]? = some e) (hvalid : e.valid = true)
    (hroom : ¬ s.db.known e → s.db.pendingCount + 1 ≤ settings.backlogLimit ∧
      s.db.retainedCount + 1 ≤ settings.retainedLimit) :
    ∃ s', Run service (resuming settings E) ⟨s, procs⟩ ⟨s', procs⟩ ∧ s'.ownedBy t ∧
      Ingested s s' q e := by
  have hs := (reachable_sound hreach).1
  have hi := (reachable_agrees (inboxMode_of_fromPolls hreach)).1
  let n := s.committed q
  let task : PartnerTask := ⟨e, q, n⟩
  let job : StoreJob := ⟨[task], settings.backlogLimit, settings.retainedLimit, 0,
    some ([(q, n)], [(q, n + 1)])⟩
  have hquiet : ∀ (c : Config Store Proc) (a : Act), a.job = none → a.record = none →
      a.configured settings → resuming settings E c t a := by
    intro c a hjob hrecord hconf
    exact ⟨⟨⟨by simp [hjob], by simp [hrecord]⟩, by simp [hjob]⟩, hconf, hrecord⟩
  have hconsume : Run service (resuming settings E) ⟨s, procs⟩
      ⟨s, Function.update procs t (.consuming [])⟩ := by
    refine run_start .consume hidle ⟨⟨⟨fun job' hjob' => ?_, by simp [Act.record]⟩,
      fun job' hjob' => ?_⟩, trivial, rfl⟩
    · cases hjob'
      trivial
    · cases hjob'
      rfl
  have hassign : Run service (resuming settings E)
      ⟨s, Function.update procs t (.consuming [])⟩
      ⟨s, Function.update procs t (.consuming [(q, n)])⟩ :=
    Run.nil.step_of (hquiet _ (.assign q) rfl rfl trivial) rfl
  have hpoll : Run service (resuming settings E)
      ⟨s, Function.update procs t (.consuming [(q, n)])⟩
      ⟨s, Function.update procs t (.storing job .lockCapacity)⟩ := by
    refine Run.nil.step_of (hquiet _ (.poll [(q, 1)] settings.backlogLimit
      settings.retainedLimit 0) rfl rfl ⟨rfl, rfl⟩) ?_
    show (pollBatch s [(q, n)] [(q, 1)]).map _ = _
    rw [pollBatch_one he]
    simp only [Option.map_some, List.all_cons, List.all_nil, Bool.and_true, hvalid, if_true]
    rfl
  obtain ⟨s₁, hsolo, hnow, htopic, hown₁, hcommitted, hdb⟩ := store_solo hown job rfl rfl
    fun hk => ⟨(hroom hk).1, (hroom hk).2, admits_fresh hE hs hi
      (hi.topic q e (List.mem_of_getElem? he)) hk 0⟩
  have hstore := hsolo.run (fun c => resuming_go settings E c t 0) procs
  have hstop : Run service (resuming settings E)
      ⟨s₁, Function.update procs t (.consuming ([(q, n + 1)] ++ [(q, n)]))⟩
      ⟨s₁.unlock t, Function.update procs t .idle⟩ :=
    Run.nil.step_of (hquiet _ .abort rfl rfl trivial) rfl
  have hrun := hconsume.trans (hassign.trans (hpoll.trans (hstore.trans hstop)))
  rw [← hidle, Function.update_eq_self] at hrun
  refine ⟨_, hrun, hown₁.unlock, hnow, htopic, ?_, fun x => ?_⟩
  · rw [show (s₁.unlock t).committed = _ from hcommitted]
    refine funext fun p => ?_
    by_cases hp : p = q
    · subst hp
      simp [n]
    · have hbeq : (p == q) = false := by simpa using hp
      simp [List.lookup_cons, hbeq, hp]
  · show Db.known s₁.db x ↔ _
    rw [hdb]
    by_cases hk : s.db.known e
    · rw [if_pos hk]
      refine ⟨Or.inl, ?_⟩
      rintro (hx | hx)
      · exact hx
      · rwa [Db.known, hx]
    · rw [if_neg hk]
      simp only [Db.known, Db.insertInbox, List.mem_append, List.mem_singleton, Db.isDelivered]
      constructor
      · rintro (⟨r, hr | rfl, hrx⟩ | hd)
        · exact Or.inl (Or.inl ⟨r, hr, hrx⟩)
        · exact Or.inr hrx.symm
        · exact Or.inl (Or.inr hd)
      · rintro ((⟨r, hr, hrx⟩ | hd) | hx)
        · exact Or.inl ⟨r, Or.inl hr, hrx⟩
        · exact Or.inr hd
        · exact Or.inl ⟨_, Or.inr rfl, hx.symm⟩

/-! ### A purge -/

/-- A finished row says when it was finished. -/
def InboxRow.timed (r : InboxRow) : Prop :=
  r.state = .done → r.doneAt.isSome

lemma timed_put {rows : List InboxRow} {row : InboxRow} (h : ∀ r ∈ rows, r.timed)
    (hrow : row.timed) : ∀ r ∈ Table.put InboxRow.eventId row rows, r.timed := by
  intro r hr
  rcases Table.mem_put.mp hr with rfl | ⟨hr, -⟩
  · exact hrow
  · exact h r hr

lemma Closing.timed {db : Db} {job : ProcessJob} {delivery : Option ℤ} {row : Option InboxRow}
    (h : Closing db job delivery row) : ∀ r ∈ row, r.timed := by
  cases h with
  | complete doneAt hc hhold =>
      rintro r ⟨⟩ _
      rfl
  | markDone doneAt hc hd hrow =>
      rintro r ⟨⟩ _
      rfl
  | _ => rintro r ⟨⟩

/-- Every step keeps the times of the finished rows. -/
lemma Effect.timed (h : Effect t s p s') (hi : ∀ r ∈ s.db.inbox, r.timed) :
    ∀ r ∈ s'.db.inbox, r.timed := by
  have hwrite : ∀ {row : Option InboxRow}, (∀ r ∈ row, r.timed) →
      ∀ r ∈ row.elim s.db.inbox (fun r => Table.put InboxRow.eventId r s.db.inbox), r.timed := by
    intro row hrow
    cases row with
    | none => exact hi
    | some r => exact timed_put hi (hrow r rfl)
  cases h with
  | @store job rows locks hp hfresh hadm hcap =>
      intro r hr
      rcases List.mem_append.mp hr with hr | hr
      · exact hi r hr
      · obtain ⟨task, -, rfl⟩ := hfresh.ofTask r hr
        rintro ⟨⟩
  | ensure locks hp hmine => simpa [Store.committing] using hi
  | @claim job inserted slot row row' admittedAt permit locks hp hclaim hrow hslot hmine =>
      obtain ⟨lease, rfl⟩ := hclaim.claimed
      show ∀ r ∈ (commitClaim _ _ _ _).inbox, r.timed
      simp only [commitClaim, Db.setPermit_inbox, Db.setInbox, Db.insertPermits_inbox]
      refine timed_put hi ?_
      rintro ⟨⟩
  | @renewRow c leaseMs row hp h hlive hmine =>
      exact timed_put hi (show row.timed from hi row (Table.mem_of_get h.stored))
  | record locks hp hclose hrec hfree hmine =>
      show ∀ r ∈ (commitDelivery _ _ _ _ _).inbox, r.timed
      rw [commitDelivery_inbox]
      exact hwrite hclose.timed
  | close locks hp hclose hfree hmine =>
      show ∀ r ∈ (writeBack _ _ _).inbox, r.timed
      rw [writeBack_inbox]
      exact hwrite hclose.timed
  | giveBack locks hp hreturn hfree hmine =>
      show ∀ r ∈ (writeBack _ _ _).inbox, r.timed
      rw [writeBack_inbox]
      refine hwrite ?_
      cases hreturn with
      | lost => rintro r ⟨⟩
      | giveBack nextAt hhold => rintro r ⟨⟩ ⟨⟩
  | @scheduleRetry e row nextAt attempts hrow hmine =>
      exact timed_put hi (show row.timed from hi row (Table.mem_of_get hrow))
  | purge hmine hdone => exact fun r hr => hi r (List.mem_filter.mp hr).1
  | _ => exact hi

lemma reachable_timed {c : Config Store Proc} (h : Run service ok initial c) :
    ∀ r ∈ c.store.db.inbox, r.timed := by
  refine (Run.invariant (I := fun s => ∀ r ∈ s.db.inbox, r.timed) (J := fun _ _ _ => True)
    (K := fun c => Run service ok initial c) (fun _ h => h)
    ⟨by simp [initial], fun _ => trivial⟩ ?_ (fun _ _ _ _ _ _ _ _ _ _ _ _ => trivial) h).1
  intro c t a s' p' hrun _ hI _ hnext
  exact ⟨(reachable_effect hrun hnext).timed hI, trivial⟩

/-- **The finished rows can be deleted**, and nothing else changes. -/
lemma run_purge (settings : PartnerSettings)
    (hreach : Run service (fromPolls E) initial ⟨s, procs⟩) (hidle : procs t = .idle)
    (hown : s.ownedBy t) : Run service (resuming settings E) ⟨s, procs⟩
      ⟨{ s with db := { s.db with inbox := s.db.inbox.filter fun r => r.state ≠ .done } },
        procs⟩ := by
  -- one row after the other
  obtain ⟨n, hn⟩ : ∃ n, s.db.inbox.length ≤ n := ⟨_, le_rfl⟩
  induction n generalizing s with
  | zero =>
      have hnil : s.db.inbox = [] := List.length_eq_zero_iff.mp (by omega)
      have hall : (s.db.inbox.filter fun r => r.state ≠ .done) = s.db.inbox := by
        rw [hnil, List.filter_nil]
      rw [hall]
      exact .nil
  | succ n ih =>
      by_cases hany : ∃ r ∈ s.db.inbox, r.state = .done
      · obtain ⟨r, hr, hdone⟩ := hany
        obtain ⟨time, htime⟩ := Option.isSome_iff_exists.mp (reachable_timed hreach r hr hdone)
        have hids := (reachable_sound hreach).1.inboxIds
        have hone : ∀ x ∈ s.db.inbox, x.eventId ∈ [r.eventId] → x = r :=
          fun x hx hxr => hids.eq hx hr (List.mem_singleton.mp hxr)
        have hstep : Run service (resuming settings E) ⟨s, procs⟩
            ⟨{ s with db := s.db.deleteInbox [r.eventId] }, procs⟩ := by
          refine run_step hidle (a := .deleteDoneBefore (time + 1) 1000 [r.eventId])
            ⟨⟨⟨by simp [Act.job], by simp [Act.record]⟩, by simp [Act.job]⟩, rfl, rfl⟩ ?_
          simp only [next, deleteDone]
          rw [if_pos]
          · rfl
          · refine ⟨by simp, fun e _ => hown.canLock _, fun x hx hxr => ?_⟩
            rw [hone x hx hxr]
            exact ⟨hdone, time, htime, by omega⟩
        have hlt : (s.db.deleteInbox [r.eventId]).inbox.length < s.db.inbox.length :=
          List.length_filter_lt_length_iff_exists.mpr ⟨r, hr, by simp⟩
        have hrest := ih (s := { s with db := s.db.deleteInbox [r.eventId] })
          (hreach.trans (fromPolls_of_resuming hstep)) hown
          (show (s.db.deleteInbox [r.eventId]).inbox.length ≤ n by omega)
        refine hstep.trans ?_
        have hfilter : ((s.db.deleteInbox [r.eventId]).inbox.filter fun r => r.state ≠ .done) =
            s.db.inbox.filter fun r => r.state ≠ .done := by
          rw [Db.deleteInbox, List.filter_filter]
          refine List.filter_congr fun x hx => ?_
          by_cases hxr : x.eventId = r.eventId
          · simp [hids.eq hx hr hxr, hdone]
          · simp [hxr]
        rw [← hfilter]
        exact hrest
      · have hall : (s.db.inbox.filter fun r => r.state ≠ .done) = s.db.inbox := by
          refine List.filter_eq_self.mpr fun r hr => ?_
          simpa using fun hdone => hany ⟨r, hr, hdone⟩
        rw [hall]
        exact .nil

end OrderSystem.Partner
