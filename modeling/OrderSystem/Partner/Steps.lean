/-
The moves of a process, and the locks it relies on at each statement.

* `Move`: the kinds of steps of `next`, one for each job; `next_move` is the
  inversion.
* `held`: the locks a process relies on at each of its statements. `next_locks`
  says that a step takes locks only when they are free, keeps the locks of the
  others, and leaves the process with the locks `held` names.
* `reachable_locks`: so no two processes ever rely on the same lock.
-/
import OrderSystem.Partner.Workers

namespace OrderSystem.Partner

open Interleaving

variable {t u : ℕ} {s s' : Store} {p p' : Proc} {a : Act}

/-! ### Moves -/

/-- The kinds of steps a process can take. -/
inductive Move (t : ℕ) (s : Store) : Proc → Act → Store → Proc → Prop
  | abort (p : Proc) : Move t s p .abort (s.unlock t) .idle
  | start (job : Job) : Move t s .idle (.start job) s (begin job)
  | free {a : Act} {s' : Store} (h : next t s .idle a = some (s', .idle)) :
      Move t s .idle a s' .idle
  | assign (positions : List (ℕ × ℕ)) (q : ℕ) :
      Move t s (.consuming positions) (.assign q) s
        (.consuming ((q, s.committed q) :: positions))
  | revoke (positions : List (ℕ × ℕ)) (q : ℕ) :
      Move t s (.consuming positions) (.revoke q) s
        (.consuming (positions.filter fun x => x.1 ≠ q))
  | poll {positions counts : List (ℕ × ℕ)} {tasks : List PartnerTask} {ends : List (ℕ × ℕ)}
      (pendingLimit retainedLimit : ℕ) (receivedAt : ℤ)
      (h : pollBatch s positions counts = some (tasks, ends))
      (hvalid : tasks.all (·.event.valid) = true) :
      Move t s (.consuming positions) (.poll counts pendingLimit retainedLimit receivedAt) s
        (begin (.storeAll
          ⟨tasks, pendingLimit, retainedLimit, receivedAt, some (positions, ends)⟩))
  | reject (positions : List (ℕ × ℕ)) (a : Act) :
      Move t s (.consuming positions) a s (.consuming positions)
  | store {job : StoreJob} {pc : StorePc} {jvm : ℤ} {s' : Store} {p' : Proc}
      (h : storeNext t s job pc = some (s', p')) :
      Move t s (.storing job pc) (.go jvm) s' p'
  | claim {job : ClaimJob} {pc : ClaimPc} {jvm : ℤ} {s' : Store} {p' : Proc}
      (h : claimNext t s job jvm pc = some (s', p')) :
      Move t s (.claiming job pc) (.go jvm) s' p'
  | renew {c : Claim} {leaseMs : ℤ} {pc : RenewPc} {jvm : ℤ} {s' : Store} {p' : Proc}
      (h : renewNext t s c leaseMs pc = some (s', p')) :
      Move t s (.renewing c leaseMs pc) (.go jvm) s' p'
  | deliver {job : ProcessJob} {pc : ProcessPc} {jvm : ℤ} {s' : Store} {p' : Proc}
      (h : processNext t s job jvm pc = some (s', p')) :
      Move t s (.delivering job pc) (.go jvm) s' p'
  | giveBack {c : Claim} {pc : GiveBackPc} {jvm : ℤ} {s' : Store} {p' : Proc}
      (h : giveBackNext t s c pc = some (s', p')) :
      Move t s (.givingBack c pc) (.go jvm) s' p'
  | relay {owner : String} {pc : RelayPc} {jvm : ℤ} {s' : Store} {p' : Proc}
      (h : relayNext s owner jvm pc = some (s', p')) :
      Move t s (.relaying owner pc) (.go jvm) s' p'

/-- **The inversion of `next`**: every step is one of the moves. -/
theorem next_move (h : next t s p a = some (s', p')) : Move t s p a s' p' := by
  cases a with
  | abort =>
      cases h
      exact .abort p
  | start job =>
      cases p <;> cases h
      exact .start job
  | go jvm =>
      cases p with
      | storing job pc => exact .store h
      | claiming job pc => exact .claim h
      | renewing c leaseMs pc => exact .renew h
      | delivering job pc => exact .deliver h
      | givingBack c pc => exact .giveBack h
      | relaying owner pc => exact .relay h
      | _ => cases h
  | assign q =>
      cases p <;> cases h
      exact .assign _ q
  | revoke q =>
      cases p <;> cases h
      exact .revoke _ q
  | poll counts pendingLimit retainedLimit receivedAt =>
      cases p with
      | consuming positions =>
          obtain ⟨batch, hbatch, h⟩ := Option.map_eq_some_iff.mp h
          split_ifs at h with hvalid <;> cases h
          · exact .poll pendingLimit retainedLimit receivedAt hbatch hvalid
          · exact .reject positions _
      | _ => cases h
  | _ =>
      -- the statements of a free process leave it free
      cases p with
      | idle =>
          have hidle : p' = .idle := by
            simp only [next] at h
            first
              | (cases h; rfl)
              | (split_ifs at h; first | (cases h; rfl) | (split at h <;> cases h <;> rfl))
              | (obtain ⟨_, -, h⟩ := Option.map_eq_some_iff.mp h; cases h; rfl)
          subst hidle
          exact .free h
      | _ => cases h

/-! ### A process stays with its job -/

lemma storeNext_proc {job : StoreJob} {pc : StorePc} (h : storeNext t s job pc = some (s', p')) :
    (∃ pc', p' = .storing job pc') ∨ p' = .idle ∨ ∃ positions, p' = .consuming positions := by
  have hfailed : job.failed = .idle ∨ ∃ positions, job.failed = .consuming positions := by
    unfold StoreJob.failed
    split
    · exact Or.inl rfl
    · exact Or.inr ⟨_, rfl⟩
  cases pc with
  | readInbox =>
      cases h
      exact Or.inl ⟨_, rfl⟩
  | commit rows =>
      cases h
      exact Or.inl ⟨_, rfl⟩
  | acknowledge =>
      simp only [storeNext] at h
      split at h <;> cases h
      · exact Or.inr (Or.inl rfl)
      · exact Or.inr (Or.inr ⟨_, rfl⟩)
  | _ =>
      simp only [storeNext] at h
      split_ifs at h <;> cases h <;> first | exact Or.inr hfailed | exact Or.inl ⟨_, rfl⟩

lemma claimNext_proc {job : ClaimJob} {jvm : ℤ} {pc : ClaimPc}
    (h : claimNext t s job jvm pc = some (s', p')) :
    (∃ pc', p' = .claiming job pc') ∨ p' = .idle := by
  cases pc with
  | commit inserted result =>
      cases result <;> cases h <;> exact Or.inr rfl
  | selectPermits inserted =>
      simp only [claimNext] at h
      split_ifs at h
      split at h <;> cases h <;> exact Or.inl ⟨_, rfl⟩
  | selectRow inserted slot =>
      simp only [claimNext] at h
      split at h
      · cases h
        exact Or.inl ⟨_, rfl⟩
      · split_ifs at h <;> cases h <;> exact Or.inl ⟨_, rfl⟩
  | updatePermit inserted slot row admittedAt row' =>
      simp only [claimNext] at h
      split at h <;> cases h
      exact Or.inl ⟨_, rfl⟩
  | ensure slot inserted =>
      simp only [claimNext] at h
      split_ifs at h <;> cases h <;> exact Or.inl ⟨_, rfl⟩
  | countAdmissions inserted slot row =>
      simp only [claimNext] at h
      split_ifs at h <;> cases h <;> exact Or.inl ⟨_, rfl⟩
  | _ =>
      cases h
      exact Or.inl ⟨_, rfl⟩

lemma renewNext_proc {c : Claim} {leaseMs : ℤ} {pc : RenewPc}
    (h : renewNext t s c leaseMs pc = some (s', p')) :
    p' = .renewing c leaseMs .permit ∨ p' = .idle := by
  cases pc with
  | row =>
      simp only [renewNext] at h
      split_ifs at h
      split at h
      · split_ifs at h <;> cases h
        · exact Or.inl rfl
        · exact Or.inr rfl
      · cases h
        exact Or.inr rfl
  | permit =>
      simp only [renewNext] at h
      split_ifs at h
      split at h
      · split_ifs at h <;> cases h <;> exact Or.inr rfl
      · cases h
        exact Or.inr rfl

lemma processNext_proc {job : ProcessJob} {jvm : ℤ} {pc : ProcessPc}
    (h : processNext t s job jvm pc = some (s', p')) :
    (∃ pc', p' = .delivering job pc') ∨ p' = .idle := by
  cases pc with
  | isDelivered =>
      simp only [processNext] at h
      split_ifs at h
      · split at h <;> cases h <;> exact Or.inl ⟨_, rfl⟩
      · cases h
        exact Or.inl ⟨_, rfl⟩
  | duplicateHolds =>
      simp only [processNext] at h
      split at h
      · cases h
      · split_ifs at h
        split at h
        · split_ifs at h <;> cases h <;> exact Or.inl ⟨_, rfl⟩
        · cases h
          exact Or.inl ⟨_, rfl⟩
  | holds =>
      simp only [processNext] at h
      split at h
      · cases h
      · split_ifs at h
        split at h
        · split_ifs at h <;> cases h
          · exact Or.inl ⟨_, rfl⟩
          · exact Or.inr rfl
        · cases h
          exact Or.inr rfl
  | submit =>
      cases h
      exact Or.inl ⟨_, rfl⟩
  | insertCompletion doneAt =>
      cases h
      exact Or.inl ⟨_, rfl⟩
  | complete delivery =>
      simp only [processNext] at h
      split at h
      · cases h
        exact Or.inl ⟨_, rfl⟩
      · split_ifs at h <;> cases h <;> exact Or.inl ⟨_, rfl⟩
  | release delivery row =>
      simp only [processNext] at h
      split at h
      · cases h
      · split_ifs at h
        split at h <;> cases h <;> exact Or.inl ⟨_, rfl⟩
  | commit delivery row permit =>
      simp only [processNext] at h
      split at h <;> cases h <;> exact Or.inl ⟨_, rfl⟩
  | returned =>
      simp only [processNext] at h
      split at h <;> cases h <;> exact Or.inr rfl
  | _ =>
      simp only [processNext] at h
      split_ifs at h <;> cases h <;> first | exact Or.inr rfl | exact Or.inl ⟨_, rfl⟩

lemma giveBackNext_proc {c : Claim} {pc : GiveBackPc}
    (h : giveBackNext t s c pc = some (s', p')) :
    (∃ pc', p' = .givingBack c pc') ∨ p' = .idle := by
  cases pc with
  | row nextAt =>
      simp only [giveBackNext] at h
      split_ifs at h
      split at h
      · split_ifs at h <;> cases h <;> exact Or.inl ⟨_, rfl⟩
      · cases h
        exact Or.inl ⟨_, rfl⟩
  | release row =>
      simp only [giveBackNext] at h
      split_ifs at h
      split at h <;> cases h <;> exact Or.inl ⟨_, rfl⟩
  | commit row permit =>
      cases h
      exact Or.inr rfl

/-! ### Locks a process relies on -/

/-- The inbox row a delivery writes: that of its claim, or of its event. -/
def ProcessJob.rowId (job : ProcessJob) : String :=
  match job.claim with
  | some c => c.eventId
  | none => job.event.eventId

/-- The inbox row a delivery under a claim has locked. -/
def ProcessJob.claimLocks (job : ProcessJob) : List Resource :=
  if job.claim.isSome then [.inboxRow job.rowId] else []

/-- The keys a delivery has locked once its effect row is inserted. -/
def ProcessJob.effectLocks (job : ProcessJob) : List Resource :=
  [.effectId job.event.eventId, .effectSeq job.event.order job.event.sequence]

/-- The lock of an inbox row that will be written back. -/
def rowLocks (eventId : String) (row : Option InboxRow) : List Resource :=
  if row.isSome then [.inboxRow eventId] else []

/-- The lock of a permit row that will be written back. -/
def permitLocks (c : Option Claim) (permit : Option PermitRow) : List Resource :=
  match c with
  | some c => if permit.isSome then [.permit c.sellerId c.slot] else []
  | none => []

/-- The locks `storeAll` relies on. -/
def StorePc.held : StorePc → List Resource
  | .lockCapacity => []
  | .acknowledge => []
  | _ => [.capacity]

/-- The locks `claim` relies on. -/
def ClaimPc.held (job : ClaimJob) : ClaimPc → List Resource
  | .ensurePermits => []
  | .ensure _ inserted => inserted.map (.permit job.event.sellerId)
  | .selectPermits inserted => inserted.map (.permit job.event.sellerId)
  | .selectRow inserted slot =>
      .permit job.event.sellerId slot :: inserted.map (.permit job.event.sellerId)
  | .countAdmissions inserted slot _ | .insertAdmission inserted slot _
  | .updateRow inserted slot _ _ | .updatePermit inserted slot _ _ _
  | .commit inserted (.claimed slot _ _ _ _) =>
      .inboxRow job.event.eventId :: .permit job.event.sellerId slot ::
        inserted.map (.permit job.event.sellerId)
  | .commit inserted _ => inserted.map (.permit job.event.sellerId)

/-- The locks `process` relies on. -/
def ProcessPc.held (job : ProcessJob) : ProcessPc → List Resource
  | .checkDelivered | .checkSequence | .insertEffect => job.claimLocks
  | .upsertOrder _ | .insertCompletion _ => job.effectLocks ++ job.claimLocks
  | .complete delivery => (if delivery.isSome then job.effectLocks else []) ++ job.claimLocks
  | .release delivery row =>
      (if delivery.isSome then job.effectLocks else []) ++ rowLocks job.rowId row
  | .commit delivery row permit =>
      (if delivery.isSome then job.effectLocks else []) ++ rowLocks job.rowId row ++
        permitLocks job.claim permit
  | _ => []

/-- The locks `giveBack` and `release` rely on. -/
def GiveBackPc.held (c : Claim) : GiveBackPc → List Resource
  | .row _ => []
  | .release r => rowLocks c.eventId r
  | .commit r permit => rowLocks c.eventId r ++ permitLocks (some c) permit

/-- The locks a process relies on. -/
def Proc.held : Proc → List Resource
  | .storing _ pc => pc.held
  | .claiming job pc => pc.held job
  | .delivering job pc => pc.held job
  | .givingBack c pc => pc.held c
  | _ => []

/-- No other process holds the resource. -/
abbrev Store.mine (s : Store) (t : ℕ) (r : Resource) : Prop :=
  Locks.Mine s.locks t r

lemma mine_of_canLock {r : Resource} (h : s.canLock t r = true) : s.mine t r := by
  intro u hu
  exact Locks.available_iff.mp h r u hu (by simp)

lemma mine_of_held {r : Resource} (hex : Locks.Exclusive s.locks) (h : (r, t) ∈ s.locks) :
    s.mine t r :=
  Locks.mine_of_mem hex h

@[simp] lemma Store.lock_locks (rs : List Resource) :
    (s.lock t rs).locks = Locks.acquire s.locks t rs := rfl

@[simp] lemma Store.unlock_locks : (s.unlock t).locks = Locks.release s.locks t := rfl

/-- Along a step of `t`: the lock table changes as allowed, and the locks the
process relies on next are its own. -/
abbrev LocksKept (t : ℕ) (s s' : Store) (p' : Proc) : Prop :=
  Locks.Kept t s.locks s'.locks p'.held

lemma storeNext_locks {job : StoreJob} {pc : StorePc}
    (hheld : ∀ r ∈ pc.held, (r, t) ∈ s.locks) (h : storeNext t s job pc = some (s', p')) :
    LocksKept t s s' p' := by
  have hfailed : job.failed.held = [] := by
    unfold StoreJob.failed
    split <;> rfl
  cases pc with
  | lockCapacity =>
      simp only [storeNext] at h
      split_ifs at h with hcan
      cases h
      refine Locks.kept_take [.capacity] ?_ rfl (by simp [Proc.held, StorePc.held])
      simpa using mine_of_canLock hcan
  | readInbox =>
      cases h
      exact Locks.kept_same rfl hheld
  | readLedger known =>
      simp only [storeNext] at h
      split_ifs at h <;> cases h
      · exact Locks.kept_drop rfl rfl
      · exact Locks.kept_same rfl hheld
  | countPending rows =>
      simp only [storeNext] at h
      split_ifs at h <;> cases h
      · exact Locks.kept_drop rfl hfailed
      · exact Locks.kept_same rfl hheld
  | countRetained rows =>
      simp only [storeNext] at h
      split_ifs at h <;> cases h
      · exact Locks.kept_drop rfl hfailed
      · exact Locks.kept_same rfl hheld
  | insert rows =>
      simp only [storeNext] at h
      split_ifs at h <;> cases h
      · exact Locks.kept_same rfl hheld
      · exact Locks.kept_drop rfl hfailed
  | commit rows =>
      cases h
      exact Locks.kept_drop rfl rfl
  | acknowledge =>
      simp only [storeNext] at h
      split at h <;> cases h <;> exact Locks.kept_same rfl (by simp [Proc.held])

lemma claimNext_locks {job : ClaimJob} {jvm : ℤ} {pc : ClaimPc}
    (hheld : ∀ r ∈ pc.held job, (r, t) ∈ s.locks)
    (h : claimNext t s job jvm pc = some (s', p')) : LocksKept t s s' p' := by
  cases pc with
  | ensurePermits =>
      cases h
      refine Locks.kept_same rfl ?_
      split_ifs <;> simp [Proc.held, ClaimPc.held]
  | ensure slot inserted =>
      simp only [claimNext] at h
      split_ifs at h with hlt hcan hrow <;> cases h
      · exact Locks.kept_same rfl hheld
      · exact Locks.kept_same rfl hheld
      · refine Locks.kept_take [.permit job.event.sellerId slot] ?_ rfl ?_
        · simpa using mine_of_canLock hcan
        · intro r hr
          simp only [Proc.held, ClaimPc.held, List.map_append, List.mem_append] at hr
          exact hr.symm.imp (by simp) (hheld r)
  | selectPermits inserted =>
      simp only [claimNext] at h
      split_ifs at h with hfree
      have hmine : ∀ r, Resource.isPermitOf job.event.sellerId r = true → s.mine t r :=
        fun r hr u hu => Locks.available_iff.mp hfree r u hu hr
      split at h <;> cases h
      · refine Locks.kept_take _ ?_ rfl fun r hr => Or.inr (hheld r hr)
        simp +contextual [Resource.isPermitOf, hmine]
      · rename_i slot hslot
        refine Locks.kept_take _ ?_ rfl ?_
        · simp +contextual [Resource.isPermitOf, hmine]
        · intro r hr
          simp only [Proc.held, ClaimPc.held, List.mem_cons] at hr
          rcases hr with rfl | hr
          · have hmem := List.min?_mem hslot
            simp only [List.mem_map, List.mem_filter] at hmem
            obtain ⟨x, ⟨hx, -⟩, hxs⟩ := hmem
            exact Or.inl (List.mem_cons_of_mem _ (List.mem_map.mpr ⟨x, hx, by rw [hxs]⟩))
          · exact Or.inr (hheld r hr)
  | selectRow inserted slot =>
      simp only [claimNext] at h
      have hins : ∀ r ∈ inserted.map (Resource.permit job.event.sellerId), (r, t) ∈ s.locks :=
        fun r hr => hheld r (List.mem_cons_of_mem _ hr)
      split at h
      · cases h
        exact Locks.kept_same rfl hins
      · have htake : s.canLock t (.inboxRow job.event.eventId) = true →
            ∀ pc : ClaimPc, pc.held job = .inboxRow job.event.eventId ::
              ClaimPc.held job (.selectRow inserted slot) →
            LocksKept t s (s.lock t [.inboxRow job.event.eventId]) (.claiming job pc) := by
          intro hcan pc hpc
          refine Locks.kept_take [.inboxRow job.event.eventId] ?_ rfl ?_
          · simpa using mine_of_canLock hcan
          · intro r hr
            have hr' : r ∈ pc.held job := hr
            rw [hpc, List.mem_cons] at hr'
            exact hr'.imp (fun h => by simp [h]) (hheld r)
        split_ifs at h with hrow hretry <;> cases h
        · exact htake hrow.2 _ rfl
        · exact htake hrow.2 _ rfl
        · exact Locks.kept_same rfl hins
  | countAdmissions inserted slot row =>
      simp only [claimNext] at h
      split_ifs at h <;> cases h
      · exact Locks.kept_same rfl fun r hr =>
          hheld r (List.mem_cons_of_mem _ (List.mem_cons_of_mem _ hr))
      · exact Locks.kept_same rfl hheld
  | insertAdmission inserted slot row =>
      cases h
      exact Locks.kept_same rfl hheld
  | updateRow inserted slot row admittedAt =>
      cases h
      exact Locks.kept_same rfl hheld
  | updatePermit inserted slot row admittedAt row' =>
      simp only [claimNext] at h
      split at h <;> cases h
      exact Locks.kept_same rfl hheld
  | commit inserted result =>
      simp only [claimNext] at h
      split at h <;> cases h <;> exact Locks.kept_drop rfl rfl

lemma mem_rowLocks {eventId : String} {row : Option InboxRow} {r : Resource}
    (h : r ∈ rowLocks eventId row) : r = .inboxRow eventId := by
  simp only [rowLocks] at h
  split_ifs at h
  · simpa using h
  · simp at h

lemma rowLocks_subset {job : ProcessJob} {row : Option InboxRow} (hc : job.claim.isSome) :
    rowLocks job.rowId row ⊆ job.claimLocks := by
  intro r hr
  simp [mem_rowLocks hr, ProcessJob.claimLocks, hc]

lemma processNext_locks {job : ProcessJob} {jvm : ℤ} {pc : ProcessPc}
    (hheld : ∀ r ∈ pc.held job, (r, t) ∈ s.locks)
    (h : processNext t s job jvm pc = some (s', p')) : LocksKept t s s' p' := by
  -- a statement that locks the row of the claim
  have hrow : ∀ c, job.claim = some c → s.canLock t (.inboxRow c.eventId) = true →
      ∀ pc : ProcessPc, pc.held job = job.claimLocks →
      LocksKept t s (s.lock t [.inboxRow c.eventId]) (.delivering job pc) := by
    intro c hc hcan pc hpc
    refine Locks.kept_take [.inboxRow c.eventId] ?_ rfl ?_
    · simpa using mine_of_canLock hcan
    · intro r hr
      exact Or.inl (by simpa [Proc.held, hpc, ProcessJob.claimLocks, ProcessJob.rowId, hc] using hr)
  cases pc with
  | isDelivered =>
      simp only [processNext] at h
      split_ifs at h
      · split at h <;> cases h <;> exact Locks.kept_same rfl (by simp [Proc.held, ProcessPc.held])
      · cases h
        exact Locks.kept_same rfl (by simp [Proc.held, ProcessPc.held])
  | duplicateHolds =>
      simp only [processNext] at h
      split at h
      · cases h
      · rename_i c hc
        split_ifs at h with hcan
        split at h
        · split_ifs at h <;> cases h
          · exact hrow c hc hcan _ (by simp [ProcessPc.held])
          · exact Locks.kept_same rfl (by simp [Proc.held, ProcessPc.held, rowLocks])
        · cases h
          exact Locks.kept_same rfl (by simp [Proc.held, ProcessPc.held, rowLocks])
  | lastSequence =>
      simp only [processNext] at h
      split_ifs at h <;> cases h <;>
        exact Locks.kept_same rfl (by simp [Proc.held, ProcessPc.held])
  | submit =>
      cases h
      exact Locks.kept_same rfl (by simp [Proc.held, ProcessPc.held])
  | calling call =>
      simp only [processNext] at h
      split_ifs at h with hok hclaim <;> cases h
      · exact Locks.kept_same rfl (by simp [Proc.held, ProcessPc.held])
      · exact Locks.kept_same rfl
          (by simp [Proc.held, ProcessPc.held, ProcessJob.claimLocks, hclaim])
      · exact Locks.kept_same rfl (by simp [Proc.held])
  | holds =>
      simp only [processNext] at h
      split at h
      · cases h
      · rename_i c hc
        split_ifs at h with hcan
        split at h
        · split_ifs at h <;> cases h
          · exact hrow c hc hcan _ rfl
          · exact Locks.kept_drop rfl rfl
        · cases h
          exact Locks.kept_drop rfl rfl
  | checkDelivered =>
      simp only [processNext] at h
      split_ifs at h <;> cases h
      · exact Locks.kept_same rfl hheld
      · exact Locks.kept_drop rfl rfl
      · exact Locks.kept_same rfl hheld
  | checkSequence =>
      simp only [processNext] at h
      split_ifs at h <;> cases h
      · exact Locks.kept_drop rfl rfl
      · exact Locks.kept_same rfl hheld
  | insertEffect =>
      simp only [processNext] at h
      split_ifs at h with hcan hadm <;> cases h
      · refine Locks.kept_take job.effectLocks ?_ rfl ?_
        · intro r hr
          exact mine_of_canLock (List.all_eq_true.mp hcan r hr)
        · intro r hr
          exact (List.mem_append.mp hr).imp id (hheld r)
      · exact Locks.kept_drop rfl rfl
  | upsertOrder doneAt =>
      simp only [processNext] at h
      split_ifs at h with hcan
      cases h
      refine Locks.kept_take [.orderRow job.event.order] ?_ rfl fun r hr => Or.inr (hheld r hr)
      simpa using mine_of_canLock hcan
  | insertCompletion doneAt =>
      cases h
      exact Locks.kept_same rfl hheld
  | complete delivery =>
      simp only [processNext] at h
      split at h
      · rename_i c hc
        cases h
        refine Locks.kept_same rfl fun r hr => hheld r ?_
        exact (List.mem_append.mp hr).elim (List.mem_append_left _) fun hr =>
          List.mem_append_right _ (rowLocks_subset (by simp [hc]) hr)
      · rename_i hc
        split_ifs at h with hmode hcan <;> cases h
        · refine Locks.kept_take [.inboxRow job.event.eventId] ?_ rfl ?_
          · simpa using mine_of_canLock hcan
          · intro r hr
            simp only [Proc.held, ProcessPc.held, permitLocks, List.append_nil, hc,
              List.mem_append] at hr
            refine hr.symm.imp ?_ fun hr => hheld r (List.mem_append_left _ hr)
            intro hr
            simpa [ProcessJob.rowId, hc] using mem_rowLocks hr
        · refine Locks.kept_same rfl fun r hr => hheld r ?_
          simp only [Proc.held, ProcessPc.held, rowLocks, permitLocks, List.append_nil, hc] at hr
          exact List.mem_append_left _ (by simpa using hr)
  | release delivery row =>
      simp only [processNext] at h
      split at h
      · cases h
      · rename_i c hc
        split_ifs at h with hcan
        split at h <;> cases h
        · refine Locks.kept_take [.permit c.sellerId c.slot] ?_ rfl ?_
          · simpa using mine_of_canLock hcan
          · intro r hr
            simp only [Proc.held, ProcessPc.held, hc, permitLocks, Option.isSome_some, if_true] at hr
            exact (List.mem_append.mp hr).symm.imp id (hheld r)
        · refine Locks.kept_same rfl fun r hr => hheld r ?_
          simpa [Proc.held, ProcessPc.held, hc, permitLocks] using hr
  | commit delivery row permit =>
      simp only [processNext] at h
      split at h <;> cases h <;> exact Locks.kept_drop rfl rfl
  | returned =>
      simp only [processNext] at h
      split at h <;> cases h <;> exact Locks.kept_same rfl (by simp [Proc.held])

lemma giveBackNext_locks {c : Claim} {pc : GiveBackPc}
    (hheld : ∀ r ∈ pc.held c, (r, t) ∈ s.locks)
    (h : giveBackNext t s c pc = some (s', p')) : LocksKept t s s' p' := by
  cases pc with
  | row nextAt =>
      simp only [giveBackNext] at h
      split_ifs at h with hcan
      split at h
      · split_ifs at h <;> cases h
        · refine Locks.kept_take [.inboxRow c.eventId] ?_ rfl fun r hr => Or.inl ?_
          · simpa using mine_of_canLock hcan
          · simpa [Proc.held, GiveBackPc.held, rowLocks] using hr
        · exact Locks.kept_same rfl (by simp [Proc.held, GiveBackPc.held, rowLocks])
      · cases h
        exact Locks.kept_same rfl (by simp [Proc.held, GiveBackPc.held, rowLocks])
  | release row =>
      simp only [giveBackNext] at h
      split_ifs at h with hcan
      split at h <;> cases h
      · refine Locks.kept_take [.permit c.sellerId c.slot] ?_ rfl ?_
        · simpa using mine_of_canLock hcan
        · intro r hr
          simp only [Proc.held, GiveBackPc.held, permitLocks, Option.isSome_some, if_true] at hr
          exact (List.mem_append.mp hr).symm.imp id (hheld r)
      · refine Locks.kept_same rfl fun r hr => hheld r ?_
        simpa [Proc.held, GiveBackPc.held, permitLocks] using hr
  | commit row permit =>
      cases h
      exact Locks.kept_drop rfl rfl

lemma renewNext_locks {c : Claim} {leaseMs : ℤ} {pc : RenewPc}
    (h : renewNext t s c leaseMs pc = some (s', p')) :
    s'.locks = s.locks ∧ p'.held = [] := by
  cases pc with
  | row =>
      simp only [renewNext] at h
      split_ifs at h
      split at h
      · split_ifs at h <;> cases h <;> exact ⟨rfl, rfl⟩
      · cases h
        exact ⟨rfl, rfl⟩
  | permit =>
      simp only [renewNext] at h
      split_ifs at h
      split at h
      · split_ifs at h <;> cases h <;> exact ⟨rfl, rfl⟩
      · cases h
        exact ⟨rfl, rfl⟩

lemma begin_held (job : Job) : (begin job).held = [] := by
  cases job with
  | storeAll job =>
      simp only [begin]
      split_ifs <;> rfl
  | _ => rfl

/-- The statements of a free process take no locks. -/
lemma next_idle_locks (h : next t s .idle a = some (s', .idle)) :
    s'.locks = s.locks ∨ s'.locks = Locks.release s.locks t := by
  cases a with
  | abort =>
      cases h
      exact Or.inr rfl
  | start job =>
      simp only [next, Option.some.injEq, Prod.mk.injEq] at h
      exact Or.inl (by rw [← h.1])
  | tick now =>
      simp only [next] at h
      split_ifs at h
      cases h
      exact Or.inl rfl
  | restart owner =>
      cases h
      exact Or.inl rfl
  | produce q e =>
      cases h
      exact Or.inl rfl
  | serve call rejected lost =>
      obtain ⟨s₁, hserve, h⟩ := Option.map_eq_some_iff.mp h
      simp only [serve] at hserve
      split_ifs at hserve <;> cases hserve <;> cases h <;> exact Or.inl rfl
  | scheduleRetry e nextAt attempts =>
      simp only [next] at h
      split_ifs at h
      split at h <;> cases h <;> exact Or.inl rfl
  | deleteDoneBefore cutoff limit ids =>
      obtain ⟨s₁, hdelete, h⟩ := Option.map_eq_some_iff.mp h
      simp only [deleteDone] at hdelete
      split_ifs at hdelete
      cases hdelete
      cases h
      exact Or.inl rfl
  | deleteRetryAdmissionsBefore windowMs limit picked =>
      obtain ⟨s₁, hdelete, h⟩ := Option.map_eq_some_iff.mp h
      obtain ⟨rows, rfl⟩ := deleteAdmissions_eq hdelete
      cases h
      exact Or.inl rfl
  | appendReport n lost =>
      obtain ⟨s₁, happend, h⟩ := Option.map_eq_some_iff.mp h
      obtain ⟨_, _, _, _, rfl⟩ := appendReport_eq happend
      cases h
      exact Or.inl rfl
  | purgeReports now ids =>
      obtain ⟨s₁, hpurge, h⟩ := Option.map_eq_some_iff.mp h
      obtain ⟨_, _, _, _, rfl⟩ := purgeReports_eq hpurge
      cases h
      exact Or.inl rfl
  | _ => cases h

/-- **Locks are taken one holder at a time and kept.** -/
lemma next_locks (hheld : ∀ r ∈ p.held, (r, t) ∈ s.locks)
    (h : next t s p a = some (s', p')) : LocksKept t s s' p' := by
  cases next_move h with
  | abort p => exact Locks.kept_drop rfl rfl
  | start job => exact Locks.kept_same rfl (by simp [begin_held])
  | free h =>
      rcases next_idle_locks h with h | h
      · exact Locks.kept_same h (by simp [Proc.held])
      · exact Locks.kept_drop h rfl
  | assign positions q => exact Locks.kept_same rfl (by simp [Proc.held])
  | revoke positions q => exact Locks.kept_same rfl (by simp [Proc.held])
  | poll pendingLimit retainedLimit receivedAt hbatch hvalid =>
      exact Locks.kept_same rfl (by simp [begin_held])
  | reject positions a => exact Locks.kept_same rfl (by simp [Proc.held])
  | store h => exact storeNext_locks hheld h
  | claim h => exact claimNext_locks hheld h
  | renew h =>
      obtain ⟨hlocks, hnone⟩ := renewNext_locks h
      exact Locks.kept_same hlocks (by simp [hnone])
  | deliver h => exact processNext_locks hheld h
  | giveBack h => exact giveBackNext_locks hheld h
  | relay h =>
      obtain ⟨⟨_, _, _, _, rfl⟩, hp⟩ := relayNext_eq h
      refine Locks.kept_same rfl ?_
      obtain ⟨pc', rfl⟩ | rfl := hp <;> simp [Proc.held]

/-! ### Reachable locks -/

/-- In every run the locks are exclusive, and every process owns the locks it
relies on. -/
theorem reachable_locks {ok : Config Store Proc → ℕ → Act → Prop} {c : Config Store Proc}
    (h : Run service ok initial c) :
    Locks.Exclusive c.store.locks ∧ ∀ t, ∀ r ∈ (c.procs t).held, (r, t) ∈ c.store.locks := by
  refine Run.invariant (I := fun s => Locks.Exclusive s.locks)
    (J := fun t s p => ∀ r ∈ p.held, (r, t) ∈ s.locks) (K := fun _ => True)
    (fun _ _ => trivial) ?_ ?_ ?_ h
  · exact ⟨Locks.exclusive_nil, by simp [initial, Proc.held]⟩
  · intro c t a s' p' _ _ hex hheld hnext
    obtain ⟨hstep, hown⟩ := next_locks (hheld t) hnext
    exact ⟨hstep.exclusive hex, hown⟩
  · intro c t a s' p' u _ _ _ hheld hnext hut r hr
    exact ((next_locks (hheld t) hnext).1.others hut).mpr (hheld u r hr)

end OrderSystem.Partner
