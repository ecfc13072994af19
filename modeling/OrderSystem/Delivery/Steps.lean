/-
What one step of the delivery tracking can do, and the locks it works under.

* `Move`, `next_move`: the inversion of `next`.
* `Writes.locks`, `Proc.held`: the rows a transaction has written are locked.
* `reachable_locks`: in every run the locks are exclusive, and every process owns the
  locks it relies on.
-/
import OrderSystem.Delivery.Workers

namespace OrderSystem.Delivery

open Interleaving
open Orders (OutboxRow javaInt)

variable {t u : ℕ} {s s' : Store} {p p' : Proc} {a : Act}

/-! ### Moves -/

/-- What a step of process `t` is. -/
inductive Move (t : ℕ) (s : Store) : Proc → Act → Store → Proc → Prop
  | abort (p : Proc) : Move t s p .abort (s.unlock t) .idle
  | accept (job : AcceptJob) : Move t s .idle (.accept job) s (begin job)
  | consume : Move t s .idle .consume s (.consuming [])
  | report (q : ℕ) (r : PartnerCompletionEvent) :
      Move t s .idle (.report q r)
        { s with topic := Function.update s.topic q (s.topic q ++ [r]) } .idle
  | enqueue {e : PartnerOrderEvent} {s' : Store} (h : enqueue t s e = some s') :
      Move t s .idle (.enqueue e) s' .idle
  | publish {r : OutboxRow} {s' : Store} (h : publish s r = some s') :
      Move t s .idle (.publish r) s' .idle
  | purge (ids : List ℕ) :
      Move t s .idle (.purge ids)
        { s with db := { s.db with outbox := s.db.outbox.filter fun r => r.id ∉ ids } } .idle
  | assign (positions : List (ℕ × ℕ)) (q : ℕ) :
      Move t s (.consuming positions) (.assign q) s (.consuming ((q, s.committed q) :: positions))
  | revoke (positions : List (ℕ × ℕ)) (q : ℕ) :
      Move t s (.consuming positions) (.revoke q) s
        (.consuming (positions.filter fun x => x.1 ≠ q))
  | poll {positions counts ends : List (ℕ × ℕ)} {records : List PartnerCompletionEvent}
      (h : Consumer.poll s.topic positions counts = some (records, ends)) :
      Move t s (.consuming positions) (.poll counts) s
        (.resolving ⟨records, positions, ends⟩ (.update records {}))
  | accepting {job : AcceptJob} {pc : AcceptPc} {jvm : ℤ} {s' : Store} {p' : Proc}
      (h : acceptNext t s job jvm pc = some (s', p')) :
      Move t s (.accepting job pc) (.go jvm) s' p'
  | resolving {poll : Poll} {pc : ResolvePc} {jvm : ℤ} {s' : Store} {p' : Proc}
      (h : resolveNext t s poll jvm pc = some (s', p')) :
      Move t s (.resolving poll pc) (.go jvm) s' p'
  | retry (poll : Poll) (pc : ResolvePc) :
      Move t s (.resolving poll pc) .retry (s.unlock t) (.consuming poll.before)

/-- **The inversion of `next`**: every step is one of the moves. -/
theorem next_move (h : next t s p a = some (s', p')) : Move t s p a s' p' := by
  cases a with
  | abort =>
      cases h
      exact .abort p
  | accept job =>
      cases p <;> cases h
      exact .accept job
  | consume =>
      cases p <;> cases h
      exact .consume
  | report q r =>
      cases p <;> cases h
      exact .report q r
  | enqueue e =>
      cases p with
      | idle =>
          obtain ⟨s₁, h₁, h⟩ := Option.map_eq_some_iff.mp h
          cases h
          exact .enqueue h₁
      | _ => cases h
  | publish r =>
      cases p with
      | idle =>
          obtain ⟨s₁, h₁, h⟩ := Option.map_eq_some_iff.mp h
          cases h
          exact .publish h₁
      | _ => cases h
  | purge ids =>
      cases p <;> cases h
      exact .purge ids
  | assign q =>
      cases p <;> cases h
      exact .assign _ q
  | revoke q =>
      cases p <;> cases h
      exact .revoke _ q
  | poll counts =>
      cases p with
      | consuming positions =>
          obtain ⟨⟨records, ends⟩, hpoll, h⟩ := Option.map_eq_some_iff.mp h
          cases h
          exact .poll hpoll
      | _ => cases h
  | go jvm =>
      cases p with
      | accepting job pc => exact .accepting h
      | resolving poll pc => exact .resolving h
      | _ => cases h
  | retry =>
      cases p <;> cases h
      exact .retry _ _

/-- What `enqueue` does: it inserts one outbox row. -/
lemma enqueue_cases {e : PartnerOrderEvent} (h : enqueue t s e = some s') :
    s.db.admits e.eventId ∧
      s' = { s with db := { s.db with outbox := s.db.outbox ++ [outboxRow s.nextId e.key e] }
                    nextId := s.nextId + 1 } := by
  unfold enqueue at h
  split_ifs at h with hok
  cases h
  exact ⟨hok.2, rfl⟩

/-- What `publish` does: the event of an outbox row becomes a request. -/
lemma publish_cases {r : OutboxRow} (h : publish s r = some s') :
    r ∈ s.db.outbox ∧ s' = { s with requests := s.requests ++ r.partner.toList } := by
  unfold publish at h
  split_ifs at h with hok
  cases h
  exact ⟨hok, rfl⟩

/-- A request stays in its transaction or ends. -/
lemma acceptNext_proc {job : AcceptJob} {jvm : ℤ} {pc : AcceptPc}
    (h : acceptNext t s job jvm pc = some (s', p')) :
    (∃ pc', p' = .accepting job pc') ∨ p' = .idle := by
  cases pc <;> simp only [acceptNext] at h <;> (repeat' split at h) <;>
    first
      | (cases h; exact Or.inl ⟨_, rfl⟩)
      | (cases h; exact Or.inr rfl)
      | cases h

lemma resolveNext_proc {poll : Poll} {jvm : ℤ} {pc : ResolvePc}
    (h : resolveNext t s poll jvm pc = some (s', p')) :
    ∀ job pc', p' ≠ .accepting job pc' := by
  unfold resolveNext at h
  (repeat' split at h) <;>
    first
      | (cases h; intro job pc' heq; cases heq)
      | cases h

/-! ### Locks -/

/-- The locks of the rows a transaction has written. -/
def Writes.locks (w : Writes) : List Resource :=
  w.obligations.map (fun o => .obligation o.eventId) ++ w.quotas.map fun q => .quota q.sellerId

lemma Writes.mem_locks_obligation {w : Writes} {o : Obligation} (h : o ∈ w.obligations) :
    .obligation o.eventId ∈ w.locks :=
  List.mem_append_left _ (List.mem_map_of_mem (f := fun o : Obligation =>
    Resource.obligation o.eventId) h)

lemma Writes.mem_locks_quota {w : Writes} {q : QuotaRow} (h : q ∈ w.quotas) :
    .quota q.sellerId ∈ w.locks :=
  List.mem_append_right _ (List.mem_map_of_mem (f := fun q : QuotaRow =>
    Resource.quota q.sellerId) h)

/-- A written row adds the lock of its key. -/
lemma Writes.locks_putObligation {w : Writes} {o : Obligation} :
    ∀ r ∈ (w.putObligation o).locks, r = .obligation o.eventId ∨ r ∈ w.locks := by
  intro r hr
  rcases List.mem_append.mp hr with hr | hr
  · obtain ⟨x, hx, rfl⟩ := List.mem_map.mp hr
    rcases Table.mem_put.mp hx with rfl | ⟨hx, -⟩
    · exact Or.inl rfl
    · exact Or.inr (mem_locks_obligation hx)
  · exact Or.inr (List.mem_append_right _ hr)

lemma Writes.locks_putQuota {w : Writes} {q : QuotaRow} :
    ∀ r ∈ (w.putQuota q).locks, r = .quota q.sellerId ∨ r ∈ w.locks := by
  intro r hr
  rcases List.mem_append.mp hr with hr | hr
  · exact Or.inr (List.mem_append_left _ hr)
  · obtain ⟨x, hx, rfl⟩ := List.mem_map.mp hr
    rcases Table.mem_put.mp hx with rfl | ⟨hx, -⟩
    · exact Or.inl rfl
    · exact Or.inr (mem_locks_quota hx)

/-- The row a transaction sees has the key it was looked up under. -/
lemma Writes.sellerId_of_viewQuota {w : Writes} {db : Db} {seller : String} {q : QuotaRow}
    (h : w.viewQuota db seller = some q) : q.sellerId = seller := by
  rcases Option.or_eq_some_iff.mp h with h | ⟨-, h⟩ <;> exact Table.key_of_get h

lemma Writes.eventId_of_viewObligation {w : Writes} {db : Db} {id : String} {o : Obligation}
    (h : w.viewObligation db id = some o) : o.eventId = id := by
  rcases Option.or_eq_some_iff.mp h with h | ⟨-, h⟩ <;> exact Table.key_of_get h

/-- The locks a process relies on. -/
def Proc.held : Proc → List Resource
  | .idle | .consuming _ => []
  | .accepting job pc =>
      match pc with
      | .selectUsed w | .insertObligation w | .insertOutbox w _ | .commit w _ => w.locks
      | .updateUsed w => .quota job.request.sellerId :: w.locks
      | .readExisting | .insertQuota | .readCreate _ | .respond _ => []
  | .resolving _ pc =>
      match pc with
      | .update _ w | .giveBack _ _ w => w.locks
      | .acknowledge => []

/-- The locks of a step that changes no table. -/
abbrev LocksKept (t : ℕ) (s s' : Store) (p' : Proc) : Prop :=
  Locks.Kept t s.locks s'.locks p'.held

lemma mine_of_canLock {r : Resource} (h : s.canLock t r) : Locks.Mine s.locks t r :=
  fun u hu => Locks.available_iff.mp h r u hu (by simp)

/-- A step that takes one lock. -/
lemma kept_lock {r : Resource} (hcan : s.canLock t r)
    (hp : ∀ r' ∈ p'.held, r' = r ∨ (r', t) ∈ s.locks) : LocksKept t s (s.lock t r) p' := by
  refine Locks.kept_take [r] ?_ rfl fun r' hr' => (hp r' hr').imp_left (by simp [·])
  intro r' hr'
  rw [List.mem_singleton.mp hr']
  exact mine_of_canLock hcan

lemma acceptNext_locks {job : AcceptJob} {jvm : ℤ} {pc : AcceptPc}
    (hheld : ∀ r ∈ (Proc.accepting job pc).held, (r, t) ∈ s.locks)
    (h : acceptNext t s job jvm pc = some (s', p')) : LocksKept t s s' p' := by
  cases pc with
  | readExisting =>
      simp only [acceptNext] at h
      split at h <;> cases h
      · exact Locks.kept_same rfl (by simp [Proc.held, Writes.locks])
      · refine Locks.kept_same rfl ?_
        split_ifs <;> simp [Proc.held, Writes.locks]
  | insertQuota =>
      simp only [acceptNext] at h
      split_ifs at h with hcan hrow <;> cases h
      · exact Locks.kept_same rfl (by simp [Proc.held, Writes.locks])
      · exact kept_lock hcan (by simp [Proc.held, Writes.locks])
  | selectUsed w =>
      simp only [acceptNext] at h
      split_ifs at h with hcan
      split at h
      · split_ifs at h <;> cases h
        · exact kept_lock hcan fun r hr => Or.inr (hheld r hr)
        · exact kept_lock hcan fun r hr => (List.mem_cons.mp hr).imp_right (hheld r)
      · cases h
        exact Locks.kept_drop rfl rfl
  | updateUsed w =>
      simp only [acceptNext] at h
      split at h
      · rename_i q hq
        split_ifs at h <;> cases h
        · refine Locks.kept_same rfl fun r hr => ?_
          rcases Writes.locks_putQuota r hr with rfl | hr
          · rw [QuotaRow.reserve_sellerId, Writes.sellerId_of_viewQuota hq]
            exact hheld _ List.mem_cons_self
          · exact hheld r (List.mem_cons_of_mem _ hr)
        · exact Locks.kept_drop rfl rfl
      · cases h
        exact Locks.kept_same rfl fun r hr => hheld r (List.mem_cons_of_mem _ hr)
  | readCreate snapshot =>
      simp only [acceptNext] at h
      split_ifs at h <;> cases h <;> exact Locks.kept_same rfl (by simp [Proc.held, Writes.locks])
  | insertObligation w =>
      simp only [acceptNext] at h
      split_ifs at h with hcan hrow <;> cases h
      · exact Locks.kept_drop rfl rfl
      · exact kept_lock hcan fun r hr => (Writes.locks_putObligation r hr).imp_right (hheld r)
  | insertOutbox w createdAt =>
      simp only [acceptNext] at h
      split_ifs at h with hcan hrow <;> cases h
      · exact kept_lock (s := s) hcan fun r hr => Or.inr (hheld r hr)
      · exact Locks.kept_drop rfl rfl
  | commit w answer =>
      cases h
      exact Locks.kept_drop rfl rfl
  | respond answer =>
      cases h
      exact Locks.kept_same rfl (by simp [Proc.held])

lemma resolveNext_locks {poll : Poll} {jvm : ℤ} {pc : ResolvePc}
    (hheld : ∀ r ∈ (Proc.resolving poll pc).held, (r, t) ∈ s.locks)
    (h : resolveNext t s poll jvm pc = some (s', p')) : LocksKept t s s' p' := by
  cases pc with
  | update todo w =>
      cases todo with
      | nil =>
          cases h
          exact Locks.kept_drop rfl rfl
      | cons r todo =>
          simp only [resolveNext] at h
          split_ifs at h with hcan
          split at h
          · rename_i o ho
            split_ifs at h <;> cases h
            · refine kept_lock hcan fun r' hr' => ?_
              refine (Writes.locks_putObligation r' hr').imp ?_ (hheld r')
              rintro rfl
              rw [Obligation.resolve_eventId, Writes.eventId_of_viewObligation ho]
            · exact Locks.kept_same rfl hheld
          · cases h
            exact Locks.kept_same rfl hheld
  | giveBack seller todo w =>
      simp only [resolveNext] at h
      split_ifs at h with hcan
      split at h
      · rename_i q hq
        cases h
        refine kept_lock hcan fun r' hr' => ?_
        refine (Writes.locks_putQuota r' hr').imp ?_ (hheld r')
        rintro rfl
        rw [QuotaRow.giveBack_sellerId, Writes.sellerId_of_viewQuota hq]
      · cases h
        exact Locks.kept_same rfl hheld
  | acknowledge =>
      cases h
      exact Locks.kept_same rfl (by simp [Proc.held])

lemma begin_held (job : AcceptJob) : (begin job).held = [] := by
  rw [begin]
  split_ifs <;> rfl

/-- **Locks are taken one holder at a time and kept.** -/
lemma next_locks (hheld : ∀ r ∈ p.held, (r, t) ∈ s.locks)
    (h : next t s p a = some (s', p')) : LocksKept t s s' p' := by
  cases next_move h with
  | abort p => exact Locks.kept_drop rfl rfl
  | retry poll pc => exact Locks.kept_drop rfl rfl
  | accept job => exact Locks.kept_same rfl (by simp [begin_held])
  | enqueue henqueue =>
      obtain ⟨-, rfl⟩ := enqueue_cases henqueue
      exact Locks.kept_same rfl (by simp [Proc.held])
  | publish hpublish =>
      obtain ⟨-, rfl⟩ := publish_cases hpublish
      exact Locks.kept_same rfl (by simp [Proc.held])
  | accepting h => exact acceptNext_locks hheld h
  | resolving h => exact resolveNext_locks hheld h
  | _ => exact Locks.kept_same rfl (by simp [Proc.held, Writes.locks])

/-- In every run the locks are exclusive, and every process owns the locks it relies
on. -/
theorem reachable_locks {ok : Config Store Proc → ℕ → Act → Prop} {c : Config Store Proc}
    (h : Run service ok initial c) :
    Locks.Exclusive c.store.locks ∧ ∀ t, ∀ r ∈ (c.procs t).held, (r, t) ∈ c.store.locks := by
  refine Run.invariant (I := fun s => Locks.Exclusive s.locks)
    (J := fun t s p => ∀ r ∈ p.held, (r, t) ∈ s.locks) (K := fun _ => True)
    (fun _ _ => trivial) ?_ ?_ ?_ h
  · exact ⟨Locks.exclusive_nil, by simp [initial, Proc.held]⟩
  · intro c t a s' p' _ _ hex hheld hnext
    obtain ⟨hstep, hown⟩ := next_locks (hheld t) hnext
    exact ⟨hstep.exclusive hex, hown⟩
  · intro c t a s' p' u _ _ _ hheld hnext hut r hr
    exact ((next_locks (hheld t) hnext).1.others hut).mpr (hheld u r hr)

end OrderSystem.Delivery
