/-
What one step of order-service does to the shared state.

* `Proc.held`: the locks a process relies on; `reachable_locks`: they are its own.
* `Operates`: the transitions of an order a transaction may be about to commit.
* `Proc.knows`: what a process may rely on because of its locks. The order it
  changes is the committed one, and there is room in the outbox.
* `Effect`: every change of the store a step can make. `reachable_effect` is the
  inversion of `next` that the invariants are derived from.
-/
import OrderSystem.Orders.Workers

namespace OrderSystem.Orders

open Interleaving

variable {t u : ℕ} {s s' : Store} {p p' : Proc} {a : Act}

/-! ### Moves -/

/-- The kinds of steps a process can take. -/
inductive Move (t : ℕ) (s : Store) : Proc → Act → Store → Proc → Prop
  | abort (p : Proc) : Move t s p .abort (s.unlock t) .idle
  | badRequest (a : Act) (body : Option String) :
      Move t s .idle a s (.answered (.badRequest body))
  | createOrder {request : CreateOrderRequest} (h : request.isInvalid = false) :
      Move t s .idle (.createOrder request) s (.inside (.create request.toOrder) .lockCapacity)
  | change (id : ℤ) {request : ChangeRequest} (h : request.isInvalid = false) :
      Move t s .idle (.change id request) s (.mutating id request.quantity request.price false)
  | cancel (id : ℤ) : Move t s .idle (.cancel id) s (.mutating id 0 ⟨0⟩ true)
  | deliver (event : StockEvent) : Move t s .idle (.deliver event) s (.handling event)
  | relay : Move t s .idle .relay s (.relaying (.sending s.db.findTop500Pending []))
  | append {n : ℕ} {lost : Bool} {s' : Store} (h : append s n lost = some s') :
      Move t s .idle (.append n lost) s' .idle
  | mutate {id quantity : ℤ} {price : Double} {cancel : Bool} {uuid : String} {time : ℤ}
      {delivered : List String} {s' : Store} {p' : Proc}
      (h : mutateNext t s id quantity price cancel = some (s', p')) :
      Move t s (.mutating id quantity price cancel) (.go uuid time delivered) s' p'
  | handle {event : StockEvent} {uuid : String} {time : ℤ} {delivered : List String}
      {s' : Store} {p' : Proc} (h : handleNext t s event = some (s', p')) :
      Move t s (.handling event) (.go uuid time delivered) s' p'
  | inside {tx : Tx} {pc : TxPc} {uuid : String} {time : ℤ} {delivered : List String}
      {s' : Store} {p' : Proc} (h : txNext t s tx uuid time delivered pc = some (s', p')) :
      Move t s (.inside tx pc) (.go uuid time delivered) s' p'
  | cancelling (o : Order) (uuid : String) (time : ℤ) (delivered : List String) :
      Move t s (.cancelling o) (.go uuid time delivered)
        ({ s with db := s.db.updateOrder o }.unlock t) (.answered (.ok o))
  | answered (result : Result) (uuid : String) (time : ℤ) (delivered : List String) :
      Move t s (.answered result) (.go uuid time delivered) s .idle
  | relaying {pc : RelayPc} {uuid : String} {time : ℤ} {delivered : List String}
      {s' : Store} {p' : Proc} (h : relayNext s time pc = some (s', p')) :
      Move t s (.relaying pc) (.go uuid time delivered) s' p'
  | sendFailed (todo : List OutboxRow) (sends : List (ℕ × OutboxRow)) :
      Move t s (.relaying (.sending todo sends)) .fail s (.relaying (.awaiting sends []))
  | answerFailed (sends : List (ℕ × OutboxRow)) (sent : List ℕ) :
      Move t s (.relaying (.awaiting sends sent)) .fail s (.relaying (.marking sent))
  | purge {before : ℤ} {ids : List ℕ} {s' : Store} (h : purgeSent s before ids = some s') :
      Move t s (.relaying .purging) (.purge before ids) s' .idle

/-- **The inversion of `next`**: every step is one of the moves. -/
theorem next_move (h : next t s p a = some (s', p')) : Move t s p a s' p' := by
  cases a with
  | abort =>
      cases h
      exact .abort p
  | createOrder request =>
      cases p <;> try cases h
      simp only [next] at h
      split_ifs at h with hinvalid <;> cases h
      · exact .badRequest _ _
      · exact .createOrder (by simpa using hinvalid)
  | change id request =>
      cases p <;> try cases h
      simp only [next] at h
      split_ifs at h with hinvalid <;> cases h
      · exact .badRequest _ _
      · exact .change id (by simpa using hinvalid)
  | cancel id =>
      cases p <;> cases h
      exact .cancel id
  | deliver event =>
      cases p <;> cases h
      exact .deliver event
  | relay =>
      cases p <;> cases h
      exact .relay
  | append n lost =>
      cases p <;> try cases h
      obtain ⟨s₁, happend, h⟩ := Option.map_eq_some_iff.mp h
      cases h
      exact .append happend
  | go uuid time delivered =>
      cases p with
      | idle => cases h
      | mutating id quantity price cancel => exact .mutate h
      | handling event => exact .handle h
      | inside tx pc => exact .inside h
      | cancelling o =>
          cases h
          exact .cancelling o uuid time delivered
      | answered result =>
          cases h
          exact .answered result uuid time delivered
      | relaying pc => exact .relaying h
  | fail =>
      cases p with
      | relaying pc =>
          cases pc <;> cases h
          · exact .sendFailed _ _
          · exact .answerFailed _ _
      | _ => cases h
  | purge before ids =>
      cases p with
      | relaying pc =>
          cases pc <;> try cases h
          obtain ⟨s₁, hpurge, h⟩ := Option.map_eq_some_iff.mp h
          cases h
          exact .purge hpurge
      | _ => cases h

/-- The broker appends a record that was sent. -/
lemma append_cases {n : ℕ} {lost : Bool} (h : append s n lost = some s') :
    ∃ r, (n, r) ∈ s.inFlight ∧
      s' = { s with inFlight := s.inFlight.filter fun x => x.1 ≠ n
                    broker := s.broker ++ [r]
                    acked := if lost then s.acked else s.acked ++ [n] } := by
  unfold append at h
  split at h
  · cases h
  · next r hr =>
      cases h
      obtain ⟨l₁, l₂, hl, -⟩ := List.lookup_eq_some_iff.mp hr
      exact ⟨r, by rw [hl]; simp, rfl⟩

/-- Only `SENT` rows are purged. -/
lemma purgeSent_cases {before : ℤ} {ids : List ℕ} (h : purgeSent s before ids = some s') :
    (∀ r ∈ s.db.outbox, r.id ∈ ids → r.status = .sent) ∧
      s' = { s with db := s.db.deleteSent ids } := by
  unfold purgeSent at h
  split_ifs at h with hok
  cases h
  exact ⟨fun r hr hid => (hok.2 r hr hid).1, rfl⟩

/-! ### Locks -/

/-- The order row a transaction has locked. -/
def Tx.held : Tx → List Resource
  | .create _ => []
  | .enqueue o _ => [.order o.orderId]

/-- The locks a process relies on. -/
def Proc.held : Proc → List Resource
  | .inside tx .lockCapacity => tx.held
  | .inside tx _ => .capacity :: tx.held
  | .cancelling o => [.order o.orderId]
  | _ => []

lemma mine_of_canLock {r : Resource} (h : s.canLock t r = true) : Locks.Mine s.locks t r := by
  intro u hu
  exact Locks.available_iff.mp h r u hu (by simp)

/-- Taking one lock keeps the others. -/
lemma kept_lock {r : Resource} (hcan : s.canLock t r = true)
    (hp : ∀ x ∈ p'.held, x = r ∨ (x, t) ∈ s.locks) :
    Locks.Kept t s.locks (s.lock t r).locks p'.held := by
  refine Locks.kept_take [r] ?_ rfl fun x hx => (hp x hx).imp_left (by simp)
  intro x hx
  rw [List.mem_singleton.mp hx]
  exact mine_of_canLock hcan

lemma held_refuse {message : String} (h : refuse t s message = some (s', p')) :
    Locks.Kept t s.locks s'.locks p'.held := by
  cases h
  exact Locks.kept_drop rfl rfl

lemma held_afterChecks (tx : Tx) :
    (Proc.inside tx tx.afterChecks).held = .capacity :: tx.held := by
  cases tx <;> rfl

lemma txNext_locks {tx : Tx} {uuid : String} {time : ℤ} {delivered : List String} {pc : TxPc}
    (hheld : ∀ r ∈ (Proc.inside tx pc).held, (r, t) ∈ s.locks)
    (h : txNext t s tx uuid time delivered pc = some (s', p')) :
    Locks.Kept t s.locks s'.locks p'.held := by
  cases pc with
  | lockCapacity =>
      simp only [txNext] at h
      split_ifs at h with hcan hrow
      · cases h
        exact kept_lock hcan fun x hx => (List.mem_cons.mp hx).imp_right (hheld x)
      · exact held_refuse h
  | countOutbox =>
      simp only [txNext] at h
      split_ifs at h with hfull hcheck
      · exact held_refuse h
      · cases h
        exact Locks.kept_same rfl hheld
      · cases h
        exact Locks.kept_same rfl (by rwa [held_afterChecks])
  | countBusiness view =>
      simp only [txNext] at h
      split_ifs at h
      · exact held_refuse h
      · cases h
        exact Locks.kept_same rfl (by rwa [held_afterChecks])
  | saveOrder =>
      simp only [txNext] at h
      split at h <;> cases h
      exact Locks.kept_same rfl hheld
  | saveOutbox =>
      simp only [txNext] at h
      split_ifs at h
      · split at h <;> cases h <;> exact Locks.kept_same rfl hheld
      · cases h
        exact Locks.kept_drop rfl rfl
  | commit row =>
      simp only [txNext] at h
      split at h <;> cases h <;> exact Locks.kept_drop rfl rfl

/-- The transitions keep the key of the order. -/
lemma orderId_transitionTo {target : OrderStatus} {o o' : Order}
    (h : o.transitionTo target = some o') : o'.orderId = o.orderId := by
  simp only [Order.transitionTo] at h
  split_ifs at h
  cases h
  rfl

/-- The transition `mutate` asks for. -/
def Order.mutate (quantity : ℤ) (price : Double) (cancel : Bool) (o : Order) : Option Order :=
  if cancel then o.cancelForPartner else o.changeForPartner quantity price

lemma orderId_mutate {quantity : ℤ} {price : Double} {cancel : Bool} {o o' : Order}
    (h : o.mutate quantity price cancel = some o') : o'.orderId = o.orderId := by
  simp only [Order.mutate, Order.cancelForPartner, Order.changeForPartner] at h
  split_ifs at h <;> cases h <;> rfl

lemma orderId_of_order {db : Db} {id : ℤ} {o : Order} (h : db.order id = some o) :
    o.orderId = id :=
  Table.key_of_get h

/-- What `mutate` does before `enqueuePartner`: it is refused, or it has locked an
order that takes the transition. -/
lemma mutateNext_cases {id quantity : ℤ} {price : Double} {cancel : Bool}
    (h : mutateNext t s id quantity price cancel = some (s', p')) :
    (∃ message, refuse t s message = some (s', p')) ∨
      ∃ o o', s.canLock t (.order id) = true ∧ s.db.order id = some o ∧ o.partnerSequence ≠ 0 ∧
        o.mutate quantity price cancel = some o' ∧ s' = s.lock t (.order id) ∧
        p' = .inside (.enqueue o' (if cancel then .cancel else .change)) .lockCapacity := by
  rw [mutateNext] at h
  by_cases hcan : s.canLock t (.order id) = true
  · rw [if_pos hcan] at h
    cases ho : s.db.order id with
    | none =>
        rw [ho] at h
        exact Or.inl ⟨_, h⟩
    | some o =>
        simp only [ho] at h
        by_cases hseq : o.partnerSequence = 0
        · rw [if_pos hseq] at h
          exact Or.inl ⟨_, h⟩
        · rw [if_neg hseq] at h
          cases ho' : o.mutate quantity price cancel with
          | none =>
              rw [Order.mutate] at ho'
              rw [ho'] at h
              exact Or.inl ⟨_, h⟩
          | some o' =>
              rw [Order.mutate] at ho'
              rw [ho'] at h
              cases h
              exact Or.inr ⟨o, o', hcan, rfl, hseq, ho', rfl, rfl⟩
  · rw [if_neg hcan] at h
    cases h

lemma mutateNext_locks {id quantity : ℤ} {price : Double} {cancel : Bool}
    (h : mutateNext t s id quantity price cancel = some (s', p')) :
    Locks.Kept t s.locks s'.locks p'.held := by
  obtain ⟨_, h⟩ | ⟨o, o', hcan, ho, -, ho', rfl, rfl⟩ := mutateNext_cases h
  · exact held_refuse h
  · refine kept_lock hcan fun x hx => Or.inl ?_
    rw [List.mem_singleton.mp hx, orderId_mutate ho', orderId_of_order ho]

/-- What a stock listener does first: it skips the event, or it has locked a pending
order that it confirms or cancels. -/
lemma handleNext_cases {event : StockEvent} (h : handleNext t s event = some (s', p')) :
    (s' = s.unlock t ∧ p' = .answered .skipped) ∨
      ∃ o o', s.canLock t (.order event.orderId) = true ∧
        s.db.order event.orderId = some o ∧ s' = s.lock t (.order event.orderId) ∧
        ((event.result = .updated ∧ o.confirm = some o' ∧
            p' = .inside (.enqueue o' .create) .lockCapacity) ∨
          (event.result ≠ .updated ∧ o.cancel = some o' ∧ p' = .cancelling o')) := by
  rw [handleNext] at h
  by_cases hcan : s.canLock t (.order event.orderId) = true
  · rw [if_pos hcan] at h
    cases ho : s.db.order event.orderId with
    | none =>
        rw [ho] at h
        cases h
        exact Or.inl ⟨rfl, rfl⟩
    | some o =>
        simp only [ho] at h
        cases hr : event.result with
        | updated =>
            simp only [hr] at h
            split at h
            · next o' ho' =>
                cases h
                exact Or.inr ⟨o, o', hcan, rfl, rfl, Or.inl ⟨rfl, ho', rfl⟩⟩
            · cases h
              exact Or.inl ⟨rfl, rfl⟩
        | failed reason =>
            simp only [hr] at h
            split at h
            · next o' ho' =>
                cases h
                exact Or.inr ⟨o, o', hcan, rfl, rfl, Or.inr ⟨by simp, ho', rfl⟩⟩
            · cases h
              exact Or.inl ⟨rfl, rfl⟩
  · rw [if_neg hcan] at h
    cases h

lemma handleNext_locks {event : StockEvent} (h : handleNext t s event = some (s', p')) :
    Locks.Kept t s.locks s'.locks p'.held := by
  obtain ⟨rfl, rfl⟩ | ⟨o, o', hcan, ho, rfl, ⟨-, ho', rfl⟩ | ⟨-, ho', rfl⟩⟩ := handleNext_cases h
  · exact Locks.kept_drop rfl rfl
  · refine kept_lock hcan fun x hx => Or.inl ?_
    rw [List.mem_singleton.mp hx, orderId_transitionTo ho', orderId_of_order ho]
  · refine kept_lock hcan fun x hx => Or.inl ?_
    rw [List.mem_singleton.mp hx, orderId_transitionTo ho', orderId_of_order ho]

lemma relayNext_locks {time : ℤ} {pc : RelayPc} (h : relayNext s time pc = some (s', p')) :
    s'.locks = s.locks ∧ p'.held = [] := by
  unfold relayNext at h
  split at h <;> try split_ifs at h
  all_goals (cases h; exact ⟨rfl, rfl⟩)

/-- **Locks are taken one holder at a time and kept.** -/
lemma next_locks (hheld : ∀ r ∈ p.held, (r, t) ∈ s.locks)
    (h : next t s p a = some (s', p')) : Locks.Kept t s.locks s'.locks p'.held := by
  cases next_move h with
  | abort p => exact Locks.kept_drop rfl rfl
  | mutate h => exact mutateNext_locks h
  | handle h => exact handleNext_locks h
  | inside h => exact txNext_locks hheld h
  | cancelling o uuid time delivered => exact Locks.kept_drop rfl rfl
  | relaying h =>
      obtain ⟨hl, hp⟩ := relayNext_locks h
      exact Locks.kept_same hl (by simp [hp])
  | append happend =>
      obtain ⟨r, -, rfl⟩ := append_cases happend
      exact Locks.kept_same rfl (by simp [Proc.held])
  | purge hpurge =>
      obtain ⟨-, rfl⟩ := purgeSent_cases hpurge
      exact Locks.kept_same rfl (by simp [Proc.held])
  | _ => exact Locks.kept_same rfl (by simp [Proc.held, Tx.held])

/-- In every run the locks are exclusive, and every process owns the locks it
relies on. -/
theorem reachable_locks {ok : Config Store Proc → ℕ → Act → Prop} {c : Config Store Proc}
    (h : Run service ok initial c) :
    Locks.Exclusive c.store.locks ∧ ∀ t, ∀ r ∈ (c.procs t).held, (r, t) ∈ c.store.locks := by
  refine Run.invariant (I := fun s => Locks.Exclusive s.locks)
    (J := fun t s p => ∀ r ∈ p.held, (r, t) ∈ s.locks) (K := fun _ => True)
    (fun _ _ => trivial) ?_ ?_ ?_ h
  · exact ⟨Locks.exclusive_nil, by simp [initial, Proc.held]⟩
  · intro c t a s' p' _ _ hex hheld hnext
    obtain ⟨hstep, hown⟩ := next_locks (hheld t) hnext
    exact ⟨hstep.exclusive hex, hown⟩
  · intro c t a s' p' u _ _ _ hheld hnext hut r hr
    exact ((next_locks (hheld t) hnext).1.others hut).mpr (hheld u r hr)

end OrderSystem.Orders
