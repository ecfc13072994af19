/-
The global cap on unfinished business.

* `reading`: what `countUnfinishedBusiness` sees of `partner_effect` is there: the
  snapshot of a transaction shows deliveries that have been recorded.
* `Effect.count`: a step raises the count by at most one, and only with the commit
  of a transaction that went through `requireBusinessCapacity`. A confirmation
  turns a pending order into an open request.
* `Proc.admits`: what a transaction has seen of the count since it took the capacity
  row; nobody else can raise it meanwhile.
* `unfinished_business_capped`: at most 200 pending orders and open requests.
-/
import OrderSystem.Pipeline.NoLoss

namespace OrderSystem.Pipeline

open Interleaving Orders

variable {t u : ℕ} {s s' : Orders.Store} {p p' : Orders.Proc} {D D' : List String}

/-! ### The count -/

lemma count_eq (db : Orders.Db) (D : List String) :
    db.countUnfinishedBusiness D = db.orders.countP (fun o => o.status = .pending) +
      db.outbox.countP (fun r => r.topic = .partnerRequests ∧ r.eventId ∉ D) := by
  rw [Db.countUnfinishedBusiness, List.countP_eq_length_filter, List.countP_eq_length_filter]

/-- More deliveries, less unfinished business. -/
lemma count_antitone (db : Orders.Db) (h : D ⊆ D') :
    db.countUnfinishedBusiness D' ≤ db.countUnfinishedBusiness D := by
  rw [count_eq, count_eq]
  refine Nat.add_le_add_left (List.countP_mono_left fun r _ hr => ?_) _
  simp only [decide_eq_true_eq] at hr ⊢
  exact ⟨hr.1, fun hid => hr.2 (h hid)⟩

lemma countP_markSent (db : Orders.Db) (ids : List ℕ) (time : ℤ) (D : List String) :
    (db.markSent ids time).outbox.countP (fun r => r.topic = .partnerRequests ∧ r.eventId ∉ D) =
      db.outbox.countP (fun r => r.topic = .partnerRequests ∧ r.eventId ∉ D) := by
  rw [Db.markSent, List.countP_map]
  refine List.countP_congr fun r _ => ?_
  simp only [Function.comp_apply]
  split_ifs <;> rfl

/-- An order that leaves `PENDING` is one less, every other update keeps the number of
pending orders. -/
lemma countP_pending_put {orders : List Order} {old o : Order}
    (hids : Table.Unique Order.orderId orders) (hold : old ∈ orders)
    (hid : old.orderId = o.orderId) (ho : o.status ≠ .pending) :
    (Table.put Order.orderId o orders).countP (fun o => o.status = .pending) +
      (if old.status = .pending then 1 else 0) =
        orders.countP (fun o => o.status = .pending) := by
  have h := Table.countP_put hids hold hid (fun o => decide (o.status = .pending))
  simpa [ho] using h

/-- The status after a published operation. -/
lemma prepared_status {old o : Order} {operation : Operation} {drawn : Bool}
    (h : Prepared old operation drawn o) :
    o.status ≠ .pending ∧ (operation = .create → old.status = .pending) := by
  have hop : ∀ {x : Order}, Operates old operation x →
      x.status ≠ .pending ∧ (operation = .create → old.status = .pending) := by
    intro x hx
    cases hx with
    | create hpending => exact ⟨by simp, fun _ => hpending⟩
    | change hconfirmed => exact ⟨by simp [hconfirmed], fun h => by cases h⟩
    | cancel => exact ⟨by simp, fun h => by cases h⟩
  cases h with
  | operated h => exact hop h
  | drawn h =>
      obtain ⟨hstatus, hcreate⟩ := hop h
      exact ⟨hstatus, hcreate⟩

/-- **What a step does to the count.** -/
lemma Effect.count (h : Orders.Effect t s p s') (hs : Orders.Sound s) (D : List String) :
    s'.db.countUnfinishedBusiness D ≤ s.db.countUnfinishedBusiness D ∨
      ∃ tx row, p = .inside tx (.commit row) ∧ tx.checksBusiness = true ∧
        Locks.Mine s.locks t .capacity ∧
        s'.db.countUnfinishedBusiness D ≤ s.db.countUnfinishedBusiness D + 1 := by
  rw [count_eq, count_eq]
  cases h with
  | @create o row locks hp hk hcap =>
      refine Or.inr ⟨_, row, hp, rfl, hcap, ?_⟩
      subst hp
      have htopic : row.topic ≠ .partnerRequests := by
        rw [show row = _ from hk.2.2]
        simp [OutboxRow.ofOrder]
      rw [Db.insertOrder_orders, Db.insertOrder_outbox, List.countP_append, List.countP_append,
        List.countP_singleton, List.countP_singleton]
      simp only [htopic, false_and, decide_false, Bool.false_eq_true, if_false]
      split_ifs <;> omega
  | @enqueue o operation row locks hp hk hcap hmine =>
      have hp' := hp
      subst hp
      obtain ⟨⟨old, hold, hprep⟩, -⟩ := hk
      obtain ⟨hstatus, hcreate⟩ := prepared_status hprep
      have hput := countP_pending_put hs.orderIds (mem_of_order hold) hprep.orderId.symm hstatus
      have hone : List.countP (fun r => decide (r.topic = .partnerRequests ∧ r.eventId ∉ D))
          [row] ≤ 1 := by
        rw [List.countP_singleton]
        split_ifs <;> omega
      rw [Db.enqueue_orders, Db.enqueue_outbox, List.countP_append]
      by_cases hop : operation = .create
      · -- a pending order becomes an open request
        rw [if_pos (hcreate hop)] at hput
        exact Or.inl (by omega)
      · refine Or.inr ⟨_, row, hp', by simp [Tx.checksBusiness, hop], hcap, ?_⟩
        omega
  | @cancel o locks hp hk hmine =>
      subst hp
      obtain ⟨old, hold, hpending, rfl⟩ := hk
      have hput := countP_pending_put (o := { old with status := .cancelled }) hs.orderIds
        (mem_of_order hold) rfl (by simp)
      rw [Db.updateOrder_orders, Db.updateOrder_outbox]
      exact Or.inl (by omega)
  | markSent time hp =>
      rw [countP_markSent]
      exact Or.inl le_rfl
  | purge hp hsent =>
      exact Or.inl (Nat.add_le_add_left List.filter_sublist.countP_le _)
  | _ => exact Or.inl le_rfl

/-- Nobody else raises the count while the capacity row is locked. -/
lemma Effect.count_capacity (h : Orders.Effect t s p s') (hs : Orders.Sound s)
    (hlock : (.capacity, u) ∈ s.locks) (hut : u ≠ t) (D : List String) :
    s'.db.countUnfinishedBusiness D ≤ s.db.countUnfinishedBusiness D := by
  rcases Effect.count h hs D with h | ⟨_, _, -, -, hcap, -⟩
  · exact h
  · exact absurd rfl (hcap.ne hlock hut)

/-! ### What a transaction has seen -/

/-- The event ids in `partner_effect`. -/
def effectIds (db : Partner.Db) : List String :=
  db.partnerEffect.map (·.eventId)

lemma mem_effectIds {db : Partner.Db} {id : String} : id ∈ effectIds db ↔ db.isDelivered id := by
  simp [effectIds, Partner.Db.isDelivered]

/-- The count a transaction has seen still bounds the count. -/
def admits (db : Orders.Db) (D : List String) : Orders.Proc → Prop
  | .inside _ (.countBusiness view) =>
      ∀ D, db.countUnfinishedBusiness D ≤ view.countUnfinishedBusiness D
  | .inside _ .saveOrder => db.countUnfinishedBusiness D < 200
  | .inside tx .saveOutbox | .inside tx (.commit _) =>
      tx.checksBusiness = true → db.countUnfinishedBusiness D < 200
  | _ => True

lemma admits_mono {db db' : Orders.Db} {q : Orders.Proc} (hq : admits db D q)
    (hle : ∀ D, db'.countUnfinishedBusiness D ≤ db.countUnfinishedBusiness D) (hD : D ⊆ D') :
    admits db' D' q := by
  have hlt : db.countUnfinishedBusiness D < 200 → db'.countUnfinishedBusiness D' < 200 :=
    fun h => lt_of_le_of_lt ((count_antitone db' hD).trans (hle D)) h
  cases q with
  | inside tx pc =>
      cases pc with
      | countBusiness view => exact fun D => (hle D).trans (hq D)
      | saveOrder => exact hlt hq
      | saveOutbox => exact fun h => hlt (hq h)
      | commit row => exact fun h => hlt (hq h)
      | _ => trivial
  | _ => trivial

/-- A transaction past its first statement holds the capacity row. -/
lemma capacity_of_admits {q : Orders.Proc} (hcap : .capacity ∉ q.held) : admits s.db D q := by
  cases q with
  | inside tx pc =>
      cases pc with
      | lockCapacity => trivial
      | _ => exact absurd (by simp [Orders.Proc.held]) hcap
  | _ => trivial

lemma admits_afterChecks {db : Orders.Db} {tx : Tx}
    (h : tx.checksBusiness = true → db.countUnfinishedBusiness D < 200) :
    admits db D (.inside tx tx.afterChecks) := by
  cases tx with
  | create o => exact h rfl
  | enqueue o operation => exact h

lemma txNext_admits {tx : Tx} {uuid : String} {time : ℤ} {delivered : List String} {pc : TxPc}
    (hdelivered : delivered ⊆ D) (hq : admits s.db D (.inside tx pc))
    (h : txNext t s tx uuid time delivered pc = some (s', p')) : admits s'.db D p' := by
  cases pc with
  | lockCapacity =>
      simp only [txNext, refuse] at h
      split_ifs at h <;> cases h <;> trivial
  | countOutbox =>
      simp only [txNext, refuse] at h
      split_ifs at h with hfull hcheck <;> cases h
      · trivial
      · exact fun _ => le_rfl
      · exact admits_afterChecks fun hb => absurd hb hcheck
  | countBusiness view =>
      simp only [txNext, refuse] at h
      split_ifs at h with hfull <;> cases h
      · trivial
      · refine admits_afterChecks fun _ => ?_
        calc s.db.countUnfinishedBusiness D
            ≤ s.db.countUnfinishedBusiness delivered := count_antitone _ hdelivered
          _ ≤ view.countUnfinishedBusiness delivered := hq delivered
          _ < 200 := not_le.mp hfull
  | saveOrder =>
      simp only [txNext] at h
      split at h <;> cases h
      exact fun _ => hq
  | saveOutbox =>
      simp only [txNext] at h
      split_ifs at h
      · cases tx <;> cases h <;> exact hq
      · cases h
        trivial
  | commit row =>
      simp only [txNext] at h
      split at h <;> cases h <;> trivial

/-- What a process has seen after its own step. -/
lemma next_admits {a : Orders.Act} (hread : ∀ uuid time delivered, a = .go uuid time delivered →
      delivered ⊆ D) (hq : admits s.db D p) (h : Orders.next t s p a = some (s', p')) :
    admits s'.db D p' := by
  cases next_move h with
  | inside h => exact txNext_admits (hread _ _ _ rfl) hq h
  | mutate h =>
      obtain ⟨_, h⟩ | ⟨_, _, -, -, -, -, -, rfl⟩ := mutateNext_cases h
      · cases h
        trivial
      · trivial
  | handle h =>
      obtain ⟨-, rfl⟩ | ⟨_, _, -, -, -, ⟨-, -, rfl⟩ | ⟨-, -, rfl⟩⟩ := handleNext_cases h <;> trivial
  | relaying h =>
      unfold relayNext at h
      split at h <;> try split_ifs at h
      all_goals (cases h; trivial)
  | _ => trivial

/-! ### Every run -/

/-- A statement of order-service reads deliveries that are recorded. -/
def reading (c : State) (_ : ℕ) : Orders.Act ⊕ Partner.Act → Prop
  | .inl (.go _ _ delivered) => delivered ⊆ effectIds c.snd.store.db
  | _ => True

instance (c : State) (t : ℕ) (a : Orders.Act ⊕ Partner.Act) : Decidable (reading c t a) :=
  match a with
  | .inl (.go _ _ delivered) => inferInstanceAs (Decidable (delivered ⊆ effectIds c.snd.store.db))
  | .inl (.createOrder _) | .inl (.change _ _) | .inl (.cancel _) | .inl (.deliver _) | .inl .relay
  | .inl .fail | .inl (.append _ _) | .inl (.purge _ _) | .inl .abort | .inr _ => isTrue trivial

variable {partition : String → ℕ} {c : State}

/-- What a step of the two services is to each of them. -/
lemma pipeline_step (h : Run (pipeline partition) reading initial c)
    {a : Orders.Act ⊕ Partner.Act} {x : Orders.Store × Partner.Store}
    {q : Orders.Proc × Partner.Proc}
    (hnext : (pipeline partition).next t c.store (c.procs t) a = some (x, q)) :
    effectIds c.store.2.db ⊆ effectIds x.2.db ∧
      ((x.1 = c.store.1 ∧ q.1 = (c.procs t).1) ∨ ∃ b, a = .inl b ∧
        Orders.next t c.store.1 (c.procs t).1 b = some (x.1, q.1)) := by
  have hmono : ∀ b, Partner.next t c.store.2 (c.procs t).2 b = some (x.2, q.2) →
      effectIds c.store.2.db ⊆ effectIds x.2.db := by
    intro b hb id hid
    have hrun : Run Partner.service (fun _ _ _ => True) Partner.initial c.snd :=
      h.snd (fun _ _ _ _ _ _ => trivial) fun _ _ _ _ => trivial
    exact mem_effectIds.mpr ((Partner.reachable_effect hrun hb).isDelivered (mem_effectIds.mp hid))
  cases a with
  | inl b =>
      obtain ⟨hb, hsync⟩ := Program.couple_inl hnext
      refine ⟨?_, Or.inr ⟨b, rfl, hb⟩⟩
      rcases hsync with ⟨-, hs, -⟩ | ⟨b', -, hb'⟩
      · rw [hs]
        exact List.Subset.refl _
      · exact hmono b' hb'
  | inr b =>
      obtain ⟨hb, hs, hp⟩ := Program.couple_inr hnext
      exact ⟨hmono b hb, Or.inl ⟨hs, hp⟩⟩

/-- **Global unfinished-business cap.** In every reachable state of order-service and
the partner service the number of `PENDING` orders plus the number of partner
requests in the outbox without a row in `partner_effect` is at most 200. -/
theorem unfinished_business_capped (h : Run (pipeline partition) reading initial c) :
    c.fst.store.db.countUnfinishedBusiness (effectIds c.snd.store.db) ≤ 200 := by
  have horders : ∀ c, Run (pipeline partition) reading initial c →
      Run Orders.service (fun _ _ _ => True) Orders.initial c.fst :=
    fun c h => h.fst fun _ _ _ _ => trivial
  refine (Run.invariant (I := fun s => s.1.db.countUnfinishedBusiness (effectIds s.2.db) ≤ 200)
    (J := fun _ s p => admits s.1.db (effectIds s.2.db) p.1)
    (K := fun c => Run (pipeline partition) reading initial c) (fun _ h => h) ?_ ?_ ?_ h).1
  · exact ⟨by decide, fun _ => trivial⟩
  · intro c t a x q hrun hok hcap hq hnext
    obtain ⟨hD, ⟨hs, hp⟩ | ⟨b, rfl, hb⟩⟩ := pipeline_step hrun hnext
    · rw [hs, hp]
      exact ⟨(count_antitone _ hD).trans hcap, admits_mono (hq t) (fun _ => le_rfl) hD⟩
    · have heff := reachable_effect (horders c hrun) hb
      have hsound := (reachable_sound (horders c hrun)).1
      refine ⟨(count_antitone _ hD).trans ?_, admits_mono (next_admits ?_ (hq t) hb)
        (fun _ => le_rfl) hD⟩
      · rcases Effect.count heff hsound (effectIds c.store.2.db) with hle | ⟨tx, row, hp, hb, -, hle⟩
        · exact hle.trans hcap
        · -- the transaction that commits has seen fewer than 200
          have hlt : admits c.store.1.db (effectIds c.store.2.db) (.inside tx (.commit row)) := by
            rw [← hp]
            exact hq t
          exact hle.trans (hlt hb)
      · rintro uuid time delivered rfl
        exact hok
  · intro c t a x q u hrun hok hcap hq hnext hut
    obtain ⟨hD, ⟨hs, -⟩ | ⟨b, rfl, hb⟩⟩ := pipeline_step hrun hnext
    · rw [hs]
      exact admits_mono (hq u) (fun _ => le_rfl) hD
    · by_cases hheld : .capacity ∈ (c.procs u).1.held
      · have hlock := (reachable_locks (horders c hrun)).2 u _ hheld
        exact admits_mono (hq u) (fun D => Effect.count_capacity
          (reachable_effect (horders c hrun) hb) (reachable_sound (horders c hrun)).1 hlock hut D) hD
      · exact capacity_of_admits hheld

/-- One order is created and confirmed, another one is created. -/
theorem unfinished_business_of_two_orders :
    ∃ c, Run (pipeline fun _ => 0) reading initial c ∧
      c.fst.store.db.orders.map (·.status) = [.confirmed, .pending] ∧
      c.fst.store.db.countUnfinishedBusiness (effectIds c.snd.store.db) ≤ 200 := by
  obtain ⟨c, hrun, hc⟩ := Run.exists_of_exec (pipeline fun _ => 0) reading initial
    (((1, .createOrder sampleRequest) :: statements 1 7 'a' ++
      (1, .deliver ⟨"r", 1, .updated⟩) :: statements 1 6 'b' ++
      (2, .createOrder sampleRequest) :: statements 2 7 'c').map fun x => (x.1, .inl x.2))
    (fun c => c.fst.store.db.orders.map (·.status)) [.confirmed, .pending] (by decide +kernel)
  exact ⟨c, hrun, hc, unfinished_business_capped hrun⟩

end OrderSystem.Pipeline
