/-
No notification is lost, and one is repeated only when its transaction did not commit.

* `Move`: what a step is; `next_move` inverts `next`.
* `Store.done`: the event has a history row or is a dead letter. `reachable_done`: what is below a
  committed offset is done, whatever fails, with rebalances and with consumers that were expired.
* `Balance`: the sends of an event are its history rows, the transactions that ended behind their
  send, and the one in progress. It holds while no partition is taken from a consumer that does not
  know it (`owned`), and then an event has one history row at most.
* `notifications_accounted`: both together.
-/
import OrderSystem.Foundations.Table
import OrderSystem.Notification.Consumers

namespace OrderSystem.Notices

open Interleaving

variable {idempotencyEnabled : Bool} {partition : StockEvent → ℕ} {E : StockEvent → Prop}
  {t u : ℕ} {s s' : Store} {p p' : Proc} {a : Act} {c : Config Store Proc} {e : StockEvent}

/-! ### Steps -/

/-- What a step of process `t` is. -/
inductive Move (idempotencyEnabled : Bool) (partition : StockEvent → ℕ) (t : ℕ) (s : Store) :
    Proc → Act → Store → Proc → Prop
  | publish (p : Proc) (e : StockEvent) :
      Move idempotencyEnabled partition t s p (.publish e) (s.publish (partition e) e) p
  | expire (p : Proc) (q : ℕ) :
      Move idempotencyEnabled partition t s p (.expire q) (s.assign q none) p
  | abort (p : Proc) :
      Move idempotencyEnabled partition t s p .abort ((s.rollback p).leave t) .idle
  | listen : Move idempotencyEnabled partition t s .idle .listen s (.consuming {})
  | assign (k : Consumer) (q : ℕ) (h : s.owner q = none) :
      Move idempotencyEnabled partition t s (.consuming k) (.assign q) (s.assign q (some t))
        (.consuming { k with positions := (q, s.committed q) :: k.positions })
  | revoke (k : Consumer) (q : ℕ) (h : s.owner q = some t) :
      Move idempotencyEnabled partition t s (.consuming k) (.revoke q) (s.assign q none)
        (.consuming { k with positions := k.positions.filter fun x => x.1 ≠ q })
  | forget (k : Consumer) (q : ℕ) :
      Move idempotencyEnabled partition t s (.consuming k) (.revoke q) s
        (.consuming { k with positions := k.positions.filter fun x => x.1 ≠ q })
  | acknowledge (k : Consumer) {q n : ℕ} (h : (q, n) ∈ k.positions) :
      Move idempotencyEnabled partition t s (.consuming k) (.commit q)
        { s with committed := Function.update s.committed q n } (.consuming k)
  | take (k : Consumer) {q n : ℕ} {e : StockEvent} (h : (q, n) ∈ k.positions)
      (he : (s.topic q)[n]? = some e) :
      Move idempotencyEnabled partition t s (.consuming k) (.take q) s
        (.listening ⟨k, q, n, e⟩ .existsByEventId)
  | known (r : Reading) (h : s.existsByEventId r.event.eventId) :
      Move idempotencyEnabled partition t s (.listening r .existsByEventId) .go s
        (.consuming r.advance)
  | unknown (r : Reading)
      (h : idempotencyEnabled = true → ¬ s.existsByEventId r.event.eventId) :
      Move idempotencyEnabled partition t s (.listening r .existsByEventId) .go s
        (.listening r .send)
  | send (r : Reading) :
      Move idempotencyEnabled partition t s (.listening r .send) .go
        { s with sent := s.sent ++ [.of r.event] } (.listening r .save)
  | save (r : Reading) :
      Move idempotencyEnabled partition t s (.listening r .save) .go s (.listening r .commit)
  | commit (r : Reading) :
      Move idempotencyEnabled partition t s (.listening r .commit) .go
        { s with history := s.history ++ [(Notice.of r.event).row] } (.consuming r.advance)
  | recover (r : Reading) :
      Move idempotencyEnabled partition t s (.listening r .recover) .go
        { s with deadLetters := s.deadLetters ++ [r.event] }
        (.consuming { r.reset with positions := r.advance.positions })
  | retry (r : Reading) (pc : Pc) :
      Move idempotencyEnabled partition t s (.listening r pc) .throw
        (s.rollback (.listening r pc)) (.consuming r.failed)
  | giveUp (r : Reading) (pc : Pc) :
      Move idempotencyEnabled partition t s (.listening r pc) .throw
        (s.rollback (.listening r pc)) (.listening { r with consumer := r.failed } .recover)
  | unpublished (r : Reading) :
      Move idempotencyEnabled partition t s (.listening r .recover) .throw s (.consuming r.reset)

lemma mem_of_lookup {l : List (ℕ × ℕ)} {q n : ℕ} (h : l.lookup q = some n) : (q, n) ∈ l := by
  obtain ⟨l₁, l₂, hl, -⟩ := List.lookup_eq_some_iff.mp h
  rw [hl]
  exact List.mem_append_right _ List.mem_cons_self

/-- **The inversion of `next`**: every step is one of the moves. -/
theorem next_move (h : next idempotencyEnabled partition t s p a = some (s', p')) :
    Move idempotencyEnabled partition t s p a s' p' := by
  cases a with
  | publish e =>
      cases h
      exact .publish p e
  | expire q =>
      cases h
      exact .expire p q
  | abort =>
      cases h
      exact .abort p
  | listen =>
      cases p <;> cases h
      exact .listen
  | assign q =>
      cases p with
      | consuming k =>
          simp only [next] at h
          split_ifs at h with hfree
          cases h
          exact .assign k q hfree
      | _ => cases h
  | revoke q =>
      cases p with
      | consuming k =>
          cases h
          split_ifs with howner
          · exact .revoke k q howner
          · exact .forget k q
      | _ => cases h
  | commit q =>
      cases p with
      | consuming k =>
          simp only [next] at h
          split_ifs at h with howner
          obtain ⟨n, hn, h⟩ := Option.map_eq_some_iff.mp h
          cases h
          exact .acknowledge k (mem_of_lookup hn)
      | _ => cases h
  | take q =>
      cases p with
      | consuming k =>
          obtain ⟨n, hn, h⟩ := Option.bind_eq_some_iff.mp h
          obtain ⟨e, he, h⟩ := Option.map_eq_some_iff.mp h
          cases h
          exact .take k (mem_of_lookup hn) he
      | _ => cases h
  | go =>
      cases p with
      | listening r pc =>
          cases pc with
          | existsByEventId =>
              simp only [next, listenNext] at h
              split_ifs at h with hexists
              · cases h
                exact .known r hexists.2
              · cases h
                exact .unknown r fun henabled hrow => hexists ⟨henabled, hrow⟩
          | send =>
              cases h
              exact .send r
          | save =>
              cases h
              exact .save r
          | commit =>
              cases h
              exact .commit r
          | recover =>
              cases h
              exact .recover r
      | _ => cases h
  | throw =>
      cases p with
      | listening r pc =>
          cases pc with
          | recover =>
              cases h
              exact .unpublished r
          | _ =>
              simp only [next, listenThrow] at h
              split_ifs at h
              · cases h
                exact .retry r _
              · cases h
                exact .giveUp r _
      | _ => cases h

/-! ### Nothing is lost -/

/-- The event has a history row, or it is a dead letter. -/
def Store.done (s : Store) (e : StockEvent) : Prop :=
  s.existsByEventId e.eventId ∨ e ∈ s.deadLetters

/-- The store only grows. -/
structure Later (s s' : Store) : Prop where
  topic : ∀ q, s.topic q <+: s'.topic q
  sent : s.sent ⊆ s'.sent
  history : s.history ⊆ s'.history
  deadLetters : s.deadLetters ⊆ s'.deadLetters

/-- A rollback is noted, and nothing else. -/
lemma rollback_eq : s.rollback p = { s with undone := (s.rollback p).undone } := by
  cases p with
  | listening r pc => cases pc <;> rfl
  | _ => rfl

@[simp] lemma rollback_topic : (s.rollback p).topic = s.topic := by
  rw [rollback_eq]

@[simp] lemma rollback_owner : (s.rollback p).owner = s.owner := by
  rw [rollback_eq]

@[simp] lemma rollback_committed : (s.rollback p).committed = s.committed := by
  rw [rollback_eq]

@[simp] lemma rollback_history : (s.rollback p).history = s.history := by
  rw [rollback_eq]

@[simp] lemma rollback_sent : (s.rollback p).sent = s.sent := by
  rw [rollback_eq]

@[simp] lemma rollback_deadLetters : (s.rollback p).deadLetters = s.deadLetters := by
  rw [rollback_eq]

lemma Move.later (h : Move idempotencyEnabled partition t s p a s' p') : Later s s' := by
  have hsame : ∀ q, s.topic q <+: s.topic q := fun q => List.prefix_refl _
  cases h with
  | publish p e =>
      exact ⟨Log.update_grows s.topic (partition e) [e], List.Subset.refl _, List.Subset.refl _,
        List.Subset.refl _⟩
  | abort p =>
      exact ⟨fun q => by simp [Store.leave], by simp [Store.leave], by simp [Store.leave],
        by simp [Store.leave]⟩
  | send r => exact ⟨hsame, List.subset_append_left _ _, List.Subset.refl _, List.Subset.refl _⟩
  | commit r => exact ⟨hsame, List.Subset.refl _, List.subset_append_left _ _, List.Subset.refl _⟩
  | recover r => exact ⟨hsame, List.Subset.refl _, List.Subset.refl _, List.subset_append_left _ _⟩
  | retry r pc => exact ⟨fun q => by simp, by simp, by simp, by simp⟩
  | giveUp r pc => exact ⟨fun q => by simp, by simp, by simp, by simp⟩
  | _ => exact ⟨hsame, List.Subset.refl _, List.Subset.refl _, List.Subset.refl _⟩

lemma Later.done (h : Later s s') (he : s.done e) : s'.done e := by
  refine he.imp ?_ (h.deadLetters ·)
  rintro ⟨x, hx, hid⟩
  exact ⟨x, h.history hx, hid⟩

/-- Behind the send of a listener call. -/
def Pc.sent : Pc → Bool
  | .save | .commit => true
  | _ => false

/-- What a process relies on. -/
def Proc.knows (s : Store) : Proc → Prop
  | .idle => True
  | .consuming k => Consumer.Settled s.done s.topic k.positions
  | .listening r pc =>
      Consumer.Settled s.done s.topic r.consumer.positions ∧
        Log.Behind s.done (s.topic r.partition) r.offset ∧
        (s.topic r.partition)[r.offset]? = some r.event ∧
        (pc.sent = true → Notice.of r.event ∈ s.sent)

/-- What is below a committed offset is done, and what is in the history was sent. -/
structure Sound (s : Store) : Prop where
  committed : ∀ q, Log.Behind s.done (s.topic q) (s.committed q)
  history : ∀ h ∈ s.history, ∃ m ∈ s.sent, m.row = h

lemma Later.knows (h : Later s s') (hp : p.knows s) : p.knows s' := by
  have hdone : ∀ e, s.done e → s'.done e := fun e he => h.done he
  cases p with
  | idle => trivial
  | consuming k => exact Consumer.Settled.later hp h.topic hdone
  | listening r pc =>
      obtain ⟨hpos, hbehind, hevent, hsent⟩ := hp
      refine ⟨hpos.later h.topic hdone, (hbehind.mono hdone).append (h.topic _), ?_,
        fun hpc => h.sent (hsent hpc)⟩
      obtain ⟨rest, hrest⟩ := h.topic r.partition
      have hlt := (List.getElem?_eq_some_iff.mp hevent).1
      rw [← hrest, List.getElem?_append_left hlt, hevent]

/-- The position behind a record that is done. -/
lemma settled_advance {r : Reading} {pc : Pc} (hp : (Proc.listening r pc).knows s)
    (hdone : s.done r.event) : Consumer.Settled s.done s.topic r.advance.positions := by
  obtain ⟨hpos, hbehind, hevent, -⟩ := hp
  intro x hx
  rcases List.mem_cons.mp hx with rfl | hx
  · have hlt : r.offset < (s.topic r.partition).length :=
      (List.getElem?_eq_some_iff.mp hevent).1
    refine ⟨hlt, fun y hy => ?_⟩
    rw [List.take_add_one, hevent] at hy
    rcases List.mem_append.mp hy with hy | hy
    · exact hbehind.2 y hy
    · rw [List.mem_singleton.mp hy]
      exact hdone
  · exact hpos x hx

/-- What a process relies on after its own step. -/
lemma Move.knows (h : Move idempotencyEnabled partition t s p a s' p') (hs : Sound s)
    (hp : p.knows s) : p'.knows s' := by
  have hp' := h.later.knows hp
  cases h with
  | publish p e => exact hp'
  | expire p q => exact hp'
  | abort p => trivial
  | listen =>
      intro x hx
      cases hx
  | assign k q hfree =>
      intro x hx
      rcases List.mem_cons.mp hx with rfl | hx
      · exact hs.committed q
      · exact hp x hx
  | revoke k q howner => exact fun x hx => hp' x (List.mem_filter.mp hx).1
  | forget k q => exact fun x hx => hp' x (List.mem_filter.mp hx).1
  | acknowledge k hmem => exact hp'
  | take k hmem he => exact ⟨hp, hp _ hmem, he, by simp [Pc.sent]⟩
  | known r hrow => exact settled_advance hp (Or.inl hrow)
  | unknown r hrow => exact ⟨hp.1, hp.2.1, hp.2.2.1, by simp [Pc.sent]⟩
  | send r => exact ⟨hp'.1, hp'.2.1, hp'.2.2.1, fun _ => by simp⟩
  | save r => exact hp
  | commit r => exact settled_advance hp' (Or.inl ⟨(Notice.of r.event).row, by simp, rfl⟩)
  | recover r => exact settled_advance hp' (Or.inr (by simp))
  | retry r pc => exact hp'.1
  | giveUp r pc => exact ⟨hp'.1, hp'.2.1, hp'.2.2.1, by simp [Pc.sent]⟩
  | unpublished r => exact hp.1

/-- **Every step keeps what is done.** -/
lemma Sound.step (hs : Sound s) (hp : p.knows s)
    (h : Move idempotencyEnabled partition t s p a s' p') :
    Sound s' := by
  have hlater := h.later
  have hkept : ∀ q, Log.Behind s'.done (s'.topic q) (s.committed q) := fun q =>
    ((hs.committed q).mono fun e he => hlater.done he).append (hlater.topic q)
  have hhistory : ∀ x ∈ s.history, ∃ m ∈ s'.sent, m.row = x := by
    intro x hx
    obtain ⟨m, hm, hrow⟩ := hs.history x hx
    exact ⟨m, hlater.sent hm, hrow⟩
  cases h with
  | @acknowledge k q n hmem =>
      refine ⟨fun q' => ?_, hhistory⟩
      show Log.Behind s.done (s.topic q') (Function.update s.committed q n q')
      by_cases hq : q' = q
      · subst hq
        rw [Function.update_self]
        exact hp (q', n) hmem
      · rw [Function.update_of_ne hq]
        exact hs.committed q'
  | commit r =>
      refine ⟨hkept, fun x hx => ?_⟩
      rcases List.mem_append.mp hx with hx | hx
      · exact hhistory x hx
      · rw [List.mem_singleton.mp hx]
        exact ⟨_, hp.2.2.2 rfl, rfl⟩
  | abort p =>
      refine ⟨fun q => ?_, ?_⟩
      · simpa [Store.leave] using hkept q
      · simpa [Store.leave] using hhistory
  | retry r pc => exact ⟨fun q => by simpa using hkept q, by simpa using hhistory⟩
  | giveUp r pc => exact ⟨fun q => by simpa using hkept q, by simpa using hhistory⟩
  | _ => exact ⟨hkept, hhistory⟩

/-- What is below a committed offset is done in every run. -/
theorem reachable_done {ok : Config Store Proc → ℕ → Act → Prop}
    (h : Run (consumers idempotencyEnabled partition) ok initial c) :
    Sound c.store ∧ ∀ t, (c.procs t).knows c.store := by
  refine Run.invariant (I := Sound) (J := fun _ s p => p.knows s) (K := fun _ => True)
    (fun _ _ => trivial) ⟨⟨fun q => Log.behind_zero, by simp [initial]⟩, fun _ => trivial⟩ ?_ ?_ h
  · intro c t a s' p' _ _ hs hk hnext
    exact ⟨hs.step (hk t) (next_move hnext), (next_move hnext).knows hs (hk t)⟩
  · intro c t a s' p' u _ _ _ hk hnext _
    exact (next_move hnext).later.knows (hk u)

/-! ### The sends of an event -/

namespace Store

/-- How often the notification of an event was sent. -/
def sends (s : Store) (eventId : String) : ℕ :=
  s.sent.countP fun m => m.eventId = eventId

/-- The history rows of an event. -/
def rows (s : Store) (eventId : String) : ℕ :=
  s.history.countP fun h => h.eventId = eventId

/-- The transactions of an event that ended without a commit behind their send. -/
def repeats (s : Store) (eventId : String) : ℕ :=
  s.undone.count eventId

end Store

/-- The process is between the send and the commit for an event. -/
def Proc.progress (eventId : String) : Proc → ℕ
  | .listening r pc => if pc.sent = true ∧ r.event.eventId = eventId then 1 else 0
  | _ => 0

/-- The sends of an event are accounted for, but for `k`. -/
def Balance (s : Store) (eventId : String) (k : ℕ) : Prop :=
  s.sends eventId = s.rows eventId + s.repeats eventId + k

variable {eventId : String} {k : ℕ}

@[simp] lemma rollback_sends : (s.rollback p).sends eventId = s.sends eventId := by
  rw [Store.sends, rollback_sent, Store.sends]

@[simp] lemma rollback_rows : (s.rollback p).rows eventId = s.rows eventId := by
  rw [Store.rows, rollback_history, Store.rows]

/-- A transaction that ends behind its send is noted. -/
@[simp] lemma rollback_repeats :
    (s.rollback p).repeats eventId = s.repeats eventId + p.progress eventId := by
  cases p with
  | listening r pc =>
      cases pc <;>
        simp [Store.rollback, Store.repeats, Proc.progress, Pc.sent, List.count_singleton]
  | _ => rfl

/-- A rollback is noted in the account of its event. -/
lemma Balance.rollback (h : Balance s eventId (p.progress eventId)) :
    Balance (s.rollback p) eventId 0 := by
  rw [Balance, rollback_sends, rollback_rows, rollback_repeats, add_zero, ← add_assoc]
  exact h

/-- **The account of a step**: a send begins what a commit or a rollback ends. -/
lemma Balance.own (h : Balance s eventId (p.progress eventId))
    (hmove : Move idempotencyEnabled partition t s p a s' p') :
    Balance s' eventId (p'.progress eventId) := by
  cases hmove with
  | abort p => exact h.rollback
  | retry r pc => exact h.rollback
  | giveUp r pc => exact h.rollback
  | send r =>
      unfold Balance at h ⊢
      by_cases hid : r.event.eventId = eventId
      · simp [Store.sends, Store.rows, Store.repeats, Proc.progress, Pc.sent, Notice.of, hid] at h ⊢
        omega
      · simpa [Store.sends, Store.rows, Store.repeats, Proc.progress, Pc.sent, Notice.of, hid]
          using h
  | commit r =>
      unfold Balance at h ⊢
      by_cases hid : r.event.eventId = eventId
      · simp [Store.sends, Store.rows, Store.repeats, Proc.progress, Pc.sent, Notice.of,
          Notice.row, hid] at h ⊢
        omega
      · simpa [Store.sends, Store.rows, Store.repeats, Proc.progress, Pc.sent, Notice.of,
          Notice.row, hid] using h
  | _ => exact h

/-- The process is at a listener call for the event. -/
def Proc.handles (eventId : String) : Proc → Prop
  | .listening r _ => r.event.eventId = eventId
  | _ => False

/-- The account of an event changes only with its own listener call. -/
lemma Move.counts (h : Move idempotencyEnabled partition t s p a s' p') (hp : ¬ p.handles eventId) :
    s'.sends eventId = s.sends eventId ∧ s'.rows eventId = s.rows eventId ∧
      s'.repeats eventId = s.repeats eventId := by
  have hrollback : (s.rollback p).sends eventId = s.sends eventId ∧
      (s.rollback p).rows eventId = s.rows eventId ∧
      (s.rollback p).repeats eventId = s.repeats eventId := by
    refine ⟨rollback_sends, rollback_rows, ?_⟩
    cases p with
    | listening r pc =>
        have hne : r.event.eventId ≠ eventId := hp
        simp [Proc.progress, hne]
    | _ => rfl
  cases h with
  | abort p => exact hrollback
  | retry r pc => exact hrollback
  | giveUp r pc => exact hrollback
  | send r =>
      have hne : r.event.eventId ≠ eventId := hp
      exact ⟨by simp [Store.sends, Notice.of, hne], rfl, rfl⟩
  | commit r =>
      have hne : r.event.eventId ≠ eventId := hp
      exact ⟨rfl, by simp [Store.rows, Notice.of, Notice.row, hne], rfl⟩
  | _ => exact ⟨rfl, rfl, rfl⟩

lemma Move.balance_other (h : Move idempotencyEnabled partition t s p a s' p')
    (hp : ¬ p.handles eventId) (hb : Balance s eventId k) : Balance s' eventId k := by
  obtain ⟨hsends, hrows, hrepeats⟩ := h.counts hp
  rw [Balance, hsends, hrows, hrepeats]
  exact hb

/-! ### One consumer for each partition -/

/-- Events of `E` are published, and a partition changes its consumer only when the old one has
given it up. -/
def owned (E : StockEvent → Prop) (_ : Config Store Proc) (_ : ℕ) : Act → Prop
  | .publish e => E e
  | .expire _ => False
  | _ => True

/-- The partitions a process reads. -/
def Proc.partitions : Proc → List ℕ
  | .idle => []
  | .consuming k => k.positions.map Prod.fst
  | .listening r _ => r.partition :: r.consumer.positions.map Prod.fst

/-- What holds of the store: events are where they belong, those of a partition without a consumer
are accounted for, and an event has one row at most. -/
structure Accounted (E : StockEvent → Prop) (partition : StockEvent → ℕ) (s : Store) : Prop where
  published : ∀ q, ∀ e ∈ s.topic q, E e ∧ partition e = q
  free : ∀ e, E e → s.owner (partition e) = none → Balance s e.eventId 0
  single : ∀ e, E e → s.rows e.eventId ≤ 1

/-- What holds of a process: it owns what it reads, the events of its partitions are accounted for,
and it sends for an event without a row. -/
structure Accounts (E : StockEvent → Prop) (partition : StockEvent → ℕ) (t : ℕ) (s : Store)
    (p : Proc) : Prop where
  owns : ∀ q ∈ p.partitions, s.owner q = some t
  balance : ∀ e, E e → s.owner (partition e) = some t →
    Balance s e.eventId (p.progress e.eventId)
  fresh : ∀ r pc, p = .listening r pc → pc = .send ∨ pc.sent = true →
    ¬ s.existsByEventId r.event.eventId

/-- No two events have one id. -/
def UniqueIds (E : StockEvent → Prop) : Prop :=
  ∀ e e', E e → E e' → e.eventId = e'.eventId → e = e'

/-- A step takes free partitions or gives its own ones up, outside of its listener calls. -/
lemma Move.owner (h : Move idempotencyEnabled partition t s p a s' p') (hok : owned E c t a)
    (q : ℕ) :
    s'.owner q = s.owner q ∨
      (s.owner q = none ∧ s'.owner q = some t ∧ ∀ id, p.progress id = 0) ∨
      (s.owner q = some t ∧ s'.owner q = none ∧ ∀ id, p'.progress id = 0) := by
  cases h with
  | expire p q => exact hok.elim
  | abort p =>
      by_cases hq : s.owner q = some t
      · exact Or.inr (Or.inr ⟨hq, by simp [Store.leave, hq], fun _ => rfl⟩)
      · exact Or.inl (by simp [Store.leave, hq])
  | assign k q₀ hfree =>
      by_cases hq : q = q₀
      · subst hq
        exact Or.inr (Or.inl ⟨hfree, by simp [Store.assign], fun _ => rfl⟩)
      · exact Or.inl (by simp [Store.assign, hq])
  | revoke k q₀ howner =>
      by_cases hq : q = q₀
      · subst hq
        exact Or.inr (Or.inr ⟨howner, by simp [Store.assign], fun _ => rfl⟩)
      · exact Or.inl (by simp [Store.assign, hq])
  | retry r pc => exact Or.inl (by rw [rollback_owner])
  | giveUp r pc => exact Or.inl (by rw [rollback_owner])
  | _ => exact Or.inl rfl

lemma exists_iff : s.existsByEventId eventId ↔ 0 < s.rows eventId := by
  rw [Store.rows, List.countP_pos_iff, Store.existsByEventId]
  simp

/-- A process keeps what it owns. -/
lemma Accounts.owns_own (hp : Accounts E partition t s p)
    (h : Move idempotencyEnabled partition t s p a s' p') (hok : owned E c t a) :
    ∀ q ∈ p'.partitions, s'.owner q = some t := by
  have howns := hp.owns
  cases h with
  | expire p q => exact hok.elim
  | abort p => simp [Proc.partitions]
  | listen => simp [Proc.partitions]
  | assign k q₀ hfree =>
      intro q hq
      by_cases heq : q = q₀
      · subst heq
        simp [Store.assign]
      · have hold := howns q ((List.mem_cons.mp hq).resolve_left heq)
        simpa [Store.assign, heq] using hold
  | revoke k q₀ howner =>
      intro q hq
      obtain ⟨x, hx, rfl⟩ := List.mem_map.mp hq
      obtain ⟨hx, hne⟩ := List.mem_filter.mp hx
      have hne : x.1 ≠ q₀ := by simpa using hne
      have hold := howns x.1 (List.mem_map_of_mem hx)
      simpa [Store.assign, hne] using hold
  | forget k q₀ =>
      intro q hq
      obtain ⟨x, hx, rfl⟩ := List.mem_map.mp hq
      exact howns x.1 (List.mem_map_of_mem (List.mem_filter.mp hx).1)
  | take k hmem he =>
      intro x hx
      rcases List.mem_cons.mp hx with rfl | hx
      · exact howns _ (List.mem_map_of_mem hmem)
      · exact howns x hx
  | retry r pc =>
      rw [rollback_owner]
      exact fun q hq => howns q (List.mem_cons_of_mem _ hq)
  | giveUp r pc =>
      rw [rollback_owner]
      exact howns
  | unpublished r => exact fun q hq => howns q (List.mem_cons_of_mem _ hq)
  | _ => exact howns

section Steps

variable (hE : UniqueIds E) (hs : Accounted E partition s) (hk : p.knows s)
  (hp : Accounts E partition t s p)

include hs hk

/-- The event of a listener call belongs to its partition. -/
lemma event_home {r : Reading} {pc : Pc} (hr : p = .listening r pc) :
    E r.event ∧ partition r.event = r.partition := by
  subst hr
  exact hs.published r.partition r.event (List.mem_of_getElem? hk.2.2.1)

include hE hp

/-- The event of a listener call is in a partition of its process. -/
lemma owner_of_handles (he : E e) (hh : p.handles e.eventId) :
    s.owner (partition e) = some t := by
  cases p with
  | listening r pc =>
      obtain ⟨hevent, hhome⟩ := event_home hs hk rfl
      obtain rfl := hE _ _ hevent he hh
      rw [hhome]
      exact hp.owns _ List.mem_cons_self
  | _ => exact hh.elim

/-- **The accounts of the store are kept.** -/
lemma Accounted.step (hok : owned E c t a) (h : Move idempotencyEnabled partition t s p a s' p') :
    Accounted E partition s' := by
  refine ⟨fun q e he => ?_, fun e he hfree => ?_, fun e he => ?_⟩
  · cases h with
    | publish p e' =>
        by_cases hq : q = partition e'
        · subst hq
          have hmem : e ∈ s.topic (partition e') ++ [e'] := by
            simpa [Store.publish] using he
          rcases List.mem_append.mp hmem with hmem | hmem
          · exact hs.published _ e hmem
          · rw [List.mem_singleton.mp hmem]
            exact ⟨hok, rfl⟩
        · have hmem : e ∈ s.topic q := by
            simpa [Store.publish, hq] using he
          exact hs.published q e hmem
    | abort p => exact hs.published q e (by simpa [Store.leave] using he)
    | retry r pc => exact hs.published q e (by simpa using he)
    | giveUp r pc => exact hs.published q e (by simpa using he)
    | _ => exact hs.published q e he
  · rcases h.owner hok (partition e) with hsame | ⟨-, htaken, -⟩ | ⟨hmine, -, hout⟩
    · rw [hsame] at hfree
      refine h.balance_other (fun hh => ?_) (hs.free e he hfree)
      rw [owner_of_handles hE hs hk hp he hh] at hfree
      cases hfree
    · rw [htaken] at hfree
      cases hfree
    · have hbalance := (hp.balance e he hmine).own h
      rwa [hout] at hbalance
  · by_cases hh : p.handles e.eventId
    · cases h with
      | commit r =>
          have hid : r.event.eventId = e.eventId := hh
          have hnone := hp.fresh r .commit rfl (Or.inr rfl)
          rw [exists_iff, hid] at hnone
          rw [Store.rows] at hnone ⊢
          simp only [List.countP_append]
          have hone : [(Notice.of r.event).row].countP (fun h => h.eventId = e.eventId) ≤ 1 :=
            List.countP_le_length
          omega
      | abort p => exact (rollback_rows (p := p)).le.trans (hs.single e he)
      | retry r pc => exact rollback_rows.le.trans (hs.single e he)
      | giveUp r pc => exact rollback_rows.le.trans (hs.single e he)
      | _ => exact hs.single e he
    · rw [(h.counts hh).2.1]
      exact hs.single e he

end Steps

/-- A send is for an event that had no row. -/
lemma Accounts.fresh_own (hp : Accounts E partition t s p) (h : Move true partition t s p a s' p')
    {r : Reading} {pc : Pc} (hr : p' = .listening r pc) (hpc : pc = .send ∨ pc.sent = true) :
    ¬ s'.existsByEventId r.event.eventId := by
  cases h with
  | publish p e => exact hp.fresh r pc hr hpc
  | expire p q => exact hp.fresh r pc hr hpc
  | take k hmem he =>
      cases hr
      simp [Pc.sent] at hpc
  | unknown r₀ hrow =>
      cases hr
      exact hrow rfl
  | send r₀ =>
      cases hr
      exact hp.fresh _ _ rfl (Or.inl rfl)
  | save r₀ =>
      cases hr
      exact hp.fresh _ _ rfl (Or.inr rfl)
  | giveUp r₀ pc₀ =>
      cases hr
      simp [Pc.sent] at hpc
  | _ => cases hr

/-- The accounts of a process behind its own step. -/
lemma Accounts.own (hp : Accounts E partition t s p) (hs : Accounted E partition s)
    (hok : owned E c t a) (h : Move true partition t s p a s' p') :
    Accounts E partition t s' p' := by
  refine ⟨hp.owns_own h hok, fun e he howner => ?_, fun r pc hr hpc => hp.fresh_own h hr hpc⟩
  rcases h.owner hok (partition e) with hsame | ⟨hfree, -, hout⟩ | ⟨-, hnone, -⟩
  · rw [hsame] at howner
    exact (hp.balance e he howner).own h
  · have hbalance := hs.free e he hfree
    rw [← hout e.eventId] at hbalance
    exact hbalance.own h
  · rw [hnone] at howner
    cases howner

/-- The accounts of the other processes are not disturbed. -/
lemma Accounts.other {p₁ : Proc} (hp₁ : Accounts E partition u s p₁) (hE : UniqueIds E)
    (hs : Accounted E partition s) (hk₁ : p₁.knows s) (hk : p.knows s)
    (hp : Accounts E partition t s p) (hut : u ≠ t) (hok : owned E c t a)
    (h : Move true partition t s p a s' p') : Accounts E partition u s' p₁ := by
  -- an event of the others is not handled here
  have hothers : ∀ e, E e → s.owner (partition e) = some u → ¬ p.handles e.eventId := by
    intro e he howner hh
    rw [owner_of_handles hE hs hk hp he hh] at howner
    exact hut (Option.some.inj howner).symm
  refine ⟨fun q hq => ?_, fun e he howner => ?_, fun r pc hr hpc hexists => ?_⟩
  · have hbefore := hp₁.owns q hq
    rcases h.owner hok q with hsame | ⟨hfree, -, -⟩ | ⟨hmine, -, -⟩
    · rw [hsame]
      exact hbefore
    · rw [hfree] at hbefore
      cases hbefore
    · rw [hmine] at hbefore
      exact absurd (Option.some.inj hbefore).symm hut
  · rcases h.owner hok (partition e) with hsame | ⟨-, htaken, -⟩ | ⟨-, hnone, -⟩
    · rw [hsame] at howner
      exact h.balance_other (hothers e he howner) (hp₁.balance e he howner)
    · rw [htaken] at howner
      exact absurd (Option.some.inj howner).symm hut
    · rw [hnone] at howner
      cases howner
  · obtain ⟨hevent, hhome⟩ := event_home hs hk₁ hr
    have howner : s.owner (partition r.event) = some u := by
      rw [hhome]
      exact hp₁.owns _ (by rw [hr]; exact List.mem_cons_self)
    have hnone := hp₁.fresh r pc hr hpc
    rw [exists_iff, (h.counts (hothers r.event hevent howner)).2.1, ← exists_iff] at hexists
    exact hnone hexists

/-! ### Every run -/

/-- The accounts hold in every run with one consumer for each partition. -/
theorem reachable_accounted (hE : UniqueIds E)
    (h : Run (consumers true partition) (owned E) initial c) :
    Accounted E partition c.store ∧ ∀ t, Accounts E partition t c.store (c.procs t) := by
  refine Run.invariant (I := Accounted E partition) (J := fun t s p => Accounts E partition t s p)
    (K := fun c => ∀ t, (c.procs t).knows c.store) (fun _ h => (reachable_done h).2)
    ⟨⟨?_, fun e _ _ => rfl, fun e _ => Nat.zero_le 1⟩, fun t => ⟨?_, ?_, ?_⟩⟩ ?_ ?_ h
  · simp [initial]
  · simp [initial, Proc.partitions]
  · simp [initial]
  · simp [initial]
  · intro c t a s' p' hk hok hs hp hnext
    exact ⟨hs.step hE (hk t) (hp t) hok (next_move hnext), (hp t).own hs hok (next_move hnext)⟩
  · intro c t a s' p' u hk hok hs hp hnext hut
    exact (hp u).other hE hs (hk u) (hk t) (hp t) hut hok (next_move hnext)

/-- **No notification is lost.** Below a committed offset every event is notified and in the
history, or it is a dead letter, in every run: under failures anywhere, with crashes and with
partitions that were taken from consumers that do not know it. -/
theorem committed_is_notified {ok : Config Store Proc → ℕ → Act → Prop}
    (h : Run (consumers idempotencyEnabled partition) ok initial c) {q i : ℕ}
    (hi : i < c.store.committed q) (he : (c.store.topic q)[i]? = some e) :
    (∃ m ∈ c.store.sent, m.eventId = e.eventId ∧ m.row ∈ c.store.history) ∨
      e ∈ c.store.deadLetters := by
  have hs := (reachable_done h).1
  refine (Consumer.settled_getElem (hs.committed q) hi he).imp_left ?_
  rintro ⟨x, hx, hid⟩
  obtain ⟨m, hm, rfl⟩ := hs.history x hx
  exact ⟨m, hm, hid, hx⟩

/-- An order that was confirmed and one that was cancelled. -/
def twoResults : List StockEvent :=
  [⟨"r1", 1, .updated⟩, ⟨"r2", 2, .failed "Insufficient stock"⟩]

/-- Process `t` takes the actions one after the other. -/
def steps (t : ℕ) (acts : List Act) : List (ℕ × Act) :=
  acts.map fun a => (t, a)

/-- Consumer 1 sends the first notification and loses its partition; consumer 2 sends it again, and
both save it. The second event fails four times and becomes a dead letter. -/
def expiredConsumer : List (ℕ × Act) :=
  steps 0 (twoResults.map .publish) ++
  steps 1 [.listen, .assign 0, .take 0, .go, .go] ++ steps 0 [.expire 0] ++
  steps 2 [.listen, .assign 0, .take 0, .go, .go, .go, .go] ++ steps 1 [.go, .go] ++
  steps 2 (List.replicate 4 [.take 0, .throw]).flatten ++ steps 2 [.go, .commit 0]

theorem committed_is_notified_expired :
    ∃ c, Run (consumers true fun _ => 0) (fun _ _ _ => True) initial c ∧
      (c.store.sent.map (·.eventId), c.store.history.map (·.eventId), c.store.committed 0,
        c.store.topic 0) = (["r1", "r1"], ["r1", "r1"], 2, twoResults) ∧
      ((∃ m ∈ c.store.sent, m.eventId = "r2" ∧ m.row ∈ c.store.history) ∨
        ⟨"r2", 2, .failed "Insufficient stock"⟩ ∈ c.store.deadLetters) := by
  obtain ⟨c, hrun, hc⟩ := Run.exists_of_exec (consumers true fun _ => 0) (fun _ _ _ => True)
    initial expiredConsumer
    (fun c => (c.store.sent.map (·.eventId), c.store.history.map (·.eventId),
      c.store.committed 0, c.store.topic 0))
    (["r1", "r1"], ["r1", "r1"], 2, twoResults) (by decide +kernel)
  obtain ⟨-, hrest⟩ := Prod.mk.inj hc
  obtain ⟨-, hrest⟩ := Prod.mk.inj hrest
  obtain ⟨hcommitted, htopic⟩ := Prod.mk.inj hrest
  refine ⟨c, hrun, hc, ?_⟩
  exact committed_is_notified (e := ⟨"r2", 2, .failed "Insufficient stock"⟩) hrun (q := 0) (i := 1)
    (by rw [hcommitted]; decide) (by rw [htopic]; rfl)

/-- **A notification is repeated only behind a transaction that did not commit.** While every
partition has one consumer, an event has one history row at most, and it is sent at most once more
than transactions of it ended behind their send. -/
theorem notifications_accounted (hE : UniqueIds E)
    (h : Run (consumers true partition) (owned E) initial c) (he : E e) :
    c.store.rows e.eventId ≤ 1 ∧
      c.store.rows e.eventId + c.store.repeats e.eventId ≤ c.store.sends e.eventId ∧
      c.store.sends e.eventId ≤ c.store.repeats e.eventId + 1 := by
  obtain ⟨hs, hp⟩ := reachable_accounted hE h
  have hsingle := hs.single e he
  cases howner : c.store.owner (partition e) with
  | none =>
      have hbalance : c.store.sends e.eventId = _ := hs.free e he howner
      omega
  | some t =>
      have hbalance : c.store.sends e.eventId = _ := (hp t).balance e he howner
      -- between its send and its commit an event has no row
      have hprogress : (c.procs t).progress e.eventId + c.store.rows e.eventId ≤ 1 := by
        cases hproc : c.procs t with
        | listening r pc =>
            rw [Proc.progress]
            split_ifs with hsent
            · have hnone := (hp t).fresh r pc hproc (Or.inr hsent.1)
              rw [exists_iff, hsent.2] at hnone
              omega
            · omega
        | _ => exact (Nat.zero_add _).le.trans hsingle
      omega

instance [DecidablePred E] (c : Config Store Proc) (t : ℕ) (a : Act) :
    Decidable (owned E c t a) :=
  match a with
  | .publish e => inferInstanceAs (Decidable (E e))
  | .expire _ => isFalse fun h => h
  | .listen | .assign _ | .revoke _ | .commit _ | .take _ | .go | .throw | .abort => isTrue trivial

/-- The commit behind the first send fails, and the record is read again. -/
def failedCommit : List (ℕ × Act) :=
  steps 0 (twoResults.map .publish) ++
  steps 1 [.listen, .assign 0, .take 0, .go, .go, .go, .throw] ++
  steps 1 [.take 0, .go, .go, .go, .go]

theorem notifications_accounted_failed_commit :
    ∃ c, Run (consumers true fun _ => 0) (owned (· ∈ twoResults)) initial c ∧
      (c.store.sends "r1", c.store.repeats "r1") = (2, 1) ∧ c.store.rows "r1" ≤ 1 ∧
      c.store.rows "r1" + c.store.repeats "r1" ≤ c.store.sends "r1" ∧
      c.store.sends "r1" ≤ c.store.repeats "r1" + 1 := by
  obtain ⟨c, hrun, hc⟩ := Run.exists_of_exec (consumers true fun _ => 0)
    (owned (· ∈ twoResults)) initial failedCommit
    (fun c => (c.store.sends "r1", c.store.repeats "r1")) (2, 1) (by decide +kernel)
  have hunique : Table.Unique StockEvent.eventId twoResults := by
    simp [Table.Unique, twoResults]
  have hids : UniqueIds (· ∈ twoResults) := fun e e' he he' hid => hunique.eq he he' hid
  exact ⟨c, hrun, hc, notifications_accounted (e := ⟨"r1", 1, .updated⟩) hids hrun
    (by simp [twoResults])⟩

end OrderSystem.Notices
