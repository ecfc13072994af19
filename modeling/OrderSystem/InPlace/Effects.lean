/-
What one step of the in-place listener can do, and what a listener has behind it.

* `Move`, `next_move`: the inversion of `next`.
* `next_partner`, `run_partner`: the partner service takes its own steps, so what holds of all
  its runs holds here. The deliveries are those of the records that are read.
* `Reading.stands`, `reachable_settled`: below the committed offsets and the positions of the
  consumers everything is delivered.
-/
import OrderSystem.Foundations.Coupling
import OrderSystem.Foundations.Requeue
import OrderSystem.InPlace.Listener
import OrderSystem.Partner.InboxMode
import OrderSystem.Partner.Unclaimed

namespace OrderSystem.InPlace

open Interleaving Requeue

variable {cfg : Settings} {t u : ℕ} {s s' : Store} {p p' : Proc} {a : Act} {r : Reading}
  {q n : ℕ}

/-! ### Moves -/

/-- What a step of process `t` is. -/
inductive Move (cfg : Settings) (t : ℕ) (s : Store) : Proc → Act → Store → Proc → Prop
  | abort (p : Proc) :
      Move cfg t s p .abort { s with partner := s.partner.unlock t } (.service .idle)
  | listen : Move cfg t s (.service .idle) .listen s (.consuming [])
  | service {q q' : Partner.Proc} {a : Partner.Act} {ps : Partner.Store}
      (hback : background a = true) (h : Partner.next t s.partner q a = some (ps, q')) :
      Move cfg t s (.service q) (.service a) { s with partner := ps } (.service q')
  | assign (positions : List (ℕ × ℕ)) (q : ℕ) :
      Move cfg t s (.consuming positions) (.assign q) s
        (.consuming ((q, s.committed q) :: positions))
  | revoke (positions : List (ℕ × ℕ)) (q : ℕ) :
      Move cfg t s (.consuming positions) (.revoke q) s
        (.consuming (positions.filter fun x => x.1 ≠ q))
  | take {positions : List (ℕ × ℕ)} {q n : ℕ} {e : PartnerOrderEvent}
      (hn : positions.lookup q = some n) (he : (s.partner.topic q)[n]? = some e) :
      Move cfg t s (.consuming positions) (.take q) s
        (.listening ⟨positions, { event := e, partition := q, offset := n }⟩ .received)
  | listener {r : Reading} {pc : ListenPc} {jvm : ℤ} {s' : Store} {p' : Proc}
      (h : listenNext cfg t s r jvm pc = some (s', p')) :
      Move cfg t s (.listening r pc) (.go jvm) s' p'
  | throw (r : Reading) (pc : ListenPc) :
      Move cfg t s (.listening r pc) .throw (listenThrow t s r pc).1 (listenThrow t s r pc).2

/-- **The inversion of `next`**: every step is one of the moves. -/
theorem next_move (h : next cfg t s p a = some (s', p')) : Move cfg t s p a s' p' := by
  cases a with
  | abort =>
      cases h
      exact .abort p
  | service a =>
      cases p with
      | service q =>
          simp only [next] at h
          split_ifs at h with hback
          obtain ⟨⟨ps, q'⟩, hnext, h⟩ := Option.map_eq_some_iff.mp h
          cases h
          exact .service hback hnext
      | consuming positions => cases h
      | listening r pc => cases h
  | listen =>
      cases p with
      | service q =>
          cases q <;> cases h
          exact .listen
      | consuming positions => cases h
      | listening r pc => cases h
  | assign q =>
      cases p with
      | service p => cases p <;> cases h
      | consuming positions =>
          cases h
          exact .assign positions q
      | listening r pc => cases h
  | revoke q =>
      cases p with
      | service p => cases p <;> cases h
      | consuming positions =>
          cases h
          exact .revoke positions q
      | listening r pc => cases h
  | take q =>
      cases p with
      | service p => cases p <;> cases h
      | consuming positions =>
          obtain ⟨n, hn, h⟩ := Option.bind_eq_some_iff.mp h
          obtain ⟨r, hr, h⟩ := Option.map_eq_some_iff.mp h
          obtain ⟨e, he, rfl⟩ := Option.map_eq_some_iff.mp hr
          cases h
          exact .take hn he
      | listening r pc => cases h
  | go jvm =>
      cases p with
      | service p => cases p <;> cases h
      | consuming positions => cases h
      | listening r pc => exact .listener h
  | throw =>
      cases p with
      | service p => cases p <;> cases h
      | consuming positions => cases h
      | listening r pc =>
          obtain rfl : (listenThrow t s r pc).1 = s' := congrArg Prod.fst (Option.some.inj h)
          obtain rfl : (listenThrow t s r pc).2 = p' := congrArg Prod.snd (Option.some.inj h)
          exact .throw r pc

/-- A statement of `process`: it returns, it throws, or the delivery goes on. -/
inductive Processed (r : Reading) (q q' : Partner.Proc) : Proc → Prop
  | returned (job : Partner.ProcessJob) (hq : q = .delivering job .returned) (hq' : q' = .idle) :
      Processed r q q' (.listening r .acknowledge)
  | failed (hq : ∀ job, q ≠ .delivering job .returned) (hq' : q' = .idle) :
      Processed r q q' (.listening r .sleeping)
  | goesOn (calls : ℕ) (hq' : q' ≠ .idle) :
      Processed r q q'
        (.listening { r with task := { r.task with httpAttempts := calls } } (.processing q'))

lemma processStep_cases {q : Partner.Proc} {jvm : ℤ}
    (h : processStep t s r q jvm = some (s', p')) :
    ∃ ps q', Partner.next t s.partner q (.go jvm) = some (ps, q') ∧
      s' = { s with partner := ps } ∧ Processed r q q' p' := by
  rw [processStep] at h
  obtain ⟨⟨ps, q'⟩, hnext, hr⟩ := Option.map_eq_some_iff.mp h
  clear h
  refine ⟨ps, q', hnext, ?_⟩
  split at hr
  · rename_i job
    cases hr
    refine ⟨rfl, .returned job rfl ?_⟩
    simp only [Partner.next, Partner.processNext] at hnext
    split at hnext <;> cases hnext <;> rfl
  · rename_i hidle hreturned
    cases hr
    exact ⟨rfl, .failed (fun job hq => hidle job hq) hreturned⟩
  · rename_i hgoes
    cases hr
    exact ⟨rfl, .goesOn _ hgoes⟩
  · rename_i hgoes
    cases hr
    exact ⟨rfl, .goesOn _ hgoes⟩

/-! ### The partner service inside the listener -/

/-- The statement of the partner service a process is at. -/
def Proc.partner : Proc → Partner.Proc
  | .service p => p
  | .listening _ (.processing p) => p
  | _ => .idle

/-- The action starts no delivery but the one of the record that is read. -/
def Proc.delivers (p : Proc) (b : Partner.Act) : Prop :=
  ∀ e ∈ b.delivery, ∃ r pc, p = .listening r pc ∧ r.task.event = e

lemma delivers_of_none {b : Partner.Act} (h : b.delivery = none) : p.delivers b := by
  intro e he
  rw [h] at he
  cases he

lemma delivery_background {b : Partner.Act} (h : background b = true) : b.delivery = none := by
  cases b with
  | start job =>
      cases job with
      | process job => cases h
      | _ => rfl
  | _ => rfl

/-- The action of the partner service is one of its environment, or comes from the listener. -/
def Act.carries (a : Act) (b : Partner.Act) : Prop :=
  a = .service b ∨ (b.record = none ∧ b.serves)

/-- What a step is for the partner service: nothing, or a step of its own. -/
def PartnerStep (t : ℕ) (s : Store) (p : Proc) (a : Act) (s' : Store) (p' : Proc) : Prop :=
  (s'.partner = s.partner ∧ p'.partner = p.partner) ∨
    ∃ b, p.delivers b ∧ a.carries b ∧
      Partner.next t s.partner p.partner b = some (s'.partner, p'.partner)

lemma listenNext_partner {pc : ListenPc} {jvm : ℤ}
    (h : listenNext cfg t s r jvm pc = some (s', p')) :
    PartnerStep t s (.listening r pc) (.go jvm) s' p' := by
  cases pc with
  | received =>
      simp only [listenNext] at h
      split_ifs at h <;> cases h <;> exact Or.inl ⟨rfl, rfl⟩
  | attempting =>
      cases h
      refine Or.inr ⟨.start (.process _), fun e he => ?_, Or.inr ⟨rfl, trivial⟩, rfl⟩
      cases he
      exact ⟨r, _, rfl, rfl⟩
  | processing q =>
      obtain ⟨ps, q', hnext, rfl, hcase⟩ := processStep_cases h
      refine Or.inr ⟨.go jvm, delivers_of_none rfl, Or.inr ⟨rfl, trivial⟩, ?_⟩
      cases hcase with
      | returned job hq hq' =>
          obtain rfl := hq'
          exact hnext
      | failed hq hq' =>
          obtain rfl := hq'
          exact hnext
      | goesOn calls hq' => exact hnext
  | sleeping =>
      cases h
      exact Or.inl ⟨rfl, rfl⟩
  | acknowledge =>
      cases h
      exact Or.inl ⟨rfl, rfl⟩

lemma next_partner (h : next cfg t s p a = some (s', p')) : PartnerStep t s p a s' p' := by
  cases next_move h with
  | abort p =>
      exact Or.inr ⟨.abort, delivers_of_none rfl, Or.inr ⟨rfl, trivial⟩, by cases p <;> rfl⟩
  | listen => exact Or.inl ⟨rfl, rfl⟩
  | service hback hnext =>
      exact Or.inr ⟨_, delivers_of_none (delivery_background hback), Or.inl rfl, hnext⟩
  | assign positions q => exact Or.inl ⟨rfl, rfl⟩
  | revoke positions q => exact Or.inl ⟨rfl, rfl⟩
  | take hn he => exact Or.inl ⟨rfl, rfl⟩
  | listener hlisten => exact listenNext_partner hlisten
  | throw r pc =>
      cases pc with
      | processing q =>
          exact Or.inr ⟨.abort, delivers_of_none rfl, Or.inr ⟨rfl, trivial⟩, by cases q <;> rfl⟩
      | _ => exact Or.inl ⟨rfl, rfl⟩

/-- **The partner service inside the listener runs as on its own.** -/
theorem run_partner {ok : Config Store Proc → ℕ → Act → Prop} {c : Config Store Proc}
    (h : Run (listener cfg) ok initial c) :
    Run Partner.service (fun _ _ _ => True) Partner.initial (c.view Store.partner Proc.partner) :=
  Run.view (f := Store.partner) (g := Proc.partner) (fun _ _ _ _ _ _ hnext =>
    (next_partner hnext).imp_right fun ⟨b, _, _, hb⟩ => ⟨b, trivial, hb⟩) h

/-! ### What stays -/

/-- What every step keeps. -/
structure Later (s s' : Store) : Prop where
  delivered : ∀ id, s.partner.db.isDelivered id → s'.partner.db.isDelivered id
  topic : ∀ q, s.partner.topic q <+: s'.partner.topic q

/-- Every step of a run keeps deliveries and records. -/
theorem reachable_later {ok : Config Store Proc → ℕ → Act → Prop} {c : Config Store Proc}
    (h : Run (listener cfg) ok initial c)
    (hnext : next cfg t c.store (c.procs t) a = some (s', p')) : Later c.store s' := by
  rcases next_partner hnext with ⟨hs, -⟩ | ⟨b, -, -, hb⟩
  · refine ⟨fun id hid => by rwa [hs], fun q => ?_⟩
    rw [hs]
  · have heff := Partner.reachable_effect (run_partner h) hb
    exact ⟨fun id hid => heff.isDelivered hid, Partner.topic_grows heff hb⟩

/-- An offset is committed with the acknowledgement of its record. -/
lemma next_committed (h : next cfg t s p a = some (s', p')) :
    s'.committed = s.committed ∨ ∃ r, p = .listening r .acknowledge ∧
      s' = s.commit r.task.partition (r.task.offset + 1) := by
  cases next_move h with
  | @listener r pc jvm s' p' hlisten =>
      cases pc with
      | received =>
          simp only [listenNext] at hlisten
          split_ifs at hlisten <;> cases hlisten <;> exact Or.inl rfl
      | processing q =>
          obtain ⟨ps, q', -, rfl, -⟩ := processStep_cases hlisten
          exact Or.inl rfl
      | acknowledge =>
          cases hlisten
          exact Or.inr ⟨r, rfl, rfl⟩
      | _ =>
          cases hlisten
          exact Or.inl rfl
  | throw r pc => cases pc <;> exact Or.inl rfl
  | _ => exact Or.inl rfl

/-! ### What is behind a listener -/

/-- A position with everything below it delivered. -/
def Store.settled (s : Store) (q n : ℕ) : Prop :=
  Settled (fun _ e => s.partner.db.isDelivered e.eventId) (s.partner.topic q) n

/-- The record a listener call is about stands at the position of the consumer. -/
structure Reading.stands (s : Store) (r : Reading) : Prop where
  positions : ∀ x ∈ r.positions, s.settled x.1 x.2
  position : s.settled r.task.partition r.task.offset
  record : (s.partner.topic r.task.partition)[r.task.offset]? = some r.task.event

/-- What a listener call may rely on. -/
def ListenPc.knows (cfg : Settings) (s : Store) (r : Reading) : ListenPc → Prop
  | .processing p => ∃ pc, p = .delivering (r.job cfg) pc ∧ pc.unclaimed = true
  | .acknowledge => s.partner.db.isDelivered r.task.event.eventId
  | _ => True

/-- What a process may rely on. -/
def Proc.knows (cfg : Settings) (s : Store) : Proc → Prop
  | .service _ => True
  | .consuming positions => ∀ x ∈ positions, s.settled x.1 x.2
  | .listening r pc => r.stands s ∧ pc.knows cfg s r

namespace Later

lemma settled (h : Later s s') (hs : s.settled q n) : s'.settled q n :=
  Settled.later hs (h.topic q) fun _ _ => h.delivered _

lemma stands (h : Later s s') (hr : r.stands s) : r.stands s' :=
  ⟨fun x hx => h.settled (hr.positions x hx), h.settled hr.position,
    getElem?_of_isPrefix (h.topic _) hr.record⟩

lemma knows (h : Later s s') (hp : p.knows cfg s) : p.knows cfg s' := by
  cases p with
  | service q => trivial
  | consuming positions => exact fun x hx => h.settled (hp x hx)
  | listening r pc =>
      refine ⟨h.stands hp.1, ?_⟩
      cases pc with
      | acknowledge => exact h.delivered _ hp.2
      | _ => exact hp.2

end Later

/-- The position moves over a delivered record. -/
lemma Reading.stands.advance (h : r.stands s) (hd : s.partner.db.isDelivered r.task.event.eventId) :
    s.settled r.task.partition (r.task.offset + 1) :=
  Settled.advance h.position h.record hd

/-- What a listener call knows after its own step. -/
lemma listenNext_knows {pc : ListenPc} {jvm : ℤ} (hlater : Later s s')
    (hdel : (Proc.listening r pc).partner.delivered s.partner) (hr : r.stands s)
    (hk : pc.knows cfg s r) (h : listenNext cfg t s r jvm pc = some (s', p')) :
    p'.knows cfg s' := by
  have hr' : r.stands s' := hlater.stands hr
  cases pc with
  | received =>
      simp only [listenNext] at h
      split_ifs at h <;> cases h
      · exact ⟨hr', trivial⟩
      · exact hr'.positions
  | attempting =>
      cases h
      exact ⟨⟨hr'.positions, hr'.position, hr'.record⟩, _, rfl, rfl⟩
  | processing q =>
      obtain ⟨pc, rfl, -⟩ := hk
      obtain ⟨ps, q', hnext, rfl, hcase⟩ := processStep_cases h
      cases hcase with
      | returned job hq hq' =>
          cases hq
          exact ⟨hr', hlater.delivered _ (hdel rfl)⟩
      | failed hq hq' => exact ⟨hr', trivial⟩
      | goesOn calls hq' =>
          obtain ⟨pc', rfl⟩ := (Partner.processNext_proc hnext).resolve_right hq'
          exact ⟨⟨hr'.positions, hr'.position, hr'.record⟩, pc', rfl,
            Partner.processNext_unclaimed rfl hnext⟩
  | sleeping =>
      cases h
      exact ⟨hr', trivial⟩
  | acknowledge =>
      cases h
      intro x hx
      rcases List.mem_cons.mp hx with rfl | hx
      · exact hlater.settled (hr.advance hk)
      · exact hr'.positions x hx

/-- What a process knows after its own step. -/
lemma next_knows (hlater : Later s s') (hcomm : ∀ q, s.settled q (s.committed q))
    (hdel : p.partner.delivered s.partner) (hk : p.knows cfg s)
    (h : next cfg t s p a = some (s', p')) : p'.knows cfg s' := by
  cases next_move h with
  | abort p => trivial
  | listen => exact fun x hx => absurd hx List.not_mem_nil
  | service hback hnext => trivial
  | assign positions q =>
      intro x hx
      rcases List.mem_cons.mp hx with rfl | hx
      · exact hcomm q
      · exact hk x hx
  | revoke positions q => exact fun x hx => hk x (List.mem_filter.mp hx).1
  | @take positions q n e hn he =>
      obtain ⟨l₁, l₂, hl, -⟩ := List.lookup_eq_some_iff.mp hn
      have hq : s.settled q n := hk (q, n) (by rw [hl]; simp)
      exact ⟨⟨hk, hq, he⟩, trivial⟩
  | listener hlisten => exact listenNext_knows hlater hdel hk.1 hk.2 hlisten
  | throw r pc =>
      have hr := hlater.stands hk.1
      cases pc with
      | processing q => exact ⟨hr, trivial⟩
      | _ => exact hr.positions

/-- Committed offsets stay behind delivered records. -/
lemma next_settled (hlater : Later s s') (hcomm : ∀ q, s.settled q (s.committed q))
    (hk : p.knows cfg s) (h : next cfg t s p a = some (s', p')) (q : ℕ) :
    s'.settled q (s'.committed q) := by
  rcases next_committed h with heq | ⟨r, rfl, rfl⟩
  · rw [heq]
    exact hlater.settled (hcomm q)
  · simp only [Store.commit, Function.update_apply]
    split_ifs with hq
    · subst hq
      exact hlater.settled (hk.1.advance hk.2)
    · exact hlater.settled (hcomm q)

/-- **Everything behind a listener is delivered**, in every run. -/
theorem reachable_settled {ok : Config Store Proc → ℕ → Act → Prop} {c : Config Store Proc}
    (h : Run (listener cfg) ok initial c) :
    (∀ q, c.store.settled q (c.store.committed q)) ∧ ∀ t, (c.procs t).knows cfg c.store := by
  refine Run.invariant (I := fun s => ∀ q, s.settled q (s.committed q))
    (J := fun _ s p => p.knows cfg s) (K := fun c => Run (listener cfg) ok initial c)
    (fun _ h => h) ⟨fun q => Settled.zero, fun _ => trivial⟩ ?_ ?_ h
  · intro c t a s' p' hrun _ hI hq hnext
    have hlater := reachable_later hrun hnext
    exact ⟨next_settled hlater hI (hq t) hnext,
      next_knows hlater hI (Partner.reachable_delivered (run_partner hrun) t) (hq t) hnext⟩
  · intro c t a s' p' u hrun _ _ hq hnext _
    exact (reachable_later hrun hnext).knows (hq u)

end OrderSystem.InPlace
