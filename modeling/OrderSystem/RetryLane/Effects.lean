/-
What one step of the retry lane can do.

* `Move`, `next_move`: the inversion of `next`.
* `Effect`, `next_effect`: what a step does to the topics, the sends and the offsets.
* `next_partner`, `run_partner`: the partner service inside the lane takes its own steps,
  so what holds of all its runs holds in the lane.
* `Later`: deliveries stay recorded and the topics only grow.
-/
import OrderSystem.Foundations.Coupling
import OrderSystem.Foundations.Requeue
import OrderSystem.Partner.InboxMode
import OrderSystem.RetryLane.Listeners

namespace OrderSystem.RetryLane

open Interleaving
open Partner (DeliveryTask)

variable {cfg : Settings} {t u : ℕ} {s s' : Store} {p p' : Proc} {a : Act}

/-! ### Moves -/

/-- What a step of process `t` is. -/
inductive Move (cfg : Settings) (t : ℕ) (s : Store) : Proc → Act → Store → Proc → Prop
  | abort (p : Proc) :
      Move cfg t s p .abort { s with partner := s.partner.unlock t } (.service .idle)
  | listen (l : Listener) (owner : String) :
      Move cfg t s (.service .idle) (.listen l owner) s (.consuming l owner [])
  | restart (owner : String) :
      Move cfg t s (.service .idle) (.restart owner) (restart cfg s owner) (.service .idle)
  | append {n : ℕ} {lost : Bool} {s' : Store} (h : append cfg s n lost = some s') :
      Move cfg t s (.service .idle) (.append n lost) s' (.service .idle)
  | service {q q' : Partner.Proc} {a : Partner.Act} {ps : Partner.Store}
      (h : Partner.next t s.partner q a = some (ps, q')) :
      Move cfg t s (.service q) (.service a) { s with partner := ps } (.service q')
  | assign (l : Listener) (owner : String) (positions : List (ℕ × ℕ)) (q : ℕ) :
      Move cfg t s (.consuming l owner positions) (.assign q) s
        (.consuming l owner ((q, s.committed l q) :: positions))
  | revoke (l : Listener) (owner : String) (positions : List (ℕ × ℕ)) (q : ℕ) :
      Move cfg t s (.consuming l owner positions) (.revoke q) s
        (.consuming l owner (positions.filter fun x => x.1 ≠ q))
  | take {l : Listener} {owner : String} {positions : List (ℕ × ℕ)} {q n : ℕ} {r : Reading}
      (hn : positions.lookup q = some n) (hr : readingOf s l owner positions q n = some r) :
      Move cfg t s (.consuming l owner positions) (.take q) s (.listening r .received)
  | listener {r : Reading} {pc : ListenPc} {jvm : ℤ} {s' : Store} {p' : Proc}
      (h : listenNext cfg t s r jvm pc = some (s', p')) :
      Move cfg t s (.listening r pc) (.go jvm) s' p'
  | throw (r : Reading) (pc : ListenPc) :
      Move cfg t s (.listening r pc) .throw (listenThrow t s r pc).1 (listenThrow t s r pc).2

/-- **The inversion of `next`**: every step is one of the moves. -/
theorem next_move (h : next cfg t s p a = some (s', p')) : Move cfg t s p a s' p' := by
  cases a with
  | abort =>
      cases h
      exact .abort p
  | service a =>
      cases p with
      | service q =>
          simp only [next] at h
          split_ifs at h
          obtain ⟨⟨ps, q'⟩, hnext, h⟩ := Option.map_eq_some_iff.mp h
          cases h
          exact .service hnext
      | consuming l owner positions => cases h
      | listening r pc => cases h
  | restart owner =>
      rcases p with q | _ | _
      · cases q <;> cases h
        exact .restart owner
      · cases h
      · cases h
  | listen l owner =>
      rcases p with q | _ | _
      · cases q <;> cases h
        exact .listen l owner
      · cases h
      · cases h
  | append n lost =>
      rcases p with q | _ | _
      · cases q with
        | idle =>
            obtain ⟨s₁, hs, h⟩ := Option.map_eq_some_iff.mp h
            cases h
            exact .append hs
        | _ => cases h
      · cases h
      · cases h
  | assign q =>
      rcases p with p | ⟨l, owner, positions⟩ | _
      · cases p <;> cases h
      · cases h
        exact .assign l owner positions q
      · cases h
  | revoke q =>
      rcases p with p | ⟨l, owner, positions⟩ | _
      · cases p <;> cases h
      · cases h
        exact .revoke l owner positions q
      · cases h
  | take q =>
      rcases p with p | ⟨l, owner, positions⟩ | _
      · cases p <;> cases h
      · obtain ⟨n, hn, h⟩ := Option.bind_eq_some_iff.mp h
        obtain ⟨r, hr, h⟩ := Option.map_eq_some_iff.mp h
        cases h
        exact .take hn hr
      · cases h
  | go jvm =>
      rcases p with p | _ | ⟨r, pc⟩
      · cases p <;> cases h
      · cases h
      · exact .listener h
  | throw =>
      rcases p with p | _ | ⟨r, pc⟩
      · cases p <;> cases h
      · cases h
      · obtain rfl : (listenThrow t s r pc).1 = s' := congrArg Prod.fst (Option.some.inj h)
        obtain rfl : (listenThrow t s r pc).2 = p' := congrArg Prod.snd (Option.some.inj h)
        exact .throw r pc

/-! ### The partner service inside the lane -/

/-- The statement of `process` a process is at. -/
def Proc.partner : Proc → Partner.Proc
  | .service p => p
  | .listening _ (.processing _ p) => p
  | _ => .idle

/-- What a step is for the partner service: nothing, or a step of its own. -/
def PartnerStep (t : ℕ) (s : Store) (p : Partner.Proc) (s' : Store) (p' : Partner.Proc) : Prop :=
  (s'.partner = s.partner ∧ p' = p) ∨
    ∃ b, Partner.next t s.partner p b = some (s'.partner, p')

lemma PartnerStep.same (hs : s'.partner = s.partner) {q : Partner.Proc} :
    PartnerStep t s q s' q :=
  Or.inl ⟨hs, rfl⟩

/-- The beginning of a delivery. -/
lemma PartnerStep.deliver (hs : s'.partner = s.partner) (job : Partner.ProcessJob) :
    PartnerStep t s .idle s' (Partner.begin (.process job)) := by
  refine Or.inr ⟨.start (.process job), ?_⟩
  rw [hs]
  rfl

/-- A statement of `process`: it returns, or it throws, or the delivery goes on. -/
inductive Processed (s : Store) (r : Reading) (admitted : Bool) (q : Partner.Proc)
    (ps : Partner.Store) (q' : Partner.Proc) : Store → Proc → Prop
  | returned (job : Partner.ProcessJob) (hq : q = .delivering job .returned) (hq' : q' = .idle) :
      Processed s r admitted q ps q' (delivered { s with partner := ps } r admitted).1
        (.listening r .acknowledge)
  | failed (hq' : q' = .idle) :
      Processed s r admitted q ps q' { s with partner := ps } (.listening r (.publishing admitted))
  | goesOn (calls : ℕ) (hq' : q' ≠ .idle) :
      Processed s r admitted q ps q' { s with partner := ps }
        (.listening { r with task := { r.task with httpAttempts := calls } }
          (.processing admitted q'))

lemma processStep_cases {r : Reading} {admitted : Bool} {q : Partner.Proc} {jvm : ℤ}
    (h : processStep t s r admitted q jvm = some (s', p')) :
    ∃ ps q', Partner.next t s.partner q (.go jvm) = some (ps, q') ∧
      Processed s r admitted q ps q' s' p' := by
  rw [processStep] at h
  obtain ⟨⟨ps, q'⟩, hnext, hr⟩ := Option.map_eq_some_iff.mp h
  clear h
  refine ⟨ps, q', hnext, ?_⟩
  have hends : ∀ job, q = .delivering job .returned → q' = .idle := by
    rintro job rfl
    simp only [Partner.next, Partner.processNext] at hnext
    split at hnext <;> cases hnext <;> rfl
  split at hr
  · rename_i job
    cases hr
    exact .returned job rfl (hends job rfl)
  · rename_i hidle
    cases hr
    exact .failed hidle
  · rename_i hgoes
    cases hr
    exact .goesOn _ hgoes
  · rename_i hgoes
    cases hr
    exact .goesOn _ hgoes

lemma listenNext_partner {r : Reading} {pc : ListenPc} {jvm : ℤ}
    (h : listenNext cfg t s r jvm pc = some (s', p')) :
    PartnerStep t s (Proc.listening r pc).partner s' p'.partner := by
  cases pc with
  | received =>
      simp only [listenNext, receiveMain, receiveRetry, deliver] at h
      repeat' split at h
      all_goals first
        | cases h
          first
            | exact .same rfl
            | exact .deliver rfl _
        | cases h
  | admitting deadline =>
      simp only [listenNext, admitOrPark, deliver] at h
      repeat' split at h
      all_goals
        cases h
        first
          | exact .same rfl
          | exact .deliver rfl _
  | processing admitted q =>
      obtain ⟨ps, q', hnext, hcase⟩ := processStep_cases h
      refine Or.inr ⟨.go jvm, ?_⟩
      cases hcase with
      | returned job hq hq' =>
          obtain rfl := hq'
          exact hnext
      | failed hq' =>
          obtain rfl := hq'
          exact hnext
      | goesOn calls hq' => exact hnext
  | publishing admitted =>
      cases h
      exact .same rfl
  | awaiting admitted n =>
      simp only [listenNext] at h
      split_ifs at h
      cases h
      exact .same rfl
  | acknowledge =>
      cases h
      exact .same rfl

lemma next_partner (h : next cfg t s p a = some (s', p')) :
    PartnerStep t s p.partner s' p'.partner := by
  cases next_move h with
  | abort p => exact Or.inr ⟨.abort, by cases p <;> rfl⟩
  | listen l owner => exact .same rfl
  | restart owner => exact Or.inr ⟨.restart owner, rfl⟩
  | append happ =>
      obtain ⟨r, -, rfl⟩ := Option.map_eq_some_iff.mp happ
      exact .same rfl
  | service hnext => exact Or.inr ⟨_, hnext⟩
  | assign l owner positions q => exact .same rfl
  | revoke l owner positions q => exact .same rfl
  | take hn hr => exact .same rfl
  | listener hlisten => exact listenNext_partner hlisten
  | throw r pc =>
      cases pc with
      | processing admitted q => exact Or.inr ⟨.abort, by cases q <;> rfl⟩
      | _ => exact .same rfl

/-- **The partner service inside the lane runs as on its own.** -/
theorem run_partner {ok : Config Store Proc → ℕ → Act → Prop} {c : Config Store Proc}
    (h : Run (lane cfg) ok (initial cfg) c) :
    Run Partner.service (fun _ _ _ => True) Partner.initial (c.view Store.partner Proc.partner) :=
  Run.view (f := Store.partner) (g := Proc.partner) (fun _ _ _ _ _ _ hnext =>
    (next_partner hnext).imp_right fun ⟨b, hb⟩ => ⟨b, trivial, hb⟩) h

/-! ### Effects -/

/-- What a step does to the topics, the sends and the offsets. -/
inductive Effect (cfg : Settings) (s : Store) (p : Proc) : Store → Prop
  | work (ps : Partner.Store) (memory : String → Memory) :
      Effect cfg s p { s with partner := ps, memory := memory }
  | publish {r : Reading} {admitted : Bool} (hp : p = .listening r (.publishing admitted))
      (x : RetryRecord) (hx : x.event = r.task.event) :
      Effect cfg s p { s with sending := s.sending ++ [(s.nextSend, x)]
                              nextSend := s.nextSend + 1 }
  | append {n : ℕ} {x : RetryRecord} (lost : Bool) (h : s.sending.lookup n = some x) :
      Effect cfg s p { s.put (cfg.partition x.event.key) x with
        sending := s.sending.filter fun y => y.1 ≠ n
        acks := if lost then s.acks else s.acks ++ [n] }
  | acknowledge {r : Reading} (hp : p = .listening r .acknowledge) :
      Effect cfg s p (s.commit r.listener r.task.partition (r.task.offset + 1))

lemma Effect.same : Effect cfg s p s := .work s.partner s.memory

lemma Effect.remember (owner : String) (m : Memory) : Effect cfg s p (s.setMemory owner m) :=
  .work s.partner _

lemma listenNext_effect {r : Reading} {pc : ListenPc} {jvm : ℤ}
    (h : listenNext cfg t s r jvm pc = some (s', p')) : Effect cfg s (.listening r pc) s' := by
  cases pc with
  | received =>
      simp only [listenNext, receiveMain, receiveRetry, deliver] at h
      repeat' split at h
      all_goals first
        | (cases h; exact .same)
        | cases h
  | admitting deadline =>
      simp only [listenNext, admitOrPark, deliver] at h
      repeat' split at h
      all_goals
        cases h
        exact .remember _ _
  | processing admitted q =>
      obtain ⟨ps, q', -, hcase⟩ := processStep_cases h
      cases hcase with
      | returned job hq hq' => exact .work ps _
      | failed hq' => exact .work ps _
      | goesOn calls hq' => exact .work ps _
  | publishing admitted =>
      cases h
      exact .publish rfl _ rfl
  | awaiting admitted n =>
      simp only [listenNext] at h
      split_ifs at h
      cases h
      exact .remember _ _
  | acknowledge =>
      cases h
      exact .acknowledge rfl

/-- **What a step does to the store.** -/
theorem next_effect (h : next cfg t s p a = some (s', p')) : Effect cfg s p s' := by
  cases next_move h with
  | abort p => exact .work _ s.memory
  | listen l owner => exact .same
  | restart owner => exact .work _ _
  | append happ =>
      obtain ⟨x, hx, rfl⟩ := Option.map_eq_some_iff.mp happ
      exact .append _ hx
  | @service q q' a ps hnext => exact .work ps s.memory
  | assign l owner positions q => exact .same
  | revoke l owner positions q => exact .same
  | take hn hr => exact .same
  | listener hlisten => exact listenNext_effect hlisten
  | throw r pc =>
      cases pc with
      | processing admitted q => exact .work _ s.memory
      | publishing admitted => exact .remember _ _
      | awaiting admitted n => exact .remember _ _
      | _ => exact .same

/-! ### What stays -/

/-- The events of a partition of the main topic or of the retry topic. -/
def Store.log (s : Store) : Listener → ℕ → List PartnerOrderEvent
  | .main, q => s.partner.topic q
  | .retry, q => (s.retryTopic q).map (·.event)

/-- What every step keeps. -/
structure Later (s s' : Store) : Prop where
  delivered : ∀ id, s.partner.db.isDelivered id → s'.partner.db.isDelivered id
  log : ∀ l q, s.log l q <+: s'.log l q
  nextSend : s.nextSend ≤ s'.nextSend

lemma Effect.retry_log (h : Effect cfg s p s') (q : ℕ) : s.log .retry q <+: s'.log .retry q := by
  cases h with
  | @append n x lost hx =>
      simp only [Store.log, Store.put, Function.update_apply]
      split_ifs with hq
      · subst hq
        simp
      · exact List.prefix_refl _
  | _ => exact List.prefix_refl _

lemma Effect.nextSend_le (h : Effect cfg s p s') : s.nextSend ≤ s'.nextSend := by
  cases h with
  | publish hp x hx => exact Nat.le_succ _
  | _ => exact le_rfl

/-- Every step of a run keeps deliveries and records. -/
theorem reachable_later {ok : Config Store Proc → ℕ → Act → Prop} {c : Config Store Proc}
    (h : Run (lane cfg) ok (initial cfg) c)
    (hnext : next cfg t c.store (c.procs t) a = some (s', p')) : Later c.store s' := by
  have heff := next_effect hnext
  refine ⟨fun id hid => ?_, fun l q => ?_, heff.nextSend_le⟩
  · rcases next_partner hnext with ⟨hs, -⟩ | ⟨b, hb⟩
    · rwa [hs]
    · exact (Partner.reachable_effect (run_partner h) hb).isDelivered hid
  · cases l with
    | main =>
        rcases next_partner hnext with ⟨hs, -⟩ | ⟨b, hb⟩
        · rw [Store.log, Store.log, hs]
        · exact Partner.topic_grows (Partner.reachable_effect (run_partner h) hb) hb q
    | retry => exact heff.retry_log q

end OrderSystem.RetryLane
