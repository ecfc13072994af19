/-
The in-place listener never waits for a record behind it, as long as the records come in
sequence.

* `feeding`: the records are events of `E`, each is appended behind its predecessor, and the
  partner accepts every call.
* `reachable_sequenced`, `run_accepting`: what this means for the topic and for the partner service.
* `Reading.stands.before`: the operations before the one that is read are recorded, since the
  records behind a listener are delivered.
* `Proc.left`: the steps a listener call has left. Its own steps lower it, the steps of the others
  do not raise it.
* `Unblocked`, `listener_unblocked`: in every run the loop of `deliverInPlace` ends.
* `loop_goes_on`: for a record before its predecessor it does not.
-/
import OrderSystem.InPlace.Effects

namespace OrderSystem.InPlace

open Interleaving

variable {cfg : Settings} {t u : ℕ} {s s' : Store} {p p' : Proc} {a : Act} {r : Reading}
  {pc : ListenPc} {E : PartnerOrderEvent → Prop} {c : Config Store Proc}

/-! ### The environment -/

/-- A record is an event of `E` and is appended behind its predecessor; the partner accepts its
calls. -/
def Act.feeds (E : PartnerOrderEvent → Prop) (s : Store) : Act → Prop
  | .service b => b.serves ∧ b.inSequence s.partner ∧ ∀ e ∈ b.record, E e
  | _ => True

/-- The environment of the listener. -/
def feeding (E : PartnerOrderEvent → Prop) (c : Config Store Proc) (_ : ℕ) (a : Act) : Prop :=
  a.feeds E c.store

/-- What the listener hands to the partner service is allowed there. -/
lemma Act.feeds.carried (h : a.feeds E s) {b : Partner.Act} (hb : a.carries b) :
    b.serves ∧ b.inSequence s.partner ∧ ∀ e ∈ b.record, E e := by
  rcases hb with rfl | ⟨hrecord, hserves⟩
  · exact h
  · refine ⟨hserves, ?_, by simp [hrecord]⟩
    cases b with
    | produce q e => cases hrecord
    | _ => trivial

/-! ### The topic -/

theorem reachable_sequenced (h : Run (listener cfg) (feeding E) initial c) :
    Partner.Sequenced E c.store.partner := by
  refine (Run.invariant (I := fun s => Partner.Sequenced E s.partner) (J := fun _ _ _ => True)
    (K := fun c => Run (listener cfg) (feeding E) initial c) (fun _ h => h)
    ⟨Partner.Sequenced.empty, fun _ => trivial⟩ ?_ (fun _ _ _ _ _ _ _ _ _ _ _ _ => trivial) h).1
  intro c t a s' p' hrun hok hI _ hnext
  refine ⟨?_, trivial⟩
  rcases next_partner hnext with ⟨hs, -⟩ | ⟨b, -, hcarried, hb⟩
  · rwa [hs]
  · obtain ⟨-, hseq, hrecord⟩ := Act.feeds.carried hok hcarried
    exact hI.step hseq hrecord (Partner.reachable_effect (run_partner hrun) hb) hb

/-- The partner service delivers events of `E`, to a partner that accepts every call. -/
theorem run_accepting (h : Run (listener cfg) (feeding E) initial c) :
    Run Partner.service (Partner.accepting E) Partner.initial
      (c.view Store.partner Proc.partner) := by
  have hread : Run (listener cfg) (fun c t a => a.feeds E c.store ∧
      ∀ r pc, c.procs t = .listening r pc → E r.task.event) initial c := by
    refine Run.mono_of (K := fun c => Run (listener cfg) (feeding E) initial c) (fun _ h => h) ?_ h
    intro c c' t a hrun hok _
    refine ⟨hok, fun r pc hr => ?_⟩
    have hknows := (reachable_settled hrun).2 t
    rw [hr] at hknows
    exact (reachable_sequenced hrun).events _ _ (List.mem_of_getElem? hknows.1.record)
  refine Run.view (f := Store.partner) (g := Proc.partner) (fun c t a s' p' hok hnext => ?_) hread
  refine (next_partner hnext).imp_right ?_
  rintro ⟨b, hdelivers, hcarried, hb⟩
  refine ⟨b, ⟨fun e he => ?_, (hok.1.carried hcarried).1⟩, hb⟩
  obtain ⟨r, pc, hr, rfl⟩ := hdelivers e he
  exact hok.2 r pc hr

/-! ### What is recorded before a record is read -/

/-- What the ledger holds. -/
structure Kept (E : PartnerOrderEvent → Prop) (s : Store) : Prop where
  sequenced : Partner.Sequenced E s.partner
  ledger : Partner.Ledger s.partner.db
  recorded : Partner.Recorded E s.partner.db
  answers : s.partner.answersOk

theorem reachable_kept (hE : Catalogue E) (h : Run (listener cfg) (feeding E) initial c) :
    Kept E c.store := by
  have haccepting := run_accepting h
  exact ⟨reachable_sequenced h, (Partner.reachable_sound (run_partner h)).1.ledger,
    Partner.reachable_recorded hE (Partner.deliversFrom_of_accepting haccepting),
    (Partner.reachable_answered hE haccepting).1⟩

/-- **The operations before the one that is read are recorded.** -/
lemma Reading.stands.before (hE : Catalogue E) (hk : Kept E s) (hr : r.stands s) :
    1 ≤ r.task.event.sequence ∧ s.partner.db.recordedBefore r.task.event := by
  rcases (hk.sequenced.preceded _).entry hr.record with hfirst | ⟨j, hj, y, hy, hprec⟩
  · exact Partner.recordedBefore_of_first hfirst
  · -- the predecessor lies behind the listener, so it is delivered
    exact Partner.recordedBefore_of_delivered hE hk.ledger hk.recorded
      (hk.sequenced.events _ y (List.mem_of_getElem? hy)) hprec (hr.position.2 j hj y hy)

/-- An operation that is read and not delivered is the next one of its order. -/
lemma Reading.stands.next (hE : Catalogue E) (hk : Kept E s) (hr : r.stands s)
    (hnew : ¬ s.partner.db.isDelivered r.task.event.eventId) :
    s.partner.db.lastSequence r.task.event.order + 1 = r.task.event.sequence := by
  obtain ⟨hpos, hbefore⟩ := hr.before hE hk
  exact Partner.next_of_preceded hE hk.ledger hk.recorded
    (hk.sequenced.events _ _ (List.mem_of_getElem? hr.record)) hpos hbefore hnew

/-! ### The steps that are left -/

/-- The steps of a listener call up to its end, at most. -/
def ListenPc.left (delivered : Bool) : ListenPc → ℕ
  | .received => 16
  | .attempting => Partner.ProcessPc.isDelivered.left delivered + 2
  | .processing (.delivering _ pc) => pc.left delivered + 1
  | .processing _ => 0
  | .sleeping => Partner.ProcessPc.isDelivered.left delivered + 3
  | .acknowledge => 1

/-- The steps of a process up to the end of its listener call. -/
def Proc.left (s : Store) : Proc → ℕ
  | .listening r pc => pc.left (s.partner.db.isDelivered r.task.event.eventId)
  | _ => 0

lemma left_isDelivered (d : Bool) :
    2 ≤ Partner.ProcessPc.isDelivered.left d ∧ Partner.ProcessPc.isDelivered.left d ≤ 12 := by
  cases d <;> decide

lemma ListenPc.left_le (pc : ListenPc) (d : Bool) : pc.left d ≤ 16 := by
  have hfirst := left_isDelivered d
  cases pc with
  | processing q =>
      cases q with
      | delivering job pc => cases pc <;> cases d <;> simp [left, Partner.ProcessPc.left]
      | _ => simp [left]
  | _ =>
      simp only [left]
      omega

lemma ListenPc.left_anti (pc : ListenPc) (d : Bool) : pc.left true ≤ pc.left d := by
  have hfirst := Partner.ProcessPc.isDelivered.left_anti d
  cases pc with
  | processing q =>
      cases q with
      | delivering job pc => exact Nat.succ_le_succ (pc.left_anti d)
      | _ => exact le_rfl
  | _ =>
      simp only [left]
      omega

/-- The steps of the others bring a listener call no further from its end. -/
lemma Proc.left_later (h : Later s s') : p.left s' ≤ p.left s := by
  cases p with
  | listening r pc =>
      by_cases hd : s.partner.db.isDelivered r.task.event.eventId
      · have hd' := h.delivered _ hd
        simp only [left, hd, hd', le_refl]
      · by_cases hd' : s'.partner.db.isDelivered r.task.event.eventId
        · simp only [left, hd']
          exact pc.left_anti _
        · simp only [left, hd, hd', le_refl]
  | _ => exact le_rfl

/-- A step of its own brings a listener call closer to its end. -/
lemma next_left (hE : Catalogue E) (hk : Kept E s) (hp : p.knows cfg s) {jvm : ℤ}
    (h : next cfg t s p (.go jvm) = some (s', p')) : p'.left s' < p.left s := by
  cases next_move h with
  | @listener r pc jvm s' p' hlisten =>
      have hfirst := left_isDelivered (s.partner.db.isDelivered r.task.event.eventId)
      cases pc with
      | received =>
          simp only [listenNext] at hlisten
          split_ifs at hlisten <;> cases hlisten <;> simp only [Proc.left, ListenPc.left]
          · omega
          · omega
      | attempting =>
          cases hlisten
          exact Nat.lt_succ_self _
      | processing q =>
          obtain ⟨hr, pc, rfl, -⟩ := hp
          obtain ⟨ps, q', hnext, rfl, hcase⟩ := processStep_cases hlisten
          have hleft := Partner.processNext_left rfl rfl hk.ledger hk.answers (hr.next hE hk) hnext
          cases hcase with
          | returned job hq hq' =>
              cases hq
              simp [Proc.left, ListenPc.left, Partner.ProcessPc.left]
          | failed hq hq' =>
              subst hq'
              cases hleft with
              | returned hreturned =>
                  subst hreturned
                  exact absurd rfl (hq _)
              | threw hd hlarge =>
                  -- the next round finds the event delivered
                  have hanti := pc.left_anti (s.partner.db.isDelivered r.task.event.eventId)
                  have hd' : ps.db.isDelivered r.task.event.eventId := hd
                  calc ListenPc.sleeping.left (ps.db.isDelivered r.task.event.eventId)
                      = 5 := by simp [ListenPc.left, Partner.ProcessPc.left, hd']
                    _ < pc.left true + 1 := by omega
                    _ ≤ pc.left (s.partner.db.isDelivered r.task.event.eventId) + 1 := by omega
          | goesOn calls hq' =>
              cases hleft with
              | goesOn hlt => exact Nat.succ_lt_succ hlt
              | returned hreturned => exact absurd rfl hq'
              | threw hd hlarge => exact absurd rfl hq'
      | sleeping =>
          cases hlisten
          simp only [Proc.left, ListenPc.left]
          omega
      | acknowledge =>
          cases hlisten
          simp [Proc.left, ListenPc.left]

/-! ### Every run -/

/-- Process `t` runs its statements, whatever the others do. -/
def running (E : PartnerOrderEvent → Prop) (t : ℕ) (c : Config Store Proc) (u : ℕ) (a : Act) :
    Prop :=
  feeding E c u a ∧ (u = t → ∃ jvm, a = .go jvm)

/-- No listener waits for a record behind it. -/
structure Unblocked (cfg : Settings) (E : PartnerOrderEvent → Prop) (c : Config Store Proc) :
    Prop where
  /-- The operations before the one that is delivered are in `partner_effect`. -/
  before : ∀ t r pc, c.procs t = .listening r pc → c.store.partner.db.recordedBefore r.task.event
  /-- A listener call ends with its sixteenth step at the latest. -/
  ends : ∀ t r pc, c.procs t = .listening r pc → ∀ n d,
    Turns (listener cfg) (running E t) t c n d → n ≤ 16
  /-- A step has to wait only for the answer of the partner or for a lock. -/
  waits : ∀ t r pc jvm, c.procs t = .listening r pc →
    next cfg t c.store (.listening r pc) (.go jvm) = none →
    (∃ call ∈ c.store.partner.requests, call.event = r.task.event) ∨
      ∃ x u, u ≠ t ∧ (x, u) ∈ c.store.partner.locks

lemma turns_le (hE : Catalogue E) (h : Run (listener cfg) (feeding E) initial c)
    (hp : c.procs t = .listening r pc) {n : ℕ} {d : Config Store Proc}
    (hturns : Turns (listener cfg) (running E t) t c n d) : n ≤ 16 := by
  have hle := hturns.add_rank_le (fun s p => p.left s)
    (K := fun d => Run (listener cfg) (feeding E) initial d)
    (fun d hd => h.trans (hd.mono fun _ _ _ hok => hok.1))
    (fun d a s' p' hrun hok hnext => ?_) fun d u a s' p' hrun _ _ hnext => ?_
  · have hstart := pc.left_le (c.store.partner.db.isDelivered r.task.event.eventId)
    rw [hp] at hle
    exact (Nat.le_add_right _ _).trans (hle.trans hstart)
  · obtain ⟨jvm, rfl⟩ := hok.2 rfl
    exact next_left hE (reachable_kept hE hrun) ((reachable_settled hrun).2 t) hnext
  · exact Proc.left_later (reachable_later hrun hnext)

lemma listenNext_waits (hE : Catalogue E) (h : Run (listener cfg) (feeding E) initial c)
    (hp : c.procs t = .listening r pc) {jvm : ℤ}
    (hnone : next cfg t c.store (.listening r pc) (.go jvm) = none) :
    (∃ call ∈ c.store.partner.requests, call.event = r.task.event) ∨
      ∃ x u, u ≠ t ∧ (x, u) ∈ c.store.partner.locks := by
  have hknows := (reachable_settled h).2 t
  rw [hp] at hknows
  have haccepting := run_accepting h
  cases pc with
  | processing q =>
      obtain ⟨-, pc, rfl, hunclaimed⟩ := hknows
      have hstep := (Partner.reachable_inStep hE
        (Partner.deliversFrom_of_accepting haccepting)).2 t
      have hcalled := (Partner.reachable_answered hE haccepting).2 t
      have hview : (c.view Store.partner Proc.partner).procs t = .delivering (r.job cfg) pc := by
        show (c.procs t).partner = _
        rw [hp]
        rfl
      rw [hview] at hstep hcalled
      have hstuck := Option.map_eq_none_iff.mp hnone
      refine (Partner.processNext_waits rfl hunclaimed hcalled hstuck).imp_left ?_
      rintro ⟨call, hcall, rfl⟩
      exact ⟨call, hcall, hstep.2⟩
  | received =>
      simp only [next, listenNext] at hnone
      split_ifs at hnone
  | _ => cases hnone

/-- **In-place delivery never waits for a record behind it**, in every run whose records come in
sequence. -/
theorem listener_unblocked (hE : Catalogue E) (h : Run (listener cfg) (feeding E) initial c) :
    Unblocked cfg E c := by
  refine ⟨fun t r pc hp => ?_, fun t r pc hp n d hturns => turns_le hE h hp hturns,
    fun t r pc jvm hp hnone => listenNext_waits hE h hp hnone⟩
  have hknows := (reachable_settled h).2 t
  rw [hp] at hknows
  exact (hknows.1.before hE (reachable_kept hE h)).2

/-! ### A record before its predecessor -/

/-- A round of the loop up to the check that fails. -/
inductive InVain (r : Reading) : ListenPc → Prop
  | attempting : InVain r .attempting
  | isDelivered (job : Partner.ProcessJob) (hjob : job.event = r.task.event)
      (hclaim : job.claim = none) : InVain r (.processing (.delivering job .isDelivered))
  | lastSequence (job : Partner.ProcessJob) (hjob : job.event = r.task.event)
      (hclaim : job.claim = none) : InVain r (.processing (.delivering job .lastSequence))
  | sleeping : InVain r .sleeping

/-- An operation that is not the next one of its order starts another round. -/
lemma InVain.step (h : InVain r pc) (hnew : ¬ s.partner.db.isDelivered r.task.event.eventId)
    (hgap : s.partner.db.lastSequence r.task.event.order + 1 ≠ r.task.event.sequence) :
    ∃ r' pc', next cfg t s (.listening r pc) (.go 0) = some (s, .listening r' pc') ∧
      r'.task.event = r.task.event ∧ InVain r' pc' := by
  cases h with
  | attempting => exact ⟨_, _, rfl, rfl, .isDelivered _ rfl rfl⟩
  | sleeping => exact ⟨_, _, rfl, rfl, .attempting⟩
  | isDelivered job hjob hclaim =>
      rw [← hjob] at hnew
      refine ⟨r, _, ?_, rfl, .lastSequence job hjob hclaim⟩
      simp [next, listenNext, processStep, Partner.next, Partner.processNext, hnew]
  | lastSequence job hjob hclaim =>
      rw [← hjob] at hgap
      refine ⟨r, _, ?_, rfl, .sleeping⟩
      simp [next, listenNext, processStep, Partner.next, Partner.processNext, hgap]

/-- **The loop does not end on its own** for an operation that is not the next one of its
order. -/
theorem loop_goes_on (hp : c.procs t = .listening r .attempting)
    (hnew : ¬ c.store.partner.db.isDelivered r.task.event.eventId)
    (hgap : c.store.partner.db.lastSequence r.task.event.order + 1 ≠ r.task.event.sequence)
    (n : ℕ) : ∃ d, Turns (listener cfg) (running E t) t c n d := by
  suffices hrounds : ∃ d r' pc', Turns (listener cfg) (running E t) t c n d ∧ d.store = c.store ∧
      d.procs t = .listening r' pc' ∧ r'.task.event = r.task.event ∧ InVain r' pc' by
    obtain ⟨d, _, _, hturns, -⟩ := hrounds
    exact ⟨d, hturns⟩
  induction n with
  | zero => exact ⟨c, r, _, .nil, rfl, hp, rfl, .attempting⟩
  | succ n ih =>
      obtain ⟨d, r', pc', hturns, hstore, hd, hevent, hvain⟩ := ih
      rw [← hevent] at hnew hgap
      obtain ⟨r'', pc'', hnext, hevent', hvain'⟩ := hvain.step hnew hgap
      refine ⟨⟨c.store, Function.update d.procs t (.listening r'' pc'')⟩, r'', pc'',
        hturns.own (a := .go 0) ⟨trivial, fun _ => ⟨0, rfl⟩⟩ ?_, rfl,
        Function.update_self _ _ _, hevent'.trans hevent, hvain'⟩
      rw [Program.step, hd, hstore]
      exact Option.map_eq_some_iff.mpr ⟨_, hnext, rfl⟩

end OrderSystem.InPlace
