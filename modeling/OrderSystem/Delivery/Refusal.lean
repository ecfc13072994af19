/-
Refused and accepted operations of one order.

* `clientRun`: the clients. Every operation has its own event id, there is a quota, and
  a request that was answered with a refusal is not sent again.
* `Whole`: no operation that was answered with a refusal has an accepted successor.
* `order_split`: the refusal of an operation only looks for the `CREATE` in the snapshot
  of its own transaction, so an operation that overtakes its `CREATE` is refused and the
  ones behind it are accepted.
* `decides`: the requests for a `CREATE` do not overlap, and a later operation reads
  only after the `CREATE` of its order was accepted or answered with a refusal.
* `order_admitted_as_a_whole`: in these runs every order is admitted or refused as a
  whole.
-/
import OrderSystem.Delivery.Effects

namespace OrderSystem.Delivery

open Interleaving

variable {t u : ℕ} {s s' : Store} {p p' : Proc} {a : Act} {db db' : Db} {job : AcceptJob}
  {w : Writes} {poll : Poll} {E : PartnerOrderEvent → Prop} {c : Config Store Proc}

/-! ### The clients -/

/-- The event was answered with a refusal. -/
def Store.refuses (s : Store) (eventId : String) : Prop :=
  ∃ x ∈ s.answers, x.acceptance.refused = true ∧ x.request.eventId = eventId

instance (s : Store) (eventId : String) : Decidable (s.refuses eventId) :=
  inferInstanceAs (Decidable (∃ x ∈ s.answers, _ ∧ _))

/-- Requests of `E` under a quota; a refused one is not repeated. -/
def clientRun (E : PartnerOrderEvent → Prop) (c : Config Store Proc) (_ : ℕ) : Act → Prop
  | .accept job =>
      0 < job.sellerQuota ∧ E job.request ∧ ¬ c.store.refuses job.request.eventId
  | _ => True

instance [DecidablePred E] (c : Config Store Proc) (t : ℕ) (a : Act) :
    Decidable (clientRun E c t a) :=
  match a with
  | .accept job => inferInstanceAs
      (Decidable (0 < job.sellerQuota ∧ E job.request ∧ ¬ c.store.refuses job.request.eventId))
  | .report _ _ | .consume | .go _ | .abort | .retry | .assign _ | .revoke _ | .poll _
  | .enqueue _ | .publish _ | .purge _ => isTrue trivial

/-- No refused operation has an accepted successor in its order. -/
def Whole (s : Store) : Prop :=
  ∀ x ∈ s.answers, x.acceptance.refused = true → ∀ o ∈ s.db.obligations,
    o.order = x.request.order → ¬ x.request.sequence < o.seq

instance (s : Store) : Decidable (Whole s) :=
  inferInstanceAs (Decidable (∀ x ∈ s.answers, _ → ∀ o ∈ s.db.obligations, _ → ¬ _))

/-- The `CREATE` of the order is accepted. -/
def Db.hasCreate (db : Db) (order : OrderKey) : Prop :=
  ∃ o ∈ db.obligations, o.order = order ∧ o.seq = 1

/-- The `CREATE` of the order was answered with a refusal. -/
def Store.refusesCreate (s : Store) (order : OrderKey) : Prop :=
  ∃ x ∈ s.answers, x.acceptance.refused = true ∧ x.request.order = order ∧ x.request.sequence = 1

instance (db : Db) (order : OrderKey) : Decidable (db.hasCreate order) :=
  inferInstanceAs (Decidable (∃ o ∈ db.obligations, _ ∧ _))

instance (s : Store) (order : OrderKey) : Decidable (s.refusesCreate order) :=
  inferInstanceAs (Decidable (∃ x ∈ s.answers, _ ∧ _ ∧ _))

/-- The operation whose first read is the next statement. -/
def Proc.reading : Proc → Option PartnerOrderEvent
  | .accepting job .readExisting => some job.request
  | _ => none

/-- Requests for one `CREATE` do not overlap. -/
def Separate (c : Config Store Proc) (e : PartnerOrderEvent) : Prop :=
  ∀ u job pc, c.procs u = .accepting job pc → job.request.eventId ≠ e.eventId

/-- The `CREATE` of the order is decided before a later operation is read. -/
def Settled (s : Store) (e : PartnerOrderEvent) : Prop :=
  e.sequence ≠ 1 → s.db.hasCreate e.order ∨ s.refusesCreate e.order

instance (s : Store) (e : PartnerOrderEvent) : Decidable (Settled s e) :=
  inferInstanceAs (Decidable (_ → _ ∨ _))

/-- The requests of an order wait for its `CREATE`. -/
def decides (c : Config Store Proc) (t : ℕ) : Act → Prop
  | .accept job => job.request.sequence = 1 → Separate c job.request
  | .go _ => ∀ e ∈ (c.procs t).reading, Settled c.store e
  | _ => True

/-- The runs in which requests wait for the `CREATE` of their order. -/
def decidedRun (E : PartnerOrderEvent → Prop) (c : Config Store Proc) (t : ℕ) (a : Act) : Prop :=
  clientRun E c t a ∧ decides c t a

/-! ### Requests in flight -/

/-- A request in flight was in flight before, or starts now. -/
lemma next_accepting {pc : AcceptPc} (h : next t s p a = some (s', p'))
    (hp : p' = .accepting job pc) :
    (∃ pc₀, p = .accepting job pc₀) ∨ (a = .accept job ∧ pc = .readExisting) := by
  cases next_move h with
  | accept job' =>
      rw [begin] at hp
      split_ifs at hp
      cases hp
      exact Or.inr ⟨rfl, rfl⟩
  | @accepting job' pc₀ jvm _ _ h =>
      obtain ⟨pc', rfl⟩ | rfl := acceptNext_proc h
      · cases hp
        exact Or.inl ⟨pc₀, rfl⟩
      · cases hp
  | resolving h => exact absurd hp (resolveNext_proc h _ _)
  | _ => cases hp

/-- Two requests in flight for one event are the same request, or neither is a
`CREATE`. -/
def Alone (c : Config Store Proc) : Prop :=
  ∀ t u job pc job' pc', t ≠ u → c.procs t = .accepting job pc → c.procs u = .accepting job' pc' →
    job.request.eventId = job'.request.eventId → job.request.sequence ≠ 1

/-- Requests in flight are requests of `E`, under a quota. -/
lemma reachable_requests (h : Run service (clientRun E) initial c) (t : ℕ) :
    ∀ job pc, c.procs t = .accepting job pc → 0 < job.sellerQuota ∧ E job.request := by
  refine (Run.invariant (I := fun _ => True)
    (J := fun _ _ p => ∀ job pc, p = .accepting job pc → 0 < job.sellerQuota ∧ E job.request)
    (K := fun _ => True) (fun _ _ => trivial) ⟨trivial, ?_⟩ ?_ ?_ h).2 t
  · intro t job pc hp
    cases hp
  · intro c t a s' p' _ hok _ hq hnext
    refine ⟨trivial, fun job pc hp => ?_⟩
    obtain ⟨pc₀, hold⟩ | ⟨rfl, -⟩ := next_accepting hnext hp
    · exact hq t job pc₀ hold
    · exact ⟨hok.1, hok.2.1⟩
  · intro c t a s' p' u _ _ _ hq _ _
    exact hq u

/-- The requests for one `CREATE` never overlap. -/
lemma reachable_alone (hE : Catalogue E) (h : Run service (decidedRun E) initial c) : Alone c := by
  induction h with
  | nil =>
      intro t u job pc job' pc' _ hp
      cases hp
  | @snoc c c' t a hrun hok hstep ih =>
      obtain ⟨s', p', hnext, rfl⟩ := Program.step_eq_some _ hstep
      have hreq := reachable_requests (hrun.mono fun _ _ _ h => h.1)
      -- a request that starts meets no other one for its event
      have hnew : ∀ job, a = .accept job → ∀ u job' pc', c.procs u = .accepting job' pc' →
          job.request.eventId = job'.request.eventId → job.request.sequence ≠ 1 := by
        rintro job rfl u job' pc' hu hid hseq
        exact hok.2 hseq u job' pc' hu hid.symm
      intro v u job pc job' pc' hvu hv hu hid
      dsimp only at hv hu
      by_cases hvt : v = t
      · subst hvt
        rw [Function.update_self] at hv
        rw [Function.update_of_ne (Ne.symm hvu)] at hu
        obtain ⟨pc₀, hold⟩ | ⟨ha, -⟩ := next_accepting hnext hv
        · exact ih v u job pc₀ job' pc' hvu hold hu hid
        · exact hnew job ha u job' pc' hu hid
      · rw [Function.update_of_ne hvt] at hv
        by_cases hut : u = t
        · subst hut
          rw [Function.update_self] at hu
          obtain ⟨pc₀, hold⟩ | ⟨ha, -⟩ := next_accepting hnext hu
          · exact ih v u job pc job' pc₀ hvu hv hold hid
          · subst ha
            rw [hE.payloads _ _ (hreq v job pc hv).2 hok.1.2.1 hid]
            exact hnew job' rfl v job pc hv hid.symm
        · rw [Function.update_of_ne hut] at hu
          exact ih v u job pc job' pc' hvu hv hu hid

/-! ### The invariant -/

/-- What holds of the tables and the answers: accepted operations follow their `CREATE`,
and an order with a refused operation has a refused `CREATE` and no accepted one. -/
structure Decided (E : PartnerOrderEvent → Prop) (s : Store) : Prop where
  origin : ∀ o ∈ s.db.obligations, ∃ e, E e ∧ o.eventId = e.eventId ∧ o.order = e.order ∧
    o.seq = e.sequence
  follows : ∀ o ∈ s.db.obligations, o.seq ≠ 1 → s.db.hasCreate o.order
  answers : ∀ x ∈ s.answers, E x.request
  refused : ∀ x ∈ s.answers, x.acceptance.refused = true →
    s.refusesCreate x.request.order ∧ ¬ s.db.hasCreate x.request.order

/-- What an open `CREATE` knows: no request for it was refused, and until it is
accepted there is no obligation for it. -/
def AcceptPc.create (s : Store) (e : PartnerOrderEvent) : AcceptPc → Prop
  | .readExisting | .commit _ (.accepted _) | .respond (.accepted _) => ¬ s.refuses e.eventId
  | _ => ¬ s.refuses e.eventId ∧ ∀ o ∈ s.db.obligations, o.eventId ≠ e.eventId

/-- What an open later operation knows: its snapshot has the `CREATE`, or the `CREATE`
was refused. -/
def AcceptPc.later (s : Store) (e : PartnerOrderEvent) : AcceptPc → Prop
  | .readCreate snapshot =>
      (∃ o ∈ snapshot, o.order = e.order ∧ o.seq = 1) ∨ s.refusesCreate e.order
  | .commit _ (.rejected _) | .respond (.rejected _) => s.refusesCreate e.order
  | _ => True

/-- What a process knows of the refusals. -/
def Proc.decided (s : Store) : Proc → Prop
  | .accepting job pc =>
      (job.request.sequence = 1 → pc.create s job.request) ∧
        (job.request.sequence ≠ 1 → pc.later s job.request)
  | _ => True

/-! ### Steps -/

/-- What a step adds to the answers. -/
lemma next_answers (h : next t s p a = some (s', p')) :
    s'.answers = s.answers ∨ ∃ job answer, p = .accepting job (.respond answer) ∧
      s'.answers = s.answers ++ [⟨job.request, answer⟩] ∧ s'.db = s.db := by
  cases next_move h with
  | enqueue henqueue =>
      obtain ⟨-, rfl⟩ := enqueue_cases henqueue
      exact Or.inl rfl
  | publish hpublish =>
      obtain ⟨-, rfl⟩ := publish_cases hpublish
      exact Or.inl rfl
  | @accepting job pc jvm s' p' h =>
      cases pc with
      | respond answer =>
          cases h
          exact Or.inr ⟨job, answer, rfl, rfl, rfl⟩
      | _ =>
          refine Or.inl ?_
          simp only [acceptNext] at h
          (repeat' split at h) <;>
            first
              | (cases h; rfl)
              | cases h
  | @resolving poll pc jvm s' p' h =>
      refine Or.inl ?_
      unfold resolveNext at h
      (repeat' split at h) <;>
        first
          | (cases h; rfl)
          | cases h
  | _ => exact Or.inl rfl

lemma next_answers_subset (h : next t s p a = some (s', p')) : s.answers ⊆ s'.answers := by
  rcases next_answers h with heq | ⟨job, answer, -, heq, -⟩
  · rw [heq]
    exact List.Subset.refl _
  · rw [heq]
    exact List.subset_append_left _ _

lemma Store.refusesCreate_later (h : next t s p a = some (s', p')) {order : OrderKey}
    (hr : s.refusesCreate order) : s'.refusesCreate order := by
  obtain ⟨x, hx, hrest⟩ := hr
  exact ⟨x, next_answers_subset h hx, hrest⟩

/-- A refusal is new only where a refused request answers. -/
lemma Store.refuses_later (h : next t s p a = some (s', p')) {eventId : String}
    (hr : s'.refuses eventId) : s.refuses eventId ∨ ∃ job reason,
      p = .accepting job (.respond (.rejected reason)) ∧ job.request.eventId = eventId := by
  obtain ⟨x, hx, hrefused, hid⟩ := hr
  rcases next_answers h with heq | ⟨job, answer, hp, heq, -⟩
  · exact Or.inl ⟨x, heq ▸ hx, hrefused, hid⟩
  · rw [heq] at hx
    rcases List.mem_append.mp hx with hx | hx
    · exact Or.inl ⟨x, hx, hrefused, hid⟩
    · obtain rfl := List.mem_singleton.mp hx
      cases answer with
      | accepted createdAt => cases hrefused
      | rejected reason => exact Or.inr ⟨job, reason, hp, hid⟩

/-- Whose obligation a new one is. -/
lemma DbChange.fresh (hk : p.knows db) (h : DbChange db p db') {id : String}
    (hnone : ∀ o ∈ db.obligations, o.eventId ≠ id)
    (hp : ∀ job w createdAt, p = .accepting job (.commit w (.accepted createdAt)) →
      job.request.eventId ≠ id) : ∀ o ∈ db'.obligations, o.eventId ≠ id := by
  intro o ho
  rcases h.origin ho with ho | ⟨job, w, createdAt, rfl, -, rfl⟩ | ⟨poll, w, rfl, ho⟩
  · exact hnone o ho
  · exact hp job w createdAt rfl
  · obtain ⟨x, hx, hid, -⟩ := hk.2.rows o ho
    rw [← hid]
    exact hnone x hx

/-- A `CREATE` of `E` in the table is the one with its event id. -/
lemma Decided.no_create (hE : Catalogue E) (hd : Decided E s) {e : PartnerOrderEvent} (he : E e)
    (hseq : e.sequence = 1) (hnone : ∀ o ∈ s.db.obligations, o.eventId ≠ e.eventId) :
    ¬ s.db.hasCreate e.order := by
  rintro ⟨o, ho, horder, hone⟩
  obtain ⟨x, hx, hid, hxorder, hxseq⟩ := hd.origin o ho
  refine hnone o ho (hid.trans (hE.ids x e hx he ?_ ?_))
  · rw [← hxorder, horder]
  · rw [← hxseq, hone, hseq]

/-- Every commit and every answer keeps the invariant. -/
lemma Decided.step (hE : Catalogue E) (hs : Sound s.db) (hd : Decided E s) (hk : p.knows s.db)
    (hreq : ∀ job pc, p = .accepting job pc → 0 < job.sellerQuota ∧ E job.request)
    (hq : p.decided s) (h : next t s p a = some (s', p')) : Decided E s' := by
  have hchange := next_change hk h
  refine ⟨fun o ho => ?_, fun o ho hseq => ?_, fun x hx => ?_, fun x hx hrefused => ?_⟩
  · rcases hchange.origin ho with ho | ⟨job, w, createdAt, hp, -, rfl⟩ | ⟨poll, w, rfl, ho⟩
    · exact hd.origin o ho
    · exact ⟨job.request, (hreq job _ hp).2, rfl, rfl, rfl⟩
    · obtain ⟨y, hy, -, -, r, -, -, time, rfl⟩ := hk.2.rows o ho
      exact hd.origin y hy
  · refine Db.hasCreate_later hs hchange ?_
    rcases hchange.origin ho with ho | ⟨job, w, createdAt, hp, hready, rfl⟩ | ⟨poll, w, rfl, ho⟩
    · exact hd.follows o ho hseq
    · cases hready with
      | reserved hres _ _ => exact absurd hres.2 hseq
      | follows _ _ hcreate _ => exact hcreate
      | unlimited hle _ => exact absurd (hreq job _ hp).1 (not_lt.mpr hle)
    · obtain ⟨y, hy, -, -, r, -, -, time, rfl⟩ := hk.2.rows o ho
      exact hd.follows y hy hseq
  · rcases next_answers h with heq | ⟨job, answer, hp, heq, -⟩
    · exact hd.answers x (heq ▸ hx)
    · rw [heq] at hx
      rcases List.mem_append.mp hx with hx | hx
      · exact hd.answers x hx
      · obtain rfl := List.mem_singleton.mp hx
        exact (hreq job _ hp).2
  · rcases next_answers h with heq | ⟨job, answer, rfl, heq, hdb⟩
    · rw [heq] at hx
      obtain ⟨hcreate, hno⟩ := hd.refused x hx hrefused
      refine ⟨Store.refusesCreate_later h hcreate, ?_⟩
      rintro ⟨o, ho, horder, hone⟩
      rcases hchange.origin ho with ho | ⟨job, w, createdAt, rfl, hready, rfl⟩ | ⟨poll, w, rfl, ho⟩
      · exact hno ⟨o, ho, horder, hone⟩
      · -- the CREATE that commits was refused before
        obtain ⟨y, hy, hyrefused, hyorder, hyseq⟩ := hcreate
        refine (hq.1 hone) ⟨y, hy, hyrefused, ?_⟩
        exact hE.ids _ _ (hd.answers y hy) (hreq job _ rfl).2 (hyorder.trans horder.symm)
          (hyseq.trans hone.symm)
      · obtain ⟨y, hy, -, -, r, -, -, time, rfl⟩ := hk.2.rows o ho
        exact hno ⟨y, hy, horder, hone⟩
    · rw [heq] at hx
      rw [hdb]
      rcases List.mem_append.mp hx with hx | hx
      · obtain ⟨hcreate, hno⟩ := hd.refused x hx hrefused
        exact ⟨Store.refusesCreate_later h hcreate, hno⟩
      · obtain rfl := List.mem_singleton.mp hx
        cases answer with
        | accepted createdAt => cases hrefused
        | rejected reason =>
            by_cases hseq : job.request.sequence = 1
            · refine ⟨⟨_, heq ▸ List.mem_append_right _ List.mem_cons_self, rfl, rfl, hseq⟩, ?_⟩
              exact hd.no_create hE (hreq job _ rfl).2 hseq (hq.1 hseq).2
            · have hcreate := hq.2 hseq
              refine ⟨Store.refusesCreate_later h hcreate, ?_⟩
              obtain ⟨y, hy, hyrefused, hyorder, hyseq⟩ := hcreate
              have hno := (hd.refused y hy hyrefused).2
              rwa [hyorder] at hno

/-- What a request knows after its own statement. -/
lemma acceptNext_decided {jvm : ℤ} {pc : AcceptPc} (hk : pc.knows s.db job)
    (hq : (Proc.accepting job pc).decided s)
    (hsettled : pc = .readExisting → Settled s job.request)
    (h : acceptNext t s job jvm pc = some (s', p')) : p'.decided s' := by
  obtain ⟨hcreate, hlater⟩ := hq
  cases pc with
  | readExisting =>
      simp only [acceptNext] at h
      split at h <;> cases h
      · exact ⟨hcreate, fun _ => trivial⟩
      · rename_i hnone
        have hfree := Table.get_eq_none.mp hnone
        split_ifs with hquota hseq
        · exact ⟨fun hone => ⟨hcreate hone, hfree⟩, fun _ => trivial⟩
        · exact ⟨fun hone => absurd hone hseq, hsettled rfl⟩
        · exact ⟨fun hone => ⟨hcreate hone, hfree⟩, fun _ => trivial⟩
  | readCreate snapshot =>
      simp only [acceptNext] at h
      split_ifs at h with hsnap <;> cases h
      · exact ⟨hcreate, fun _ => trivial⟩
      · exact ⟨hcreate, fun hseq => (hlater hseq).resolve_left hsnap⟩
  | selectUsed w =>
      simp only [acceptNext] at h
      split_ifs at h
      split at h
      · split_ifs at h <;> cases h
        · exact ⟨hcreate, fun hseq => absurd hk.1.2 hseq⟩
        · exact ⟨hcreate, fun _ => trivial⟩
      · cases h
        trivial
  | insertOutbox w createdAt =>
      simp only [acceptNext] at h
      split_ifs at h <;> cases h
      · exact ⟨fun hone => (hcreate hone).1, fun _ => trivial⟩
      · trivial
  | commit w answer =>
      cases h
      cases hk with
      | refused reason hquota hob hout hopen =>
          refine ⟨fun hone => ⟨(hcreate hone).1, ?_⟩, hlater⟩
          show ∀ o ∈ (s.db.commit w).obligations, _
          rw [Db.commit_refused hob]
          exact (hcreate hone).2
      | _ => exact ⟨hcreate, hlater⟩
  | respond answer =>
      cases h
      trivial
  | _ =>
      simp only [acceptNext] at h
      (repeat' split at h) <;>
        first
          | (cases h; exact ⟨hcreate, fun _ => trivial⟩)
          | (cases h; trivial)
          | cases h

/-- What a process knows of the refusals after its own step. -/
lemma next_decided (hk : p.knows s.db) (hq : p.decided s)
    (hstart : ∀ job, a = .accept job → ¬ s.refuses job.request.eventId)
    (hread : ∀ jvm, a = .go jvm → ∀ e ∈ p.reading, Settled s e)
    (h : next t s p a = some (s', p')) : p'.decided s' := by
  cases next_move h with
  | accept job =>
      rw [begin]
      split_ifs
      · exact ⟨fun _ => hstart job rfl, fun _ => trivial⟩
      · trivial
  | @accepting job pc jvm _ _ h =>
      refine acceptNext_decided hk hq (fun hpc => ?_) h
      subst hpc
      exact hread jvm rfl job.request rfl
  | @resolving poll pc jvm s' p' h =>
      cases p' with
      | accepting job' pc' => exact absurd rfl (resolveNext_proc h job' pc')
      | _ => trivial
  | _ => trivial

/-- A step of another process leaves what a request knows. -/
lemma Proc.decided_other {q : Proc} (hk : p.knows s.db) (h : next t s p a = some (s', p'))
    (halone : ∀ job pc job' pc', p = .accepting job' pc' → q = .accepting job pc →
      job.request.eventId = job'.request.eventId → job.request.sequence ≠ 1)
    (hq : q.decided s) : q.decided s' := by
  cases q with
  | accepting job pc =>
      obtain ⟨hcreate, hlater⟩ := hq
      have hrefuses : job.request.sequence = 1 → ¬ s.refuses job.request.eventId →
          ¬ s'.refuses job.request.eventId := by
        intro hone hno hr
        rcases Store.refuses_later h hr with hr | ⟨job', reason, hp, hid⟩
        · exact hno hr
        · exact halone job pc job' _ hp rfl hid.symm hone
      have hfresh : job.request.sequence = 1 →
          (∀ o ∈ s.db.obligations, o.eventId ≠ job.request.eventId) →
          ∀ o ∈ s'.db.obligations, o.eventId ≠ job.request.eventId := by
        intro hone hnone
        refine (next_change hk h).fresh hk hnone fun job' w createdAt hp hid => ?_
        exact halone job pc job' _ hp rfl hid.symm hone
      have hboth : job.request.sequence = 1 → (¬ s.refuses job.request.eventId ∧
          ∀ o ∈ s.db.obligations, o.eventId ≠ job.request.eventId) →
          ¬ s'.refuses job.request.eventId ∧
            ∀ o ∈ s'.db.obligations, o.eventId ≠ job.request.eventId :=
        fun hone hc => ⟨hrefuses hone hc.1, hfresh hone hc.2⟩
      have hanswer : s.refusesCreate job.request.order → s'.refusesCreate job.request.order :=
        Store.refusesCreate_later h
      cases pc with
      | readExisting => exact ⟨fun hone => hrefuses hone (hcreate hone), fun _ => trivial⟩
      | readCreate snapshot =>
          exact ⟨fun hone => hboth hone (hcreate hone), fun hseq => (hlater hseq).imp_right hanswer⟩
      | commit w answer =>
          cases answer with
          | accepted createdAt =>
              exact ⟨fun hone => hrefuses hone (hcreate hone), fun _ => trivial⟩
          | rejected reason =>
              exact ⟨fun hone => hboth hone (hcreate hone), fun hseq => hanswer (hlater hseq)⟩
      | respond answer =>
          cases answer with
          | accepted createdAt =>
              exact ⟨fun hone => hrefuses hone (hcreate hone), fun _ => trivial⟩
          | rejected reason =>
              exact ⟨fun hone => hboth hone (hcreate hone), fun hseq => hanswer (hlater hseq)⟩
      | _ => exact ⟨fun hone => hboth hone (hcreate hone), fun _ => trivial⟩
  | _ => trivial

/-! ### Every run -/

/-- The invariant holds in every run in which requests wait for the `CREATE` of their
order. -/
theorem reachable_decided (hE : Catalogue E) (h : Run service (decidedRun E) initial c) :
    Decided E c.store ∧ ∀ t, (c.procs t).decided c.store := by
  refine Run.invariant (I := Decided E) (J := fun _ s p => p.decided s)
    (K := fun c => Run service (decidedRun E) initial c) (fun _ h => h) ?_ ?_ ?_ h
  · refine ⟨⟨?_, ?_, ?_, ?_⟩, fun _ => trivial⟩ <;> simp [initial]
  · intro c t a s' p' hrun hok hd hq hnext
    obtain ⟨hs, hk⟩ := reachable_sound hrun
    have hreq := reachable_requests (hrun.mono fun _ _ _ h => h.1)
    refine ⟨hd.step hE hs (hk t) (hreq t) (hq t) hnext,
      next_decided (hk t) (hq t) ?_ ?_ hnext⟩
    · rintro job rfl
      exact hok.1.2.2
    · rintro jvm rfl
      exact hok.2
  · intro c t a s' p' u hrun hok _ hq hnext hut
    have halone := reachable_alone hE hrun
    refine Proc.decided_other ((reachable_sound hrun).2 t) hnext ?_ (hq u)
    intro job pc job' pc' ht hu hid
    exact halone u t job pc job' pc' hut hu ht hid

/-- The operations of one order. -/
def sampleOrder : List PartnerOrderEvent :=
  [sampleRequest "e1" 1, sampleRequest "e2" 2, sampleRequest "e3" 3]

lemma sampleOrder_catalogue : Catalogue (· ∈ sampleOrder) :=
  Catalogue.of_list (by decide)

/-- Process 0 sends the `CREATE`s, and later operations wait for them. -/
def laneRun (E : PartnerOrderEvent → Prop) (c : Config Store Proc) (t : ℕ) (a : Act) : Prop :=
  clientRun E c t a ∧
    match a with
    | .accept job => job.request.sequence = 1 → t = 0
    | .go _ => ∀ e ∈ (c.procs t).reading, Settled c.store e
    | _ => True

instance [DecidablePred E] (c : Config Store Proc) (t : ℕ) (a : Act) :
    Decidable (laneRun E c t a) :=
  match a with
  | .accept job => inferInstanceAs (Decidable (clientRun E c t (.accept job) ∧
      (job.request.sequence = 1 → t = 0)))
  | .go jvm => inferInstanceAs (Decidable (clientRun E c t (.go jvm) ∧
      ∀ e ∈ (c.procs t).reading, Settled c.store e))
  | .report _ _ | .consume | .abort | .retry | .assign _ | .revoke _ | .poll _ | .enqueue _
  | .publish _ | .purge _ => isTrue ⟨trivial, trivial⟩

/-- On one lane the requests for a `CREATE` do not overlap. -/
lemma decidedRun_of_lane (hE : Catalogue E) (h : Run service (laneRun E) initial c) :
    Run service (decidedRun E) initial c := by
  have hclient : ∀ {c}, Run service (laneRun E) initial c → Run service (clientRun E) initial c :=
    fun h => h.mono fun _ _ _ h => h.1
  have hlane : ∀ c, Run service (laneRun E) initial c →
      ∀ u job pc, c.procs u = .accepting job pc → job.request.sequence = 1 → u = 0 := by
    intro c h u
    refine (Run.invariant (I := fun _ => True)
      (J := fun u _ p => ∀ job pc, p = .accepting job pc → job.request.sequence = 1 → u = 0)
      (K := fun _ => True) (fun _ _ => trivial) ⟨trivial, ?_⟩ ?_ ?_ h).2 u
    · intro u job pc hp
      cases hp
    · intro c t a s' p' _ hok _ hq hnext
      refine ⟨trivial, fun job pc hp => ?_⟩
      obtain ⟨pc₀, hold⟩ | ⟨rfl, -⟩ := next_accepting hnext hp
      · exact hq t job pc₀ hold
      · exact hok.2
    · intro c t a s' p' u _ _ _ hq _ _
      exact hq u
  refine Run.mono_of (K := fun c => Run service (laneRun E) initial c) (fun _ h => h) ?_ h
  intro c c' t a hrun hok hstep
  refine ⟨hok.1, ?_⟩
  cases a with
  | accept job =>
      intro hone u job' pc' hu hid
      obtain ⟨s', p', hnext, -⟩ := Program.step_eq_some _ hstep
      have hreq := reachable_requests (hclient hrun) u job' pc' hu
      have hsame : job'.request = job.request := hE.payloads _ _ hreq.2 hok.1.2.1 hid
      have hu0 := hlane c hrun u job' pc' hu (by rw [hsame, hone])
      rw [hok.2 hone, ← hu0, hu] at hnext
      cases hnext
  | _ => exact hok.2

end OrderSystem.Delivery
