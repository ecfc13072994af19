/-
What a step of the delivery tracking does to the tables, and what a transaction may
rely on.

* `Opened`, `Ready`, `Outcome`: what an open `accept` has found and written, before
  the reservation, after it, and at its commit.
* `Closing`: what an open `receive` has written: obligations it found open, and quota
  rows that did not grow.
* `DbChange`, `LogChange`: the four commits, and what happens to the logs. `keeps`: obligations stay, and resolved ones do not
  change; `obligation_locked`, `quota_locked`: a locked row does not change.
* `reachable_sound`: in every run the keys are unique and every process may rely on
  what it read.
-/
import OrderSystem.Delivery.Steps

namespace OrderSystem.Delivery

open Interleaving
open Orders (OutboxRow javaInt javaInt_eq)

variable {t u : ℕ} {s s' : Store} {p p' : Proc} {a : Act} {db db' : Db} {job : AcceptJob}
  {w : Writes} {poll : Poll}

/-! ### Open transactions -/

/-- The request has to reserve the units of its order. -/
def AcceptJob.reserves (job : AcceptJob) : Prop :=
  0 < job.sellerQuota ∧ job.request.sequence = 1

/-- The transaction has at most inserted the quota row of the seller. -/
inductive Opened (db : Db) (seller : String) (w : Writes) : Prop
  | untouched (h : w.quotas = [])
  | inserted (h : w.quotas = [⟨seller, 0⟩]) (hnone : db.quota seller = none)

/-- The transaction has passed the quota: it reserved the units of a new order, or
found the order, or there is no quota. -/
inductive Ready (db : Db) (job : AcceptJob) (w : Writes) : Prop
  | reserved (h : job.reserves)
      (hq : w.quotas = [⟨job.request.sellerId, db.used job.request.sellerId + operationsPerOrder⟩])
      (hle : db.used job.request.sellerId + operationsPerOrder ≤ job.sellerQuota)
  | follows (h : 0 < job.sellerQuota) (hseq : job.request.sequence ≠ 1)
      (hcreate : ∃ o ∈ db.obligations, o.order = job.request.order ∧ o.seq = 1)
      (hq : w.quotas = [])
  | unlimited (h : job.sellerQuota ≤ 0) (hq : w.quotas = [])

/-- What `accept` commits with its answer. -/
inductive Outcome (db : Db) (job : AcceptJob) (w : Writes) : Acceptance → Prop
  | repeated {o : Obligation} {createdAt : ℤ} (hw : w = {}) (ho : o ∈ db.obligations)
      (hid : o.eventId = job.request.eventId) : Outcome db job w (.accepted createdAt)
  | refused (reason : String) (h : 0 < job.sellerQuota) (hob : w.obligations = [])
      (hout : w.outbox = []) (hopen : Opened db job.request.sellerId w) :
      Outcome db job w (.rejected reason)
  | accepted {createdAt : ℤ} (n : ℕ) (hob : w.obligations = [.of job.request createdAt])
      (hout : w.outbox = [outboxRow n job.routingKey (published job.request createdAt)])
      (hnone : db.obligation job.request.eventId = none) (hready : Ready db job w) :
      Outcome db job w (.accepted createdAt)

/-- The obligations of a snapshot are still there. -/
def Snapshot (db : Db) (snapshot : List Obligation) : Prop :=
  ∀ o ∈ snapshot, ∃ x ∈ db.obligations, x.order = o.order ∧ x.seq = o.seq

/-- What an `accept` may rely on before its next statement. -/
def AcceptPc.knows (db : Db) (job : AcceptJob) : AcceptPc → Prop
  | .readExisting => True
  | .insertQuota => job.reserves
  | .selectUsed w =>
      job.reserves ∧ w.obligations = [] ∧ w.outbox = [] ∧ Opened db job.request.sellerId w
  | .updateUsed w =>
      job.reserves ∧ w.obligations = [] ∧ w.outbox = [] ∧ Opened db job.request.sellerId w ∧
        ∃ q, w.viewQuota db job.request.sellerId = some q ∧
          javaInt (q.used + operationsPerOrder) ≤ job.sellerQuota
  | .readCreate snapshot =>
      0 < job.sellerQuota ∧ job.request.sequence ≠ 1 ∧ Snapshot db snapshot
  | .insertObligation w => w.obligations = [] ∧ w.outbox = [] ∧ Ready db job w
  | .insertOutbox w createdAt =>
      w.obligations = [.of job.request createdAt] ∧ w.outbox = [] ∧
        db.obligation job.request.eventId = none ∧ Ready db job w
  | .commit w answer => Outcome db job w answer
  | .respond _ => True

/-- What an open `receive` has written. -/
structure Closing (db : Db) (poll : Poll) (w : Writes) : Prop where
  ids : Table.Unique Obligation.eventId w.obligations
  rows : ∀ x ∈ w.obligations, ∃ o ∈ db.obligations, o.eventId = x.eventId ∧ o.resolvedAt = none ∧
    ∃ r ∈ poll.records, r.eventId = x.eventId ∧ ∃ time, x = o.resolve time r.completedAt
  sellers : Table.Unique QuotaRow.sellerId w.quotas
  quotas : ∀ x ∈ w.quotas, ∃ q ∈ db.quotas, q.sellerId = x.sellerId ∧ 0 ≤ x.used ∧ x.used ≤ q.used
  outbox : w.outbox = []

/-- What a `receive` may rely on before its next statement. -/
def ResolvePc.knows (db : Db) (poll : Poll) : ResolvePc → Prop
  | .update todo w => todo ⊆ poll.records ∧ Closing db poll w
  | .giveBack _ todo w => todo ⊆ poll.records ∧ Closing db poll w
  | .acknowledge => True

/-- What a process may rely on. -/
def Proc.knows (db : Db) : Proc → Prop
  | .idle | .consuming _ => True
  | .accepting job pc => pc.knows db job
  | .resolving poll pc => pc.knows db poll

/-- The key constraints, and units in use that are not negative. -/
structure Sound (db : Db) : Prop where
  ids : Table.Unique Obligation.eventId db.obligations
  sellers : Table.Unique QuotaRow.sellerId db.quotas
  used : ∀ q ∈ db.quotas, 0 ≤ q.used

lemma sound_empty : Sound {} :=
  ⟨List.nodup_nil, List.nodup_nil, by simp⟩

/-! ### Units in use -/

lemma Db.used_of_quota {seller : String} {q : QuotaRow} (h : db.quota seller = some q) :
    db.used seller = q.used := by
  rw [Db.used, h]
  rfl

lemma Db.used_of_none {seller : String} (h : db.quota seller = none) : db.used seller = 0 := by
  rw [Db.used, h]
  rfl

lemma Sound.used_nonneg (hs : Sound db) (seller : String) : 0 ≤ db.used seller := by
  cases h : db.quota seller with
  | none => rw [Db.used_of_none h]
  | some q =>
      rw [Db.used_of_quota h]
      exact hs.used q (Table.mem_of_get h)

/-- The units in use after a commit are the ones the transaction saw. -/
lemma Db.quota_commit (hs : Sound db) (hw : Table.Unique QuotaRow.sellerId w.quotas)
    (seller : String) : (db.commit w).quota seller = w.viewQuota db seller :=
  Table.get_putAll hs.sellers hw seller

lemma Db.used_commit_ne (hs : Sound db) (hw : Table.Unique QuotaRow.sellerId w.quotas)
    {seller : String} (h : ∀ q ∈ w.quotas, q.sellerId ≠ seller) :
    (db.commit w).used seller = db.used seller := by
  rw [Db.used, Db.quota_commit hs hw, Writes.viewQuota, Table.get_eq_none.mpr h, Option.none_or,
    Db.used]

lemma Db.used_commit_mem (hs : Sound db) (hw : Table.Unique QuotaRow.sellerId w.quotas)
    {q : QuotaRow} (h : q ∈ w.quotas) : (db.commit w).used q.sellerId = q.used := by
  rw [Db.used, Db.quota_commit hs hw, Writes.viewQuota, (Table.get_eq_some hw).mpr ⟨h, rfl⟩]
  rfl

lemma Opened.unique {seller : String} (h : Opened db seller w) :
    Table.Unique QuotaRow.sellerId w.quotas := by
  cases h with
  | untouched h => simp [h, Table.Unique]
  | inserted h hnone => simp [h, Table.Unique]

/-- A transaction that at most inserted an empty quota row changes no units. -/
lemma Opened.used (hs : Sound db) {seller : String} (h : Opened db seller w) (who : String) :
    (db.commit w).used who = db.used who := by
  have hw := h.unique
  cases h with
  | untouched h => exact Db.used_commit_ne hs hw (by simp [h])
  | inserted h hnone =>
      by_cases hwho : who = seller
      · subst hwho
        rw [Db.used_commit_mem hs hw (q := ⟨who, 0⟩) (by simp [h]), Db.used_of_none hnone]
      · exact Db.used_commit_ne hs hw (by simpa [h] using fun hne => hwho hne.symm)

/-- The quota rows of a transaction that passed the quota. -/
lemma Ready.unique (h : Ready db job w) : Table.Unique QuotaRow.sellerId w.quotas := by
  cases h with
  | reserved _ hq _ => simp [hq, Table.Unique]
  | follows _ _ _ hq => simp [hq, Table.Unique]
  | unlimited _ hq => simp [hq, Table.Unique]

lemma Ready.congr {w' : Writes} (h : Ready db job w) (hq : w'.quotas = w.quotas) :
    Ready db job w' := by
  cases h with
  | reserved hres hw hle => exact .reserved hres (hq.trans hw) hle
  | follows hQ hseq hcreate hw => exact .follows hQ hseq hcreate (hq.trans hw)
  | unlimited hQ hw => exact .unlimited hQ (hq.trans hw)

/-! ### Commits -/

/-- What a step does to obligations and quotas. -/
inductive DbChange (db : Db) (p : Proc) (db' : Db) : Prop
  | same (hob : db'.obligations = db.obligations) (hq : db'.quotas = db.quotas)
  | refused {job : AcceptJob} {w : Writes} {reason : String}
      (hp : p = .accepting job (.commit w (.rejected reason)))
      (hob : w.obligations = []) (hopen : Opened db job.request.sellerId w)
      (h : db' = db.commit w)
  | accepted {job : AcceptJob} {w : Writes} {createdAt : ℤ}
      (hp : p = .accepting job (.commit w (.accepted createdAt)))
      (hob : w.obligations = [.of job.request createdAt])
      (hnone : db.obligation job.request.eventId = none) (hready : Ready db job w)
      (h : db' = db.commit w)
  | resolved {poll : Poll} {w : Writes} (hp : p = .resolving poll (.update [] w))
      (hclose : Closing db poll w) (h : db' = db.commit w)

/-- The obligation is the same operation, and once resolved it does not change. -/
structure Obligation.Kept (o o' : Obligation) : Prop where
  eventId : o'.eventId = o.eventId
  order : o'.order = o.order
  seq : o'.seq = o.seq
  createdAt : o'.createdAt = o.createdAt
  resolved : o.resolvedAt ≠ none → o' = o

lemma Obligation.Kept.refl (o : Obligation) : o.Kept o :=
  ⟨rfl, rfl, rfl, rfl, fun _ => rfl⟩

lemma Obligation.Kept.resolve {o : Obligation} (h : o.resolvedAt = none) (time completedAt : ℤ) :
    o.Kept (o.resolve time completedAt) :=
  ⟨rfl, rfl, rfl, rfl, fun hne => absurd h hne⟩

lemma Obligation.Kept.trans {o o' o'' : Obligation} (h : o.Kept o') (h' : o'.Kept o'') :
    o.Kept o'' where
  eventId := h'.eventId.trans h.eventId
  order := h'.order.trans h.order
  seq := h'.seq.trans h.seq
  createdAt := h'.createdAt.trans h.createdAt
  resolved hres := by
    obtain rfl := h.resolved hres
    exact h'.resolved hres

/-- The obligations after the commit of an accepted operation. -/
lemma Db.commit_accepted {createdAt : ℤ} (hob : w.obligations = [.of job.request createdAt])
    (hnone : db.obligation job.request.eventId = none) :
    (db.commit w).obligations = db.obligations ++ [.of job.request createdAt] := by
  rw [Db.commit, hob, Table.putAll_cons, Table.putAll_nil]
  exact Table.put_of_new (Table.get_eq_none.mp hnone)

lemma Db.commit_refused (hob : w.obligations = []) :
    (db.commit w).obligations = db.obligations := by
  rw [Db.commit, hob, Table.putAll_nil]

lemma Closing.mem_commit (h : Closing db poll w) {x : Obligation} :
    x ∈ (db.commit w).obligations ↔
      x ∈ w.obligations ∨ (x ∈ db.obligations ∧ ∀ r ∈ w.obligations, x.eventId ≠ r.eventId) :=
  Table.mem_putAll h.ids

namespace DbChange

/-- **Obligations are not lost**, and a resolved one is never written again. -/
lemma keeps (h : DbChange db p db') (hs : Sound db) {o : Obligation} (ho : o ∈ db.obligations) :
    ∃ o' ∈ db'.obligations, o.Kept o' := by
  cases h with
  | same hob hq => exact ⟨o, hob ▸ ho, .refl o⟩
  | refused hp hob hopen h =>
      refine ⟨o, ?_, .refl o⟩
      rwa [h, Db.commit_refused hob]
  | accepted hp hob hnone hready h =>
      refine ⟨o, ?_, .refl o⟩
      rw [h, Db.commit_accepted hob hnone]
      exact List.mem_append_left _ ho
  | @resolved poll w hp hclose h =>
      rw [h]
      by_cases hmem : ∃ x ∈ w.obligations, x.eventId = o.eventId
      · obtain ⟨x, hx, hid⟩ := hmem
        obtain ⟨y, hy, hyid, hopen, r, hr, hrid, time, hxy⟩ := hclose.rows x hx
        obtain rfl : y = o := hs.ids.eq hy ho (hyid.trans hid)
        refine ⟨x, hclose.mem_commit.mpr (Or.inl hx), ?_⟩
        rw [hxy]
        exact .resolve hopen time _
      · refine ⟨o, hclose.mem_commit.mpr (Or.inr ⟨ho, fun x hx hid => ?_⟩), .refl o⟩
        exact hmem ⟨x, hx, hid.symm⟩

/-- An obligation is an old one, a new one of the commit, or one that was open. -/
lemma origin (h : DbChange db p db') {o' : Obligation} (ho : o' ∈ db'.obligations) :
    o' ∈ db.obligations ∨
      (∃ job w createdAt, p = .accepting job (.commit w (.accepted createdAt)) ∧
        Ready db job w ∧ o' = .of job.request createdAt) ∨
      ∃ poll w, p = .resolving poll (.update [] w) ∧ o' ∈ w.obligations := by
  cases h with
  | same hob hq => exact Or.inl (hob ▸ ho)
  | refused hp hob hopen h =>
      rw [h, Db.commit_refused hob] at ho
      exact Or.inl ho
  | @accepted job w createdAt hp hob hnone hready h =>
      rw [h, Db.commit_accepted hob hnone] at ho
      refine (List.mem_append.mp ho).imp_right fun ho => Or.inl ?_
      exact ⟨job, w, createdAt, hp, hready, List.mem_singleton.mp ho⟩
  | @resolved poll w hp hclose h =>
      rw [h] at ho
      rcases hclose.mem_commit.mp ho with hx | ⟨hx, -⟩
      · exact Or.inr (Or.inr ⟨poll, w, hp, hx⟩)
      · exact Or.inl hx

lemma sound (h : DbChange db p db') (hs : Sound db) : Sound db' := by
  cases h with
  | same hob hq => exact ⟨hob ▸ hs.ids, hq ▸ hs.sellers, hq ▸ hs.used⟩
  | @refused job w reason hp hob hopen h =>
      rw [h]
      refine ⟨hs.ids.putAll _, hs.sellers.putAll _, fun q hq => ?_⟩
      rcases (Table.mem_putAll hopen.unique).mp hq with hq | ⟨hq, -⟩
      · cases hopen with
        | untouched h => simp [h] at hq
        | inserted h hnone =>
            simp only [h, List.mem_singleton] at hq
            simp [hq]
      · exact hs.used q hq
  | @accepted job w createdAt hp hob hnone hready h =>
      rw [h]
      refine ⟨hs.ids.putAll _, hs.sellers.putAll _, fun q hq => ?_⟩
      rcases (Table.mem_putAll hready.unique).mp hq with hq | ⟨hq, -⟩
      · cases hready with
        | reserved hres hw hle =>
            simp only [hw, List.mem_singleton] at hq
            have hnonneg := hs.used_nonneg job.request.sellerId
            rw [hq]
            simp only [operationsPerOrder]
            omega
        | follows _ _ _ hw => simp [hw] at hq
        | unlimited _ hw => simp [hw] at hq
      · exact hs.used q hq
  | resolved hp hclose h =>
      rw [h]
      refine ⟨hs.ids.putAll _, hs.sellers.putAll _, fun q hq => ?_⟩
      rcases (Table.mem_putAll hclose.sellers).mp hq with hq | ⟨hq, -⟩
      · obtain ⟨q₀, -, -, hnonneg, -⟩ := hclose.quotas q hq
        exact hnonneg
      · exact hs.used q hq

/-! ### What others see -/

/-- The rows a step writes are its own. -/
def Own (t : ℕ) (s : Store) (p : Proc) : Prop :=
  ∀ r ∈ p.held, Locks.Mine s.locks t r

lemma obligation_locked (h : DbChange s.db p db') (hs : Sound s.db) (hown : Own t s p) {id : String}
    (hlock : (.obligation id, u) ∈ s.locks) (hut : u ≠ t) :
    db'.obligation id = s.db.obligation id := by
  -- a written row is locked by the process that writes it
  have hne : ∀ {w : Writes}, p.held = w.locks → ∀ o ∈ w.obligations, o.eventId ≠ id := by
    intro w hheld o ho hid
    subst hid
    exact (hown _ (hheld ▸ Writes.mem_locks_obligation ho)).ne hlock hut rfl
  have hcommit : ∀ {w : Writes}, p.held = w.locks → Table.Unique Obligation.eventId w.obligations →
      (s.db.commit w).obligation id = s.db.obligation id := by
    intro w hheld hw
    rw [Db.obligation, Db.commit, Table.get_putAll hs.ids hw,
      Table.get_eq_none.mpr (hne hheld), Option.none_or, Db.obligation]
  cases h with
  | same hob hq => rw [Db.obligation, hob, Db.obligation]
  | refused hp hob hopen h =>
      rw [h]
      exact hcommit (by rw [hp]; rfl) (by simp [hob, Table.Unique])
  | accepted hp hob hnone hready h =>
      rw [h]
      exact hcommit (by rw [hp]; rfl) (by simp [hob, Table.Unique])
  | resolved hp hclose h =>
      rw [h]
      exact hcommit (by rw [hp]; rfl) hclose.ids

lemma quota_locked (h : DbChange s.db p db') (hs : Sound s.db) (hown : Own t s p) {seller : String}
    (hlock : (.quota seller, u) ∈ s.locks) (hut : u ≠ t) :
    db'.quota seller = s.db.quota seller := by
  have hne : ∀ {w : Writes}, p.held = w.locks → ∀ q ∈ w.quotas, q.sellerId ≠ seller := by
    intro w hheld q hq hid
    subst hid
    exact (hown _ (hheld ▸ Writes.mem_locks_quota hq)).ne hlock hut rfl
  have hcommit : ∀ {w : Writes}, p.held = w.locks → Table.Unique QuotaRow.sellerId w.quotas →
      (s.db.commit w).quota seller = s.db.quota seller := by
    intro w hheld hw
    rw [Db.quota_commit hs hw, Writes.viewQuota, Table.get_eq_none.mpr (hne hheld), Option.none_or]
  cases h with
  | same hob hq => rw [Db.quota, hq, Db.quota]
  | refused hp hob hopen h =>
      rw [h]
      exact hcommit (by rw [hp]; rfl) hopen.unique
  | accepted hp hob hnone hready h =>
      rw [h]
      exact hcommit (by rw [hp]; rfl) hready.unique
  | resolved hp hclose h =>
      rw [h]
      exact hcommit (by rw [hp]; rfl) hclose.sellers

end DbChange

/-! ### What the others rely on -/

section Others

variable (hs : Sound s.db) (h : DbChange s.db p db') (hown : DbChange.Own t s p) (hut : u ≠ t)
include hs h hown hut

lemma Opened.other {seller : String} (hheld : ∀ r ∈ w.locks, (r, u) ∈ s.locks)
    (hk : Opened s.db seller w) : Opened db' seller w := by
  cases hk with
  | untouched hw => exact .untouched hw
  | inserted hw hnone =>
      refine .inserted hw ?_
      rw [h.quota_locked hs hown (hheld _ (Writes.mem_locks_quota (q := ⟨seller, 0⟩) (by simp [hw])))
        hut, hnone]

omit hown hut in
lemma Db.hasCreate_later {order : OrderKey}
    (hc : ∃ o ∈ s.db.obligations, o.order = order ∧ o.seq = 1) :
    ∃ o ∈ db'.obligations, o.order = order ∧ o.seq = 1 := by
  obtain ⟨o, ho, horder, hseq⟩ := hc
  obtain ⟨o', ho', hkept⟩ := h.keeps hs ho
  exact ⟨o', ho', hkept.order.trans horder, hkept.seq.trans hseq⟩

lemma Ready.other (hheld : ∀ r ∈ w.locks, (r, u) ∈ s.locks) (hk : Ready s.db job w) :
    Ready db' job w := by
  cases hk with
  | reserved hres hq hle =>
      have hlock := hheld _ (Writes.mem_locks_quota (w := w)
        (q := ⟨job.request.sellerId, s.db.used job.request.sellerId + operationsPerOrder⟩)
        (by simp [hq]))
      have hsame : db'.used job.request.sellerId = s.db.used job.request.sellerId := by
        rw [Db.used, h.quota_locked hs hown hlock hut, Db.used]
      exact .reserved hres (by rw [hsame, hq]) (by rwa [hsame])
  | follows hQ hseq hcreate hq => exact .follows hQ hseq (Db.hasCreate_later hs h hcreate) hq
  | unlimited hQ hq => exact .unlimited hQ hq

lemma Outcome.other {answer : Acceptance} (hheld : ∀ r ∈ w.locks, (r, u) ∈ s.locks)
    (hk : Outcome s.db job w answer) : Outcome db' job w answer := by
  cases hk with
  | repeated hw ho hid =>
      obtain ⟨o', ho', hkept⟩ := h.keeps hs ho
      exact .repeated hw ho' (hkept.eventId.trans hid)
  | refused reason hQ hob hout hopen =>
      exact .refused reason hQ hob hout (hopen.other hs h hown hut hheld)
  | @accepted createdAt n hob hout hnone hready =>
      refine .accepted n hob hout ?_ (hready.other hs h hown hut hheld)
      have hlock := hheld _ (Writes.mem_locks_obligation (w := w)
        (o := .of job.request createdAt) (by simp [hob]))
      exact (h.obligation_locked hs hown hlock hut).trans hnone

lemma AcceptPc.knows_other {pc : AcceptPc}
    (hheld : ∀ r ∈ (Proc.accepting job pc).held, (r, u) ∈ s.locks) (hk : pc.knows s.db job) :
    pc.knows db' job := by
  cases pc with
  | selectUsed w =>
      obtain ⟨hres, hob, hout, hopen⟩ := hk
      exact ⟨hres, hob, hout, hopen.other hs h hown hut hheld⟩
  | updateUsed w =>
      obtain ⟨hres, hob, hout, hopen, q, hview, hq⟩ := hk
      have hw : ∀ r ∈ w.locks, (r, u) ∈ s.locks := fun r hr => hheld r (List.mem_cons_of_mem _ hr)
      refine ⟨hres, hob, hout, hopen.other hs h hown hut hw, q, ?_, hq⟩
      rw [Writes.viewQuota, h.quota_locked hs hown (hheld _ List.mem_cons_self) hut]
      exact hview
  | readCreate snapshot =>
      obtain ⟨hQ, hseq, hsnap⟩ := hk
      refine ⟨hQ, hseq, fun o ho => ?_⟩
      obtain ⟨x, hx, horder, hxseq⟩ := hsnap o ho
      obtain ⟨x', hx', hkept⟩ := h.keeps hs hx
      exact ⟨x', hx', hkept.order.trans horder, hkept.seq.trans hxseq⟩
  | insertObligation w =>
      obtain ⟨hob, hout, hready⟩ := hk
      exact ⟨hob, hout, hready.other hs h hown hut hheld⟩
  | insertOutbox w createdAt =>
      obtain ⟨hob, hout, hnone, hready⟩ := hk
      refine ⟨hob, hout, ?_, hready.other hs h hown hut hheld⟩
      have hlock := hheld _ (Writes.mem_locks_obligation (w := w)
        (o := .of job.request createdAt) (by simp [hob]))
      exact (h.obligation_locked hs hown hlock hut).trans hnone
  | commit w answer => exact Outcome.other hs h hown hut hheld hk
  | _ => exact hk

lemma Closing.other (hheld : ∀ r ∈ w.locks, (r, u) ∈ s.locks) (hk : Closing s.db poll w) :
    Closing db' poll w := by
  refine ⟨hk.ids, fun x hx => ?_, hk.sellers, fun x hx => ?_, hk.outbox⟩
  · obtain ⟨o, ho, hid, hopen, hrest⟩ := hk.rows x hx
    refine ⟨o, ?_, hid, hopen, hrest⟩
    have hsame := h.obligation_locked hs hown (hheld _ (Writes.mem_locks_obligation hx)) hut
    exact Table.mem_of_get (hsame.trans ((Table.get_eq_some hs.ids).mpr ⟨ho, hid⟩))
  · obtain ⟨q, hq, hid, hle⟩ := hk.quotas x hx
    refine ⟨q, ?_, hid, hle⟩
    have hsame := h.quota_locked hs hown (hheld _ (Writes.mem_locks_quota hx)) hut
    exact Table.mem_of_get (hsame.trans ((Table.get_eq_some hs.sellers).mpr ⟨hq, hid⟩))

lemma Proc.knows_other {q : Proc} (hheld : ∀ r ∈ q.held, (r, u) ∈ s.locks)
    (hk : q.knows s.db) : q.knows db' := by
  cases q with
  | accepting job pc => exact AcceptPc.knows_other hs h hown hut hheld hk
  | resolving poll pc =>
      cases pc with
      | update todo w => exact ⟨hk.1, hk.2.other hs h hown hut hheld⟩
      | giveBack seller todo w => exact ⟨hk.1, hk.2.other hs h hown hut hheld⟩
      | acknowledge => trivial
  | _ => trivial

end Others

/-! ### Statements -/

lemma acceptNext_change {jvm : ℤ} {pc : AcceptPc} (hk : pc.knows s.db job)
    (h : acceptNext t s job jvm pc = some (s', p')) : DbChange s.db (.accepting job pc) s'.db := by
  cases pc with
  | commit w answer =>
      cases h
      cases hk with
      | repeated hw ho hid =>
          subst hw
          exact .same rfl rfl
      | refused reason hQ hob hout hopen => exact .refused rfl hob hopen rfl
      | accepted n hob hout hnone hready => exact .accepted rfl hob hnone hready rfl
  | _ =>
      refine .same ?_ ?_ <;> simp only [acceptNext] at h <;> (repeat' split at h) <;>
        first
          | (cases h; rfl)
          | cases h

lemma resolveNext_change {jvm : ℤ} {pc : ResolvePc} (hk : pc.knows s.db poll)
    (h : resolveNext t s poll jvm pc = some (s', p')) : DbChange s.db (.resolving poll pc) s'.db := by
  cases pc with
  | update todo w =>
      cases todo with
      | nil =>
          cases h
          exact .resolved rfl hk.2 rfl
      | cons r todo =>
          refine .same ?_ ?_ <;> simp only [resolveNext] at h <;> (repeat' split at h) <;>
            first
              | (cases h; rfl)
              | cases h
  | _ =>
      refine .same ?_ ?_ <;> simp only [resolveNext] at h <;> (repeat' split at h) <;>
        first
          | (cases h; rfl)
          | cases h

/-- **What a step does to obligations and quotas**: nothing, or one of the commits. -/
theorem next_change (hk : p.knows s.db) (h : next t s p a = some (s', p')) :
    DbChange s.db p s'.db := by
  cases next_move h with
  | enqueue henqueue =>
      obtain ⟨-, rfl⟩ := enqueue_cases henqueue
      exact .same rfl rfl
  | publish hpublish =>
      obtain ⟨-, rfl⟩ := publish_cases hpublish
      exact .same rfl rfl
  | accepting h => exact acceptNext_change hk h
  | resolving h => exact resolveNext_change hk h
  | _ => exact .same rfl rfl

/-- The reservation of an order, seen by the transaction that writes it. -/
lemma Opened.reserve (hs : Sound s.db) {seller : String} {q : QuotaRow} (hopen : Opened s.db seller w)
    (hq : w.viewQuota s.db seller = some q) :
    (w.putQuota q.reserve).quotas = [⟨seller, s.db.used seller + operationsPerOrder⟩] ∧
      s.db.used seller = q.used ∧ 0 ≤ q.used := by
  have hid := Writes.sellerId_of_viewQuota hq
  cases hopen with
  | untouched hw =>
      have hrow : s.db.quota seller = some q := by simpa [Writes.viewQuota, hw, Table.get] using hq
      refine ⟨?_, Db.used_of_quota hrow, hs.used q (Table.mem_of_get hrow)⟩
      rw [Db.used_of_quota hrow, Writes.putQuota_quotas, hw, ← hid]
      rfl
  | inserted hw hnone =>
      have hrow : q = ⟨seller, 0⟩ := by
        have hget : Table.get QuotaRow.sellerId seller w.quotas = some ⟨seller, 0⟩ := by
          simp [hw, Table.get]
        rw [Writes.viewQuota, hget, Option.some_or] at hq
        exact (Option.some.inj hq).symm
      subst hrow
      refine ⟨?_, Db.used_of_none hnone, le_rfl⟩
      rw [Db.used_of_none hnone, Writes.putQuota_quotas, hw]
      simp [Table.put, QuotaRow.reserve]

lemma acceptNext_knows (hs : Sound s.db) {jvm : ℤ} {pc : AcceptPc} (hk : pc.knows s.db job)
    (h : acceptNext t s job jvm pc = some (s', p')) : p'.knows s'.db := by
  cases pc with
  | readExisting =>
      simp only [acceptNext] at h
      split at h <;> cases h
      · rename_i o ho
        exact .repeated rfl (Table.mem_of_get ho) (Table.key_of_get ho)
      · split_ifs with hQ hseq
        · exact ⟨hQ, hseq⟩
        · exact ⟨hQ, hseq, fun o ho => ⟨o, ho, rfl, rfl⟩⟩
        · exact ⟨rfl, rfl, .unlimited (not_lt.mp hQ) rfl⟩
  | insertQuota =>
      simp only [acceptNext] at h
      split_ifs at h with hcan hrow <;> cases h
      · exact ⟨hk, rfl, rfl, .untouched rfl⟩
      · exact ⟨hk, rfl, rfl, .inserted rfl (Option.not_isSome_iff_eq_none.mp hrow)⟩
  | selectUsed w =>
      obtain ⟨hres, hob, hout, hopen⟩ := hk
      simp only [acceptNext] at h
      split_ifs at h with hcan
      split at h
      · rename_i q hq
        split_ifs at h with hfull <;> cases h
        · exact .refused _ hres.1 hob hout hopen
        · exact ⟨hres, hob, hout, hopen, q, hq, not_lt.mp hfull⟩
      · cases h
        trivial
  | updateUsed w =>
      obtain ⟨hres, hob, hout, hopen, q, hview, hq⟩ := hk
      simp only [acceptNext, hview] at h
      split_ifs at h with hint <;> cases h
      · obtain ⟨hquotas, hused, hnonneg⟩ := hopen.reserve hs hview
        refine ⟨hob, hout, .reserved hres hquotas ?_⟩
        -- the sum did not overflow, so the check was about the sum itself
        simp only [QuotaRow.reserve, operationsPerOrder] at hint
        rw [hused]
        rwa [javaInt_eq (by simp only [operationsPerOrder]; omega)
          (by simp only [operationsPerOrder]; omega)] at hq
      · trivial
  | readCreate snapshot =>
      obtain ⟨hQ, hseq, hsnap⟩ := hk
      simp only [acceptNext] at h
      split_ifs at h with hcreate <;> cases h
      · obtain ⟨o, ho, horder, hone⟩ := hcreate
        obtain ⟨x, hx, hxorder, hxseq⟩ := hsnap o ho
        exact ⟨rfl, rfl, .follows hQ hseq ⟨x, hx, hxorder.trans horder, hxseq.trans hone⟩ rfl⟩
      · exact .refused _ hQ rfl rfl (.untouched rfl)
  | insertObligation w =>
      obtain ⟨hob, hout, hready⟩ := hk
      simp only [acceptNext] at h
      split_ifs at h with hcan hrow <;> cases h
      · trivial
      · refine ⟨?_, hout, Option.not_isSome_iff_eq_none.mp hrow, hready.congr rfl⟩
        rw [Writes.putObligation_obligations, hob]
        rfl
  | insertOutbox w createdAt =>
      obtain ⟨hob, hout, hnone, hready⟩ := hk
      simp only [acceptNext] at h
      split_ifs at h with hcan hvalid <;> cases h
      · refine .accepted s.nextId hob ?_ hnone (hready.congr rfl)
        simp [Writes.insertOutbox, hout]
      · trivial
  | commit w answer =>
      cases h
      trivial
  | respond answer =>
      cases h
      trivial

/-- The obligation a transaction sees open is an open one of the table. -/
lemma Closing.view_open (hc : Closing db poll w) {id : String} {o : Obligation}
    (h : w.viewObligation db id = some o) (hopen : o.resolvedAt = none) :
    o ∈ db.obligations ∧ ∀ x ∈ w.obligations, x.eventId ≠ id := by
  rcases Option.or_eq_some_iff.mp h with h | ⟨hnone, h⟩
  · obtain ⟨y, -, -, -, r, -, -, time, rfl⟩ := hc.rows o (Table.mem_of_get h)
    cases hopen
  · exact ⟨Table.mem_of_get h, Table.get_eq_none.mp hnone⟩

/-- A resolved row is written. -/
lemma Closing.resolve (hc : Closing db poll w) {r : PartnerCompletionEvent} (hr : r ∈ poll.records)
    {o : Obligation} (h : w.viewObligation db r.eventId = some o) (hopen : o.resolvedAt = none)
    (time : ℤ) : Closing db poll (w.putObligation (o.resolve time r.completedAt)) := by
  have hid := Writes.eventId_of_viewObligation h
  refine ⟨hc.ids.put _, fun x hx => ?_, hc.sellers, hc.quotas, hc.outbox⟩
  rcases Table.mem_put.mp hx with rfl | ⟨hx, -⟩
  · exact ⟨o, (hc.view_open h hopen).1, rfl, hopen, r, hr, hid.symm, time, rfl⟩
  · exact hc.rows x hx

/-- A unit is given back. -/
lemma Closing.giveBack (hs : Sound db) (hc : Closing db poll w) {seller : String} {q : QuotaRow}
    (h : w.viewQuota db seller = some q) : Closing db poll (w.putQuota q.giveBack) := by
  refine ⟨hc.ids, hc.rows, hc.sellers.put _, fun x hx => ?_, hc.outbox⟩
  rcases Table.mem_put.mp hx with rfl | ⟨hx, -⟩
  · rcases Option.or_eq_some_iff.mp h with h | ⟨-, h⟩
    · obtain ⟨q₀, hq₀, hid, hnonneg, hle⟩ := hc.quotas q (Table.mem_of_get h)
      refine ⟨q₀, hq₀, hid, le_max_right _ _, ?_⟩
      simp only [QuotaRow.giveBack]
      omega
    · refine ⟨q, Table.mem_of_get h, rfl, le_max_right _ _, ?_⟩
      have hnonneg := hs.used q (Table.mem_of_get h)
      simp only [QuotaRow.giveBack]
      omega
  · exact hc.quotas x hx

lemma resolveNext_knows (hs : Sound s.db) {jvm : ℤ} {pc : ResolvePc} (hk : pc.knows s.db poll)
    (h : resolveNext t s poll jvm pc = some (s', p')) : p'.knows s'.db := by
  cases pc with
  | update todo w =>
      cases todo with
      | nil =>
          cases h
          trivial
      | cons r todo =>
          obtain ⟨htodo, hc⟩ := hk
          have hrest : todo ⊆ poll.records := fun x hx => htodo (List.mem_cons_of_mem _ hx)
          simp only [resolveNext] at h
          split_ifs at h with hcan
          split at h
          · rename_i o ho
            split_ifs at h with hopen <;> cases h
            · exact ⟨hrest, hc.resolve (htodo List.mem_cons_self) ho hopen jvm⟩
            · exact ⟨hrest, hc⟩
          · cases h
            exact ⟨hrest, hc⟩
  | giveBack seller todo w =>
      obtain ⟨htodo, hc⟩ := hk
      simp only [resolveNext] at h
      split_ifs at h with hcan
      split at h
      · rename_i q hq
        cases h
        exact ⟨htodo, hc.giveBack hs hq⟩
      · cases h
        exact ⟨htodo, hc⟩
  | acknowledge =>
      cases h
      trivial

/-- A statement leaves its process with what it may rely on next. -/
lemma next_knows (hs : Sound s.db) (hk : p.knows s.db) (h : next t s p a = some (s', p')) :
    p'.knows s'.db := by
  cases next_move h with
  | accept job =>
      rw [begin]
      split_ifs <;> trivial
  | poll hpoll =>
      exact ⟨List.Subset.refl _, List.nodup_nil, by simp, List.nodup_nil, by simp, rfl⟩
  | accepting h => exact acceptNext_knows hs hk h
  | resolving h => exact resolveNext_knows hs hk h
  | _ => trivial

/-! ### Logs -/

/-- The published requests, the completion topic and the committed offsets. -/
def Store.logs (s : Store) :
    List PartnerOrderEvent × (ℕ → List PartnerCompletionEvent) × (ℕ → ℕ) :=
  (s.requests, s.topic, s.committed)

/-- What a step does to the logs: the broker appends a report, the relay publishes an
outbox row, or a poll is acknowledged. -/
inductive LogChange (s : Store) (p : Proc) (a : Act) (s' : Store) : Prop
  | same (h : s'.logs = s.logs)
  | report {q : ℕ} {r : PartnerCompletionEvent} (ha : a = .report q r)
      (h : s' = { s with topic := Function.update s.topic q (s.topic q ++ [r]) })
  | publish {r : OutboxRow} (hr : r ∈ s.db.outbox)
      (h : s' = { s with requests := s.requests ++ r.partner.toList })
  | acknowledge {poll : Poll} (hp : p = .resolving poll .acknowledge)
      (h : s' = { s with committed := Consumer.commitOffsets poll.ends s.committed })

lemma acceptNext_logs {jvm : ℤ} {pc : AcceptPc} (h : acceptNext t s job jvm pc = some (s', p')) :
    s'.logs = s.logs := by
  cases pc <;> simp only [acceptNext] at h <;> (repeat' split at h) <;>
    first
      | (cases h; rfl)
      | cases h

/-- **What a step does to the logs.** -/
theorem next_logs (h : next t s p a = some (s', p')) : LogChange s p a s' := by
  cases next_move h with
  | report q r => exact .report rfl rfl
  | enqueue henqueue =>
      obtain ⟨-, rfl⟩ := enqueue_cases henqueue
      exact .same rfl
  | publish hpublish =>
      obtain ⟨hr, rfl⟩ := publish_cases hpublish
      exact .publish hr rfl
  | accepting h => exact .same (acceptNext_logs h)
  | @resolving poll pc jvm _ _ h =>
      cases pc with
      | acknowledge =>
          cases h
          exact .acknowledge rfl rfl
      | update todo w =>
          refine .same ?_
          cases todo <;> simp only [resolveNext] at h <;> (repeat' split at h) <;>
            first
              | (cases h; rfl)
              | cases h
      | giveBack seller todo w =>
          refine .same ?_
          simp only [resolveNext] at h
          (repeat' split at h) <;>
            first
              | (cases h; rfl)
              | cases h
  | _ => exact .same rfl

/-- What a step adds to the completion topic. -/
lemma next_topic (h : next t s p a = some (s', p')) :
    s'.topic = s.topic ∨ ∃ q r, a = .report q r ∧
      s'.topic = Function.update s.topic q (s.topic q ++ [r]) := by
  cases next_logs h with
  | same h => exact Or.inl (congrArg (·.2.1) h)
  | report ha h =>
      subst h
      exact Or.inr ⟨_, _, ha, rfl⟩
  | publish hr h =>
      subst h
      exact Or.inl rfl
  | acknowledge hp h =>
      subst h
      exact Or.inl rfl

/-- A row of the outbox is an old one, the row of another transaction, or the request of
an accepted operation. -/
lemma next_outbox (hk : p.knows s.db) (h : next t s p a = some (s', p')) {r : OutboxRow}
    (hr : r ∈ s'.db.outbox) :
    r ∈ s.db.outbox ∨ (∃ e, a = .enqueue e ∧ r.partner = some e) ∨
      ∃ (job : AcceptJob) (createdAt : ℤ),
        s'.db.obligations = s.db.obligations ++ [.of job.request createdAt] ∧
        r.partner = some (published job.request createdAt) := by
  cases next_move h with
  | enqueue henqueue =>
      obtain ⟨-, rfl⟩ := enqueue_cases henqueue
      refine (List.mem_append.mp hr).imp_right fun hr => Or.inl ⟨_, rfl, ?_⟩
      rw [List.mem_singleton.mp hr]
      rfl
  | publish hpublish =>
      obtain ⟨-, rfl⟩ := publish_cases hpublish
      exact Or.inl hr
  | purge ids => exact Or.inl (List.mem_filter.mp hr).1
  | @accepting job pc jvm _ _ h =>
      cases pc with
      | commit w answer =>
          cases h
          refine (List.mem_append.mp hr).imp_right fun hr => Or.inr ?_
          cases hk with
          | repeated hw _ _ =>
              subst hw
              cases hr
          | refused reason _ _ hout _ =>
              rw [hout] at hr
              cases hr
          | @accepted createdAt n hob hout hnone hready =>
              refine ⟨job, createdAt, Db.commit_accepted hob hnone, ?_⟩
              rw [hout] at hr
              rw [List.mem_singleton.mp hr]
              rfl
      | _ =>
          refine Or.inl ?_
          simp only [acceptNext] at h
          (repeat' split at h) <;>
            first
              | (cases h; exact hr)
              | cases h
  | @resolving poll pc jvm _ _ h =>
      refine Or.inl ?_
      cases pc with
      | update todo w =>
          cases todo with
          | nil =>
              cases h
              obtain ⟨_, hc⟩ := hk
              refine (List.mem_append.mp hr).resolve_right fun hr => ?_
              rw [hc.outbox] at hr
              cases hr
          | cons r' todo =>
              simp only [resolveNext] at h
              (repeat' split at h) <;>
                first
                  | (cases h; exact hr)
                  | cases h
      | _ =>
          simp only [resolveNext] at h
          (repeat' split at h) <;>
            first
              | (cases h; exact hr)
              | cases h
  | _ => exact Or.inl hr

/-! ### Every run -/

/-- **Every reachable state is sound**, and every process may rely on what it
read. -/
theorem reachable_sound {ok : Config Store Proc → ℕ → Act → Prop} {c : Config Store Proc}
    (h : Run service ok initial c) :
    Sound c.store.db ∧ ∀ t, (c.procs t).knows c.store.db := by
  refine Run.invariant (I := fun s => Sound s.db) (J := fun _ s p => p.knows s.db)
    (fun _ => reachable_locks) ⟨sound_empty, fun _ => trivial⟩ ?_ ?_ h
  · intro c t a s' p' _ _ hs hk hnext
    exact ⟨(next_change (hk t) hnext).sound hs, next_knows hs (hk t) hnext⟩
  · intro c t a s' p' u hlocks _ hs hk hnext hut
    exact Proc.knows_other hs (next_change (hk t) hnext)
      (fun r hr => Locks.mine_of_mem hlocks.1 (hlocks.2 t r hr)) hut (hlocks.2 u) (hk u)

/-- In a reachable state every step is one of the commits or changes neither table. -/
lemma reachable_change {ok : Config Store Proc → ℕ → Act → Prop} {c : Config Store Proc}
    (h : Run service ok initial c) (hnext : next t c.store (c.procs t) a = some (s', p')) :
    DbChange c.store.db (c.procs t) s'.db :=
  next_change ((reachable_sound h).2 t) hnext

/-- In a reachable state a process has the rows it wrote to itself. -/
lemma reachable_own {ok : Config Store Proc → ℕ → Act → Prop} {c : Config Store Proc}
    (h : Run service ok initial c) (t : ℕ) : DbChange.Own t c.store (c.procs t) :=
  fun r hr => Locks.mine_of_mem (reachable_locks h).1 ((reachable_locks h).2 t r hr)

end OrderSystem.Delivery
