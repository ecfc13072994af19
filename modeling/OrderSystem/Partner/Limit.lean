/-
The configured limit of a seller, and the one `claim` enforces.

`findReady` compares the live permits of a seller with the limit it is called with.
`claim` takes any free slot row of the seller: the rows are inserted once per process and
never removed, so a process that runs under a lower limit still finds the slots of an
earlier, higher one.

* `WithinLimit`: what the two of them have to agree on.
* `limit_not_enforced`: the limit lowered from two to one, and two live permits.
* `ownSlots`: a claim finds exactly the slots of its own limit. `Proc.withinSlots` is what
  it then relies on until it commits.
* `claims_within_limit`: the limit is enforced in every run whose claims find their own
  slots.
-/
import OrderSystem.Partner.FindReady
import OrderSystem.Partner.Permits

namespace OrderSystem.Partner

open Interleaving

variable {t u : ℕ} {s s' : Store} {p p' : Proc} {a : Act} {k : ℕ} {c : Config Store Proc}
  {db : Db} {now : ℤ} {seller : String} {inserted : List ℕ}

/-! ### The property -/

/-- What a claim leaves is within its limit, and a claim finds the seller full exactly when
`findReady` would have left the seller out. `ok` is what is known of the next step. -/
structure WithinLimit (ok : Config Store Proc → ℕ → Act → Prop) (c : Config Store Proc) :
    Prop where
  claimed : ∀ t job inserted slot row admittedAt row' permit jvm s' p',
    c.procs t = .claiming job (.commit inserted (.claimed slot row admittedAt row' permit)) →
    next t c.store (c.procs t) (.go jvm) = some (s', p') →
    s'.db.livePermits s'.now job.event.sellerId ≤ job.sellerPermits
  agrees : ∀ t job inserted jvm s' p', c.procs t = .claiming job (.selectPermits inserted) →
    ok c t (.go jvm) → next t c.store (c.procs t) (.go jvm) = some (s', p') →
    (p' = .claiming job (.commit inserted .sellerFull) ↔
      c.store.db.fullSeller c.store.now job.sellerPermits job.event.sellerId)

/-- Process generation `w` runs with two permits per seller and claims an operation of order
7; generation `v` runs with one permit and claims an operation of order 8. -/
def loweredLimit : List (ℕ × Act) :=
  let e := sampleEvent "e1" 1
  let f := { sampleEvent "f1" 1 with orderId := 8 }
  storing 1 e ++ storing 1 f ++
    (2, .start (.claim ⟨e, "w", 2, 5, 1000, 10⟩)) :: statements 2 9 0 ++
    (3, .start (.claim ⟨f, "v", 1, 5, 1000, 10⟩)) :: statements 3 7 0

/-- Process 3 is about to commit a claim: its limit, and what the claim leaves. -/
def claimLeaves (c : Config Store Proc) : Option (ℕ × String × ℕ) :=
  match c.procs 3, next 3 c.store (c.procs 3) (.go 0) with
  | .claiming job (.commit _ (.claimed _ _ _ _ _)), some r =>
      some (job.sellerPermits, job.event.sellerId,
        r.1.db.livePermits r.1.now job.event.sellerId)
  | _, _ => none

theorem limit_not_enforced :
    ¬ ∀ c, Run service (fun _ _ _ => True) initial c → WithinLimit (fun _ _ _ => True) c := by
  intro hall
  obtain ⟨c, hrun, hc⟩ := Run.exists_of_exec service (fun _ _ _ => True) initial loweredLimit
    claimLeaves (some (1, "S", 2)) (by decide +kernel)
  unfold claimLeaves at hc
  split at hc
  · rename_i job inserted slot row admittedAt row' permit r hproc hnext
    have hle := (hall c hrun).claimed 3 job inserted slot row admittedAt row' permit 0 r.1 r.2
      hproc hnext
    simp only [Option.some.injEq, Prod.mk.injEq] at hc
    omega
  · cases hc

/-! ### The condition -/

/-- The slots the locking `SELECT` of a claim returns. -/
def slotsSeen (db : Db) (inserted : List ℕ) (seller : String) : List ℕ :=
  (permitsOf (db.insertPermits seller inserted) seller).map (·.slot)

/-- They are `1, ..., k`. -/
structure ExactSlots (db : Db) (inserted : List ℕ) (seller : String) (k : ℕ) : Prop where
  range : ∀ slot ∈ slotsSeen db inserted seller, 1 ≤ slot ∧ slot ≤ k
  all : ∀ slot ∈ List.range' 1 k, slot ∈ slotsSeen db inserted seller

instance (db : Db) (inserted : List ℕ) (seller : String) (k : ℕ) :
    Decidable (ExactSlots db inserted seller k) :=
  decidable_of_iff ((∀ slot ∈ slotsSeen db inserted seller, 1 ≤ slot ∧ slot ≤ k) ∧
      ∀ slot ∈ List.range' 1 k, slot ∈ slotsSeen db inserted seller)
    ⟨fun h => ⟨h.1, h.2⟩, fun h => ⟨h.range, h.all⟩⟩

/-- The claim whose next statement is the locking `SELECT`. -/
def selecting : Proc → Act → Option (ClaimJob × List ℕ)
  | .claiming job (.selectPermits inserted), .go _ => some (job, inserted)
  | _, _ => none

/-- When a claim selects the slots of its seller, it finds those of its own limit: none is
left from a higher limit, and none is missing because the transaction that inserted it was
rolled back. -/
def ownSlots (c : Config Store Proc) (t : ℕ) (a : Act) : Prop :=
  ∀ x ∈ selecting (c.procs t) a, 1 ≤ x.1.sellerPermits ∧
    ExactSlots c.store.db x.2 x.1.event.sellerId x.1.sellerPermits

instance (c : Config Store Proc) (t : ℕ) (a : Act) : Decidable (ownSlots c t a) :=
  inferInstanceAs (Decidable (∀ x ∈ selecting (c.procs t) a, _))

/-! ### Live permits -/

/-- A live permit is one that is not free. -/
lemma livePermits_eq (db : Db) (now : ℤ) (seller : String) :
    db.livePermits now seller = (permitsOf db seller).countP fun p => ¬ p.free now := by
  rw [Db.livePermits, permitsOf, List.countP_filter]
  refine List.countP_congr fun permit _ => ?_
  simp only [PermitRow.free, decide_eq_true_eq, Bool.and_eq_true, not_or, not_lt, ne_eq]
  tauto

/-- Rows of one seller have different slots. -/
lemma nodup_slots (hkeys : Table.Unique PermitRow.slotKey db.sellerPermit) {P : PermitRow → Bool}
    (hseller : ∀ permit, P permit → permit.sellerId = seller) :
    ((db.sellerPermit.filter P).map (·.slot)).Nodup := by
  refine List.Nodup.map_on (fun x hx y hy hxy => ?_) ((List.Nodup.of_map _ hkeys).filter _)
  obtain ⟨hxin, hx⟩ := List.mem_filter.mp hx
  obtain ⟨hyin, hy⟩ := List.mem_filter.mp hy
  refine hkeys.eq hxin hyin ?_
  rw [PermitRow.slotKey, PermitRow.slotKey, hseller x hx, hseller y hy, hxy]

/-- Permits in use that have their slots in `1, ..., k` are at most `k`. -/
lemma livePermits_le (hkeys : Table.Unique PermitRow.slotKey db.sellerPermit)
    (h : ∀ permit ∈ db.sellerPermit, permit.sellerId = seller → permit.owner ≠ none →
      1 ≤ permit.slot ∧ permit.slot ≤ k) : db.livePermits now seller ≤ k := by
  set rows := db.sellerPermit.filter fun p =>
    decide (p.sellerId = seller ∧ p.owner ≠ none ∧ now ≤ p.leaseUntil) with hrows
  have hmem : ∀ permit ∈ rows, permit ∈ db.sellerPermit ∧ permit.sellerId = seller ∧
      permit.owner ≠ none := by
    intro permit hp
    obtain ⟨hin, hcond⟩ := List.mem_filter.mp hp
    have hcond := of_decide_eq_true hcond
    exact ⟨hin, hcond.1, hcond.2.1⟩
  have hslots : (rows.map (·.slot)).Nodup :=
    nodup_slots hkeys fun permit hp => (of_decide_eq_true hp).1
  have hsub : (rows.map (·.slot)).toFinset ⊆ Finset.Icc 1 k := by
    intro n hn
    obtain ⟨permit, hp, rfl⟩ := List.mem_map.mp (List.mem_toFinset.mp hn)
    obtain ⟨hin, hseller, hown⟩ := hmem permit hp
    exact Finset.mem_Icc.mpr (h permit hin hseller hown)
  calc db.livePermits now seller = rows.length := by
        rw [Db.livePermits, List.countP_eq_length_filter]
    _ = (rows.map (·.slot)).toFinset.card := by
        rw [List.toFinset_card_of_nodup hslots, List.length_map]
    _ ≤ (Finset.Icc 1 k).card := Finset.card_le_card hsub
    _ = k := by simp

/-- The inserted slots stand behind the old ones and are free. -/
lemma insertPermits_append (slots : List ℕ) (db : Db) :
    ∃ rows, (db.insertPermits seller slots).sellerPermit = db.sellerPermit ++ rows ∧
      ∀ r ∈ rows, r.owner = none := by
  induction slots generalizing db with
  | nil => exact ⟨[], by simp [Db.insertPermits], by simp⟩
  | cons slot slots ih =>
      have hcons : db.insertPermits seller (slot :: slots) =
          (db.insertPermits seller [slot]).insertPermits seller slots := rfl
      obtain ⟨rows, hrows, hfree⟩ := ih (db.insertPermits seller [slot])
      rw [hcons, hrows]
      by_cases hrow : (db.permitRow seller slot).isSome
      · refine ⟨rows, ?_, hfree⟩
        simp [Db.insertPermits, hrow]
      · refine ⟨{ sellerId := seller, slot := slot } :: rows, ?_, ?_⟩
        · simp [Db.insertPermits, hrow]
        · intro r hr
          rcases List.mem_cons.mp hr with rfl | hr
          · rfl
          · exact hfree r hr

lemma livePermits_insertPermits (slots : List ℕ) (db : Db) (seller' : String) :
    (db.insertPermits seller slots).livePermits now seller' = db.livePermits now seller' := by
  obtain ⟨rows, hrows, hfree⟩ : ∃ rows, (db.insertPermits seller slots).sellerPermit =
      db.sellerPermit ++ rows ∧ ∀ r ∈ rows, r.owner = none := insertPermits_append slots db
  have hnone : rows.countP (fun p => decide (p.sellerId = seller' ∧ p.owner ≠ none ∧
      now ≤ p.leaseUntil)) = 0 := by
    rw [List.countP_eq_zero]
    intro r hr
    simp [hfree r hr]
  rw [Db.livePermits, hrows, List.countP_append, hnone, Nat.add_zero, Db.livePermits]

lemma firstFree_eq_none {permits : List PermitRow} :
    firstFree now permits = none ↔ permits.countP (fun p => ¬ p.free now) = permits.length := by
  rw [firstFree, List.min?_eq_none_iff, List.map_eq_nil_iff, List.filter_eq_nil_iff,
    List.countP_eq_length]
  simp

/-- A claim with its own slots finds none free exactly when `findReady` counts the seller
full. -/
lemma ExactSlots.full (hkeys : Table.Unique PermitRow.slotKey db.sellerPermit) (hk : 1 ≤ k)
    (h : ExactSlots db inserted seller k) :
    firstFree now (permitsOf (db.insertPermits seller inserted) seller) = none ↔
      db.fullSeller now k seller := by
  set rows := permitsOf (db.insertPermits seller inserted) seller with hrows
  have hslots : (rows.map (·.slot)).Nodup :=
    nodup_slots (Db.unique_insertPermits seller inserted hkeys) fun permit hp =>
      of_decide_eq_true hp
  have hlength : rows.length = k := by
    have hset : (rows.map (·.slot)).toFinset = Finset.Icc 1 k := by
      ext n
      rw [List.mem_toFinset, Finset.mem_Icc]
      exact ⟨h.range n, fun hn => h.all n (List.mem_range'_1.mpr (by omega))⟩
    calc rows.length = (rows.map (·.slot)).toFinset.card := by
          rw [List.toFinset_card_of_nodup hslots, List.length_map]
      _ = k := by rw [hset]; simp
  have hlive : db.livePermits now seller = rows.countP fun p => ¬ p.free now := by
    rw [hrows, ← livePermits_eq, livePermits_insertPermits]
  have hle : db.livePermits now seller ≤ k := by
    rw [hlive, ← hlength]
    exact List.countP_le_length
  rw [firstFree_eq_none, ← hlive, hlength, Db.fullSeller]
  omega

/-! ### What a claim relies on -/

/-- A permit in use after a step was in use before, or it is the one a claim takes. -/
lemma Effect.inUse (h : Effect t s p s') (hs : Sound s) {permit : PermitRow}
    (hmem : permit ∈ s'.db.sellerPermit) (hown : permit.owner ≠ none) :
    (∃ old ∈ s.db.sellerPermit, old.slotKey = permit.slotKey ∧ old.owner ≠ none) ∨
      ∃ job inserted slot row admittedAt row' taken,
        p = .claiming job (.commit inserted (.claimed slot row admittedAt row' taken)) ∧
        permit.slotKey = (job.event.sellerId, slot) := by
  have hinsert : ∀ {seller : String} {slots : List ℕ}, permit ∈
      (s.db.insertPermits seller slots).sellerPermit → permit ∈ s.db.sellerPermit := by
    intro seller slots hin
    rcases (Db.mem_insertPermits hs.permits).mp hin with hin | ⟨-, -, heq⟩
    · exact hin
    · rw [heq] at hown
      exact absurd rfl hown
  have hfreed : ∀ {claim : Option Claim} {freed : Option PermitRow}, Freeing s.db claim freed →
      s'.db.sellerPermit = freed.elim s.db.sellerPermit
        (fun r => Table.put PermitRow.slotKey r s.db.sellerPermit) →
      permit ∈ s.db.sellerPermit := by
    intro claim freed hfree heq
    rw [heq] at hmem
    cases hfree with
    | lost => exact hmem
    | release hold hheld =>
        rcases Table.mem_put.mp hmem with rfl | ⟨hmem, -⟩
        · exact absurd rfl hown
        · exact hmem
  cases h with
  | ensure locks hp hmine => exact Or.inl ⟨permit, hinsert hmem, rfl, hown⟩
  | @claim job inserted slot row row' admittedAt taken locks hp hclaim hrow hslot hmine =>
      have hmem' : permit ∈ Table.put PermitRow.slotKey taken
          (s.db.insertPermits job.event.sellerId inserted).sellerPermit := by
        simpa [Store.committing, commitClaim, Db.setPermit, Db.setInbox] using hmem
      obtain ⟨old, lease, hold, htaken⟩ := hclaim.taken
      rcases Table.mem_put.mp hmem' with rfl | ⟨hin, -⟩
      · refine Or.inr ⟨job, inserted, slot, row, admittedAt, row', permit, hp, ?_⟩
        have hkey : old.slotKey = (job.event.sellerId, slot) := Table.key_of_get hold
        rw [htaken, ← hkey]
        rfl
      · exact Or.inl ⟨permit, hinsert hin, rfl, hown⟩
  | @renewPermit claim leaseMs old hp hold hheld hmine =>
      rcases Table.mem_put.mp hmem with rfl | ⟨hin, -⟩
      · exact Or.inl ⟨old, Table.mem_of_get hold, rfl, hown⟩
      · exact Or.inl ⟨permit, hin, rfl, hown⟩
  | record locks hp hclose hrec hfree hmine =>
      exact Or.inl ⟨permit, hfreed hfree (by simp [Store.committing]), rfl, hown⟩
  | close locks hp hclose hfree hmine =>
      exact Or.inl ⟨permit, hfreed hfree (by simp [Store.committing]), rfl, hown⟩
  | giveBack locks hp hreturn hfree hmine =>
      exact Or.inl ⟨permit, hfreed hfree (by simp [Store.committing]), rfl, hown⟩
  | _ => exact Or.inl ⟨permit, hmem, rfl, hown⟩

/-- The permits of the seller in use have their slots in `1, ..., k`. -/
def Store.usesSlots (s : Store) (seller : String) (k : ℕ) : Prop :=
  ∀ permit ∈ s.db.sellerPermit, permit.sellerId = seller → permit.owner ≠ none →
    1 ≤ permit.slot ∧ permit.slot ≤ k

/-- From the choice of a slot to its commit a claim has all permits of the seller locked. -/
def Proc.withinSlots (t : ℕ) (s : Store) : Proc → Prop
  | .claiming job pc => ∀ slot ∈ pc.slot,
      (.permits job.event.sellerId, t) ∈ s.locks ∧ (1 ≤ slot ∧ slot ≤ job.sellerPermits) ∧
        s.usesSlots job.event.sellerId job.sellerPermits
  | _ => True

/-- A step keeps the slots in use, but for the slot a claim of the seller takes. -/
lemma Effect.usesSlots (h : Effect t s p s') (hs : Sound s) (hq : p.withinSlots t s)
    (huses : s.usesSlots seller k)
    (htaken : ∀ job pc, p = .claiming job pc → pc.slot ≠ none → job.event.sellerId = seller →
      job.sellerPermits ≤ k) : s'.usesSlots seller k := by
  intro permit hmem hseller hown
  rcases h.inUse hs hmem hown with ⟨old, hold, hkey, howner⟩ |
    ⟨job, inserted, slot, row, admittedAt, row', taken, rfl, hkey⟩
  · obtain ⟨h1, h2⟩ := Prod.mk.inj hkey
    rw [← h2]
    exact huses old hold (h1.trans hseller) howner
  · obtain ⟨h1, h2⟩ := Prod.mk.inj hkey
    obtain ⟨-, hslot, -⟩ := hq slot rfl
    have hk := htaken job _ rfl (by simp [ClaimPc.slot]) (h1.symm.trans hseller)
    rw [h2]
    exact ⟨hslot.1, hslot.2.trans hk⟩

lemma claimNext_withinSlots {job : ClaimJob} {jvm : ℤ} {pc : ClaimPc}
    (hok : ∀ x ∈ selecting (.claiming job pc) (.go jvm), 1 ≤ x.1.sellerPermits ∧
      ExactSlots s.db x.2 x.1.event.sellerId x.1.sellerPermits)
    (hs : Sound s) (hq : Proc.withinSlots t s (.claiming job pc))
    (h : claimNext t s job jvm pc = some (s', p')) : p'.withinSlots t s' := by
  have hnone : ∀ {P : ℕ → Prop}, ∀ x ∈ (none : Option ℕ), P x := by simp
  cases pc with
  | ensurePermits =>
      cases h
      rw [Proc.withinSlots]
      split_ifs <;> exact hnone
  | ensure slot inserted =>
      simp only [claimNext] at h
      split_ifs at h <;> cases h <;> exact hnone
  | selectPermits inserted =>
      obtain ⟨-, hexact⟩ := hok (job, inserted) rfl
      simp only [claimNext] at h
      split_ifs at h
      split at h <;> cases h
      · exact hnone
      · rename_i slot hslot
        intro x hx
        cases hx
        refine ⟨by simp [Store.lock], ?_, fun permit hmem hseller hown => ?_⟩
        · refine hexact.range slot ?_
          rw [firstFree, List.min?_eq_some_iff] at hslot
          obtain ⟨permit, hp, rfl⟩ := List.mem_map.mp hslot.1
          exact List.mem_map_of_mem (List.mem_filter.mp hp).1
        · refine hexact.range permit.slot (List.mem_map_of_mem (List.mem_filter.mpr ⟨?_, ?_⟩))
          · exact (Db.mem_insertPermits hs.permits).mpr (Or.inl hmem)
          · simpa using hseller
  | selectRow inserted slot =>
      simp only [claimNext] at h
      split at h
      · cases h
        exact hnone
      · split_ifs at h <;> cases h
        · intro x hx
          obtain ⟨hlock, hrest⟩ := hq x hx
          exact ⟨by simp [Store.lock, hlock], hrest⟩
        · intro x hx
          obtain ⟨hlock, hrest⟩ := hq x hx
          exact ⟨by simp [Store.lock, hlock], hrest⟩
        · exact hnone
  | countAdmissions inserted slot row =>
      simp only [claimNext] at h
      split_ifs at h <;> cases h
      · exact hnone
      · exact hq
  | insertAdmission inserted slot row =>
      cases h
      exact hq
  | updateRow inserted slot row admittedAt =>
      cases h
      exact hq
  | updatePermit inserted slot row admittedAt row' =>
      simp only [claimNext] at h
      split at h <;> cases h
      exact hq
  | commit inserted result =>
      simp only [claimNext] at h
      split at h <;> cases h <;> trivial

lemma next_withinSlots (hc : c.store = s) (hcp : c.procs t = p) (hok : ownSlots c t a)
    (hs : Sound s) (hq : p.withinSlots t s) (h : next t s p a = some (s', p')) :
    p'.withinSlots t s' := by
  cases next_move h with
  | start job =>
      cases job with
      | claim job => exact fun slot hslot => by cases hslot
      | _ => trivial
  | poll =>
      rw [begin]
      split_ifs <;> trivial
  | store h =>
      obtain ⟨_, rfl⟩ | rfl | ⟨_, rfl⟩ := storeNext_proc h <;> trivial
  | claim h =>
      rw [ownSlots, hc, hcp] at hok
      exact claimNext_withinSlots hok hs hq h
  | renew h =>
      obtain rfl | rfl := renewNext_proc h <;> trivial
  | deliver h =>
      obtain ⟨_, rfl⟩ | rfl := processNext_proc h <;> trivial
  | giveBack h =>
      obtain ⟨_, rfl⟩ | rfl := giveBackNext_proc h <;> trivial
  | relay h =>
      obtain ⟨_, rfl⟩ | rfl := (relayNext_eq h).2 <;> trivial
  | _ => trivial

/-- Two claims of one seller do not hold its permits at the same time. -/
lemma Proc.withinSlots_other {q : Proc} (h : Effect t s p s') (hs : Sound s)
    (hex : Locks.Exclusive s.locks) (hlocks : Locks.Change t s.locks s'.locks) (hut : u ≠ t)
    (hp : p.withinSlots t s) (hq : q.withinSlots u s) : q.withinSlots u s' := by
  cases q with
  | claiming job pc =>
      intro slot hslot
      obtain ⟨hlock, hrange, huses⟩ := hq slot hslot
      refine ⟨(hlocks.others hut).mpr hlock, hrange, h.usesSlots hs hp huses ?_⟩
      rintro job' pc' rfl hchosen hseller
      obtain ⟨x, hx⟩ := Option.ne_none_iff_exists'.mp hchosen
      obtain ⟨hlock', -⟩ := hp x hx
      rw [hseller] at hlock'
      exact absurd (hex _ u t hlock hlock') hut
  | _ => trivial

lemma reachable_withinSlots (h : Run service ownSlots initial c) (t : ℕ) :
    (c.procs t).withinSlots t c.store := by
  refine (Run.invariant (I := fun _ => True) (J := fun t s p => p.withinSlots t s)
    (K := fun c => Run service ownSlots initial c) (fun _ h => h)
    ⟨trivial, fun _ => trivial⟩ ?_ ?_ h).2 t
  · intro c t a s' p' hrun hok _ hq hnext
    exact ⟨trivial, next_withinSlots rfl rfl hok (reachable_sound hrun).1 (hq t) hnext⟩
  · intro c t a s' p' u hrun hok _ hq hnext hut
    obtain ⟨hex, hheld⟩ := reachable_locks hrun
    exact Proc.withinSlots_other (reachable_effect hrun hnext) (reachable_sound hrun).1 hex
      (next_locks (hheld t) hnext).1 hut (hq t) (hq u)

/-! ### Every run -/

/-- **The configured limit is the enforced one** in every run whose claims find the slots of
their own limit. -/
theorem claims_within_limit (h : Run service ownSlots initial c) : WithinLimit ownSlots c := by
  have hs := (reachable_sound h).1
  constructor
  · intro t job inserted slot row admittedAt row' permit jvm s' p' hproc hnext
    have heff := reachable_effect h hnext
    have hq := reachable_withinSlots h t
    have huses : c.store.usesSlots job.event.sellerId job.sellerPermits := by
      rw [hproc] at hq
      exact (hq slot rfl).2.2
    refine livePermits_le (hs.step heff).permits (heff.usesSlots hs hq huses ?_)
    intro job' pc' heq _ _
    rw [hproc] at heq
    cases heq
    exact le_rfl
  · intro t job inserted jvm s' p' hproc hok hnext
    obtain ⟨hk, hexact⟩ := hok (job, inserted) (by rw [hproc]; rfl)
    have hfull : firstFree c.store.now (permitsOf
        (c.store.db.insertPermits job.event.sellerId inserted) job.event.sellerId) = none ↔
        c.store.db.fullSeller c.store.now job.sellerPermits job.event.sellerId :=
      hexact.full hs.permits hk
    rw [hproc] at hnext
    change claimNext t c.store job jvm (.selectPermits inserted) = _ at hnext
    simp only [claimNext] at hnext
    split_ifs at hnext
    rw [← hfull]
    split at hnext <;> cases hnext
    · rename_i hnone
      exact iff_of_true rfl hnone
    · rename_i slot hslot
      refine iff_of_false (by simp) ?_
      simp [hslot]

/-- A limit of one, raised to two by the next process generation: both claims succeed. -/
theorem claims_within_limit_raised :
    ∃ c, Run service ownSlots initial c ∧
      c.store.db.livePermits c.store.now "S" = 2 ∧ WithinLimit ownSlots c := by
  obtain ⟨c, hrun, hc⟩ := Run.exists_of_exec service ownSlots initial
    (storing 1 (sampleEvent "e1" 1) ++ storing 1 { sampleEvent "f1" 1 with orderId := 8 } ++
      claiming 2 (sampleEvent "e1" 1) "w" ++ (3, .start (.claim
        ⟨{ sampleEvent "f1" 1 with orderId := 8 }, "v", 2, 5, 1000, 10⟩)) :: statements 3 9 0)
    (fun c => c.store.db.livePermits c.store.now "S") 2 (by decide +kernel)
  exact ⟨c, hrun, hc, claims_within_limit hrun⟩

end OrderSystem.Partner
