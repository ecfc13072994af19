/-
`InboxRepository.claim` in a transaction that nobody disturbs, as a function of the tables.

* `newSlots`: what `ensurePermits` inserts for a seller.
* `claimResult`: the result of the statements behind it.
* `claimAlone`: the whole call, with the tables and the remembered sellers after it.
* `Alone`, `claim_solo`: the statements of `claimNext` come to that result when no other
  transaction holds a lock.
-/
import OrderSystem.Partner.Workers

namespace OrderSystem.Partner

open Interleaving

/-! ### The call -/

/-- The slots `ensurePermits(sellerId, count)` inserts. -/
def newSlots (sellersWithPermits : List String) (db : Db) (sellerId : String) (count : ℕ) :
    List ℕ :=
  if sellerId ∈ sellersWithPermits then [] else
    (List.range' 1 count).filter fun slot => (db.permitRow sellerId slot).isNone

/-- `sellersWithPermits` after `ensurePermits`. -/
def remembering (sellersWithPermits : List String) (sellerId : String) : List String :=
  if sellerId ∈ sellersWithPermits then sellersWithPermits else sellerId :: sellersWithPermits

/-- What `claim` answers behind `ensurePermits`. -/
def claimResult (job : ClaimJob) (inserted : List ℕ) (now jvm : ℤ) (db : Db) : ClaimResult :=
  let seller := job.event.sellerId
  let view := db.insertPermits seller inserted
  match firstFree now (permitsOf view seller) with
  | none => .sellerFull
  | some slot =>
      match db.inboxRow job.event.eventId with
      | none => .taken
      | some row =>
          if ¬ row.claimable now jvm (db.lastSequence row.event.order) then .taken
          else if 0 < row.attempts ∧ job.retryBudget ≤ db.retryCount seller now job.retryWindowMs
          then .retryBudget
          else
            let lease := now + job.leaseMs
            -- the slot was read from the rows of the view, so it has a row there
            let permit := (view.permitRow seller slot).getD { sellerId := seller, slot := slot }
            .claimed slot row (if 0 < row.attempts then some now else none)
              (row.claim job.owner lease)
              (permit.take job.owner job.event.eventId (row.generation + 1) lease)

/-- `claim` on the tables, with the sellers the instance remembers. -/
def claimAlone (job : ClaimJob) (now jvm : ℤ) (sellersWithPermits : List String) (db : Db) :
    ClaimResult × List String × Db :=
  let inserted := newSlots sellersWithPermits db job.event.sellerId job.sellerPermits
  let result := claimResult job inserted now jvm db
  (result, remembering sellersWithPermits job.event.sellerId, commitClaim job inserted db result)

/-- `attempt.claim()`: the token of a successful claim. -/
def ClaimResult.claim (job : ClaimJob) : ClaimResult → Option Claim
  | .claimed slot row _ _ _ => some (job.token slot row)
  | _ => none

variable {t : ℕ} {s s₀ : Store} {job : ClaimJob} {jvm now : ℤ} {db : Db} {inserted : List ℕ}
  {seller : String}

/-- A slot is ensured when it is in the table or among the inserted ones. -/
lemma newSlots_ensure {sellers : List String} (hnew : seller ∉ sellers) {count slot : ℕ}
    (h1 : 1 ≤ slot) (hle : slot ≤ count) :
    (db.permitRow seller slot).isSome ∨ slot ∈ newSlots sellers db seller count := by
  rw [newSlots, if_neg hnew, List.mem_filter, List.mem_range'_1, ← Option.not_isNone]
  by_cases hrow : (db.permitRow seller slot).isNone
  · exact Or.inr ⟨⟨h1, by omega⟩, hrow⟩
  · exact Or.inl (by simpa [Option.isSome_iff_ne_none] using hrow)

/-- The lowest free slot is a row of the view. -/
lemma isSome_of_firstFree {slot : ℕ} (h : firstFree now (permitsOf db seller) = some slot) :
    (db.permitRow seller slot).isSome := by
  obtain ⟨p, hp, rfl⟩ := List.mem_map.mp (List.min?_mem h)
  obtain ⟨hmem, hseller⟩ := List.mem_filter.mp (List.mem_filter.mp hp).1
  rw [Option.isSome_iff_ne_none, Ne, Db.permitRow, Table.get_eq_none]
  intro hnone
  exact hnone p hmem (by rw [PermitRow.slotKey, of_decide_eq_true hseller])

/-! ### What an unsuccessful claim changes -/

lemma permitRow_eq_view (db : Db) (seller : String) (slot : ℕ) :
    db.permitRow seller slot = Table.get PermitRow.slotKey (seller, slot) (permitsOf db seller) := by
  rw [Db.permitRow, permitsOf, Table.get_filter]
  intro p _ hp
  exact decide_eq_true (congrArg Prod.fst hp)

/-- The result depends on the permit rows only through those of the seller. -/
lemma claimResult_congr {db' : Db} {inserted' : List ℕ}
    (hview : permitsOf (db'.insertPermits job.event.sellerId inserted') job.event.sellerId =
      permitsOf (db.insertPermits job.event.sellerId inserted) job.event.sellerId)
    (hdb : db' = { db with sellerPermit := db'.sellerPermit }) :
    claimResult job inserted' now jvm db' = claimResult job inserted now jvm db := by
  have hinbox : db'.inbox = db.inbox := by rw [hdb]
  have horders : db'.partnerOrder = db.partnerOrder := by rw [hdb]
  have hadmissions : db'.retryAdmission = db.retryAdmission := by rw [hdb]
  simp only [claimResult, permitRow_eq_view, hview, Db.inboxRow, Db.lastSequence, Db.retryCount,
    hinbox, horders, hadmissions]

/-- New slots stand behind the old rows. -/
lemma insertPermits_new {slots : List ℕ} (hnodup : slots.Nodup)
    (hnew : ∀ slot ∈ slots, db.permitRow seller slot = none) :
    (db.insertPermits seller slots).sellerPermit =
      db.sellerPermit ++ slots.map fun slot => { sellerId := seller, slot := slot } := by
  induction slots generalizing db with
  | nil => simp [Db.insertPermits]
  | cons slot slots ih =>
      obtain ⟨hslot, hnodup⟩ := List.nodup_cons.mp hnodup
      have hcons : db.insertPermits seller (slot :: slots) =
          (db.insertPermits seller [slot]).insertPermits seller slots := rfl
      have hone : (db.insertPermits seller [slot]).sellerPermit =
          db.sellerPermit ++ [{ sellerId := seller, slot := slot }] := by
        simp [Db.insertPermits, hnew slot List.mem_cons_self]
      have hrest : ∀ x ∈ slots, (db.insertPermits seller [slot]).permitRow seller x = none := by
        intro x hx
        have hne : x ≠ slot := fun h => hslot (h ▸ hx)
        rw [Db.permitRow_insertPermits, hnew x (List.mem_cons_of_mem _ hx)]
        simp [hne]
      rw [hcons, ih hnodup hrest, hone, List.append_assoc, List.map_cons, List.singleton_append]

lemma permitsOf_newSlots (sellers : List String) (db : Db) (seller who : String) (count : ℕ) :
    permitsOf (db.insertPermits seller (newSlots sellers db seller count)) who =
      permitsOf db who ++ if who = seller then (newSlots sellers db seller count).map
        fun slot => { sellerId := seller, slot := slot } else [] := by
  have hnodup : (newSlots sellers db seller count).Nodup := by
    rw [newSlots]
    split_ifs
    · exact List.nodup_nil
    · exact List.Nodup.filter _ List.nodup_range'
  have hnew : ∀ slot ∈ newSlots sellers db seller count, db.permitRow seller slot = none := by
    intro slot hslot
    rw [newSlots] at hslot
    split_ifs at hslot
    · cases hslot
    · simpa using (List.mem_filter.mp hslot).2
  rw [permitsOf, insertPermits_new hnodup hnew, List.filter_append, permitsOf]
  congr 1
  split_ifs with hwho
  · rw [List.filter_eq_self]
    intro p hp
    obtain ⟨slot, -, rfl⟩ := List.mem_map.mp hp
    exact decide_eq_true hwho.symm
  · rw [List.filter_eq_nil_iff]
    intro p hp
    obtain ⟨slot, -, rfl⟩ := List.mem_map.mp hp
    simpa using fun h => hwho h.symm

/-- **A claim sees the same permits after `ensurePermits` of any seller.** -/
lemma view_ensured (sellers : List String) (db : Db) (seller who : String) (count : ℕ) :
    permitsOf ((db.insertPermits seller (newSlots sellers db seller count)).insertPermits who
      (newSlots (remembering sellers seller)
        (db.insertPermits seller (newSlots sellers db seller count)) who count)) who =
      permitsOf (db.insertPermits who (newSlots sellers db who count)) who := by
  by_cases hwho : who = seller
  · subst hwho
    have hin : who ∈ remembering sellers who := by
      rw [remembering]
      split_ifs with h
      · exact h
      · exact List.mem_cons_self
    have hnone : newSlots (remembering sellers who)
        (db.insertPermits who (newSlots sellers db who count)) who count = [] := by
      rw [newSlots, if_pos hin]
    rw [hnone]
    rfl
  · have hin : who ∈ remembering sellers seller ↔ who ∈ sellers := by
      rw [remembering]
      split_ifs
      · rfl
      · rw [List.mem_cons]
        exact or_iff_right hwho
    have hslots : newSlots (remembering sellers seller)
        (db.insertPermits seller (newSlots sellers db seller count)) who count =
          newSlots sellers db who count := by
      simp only [newSlots, hin, Db.permitRow_insertPermits, hwho, false_and, if_false,
        Option.or_none]
    rw [permitsOf_newSlots, permitsOf_newSlots, hslots, permitsOf_newSlots, if_neg hwho,
      List.append_nil]

/-- A claim without a token leaves the tables as `ensurePermits` did. -/
lemma commitClaim_of_none {result : ClaimResult} (h : result.claim job = none) :
    commitClaim job inserted db result = db.insertPermits job.event.sellerId inserted := by
  cases result with
  | claimed => cases h
  | _ => rfl

/-! ### The statements -/

/-- The store of a claim that runs alone: only its own locks and the remembered
sellers have changed. -/
structure Alone (t : ℕ) (s₀ s : Store) : Prop where
  now : s.now = s₀.now
  db : s.db = s₀.db
  issued : s.issued = s₀.issued
  locks : ∀ x ∈ s.locks, x.2 = t

namespace Alone

lemma available (h : Alone t s₀ s) (q : Resource → Bool) : Locks.available s.locks t q = true :=
  Locks.available_iff.mpr fun _ _ hr _ => h.locks _ hr

lemma lock (h : Alone t s₀ s) (rs : List Resource) : Alone t s₀ (s.lock t rs) := by
  refine ⟨h.now, h.db, h.issued, fun x hx => ?_⟩
  rcases List.mem_append.mp hx with hx | hx
  · obtain ⟨r, -, rfl⟩ := List.mem_map.mp hx
    rfl
  · exact h.locks x hx

lemma remember (h : Alone t s₀ s) (owner seller : String) :
    Alone t s₀ (s.rememberSeller owner seller) :=
  ⟨h.now, h.db, h.issued, h.locks⟩

end Alone

/-- The loop of `ensurePermits` from a slot on. -/
lemma ensure_solo (job : ClaimJob) (jvm : ℤ) (n : ℕ) : ∀ (s : Store) (slot : ℕ)
    (inserted : List ℕ), Alone t s₀ s → slot + n = job.sellerPermits + 1 →
    ∃ s', Alone t s₀ s' ∧
      s'.sellersWithPermits = (s.rememberSeller job.owner job.event.sellerId).sellersWithPermits ∧
      Solo service t (.go jvm) s (.claiming job (.ensure slot inserted)) s'
        (.claiming job (.selectPermits (inserted ++ (List.range' slot n).filter
          fun x => (s₀.db.permitRow job.event.sellerId x).isNone))) := by
  induction n with
  | zero =>
      intro s slot inserted halone hslot
      refine ⟨_, halone.remember job.owner job.event.sellerId, rfl, .step ?_ (.refl _ _)⟩
      show claimNext t s job jvm (.ensure slot inserted) = _
      simp only [claimNext, List.range'_zero, List.filter_nil, List.append_nil]
      rw [if_pos (by omega)]
  | succ n ih =>
      intro s slot inserted halone hslot
      have hle : ¬ job.sellerPermits < slot := by omega
      have hcan : s.canLock t (.permit job.event.sellerId slot) = true := halone.available _
      by_cases hrow : (s.db.permitRow job.event.sellerId slot).isSome
      · obtain ⟨s', halone', hsellers, hsolo⟩ := ih s (slot + 1) inserted halone (by omega)
        have hstep : service.next t s (.claiming job (.ensure slot inserted)) (.go jvm) =
            some (s, .claiming job (.ensure (slot + 1) inserted)) := by
          show claimNext t s job jvm (.ensure slot inserted) = _
          simp only [claimNext]
          rw [if_neg hle, if_pos hcan, if_pos hrow]
        rw [halone.db] at hrow
        rw [List.range'_succ, List.filter_cons_of_neg
          (by simpa [Option.isSome_iff_ne_none] using hrow)]
        exact ⟨s', halone', hsellers, .step hstep hsolo⟩
      · obtain ⟨s', halone', hsellers, hsolo⟩ := ih (s.lock t [.permit job.event.sellerId slot])
          (slot + 1) (inserted ++ [slot]) (halone.lock _) (by omega)
        have hstep : service.next t s (.claiming job (.ensure slot inserted)) (.go jvm) =
            some (s.lock t [.permit job.event.sellerId slot],
              .claiming job (.ensure (slot + 1) (inserted ++ [slot]))) := by
          show claimNext t s job jvm (.ensure slot inserted) = _
          simp only [claimNext]
          rw [if_neg hle, if_pos hcan, if_neg hrow]
        rw [halone.db] at hrow
        rw [List.append_assoc, List.singleton_append] at hsolo
        rw [List.range'_succ, List.filter_cons_of_pos (by simpa using hrow)]
        exact ⟨s', halone', hsellers, .step hstep hsolo⟩

/-- The writes of a claim, up to its commit. -/
lemma write_solo (halone : Alone t s₀ s) (slot : ℕ) (row : InboxRow) (admittedAt : Option ℤ)
    {permit : PermitRow} (hpermit : (s₀.db.insertPermits job.event.sellerId inserted).permitRow
      job.event.sellerId slot = some permit) :
    Solo service t (.go jvm) s (.claiming job (.updateRow inserted slot row admittedAt)) s
      (.claiming job (.commit inserted (.claimed slot row admittedAt
        (row.claim job.owner (s₀.now + job.leaseMs))
        (permit.take job.owner job.event.eventId (row.generation + 1)
          (s₀.now + job.leaseMs))))) := by
  have hrow : service.next t s (.claiming job (.updateRow inserted slot row admittedAt))
      (.go jvm) = some (s, .claiming job (.updatePermit inserted slot row admittedAt
        (row.claim job.owner (s₀.now + job.leaseMs)))) := by
    rw [← halone.now]
    rfl
  have hslot : service.next t s (.claiming job (.updatePermit inserted slot row admittedAt
      (row.claim job.owner (s₀.now + job.leaseMs)))) (.go jvm) = some (s, .claiming job
        (.commit inserted (.claimed slot row admittedAt
          (row.claim job.owner (s₀.now + job.leaseMs))
          (permit.take job.owner job.event.eventId (row.generation + 1)
            (s₀.now + job.leaseMs))))) := by
    show claimNext t s job jvm (.updatePermit _ _ _ _ _) = _
    simp only [claimNext]
    rw [halone.db, hpermit, halone.now]
  exact .step hrow (.step hslot (.refl _ _))

/-- From the row of the event on, with a free slot found. -/
lemma row_solo (halone : Alone t s₀ s) {slot : ℕ} (hslot : firstFree s₀.now
      (permitsOf (s₀.db.insertPermits job.event.sellerId inserted) job.event.sellerId) =
        some slot) :
    ∃ s', Alone t s₀ s' ∧ s'.sellersWithPermits = s.sellersWithPermits ∧
      Solo service t (.go jvm) s (.claiming job (.selectRow inserted slot)) s'
        (.claiming job (.commit inserted (claimResult job inserted s₀.now jvm s₀.db))) := by
  obtain ⟨permit, hpermit⟩ := Option.isSome_iff_exists.mp (isSome_of_firstFree hslot)
  have hcan : s.canLock t (.inboxRow job.event.eventId) = true := halone.available _
  simp only [claimResult, hslot, hpermit, Option.getD_some]
  cases hrow : s₀.db.inboxRow job.event.eventId with
  | none =>
      refine ⟨s, halone, rfl, .step ?_ (.refl _ _)⟩
      show claimNext t s job jvm (.selectRow inserted slot) = _
      simp only [claimNext, halone.db, hrow]
  | some row =>
      by_cases hclaimable : row.claimable s₀.now jvm (s₀.db.lastSequence row.event.order)
      · have hselect : service.next t s (.claiming job (.selectRow inserted slot)) (.go jvm) =
            some (s.lock t [.inboxRow job.event.eventId], .claiming job
              (if 0 < row.attempts then .countAdmissions inserted slot row
                else .updateRow inserted slot row none)) := by
          show claimNext t s job jvm (.selectRow inserted slot) = _
          simp only [claimNext, halone.db, hrow]
          rw [if_pos ⟨halone.now ▸ hclaimable, hcan⟩]
        have hlocked := halone.lock [.inboxRow job.event.eventId]
        refine ⟨_, hlocked, rfl, .step hselect ?_⟩
        simp only [hclaimable, not_true_eq_false, if_false]
        by_cases hretry : 0 < row.attempts
        · simp only [true_and, hretry]
          by_cases hbudget : job.retryBudget ≤
              s₀.db.retryCount job.event.sellerId s₀.now job.retryWindowMs
          · rw [if_pos hbudget]
            refine .step ?_ (.refl _ _)
            show claimNext t _ job jvm (.countAdmissions inserted slot row) = _
            simp only [claimNext, hlocked.db, hlocked.now]
            rw [if_pos hbudget]
          · rw [if_neg hbudget]
            have hcount : service.next t (s.lock t [.inboxRow job.event.eventId])
                (.claiming job (.countAdmissions inserted slot row)) (.go jvm) =
                some (s.lock t [.inboxRow job.event.eventId],
                  .claiming job (.insertAdmission inserted slot row)) := by
              show claimNext t _ job jvm (.countAdmissions inserted slot row) = _
              simp only [claimNext, hlocked.db, hlocked.now]
              rw [if_neg hbudget]
            have hinsert : service.next t (s.lock t [.inboxRow job.event.eventId])
                (.claiming job (.insertAdmission inserted slot row)) (.go jvm) =
                some (s.lock t [.inboxRow job.event.eventId],
                  .claiming job (.updateRow inserted slot row (some s₀.now))) := by
              rw [← hlocked.now]
              rfl
            exact .step hcount (.step hinsert (write_solo hlocked _ _ _ hpermit))
        · simp only [hretry, false_and, if_false]
          exact write_solo hlocked _ _ _ hpermit
      · simp only [hclaimable, not_false_eq_true, if_true]
        refine ⟨s, halone, rfl, .step ?_ (.refl _ _)⟩
        show claimNext t s job jvm (.selectRow inserted slot) = _
        simp only [claimNext, halone.db, hrow]
        rw [if_neg fun h => hclaimable (halone.now ▸ h.1)]

/-- The statements behind `ensurePermits` come to the result. -/
lemma select_solo (halone : Alone t s₀ s) :
    ∃ s', Alone t s₀ s' ∧ s'.sellersWithPermits = s.sellersWithPermits ∧
      Solo service t (.go jvm) s (.claiming job (.selectPermits inserted)) s'
        (.claiming job (.commit inserted (claimResult job inserted s₀.now jvm s₀.db))) := by
  cases hslot : firstFree s₀.now
      (permitsOf (s₀.db.insertPermits job.event.sellerId inserted) job.event.sellerId) with
  | none =>
      have hstep : ∃ rs, claimNext t s job jvm (.selectPermits inserted) =
          some (s.lock t rs, .claiming job (.commit inserted .sellerFull)) := by
        simp only [claimNext]
        rw [if_pos (halone.available _), halone.now, halone.db, hslot]
        exact ⟨_, rfl⟩
      obtain ⟨rs, hstep⟩ := hstep
      refine ⟨_, halone.lock rs, rfl, ?_⟩
      simp only [claimResult, hslot]
      exact .step hstep (.refl _ _)
  | some slot =>
      have hstep : ∃ rs, claimNext t s job jvm (.selectPermits inserted) =
          some (s.lock t rs, .claiming job (.selectRow inserted slot)) := by
        simp only [claimNext]
        rw [if_pos (halone.available _), halone.now, halone.db, hslot]
        exact ⟨_, rfl⟩
      obtain ⟨rs, hstep⟩ := hstep
      obtain ⟨s', halone', hsellers, hsolo⟩ :
          ∃ s', Alone t s₀ s' ∧ s'.sellersWithPermits = s.sellersWithPermits ∧
            Solo service t (.go jvm) (s.lock t rs) (.claiming job (.selectRow inserted slot)) s'
              (.claiming job (.commit inserted (claimResult job inserted s₀.now jvm s₀.db))) :=
        row_solo (halone.lock rs) hslot
      exact ⟨s', halone', hsellers, .step hstep hsolo⟩

/-- The commit. -/
lemma commit_solo (halone : Alone t s₀ s) (result : ClaimResult) :
    ∃ s', Solo service t (.go jvm) s (.claiming job (.commit inserted result)) s' .idle ∧
      s'.db = commitClaim job inserted s₀.db result ∧
      s'.sellersWithPermits = s.sellersWithPermits ∧
      s'.issued = s₀.issued ++ ((result.claim job).map (Issued.mk · job.event)).toList := by
  have hdb := halone.db
  have hissued := halone.issued
  cases result with
  | claimed slot row admittedAt row' permit =>
      refine ⟨_, .step rfl (.refl _ _), ?_, rfl, ?_⟩
      · rw [← hdb]
        rfl
      · rw [← hissued]
        rfl
  | _ =>
      refine ⟨_, .step rfl (.refl _ _), ?_, rfl, ?_⟩
      · rw [← hdb]
        rfl
      · rw [← hissued]
        exact (List.append_nil _).symm

/-- **The statements of a claim come to `claimAlone`** when no other transaction is open:
its transaction commits those tables, the instance remembers those sellers, and the token
is the one of its result. -/
theorem claim_solo (job : ClaimJob) (jvm : ℤ) (halone : Alone t s₀ s₀) :
    ∃ s', Solo service t (.go jvm) s₀ (.claiming job .ensurePermits) s' .idle ∧
      ((claimAlone job s₀.now jvm (s₀.sellersWithPermits job.owner) s₀.db).2) =
        (s'.sellersWithPermits job.owner, s'.db) ∧
      s'.issued = s₀.issued ++ (((claimAlone job s₀.now jvm (s₀.sellersWithPermits job.owner)
        s₀.db).1.claim job).map (Issued.mk · job.event)).toList := by
  by_cases hset : job.event.sellerId ∈ s₀.sellersWithPermits job.owner
  · have hstart : service.next t s₀ (.claiming job .ensurePermits) (.go jvm) =
        some (s₀, .claiming job (.selectPermits [])) := by
      show claimNext t s₀ job jvm .ensurePermits = _
      simp only [claimNext]
      rw [if_pos hset]
    obtain ⟨s₁, halone₁, hsellers₁, hsolo₁⟩ : ∃ s', Alone t s₀ s' ∧
        s'.sellersWithPermits = s₀.sellersWithPermits ∧ Solo service t (.go jvm) s₀
          (.claiming job (.selectPermits [])) s'
          (.claiming job (.commit [] (claimResult job [] s₀.now jvm s₀.db))) :=
      select_solo halone
    obtain ⟨s', hsolo, hdb, hsellers, hissued⟩ := commit_solo halone₁ _
    refine ⟨s', .step hstart (hsolo₁.trans hsolo), ?_, ?_⟩
    · simp only [claimAlone, newSlots, remembering, if_pos hset, hsellers, hsellers₁, hdb]
    · simpa only [claimAlone, newSlots, if_pos hset] using hissued
  · have hstart : service.next t s₀ (.claiming job .ensurePermits) (.go jvm) =
        some (s₀, .claiming job (.ensure 1 [])) := by
      show claimNext t s₀ job jvm .ensurePermits = _
      simp only [claimNext]
      rw [if_neg hset]
    obtain ⟨s₁, halone₁, hsellers₁, hsolo₁⟩ := ensure_solo job jvm job.sellerPermits s₀ 1 []
      halone (by omega)
    obtain ⟨s₂, halone₂, hsellers₂, hsolo₂⟩ := select_solo halone₁
    obtain ⟨s', hsolo, hdb, hsellers, hissued⟩ := commit_solo halone₂ _
    refine ⟨s', .step hstart (hsolo₁.trans (hsolo₂.trans hsolo)), ?_, ?_⟩
    · simp only [claimAlone, newSlots, remembering, if_neg hset, hsellers, hsellers₂, hsellers₁,
        hdb, Store.rememberSeller, Function.update_self, List.nil_append]
    · simpa only [claimAlone, newSlots, if_neg hset, List.nil_append] using hissued

end OrderSystem.Partner
