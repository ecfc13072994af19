/-
`storeAll` as one transaction, for a batch and record by record.

* `Record`: a task with the payload and the topic that are stored beside it.
* `Conflict`: two rows the unique keys of `inbox` do not admit together. The database
  compares text by `fold`, the key of its collation; the JVM compares ids exactly.
* `storeAll`, `store`, `inTransaction`: the code; a failure rolls back.
* `store_all_outcomes`: a batch is stored, or the inbox is full, or the table refuses the
  rows, which happens exactly when two of them conflict, one conflicts with a stored row,
  or one does not fit its columns.
* `store_all_eq_store_each`: a batch is stored exactly when its records can be stored one
  after another, with the same rows and the same count.
-/
import OrderSystem.Partner.Database

namespace OrderSystem.Partner

/-! ### Records and rows -/

/-- One record of a poll as `storeAll` gets it. -/
structure Record where
  task : PartnerTask
  payload : String
  topic : String
  deriving DecidableEq, Repr

namespace Record

def eventId (x : Record) : String := x.task.event.eventId

/-- The payload is a `TEXT`, the topic a `VARCHAR(128)`; `validate` keeps the other
columns short enough. -/
def fits (x : Record) : Prop :=
  x.payload.utf8ByteSize ≤ 65535 ∧ x.topic.length ≤ 128

instance (x : Record) : Decidable x.fits :=
  inferInstanceAs (Decidable (_ ∧ _))

end Record

/-- Two rows under one `event_id`, or under one `(seller_id, order_id, seq)`. -/
def Conflict (fold : String → String) (r x : InboxRow) : Prop :=
  fold r.eventId = fold x.eventId ∨
    (fold r.event.sellerId = fold x.event.sellerId ∧ r.event.orderId = x.event.orderId ∧
      r.event.sequence = x.event.sequence)

instance (fold : String → String) (r x : InboxRow) : Decidable (Conflict fold r x) :=
  inferInstanceAs (Decidable (_ ∨ _))

/-- The rows of new records. -/
def freshRows (receivedAt : ℤ) (new : List Record) : List InboxRow :=
  new.map fun x => InboxRow.fresh x.task receivedAt

/-- The table takes the rows. -/
structure Db.Accepts (fold : String → String) (receivedAt : ℤ) (new : List Record) (db : Db) :
    Prop where
  stored : ∀ r ∈ db.inbox, ∀ x ∈ freshRows receivedAt new, ¬ Conflict fold r x
  batch : (freshRows receivedAt new).Pairwise fun r x => ¬ Conflict fold r x
  columns : ∀ x ∈ new, x.fits

instance (fold : String → String) (receivedAt : ℤ) (new : List Record) (db : Db) :
    Decidable (db.Accepts fold receivedAt new) :=
  decidable_of_iff ((∀ r ∈ db.inbox, ∀ x ∈ freshRows receivedAt new, ¬ Conflict fold r x) ∧
      (freshRows receivedAt new).Pairwise (fun r x => ¬ Conflict fold r x) ∧ ∀ x ∈ new, x.fits)
    ⟨fun h => ⟨h.1, h.2.1, h.2.2⟩, fun h => ⟨h.stored, h.batch, h.columns⟩⟩

/-! ### The code -/

/-- `InboxFullException`, or the exception of an `INSERT` that the table refuses. -/
inductive StoreFailure where
  | inboxFull
  | refused
  deriving DecidableEq, Repr

/-- `SELECT event_id ... WHERE event_id IN (ids)` on the ids of a table. -/
def selectIds (fold : String → String) (stored ids : List String) : List String :=
  stored.filter fun x => fold x ∈ ids.map fold

/-- The loop of `storeAll`: `known.add(e.eventId())` for each record. -/
def newRecords : List String → List Record → List Record
  | _, [] => []
  | known, x :: records =>
      if x.eventId ∈ known then newRecords known records
      else x :: newRecords (x.eventId :: known) records

/-- The ids `storeAll` finds in `inbox` and in `partner_effect`. -/
def Db.knownIds (fold : String → String) (db : Db) (records : List Record) : List String :=
  let ids := records.map Record.eventId
  selectIds fold (db.inbox.map InboxRow.eventId) ids ++
    selectIds fold (db.partnerEffect.map EffectRow.eventId) ids

section Code

variable (fold : String → String) (pendingLimit retainedLimit : ℕ) (receivedAt : ℤ)

/-- `storeAll` inside a transaction: how many rows were inserted, and the tables. -/
def storeAll (db : Db) (records : List Record) : Except StoreFailure (ℕ × Db) :=
  if records = [] then .ok (0, db)
  else
    let new := newRecords (db.knownIds fold records) records
    if new = [] then .ok (0, db)
    else if pendingLimit < db.pendingCount + new.length ∨
        retainedLimit < db.retainedCount + new.length then .error .inboxFull
    else if db.Accepts fold receivedAt new then
      .ok (new.length, db.insertInbox (freshRows receivedAt new))
    else .error .refused

/-- `store`: whether the one record was inserted. -/
def store (db : Db) (x : Record) : Except StoreFailure (Bool × Db) :=
  (storeAll fold pendingLimit retainedLimit receivedAt db [x]).map fun r => (r.1 = 1, r.2)

/-- Calls of `store` one after another, and how many returned true. -/
def storeEach (db : Db) : List Record → Except StoreFailure (ℕ × Db)
  | [] => .ok (0, db)
  | x :: records => do
      let (stored, db) ← store fold pendingLimit retainedLimit receivedAt db x
      let (n, db) ← storeEach db records
      return ((if stored then 1 else 0) + n, db)

/-- The transaction around `storeAll`: an exception rolls it back. -/
def inTransaction (db : Db) (records : List Record) : Except StoreFailure ℕ × Db :=
  match storeAll fold pendingLimit retainedLimit receivedAt db records with
  | .ok (n, db') => (.ok n, db')
  | .error e => (.error e, db)

end Code

/-! ### New records -/

variable {fold : String → String} {pendingLimit retainedLimit : ℕ} {receivedAt : ℤ} {db : Db}
  {records : List Record} {known known' : List String} {x : Record}

/-- The event is stored, or delivered. -/
def Db.Known (db : Db) (id : String) : Prop :=
  (∃ r ∈ db.inbox, r.eventId = id) ∨ db.isDelivered id

instance (id : String) : Decidable (db.Known id) :=
  inferInstanceAs (Decidable ((∃ r ∈ db.inbox, r.eventId = id) ∨ _))

/-- Whatever the collation, the JVM finds exactly the ids that are known. -/
lemma mem_knownIds (hx : x ∈ records) : x.eventId ∈ db.knownIds fold records ↔ db.Known x.eventId := by
  have hfold : fold x.eventId ∈ (records.map Record.eventId).map fold :=
    List.mem_map_of_mem (List.mem_map_of_mem hx)
  simp only [Db.knownIds, selectIds, List.mem_append, List.mem_filter, decide_eq_true_eq, hfold,
    and_true, Db.Known, Db.isDelivered, List.mem_map]

/-- The loop only asks whether the ids of its records are known. -/
lemma newRecords_congr (h : ∀ x ∈ records, x.eventId ∈ known ↔ x.eventId ∈ known') :
    newRecords known records = newRecords known' records := by
  induction records generalizing known known' with
  | nil => rfl
  | cons x records ih =>
      have hx := h x List.mem_cons_self
      by_cases hk : x.eventId ∈ known
      · rw [newRecords, newRecords, if_pos hk, if_pos (hx.mp hk)]
        exact ih fun y hy => h y (List.mem_cons_of_mem _ hy)
      · rw [newRecords, newRecords, if_neg hk, if_neg fun hk' => hk (hx.mpr hk')]
        refine congrArg (x :: ·) (ih fun y hy => ?_)
        simp only [List.mem_cons, h y (List.mem_cons_of_mem _ hy)]

/-- The new records: the first one of each id that is not known. -/
lemma mem_newRecords :
    x ∈ newRecords known records ↔ x.eventId ∉ known ∧
      ∃ l r, records = l ++ x :: r ∧ ∀ y ∈ l, y.eventId ≠ x.eventId := by
  induction records generalizing known with
  | nil => simp [newRecords]
  | cons z records ih =>
      have hsplit : (∃ l r, z :: records = l ++ x :: r ∧ ∀ y ∈ l, y.eventId ≠ x.eventId) ↔
          z = x ∨ (z.eventId ≠ x.eventId ∧
            ∃ l r, records = l ++ x :: r ∧ ∀ y ∈ l, y.eventId ≠ x.eventId) := by
        constructor
        · rintro ⟨l, r, hl, hfirst⟩
          cases l with
          | nil => exact Or.inl (List.cons.inj hl).1
          | cons y l =>
              obtain ⟨hzy, hrest⟩ := List.cons.inj hl
              exact Or.inr ⟨hzy ▸ hfirst y List.mem_cons_self, l, r, hrest,
                fun y hy => hfirst y (List.mem_cons_of_mem _ hy)⟩
        · rintro (rfl | ⟨hne, l, r, rfl, hfirst⟩)
          · exact ⟨[], records, rfl, by simp⟩
          · refine ⟨z :: l, r, rfl, fun y hy => ?_⟩
            rcases List.mem_cons.mp hy with rfl | hy
            · exact hne
            · exact hfirst y hy
      rw [hsplit]
      by_cases hk : z.eventId ∈ known
      · rw [newRecords, if_pos hk, ih]
        refine and_congr_right fun hx => ?_
        have hne : z.eventId ≠ x.eventId := fun h => hx (h ▸ hk)
        have hzx : z ≠ x := fun h => hne (congrArg Record.eventId h)
        simp [hne, hzx]
      · rw [newRecords, if_neg hk, List.mem_cons, ih, List.mem_cons]
        by_cases hzx : z = x
        · subst hzx
          simp [hk]
        · simp only [Ne.symm hzx, hzx, false_or, not_or]
          constructor
          · rintro ⟨⟨hne, hx⟩, hl⟩
            exact ⟨hx, Ne.symm hne, hl⟩
          · rintro ⟨hx, hne, hl⟩
            exact ⟨⟨Ne.symm hne, hx⟩, hl⟩

lemma newRecords_sublist : (newRecords known records).Sublist records := by
  induction records generalizing known with
  | nil => exact List.Sublist.refl _
  | cons x records ih =>
      by_cases hk : x.eventId ∈ known
      · rw [newRecords, if_pos hk]
        exact ih.cons x
      · rw [newRecords, if_neg hk]
        exact ih.cons_cons x

lemma nodup_newRecords : ((newRecords known records).map Record.eventId).Nodup := by
  induction records generalizing known with
  | nil => exact List.nodup_nil
  | cons x records ih =>
      by_cases hk : x.eventId ∈ known
      · rw [newRecords, if_pos hk]
        exact ih
      · rw [newRecords, if_neg hk, List.map_cons, List.nodup_cons]
        refine ⟨fun hmem => ?_, ih⟩
        obtain ⟨y, hy, hyx⟩ := List.mem_map.mp hmem
        exact (mem_newRecords.mp hy).1 (hyx ▸ List.mem_cons_self)

/-! ### Room for a batch -/

/-- Both limits leave room for the new rows, or there are none. -/
def Db.HasRoom (pendingLimit retainedLimit : ℕ) (db : Db) (new : List Record) : Prop :=
  new = [] ∨ (db.pendingCount + new.length ≤ pendingLimit ∧
    db.retainedCount + new.length ≤ retainedLimit)

instance (new : List Record) : Decidable (db.HasRoom pendingLimit retainedLimit new) :=
  inferInstanceAs (Decidable (_ ∨ _ ∧ _))

lemma Db.accepts_nil : db.Accepts fold receivedAt [] :=
  ⟨by simp [freshRows], List.Pairwise.nil, by simp⟩

/-- The spec of `storeAll`. -/
lemma storeAll_eq :
    storeAll fold pendingLimit retainedLimit receivedAt db records =
      let new := newRecords (db.knownIds fold records) records
      if db.HasRoom pendingLimit retainedLimit new then
        if db.Accepts fold receivedAt new then
          .ok (new.length, db.insertInbox (freshRows receivedAt new))
        else .error .refused
      else .error .inboxFull := by
  by_cases hnil : newRecords (db.knownIds fold records) records = []
  · have hstore : storeAll fold pendingLimit retainedLimit receivedAt db records = .ok (0, db) := by
      simp only [storeAll, hnil, if_true, ite_self]
    simp [hstore, hnil, Db.HasRoom, Db.accepts_nil, Db.insertInbox, freshRows]
  · have hne : records ≠ [] := fun h => hnil (by rw [h, newRecords])
    simp only [storeAll, if_neg hne, hnil, if_false, Db.HasRoom, false_or, ← not_lt, ← not_or,
      ite_not]

/-- **A batch is stored, or the inbox is full, or the table refuses the rows.** The new
records are the first of each id that is neither stored nor delivered, in the order of the
batch. They are inserted as pending rows, and counted, exactly when there is room for them
and the table accepts them; a full inbox is reported exactly when there is no room; the
table refuses them exactly when there is room, but two of their rows conflict, one conflicts
with a stored row, or a payload or a topic is too long for its column. A failure leaves every
table as it was. -/
theorem store_all_outcomes (fold : String → String) (pendingLimit retainedLimit : ℕ)
    (receivedAt : ℤ) (db : Db) (records : List Record) :
    ∃ new : List Record,
      new.Sublist records ∧ (new.map Record.eventId).Nodup ∧
      (∀ x, x ∈ new ↔ ¬ db.Known x.eventId ∧
        ∃ l r, records = l ++ x :: r ∧ ∀ y ∈ l, y.eventId ≠ x.eventId) ∧
      (∀ r ∈ freshRows receivedAt new, r.state = .pending ∧ r.receivedAt = receivedAt) ∧
      inTransaction fold pendingLimit retainedLimit receivedAt db records =
        if db.HasRoom pendingLimit retainedLimit new then
          if db.Accepts fold receivedAt new then
            (.ok new.length, db.insertInbox (freshRows receivedAt new))
          else (.error .refused, db)
        else (.error .inboxFull, db) := by
  refine ⟨newRecords (db.knownIds fold records) records, newRecords_sublist, nodup_newRecords,
    fun x => ?_, fun r hr => ?_, ?_⟩
  · rw [mem_newRecords]
    refine and_congr_left fun hfirst => ?_
    obtain ⟨l, r, rfl, -⟩ := hfirst
    rw [mem_knownIds (List.mem_append_right l List.mem_cons_self)]
  · obtain ⟨x, -, rfl⟩ := List.mem_map.mp hr
    exact ⟨rfl, rfl⟩
  · rw [inTransaction, storeAll_eq]
    dsimp only
    split_ifs <;> rfl

/-- Two valid events of one order and one sequence under different ids: the table is empty
and there is room, and the batch is neither stored nor reported as a full inbox. -/
theorem store_all_refuses_a_shared_sequence :
    let event (id : String) : PartnerOrderEvent := ⟨id, "run", "s1", 1, 1, .create, 1, 1, 1, ⟨0⟩, none⟩
    let batch : List Record := [⟨⟨event "e1", 0, 0⟩, "x", "t"⟩, ⟨⟨event "e2", 0, 1⟩, "x", "t"⟩]
    (∀ x ∈ batch, x.task.event.valid) ∧
      inTransaction id 100 100 0 {} batch = (.error .refused, {}) := by
  decide +kernel

/-! ### Record by record -/

/-- The rows of a batch are taken. -/
def Db.Takes (fold : String → String) (pendingLimit retainedLimit : ℕ) (receivedAt : ℤ)
    (db : Db) (new : List Record) : Prop :=
  db.HasRoom pendingLimit retainedLimit new ∧ db.Accepts fold receivedAt new

instance (new : List Record) :
    Decidable (db.Takes fold pendingLimit retainedLimit receivedAt new) :=
  inferInstanceAs (Decidable (_ ∧ _))

lemma toOption_storeAll :
    (storeAll fold pendingLimit retainedLimit receivedAt db records).toOption =
      let new := newRecords (db.knownIds fold records) records
      if db.Takes fold pendingLimit retainedLimit receivedAt new then
        some (new.length, db.insertInbox (freshRows receivedAt new))
      else none := by
  rw [storeAll_eq]
  dsimp only
  by_cases hroom : db.HasRoom pendingLimit retainedLimit
      (newRecords (db.knownIds fold records) records)
  · by_cases haccepts : db.Accepts fold receivedAt (newRecords (db.knownIds fold records) records)
    · rw [if_pos hroom, if_pos haccepts, if_pos ⟨hroom, haccepts⟩]
      rfl
    · rw [if_pos hroom, if_neg haccepts, if_neg fun h => haccepts h.2]
      rfl
  · rw [if_neg hroom, if_neg fun h => hroom h.1]
    rfl

lemma newRecords_knownIds_cons_known (hx : db.Known x.eventId) :
    newRecords (db.knownIds fold (x :: records)) (x :: records) =
      newRecords (db.knownIds fold records) records := by
  rw [newRecords, if_pos ((mem_knownIds List.mem_cons_self).mpr hx)]
  refine newRecords_congr fun y hy => ?_
  rw [mem_knownIds (List.mem_cons_of_mem x hy), mem_knownIds hy]

/-- The table after the first record of a batch. -/
lemma newRecords_knownIds_cons (receivedAt : ℤ) (hx : ¬ db.Known x.eventId) :
    newRecords (db.knownIds fold (x :: records)) (x :: records) =
      x :: newRecords ((db.insertInbox (freshRows receivedAt [x])).knownIds fold records)
        records := by
  rw [newRecords, if_neg fun h => hx ((mem_knownIds List.mem_cons_self).mp h)]
  refine congrArg (x :: ·) (newRecords_congr fun y hy => ?_)
  have hrow : (InboxRow.fresh x.task receivedAt).eventId = x.eventId := rfl
  rw [List.mem_cons, mem_knownIds (List.mem_cons_of_mem x hy), mem_knownIds hy]
  simp only [Db.Known, Db.insertInbox, freshRows, Db.isDelivered, List.map_cons, List.map_nil,
    List.mem_append, List.mem_singleton, or_and_right, exists_or, exists_eq_left, hrow]
  constructor
  · rintro (h | h | h)
    · exact Or.inl (Or.inr h.symm)
    · exact Or.inl (Or.inl h)
    · exact Or.inr h
  · rintro ((h | h) | h)
    · exact Or.inr (Or.inl h)
    · exact Or.inl h.symm
    · exact Or.inr (Or.inr h)

lemma freshRows_cons (new : List Record) :
    freshRows receivedAt (x :: new) = freshRows receivedAt [x] ++ freshRows receivedAt new := rfl

/-- Every further row needs its own place. -/
lemma Db.hasRoom_cons (new : List Record) :
    db.HasRoom pendingLimit retainedLimit (x :: new) ↔
      db.HasRoom pendingLimit retainedLimit [x] ∧
        (db.insertInbox (freshRows receivedAt [x])).HasRoom pendingLimit retainedLimit new := by
  have hpending : (db.insertInbox (freshRows receivedAt [x])).pendingCount =
      db.pendingCount + 1 := by
    simp [Db.pendingCount, Db.insertInbox, freshRows, InboxRow.fresh]
  have hretained : (db.insertInbox (freshRows receivedAt [x])).retainedCount =
      db.retainedCount + 1 := by
    simp [Db.retainedCount, Db.insertInbox, freshRows]
  simp only [Db.HasRoom, hpending, hretained, List.length_cons, List.length_nil,
    List.cons_ne_nil, false_or]
  cases new with
  | nil => simp
  | cons y new =>
      simp only [List.length_cons, List.cons_ne_nil, false_or]
      omega

lemma Db.accepts_cons (new : List Record) :
    db.Accepts fold receivedAt (x :: new) ↔
      db.Accepts fold receivedAt [x] ∧
        (db.insertInbox (freshRows receivedAt [x])).Accepts fold receivedAt new := by
  have hmem : ∀ y, y ∈ freshRows receivedAt [x] ↔ y = InboxRow.fresh x.task receivedAt := by
    simp [freshRows]
  constructor
  · rintro ⟨hstored, hbatch, hcolumns⟩
    rw [freshRows_cons] at hstored hbatch
    have hsplit := List.pairwise_append.mp hbatch
    refine ⟨⟨fun r hr y hy => hstored r hr y (List.mem_append_left _ hy), hsplit.1,
      fun y hy => hcolumns y (List.mem_singleton.mp hy ▸ List.mem_cons_self)⟩,
      ⟨fun r hr y hy => ?_, hsplit.2.1, fun y hy => hcolumns y (List.mem_cons_of_mem x hy)⟩⟩
    rcases List.mem_append.mp hr with hr | hr
    · exact hstored r hr y (List.mem_append_right _ hy)
    · exact hsplit.2.2 r hr y hy
  · rintro ⟨hhead, htail⟩
    have hnew : ∀ r ∈ freshRows receivedAt [x], ∀ y ∈ freshRows receivedAt new,
        ¬ Conflict fold r y := fun r hr y hy => htail.stored r (List.mem_append_right _ hr) y hy
    refine ⟨fun r hr y hy => ?_, ?_, fun y hy => ?_⟩
    · rw [freshRows_cons] at hy
      rcases List.mem_append.mp hy with hy | hy
      · exact hhead.stored r hr y hy
      · exact htail.stored r (List.mem_append_left _ hr) y hy
    · rw [freshRows_cons]
      exact List.pairwise_append.mpr ⟨hhead.batch, htail.batch, hnew⟩
    · rcases List.mem_cons.mp hy with rfl | hy
      · exact hhead.columns y List.mem_cons_self
      · exact htail.columns y hy

lemma Db.takes_cons (new : List Record) :
    db.Takes fold pendingLimit retainedLimit receivedAt (x :: new) ↔
      db.Takes fold pendingLimit retainedLimit receivedAt [x] ∧
        (db.insertInbox (freshRows receivedAt [x])).Takes fold pendingLimit retainedLimit
          receivedAt new := by
  rw [Db.Takes, Db.hasRoom_cons new, Db.accepts_cons new]
  exact and_and_and_comm

/-- The rows a batch adds are those of its first record and those of the others. -/
lemma insertInbox_cons (new : List Record) :
    db.insertInbox (freshRows receivedAt (x :: new)) =
      (db.insertInbox (freshRows receivedAt [x])).insertInbox (freshRows receivedAt new) := by
  rw [freshRows_cons]
  simp only [Db.insertInbox, List.append_assoc]

lemma Db.takes_nil : db.Takes fold pendingLimit retainedLimit receivedAt [] :=
  ⟨Or.inl rfl, Db.accepts_nil⟩

/-- A known record adds nothing to a batch. -/
lemma toOption_storeAll_known (hx : db.Known x.eventId) :
    (storeAll fold pendingLimit retainedLimit receivedAt db (x :: records)).toOption =
      (storeAll fold pendingLimit retainedLimit receivedAt db records).toOption := by
  rw [toOption_storeAll, toOption_storeAll, newRecords_knownIds_cons_known hx]

/-- A new record takes its row first, and the others find it there. -/
lemma toOption_storeAll_new (hx : ¬ db.Known x.eventId) :
    (storeAll fold pendingLimit retainedLimit receivedAt db (x :: records)).toOption =
      if db.Takes fold pendingLimit retainedLimit receivedAt [x] then
        ((storeAll fold pendingLimit retainedLimit receivedAt
          (db.insertInbox (freshRows receivedAt [x])) records).toOption).map
            fun r => (1 + r.1, r.2)
      else none := by
  rw [toOption_storeAll, toOption_storeAll, newRecords_knownIds_cons receivedAt hx]
  simp only [Db.takes_cons (newRecords _ records), insertInbox_cons (newRecords _ records),
    List.length_cons]
  by_cases hhead : db.Takes fold pendingLimit retainedLimit receivedAt [x]
  · simp only [hhead, true_and, if_true]
    split_ifs
    · rw [Option.map_some, Nat.add_comm]
    · rfl
  · simp only [hhead, false_and, if_false]

/-- The spec of `store`. -/
lemma toOption_store :
    (store fold pendingLimit retainedLimit receivedAt db x).toOption =
      if db.Known x.eventId then some (false, db)
      else if db.Takes fold pendingLimit retainedLimit receivedAt [x] then
        some (true, db.insertInbox (freshRows receivedAt [x]))
      else none := by
  have hmap : (store fold pendingLimit retainedLimit receivedAt db x).toOption =
      ((storeAll fold pendingLimit retainedLimit receivedAt db [x]).toOption).map
        fun r => (decide (r.1 = 1), r.2) := by
    rw [store]
    cases storeAll fold pendingLimit retainedLimit receivedAt db [x] <;> rfl
  have hnil : ∀ db, storeAll fold pendingLimit retainedLimit receivedAt db [] = .ok (0, db) :=
    fun db => rfl
  by_cases hx : db.Known x.eventId
  · rw [hmap, toOption_storeAll_known hx, hnil, if_pos hx]
    rfl
  · rw [hmap, toOption_storeAll_new hx, hnil, if_neg hx]
    split_ifs <;> rfl

lemma toOption_storeEach_cons :
    (storeEach fold pendingLimit retainedLimit receivedAt db (x :: records)).toOption =
      (store fold pendingLimit retainedLimit receivedAt db x).toOption.bind fun s =>
        ((storeEach fold pendingLimit retainedLimit receivedAt s.2 records).toOption).map
          fun r => ((if s.1 then 1 else 0) + r.1, r.2) := by
  rw [storeEach]
  cases store fold pendingLimit retainedLimit receivedAt db x with
  | error e => rfl
  | ok s =>
      change ((storeEach fold pendingLimit retainedLimit receivedAt s.2 records) >>= _).toOption = _
      change _ = ((storeEach fold pendingLimit retainedLimit receivedAt s.2 records).toOption).map _
      cases storeEach fold pendingLimit retainedLimit receivedAt s.2 records <;> rfl

lemma toOption_storeEach (db : Db) (records : List Record) :
    (storeEach fold pendingLimit retainedLimit receivedAt db records).toOption =
      (storeAll fold pendingLimit retainedLimit receivedAt db records).toOption := by
  induction records generalizing db with
  | nil => rfl
  | cons x records ih =>
      rw [toOption_storeEach_cons, toOption_store]
      by_cases hx : db.Known x.eventId
      · rw [if_pos hx, toOption_storeAll_known hx, Option.bind_some, ih]
        simp
      · rw [if_neg hx, toOption_storeAll_new hx]
        by_cases htakes : db.Takes fold pendingLimit retainedLimit receivedAt [x]
        · rw [if_pos htakes, if_pos htakes, Option.bind_some, ih]
          rfl
        · rw [if_neg htakes, if_neg htakes, Option.bind_none]

lemma eq_ok_iff_toOption {ε α : Type} {r : Except ε α} {a : α} :
    r = .ok a ↔ r.toOption = some a := by
  cases r <;> simp [Except.toOption]

/-- **A batch is ingested as its records are.** Whatever the tables hold, the limits, the time
and the records are: `storeAll` on the whole list returns `n` and leaves the tables `db'`
exactly when calls of `store` on its elements one after another raise nothing, `n` of them
return true, and they leave the tables `db'`. -/
theorem store_all_eq_store_each (fold : String → String) (pendingLimit retainedLimit : ℕ)
    (receivedAt : ℤ) (db db' : Db) (records : List Record) (n : ℕ) :
    storeAll fold pendingLimit retainedLimit receivedAt db records = .ok (n, db') ↔
      storeEach fold pendingLimit retainedLimit receivedAt db records = .ok (n, db') := by
  rw [eq_ok_iff_toOption, eq_ok_iff_toOption, toOption_storeEach]

/-- Two new records and a repeated one against a limit of two. -/
example :
    let event (id : String) (seq : ℤ) : PartnerOrderEvent :=
      ⟨id, "run", "s1", 1, seq, .create, 1, 1, 1, ⟨0⟩, none⟩
    let batch : List Record := [⟨⟨event "e1" 1, 0, 0⟩, "x", "t"⟩, ⟨⟨event "e2" 2, 0, 1⟩, "x", "t"⟩,
      ⟨⟨event "e1" 1, 0, 2⟩, "x", "t"⟩]
    ((storeAll id 2 2 0 {} batch).toOption.map Prod.fst = some 2) ∧
      storeEach id 1 2 0 {} batch = .error .inboxFull := by
  decide +kernel

end OrderSystem.Partner
