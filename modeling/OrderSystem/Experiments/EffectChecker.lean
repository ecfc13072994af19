/-
The effect checker of the experiments (`experiments/checker.py`).

* `check`: the verdict over the expected events, the export of the seller's ledger, and the
  tables of the database.
* `Correct`: what a correct outcome is. The effects are permutations of the expected events, and
  the order tables are the maps from an order to its last operation.
* `check_passed_iff`: the verdict is `passed` exactly on the correct outcomes.

`Value` are the values of JSON the checker only compares, and `==` is the comparison; `loads` is
`json.loads`, with `none` where it raises. `Counter` is a multiset.
-/
import Mathlib.Data.List.MinMax
import OrderSystem.Common.Events
import OrderSystem.Foundations.Dict

namespace OrderSystem.Experiments

variable {Value : Type}

/-! ### The input -/

/-- An expected event: the fields the checker reads, and the object as a whole. -/
structure Expected (Value : Type) where
  eventId : String
  runId : Value
  sellerId : String
  orderId : ℤ
  sequence : ℤ
  operation : Value
  quantity : Value
  price : Value
  object : Value

/-- A row of the effects of the seller's ledger. -/
structure RemoteEffect (Value : Type) where
  eventId : String
  sellerId : String
  orderId : ℤ
  seq : ℤ
  operation : Value
  quantity : Value
  price : Value
  payload : Option Value

/-- A row of `partner_effect`. -/
structure DbEffect (Value : Type) where
  eventId : String
  sellerId : String
  orderId : ℤ
  runId : Value
  seq : ℤ
  operation : Value
  quantity : Value
  price : Value

/-- A row of an order table. -/
structure FinalOrder (Value : Type) where
  sellerId : String
  orderId : ℤ
  seq : ℤ
  operation : Value
  quantity : Value
  price : Value

/-- An attempt of the seller's ledger. -/
structure RemoteAttempt where
  status : Option ℤ
  responseLost : Option ℤ

/-- The export of the seller's ledger. -/
structure Remote (Value : Type) where
  effects : List (RemoteEffect Value)
  orders : List (FinalOrder Value)
  attempts : List RemoteAttempt

def Expected.order (e : Expected Value) : OrderKey := ⟨e.sellerId, e.orderId⟩

def RemoteEffect.order (r : RemoteEffect Value) : OrderKey := ⟨r.sellerId, r.orderId⟩

def FinalOrder.order (r : FinalOrder Value) : OrderKey := ⟨r.sellerId, r.orderId⟩

/-! ### The verdict -/

/-- The two order tables. -/
inductive OrderTable where
  | external
  | businessDb
  deriving DecidableEq, Repr

/-- The entries of `errors`. -/
inductive Failure where
  /-- `expected input contains duplicate event IDs` -/
  | duplicateIds
  /-- `external effect count {event_id}: {count}` -/
  | effectCount (eventId : String) (count : ℕ)
  /-- `unexpected external effect {event_id}` -/
  | unexpectedEffect (eventId : String)
  /-- `external payload mismatch {event_id}/{out}` -/
  | effectField (eventId out : String)
  /-- `external serialized request mismatch {event_id}` -/
  | request (eventId : String)
  /-- `external serialized request unavailable {event_id}` -/
  | requestUnavailable (eventId : String)
  /-- `external order violation {key}: {sequence} expected {wanted}` -/
  | orderViolation (key : OrderKey) (sequence wanted : List ℤ)
  /-- `business DB event IDs differ from expected` -/
  | dbIds
  /-- `business DB payload mismatch {event_id}/{out}` -/
  | dbField (eventId out : String)
  /-- `{label} final order keys differ` -/
  | orderKeys (label : OrderTable)
  /-- `{label} final state mismatch {key}/{out}` -/
  | orderField (label : OrderTable) (key : OrderKey) (out : String)
  /-- `external API rejected an out-of-order or conflicting request` -/
  | rejected
  deriving DecidableEq, Repr

/-- The result of `check`. -/
structure Verdict where
  passed : Bool
  expected : ℕ
  externalEffects : ℕ
  dbEffects : ℕ
  requests : ℕ
  responseLost : ℤ
  errors : List Failure
  deriving DecidableEq, Repr

/-! ### The checks -/

/-- The columns of a loop over `(out, source)` that differ; the second component tells whether
they are equal. -/
def differing (columns : List (String × Bool)) : List String :=
  (columns.filter fun c => !c.2).map Prod.fst

section Checks

variable [BEq Value]

def RemoteEffect.differing (row : RemoteEffect Value) (event : Expected Value) : List String :=
  Experiments.differing [("seller_id", row.sellerId = event.sellerId),
    ("order_id", row.orderId = event.orderId), ("seq", row.seq = event.sequence),
    ("operation", row.operation == event.operation), ("quantity", row.quantity == event.quantity),
    ("price", row.price == event.price)]

def DbEffect.differing (row : DbEffect Value) (event : Expected Value) : List String :=
  Experiments.differing [("seller_id", row.sellerId = event.sellerId),
    ("order_id", row.orderId = event.orderId), ("run_id", row.runId == event.runId),
    ("seq", row.seq = event.sequence), ("operation", row.operation == event.operation),
    ("quantity", row.quantity == event.quantity), ("price", row.price == event.price)]

def FinalOrder.differing (row : FinalOrder Value) (event : Expected Value) : List String :=
  Experiments.differing [("seq", row.seq = event.sequence),
    ("operation", row.operation == event.operation), ("quantity", row.quantity == event.quantity),
    ("price", row.price == event.price)]

omit [BEq Value] in
/-- `expected_by_id`. -/
def expectedById (expected : List (Expected Value)) : List (Expected Value) :=
  Table.putAll Expected.eventId expected []

omit [BEq Value] in
/-- The loops over `count`. The second one is over a set; its order is not specified. -/
def countErrors (byId : List (Expected Value)) (effects : List (RemoteEffect Value)) :
    List Failure :=
  let ids := effects.map RemoteEffect.eventId
  (byId.filter fun e => ids.count e.eventId ≠ 1).map
      (fun e => .effectCount e.eventId (ids.count e.eventId)) ++
    (ids.dedup.filter fun id => Table.get Expected.eventId id byId |>.isNone).map .unexpectedEffect

/-- The comparison of the serialized request. -/
def requestErrors (loads : Value → Option Value) (row : RemoteEffect Value)
    (event : Expected Value) : List Failure :=
  match row.payload.bind loads with
  | none => [.requestUnavailable row.eventId]
  | some object => if object != event.object then [.request row.eventId] else []

/-- The body of the loop over the effects of the ledger. -/
def effectErrors (loads : Value → Option Value) (byId : List (Expected Value))
    (row : RemoteEffect Value) : List Failure :=
  match Table.get Expected.eventId row.eventId byId with
  | none => []
  | some event =>
      (row.differing event).map (.effectField row.eventId) ++ requestErrors loads row event

omit [BEq Value] in
/-- `wanted`. -/
def wanted (expected : List (Expected Value)) (key : OrderKey) : List ℤ :=
  ((expected.filter fun e => e.order = key).map Expected.sequence).insertionSort (· ≤ ·)

omit [BEq Value] in
/-- The loop over `grouped`. -/
def orderErrors (expected : List (Expected Value)) (effects : List (RemoteEffect Value)) :
    List Failure :=
  let grouped := effects.foldl (fun q row => KeyedQueues.add RemoteEffect.order row q) []
  (grouped.filter fun g => g.2.map RemoteEffect.seq ≠ wanted expected g.1).map
    fun g => .orderViolation g.1 (g.2.map RemoteEffect.seq) (wanted expected g.1)

omit [BEq Value] in
/-- The comparison of the two counters. -/
def dbIdErrors (byId : List (Expected Value)) (rows : List (DbEffect Value)) : List Failure :=
  let internal : Multiset String := rows.map DbEffect.eventId
  if internal ≠ (byId.map Expected.eventId : Multiset String) then [.dbIds] else []

/-- The body of the loop over `db_effects`. -/
def dbErrors (byId : List (Expected Value)) (row : DbEffect Value) : List Failure :=
  match Table.get Expected.eventId row.eventId byId with
  | none => []
  | some event => (row.differing event).map (.dbField row.eventId)

omit [BEq Value] in
/-- The body of the loop that fills `latest`. -/
def later (latest : List (Expected Value)) (e : Expected Value) : List (Expected Value) :=
  match Table.get Expected.order e.order latest with
  | none => Table.put Expected.order e latest
  | some l => if l.sequence < e.sequence then Table.put Expected.order e latest else latest

omit [BEq Value] in
/-- `latest`. -/
def latest (expected : List (Expected Value)) : List (Expected Value) :=
  expected.foldl later []

/-- The body of the loop over the two order tables. -/
def tableErrors (latest : List (Expected Value)) (label : OrderTable)
    (orders : List (FinalOrder Value)) : List Failure :=
  let actual := Table.putAll FinalOrder.order orders []
  (if (actual.map FinalOrder.order).toFinset ≠ (latest.map Expected.order).toFinset then
      [.orderKeys label] else []) ++
    latest.flatMap fun event =>
      match Table.get FinalOrder.order event.order actual with
      | none => []
      | some row => (row.differing event).map (.orderField label event.order)

/-- The errors of `check`. -/
def checkErrors (loads : Value → Option Value) (expected : List (Expected Value))
    (remote : Remote Value) (dbEffects : List (DbEffect Value))
    (dbOrders : List (FinalOrder Value)) : List Failure :=
  let byId := expectedById expected
  (if byId.length ≠ expected.length then [.duplicateIds] else []) ++
    countErrors byId remote.effects ++
    remote.effects.flatMap (effectErrors loads byId) ++
    orderErrors expected remote.effects ++
    dbIdErrors byId dbEffects ++
    dbEffects.flatMap (dbErrors byId) ++
    tableErrors (latest expected) .external remote.orders ++
    tableErrors (latest expected) .businessDb dbOrders ++
    if remote.attempts.any fun x => x.status = some 409 then [.rejected] else []

/-- `check`. -/
def check (loads : Value → Option Value) (expected : List (Expected Value))
    (remote : Remote Value) (dbEffects : List (DbEffect Value))
    (dbOrders : List (FinalOrder Value)) : Verdict :=
  let errors := checkErrors loads expected remote dbEffects dbOrders
  { passed := errors.isEmpty
    expected := expected.length
    externalEffects := remote.effects.length
    dbEffects := dbEffects.length
    requests := remote.attempts.length
    responseLost := (remote.attempts.map fun x => x.responseLost.getD 0).sum
    errors := errors }

end Checks

/-! ### Correct outcomes -/

section Outcomes

variable [BEq Value]

/-- The row of the ledger shows the event. -/
structure RemoteEffect.Shows (loads : Value → Option Value) (row : RemoteEffect Value)
    (event : Expected Value) : Prop where
  order : row.order = event.order
  seq : row.seq = event.sequence
  operation : row.operation == event.operation
  quantity : row.quantity == event.quantity
  price : row.price == event.price
  payload : ∃ object, row.payload.bind loads = some object ∧ object == event.object

/-- The row of the database shows the event. -/
structure DbEffect.Shows (row : DbEffect Value) (event : Expected Value) : Prop where
  order : (⟨row.sellerId, row.orderId⟩ : OrderKey) = event.order
  run : row.runId == event.runId
  seq : row.seq = event.sequence
  operation : row.operation == event.operation
  quantity : row.quantity == event.quantity
  price : row.price == event.price

/-- The row of an order table shows the operation. -/
structure FinalOrder.Shows (row : FinalOrder Value) (event : Expected Value) : Prop where
  seq : row.seq = event.sequence
  operation : row.operation == event.operation
  quantity : row.quantity == event.quantity
  price : row.price == event.price

omit [BEq Value] in
/-- An order table as a map. -/
def asMap (orders : List (FinalOrder Value)) (key : OrderKey) : Option (FinalOrder Value) :=
  (orders.filter fun r => r.order = key).getLast?

omit [BEq Value] in
/-- The expected operation of an order with the highest sequence, the first such in the list. -/
noncomputable def highest (expected : List (Expected Value)) (key : OrderKey) :
    Option (Expected Value) :=
  (expected.filter fun e => e.order = key).argmax Expected.sequence

/-- A correct outcome. -/
structure Correct (loads : Value → Option Value) (expected : List (Expected Value))
    (remote : Remote Value) (dbEffects : List (DbEffect Value))
    (dbOrders : List (FinalOrder Value)) : Prop where
  ids : (expected.map Expected.eventId).Nodup
  effects : ∃ events, events.Perm expected ∧
    List.Forall₂ (fun row e => row.eventId = e.eventId ∧ row.Shows loads e) remote.effects events
  ordered : ∀ key, ((remote.effects.filter fun row => row.order = key).map
    RemoteEffect.seq).Pairwise (· ≤ ·)
  dbEffects : ∃ events, events.Perm expected ∧
    List.Forall₂ (fun row e => row.eventId = e.eventId ∧ row.Shows e) dbEffects events
  orders : ∀ key, Option.Rel FinalOrder.Shows (asMap remote.orders key) (highest expected key)
  dbOrders : ∀ key, Option.Rel FinalOrder.Shows (asMap dbOrders key) (highest expected key)
  attempts : ∀ x ∈ remote.attempts, x.status ≠ some 409

end Outcomes

/-! ### What each check finds -/

lemma differing_eq_nil {columns : List (String × Bool)} :
    differing columns = [] ↔ ∀ c ∈ columns, c.2 = true := by
  simp [differing, List.filter_eq_nil_iff]

section Findings

variable [BEq Value] {loads : Value → Option Value} {expected : List (Expected Value)}
  {remote : Remote Value} {dbEffects : List (DbEffect Value)} {dbOrders : List (FinalOrder Value)}

lemma FinalOrder.differing_eq_nil {row : FinalOrder Value} {event : Expected Value} :
    row.differing event = [] ↔ row.Shows event := by
  rw [FinalOrder.differing, Experiments.differing_eq_nil]
  simp only [List.forall_mem_cons, decide_eq_true_eq]
  constructor
  · rintro ⟨hseq, hoperation, hquantity, hprice, -⟩
    exact ⟨hseq, hoperation, hquantity, hprice⟩
  · exact fun h => ⟨h.seq, h.operation, h.quantity, h.price, by simp⟩

lemma DbEffect.differing_eq_nil {row : DbEffect Value} {event : Expected Value} :
    row.differing event = [] ↔ row.Shows event := by
  rw [DbEffect.differing, Experiments.differing_eq_nil]
  simp only [List.forall_mem_cons, decide_eq_true_eq]
  constructor
  · rintro ⟨hseller, horder, hrun, hseq, hoperation, hquantity, hprice, -⟩
    exact ⟨congrArg₂ OrderKey.mk hseller horder, hrun, hseq, hoperation, hquantity, hprice⟩
  · intro h
    obtain ⟨hseller, horder⟩ := OrderKey.mk.inj h.order
    exact ⟨hseller, horder, h.run, h.seq, h.operation, h.quantity, h.price, by simp⟩

/-- The row passes both comparisons exactly when it shows the event. -/
lemma RemoteEffect.shows_iff {row : RemoteEffect Value} {event : Expected Value} :
    row.Shows loads event ↔ row.differing event = [] ∧ requestErrors loads row event = [] := by
  have hrequest : requestErrors loads row event = [] ↔
      ∃ object, row.payload.bind loads = some object ∧ object == event.object := by
    rw [requestErrors]
    cases row.payload.bind loads with
    | none => simp
    | some object => by_cases heq : object == event.object <;> simp [heq, bne]
  rw [hrequest, RemoteEffect.differing, Experiments.differing_eq_nil]
  simp only [List.forall_mem_cons, decide_eq_true_eq]
  constructor
  · intro h
    obtain ⟨hseller, horder⟩ := OrderKey.mk.inj h.order
    exact ⟨⟨hseller, horder, h.seq, h.operation, h.quantity, h.price, by simp⟩, h.payload⟩
  · rintro ⟨⟨hseller, horder, hseq, hoperation, hquantity, hprice, -⟩, hpayload⟩
    exact ⟨congrArg₂ OrderKey.mk hseller horder, hseq, hoperation, hquantity, hprice, hpayload⟩

omit [BEq Value] in
lemma length_expectedById :
    (expectedById expected).length = expected.length ↔
      (expected.map Expected.eventId).Nodup :=
  Table.length_putAll_eq_iff

omit [BEq Value] in
/-- With distinct ids the dictionary is the list. -/
lemma expectedById_eq (h : (expected.map Expected.eventId).Nodup) :
    expectedById expected = expected :=
  Table.putAll_eq_append h

omit [BEq Value] in
/-- Every id of the input is counted once, and no other id is counted. -/
lemma countErrors_eq_nil {effects : List (RemoteEffect Value)}
    (h : (expected.map Expected.eventId).Nodup) :
    countErrors expected effects = [] ↔
      (effects.map RemoteEffect.eventId).Perm (expected.map Expected.eventId) := by
  set ids := effects.map RemoteEffect.eventId with hids
  have hcount : countErrors expected effects = [] ↔
      (∀ e ∈ expected, ids.count e.eventId = 1) ∧
        ∀ id ∈ ids, ∃ e ∈ expected, e.eventId = id := by
    simp only [countErrors, List.append_eq_nil_iff, List.map_eq_nil_iff, List.filter_eq_nil_iff,
      List.mem_dedup, Option.isNone_iff_eq_none, Table.get_eq_none, ← hids]
    refine and_congr ?_ ?_ <;> simp
  rw [hcount, List.perm_iff_count]
  constructor
  · rintro ⟨hone, hknown⟩ id
    by_cases hid : id ∈ expected.map Expected.eventId
    · obtain ⟨e, he, rfl⟩ := List.mem_map.mp hid
      rw [hone e he, List.count_eq_one_of_mem h hid]
    · rw [List.count_eq_zero_of_not_mem hid, List.count_eq_zero_of_not_mem]
      intro hmem
      obtain ⟨e, he, heq⟩ := hknown id hmem
      exact hid (heq ▸ List.mem_map_of_mem he)
  · intro hperm
    refine ⟨fun e he => ?_, fun id hid => ?_⟩
    · rw [hperm, List.count_eq_one_of_mem h (List.mem_map_of_mem he)]
    · have hpos : 0 < (expected.map Expected.eventId).count id := by
        rw [← hperm]
        exact List.count_pos_iff.mpr hid
      obtain ⟨e, he, heq⟩ := List.mem_map.mp (List.count_pos_iff.mp hpos)
      exact ⟨e, he, heq⟩

lemma effectErrors_eq_nil {effects : List (RemoteEffect Value)} :
    effects.flatMap (effectErrors loads expected) = [] ↔
      ∀ row ∈ effects, ∀ e, Table.get Expected.eventId row.eventId expected = some e →
        row.Shows loads e := by
  rw [List.flatMap_eq_nil_iff]
  refine forall₂_congr fun row _ => ?_
  rw [effectErrors]
  cases Table.get Expected.eventId row.eventId expected with
  | none => simp
  | some event => simp [RemoteEffect.shows_iff]

lemma dbErrors_eq_nil :
    dbEffects.flatMap (dbErrors expected) = [] ↔
      ∀ row ∈ dbEffects, ∀ e, Table.get Expected.eventId row.eventId expected = some e →
        row.Shows e := by
  rw [List.flatMap_eq_nil_iff]
  refine forall₂_congr fun row _ => ?_
  rw [dbErrors]
  cases Table.get Expected.eventId row.eventId expected with
  | none => simp
  | some event => simp [DbEffect.differing_eq_nil]

omit [BEq Value] in
lemma dbIdErrors_eq_nil :
    dbIdErrors expected dbEffects = [] ↔
      (dbEffects.map DbEffect.eventId).Perm (expected.map Expected.eventId) := by
  simp [dbIdErrors]

/-! ### The order of the effects -/

omit [BEq Value] in
/-- The group of an order, and the operations the input has for it. -/
lemma group_perm {effects : List (RemoteEffect Value)} {events : List (Expected Value)}
    (hperm : events.Perm expected)
    (hall : List.Forall₂ (fun row e => row.order = e.order ∧ row.seq = e.sequence)
      effects events) (key : OrderKey) :
    ((effects.filter fun row => row.order = key).map RemoteEffect.seq).Perm
      (wanted expected key) := by
  have hsame : (effects.filter fun row => row.order = key).map RemoteEffect.seq =
      (events.filter fun e => e.order = key).map Expected.sequence := by
    clear hperm
    induction hall with
    | nil => rfl
    | @cons row e effects events hrow _ ih =>
        by_cases hkey : e.order = key
        · have hrowkey : row.order = key := hrow.1.trans hkey
          rw [List.filter_cons_of_pos (by simpa using hrowkey),
            List.filter_cons_of_pos (by simpa using hkey), List.map_cons, List.map_cons, ih, hrow.2]
        · have hrowkey : row.order ≠ key := fun heq => hkey (hrow.1.symm.trans heq)
          rw [List.filter_cons_of_neg (by simpa using hrowkey),
            List.filter_cons_of_neg (by simpa using hkey), ih]
  rw [hsame]
  exact ((hperm.filter _).map _).trans (List.perm_insertionSort _ _).symm

omit [BEq Value] in
/-- When the effects are those of the input, a group is the sorted list exactly when it is in
order. -/
lemma orderErrors_eq_nil {effects : List (RemoteEffect Value)} {events : List (Expected Value)}
    (hperm : events.Perm expected)
    (hall : List.Forall₂ (fun row e => row.order = e.order ∧ row.seq = e.sequence)
      effects events) :
    orderErrors expected effects = [] ↔
      ∀ key, ((effects.filter fun row => row.order = key).map
        RemoteEffect.seq).Pairwise (· ≤ ·) := by
  set grouped := effects.foldl (fun q row => KeyedQueues.add RemoteEffect.order row q) []
    with hgrouped
  have hwf : KeyedQueues.Wf RemoteEffect.order grouped := KeyedQueues.wf_foldl_add effects
  have hgroup : ∀ g ∈ grouped, g.2 = effects.filter fun row => row.order = g.1 := by
    intro g hg
    rw [← KeyedQueues.queue_foldl_add, ← hgrouped]
    exact (KeyedQueues.queue_of_mem hwf.keys hg).symm
  have hnil : orderErrors expected effects = [] ↔
      ∀ g ∈ grouped, g.2.map RemoteEffect.seq = wanted expected g.1 := by
    simp only [orderErrors, ← hgrouped, List.map_eq_nil_iff, List.filter_eq_nil_iff,
      decide_eq_true_eq, not_not]
  have hsorted : ∀ key, (wanted expected key).Pairwise (· ≤ ·) :=
    fun key => List.pairwise_insertionSort _ _
  rw [hnil]
  constructor
  · intro h key
    by_cases hkey : KeyedQueues.queue key grouped = []
    · rw [hgrouped, KeyedQueues.queue_foldl_add] at hkey
      rw [hkey]
      exact List.Pairwise.nil
    · have heq := h _ (KeyedQueues.mem_of_queue hkey)
      rw [hgrouped, KeyedQueues.queue_foldl_add] at heq
      rw [heq]
      exact hsorted key
  · intro h g hg
    rw [hgroup g hg]
    exact (group_perm hperm hall g.1).eq_of_pairwise' (h g.1) (hsorted g.1)

/-! ### The order tables -/

omit [BEq Value] in
lemma latest_concat (e : Expected Value) :
    latest (expected ++ [e]) = later (latest expected) e := by
  rw [latest, List.foldl_append]
  rfl

omit [BEq Value] in
lemma unique_latest : Table.Unique Expected.order (latest expected) := by
  induction expected using List.reverseRecOn with
  | nil => exact Table.unique_nil
  | append_singleton expected e ih =>
      rw [latest_concat, later]
      cases Table.get Expected.order e.order (latest expected) with
      | none => exact ih.put e
      | some l =>
          by_cases hlt : l.sequence < e.sequence
          · simp only [hlt, if_true]
            exact ih.put e
          · simp only [hlt, if_false]
            exact ih

omit [BEq Value] in
/-- The loop keeps, for each order, the first operation with the highest sequence. -/
lemma get_latest (key : OrderKey) :
    Table.get Expected.order key (latest expected) = highest expected key := by
  induction expected using List.reverseRecOn with
  | nil => rfl
  | append_singleton expected e ih =>
      by_cases hkey : e.order = key
      · have hsame : highest (expected ++ [e]) key =
            Option.casesOn (highest expected key) (some e)
              fun l => if l.sequence < e.sequence then some e else some l := by
          simp [highest, List.filter_append, List.argmax_concat, hkey]
        rw [latest_concat, later, hkey, ih, hsame]
        cases hhigh : highest expected key with
        | none => rw [← hkey, Table.get_put_self unique_latest]
        | some l =>
            by_cases hlt : l.sequence < e.sequence
            · simp only [hlt, if_true]
              rw [← hkey, Table.get_put_self unique_latest]
            · simp only [hlt, if_false]
              rw [ih, hhigh]
      · have hother : highest (expected ++ [e]) key = highest expected key := by
          simp [highest, List.filter_append, hkey]
        rw [latest_concat, later, hother, ← ih]
        cases Table.get Expected.order e.order (latest expected) with
        | none => exact Table.get_put_ne unique_latest hkey
        | some l =>
            by_cases hlt : l.sequence < e.sequence
            · simp only [hlt, if_true]
              exact Table.get_put_ne unique_latest hkey
            · simp only [hlt, if_false]

lemma isSome_of_rel {α β : Type} {r : α → β → Prop} {x : Option α} {y : Option β}
    (h : Option.Rel r x y) : x.isSome ↔ y.isSome := by
  cases h <;> simp

/-- An order table passes exactly when, as a map, it shows the last operation of each order. -/
lemma tableErrors_eq_nil {label : OrderTable} {orders : List (FinalOrder Value)} :
    tableErrors (latest expected) label orders = [] ↔
      ∀ key, Option.Rel FinalOrder.Shows (asMap orders key) (highest expected key) := by
  set actual := Table.putAll FinalOrder.order orders [] with hactual
  have hget : ∀ key, Table.get FinalOrder.order key actual = asMap orders key :=
    fun key => Table.get_putAll_nil orders key
  have hkeys : (actual.map FinalOrder.order).toFinset = ((latest expected).map
      Expected.order).toFinset ↔
        ∀ key, (asMap orders key).isSome ↔ (highest expected key).isSome := by
    rw [Finset.ext_iff]
    refine forall_congr' fun key => ?_
    rw [List.mem_toFinset, List.mem_toFinset, Table.mem_keys_iff, Table.mem_keys_iff, hget,
      get_latest]
  have hmem : ∀ {event}, event ∈ latest expected ↔
      highest expected event.order = some event := by
    intro event
    rw [← get_latest, Table.get_eq_some unique_latest]
    exact ⟨fun h => ⟨h, rfl⟩, fun h => h.1⟩
  have hrows : ((latest expected).flatMap fun event =>
      match Table.get FinalOrder.order event.order actual with
      | none => []
      | some row => (row.differing event).map (Failure.orderField label event.order)) = [] ↔
        ∀ event ∈ latest expected, ∀ row, asMap orders event.order = some row →
          row.Shows event := by
    rw [List.flatMap_eq_nil_iff]
    refine forall₂_congr fun event _ => ?_
    rw [hget]
    cases asMap orders event.order with
    | none => simp
    | some row => simp [FinalOrder.differing_eq_nil]
  have hnil : tableErrors (latest expected) label orders = [] ↔
      (∀ key, (asMap orders key).isSome ↔ (highest expected key).isSome) ∧
        ∀ event ∈ latest expected, ∀ row, asMap orders event.order = some row →
          row.Shows event := by
    rw [tableErrors, List.append_eq_nil_iff, ← hactual, hrows, ← hkeys]
    refine and_congr_left fun _ => ?_
    split_ifs with hne
    · simp [hne]
    · simpa using hne
  rw [hnil]
  constructor
  · rintro ⟨hsome, hshows⟩ key
    have hkey := hsome key
    cases hrow : asMap orders key with
    | none =>
        cases hevent : highest expected key with
        | none => exact .none
        | some event => simp [hrow, hevent] at hkey
    | some row =>
        cases hevent : highest expected key with
        | none => simp [hrow, hevent] at hkey
        | some event =>
            have horder : event.order = key := by
              rw [← get_latest] at hevent
              exact Table.key_of_get hevent
            refine .some (hshows event (hmem.mpr (horder.symm ▸ hevent)) row ?_)
            rw [horder, hrow]
  · intro h
    refine ⟨fun key => ?_, fun event hevent row hrow => ?_⟩
    · exact isSome_of_rel (h key)
    · have hkey := h event.order
      rw [hmem.mp hevent, hrow] at hkey
      cases hkey with
      | some hshows => exact hshows

/-! ### The verdict is right -/

/-- **The checker accepts exactly the correct outcomes.** -/
theorem check_passed_iff (loads : Value → Option Value) (expected : List (Expected Value))
    (remote : Remote Value) (dbEffects : List (DbEffect Value))
    (dbOrders : List (FinalOrder Value)) :
    (check loads expected remote dbEffects dbOrders).passed = true ↔
      Correct loads expected remote dbEffects dbOrders := by
  have hlength : ((if (expectedById expected).length ≠ expected.length then
      [Failure.duplicateIds] else []) = []) ↔ (expected.map Expected.eventId).Nodup := by
    rw [← length_expectedById]
    simp
  have hattempts : ((if remote.attempts.any fun x => x.status = some 409 then
      [Failure.rejected] else []) = []) ↔ ∀ x ∈ remote.attempts, x.status ≠ some 409 := by
    simp
  have hpassed : (check loads expected remote dbEffects dbOrders).passed = true ↔
      checkErrors loads expected remote dbEffects dbOrders = [] := List.isEmpty_iff
  rw [hpassed, checkErrors]
  simp only [List.append_eq_nil_iff, hlength, hattempts, tableErrors_eq_nil]
  constructor
  · rintro ⟨⟨⟨⟨⟨⟨⟨⟨hids, hcount⟩, heffect⟩, horder⟩, hdbIds⟩, hdb⟩, hremote⟩, hbusiness⟩, hstatus⟩
    rw [expectedById_eq hids] at hcount heffect hdbIds hdb
    obtain ⟨events, hperm, hall⟩ := (Table.named_iff hids).mp
      ⟨(countErrors_eq_nil hids).mp hcount, effectErrors_eq_nil.mp heffect⟩
    have hgroups := hall.imp fun _ _ h => (⟨h.2.order, h.2.seq⟩ : _ ∧ _)
    exact ⟨hids, ⟨events, hperm, hall⟩, (orderErrors_eq_nil hperm hgroups).mp horder,
      (Table.named_iff hids).mp ⟨dbIdErrors_eq_nil.mp hdbIds, dbErrors_eq_nil.mp hdb⟩, hremote,
      hbusiness, hstatus⟩
  · intro h
    obtain ⟨events, hperm, hall⟩ := h.effects
    have hgroups := hall.imp fun _ _ h => (⟨h.2.order, h.2.seq⟩ : _ ∧ _)
    obtain ⟨hcount, heffect⟩ := (Table.named_iff h.ids).mpr h.effects
    obtain ⟨hdbIds, hdb⟩ := (Table.named_iff h.ids).mpr h.dbEffects
    rw [expectedById_eq h.ids]
    exact ⟨⟨⟨⟨⟨⟨⟨⟨h.ids, (countErrors_eq_nil h.ids).mpr hcount⟩, effectErrors_eq_nil.mpr heffect⟩,
      (orderErrors_eq_nil hperm hgroups).mpr h.ordered⟩, dbIdErrors_eq_nil.mpr hdbIds⟩,
      dbErrors_eq_nil.mpr hdb⟩, h.orders⟩, h.dbOrders⟩, h.attempts⟩

/-- `test_correct_effect`, with numbers for the values. -/
example : (@check ℤ _ some [⟨"e1", 0, "s", 1, 1, 5, 2, 3, 9⟩]
    ⟨[⟨"e1", "s", 1, 1, 5, 2, 3, some 9⟩], [⟨"s", 1, 1, 5, 2, 3⟩], []⟩
    [⟨"e1", "s", 1, 0, 1, 5, 2, 3⟩] [⟨"s", 1, 1, 5, 2, 3⟩]).passed = true := by
  decide +kernel

end Findings

end OrderSystem.Experiments
