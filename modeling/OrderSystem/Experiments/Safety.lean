/-
The safety verdict of an isolation run (`experiments/isolation/check.py`).

* `safety`: the first block of `check`, over the plan, the snapshot of the seller's ledger and the
  trace lines of the partner instances, all in the order the files list them.
* `Safe`: what the verdict stands for. Every effect is the planned operation and the only one of
  its event, the effects of an order count from one, no request was refused, and no delivery was
  recorded under a claim after a newer one of its event.
* `safety_passed_iff`: the verdict is `passed` exactly then.

`Value` are the values of JSON, `==` is their comparison, and `loads text f` is
`json.loads(text).get(f)`.
-/
import OrderSystem.Common.Events
import OrderSystem.Foundations.Dict
import OrderSystem.Foundations.Numbering

namespace OrderSystem.Experiments

open Numbering

variable {Value Text : Type}

/-! ### The files -/

/-- The fields of an event the checker compares. -/
inductive Field where
  | sellerId
  | orderId
  | sequence
  | operation
  | quantity
  | price
  deriving DecidableEq, Repr

def comparedFields : List Field :=
  [.sellerId, .orderId, .sequence, .operation, .quantity, .price]

/-- An event of `trace.jsonl`. -/
structure PlannedEvent (Value : Type) where
  eventId : String
  field : Field → Value

/-- A row of the effects in `mock.json`. -/
structure SellerEffect (Text : Type) where
  effectIndex : ℤ
  eventId : String
  sellerId : String
  orderId : ℤ
  seq : ℤ
  payload : Text

def SellerEffect.order (e : SellerEffect Text) : OrderKey := ⟨e.sellerId, e.orderId⟩

/-- A row of the attempts in `mock.json`; an attempt without an answer has no status. -/
structure SellerAttempt where
  eventId : String
  status : Option ℤ
  deriving DecidableEq, Repr

/-- `mock.json`. -/
structure Mock (Text : Type) where
  effects : List (SellerEffect Text)
  attempts : List SellerAttempt

/-- The lines of the process logs the checker looks at. -/
inductive TraceLine where
  | claimed (eventId : String) (time : ℤ) (generation : ℕ)
  | businessCommit (eventId : String) (time : ℤ) (generation : Option ℕ)
  deriving DecidableEq, Repr

/-- A delivery recorded under an older claim, with the generation of a newer one. -/
structure StaleWrite where
  eventId : String
  generation : ℕ
  newer : ℕ
  deriving DecidableEq, Repr

/-- The result of the block. -/
structure SafetyVerdict where
  passed : Bool
  duplicateEffects : ℕ
  unknownEffects : ℕ
  payloadMismatches : ℕ
  orderBreaks : ℕ
  outOfOrderRequests : ℕ
  staleOwnerWrites : ℕ
  duplicateExamples : List String
  orderBreakExamples : List (OrderKey × List ℤ)
  staleWriteExamples : List StaleWrite
  deriving DecidableEq, Repr

/-! ### The verdict -/

/-- `effects_by_event`. -/
def effectsByEvent (effects : List (SellerEffect Text)) :
    List (String × List (SellerEffect Text)) :=
  effects.foldl (fun q e => KeyedQueues.add SellerEffect.eventId e q) []

/-- `planned`. -/
def plannedById (trace : List (PlannedEvent Value)) : List (PlannedEvent Value) :=
  Table.putAll PlannedEvent.eventId trace []

/-- `duplicates`. -/
def duplicates (effects : List (SellerEffect Text)) : List String :=
  ((effectsByEvent effects).filter fun g => 1 < g.2.length).map Prod.fst

/-- `unknown`. -/
def unknownEvents (trace : List (PlannedEvent Value)) (effects : List (SellerEffect Text)) :
    List String :=
  ((effectsByEvent effects).filter fun g =>
    (Table.get PlannedEvent.eventId g.1 (plannedById trace)).isNone).map Prod.fst

/-- A compared field of the payload is not the planned one. -/
def differs [BEq Value] (loads : Text → Field → Value) (payload : Text)
    (want : PlannedEvent Value) : Bool :=
  comparedFields.any fun f => loads payload f != want.field f

/-- `mismatched`: the first effect of each event against the plan. -/
def mismatched [BEq Value] (loads : Text → Field → Value) (trace : List (PlannedEvent Value))
    (effects : List (SellerEffect Text)) : List String :=
  ((effectsByEvent effects).filter fun g =>
    match Table.get PlannedEvent.eventId g.1 (plannedById trace), g.2.head? with
    | some want, some row => differs loads row.payload want
    | _, _ => false).map Prod.fst

/-- The effects in the order of their index. -/
def byIndex (effects : List (SellerEffect Text)) : List (SellerEffect Text) :=
  effects.insertionSort fun e e' => e.effectIndex ≤ e'.effectIndex

/-- `order_breaks`. -/
def orderBreaks (effects : List (SellerEffect Text)) : List (OrderKey × List ℤ) :=
  let byOrder := (byIndex effects).foldl (fun q e => KeyedQueues.add SellerEffect.order e q) []
  (byOrder.map fun g => (g.1, g.2.map SellerEffect.seq)).filter fun g => g.2 ≠ upTo g.2.length

/-- `rejected_out_of_order`. -/
def rejectedOutOfOrder (attempts : List SellerAttempt) : List String :=
  (attempts.filter fun a => a.status = some 409).map SellerAttempt.eventId

/-- `claims[eventId]`: the times and the generations. -/
def claimsOf (traces : List TraceLine) (id : String) : List (ℤ × ℕ) :=
  traces.filterMap fun
    | .claimed eventId time generation => if eventId = id then some (time, generation) else none
    | _ => none

/-- The body of the loop over the recorded deliveries. -/
def staleWrite (traces : List TraceLine) : TraceLine → Option StaleWrite
  | .businessCommit eventId time (some generation) =>
      ((claimsOf traces eventId).find? fun c => generation < c.2 ∧ c.1 < time).map
        fun c => ⟨eventId, generation, c.2⟩
  | _ => none

/-- `stale_writes`. -/
def staleWrites (traces : List TraceLine) : List StaleWrite :=
  traces.filterMap (staleWrite traces)

/-- The block `safety` of `check`. -/
def safety [BEq Value] (loads : Text → Field → Value) (trace : List (PlannedEvent Value))
    (mock : Mock Text) (traces : List TraceLine) : SafetyVerdict :=
  let duplicated := duplicates mock.effects
  let unknown := unknownEvents trace mock.effects
  let different := mismatched loads trace mock.effects
  let broken := orderBreaks mock.effects
  let rejected := rejectedOutOfOrder mock.attempts
  let stale := staleWrites traces
  { passed := duplicated.isEmpty && unknown.isEmpty && different.isEmpty && broken.isEmpty &&
      rejected.isEmpty && stale.isEmpty
    duplicateEffects := duplicated.length
    unknownEffects := unknown.length
    payloadMismatches := different.length
    orderBreaks := broken.length
    outOfOrderRequests := rejected.length
    staleOwnerWrites := stale.length
    duplicateExamples := duplicated.take 5
    orderBreakExamples := broken.take 5
    staleWriteExamples := stale.take 5 }

/-! ### Safe runs -/

/-- The planned event of an id; the last one, where the plan repeats an id. -/
def plannedFor (trace : List (PlannedEvent Value)) (id : String) : Option (PlannedEvent Value) :=
  (trace.filter fun e => e.eventId = id).getLast?

/-- A safe run. -/
structure Safe [BEq Value] (loads : Text → Field → Value) (trace : List (PlannedEvent Value))
    (mock : Mock Text) (traces : List TraceLine) : Prop where
  once : (mock.effects.map SellerEffect.eventId).Nodup
  planned : ∀ x ∈ mock.effects, ∃ e, plannedFor trace x.eventId = some e ∧
    ∀ f, (loads x.payload f == e.field f) = true
  inOrder : ∀ o, Numbered (((byIndex mock.effects).filter fun x => x.order = o).map
    SellerEffect.seq)
  accepted : ∀ a ∈ mock.attempts, a.status ≠ some 409
  fenced : ∀ id time g time' g', TraceLine.businessCommit id time (some g) ∈ traces →
    TraceLine.claimed id time' g' ∈ traces → g < g' → time ≤ time'

/-! ### What each check finds -/

variable {trace : List (PlannedEvent Value)} {effects : List (SellerEffect Text)}
  {traces : List TraceLine}

/-- A filtered list of keys is empty when no group passes the filter. -/
lemma filter_map_eq_nil {α β : Type} {l : List α} {P : α → Bool} {f : α → β} :
    (l.filter P).map f = [] ↔ ∀ x ∈ l, P x = false := by
  simp [List.filter_eq_nil_iff]

lemma duplicates_eq_nil :
    duplicates effects = [] ↔ (effects.map SellerEffect.eventId).Nodup := by
  have hgroups : duplicates effects = [] ↔
      ∀ x ∈ effects, (effects.filter fun y => y.eventId = x.eventId).length ≤ 1 := by
    rw [duplicates, filter_map_eq_nil, effectsByEvent]
    simp only [decide_eq_false_iff_not, not_lt]
    exact KeyedQueues.forall_groups_iff (P := fun _ group => group.length ≤ 1)
  have hcount : ∀ id, (effects.map SellerEffect.eventId).count id =
      (effects.filter fun y => y.eventId = id).length := by
    intro id
    rw [List.count, List.countP_map, List.countP_eq_length_filter]
    exact congrArg List.length (List.filter_congr fun y _ => beq_eq_decide _ _)
  rw [hgroups, List.nodup_iff_count_le_one]
  constructor
  · intro h id
    by_cases hid : id ∈ effects.map SellerEffect.eventId
    · obtain ⟨x, hx, rfl⟩ := List.mem_map.mp hid
      rw [hcount]
      exact h x hx
    · rw [List.count_eq_zero.mpr hid]
      exact Nat.zero_le 1
  · intro h x _
    rw [← hcount]
    exact h x.eventId

lemma get_plannedById (id : String) :
    Table.get PlannedEvent.eventId id (plannedById trace) = plannedFor trace id :=
  Table.get_putAll_nil trace id

lemma unknownEvents_eq_nil :
    unknownEvents trace effects = [] ↔
      ∀ x ∈ effects, ∃ e, plannedFor trace x.eventId = some e := by
  rw [unknownEvents, filter_map_eq_nil, effectsByEvent]
  simp only [get_plannedById, Option.isNone_eq_false_iff, Option.isSome_iff_exists]
  exact KeyedQueues.forall_groups_iff (P := fun id _ => ∃ e, plannedFor trace id = some e)

lemma differs_eq_false [BEq Value] {loads : Text → Field → Value} {payload : Text}
    {want : PlannedEvent Value} :
    differs loads payload want = false ↔ ∀ f, (loads payload f == want.field f) = true := by
  have hall : ∀ f, f ∈ comparedFields := by
    intro f
    cases f <;> simp [comparedFields]
  simp only [differs, List.any_eq_false, bne, Bool.not_eq_true', Bool.not_eq_false]
  exact ⟨fun h f => by simpa using h f (hall f), fun h f _ => by simpa using h f⟩

lemma mismatched_eq_nil [BEq Value] {loads : Text → Field → Value}
    (h : (effects.map SellerEffect.eventId).Nodup) :
    mismatched loads trace effects = [] ↔
      ∀ x ∈ effects, ∀ e, plannedFor trace x.eventId = some e →
        ∀ f, (loads x.payload f == e.field f) = true := by
  let agree (id : String) (group : List (SellerEffect Text)) : Prop :=
    ∀ e, plannedFor trace id = some e → ∀ row ∈ group.head?, differs loads row.payload e = false
  have hgroups : mismatched loads trace effects = [] ↔
      ∀ g ∈ effectsByEvent effects, agree g.1 g.2 := by
    rw [mismatched, filter_map_eq_nil]
    refine forall₂_congr fun g _ => ?_
    rw [get_plannedById]
    cases hplan : plannedFor trace g.1 <;> cases hrow : g.2.head? <;> simp [agree, hplan, hrow]
  rw [hgroups, effectsByEvent, KeyedQueues.forall_groups_iff (P := agree)]
  refine forall₂_congr fun x hx => forall₂_congr fun e _ => ?_
  rw [Table.filter_of_unique h hx]
  simp [differs_eq_false]

lemma orderBreaks_eq_nil :
    orderBreaks effects = [] ↔
      ∀ o, Numbered (((byIndex effects).filter fun x => x.order = o).map SellerEffect.seq) := by
  have hgroups : orderBreaks effects = [] ↔ ∀ x ∈ byIndex effects,
      Numbered (((byIndex effects).filter fun y => y.order = x.order).map SellerEffect.seq) := by
    rw [orderBreaks, List.filter_eq_nil_iff]
    simp only [List.mem_map, forall_exists_index, and_imp, forall_apply_eq_imp_iff₂,
      decide_eq_true_eq, ne_eq, not_not]
    exact KeyedQueues.forall_groups_iff
      (P := fun _ group => Numbered (group.map SellerEffect.seq))
  rw [hgroups]
  constructor
  · intro h o
    by_cases ho : ∃ x ∈ byIndex effects, x.order = o
    · obtain ⟨x, hx, rfl⟩ := ho
      exact h x hx
    · have hnone : (byIndex effects).filter (fun x => x.order = o) = [] :=
        List.filter_eq_nil_iff.mpr fun x hx hxo => ho ⟨x, hx, by simpa using hxo⟩
      rw [hnone]
      exact Numbered.nil
  · exact fun h x _ => h x.order

lemma rejectedOutOfOrder_eq_nil {attempts : List SellerAttempt} :
    rejectedOutOfOrder attempts = [] ↔ ∀ a ∈ attempts, a.status ≠ some 409 := by
  rw [rejectedOutOfOrder, filter_map_eq_nil]
  simp

lemma mem_claimsOf {id : String} {c : ℤ × ℕ} :
    c ∈ claimsOf traces id ↔ TraceLine.claimed id c.1 c.2 ∈ traces := by
  rw [claimsOf, List.mem_filterMap]
  constructor
  · rintro ⟨line, hline, hc⟩
    cases line with
    | claimed eventId time generation =>
        simp only at hc
        split_ifs at hc with hid
        cases hc
        rwa [← hid]
    | businessCommit => cases hc
  · intro h
    exact ⟨_, h, by simp⟩

lemma staleWrites_eq_nil :
    staleWrites traces = [] ↔
      ∀ id time g time' g', TraceLine.businessCommit id time (some g) ∈ traces →
        TraceLine.claimed id time' g' ∈ traces → g < g' → time ≤ time' := by
  rw [staleWrites, List.filterMap_eq_nil_iff]
  constructor
  · intro h id time g time' g' hcommit hclaim hlt
    have hnone := h _ hcommit
    simp only [staleWrite, Option.map_eq_none_iff, List.find?_eq_none, decide_eq_true_eq] at hnone
    have := hnone (time', g') (mem_claimsOf.mpr hclaim)
    by_contra hle
    exact this ⟨hlt, not_le.mp hle⟩
  · intro h line hline
    cases line with
    | claimed => rfl
    | businessCommit id time generation =>
        cases generation with
        | none => rfl
        | some g =>
            simp only [staleWrite, Option.map_eq_none_iff, List.find?_eq_none, decide_eq_true_eq]
            rintro c hc ⟨hlt, htime⟩
            have := h id time g c.1 c.2 hline (mem_claimsOf.mp hc) hlt
            omega

/-! ### The verdict and the runs -/

/-- A run that passes is safe. -/
lemma safe_of_passed [BEq Value] {loads : Text → Field → Value} {mock : Mock Text}
    (h : (safety loads trace mock traces).passed = true) : Safe loads trace mock traces := by
  simp only [safety, Bool.and_eq_true, List.isEmpty_iff] at h
  obtain ⟨⟨⟨⟨⟨hdup, hunknown⟩, hdiff⟩, hbreaks⟩, hrejected⟩, hstale⟩ := h
  have honce := duplicates_eq_nil.mp hdup
  refine ⟨honce, fun x hx => ?_, orderBreaks_eq_nil.mp hbreaks,
    rejectedOutOfOrder_eq_nil.mp hrejected, staleWrites_eq_nil.mp hstale⟩
  obtain ⟨e, he⟩ := unknownEvents_eq_nil.mp hunknown x hx
  exact ⟨e, he, (mismatched_eq_nil honce).mp hdiff x hx e he⟩

/-- A safe run passes. -/
lemma Safe.passed [BEq Value] {loads : Text → Field → Value} {mock : Mock Text}
    (h : Safe loads trace mock traces) : (safety loads trace mock traces).passed = true := by
  have hmatched : ∀ x ∈ mock.effects, ∀ e, plannedFor trace x.eventId = some e →
      ∀ f, (loads x.payload f == e.field f) = true := by
    intro x hx e he
    obtain ⟨e', he', hfields⟩ := h.planned x hx
    rw [he'] at he
    cases he
    exact hfields
  have hunknown : unknownEvents trace mock.effects = [] := by
    refine unknownEvents_eq_nil.mpr fun x hx => ?_
    obtain ⟨e, he, -⟩ := h.planned x hx
    exact ⟨e, he⟩
  simp only [safety, Bool.and_eq_true, List.isEmpty_iff]
  exact ⟨⟨⟨⟨⟨duplicates_eq_nil.mpr h.once, hunknown⟩, (mismatched_eq_nil h.once).mpr hmatched⟩,
    orderBreaks_eq_nil.mpr h.inOrder⟩, rejectedOutOfOrder_eq_nil.mpr h.accepted⟩,
    staleWrites_eq_nil.mpr h.fenced⟩

/-- **The safety verdict is exact.** It is `passed` exactly on the safe runs, in whatever order
the files list their rows. -/
theorem safety_passed_iff [BEq Value] (loads : Text → Field → Value)
    (trace : List (PlannedEvent Value)) (mock : Mock Text) (traces : List TraceLine) :
    (safety loads trace mock traces).passed = true ↔ Safe loads trace mock traces :=
  ⟨safe_of_passed, Safe.passed⟩

end OrderSystem.Experiments
