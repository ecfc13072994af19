/-
The delivery ledger: `partner_effect` and `partner_order`.

* `Ledger`: per order the effects are numbered `1, …, I` in the order of their
  insertion, and the row of `partner_order`, if there is one, holds effect `I`.
* `Ledger.lastSequence_eq`, `Ledger.mem_iff`: the last sequence counts the
  effects of the order, and an effect exists exactly up to it.
* `Ledger.recordDelivery`: recording the next operation keeps the ledger.
-/
import OrderSystem.Foundations.Numbering
import OrderSystem.Partner.Database

namespace OrderSystem.Partner

open Numbering

variable {db db' : Db} {o : OrderKey} {e : PartnerOrderEvent} {time : ℤ}

/-- The effects of an order, oldest first. -/
def Db.effectsOf (db : Db) (o : OrderKey) : List EffectRow :=
  db.partnerEffect.filter fun r => r.order = o

/-- What an effect leaves in `partner_order`. -/
def EffectRow.orderRow (r : EffectRow) : OrderRow :=
  ⟨r.order, r.seq, r.operation, r.quantity, r.price⟩

/-- The ledger is consistent. -/
structure Ledger (db : Db) : Prop where
  ids : Table.Unique EffectRow.eventId db.partnerEffect
  orders : Table.Unique OrderRow.order db.partnerOrder
  current : ∀ o, Table.get OrderRow.order o db.partnerOrder =
    (db.effectsOf o).getLast?.map EffectRow.orderRow
  numbered : ∀ o, Numbered ((db.effectsOf o).map (·.seq))

lemma ledger_empty : Ledger {} :=
  ⟨List.nodup_nil, List.nodup_nil, fun _ => rfl, fun _ => rfl⟩

lemma effectsOf_recordDelivery :
    (db.recordDelivery e time).effectsOf o =
      db.effectsOf o ++ if e.order = o then [EffectRow.of e time] else [] := by
  simp only [Db.effectsOf, Db.recordDelivery, List.filter_append, EffectRow.of]
  congr 1
  by_cases h : e.order = o <;> simp [h]

lemma isDelivered_recordDelivery {id : String} :
    (db.recordDelivery e time).isDelivered id ↔ db.isDelivered id ∨ e.eventId = id := by
  simp only [Db.isDelivered, Db.recordDelivery, List.mem_append, List.mem_singleton]
  constructor
  · rintro ⟨r, hr | rfl, rfl⟩
    · exact Or.inl ⟨r, hr, rfl⟩
    · exact Or.inr rfl
  · rintro (⟨r, hr, rfl⟩ | rfl)
    · exact ⟨r, Or.inl hr, rfl⟩
    · exact ⟨_, Or.inr rfl, rfl⟩

lemma lastSequence_congr {db db' : Db} (h : db'.partnerOrder = db.partnerOrder) (o : OrderKey) :
    db'.lastSequence o = db.lastSequence o := by
  rw [Db.lastSequence, Db.lastSequence, h]

namespace Ledger

/-- The ledger reads only its two tables. -/
lemma congr (h : Ledger db) (he : db'.partnerEffect = db.partnerEffect)
    (ho : db'.partnerOrder = db.partnerOrder) : Ledger db' := by
  refine ⟨by rw [he]; exact h.ids, by rw [ho]; exact h.orders, fun o => ?_, fun o => ?_⟩
  · rw [ho, Db.effectsOf, he]
    exact h.current o
  · rw [Db.effectsOf, he]
    exact h.numbered o

/-- The last sequence of an order counts its effects. -/
lemma lastSequence_eq (h : Ledger db) (o : OrderKey) :
    db.lastSequence o = (db.effectsOf o).length := by
  rw [Db.lastSequence, h.current o]
  have hnum := h.numbered o
  cases hlast : (db.effectsOf o).getLast? with
  | none =>
      rw [List.getLast?_eq_none_iff.mp hlast]
      rfl
  | some r =>
      have hseq : ((db.effectsOf o).map (·.seq)).getLast? = some r.seq := by
        rw [List.getLast?_map, hlast]
        rfl
      simpa [EffectRow.orderRow] using hnum.getLast hseq

lemma lastSequence_nonneg (h : Ledger db) (o : OrderKey) : 0 ≤ db.lastSequence o := by
  rw [h.lastSequence_eq o]
  exact Int.natCast_nonneg _

/-- The effects of an order are those up to its last sequence. -/
lemma mem_iff (h : Ledger db) {o : OrderKey} {n : ℤ} :
    (∃ r ∈ db.partnerEffect, r.order = o ∧ r.seq = n) ↔ 1 ≤ n ∧ n ≤ db.lastSequence o := by
  have hmem : n ∈ (db.effectsOf o).map (·.seq) ↔ 1 ≤ n ∧ n ≤ db.lastSequence o := by
    rw [(h.numbered o).mem_iff, List.length_map, h.lastSequence_eq o]
  rw [← hmem]
  simp [Db.effectsOf, and_assoc]

/-- An operation whose keys are new and that is not beyond the next one is the
next one. -/
lemma eq_next (h : Ledger db) (hadm : db.admitsEffect e) (hpos : 1 ≤ e.sequence)
    (hle : e.sequence ≤ db.lastSequence e.order + 1) :
    e.sequence = db.lastSequence e.order + 1 := by
  by_contra hne
  obtain ⟨r, hr, hro, hrs⟩ := h.mem_iff.mpr ⟨hpos, show e.sequence ≤ db.lastSequence e.order by omega⟩
  exact (hadm r hr).2 (by rw [hro, hrs])

/-- An admissible operation that is next in its order leaves a ledger. -/
lemma recordDelivery (h : Ledger db) (hadm : db.admitsEffect e)
    (hseq : e.sequence = db.lastSequence e.order + 1) : Ledger (db.recordDelivery e time) where
  ids := by
    rw [Table.Unique, Db.recordDelivery, List.map_append]
    refine List.Nodup.append h.ids (by simp) ?_
    intro id hid hid'
    obtain ⟨r, hr, rfl⟩ := List.mem_map.mp hid
    exact (hadm r hr).1 (by simpa [EffectRow.of] using hid')
  orders := h.orders.put _
  current o := by
    rw [effectsOf_recordDelivery]
    by_cases ho : e.order = o
    · subst ho
      rw [if_pos rfl, List.getLast?_concat]
      exact Table.get_put_self h.orders (OrderRow.of e)
    · rw [if_neg ho, List.append_nil]
      exact (Table.get_put_ne h.orders ho).trans (h.current o)
  numbered o := by
    rw [effectsOf_recordDelivery]
    by_cases ho : e.order = o
    · subst ho
      have hlen : e.sequence = ((db.effectsOf e.order).map (·.seq)).length + 1 := by
        rw [hseq, h.lastSequence_eq, List.length_map]
      rw [if_pos rfl, List.map_append, List.map_singleton]
      simp only [EffectRow.of]
      rw [hlen]
      exact (h.numbered e.order).snoc
    · rw [if_neg ho, List.append_nil]
      exact h.numbered o

/-- The last sequences after a delivery. -/
lemma lastSequence_recordDelivery (h : Ledger db) (e : PartnerOrderEvent) (time : ℤ)
    (o : OrderKey) :
    (db.recordDelivery e time).lastSequence o =
      if e.order = o then e.sequence else db.lastSequence o := by
  simp only [Db.lastSequence, Db.recordDelivery]
  split_ifs with ho
  · subst ho
    rw [show e.order = (OrderRow.of e).order from rfl, Table.get_put_self h.orders]
    rfl
  · rw [Table.get_put_ne h.orders ho]

end Ledger

end OrderSystem.Partner
