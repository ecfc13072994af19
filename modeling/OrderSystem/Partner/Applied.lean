/-
What is recorded was applied at the seller.

* `Called`: what a delivery knows once its call was answered.
* `reachable_applied`: in every run, under whatever claims, modes and races, an event in
  `partner_effect` is one of the effects of the seller, and so is one that was answered 200.
-/
import OrderSystem.Partner.Effects
import OrderSystem.Partner.SellerLedger

namespace OrderSystem.Partner

open Interleaving

variable {t u : ℕ} {s s' : Store} {p p' : Proc} {a : Act}

/-- The operation was applied under the id. -/
def SellerApi.has (api : SellerApi) (id : String) : Prop :=
  ∃ e ∈ api.effects, e.eventId = id

/-- The answers and the records come after the effects. -/
structure BehindSeller (s : Store) : Prop where
  replies : ∀ call, (call, Status.ok200) ∈ s.replies → s.api.has call.event.eventId
  recorded : ∀ id, s.db.isDelivered id → s.api.has id

/-- What a delivery knows of its call. -/
def ProcessPc.called (s : Store) (job : ProcessJob) : ProcessPc → Prop
  | .isDelivered | .duplicateHolds | .lastSequence | .submit | .returned => True
  | .complete none | .release none _ | .commit none _ _ => True
  | .calling call => call.event = job.event
  | _ => s.api.has job.event.eventId

/-- The local part of the invariant. -/
def Called (s : Store) : Proc → Prop
  | .delivering job pc => pc.called s job
  | _ => True

/-! ### Steps -/

/-- The seller takes nothing back. -/
lemma Effect.has_mono (h : Effect t s p s') {id : String} (hid : s.api.has id) :
    s'.api.has id := by
  cases h with
  | @answer call rejected lost hcall =>
      obtain ⟨e, he, heid⟩ := hid
      refine ⟨e, ?_, heid⟩
      obtain hanswer | ⟨payload, -, -, hanswer⟩ | ⟨hanswer, -⟩ | ⟨-, -, hanswer⟩ :=
        s.api.answer_cases call.event rejected
      all_goals simp only [Store.answered, SellerApi.doPost, hanswer]
      · exact he
      · exact he
      · exact he
      · exact List.mem_append_left _ he
  | _ => exact hid

/-- An answer 200 comes from an operation that is applied, now or before. -/
lemma has_of_ok {api : SellerApi} {data : PartnerOrderEvent} {rejected : Bool}
    (h : (api.doPost data rejected).2 = .ok200) :
    (api.doPost data rejected).1.has data.eventId := by
  obtain hanswer | ⟨payload, hprior, rfl, hanswer⟩ | ⟨hanswer, -⟩ | ⟨-, -, hanswer⟩ :=
    api.answer_cases data rejected
  · simp [SellerApi.doPost, hanswer] at h
  · exact ⟨payload, by
      simpa only [SellerApi.doPost, hanswer] using List.mem_of_find?_eq_some hprior, rfl⟩
  · simp [SellerApi.doPost, hanswer] at h
  · exact ⟨data, by simp [SellerApi.doPost, hanswer, SellerApi.apply], rfl⟩

/-- A step that records an event is the commit of its delivery. -/
lemma Effect.records (h : Effect t s p s') {id : String} (hid : s'.db.isDelivered id) :
    s.db.isDelivered id ∨ ∃ job doneAt row permit,
      p = .delivering job (.commit (some doneAt) row permit) ∧ job.event.eventId = id := by
  cases h with
  | @record job doneAt row permit locks hp hclose hrec hfree hmine =>
      have hid : (commitDelivery job (some doneAt) row permit s.db).isDelivered id := hid
      rw [Db.isDelivered, commitDelivery_effects] at hid
      rcases isDelivered_recordDelivery.mp hid with hold | hnew
      · exact Or.inl hold
      · exact Or.inr ⟨job, doneAt, row, permit, hp, hnew⟩
  | ensure => exact Or.inl (by simpa [Store.committing, Db.isDelivered] using hid)
  | claim => exact Or.inl (by simpa [Store.committing, commitClaim, Db.isDelivered] using hid)
  | close => exact Or.inl (by simpa [Store.committing, Db.isDelivered] using hid)
  | giveBack => exact Or.inl (by simpa [Store.committing, Db.isDelivered] using hid)
  | _ => exact Or.inl hid

/-- The answers that are there after a step. -/
lemma Effect.replies_cases (h : Effect t s p s') {call : Call}
    (hok : (call, Status.ok200) ∈ s'.replies) :
    (call, Status.ok200) ∈ s.replies ∨ s'.api.has call.event.eventId := by
  cases h with
  | @answer call' rejected lost hcall =>
      cases lost with
      | true => exact Or.inl hok
      | false =>
          rcases List.mem_cons.mp hok with heq | hold
          · obtain ⟨rfl, hstatus⟩ := Prod.mk.inj heq
            exact Or.inr (has_of_ok hstatus.symm)
          · exact Or.inl hold
  | _ => exact Or.inl hok

/-- The answers and the records stay behind the effects. -/
lemma BehindSeller.step (hb : BehindSeller s) (hq : Called s p) (h : Effect t s p s') :
    BehindSeller s' where
  replies call hok := by
    rcases h.replies_cases hok with hold | hnew
    · exact h.has_mono (hb.replies call hold)
    · exact hnew
  recorded id hid := by
    rcases h.records hid with hold | ⟨job, doneAt, row, permit, rfl, rfl⟩
    · exact h.has_mono (hb.recorded id hold)
    · exact h.has_mono hq

/-- What a delivery knows of its call stays true. -/
lemma Called.mono {q : Proc} (h : Effect t s p s') (hq : Called s q) : Called s' q := by
  cases q with
  | delivering job pc =>
      cases pc with
      | calling call => exact hq
      | isDelivered | duplicateHolds | lastSequence | submit | returned => trivial
      | complete delivery =>
          cases delivery with
          | none => trivial
          | some doneAt => exact h.has_mono hq
      | release delivery row =>
          cases delivery with
          | none => trivial
          | some doneAt => exact h.has_mono hq
      | commit delivery row permit =>
          cases delivery with
          | none => trivial
          | some doneAt => exact h.has_mono hq
      | _ => exact h.has_mono hq
  | _ => trivial

/-- What a delivery knows of its call after its own statement. -/
lemma processNext_applied {job : ProcessJob} {jvm : ℤ} {pc : ProcessPc} (hb : BehindSeller s)
    (hq : pc.called s job) (h : processNext t s job jvm pc = some (s', p')) : Called s' p' := by
  cases pc with
  | isDelivered =>
      simp only [processNext] at h
      split_ifs at h
      · split at h <;> cases h <;> trivial
      · cases h
        trivial
  | duplicateHolds =>
      simp only [processNext] at h
      (repeat' split at h) <;> cases h <;> trivial
  | lastSequence =>
      simp only [processNext] at h
      split_ifs at h <;> cases h <;> trivial
  | submit =>
      cases h
      rfl
  | calling call =>
      simp only [processNext] at h
      have happlied : (call, Status.ok200) ∈ s.replies → s.api.has job.event.eventId := by
        intro hok
        rw [← show call.event = job.event from hq]
        exact hb.replies call hok
      split_ifs at h with hok hclaim <;> cases h
      · exact happlied hok
      · exact happlied hok
      · trivial
  | holds =>
      simp only [processNext] at h
      (repeat' split at h) <;> cases h <;> first | exact hq | trivial
  | checkDelivered =>
      simp only [processNext] at h
      split_ifs at h <;> cases h <;> first | exact hq | trivial
  | checkSequence =>
      simp only [processNext] at h
      split_ifs at h <;> cases h <;> first | exact hq | trivial
  | insertEffect =>
      simp only [processNext] at h
      split_ifs at h <;> cases h <;> first | exact hq | trivial
  | upsertOrder doneAt =>
      simp only [processNext] at h
      split_ifs at h
      cases h
      exact hq
  | insertCompletion doneAt =>
      cases h
      exact hq
  | complete delivery =>
      simp only [processNext] at h
      (repeat' split at h) <;> cases h <;> cases delivery <;> exact hq
  | release delivery row =>
      simp only [processNext] at h
      (repeat' split at h) <;> cases h <;> cases delivery <;> exact hq
  | commit delivery row permit =>
      simp only [processNext] at h
      split at h <;> cases h <;> trivial
  | returned =>
      simp only [processNext] at h
      split at h <;> cases h <;> trivial

lemma next_applied (hb : BehindSeller s) (hq : Called s p) (h : next t s p a = some (s', p')) :
    Called s' p' := by
  cases next_move h with
  | start job => cases job <;> trivial
  | poll pendingLimit retainedLimit hbatch hvalid => trivial
  | store h => obtain ⟨_, rfl⟩ | rfl | ⟨_, rfl⟩ := storeNext_proc h <;> trivial
  | claim h => obtain ⟨_, rfl⟩ | rfl := claimNext_proc h <;> trivial
  | renew h => obtain rfl | rfl := renewNext_proc h <;> trivial
  | deliver h => exact processNext_applied hb hq h
  | giveBack h => obtain ⟨_, rfl⟩ | rfl := giveBackNext_proc h <;> trivial
  | relay h => obtain ⟨_, rfl⟩ | rfl := (relayNext_eq h).2 <;> trivial
  | _ => trivial

/-! ### Every run -/

/-- **What is recorded was applied.** -/
theorem reachable_applied {ok : Config Store Proc → ℕ → Act → Prop} {c : Config Store Proc}
    (h : Run service ok initial c) : BehindSeller c.store := by
  refine (Run.invariant (I := BehindSeller) (J := fun _ s p => Called s p)
    (K := fun c => Run service ok initial c) (fun _ h => h) ?_ ?_ ?_ h).1
  · refine ⟨⟨by simp [initial], fun id hid => ?_⟩, fun _ => trivial⟩
    obtain ⟨x, hx, -⟩ := hid
    cases hx
  · intro c t a s' p' hrun _ hb hq hnext
    exact ⟨hb.step (hq t) (reachable_effect hrun hnext), next_applied hb (hq t) hnext⟩
  · intro c t a s' p' u hrun _ _ hq hnext _
    exact Called.mono (reachable_effect hrun hnext) (hq u)

end OrderSystem.Partner
