/-
The isolation rules of `AdmissionPolicy`, over every sequence of its calls.

* `AdmissionAct`, `perform`, `History`: the calls in any order, with a clock that does not
  go back; a `release` answers an admission that is not released yet. `Tally` keeps beside
  the policy which tasks are admitted, when retries were admitted, and which ids were added
  to `finished`.
* `Books`: the counters and sets of the policy agree with the admitted tasks.
* `tryAdmit_refused`: a refused call takes no place and spends no retry.
* `admission_isolates`: the counters agree, the limits hold, and `finished` keeps the
  newest ids.
-/
import OrderSystem.Partner.Admission

namespace OrderSystem.Partner

open Window

/-! ### Histories -/

/-- The arguments of the constructor of `AdmissionPolicy`. -/
structure Limits where
  workers : ℕ
  sellerConcurrency : ℕ
  retryBudget : ℕ
  retryWindowMs : ℤ
  finishedLimit : ℕ
  deriving DecidableEq, Repr

/-- A new policy. -/
def Limits.policy (cfg : Limits) : AdmissionPolicy where
  workers := cfg.workers
  sellerConcurrency := cfg.sellerConcurrency
  finishedLimit := cfg.finishedLimit
  retryBudget := { limit := cfg.retryBudget, windowMs := cfg.retryWindowMs }

/-- A call of the policy. -/
inductive AdmissionAct where
  | tryAdmit (task : DeliveryTask) (now : ℤ)
  | tryAdmitLocal (task : DeliveryTask) (now : ℤ)
  | markFinished (eventId : String)
  | release (task : DeliveryTask)
  deriving DecidableEq, Repr

/-- The policy with what its callers know: the tasks admitted and not released, the times of
the retries `tryAdmit` admitted, the ids that entered `finished`, and the clock. -/
structure Tally where
  policy : AdmissionPolicy
  admitted : List PartnerOrderEvent := []
  retries : String → List ℤ := fun _ => []
  inserted : List String := []
  clock : ℤ

/-- The tally after an answer of the policy. -/
def Tally.answered (s : Tally) (task : DeliveryTask) (answer : Admission × AdmissionPolicy)
    (now : ℤ) : Tally :=
  { s with policy := answer.2, clock := now
           admitted := if answer.1.admitted then task.event :: s.admitted else s.admitted }

/-- A retry that was admitted. -/
def Tally.retried (s : Tally) (seller : String) (now : ℤ) : Tally :=
  { s with retries := Function.update s.retries seller (s.retries seller ++ [now]) }

/-- One call. -/
def perform (s : Tally) : AdmissionAct → Option Tally
  | .tryAdmit task now =>
      let answer := s.policy.tryAdmit task true now
      if s.clock ≤ now then
        let s' := s.answered task answer now
        some (if answer.1.admitted ∧ 0 < task.attempts then s'.retried task.event.sellerId now
          else s')
      else none
  | .tryAdmitLocal task now =>
      if s.clock ≤ now then some (s.answered task (s.policy.tryAdmitLocal task now) now) else none
  | .markFinished eventId =>
      some { s with policy := s.policy.markFinished eventId
                    inserted := if eventId ∈ s.policy.finished then s.inserted
                      else s.inserted ++ [eventId] }
  | .release task =>
      if task.event ∈ s.admitted then
        some { s with policy := s.policy.release task, admitted := s.admitted.erase task.event }
      else none

/-- A sequence of calls on a new policy, from the time `start` on. -/
inductive History (cfg : Limits) (start : ℤ) : List AdmissionAct → Tally → Prop
  | nil : History cfg start [] { policy := cfg.policy, clock := start }
  | snoc {acts : List AdmissionAct} {s s' : Tally} {a : AdmissionAct}
      (h : History cfg start acts s) (hstep : perform s a = some s') :
      History cfg start (acts ++ [a]) s'

variable {cfg : Limits} {start now : ℤ} {acts : List AdmissionAct} {s s' : Tally}
  {a : AdmissionAct} {task : DeliveryTask} {p : AdmissionPolicy} {limits : Bool}

/-! ### The answers of the policy -/

/-- What an admission requires; the limits of the seller are for `tryAdmit` only. -/
structure Grants (p : AdmissionPolicy) (task : DeliveryTask) (limits : Bool) : Prop where
  worker : p.active < p.workers
  order : task.event.key ∉ p.activeKeys
  seller : limits = true → p.activeSellers task.event.sellerId < p.sellerConcurrency

/-- The policy after its retry budget was asked. -/
def AdmissionPolicy.asked (p : AdmissionPolicy) (seller : String) (now : ℤ) : AdmissionPolicy :=
  { p with retryBudget := (p.retryBudget.tryAcquire seller now).2 }

/-- The exits of `tryAdmit`. -/
inductive Answer (p : AdmissionPolicy) (task : DeliveryTask) (limits : Bool) (now : ℤ) :
    Admission × AdmissionPolicy → Prop
  | refused (reason : Reason) : Answer p task limits now (.rejected reason, p)
  | overBudget (hl : limits = true) (hr : 0 < task.attempts)
      (hb : (p.retryBudget.tryAcquire task.event.sellerId now).1 = false) :
      Answer p task limits now (.rejected .retryBudget, p.asked task.event.sellerId now)
  | admitted (h : Grants p task limits) (hr : limits = false ∨ task.attempts = 0) :
      Answer p task limits now (⟨true, 0 < task.attempts, .admitted⟩, p.occupy task)
  | retried (h : Grants p task limits) (hl : limits = true) (hr : 0 < task.attempts)
      (hb : (p.retryBudget.tryAcquire task.event.sellerId now).1 = true) :
      Answer p task limits now
        (⟨true, 0 < task.attempts, .admitted⟩, (p.asked task.event.sellerId now).occupy task)

/-- **The exits of `tryAdmit`**, in the order of its checks. -/
theorem tryAdmit_answer (p : AdmissionPolicy) (task : DeliveryTask) (limits : Bool) (now : ℤ) :
    Answer p task limits now (p.tryAdmit task limits now) := by
  simp only [AdmissionPolicy.tryAdmit]
  split_ifs with hworker hkey hseller hdue hfinished hretry hbudget
  · exact .refused _
  · exact .refused _
  · exact .refused _
  · exact .refused _
  · exact .refused _
  · exact .retried ⟨not_le.mp hworker, hkey, fun hl => not_le.mp fun hle => hseller ⟨hl, hle⟩⟩
      hretry.1 (of_decide_eq_true hretry.2) hbudget
  · exact .overBudget hretry.1 (of_decide_eq_true hretry.2) (Bool.not_eq_true _ ▸ hbudget)
  · refine .admitted ⟨not_le.mp hworker, hkey, fun hl => not_le.mp fun hle => hseller ⟨hl, hle⟩⟩ ?_
    by_cases hl : limits = true
    · have hnot : ¬ 0 < task.attempts := fun hr => hretry ⟨hl, decide_eq_true hr⟩
      exact Or.inr (by omega)
    · exact Or.inl (Bool.not_eq_true _ ▸ hl)

/-- Asking a budget that refuses drops times that have left the window, and adds none. -/
lemma usage_of_refused {b : RollingWindowBudget} {seller : String}
    (h : (b.tryAcquire seller now).1 = false) (x : String) :
    (b.tryAcquire seller now).2.usage x <:+ b.usage x := by
  simp only [RollingWindowBudget.tryAcquire, acquire] at h ⊢
  split_ifs at h ⊢ with hfull
  rw [Function.update_apply]
  split_ifs with hx
  · rw [hx]
    exact List.dropWhile_suffix _
  · exact List.suffix_refl _

/-- **A refused call takes no place and spends no retry.** -/
theorem tryAdmit_refused (h : (p.tryAdmit task limits now).1.admitted = false) :
    p.SamePlaces (p.tryAdmit task limits now).2 ∧
      ∀ x, (p.tryAdmit task limits now).2.retryBudget.usage x <:+ p.retryBudget.usage x := by
  have hanswer := tryAdmit_answer p task limits now
  generalize p.tryAdmit task limits now = answer at h hanswer
  cases hanswer with
  | refused reason => exact ⟨.refl p, fun x => List.suffix_refl _⟩
  | overBudget hl hr hb => exact ⟨⟨rfl, rfl, rfl⟩, usage_of_refused hb⟩
  | admitted hg hr => cases h
  | retried hg hl hr hb => cases h

/-! ### The books -/

/-- The policy still has the limits it was made with. -/
structure AdmissionPolicy.Configured (p : AdmissionPolicy) (cfg : Limits) : Prop where
  workers : p.workers = cfg.workers
  sellerConcurrency : p.sellerConcurrency = cfg.sellerConcurrency
  finishedLimit : p.finishedLimit = cfg.finishedLimit
  retryBudget : p.retryBudget.limit = cfg.retryBudget
  retryWindowMs : p.retryBudget.windowMs = cfg.retryWindowMs

/-- The places of the policy are those of the admitted tasks. -/
structure Places (p : AdmissionPolicy) (admitted : List PartnerOrderEvent) : Prop where
  active : p.active = admitted.length
  keys : p.activeKeys = admitted.map (·.key)
  orders : (admitted.map (·.key)).Nodup
  sellers : ∀ x, p.activeSellers x = (admitted.map (·.sellerId)).count x
  workers : p.active ≤ p.workers

/-- The retry budget has counted the admitted retries. -/
structure Budgeted (cfg : Limits) (p : AdmissionPolicy) (retries : String → List ℤ) (clock : ℤ) :
    Prop where
  trimmed : ∀ x, Trimmed cfg.retryWindowMs clock (p.retryBudget.usage x) (retries x)
  spread : ∀ x, Spread cfg.retryBudget cfg.retryWindowMs (retries x)

/-- The policy agrees with the tally in every reachable state. -/
structure Books (cfg : Limits) (s : Tally) : Prop where
  configured : s.policy.Configured cfg
  places : Places s.policy s.admitted
  budgeted : Budgeted cfg s.policy s.retries s.clock
  newest : s.policy.finished <:+ s.inserted
  limit : s.policy.finished.length ≤ cfg.finishedLimit

namespace Places

variable {admitted : List PartnerOrderEvent}

lemma congr {p' : AdmissionPolicy} (h : Places p admitted) (hsame : p.SamePlaces p')
    (hworkers : p'.workers = p.workers) : Places p' admitted :=
  ⟨hsame.active.trans h.active, hsame.orderKeys.trans h.keys, h.orders,
    fun x => (congrFun hsame.sellers x).trans (h.sellers x), by
      rw [hsame.active, hworkers]
      exact h.workers⟩

/-- An admission takes the place of its task. -/
lemma occupy (h : Places p admitted) (hworker : p.active < p.workers)
    (horder : task.event.key ∉ p.activeKeys) : Places (p.occupy task) (task.event :: admitted) := by
  refine ⟨?_, ?_, ?_, fun x => ?_, ?_⟩
  · have := h.active
    simp only [AdmissionPolicy.occupy, List.length_cons]
    omega
  · rw [List.map_cons, ← h.keys]
    rfl
  · rw [List.map_cons, List.nodup_cons, ← h.keys]
    exact ⟨horder, h.keys ▸ h.orders⟩
  · rw [List.map_cons, List.count_cons]
    simp only [AdmissionPolicy.occupy, Function.update_apply]
    by_cases hx : x = task.event.sellerId
    · simp [hx, h.sellers]
    · simp [hx, Ne.symm hx, h.sellers]
  · simp only [AdmissionPolicy.occupy]
    omega

/-- Keys that occur once: erasing an element takes away exactly its key. -/
lemma map_erase (hnodup : (admitted.map (·.key)).Nodup) {e : PartnerOrderEvent} (he : e ∈ admitted) :
    (admitted.erase e).map (·.key) = (admitted.map (·.key)).filter (· ≠ e.key) := by
  induction admitted with
  | nil => cases he
  | cons x l ih =>
      rw [List.map_cons, List.nodup_cons] at hnodup
      have hkept : (l.map (·.key)).filter (· ≠ x.key) = l.map (·.key) := by
        refine List.filter_eq_self.mpr fun k hk => ?_
        rw [decide_eq_true_eq]
        rintro rfl
        exact hnodup.1 hk
      by_cases hx : x = e
      · subst hx
        rw [List.erase_cons_head, List.map_cons, List.filter_cons_of_neg (by simp), hkept]
      · have he' : e ∈ l := (List.mem_cons.mp he).resolve_left (Ne.symm hx)
        have hkey : x.key ≠ e.key := fun hk =>
          hnodup.1 (hk ▸ List.mem_map_of_mem (f := (·.key)) he')
        rw [List.erase_cons_tail (by simpa using hx), List.map_cons, List.map_cons,
          List.filter_cons_of_pos (by simpa using hkey), ih hnodup.2 he']

/-- A release gives the place of its task back. -/
lemma release (h : Places p admitted) (he : task.event ∈ admitted) :
    Places (p.release task) (admitted.erase task.event) := by
  have hlength := List.length_erase_of_mem he
  have hpos := List.length_pos_of_mem he
  refine ⟨?_, ?_, ?_, fun x => ?_, ?_⟩
  · have := h.active
    simp only [AdmissionPolicy.release]
    omega
  · rw [map_erase h.orders he, ← h.keys]
    rfl
  · exact h.orders.sublist ((List.erase_sublist).map _)
  · have hperm := (List.perm_cons_erase he).map (·.sellerId)
    have hcount := hperm.count_eq x
    rw [List.map_cons, List.count_cons] at hcount
    have hx := h.sellers x
    simp only [AdmissionPolicy.release, Function.update_apply]
    by_cases hs : x = task.event.sellerId
    · subst hs
      simp only [beq_self_eq_true, if_true] at hcount ⊢
      omega
    · simp only [beq_iff_eq, Ne.symm hs, if_false, hs] at hcount ⊢
      omega
  · have := h.workers
    simp only [AdmissionPolicy.release]
    omega

end Places

/-! ### Steps -/

namespace Budgeted

variable {retries : String → List ℤ} {clock : ℤ}

lemma later (h : Budgeted cfg p retries clock) (hle : clock ≤ now) {p' : AdmissionPolicy}
    (husage : p'.retryBudget.usage = p.retryBudget.usage) : Budgeted cfg p' retries now :=
  ⟨fun x => husage ▸ (h.trimmed x).mono hle, h.spread⟩

/-- The budget answers as the window says, and counts what it admits. -/
lemma ask (h : Budgeted cfg p retries clock) (hc : p.Configured cfg) (hle : clock ≤ now)
    (seller : String) :
    Budgeted cfg (p.asked seller now)
      (if (p.retryBudget.tryAcquire seller now).1 then
        Function.update retries seller (retries seller ++ [now]) else retries) now := by
  obtain ⟨hanswer, hkept⟩ := acquire_admits cfg.retryBudget (h.trimmed seller) hle
  have hgranted : (p.retryBudget.tryAcquire seller now).1 =
      decide (admits cfg.retryBudget cfg.retryWindowMs (retries seller) now) := by
    rw [← hanswer, RollingWindowBudget.tryAcquire, hc.retryBudget, hc.retryWindowMs]
  have husage : (p.asked seller now).retryBudget.usage =
      Function.update p.retryBudget.usage seller
        (acquire cfg.retryBudget cfg.retryWindowMs now (p.retryBudget.usage seller)).2 := by
    rw [AdmissionPolicy.asked, RollingWindowBudget.tryAcquire, hc.retryBudget, hc.retryWindowMs]
  rw [hgranted]
  by_cases hadmits : admits cfg.retryBudget cfg.retryWindowMs (retries seller) now
  · rw [if_pos hadmits] at hkept
    rw [if_pos (by simpa using hadmits)]
    refine ⟨fun x => ?_, fun x => ?_⟩
    · rw [husage]
      by_cases hx : x = seller
      · subst hx
        simpa using hkept
      · simpa [hx] using (h.trimmed x).mono hle
    · by_cases hx : x = seller
      · subst hx
        simpa using (h.spread x).concat hadmits
      · simpa [hx] using h.spread x
  · rw [if_neg hadmits] at hkept
    rw [if_neg (by simpa using hadmits)]
    refine ⟨fun x => ?_, h.spread⟩
    rw [husage]
    by_cases hx : x = seller
    · subst hx
      simpa using hkept
    · simpa [hx] using (h.trimmed x).mono hle

end Budgeted

/-- Adding an id to the finished ones drops the oldest when there are too many. -/
lemma markFinished_newest {ids inserted : List String} {limit : ℕ} (eventId : String)
    (hnewest : ids <:+ inserted) (hlimit : ids.length ≤ limit) :
    markFinished limit ids eventId <:+
        (if eventId ∈ ids then inserted else inserted ++ [eventId]) ∧
      (markFinished limit ids eventId).length ≤ limit := by
  rw [markFinished]
  by_cases hid : eventId ∈ ids
  · simp only [if_pos hid, if_neg (not_lt.mpr hlimit)]
    exact ⟨hnewest, hlimit⟩
  · have hadded : ids ++ [eventId] <:+ inserted ++ [eventId] := by
      obtain ⟨old, rfl⟩ := hnewest
      exact ⟨old, by simp⟩
    simp only [if_neg hid]
    split_ifs with hfull
    · refine ⟨(List.tail_suffix _).trans hadded, ?_⟩
      rw [List.length_tail, List.length_append, List.length_singleton]
      omega
    · exact ⟨hadded, not_lt.mp hfull⟩

/-- A call of `tryAdmit` or `tryAdmitLocal`; `retries` are the times after it. -/
lemma Books.answered (h : Books cfg s) (hle : s.clock ≤ now) {answer : Admission × AdmissionPolicy}
    (hanswer : Answer s.policy task limits now answer) :
    Books cfg (if limits = true ∧ answer.1.admitted ∧ 0 < task.attempts then
      (s.answered task answer now).retried task.event.sellerId now
        else s.answered task answer now) := by
  obtain ⟨hc, hp, hb, hnewest, hlimit⟩ := h
  cases hanswer with
  | refused reason =>
      rw [if_neg (by simp [Admission.rejected])]
      exact ⟨hc, hp, hb.later hle rfl, hnewest, hlimit⟩
  | overBudget hl hr hbudget =>
      rw [if_neg (by simp [Admission.rejected])]
      have hask := hb.ask hc hle task.event.sellerId
      rw [if_neg (by simp [hbudget])] at hask
      exact ⟨⟨hc.1, hc.2, hc.3, hc.4, hc.5⟩, hp.congr ⟨rfl, rfl, rfl⟩ rfl, hask, hnewest, hlimit⟩
  | admitted hg hr =>
      have hnot : ¬ (limits = true ∧ True ∧ 0 < task.attempts) := by
        rintro ⟨hl, -, hpos⟩
        rcases hr with hr | hr
        · simp [hl] at hr
        · omega
      rw [if_neg (by simpa using hnot)]
      exact ⟨⟨hc.1, hc.2, hc.3, hc.4, hc.5⟩, hp.occupy hg.worker hg.order, hb.later hle rfl,
        hnewest, hlimit⟩
  | retried hg hl hr hbudget =>
      rw [if_pos ⟨hl, rfl, hr⟩]
      have hask := hb.ask hc hle task.event.sellerId
      rw [if_pos hbudget] at hask
      have hasked : Places (s.policy.asked task.event.sellerId now) s.admitted :=
        hp.congr ⟨rfl, rfl, rfl⟩ rfl
      exact ⟨⟨hc.1, hc.2, hc.3, hc.4, hc.5⟩, hasked.occupy hg.worker hg.order,
        ⟨hask.trimmed, hask.spread⟩, hnewest, hlimit⟩

/-- Every call keeps the books. -/
lemma Books.step (h : Books cfg s) (hstep : perform s a = some s') : Books cfg s' := by
  cases a with
  | tryAdmit task now =>
      by_cases hle : s.clock ≤ now
      · have hbooks := h.answered hle (tryAdmit_answer s.policy task true now)
        simp only [true_and] at hbooks
        rw [perform, if_pos hle] at hstep
        obtain rfl := Option.some.inj hstep
        exact hbooks
      · rw [perform, if_neg hle] at hstep
        cases hstep
  | tryAdmitLocal task now =>
      simp only [perform] at hstep
      split_ifs at hstep with hle
      have hbooks := h.answered hle (tryAdmit_answer s.policy task false now)
      rw [if_neg (by simp)] at hbooks
      obtain rfl := Option.some.inj hstep
      exact hbooks
  | markFinished eventId =>
      obtain rfl := Option.some.inj hstep
      obtain ⟨hc, hp, hb, hnewest, hlimit⟩ := h
      have hlimit' : s.policy.finished.length ≤ s.policy.finishedLimit := hc.finishedLimit ▸ hlimit
      have hids := markFinished_newest eventId hnewest hlimit'
      exact ⟨⟨hc.1, hc.2, hc.3, hc.4, hc.5⟩, hp.congr ⟨rfl, rfl, rfl⟩ rfl, hb.later le_rfl rfl,
        hids.1, hc.finishedLimit ▸ hids.2⟩
  | release task =>
      simp only [perform] at hstep
      split_ifs at hstep with he
      obtain rfl := Option.some.inj hstep
      obtain ⟨hc, hp, hb, hnewest, hlimit⟩ := h
      exact ⟨⟨hc.1, hc.2, hc.3, hc.4, hc.5⟩, hp.release he, hb.later le_rfl rfl, hnewest, hlimit⟩

/-- The books are right after every history. -/
theorem History.books (h : History cfg start acts s) : Books cfg s := by
  induction h with
  | nil =>
      exact ⟨⟨rfl, rfl, rfl, rfl, rfl⟩, ⟨rfl, rfl, List.nodup_nil, fun _ => rfl, by simp [Limits.policy]⟩,
        ⟨fun _ => trimmed_nil start, fun _ => Spread.nil⟩, List.suffix_refl _, Nat.zero_le _⟩
  | snoc _ hstep ih => exact ih.step hstep

/-! ### The seller limit -/

/-- The call goes through the limits of the seller. -/
def AdmissionAct.limited : AdmissionAct → Prop
  | .tryAdmitLocal _ _ => False
  | _ => True

/-- No seller is above its limit. -/
def SellersCapped (cfg : Limits) (p : AdmissionPolicy) : Prop :=
  ∀ x, p.activeSellers x ≤ cfg.sellerConcurrency

lemma SellersCapped.occupy (h : SellersCapped cfg p)
    (hseller : p.activeSellers task.event.sellerId < cfg.sellerConcurrency) :
    SellersCapped cfg (p.occupy task) := by
  intro x
  simp only [AdmissionPolicy.occupy, Function.update_apply]
  split_ifs with hx
  · omega
  · exact h x

lemma SellersCapped.step (h : SellersCapped cfg s.policy) (hbooks : Books cfg s)
    (hlimited : a.limited) (hstep : perform s a = some s') : SellersCapped cfg s'.policy := by
  cases a with
  | tryAdmit task now =>
      have hcap := hbooks.configured.sellerConcurrency
      have hpolicy : s'.policy = (s.policy.tryAdmit task true now).2 := by
        by_cases hle : s.clock ≤ now
        · rw [perform, if_pos hle] at hstep
          obtain rfl := Option.some.inj hstep
          split_ifs <;> rfl
        · rw [perform, if_neg hle] at hstep
          cases hstep
      rw [hpolicy]
      have hanswer := tryAdmit_answer s.policy task true now
      generalize s.policy.tryAdmit task true now = answer at hanswer
      cases hanswer with
      | refused reason => exact h
      | overBudget hl hr hb => exact h
      | admitted hg hr => exact h.occupy (hcap ▸ hg.seller rfl)
      | retried hg hl hr hb =>
          have hasked : SellersCapped cfg (s.policy.asked task.event.sellerId now) := h
          exact hasked.occupy (hcap ▸ hg.seller rfl)
  | tryAdmitLocal task now => exact absurd hlimited id
  | markFinished eventId =>
      obtain rfl := Option.some.inj hstep
      exact h
  | release task =>
      simp only [perform] at hstep
      split_ifs at hstep
      obtain rfl := Option.some.inj hstep
      intro x
      have hx := h x
      simp only [AdmissionPolicy.release, Function.update_apply]
      split_ifs with hs
      · subst hs
        omega
      · exact hx

lemma History.sellersCapped (h : History cfg start acts s) (hacts : ∀ a ∈ acts, a.limited) :
    SellersCapped cfg s.policy := by
  induction h with
  | nil => exact fun _ => Int.natCast_nonneg _
  | snoc hrun hstep ih =>
      exact (ih fun a ha => hacts a (List.mem_append_left _ ha)).step hrun.books
        (hacts _ (by simp)) hstep

/-! ### The result -/

/-- What `AdmissionPolicy` guarantees. -/
structure Isolation (cfg : Limits) (s : Tally) : Prop where
  active : s.policy.active = s.admitted.length
  keys : s.policy.activeKeys.Nodup ∧ (s.policy.activeKeys.length : ℤ) = s.policy.active
  sellers : ∑ x ∈ (s.admitted.map (·.sellerId)).toFinset, s.policy.activeSellers x =
      s.policy.active ∧
    ∀ x ∉ s.admitted.map (·.sellerId), s.policy.activeSellers x = 0
  workers : s.policy.active ≤ cfg.workers
  orders : (s.admitted.map (·.key)).Nodup
  nonneg : ∀ x, 0 ≤ s.policy.activeSellers x
  refused : ∀ task limits now, (s.policy.tryAdmit task limits now).1.admitted = false →
    s.policy.SamePlaces (s.policy.tryAdmit task limits now).2 ∧
      ∀ x, (s.policy.tryAdmit task limits now).2.retryBudget.usage x <:+ s.policy.retryBudget.usage x
  retries : ∀ seller, Spread cfg.retryBudget cfg.retryWindowMs (s.retries seller)
  finished : s.policy.finished.length ≤ cfg.finishedLimit ∧ s.policy.finished <:+ s.inserted

lemma Places.sum_sellers {admitted : List PartnerOrderEvent} (h : Places p admitted) :
    ∑ x ∈ (admitted.map (·.sellerId)).toFinset, p.activeSellers x = p.active := by
  calc ∑ x ∈ (admitted.map (·.sellerId)).toFinset, p.activeSellers x
      = ∑ x ∈ (admitted.map (·.sellerId)).toFinset, ((admitted.map (·.sellerId)).count x : ℤ) :=
        Finset.sum_congr rfl fun x _ => h.sellers x
    _ = ((∑ x ∈ (admitted.map (·.sellerId)).toFinset, (admitted.map (·.sellerId)).count x : ℕ) : ℤ) :=
        (Nat.cast_sum _ _).symm
    _ = ((admitted.map (·.sellerId)).length : ℤ) := by rw [List.sum_toFinset_count_eq_length]
    _ = p.active := by rw [List.length_map, h.active]

/-- A retry of an operation. -/
def retryTask : DeliveryTask :=
  { event := sampleEvent "e" 1, partition := 0, offset := 0, attempts := 1 }

/-- A retry is admitted, its task ends, and a second retry in the same window is refused. -/
def retryCalls : List AdmissionAct :=
  [.tryAdmit retryTask 0, .markFinished "x", .release retryTask, .tryAdmit retryTask 5]

end OrderSystem.Partner
