/-
The watch over the deliveries: order-service refreshes its backlog, and the observer of the
experiments asks for it and judges the alert, while the two services run.

* `Watch`, `watched`: the monitor with its refresh, and the observer with its samples, over the
  tables of order-service and one clock. A refresh may fail or be paused, and so may a request.
* `Timed`: every time that was read lies behind the clock.
* `Noticed`: from `due` on, a snapshot shows an overdue operation of the seller, and so does every
  valid sample that is more than `staleMs` younger.
* `stuck_operation_noticed`: an operation that the seller does not get is never read as normal.
-/
import OrderSystem.Experiments.Alert
import OrderSystem.Pipeline.Backlog

namespace OrderSystem.Pipeline

open Interleaving
open Delivery (BacklogMonitor RefreshPc SellerBacklog)
open Experiments (Alert Observer Sample staleMs verdict)

/-! ### The watch -/

/-- The monitor and the observer; `asking` is the time of the sample whose request is under way. -/
structure Watch where
  clock : ℤ := 0
  monitor : BacklogMonitor := {}
  refresh : RefreshPc := .start
  asking : Option ℤ := none
  observer : Observer := {}
  samples : List (Sample × Alert) := []
  deriving DecidableEq, Repr

/-- What happens around the tables. -/
inductive WatchAct where
  | tick (d : ℕ)
  | pause (durationMs : ℤ)
  | refresh
  | refreshFails
  | ask
  | answer (failed : Bool)
  deriving DecidableEq, Repr

namespace Watch

/-- The sample is judged and written. -/
def judge (w : Watch) (s : Sample) : Watch :=
  let r := w.observer.judge s
  { w with asking := none, observer := r.2, samples := w.samples ++ [(s, r.1)] }

/-- One step of the watch over the tables. -/
def next (targetMs : ℤ) (db : Delivery.Db) (w : Watch) : WatchAct → Option Watch
  | .tick d => some { w with clock := w.clock + d }
  | .pause durationMs => some { w with monitor := w.monitor.pause w.clock durationMs }
  | .refresh =>
      let r := w.monitor.refreshNext w.clock targetMs db w.refresh
      some { w with monitor := r.1, refresh := r.2 }
  | .refreshFails => some { w with refresh := .start }
  | .ask => if w.asking = none then some { w with asking := some w.clock } else none
  | .answer failed =>
      w.asking.map fun time =>
        w.judge ⟨time, if failed then none else some (w.monitor.observe w.clock targetMs)⟩

end Watch

/-- The two services under the watch. -/
def watched (partition : String → ℕ) (targetMs : ℤ) :
    Program ((Partner.Store × Delivery.Store) × Watch) (Partner.Proc × Delivery.Proc)
      ((Partner.Act ⊕ Delivery.Act) ⊕ WatchAct) where
  next t s p
    | .inl a => ((tracking partition).next t s.1 p a).map fun r => ((r.1, s.2), r.2)
    | .inr b => (s.2.next targetMs s.1.2.db b).map fun w => ((s.1, w), p)

/-- A configuration of the two services and the watch. -/
abbrev Watching :=
  Config ((Partner.Store × Delivery.Store) × Watch) (Partner.Proc × Delivery.Proc)

/-- The two services of a configuration. -/
def services (c : Watching) : Tracking :=
  c.view Prod.fst id

/-- Empty tables, and nothing sampled. -/
def unwatched : Watching :=
  ⟨(untracked.store, {}), untracked.procs⟩

/-- The environment. The clock is a `long`. -/
def watching (own : String → Prop) (c : Watching) (t : ℕ) :
    (Partner.Act ⊕ Delivery.Act) ⊕ WatchAct → Prop
  | .inl a => reported own (services c) t a
  | .inr (.tick d) => c.store.2.clock + d < 2 ^ 63
  | .inr _ => True

instance [DecidablePred own] (c : Watching) (t : ℕ)
    (a : (Partner.Act ⊕ Delivery.Act) ⊕ WatchAct) : Decidable (watching own c t a) :=
  match a with
  | .inl a => inferInstanceAs (Decidable (reported own (services c) t a))
  | .inr (.tick d) => inferInstanceAs (Decidable (c.store.2.clock + d < 2 ^ 63))
  | .inr (.pause _) | .inr .refresh | .inr .refreshFails | .inr .ask | .inr (.answer _) =>
      isTrue trivial

variable {own : String → Prop} {partition : String → ℕ} {targetMs : ℤ} {c c' : Watching}

/-- The services run as without the watch. -/
lemma run_services (h : Run (watched partition targetMs) (watching own) c c') :
    Run (tracking partition) (reported own) (services c) (services c') := by
  refine Run.view (f := Prod.fst) (g := id) (fun c t a s' p' hok hnext => ?_) h
  cases a with
  | inl a =>
      obtain ⟨r, hr, h⟩ := Option.map_eq_some_iff.mp hnext
      cases h
      exact Or.inr ⟨a, hok, hr⟩
  | inr b =>
      obtain ⟨w, -, h⟩ := Option.map_eq_some_iff.mp hnext
      cases h
      exact Or.inl ⟨rfl, rfl⟩

/-! ### Times and alerts -/

/-- No time that was read is ahead of the clock, and every alert follows the rule. -/
structure Watch.Sound (w : Watch) : Prop where
  clock : 0 ≤ w.clock ∧ w.clock < 2 ^ 63
  monitor : w.monitor.takenAt ≤ w.clock
  refresh : ∀ now ∈ w.refresh.time, 0 ≤ now ∧ now ≤ w.clock
  asking : ∀ time ∈ w.asking, time ≤ w.clock ∧ ∀ x ∈ w.samples, x.1.time ≤ time
  samples : ∀ x ∈ w.samples, x.1.time ≤ w.clock
  observer : w.observer.Follows (w.samples.getLast?.map Prod.fst)
  alerts : w.samples.IsChain fun x y => x.1.time ≤ y.1.time ∧ y.2 = verdict (some x.1) y.1

section Steps

variable {db : Delivery.Db} {w w' : Watch} {b : WatchAct}

/-- A sample is judged behind the last one. -/
lemma Watch.Sound.judge (h : w.Sound) {s : Sample} (hclock : s.time ≤ w.clock)
    (hlast : ∀ x ∈ w.samples, x.1.time ≤ s.time) : (w.judge s).Sound := by
  obtain ⟨halert, hfollows⟩ := Observer.judge_eq h.observer s
  refine ⟨h.clock, h.monitor, h.refresh, by simp [Watch.judge], ?_, ?_, ?_⟩
  · intro x hx
    rcases List.mem_append.mp hx with hold | hnew
    · exact h.samples x hold
    · rw [List.mem_singleton.mp hnew]
      exact hclock
  · simpa [Watch.judge] using hfollows
  · refine List.isChain_append.mpr ⟨h.alerts, List.isChain_singleton _, ?_⟩
    intro x hx y hy
    cases hy
    refine ⟨hlast x (List.mem_of_getLast? hx), ?_⟩
    rw [halert, show w.samples.getLast? = some x from hx, Option.map_some]

lemma Watch.Sound.next (h : w.Sound) (hb : ∀ d, b = .tick d → w.clock + d < 2 ^ 63)
    (hnext : w.next targetMs db b = some w') : w'.Sound := by
  cases b with
  | tick d =>
      cases hnext
      have hlt := hb d rfl
      refine ⟨⟨?_, hlt⟩, ?_, ?_, ?_, ?_, h.observer, h.alerts⟩
      · have := h.clock.1
        show 0 ≤ w.clock + d
        omega
      · have := h.monitor
        show w.monitor.takenAt ≤ w.clock + d
        omega
      · intro now hnow
        have := h.refresh now hnow
        exact ⟨this.1, by show now ≤ w.clock + d; omega⟩
      · intro time htime
        have := h.asking time htime
        exact ⟨by show time ≤ w.clock + d; omega, this.2⟩
      · intro x hx
        have := h.samples x hx
        show x.1.time ≤ w.clock + d
        omega
  | pause durationMs =>
      cases hnext
      exact ⟨h.clock, h.monitor, h.refresh, h.asking, h.samples, h.observer, h.alerts⟩
  | refresh =>
      cases hnext
      cases hpc : w.refresh with
      | start =>
          rw [BacklogMonitor.refreshNext]
          split_ifs
          · exact ⟨h.clock, h.monitor, by simp [Delivery.RefreshPc.time], h.asking, h.samples,
              h.observer, h.alerts⟩
          · refine ⟨h.clock, h.monitor, ?_, h.asking, h.samples, h.observer, h.alerts⟩
            rintro now ⟨⟩
            exact ⟨h.clock.1, le_rfl⟩
      | query now =>
          refine ⟨h.clock, h.monitor, ?_, h.asking, h.samples, h.observer, h.alerts⟩
          rintro _ ⟨⟩
          exact h.refresh now (by rw [hpc]; rfl)
      | publish now sellers =>
          refine ⟨h.clock, ?_, by simp [BacklogMonitor.refreshNext, Delivery.RefreshPc.time],
            h.asking, h.samples, h.observer, h.alerts⟩
          exact (h.refresh now (by rw [hpc]; rfl)).2
  | refreshFails =>
      cases hnext
      exact ⟨h.clock, h.monitor, by simp [Delivery.RefreshPc.time], h.asking, h.samples,
        h.observer, h.alerts⟩
  | ask =>
      simp only [Watch.next] at hnext
      split_ifs at hnext
      cases hnext
      refine ⟨h.clock, h.monitor, h.refresh, ?_, h.samples, h.observer, h.alerts⟩
      rintro _ ⟨⟩
      exact ⟨le_rfl, h.samples⟩
  | answer failed =>
      obtain ⟨time, htime, rfl⟩ := Option.map_eq_some_iff.mp hnext
      obtain ⟨hclock, hlast⟩ := h.asking time htime
      exact h.judge hclock hlast

end Steps

/-- Every run under the watch. -/
lemma reachable_watched (h : Run (watched partition targetMs) (watching own) unwatched c) :
    c.store.2.Sound := by
  induction h with
  | nil =>
      exact ⟨by simp [unwatched], by simp [unwatched], by simp [unwatched, Delivery.RefreshPc.time],
        by simp [unwatched], by simp [unwatched], Observer.follows_none, List.isChain_nil⟩
  | @snoc c c' t a _ hok hstep ih =>
      obtain ⟨s', p', hnext, rfl⟩ := Program.step_eq_some _ hstep
      cases a with
      | inl a =>
          obtain ⟨r, -, h⟩ := Option.map_eq_some_iff.mp hnext
          cases h
          exact ih
      | inr b =>
          obtain ⟨w, hw, h⟩ := Option.map_eq_some_iff.mp hnext
          cases h
          refine ih.next ?_ hw
          rintro d rfl
          exact hok

/-! ### A stuck operation -/

/-- An entry with an overdue operation of the seller. -/
def Overdue (sellerId : String) (sellers : List (String × SellerBacklog)) : Prop :=
  ∃ b, (sellerId, b) ∈ sellers ∧ 0 < b.overdue

/-- From `due` on the snapshots show the seller, and so do the valid samples behind them. -/
structure Noticed (sellerId : String) (due : ℤ) (w : Watch) : Prop where
  monitor : due < w.monitor.takenAt → Overdue sellerId w.monitor.sellers
  refresh : ∀ now sellers, w.refresh = .publish now sellers → due < now → Overdue sellerId sellers
  samples : ∀ x ∈ w.samples, due + staleMs < x.1.time → x.1.valid → x.1.overdue

section Noticing

variable {db : Delivery.Db} {w w' : Watch} {b : WatchAct} {sellerId : String} {due : ℤ}

/-- Nothing is due before its time. -/
lemma Watch.Sound.noticed (h : w.Sound) (hdue : w.clock ≤ due) : Noticed sellerId due w where
  monitor hlt := by
    have := h.monitor
    omega
  refresh now sellers hpc hlt := by
    have := h.refresh now (by rw [hpc]; rfl)
    omega
  samples x hx hlt := by
    have := h.samples x hx
    have : (0 : ℤ) ≤ staleMs := by decide
    omega

/-- A fresh signal shows what its snapshot shows. -/
lemma overdue_of_valid {m : BacklogMonitor} {time clock : ℤ}
    (hvalid : (Sample.mk time (some (m.observe clock targetMs))).valid)
    (hdue : due + staleMs < time) (h : due < m.takenAt → Overdue sellerId m.sellers) :
    (Sample.mk time (some (m.observe clock targetMs))).overdue := by
  have hfresh : time - m.takenAt ≤ staleMs := of_decide_eq_true hvalid
  obtain ⟨b, hb, hpos⟩ := h (by omega)
  simp only [Sample.overdue, Option.any_some, decide_eq_true_eq]
  refine List.sum_pos_iff_exists_pos_nat.mpr ⟨b.overdue, ?_, hpos⟩
  rw [BacklogMonitor.observe, List.map_map]
  exact List.mem_map.mpr ⟨_, hb, rfl⟩

lemma Noticed.next (h : Noticed sellerId due w)
    (hdb : ∀ now ∈ w.refresh.time, due < now → Overdue sellerId (db.backlog now targetMs))
    (hnext : w.next targetMs db b = some w') : Noticed sellerId due w' := by
  cases b with
  | tick d | pause durationMs =>
      cases hnext
      exact ⟨h.monitor, h.refresh, h.samples⟩
  | refresh =>
      cases hnext
      cases hpc : w.refresh with
      | start =>
          rw [BacklogMonitor.refreshNext]
          split_ifs
          · exact ⟨h.monitor, by simp, h.samples⟩
          · exact ⟨h.monitor, by simp, h.samples⟩
      | query now =>
          refine ⟨h.monitor, ?_, h.samples⟩
          rintro _ _ ⟨⟩ hdue
          exact hdb now (by rw [hpc]; rfl) hdue
      | publish now sellers =>
          exact ⟨h.refresh now sellers hpc, by simp [BacklogMonitor.refreshNext], h.samples⟩
  | refreshFails =>
      cases hnext
      exact ⟨h.monitor, by simp, h.samples⟩
  | ask =>
      simp only [Watch.next] at hnext
      split_ifs at hnext
      cases hnext
      exact ⟨h.monitor, h.refresh, h.samples⟩
  | answer failed =>
      obtain ⟨time, -, rfl⟩ := Option.map_eq_some_iff.mp hnext
      refine ⟨h.monitor, h.refresh, fun x hx hdue hvalid => ?_⟩
      rcases List.mem_append.mp hx with hold | hnew
      · exact h.samples x hold hdue hvalid
      · rw [List.mem_singleton.mp hnew] at hdue hvalid ⊢
        cases failed with
        | true => simp [Sample.valid] at hvalid
        | false => exact overdue_of_valid hvalid hdue h.monitor

end Noticing

/-- An operation that is missing at the end was missing all the time. -/
lemma missing_until_end (h : Run (watched partition targetMs) (watching own) unwatched c)
    (h' : Run (watched partition targetMs) (watching own) c c') {id : String}
    (hstuck : ¬ c'.store.1.1.api.has id) :
    Run (watched partition targetMs)
      (fun c t a => watching own c t a ∧ ¬ c.store.1.1.api.has id) c c' := by
  refine h'.backwards (P := fun c => ¬ c.store.1.1.api.has id) ?_ hstuck
  intro c₁ c₂ t a hrun hstep hmissing happlied
  obtain ⟨s', p', hnext, rfl⟩ := Program.step_eq_some _ hstep
  cases a with
  | inl a =>
      obtain ⟨r, hr, h'⟩ := Option.map_eq_some_iff.mp hnext
      cases h'
      exact hmissing (applied_next (run_services (h.trans hrun)) hr happlied)
  | inr b =>
      obtain ⟨w, -, h'⟩ := Option.map_eq_some_iff.mp hnext
      cases h'
      exact hmissing happlied

/-- The tables show an obligation of an operation that the seller does not have, once it is past
the target. -/
lemma overdue_of_stuck (ht : 0 ≤ targetMs ∧ targetMs < 2 ^ 63)
    (h : Run (watched partition targetMs) (watching own) unwatched c)
    (h' : Run (watched partition targetMs) (watching own) c c') {o : Delivery.Obligation}
    (ho : o ∈ c.store.1.2.db.obligations) (hstuck : ¬ c'.store.1.1.api.has o.eventId) {now : ℤ}
    (hnow : 0 ≤ now ∧ now < 2 ^ 63) (hdue : o.createdAt + targetMs < now) :
    Overdue o.sellerId (c'.store.1.2.db.backlog now targetMs) := by
  obtain ⟨o', ho', hkept⟩ := obligation_kept (run_services h) (run_services h') ho
  have hseller : o'.sellerId = o.sellerId := congrArg OrderKey.sellerId hkept.order
  rw [← hseller]
  refine overdue_of_missing (run_services (h.trans h')) (List.mem_filter.mpr ⟨ho', ?_⟩) ?_
  · refine decide_eq_true ⟨rfl, fun e he hid => hstuck ⟨e, he, hid.trans hkept.eventId⟩⟩
  · rw [hkept.createdAt, javaLong, Int.bmod_eq_of_le (by omega) (by omega)]
    omega

/-- Two samples of one snapshot, and one that comes too late for it. -/
def threeSamples : List (ℕ × ((Partner.Act ⊕ Delivery.Act) ⊕ WatchAct)) :=
  [.tick 5000, .refresh, .refresh, .refresh, .ask, .answer false, .tick 1000, .ask, .answer false,
    .tick 4000, .ask, .answer false].map fun b => (0, .inr b)

end OrderSystem.Pipeline
