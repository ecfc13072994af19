/-
The marks of parked orders.

`park` publishes a record and sets the mark of its event afterwards, in the memory of the
instance that parks; `delivered` clears the mark in the memory of the instance that read the
record. A mark set behind the delivery of its record, or on another instance than the one
that delivers, is never cleared.

* `MarksEnd`: an order without a record and without a park in progress has no mark.
* `mark_left_behind`: a retry listener delivers between the publication and the mark.
* `soleMark`: when a retry listener has delivered an event, no other instance holds its mark
  and no process is about to set it.
* `Marked`: a mark is held or about to be set. A step that adds one has just appended its
  record (`marked_next`), so that below the position of a retry consumer every marked record
  stands in the topic again (`Marks`).
* `marks_end`: `MarksEnd` in every run whose deliveries are sole.
-/
import OrderSystem.RetryLane.Lossless

namespace OrderSystem.RetryLane

open Interleaving Requeue

variable {cfg : Settings} {t u : ℕ} {s s' : Store} {p p' : Proc} {a : Act} {l : Listener}
  {q i n : ℕ} {e : PartnerOrderEvent} {r : Reading} {m : String × String}
  {c c' : Config Store Proc} {ok : Config Store Proc → ℕ → Act → Prop}

/-! ### The property -/

/-- A park of an event of the order is in progress. -/
def Proc.parks (key : String) : Proc → Prop
  | .listening r (.publishing _) | .listening r (.awaiting _ _) => r.task.event.key = key
  | _ => False

/-- An order without a record at or above the committed offset of the retry group and
without a park in progress is not marked. -/
def MarksEnd (c : Config Store Proc) : Prop :=
  ∀ key, (∀ q i r, c.store.committed .retry q ≤ i → (c.store.retryTopic q)[i]? = some r →
      r.event.key ≠ key) →
    (∀ t, ¬ (c.procs t).parks key) → ∀ owner, (c.store.memory owner).hasParked key = false

/-! ### Marks -/

/-- The mark of an event. -/
def mark (e : PartnerOrderEvent) : String × String := (e.key, e.eventId)

/-- The marks of the records of a partition of the retry topic. -/
def Store.marks (s : Store) (q : ℕ) : List (String × String) :=
  (s.log .retry q).map mark

/-- The process has an acknowledged park whose mark is not set yet. -/
def Proc.awaits (s : Store) (m : String × String) : Proc → Prop
  | .listening r (.awaiting _ n) => n ∈ s.acks ∧ mark r.task.event = m
  | _ => False

/-- The mark is held by an instance. -/
def Store.held (s : Store) (m : String × String) : Prop :=
  ∃ owner, m ∈ (s.memory owner).parkedByOrder

/-- The mark is held, or about to be set. -/
def Marked (c : Config Store Proc) (m : String × String) : Prop :=
  c.store.held m ∨ ∃ t, (c.procs t).awaits c.store m

/-! ### What a step does to the marks -/

/-- The listener call that has delivered its record and now clears the mark. -/
def Proc.clearing : Proc → Act → Option Reading
  | .listening r (.processing _ (.delivering _ .returned)), .go _ =>
      if r.listener = .retry then some r else none
  | _, _ => none

@[simp] lemma Memory.parkedByOrder_releaseIf (x : Memory) (admitted : Bool)
    (task : Partner.DeliveryTask) :
    (x.releaseIf admitted task).parkedByOrder = x.parkedByOrder := by
  cases admitted <;> rfl

lemma Memory.mem_parked {x : Memory} (hm : m ∈ (x.parked e).parkedByOrder) :
    m ∈ x.parkedByOrder ∨ m = mark e := by
  rw [Memory.parked] at hm
  split_ifs at hm
  · exact Or.inl hm
  · exact (List.mem_append.mp hm).imp_right List.mem_singleton.mp

lemma Memory.mem_delivered {x : Memory} :
    m ∈ (x.delivered e).parkedByOrder ↔ m ∈ x.parkedByOrder ∧ m ≠ mark e := by
  simp [Memory.delivered, mark]

/-- The memory of one instance is written. -/
lemma mem_setMemory {owner o : String} {x : Memory}
    (hm : m ∈ ((s.setMemory o x).memory owner).parkedByOrder) :
    m ∈ (s.memory owner).parkedByOrder ∨ owner = o ∧ m ∈ x.parkedByOrder := by
  simp only [Store.setMemory, Function.update_apply] at hm
  split_ifs at hm with howner
  · exact Or.inr ⟨howner, hm⟩
  · exact Or.inl hm

lemma mem_setMemory_of_subset {owner o : String} {x : Memory}
    (hx : x.parkedByOrder ⊆ (s.memory o).parkedByOrder)
    (hm : m ∈ ((s.setMemory o x).memory owner).parkedByOrder) :
    m ∈ (s.memory owner).parkedByOrder := by
  rcases mem_setMemory hm with hold | ⟨rfl, hnew⟩
  · exact hold
  · exact hx hnew

lemma listenNext_held {owner : String} {pc : ListenPc} {jvm : ℤ}
    (h : listenNext cfg t s r jvm pc = some (s', p'))
    (hm : m ∈ (s'.memory owner).parkedByOrder) :
    m ∈ (s.memory owner).parkedByOrder ∨
      ∃ admitted n, pc = .awaiting admitted n ∧ n ∈ s.acks ∧ owner = r.owner ∧
        m = mark r.task.event := by
  cases pc with
  | received =>
      simp only [listenNext, receiveMain, receiveRetry, deliver] at h
      repeat' split at h
      all_goals first
        | (cases h; exact Or.inl hm)
        | cases h
  | admitting deadline =>
      simp only [listenNext, admitOrPark, deliver] at h
      repeat' split at h
      all_goals
        cases h
        refine Or.inl (mem_setMemory_of_subset ?_ hm)
        exact List.Subset.refl _
  | processing admitted q =>
      obtain ⟨ps, q', -, hcase⟩ := processStep_cases h
      cases hcase with
      | returned job hq hq' =>
          refine Or.inl (mem_setMemory_of_subset (s := { s with partner := ps }) ?_ hm)
          intro x hx
          rw [Memory.parkedByOrder_releaseIf] at hx
          cases hl : r.listener with
          | main => simpa [hl] using hx
          | retry =>
              rw [hl] at hx
              exact (Memory.mem_delivered.mp hx).1
      | failed hq' => exact Or.inl hm
      | goesOn calls hq' => exact Or.inl hm
  | publishing admitted =>
      cases h
      exact Or.inl hm
  | awaiting admitted n =>
      simp only [listenNext] at h
      split_ifs at h with hack
      cases h
      rcases mem_setMemory hm with hold | ⟨rfl, hnew⟩
      · exact Or.inl hold
      · rw [Memory.parkedByOrder_releaseIf] at hnew
        exact (Memory.mem_parked hnew).imp_right fun hmark => ⟨admitted, n, rfl, hack, rfl, hmark⟩
  | acknowledge =>
      cases h
      exact Or.inl hm

/-- A mark that an instance holds was there before, or is set by a park of its own. -/
lemma next_held {owner : String} (h : next cfg t s p a = some (s', p'))
    (hm : m ∈ (s'.memory owner).parkedByOrder) :
    m ∈ (s.memory owner).parkedByOrder ∨
      ∃ r admitted n, p = .listening r (.awaiting admitted n) ∧ n ∈ s.acks ∧
        owner = r.owner ∧ m = mark r.task.event := by
  cases next_move h with
  | restart o =>
      rcases mem_setMemory hm with hold | ⟨-, hnew⟩
      · exact Or.inl hold
      · cases hnew
  | append happ =>
      obtain ⟨x, -, rfl⟩ := Option.map_eq_some_iff.mp happ
      exact Or.inl hm
  | @listener r pc jvm s' p' hlisten =>
      exact (listenNext_held hlisten hm).imp_right
        fun ⟨admitted, n, hpc, hrest⟩ => ⟨r, admitted, n, by rw [hpc], hrest⟩
  | throw r pc =>
      refine Or.inl ?_
      cases pc with
      | publishing admitted => exact mem_setMemory_of_subset (by simp) hm
      | awaiting admitted n => exact mem_setMemory_of_subset (by simp) hm
      | _ => exact hm
  | _ => exact Or.inl hm

/-- A park begins with a send of a new number. -/
lemma listenNext_awaiting {r₁ : Reading} {pc : ListenPc} {jvm : ℤ} {admitted : Bool}
    (h : listenNext cfg t s r₁ jvm pc = some (s', .listening r (.awaiting admitted n))) :
    n = s.nextSend ∧ s'.acks = s.acks := by
  cases pc with
  | received =>
      simp only [listenNext, receiveMain, receiveRetry, deliver] at h
      repeat' split at h
      all_goals cases h
  | admitting deadline =>
      simp only [listenNext, admitOrPark, deliver] at h
      repeat' split at h
      all_goals cases h
  | processing admitted q =>
      obtain ⟨ps, q', -, hcase⟩ := processStep_cases h
      cases hcase
  | publishing admitted =>
      cases h
      exact ⟨rfl, rfl⟩
  | awaiting admitted n =>
      simp only [listenNext] at h
      split_ifs at h
      cases h
  | acknowledge => cases h

lemma next_awaiting {admitted : Bool} (h : next cfg t s p a = some (s', p'))
    (hp : p' = .listening r (.awaiting admitted n)) : n = s.nextSend ∧ s'.acks = s.acks := by
  cases next_move h with
  | listener hlisten =>
      subst hp
      exact listenNext_awaiting hlisten
  | throw r pc => cases pc <;> cases hp
  | _ => cases hp

lemma Proc.awaits_iff : p.awaits s m ↔ ∃ r admitted n,
    p = .listening r (.awaiting admitted n) ∧ n ∈ s.acks ∧ mark r.task.event = m := by
  constructor
  · intro h
    cases p with
    | listening r pc =>
        cases pc with
        | awaiting admitted n => exact ⟨r, admitted, n, rfl, h⟩
        | _ => exact h.elim
    | _ => exact h.elim
  · rintro ⟨r, admitted, n, rfl, h⟩
    exact h

/-- The answer a waiting process gets by a step of another one is that of the record the
step appends. -/
lemma awaits_other {v : Proc} (hv : v.knows s) (heff : Effect cfg s p s')
    (h : v.awaits s' m) :
    v.awaits s m ∨ s'.marks (cfg.partition m.1) = s.marks (cfg.partition m.1) ++ [m] := by
  obtain ⟨r, admitted, n, rfl, hack, rfl⟩ := Proc.awaits_iff.mp h
  by_cases hold : n ∈ s.acks
  · exact Or.inl ⟨hold, rfl⟩
  · right
    cases heff with
    | @append k x lost hx =>
        have hnk : n = k := by
          dsimp only at hack
          split_ifs at hack
          · exact absurd hack hold
          · exact List.mem_singleton.mp ((List.mem_append.mp hack).resolve_left hold)
        have hxe : x.event = r.task.event := by
          obtain ⟨l₁, l₂, hl, -⟩ := List.lookup_eq_some_iff.mp hx
          refine hv.2.2.1 x ?_
          rw [hl, hnk]
          simp
        simp [Store.marks, Store.log, Store.put, hxe, mark]
    | work ps memory => exact absurd hack hold
    | publish _ x hx => exact absurd hack hold
    | acknowledge _ => exact absurd hack hold

/-- **A new mark has just been published**: behind a step a mark was there before, or its
record is the one the step has appended to the partition of its key. -/
lemma marked_next (hrun : Run (lane cfg) ok (initial cfg) c)
    (hnext : next cfg t c.store (c.procs t) a = some (s', p'))
    (hm : Marked ⟨s', Function.update c.procs t p'⟩ m) :
    Marked c m ∨ s'.marks (cfg.partition m.1) = c.store.marks (cfg.partition m.1) ++ [m] := by
  obtain ⟨hI, hknows⟩ := reachable_lossless hrun
  rcases hm with ⟨owner, hm⟩ | ⟨u, hu⟩
  · rcases next_held hnext hm with hm | ⟨r, admitted, n, hp, hack, -, rfl⟩
    · exact Or.inl (Or.inl ⟨owner, hm⟩)
    · exact Or.inl (Or.inr ⟨t, Proc.awaits_iff.mpr ⟨r, admitted, n, hp, hack, rfl⟩⟩)
  · dsimp only at hu
    by_cases hut : u = t
    · -- a send that begins now has no answer yet
      subst hut
      rw [Function.update_self] at hu
      obtain ⟨r, admitted, n, hp, hack, -⟩ := Proc.awaits_iff.mp hu
      obtain ⟨rfl, hacks⟩ := next_awaiting hnext hp
      rw [hacks] at hack
      exact absurd (hI.acks _ hack) (lt_irrefl _)
    · rw [Function.update_of_ne hut] at hu
      exact (awaits_other (hknows u) (next_effect hnext) hu).imp_left
        fun h => Or.inr ⟨u, h⟩

/-! ### The invariant -/

/-- A record at offset `i` whose mark is still held, or about to be set, stands in the topic
again. -/
def Dealt (c : Config Store Proc) (q i : ℕ) (m : String × String) : Prop :=
  Marked c m → Again (c.store.marks q) i m

/-- The records below the offset are dealt with. -/
def Cleared (c : Config Store Proc) (q n : ℕ) : Prop :=
  Settled (Dealt c q) (c.store.marks q) n

/-- What a consumer of the retry topic knows of its positions, and of the record it is about
to acknowledge. -/
def Proc.clears (c : Config Store Proc) : Proc → Prop
  | .consuming l _ positions => l = .retry → ∀ x ∈ positions, Cleared c x.1 x.2
  | .listening r pc => r.listener = .retry →
      (∀ x ∈ r.positions, Cleared c x.1 x.2) ∧ Cleared c r.task.partition r.task.offset ∧
        (pc = .acknowledge → Dealt c r.task.partition r.task.offset (mark r.task.event))
  | _ => True

/-- The invariant. -/
structure Marks (cfg : Settings) (c : Config Store Proc) : Prop where
  logged : ∀ m, Marked c m → m ∈ c.store.marks (cfg.partition m.1)
  committed : ∀ q, Cleared c q (c.store.committed .retry q)
  procs : ∀ t, (c.procs t).clears c

/-! ### What stays -/

section Stays

variable (hrun : Run (lane cfg) ok (initial cfg) c)
  (hnext : next cfg t c.store (c.procs t) a = some (s', p'))

include hrun hnext

lemma marks_grow (q : ℕ) : c.store.marks q <+: s'.marks q :=
  ((reachable_later hrun hnext).log .retry q).map mark

lemma dealt_next (hat : (c.store.marks q)[i]? = some m) (h : Dealt c q i m) :
    Dealt ⟨s', Function.update c.procs t p'⟩ q i m := by
  intro hm
  rcases marked_next hrun hnext hm with hold | hnew
  · exact (h hold).later (marks_grow hrun hnext q)
  · obtain ⟨hlt, -⟩ := List.getElem?_eq_some_iff.mp hat
    have hq : cfg.partition m.1 = q := by
      obtain ⟨e, he, rfl⟩ := List.mem_map.mp (List.mem_of_getElem? hat)
      exact (reachable_lossless hrun).1.routed q e he
    rw [hq] at hnew
    change Again (s'.marks q) i m
    rw [hnew]
    exact Again.concat hlt m

lemma cleared_next (h : Cleared c q n) : Cleared ⟨s', Function.update c.procs t p'⟩ q n :=
  h.carry (marks_grow hrun hnext q) fun _ _ => dealt_next hrun hnext

omit hnext in
/-- The record of a listener call, by its mark. -/
lemma mark_record {pc : ListenPc} (hp : c.procs u = .listening r pc)
    (hl : r.listener = .retry) :
    (c.store.marks r.task.partition)[r.task.offset]? = some (mark r.task.event) := by
  have hk := (reachable_lossless hrun).2 u
  rw [hp] at hk
  have hrecord := hk.1.record
  rw [hl] at hrecord
  rw [Store.marks, List.getElem?_map, hrecord]
  rfl

lemma clears_other (hq : (c.procs u).clears c) :
    (c.procs u).clears ⟨s', Function.update c.procs t p'⟩ := by
  cases hp : c.procs u with
  | service q => trivial
  | consuming l owner positions =>
      rw [hp] at hq
      exact fun hl x hx => cleared_next hrun hnext (hq hl x hx)
  | listening r pc =>
      rw [hp] at hq
      intro hl
      obtain ⟨hpositions, hoffset, hack⟩ := hq hl
      exact ⟨fun x hx => cleared_next hrun hnext (hpositions x hx),
        cleared_next hrun hnext hoffset,
        fun hpc => dealt_next hrun hnext (mark_record hrun hp hl) (hack hpc)⟩

end Stays

/-! ### The step of a listener -/

/-- The reading is about the same record. -/
structure SameRecord (r r' : Reading) : Prop where
  owner : r'.owner = r.owner
  listener : r'.listener = r.listener
  positions : r'.positions = r.positions
  partition : r'.task.partition = r.task.partition
  offset : r'.task.offset = r.task.offset
  event : r'.task.event = r.task.event

lemma SameRecord.refl (r : Reading) : SameRecord r r := ⟨rfl, rfl, rfl, rfl, rfl, rfl⟩

/-- Where a listener call goes: on with its record, back to its positions, or past its
record. -/
inductive Continues (s : Store) (r : Reading) (jvm : ℤ) (pc : ListenPc) : Proc → Prop
  | goesOn {r' : Reading} {pc' : ListenPc} (hr : SameRecord r r') (hpc : pc' ≠ .acknowledge) :
      Continues s r jvm pc (.listening r' pc')
  | cleared (h : (Proc.listening r pc).clearing (.go jvm) = some r ∨ r.listener = .main) :
      Continues s r jvm pc (.listening r .acknowledge)
  | parked (admitted : Bool) (n : ℕ) (hpc : pc = .awaiting admitted n) (hack : n ∈ s.acks) :
      Continues s r jvm pc (.listening r .acknowledge)
  | leaves : Continues s r jvm pc (.consuming r.listener r.owner r.positions)
  | advances (hpc : pc = .acknowledge) : Continues s r jvm pc
      (.consuming r.listener r.owner ((r.task.partition, r.task.offset + 1) :: r.positions))

lemma listenNext_continues {pc : ListenPc} {jvm : ℤ}
    (h : listenNext cfg t s r jvm pc = some (s', p')) : Continues s r jvm pc p' := by
  cases pc with
  | received =>
      simp only [listenNext, receiveMain, receiveRetry, deliver] at h
      repeat' split at h
      all_goals first
        | cases h
          first
            | exact .goesOn ⟨rfl, rfl, rfl, rfl, rfl, rfl⟩ (by simp)
            | exact .leaves
        | cases h
  | admitting deadline =>
      simp only [listenNext, admitOrPark, deliver] at h
      repeat' split at h
      all_goals
        cases h
        exact .goesOn (.refl r) (by simp)
  | processing admitted q =>
      obtain ⟨ps, q', -, hcase⟩ := processStep_cases h
      cases hcase with
      | returned job hq hq' =>
          subst hq
          refine .cleared ?_
          cases hl : r.listener with
          | main => exact Or.inr rfl
          | retry => exact Or.inl (if_pos hl)
      | failed hq' => exact .goesOn (.refl r) (by simp)
      | goesOn calls hq' => exact .goesOn ⟨rfl, rfl, rfl, rfl, rfl, rfl⟩ (by simp)
  | publishing admitted =>
      cases h
      exact .goesOn ⟨rfl, rfl, rfl, rfl, rfl, rfl⟩ (by simp)
  | awaiting admitted n =>
      simp only [listenNext] at h
      split_ifs at h with hack
      cases h
      exact .parked admitted n rfl hack
  | acknowledge =>
      cases h
      exact .advances rfl

/-- The retry group commits when its listener acknowledges. -/
lemma Effect.committed_retry (h : Effect cfg s p s') (q : ℕ) :
    s'.committed .retry q = s.committed .retry q ∨ ∃ r, p = .listening r .acknowledge ∧
      r.listener = .retry ∧ r.task.partition = q ∧
        s'.committed .retry q = r.task.offset + 1 := by
  cases h with
  | @acknowledge r hp =>
      simp only [Store.commit, Function.update_apply]
      by_cases hl : Listener.retry = r.listener
      · rw [if_pos hl, Function.update_apply]
        split_ifs with hq
        · exact Or.inr ⟨r, hp, hl.symm, hq.symm, rfl⟩
        · rw [← hl]
          exact Or.inl rfl
      · rw [if_neg hl]
        exact Or.inl rfl
  | _ => exact Or.inl rfl

/-! ### The condition -/

/-- When a retry listener has delivered an event, no other instance holds its mark, and no
process has published it and is about to set the mark. -/
def soleMark (c : Config Store Proc) (t : ℕ) (a : Act) : Prop :=
  ∀ r ∈ (c.procs t).clearing a,
    (∀ owner, owner ≠ r.owner → mark r.task.event ∉ (c.store.memory owner).parkedByOrder) ∧
      ∀ u, ¬ (c.procs u).awaits c.store (mark r.task.event)

lemma clearing_eq (h : p.clearing a = some r) : ∃ admitted job jvm,
    p = .listening r (.processing admitted (.delivering job .returned)) ∧ a = .go jvm ∧
      r.listener = .retry := by
  unfold Proc.clearing at h
  split at h
  · rename_i r' admitted job jvm
    split_ifs at h with hl
    cases h
    exact ⟨admitted, job, jvm, rfl, rfl, hl⟩
  · cases h

/-- The listener clears the mark on its own instance. -/
lemma next_clears (h : next cfg t s p a = some (s', p')) (hr : p.clearing a = some r) :
    mark r.task.event ∉ (s'.memory r.owner).parkedByOrder ∧ s'.acks = s.acks ∧
      p' = .listening r .acknowledge := by
  obtain ⟨admitted, job, jvm, rfl, rfl, hl⟩ := clearing_eq hr
  obtain ⟨⟨ps, q'⟩, -, hx⟩ := Option.map_eq_some_iff.mp h
  cases hx
  refine ⟨fun hm => ?_, rfl, rfl⟩
  simp only [Store.setMemory, Function.update_self, hl,
    Memory.parkedByOrder_releaseIf] at hm
  exact (Memory.mem_delivered.mp hm).2 rfl

/-- **A sole delivery leaves no mark.** -/
lemma soleMark.not_marked (hok : soleMark c t a)
    (hnext : next cfg t c.store (c.procs t) a = some (s', p'))
    (hr : (c.procs t).clearing a = some r) :
    ¬ Marked ⟨s', Function.update c.procs t p'⟩ (mark r.task.event) := by
  obtain ⟨hothers, hawaits⟩ := hok r hr
  obtain ⟨hown, hacks, hp'⟩ := next_clears hnext hr
  rintro (⟨owner, hm⟩ | ⟨u, hu⟩)
  · by_cases howner : owner = r.owner
    · exact hown (howner ▸ hm)
    · rcases next_held hnext hm with hm | ⟨r', admitted, n, hp, hack, -, hmark⟩
      · exact hothers owner howner hm
      · exact hawaits t (Proc.awaits_iff.mpr ⟨r', admitted, n, hp, hack, hmark.symm⟩)
  · dsimp only at hu
    by_cases hut : u = t
    · rw [hut, Function.update_self, hp'] at hu
      exact hu
    · rw [Function.update_of_ne hut] at hu
      obtain ⟨r', admitted, n, hp, hack, hmark⟩ := Proc.awaits_iff.mp hu
      rw [hacks] at hack
      exact hawaits u (Proc.awaits_iff.mpr ⟨r', admitted, n, hp, hack, hmark⟩)

/-! ### Every run -/

section Step

variable (hrun : Run (lane cfg) ok (initial cfg) c) (hok : soleMark c t a)
  (hi : Marks cfg c) (hnext : next cfg t c.store (c.procs t) a = some (s', p'))

include hrun hok hi hnext

/-- What a retry listener knows behind its own step. -/
lemma clears_listener {pc : ListenPc} {jvm : ℤ} (hp : c.procs t = .listening r pc)
    (ha : a = .go jvm) (h : Continues c.store r jvm pc p') :
    p'.clears ⟨s', Function.update c.procs t p'⟩ := by
  have hkept := clears_other hrun hnext (hi.procs t)
  rw [hp] at hkept
  have hgrow := marks_grow hrun hnext
  cases h with
  | @goesOn r' pc' hr hpc =>
      intro hl
      rw [hr.listener] at hl
      rw [hr.positions, hr.partition, hr.offset]
      exact ⟨(hkept hl).1, (hkept hl).2.1, fun h => absurd h hpc⟩
  | cleared h =>
      intro hl
      refine ⟨(hkept hl).1, (hkept hl).2.1, fun _ hm => ?_⟩
      rcases h with h | h
      · rw [← hp, ← ha] at h
        exact absurd hm (hok.not_marked hnext h)
      · rw [hl] at h
        cases h
  | parked admitted n hpc hack =>
      intro hl
      refine ⟨(hkept hl).1, (hkept hl).2.1, fun _ _ => ?_⟩
      have hk := (reachable_lossless hrun).2 t
      rw [hp, hpc] at hk
      have hagain := hk.2.2.2 hack
      rw [hl] at hagain
      obtain ⟨j, hj, hat⟩ := hagain
      refine ⟨j, hj, getElem?_of_isPrefix (hgrow _) ?_⟩
      rw [Store.marks, List.getElem?_map, hat]
      rfl
  | leaves => exact fun hl => (hkept hl).1
  | advances hpc =>
      intro hl x hx
      obtain ⟨hpositions, hoffset, hack⟩ := hkept hl
      have hat := getElem?_of_isPrefix (hgrow _) (mark_record hrun hp hl)
      rcases List.mem_cons.mp hx with rfl | hx
      · exact hoffset.advance hat (hack hpc)
      · exact hpositions x hx

/-- What a process knows behind its own step. -/
lemma clears_own : p'.clears ⟨s', Function.update c.procs t p'⟩ := by
  have hkept := clears_other hrun hnext (hi.procs t)
  have hmove := next_move hnext
  have hcommitted := fun q => cleared_next hrun hnext (hi.committed q)
  generalize hp : c.procs t = p at hmove hkept
  cases hmove with
  | listen l owner => exact fun _ x hx => absurd hx List.not_mem_nil
  | assign l owner positions q =>
      intro hl x hx
      rcases List.mem_cons.mp hx with rfl | hx
      · subst hl
        exact hcommitted q
      · exact hkept hl x hx
  | revoke l owner positions q => exact fun hl x hx => hkept hl x (List.mem_filter.mp hx).1
  | @take l owner positions q n r hn hr =>
      intro hl
      cases l with
      | main =>
          obtain ⟨e, -, rfl⟩ := Option.map_eq_some_iff.mp hr
          cases hl
      | retry =>
          obtain ⟨x, -, rfl⟩ := Option.map_eq_some_iff.mp hr
          obtain ⟨l₁, l₂, hl, -⟩ := List.lookup_eq_some_iff.mp hn
          have hmem : (q, n) ∈ positions := by
            rw [hl]
            simp
          exact ⟨hkept rfl, hkept rfl (q, n) hmem, fun h => by cases h⟩
  | listener hlisten =>
      exact clears_listener hrun hok hi hnext hp rfl (listenNext_continues hlisten)
  | throw r pc =>
      cases pc with
      | processing admitted q =>
          exact fun hl => ⟨(hkept hl).1, (hkept hl).2.1, fun h => by cases h⟩
      | _ => exact fun hl => (hkept hl).1
  | _ => trivial

/-- Every step keeps the invariant. -/
lemma Marks.step : Marks cfg ⟨s', Function.update c.procs t p'⟩ := by
  refine ⟨fun m hm => ?_, fun q => ?_, fun u => ?_⟩
  · rcases marked_next hrun hnext hm with hold | hnew
    · exact (marks_grow hrun hnext _).subset (hi.logged m hold)
    · change m ∈ s'.marks _
      rw [hnew]
      exact List.mem_append_right _ (List.mem_singleton_self m)
  · change Cleared _ q (s'.committed .retry q)
    rcases (next_effect hnext).committed_retry q with heq | ⟨r, hp, hl, rfl, heq⟩
    · rw [heq]
      exact cleared_next hrun hnext (hi.committed q)
    · have hclears := clears_other hrun hnext (hi.procs t)
      rw [hp] at hclears
      obtain ⟨-, hoffset, hack⟩ := hclears hl
      rw [heq]
      exact hoffset.advance (getElem?_of_isPrefix (marks_grow hrun hnext _)
        (mark_record hrun hp hl)) (hack rfl)
  · by_cases hut : u = t
    · subst hut
      dsimp only
      rw [Function.update_self]
      exact clears_own hrun hok hi hnext
    · dsimp only
      rw [Function.update_of_ne hut]
      exact clears_other hrun hnext (hi.procs u)

end Step

/-- The invariant holds in every run whose deliveries are sole. -/
theorem reachable_marks (h : Run (lane cfg) soleMark (initial cfg) c) : Marks cfg c := by
  induction h with
  | nil =>
      refine ⟨fun m hm => ?_, fun q => Settled.zero, fun t => trivial⟩
      rcases hm with ⟨owner, hm⟩ | ⟨t, ht⟩
      · cases hm
      · exact ht.elim
  | snoc hrun hok hstep ih =>
      obtain ⟨s', p', hnext, rfl⟩ := (lane cfg).step_eq_some hstep
      exact ih.step hrun hok hnext

/-- **Marks end with the parked work**, in every run in which no mark of an event is held
elsewhere, or about to be set, when a retry listener has delivered it. -/
theorem marks_end (h : Run (lane cfg) soleMark (initial cfg) c) : MarksEnd c := by
  intro key hrecords _ owner
  have hi := reachable_marks h
  by_contra hparked
  obtain ⟨m, hm, hkey⟩ : ∃ m ∈ (c.store.memory owner).parkedByOrder, m.1 = key := by
    simpa [Memory.hasParked] using hparked
  have hmarked : Marked c m := Or.inl ⟨owner, hm⟩
  have hsettled := (hi.committed (cfg.partition m.1)).later (List.prefix_refl _)
    fun i x hx => not_or_of_imp hx
  obtain ⟨j, hj, hat⟩ := remains hsettled (hi.logged m hmarked) (not_not.mpr hmarked)
  rw [Store.marks, Store.log, List.map_map, List.getElem?_map] at hat
  obtain ⟨r, hr, rfl⟩ := Option.map_eq_some_iff.mp hat
  exact hrecords _ j r hj hr hkey

/-! ### One instance -/

/-- The process works for the instance. -/
def Proc.of (owner : String) : Proc → Prop
  | .consuming _ o _ => o = owner
  | .listening r _ => r.owner = owner
  | _ => True

/-- The instance whose listener an action starts. -/
def Act.owner : Act → Option String
  | .listen _ owner => some owner
  | _ => none

lemma next_of {owner : String} (h : next cfg t s p a = some (s', p')) (hp : p.of owner)
    (ha : ∀ o ∈ a.owner, o = owner) : p'.of owner := by
  cases next_move h with
  | listen l o => exact ha o rfl
  | assign l o positions q => exact hp
  | revoke l o positions q => exact hp
  | @take l o positions q n r hn hr =>
      cases l <;> obtain ⟨x, -, rfl⟩ := Option.map_eq_some_iff.mp hr <;> exact hp
  | listener hlisten =>
      cases listenNext_continues hlisten with
      | goesOn hr hpc => exact hr.owner.trans hp
      | _ => exact hp
  | throw r pc => cases pc <;> exact hp
  | _ => trivial

/-- One instance with four processes, and no park of an event is about to set its mark when
a retry listener has delivered the event. -/
def oneInstance (owner : String) (c : Config Store Proc) (t : ℕ) (a : Act) : Prop :=
  t < 4 ∧ (∀ o ∈ a.owner, o = owner) ∧ ∀ r ∈ (c.procs t).clearing a, ∀ u < 4,
    ¬ (c.procs u).awaits c.store (mark r.task.event)

instance (s : Store) (m : String × String) (p : Proc) : Decidable (p.awaits s m) :=
  match p with
  | .listening r (.awaiting _ n) => inferInstanceAs (Decidable (n ∈ s.acks ∧ mark r.task.event = m))
  | .listening _ .received | .listening _ (.admitting _) | .listening _ (.processing _ _)
  | .listening _ (.publishing _) | .listening _ .acknowledge | .consuming _ _ _
  | .service _ => isFalse id

instance (owner : String) (c : Config Store Proc) (t : ℕ) (a : Act) :
    Decidable (oneInstance owner c t a) :=
  inferInstanceAs (Decidable (_ ∧ (∀ o ∈ a.owner, _) ∧ ∀ r ∈ (c.procs t).clearing a, _))

/-- The other instances have no marks and no listeners. -/
lemma reachable_oneInstance {owner : String}
    (h : Run (lane cfg) (oneInstance owner) (initial cfg) c) :
    (∀ o ≠ owner, (c.store.memory o).parkedByOrder = []) ∧ ∀ t, (c.procs t).of owner := by
  refine Run.invariant (I := fun s => ∀ o ≠ owner, (s.memory o).parkedByOrder = [])
    (J := fun _ _ p => p.of owner) (K := fun _ => True) (fun _ _ => trivial)
    ⟨fun _ _ => rfl, fun _ => trivial⟩ ?_ (fun _ _ _ _ _ u _ _ _ hp _ _ => hp u) h
  intro c t a s' p' _ hok hI hp hnext
  refine ⟨fun o ho => List.eq_nil_iff_forall_not_mem.mpr fun m hm => ?_,
    next_of hnext (hp t) hok.2.1⟩
  rcases next_held hnext hm with hm | ⟨r, admitted, n, hproc, -, rfl, -⟩
  · rw [hI o ho] at hm
    cases hm
  · have hof := hp t
    rw [hproc] at hof
    exact ho hof

/-- With one instance only the parks of its own processes matter. -/
lemma run_oneInstance {owner : String} (h : Run (lane cfg) (oneInstance owner) (initial cfg) c) :
    Run (lane cfg) soleMark (initial cfg) c := by
  refine h.mono_of (fun _ h => h) fun c c' t a hrun hok _ r hr => ?_
  obtain ⟨hmemory, hof⟩ := reachable_oneInstance hrun
  constructor
  · intro o ho hm
    obtain ⟨admitted, job, jvm, hp, -⟩ := clearing_eq hr
    have howner := hof t
    rw [hp] at howner
    have ho' : o ≠ owner := fun heq => ho (heq.trans (Eq.symm howner))
    rw [hmemory o ho'] at hm
    cases hm
  · intro u hu
    rcases Nat.lt_or_ge u 4 with hlt | hge
    · exact hok.2.2 r hr u hlt hu
    · have hidle : c.procs u = .service .idle := (hrun.mono fun _ _ _ h => h.1).procs_eq hge
      rw [hidle] at hu
      exact hu

/-- The retry listener, process 2, reads the parked record and its call succeeds; `k` steps
behind the answer. -/
def redelivery (e : PartnerOrderEvent) (k : ℕ) : List (ℕ × Act) :=
  [(2, .listen .retry "w"), (2, .assign 0), (2, .take 0)] ++ List.replicate 4 (2, .go 0) ++
    (3, .service (.serve ⟨0, e⟩ false false)) :: List.replicate k (2, .go 0)

/-- A park is completed, and its record is delivered. -/
theorem marks_end_redelivered :
    ∃ c, Run (lane sampleSettings) soleMark (initial sampleSettings) c ∧ MarksEnd c ∧
      (c.store.committed .retry 0, (c.store.retryTopic 0).length,
        (c.store.memory "w").parkedByOrder) = (1, 1, []) := by
  obtain ⟨c, hrun, hc⟩ := Run.exists_of_exec (lane sampleSettings) (oneInstance "w")
    (initial sampleSettings)
    ((0, .service (.produce 0 (Partner.sampleEvent "e" 1))) :: parking 1 0 .main ++
      redelivery (Partner.sampleEvent "e" 1) 10)
    (fun c => (c.store.committed .retry 0, (c.store.retryTopic 0).length,
      (c.store.memory "w").parkedByOrder)) (1, 1, []) (by decide +kernel)
  exact ⟨c, run_oneInstance hrun, marks_end (run_oneInstance hrun), hc⟩

/-- The retry listener delivers the record before the main listener, whose send was
acknowledged, sets the mark. -/
theorem mark_left_behind :
    ¬ ∀ cfg c, Run (lane cfg) (fun _ _ _ => True) (initial cfg) c → MarksEnd c := by
  intro hall
  obtain ⟨c, hrun, hc⟩ := Run.exists_of_exec (lane sampleSettings) (fun _ t _ => t < 4)
    (initial sampleSettings)
    ((0, .service (.produce 0 (Partner.sampleEvent "e" 1))) :: (parking 1 0 .main).take 7 ++
      redelivery (Partner.sampleEvent "e" 1) 10 ++ [(1, .go 0), (1, .go 0)])
    (fun c => (c.store.committed .retry 0, (c.store.retryTopic 0).length,
      (c.store.memory "w").hasParked (Partner.sampleEvent "e" 1).key, (List.range 4).map c.procs))
    (1, 1, true, [.service .idle, .consuming .main "w" [(0, 1), (0, 0)],
      .consuming .retry "w" [(0, 1), (0, 0)], .service .idle]) (by decide +kernel)
  simp only [Prod.mk.injEq] at hc
  obtain ⟨hcommitted, hlength, hparked, hprocs⟩ := hc
  have hall' : Run (lane sampleSettings) (fun _ _ _ => True) (initial sampleSettings) c :=
    hrun.mono fun _ _ _ _ => trivial
  have hends := hall _ c hall' (Partner.sampleEvent "e" 1).key ?_ ?_ "w"
  · rw [hparked] at hends
    cases hends
  · intro q i r hi hr _
    -- the topic has one partition
    have hq : 0 = q := (reachable_lossless hall').1.routed q r.event
      (List.mem_map_of_mem (List.mem_of_getElem? hr))
    subst hq
    obtain ⟨hlt, -⟩ := List.getElem?_eq_some_iff.mp hr
    omega
  · intro t ht
    rcases Nat.lt_or_ge t 4 with hlt | hge
    · have hat : ((List.range 4).map c.procs)[t]? = some (c.procs t) := by
        simp [List.getElem?_range hlt]
      rw [hprocs] at hat
      interval_cases t
      all_goals
        rw [← Option.some.inj hat] at ht
        exact ht
    · have hidle : c.procs t = .service .idle := hrun.procs_eq hge
      rw [hidle] at ht
      exact ht

end OrderSystem.RetryLane
