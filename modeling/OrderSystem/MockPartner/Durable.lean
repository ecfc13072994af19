/-
A success answer of the seller's mock and the rows behind it.

A repeated request is answered from memory. Memory is ahead of the file while the
records of the first request wait, and stays ahead when their group is rolled back.

* `success_not_durable`: the group of the first request fails, the client sends the
  request again, and it is answered 200 with no row in `effects`.
* `orderly`: the records of a repeated request are put on the queue behind those of the
  effect it repeats, and no group fails while the records of a repetition of one of its
  effects wait behind it.
* `success_is_durable`: in every orderly run an event that was answered 200 has its row
  in the committed file, after every later step and restart.
-/
import OrderSystem.MockPartner.Server

namespace OrderSystem.MockPartner

open Interleaving

variable {t : ℕ} {s s' : Store} {p p' : Proc} {a : Act} {e : String}

/-! ### The property -/

/-- The row of the event is committed. -/
def File.has (f : File) (e : String) : Prop :=
  ∃ r ∈ f.effects, r.event.eventId = e

instance (f : File) (e : String) : Decidable (f.has e) :=
  inferInstanceAs (Decidable (∃ r ∈ f.effects, _))

/-- Every success answer has its row in the file. -/
def Durable (s : Store) : Prop :=
  ∀ e, (e, .ok200) ∈ s.answered → s.file.has e

/-- A request for the first operation of an order. -/
def sampleEvent : PartnerOrderEvent :=
  ⟨"e1", "run", "S", 7, 1, .create, 1, 1, 2, ⟨0⟩, none⟩

/-- A request up to the moment it waits for its group. -/
def posting (t : ℕ) : List (ℕ × Act) :=
  (t, .post "e1" sampleEvent {}) :: List.replicate 4 (t, .go)

/-- The writer takes what is queued and commits it, or fails. -/
def group (items : ℕ) (fails : Bool) : List (ℕ × Act) :=
  List.replicate (items + 1) (0, .collect) ++ [(0, .commit fails), (0, .signal)]

/-- The group of the first request is rolled back; the request is repeated. -/
theorem success_not_durable :
    ¬ ∀ c, Run server (fun _ _ _ => True) initial c → Durable c.store := by
  intro h
  obtain ⟨c, hrun, hc⟩ := Run.exists_of_exec server (fun _ _ _ => True) initial
    (posting 1 ++ group 2 true ++ (1, .go) :: posting 2 ++ group 2 false ++ [(2, .go)])
    (fun c => (c.store.answered, c.store.file.effects)) ([("e1", .ok200)], []) (by decide +kernel)
  obtain ⟨hanswered, heffects⟩ := Prod.mk.inj hc
  obtain ⟨r, hr, -⟩ := h c hrun "e1" (by rw [hanswered]; simp)
  rw [heffects] at hr
  cases hr

/-! ### The condition -/

/-- The event whose effect a statement inserts. -/
def Statement.effect : Statement → Option String
  | .insertEffect _ event => some event.eventId
  | _ => none

/-- The item inserts the effect of the event. -/
def Item.inserts (i : Item) (e : String) : Prop :=
  e ∈ i.statements.filterMap Statement.effect

/-- The item releases a success answer for an effect it does not insert itself. -/
def Item.repeats (i : Item) : Prop :=
  i.status = some .ok200 ∧ ¬ i.inserts i.eventId

instance (i : Item) (e : String) : Decidable (i.inserts e) :=
  inferInstanceAs (Decidable (_ ∈ _))

instance (i : Item) : Decidable i.repeats :=
  inferInstanceAs (Decidable (_ ∧ _))

/-- The items the writer has taken and not committed. -/
def Writer.batch : Writer → List Item
  | .collecting batch | .writing batch => batch
  | _ => []

/-- The items that are not committed, in the order they will be. -/
def Store.pending (s : Store) : List Item :=
  s.writer.batch ++ s.queue

/-- The item a step puts on the queue with the outcome of a request. -/
def outcome (s : Store) : Proc → Act → Option Item
  | .handling _ data _ (.enqueue statements status _), .go =>
      some ⟨s.nextItem, statements, data.eventId, some status⟩
  | _, _ => none

/-- The items of the group a step rolls back. -/
def rolledBack (s : Store) : Act → List Item
  | .commit fails =>
      match s.writer with
      | .writing batch => if (s.committed batch fails).isNone then batch else []
      | _ => []
  | _ => []

/-- A repetition is put on the queue only behind the effect it repeats, and no group
fails while a repetition of one of its effects waits behind it. -/
def orderly (c : Config Store Proc) (t : ℕ) (a : Act) : Prop :=
  (∀ i ∈ outcome c.store (c.procs t) a, i.repeats →
    c.store.file.has i.eventId ∨ ∃ j ∈ c.store.pending, j.inserts i.eventId) ∧
  ∀ i ∈ c.store.queue, i.repeats →
    c.store.file.has i.eventId ∨ ∀ j ∈ rolledBack c.store a, ¬ j.inserts i.eventId

instance (c : Config Store Proc) (t : ℕ) (a : Act) : Decidable (orderly c t a) :=
  inferInstanceAs (Decidable ((∀ i ∈ outcome c.store (c.procs t) a, _) ∧ ∀ i ∈ c.store.queue, _))

/-! ### The statements of a group -/

/-- A statement keeps the rows of `effects` and adds its own. -/
lemma execute_has {f f' : File} {x : Statement} (h : x.execute f = some f')
    (he : f.has e ∨ x.effect = some e) : f'.has e := by
  cases x with
  | insertEffect index event =>
      simp only [Statement.execute] at h
      split_ifs at h
      cases h
      rcases he with ⟨r, hr, hre⟩ | he
      · exact ⟨r, List.mem_append_left _ hr, hre⟩
      · exact ⟨⟨index, event⟩, by simp, Option.some.inj he⟩
  | insertAttempt id eventId =>
      simp only [Statement.execute] at h
      split_ifs at h
      cases h
      exact he.resolve_right (by simp [Statement.effect])
  | upsertOrder event =>
      cases h
      exact he.resolve_right (by simp [Statement.effect])
  | updateAttempt id status lost =>
      cases h
      exact he.resolve_right (by simp [Statement.effect])

lemma executeAll_has {statements : List Statement} : ∀ {f f' : File},
    executeAll f statements = some f' →
    (f.has e ∨ e ∈ statements.filterMap Statement.effect) → f'.has e := by
  induction statements with
  | nil =>
      intro f f' h he
      cases h
      exact he.resolve_right (by simp)
  | cons x statements ih =>
      intro f f' h he
      rw [executeAll, List.foldlM_cons] at h
      obtain ⟨f₁, hx, hrest⟩ := Option.bind_eq_some_iff.mp h
      refine ih hrest ?_
      rcases he with he | he
      · exact Or.inl (execute_has hx (Or.inl he))
      · rw [List.filterMap_cons] at he
        cases heff : x.effect with
        | none =>
            rw [heff] at he
            exact Or.inr he
        | some e' =>
            rw [heff] at he
            rcases List.mem_cons.mp he with rfl | he
            · exact Or.inl (execute_has hx (Or.inr heff))
            · exact Or.inr he

/-- A committed group keeps the rows and brings its own. -/
lemma committed_has {batch : List Item} {fails : Bool} {f' : File}
    (h : s.committed batch fails = some f')
    (he : s.file.has e ∨ ∃ j ∈ batch, j.inserts e) : f'.has e := by
  unfold Store.committed at h
  split_ifs at h
  refine executeAll_has h (he.imp_right fun ⟨j, hj, hje⟩ => ?_)
  obtain ⟨x, hx, hxe⟩ := List.mem_filterMap.mp hje
  exact List.mem_filterMap.mpr ⟨x, List.mem_flatMap.mpr ⟨j, hj, hx⟩, hxe⟩

/-! ### The invariant -/

/-- Every repetition has the effect it repeats in the file or in front of it, and what
was signalled or answered as a success is in the file. -/
structure Backed (s : Store) : Prop where
  pending : ∀ pre i post, s.pending = pre ++ i :: post → i.repeats →
    s.file.has i.eventId ∨ ∃ j ∈ pre, j.inserts i.eventId
  signalling : ∀ batch, s.writer = .signalling batch true → ∀ i ∈ batch,
    i.status = some .ok200 → s.file.has i.eventId
  done : ∀ i, (i, true) ∈ s.done → i.status = some .ok200 → s.file.has i.eventId
  answered : Durable s

/-- A handler waits for the item with its own event and status. -/
def Proc.waits : Proc → Prop
  | .handling _ data _ (.wait item status _) =>
      item.eventId = data.eventId ∧ item.status = some status
  | _ => True

/-- An item joins the queue. -/
lemma Backed.put (h : Backed s) {item : Item}
    (hitem : item.repeats → s.file.has item.eventId ∨ ∃ j ∈ s.pending, j.inserts item.eventId) :
    Backed (s.put item) := by
  refine ⟨fun pre i post hsplit hrep => ?_, h.signalling, h.done, h.answered⟩
  have hlist : s.pending ++ [item] = pre ++ i :: post := by
    rw [← hsplit, Store.pending, Store.pending, Store.put, List.append_assoc]
  rcases List.append_eq_append_iff.mp hlist with ⟨mid, hpre, hmid⟩ | ⟨mid, hold, hmid⟩
  · -- the new item
    cases mid with
    | nil =>
        rw [List.append_nil] at hpre
        obtain ⟨rfl, -⟩ := List.cons.inj hmid
        rw [hpre]
        exact hitem hrep
    | cons x mid => simp at hmid
  · cases mid with
    | nil =>
        rw [List.append_nil] at hold
        rw [List.nil_append] at hmid
        obtain ⟨rfl, -⟩ := List.cons.inj hmid
        rw [← hold]
        exact hitem hrep
    | cons x mid =>
        obtain ⟨rfl, -⟩ := List.cons.inj hmid
        exact h.pending pre i mid hold hrep

/-- The writer takes items: the order of what is pending stays. -/
lemma Backed.collect (h : Backed s) (hs : collect s = some s') : Backed s' := by
  have hsame : s'.pending = s.pending ∧ s'.file = s.file ∧ s'.done = s.done ∧
      s'.answered = s.answered ∧ ∀ batch, s'.writer ≠ .signalling batch true := by
    unfold MockPartner.collect at hs
    split at hs <;> try split_ifs at hs
    all_goals cases hs
    all_goals simp_all [Store.pending, Writer.batch]
  obtain ⟨hpending, hfile, hdone, hanswered, hwriter⟩ := hsame
  refine ⟨?_, fun batch hb => absurd hb (hwriter batch), ?_, ?_⟩
  · rw [hpending, hfile]
    exact h.pending
  · rw [hdone, hfile]
    exact h.done
  · unfold Durable
    rw [hanswered, hfile]
    exact h.answered

/-- A group is committed: its effects reach the file before its handlers are told. -/
lemma Backed.committed (h : Backed s) {batch : List Item} {fails : Bool} {file : File}
    (hw : s.writer = .writing batch) (hfile : s.committed batch fails = some file) :
    Backed { s with file := file, writer := .signalling batch true } := by
  have hkeep : ∀ e, s.file.has e → file.has e := fun e he => committed_has hfile (Or.inl he)
  have hbatch : ∀ e, (∃ j ∈ batch, j.inserts e) → file.has e :=
    fun e he => committed_has hfile (Or.inr he)
  have hpending : s.pending = batch ++ s.queue := by rw [Store.pending, hw, Writer.batch]
  refine ⟨fun pre i post hsplit hrep => ?_, fun b hb i hi hok => ?_,
    fun i hi hok => hkeep _ (h.done i hi hok), fun e he => hkeep e (h.answered e he)⟩
  · have hqueue : s.queue = pre ++ i :: post := hsplit
    have hold := h.pending (batch ++ pre) i post
      (by rw [hpending, hqueue, List.append_assoc]) hrep
    rcases hold with hhas | ⟨j, hj, hins⟩
    · exact Or.inl (hkeep _ hhas)
    · rcases List.mem_append.mp hj with hj | hj
      · exact Or.inl (hbatch _ ⟨j, hj, hins⟩)
      · exact Or.inr ⟨j, hj, hins⟩
  · obtain rfl : batch = b := (Writer.signalling.inj hb).1
    by_cases hins : i.inserts i.eventId
    · exact hbatch _ ⟨i, hi, hins⟩
    · obtain ⟨pre, post, rfl⟩ := List.append_of_mem hi
      rcases h.pending pre i (post ++ s.queue) (by rw [hpending, List.append_assoc]; rfl)
        ⟨hok, hins⟩ with hhas | ⟨j, hj, hins⟩
      · exact hkeep _ hhas
      · exact hbatch _ ⟨j, List.mem_append_left _ hj, hins⟩

/-- A group is rolled back: nothing behind it repeats its effects. -/
lemma Backed.rolledBack (h : Backed s) {batch : List Item} (hw : s.writer = .writing batch)
    (hok : ∀ i ∈ s.queue, i.repeats →
      s.file.has i.eventId ∨ ∀ j ∈ batch, ¬ j.inserts i.eventId) :
    Backed { s with writer := .signalling batch false } := by
  refine ⟨fun pre i post hsplit hrep => ?_, fun b hb => by simp at hb, h.done, h.answered⟩
  have hqueue : s.queue = pre ++ i :: post := hsplit
  have hold := h.pending (batch ++ pre) i post
    (by rw [Store.pending, hw, Writer.batch, hqueue, List.append_assoc]) hrep
  rcases hold with hhas | ⟨j, hj, hins⟩
  · exact Or.inl hhas
  · rcases List.mem_append.mp hj with hj | hj
    · rcases hok i (by rw [hqueue]; simp) hrep with hhas | hnone
      · exact Or.inl hhas
      · exact absurd hins (hnone j hj)
    · exact Or.inr ⟨j, hj, hins⟩

lemma Backed.commit (h : Backed s) {fails : Bool}
    (hok : ∀ i ∈ s.queue, i.repeats → s.file.has i.eventId ∨
      ∀ j ∈ MockPartner.rolledBack s (.commit fails), ¬ j.inserts i.eventId)
    (hs : commit s fails = some s') : Backed s' := by
  unfold MockPartner.commit at hs
  split at hs
  · rename_i batch hw
    split at hs
    · rename_i file hfile
      cases hs
      exact h.committed hw hfile
    · rename_i hnone
      cases hs
      refine h.rolledBack hw ?_
      simpa [MockPartner.rolledBack, hw, hnone] using hok
  · cases hs

lemma Backed.signal (h : Backed s) (hs : signal s = some s') : Backed s' := by
  unfold MockPartner.signal at hs
  split at hs
  · rename_i batch committed hw
    cases hs
    have hqueue : s.pending = s.queue := by simp [Store.pending, hw, Writer.batch]
    refine ⟨fun pre i post hsplit => h.pending pre i post (hqueue.trans hsplit),
      fun b hb => by simp at hb, fun i hi hok => ?_, h.answered⟩
    rcases List.mem_append.mp hi with hi | hi
    · exact h.done i hi hok
    · obtain ⟨j, hj, heq⟩ := List.mem_map.mp hi
      obtain ⟨rfl, rfl⟩ := Prod.mk.inj heq
      exact h.signalling batch hw j hj hok
  · cases hs

/-- A restart forgets everything but the file and what was answered. -/
lemma Backed.crash (h : Backed s) : Backed s.crash :=
  ⟨fun pre i post hsplit => by simp [Store.crash, Store.pending, Writer.batch] at hsplit,
    fun b hb => by simp [Store.crash] at hb, fun i hi => (List.not_mem_nil hi).elim, h.answered⟩

/-- A step of a handler. -/
lemma handleNext_backed {epoch : ℕ} {data : PartnerOrderEvent} {policy : Policy} {pc : Pc}
    (h : Backed s) (hp : (Proc.handling epoch data policy pc).waits)
    (hok : ∀ i ∈ outcome s (.handling epoch data policy pc) .go, i.repeats →
      s.file.has i.eventId ∨ ∃ j ∈ s.pending, j.inserts i.eventId)
    (hs : handleNext s epoch data policy pc = some (s', p')) : Backed s' ∧ p'.waits := by
  cases pc with
  | firstSection =>
      cases hs
      exact ⟨⟨h.pending, h.signalling, h.done, h.answered⟩, trivial⟩
  | enqueueStart count attempt =>
      cases hs
      exact ⟨h.put fun hrep => by simp [Item.repeats] at hrep, trivial⟩
  | secondSection count attempt =>
      cases hs
      exact ⟨⟨h.pending, h.signalling, h.done, h.answered⟩, trivial⟩
  | enqueue statements status dropped =>
      cases hs
      exact ⟨h.put (hok _ rfl), rfl, rfl⟩
  | wait item status dropped =>
      obtain ⟨hevent, hstatus⟩ := hp
      simp only [handleNext] at hs
      split_ifs at hs with hdone <;> cases hs
      · exact ⟨h, trivial⟩
      · refine ⟨⟨h.pending, h.signalling, h.done, fun e he => ?_⟩, trivial⟩
        rcases List.mem_append.mp he with he | he
        · exact h.answered e he
        · obtain ⟨rfl, rfl⟩ := Prod.mk.inj (List.mem_singleton.mp he)
          rw [← hevent]
          exact h.done item hdone hstatus
      · exact ⟨h, trivial⟩

/-- **A success answer means a durable effect**, in every run in which the records of a
repeated request are queued behind those of the effect it repeats and no group
fails in front of a repetition of its effects. -/
theorem success_is_durable {c : Config Store Proc} (h : Run server orderly initial c) :
    Durable c.store := by
  refine (Run.invariant (I := Backed) (J := fun _ _ p => p.waits) (K := fun _ => True)
    (fun _ _ => trivial) ?_ ?_ ?_ h).1.answered
  · refine ⟨⟨fun pre i post hsplit => ?_, fun b hb => by simp [initial] at hb,
      fun i hi => (List.not_mem_nil hi).elim, fun e he => (List.not_mem_nil he).elim⟩,
      fun _ => trivial⟩
    simp [initial, Store.pending, Writer.batch] at hsplit
  · intro c t a s' p' _ hok hI hJ hnext
    obtain ⟨hput, hfail⟩ := hok
    have hp := hJ t
    have hnext : next t c.store (c.procs t) a = some (s', p') := hnext
    cases hproc : c.procs t with
    | handling epoch data policy pc =>
        rw [hproc] at hnext hp hput
        cases a with
        | go =>
            simp only [next] at hnext
            split_ifs at hnext
            exact handleNext_backed hI hp hput hnext
        | _ => cases hnext
    | idle =>
        rw [hproc] at hnext
        cases a with
        | post key data policy =>
            simp only [next] at hnext
            split_ifs at hnext <;> cases hnext
            · refine ⟨⟨hI.pending, hI.signalling, hI.done, fun e he => ?_⟩, trivial⟩
              rcases List.mem_append.mp he with he | he
              · exact hI.answered e he
              · simp at he
            · exact ⟨hI, trivial⟩
        | collect =>
            obtain ⟨s₁, hs, h⟩ := Option.map_eq_some_iff.mp hnext
            cases h
            exact ⟨hI.collect hs, trivial⟩
        | commit fails =>
            obtain ⟨s₁, hs, h⟩ := Option.map_eq_some_iff.mp hnext
            cases h
            exact ⟨hI.commit hfail hs, trivial⟩
        | signal =>
            obtain ⟨s₁, hs, h⟩ := Option.map_eq_some_iff.mp hnext
            cases h
            exact ⟨hI.signal hs, trivial⟩
        | crash =>
            cases hnext
            exact ⟨hI.crash, trivial⟩
        | go => cases hnext
  · intro c t a s' p' u _ _ _ hJ _ _
    exact hJ u

/-- Two requests for one event in one group, an answer for each, and a restart. -/
theorem success_is_durable_after_restart :
    ∃ c, Run server orderly initial c ∧
      (c.store.answered, c.store.epoch) = ([("e1", .ok200), ("e1", .ok200)], 1) ∧
      Durable c.store := by
  obtain ⟨c, hrun, hc⟩ := Run.exists_of_exec server orderly initial
    (posting 1 ++ posting 2 ++ group 4 false ++ [(1, .go), (2, .go), (0, .crash)])
    (fun c => (c.store.answered, c.store.epoch)) ([("e1", .ok200), ("e1", .ok200)], 1)
    (by decide +kernel)
  exact ⟨c, hrun, hc, success_is_durable hrun⟩

end OrderSystem.MockPartner
