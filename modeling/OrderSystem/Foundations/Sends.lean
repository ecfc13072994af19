/-
A producer that hands records to a broker and waits for the answers.

A record that was handed over is in flight under a number of its own, until the broker appends it
to its log; the answer may be lost, and a record may stay in flight for ever.

* `Broker.send`, `Broker.append`: the two steps.
* `Broker.Sound`: every record in flight or in the log satisfies `P`.
* `Handed`: the number stands for the record, so an answer says that this record is in the log.
* `InOrder`: the log keeps the order of the rows its records come from. It is kept when a record
  is sent only after the rows before it are in the log (`Ready`, `Sendable`), however often it is
  sent and however late it is appended.
-/
import Mathlib.Tactic

namespace Sends

/-- The records in flight, the answers, and the log. -/
structure Broker (α : Type) where
  inFlight : List (ℕ × α) := []
  nextSend : ℕ := 0
  acked : List ℕ := []
  log : List α := []
  deriving DecidableEq, Repr

variable {α : Type} {P Q : α → Prop} {b b' : Broker α} {n m : ℕ} {r : α} {lost : Bool}

namespace Broker

/-- A record is handed over. -/
def send (r : α) (b : Broker α) : Broker α :=
  { b with inFlight := b.inFlight ++ [(b.nextSend, r)], nextSend := b.nextSend + 1 }

/-- The record that is appended for a number. -/
def record (n : ℕ) (b : Broker α) : Option α :=
  b.inFlight.lookup n

/-- A record in flight is appended; its answer may be lost. -/
def append (n : ℕ) (lost : Bool) (b : Broker α) : Option (Broker α) :=
  (b.record n).map fun r =>
    { b with
      inFlight := b.inFlight.filter fun x => x.1 ≠ n
      acked := if lost then b.acked else b.acked ++ [n]
      log := b.log ++ [r] }

lemma mem_of_record (h : b.record n = some r) : (n, r) ∈ b.inFlight := by
  obtain ⟨l₁, l₂, hl, -⟩ := List.lookup_eq_some_iff.mp h
  rw [hl]
  exact List.mem_append_right _ List.mem_cons_self

/-- Numbers are new, answers belong to numbers that were used, and all records satisfy `P`. -/
structure Sound (P : α → Prop) (b : Broker α) : Prop where
  flight : ∀ x ∈ b.inFlight, x.1 < b.nextSend ∧ P x.2
  acked : ∀ n ∈ b.acked, n < b.nextSend
  log : ∀ r ∈ b.log, P r

lemma sound_empty : ({} : Broker α).Sound P :=
  ⟨by simp, by simp, by simp⟩

lemma Sound.mono (h : b.Sound P) (hPQ : ∀ r, P r → Q r) : b.Sound Q :=
  ⟨fun x hx => ⟨(h.flight x hx).1, hPQ _ (h.flight x hx).2⟩, h.acked,
    fun r hr => hPQ r (h.log r hr)⟩

lemma Sound.send (h : b.Sound P) (hr : P r) : (b.send r).Sound P := by
  refine ⟨fun x hx => ?_, fun n hn => Nat.lt_succ_of_lt (h.acked n hn), h.log⟩
  rcases List.mem_append.mp hx with hx | hx
  · exact ⟨Nat.lt_succ_of_lt (h.flight x hx).1, (h.flight x hx).2⟩
  · rw [List.mem_singleton.mp hx]
    exact ⟨Nat.lt_succ_self _, hr⟩

lemma Sound.append (h : b.Sound P) (happ : b.append n lost = some b') : b'.Sound P := by
  obtain ⟨r, hr, rfl⟩ := Option.map_eq_some_iff.mp happ
  have hmem := h.flight _ (mem_of_record hr)
  refine ⟨fun x hx => h.flight x (List.mem_filter.mp hx).1, fun m hm => ?_, fun x hx => ?_⟩
  · cases lost with
    | true => exact h.acked m hm
    | false =>
        rcases List.mem_append.mp hm with hm | hm
        · exact h.acked m hm
        · rw [List.mem_singleton.mp hm]
          exact hmem.1
  · rcases List.mem_append.mp hx with hx | hx
    · exact h.log x hx
    · rw [List.mem_singleton.mp hx]
      exact hmem.2

lemma log_append (happ : b.append n lost = some b') :
    ∃ r, b.record n = some r ∧ b'.log = b.log ++ [r] := by
  obtain ⟨r, hr, rfl⟩ := Option.map_eq_some_iff.mp happ
  exact ⟨r, hr, rfl⟩

/-- The broker can append a record that was handed over just now. -/
lemma append_send (h : b.Sound P) (r : α) :
    ∃ b', (b.send r).append b.nextSend false = some b' ∧ b.nextSend ∈ b'.acked := by
  have hnone : b.inFlight.lookup b.nextSend = none := by
    refine List.lookup_eq_none_iff.mpr fun x hx => ?_
    have hlt := (h.flight x hx).1
    simpa using (Nat.ne_of_gt hlt)
  have hrecord : (b.send r).record b.nextSend = some r := by
    simp [record, Broker.send, List.lookup_append, hnone]
  exact ⟨_, by rw [append, hrecord, Option.map_some], by simp⟩

end Broker

/-! ### A send and its record -/

/-- The number `n` was used for the record `r`. -/
structure Handed (b : Broker α) (n : ℕ) (r : α) : Prop where
  number : n < b.nextSend
  flight : ∀ x ∈ b.inFlight, x.1 = n → x.2 = r
  answered : n ∈ b.acked → r ∈ b.log

namespace Handed

/-- The number of a new send. -/
lemma new (h : b.Sound P) (r : α) : Handed (b.send r) b.nextSend r := by
  refine ⟨Nat.lt_succ_self _, fun x hx hxn => ?_, fun hack => ?_⟩
  · rcases List.mem_append.mp hx with hx | hx
    · exact absurd hxn (Nat.ne_of_lt (h.flight x hx).1)
    · rw [List.mem_singleton.mp hx]
  · exact absurd (h.acked _ hack) (lt_irrefl _)

lemma send (h : Handed b n r) (r' : α) : Handed (b.send r') n r := by
  refine ⟨Nat.lt_succ_of_lt h.number, fun x hx hxn => ?_, h.answered⟩
  rcases List.mem_append.mp hx with hx | hx
  · exact h.flight x hx hxn
  · rw [List.mem_singleton.mp hx] at hxn
    exact absurd hxn (Nat.ne_of_gt h.number)

lemma append (h : Handed b n r) (happ : b.append m lost = some b') : Handed b' n r := by
  obtain ⟨r', hr', rfl⟩ := Option.map_eq_some_iff.mp happ
  refine ⟨h.number, fun x hx => h.flight x (List.mem_filter.mp hx).1, fun hack => ?_⟩
  have hcases : n ∈ b.acked ∨ n = m := by
    cases lost with
    | true => exact Or.inl hack
    | false => simpa using hack
  rcases hcases with hack | rfl
  · exact List.mem_append_left _ (h.answered hack)
  · rw [← h.flight _ (Broker.mem_of_record hr') rfl]
    exact List.mem_append_right _ (List.mem_singleton_self _)

end Handed

/-! ### Order -/

/-- `r` is one of the rows, and all rows before it are in the log. -/
def Ready (rows log : List α) (r : α) : Prop :=
  ∃ r₁ r₂, rows = r₁ ++ r :: r₂ ∧ r₁ ⊆ log

/-- Every record of the log is one of the rows, and the rows before it are in the log before it. -/
def InOrder (rows log : List α) : Prop :=
  ∀ l₁ r l₂, log = l₁ ++ r :: l₂ → Ready rows l₁ r

/-- The records can be sent one after the other, each after the ones before it are in the log. -/
def Sendable (rows : List α) : List α → List α → Prop
  | _, [] => True
  | log, r :: todo => Ready rows log r ∧ Sendable rows (log ++ [r]) todo

variable {rows rows' log log' todo : List α}

lemma Ready.mem (h : Ready rows log r) : r ∈ rows := by
  obtain ⟨r₁, r₂, rfl, -⟩ := h
  exact List.mem_append_right _ List.mem_cons_self

/-- Rows are added behind the others, and the log only grows. -/
lemma Ready.mono (h : Ready rows log r) (hrows : rows <+: rows') (hlog : log ⊆ log') :
    Ready rows' log' r := by
  obtain ⟨r₁, r₂, rfl, hr₁⟩ := h
  obtain ⟨r₃, rfl⟩ := hrows
  exact ⟨r₁, r₂ ++ r₃, by simp, List.Subset.trans hr₁ hlog⟩

lemma inOrder_nil : InOrder rows ([] : List α) :=
  fun l₁ r l₂ h => by simp at h

lemma InOrder.mono (h : InOrder rows log) (hrows : rows <+: rows') : InOrder rows' log :=
  fun l₁ r l₂ hl => (h l₁ r l₂ hl).mono hrows (List.Subset.refl _)

/-- A record that is ready keeps the order. -/
lemma InOrder.concat (h : InOrder rows log) (hr : Ready rows log r) :
    InOrder rows (log ++ [r]) := by
  intro l₁ x l₂ hl
  rcases List.eq_nil_or_concat l₂ with rfl | ⟨l₂, y, rfl⟩
  · obtain ⟨rfl, hx⟩ := List.append_inj' hl rfl
    obtain rfl : r = x := by simpa using hx
    exact hr
  · have hl' : log ++ [r] = (l₁ ++ x :: l₂) ++ [y] := by simpa using hl
    exact h l₁ x l₂ (List.append_inj' hl' rfl).1

lemma Sendable.mono (h : Sendable rows log todo) (hrows : rows <+: rows') (hlog : log ⊆ log') :
    Sendable rows' log' todo := by
  induction todo generalizing log log' with
  | nil => trivial
  | cons r todo ih =>
      refine ⟨h.1.mono hrows hlog, ih h.2 fun x hx => ?_⟩
      exact List.mem_append.mpr ((List.mem_append.mp hx).imp_left (hlog ·))

/-- The first rows that are not in the log yet can be sent, in the order of the rows. -/
lemma sendable_take {β : Type} (f : β → α) (p : β → Bool) {pre post : List β} {k : ℕ}
    (hpre : ∀ x ∈ pre, f x ∈ log) (hpost : ∀ x ∈ post, p x = false → f x ∈ log) :
    Sendable ((pre ++ post).map f) log (((post.filter p).take k).map f) := by
  induction post generalizing pre log k with
  | nil => simp [Sendable]
  | cons x post ih =>
      have hsplit : pre ++ x :: post = (pre ++ [x]) ++ post := by simp
      cases hx : p x with
      | false =>
          rw [List.filter_cons_of_neg (by simp [hx]), hsplit]
          refine ih (fun y hy => ?_) fun y hy => hpost y (List.mem_cons_of_mem _ hy)
          rcases List.mem_append.mp hy with hy | hy
          · exact hpre y hy
          · rw [List.mem_singleton.mp hy]
            exact hpost x List.mem_cons_self hx
      | true =>
          rw [List.filter_cons_of_pos hx]
          cases k with
          | zero => trivial
          | succ k =>
              refine ⟨⟨pre.map f, post.map f, by simp, ?_⟩, ?_⟩
              · intro y hy
                obtain ⟨z, hz, rfl⟩ := List.mem_map.mp hy
                exact hpre z hz
              · rw [hsplit]
                refine ih (fun y hy => ?_) fun y hy hpy =>
                  List.mem_append_left _ (hpost y (List.mem_cons_of_mem _ hy) hpy)
                rcases List.mem_append.mp hy with hy | hy
                · exact List.mem_append_left _ (hpre y hy)
                · rw [List.mem_singleton.mp hy]
                  exact List.mem_append_right _ (List.mem_singleton_self _)

end Sends
