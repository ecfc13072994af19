/-
Append-only logs read from a position.

* `Behind`: a position in a log with everything before it known to satisfy `P`.
  `Behind.append`: a log that grows keeps what is behind a position.
  `Behind.read`: reading a slice moves the position over the slice.
* `update_grows`: an append to one of several logs.
* `Preceded`: every entry that is not a first one has a predecessor earlier in
  the log, as in a log whose first occurrences come in order.
  `Preceded.entry`: it stands at a lower position.
  `Preceded.slice`: an entry of the slice after a position has its predecessor
  behind the position or in the slice itself.
* `sublist_of_subset`: of two lists that a key orders, the one inside the other is a
  subsequence of it.
-/
import Mathlib.Tactic

namespace Log

variable {α : Type} {P Q : α → Prop} {log : List α} {n : ℕ}

/-- The records a read of at most `m` records from position `n` returns. -/
def slice (log : List α) (n m : ℕ) : List α :=
  (log.drop n).take m

lemma slice_subset {m : ℕ} : slice log n m ⊆ log :=
  fun _ h => List.mem_of_mem_drop (List.mem_of_mem_take h)

/-- The log splits into what is behind the position, the slice, and the rest. -/
lemma take_append_slice (log : List α) (n m : ℕ) :
    ∃ rest, log = log.take n ++ (slice log n m ++ rest) := by
  refine ⟨(log.drop n).drop m, ?_⟩
  rw [slice, List.take_append_drop, List.take_append_drop]

/-! ### Positions -/

/-- The position `n` lies in the log, and everything before it satisfies
`P`. -/
def Behind (P : α → Prop) (log : List α) (n : ℕ) : Prop :=
  n ≤ log.length ∧ ∀ x ∈ log.take n, P x

lemma behind_zero : Behind P log 0 :=
  ⟨Nat.zero_le _, by simp⟩

namespace Behind

lemma mono (h : Behind P log n) (hPQ : ∀ x, P x → Q x) : Behind Q log n :=
  ⟨h.1, fun x hx => hPQ x (h.2 x hx)⟩

lemma append (h : Behind P log n) {log' : List α} (hlog : log <+: log') : Behind P log' n := by
  obtain ⟨rest, rfl⟩ := hlog
  refine ⟨h.1.trans (by simp), fun x hx => h.2 x ?_⟩
  rwa [List.take_append_of_le_length h.1] at hx

lemma read (h : Behind P log n) {m : ℕ} (hslice : ∀ x ∈ slice log n m, P x) :
    Behind P log (n + (slice log n m).length) := by
  have hslice' : (slice log n m).length ≤ log.length - n := by
    rw [slice, List.length_take, List.length_drop]
    omega
  refine ⟨by have := h.1; omega, fun x hx => ?_⟩
  rw [List.take_add] at hx
  rcases List.mem_append.mp hx with hx | hx
  · exact h.2 x hx
  · refine hslice x (List.take_subset_take_left _ ?_ hx)
    rw [slice, List.length_take]
    omega

end Behind

/-! ### Several logs -/

/-- An append to one of several logs leaves every log in front of its new state. -/
lemma update_grows {ι : Type} [DecidableEq ι] (logs : ι → List α) (i : ι) (l : List α) (j : ι) :
    logs j <+: Function.update logs i (logs i ++ l) j := by
  rw [Function.update_apply]
  split_ifs with hj
  · rw [hj]
    exact List.prefix_append _ _
  · exact List.prefix_refl _

/-! ### Predecessors -/

variable {first : α → Prop} {before : α → α → Prop}

/-- Every entry is a first one or has a predecessor earlier in the log. -/
def Preceded (first : α → Prop) (before : α → α → Prop) (log : List α) : Prop :=
  ∀ l x r, log = l ++ x :: r → first x ∨ ∃ y ∈ l, before y x

namespace Preceded

lemma nil : Preceded first before [] := by
  intro l x r h
  simp at h

lemma snoc (h : Preceded first before log) {x : α} (hx : first x ∨ ∃ y ∈ log, before y x) :
    Preceded first before (log ++ [x]) := by
  intro l z r hlog
  rcases List.eq_nil_or_concat r with rfl | ⟨r', w, rfl⟩
  · obtain ⟨rfl, hz⟩ := List.append_inj' hlog rfl
    cases hz
    exact hx
  · refine h l z r' ?_
    have hcut : log ++ [x] = (l ++ z :: r') ++ [w] := by
      rw [hlog]
      simp
    exact (List.append_inj' hcut rfl).1

/-- The predecessor of an entry stands at a lower position. -/
lemma entry (h : Preceded first before log) {i : ℕ} {x : α} (hx : log[i]? = some x) :
    first x ∨ ∃ j < i, ∃ y, log[j]? = some y ∧ before y x := by
  obtain ⟨hi, rfl⟩ := List.getElem?_eq_some_iff.mp hx
  have hsplit : log = log.take i ++ log[i] :: log.drop (i + 1) := by
    rw [← List.drop_eq_getElem_cons hi, List.take_append_drop]
  refine (h _ _ _ hsplit).imp_right ?_
  rintro ⟨y, hy, hyx⟩
  obtain ⟨j, hj, rfl⟩ := List.mem_take_iff_getElem.mp hy
  exact ⟨j, by omega, _, List.getElem?_eq_getElem (by omega), hyx⟩

lemma slice (h : Preceded first before log) (hn : Behind P log n) {m : ℕ} {x : α}
    (hx : x ∈ slice log n m) :
    first x ∨ ∃ y, before y x ∧ (P y ∨ y ∈ Log.slice log n m) := by
  obtain ⟨l, r, hsplit⟩ := List.append_of_mem hx
  obtain ⟨rest, hlog⟩ := take_append_slice log n m
  have hat : log = (log.take n ++ l) ++ x :: (r ++ rest) := by
    conv_lhs => rw [hlog, hsplit]
    simp
  rcases h _ _ _ hat with hfirst | ⟨y, hy, hyx⟩
  · exact Or.inl hfirst
  · refine Or.inr ⟨y, hyx, ?_⟩
    rcases List.mem_append.mp hy with hy | hy
    · exact Or.inl (hn.2 y hy)
    · refine Or.inr ?_
      rw [hsplit]
      exact List.mem_append_left _ hy

end Preceded

/-! ### Increasing lists -/

/-- A list that a key orders is a subsequence of any such list with its elements. -/
lemma sublist_of_subset {β : Type} [Preorder β] {key : α → β} {l₁ l₂ : List α} (h : l₁ ⊆ l₂)
    (h₁ : l₁.Pairwise (key · < key ·)) (h₂ : l₂.Pairwise (key · < key ·)) : l₁.Sublist l₂ := by
  have hantisymm : Std.Antisymm fun x y : α => key x < key y :=
    ⟨fun _ _ hxy hyx => absurd (hxy.trans hyx) (lt_irrefl _)⟩
  have hnodup : l₁.Nodup := by
    refine List.Pairwise.imp (fun {a b} hlt heq => ?_) h₁
    rw [heq] at hlt
    exact lt_irrefl _ hlt
  exact List.sublist_of_subperm_of_pairwise (hnodup.subperm h) h₁ h₂

end Log
