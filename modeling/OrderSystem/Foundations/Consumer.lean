/-
A consumer that reads partitions of a topic and commits offsets.

`poll` returns records of the assigned partitions from the positions of the
consumer on, with the positions behind them; `commitOffsets` is the
acknowledgement.

* `Settled`: everything below the positions satisfies `P`.
* `poll_settled`: once the records of a poll satisfy `P`, the positions behind them
  are settled too.
* `Settled.commit`: offsets committed at settled positions stay settled.
-/
import OrderSystem.Foundations.Log

namespace Consumer

variable {α : Type} {P Q : α → Prop} {topic topic' : ℕ → List α}
  {positions counts ends : List (ℕ × ℕ)} {records : List α}

/-- A poll: for each named partition the records from the position on; `none` when a
partition is not assigned. -/
def poll (topic : ℕ → List α) (positions : List (ℕ × ℕ)) :
    List (ℕ × ℕ) → Option (List α × List (ℕ × ℕ))
  | [] => some ([], [])
  | (p, n) :: rest => do
      let position ← positions.lookup p
      let (records, ends) ← poll topic positions rest
      let read := Log.slice (topic p) position n
      return (read ++ records, (p, position + read.length) :: ends)

/-- The committed offsets after positions were acknowledged. -/
def commitOffsets (ends : List (ℕ × ℕ)) (committed : ℕ → ℕ) : ℕ → ℕ :=
  fun p => (ends.lookup p).getD (committed p)

/-- Every record below the positions satisfies `P`. -/
def Settled (P : α → Prop) (topic : ℕ → List α) (positions : List (ℕ × ℕ)) : Prop :=
  ∀ x ∈ positions, Log.Behind P (topic x.1) x.2

lemma Settled.later (h : Settled P topic positions) (hlog : ∀ p, topic p <+: topic' p)
    (hPQ : ∀ x, P x → Q x) : Settled Q topic' positions :=
  fun x hx => ((h x hx).mono hPQ).append (hlog x.1)

/-- The records of a poll are records of the topic. -/
lemma mem_of_poll (h : poll topic positions counts = some (records, ends)) :
    ∀ r ∈ records, ∃ p, r ∈ topic p := by
  induction counts generalizing records ends with
  | nil =>
      cases h
      simp
  | cons x rest ih =>
      obtain ⟨p, n⟩ := x
      simp only [poll, Option.bind_eq_bind, Option.bind_eq_some_iff] at h
      obtain ⟨position, -, ⟨records', ends'⟩, hrest, h⟩ := h
      cases h
      intro r hr
      rcases List.mem_append.mp hr with hr | hr
      · exact ⟨p, Log.slice_subset hr⟩
      · exact ih hrest r hr

/-- **A poll settles its positions** once its records are settled. -/
lemma poll_settled (h : poll topic positions counts = some (records, ends))
    (hpos : Settled P topic positions) (hrec : ∀ r ∈ records, P r) : Settled P topic ends := by
  induction counts generalizing records ends with
  | nil =>
      cases h
      intro x hx
      cases hx
  | cons x rest ih =>
      obtain ⟨p, n⟩ := x
      simp only [poll, Option.bind_eq_bind, Option.bind_eq_some_iff] at h
      obtain ⟨position, hposition, ⟨records', ends'⟩, hrest, h⟩ := h
      cases h
      intro y hy
      rcases List.mem_cons.mp hy with rfl | hy
      · obtain ⟨l₁, l₂, hl, -⟩ := List.lookup_eq_some_iff.mp hposition
        have hbehind := hpos (p, position) (by rw [hl]; simp)
        exact hbehind.read fun r hr => hrec r (List.mem_append_left _ hr)
      · exact ih hrest (fun r hr => hrec r (List.mem_append_right _ hr)) y hy

/-- Acknowledged positions that are settled keep the committed offsets settled. -/
lemma Settled.commit {committed : ℕ → ℕ} (h : Settled P topic ends)
    (hcomm : ∀ p, Log.Behind P (topic p) (committed p)) (p : ℕ) :
    Log.Behind P (topic p) (commitOffsets ends committed p) := by
  rw [commitOffsets]
  cases hl : ends.lookup p with
  | none => exact hcomm p
  | some n =>
      obtain ⟨l₁, l₂, hends, -⟩ := List.lookup_eq_some_iff.mp hl
      exact h (p, n) (by rw [hends]; simp)

/-- Below a settled offset every record is settled. -/
lemma settled_getElem {n i : ℕ} {log : List α} {r : α} (h : Log.Behind P log n) (hi : i < n)
    (hr : log[i]? = some r) : P r := by
  refine h.2 r (List.mem_iff_getElem?.mpr ⟨i, ?_⟩)
  rw [List.getElem?_take_of_lt hi]
  exact hr

end Consumer
