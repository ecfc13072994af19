/-
A trace that grows line by line, and what holds of its lines.

* `Since l a P`: behind a line `a` the trace has a line with `P`.
* `Always P l`: `P` holds of every line and the lines before it.
* `since_concat`, `always_concat`: both, when a line is written.
-/
import Mathlib.Tactic

namespace Trace

variable {α : Type} {l l' : List α} {a b : α} {P Q : α → Prop} {R R' : List α → α → Prop}

/-- Behind a line `a` stands a line with `P`. -/
def Since (l : List α) (a : α) (P : α → Prop) : Prop :=
  ∃ l₁ l₂, l = l₁ ++ a :: l₂ ∧ ∃ b ∈ l₂, P b

/-- Every line has `R` with the lines before it. -/
def Always (R : List α → α → Prop) (l : List α) : Prop :=
  ∀ l₁ a l₂, l = l₁ ++ a :: l₂ → R l₁ a

/-- Where a line of a trace stands when its last line is known. -/
lemma split_concat {l₁ l₂ : List α} (h : l ++ [b] = l₁ ++ a :: l₂) :
    (l₂ = [] ∧ a = b ∧ l₁ = l) ∨ ∃ l₃, l₂ = l₃ ++ [b] ∧ l = l₁ ++ a :: l₃ := by
  rcases List.eq_nil_or_concat' l₂ with rfl | ⟨l₃, c, rfl⟩
  · obtain ⟨hl, ha⟩ := List.append_inj' h rfl
    cases ha
    exact Or.inl ⟨rfl, rfl, hl.symm⟩
  · have h' : l ++ [b] = (l₁ ++ a :: l₃) ++ [c] := by simpa using h
    obtain ⟨hl, hc⟩ := List.append_inj' h' rfl
    cases hc
    exact Or.inr ⟨l₃, rfl, hl⟩

/-! ### Since -/

lemma Since.mem (h : Since l a P) : a ∈ l := by
  obtain ⟨l₁, l₂, rfl, -⟩ := h
  exact List.mem_append_right _ List.mem_cons_self

lemma not_since_nil : ¬ Since [] a P := fun h => by cases h.mem

/-- A new line is behind everything that was written. -/
lemma since_concat : Since (l ++ [b]) a P ↔ Since l a P ∨ (a ∈ l ∧ P b) := by
  constructor
  · rintro ⟨l₁, l₂, hl, c, hc, hP⟩
    rcases split_concat hl with ⟨rfl, -, -⟩ | ⟨l₃, rfl, rfl⟩
    · cases hc
    · rcases List.mem_append.mp hc with hc | hc
      · exact Or.inl ⟨l₁, l₃, rfl, c, hc, hP⟩
      · obtain rfl := List.mem_singleton.mp hc
        exact Or.inr ⟨by simp, hP⟩
  · rintro (⟨l₁, l₂, rfl, c, hc, hP⟩ | ⟨ha, hP⟩)
    · exact ⟨l₁, l₂ ++ [b], by simp, c, List.mem_append_left _ hc, hP⟩
    · obtain ⟨l₁, l₂, rfl⟩ := List.append_of_mem ha
      exact ⟨l₁, l₂ ++ [b], by simp, b, by simp, hP⟩

lemma Since.append (h : Since l a P) (l' : List α) : Since (l ++ l') a P := by
  obtain ⟨l₁, l₂, rfl, c, hc, hP⟩ := h
  exact ⟨l₁, l₂ ++ l', by simp, c, List.mem_append_left _ hc, hP⟩

/-! ### Always -/

lemma always_nil : Always R [] := by
  intro l₁ a l₂ h
  simp at h

lemma always_concat : Always R (l ++ [b]) ↔ Always R l ∧ R l b := by
  constructor
  · intro h
    refine ⟨fun l₁ a l₂ hl => h l₁ a (l₂ ++ [b]) (by simp [hl]), h l b [] rfl⟩
  · rintro ⟨h, hb⟩ l₁ a l₂ hl
    rcases split_concat hl with ⟨rfl, rfl, rfl⟩ | ⟨l₃, rfl, rfl⟩
    · exact hb
    · exact h l₁ a l₃ rfl

end Trace
