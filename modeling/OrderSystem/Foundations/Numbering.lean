/-
Consecutive numberings.

* `upTo n`: the list `1, …, n` of integers.
* `Numbered l`: the list `l` is `1, …, l.length`. `Numbered.snoc` extends it
  by the next number, `Numbered.mem_iff` and `Numbered.getLast` read it.
* `Numbered.forall₂_take`: of two numbered lists, the one whose entries all have a
  counterpart in the other follows the other one entry by entry.
-/
import Mathlib.Tactic

namespace Numbering

/-- The numbers `1, …, n`. -/
def upTo (n : ℕ) : List ℤ :=
  (List.range n).map fun i : ℕ => (i : ℤ) + 1

@[simp] lemma length_upTo (n : ℕ) : (upTo n).length = n := by
  simp [upTo]

lemma upTo_succ (n : ℕ) : upTo (n + 1) = upTo n ++ [(n : ℤ) + 1] := by
  simp [upTo, List.range_succ]

lemma mem_upTo {n : ℕ} {x : ℤ} : x ∈ upTo n ↔ 1 ≤ x ∧ x ≤ n := by
  simp only [upTo, List.mem_map, List.mem_range]
  constructor
  · rintro ⟨i, hi, rfl⟩
    omega
  · intro h
    exact ⟨(x - 1).toNat, by omega, by omega⟩

lemma nodup_upTo (n : ℕ) : (upTo n).Nodup := by
  refine List.Nodup.map (fun i j hij => ?_) List.nodup_range
  simpa using hij

/-- The list counts from one, without gaps. -/
def Numbered (l : List ℤ) : Prop :=
  l = upTo l.length

instance (l : List ℤ) : Decidable (Numbered l) :=
  inferInstanceAs (Decidable (_ = _))

namespace Numbered

lemma nil : Numbered [] := rfl

lemma snoc {l : List ℤ} (h : Numbered l) : Numbered (l ++ [(l.length : ℤ) + 1]) := by
  rw [Numbered, List.length_append, List.length_singleton, upTo_succ]
  exact congrArg (· ++ [(l.length : ℤ) + 1]) h

lemma mem_iff {l : List ℤ} (h : Numbered l) {x : ℤ} : x ∈ l ↔ 1 ≤ x ∧ x ≤ l.length := by
  conv_lhs => rw [h]
  exact mem_upTo

lemma getLast {l : List ℤ} (h : Numbered l) {x : ℤ} (hx : l.getLast? = some x) :
    x = l.length := by
  rw [h] at hx
  cases hn : l.length with
  | zero => simp [hn, upTo] at hx
  | succ n =>
      rw [hn, upTo_succ, List.getLast?_concat] at hx
      have := Option.some.inj hx
      push_cast
      omega

variable {α β : Type} {f : α → ℤ} {g : β → ℤ} {l : List α} {m : List β}

/-- The number of an entry is its place. -/
lemma getElem (h : Numbered (l.map f)) {i : ℕ} (hi : i < l.length) : f l[i] = i + 1 := by
  have heq : (l.map f)[i]? = (upTo l.length)[i]? := by
    conv_lhs => rw [h]
    rw [List.length_map]
  simpa [upTo, hi] using heq

/-- **Two numberings of the same things**: the shorter list follows the longer one. -/
lemma forall₂_take {R : α → β → Prop} (hl : Numbered (l.map f)) (hm : Numbered (m.map g))
    (h : ∀ y ∈ m, ∃ x ∈ l, f x = g y ∧ R x y) :
    m.length ≤ l.length ∧ List.Forall₂ R (l.take m.length) m := by
  have hlen : m.length ≤ l.length := by
    rcases Nat.eq_zero_or_pos m.length with h0 | hpos
    · omega
    · obtain ⟨x, hx, hfg, -⟩ := h m[m.length - 1] (List.getElem_mem _)
      have hlast := hm.getElem (i := m.length - 1) (by omega)
      have hbound := (hl.mem_iff.mp (List.mem_map_of_mem (f := f) hx)).2
      rw [List.length_map] at hbound
      omega
  refine ⟨hlen, List.forall₂_iff_get.mpr ⟨by simpa using hlen, fun i hi hi' => ?_⟩⟩
  obtain ⟨x, hx, hfg, hR⟩ := h m[i] (List.getElem_mem hi')
  obtain ⟨j, hj, rfl⟩ := List.mem_iff_getElem.mp hx
  have hi1 := hm.getElem hi'
  have hj1 := hl.getElem hj
  obtain rfl : j = i := by omega
  simpa using hR

end Numbered

end Numbering
