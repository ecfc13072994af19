/-
Rolling windows: at most `budget` acceptances in any window of a given length.

* `admits`: the policy. A request at `now` is accepted when fewer than `budget`
  of the times accepted so far lie after `now - W`.
* `Counts`: what an implementation has to keep, a list that counts like the
  accepted times in every window from `last` on. New times may be appended
  (`Counts.concat`), times that have left the window may be dropped
  (`Counts.forget`).
* `Spread`: at most `budget` times in any half-open interval of length `W`, which
  the policy keeps (`Spread.concat`), as times at a distance do (`Spread.of_gaps`).
-/
import Mathlib.Tactic

namespace Window

variable {budget : ℕ} {W now last : ℤ} {l l' accepted : List ℤ}

/-- How many of the times lie in the window that ends at `now`. -/
def recent (W now : ℤ) (l : List ℤ) : ℕ :=
  l.countP fun x => now - W < x

/-- The policy. -/
def admits (budget : ℕ) (W : ℤ) (accepted : List ℤ) (now : ℤ) : Prop :=
  recent W now accepted < budget

instance (budget : ℕ) (W : ℤ) (accepted : List ℤ) (now : ℤ) :
    Decidable (admits budget W accepted now) :=
  inferInstanceAs (Decidable (_ < _))

lemma recent_append : recent W now (l ++ l') = recent W now l + recent W now l' :=
  List.countP_append ..

lemma recent_le_length : recent W now l ≤ l.length :=
  List.countP_le_length ..

/-! ### Keeping the times -/

/-- The list counts like the accepted times in every window from `last` on. -/
def Counts (W last : ℤ) (l accepted : List ℤ) : Prop :=
  ∀ now, last ≤ now → recent W now l = recent W now accepted

namespace Counts

lemma refl : Counts W last l l :=
  fun _ _ => rfl

lemma mono (h : Counts W last l accepted) (hle : last ≤ now) : Counts W now l accepted :=
  fun t ht => h t (hle.trans ht)

lemma concat (h : Counts W last l accepted) (t : ℤ) :
    Counts W last (l ++ [t]) (accepted ++ [t]) := by
  intro now hnow
  rw [recent_append, recent_append, h now hnow]

/-- Times that have left the window may be forgotten. -/
lemma forget (h : Counts W last l accepted) (hle : last ≤ now)
    (hl : ∀ t, now ≤ t → recent W t l' = recent W t l) : Counts W now l' accepted := by
  intro t ht
  rw [hl t ht, h t (hle.trans ht)]

end Counts

/-- Trimming the head drops only times that have left the window. -/
lemma recent_dropWhile {cutoff : ℤ} (hcut : cutoff ≤ now - W) :
    recent W now (l.dropWhile (· ≤ cutoff)) = recent W now l := by
  induction l with
  | nil => rfl
  | cons x l ih =>
      by_cases hx : x ≤ cutoff
      · have hout : ¬ now - W < x := by omega
        simpa [recent, hx, hout] using ih
      · simp [hx]

/-- What is left of a list in order after trimming is in the window. -/
lemma length_dropWhile (hsorted : l.Pairwise (· ≤ ·)) :
    (l.dropWhile (· ≤ now - W)).length = recent W now l := by
  induction l with
  | nil => rfl
  | cons x l ih =>
      obtain ⟨hhead, htail⟩ := List.pairwise_cons.mp hsorted
      by_cases hx : x ≤ now - W
      · have hout : ¬ now - W < x := by omega
        simpa [recent, hx, hout] using ih htail
      · have hall : ∀ y ∈ x :: l, now - W < y := by
          intro y hy
          rcases List.mem_cons.mp hy with rfl | hy
          · omega
          · have := hhead y hy
            omega
        have hkeep : (x :: l).dropWhile (· ≤ now - W) = x :: l := by simp [hx]
        rw [hkeep, recent, List.countP_eq_length.mpr fun y hy => by simpa using hall y hy]

/-! ### What the policy guarantees -/

/-- At most `budget` times in any half-open interval of length `W`. -/
def Spread (budget : ℕ) (W : ℤ) (l : List ℤ) : Prop :=
  ∀ a, l.countP (fun t => a ≤ t ∧ t < a + W) ≤ budget

lemma Spread.nil : Spread budget W [] :=
  fun _ => Nat.zero_le _

/-- Times that keep a distance `d` need the more room the more they are. -/
lemma length_of_gaps {d lo hi : ℤ} (hgaps : l.Pairwise fun x y => x + d ≤ y)
    (hlo : ∀ x ∈ l, lo ≤ x) (hhi : ∀ x ∈ l, x ≤ hi) (hne : l ≠ []) :
    ((l.length : ℤ) - 1) * d ≤ hi - lo := by
  induction l generalizing lo with
  | nil => exact absurd rfl hne
  | cons x l ih =>
      obtain ⟨hfirst, hrest⟩ := List.pairwise_cons.mp hgaps
      have hx := hlo x List.mem_cons_self
      have hx' := hhi x List.mem_cons_self
      by_cases hl : l = []
      · subst hl
        simp only [List.length_singleton, Nat.cast_one, sub_self, zero_mul]
        omega
      · have := ih hrest hfirst (fun y hy => hhi y (List.mem_cons_of_mem _ hy)) hl
        rw [List.length_cons]
        push_cast
        linarith

/-- Times that keep a distance `d` fit `budget` times into an interval of length at most
`budget * d`. -/
lemma Spread.of_gaps {d : ℤ} (hd : 0 < d) (hgaps : l.Pairwise fun x y => x + d ≤ y)
    (hW : W ≤ budget * d) : Spread budget W l := by
  intro a
  rw [List.countP_eq_length_filter]
  by_cases hne : l.filter (fun t => a ≤ t ∧ t < a + W) = []
  · rw [hne]
    exact Nat.zero_le _
  · have hin : ∀ x ∈ l.filter (fun t => a ≤ t ∧ t < a + W), a ≤ x ∧ x < a + W := by
      intro x hx
      simpa using (List.mem_filter.mp hx).2
    have hroom := length_of_gaps (hgaps.filter _) (fun x hx => (hin x hx).1)
      (fun x hx => Int.le_sub_one_of_lt (hin x hx).2) hne
    have hlt : ((l.filter fun t => a ≤ t ∧ t < a + W).length - 1 : ℤ) * d < budget * d := by
      omega
    have := lt_of_mul_lt_mul_right hlt hd.le
    omega

/-- The times before an accepted one that share an interval with it are in the
window that ends at it. -/
lemma Spread.concat (h : Spread budget W l) (hadmits : admits budget W l now) :
    Spread budget W (l ++ [now]) := by
  intro a
  rw [List.countP_append, List.countP_singleton]
  by_cases hin : a ≤ now ∧ now < a + W
  · have hle : l.countP (fun t => a ≤ t ∧ t < a + W) ≤ recent W now l := by
      refine List.countP_mono_left fun t _ ht => ?_
      simp only [decide_eq_true_eq] at ht ⊢
      omega
    have : recent W now l < budget := hadmits
    simp only [hin, and_self, decide_true, if_true]
    omega
  · have := h a
    simp only [hin, decide_false, Bool.false_eq_true, if_false]
    omega

end Window
