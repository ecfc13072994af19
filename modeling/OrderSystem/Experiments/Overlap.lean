/-
The overlap sweeps of the run checker (`experiments/isolation/check.py`).

* `maxOverlap`, `timeAbove`: `max_overlap` and `time_above`, the loops over the sorted ends
  of the intervals.
* `depth`: how many of the half-open intervals contain a point; `total_ends`: it is the sum
  of the ends passed so far.
* `sweeps_measure_overlap`: the first loop returns the greatest depth, the second one the
  length of the set of points deeper than its limit.
-/
import OrderSystem.Foundations.Sweep

namespace OrderSystem.Experiments

open MeasureTheory

/-! ### The loops -/

/-- `points.sort(key=lambda p: (p[0], p[1]))`: an end at `t` comes before a start at `t`. -/
def sorted (points : List (ℤ × ℤ)) : List (ℤ × ℤ) :=
  points.insertionSort Sweep.Ordered

/-- `max_overlap`. -/
def maxOverlap (intervals : List (ℤ × ℤ)) : ℤ :=
  ((sorted (intervals.flatMap fun iv => [(iv.1, 1), (iv.2, -1)])).foldl Sweep.visit (0, 0)).2

/-- `time_above`. -/
def timeAbove (intervals : List (ℤ × ℤ)) (limit : ℤ) : ℤ :=
  ((sorted (intervals.map (fun iv => (iv.1, 1)) ++ intervals.map fun iv => (iv.2, -1))).foldl
    (Sweep.lengthen limit) (0, none, 0)).2.2

/-! ### The depth -/

open scoped Classical in
/-- The number of intervals that contain the point. -/
noncomputable def depth (intervals : List (ℤ × ℤ)) (x : ℝ) : ℕ :=
  intervals.countP fun iv => (iv.1 : ℝ) ≤ x ∧ x < iv.2

variable {intervals : List (ℤ × ℤ)} {limit : ℤ}

lemma depth_floor (intervals : List (ℤ × ℤ)) (x : ℝ) :
    depth intervals x = intervals.countP fun iv => iv.1 ≤ ⌊x⌋ ∧ ⌊x⌋ < iv.2 := by
  refine List.countP_congr fun iv _ => ?_
  simp only [decide_eq_true_eq, Int.le_floor, Int.floor_lt]

lemma sorted_perm (points : List (ℤ × ℤ)) : (sorted points).Perm points :=
  List.perm_insertionSort _ points

lemma sorted_pairwise (points : List (ℤ × ℤ)) : (sorted points).Pairwise Sweep.Ordered :=
  List.pairwise_insertionSort _ points

/-- The sum of the ends passed so far is the depth. -/
lemma total_ends (h : ∀ iv ∈ intervals, iv.1 ≤ iv.2) (n : ℤ) :
    Sweep.total (intervals.flatMap fun iv => [(iv.1, 1), (iv.2, -1)]) n =
      intervals.countP fun iv => iv.1 ≤ n ∧ n < iv.2 := by
  induction intervals with
  | nil => rfl
  | cons iv intervals ih =>
      have hiv := h iv List.mem_cons_self
      rw [List.flatMap_cons, Sweep.total_append, ih fun x hx => h x (List.mem_cons_of_mem _ hx),
        List.countP_cons]
      by_cases hstart : iv.1 ≤ n <;> by_cases hend : iv.2 ≤ n
      · simp [Sweep.total, hstart, hend, not_lt.mpr hend]
      · simp [Sweep.total, hstart, hend, not_le.mp hend]
        omega
      · omega
      · simp [Sweep.total, hstart, hend]

/-- Both loops visit the same points. -/
lemma ends_perm (intervals : List (ℤ × ℤ)) :
    (intervals.map (fun iv => (iv.1, (1 : ℤ))) ++ intervals.map fun iv => (iv.2, (-1 : ℤ))).Perm
      (intervals.flatMap fun iv : ℤ × ℤ => [(iv.1, 1), (iv.2, -1)]) := by
  induction intervals with
  | nil => exact .nil
  | cons iv intervals ih =>
      rw [List.map_cons, List.map_cons, List.flatMap_cons, List.cons_append]
      exact .cons _ (List.perm_middle.trans (.cons _ ih))

lemma sum_ends (intervals : List (ℤ × ℤ)) :
    ((intervals.flatMap fun iv => [(iv.1, (1 : ℤ)), (iv.2, -1)]).map Prod.snd).sum = 0 := by
  induction intervals with
  | nil => rfl
  | cons iv intervals ih =>
      rw [List.flatMap_cons, List.map_append, List.sum_append, ih]
      rfl

/-! ### The results of the loops -/

lemma depth_le_maxOverlap (h : ∀ iv ∈ intervals, iv.1 ≤ iv.2) {k : ℤ} :
    maxOverlap intervals ≤ k ↔ 0 ≤ k ∧ ∀ x : ℝ, (depth intervals x : ℤ) ≤ k := by
  rw [maxOverlap, Sweep.peak_le_iff (sorted_pairwise _)]
  refine and_congr_right fun _ => ?_
  constructor
  · intro hk x
    rw [depth_floor, ← total_ends h, ← Sweep.total_perm (sorted_perm _)]
    exact hk ⌊x⌋
  · intro hk n
    have hx := hk n
    rw [depth_floor, Int.floor_intCast, ← total_ends h] at hx
    rwa [Sweep.total_perm (sorted_perm _)]

/-- The peak is a depth, and no point is deeper. -/
lemma isGreatest_maxOverlap (h : ∀ iv ∈ intervals, iv.1 ≤ iv.2) :
    IsGreatest (Set.range fun x : ℝ => (depth intervals x : ℤ)) (maxOverlap intervals) := by
  obtain ⟨hnonneg, hall⟩ := (depth_le_maxOverlap h).mp le_rfl
  refine ⟨?_, ?_⟩
  · -- otherwise every depth is below the peak, which is then too high
    by_contra hnot
    have hbelow : ∀ x : ℝ, (depth intervals x : ℤ) ≤ maxOverlap intervals - 1 := by
      intro x
      have hne : (depth intervals x : ℤ) ≠ maxOverlap intervals := fun heq => hnot ⟨x, heq⟩
      have := hall x
      omega
    have hpos : 0 ≤ maxOverlap intervals - 1 := by
      have := hbelow 0
      omega
    have := (depth_le_maxOverlap h).mpr ⟨hpos, hbelow⟩
    omega
  · rintro _ ⟨x, rfl⟩
    exact hall x

lemma volume_deep (h : ∀ iv ∈ intervals, iv.1 ≤ iv.2) (hlimit : 0 ≤ limit) :
    0 ≤ timeAbove intervals limit ∧
      volume {x : ℝ | limit < depth intervals x} = ENNReal.ofReal (timeAbove intervals limit) := by
  have hperm := (sorted_perm _).trans (ends_perm intervals)
  have hset : {x : ℝ | limit < depth intervals x} = {x : ℝ | limit < Sweep.total (sorted
      (intervals.map (fun iv => (iv.1, 1)) ++ intervals.map fun iv => (iv.2, -1))) ⌊x⌋} := by
    ext x
    simp only [Set.mem_ofPred_eq]
    rw [Sweep.total_perm hperm, total_ends h, depth_floor]
  rw [hset]
  refine Sweep.volume_above (sorted_pairwise _) ?_ hlimit
  rw [(hperm.map Prod.snd).sum_eq, sum_ends]
  exact hlimit

/-- **The overlap sweeps measure overlap.** `maxOverlap` is the largest number of intervals
with a common point, `timeAbove` the length of the set of points in more than `limit` of
them, and one exceeds its bound exactly when the other does. -/
theorem sweeps_measure_overlap (h : ∀ iv ∈ intervals, iv.1 ≤ iv.2) :
    IsGreatest (Set.range fun x : ℝ => (depth intervals x : ℤ)) (maxOverlap intervals) ∧
    ∀ limit : ℤ, 0 ≤ limit → 0 ≤ timeAbove intervals limit ∧
      volume {x : ℝ | limit < depth intervals x} =
        ENNReal.ofReal (timeAbove intervals limit) ∧
      (0 < timeAbove intervals limit ↔ limit < maxOverlap intervals) := by
  have hgreatest := isGreatest_maxOverlap h
  refine ⟨hgreatest, fun limit hlimit => ?_⟩
  obtain ⟨hnonneg, hvolume⟩ := volume_deep h hlimit
  have hpos : 0 < timeAbove intervals limit ↔ volume {x : ℝ | limit < depth intervals x} ≠ 0 := by
    rw [hvolume, ne_eq, ENNReal.ofReal_eq_zero, not_le, Int.cast_pos]
  refine ⟨hnonneg, hvolume, hpos.trans ?_⟩
  constructor
  · intro hne
    obtain ⟨x, hx⟩ := nonempty_of_measure_ne_zero hne
    exact lt_of_lt_of_le hx (hgreatest.2 ⟨x, rfl⟩)
  · intro hlt
    obtain ⟨x, hx⟩ := hgreatest.1
    -- the depth does not change up to the next integer
    have hsub : Set.Ico (⌊x⌋ : ℝ) (⌊x⌋ + 1) ⊆ {y : ℝ | limit < depth intervals y} := by
      intro y hy
      have hfloor : ⌊y⌋ = ⌊x⌋ := Int.floor_eq_iff.mpr hy
      show limit < depth intervals y
      rw [depth_floor, hfloor, ← depth_floor]
      exact hlt.trans_eq hx.symm
    refine fun hzero => ?_
    have hle := measure_mono_null hsub hzero
    rw [Real.volume_Ico] at hle
    simp at hle

example : maxOverlap [(0, 10), (10, 20), (5, 15), (7, 7)] = 2 := by decide +kernel

example : timeAbove [(0, 10), (10, 20), (5, 15), (7, 7)] 1 = 10 := by decide +kernel

theorem sweeps_of_three_intervals :
    IsGreatest (Set.range fun x : ℝ => (depth [(0, 10), (5, 15), (7, 7)] x : ℤ))
      (maxOverlap [(0, 10), (5, 15), (7, 7)]) ∧
    ∀ limit : ℤ, 0 ≤ limit → 0 ≤ timeAbove [(0, 10), (5, 15), (7, 7)] limit ∧
      volume {x : ℝ | limit < depth [(0, 10), (5, 15), (7, 7)] x} =
        ENNReal.ofReal (timeAbove [(0, 10), (5, 15), (7, 7)] limit) ∧
      (0 < timeAbove [(0, 10), (5, 15), (7, 7)] limit ↔
        limit < maxOverlap [(0, 10), (5, 15), (7, 7)]) :=
  sweeps_measure_overlap (by decide)

end OrderSystem.Experiments
