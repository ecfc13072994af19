/-
Sweeps over weighted points: the running sum of the weights, from left to right.

* `Ordered`: the points are visited by place, and at one place the negative weights first.
* `total`: the sum of the weights up to a place, the value the running sum is meant to have.
* `peak_le_iff`: the highest running sum is the highest total, although the running sum dips
  below the total between two points at one place.
* `volume_above`: the sum of the gaps in which the running sum exceeds a limit is the length
  of the set where the total does.
-/
import Mathlib.MeasureTheory.Function.Floor
import Mathlib.MeasureTheory.Measure.Lebesgue.Basic
import Mathlib.Tactic

namespace Sweep

open MeasureTheory

variable {τ : Type} [LinearOrder τ]

/-! ### Points and totals -/

/-- The order of the visit. -/
def Ordered (p q : τ × ℤ) : Prop :=
  p.1 < q.1 ∨ p.1 = q.1 ∧ p.2 ≤ q.2

instance (p q : τ × ℤ) : Decidable (Ordered p q) :=
  inferInstanceAs (Decidable (_ ∨ _))

lemma Ordered.le {p q : τ × ℤ} (h : Ordered p q) : p.1 ≤ q.1 :=
  h.elim le_of_lt fun h => h.1.le

instance : IsTrans (τ × ℤ) Ordered where
  trans p q r h h' := by
    rcases h with h | ⟨h, hle⟩
    · exact Or.inl (h.trans_le h'.le)
    · rcases h' with h' | ⟨h', hle'⟩
      · exact Or.inl (h.trans_lt h')
      · exact Or.inr ⟨h.trans h', hle.trans hle'⟩

instance : Std.Total (Ordered (τ := τ)) where
  total p q := by
    rcases lt_trichotomy p.1 q.1 with h | h | h
    · exact Or.inl (Or.inl h)
    · exact (le_total p.2 q.2).imp (fun hle => Or.inr ⟨h, hle⟩) fun hle => Or.inr ⟨h.symm, hle⟩
    · exact Or.inr (Or.inl h)

/-- The sum of the weights up to `x`. -/
def total (points : List (τ × ℤ)) (x : τ) : ℤ :=
  ((points.filter fun p => p.1 ≤ x).map Prod.snd).sum

variable {points : List (τ × ℤ)} {p : τ × ℤ} {x : τ} {c k limit : ℤ}

lemma total_append (l l' : List (τ × ℤ)) (x : τ) : total (l ++ l') x = total l x + total l' x := by
  rw [total, List.filter_append, List.map_append, List.sum_append, total, total]

lemma total_cons_of_le (h : p.1 ≤ x) : total (p :: points) x = p.2 + total points x := by
  simp [total, h]

/-- Before its first point the total is zero. -/
lemma total_of_lt (h : ∀ q ∈ points, x < q.1) : total points x = 0 := by
  rw [total, List.filter_eq_nil_iff.mpr fun q hq => by simpa using h q hq]
  rfl

lemma total_perm {l l' : List (τ × ℤ)} (h : l.Perm l') (x : τ) : total l x = total l' x :=
  ((h.filter _).map _).sum_eq

/-! ### The highest running sum -/

/-- One step of the sweep: the running sum and its peak. -/
def visit (s : ℤ × ℤ) (p : τ × ℤ) : ℤ × ℤ :=
  (s.1 + p.2, max s.2 (s.1 + p.2))

/-- After the first point of an ordered list the totals go on from its weight. -/
lemma cons_bounded_iff (hsorted : (p :: points).Pairwise Ordered) :
    (c ≤ k ∧ ∀ x, c + total (p :: points) x ≤ k) ↔
      c ≤ k ∧ c + p.2 ≤ k ∧ ∀ x, c + p.2 + total points x ≤ k := by
  obtain ⟨hfirst, -⟩ := List.pairwise_cons.mp hsorted
  constructor
  · rintro ⟨hc, h⟩
    have hhere : c + p.2 ≤ k := by
      by_cases hp : p.2 ≤ 0
      · omega
      · -- the weights that follow at this place are positive as well
        have hpos : 0 ≤ total points p.1 := by
          refine List.sum_nonneg fun w hw => ?_
          obtain ⟨q, hq, rfl⟩ := List.mem_map.mp hw
          obtain ⟨hq, hle⟩ := List.mem_filter.mp hq
          rcases hfirst q hq with hlt | ⟨-, hw⟩
          · exact absurd (of_decide_eq_true hle) (not_le.mpr hlt)
          · omega
        have := h p.1
        rw [total_cons_of_le le_rfl] at this
        omega
    refine ⟨hc, hhere, fun x => ?_⟩
    rcases le_or_gt p.1 x with hx | hx
    · have := h x
      rw [total_cons_of_le hx] at this
      omega
    · rw [total_of_lt fun q hq => hx.trans_le (hfirst q hq).le]
      omega
  · rintro ⟨hc, hhere, h⟩
    refine ⟨hc, fun x => ?_⟩
    rcases le_or_gt p.1 x with hx | hx
    · have := h x
      rw [total_cons_of_le hx]
      omega
    · rw [total_of_lt fun q hq => ?_]
      · omega
      · rcases List.mem_cons.mp hq with rfl | hq
        · exact hx
        · exact hx.trans_le (hfirst q hq).le

lemma foldl_visit_le_iff {m : ℤ} (hsorted : points.Pairwise Ordered) (hc : c ≤ m) :
    (points.foldl visit (c, m)).2 ≤ k ↔ m ≤ k ∧ ∀ x, c + total points x ≤ k := by
  induction points generalizing c m with
  | nil =>
      show m ≤ k ↔ m ≤ k ∧ ∀ x : τ, c + 0 ≤ k
      exact ⟨fun h => ⟨h, fun _ => by omega⟩, fun h => h.1⟩
  | cons p points ih =>
      have hrest := (List.pairwise_cons.mp hsorted).2
      have hcons := cons_bounded_iff (c := c) (k := k) hsorted
      rw [List.foldl_cons, show visit (c, m) p = (c + p.2, max m (c + p.2)) from rfl,
        ih hrest (le_max_right _ _), max_le_iff]
      constructor
      · rintro ⟨⟨hm, hhere⟩, h⟩
        exact ⟨hm, (hcons.mpr ⟨hc.trans hm, hhere, h⟩).2⟩
      · rintro ⟨hm, h⟩
        obtain ⟨-, hhere, h⟩ := hcons.mp ⟨hc.trans hm, h⟩
        exact ⟨⟨hm, hhere⟩, h⟩

/-- **The peak of the sweep is the highest total.** -/
theorem peak_le_iff (hsorted : points.Pairwise Ordered) :
    (points.foldl visit (0, 0)).2 ≤ k ↔ 0 ≤ k ∧ ∀ x, total points x ≤ k := by
  rw [foldl_visit_le_iff hsorted le_rfl]
  simp only [zero_add]

/-! ### The length above a limit -/

/-- One step of the sweep: the running sum, the place of the last point and the length so
far. -/
def lengthen (limit : ℤ) (s : ℤ × Option ℤ × ℤ) (p : ℤ × ℤ) : ℤ × Option ℤ × ℤ :=
  (s.1 + p.2, some p.1,
    match s.2.1 with
    | none => s.2.2
    | some last => if limit < s.1 then s.2.2 + (p.1 - last) else s.2.2)

/-- The places from `last` on where the total, counted from `c`, exceeds the limit. -/
def above (limit c : ℤ) (points : List (ℤ × ℤ)) (last : ℤ) : Set ℝ :=
  {x | (last : ℝ) ≤ x ∧ limit < c + total points ⌊x⌋}

section Length

variable {points : List (ℤ × ℤ)} {p : ℤ × ℤ} {last : ℤ}

lemma measurableSet_above : MeasurableSet (above limit c points last) :=
  measurableSet_Ici.inter
    (Int.measurable_floor (MeasurableSet.of_discrete (s := {n : ℤ | limit < c + total points n})))

/-- Up to the first point the total does not change. -/
lemma above_cons (hlast : last ≤ p.1) (hfirst : ∀ q ∈ points, p.1 ≤ q.1) :
    above limit c (p :: points) last =
      (if limit < c then Set.Ico (last : ℝ) p.1 else ∅) ∪ above limit (c + p.2) points p.1 := by
  ext x
  rcases lt_or_ge x (p.1 : ℝ) with hx | hx
  · have hzero : total (p :: points) ⌊x⌋ = 0 := by
      refine total_of_lt fun q hq => ?_
      rcases List.mem_cons.mp hq with rfl | hq
      · exact Int.floor_lt.mpr hx
      · exact (Int.floor_lt.mpr hx).trans_le (hfirst q hq)
    simp only [above, Set.mem_ofPred_eq, Set.mem_union, hzero, not_le.mpr hx, false_and, or_false,
      add_zero]
    split_ifs with hc <;> simp [hc, hx]
  · have hcons : total (p :: points) ⌊x⌋ = p.2 + total points ⌊x⌋ :=
      total_cons_of_le (Int.le_floor.mpr hx)
    have hle : (last : ℝ) ≤ x := le_trans (by exact_mod_cast hlast) hx
    have hout : x ∉ (if limit < c then Set.Ico (last : ℝ) p.1 else ∅) := by
      split_ifs
      · exact fun h => not_lt.mpr hx h.2
      · exact Set.notMem_empty x
    simp only [above, Set.mem_ofPred_eq, Set.mem_union, hcons, hle, hx, true_and, hout, false_or,
      add_assoc]

lemma foldl_lengthen (acc : ℤ) (hsorted : points.Pairwise Ordered)
    (hlast : ∀ q ∈ points, last ≤ q.1) (hend : c + (points.map Prod.snd).sum ≤ limit) :
    ∃ n : ℤ, 0 ≤ n ∧ (points.foldl (lengthen limit) (c, some last, acc)).2.2 = acc + n ∧
      volume (above limit c points last) = ENNReal.ofReal n := by
  induction points generalizing c last acc with
  | nil =>
      refine ⟨0, le_rfl, (add_zero acc).symm, ?_⟩
      have hempty : above limit c [] last = ∅ := by
        ext x
        have hc : ¬ limit < c := by simpa using hend
        simp [above, total, hc]
      rw [hempty]
      simp
  | cons p points ih =>
      obtain ⟨hfirst, hrest⟩ := List.pairwise_cons.mp hsorted
      have hp : last ≤ p.1 := hlast p List.mem_cons_self
      have hle : ∀ q ∈ points, p.1 ≤ q.1 := fun q hq => (hfirst q hq).le
      have hend' : c + p.2 + (points.map Prod.snd).sum ≤ limit := by
        rw [List.map_cons, List.sum_cons] at hend
        omega
      obtain ⟨n, hn, hfold, hvol⟩ :=
        ih (if limit < c then acc + (p.1 - last) else acc) hrest hle hend'
      refine ⟨(if limit < c then p.1 - last else 0) + n, ?_, ?_, ?_⟩
      · split_ifs <;> omega
      · refine hfold.trans ?_
        split_ifs <;> omega
      · rw [above_cons hp hle, measure_union, hvol]
        · split_ifs with hc
          · have hgap : (0 : ℝ) ≤ (p.1 - last : ℤ) := by exact_mod_cast sub_nonneg.mpr hp
            rw [Real.volume_Ico, ← Int.cast_sub, ← ENNReal.ofReal_add hgap (by exact_mod_cast hn),
              Int.cast_add]
          · simp
        · refine Set.disjoint_left.mpr fun x hx hx' => ?_
          split_ifs at hx with hc
          · exact not_lt.mpr hx'.1 hx.2
          · exact hx
        · exact measurableSet_above

/-- **The sweep measures the length above the limit.** -/
theorem volume_above (hsorted : points.Pairwise Ordered)
    (hend : (points.map Prod.snd).sum ≤ limit) (hlimit : 0 ≤ limit) :
    0 ≤ (points.foldl (lengthen limit) (0, none, 0)).2.2 ∧
      volume {x : ℝ | limit < total points ⌊x⌋} =
        ENNReal.ofReal (points.foldl (lengthen limit) (0, none, 0)).2.2 := by
  cases points with
  | nil =>
      have hempty : {x : ℝ | limit < total [] ⌊x⌋} = ∅ := by
        ext x
        have hc : ¬ limit < 0 := not_lt.mpr hlimit
        simp [total, hc]
      rw [hempty]
      simp
  | cons p points =>
      obtain ⟨hfirst, hrest⟩ := List.pairwise_cons.mp hsorted
      have hle : ∀ q ∈ points, p.1 ≤ q.1 := fun q hq => (hfirst q hq).le
      have hend' : p.2 + (points.map Prod.snd).sum ≤ limit := by
        rwa [List.map_cons, List.sum_cons] at hend
      obtain ⟨n, hn, hfold, hvol⟩ := foldl_lengthen 0 hrest hle hend'
      have hresult : ((p :: points).foldl (lengthen limit) (0, none, 0)).2.2 = n := by
        rw [List.foldl_cons, show lengthen limit (0, none, 0) p = (p.2, some p.1, 0) by
          simp [lengthen], hfold, zero_add]
      -- before the first point the total is zero
      have hset : {x : ℝ | limit < total (p :: points) ⌊x⌋} = above limit p.2 points p.1 := by
        ext x
        rcases lt_or_ge x (p.1 : ℝ) with hx | hx
        · have hzero : total (p :: points) ⌊x⌋ = 0 := by
            refine total_of_lt fun q hq => ?_
            rcases List.mem_cons.mp hq with rfl | hq
            · exact Int.floor_lt.mpr hx
            · exact (Int.floor_lt.mpr hx).trans_le (hle q hq)
          simp [above, hzero, not_le.mpr hx, not_lt.mpr hlimit]
        · have hcons : total (p :: points) ⌊x⌋ = p.2 + total points ⌊x⌋ :=
            total_cons_of_le (Int.le_floor.mpr hx)
          simp [above, hcons, hx]
      rw [hresult, hset]
      exact ⟨hn, hvol⟩

end Length

end Sweep
