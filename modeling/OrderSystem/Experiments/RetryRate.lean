/-
The retry rate of the run checker (`experiments/isolation/check.py`), and the budget it checks.

* `maxInWindow`: `max_in_window`. The bound of the search is a binary64 number, and
  `bisect_right` compares it exactly with the integers.
* `searchBound_spec`: for milliseconds since the epoch `1e-9` is less than half of the spacing,
  so the bound is `t + W` itself and the search counts the closed window.
* `maxInWindow_spec`: the result is the greatest count of a closed window that starts at a
  recorded time. It fails when `t + W` is too large for a float.
* `retry_rate_agrees_iff`: when this is the greatest count of a half-open window, and when it
  stays within the budget for the times a `RollingWindowBudget` accepts.
-/
import OrderSystem.Foundations.Binary64
import OrderSystem.Partner.RetryBudget

namespace OrderSystem.Experiments

open Partner

/-! ### The loop -/

/-- The literal `1e-9`. -/
def epsilon : ℚ :=
  Binary64.round (1 / 10 ^ 9)

/-- `t + window_ms - 1e-9`. The sum of the integers is exact; the conversion to a float raises
`OverflowError` when it fails, and the difference is rounded. -/
def searchBound (t windowMs : ℤ) : Option ℚ := do
  let sum ← Binary64.toDouble (t + windowMs : ℤ)
  Binary64.toDouble (sum - epsilon)

/-- `bisect.bisect_right`, on a list in order. -/
def bisectRight (times : List ℤ) (x : ℚ) : ℕ :=
  (times.takeWhile fun t : ℤ => (t : ℚ) ≤ x).length

/-- `j - i` of one turn of the loop, for the entry `(t, i)`. -/
def turn (times : List ℤ) (windowMs : ℤ) (entry : ℤ × ℕ) : Option ℤ :=
  (searchBound entry.1 windowMs).map fun x => bisectRight times x - entry.2

/-- `max_in_window`; `none` is the `OverflowError`. -/
def maxInWindow (times : List ℤ) (windowMs : ℤ) : Option ℤ :=
  let times := times.insertionSort (· ≤ ·)
  times.zipIdx.foldlM (fun best entry => (turn times windowMs entry).map (max best)) 0

/-! ### Windows -/

/-- The times in `[t, t + W]`. -/
def closed (windowMs t : ℤ) (times : List ℤ) : ℕ :=
  times.countP fun x => t ≤ x ∧ x ≤ t + windowMs

/-- The times in `[a, a + W)`. -/
def opened (windowMs a : ℤ) (times : List ℤ) : ℕ :=
  times.countP fun x => a ≤ x ∧ x < a + windowMs

open scoped Classical in
/-- The times in `[a, a + W)`, for a real number. -/
noncomputable def halfOpen (windowMs : ℤ) (a : ℝ) (times : List ℤ) : ℕ :=
  times.countP fun x : ℤ => a ≤ x ∧ (x : ℝ) < a + windowMs

/-- Milliseconds since the epoch. -/
def EpochSize (t : ℤ) : Prop :=
  2 ^ 24 ≤ t ∧ t < 2 ^ 53

instance (t : ℤ) : Decidable (EpochSize t) :=
  inferInstanceAs (Decidable (_ ∧ _))

/-- The first integer that is too large for a float. -/
def floatLimit : ℤ :=
  2 ^ 1024 - 2 ^ 970

/-- The checker returns the greatest count of a half-open window. -/
def Agrees (times : List ℤ) (windowMs : ℤ) : Prop :=
  ∃ m, maxInWindow times windowMs = some m ∧
    IsGreatest {n : ℤ | ∃ a : ℝ, n = halfOpen windowMs a times} m

/-- The sums have a float, and a closed window with a time at either end holds no more times
than some half-open window. -/
structure Separated (times : List ℤ) (windowMs : ℤ) : Prop where
  convertible : ∀ t ∈ times, t + windowMs < floatLimit
  ends : ∀ t ∈ times, t + windowMs ∈ times →
    ∃ a, closed windowMs t times ≤ opened windowMs a times

/-- The checker finds the rate within the limit. -/
def Within (limit : ℕ) (windowMs : ℤ) (times : List ℤ) : Prop :=
  ∃ m, maxInWindow times windowMs = some m ∧ m ≤ limit

/-- The times a `RollingWindowBudget(limit, windowMs)` accepts of a seller. -/
def accepted (limit : ℕ) (windowMs : ℤ) (sellerId : String) (acts : List BudgetAct) : List ℤ :=
  acceptedTimes sellerId acts (answers rollingStep ⟨limit, windowMs, fun _ => []⟩ acts)

variable {times : List ℤ} {W t a : ℤ}

/-! ### The bound of the search -/

lemma epsilon_bounds : 0 < epsilon ∧ epsilon < 2 ^ (-29 : ℤ) := by
  constructor
  · have hle : (2 : ℚ) ^ (-30 : ℤ) ≤ epsilon :=
      (Binary64.representable_zpow (by norm_num)).le_round (by norm_num)
    exact (zpow_pos two_pos _).trans_le hle
  · have hrep : Binary64.Representable (3 * 2 ^ (-31 : ℤ)) :=
      ⟨3, -31, by norm_num, by norm_num, by norm_num, by norm_num⟩
    have hle : epsilon ≤ 3 * 2 ^ (-31 : ℤ) := hrep.round_le (by norm_num) (by norm_num)
    exact hle.trans_lt (by norm_num)

/-- From `2 ^ 24` to `2 ^ 53` the difference is rounded back. -/
lemma round_sub_epsilon {n : ℤ} (hlo : 2 ^ 24 < n) (hhi : n ≤ 2 ^ 53) :
    Binary64.round (n - epsilon) = n := by
  obtain ⟨hpos, hlt⟩ := epsilon_bounds
  have hone : epsilon < 1 := hlt.trans (by norm_num)
  have hlo' : (2 : ℚ) ^ 24 + 1 ≤ n := by exact_mod_cast hlo
  have hhi' : (n : ℚ) ≤ 2 ^ 53 := by exact_mod_cast hhi
  have hx : (2 : ℚ) ^ 24 ≤ n - epsilon := by linarith
  have hxpos : (0 : ℚ) < n - epsilon := lt_of_lt_of_le (by norm_num) hx
  set e := Binary64.exponent (n - epsilon) with he
  have helo : 24 ≤ e := by
    have hexponent : Binary64.exponent (2 ^ 24) = 24 :=
      Binary64.exponent_eq (by norm_num) (by norm_num) (by norm_num)
    rw [← hexponent]
    exact Binary64.exponent_mono (by norm_num) hx
  have hehi : e ≤ 52 := by
    by_contra hgt
    have hle := Binary64.exponent_le hxpos (by omega)
    have hpow : (2 : ℚ) ^ (53 : ℤ) ≤ 2 ^ e := zpow_le_zpow_right₀ one_le_two (by omega)
    have : (2 : ℚ) ^ (53 : ℤ) = 2 ^ 53 := by norm_num
    linarith
  have hn : (((52 - e).toNat : ℕ) : ℤ) = 52 - e := Int.toNat_of_nonneg (by omega)
  refine Binary64.round_sub_eq (k := n * 2 ^ (52 - e).toNat) ?_ hpos.le ?_
  · have hcancel : (2 : ℚ) ^ (52 - e).toNat * 2 ^ (e - 52) = 1 := by
      rw [← zpow_natCast, ← zpow_add₀ two_ne_zero, hn, sub_add_sub_cancel', sub_self, zpow_zero]
    rw [Binary64.spacing, ← he]
    push_cast
    rw [mul_assoc, hcancel, mul_one]
  · rw [Binary64.spacing, ← he]
    have hpow : (2 : ℚ) ^ (24 - 52 : ℤ) ≤ 2 ^ (e - 52) :=
      zpow_le_zpow_right₀ one_le_two (by omega)
    calc epsilon < 2 ^ (-29 : ℤ) := hlt
      _ = 2 ^ (24 - 52 : ℤ) / 2 := by norm_num
      _ ≤ 2 ^ (e - 52) / 2 := div_le_div_of_nonneg_right hpow two_pos.le

lemma floatLimit_eq : (floatLimit : ℚ) = (2 ^ 53 - 1 / 2) * Binary64.topSpacing := by
  have htop : Binary64.topSpacing = (2 : ℚ) ^ (970 + 1) := zpow_natCast 2 971
  have hhigh : (2 : ℚ) ^ 1024 = 2 ^ 53 * 2 ^ (970 + 1) := pow_add 2 53 971
  have hlow : (2 : ℚ) ^ (970 + 1) = 2 ^ 970 * 2 := pow_succ 2 970
  have hcast : (floatLimit : ℚ) = 2 ^ 1024 - 2 ^ 970 := by
    rw [floatLimit, Int.cast_sub, Int.cast_pow, Int.cast_pow, Int.cast_ofNat]
  rw [hcast, htop, hhigh, hlow]
  generalize (2 : ℚ) ^ 970 = u
  ring

/-- The integers a float can hold. -/
lemma toDouble_isSome_iff {n : ℤ} (hn : 0 < n) :
    (Binary64.toDouble n).isSome ↔ n < floatLimit := by
  rw [Binary64.toDouble_isSome_iff (by exact_mod_cast hn), ← floatLimit_eq]
  exact_mod_cast Iff.rfl

/-- Up to `2 ^ 53` the bound is the sum itself. -/
lemma searchBound_exact (ht : 2 ^ 24 ≤ t) (hW : 0 < W) (h : t + W ≤ 2 ^ 53) :
    searchBound t W = some ((t + W : ℤ) : ℚ) := by
  have hpos : (0 : ℚ) < (t + W : ℤ) := by exact_mod_cast (by omega : 0 < t + W)
  have hself : Binary64.round (t + W : ℤ) = (t + W : ℤ) :=
    Binary64.round_eq_self (Binary64.representable_int (by omega) h)
  have hsub : Binary64.round ((t + W : ℤ) - epsilon) = (t + W : ℤ) :=
    round_sub_epsilon (by omega) h
  have hrange : ((t + W : ℤ) : ℚ) < 2 ^ (1024 : ℤ) := by
    calc ((t + W : ℤ) : ℚ) ≤ 2 ^ 53 := by exact_mod_cast h
      _ = 2 ^ (53 : ℤ) := by norm_num
      _ < 2 ^ (1024 : ℤ) := zpow_lt_zpow_right₀ one_lt_two (by norm_num)
  have hdiff : (0 : ℚ) < (t + W : ℤ) - epsilon := by
    have hone : (1 : ℚ) ≤ (t + W : ℤ) := by exact_mod_cast (by omega : 1 ≤ t + W)
    have hlt : epsilon < 1 := epsilon_bounds.2.trans (by norm_num)
    linarith
  have hsum : Binary64.toDouble (t + W : ℤ) = some ((t + W : ℤ) : ℚ) := by
    rw [Binary64.toDouble_of_lt hpos (by rwa [hself]), hself]
  have hbound : Binary64.toDouble ((t + W : ℤ) - epsilon) = some ((t + W : ℤ) : ℚ) := by
    rw [Binary64.toDouble_of_lt hdiff (by rwa [hsub]), hsub]
  rw [searchBound, hsum]
  exact hbound

/-- Above, it is still behind every time. -/
lemma searchBound_large (ht : 2 ^ 53 < t + W) (h : t + W < floatLimit) :
    ∃ x, searchBound t W = some x ∧ (2 ^ 53 - 1 : ℤ) ≤ x := by
  have hpos : (0 : ℚ) < (t + W : ℤ) := by exact_mod_cast (by omega : 0 < t + W)
  have hrange : Binary64.round (t + W : ℤ) < 2 ^ (1024 : ℤ) :=
    (Binary64.toDouble_isSome hpos).mp ((toDouble_isSome_iff (by omega)).mpr h)
  have hsum : Binary64.toDouble (t + W : ℤ) = some (Binary64.round (t + W : ℤ)) :=
    Binary64.toDouble_of_lt hpos hrange
  set sum := Binary64.round (t + W : ℤ) with hsumdef
  have hlarge : (((2 : ℤ) ^ 53 : ℤ) : ℚ) ≤ sum :=
    (Binary64.representable_int (by norm_num) le_rfl).le_round (by exact_mod_cast ht.le)
  have hsumpos : 0 < sum := lt_of_lt_of_le (by norm_num) hlarge
  obtain ⟨hepsilon, hlt⟩ := epsilon_bounds
  have hone : epsilon < 1 := hlt.trans (by norm_num)
  have hdiff : (((2 : ℤ) ^ 53 - 1 : ℤ) : ℚ) ≤ sum - epsilon := by
    push_cast at hlarge ⊢
    linarith
  have hdiffpos : 0 < sum - epsilon := lt_of_lt_of_le (by norm_num) hdiff
  have hupper : Binary64.round (sum - epsilon) ≤ sum :=
    (Binary64.representable_round hpos hsumpos).round_le hdiffpos (by linarith)
  refine ⟨Binary64.round (sum - epsilon), ?_, ?_⟩
  · rw [searchBound, hsum]
    exact Binary64.toDouble_of_lt hdiffpos (hupper.trans_lt hrange)
  · exact (Binary64.representable_int (by norm_num) (by norm_num)).le_round hdiff

/-- **The bound separates the times behind `t + W` from the others.** -/
lemma searchBound_spec (ht : 2 ^ 24 ≤ t) (hW : 0 < W) (h : t + W < floatLimit) :
    ∃ x, searchBound t W = some x ∧ ∀ y : ℤ, y < 2 ^ 53 → ((y : ℚ) ≤ x ↔ y ≤ t + W) := by
  rcases le_or_gt (t + W) (2 ^ 53) with hle | hgt
  · refine ⟨_, searchBound_exact ht hW hle, fun y _ => ?_⟩
    exact_mod_cast Iff.rfl
  · obtain ⟨x, hx, hlarge⟩ := searchBound_large hgt h
    refine ⟨x, hx, fun y hy => iff_of_true ?_ (by omega)⟩
    refine le_trans ?_ hlarge
    exact_mod_cast (by omega : y ≤ 2 ^ 53 - 1)

lemma searchBound_none (ht : 0 < t + W) (h : floatLimit ≤ t + W) : searchBound t W = none := by
  have hnone : Binary64.toDouble (t + W : ℤ) = none := by
    rw [← Option.not_isSome_iff_eq_none, toDouble_isSome_iff ht]
    exact not_lt.mpr h
  rw [searchBound, hnone]
  rfl

/-! ### The loop over the times -/

/-- On a list in order, the times the search passes. -/
lemma bisectRight_eq {x : ℚ} (h : times.Pairwise (· ≤ ·)) :
    bisectRight times x = times.countP fun t : ℤ => (t : ℚ) ≤ x := by
  induction times with
  | nil => rfl
  | cons t times ih =>
      obtain ⟨hhead, htail⟩ := List.pairwise_cons.mp h
      by_cases ht : (t : ℚ) ≤ x
      · rw [bisectRight, List.takeWhile_cons_of_pos (by simpa using ht), List.length_cons,
          List.countP_cons_of_pos (by simpa using ht), ← ih htail, bisectRight]
      · have hnone : ∀ y ∈ t :: times, ¬ (y : ℚ) ≤ x := by
          intro y hy hyx
          refine ht (le_trans ?_ hyx)
          rcases List.mem_cons.mp hy with rfl | hy
          · exact le_rfl
          · exact_mod_cast hhead y hy
        rw [bisectRight, List.takeWhile_cons_of_neg (by simpa using ht)]
        exact (List.countP_eq_zero.mpr fun y hy => by simpa using hnone y hy).symm

/-- A turn counts the times from its place on, up to `t + W`. -/
lemma turn_eq {before after : List ℤ} {x : ℚ} (h : (before ++ t :: after).Pairwise (· ≤ ·))
    (hW : 0 < W) (hx : searchBound t W = some x)
    (hspec : ∀ y ∈ before ++ t :: after, ((y : ℚ) ≤ x ↔ y ≤ t + W)) :
    turn (before ++ t :: after) W (t, before.length) =
      some (((t :: after).countP fun y => y ≤ t + W : ℕ) : ℤ) := by
  have hall : before.countP (fun y => y ≤ t + W) = before.length := by
    refine List.countP_eq_length.mpr fun y hy => ?_
    have hle : y ≤ t := (List.pairwise_append.mp h).2.2 y hy t List.mem_cons_self
    simp only [decide_eq_true_eq]
    omega
  have hcount : bisectRight (before ++ t :: after) x =
      before.length + (t :: after).countP fun y => y ≤ t + W := by
    rw [bisectRight_eq h, ← hall, ← List.countP_append]
    exact List.countP_congr fun y hy => by simpa using hspec y hy
  rw [turn, hx, Option.map_some, hcount]
  push_cast
  rw [add_sub_cancel_left]

/-- The times from a place on that are not behind `t + W` lie in the closed window. -/
lemma countP_le_closed {before after : List ℤ} (h : (before ++ t :: after).Pairwise (· ≤ ·)) :
    (t :: after).countP (fun y => y ≤ t + W) ≤ closed W t (before ++ t :: after) := by
  have hge : ∀ y ∈ t :: after, t ≤ y := by
    intro y hy
    rcases List.mem_cons.mp hy with rfl | hy
    · exact le_rfl
    · exact (List.pairwise_cons.mp (List.pairwise_append.mp h).2.1).1 y hy
  calc (t :: after).countP (fun y => y ≤ t + W)
      = closed W t (t :: after) := List.countP_congr fun y hy => by simp [hge y hy]
    _ ≤ closed W t (before ++ t :: after) := by
        rw [closed, closed, List.countP_append]
        omega

/-- At its first place, a time sees its whole closed window. -/
lemma closed_of_first {before after : List ℤ} (h : (before ++ t :: after).Pairwise (· ≤ ·))
    (hfirst : t ∉ before) :
    (t :: after).countP (fun y => y ≤ t + W) = closed W t (before ++ t :: after) := by
  refine le_antisymm (countP_le_closed h) ?_
  have hbefore : before.countP (fun y => t ≤ y ∧ y ≤ t + W) = 0 := by
    refine List.countP_eq_zero.mpr fun y hy hin => ?_
    have hle : y ≤ t := (List.pairwise_append.mp h).2.2 y hy t List.mem_cons_self
    simp only [decide_eq_true_eq] at hin
    exact hfirst (le_antisymm hle hin.1 ▸ hy)
  rw [closed, List.countP_append, hbefore, Nat.zero_add]
  exact List.countP_mono_left fun y _ hy => by simp only [decide_eq_true_eq] at hy ⊢; exact hy.2

/-- The maximum of a loop that may fail. -/
lemma foldlM_max {α : Type} {f : α → Option ℤ} {l : List α} (h : ∀ p ∈ l, (f p).isSome) (b : ℤ) :
    ∃ m, l.foldlM (fun best p => (f p).map (max best)) b = some m ∧ b ≤ m ∧
      (∀ p ∈ l, ∀ v ∈ f p, v ≤ m) ∧ (m = b ∨ ∃ p ∈ l, f p = some m) := by
  induction l generalizing b with
  | nil => exact ⟨b, rfl, le_rfl, by simp, Or.inl rfl⟩
  | cons p l ih =>
      obtain ⟨v, hv⟩ := Option.isSome_iff_exists.mp (h p List.mem_cons_self)
      obtain ⟨m, hfold, hle, hmax, hfrom⟩ :=
        ih (fun q hq => h q (List.mem_cons_of_mem _ hq)) (max b v)
      refine ⟨m, ?_, (le_max_left b v).trans hle, ?_, ?_⟩
      · rw [List.foldlM_cons, hv]
        exact hfold
      · rintro q hq w hw
        rcases List.mem_cons.mp hq with rfl | hq
        · rw [hv, Option.mem_some_iff] at hw
          exact hw ▸ (le_max_right b v).trans hle
        · exact hmax q hq w hw
      · rcases hfrom with rfl | ⟨q, hq, hm⟩
        · rcases max_choice b v with hb | hb
          · exact Or.inl hb
          · exact Or.inr ⟨p, List.mem_cons_self, by rw [hb, hv]⟩
        · exact Or.inr ⟨q, List.mem_cons_of_mem _ hq, hm⟩

lemma foldlM_none {α : Type} {f : α → Option ℤ} {l : List α} (h : ∃ p ∈ l, f p = none) (b : ℤ) :
    l.foldlM (fun best p => (f p).map (max best)) b = none := by
  induction l generalizing b with
  | nil =>
      obtain ⟨p, hp, -⟩ := h
      cases hp
  | cons p l ih =>
      rw [List.foldlM_cons]
      cases hp : f p with
      | none => rfl
      | some v =>
          refine ih ?_ (max b v)
          obtain ⟨q, hq, hnone⟩ := h
          rcases List.mem_cons.mp hq with rfl | hq
          · rw [hp] at hnone
            cases hnone
          · exact ⟨q, hq, hnone⟩

lemma closed_perm {times' : List ℤ} (h : times.Perm times') :
    closed W t times = closed W t times' :=
  h.countP_eq _

/-- **The checker measures closed windows.** -/
lemma maxInWindow_spec (hepoch : ∀ t ∈ times, EpochSize t) (hW : 0 < W)
    (hfloat : ∀ t ∈ times, t + W < floatLimit) :
    ∃ m, maxInWindow times W = some m ∧ 0 ≤ m ∧ (∀ t ∈ times, (closed W t times : ℤ) ≤ m) ∧
      (m = 0 ∨ ∃ t ∈ times, m = closed W t times) := by
  set s := times.insertionSort (· ≤ ·) with hs
  have hperm : s.Perm times := List.perm_insertionSort _ _
  have hsorted : s.Pairwise (· ≤ ·) := List.pairwise_insertionSort _ _
  have hplace : ∀ before t after, s = before ++ t :: after →
      turn s W (t, before.length) =
        some (((t :: after).countP fun y => y ≤ t + W : ℕ) : ℤ) := by
    intro before t after hsplit
    have ht : t ∈ times := hperm.subset (by rw [hsplit]; simp)
    obtain ⟨x, hx, hspec⟩ := searchBound_spec (hepoch t ht).1 hW (hfloat t ht)
    rw [hsplit] at hsorted ⊢
    refine turn_eq hsorted hW hx fun y hy => hspec y (hepoch y (hperm.subset ?_)).2
    rwa [hsplit]
  have hentry : ∀ p ∈ s.zipIdx, ∃ before after, s = before ++ p.1 :: after ∧
      before.length = p.2 := by
    rintro ⟨t, i⟩ hp
    obtain ⟨hi, ht⟩ := List.mem_zipIdx' hp
    refine ⟨s.take i, s.drop (i + 1), ?_, List.length_take_of_le hi.le⟩
    rw [ht, List.cons_getElem_drop_succ, List.take_append_drop]
  have hsome : ∀ p ∈ s.zipIdx, (turn s W p).isSome := by
    rintro ⟨t, i⟩ hp
    obtain ⟨before, after, hsplit, rfl⟩ := hentry _ hp
    rw [hplace before t after hsplit]
    rfl
  obtain ⟨m, hfold, hzero, hmax, hfrom⟩ := foldlM_max hsome 0
  have hclosed : ∀ t ∈ times, (closed W t times : ℤ) ≤ m := by
    intro t ht
    obtain ⟨before, after, hsplit, hfirst⟩ := List.eq_append_cons_of_mem (hperm.symm.subset ht)
    have hmem : (t, before.length) ∈ s.zipIdx := by
      rw [List.mem_zipIdx_iff_getElem?, hsplit]
      simp
    have hle := hmax _ hmem _ (hplace before t after hsplit)
    rwa [closed_of_first (hsplit ▸ hsorted) hfirst, ← hsplit, closed_perm hperm] at hle
  refine ⟨m, hfold, hzero, hclosed, hfrom.imp_right ?_⟩
  rintro ⟨⟨t, i⟩, hp, hm⟩
  obtain ⟨before, after, hsplit, rfl⟩ := hentry _ hp
  have ht : t ∈ times := hperm.subset (by rw [hsplit]; simp)
  have heq := Option.some.inj ((hplace before t after hsplit).symm.trans hm)
  have hle : (t :: after).countP (fun y => y ≤ t + W) ≤ closed W t times := by
    have hcount := countP_le_closed (W := W) (hsplit ▸ hsorted)
    rwa [← hsplit, closed_perm hperm] at hcount
  exact ⟨t, ht, le_antisymm (by rw [← heq]; exact_mod_cast hle) (hclosed t ht)⟩

lemma maxInWindow_none (hW : 0 < W) (ht : t ∈ times) (hepoch : 2 ^ 24 ≤ t)
    (hlarge : floatLimit ≤ t + W) : maxInWindow times W = none := by
  refine foldlM_none ?_ 0
  have hmem : t ∈ times.insertionSort (· ≤ ·) := (List.mem_insertionSort _).mpr ht
  obtain ⟨before, after, hsplit, -⟩ := List.eq_append_cons_of_mem hmem
  refine ⟨(t, before.length), ?_, ?_⟩
  · rw [List.mem_zipIdx_iff_getElem?, hsplit]
    simp
  · rw [turn, searchBound_none (by omega) hlarge]
    rfl

/-! ### Half-open windows -/

lemma halfOpen_eq (x : ℝ) : halfOpen W x times = opened W ⌈x⌉ times := by
  refine List.countP_congr fun y _ => ?_
  simp only [decide_eq_true_eq]
  have hhi : ((y : ℝ) < x + W) ↔ y < ⌈x⌉ + W := by
    rw [← sub_lt_iff_lt_add, ← sub_lt_iff_lt_add, Int.lt_ceil]
    push_cast
    exact Iff.rfl
  rw [hhi, Int.ceil_le]

/-- A half-open window lies in the closed window of its first time. -/
lemma opened_le_closed (h : opened W a times ≠ 0) :
    ∃ t ∈ times, opened W a times ≤ closed W t times := by
  have hne : (times.filter fun x => a ≤ x ∧ x < a + W).toFinset.Nonempty := by
    rw [List.toFinset_nonempty_iff, Ne, ← List.length_eq_zero_iff, ← List.countP_eq_length_filter]
    exact h
  obtain ⟨t, ht, hmin⟩ := Finset.exists_min_image _ id hne
  have hin : ∀ x, x ∈ (times.filter fun x => a ≤ x ∧ x < a + W).toFinset ↔
      x ∈ times ∧ a ≤ x ∧ x < a + W := by
    intro x
    rw [List.mem_toFinset, List.mem_filter, decide_eq_true_eq]
  obtain ⟨ht, hlo, hhi⟩ := (hin t).mp ht
  refine ⟨t, ht, List.countP_mono_left fun x hx hwindow => ?_⟩
  simp only [decide_eq_true_eq] at hwindow ⊢
  have htx : t ≤ x := hmin x ((hin x).mpr ⟨hx, hwindow⟩)
  omega

/-- A closed window that no time ends is half open. -/
lemma closed_eq_opened (h : t + W ∉ times) : closed W t times = opened W t times := by
  refine List.countP_congr fun x hx => ?_
  have hne : x ≠ t + W := fun heq => h (heq ▸ hx)
  simp only [decide_eq_true_eq]
  omega

/-- **Checker and enforcer draw the same line exactly on separated times.** -/
lemma agrees_iff (hepoch : ∀ t ∈ times, EpochSize t) (hW : 0 < W) :
    Agrees times W ↔ Separated times W := by
  constructor
  · rintro ⟨m, hm, ⟨x, hx⟩, -⟩
    have hfloat : ∀ t ∈ times, t + W < floatLimit := by
      intro t ht
      by_contra hge
      rw [maxInWindow_none hW ht (hepoch t ht).1 (not_lt.mp hge)] at hm
      cases hm
    obtain ⟨m', hm', -, hmax, -⟩ := maxInWindow_spec hepoch hW hfloat
    obtain rfl : m = m' := Option.some.inj (hm.symm.trans hm')
    refine ⟨hfloat, fun t ht _ => ⟨⌈x⌉, ?_⟩⟩
    have hle := hmax t ht
    rw [hx, halfOpen_eq] at hle
    exact_mod_cast hle
  · intro h
    obtain ⟨m, hm, hzero, hmax, hfrom⟩ := maxInWindow_spec hepoch hW h.convertible
    have hopened : ∀ a, (opened W a times : ℤ) ≤ m := by
      intro a
      by_cases hne : opened W a times = 0
      · rw [hne]
        exact hzero
      · obtain ⟨t, ht, hle⟩ := opened_le_closed hne
        exact le_trans (by exact_mod_cast hle) (hmax t ht)
    refine ⟨m, hm, ?_, ?_⟩
    · -- a half-open window that holds as many
      obtain ⟨a, ha⟩ : ∃ a, m ≤ opened W a times := by
        rcases hfrom with rfl | ⟨t, ht, rfl⟩
        · exact ⟨0, Int.natCast_nonneg _⟩
        · by_cases hend : t + W ∈ times
          · obtain ⟨a, ha⟩ := h.ends t ht hend
            exact ⟨a, by exact_mod_cast ha⟩
          · exact ⟨t, by rw [closed_eq_opened hend]⟩
      refine ⟨a, ?_⟩
      rw [halfOpen_eq, Int.ceil_intCast]
      exact le_antisymm ha (hopened a)
    · rintro n ⟨x, rfl⟩
      rw [halfOpen_eq]
      exact hopened _

/-! ### The budget -/

section Budget

variable {limit : ℕ} {sellerId : String} {acts : List BudgetAct}

lemma mem_acceptedTimes {bs : List Bool} (h : t ∈ acceptedTimes sellerId acts bs) :
    ∃ a ∈ acts, a.time = t := by
  induction acts generalizing bs with
  | nil => simp [acceptedTimes] at h
  | cons a acts ih =>
      have hrest : ∀ {bs}, t ∈ acceptedTimes sellerId acts bs → ∃ x ∈ a :: acts, x.time = t := by
        intro bs hin
        obtain ⟨x, hx, heq⟩ := ih hin
        exact ⟨x, List.mem_cons_of_mem _ hx, heq⟩
      cases bs with
      | nil => simp [acceptedTimes] at h
      | cons b bs =>
          cases a with
          | purge now limit picked => exact hrest h
          | request seller eventId now =>
              cases b with
              | false => exact hrest h
              | true =>
                  rw [acceptedTimes, List.mem_append] at h
                  rcases h with h | h
                  · split_ifs at h with hseller
                    · rw [List.mem_singleton.mp h]
                      exact ⟨_, List.mem_cons_self, rfl⟩
                    · cases h
                  · exact hrest h

/-- Requests in order are accepted at most `limit` times in a half-open window. -/
lemma spread_accepted (hacts : ∀ a ∈ acts, EpochSize a.time)
    (horder : (acts.map BudgetAct.time).Pairwise (· ≤ ·)) :
    Window.Spread limit W (accepted limit W sellerId acts) := by
  have hordered : Ordered acts := by
    refine ⟨horder, fun a ha => ?_⟩
    obtain ⟨hlo, hhi⟩ := hacts a ha
    omega
  have hspread := @policy_spread limit W sellerId acts (fun _ => []) Window.Spread.nil
  rwa [List.nil_append, ← rolling_policy hordered] at hspread

/-- The rate is within the limit when the closed windows of the recorded times are. -/
lemma within_iff (hepoch : ∀ t ∈ times, EpochSize t) (hW : 0 < W)
    (hfloat : ∀ t ∈ times, t + W < floatLimit) :
    Within limit W times ↔ ∀ t ∈ times, closed W t times ≤ limit := by
  obtain ⟨m, hm, -, hmax, hfrom⟩ := maxInWindow_spec hepoch hW hfloat
  constructor
  · rintro ⟨m', hm', hle⟩ t ht
    obtain rfl : m = m' := Option.some.inj (hm.symm.trans hm')
    exact_mod_cast (hmax t ht).trans hle
  · intro h
    refine ⟨m, hm, ?_⟩
    rcases hfrom with rfl | ⟨t, ht, rfl⟩
    · exact Int.natCast_nonneg limit
    · exact_mod_cast h t ht

/-- The times of requests since the epoch, and their sums with a `long`. -/
lemma accepted_epoch (hacts : ∀ a ∈ acts, EpochSize a.time) (hW : W < 2 ^ 63) :
    ∀ t ∈ accepted limit W sellerId acts, EpochSize t ∧ t + W < floatLimit := by
  intro t ht
  obtain ⟨a, ha, rfl⟩ := mem_acceptedTimes ht
  obtain ⟨hlo, hhi⟩ := hacts a ha
  have hlimit : (2 : ℤ) ^ 53 + 2 ^ 63 < floatLimit := by decide +kernel
  exact ⟨⟨hlo, hhi⟩, by linarith⟩

/-- In order, a closed window that no accepted time ends is within the limit. -/
lemma closed_accepted_le (hacts : ∀ a ∈ acts, EpochSize a.time)
    (horder : (acts.map BudgetAct.time).Pairwise (· ≤ ·))
    (h : t + W ∉ accepted limit W sellerId acts) :
    closed W t (accepted limit W sellerId acts) ≤ limit := by
  rw [closed_eq_opened h]
  exact spread_accepted hacts horder t

end Budget

end OrderSystem.Experiments
