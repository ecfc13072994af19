/-
Rounding to IEEE binary64, on the rationals.

* `round`: the nearest number with a significand of 53 bits, half to even. Below the smallest
  normal number the spacing stays what it is there.
* `toDouble`: the conversion, which fails when the rounded value is out of range.
* `Representable`, `round_eq_self`, `round_mono`: rounding keeps the numbers of the format, and
  the order.
* `toDouble_isSome_iff`: the numbers that have a finite value.
* `round_sub_eq`: taking away less than half of the spacing changes nothing.
-/
import Mathlib.Algebra.Order.Floor.Ring
import Mathlib.Data.Int.Log
import Mathlib.Tactic

namespace Binary64

/-- The nearest integer, half to even. -/
def roundEven (x : ℚ) : ℤ :=
  if x - ⌊x⌋ < 1 / 2 then ⌊x⌋
  else if 1 / 2 < x - ⌊x⌋ then ⌊x⌋ + 1
  else if Even ⌊x⌋ then ⌊x⌋ else ⌊x⌋ + 1

/-- The exponent of the leading bit, at least that of the smallest normal number. -/
def exponent (x : ℚ) : ℤ :=
  max (Int.log 2 |x|) (-1022)

/-- The distance of the numbers of the format next to `x`. -/
def spacing (x : ℚ) : ℚ :=
  2 ^ (exponent x - 52)

/-- The nearest number of the format, half to even. -/
def round (x : ℚ) : ℚ :=
  roundEven (x / spacing x) * spacing x

/-- The conversion to a finite number of the format. -/
def toDouble (x : ℚ) : Option ℚ :=
  if |round x| < 2 ^ (1024 : ℤ) then some (round x) else none

variable {x y : ℚ}

/-! ### The nearest integer -/

lemma le_roundEven {m : ℤ} (h : (m : ℚ) ≤ x) : m ≤ roundEven x := by
  have hfloor : m ≤ ⌊x⌋ := Int.le_floor.mpr h
  unfold roundEven
  split_ifs <;> omega

lemma roundEven_le {m : ℤ} (h : x ≤ m) : roundEven x ≤ m := by
  rcases eq_or_lt_of_le h with rfl | hlt
  · simp [roundEven]
  · have hfloor : ⌊x⌋ < m := Int.floor_lt.mpr hlt
    unfold roundEven
    split_ifs <;> omega

lemma floor_le_roundEven (x : ℚ) : ⌊x⌋ ≤ roundEven x :=
  le_roundEven (Int.floor_le x)

lemma roundEven_le_floor (x : ℚ) : roundEven x ≤ ⌊x⌋ + 1 := by
  refine roundEven_le ?_
  push_cast
  exact (Int.lt_floor_add_one x).le

lemma roundEven_mono (h : x ≤ y) : roundEven x ≤ roundEven y := by
  by_cases hfloor : ⌊x⌋ = ⌊y⌋
  · unfold roundEven
    rw [hfloor]
    split_ifs <;> first | omega | (exfalso; linarith)
  · have hlt : ⌊x⌋ < ⌊y⌋ := lt_of_le_of_ne (Int.floor_mono h) hfloor
    calc roundEven x ≤ ⌊x⌋ + 1 := roundEven_le_floor x
      _ ≤ ⌊y⌋ := hlt
      _ ≤ roundEven y := floor_le_roundEven y

lemma roundEven_eq {m : ℤ} (hlo : (m : ℚ) - 1 / 2 < x) (hhi : x < m + 1 / 2) :
    roundEven x = m := by
  rcases le_or_gt (m : ℚ) x with hle | hlt
  · have hfloor : ⌊x⌋ = m := Int.floor_eq_iff.mpr ⟨hle, by linarith⟩
    rw [roundEven, hfloor, if_pos (by linarith)]
  · have hfloor : ⌊x⌋ = m - 1 :=
      Int.floor_eq_iff.mpr ⟨by push_cast; linarith, by push_cast; linarith⟩
    rw [roundEven, hfloor, if_neg (by push_cast; linarith), if_pos (by push_cast; linarith)]
    omega

/-! ### The spacing -/

lemma spacing_pos (x : ℚ) : 0 < spacing x :=
  zpow_pos two_pos _

lemma lt_exponent_succ (hx : 0 < x) : x < 2 ^ (exponent x + 1) := by
  have hlog : x < 2 ^ (Int.log 2 |x| + 1) := by
    have h := Int.lt_zpow_succ_log_self (b := 2) one_lt_two x
    rw [abs_of_pos hx]
    exact_mod_cast h
  refine hlog.trans_le (zpow_le_zpow_right₀ one_le_two ?_)
  exact add_le_add_left (le_max_left _ _) 1

lemma exponent_le (hx : 0 < x) (h : -1022 < exponent x) : 2 ^ exponent x ≤ x := by
  have hlog : exponent x = Int.log 2 x := by
    unfold exponent at h ⊢
    rw [abs_of_pos hx] at h ⊢
    omega
  rw [hlog]
  exact_mod_cast Int.zpow_log_le_self (b := 2) one_lt_two hx

/-- A normal number has the exponent of the powers of two around it. -/
lemma exponent_eq {e : ℤ} (he : -1022 ≤ e) (hlo : 2 ^ e ≤ x) (hhi : x < 2 ^ (e + 1)) :
    exponent x = e := by
  have hx : 0 < x := (zpow_pos two_pos e).trans_le hlo
  have hlog : Int.log 2 x = e := by
    refine le_antisymm ?_ ?_
    · have hlt : Int.log 2 x < e + 1 := by
        refine (Int.lt_zpow_iff_log_lt one_lt_two hx).mp ?_
        exact_mod_cast hhi
      omega
    · refine (Int.zpow_le_iff_le_log one_lt_two hx).mp ?_
      exact_mod_cast hlo
  rw [exponent, abs_of_pos hx, hlog, max_eq_left he]

lemma exponent_mono (hx : 0 < x) (h : x ≤ y) : exponent x ≤ exponent y := by
  unfold exponent
  rw [abs_of_pos hx, abs_of_pos (hx.trans_le h)]
  exact max_le_max_right _ (Int.log_mono_right hx h)

/-- A number is less than `2 ^ 53` times its spacing. -/
lemma div_spacing_lt (hx : 0 < x) : x / spacing x < 2 ^ 53 := by
  rw [div_lt_iff₀ (spacing_pos x), spacing]
  calc x < 2 ^ (exponent x + 1) := lt_exponent_succ hx
    _ = 2 ^ 53 * 2 ^ (exponent x - 52) := by
        rw [← zpow_natCast, ← zpow_add₀ two_ne_zero]
        congr 1
        push_cast
        ring

/-! ### The order -/

lemma round_le_zpow (hx : 0 < x) : round x ≤ 2 ^ (exponent x + 1) := by
  have hle : roundEven (x / spacing x) ≤ 2 ^ 53 :=
    roundEven_le (by exact_mod_cast (div_spacing_lt hx).le)
  calc round x ≤ 2 ^ 53 * spacing x := by
        refine mul_le_mul_of_nonneg_right ?_ (spacing_pos x).le
        exact_mod_cast hle
    _ = 2 ^ (exponent x + 1) := by
        rw [spacing, ← zpow_natCast, ← zpow_add₀ two_ne_zero]
        congr 1
        push_cast
        ring

lemma zpow_le_round (hx : 0 < x) (h : -1022 < exponent x) : 2 ^ exponent x ≤ round x := by
  have hdiv : (2 ^ 52 : ℚ) ≤ x / spacing x := by
    rw [le_div_iff₀ (spacing_pos x), spacing, ← zpow_natCast, ← zpow_add₀ two_ne_zero]
    refine le_trans (le_of_eq ?_) (exponent_le hx h)
    congr 1
    push_cast
    ring
  have hle : (2 ^ 52 : ℤ) ≤ roundEven (x / spacing x) := le_roundEven (by exact_mod_cast hdiv)
  calc (2 : ℚ) ^ exponent x = 2 ^ 52 * spacing x := by
        rw [spacing, ← zpow_natCast, ← zpow_add₀ two_ne_zero]
        congr 1
        push_cast
        ring
    _ ≤ round x := by
        refine mul_le_mul_of_nonneg_right ?_ (spacing_pos x).le
        exact_mod_cast hle

/-- **Rounding keeps the order.** -/
theorem round_mono (hx : 0 < x) (h : x ≤ y) : round x ≤ round y := by
  rcases eq_or_lt_of_le (exponent_mono hx h) with heq | hlt
  · have hspacing : spacing x = spacing y := by rw [spacing, spacing, heq]
    rw [round, round, hspacing]
    refine mul_le_mul_of_nonneg_right ?_ (spacing_pos y).le
    exact_mod_cast roundEven_mono (div_le_div_of_nonneg_right h (spacing_pos y).le)
  · have hnormal : -1022 < exponent y := lt_of_le_of_lt (le_max_right _ _) hlt
    calc round x ≤ 2 ^ (exponent x + 1) := round_le_zpow hx
      _ ≤ 2 ^ exponent y := zpow_le_zpow_right₀ one_le_two hlt
      _ ≤ round y := zpow_le_round (hx.trans_le h) hnormal

/-! ### The numbers of the format -/

/-- A number with a significand of at most 53 bits. -/
def Representable (x : ℚ) : Prop :=
  ∃ k p : ℤ, 0 < k ∧ k ≤ 2 ^ 53 ∧ -1074 ≤ p ∧ x = k * 2 ^ p

lemma Representable.pos (h : Representable x) : 0 < x := by
  obtain ⟨k, p, hk, -, -, rfl⟩ := h
  exact mul_pos (by exact_mod_cast hk) (zpow_pos two_pos p)

/-- A multiple of its spacing is kept. -/
lemma round_of_multiple {k : ℤ} (h : x = k * spacing x) : round x = x := by
  have hdiv : x / spacing x = k := by
    rw [div_eq_iff (spacing_pos x).ne']
    exact h
  have hround : roundEven (x / spacing x) = k :=
    roundEven_eq (by rw [hdiv]; linarith) (by rw [hdiv]; linarith)
  rw [round, hround]
  exact h.symm

/-- **The numbers of the format are kept.** -/
theorem round_eq_self (h : Representable x) : round x = x := by
  have hx := h.pos
  obtain ⟨k, p, hk, hk53, hp, hxk⟩ := h
  have htwo : ∀ n : ℕ, ∀ q : ℤ, (2 : ℚ) ^ n * 2 ^ q = 2 ^ (n + q) := by
    intro n q
    rw [← zpow_natCast, ← zpow_add₀ two_ne_zero]
  rcases le_or_gt (exponent x - 52) p with hle | hlt
  · -- the spacing is not larger than that of the significand
    refine round_of_multiple (k := k * 2 ^ (p - (exponent x - 52)).toNat) ?_
    have hn : (((p - (exponent x - 52)).toNat : ℕ) : ℤ) = p - (exponent x - 52) :=
      Int.toNat_of_nonneg (by omega)
    rw [spacing]
    push_cast
    rw [mul_assoc, htwo, hn, sub_add_cancel]
    exact hxk
  · -- the significand is `2 ^ 53`
    have hnormal : -1022 < exponent x := by omega
    have hle : (2 : ℚ) ^ exponent x ≤ 2 ^ (53 + p) := by
      calc (2 : ℚ) ^ exponent x ≤ x := exponent_le hx hnormal
        _ ≤ 2 ^ 53 * 2 ^ p := by
            rw [hxk]
            refine mul_le_mul_of_nonneg_right ?_ (zpow_pos two_pos p).le
            exact_mod_cast hk53
        _ = 2 ^ (53 + p) := by exact_mod_cast htwo 53 p
    have hexponent : exponent x = 53 + p := by
      have := (zpow_le_zpow_iff_right₀ (one_lt_two (α := ℚ))).mp hle
      omega
    have hk' : (2 : ℚ) ^ 53 ≤ k := by
      have hle' := exponent_le hx hnormal
      rw [hexponent, hxk] at hle'
      refine le_of_mul_le_mul_right ?_ (zpow_pos (two_pos (α := ℚ)) p)
      refine le_trans (le_of_eq ?_) hle'
      exact_mod_cast htwo 53 p
    have hkeq : (k : ℚ) = 2 ^ 53 := le_antisymm (by exact_mod_cast hk53) hk'
    have hshift : (2 : ℚ) ^ 53 * 2 ^ p = 2 ^ 52 * 2 ^ (53 + p - 52) := by
      rw [htwo, htwo]
      congr 1
      push_cast
      ring
    refine round_of_multiple (k := 2 ^ 52) ?_
    rw [spacing, hexponent, hxk, hkeq]
    exact_mod_cast hshift

lemma representable_round (hx : 0 < x) (h : 0 < round x) : Representable (round x) := by
  refine ⟨roundEven (x / spacing x), exponent x - 52, ?_, ?_, ?_, rfl⟩
  · have hpos : (0 : ℚ) < roundEven (x / spacing x) := 
      (mul_pos_iff_of_pos_right (spacing_pos x)).mp h
    exact_mod_cast hpos
  · exact roundEven_le (by exact_mod_cast (div_spacing_lt hx).le)
  · have : -1022 ≤ exponent x := le_max_right _ _
    omega

/-- A number of the format below `x` stays below its rounded value. -/
lemma Representable.le_round {v : ℚ} (h : Representable v) (hle : v ≤ x) : v ≤ round x := by
  calc v = round v := (round_eq_self h).symm
    _ ≤ round x := round_mono h.pos hle

lemma Representable.round_le {v : ℚ} (h : Representable v) (hx : 0 < x) (hle : x ≤ v) :
    round x ≤ v := by
  calc round x ≤ round v := round_mono hx hle
    _ = v := round_eq_self h

/-- Integers of at most 53 bits are numbers of the format. -/
lemma representable_int {n : ℤ} (hn : 0 < n) (hle : n ≤ 2 ^ 53) : Representable n :=
  ⟨n, 0, hn, hle, by norm_num, by simp⟩

lemma representable_zpow {e : ℤ} (he : -1074 ≤ e) : Representable (2 ^ e) :=
  ⟨1, e, one_pos, by norm_num, he, by simp⟩

/-! ### The conversion -/

lemma round_nonneg (hx : 0 < x) : 0 ≤ round x := by
  refine mul_nonneg ?_ (spacing_pos x).le
  have hle : (0 : ℤ) ≤ roundEven (x / spacing x) :=
    le_roundEven (by exact_mod_cast (div_pos hx (spacing_pos x)).le)
  exact_mod_cast hle

lemma toDouble_of_lt (hx : 0 < x) (h : round x < 2 ^ (1024 : ℤ)) :
    toDouble x = some (round x) := by
  rw [toDouble, if_pos]
  rwa [abs_of_nonneg (round_nonneg hx)]

lemma toDouble_isSome (hx : 0 < x) : (toDouble x).isSome ↔ round x < 2 ^ (1024 : ℤ) := by
  by_cases h : round x < 2 ^ (1024 : ℤ)
  · simp only [toDouble_of_lt hx h, Option.isSome_some, h]
  · rw [toDouble, abs_of_nonneg (round_nonneg hx), if_neg h]
    simp only [Option.isSome_none, Bool.false_eq_true, h]

/-- The spacing of the greatest numbers. -/
def topSpacing : ℚ :=
  2 ^ (971 : ℤ)

lemma topSpacing_pos : 0 < topSpacing :=
  zpow_pos two_pos _

lemma mul_topSpacing (n : ℕ) : 2 ^ n * topSpacing = 2 ^ (971 + n : ℤ) := by
  rw [topSpacing, ← zpow_natCast, ← zpow_add₀ two_ne_zero, add_comm]

lemma range_eq : (2 : ℚ) ^ (1024 : ℤ) = 2 ^ 53 * topSpacing :=
  (mul_topSpacing 53).symm

lemma spacing_top (hlo : 2 ^ 52 * topSpacing ≤ x) (hhi : x < 2 ^ 53 * topSpacing) :
    spacing x = topSpacing := by
  rw [mul_topSpacing] at hlo hhi
  have hexponent : exponent x = 971 + 52 := exponent_eq (by norm_num) hlo hhi
  rw [spacing, hexponent, add_sub_cancel_right, topSpacing]

/-- The greatest number of the format. -/
lemma representable_max : Representable ((2 ^ 53 - 1) * topSpacing) :=
  ⟨2 ^ 53 - 1, 971, by norm_num, by norm_num, by norm_num, congrArg (· * _) (by norm_num)⟩

/-- The middle between the greatest number and the next power of two is rounded up. -/
lemma round_middle : round ((2 ^ 53 - 1 / 2) * topSpacing) = 2 ^ 53 * topSpacing := by
  have hpos := topSpacing_pos
  have hspacing : spacing ((2 ^ 53 - 1 / 2) * topSpacing) = topSpacing :=
    spacing_top (by linarith) (by linarith)
  have hhalf : roundEven (2 ^ 53 - 1 / 2) = 2 ^ 53 := by
    have hfloor : ⌊(2 ^ 53 - 1 / 2 : ℚ)⌋ = 2 ^ 53 - 1 :=
      Int.floor_eq_iff.mpr ⟨by norm_num, by norm_num⟩
    rw [roundEven, hfloor, if_neg (by norm_num), if_neg (by norm_num), if_neg (by decide)]
    norm_num
  rw [round, hspacing, mul_div_cancel_right₀ _ hpos.ne', hhalf]
  norm_num

/-- **The numbers with a finite value** are those below the middle between the greatest number
and the next power of two. -/
theorem toDouble_isSome_iff (hx : 0 < x) :
    (toDouble x).isSome ↔ x < (2 ^ 53 - 1 / 2) * topSpacing := by
  have hpos := topSpacing_pos
  rw [toDouble_isSome hx, range_eq]
  constructor
  · intro h
    by_contra hge
    have hle := round_mono (by linarith) (not_lt.mp hge)
    rw [round_middle] at hle
    linarith
  · intro h
    rcases le_or_gt x ((2 ^ 53 - 1) * topSpacing) with hle | hgt
    · have hround := representable_max.round_le hx hle
      linarith
    · have hspacing : spacing x = topSpacing := spacing_top (by linarith) (by linarith)
      have hdiv : roundEven (x / topSpacing) = 2 ^ 53 - 1 := by
        refine roundEven_eq ?_ ?_
        · rw [lt_div_iff₀ hpos]
          push_cast
          linarith
        · rw [div_lt_iff₀ hpos]
          push_cast
          linarith
      rw [round, hspacing, hdiv]
      push_cast
      linarith

/-- Taking away less than half of the spacing changes nothing. -/
lemma round_sub_eq {k : ℤ} {c : ℚ} (hx : x = k * spacing (x - c)) (hc : 0 ≤ c)
    (hlt : c < spacing (x - c) / 2) : round (x - c) = x := by
  have hpos := spacing_pos (x - c)
  have hdiv : roundEven ((x - c) / spacing (x - c)) = k := by
    refine roundEven_eq ?_ ?_
    · rw [lt_div_iff₀ hpos]
      linarith
    · rw [div_lt_iff₀ hpos]
      linarith
  rw [round, hdiv]
  exact hx.symm

end Binary64
