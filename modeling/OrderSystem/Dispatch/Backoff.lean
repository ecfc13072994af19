/-
The backoff of a delivery that failed (`RetryBackoff`).

* `RetryBackoff.ceiling`, `RetryBackoff.delayMs`: the shift and the sum wrap around like
  those of a `long`. The draw is `SplittableRandom.nextLong(bound)`, a function of the seed
  and the bound that raises (`none`) for a bound that is not positive (`Lawful`).
* `ceiling_eq`, `ceiling_mono`: below an initial delay of `2 ^ 33` the shift never wraps.
* `exists_ceiling_neg`: from there on some number of failures makes the ceiling negative.
* `backoff_within_ceiling_iff`: the wait stays within the growing ceiling exactly below it.
-/
import OrderSystem.Common.Events

namespace OrderSystem.Dispatch

/-! ### The draw -/

/-- One bit of `java.util.zip.CRC32`. -/
def crc32Bit (crc : BitVec 32) : BitVec 32 :=
  if crc.getLsbD 0 then (crc >>> 1) ^^^ 0xEDB88320#32 else crc >>> 1

/-- `CRC32.update` on a byte. -/
def crc32Byte (crc : BitVec 32) (byte : UInt8) : BitVec 32 :=
  crc32Bit^[8] (crc ^^^ byte.toBitVec.setWidth 32)

/-- `CRC32.getValue()` after all bytes of a text. -/
def crc32 (text : String) : ℤ :=
  (~~~ (text.toUTF8.toList.foldl crc32Byte 0xFFFFFFFF#32)).toNat

/-- `new SplittableRandom(seed).nextLong(bound)`. -/
abbrev NextLong := ℤ → ℤ → Option ℤ

/-- What is assumed of the generator. -/
structure Lawful (nextLong : NextLong) : Prop where
  raises : ∀ seed bound, bound ≤ 0 → nextLong seed bound = none
  draws : ∀ seed bound, 0 < bound → ∃ v, nextLong seed bound = some v ∧ 0 ≤ v ∧ v < bound

/-! ### `RetryBackoff` -/

/-- The fields of a `RetryBackoff`. -/
structure RetryBackoff where
  initialMs : ℤ
  maxMs : ℤ
  seed : ℤ
  deriving DecidableEq, Repr

/-- The places of the shift. -/
def exponent (failures : ℤ) : ℕ :=
  (max 0 (min (Int.bmod (failures - 1) (2 ^ 32)) 30)).toNat

namespace RetryBackoff

/-- The ceiling of the draw. -/
def ceiling (b : RetryBackoff) (failures : ℤ) : ℤ :=
  min b.maxMs (javaLong (b.initialMs * 2 ^ exponent failures))

/-- `delayMs`. -/
def delayMs (nextLong : NextLong) (b : RetryBackoff) (eventId : String) (failures : ℤ) :
    Option ℤ :=
  nextLong (crc32 (toString b.seed ++ "/" ++ eventId ++ "/" ++ toString failures))
    (javaLong (b.ceiling failures + 1))

/-- The fields are `long` values that are not negative. -/
structure Delays (b : RetryBackoff) : Prop where
  initial : 0 ≤ b.initialMs ∧ b.initialMs < 2 ^ 63
  max : 0 ≤ b.maxMs ∧ b.maxMs < 2 ^ 63

end RetryBackoff

example : crc32 "123456789" = 0xCBF43926 := by decide +kernel

/-! ### The shift -/

variable {b : RetryBackoff} {failures failures' n : ℤ} {e : ℕ}

lemma javaLong_eq (h : -2 ^ 63 ≤ n) (h' : n < 2 ^ 63) : javaLong n = n := by
  unfold javaLong
  exact Int.bmod_eq_of_le (by omega) (by omega)

/-- A product past the sign bit is negative. -/
lemma javaLong_neg (h : 2 ^ 63 ≤ n) (h' : n < 2 ^ 64) : javaLong n < 0 := by
  have hwrap : javaLong n = javaLong (n - 2 ^ 64) := by
    unfold javaLong
    exact (Int.sub_bmod_right n (2 ^ 64)).symm
  rw [hwrap, javaLong_eq (by omega) (by omega)]
  omega

lemma exponent_eq (h : 1 ≤ failures) (h' : failures < 2 ^ 31) :
    (exponent failures : ℤ) = min (failures - 1) 30 := by
  have hint : Int.bmod (failures - 1) (2 ^ 32) = failures - 1 :=
    Int.bmod_eq_of_le (by omega) (by omega)
  rw [exponent, hint]
  omega

lemma exponent_le (failures : ℤ) : exponent failures ≤ 30 := by
  unfold exponent
  omega

lemma exponent_mono (h : 1 ≤ failures) (hle : failures ≤ failures') (h' : failures' < 2 ^ 31) :
    exponent failures ≤ exponent failures' := by
  have := exponent_eq h (by omega)
  have := exponent_eq (h.trans hle) h'
  omega

/-- The places that a number of failures stands for. -/
lemma exponent_succ (he : e ≤ 30) : exponent (e + 1) = e := by
  have := @exponent_eq ((e : ℤ) + 1) (by omega) (by omega)
  omega

/-! ### Small initial delays -/

lemma shift_lt (hlt : b.initialMs < 2 ^ 33) (he : e ≤ 30) : b.initialMs * 2 ^ e < 2 ^ 63 - 1 := by
  have hle : b.initialMs ≤ 2 ^ 33 - 1 := by omega
  calc b.initialMs * 2 ^ e ≤ (2 ^ 33 - 1) * 2 ^ e := by gcongr
    _ ≤ (2 ^ 33 - 1) * 2 ^ 30 := by gcongr; norm_num
    _ < 2 ^ 63 - 1 := by norm_num

/-- Below `2 ^ 33` the shift does not wrap. -/
lemma ceiling_eq (hb : b.Delays) (hlt : b.initialMs < 2 ^ 33) (failures : ℤ) :
    b.ceiling failures = min b.maxMs (b.initialMs * 2 ^ exponent failures) := by
  have hnonneg : 0 ≤ b.initialMs * 2 ^ exponent failures :=
    mul_nonneg hb.initial.1 (by positivity)
  have hsmall := shift_lt hlt (exponent_le failures)
  rw [RetryBackoff.ceiling, javaLong_eq (by omega) (by omega)]

lemma ceiling_mono (hb : b.Delays) (hlt : b.initialMs < 2 ^ 33) (h : 1 ≤ failures)
    (hle : failures ≤ failures') (h' : failures' < 2 ^ 31) :
    b.ceiling failures ≤ b.ceiling failures' := by
  rw [ceiling_eq hb hlt, ceiling_eq hb hlt]
  refine min_le_min_left _ (mul_le_mul_of_nonneg_left ?_ hb.initial.1)
  exact pow_le_pow_right₀ (by norm_num) (exponent_mono h hle h')

/-- The ceiling is at most what the delay without the clamp of the shift would be. -/
lemma ceiling_le (hb : b.Delays) (hlt : b.initialMs < 2 ^ 33) (h : 1 ≤ failures)
    (h' : failures < 2 ^ 31) :
    b.ceiling failures ≤ min b.maxMs (b.initialMs * 2 ^ (failures - 1).toNat) := by
  have hexponent := exponent_eq h h'
  rw [ceiling_eq hb hlt]
  refine min_le_min_left _ (mul_le_mul_of_nonneg_left ?_ hb.initial.1)
  exact pow_le_pow_right₀ (by norm_num) (by omega)

lemma ceiling_nonneg (hb : b.Delays) (hlt : b.initialMs < 2 ^ 33) (failures : ℤ) :
    0 ≤ b.ceiling failures := by
  rw [ceiling_eq hb hlt]
  exact le_min hb.max.1 (mul_nonneg hb.initial.1 (by positivity))

/-- The draw is within the ceiling. -/
lemma delayMs_eq_some {nextLong : NextLong} (hn : Lawful nextLong) (hb : b.Delays)
    (hlt : b.initialMs < 2 ^ 33) (eventId : String) (failures : ℤ) :
    ∃ d, b.delayMs nextLong eventId failures = some d ∧ 0 ≤ d ∧ d ≤ b.ceiling failures := by
  have hnonneg := ceiling_nonneg hb hlt failures
  have hsmall : b.ceiling failures < 2 ^ 63 - 1 := by
    rw [ceiling_eq hb hlt]
    exact (min_le_right _ _).trans_lt (shift_lt hlt (exponent_le failures))
  have hbound : javaLong (b.ceiling failures + 1) = b.ceiling failures + 1 :=
    javaLong_eq (by omega) (by omega)
  obtain ⟨d, hd, h0, hle⟩ := hn.draws
    (crc32 (toString b.seed ++ "/" ++ eventId ++ "/" ++ toString failures))
    (b.ceiling failures + 1) (by omega)
  refine ⟨d, ?_, h0, by omega⟩
  rw [RetryBackoff.delayMs, hbound, hd]

/-! ### Large initial delays -/

/-- From `2 ^ 33` on, the first shift that leaves the positive numbers is negative. -/
lemma exists_shift_neg (hlt : n < 2 ^ 63) (hle : 2 ^ 33 ≤ n) :
    ∃ e ≤ 30, javaLong (n * 2 ^ e) < 0 := by
  have hex : ∃ e : ℕ, 2 ^ 63 ≤ n * 2 ^ e := ⟨30, by omega⟩
  have hfirst := Nat.find_spec hex
  have hbefore : ∀ m < Nat.find hex, n * 2 ^ m < 2 ^ 63 := fun m hm =>
    not_le.mp (Nat.find_min hex hm)
  refine ⟨Nat.find hex, Nat.find_min' hex (by omega), javaLong_neg hfirst ?_⟩
  cases hfind : Nat.find hex with
  | zero =>
      rw [hfind] at hfirst
      omega
  | succ m =>
      have := hbefore m (by omega)
      rw [pow_succ, ← mul_assoc]
      omega

/-- A negative ceiling raises. -/
lemma delayMs_eq_none {nextLong : NextLong} (hn : Lawful nextLong) (hb : b.Delays)
    (hneg : b.ceiling failures < 0) (eventId : String) :
    b.delayMs nextLong eventId failures = none := by
  have hlow : -2 ^ 63 ≤ b.ceiling failures := by
    refine le_min (by have := hb.max.1; omega) ?_
    exact (Int.le_bmod (by norm_num)).trans' (by norm_num)
  rw [RetryBackoff.delayMs, javaLong_eq (by omega) (by omega)]
  exact hn.raises _ _ (by omega)

/-! ### The result -/

/-- A generator that always draws zero. -/
def drawsZero : NextLong := fun _ bound => if bound ≤ 0 then none else some 0

lemma lawful_drawsZero : Lawful drawsZero :=
  ⟨fun _ _ h => if_pos h, fun _ _ h => ⟨0, if_neg (not_le.mpr h), le_rfl, h⟩⟩

/-- The wait is between 0 and the full delay, and the ceiling does not decrease. -/
structure StaysWithin (b : RetryBackoff) : Prop where
  within : ∀ nextLong, Lawful nextLong → ∀ eventId failures, 1 ≤ failures → failures < 2 ^ 31 →
    ∃ d, b.delayMs nextLong eventId failures = some d ∧ 0 ≤ d ∧
      d ≤ min b.maxMs (b.initialMs * 2 ^ (failures - 1).toNat)
  grows : ∀ failures failures', 1 ≤ failures → failures ≤ failures' → failures' < 2 ^ 31 →
    b.ceiling failures ≤ b.ceiling failures'

/-- **The backoff stays within a growing ceiling exactly below an initial delay of
`2 ^ 33` milliseconds**, whatever the maximum and the seed. -/
theorem backoff_within_ceiling_iff (hb : b.Delays) : StaysWithin b ↔ b.initialMs < 2 ^ 33 := by
  constructor
  · intro h
    by_contra hlarge
    obtain ⟨e, he, hneg⟩ := exists_shift_neg hb.initial.2 (not_lt.mp hlarge)
    have hceiling : b.ceiling (e + 1) < 0 := by
      rw [RetryBackoff.ceiling, exponent_succ he]
      exact (min_le_right _ _).trans_lt hneg
    obtain ⟨d, hd, -⟩ := h.within drawsZero lawful_drawsZero "" (e + 1) (by omega) (by omega)
    rw [delayMs_eq_none lawful_drawsZero hb hceiling] at hd
    cases hd
  · intro hlt
    refine ⟨fun nextLong hn eventId failures h h' => ?_, fun failures failures' h hle h' =>
      ceiling_mono hb hlt h hle h'⟩
    obtain ⟨d, hd, h0, hle⟩ := delayMs_eq_some hn hb hlt eventId failures
    exact ⟨d, hd, h0, hle.trans (ceiling_le hb hlt h h')⟩

theorem backoff_within_ceiling_of_default :
    StaysWithin ⟨300, 5000, 1251⟩ ↔ (300 : ℤ) < 2 ^ 33 :=
  backoff_within_ceiling_iff ⟨⟨by norm_num, by norm_num⟩, ⟨by norm_num, by norm_num⟩⟩

/-- A base delay of `2 ^ 62` milliseconds: the second failure raises. -/
theorem backoff_raises_after_shift :
    ¬ ∀ b : RetryBackoff, b.Delays → StaysWithin b := by
  intro h
  obtain ⟨d, hd, -⟩ := (h ⟨2 ^ 62, 2 ^ 63 - 1, 1251⟩
    ⟨⟨by norm_num, by norm_num⟩, ⟨by norm_num, by norm_num⟩⟩).within drawsZero lawful_drawsZero
      "e-1" 2 (by norm_num) (by norm_num)
  have hraises : RetryBackoff.delayMs drawsZero ⟨2 ^ 62, 2 ^ 63 - 1, 1251⟩ "e-1" 2 = none := by
    decide +kernel
  rw [hraises] at hd
  cases hd

end OrderSystem.Dispatch
