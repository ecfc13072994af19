/-
The rate of the dispatch limiter.

* `fits`: no reservation comes near the end of `long`.
* `Spaced`: the slots keep the distance of the interval, and nobody returns before its slot;
  `reachable_spaced`: so it is in every run, at every rate.
* `limiter_rate_iff`: the slots of a second are at most `ratePerSecond` in every run exactly
  when the truncated division loses nothing, or is clamped.
-/
import OrderSystem.Foundations.Window
import OrderSystem.Notification.Limiter

namespace OrderSystem.Notification

open Interleaving

/-- The slots reserved so far, and the times of those who went on. -/
structure Spaced (interval : ℤ) (s : Store) : Prop where
  slots : s.slots.Pairwise fun x y => x + interval ≤ y
  returned : ∀ r ∈ s.returned, r.1 ≤ r.2

/-- The next slot and its distance from the start are in the range of `long`. -/
def fits (interval start : ℤ) (c : Config Store Proc) (t : ℕ) (_ : Act) : Prop :=
  match c.procs t with
  | .acquiring _ (.cas _ reserved) => reserved + interval < 2 ^ 63 ∧ reserved - start < 2 ^ 63
  | _ => True

instance (interval start : ℤ) (c : Config Store Proc) (t : ℕ) (a : Act) :
    Decidable (fits interval start c t a) := by
  unfold fits
  split <;> infer_instance

variable {ratePerSecond interval start : ℤ} {t : ℕ} {s s' : Store} {p p' : Proc} {a : Act}
  {c : Config Store Proc}

/-! ### Every run -/

/-- What the shared variables say about the slots. -/
structure Ahead (interval start : ℤ) (s : Store) : Prop extends Spaced interval s where
  clock : start ≤ s.nanoTime
  slot : start ≤ s.nextSlotNanos
  taken : ∀ x ∈ s.slots, x + interval ≤ s.nextSlotNanos

/-- What a caller knows of the values it has read. -/
def Proc.knows (start : ℤ) : Proc → Prop
  | .acquiring _ (.clock current) => start ≤ current
  | .acquiring _ (.cas current reserved) => start ≤ current ∧ current ≤ reserved
  | .acquiring _ (.sleep reserved) => reserved - start < 2 ^ 63
  | _ => True

lemma javaLong_of_range {n : ℤ} (h : -2 ^ 63 ≤ n) (h' : n < 2 ^ 63) : javaLong n = n := by
  unfold javaLong
  exact Int.bmod_eq_of_le (by omega) (by omega)

/-- A step keeps the slots apart. -/
lemma Ahead.step (hs : Ahead interval start s) (hstart : -2 ^ 63 ≤ start) (hinterval : 0 < interval)
    (hk : p.knows start)
    (hfits : ∀ priority current reserved, p = .acquiring priority (.cas current reserved) →
      reserved + interval < 2 ^ 63 ∧ reserved - start < 2 ^ 63)
    (h : next interval t s p a = some (s', p')) : Ahead interval start s' ∧ p'.knows start := by
  cases next_move h with
  | tick nanos =>
      have := hs.clock
      exact ⟨⟨⟨hs.slots, hs.returned⟩, by dsimp only; omega, hs.slot, hs.taken⟩, trivial⟩
  | announce => exact ⟨⟨⟨hs.slots, hs.returned⟩, hs.clock, hs.slot, hs.taken⟩, trivial⟩
  | read => exact ⟨hs, hs.slot⟩
  | clock priority current => exact ⟨hs, hk, le_max_left _ _⟩
  | reserve priority reserved heq =>
      obtain ⟨hcurrent, hle⟩ := hk
      obtain ⟨hmax, hdist⟩ := hfits _ _ _ rfl
      have hnext : javaLong (reserved + interval) = reserved + interval :=
        javaLong_of_range (by omega) hmax
      refine ⟨⟨⟨?_, hs.returned⟩, hs.clock, ?_, fun x hx => ?_⟩, hdist⟩
      · refine List.pairwise_append.mpr ⟨hs.slots, List.pairwise_singleton _ _, fun x hx y hy => ?_⟩
        rw [List.mem_singleton.mp hy]
        have := hs.taken x hx
        omega
      · dsimp only
        omega
      · dsimp only
        rw [hnext]
        rcases List.mem_append.mp hx with hx | hx
        · have := hs.taken x hx
          omega
        · rw [List.mem_singleton.mp hx]
  | park => exact ⟨hs, hk⟩
  | @wake priority reserved hleft =>
      refine ⟨⟨⟨hs.slots, fun r hr => ?_⟩, hs.clock, hs.slot, hs.taken⟩, ?_⟩
      · rcases List.mem_append.mp hr with hr | hr
        · exact hs.returned r hr
        · rw [List.mem_singleton.mp hr]
          dsimp only
          -- a positive difference does not wrap
          by_contra hearly
          have hclock := hs.clock
          have hdist : reserved - start < 2 ^ 63 := hk
          rw [javaLong_of_range (by omega) (by omega)] at hleft
          omega
      · cases priority <;> trivial
  | leave => exact ⟨⟨⟨hs.slots, hs.returned⟩, hs.clock, hs.slot, hs.taken⟩, trivial⟩
  | _ => exact ⟨hs, trivial⟩

/-- **The slots keep their distance in every run.** -/
theorem reachable_spaced (hstart : -2 ^ 63 ≤ start) (hinterval : 0 < interval)
    (h : Run (limiter interval) (fits interval start) (initial start) c) :
    Spaced interval c.store := by
  refine ((Run.invariant (I := Ahead interval start) (J := fun _ _ p => p.knows start)
    (K := fun _ => True) (fun _ _ => trivial) ?_ ?_ ?_ h).1).toSpaced
  · exact ⟨⟨⟨List.Pairwise.nil, by simp [initial]⟩, le_rfl, le_rfl, by simp [initial]⟩,
      fun _ => trivial⟩
  · intro c t a s' p' _ hok hs hk hnext
    refine hs.step (t := t) hstart hinterval (hk t) (fun priority current reserved hp => ?_) hnext
    simpa [fits, hp] using hok
  · intro c t a s' p' u _ _ _ hk _ _
    exact hk u

/-! ### A second of slots -/

/-- The interval is at least a nanosecond. -/
lemma intervalNanos_pos (h : intervalNanos ratePerSecond = .ok interval) :
    0 < ratePerSecond ∧ interval = max 1 (1000000000 / ratePerSecond) ∧ 0 < interval := by
  unfold intervalNanos at h
  split_ifs at h with hrate
  cases h
  exact ⟨not_le.mp hrate, rfl, by omega⟩

/-- The intervals of a second fill it exactly when the division is exact or clamped. -/
lemma fills_iff (h : intervalNanos ratePerSecond = .ok interval) :
    1000000000 ≤ ratePerSecond * interval ↔
      ratePerSecond ∣ 1000000000 ∨ 1000000000 ≤ ratePerSecond := by
  obtain ⟨hrate, hinterval, hpos⟩ := intervalNanos_pos h
  have hdiv := Int.mul_ediv_add_emod 1000000000 ratePerSecond
  have hrest := Int.emod_nonneg 1000000000 hrate.ne'
  constructor
  · intro hfills
    by_contra hnot
    obtain ⟨hdvd, hlt⟩ := not_or.mp hnot
    have hone : 1 ≤ 1000000000 / ratePerSecond :=
      (Int.le_ediv_iff_mul_le hrate).mpr (by omega)
    have hne : (1000000000 : ℤ) % ratePerSecond ≠ 0 := fun h0 => hdvd (Int.dvd_of_emod_eq_zero h0)
    rw [hinterval, max_eq_right hone] at hfills
    omega
  · rintro (hdvd | hle)
    · have h0 := Int.emod_eq_zero_of_dvd hdvd
      calc (1000000000 : ℤ) = ratePerSecond * (1000000000 / ratePerSecond) := by omega
        _ ≤ ratePerSecond * interval := by
            rw [hinterval]
            exact mul_le_mul_of_nonneg_left (le_max_right _ _) hrate.le
    · calc (1000000000 : ℤ) ≤ ratePerSecond * 1 := by omega
        _ ≤ ratePerSecond * interval := mul_le_mul_of_nonneg_left (by omega) hrate.le

/-! ### Slots one after the other -/

/-- A bulk caller reserves the next slot, which the clock has reached. -/
lemma run_bulk {procs : ℕ → Proc} (hrun : Run (limiter interval) (fits interval start)
      (initial start) ⟨s, Function.update procs t .idle⟩)
    (hwaiters : s.realtimeWaiters = 0) (hclock : s.nanoTime ≤ s.nextSlotNanos)
    (hmax : s.nextSlotNanos + interval < 2 ^ 63) (hdist : s.nextSlotNanos - start < 2 ^ 63) :
    Run (limiter interval) (fits interval start) (initial start)
      ⟨{ s with nextSlotNanos := javaLong (s.nextSlotNanos + interval)
                slots := s.slots ++ [s.nextSlotNanos] },
        Function.update procs t (.acquiring .bulk (.sleep s.nextSlotNanos))⟩ := by
  have hlook : Run (limiter interval) (fits interval start) (initial start)
      ⟨s, Function.update procs t (.acquiring .bulk .look)⟩ :=
    hrun.step_of (a := .acquire .bulk) (by simp [fits]) rfl
  have hread : Run (limiter interval) (fits interval start) (initial start)
      ⟨s, Function.update procs t (.acquiring .bulk .read)⟩ :=
    hlook.step_of (a := .go) (by simp [fits]) (by simp [limiter, next, acquireNext, hwaiters])
  have hclocked : Run (limiter interval) (fits interval start) (initial start)
      ⟨s, Function.update procs t (.acquiring .bulk (.clock s.nextSlotNanos))⟩ :=
    hread.step_of (a := .go) (by simp [fits]) rfl
  have hcas : Run (limiter interval) (fits interval start) (initial start)
      ⟨s, Function.update procs t (.acquiring .bulk (.cas s.nextSlotNanos s.nextSlotNanos))⟩ :=
    hclocked.step_of (a := .go) (by simp [fits])
      (by simp [limiter, next, acquireNext, max_eq_left hclock])
  refine hcas.step_of (a := .go) ?_ (by simp [limiter, next, acquireNext])
  simp only [fits, Function.update_self]
  exact ⟨hmax, hdist⟩

/-- `n` bulk callers reserve their slots at one time. -/
lemma exists_run_of_bulk (hinterval : 0 < interval) (n : ℕ) (hn : (n : ℤ) * interval < 2 ^ 62) :
    ∃ procs, Run (limiter interval) (fits interval 0) (initial 0)
      ⟨{ nextSlotNanos := n * interval, nanoTime := 0
         slots := (List.range n).map fun k : ℕ => k * interval }, procs⟩ ∧
      ∀ u, n ≤ u → procs u = .idle := by
  induction n with
  | zero =>
      refine ⟨fun _ => .idle, ?_, fun _ _ => rfl⟩
      have hinit : initial 0 = ⟨{ nextSlotNanos := (0 : ℕ) * interval, nanoTime := 0
                                  slots := (List.range 0).map fun k : ℕ => k * interval },
          fun _ => .idle⟩ := by
        simp [initial]
      rw [← hinit]
      exact .nil
  | succ n ih =>
      have hnonneg : 0 ≤ (n : ℤ) * interval := by positivity
      push_cast at hn
      rw [add_mul, one_mul] at hn
      obtain ⟨procs, hrun, hidle⟩ := ih (by omega)
      have hself : Function.update procs n .idle = procs := by
        rw [← hidle n le_rfl]
        exact Function.update_eq_self n procs
      have hnext := run_bulk (t := n) (by rwa [hself]) rfl hnonneg (by dsimp only; omega)
        (by dsimp only; omega)
      refine ⟨Function.update procs n (.acquiring .bulk (.sleep (n * interval))), ?_,
        fun u hu => by rw [Function.update_of_ne (by omega), hidle u (by omega)]⟩
      have hwrap : javaLong (n * interval + interval) = n * interval + interval :=
        javaLong_of_range (by omega) (by omega)
      dsimp only at hnext
      rw [hwrap] at hnext
      rw [List.range_succ, List.map_append, Nat.cast_succ, add_mul, one_mul]
      exact hnext

/-! ### The result -/

/-- What the limiter promises: the slots keep their distance, nobody returns before its slot,
and no second has more than `ratePerSecond` slots. -/
structure KeepsRate (ratePerSecond interval : ℤ) (s : Store) : Prop extends
    Spaced interval s where
  second : Window.Spread ratePerSecond.toNat 1000000000 s.slots

/-- **The limiter keeps its rate exactly when the rate divides a second or is at least one
slot a nanosecond.** The distance of the slots is kept at every rate (`reachable_spaced`). -/
theorem limiter_rate_iff (h : intervalNanos ratePerSecond = .ok interval) :
    (∀ start c, -2 ^ 63 ≤ start →
      Run (limiter interval) (fits interval start) (initial start) c →
      KeepsRate ratePerSecond interval c.store) ↔
    ratePerSecond ∣ 1000000000 ∨ 1000000000 ≤ ratePerSecond := by
  obtain ⟨hrate, hinterval, hpos⟩ := intervalNanos_pos h
  have hnat : (ratePerSecond.toNat : ℤ) = ratePerSecond := Int.toNat_of_nonneg hrate.le
  rw [← fills_iff h]
  constructor
  · intro hkeeps
    by_contra hshort
    -- one caller more than the rate reserves at once, and all slots lie within a second
    have hlast : (ratePerSecond : ℤ) * interval < 1000000000 := not_le.mp hshort
    have hle : interval ≤ 1000000000 := by
      have := Int.ediv_le_self (a := 1000000000) ratePerSecond (by norm_num)
      omega
    obtain ⟨procs, hrun, -⟩ := exists_run_of_bulk hpos (ratePerSecond.toNat + 1)
      (by push_cast; rw [hnat, add_mul, one_mul]; omega)
    have hcount := (hkeeps 0 _ (by norm_num) hrun).second 0
    have hall : ((List.range (ratePerSecond.toNat + 1)).map fun k : ℕ => (k : ℤ) * interval).countP
        (fun x => 0 ≤ x ∧ x < 0 + 1000000000) = ratePerSecond.toNat + 1 := by
      rw [List.countP_eq_length.mpr, List.length_map, List.length_range]
      intro x hx
      obtain ⟨k, hk, rfl⟩ := List.mem_map.mp hx
      have hk : (k : ℤ) ≤ ratePerSecond := by
        have := List.mem_range.mp hk
        omega
      have hnonneg : 0 ≤ (k : ℤ) * interval := by positivity
      have hbelow : (k : ℤ) * interval ≤ ratePerSecond * interval :=
        mul_le_mul_of_nonneg_right hk hpos.le
      simp only [decide_eq_true_eq]
      omega
    rw [hall] at hcount
    omega
  · intro hfills start c hstart hrun
    have hspaced := reachable_spaced hstart hpos hrun
    exact ⟨hspaced, Window.Spread.of_gaps hpos hspaced.slots (by rwa [hnat])⟩

theorem limiter_rate_of_ten_thousand :
    intervalNanos 10000 = .ok 100000 ∧
    ((∀ start c, -2 ^ 63 ≤ start →
      Run (limiter 100000) (fits 100000 start) (initial start) c →
      KeepsRate 10000 100000 c.store) ↔
    (10000 : ℤ) ∣ 1000000000 ∨ (1000000000 : ℤ) ≤ 10000) :=
  ⟨by decide +kernel, limiter_rate_iff (by decide +kernel)⟩

/-- Eight bulk callers at seven slots a second. -/
def eightCallers : List (ℕ × Act) :=
  (List.range 8).flatMap fun t => (t, .acquire .bulk) :: List.replicate 4 (t, .go)

/-- Seven slots a second: eight slots within one second. -/
theorem eight_slots_in_a_second :
    ¬ ∀ ratePerSecond interval : ℤ, intervalNanos ratePerSecond = .ok interval →
      ∀ start c, -2 ^ 63 ≤ start →
        Run (limiter interval) (fits interval start) (initial start) c →
        KeepsRate ratePerSecond interval c.store := by
  intro h
  obtain ⟨c, hrun, hc⟩ := Run.exists_of_exec (limiter 142857142) (fits 142857142 0) (initial 0)
    eightCallers (fun c => c.store.slots.countP fun x => 0 ≤ x ∧ x < 0 + 1000000000) 8
    (by decide +kernel)
  have hle := (h 7 142857142 (by decide +kernel) 0 c (by norm_num) hrun).second 0
  rw [hc] at hle
  exact absurd hle (by decide)

end OrderSystem.Notification
