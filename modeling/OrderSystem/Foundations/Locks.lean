/-
Exclusive row locks.

The lock table lists which process holds which resource. A statement that
touches a set of resources runs only when no other process holds one of them
(`available`); the locks it takes stay until the transaction ends (`release`).

* `Exclusive`: no resource has two holders. `exclusive_acquire` and
  `exclusive_release` keep it, `mem_acquire` and `mem_release` say which locks
  survive.
* `Change`, `Kept`: what a step does to the table. It keeps the locks exclusive,
  leaves those of the others alone, and gives a process the locks it relies on
  next.
-/
import Mathlib.Tactic

namespace Locks

variable {ρ : Type}

/-- The lock table: a resource and the process that holds it. -/
abbrev Table (ρ : Type) := List (ρ × ℕ)

/-- No process other than `t` holds a resource that satisfies `p`. -/
def available (l : Table ρ) (t : ℕ) (p : ρ → Bool) : Bool :=
  l.all fun x => x.2 == t || !p x.1

/-- Process `t` takes the resources `rs`. -/
def acquire (l : Table ρ) (t : ℕ) (rs : List ρ) : Table ρ :=
  rs.map (·, t) ++ l

/-- The transaction of process `t` ends and its locks go. -/
def release (l : Table ρ) (t : ℕ) : Table ρ :=
  l.filter fun x => x.2 != t

/-- No resource has two holders. -/
def Exclusive (l : Table ρ) : Prop :=
  ∀ r t u, (r, t) ∈ l → (r, u) ∈ l → t = u

lemma available_iff {l : Table ρ} {t : ℕ} {p : ρ → Bool} :
    available l t p = true ↔ ∀ r u, (r, u) ∈ l → p r = true → u = t := by
  simp only [available, List.all_eq_true, Bool.or_eq_true, beq_iff_eq, Bool.not_eq_true',
    Prod.forall]
  refine forall_congr' fun r => forall_congr' fun u => forall_congr' fun _ => ?_
  cases p r <;> simp

@[simp] lemma mem_acquire {l : Table ρ} {t u : ℕ} {rs : List ρ} {r : ρ} :
    (r, u) ∈ acquire l t rs ↔ (r ∈ rs ∧ u = t) ∨ (r, u) ∈ l := by
  rw [acquire, List.mem_append]
  refine or_congr_left ?_
  constructor
  · intro h
    obtain ⟨x, hx, hxr⟩ := List.mem_map.mp h
    obtain ⟨rfl, rfl⟩ := Prod.mk.inj hxr
    exact ⟨hx, rfl⟩
  · rintro ⟨hr, rfl⟩
    exact List.mem_map.mpr ⟨r, hr, rfl⟩

@[simp] lemma mem_release {l : Table ρ} {t u : ℕ} {r : ρ} :
    (r, u) ∈ release l t ↔ (r, u) ∈ l ∧ u ≠ t := by
  simp [release]

lemma exclusive_nil : Exclusive ([] : Table ρ) := by
  intro r t u h
  simp at h

/-- Locks are taken only when no one else holds them, so they stay exclusive. -/
lemma exclusive_acquire {l : Table ρ} {t : ℕ} {rs : List ρ}
    (h : Exclusive l) (hfree : ∀ r ∈ rs, ∀ u, (r, u) ∈ l → u = t) :
    Exclusive (acquire l t rs) := by
  intro r u v hu hv
  rw [mem_acquire] at hu hv
  rcases hu with ⟨hr, rfl⟩ | hu <;> rcases hv with ⟨hr', rfl⟩ | hv
  · rfl
  · exact (hfree r hr v hv).symm
  · exact hfree r hr' u hu
  · exact h r u v hu hv

lemma exclusive_release {l : Table ρ} (t : ℕ) (h : Exclusive l) : Exclusive (release l t) :=
  fun r u v hu hv => h r u v (mem_release.mp hu).1 (mem_release.mp hv).1

/-! ### What a step does to the lock table -/

variable {l l' : Table ρ} {t u : ℕ} {held : List ρ}

/-- No other process holds the resource. -/
def Mine (l : Table ρ) (t : ℕ) (r : ρ) : Prop :=
  ∀ u, (r, u) ∈ l → u = t

lemma mine_of_mem {r : ρ} (hex : Exclusive l) (h : (r, t) ∈ l) : Mine l t r :=
  fun u hu => hex r u t hu h

/-- A resource another process holds is not one's own. -/
lemma Mine.ne {r r' : ρ} (h : Mine l t r) (hu : (r', u) ∈ l) (hut : u ≠ t) : r' ≠ r := by
  rintro rfl
  exact hut (h u hu)

/-- What a step of `t` does to the lock table: nothing, take free locks, or end the
transaction. -/
inductive Change (t : ℕ) (l l' : Table ρ) : Prop
  | same (h : l' = l)
  | take (rs : List ρ) (hfree : ∀ r ∈ rs, Mine l t r) (h : l' = acquire l t rs)
  | drop (h : l' = release l t)

namespace Change

lemma exclusive (h : Change t l l') (hex : Exclusive l) : Exclusive l' := by
  rcases h with h | ⟨rs, hfree, h⟩ | h
  · rwa [h]
  · rw [h]
    exact exclusive_acquire hex hfree
  · rw [h]
    exact exclusive_release t hex

lemma others (h : Change t l l') {r : ρ} (hu : u ≠ t) : (r, u) ∈ l' ↔ (r, u) ∈ l := by
  rcases h with h | ⟨rs, hfree, h⟩ | h
  · rw [h]
  · simp [h, hu]
  · simp [h, hu]

end Change

/-- The lock table changes as allowed, and the locks the process relies on next are
its own. -/
def Kept (t : ℕ) (l l' : Table ρ) (held : List ρ) : Prop :=
  Change t l l' ∧ ∀ r ∈ held, (r, t) ∈ l'

lemma kept_drop (h : l' = release l t) (hp : held = []) : Kept t l l' held :=
  ⟨.drop h, by simp [hp]⟩

lemma kept_same (h : l' = l) (hp : ∀ r ∈ held, (r, t) ∈ l) : Kept t l l' held :=
  ⟨.same h, by rwa [h]⟩

lemma kept_take (rs : List ρ) (hfree : ∀ r ∈ rs, Mine l t r) (h : l' = acquire l t rs)
    (hp : ∀ r ∈ held, r ∈ rs ∨ (r, t) ∈ l) : Kept t l l' held := by
  refine ⟨.take rs hfree h, fun r hr => ?_⟩
  rw [h, mem_acquire]
  exact (hp r hr).imp (fun hrs => ⟨hrs, rfl⟩) id

end Locks
