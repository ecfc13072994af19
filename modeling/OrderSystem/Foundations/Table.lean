/-
Tables with a unique key, as lists of rows.

`put` is what an insert or an update of one row does to the table: the row with
the same key is replaced, or the row is appended. `mem_put` characterises it
without reference to the order of the rows, `Unique` is the key constraint.
`putAll` writes several rows, as the commit of a transaction does.
-/
import Mathlib.Tactic

namespace Table

variable {α κ : Type} [DecidableEq κ] (key : α → κ)

/-- The row with key `k`. -/
def get (k : κ) (t : List α) : Option α :=
  t.find? fun r => key r = k

/-- Insert the row, or replace the row with the same key. -/
def put (r : α) (t : List α) : List α :=
  if t.any (fun x => key x = key r) then t.map fun x => if key x = key r then r else x
  else t ++ [r]

/-- No two rows have the same key. -/
def Unique (t : List α) : Prop :=
  (t.map key).Nodup

variable {key}

lemma mem_of_get {k : κ} {t : List α} {r : α} (h : get key k t = some r) : r ∈ t :=
  List.mem_of_find?_eq_some h

lemma key_of_get {k : κ} {t : List α} {r : α} (h : get key k t = some r) : key r = k := by
  simpa using List.find?_some h

lemma get_eq_none {k : κ} {t : List α} : get key k t = none ↔ ∀ r ∈ t, key r ≠ k := by
  simp [get]

lemma get_append {k : κ} {t t' : List α} :
    get key k (t ++ t') = (get key k t).or (get key k t') := by
  simp [get, List.find?_append]

lemma get_singleton {k : κ} {r : α} : get key k [r] = if key r = k then some r else none := by
  by_cases h : key r = k <;> simp [get, h]

/-- A part of the table that has all rows of the key. -/
lemma get_filter {k : κ} {t : List α} {p : α → Bool} (h : ∀ r ∈ t, key r = k → p r = true) :
    get key k (t.filter p) = get key k t := by
  induction t with
  | nil => rfl
  | cons r t ih =>
      have ih := ih fun x hx => h x (List.mem_cons_of_mem _ hx)
      by_cases hk : key r = k
      · rw [List.filter_cons_of_pos (h r List.mem_cons_self hk)]
        simp [get, hk]
      · rw [List.filter_cons]
        split_ifs <;> simpa [get, hk] using ih

omit [DecidableEq κ] in
/-- With unique keys there is at most one row per key. -/
lemma Unique.eq {t : List α} (h : Unique key t) {a b : α} (ha : a ∈ t) (hb : b ∈ t)
    (hab : key a = key b) : a = b :=
  List.inj_on_of_nodup_map h ha hb hab

omit [DecidableEq κ] in
/-- What determines the key occurs once among the rows of a selection. -/
lemma Unique.nodup_map {β : Type} {t : List α} (h : Unique key t) (P : α → Bool) (f : α → β)
    (g : β → κ) (hg : ∀ x ∈ t, P x = true → key x = g (f x)) : ((t.filter P).map f).Nodup := by
  have hkeys : (t.filter P).map key = ((t.filter P).map f).map g := by
    rw [List.map_map]
    refine List.map_congr_left fun x hx => ?_
    obtain ⟨hx, hP⟩ := List.mem_filter.mp hx
    exact hg x hx hP
  have hnodup : ((t.filter P).map key).Nodup := (List.filter_sublist.map key).nodup h
  rw [hkeys] at hnodup
  exact hnodup.of_map g

lemma get_eq_some {t : List α} (h : Unique key t) {k : κ} {r : α} :
    get key k t = some r ↔ r ∈ t ∧ key r = k := by
  refine ⟨fun hg => ⟨mem_of_get hg, key_of_get hg⟩, fun ⟨hr, hk⟩ => ?_⟩
  cases hg : get key k t with
  | none => exact absurd hk (get_eq_none.mp hg r hr)
  | some r' =>
      rw [h.eq (mem_of_get hg) hr ((key_of_get hg).trans hk.symm)]

/-- The rows after a `put`: the new row, and every old row with another key. -/
lemma mem_put {r x : α} {t : List α} :
    x ∈ put key r t ↔ x = r ∨ (x ∈ t ∧ key x ≠ key r) := by
  unfold put
  split_ifs with h
  · simp only [List.any_eq_true, decide_eq_true_eq] at h
    obtain ⟨y, hy, hyr⟩ := h
    simp only [List.mem_map]
    constructor
    · rintro ⟨z, hz, rfl⟩
      split_ifs with hzr
      · exact Or.inl rfl
      · exact Or.inr ⟨hz, hzr⟩
    · rintro (rfl | ⟨hx, hxr⟩)
      · exact ⟨y, hy, by simp [hyr]⟩
      · exact ⟨x, hx, by simp [hxr]⟩
  · simp only [List.any_eq_true, decide_eq_true_eq, not_exists, not_and] at h
    simp only [List.mem_append, List.mem_singleton]
    constructor
    · rintro (hx | rfl)
      · exact Or.inr ⟨hx, h x hx⟩
      · exact Or.inl rfl
    · rintro (rfl | ⟨hx, -⟩)
      · exact Or.inr rfl
      · exact Or.inl hx

/-- A `put` under a new key appends the row. -/
lemma put_of_new {r : α} {t : List α} (h : ∀ x ∈ t, key x ≠ key r) : put key r t = t ++ [r] := by
  rw [put, if_neg]
  intro hany
  obtain ⟨x, hx, hxr⟩ := List.any_eq_true.mp hany
  exact h x hx (of_decide_eq_true hxr)

/-- A `put` does not lose a key. -/
lemma isSome_get_put {k : κ} {t : List α} (r : α) (h : (get key k t).isSome) :
    (get key k (put key r t)).isSome := by
  obtain ⟨x, hx⟩ := Option.isSome_iff_exists.mp h
  rw [Option.isSome_iff_ne_none, Ne, get_eq_none]
  intro hnone
  by_cases hkey : key x = key r
  · exact hnone r (mem_put.mpr (Or.inl rfl)) (hkey ▸ key_of_get hx)
  · exact hnone x (mem_put.mpr (Or.inr ⟨mem_of_get hx, hkey⟩)) (key_of_get hx)

/-- A `put` on a present key keeps the list of keys. -/
lemma map_key_put {r : α} {t : List α} (h : ∃ x ∈ t, key x = key r) :
    (put key r t).map key = t.map key := by
  obtain ⟨x, hx, hxr⟩ := h
  have hany : t.any (fun y => key y = key r) = true :=
    List.any_eq_true.mpr ⟨x, hx, by simpa using hxr⟩
  rw [put, if_pos hany, List.map_map]
  refine List.map_congr_left fun y _ => ?_
  simp only [Function.comp_apply]
  split_ifs with hy
  · exact hy.symm
  · rfl

/-- A `put` that agrees with the row it replaces on `f` keeps the column `f`. -/
lemma map_put {β : Type} {f : α → β} {r r₀ : α} {t : List α} (h : Unique key t) (h₀ : r₀ ∈ t)
    (hkey : key r₀ = key r) (hf : f r = f r₀) : (put key r t).map f = t.map f := by
  have hany : t.any (fun y => key y = key r) = true :=
    List.any_eq_true.mpr ⟨r₀, h₀, by simpa using hkey⟩
  rw [put, if_pos hany, List.map_map]
  refine List.map_congr_left fun y hy => ?_
  simp only [Function.comp_apply]
  split_ifs with hyr
  · rw [hf, h.eq h₀ hy (hkey.trans hyr.symm)]
  · rfl

/-- Replacing one row moves a count by that row. -/
lemma countP_put {r r₀ : α} {t : List α} (h : Unique key t) (h₀ : r₀ ∈ t) (hkey : key r₀ = key r)
    (P : α → Bool) :
    (put key r t).countP P + (if P r₀ then 1 else 0) = t.countP P + (if P r then 1 else 0) := by
  have hany : t.any (fun y => key y = key r) = true :=
    List.any_eq_true.mpr ⟨r₀, h₀, by simpa using hkey⟩
  rw [put, if_pos hany]
  obtain ⟨l₁, l₂, rfl⟩ := List.append_of_mem h₀
  -- the other rows have other keys
  rw [Unique, List.map_append, List.map_cons, List.nodup_append] at h
  obtain ⟨-, h₂, hdisj⟩ := h
  have hkeep : ∀ l : List α, (∀ x ∈ l, key x ≠ key r) →
      l.map (fun x => if key x = key r then r else x) = l := by
    intro l hl
    refine (List.map_congr_left fun x hx => ?_).trans (List.map_id l)
    rw [if_neg (hl x hx)]
    rfl
  have hl₁ : ∀ x ∈ l₁, key x ≠ key r := by
    intro x hx
    rw [← hkey]
    exact hdisj _ (List.mem_map_of_mem hx) _ List.mem_cons_self
  have hl₂ : ∀ x ∈ l₂, key x ≠ key r := by
    intro x hx heq
    rw [← hkey] at heq
    exact (List.nodup_cons.mp h₂).1 (heq ▸ List.mem_map_of_mem hx)
  rw [List.map_append, List.map_cons, hkeep l₁ hl₁, hkeep l₂ hl₂, if_pos hkey]
  simp only [List.countP_append, List.countP_cons]
  omega

/-- A row with a new key keeps the key constraint. -/
lemma Unique.concat {t : List α} (h : Unique key t) {r : α} (hr : get key (key r) t = none) :
    Unique key (t ++ [r]) := by
  rw [Unique, List.map_append]
  refine List.Nodup.append h (by simp) ?_
  intro k hk hk'
  obtain ⟨x, hx, rfl⟩ := List.mem_map.mp hk
  exact get_eq_none.mp hr x hx (by simpa using hk')

/-- A `put` keeps the key constraint. -/
lemma Unique.put {t : List α} (h : Unique key t) (r : α) : Unique key (put key r t) := by
  by_cases hr : ∃ x ∈ t, key x = key r
  · rw [Unique, map_key_put hr]
    exact h
  · have hany : ¬ t.any (fun y => key y = key r) = true := by
      simpa [List.any_eq_true] using hr
    rw [Table.put, if_neg hany]
    exact h.concat (get_eq_none.mpr fun x hx hxr => hr ⟨x, hx, hxr⟩)

/-- Looking up the key that was put. -/
lemma get_put_self {t : List α} (h : Unique key t) (r : α) :
    get key (key r) (put key r t) = some r :=
  (get_eq_some (h.put r)).mpr ⟨mem_put.mpr (Or.inl rfl), rfl⟩

/-- Looking up another key than the one that was put. -/
lemma get_put_ne {t : List α} (h : Unique key t) {r : α} {k : κ} (hk : key r ≠ k) :
    get key k (put key r t) = get key k t := by
  cases hg : get key k t with
  | none =>
      refine get_eq_none.mpr fun x hx => ?_
      rcases mem_put.mp hx with rfl | ⟨hx, -⟩
      · exact hk
      · exact get_eq_none.mp hg x hx
  | some x =>
      refine (get_eq_some (h.put r)).mpr ⟨mem_put.mpr (Or.inr ⟨mem_of_get hg, ?_⟩), key_of_get hg⟩
      rw [key_of_get hg]
      exact fun e => hk e.symm

/-! ### Several rows -/

variable (key) in
/-- Rows written one after the other. -/
def putAll (rows t : List α) : List α :=
  rows.foldl (fun t r => put key r t) t

@[simp] lemma putAll_nil (t : List α) : putAll key [] t = t := rfl

@[simp] lemma putAll_cons (r : α) (rows t : List α) :
    putAll key (r :: rows) t = putAll key rows (put key r t) := rfl

lemma Unique.putAll {t : List α} (h : Unique key t) (rows : List α) :
    Unique key (putAll key rows t) := by
  induction rows generalizing t with
  | nil => exact h
  | cons r rows ih => exact ih (h.put r)

/-- The rows after all writes: the written ones, and every old row with another
key. -/
lemma mem_putAll {rows t : List α} {x : α} (h : Unique key rows) :
    x ∈ putAll key rows t ↔ x ∈ rows ∨ (x ∈ t ∧ ∀ r ∈ rows, key x ≠ key r) := by
  induction rows generalizing t with
  | nil => simp
  | cons r rows ih =>
      have hr : ∀ r' ∈ rows, key r ≠ key r' := by
        intro r' hr' heq
        exact (List.nodup_cons.mp h).1 (heq ▸ List.mem_map_of_mem hr')
      rw [putAll_cons, ih (List.nodup_cons.mp h).2, mem_put]
      constructor
      · rintro (hx | ⟨rfl | ⟨hx, hxr⟩, hrows⟩)
        · exact Or.inl (List.mem_cons_of_mem _ hx)
        · exact Or.inl List.mem_cons_self
        · refine Or.inr ⟨hx, fun r' hr' => ?_⟩
          rcases List.mem_cons.mp hr' with rfl | hr'
          · exact hxr
          · exact hrows r' hr'
      · rintro (hx | ⟨hx, hrows⟩)
        · rcases List.mem_cons.mp hx with rfl | hx
          · exact Or.inr ⟨Or.inl rfl, hr⟩
          · exact Or.inl hx
        · exact Or.inr ⟨Or.inr ⟨hx, hrows r List.mem_cons_self⟩,
            fun r' hr' => hrows r' (List.mem_cons_of_mem _ hr')⟩

/-- The row found after all writes. -/
lemma get_putAll {rows t : List α} (ht : Unique key t) (h : Unique key rows) (k : κ) :
    get key k (putAll key rows t) = (get key k rows).or (get key k t) := by
  induction rows generalizing t with
  | nil => rfl
  | cons r rows ih =>
      rw [putAll_cons, ih (ht.put r) (List.nodup_cons.mp h).2]
      by_cases hk : key r = k
      · have hnone : get key k rows = none := by
          refine get_eq_none.mpr fun x hx hxk => ?_
          refine (List.nodup_cons.mp h).1 ?_
          rw [hk, ← hxk]
          exact List.mem_map_of_mem hx
        rw [hnone, Option.none_or, ← hk, get_put_self ht r]
        simp [get]
      · rw [get_put_ne ht hk]
        simp [get, hk]

/-- Rows of new values for present keys that do not change the column `f`. -/
lemma map_putAll {β : Type} {f : α → β} {rows t : List α} (ht : Unique key t)
    (h : Unique key rows) (hrows : ∀ r ∈ rows, ∃ r₀ ∈ t, key r₀ = key r ∧ f r = f r₀) :
    (putAll key rows t).map f = t.map f := by
  induction rows generalizing t with
  | nil => rfl
  | cons r rows ih =>
      obtain ⟨r₀, h₀, hkey, hf⟩ := hrows r List.mem_cons_self
      rw [putAll_cons, ih (ht.put r) (List.nodup_cons.mp h).2, map_put ht h₀ hkey hf]
      intro x hx
      obtain ⟨x₀, hx₀, hxkey, hxf⟩ := hrows x (List.mem_cons_of_mem _ hx)
      refine ⟨x₀, mem_put.mpr (Or.inr ⟨hx₀, fun heq => ?_⟩), hxkey, hxf⟩
      exact (List.nodup_cons.mp h).1 (heq ▸ hxkey ▸ List.mem_map_of_mem hx)

/-- Writing rows for keys that did not count adds the new rows that count. -/
lemma countP_putAll {rows t : List α} (ht : Unique key t) (h : Unique key rows) {P : α → Bool}
    (hrows : ∀ r ∈ rows, ∃ r₀ ∈ t, key r₀ = key r ∧ P r₀ = false) :
    (putAll key rows t).countP P = t.countP P + rows.countP P := by
  induction rows generalizing t with
  | nil => rfl
  | cons r rows ih =>
      obtain ⟨r₀, h₀, hkey, hP⟩ := hrows r List.mem_cons_self
      have hcount := countP_put ht h₀ hkey P
      rw [putAll_cons, ih (ht.put r) (List.nodup_cons.mp h).2, List.countP_cons]
      · rw [hP] at hcount
        simp only [Bool.false_eq_true, if_false] at hcount
        omega
      · intro x hx
        obtain ⟨x₀, hx₀, hxkey, hxP⟩ := hrows x (List.mem_cons_of_mem _ hx)
        refine ⟨x₀, mem_put.mpr (Or.inr ⟨hx₀, fun heq => ?_⟩), hxkey, hxP⟩
        exact (List.nodup_cons.mp h).1 (heq ▸ hxkey ▸ List.mem_map_of_mem hx)

end Table
