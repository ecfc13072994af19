/-
Dictionaries that are read from rows, as tables.

`putAll key rows []` is the comprehension `{key(r): r for r in rows}`: a later row replaces the
value, and the key keeps its place.

* `length_putAll_eq_iff`: the dictionary has as many entries as there are rows exactly when the
  keys differ.
* `get_putAll_nil`: a key finds the last of its rows. With `setDefault` it finds the first one,
  `get_foldl_setDefault`.
* `named_iff`: rows that name the entries of a table, each one once, are a permutation of the
  table.
* `queue_foldl_add`: grouping rows by key keeps the order of the rows of a key, and
  `forall_groups_iff` reads a property of all groups off the rows.
-/
import Mathlib.Data.List.Forall2
import OrderSystem.Foundations.KeyedQueues
import OrderSystem.Foundations.Table

namespace Table

variable {α κ : Type} [DecidableEq κ] {key : α → κ}

omit [DecidableEq κ] in
lemma unique_nil : Unique key [] :=
  List.nodup_nil

/-- The keys are those that find a row. -/
lemma mem_keys_iff {t : List α} {k : κ} : k ∈ t.map key ↔ (get key k t).isSome := by
  rw [get, List.find?_isSome, List.mem_map]
  simp

/-- A row that is written adds at most one row. -/
lemma length_put (r : α) (t : List α) :
    (put key r t).length = if ∃ x ∈ t, key x = key r then t.length else t.length + 1 := by
  by_cases h : ∃ x ∈ t, key x = key r
  · have hany : t.any (fun x => key x = key r) = true := by
      obtain ⟨x, hx, hxr⟩ := h
      exact List.any_eq_true.mpr ⟨x, hx, by simpa using hxr⟩
    rw [if_pos h, put, if_pos hany, List.length_map]
  · rw [if_neg h, put_of_new fun x hx hxr => h ⟨x, hx, hxr⟩, List.length_append,
      List.length_singleton]

lemma length_putAll_le (rows t : List α) :
    (putAll key rows t).length ≤ t.length + rows.length := by
  induction rows generalizing t with
  | nil => rfl
  | cons r rows ih =>
      have hput : (put key r t).length ≤ t.length + 1 := by
        rw [length_put]
        split_ifs <;> omega
      calc (putAll key (r :: rows) t).length
          ≤ (put key r t).length + rows.length := ih _
        _ ≤ t.length + (r :: rows).length := by rw [List.length_cons]; omega

/-- Rows of new keys are written behind the table. -/
lemma putAll_eq_append {rows t : List α} (h : Unique key (t ++ rows)) :
    putAll key rows t = t ++ rows := by
  induction rows generalizing t with
  | nil => rw [putAll_nil, List.append_nil]
  | cons r rows ih =>
      have hnew : ∀ x ∈ t, key x ≠ key r := by
        rw [Unique, List.map_append, List.map_cons] at h
        intro x hx heq
        have hdisjoint := (List.nodup_append.mp h).2.2
        exact hdisjoint _ (List.mem_map_of_mem hx) _ List.mem_cons_self heq
      rw [List.append_cons] at h ⊢
      rw [putAll_cons, put_of_new hnew, ih h]

/-- No row replaces another one exactly when the keys differ. -/
lemma length_putAll_eq_iff {rows : List α} :
    (putAll key rows []).length = rows.length ↔ Unique key rows := by
  have hgeneral : ∀ {rows t : List α}, Unique key t →
      (putAll key rows t).length = t.length + rows.length → Unique key (t ++ rows) := by
    intro rows
    induction rows with
    | nil =>
        intro t ht _
        rwa [List.append_nil]
    | cons r rows ih =>
        intro t ht hlength
        have hle : (putAll key rows (put key r t)).length ≤ (put key r t).length + rows.length :=
          length_putAll_le _ _
        have hput : (put key r t).length = if ∃ x ∈ t, key x = key r then t.length
          else t.length + 1 := length_put r t
        rw [putAll_cons, List.length_cons] at hlength
        by_cases hr : ∃ x ∈ t, key x = key r
        · rw [if_pos hr] at hput
          omega
        · have hnew := put_of_new fun x hx hxr => hr ⟨x, hx, hxr⟩
          rw [hnew] at hlength
          rw [List.append_cons]
          refine ih ?_ ?_
          · rw [← hnew]
            exact ht.put r
          · rw [hlength, List.length_append, List.length_singleton]
            omega
  constructor
  · intro h
    exact hgeneral unique_nil (by rw [h, List.length_nil, Nat.zero_add])
  · intro h
    rw [putAll_eq_append (t := []) h, List.nil_append]

/-- The rows of a key, when the keys differ. -/
lemma filter_of_unique {l : List α} (h : Unique key l) {x : α} (hx : x ∈ l) :
    (l.filter fun y => key y = key x) = [x] := by
  induction l with
  | nil => cases hx
  | cons y l ih =>
      obtain ⟨hnew, hrest⟩ := List.nodup_cons.mp h
      rcases List.mem_cons.mp hx with rfl | hx
      · rw [List.filter_cons_of_pos (by simp), List.filter_eq_nil_iff.mpr]
        intro z hz hzx
        exact hnew (List.mem_map.mpr ⟨z, hz, by simpa using hzx⟩)
      · rw [List.filter_cons_of_neg, ih hrest hx]
        intro hyx
        exact hnew (List.mem_map.mpr ⟨x, hx, by simpa [eq_comm] using hyx⟩)

/-- The row a key finds is the one written last. -/
lemma get_putAll_nil (rows : List α) (k : κ) :
    get key k (putAll key rows []) = (rows.filter fun r => key r = k).getLast? := by
  induction rows using List.reverseRecOn with
  | nil => rfl
  | append_singleton rows r ih =>
      have hunique : Unique key (putAll key rows []) := unique_nil.putAll rows
      have hput : putAll key (rows ++ [r]) [] = put key r (putAll key rows []) := by
        rw [putAll, List.foldl_append]
        rfl
      rw [hput, List.filter_append]
      by_cases hk : key r = k
      · rw [← hk, get_put_self hunique]
        simp
      · rw [get_put_ne hunique hk, ih]
        simp [hk]

/-- `setdefault`: a key that is there keeps its row. -/
def setDefault (key : α → κ) (r : α) (t : List α) : List α :=
  if (get key (key r) t).isSome then t else t ++ [r]

/-- The row a key finds is the one that came first. -/
lemma get_foldl_setDefault (rows t : List α) (k : κ) :
    get key k (rows.foldl (fun t r => setDefault key r t) t) =
      (get key k t).or (get key k rows) := by
  induction rows generalizing t with
  | nil => simp [get]
  | cons r rows ih =>
      rw [List.foldl_cons, ih, setDefault]
      have hrows : get key k (r :: rows) = (get key k [r]).or (get key k rows) :=
        get_append (t := [r])
      rw [hrows]
      split_ifs with hold
      · by_cases hk : key r = k
        · obtain ⟨x, hx⟩ := Option.isSome_iff_exists.mp (hk ▸ hold)
          rw [hx, Option.some_or, Option.some_or]
        · rw [get_singleton, if_neg hk, Option.none_or]
      · rw [get_append, Option.or_assoc]

lemma unique_foldl_setDefault {t : List α} (h : Unique key t) (rows : List α) :
    Unique key (rows.foldl (fun t r => setDefault key r t) t) := by
  induction rows generalizing t with
  | nil => exact h
  | cons r rows ih =>
      refine ih (t := setDefault key r t) ?_
      rw [setDefault]
      split_ifs with hold
      · exact h
      · exact h.concat (by simpa using hold)

/-- Rows that name the rows of the table, each one once, and that `R` relates to the rows they
name. -/
lemma named_iff {ρ : Type} {t : List α} (h : Unique key t) {rows : List ρ} {name : ρ → κ}
    {R : ρ → α → Prop} :
    ((rows.map name).Perm (t.map key) ∧
        ∀ row ∈ rows, ∀ x, get key (name row) t = some x → R row x) ↔
      ∃ xs, xs.Perm t ∧ List.Forall₂ (fun row x => name row = key x ∧ R row x) rows xs := by
  constructor
  · rintro ⟨hperm, hrel⟩
    have hself : t.filterMap (fun x => get key (key x) t) = t := by
      have hget : ∀ x ∈ t, get key (key x) t = some x :=
        fun x hx => (get_eq_some h).mpr ⟨hx, rfl⟩
      rw [List.filterMap_congr hget, List.filterMap_some]
    have hxs : (rows.filterMap fun row => get key (name row) t).Perm t := by
      have hmap := hperm.filterMap fun k => get key k t
      rw [List.filterMap_map, List.filterMap_map] at hmap
      exact hmap.trans (.of_eq hself)
    refine ⟨_, hxs, ?_⟩
    have hfound : ∀ row ∈ rows, ∃ x, get key (name row) t = some x := by
      intro row hrow
      obtain ⟨x, hx, heq⟩ := List.mem_map.mp (hperm.subset (List.mem_map_of_mem hrow))
      exact ⟨x, (get_eq_some h).mpr ⟨hx, heq⟩⟩
    clear hxs hperm
    induction rows with
    | nil => exact .nil
    | cons row rows ih =>
        obtain ⟨x, hx⟩ := hfound row List.mem_cons_self
        rw [List.filterMap_cons, hx]
        refine .cons ⟨(key_of_get hx).symm, hrel row List.mem_cons_self x hx⟩ (ih ?_ ?_)
        · exact fun r hr => hrel r (List.mem_cons_of_mem _ hr)
        · exact fun r hr => hfound r (List.mem_cons_of_mem _ hr)
  · rintro ⟨xs, hperm, hall⟩
    have hnames : rows.map name = xs.map key := by
      rw [← List.forall₂_eq_eq_eq, List.forall₂_map_left_iff, List.forall₂_map_right_iff]
      exact hall.imp fun _ _ hx => hx.1
    refine ⟨hnames ▸ hperm.map key, fun row hrow x hx => ?_⟩
    have hpartner : ∃ y ∈ xs, name row = key y ∧ R row y := by
      clear hperm hnames
      induction hall with
      | nil => cases hrow
      | cons hy _ ih =>
          rcases List.mem_cons.mp hrow with rfl | hrow
          · exact ⟨_, List.mem_cons_self, hy⟩
          · obtain ⟨y, hy, hR⟩ := ih hrow
            exact ⟨y, List.mem_cons_of_mem _ hy, hR⟩
    obtain ⟨y, hy, hkey, hR⟩ := hpartner
    have hyx : y = x := h.eq (hperm.subset hy) (mem_of_get hx) (hkey ▸ (key_of_get hx).symm)
    exact hyx ▸ hR
end Table

namespace KeyedQueues

variable {α κ : Type} [DecidableEq κ] {key : α → κ}

lemma wf_foldl_add (rows : List α) : Wf key (rows.foldl (fun q x => add key x q) []) := by
  induction rows using List.reverseRecOn with
  | nil => exact wf_nil
  | append_singleton rows x ih =>
      rw [List.foldl_append]
      exact ih.add x

/-- The group of a key. -/
lemma queue_foldl_add (rows : List α) (k : κ) :
    queue k (rows.foldl (fun q x => add key x q) []) = rows.filter fun x => key x = k := by
  induction rows using List.reverseRecOn with
  | nil => rfl
  | append_singleton rows x ih =>
      rw [List.foldl_append, List.filter_append, List.foldl_cons, List.foldl_nil,
        queue_add (wf_foldl_add rows), ih]
      by_cases hk : key x = k
      · simp [hk]
      · simp [hk, Ne.symm hk]

/-- The groups are the rows of the keys that occur. -/
lemma forall_groups_iff {P : κ → List α → Prop} {rows : List α} :
    (∀ g ∈ rows.foldl (fun q x => add key x q) [], P g.1 g.2) ↔
      ∀ x ∈ rows, P (key x) (rows.filter fun y => key y = key x) := by
  have hwf : Wf key (rows.foldl (fun q x => add key x q) []) := wf_foldl_add rows
  constructor
  · intro h x hx
    have hmem : x ∈ queue (key x) (rows.foldl (fun q x => add key x q) []) := by
      rw [queue_foldl_add]
      exact List.mem_filter.mpr ⟨hx, by simp⟩
    have hg := h _ (mem_of_queue (List.ne_nil_of_mem hmem))
    rwa [queue_foldl_add] at hg
  · rintro h ⟨k, group⟩ hg
    have hgroup : group = rows.filter fun y => key y = k := by
      rw [← queue_foldl_add]
      exact (queue_of_mem hwf.keys hg).symm
    obtain ⟨x, hx⟩ := List.exists_mem_of_ne_nil _ (hwf.nonempty _ hg)
    have hkey : key x = k := hwf.keyed _ hg x hx
    have hin : x ∈ rows := by
      rw [hgroup] at hx
      exact (List.mem_filter.mp hx).1
    have hP := h x hin
    rw [hkey, ← hgroup] at hP
    exact hP

end KeyedQueues
