/-
The first rows of every group, in one common order, cut to a limit.

A query numbers the rows of every group by age (`ROW_NUMBER() OVER (PARTITION BY ...
ORDER BY ...)`), keeps those with a number up to `k`, and returns the oldest `limit` of
them. Rows of the same age may come in any order, in the numbering and in the result.

* `Listing`: a list of the rows by age, with the ties broken in some way.
* `numbered`, `firstPer`: the numbering, and the rows it keeps.
* `count_firstPer_le`: at most `k` rows of a group are kept, and
  `exists_oldest_firstPer`: of every group the oldest is.
* `Listing.missing`: a group is missing from the first `limit` rows only behind `limit`
  rows of other groups that are not newer.
* `length_le_mul_groups`: rows with at most `k` in a group come from that many groups.
* `before`: the rows before a row. `mem_take_iff` and `mem_firstPer_iff` say by them which
  rows the limit and the numbering keep.
-/
import OrderSystem.Foundations.Counting

namespace Ranking

variable {α κ γ : Type} [LinearOrder κ] [DecidableEq γ]

/-- `listed` holds the rows `rows` in the order of their age. -/
structure Listing (age : α → κ) (rows listed : List α) : Prop where
  perm : listed.Perm rows
  sorted : listed.Pairwise fun x y => age x ≤ age y

instance [DecidableEq α] (age : α → κ) (rows listed : List α) :
    Decidable (Listing age rows listed) :=
  decidable_of_iff (listed.Perm rows ∧ listed.Pairwise fun x y => age x ≤ age y)
    ⟨fun h => ⟨h.1, h.2⟩, fun h => ⟨h.perm, h.sorted⟩⟩

/-- The rows with their numbers in their groups; `seen` are the rows before them. -/
def numbered (group : α → γ) : List α → List α → List (α × ℕ)
  | _, [] => []
  | seen, x :: rows =>
      (x, (seen.countP fun y => group y = group x) + 1) :: numbered group (x :: seen) rows

/-- The rows with a number up to `k`. -/
def firstPer (group : α → γ) (k : ℕ) (rows : List α) : List α :=
  ((numbered group [] rows).filter fun x => x.2 ≤ k).map Prod.fst

variable {age : α → κ} {group : α → γ} {k limit : ℕ} {rows listed seen : List α} {g : γ}

/-! ### The numbering -/

lemma map_fst_numbered : (numbered group seen rows).map Prod.fst = rows := by
  induction rows generalizing seen with
  | nil => rfl
  | cons x rows ih => rw [numbered, List.map_cons, ih]

lemma firstPer_sublist : (firstPer group k rows).Sublist rows := by
  have h := (List.filter_sublist (l := numbered group [] rows)
    (p := fun x => decide (x.2 ≤ k))).map Prod.fst
  rwa [map_fst_numbered] at h

/-- What is left of the `k` numbers of a group behind the rows `seen`. -/
lemma countP_numbered_le :
    (numbered group seen rows).countP (fun x => group x.1 = g ∧ x.2 ≤ k) ≤
      k - seen.countP fun y => group y = g := by
  induction rows generalizing seen with
  | nil => exact Nat.zero_le _
  | cons x rows ih =>
      have hrest : (numbered group (x :: seen) rows).countP
          (fun x => group x.1 = g ∧ x.2 ≤ k) ≤ k - (x :: seen).countP fun y => group y = g := ih
      rw [List.countP_cons] at hrest
      rw [numbered, List.countP_cons]
      by_cases hx : group x = g
      · subst hx
        simp only [decide_true, if_true, true_and] at hrest ⊢
        split_ifs with hk
        · have hk := of_decide_eq_true hk
          omega
        · omega
      · simp only [hx, decide_false, false_and, Bool.false_eq_true, if_false, add_zero] at hrest ⊢
        exact hrest

/-- **At most `k` rows of a group are kept.** -/
theorem count_firstPer_le (g : γ) :
    (firstPer group k rows).countP (fun x => group x = g) ≤ k := by
  have h : (numbered group [] rows).countP (fun x => group x.1 = g ∧ x.2 ≤ k) ≤
      k - ([] : List α).countP fun y => group y = g := countP_numbered_le
  rw [firstPer, List.countP_map, List.countP_filter]
  simpa [Function.comp_def] using h

/-- The oldest row of a group gets the number one. -/
lemma exists_oldest_numbered (hsorted : rows.Pairwise fun x y => age x ≤ age y)
    (hseen : ∀ y ∈ seen, group y ≠ g) {r : α} (hr : r ∈ rows) (hg : group r = g) :
    ∃ x, (x, 1) ∈ numbered group seen rows ∧ group x = g ∧
      ∀ y ∈ rows, group y = g → age x ≤ age y := by
  induction rows generalizing seen with
  | nil => cases hr
  | cons x rows ih =>
      obtain ⟨hx, htail⟩ := List.pairwise_cons.mp hsorted
      rw [numbered]
      by_cases hxg : group x = g
      · have hnone : (seen.countP fun y => group y = group x) = 0 := by
          rw [hxg, List.countP_eq_zero]
          exact fun y hy => by simpa using hseen y hy
        refine ⟨x, by rw [hnone]; exact List.mem_cons_self, hxg, fun y hy _ => ?_⟩
        rcases List.mem_cons.mp hy with rfl | hy
        · exact le_rfl
        · exact hx y hy
      · have hr' : r ∈ rows := (List.mem_cons.mp hr).resolve_left fun h => hxg (h ▸ hg)
        have hseen' : ∀ y ∈ x :: seen, group y ≠ g := by
          intro y hy
          rcases List.mem_cons.mp hy with rfl | hy
          · exact hxg
          · exact hseen y hy
        obtain ⟨z, hz, hzg, hzmin⟩ := ih htail hseen' hr'
        refine ⟨z, List.mem_cons_of_mem _ hz, hzg, fun y hy hyg => ?_⟩
        rcases List.mem_cons.mp hy with rfl | hy
        · exact absurd hyg hxg
        · exact hzmin y hy hyg

/-- **The oldest row of every group is kept.** -/
theorem exists_oldest_firstPer (hk : 1 ≤ k) (hsorted : rows.Pairwise fun x y => age x ≤ age y)
    {r : α} (hr : r ∈ rows) :
    ∃ x ∈ firstPer group k rows, group x = group r ∧
      ∀ y ∈ rows, group y = group r → age x ≤ age y := by
  have hnone : ∀ y ∈ ([] : List α), group y ≠ group r := by simp
  obtain ⟨x, hx, hxg, hmin⟩ := exists_oldest_numbered hsorted hnone hr rfl
  refine ⟨x, ?_, hxg, hmin⟩
  exact List.mem_map.mpr ⟨(x, 1), List.mem_filter.mpr ⟨hx, by simpa using hk⟩, rfl⟩

/-! ### The cut -/

/-- A row behind the cut has a full list of rows before it, none of them newer. -/
lemma before_of_not_mem_take (hsorted : rows.Pairwise fun x y => age x ≤ age y) {x : α}
    (hx : x ∈ rows) (hcut : x ∉ rows.take limit) :
    (rows.take limit).length = limit ∧ ∀ y ∈ rows.take limit, age y ≤ age x := by
  have hdrop : x ∈ rows.drop limit := by
    rw [← List.take_append_drop limit rows, List.mem_append] at hx
    exact hx.resolve_left hcut
  constructor
  · have hlen : 0 < (rows.drop limit).length := List.length_pos_of_mem hdrop
    rw [List.length_drop] at hlen
    rw [List.length_take]
    omega
  · intro y hy
    rw [← List.take_append_drop limit rows] at hsorted
    exact (List.pairwise_append.mp hsorted).2.2 y hy x hdrop

/-- Rows with at most `k` of each group come from so many groups. -/
lemma length_le_mul_groups (h : ∀ g, rows.countP (fun x => group x = g) ≤ k) :
    rows.length ≤ k * ((rows.map group).toFinset).card := by
  calc rows.length = rows.countP fun _ => true := by simp
    _ = ∑ g ∈ (rows.map group).toFinset, rows.countP fun x => group x = g := by
        rw [Counting.countP_eq_sum group _ rows (rows.map group).toFinset fun x hx =>
          List.mem_toFinset.mpr (List.mem_map_of_mem hx)]
        simp
    _ ≤ ∑ _g ∈ (rows.map group).toFinset, k := Finset.sum_le_sum fun g _ => h g
    _ = k * ((rows.map group).toFinset).card := by
        rw [Finset.sum_const, smul_eq_mul, Nat.mul_comm]

/-- **Who is missing.** A group that has rows, and none among the first `limit` of the kept
rows, stands behind `limit` rows that are not newer than its oldest. -/
theorem Listing.missing {ranked : List α} (hk : 1 ≤ k) (hranked : Listing age rows ranked)
    (hlisted : Listing age (firstPer group k ranked) listed) {r : α} (hr : r ∈ rows)
    (hmissing : ∀ x ∈ listed.take limit, group x ≠ group r) :
    (listed.take limit).length = limit ∧ ∀ x ∈ listed.take limit, age x ≤ age r := by
  obtain ⟨x, hx, hxg, hmin⟩ : ∃ x ∈ firstPer group k ranked, group x = group r ∧
      ∀ y ∈ ranked, group y = group r → age x ≤ age y :=
    exists_oldest_firstPer hk hranked.sorted (hranked.perm.mem_iff.mpr hr)
  have hmem : x ∈ listed := hlisted.perm.mem_iff.mpr hx
  obtain ⟨hlen, hold⟩ := before_of_not_mem_take hlisted.sorted hmem
    fun h => hmissing x h hxg
  exact ⟨hlen, fun y hy => (hold y hy).trans (hmin r (hranked.perm.mem_iff.mpr hr) rfl)⟩

/-! ### Which rows are kept -/

variable [DecidableEq α] {x : α}

/-- The rows before `x`. -/
def before (x : α) (rows : List α) : List α := rows.takeWhile (· ≠ x)

lemma before_cons_self (x : α) (rows : List α) : before x (x :: rows) = [] := by
  simp [before]

lemma before_cons_ne {y : α} (h : y ≠ x) (rows : List α) :
    before x (y :: rows) = y :: before x rows := by
  simp [before, h]

/-- **The limit keeps the rows with less than `limit` rows before them.** -/
theorem mem_take_iff (hrows : rows.Nodup) (hx : x ∈ rows) :
    x ∈ rows.take limit ↔ (before x rows).length < limit := by
  induction rows generalizing limit with
  | nil => cases hx
  | cons y rows ih =>
      obtain ⟨hy, hrows⟩ := List.nodup_cons.mp hrows
      cases limit with
      | zero => simp
      | succ limit =>
          by_cases hyx : y = x
          · subst hyx
            rw [before_cons_self]
            simp
          · have hx : x ∈ rows := (List.mem_cons.mp hx).resolve_left fun h => hyx h.symm
            rw [List.take_succ_cons, List.mem_cons, before_cons_ne hyx, List.length_cons,
              Nat.succ_lt_succ_iff, ← ih hrows hx]
            exact or_iff_right fun h => hyx h.symm

lemma mem_numbered_iff (hrows : rows.Nodup) (hx : x ∈ rows) :
    (∃ i ≤ k, (x, i) ∈ numbered group seen rows) ↔
      (seen.countP fun y => group y = group x) +
        ((before x rows).countP fun y => group y = group x) < k := by
  induction rows generalizing seen with
  | nil => cases hx
  | cons y rows ih =>
      obtain ⟨hy, hrows⟩ := List.nodup_cons.mp hrows
      rw [numbered]
      by_cases hyx : y = x
      · subst hyx
        -- its number is the one of the head: it does not come again
        have hrest : ∀ i, (y, i) ∉ numbered group (y :: seen) rows := by
          intro i hi
          have hmem : y ∈ (numbered group (y :: seen) rows).map Prod.fst := List.mem_map_of_mem hi
          rw [map_fst_numbered] at hmem
          exact hy hmem
        simp only [List.mem_cons, Prod.mk.injEq, true_and, hrest, or_false, before_cons_self,
          List.countP_nil, add_zero, exists_eq_right]
        exact Nat.succ_le_iff
      · have hx : x ∈ rows := (List.mem_cons.mp hx).resolve_left fun h => hyx h.symm
        have hhead : ∀ i, (x, i) ∈ (y, (seen.countP fun z => group z = group y) + 1) ::
            numbered group (y :: seen) rows ↔ (x, i) ∈ numbered group (y :: seen) rows := by
          intro i
          rw [List.mem_cons]
          exact or_iff_right fun h => hyx (Prod.mk.inj h).1.symm
        simp only [hhead]
        rw [ih hrows hx, before_cons_ne hyx, List.countP_cons, List.countP_cons]
        omega

/-- **The numbering keeps the rows with less than `k` rows of their group before them.** -/
theorem mem_firstPer_iff (hrows : rows.Nodup) (hx : x ∈ rows) :
    x ∈ firstPer group k rows ↔ ((before x rows).countP fun y => group y = group x) < k := by
  have hmem : x ∈ firstPer group k rows ↔ ∃ i ≤ k, (x, i) ∈ numbered group [] rows := by
    simp only [firstPer, List.mem_map, List.mem_filter, decide_eq_true_eq, Prod.exists,
      exists_and_right, exists_eq_right]
    exact exists_congr fun i => and_comm
  rw [hmem, mem_numbered_iff hrows hx, List.countP_nil, Nat.zero_add]

end Ranking
