/-
A queue for every key, as a map in which the keys stand in the order they came.

* `Queues`, `queue`: the map, and the queue of a key; a key that is not in the map has the
  empty queue.
* `add`, `heads`, `removeHead`, `removeIf`: an entry joins the queue of its key, the first
  entries, an entry leaves when it is the first one, the entries with a property leave.
* `Wf`: the keys are different, no queue in the map is empty, and an entry stands in the
  queue of its key.
* `queue_add`, `queue_removeHead`, `queue_removeIf`, `mem_heads`: the operations, queue by
  queue.
-/
import OrderSystem.Foundations.Table

namespace KeyedQueues

variable {κ α : Type} [DecidableEq κ]

/-- The queues by key. -/
abbrev Queues (κ α : Type) := List (κ × List α)

/-- The queue of a key. -/
def queue (k : κ) (q : Queues κ α) : List α :=
  ((Table.get Prod.fst k q).map Prod.snd).getD []

section Operations

variable (key : α → κ)

/-- The entry joins the queue of its key. -/
def add (x : α) (q : Queues κ α) : Queues κ α :=
  Table.put Prod.fst (key x, queue (key x) q ++ [x]) q

/-- The first entries. -/
def heads (q : Queues κ α) : List α :=
  q.filterMap fun e => e.2.head?

/-- The entry leaves when it is the first of its queue; an empty queue leaves the map. -/
def removeHead [DecidableEq α] (x : α) (q : Queues κ α) : Queues κ α :=
  match queue (key x) q with
  | [] => q
  | y :: rest =>
      if y ≠ x then q
      else if rest = [] then q.filter fun e => e.1 ≠ key x
      else Table.put Prod.fst (key x, rest) q

/-- The entries with the property leave; empty queues leave the map. -/
def removeIf (P : α → Bool) (q : Queues κ α) : Queues κ α :=
  q.filterMap fun e =>
    let rest := e.2.filter fun x => !P x
    if rest = [] then none else some (e.1, rest)

/-- Every key has one queue, which is not empty and holds its own entries. -/
structure Wf (q : Queues κ α) : Prop where
  keys : Table.Unique Prod.fst q
  nonempty : ∀ e ∈ q, e.2 ≠ []
  keyed : ∀ e ∈ q, ∀ x ∈ e.2, key x = e.1

end Operations

variable {key : α → κ} {q : Queues κ α} {x : α} {k : κ} {e : κ × List α}

/-! ### Queues -/

lemma queue_of_mem (h : Table.Unique Prod.fst q) (he : e ∈ q) : queue e.1 q = e.2 := by
  rw [queue, (Table.get_eq_some h).mpr ⟨he, rfl⟩]
  rfl

lemma mem_of_queue (h : queue k q ≠ []) : (k, queue k q) ∈ q := by
  cases hget : Table.get Prod.fst k q with
  | none =>
      rw [queue, hget] at h
      exact absurd rfl h
  | some e =>
      have hk : e.1 = k := Table.key_of_get hget
      have hq : queue k q = e.2 := by rw [queue, hget]; rfl
      rw [hq, ← hk]
      exact Table.mem_of_get hget

lemma queue_of_not_mem (h : ∀ e ∈ q, e.1 ≠ k) : queue k q = [] := by
  rw [queue, Table.get_eq_none.mpr h]
  rfl

omit [DecidableEq κ] in
lemma wf_nil : Wf key ([] : Queues κ α) :=
  ⟨List.nodup_nil, by simp, by simp⟩

/-- The entries of a queue have its key. -/
lemma Wf.key_eq (h : Wf key q) (hx : x ∈ queue k q) : key x = k :=
  h.keyed _ (mem_of_queue (List.ne_nil_of_mem hx)) x hx

/-! ### An entry joins -/

lemma Wf.put (h : Wf key q) {l : List α} (hl : l ≠ []) (hkey : ∀ x ∈ l, key x = k) :
    Wf key (Table.put Prod.fst (k, l) q) := by
  refine ⟨h.keys.put _, fun e he => ?_, fun e he x hx => ?_⟩
  · rcases Table.mem_put.mp he with rfl | ⟨he, -⟩
    · exact hl
    · exact h.nonempty e he
  · rcases Table.mem_put.mp he with rfl | ⟨he, -⟩
    · exact hkey x hx
    · exact h.keyed e he x hx

lemma queue_put (h : Table.Unique Prod.fst q) (l : List α) (k' : κ) :
    queue k' (Table.put Prod.fst (k, l) q) = if k' = k then l else queue k' q := by
  by_cases hk : k' = k
  · subst hk
    rw [if_pos rfl, queue, Table.get_put_self h ((k', l) : κ × List α)]
    rfl
  · have hget : Table.get Prod.fst k' (Table.put Prod.fst (k, l) q) = Table.get Prod.fst k' q :=
      Table.get_put_ne h fun heq => hk heq.symm
    rw [if_neg hk, queue, hget, queue]

lemma Wf.add (h : Wf key q) (x : α) : Wf key (add key x q) := by
  refine h.put (by simp) fun y hy => ?_
  rcases List.mem_append.mp hy with hy | hy
  · exact h.key_eq hy
  · rw [List.mem_singleton.mp hy]

lemma queue_add (h : Wf key q) (x : α) (k : κ) :
    queue k (add key x q) = if k = key x then queue k q ++ [x] else queue k q := by
  rw [KeyedQueues.add, queue_put h.keys]
  by_cases hk : k = key x
  · rw [if_pos hk, if_pos hk, hk]
  · rw [if_neg hk, if_neg hk]

/-! ### The first entries -/

lemma mem_heads (h : Wf key q) : x ∈ heads q ↔ (queue (key x) q).head? = some x := by
  rw [heads, List.mem_filterMap]
  constructor
  · rintro ⟨e, he, hhead⟩
    have hx : x ∈ e.2 := List.mem_of_mem_head? hhead
    rw [h.keyed e he x hx, queue_of_mem h.keys he]
    exact hhead
  · intro hhead
    have hne : queue (key x) q ≠ [] := by
      intro hnil
      rw [hnil] at hhead
      cases hhead
    exact ⟨_, mem_of_queue hne, hhead⟩

omit [DecidableEq κ] in
/-- Every key has at most one first entry. -/
lemma nodup_heads (h : Wf key q) : ((heads q).map key).Nodup := by
  have hsub : ((heads q).map key).Sublist (q.map Prod.fst) := by
    have hkeyed := h.keyed
    clear h
    induction q with
    | nil => exact List.Sublist.refl _
    | cons e q ih =>
        have hq := ih fun e' he' => hkeyed e' (List.mem_cons_of_mem _ he')
        rw [heads, List.filterMap_cons, List.map_cons]
        cases hhead : e.2.head? with
        | none => exact hq.cons _
        | some y =>
            rw [List.map_cons, hkeyed e List.mem_cons_self y (List.mem_of_mem_head? hhead)]
            exact hq.cons_cons _
  exact h.keys.sublist hsub

/-! ### Entries leave -/

omit [DecidableEq κ] in
lemma Wf.filter (h : Wf key q) (P : κ × List α → Bool) : Wf key (q.filter P) :=
  ⟨h.keys.sublist ((List.filter_sublist).map _),
    fun e he => h.nonempty e (List.mem_filter.mp he).1,
    fun e he => h.keyed e (List.mem_filter.mp he).1⟩

/-- A queue that leaves the map. -/
lemma queue_filter (h : Wf key q) (k k' : κ) :
    queue k' (q.filter fun e => e.1 ≠ k) = if k' = k then [] else queue k' q := by
  by_cases hk : k' = k
  · rw [if_pos hk]
    refine queue_of_not_mem fun e he => ?_
    rw [hk]
    simpa using (List.mem_filter.mp he).2
  · rw [if_neg hk]
    by_cases hnil : queue k' q = []
    · rw [hnil]
      refine queue_of_not_mem fun e he heq => h.nonempty e (List.mem_filter.mp he).1 ?_
      rw [← queue_of_mem h.keys (List.mem_filter.mp he).1, heq, hnil]
    · have hmem : (k', queue k' q) ∈ q.filter fun e => e.1 ≠ k :=
        List.mem_filter.mpr ⟨mem_of_queue hnil, by simpa using hk⟩
      exact queue_of_mem (h.filter _).keys hmem

section RemoveHead

variable [DecidableEq α]

/-- The two ways in which `removeHead` ends. -/
lemma removeHead_cases (key : α → κ) (x : α) (q : Queues κ α) :
    ((queue (key x) q).head? ≠ some x ∧ removeHead key x q = q) ∨
      ∃ rest, queue (key x) q = x :: rest ∧ removeHead key x q =
        if rest = [] then q.filter (fun e => e.1 ≠ key x) else
          Table.put Prod.fst (key x, rest) q := by
  cases hq : queue (key x) q with
  | nil => exact Or.inl ⟨by simp, by rw [removeHead, hq]⟩
  | cons y rest =>
      by_cases hy : y = x
      · subst hy
        refine Or.inr ⟨rest, rfl, ?_⟩
        rw [removeHead, hq]
        simp only [ne_eq, not_true_eq_false, if_false]
      · refine Or.inl ⟨by simpa using hy, ?_⟩
        rw [removeHead, hq]
        simp only [ne_eq, hy, not_false_eq_true, if_true]

lemma Wf.removeHead (h : Wf key q) (x : α) : Wf key (removeHead key x q) := by
  rcases removeHead_cases key x q with ⟨-, heq⟩ | ⟨rest, hq, heq⟩
  · rwa [heq]
  · rw [heq]
    split_ifs with hrest
    · exact h.filter _
    · exact h.put hrest fun y hy => h.key_eq (by rw [hq]; exact List.mem_cons_of_mem _ hy)

lemma queue_removeHead (h : Wf key q) (x : α) (k : κ) :
    queue k (removeHead key x q) =
      if k = key x ∧ (queue k q).head? = some x then (queue k q).tail else queue k q := by
  rcases removeHead_cases key x q with ⟨hhead, heq⟩ | ⟨rest, hq, heq⟩
  · rw [heq, if_neg]
    rintro ⟨rfl, h'⟩
    exact hhead h'
  · have hleft : queue k (removeHead key x q) = if k = key x then rest else queue k q := by
      rw [heq]
      by_cases hrest : rest = []
      · rw [if_pos hrest, queue_filter h, hrest]
      · rw [if_neg hrest, queue_put h.keys]
    rw [hleft]
    by_cases hk : k = key x
    · subst hk
      rw [if_pos rfl, if_pos ⟨rfl, by rw [hq]; rfl⟩, hq]
      rfl
    · rw [if_neg hk, if_neg fun h' => hk h'.1]

end RemoveHead

omit [DecidableEq κ] in
lemma mem_removeIf {P : α → Bool} :
    e ∈ removeIf P q ↔ ∃ e' ∈ q, e.1 = e'.1 ∧ e.2 = (e'.2.filter fun x => !P x) ∧ e.2 ≠ [] := by
  rw [removeIf, List.mem_filterMap]
  refine exists_congr fun e' => and_congr_right fun _ => ?_
  dsimp only
  split_ifs with hrest
  · refine iff_of_false (by simp) ?_
    rintro ⟨-, heq, hne⟩
    exact hne (heq.trans hrest)
  · constructor
    · intro heq
      cases heq
      exact ⟨rfl, rfl, hrest⟩
    · rintro ⟨h1, h2, -⟩
      rw [← h1, ← h2]

omit [DecidableEq κ] in
lemma Wf.removeIf (h : Wf key q) (P : α → Bool) : Wf key (removeIf P q) := by
  refine ⟨?_, fun e he => ?_, fun e he x hx => ?_⟩
  · have hsub : ((KeyedQueues.removeIf P q).map Prod.fst).Sublist (q.map Prod.fst) := by
      clear h
      induction q with
      | nil => exact List.Sublist.refl _
      | cons e q ih =>
          rw [KeyedQueues.removeIf, List.filterMap_cons]
          dsimp only
          split_ifs
          · exact ih.cons _
          · exact ih.cons_cons _
    exact h.keys.sublist hsub
  · obtain ⟨e', -, -, -, hne⟩ := mem_removeIf.mp he
    exact hne
  · obtain ⟨e', he', hk, hrest, -⟩ := mem_removeIf.mp he
    rw [hrest] at hx
    rw [hk]
    exact h.keyed e' he' x (List.mem_filter.mp hx).1

lemma queue_removeIf (h : Wf key q) (P : α → Bool) (k : κ) :
    queue k (removeIf P q) = (queue k q).filter fun x => !P x := by
  by_cases hrest : (queue k q).filter (fun x => !P x) = []
  · rw [hrest]
    refine queue_of_not_mem fun e he heq => ?_
    obtain ⟨e', he', hk, hl, hne⟩ := mem_removeIf.mp he
    refine hne ?_
    rw [hl, ← queue_of_mem h.keys he', ← hk, heq, hrest]
  · have hne : queue k q ≠ [] := fun hnil => hrest (by rw [hnil]; rfl)
    have hmem : (k, (queue k q).filter fun x => !P x) ∈ removeIf P q :=
      mem_removeIf.mpr ⟨_, mem_of_queue hne, rfl, rfl, hrest⟩
    exact queue_of_mem (h.removeIf P).keys hmem

end KeyedQueues
