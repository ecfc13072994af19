/-
The observability verdict of an isolation run (`experiments/isolation/check.py`): the alerts of the
observer against the truth, rebuilt from the times of acceptance and of the effects.

* `observability`: the block of `check`, over the accepted operations, the times of the effects and
  the samples.
* `Row.of_truth`, `oldestTruth_eq`: what a row takes for the truth. An operation that was accepted
  longer than `targetMs` ago has no effect yet, and the oldest one of a seller gives his age.
* `episodes`: the maximal stretches of rows with one truth. The loop carries the start of an episode
  and the first alert in it from row to row; `tally_eq` reads its sums off the episodes.
* `observability_exact`: the verdict in these terms.
-/
import Mathlib.Data.List.SplitBy
import OrderSystem.Experiments.Alert
import OrderSystem.Foundations.Dict
import OrderSystem.Foundations.Numbering

namespace OrderSystem.Experiments

/-! ### The truth at a sample -/

/-- `TARGET_MS`. -/
def targetMs : ℤ := 1500

/-- `GRACE_MS`. -/
def graceMs : ℤ := 3000

/-- What the samples are held against: `created.items()`, `effect_at`, and the seller of an
event. -/
structure Effected where
  created : List (String × ℤ)
  effectAt : String → Option ℤ
  sellerOf : String → String

namespace Effected

/-- `order`: the accepted operations by their time. -/
def order (x : Effected) : List (String × ℤ) :=
  x.created.insertionSort fun a b => a.2 ≤ b.2

/-- `order[:n]`, with `n` from `bisect_right`. -/
def before (x : Effected) (t : ℤ) : List (String × ℤ) :=
  x.order.take ((x.order.map Prod.snd).takeWhile fun c => c ≤ t).length

/-- `done > t`, where `done` is infinite for an operation without an effect. -/
def missing (x : Effected) (t : ℤ) (k : String) : Bool :=
  (x.effectAt k).all fun done => t < done

/-- The body of the loop: `overdue_truth` and `oldest_truth`. -/
def look (x : Effected) (t : ℤ) (acc : ℕ × List (String × ℤ)) (entry : String × ℤ) :
    ℕ × List (String × ℤ) :=
  if x.missing t entry.1 then
    (if entry.2 ≤ t - targetMs then acc.1 + 1 else acc.1,
      Table.setDefault Prod.fst (x.sellerOf entry.1, t - entry.2) acc.2)
  else acc

/-- The loop. -/
def truth (x : Effected) (t : ℤ) : ℕ × List (String × ℤ) :=
  (x.before t).foldl (x.look t) (0, [])

end Effected

/-! ### The rows -/

/-- A row for a sample with a source. -/
structure Row where
  t : ℤ
  truth : Bool
  state : Alert
  errors : List ℤ
  deriving DecidableEq, Repr

/-- `ages.get(seller, 0)`. -/
def ageOf (source : Delivery.Signal) (sellerId : String) : ℤ :=
  ((Table.get Prod.fst sellerId source.sellers).map fun v => v.2.oldestAgeMs).getD 0

/-- The row of a sample. -/
def Row.of (x : Effected) (t : ℤ) (source : Delivery.Signal) (state : Alert) : Row where
  t := t
  truth := 0 < (x.truth t).1
  state := state
  errors := (x.truth t).2.map fun age => |ageOf source age.1 - age.2|

/-- `rows`. -/
def rows (x : Effected) (samples : List (Sample × Alert)) : List Row :=
  samples.filterMap fun s => s.1.source.map fun source => Row.of x s.1.time source s.2

/-! ### The loop over the rows -/

/-- The variables of the loop. -/
structure Tally where
  missedMs : ℕ := 0
  falseMs : ℕ := 0
  episodeStart : Option ℤ := none
  detected : Option ℤ := none
  detections : List ℤ := []
  deriving DecidableEq, Repr

namespace Tally

/-- An episode begins. -/
def begin (w : Tally) (r : Row) : Tally :=
  if r.truth ∧ w.episodeStart = none then { w with episodeStart := some r.t, detected := none }
  else w

/-- The first alert of an episode. -/
def detect (w : Tally) (r : Row) : Tally :=
  match w.episodeStart with
  | some start =>
      if r.truth ∧ r.state = .alert ∧ w.detected = none then
        { w with detected := some (r.t - start), detections := w.detections ++ [r.t - start] }
      else w
  | none => w

/-- A row that is read as normal after the grace. -/
def miss (w : Tally) (r : Row) : Tally :=
  match w.episodeStart with
  | some start =>
      if r.truth ∧ r.state = .normal ∧ graceMs < r.t - start then
        { w with missedMs := w.missedMs + 1000 }
      else w
  | none => w

/-- An episode ends. -/
def leave (w : Tally) (r : Row) : Tally :=
  if r.truth then w
  else
    { w with
      falseMs := if r.state = .alert then w.falseMs + 1000 else w.falseMs
      episodeStart := none }

/-- The body of the loop. -/
def turn (w : Tally) (r : Row) : Tally :=
  (((w.begin r).detect r).miss r).leave r

end Tally

/-- The result of the block. -/
structure ObservabilityVerdict where
  samples : ℕ
  detectionDelaysMs : List ℤ
  detectionMaxMs : Option ℤ
  missedMs : ℕ
  falseAlertMs : ℕ
  unknownSamples : ℕ
  ageErrorMaxMs : Option ℤ
  passed : Bool
  deriving DecidableEq, Repr

/-- `observability`; without a sample with a source there is none. -/
def observability (x : Effected) (samples : List (Sample × Alert)) : Option ObservabilityVerdict :=
  let rows := rows x samples
  let w := rows.foldl Tally.turn {}
  if rows = [] then none
  else some
    { samples := rows.length
      detectionDelaysMs := w.detections.take 20
      detectionMaxMs := w.detections.max?
      missedMs := w.missedMs
      falseAlertMs := w.falseMs
      unknownSamples := rows.countP fun r => r.state = .unknown
      ageErrorMaxMs := (rows.flatMap Row.errors).max?
      passed := w.missedMs = 0 }

/-! ### What the truth is -/

namespace Effected

variable {x : Effected} {t : ℤ}

lemma order_perm (x : Effected) : x.order.Perm x.created :=
  List.perm_insertionSort _ _

lemma order_pairwise (x : Effected) : x.order.Pairwise fun a b => a.2 ≤ b.2 := by
  have := List.pairwise_insertionSort (fun a b : String × ℤ => a.2 ≤ b.2) x.created
  exact this

/-- The search finds the entries up to the time. -/
lemma take_search {l : List (String × ℤ)} (h : l.Pairwise fun a b => a.2 ≤ b.2) (t : ℤ) :
    l.take ((l.map Prod.snd).takeWhile fun c => c ≤ t).length = l.filter fun e => e.2 ≤ t := by
  induction l with
  | nil => rfl
  | cons e l ih =>
      obtain ⟨hhead, htail⟩ := List.pairwise_cons.mp h
      by_cases he : e.2 ≤ t
      · rw [List.map_cons, List.takeWhile_cons_of_pos (by simpa using he), List.length_cons,
          List.take_succ_cons, List.filter_cons_of_pos (by simpa using he), ih htail]
      · have hnone : ∀ e' ∈ e :: l, ¬ (decide (e'.2 ≤ t) = true) := by
          intro e' he' hle
          have hle : e'.2 ≤ t := of_decide_eq_true hle
          rcases List.mem_cons.mp he' with rfl | he'
          · exact he hle
          · exact he (le_trans (hhead e' he') hle)
        rw [List.map_cons, List.takeWhile_cons_of_neg (by simpa using he),
          List.filter_eq_nil_iff.mpr hnone]
        rfl

lemma mem_before {e : String × ℤ} : e ∈ x.before t ↔ e ∈ x.created ∧ e.2 ≤ t := by
  rw [before, take_search x.order_pairwise, List.mem_filter, x.order_perm.mem_iff,
    decide_eq_true_eq]

lemma before_pairwise (x : Effected) (t : ℤ) : (x.before t).Pairwise fun a b => a.2 ≤ b.2 :=
  x.order_pairwise.sublist (List.take_sublist _ _)

/-- The operations that are missing at a time. -/
def late (x : Effected) (t : ℤ) : List (String × ℤ) :=
  (x.before t).filter fun e => x.missing t e.1

/-- The loop counts the overdue operations, and keeps the first operation of each seller. -/
lemma truth_eq (x : Effected) (t : ℤ) :
    x.truth t = ((x.late t).countP fun e => e.2 ≤ t - targetMs,
      ((x.late t).map fun e => (x.sellerOf e.1, t - e.2)).foldl
        (fun d r => Table.setDefault Prod.fst r d) []) := by
  rw [truth, late]
  induction x.before t using List.reverseRecOn with
  | nil => rfl
  | append_singleton l e ih =>
      rw [List.foldl_append, ih, List.filter_append]
      by_cases he : x.missing t e.1
      · simp only [List.foldl_cons, List.foldl_nil, look, he, if_true, List.filter_cons,
          List.filter_nil, List.countP_append, List.countP_cons, List.countP_nil, List.map_append,
          List.map_cons, List.map_nil, List.foldl_append, decide_eq_true_eq]
        split_ifs <;> rfl
      · simp [look, he]

lemma mem_late {e : String × ℤ} :
    e ∈ x.late t ↔ (e ∈ x.created ∧ e.2 ≤ t) ∧ x.missing t e.1 := by
  rw [late, List.mem_filter, mem_before]

/-- **The truth of a row**: an operation past the target has no effect yet. -/
lemma overdue_iff : 0 < (x.truth t).1 ↔
    ∃ e ∈ x.created, e.2 ≤ t - targetMs ∧ x.missing t e.1 := by
  rw [truth_eq, List.countP_pos_iff]
  constructor
  · rintro ⟨e, he, hlate⟩
    obtain ⟨⟨hcreated, -⟩, hmissing⟩ := mem_late.mp he
    exact ⟨e, hcreated, of_decide_eq_true hlate, hmissing⟩
  · rintro ⟨e, hcreated, hlate, hmissing⟩
    have htarget : (0 : ℤ) ≤ targetMs := by decide
    exact ⟨e, mem_late.mpr ⟨⟨hcreated, by omega⟩, hmissing⟩, decide_eq_true hlate⟩

/-- In order of the times, the first operation of a seller is his oldest one. -/
lemma get_oldest {l : List (String × ℤ)} (h : l.Pairwise fun a b => a.2 ≤ b.2)
    {sellerId : String} {r : String × ℤ}
    (hget : Table.get Prod.fst sellerId (l.map fun e => (x.sellerOf e.1, t - e.2)) = some r) :
    (∃ e ∈ l, x.sellerOf e.1 = sellerId ∧ t - e.2 = r.2) ∧
      ∀ e ∈ l, x.sellerOf e.1 = sellerId → t - e.2 ≤ r.2 := by
  induction l with
  | nil => cases hget
  | cons e l ih =>
      obtain ⟨hhead, htail⟩ := List.pairwise_cons.mp h
      by_cases he : x.sellerOf e.1 = sellerId
      · have hr : r = (x.sellerOf e.1, t - e.2) := by
          simpa [Table.get, he, eq_comm] using hget
        subst hr
        refine ⟨⟨e, List.mem_cons_self, he, rfl⟩, fun e' he' _ => ?_⟩
        rcases List.mem_cons.mp he' with rfl | he'
        · exact le_rfl
        · have := hhead e' he'
          show t - e'.2 ≤ t - e.2
          omega
      · have hget : Table.get Prod.fst sellerId (l.map fun e => (x.sellerOf e.1, t - e.2)) =
            some r := by
          simpa [Table.get, he] using hget
        obtain ⟨⟨e', he', hrest⟩, hall⟩ := ih htail hget
        refine ⟨⟨e', List.mem_cons_of_mem _ he', hrest⟩, fun e'' he'' hs => ?_⟩
        rcases List.mem_cons.mp he'' with rfl | he''
        · exact absurd hs he
        · exact hall e'' he'' hs

/-- **The ages of a row**: of each seller with a missing operation, that of the oldest one. -/
lemma mem_ages {sellerId : String} {age : ℤ} :
    (sellerId, age) ∈ (x.truth t).2 ↔
      (∃ e ∈ x.late t, x.sellerOf e.1 = sellerId ∧ t - e.2 = age) ∧
        ∀ e ∈ x.late t, x.sellerOf e.1 = sellerId → t - e.2 ≤ age := by
  have hsorted : (x.late t).Pairwise fun a b => a.2 ≤ b.2 :=
    (x.before_pairwise t).sublist List.filter_sublist
  have hnil : Table.Unique (Prod.fst : String × ℤ → String) [] := Table.unique_nil
  have hunique := Table.unique_foldl_setDefault hnil
    ((x.late t).map fun e => (x.sellerOf e.1, t - e.2))
  have hget : Table.get Prod.fst sellerId (((x.late t).map fun e => (x.sellerOf e.1, t - e.2)).foldl
      (fun d r => Table.setDefault Prod.fst r d) []) = _ := Table.get_foldl_setDefault _ [] sellerId
  rw [truth_eq]
  have hmem := Table.get_eq_some hunique (k := sellerId) (r := (sellerId, age))
  rw [hget] at hmem
  constructor
  · intro h
    exact get_oldest hsorted (hmem.mpr ⟨h, rfl⟩)
  · rintro ⟨⟨e, he, hseller, rfl⟩, hall⟩
    cases hfound : Table.get Prod.fst sellerId
        ((x.late t).map fun e => (x.sellerOf e.1, t - e.2)) with
    | none =>
        have hnone := Table.get_eq_none.mp hfound _ (List.mem_map_of_mem he)
        exact absurd hseller hnone
    | some r =>
        obtain ⟨⟨e', he', hseller', hage'⟩, hall'⟩ := get_oldest hsorted hfound
        have hle := hall e' he' hseller'
        have hge := hall' e he hseller
        have hr : r = (sellerId, t - e.2) :=
          Prod.ext (Table.key_of_get hfound) (by omega)
        refine (hmem.mp ?_).1
        rw [hfound, hr]
        rfl

end Effected

/-! ### The episodes -/

/-- The stretches of rows with one truth. -/
def episodes (rows : List Row) : List (List Row) :=
  rows.splitBy fun r r' => r.truth == r'.truth

/-- A row is late in an episode that started at a time. -/
def Row.late (start : ℤ) (r : Row) : Bool :=
  r.truth ∧ r.state = .normal ∧ graceMs < r.t - start

/-- The late rows of an episode. -/
def missedIn : List Row → ℕ
  | [] => 0
  | r :: rest => (r :: rest).countP (Row.late r.t)

/-- An alert while the truth holds. -/
def Row.alerted (r : Row) : Bool :=
  r.truth ∧ r.state = .alert

/-- How long into the episode the first alert was. -/
def detection : List Row → Option ℤ
  | [] => none
  | r :: rest => ((r :: rest).find? Row.alerted).map fun x => x.t - r.t

/-- An alert while it does not. -/
def Row.falseAlarm (r : Row) : Bool :=
  ¬ r.truth ∧ r.state = .alert

namespace Tally

variable {w : Tally} {r : Row} {rs : List Row} {start : ℤ}

/-- A row of an episode that has begun. -/
lemma turn_of_started (hr : r.truth) (hw : w.episodeStart = some start) :
    w.turn r =
      { w with
        missedMs := w.missedMs + if r.late start then 1000 else 0
        detected := if r.alerted ∧ w.detected = none then some (r.t - start) else w.detected
        detections := w.detections ++
          if r.alerted ∧ w.detected = none then [r.t - start] else [] } := by
  have hbegin : w.begin r = w := by simp [begin, hw]
  have hdetect : w.detect r =
      { w with
        detected := if r.alerted ∧ w.detected = none then some (r.t - start) else w.detected
        detections := w.detections ++
          if r.alerted ∧ w.detected = none then [r.t - start] else [] } := by
    simp only [detect, hw, Row.alerted, hr, true_and, decide_eq_true_eq]
    split_ifs
    · rfl
    · simp [← hw]
  rw [turn, hbegin, leave, if_pos hr, hdetect]
  simp only [miss, hw, Row.late, hr, true_and, decide_eq_true_eq]
  split_ifs <;> rfl

/-- A row outside of the episodes. -/
lemma turn_of_false (hr : r.truth = false) :
    w.turn r =
      { w with
        falseMs := w.falseMs + if r.falseAlarm then 1000 else 0
        episodeStart := none } := by
  have hbegin : w.begin r = w := by simp [begin, hr]
  have hdetect : w.detect r = w := by
    rw [detect]
    split <;> simp [hr]
  have hmiss : w.miss r = w := by
    rw [miss]
    split <;> simp [hr]
  rw [turn, hbegin, hdetect, hmiss, leave]
  simp only [hr, Row.falseAlarm, Bool.false_eq_true, if_false, not_false_iff, true_and,
    decide_eq_true_eq]
  split_ifs <;> rfl

/-- The first row of an episode. -/
lemma turn_begin (hr : r.truth) (hw : w.episodeStart = none) :
    w.turn r = ({ w with episodeStart := some r.t, detected := none } : Tally).turn r := by
  simp [turn, begin, hr, hw]

/-- The rows of an episode that has begun. -/
lemma foldl_started (hrs : ∀ r ∈ rs, r.truth = true) (hw : w.episodeStart = some start) :
    let w' := rs.foldl turn w
    w'.missedMs = w.missedMs + 1000 * rs.countP (Row.late start) ∧ w'.falseMs = w.falseMs ∧
      w'.detections = w.detections ++
        if w.detected = none then ((rs.find? Row.alerted).map fun x => x.t - start).toList
        else [] := by
  induction rs generalizing w with
  | nil => simp
  | cons r rs ih =>
      have hr := hrs r List.mem_cons_self
      obtain ⟨hmissed, hfalse, hdetections⟩ :=
        ih (w := w.turn r) (fun x hx => hrs x (List.mem_cons_of_mem _ hx))
          (by rw [turn_of_started hr hw]; exact hw)
      refine ⟨?_, ?_, ?_⟩
      · rw [List.foldl_cons, hmissed, turn_of_started hr hw, List.countP_cons]
        dsimp only
        split_ifs <;> ring
      · rw [List.foldl_cons, hfalse, turn_of_started hr hw]
      · rw [List.foldl_cons, hdetections, turn_of_started hr hw, List.find?_cons]
        cases ha : r.alerted <;> by_cases hd : w.detected = none <;> simp [hd]

/-- The rows between two episodes. -/
lemma foldl_false (hrs : ∀ r ∈ rs, r.truth = false) :
    let w' := rs.foldl turn w
    w'.missedMs = w.missedMs ∧ w'.falseMs = w.falseMs + 1000 * rs.countP Row.falseAlarm ∧
      w'.detections = w.detections ∧ (rs ≠ [] → w'.episodeStart = none) := by
  induction rs generalizing w with
  | nil => simp
  | cons r rs ih =>
      have hr := hrs r List.mem_cons_self
      obtain ⟨hmissed, hfalse, hdetections, hstart⟩ :=
        ih (w := w.turn r) (fun x hx => hrs x (List.mem_cons_of_mem _ hx))
      refine ⟨?_, ?_, ?_, fun _ => ?_⟩
      · rw [List.foldl_cons, hmissed, turn_of_false hr]
      · rw [List.foldl_cons, hfalse, turn_of_false hr, List.countP_cons]
        dsimp only
        split_ifs <;> ring
      · rw [List.foldl_cons, hdetections, turn_of_false hr]
      · cases rs with
        | nil => rw [List.foldl_cons, turn_of_false hr]; rfl
        | cons r' rs => exact hstart (List.cons_ne_nil _ _)

end Tally

/-- The rows of a stretch agree. -/
lemma truth_of_isChain {r : Row} {rs : List Row}
    (h : (r :: rs).IsChain fun a b => (a.truth == b.truth) = true) :
    ∀ x ∈ r :: rs, x.truth = r.truth := by
  induction rs generalizing r with
  | nil => simp
  | cons r' rs ih =>
      obtain ⟨heq, hrest⟩ := List.isChain_cons_cons.mp h
      intro x hx
      rcases List.mem_cons.mp hx with rfl | hx
      · rfl
      · rw [ih hrest x hx]
        exact (eq_of_beq heq).symm

/-- Stretch by stretch. -/
lemma foldl_stretches {eps : List (List Row)} (hnil : [] ∉ eps)
    (hsame : ∀ ep ∈ eps, ep.IsChain fun a b => (a.truth == b.truth) = true)
    (hchange : eps.IsChain fun a b =>
      ∃ ha hb, ((a.getLast ha).truth == (b.head hb).truth) = false)
    {w : Tally} (hw : ∀ ep ∈ eps.head?, ∀ r ∈ ep.head?, r.truth = true → w.episodeStart = none) :
    let w' := eps.flatten.foldl Tally.turn w
    w'.missedMs = w.missedMs + 1000 * (eps.map missedIn).sum ∧
      w'.falseMs = w.falseMs + 1000 * eps.flatten.countP Row.falseAlarm ∧
      w'.detections = w.detections ++ eps.filterMap detection := by
  induction eps generalizing w with
  | nil => simp
  | cons ep eps ih =>
      obtain ⟨hhead, htail⟩ := List.isChain_cons.mp hchange
      have hsame' : ∀ ep ∈ eps, ep.IsChain fun a b => (a.truth == b.truth) = true :=
        fun ep hep => hsame ep (List.mem_cons_of_mem _ hep)
      have hnil' : [] ∉ eps := fun h => hnil (List.mem_cons_of_mem _ h)
      cases ep with
      | nil => exact absurd List.mem_cons_self hnil
      | cons r rs =>
          have hall := truth_of_isChain (hsame _ List.mem_cons_self)
          rw [List.flatten_cons, List.foldl_append, List.countP_append, List.map_cons,
            List.sum_cons, List.filterMap_cons]
          cases hr : r.truth with
          | true =>
              have hbegin : (r :: rs).foldl Tally.turn w = (r :: rs).foldl Tally.turn
                  { w with episodeStart := some r.t, detected := none } := by
                rw [List.foldl_cons, List.foldl_cons, Tally.turn_begin hr (hw _ rfl _ rfl hr)]
              rw [hr] at hall
              obtain ⟨hmissed, hfalse, hdetections⟩ := Tally.foldl_started
                (w := { w with episodeStart := some r.t, detected := none }) hall rfl
              -- the next stretch is not an episode
              obtain ⟨hmissed', hfalse', hdetections'⟩ := ih hnil' hsame' htail
                (w := (r :: rs).foldl Tally.turn w) fun ep hep x hx htruth => by
                  obtain ⟨ha, hb, hne⟩ := hhead ep hep
                  have hlast := hall _ (List.getLast_mem ha)
                  have hx' : ep.head hb = x := by
                    rw [List.head?_eq_some_head hb] at hx
                    exact Option.some.inj hx
                  rw [hlast, hx', htruth] at hne
                  cases hne
              have hnone : (r :: rs).countP Row.falseAlarm = 0 :=
                List.countP_eq_zero.mpr fun x hx => by simp [Row.falseAlarm, hall x hx]
              rw [hbegin] at hmissed' hfalse' hdetections' ⊢
              refine ⟨?_, ?_, ?_⟩
              · rw [hmissed', hmissed, missedIn]
                ring
              · rw [hfalse', hfalse, hnone, zero_add]
              · rw [hdetections', hdetections, detection, if_pos rfl]
                cases ((r :: rs).find? Row.alerted).map fun x => x.t - r.t <;> simp
          | false =>
              rw [hr] at hall
              obtain ⟨hmissed, hfalse, hdetections, hstart⟩ := Tally.foldl_false (w := w) hall
              obtain ⟨hmissed', hfalse', hdetections'⟩ := ih hnil' hsame' htail
                (w := (r :: rs).foldl Tally.turn w) fun _ _ _ _ _ => hstart (List.cons_ne_nil _ _)
              have hnone : (r :: rs).countP (Row.late r.t) = 0 :=
                List.countP_eq_zero.mpr fun x hx => by simp [Row.late, hall x hx]
              have hquiet : (r :: rs).find? Row.alerted = none :=
                List.find?_eq_none.mpr fun x hx => by simp [Row.alerted, hall x hx]
              refine ⟨?_, ?_, ?_⟩
              · rw [hmissed', hmissed, missedIn, hnone, zero_add]
              · rw [hfalse', hfalse]
                ring
              · rw [hdetections', hdetections, detection, hquiet, Option.map_none]

/-- The sums of the loop, read off the episodes. -/
lemma tally_eq (rows : List Row) :
    let w := rows.foldl Tally.turn {}
    w.missedMs = 1000 * ((episodes rows).map missedIn).sum ∧
      w.falseMs = 1000 * rows.countP Row.falseAlarm ∧
      w.detections = (episodes rows).filterMap detection := by
  have h := foldl_stretches (w := {}) (List.nil_notMem_splitBy _ rows)
    (fun _ hep => List.isChain_of_mem_splitBy hep)
    (List.isChain_getLast_head_splitBy (fun a b => a.truth == b.truth) rows)
    (fun _ _ _ _ _ => rfl)
  rw [List.flatten_splitBy] at h
  simpa only [zero_add, List.nil_append, episodes] using h

lemma missedIn_eq_zero {ep : List Row} : missedIn ep = 0 ↔ ∀ first ∈ ep.head?, ∀ r ∈ ep,
    r.truth = true → r.state = .normal → r.t - first.t ≤ graceMs := by
  cases ep with
  | nil => simp [missedIn]
  | cons first rest =>
      rw [missedIn, List.countP_eq_zero]
      simp [Row.late]

/-- The row of a sample says when an operation is late. -/
lemma truth_of_row {x : Effected} {samples : List (Sample × Alert)} {r : Row}
    (hr : r ∈ rows x samples) :
    r.truth = true ↔ ∃ e ∈ x.created, e.2 ≤ r.t - targetMs ∧ x.missing r.t e.1 := by
  obtain ⟨s, -, hs⟩ := List.mem_filterMap.mp hr
  obtain ⟨source, -, rfl⟩ := Option.map_eq_some_iff.mp hs
  exact decide_eq_true_iff.trans Effected.overdue_iff

/-- **The observability verdict is exact.** A row holds the truth when an operation that was
accepted `targetMs` ago has no effect yet. The block passes when no episode has a row that is read
as normal later than the grace behind its first one; each such row counts a second, and so does an
alert outside of the episodes. The delays are those of the first alert of each episode with one. -/
theorem observability_exact {x : Effected} {samples : List (Sample × Alert)}
    {v : ObservabilityVerdict} (h : observability x samples = some v) :
    (∀ r ∈ rows x samples, r.truth = true ↔
        ∃ e ∈ x.created, e.2 ≤ r.t - targetMs ∧ x.missing r.t e.1) ∧
      (v.passed = true ↔ ∀ ep ∈ episodes (rows x samples), ∀ first ∈ ep.head?, ∀ r ∈ ep,
        r.truth = true → r.state = .normal → r.t - first.t ≤ graceMs) ∧
      v.missedMs = 1000 * ((episodes (rows x samples)).map missedIn).sum ∧
      v.falseAlertMs = 1000 * (rows x samples).countP Row.falseAlarm ∧
      v.detectionDelaysMs = ((episodes (rows x samples)).filterMap detection).take 20 ∧
      v.detectionMaxMs = ((episodes (rows x samples)).filterMap detection).max? := by
  obtain ⟨hmissed, hfalse, hdetections⟩ := tally_eq (rows x samples)
  simp only [observability] at h
  split_ifs at h
  cases h
  refine ⟨fun r hr => truth_of_row hr, ?_, hmissed, hfalse, ?_, ?_⟩
  · dsimp only
    rw [decide_eq_true_iff, hmissed, mul_eq_zero, or_iff_right (by norm_num),
      List.sum_eq_zero_iff, List.forall_mem_map]
    exact forall₂_congr fun ep _ => missedIn_eq_zero
  · rw [hdetections]
  · rw [hdetections]

/-- An operation that is never applied, and four samples of an empty signal. -/
def sampleTimes : Effected where
  created := [("e1", 5)]
  effectAt _ := none
  sellerOf _ := "S"

def sampleAlerts : List (Sample × Alert) :=
  [(1000, .normal), (2000, .normal), (4000, .alert), (6000, .normal)].map fun s =>
    (⟨s.1, some ⟨s.1, s.1, 1500, []⟩⟩, s.2)

theorem observability_exact_late_row :
    observability sampleTimes sampleAlerts =
        some ⟨4, [2000], some 2000, 1000, 0, 0, some 5995, false⟩ ∧
      (false = true ↔ ∀ ep ∈ episodes (rows sampleTimes sampleAlerts), ∀ first ∈ ep.head?,
        ∀ r ∈ ep, r.truth = true → r.state = .normal → r.t - first.t ≤ graceMs) :=
  have h : observability sampleTimes sampleAlerts =
      some ⟨4, [2000], some 2000, 1000, 0, 0, some 5995, false⟩ := by decide +kernel
  ⟨h, (observability_exact h).2.1⟩


end OrderSystem.Experiments
