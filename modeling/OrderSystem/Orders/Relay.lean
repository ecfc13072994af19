/-
The relay forgets nothing: a row leaves the outbox only after its record is in the
broker.

* `Handed`: a numbered send of the relay. While it is in flight it belongs to the
  row it was sent for, and once it is answered that row is in the broker.
* `Relayed`: the invariant. Every written row is still in the outbox or in the
  broker, and a row that is `SENT` is in the broker.
* `pending_or_published`: every accepted event has its row `PENDING` or its record
  in the broker, whatever sends failed, answers were lost, relays were restarted
  and `SENT` rows were purged.
-/
import OrderSystem.Orders.Effects

namespace OrderSystem.Orders

open Interleaving

variable {t u : ℕ} {s s' : Store} {p p' : Proc} {a : Act}

/-! ### The invariant -/

/-- The row is one that was written. -/
def Store.wrote (s : Store) (r : OutboxRow) : Prop :=
  ∃ w ∈ s.written, w.SameEvent r

/-- The record of the row is in the broker. -/
def Store.published (s : Store) (r : OutboxRow) : Prop :=
  ∃ x ∈ s.broker, x.SameEvent r

/-- A numbered send. -/
structure Handed (s : Store) (x : ℕ × OutboxRow) : Prop where
  number : x.1 < s.nextSend
  flight : ∀ y ∈ s.inFlight, y.1 = x.1 → y.2 = x.2
  answered : x.1 ∈ s.acked → x.2 ∈ s.broker
  wrote : s.wrote x.2

/-- Nothing is forgotten between the outbox and the broker. -/
structure Relayed (s : Store) : Prop where
  flight : ∀ y ∈ s.inFlight, y.1 < s.nextSend ∧ s.wrote y.2
  acked : ∀ n ∈ s.acked, n < s.nextSend
  broker : ∀ r ∈ s.broker, s.wrote r
  sent : ∀ r ∈ s.db.outbox, r.status = .sent → s.published r
  kept : ∀ w ∈ s.written, (∃ r ∈ s.db.outbox, w.SameEvent r) ∨ s.published w

/-- What the relay relies on. -/
def RelayPc.handed (s : Store) : RelayPc → Prop
  | .sending todo sends => (∀ r ∈ todo, s.wrote r) ∧ ∀ x ∈ sends, Handed s x
  | .awaiting sends sent => (∀ x ∈ sends, Handed s x) ∧ ∀ id ∈ sent, ∃ x ∈ s.broker, x.id = id
  | .marking sent => ∀ id ∈ sent, ∃ x ∈ s.broker, x.id = id
  | .purging => True

/-- The local part of the invariant. -/
def Proc.handed (s : Store) : Proc → Prop
  | .relaying pc => pc.handed s
  | _ => True

/-! ### Steps -/

namespace Effect

variable (h : Effect t s p s')

include h

/-- Written rows and records are not taken back. -/
lemma written_subset : s.written ⊆ s'.written := by
  cases h with
  | create locks hp hk hcap => exact List.subset_append_left _ _
  | enqueue locks hp hk hcap hmine => exact List.subset_append_left _ _
  | _ => exact List.Subset.refl _

lemma broker_subset : s.broker ⊆ s'.broker := by
  cases h with
  | append lost hp hmem => exact List.subset_append_left _ _
  | _ => exact List.Subset.refl _

lemma wrote {r : OutboxRow} (hr : s.wrote r) : s'.wrote r := by
  obtain ⟨w, hw, hwr⟩ := hr
  exact ⟨w, h.written_subset hw, hwr⟩

lemma published {r : OutboxRow} (hr : s.published r) : s'.published r := by
  obtain ⟨x, hx, hxr⟩ := hr
  exact ⟨x, h.broker_subset hx, hxr⟩

/-- A send keeps its row. -/
lemma handed {x : ℕ × OutboxRow} (hx : Handed s x) : Handed s' x := by
  have hwrote := h.wrote hx.wrote
  cases h with
  | @send r todo sends hp =>
      refine ⟨Nat.lt_succ_of_lt hx.number, fun y hy hyx => ?_, hx.answered, hwrote⟩
      rcases List.mem_append.mp hy with hy | hy
      · exact hx.flight y hy hyx
      · -- the new send has a number of its own
        rw [List.mem_singleton.mp hy] at hyx
        exact absurd hyx (Nat.ne_of_gt hx.number)
  | @append n r lost hp hmem =>
      refine ⟨hx.number, fun y hy => hx.flight y (List.mem_filter.mp hy).1, fun hack => ?_, hwrote⟩
      have hcases : x.1 ∈ s.acked ∨ x.1 = n := by
        cases lost with
        | true => exact Or.inl hack
        | false => simpa using hack
      rcases hcases with hack | rfl
      · exact List.mem_append_left _ (hx.answered hack)
      · rw [← hx.flight _ hmem rfl]
        simp
  | _ => exact ⟨hx.number, hx.flight, hx.answered, hwrote⟩

lemma relay_handed {pc : RelayPc} (hpc : pc.handed s) : pc.handed s' := by
  have hids : ∀ {sent : List ℕ}, (∀ id ∈ sent, ∃ x ∈ s.broker, x.id = id) →
      ∀ id ∈ sent, ∃ x ∈ s'.broker, x.id = id := by
    intro sent hsent id hid
    obtain ⟨x, hx, hxid⟩ := hsent id hid
    exact ⟨x, h.broker_subset hx, hxid⟩
  cases pc with
  | sending todo sends =>
      exact ⟨fun r hr => h.wrote (hpc.1 r hr), fun x hx => h.handed (hpc.2 x hx)⟩
  | awaiting sends sent => exact ⟨fun x hx => h.handed (hpc.1 x hx), hids hpc.2⟩
  | marking sent => exact hids hpc
  | purging => trivial

end Effect

/-- A record in the broker is the record of the row with its key. -/
lemma Sound.sameEvent_of_id (hs : Sound s) {r x : OutboxRow} (hr : s.wrote r) (hx : s.wrote x)
    (hid : x.id = r.id) : x.SameEvent r := by
  obtain ⟨w, hw, hwr⟩ := hr
  obtain ⟨v, hv, hvx⟩ := hx
  obtain rfl : v = w := hs.writtenIds.eq hv hw (by rw [hvx.id, hwr.id, hid])
  exact hvx.symm.trans hwr

/-- A written row enters the outbox. -/
lemma Relayed.insert (hr : Relayed s) {row : OutboxRow} {db : Db} {locks : Locks.Table Resource}
    (hrow : row.status = .pending) (hdb : db.outbox = s.db.outbox ++ [row]) :
    Relayed { s with db := db, locks := locks, written := s.written ++ [row] } := by
  have hwrote : ∀ {r : OutboxRow}, s.wrote r →
      ∃ w ∈ s.written ++ [row], w.SameEvent r := by
    rintro r ⟨w, hw, hwr⟩
    exact ⟨w, List.mem_append_left _ hw, hwr⟩
  refine ⟨fun y hy => ⟨(hr.flight y hy).1, hwrote (hr.flight y hy).2⟩, hr.acked,
    fun r hmem => hwrote (hr.broker r hmem), fun r hmem hsent => ?_, fun w hw => ?_⟩
  · rw [hdb] at hmem
    rcases List.mem_append.mp hmem with hmem | hmem
    · exact hr.sent r hmem hsent
    · rw [List.mem_singleton.mp hmem, hrow] at hsent
      cases hsent
  · rcases List.mem_append.mp hw with hw | hw
    · refine (hr.kept w hw).imp_left ?_
      rintro ⟨r, hmem, hwr⟩
      exact ⟨r, by rw [hdb]; exact List.mem_append_left _ hmem, hwr⟩
    · rw [List.mem_singleton.mp hw]
      exact Or.inl ⟨row, by rw [hdb]; simp, .refl row⟩

/-- Every step keeps the invariant. -/
lemma Relayed.step (hr : Relayed s) (hs : Sound s) (hq : p.handed s) (h : Effect t s p s') :
    Relayed s' := by
  have hsub : ∀ {r : OutboxRow}, s.published r → s'.published r := fun hr => h.published hr
  cases h with
  | @create o row locks hp hk hcap =>
      subst hp
      exact hr.insert hk.2.1.pending rfl
  | @enqueue o operation row locks hp hk hcap hmine =>
      subst hp
      exact hr.insert hk.2.1.pending rfl
  | @send r todo sends hp =>
      subst hp
      refine ⟨fun y hy => ?_, fun n hn => Nat.lt_succ_of_lt (hr.acked n hn), hr.broker, hr.sent,
        hr.kept⟩
      rcases List.mem_append.mp hy with hy | hy
      · exact ⟨Nat.lt_succ_of_lt (hr.flight y hy).1, (hr.flight y hy).2⟩
      · rw [List.mem_singleton.mp hy]
        exact ⟨Nat.lt_succ_self _, hq.1 r (by simp)⟩
  | @append n r lost hp hmem =>
      refine ⟨fun y hy => hr.flight y (List.mem_filter.mp hy).1, fun m hm => ?_, fun x hx => ?_,
        fun x hx hsent => hsub (hr.sent x hx hsent),
        fun w hw => (hr.kept w hw).imp_right fun hpub => hsub hpub⟩
      · cases lost with
        | true => exact hr.acked m hm
        | false =>
            rcases List.mem_append.mp hm with hm | hm
            · exact hr.acked m hm
            · rw [List.mem_singleton.mp hm]
              exact (hr.flight _ hmem).1
      · rcases List.mem_append.mp hx with hx | hx
        · exact hr.broker x hx
        · rw [List.mem_singleton.mp hx]
          exact (hr.flight _ hmem).2
  | @markSent sent time hp =>
      subst hp
      refine ⟨hr.flight, hr.acked, hr.broker, fun r hmem hsent => ?_, fun w hw => ?_⟩
      · obtain ⟨x, hx, rfl⟩ := mem_markSent hmem
        have hwrote := hs.outbox x hx
        split_ifs at hsent ⊢ with hid
        · -- the answer of the broker is for the row with this key
          obtain ⟨y, hy, hyid⟩ := hq x.id hid
          refine ⟨y, hy, (hs.sameEvent_of_id hwrote (hr.broker y hy) hyid).trans ?_⟩
          exact ⟨rfl, rfl, rfl, rfl, rfl⟩
        · exact hr.sent x hx hsent
      · refine (hr.kept w hw).imp_left ?_
        rintro ⟨r, hmem, hwr⟩
        refine ⟨_, List.mem_map_of_mem hmem, hwr.trans ?_⟩
        split_ifs <;> exact ⟨rfl, rfl, rfl, rfl, rfl⟩
  | @purge ids hp hsent =>
      refine ⟨hr.flight, hr.acked, hr.broker, fun r hmem => hr.sent r (List.mem_filter.mp hmem).1,
        fun w hw => ?_⟩
      rcases hr.kept w hw with ⟨r, hmem, hwr⟩ | hpub
      · by_cases hid : r.id ∈ ids
        · obtain ⟨x, hx, hxr⟩ := hr.sent r hmem (hsent r hmem hid)
          exact Or.inr ⟨x, hx, hxr.trans hwr.symm⟩
        · exact Or.inl ⟨r, List.mem_filter.mpr ⟨hmem, by simpa using hid⟩, hwr⟩
      · exact Or.inr hpub
  | _ => exact ⟨hr.flight, hr.acked, hr.broker, hr.sent, hr.kept⟩

lemma mem_findTop500Pending {db : Db} {r : OutboxRow} (h : r ∈ db.findTop500Pending) :
    r ∈ db.outbox ∧ r.status = .pending := by
  have hmem := List.mem_insertionSort _ |>.mp (List.mem_of_mem_take h)
  simpa using List.mem_filter.mp hmem

lemma relayNext_handed {time : ℤ} {pc : RelayPc} (hr : Relayed s) (hq : pc.handed s)
    (heff : Effect t s (.relaying pc) s') (h : relayNext s time pc = some (s', p')) :
    p'.handed s' := by
  have hq' := heff.relay_handed hq
  cases pc with
  | sending todo sends =>
      cases todo with
      | nil =>
          cases h
          exact ⟨hq.2, by simp⟩
      | cons r todo =>
          cases h
          refine ⟨fun x hx => hq'.1 x (List.mem_cons_of_mem _ hx), fun x hx => ?_⟩
          rcases List.mem_append.mp hx with hx | hx
          · exact hq'.2 x hx
          · rw [List.mem_singleton.mp hx]
            refine ⟨Nat.lt_succ_self _, fun y hy hyx => ?_, fun hack => ?_, hq'.1 r (by simp)⟩
            · rcases List.mem_append.mp hy with hy | hy
              · exact absurd hyx (Nat.ne_of_lt (hr.flight y hy).1)
              · rw [List.mem_singleton.mp hy]
            · exact absurd (hr.acked _ hack) (lt_irrefl _)
  | awaiting sends sent =>
      cases sends with
      | nil =>
          cases h
          exact hq.2
      | cons x sends =>
          obtain ⟨n, r⟩ := x
          simp only [relayNext] at h
          split_ifs at h with hack
          cases h
          refine ⟨fun x hx => hq.1 x (List.mem_cons_of_mem _ hx), fun id hid => ?_⟩
          rcases List.mem_append.mp hid with hid | hid
          · exact hq.2 id hid
          · rw [List.mem_singleton.mp hid]
            exact ⟨r, (hq.1 (n, r) (by simp)).answered hack, rfl⟩
  | marking sent =>
      simp only [relayNext] at h
      split_ifs at h <;> cases h <;> trivial
  | purging =>
      cases h
      trivial

/-- What the relay relies on after its own step. -/
lemma next_handed (hs : Sound s) (hr : Relayed s) (hq : p.handed s) (heff : Effect t s p s')
    (h : next t s p a = some (s', p')) : p'.handed s' := by
  cases next_move h with
  | relay => exact ⟨fun r hmem => hs.outbox r (mem_findTop500Pending hmem).1, by simp⟩
  | relaying h => exact relayNext_handed hr hq heff h
  | sendFailed todo sends => exact ⟨hq.2, by simp⟩
  | answerFailed sends sent => exact hq.2
  | mutate h =>
      obtain ⟨_, h⟩ | ⟨_, _, -, -, -, -, -, rfl⟩ := mutateNext_cases h
      · cases h
        trivial
      · trivial
  | handle h =>
      obtain ⟨-, rfl⟩ | ⟨_, _, -, -, -, ⟨-, -, rfl⟩ | ⟨-, -, rfl⟩⟩ := handleNext_cases h <;> trivial
  | inside h =>
      unfold txNext refuse at h
      split at h <;> try split_ifs at h
      all_goals first
        | (cases h; trivial)
        | (split at h <;> cases h <;> trivial)
  | _ => trivial

/-! ### Every run -/

/-- Nothing is forgotten in any run. -/
theorem reachable_relayed {ok : Config Store Proc → ℕ → Act → Prop} {c : Config Store Proc}
    (h : Run service ok initial c) : Relayed c.store ∧ ∀ t, (c.procs t).handed c.store := by
  refine Run.invariant (I := Relayed) (J := fun _ s p => p.handed s)
    (K := fun c => Run service ok initial c) (fun _ h => h) ?_ ?_ ?_ h
  · refine ⟨⟨?_, ?_, ?_, ?_, ?_⟩, fun _ => trivial⟩ <;> simp [initial]
  · intro c t a s' p' hrun _ hr hq hnext
    have hs := (reachable_sound hrun).1
    have heff := reachable_effect hrun hnext
    exact ⟨hr.step hs (hq t) heff, next_handed hs hr (hq t) heff hnext⟩
  · intro c t a s' p' u hrun _ _ hq hnext _
    have heff := reachable_effect hrun hnext
    have hqu := hq u
    cases hp : c.procs u with
    | relaying pc =>
        rw [hp] at hqu
        exact heff.relay_handed hqu
    | _ => trivial

/-- An accepted event has its row `PENDING`, or its record in the broker. -/
theorem pending_or_published {ok : Config Store Proc → ℕ → Act → Prop} {c : Config Store Proc}
    (h : Run service ok initial c) {e : PartnerOrderEvent} (he : e ∈ c.store.accepted) :
    (∃ r ∈ c.store.db.outbox, r.partner = some e ∧ r.status = .pending) ∨
      ∃ r ∈ c.store.broker, r.partner = some e := by
  have hr := (reachable_relayed h).1
  obtain ⟨w, hw, hwe⟩ := List.mem_filterMap.mp he
  have hpub : c.store.published w → ∃ r ∈ c.store.broker, r.partner = some e := by
    rintro ⟨x, hx, hxw⟩
    exact ⟨x, hx, hxw.partner.trans hwe⟩
  rcases hr.kept w hw with ⟨r, hmem, hwr⟩ | hw
  · cases hstatus : r.status with
    | pending => exact Or.inl ⟨r, hmem, hwr.partner.symm.trans hwe, hstatus⟩
    | sent =>
        obtain ⟨x, hx, hxr⟩ := hr.sent r hmem hstatus
        exact Or.inr (hpub ⟨x, hx, hxr.trans hwr.symm⟩)
  · exact Or.inr (hpub hw)

end OrderSystem.Orders
