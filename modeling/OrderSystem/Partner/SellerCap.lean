/-
The cap on the live work of a seller.

The cap is enforced through the permit slots only: it holds as long as every row
that is claimed under a running lease is backed by a permit of the same owner,
event and generation. `renew` extends the lease of the row and the lease of the
permit in two statements that are committed one by one; a process that stalls
between them leaves a live row behind a permit that has run out, and the next
claim takes the slot.

* `Store.liveRows`: the live rows of a seller.
* `sharedCap`: all instances use the same number of permits.
* `seller_cap_exceeded`: the stalled renewal, with one permit and two live rows.
* `noTakeover`: no claim takes a slot that still backs a live row; `Capped` is
  the invariant and `seller_cap_holds` the cap in every such run.
-/
import OrderSystem.Partner.Fencing

namespace OrderSystem.Partner

open Interleaving

variable {t u : ℕ} {s s' : Store} {p p' : Proc} {a : Act} {E : PartnerOrderEvent → Prop} {k : ℕ}

/-! ### The cap -/

/-- The rows of a seller that are claimed under a lease that has not run out. -/
def Store.liveRows (s : Store) (sellerId : String) : ℕ :=
  s.db.inbox.countP fun r => r.event.sellerId = sellerId ∧ r.live s.now

/-- The number of permits an action claims with. -/
def Act.permits : Act → Option ℕ
  | .start (.claim job) => some job.sellerPermits
  | _ => none

/-- The action calls `release` on its own. -/
def Act.releases : Act → Bool
  | .start (.release _) => true
  | _ => false

/-- INBOX mode with `k` permits per seller on every instance; permits are released
by `giveBack` and `complete`. -/
def sharedCap (E : PartnerOrderEvent → Prop) (k : ℕ) (c : Config Store Proc) (t : ℕ) (a : Act) :
    Prop :=
  inboxMode E c t a ∧ (∀ n ∈ a.permits, n = k) ∧ a.releases = false

instance [DecidablePred E] (c : Config Store Proc) (t : ℕ) (a : Act) :
    Decidable (sharedCap E k c t a) :=
  inferInstanceAs (Decidable (_ ∧ _ ∧ _))

/-- Owner `w` holds the one permit of the seller for an operation of order 7 under
a lease until 10. It renews the row at 9 and stalls before it renews the permit.
At 11 owner `v` finds the slot free and claims an operation of order 8. -/
def stalledRenewal : List (ℕ × Act) :=
  let e := sampleEvent "e1" 1
  let f := { sampleEvent "f1" 1 with orderId := 8 }
  storing 1 e ++ storing 1 f ++ claiming 2 e "w" ++
    (4, .tick 9) :: (2, .start (.renew ⟨"e1", "S", "w", 1, 1, false, false⟩ 10)) ::
    statements 2 1 9 ++ (4, .tick 11) :: (3, .start (.claim ⟨f, "v", 1, 5, 1000, 10⟩)) ::
    statements 3 8 11

theorem seller_cap_exceeded :
    ¬ ∀ (k : ℕ) (c : Config Store Proc), Run service (sharedCap (fun _ => True) k) initial c →
      ∀ sellerId, c.store.liveRows sellerId ≤ k := by
  intro hcap
  obtain ⟨c, hrun, hc⟩ := Run.exists_of_exec service (sharedCap (fun _ => True) 1) initial
    stalledRenewal (fun c => c.store.liveRows "S") 2 (by decide +kernel)
  have hle := hcap 1 c hrun "S"
  have hlive : c.store.liveRows "S" = 2 := hc
  omega

/-! ### Backed rows -/

/-- The permit belongs to the claim the row is held under. -/
def PermitRow.backs (permit : PermitRow) (r : InboxRow) : Prop :=
  permit.owner = r.owner ∧ permit.owner ≠ none ∧ permit.eventId = some r.eventId ∧
    permit.generation = r.generation

instance (permit : PermitRow) (r : InboxRow) : Decidable (permit.backs r) :=
  inferInstanceAs (Decidable (_ ∧ _ ∧ _ ∧ _))

/-- The permit row the next statement of a claim chooses. -/
def slotTaken (s : Store) : Proc → Act → Option PermitRow
  | .claiming job (.selectPermits inserted), .go _ =>
      (firstFree s.now (permitsOf (s.db.insertPermits job.event.sellerId inserted)
        job.event.sellerId)).bind (slotRow s.db job inserted)
  | _, _ => none

/-- No live row is backed by the permit. -/
def Store.unbacked (s : Store) (permit : PermitRow) : Prop :=
  ∀ r ∈ s.db.inbox, r.live s.now → ¬ permit.backs r

instance (s : Store) (permit : PermitRow) : Decidable (s.unbacked permit) :=
  inferInstanceAs (Decidable (∀ r ∈ s.db.inbox, _))

/-- A claim does not take a slot that still backs a live row. -/
def noTakeover (c : Config Store Proc) (t : ℕ) (a : Act) : Prop :=
  ∀ permit ∈ slotTaken c.store (c.procs t) a, c.store.unbacked permit

instance (c : Config Store Proc) (t : ℕ) (a : Act) : Decidable (noTakeover c t a) :=
  inferInstanceAs (Decidable (∀ permit ∈ slotTaken c.store (c.procs t) a, _))

/-- The runs in which no live row loses its slot. -/
def cappedRun (E : PartnerOrderEvent → Prop) (k : ℕ) (c : Config Store Proc) (t : ℕ) (a : Act) :
    Prop :=
  sharedCap E k c t a ∧ noTakeover c t a

instance [DecidablePred E] (c : Config Store Proc) (t : ℕ) (a : Act) :
    Decidable (cappedRun E k c t a) :=
  inferInstanceAs (Decidable (_ ∧ _))

/-- The slots are those of `k` permits, every permit in use belongs to an issued
token, and every live row is backed. -/
structure Capped (k : ℕ) (s : Store) : Prop where
  slots : ∀ permit ∈ s.db.sellerPermit, 1 ≤ permit.slot ∧ permit.slot ≤ k
  tokens : ∀ permit ∈ s.db.sellerPermit, permit.owner ≠ none →
    ∃ i ∈ s.issued, permit.heldBy i.claim
  backed : ∀ r ∈ s.db.inbox, r.live s.now →
    ∃ permit ∈ s.db.sellerPermit, permit.sellerId = r.event.sellerId ∧ permit.backs r

/-- The slots a claim has inserted. -/
def ClaimPc.inserted : ClaimPc → List ℕ
  | .ensure _ inserted | .selectPermits inserted | .selectRow inserted _
  | .countAdmissions inserted _ _ | .insertAdmission inserted _ _ | .updateRow inserted _ _ _
  | .updatePermit inserted _ _ _ _ | .commit inserted _ => inserted
  | .ensurePermits => []

/-- The slot a claim has chosen. -/
def ClaimPc.slot : ClaimPc → Option ℕ
  | .selectRow _ slot | .countAdmissions _ slot _ | .insertAdmission _ slot _
  | .updateRow _ slot _ _ | .updatePermit _ slot _ _ _
  | .commit _ (.claimed slot _ _ _ _) => some slot
  | _ => none

/-- The slot a claim is about to ensure is a slot. -/
def ClaimPc.counts : ClaimPc → Prop
  | .ensure slot _ => 1 ≤ slot
  | _ => True

/-- The local part of the invariant. -/
def Proc.capped (k : ℕ) (s : Store) : Proc → Prop
  | .claiming job pc => job.sellerPermits = k ∧ pc.counts ∧
      (∀ slot ∈ pc.inserted, 1 ≤ slot ∧ slot ≤ k) ∧
      ∀ slot ∈ pc.slot, ∀ permit ∈ slotRow s.db job pc.inserted slot, s.unbacked permit
  | .givingBack c (.release none) => ¬ s.holds c
  | .givingBack c (.commit none _) => ¬ s.holds c
  | _ => True

/-- The live rows of a seller fit into its slots. -/
lemma Capped.liveRows_le (hi : Capped k s) (hs : Sound s) (sellerId : String) :
    s.liveRows sellerId ≤ k := by
  classical
  set rows := s.db.inbox.filter fun r => r.event.sellerId = sellerId ∧ r.live s.now with hrows
  have hmem : ∀ r ∈ rows, r ∈ s.db.inbox ∧ r.event.sellerId = sellerId ∧ r.live s.now := by
    intro r hr
    simpa [hrows] using hr
  -- a permit for every live row; two rows cannot share one
  have hbacked : ∀ r : InboxRow, ∃ permit : PermitRow, r ∈ rows →
      permit ∈ s.db.sellerPermit ∧ permit.sellerId = sellerId ∧ permit.backs r := by
    intro r
    by_cases hr : r ∈ rows
    · obtain ⟨hin, hseller, hlive⟩ := hmem r hr
      obtain ⟨permit, hpermit, hps, hb⟩ := hi.backed r hin hlive
      exact ⟨permit, fun _ => ⟨hpermit, hps.trans hseller, hb⟩⟩
    · exact ⟨{ sellerId := sellerId, slot := 0 }, fun h => absurd h hr⟩
  choose f hf using hbacked
  have hinj : ∀ r ∈ rows, ∀ r' ∈ rows, (f r).slot = (f r').slot → r = r' := by
    intro r hr r' hr' hslot
    obtain ⟨hp, hps, hb⟩ := hf r hr
    obtain ⟨hp', hps', hb'⟩ := hf r' hr'
    have hsame : f r = f r' := hs.permits.eq hp hp' (by
      rw [PermitRow.slotKey, PermitRow.slotKey, hps, hps', hslot])
    have hid : r.eventId = r'.eventId := by
      have h1 := hb.2.2.1
      rw [hsame, hb'.2.2.1] at h1
      exact (Option.some.inj h1).symm
    exact hs.inboxIds.eq (hmem r hr).1 (hmem r' hr').1 hid
  have hnodup : rows.Nodup := (List.Nodup.of_map _ hs.inboxIds).filter _
  have hslots : (rows.map fun r => (f r).slot).Nodup :=
    List.Nodup.map_on (fun r hr r' hr' => hinj r hr r' hr') hnodup
  have hsub : (rows.map fun r => (f r).slot).toFinset ⊆ Finset.Icc 1 k := by
    intro n hn
    obtain ⟨r, hr, rfl⟩ := List.mem_map.mp (List.mem_toFinset.mp hn)
    exact Finset.mem_Icc.mpr (hi.slots _ (hf r hr).1)
  calc s.liveRows sellerId = rows.length := by
        rw [Store.liveRows, List.countP_eq_length_filter]
    _ = (rows.map fun r => (f r).slot).toFinset.card := by
        rw [List.toFinset_card_of_nodup hslots, List.length_map]
    _ ≤ (Finset.Icc 1 k).card := Finset.card_le_card hsub
    _ = k := by simp

/-! ### Steps -/

/-- The row was there before, live under the same claim. -/
def Store.wasLive (s : Store) (r : InboxRow) : Prop :=
  ∃ x ∈ s.db.inbox, x.live s.now ∧ x.event = r.event ∧ x.owner = r.owner ∧
    x.generation = r.generation

lemma PermitRow.backs_congr {permit : PermitRow} {r x : InboxRow} (he : x.event = r.event)
    (ho : x.owner = r.owner) (hg : x.generation = r.generation) :
    permit.backs x ↔ permit.backs r := by
  rw [PermitRow.backs, PermitRow.backs, InboxRow.eventId, InboxRow.eventId, he, ho, hg]

/-- A live row that was live before has a permit from then. -/
lemma Capped.permit_of_wasLive (hi : Capped k s) {r : InboxRow} (hr : s.wasLive r) :
    ∃ permit ∈ s.db.sellerPermit, permit.sellerId = r.event.sellerId ∧ permit.backs r := by
  obtain ⟨x, hx, hlive, he, ho, hg⟩ := hr
  obtain ⟨permit, hp, hseller, hb⟩ := hi.backed x hx hlive
  exact ⟨permit, hp, by rw [hseller, he], (PermitRow.backs_congr he ho hg).mp hb⟩

/-- A step that leaves the permits alone and makes no row live. -/
lemma Capped.of_rows (hi : Capped k s) (hperm : s'.db.sellerPermit = s.db.sellerPermit)
    (hissued : ∀ i ∈ s.issued, i ∈ s'.issued)
    (hrows : ∀ r ∈ s'.db.inbox, r.live s'.now → s.wasLive r) : Capped k s' := by
  refine ⟨by rw [hperm]; exact hi.slots, fun permit hp hown => ?_, fun r hr hlive => ?_⟩
  · rw [hperm] at hp
    obtain ⟨i, hmem, hheld⟩ := hi.tokens permit hp hown
    exact ⟨i, hissued i hmem, hheld⟩
  · rw [hperm]
    exact hi.permit_of_wasLive (hrows r hr hlive)

/-- A step that writes back one slot a token holds: the new row keeps its place, and
either stays with the token, or no live row is held under the token. -/
lemma Capped.of_slot (hi : Capped k s) (hs : Sound s) {c : Claim} {old : PermitRow}
    (new : PermitRow) (hold : s.db.permitRow c.sellerId c.slot = some old) (hheld : old.heldBy c)
    (hkey : new.slotKey = old.slotKey)
    (hperm : s'.db.sellerPermit = Table.put PermitRow.slotKey new s.db.sellerPermit)
    (hissued : ∀ i ∈ s.issued, i ∈ s'.issued)
    (hrows : ∀ r ∈ s'.db.inbox, r.live s'.now → s.wasLive r)
    (hown : new.owner ≠ none → new.heldBy c)
    (hnew : (∀ r, old.backs r → new.backs r) ∨
      ∀ r ∈ s'.db.inbox, r.live s'.now → ¬ r.tokenOf c) : Capped k s' := by
  have hmem : old ∈ s.db.sellerPermit := Table.mem_of_get hold
  obtain ⟨hseller, hslot⟩ : new.sellerId = old.sellerId ∧ new.slot = old.slot :=
    Prod.mk.inj hkey
  refine ⟨fun permit hp => ?_, fun permit hp howner => ?_, fun r hr hlive => ?_⟩
  · rw [hperm] at hp
    rcases Table.mem_put.mp hp with rfl | ⟨hp, -⟩
    · rw [hslot]
      exact hi.slots old hmem
    · exact hi.slots permit hp
  · rw [hperm] at hp
    rcases Table.mem_put.mp hp with rfl | ⟨hp, -⟩
    · obtain ⟨i, hi', hih⟩ := hi.tokens old hmem (by rw [hheld.2.2.1]; simp)
      -- the token of the slot is the one it was issued to
      refine ⟨i, hissued i hi', ?_⟩
      obtain ⟨h1, h2, h3, h4, h5⟩ := hown howner
      exact ⟨hseller.trans hih.1, hslot.trans hih.2.1, by rw [h3, ← hheld.2.2.1, hih.2.2.1],
        by rw [h4, ← hheld.2.2.2.1, hih.2.2.2.1], by rw [h5, ← hheld.2.2.2.2, hih.2.2.2.2]⟩
    · obtain ⟨i, hi', hih⟩ := hi.tokens permit hp howner
      exact ⟨i, hissued i hi', hih⟩
  · obtain ⟨permit, hp, hps, hb⟩ := hi.permit_of_wasLive (hrows r hr hlive)
    by_cases hsame : permit.slotKey = new.slotKey
    · obtain rfl : permit = old := hs.permits.eq hp hmem (hsame.trans hkey)
      rcases hnew with hnew | hnone
      · exact ⟨new, by rw [hperm]; exact Table.mem_put.mpr (Or.inl rfl), hseller.trans hps,
          hnew r hb⟩
      · refine absurd ⟨?_, ?_, ?_⟩ (hnone r hr hlive)
        · have h1 := hb.2.2.1
          rw [hheld.2.2.2.1] at h1
          exact (Option.some.inj h1).symm
        · rw [← hb.1]
          exact hheld.2.2.1
        · rw [← hb.2.2.2]
          exact hheld.2.2.2.2
    · exact ⟨permit, by rw [hperm]; exact Table.mem_put.mpr (Or.inr ⟨hp, hsame⟩), hps, hb⟩

/-- A step that frees the slot of a token under which no live row is held. -/
lemma Capped.of_freed (hi : Capped k s) (hs : Sound s) {c : Claim} {permit : Option PermitRow}
    (hfree : Freeing s.db (some c) permit)
    (hperm : s'.db.sellerPermit = permit.elim s.db.sellerPermit
      fun r => Table.put PermitRow.slotKey r s.db.sellerPermit)
    (hissued : ∀ i ∈ s.issued, i ∈ s'.issued)
    (hrows : ∀ r ∈ s'.db.inbox, r.live s'.now → s.wasLive r)
    (hnone : ∀ r ∈ s'.db.inbox, r.live s'.now → ¬ r.tokenOf c) : Capped k s' := by
  cases hfree with
  | lost => exact hi.of_rows hperm hissued hrows
  | @release _ old hold hheld =>
      refine hi.of_slot hs old.release hold hheld rfl hperm hissued hrows ?_ (Or.inr hnone)
      intro hown
      simp [PermitRow.release] at hown

/-- Writing back a row makes no other row live, and not the row itself when it was
live under the same claim before. -/
lemma wasLive_of_put (row new : InboxRow)
    (hnew : new.live s.now → row ∈ s.db.inbox ∧ row.live s.now ∧ row.event = new.event ∧
      row.owner = new.owner ∧ row.generation = new.generation)
    {r : InboxRow} (hr : r ∈ Table.put InboxRow.eventId new s.db.inbox)
    (hlive : r.live s.now) : s.wasLive r := by
  rcases Table.mem_put.mp hr with rfl | ⟨hr, -⟩
  · exact ⟨row, hnew hlive⟩
  · exact ⟨r, hr, hlive, rfl, rfl, rfl⟩

lemma wasLive_of_same {now : ℤ} (hnow : s.now ≤ now) {r : InboxRow} (hr : r ∈ s.db.inbox)
    (hlive : r.live now) : s.wasLive r :=
  ⟨r, hr, ⟨hlive.1, hnow.trans hlive.2⟩, rfl, rfl, rfl⟩

/-- A row held under a token that is live makes the token pass `holds`. -/
lemma holds_of_live (hs : Sound s) {c : Claim} {r : InboxRow} (hr : r ∈ s.db.inbox)
    (htoken : r.tokenOf c) (hlive : r.live s.now) : s.holds c :=
  ⟨r, (Table.get_eq_some hs.inboxIds).mpr ⟨hr, htoken.1⟩, htoken, hlive⟩

/-- After a row was written back dead, no live row is held under its token. -/
lemma not_token_of_put {c : Claim} (new : InboxRow) (hid : new.eventId = c.eventId)
    (hnew : ¬ new.live s.now) {r : InboxRow}
    (hr : r ∈ Table.put InboxRow.eventId new s.db.inbox) (hlive : r.live s.now) :
    ¬ r.tokenOf c := by
  intro htoken
  rcases Table.mem_put.mp hr with rfl | ⟨-, hne⟩
  · exact hnew hlive
  · exact hne (htoken.1.trans hid.symm)

/-- A transaction that writes back the row of its token dead and frees the slot of
the token. -/
lemma Capped.of_closed (hi : Capped k s) (hs : Sound s) {c : Claim} {permit : Option PermitRow}
    (new : InboxRow) (hid : new.eventId = c.eventId) (hnew : ¬ new.live s.now)
    (hfree : Freeing s.db (some c) permit)
    (hperm : s'.db.sellerPermit = permit.elim s.db.sellerPermit
      fun r => Table.put PermitRow.slotKey r s.db.sellerPermit)
    (hin : s'.db.inbox = Table.put InboxRow.eventId new s.db.inbox) (hnow : s'.now = s.now)
    (hissued : ∀ i ∈ s.issued, i ∈ s'.issued) : Capped k s' := by
  refine hi.of_freed hs hfree hperm hissued (fun r hr hlive => ?_) fun r hr hlive => ?_
  · rw [hin] at hr
    rw [hnow] at hlive
    exact wasLive_of_put new new (fun hl => absurd hl hnew) hr hlive
  · rw [hin] at hr
    rw [hnow] at hlive
    exact not_token_of_put new hid hnew hr hlive

lemma Capped.ensure_step (hi : Capped k s) (hs : Sound s) {sellerId : String} {slots : List ℕ}
    (hslots : ∀ slot ∈ slots, 1 ≤ slot ∧ slot ≤ k) (locks : Locks.Table Resource) :
    Capped k (s.committing (s.db.insertPermits sellerId slots) locks) := by
  refine ⟨fun permit hp => ?_, fun permit hp hown => ?_, fun r hr hlive => ?_⟩
  · rcases (Db.mem_insertPermits hs.permits).mp hp with hp | ⟨-, hin, -⟩
    · exact hi.slots permit hp
    · exact hslots _ hin
  · rcases (Db.mem_insertPermits hs.permits).mp hp with hp | ⟨-, -, heq⟩
    · exact hi.tokens permit hp hown
    · rw [heq] at hown
      exact absurd rfl hown
  · have hr' : r ∈ s.db.inbox := by simpa [Store.committing] using hr
    obtain ⟨permit, hp, hps, hb⟩ := hi.backed r hr' hlive
    exact ⟨permit, (Db.mem_insertPermits hs.permits).mpr (Or.inl hp), hps, hb⟩

/-- A claim that takes a slot no live row relies on. -/
lemma Capped.claim_step (hi : Capped k s) (hs : Sound s) {job : ClaimJob} {inserted : List ℕ}
    {slot : ℕ} {row row' : InboxRow} {permit : PermitRow}
    (hseen : Seen s.db job.event) (hslots : ∀ x ∈ inserted, 1 ≤ x ∧ x ≤ k)
    (hunbacked : ∀ x ∈ slotRow s.db job inserted slot, s.unbacked x)
    (hclaim : Claiming s.db s.now job inserted slot row row' permit)
    (hperm : s'.db.sellerPermit = Table.put PermitRow.slotKey permit
      (s.db.insertPermits job.event.sellerId inserted).sellerPermit)
    (hin : s'.db.inbox = Table.put InboxRow.eventId row' s.db.inbox) (hnow : s'.now = s.now)
    (hissued : s'.issued = s.issued ++ [⟨job.token slot row, job.event⟩]) : Capped k s' := by
  obtain ⟨lease, hrow'⟩ := hclaim.claimed
  obtain ⟨old, lease', hold, hpermit⟩ := hclaim.taken
  have hkeys := Db.unique_insertPermits job.event.sellerId inserted hs.permits
  have hmem := Table.mem_of_get hold
  have hplace : old.slotKey = (job.event.sellerId, slot) := Table.key_of_get hold
  obtain ⟨hseller, hslot⟩ := Prod.mk.inj hplace
  have hkey : permit.slotKey = old.slotKey := by rw [hpermit]; rfl
  have hstored := hclaim.selected.stored
  have hevent : row.event = job.event :=
    hseen.payload row (Table.mem_of_get hstored) (eventId_of_inboxRow hstored)
  refine ⟨fun x hx => ?_, fun x hx hown => ?_, fun r hr hlive => ?_⟩
  · rw [hperm] at hx
    have hrange : ∀ y ∈ (s.db.insertPermits job.event.sellerId inserted).sellerPermit,
        1 ≤ y.slot ∧ y.slot ≤ k := by
      intro y hy
      rcases (Db.mem_insertPermits hs.permits).mp hy with hy | ⟨-, hy, -⟩
      · exact hi.slots y hy
      · exact hslots _ hy
    rcases Table.mem_put.mp hx with rfl | ⟨hx, -⟩
    · rw [hpermit]
      exact hrange old hmem
    · exact hrange x hx
  · rw [hperm] at hx
    rw [hissued]
    rcases Table.mem_put.mp hx with rfl | ⟨hx, -⟩
    · refine ⟨_, List.mem_append_right _ (List.mem_singleton.mpr rfl), ?_⟩
      rw [hpermit]
      exact ⟨hseller, hslot, rfl, rfl, rfl⟩
    · rcases (Db.mem_insertPermits hs.permits).mp hx with hx | ⟨-, -, heq⟩
      · obtain ⟨i, hmem', hheld⟩ := hi.tokens x hx hown
        exact ⟨i, List.mem_append_left _ hmem', hheld⟩
      · rw [heq] at hown
        exact absurd rfl hown
  · rw [hin] at hr
    rw [hnow] at hlive
    rw [hperm]
    rcases Table.mem_put.mp hr with rfl | ⟨hr, -⟩
    · -- the claimed row is backed by the slot it was claimed with
      refine ⟨permit, Table.mem_put.mpr (Or.inl rfl), ?_, ?_⟩
      · rw [hpermit, hrow']
        exact hseller.trans (by rw [← hevent]; rfl)
      · rw [hpermit, hrow']
        refine ⟨rfl, by simp [PermitRow.take], ?_, rfl⟩
        exact congrArg some (eventId_of_inboxRow hstored).symm
    · obtain ⟨x, hx, hxs, hb⟩ := hi.backed r hr hlive
      have hx' : x ∈ (s.db.insertPermits job.event.sellerId inserted).sellerPermit :=
        (Db.mem_insertPermits hs.permits).mpr (Or.inl hx)
      by_cases hsame : x.slotKey = permit.slotKey
      · obtain rfl : x = old := hkeys.eq hx' hmem (hsame.trans hkey)
        exact absurd hb (hunbacked x hold r hr hlive)
      · exact ⟨x, Table.mem_put.mpr (Or.inr ⟨hx', hsame⟩), hxs, hb⟩

/-- Every step of a run without takeovers keeps the rows backed. -/
lemma Capped.step (hi : Capped k s) (hs : Sound s) (hagree : InboxAgrees E s)
    (hp : p.inboxMode E s) (hq : p.capped k s) (h : Effect t s p s') : Capped k s' := by
  have hissued : ∀ i ∈ s.issued, i ∈ s'.issued := fun i => h.issued_mono
  cases h with
  | @store job rows locks hpc hfresh hadm hcap =>
      refine hi.of_rows rfl hissued fun r hr hlive => ?_
      rcases List.mem_append.mp hr with hr | hr
      · exact ⟨r, hr, hlive, rfl, rfl, rfl⟩
      · obtain ⟨task, -, rfl⟩ := hfresh.ofTask r hr
        cases hlive.1
  | ensure locks hpc hmine =>
      subst hpc
      exact hi.ensure_step hs hq.2.2.1 locks
  | @claim job inserted slot row row' admittedAt permit locks hpc hclaim hrow hslot hmine =>
      subst hpc
      have hslots : ∀ x ∈ inserted, 1 ≤ x ∧ x ≤ k := hq.2.2.1
      exact hi.claim_step hs hp.1 hslots (hq.2.2.2 slot rfl) hclaim
        (by simp [Store.committing, commitClaim, Db.setPermit, Db.setInbox])
        (by simp [Store.committing, commitClaim, Db.setPermit, Db.setInbox]) rfl rfl
  | @renewRow c leaseMs row hpc hhold hlive hmine =>
      refine hi.of_rows rfl hissued fun r hr hr' =>
        wasLive_of_put row (row.renew (s.now + leaseMs)) (fun _ => ?_) hr hr'
      exact ⟨Table.mem_of_get hhold.stored, ⟨hhold.claimed, hlive⟩, rfl, rfl, rfl⟩
  | @renewPermit c leaseMs permit hpc hold hheld hmine =>
      exact hi.of_slot hs (permit.renew (s.now + leaseMs)) hold hheld rfl rfl hissued
        (fun r hr hlive => wasLive_of_same le_rfl hr hlive) (fun _ => hheld)
        (Or.inl fun _ hb => hb)
  | @record job doneAt row permit locks hpc hclose hrec hfree hmine =>
      subst hpc
      obtain ⟨⟨i, hmem, hci, hie⟩, -⟩ := hp
      rw [hci] at hfree
      cases hclose with
      | lost hc hd => cases hd
      | @complete c row time hc hhold =>
          obtain rfl : i.claim = c := Option.some.inj (hci.symm.trans hc)
          have hid : row.eventId = i.claim.eventId := eventId_of_inboxRow hhold.stored
          exact hi.of_closed hs (row.complete time) hid (fun hl => by cases hl.1) hfree
            (by simp [Store.committing]) (by simp [Store.committing]) rfl hissued
      | unclaimed hc =>
          rw [hc] at hci
          cases hci
      | markDone time hc hd hrow =>
          rw [hc] at hci
          cases hci
  | @close job row permit locks hpc hclose hfree hmine =>
      subst hpc
      obtain ⟨⟨i, hmem, hci, hie⟩, hdel⟩ := hp
      rw [hci] at hfree
      cases hclose with
      | lost hc hd =>
          -- the event is delivered, so none of its rows is live
          refine hi.of_freed hs hfree (by simp [Store.committing]) hissued
            (fun r hr hlive => ?_) fun r hr hlive htoken => ?_
          · exact wasLive_of_same le_rfl (by simpa [Store.committing] using hr) hlive
          · have hr' : r ∈ s.db.inbox := by simpa [Store.committing] using hr
            have hfin := (hagree.done r hr').mpr (by
              rw [htoken.1, (hagree.issued i hmem).1, hie]
              exact hdel rfl)
            rw [hlive.1] at hfin
            cases hfin
      | @complete c row time hc hhold =>
          obtain rfl : i.claim = c := Option.some.inj (hci.symm.trans hc)
          have hid : row.eventId = i.claim.eventId := eventId_of_inboxRow hhold.stored
          exact hi.of_closed hs (row.complete time) hid (fun hl => by cases hl.1) hfree
            (by simp [Store.committing]) (by simp [Store.committing]) rfl hissued
      | unclaimed hc =>
          rw [hc] at hci
          cases hci
      | markDone time hc hd hrow => cases hd
  | @giveBack c row permit locks hpc hreturn hfree hmine =>
      subst hpc
      cases hreturn with
      | lost =>
          refine hi.of_freed hs hfree (by simp [Store.committing]) hissued
            (fun r hr hlive => ?_) fun r hr hlive htoken => ?_
          · exact wasLive_of_same le_rfl (by simpa [Store.committing] using hr) hlive
          · exact hq (holds_of_live hs (by simpa [Store.committing] using hr) htoken hlive)
      | @giveBack row nextAt hhold =>
          have hid : row.eventId = c.eventId := eventId_of_inboxRow hhold.stored
          exact hi.of_closed hs (row.giveBack nextAt) hid (fun hl => by cases hl.1) hfree
            (by simp [Store.committing]) (by simp [Store.committing]) rfl hissued
  | @scheduleRetry e row nextAt attempts hrow hmine =>
      refine hi.of_rows rfl hissued fun r hr hr' =>
        wasLive_of_put row (row.scheduleRetry nextAt attempts) (fun hl => ?_) hr hr'
      exact ⟨Table.mem_of_get hrow, hl, rfl, rfl, rfl⟩
  | purge hmine hdone =>
      refine hi.of_rows rfl hissued fun r hr hlive => ?_
      exact ⟨r, (List.mem_filter.mp hr).1, hlive, rfl, rfl, rfl⟩
  | tick now hnow =>
      exact hi.of_rows rfl hissued fun r hr hlive => wasLive_of_same hnow hr hlive
  | _ => exact hi.of_rows rfl hissued fun r hr hlive => wasLive_of_same le_rfl hr hlive

/-! ### What the processes know -/

lemma ClaimPc.lock_of_slot {job : ClaimJob} {pc : ClaimPc} {slot : ℕ} (h : slot ∈ pc.slot) :
    .permit job.event.sellerId slot ∈ pc.held job := by
  cases pc with
  | commit inserted result => cases result <;> cases h; simp [ClaimPc.held]
  | _ => cases h <;> simp [ClaimPc.held]

/-- A slot a claim has chosen is not given to a live row by others. -/
lemma Proc.capped_other {q : Proc} (hs : Sound s) (hagree : InboxAgrees E s) (hi : Capped k s)
    (h : Effect t s p s') (hut : u ≠ t) (hheld : ∀ r ∈ q.held, (r, u) ∈ s.locks)
    (hmode : q.inboxMode E s) (hq : q.capped k s) : q.capped k s' := by
  have hstale : ∀ c : Claim, (∃ i ∈ s.issued, i.claim = c) → ¬ s.holds c → ¬ s'.holds c := by
    rintro c ⟨i, hmem, rfl⟩ hnot hh
    exact hnot (h.holds_of_holds hs hagree hmem hh)
  cases q with
  | claiming job pc =>
      refine ⟨hq.1, hq.2.1, hq.2.2.1, fun slot hslot permit hpermit r hr hlive hb => ?_⟩
      have hlock := hheld _ (ClaimPc.lock_of_slot hslot)
      rw [slotRow_other h hs hut hlock] at hpermit
      have hrow := Table.mem_of_get hpermit
      rcases (Db.mem_insertPermits hs.permits).mp hrow with hrow | ⟨-, -, heq⟩
      · -- the live row is held under the issued token of the permit
        obtain ⟨i, hmem, hih⟩ := hi.tokens permit hrow hb.2.1
        have htoken : r.tokenOf i.claim := by
          refine ⟨?_, by rw [← hb.1]; exact hih.2.2.1, by rw [← hb.2.2.2]; exact hih.2.2.2.2⟩
          have hid := hb.2.2.1
          rw [hih.2.2.2.1] at hid
          exact (Option.some.inj hid).symm
        obtain ⟨x, hx, htx, hlx⟩ := h.holds_of_holds hs hagree hmem
          (holds_of_live (hs.step h) hr htoken hlive)
        refine hq.2.2.2 slot hslot permit hpermit x (Table.mem_of_get hx) hlx
          ⟨by rw [htx.2.1]; exact hih.2.2.1, hb.2.1, by rw [htx.1]; exact hih.2.2.2.1,
            by rw [htx.2.2]; exact hih.2.2.2.2⟩
      · rw [heq] at hb
        exact hb.2.1 rfl
  | givingBack c pc =>
      cases pc with
      | row nextAt => trivial
      | release row =>
          cases row with
          | none => exact hstale c hmode hq
          | some row => trivial
      | commit row permit =>
          cases row with
          | none => exact hstale c hmode hq
          | some row => trivial
  | _ => trivial

lemma claimNext_capped {job : ClaimJob} {jvm : ℤ} {pc : ClaimPc}
    (hok : ∀ permit ∈ slotTaken s (.claiming job pc) (.go jvm), s.unbacked permit)
    (hq : Proc.capped k s (.claiming job pc)) (h : claimNext t s job jvm pc = some (s', p')) :
    p'.capped k s' := by
  obtain ⟨hk, hcount, hins, hfree⟩ := hq
  have hnone : ∀ {P : ℕ → Prop}, ∀ x ∈ (none : Option ℕ), P x := by simp
  cases pc with
  | ensurePermits =>
      cases h
      refine ⟨hk, ?_⟩
      split_ifs
      · exact ⟨trivial, by simp [ClaimPc.inserted], hnone⟩
      · exact ⟨le_rfl, by simp [ClaimPc.inserted], hnone⟩
  | ensure slot inserted =>
      have hcount : 1 ≤ slot := hcount
      simp only [claimNext] at h
      split_ifs at h with hlt hcan hrow <;> cases h
      · exact ⟨hk, trivial, hins, hnone⟩
      · exact ⟨hk, Nat.le_succ_of_le hcount, hins, hnone⟩
      · refine ⟨hk, Nat.le_succ_of_le hcount, fun x hx => ?_, hnone⟩
        rcases List.mem_append.mp hx with hx | hx
        · exact hins x hx
        · rw [List.mem_singleton.mp hx, ← hk]
          exact ⟨hcount, not_lt.mp hlt⟩
  | selectPermits inserted =>
      simp only [claimNext] at h
      split_ifs at h
      split at h <;> cases h
      · exact ⟨hk, trivial, hins, hnone⟩
      · rename_i slot hslot
        refine ⟨hk, trivial, hins, fun x hx permit hpermit => ?_⟩
        cases hx
        refine hok permit ?_
        simp only [slotTaken, hslot, Option.bind_some]
        exact hpermit
  | selectRow inserted slot =>
      simp only [claimNext] at h
      split at h
      · cases h
        exact ⟨hk, trivial, hins, hnone⟩
      · split_ifs at h <;> cases h
        · exact ⟨hk, trivial, hins, hfree⟩
        · exact ⟨hk, trivial, hins, hfree⟩
        · exact ⟨hk, trivial, hins, hnone⟩
  | countAdmissions inserted slot row =>
      simp only [claimNext] at h
      split_ifs at h <;> cases h
      · exact ⟨hk, trivial, hins, hnone⟩
      · exact ⟨hk, trivial, hins, hfree⟩
  | insertAdmission inserted slot row =>
      cases h
      exact ⟨hk, trivial, hins, hfree⟩
  | updateRow inserted slot row admittedAt =>
      cases h
      exact ⟨hk, trivial, hins, hfree⟩
  | updatePermit inserted slot row admittedAt row' =>
      simp only [claimNext] at h
      split at h <;> cases h
      exact ⟨hk, trivial, hins, hfree⟩
  | commit inserted result =>
      simp only [claimNext] at h
      split at h <;> cases h <;> trivial

lemma giveBackNext_capped {c : Claim} {pc : GiveBackPc}
    (hq : Proc.capped k s (.givingBack c pc)) (h : giveBackNext t s c pc = some (s', p')) :
    p'.capped k s' := by
  cases pc with
  | row nextAt =>
      simp only [giveBackNext] at h
      split_ifs at h
      split at h
      · rename_i row hrow
        split_ifs at h with hheld <;> cases h
        · trivial
        · rintro ⟨x, hx, hxheld⟩
          obtain rfl := Option.some.inj (hrow.symm.trans hx)
          exact hheld hxheld
      · rename_i hrow
        cases h
        rintro ⟨x, hx, -⟩
        rw [hrow] at hx
        cases hx
  | release row =>
      simp only [giveBackNext] at h
      split_ifs at h
      cases row with
      | none => split at h <;> cases h <;> exact hq
      | some row => split at h <;> cases h <;> trivial
  | commit row permit =>
      cases h
      trivial

lemma next_capped {c : Config Store Proc} (hc : c.store = s) (hcp : c.procs t = p)
    (hok : cappedRun E k c t a) (hq : p.capped k s) (h : next t s p a = some (s', p')) :
    p'.capped k s' := by
  cases next_move h with
  | start job =>
      cases job with
      | claim job => exact ⟨hok.1.2.1 _ rfl, trivial, by simp [ClaimPc.inserted],
          by simp [ClaimPc.slot]⟩
      | release c => exact absurd hok.1.2.2 (by simp [Act.releases])
      | _ => trivial
  | poll pendingLimit retainedLimit receivedAt hbatch hvalid => trivial
  | store h =>
      obtain ⟨_, rfl⟩ | rfl | ⟨_, rfl⟩ := storeNext_proc h <;> trivial
  | claim h =>
      refine claimNext_capped (fun permit hpermit => ?_) hq h
      have hno := hok.2 permit
      rw [hc, hcp] at hno
      exact hno hpermit
  | renew h =>
      obtain rfl | rfl := renewNext_proc h <;> trivial
  | deliver h =>
      obtain ⟨_, rfl⟩ | rfl := processNext_proc h <;> trivial
  | giveBack h => exact giveBackNext_capped hq h
  | relay h => obtain ⟨_, rfl⟩ | rfl := (relayNext_eq h).2 <;> trivial
  | _ => trivial

/-! ### Every run -/

/-- **The cap on the live work of a seller**, in every run in which no claim takes
a slot that still backs a live row. -/
theorem seller_cap_holds {c : Config Store Proc} (h : Run service (cappedRun E k) initial c)
    (sellerId : String) : c.store.liveRows sellerId ≤ k := by
  have hmode : ∀ {c}, Run service (cappedRun E k) initial c →
      Run service (inboxMode E) initial c := fun hrun => hrun.mono fun _ _ _ hok => hok.1.1
  have hinv := Run.invariant (I := Capped k) (J := fun _ s p => p.capped k s)
    (K := fun c => Run service (cappedRun E k) initial c) (fun _ h => h) ?_ ?_ ?_ h
  · exact hinv.1.liveRows_le (reachable_sound h).1 sellerId
  · exact ⟨⟨by simp [initial], by simp [initial], by simp [initial]⟩, fun _ => trivial⟩
  · intro c t a s' p' hrun hok hi hq hnext
    obtain ⟨hagree, hp⟩ := reachable_agrees (hmode hrun)
    exact ⟨hi.step (reachable_sound hrun).1 hagree (hp t) (hq t) (reachable_effect hrun hnext),
      next_capped rfl rfl hok (hq t) hnext⟩
  · intro c t a s' p' u hrun _ hi hq hnext hut
    obtain ⟨hagree, hp⟩ := reachable_agrees (hmode hrun)
    exact Proc.capped_other (reachable_sound hrun).1 hagree hi (reachable_effect hrun hnext) hut
      ((reachable_locks hrun).2 u) (hp u) (hq u)

/-- A lease that runs out for the row and its permit alike: the second claim takes
the slot of the first one, and one row is live. -/
theorem seller_cap_after_expiry :
    ∃ c, Run service (cappedRun (· ∈ [sampleEvent "e1" 1]) 1) initial c ∧
      (c.store.issued.length, c.store.liveRows "S") = (2, 1) ∧ c.store.liveRows "S" ≤ 1 := by
  obtain ⟨c, hrun, hc⟩ := Run.exists_of_exec service (cappedRun (· ∈ [sampleEvent "e1" 1]) 1)
    initial (storing 1 (sampleEvent "e1" 1) ++ claiming 2 (sampleEvent "e1" 1) "w" ++
      (4, .tick 11) :: (3, .start (.claim ⟨sampleEvent "e1" 1, "v", 1, 5, 1000, 10⟩)) ::
      statements 3 10 0)
    (fun c => (c.store.issued.length, c.store.liveRows "S")) (2, 1) (by decide +kernel)
  exact ⟨c, hrun, hc, seller_cap_holds hrun "S"⟩

end OrderSystem.Partner
