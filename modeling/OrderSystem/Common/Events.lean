/-
The event contract between the services (`common/events`), with the few Java
types its checks look into.

* `Double`: an IEEE binary64 value as its bit pattern; `isFinite` and
  `ltZero` are `Double.isFinite(x)` and `x < 0`.
* `javaLong`: the value of a `long` operation that may overflow.
* `javaLength`, `isBlank`, `sellerPattern`: `String.length()` (UTF-16 code
  units), `String.isBlank()` and `matches("[a-zA-Z0-9_-]{1,32}")`.
* `PartnerOrderEvent` with `key` and `validate`; the order an operation belongs
  to is `order`, the pair the ordering key is built from.
* `PartnerCompletionEvent`, `OrderCreatedEvent` and the two stock results.

The `operation` column of the source is one of three strings; it is an
enumeration here, so the membership test of `validate` is part of the type.
-/
import Mathlib.Tactic

namespace OrderSystem

/-! ### Java values -/

/-- A `double`, as its IEEE binary64 bit pattern. -/
structure Double where
  bits : BitVec 64
  deriving DecidableEq, Repr

namespace Double

/-- The bits below the sign. -/
def magnitude (x : Double) : ℕ := x.bits.toNat % 2 ^ 63

/-- `Double.isFinite(x)`: neither an infinity nor a NaN. -/
def isFinite (x : Double) : Bool := x.magnitude < 0x7ff0000000000000

/-- `x < 0`: false for both zeros and for NaN. -/
def ltZero (x : Double) : Bool :=
  2 ^ 63 ≤ x.bits.toNat && 0 < x.magnitude && x.magnitude ≤ 0x7ff0000000000000

end Double

/-- A `long` after an operation that may overflow. -/
def javaLong (n : ℤ) : ℤ := Int.bmod n (2 ^ 64)

/-- `String.length()`: the number of UTF-16 code units. -/
def javaLength (s : String) : ℕ :=
  (s.toList.map fun c => if c.toNat < 0x10000 then 1 else 2).sum

/-- `Character.isWhitespace`. -/
def isWhitespace (c : Char) : Bool :=
  let n := c.toNat
  (9 ≤ n && n ≤ 13) || (28 ≤ n && n ≤ 32) || n == 0x1680 ||
    (0x2000 ≤ n && n ≤ 0x2006) || (0x2008 ≤ n && n ≤ 0x200a) ||
    n == 0x2028 || n == 0x2029 || n == 0x205f || n == 0x3000

/-- `String.isBlank()`. -/
def isBlank (s : String) : Bool := s.toList.all isWhitespace

/-- The characters `[a-zA-Z0-9_-]`. -/
def sellerChar (c : Char) : Bool :=
  ('a' ≤ c && c ≤ 'z') || ('A' ≤ c && c ≤ 'Z') || ('0' ≤ c && c ≤ '9') || c == '_' || c == '-'

/-- `sellerId.matches("[a-zA-Z0-9_-]{1,32}")`. -/
def sellerPattern (s : String) : Bool :=
  1 ≤ s.toList.length && s.toList.length ≤ 32 && s.toList.all sellerChar

/-! ### Partner events -/

/-- `"CREATE"`, `"CHANGE"` and `"CANCEL"`. -/
inductive Operation where
  | create
  | change
  | cancel
  deriving DecidableEq, Repr

/-- An order of a seller: the pair behind the business ordering key. -/
structure OrderKey where
  sellerId : String
  orderId : ℤ
  deriving DecidableEq, Repr

/-- `PartnerOrderEvent`. -/
structure PartnerOrderEvent where
  eventId : String
  runId : String
  sellerId : String
  orderId : ℤ
  sequence : ℤ
  operation : Operation
  occurredAt : ℤ
  schemaVersion : ℤ
  quantity : ℤ
  price : Double
  padding : Option String := none
  deriving DecidableEq, Repr

namespace PartnerOrderEvent

/-- The order the operation belongs to. -/
def order (e : PartnerOrderEvent) : OrderKey := ⟨e.sellerId, e.orderId⟩

/-- `key()`: the text used as the routing key of the source outbox. -/
def key (e : PartnerOrderEvent) : String := e.sellerId ++ ":" ++ toString e.orderId

/-- `validate()` does not throw. -/
def valid (e : PartnerOrderEvent) : Bool :=
  javaLength e.eventId ≤ 64 && javaLength e.runId ≤ 64 && sellerPattern e.sellerId &&
    0 < e.orderId && 0 < e.sequence && e.schemaVersion == 1 && 0 < e.occurredAt &&
    0 < e.quantity && e.price.isFinite && !e.price.ltZero &&
    (match e.padding with
      | some text => javaLength text ≤ 4096
      | none => true)

end PartnerOrderEvent

/-- `PartnerCompletionEvent`. -/
structure PartnerCompletionEvent where
  eventId : String
  sellerId : String
  orderId : ℤ
  sequence : ℤ
  completedAt : ℤ
  deriving DecidableEq, Repr

/-! ### Order and stock events -/

/-- `OrderCreatedEvent`; the time it occurred is not read by any consumer. -/
structure OrderCreatedEvent where
  eventId : String
  orderId : ℤ
  productCode : String
  quantity : ℤ
  price : Double
  deriving DecidableEq, Repr

/-- The result of a stock reservation, `OrderStockUpdatedEvent` or
`OrderStockUpdateFailedEvent` with its reason. -/
inductive StockResult where
  | updated
  | failed (reason : String)
  deriving DecidableEq, Repr

/-- A stock result as it is published: its own event id, the order and the
outcome. -/
structure StockEvent where
  eventId : String
  orderId : ℤ
  result : StockResult
  deriving DecidableEq, Repr

/-! ### Events of one source -/

/-- The events of one source: no two ids share a place in an order, and an id
always carries the same payload. -/
structure Catalogue (E : PartnerOrderEvent → Prop) : Prop where
  ids : ∀ e e', E e → E e' → e.order = e'.order → e.sequence = e'.sequence →
    e.eventId = e'.eventId
  payloads : ∀ e e', E e → E e' → e.eventId = e'.eventId → e = e'

/-- The events of a list, compared two by two. -/
lemma Catalogue.of_list {l : List PartnerOrderEvent}
    (h : ∀ e ∈ l, ∀ e' ∈ l, (e.order = e'.order → e.sequence = e'.sequence →
      e.eventId = e'.eventId) ∧ (e.eventId = e'.eventId → e = e')) :
    Catalogue (· ∈ l) :=
  ⟨fun e e' he he' => (h e he e' he').1, fun e e' he he' => (h e he e' he').2⟩

end OrderSystem
