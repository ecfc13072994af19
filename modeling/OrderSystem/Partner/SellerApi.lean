/-
The seller's API as the mock partner implements it (`do_POST` of
`mock-partner-api/server.py`, path `/orders`).

The decision is taken under one lock against the ledger: a request the fault
policy rejects is answered 503; an event id that was applied before is answered
200 without a new effect, provided the payload is the same; otherwise the
sequence has to be the next one of the order, and the effect is applied.
`attempts` keeps the status of every answer.

* `answer_cases`: what one request can do to the ledger.
-/
import OrderSystem.Common.Events

namespace OrderSystem.Partner

/-- The HTTP statuses `do_POST` answers on `/orders`. -/
inductive Status where
  | ok200
  | conflict409
  | unavailable503
  deriving DecidableEq, Repr

/-- The ledger of the seller: the applied payloads in the order of their effect
index, the last sequence of each order, and the answered attempts. -/
structure SellerApi where
  effects : List PartnerOrderEvent := []
  orders : OrderKey → Option ℤ := fun _ => none
  attempts : List (String × Status) := []

namespace SellerApi

/-- The payload applied under an idempotency key. -/
def prior (api : SellerApi) (key : String) : Option PartnerOrderEvent :=
  api.effects.find? fun e => e.eventId = key

/-- `state + 1 if state else 1`. -/
def expected (api : SellerApi) (order : OrderKey) : ℤ :=
  match api.orders order with
  | some seq => if seq = 0 then 1 else seq + 1
  | none => 1

/-- The effect of a request. -/
def apply (api : SellerApi) (data : PartnerOrderEvent) : SellerApi :=
  { api with effects := api.effects ++ [data]
             orders := Function.update api.orders data.order (some data.sequence) }

/-- The status of a request and the ledger after it, before the attempt is
logged. -/
def answer (api : SellerApi) (data : PartnerOrderEvent) (rejected : Bool) : SellerApi × Status :=
  if rejected then (api, .unavailable503)
  else match api.prior data.eventId with
    | some payload => if payload ≠ data then (api, .conflict409) else (api, .ok200)
    | none =>
        if data.sequence ≠ api.expected data.order then (api, .conflict409)
        else (api.apply data, .ok200)

/-- `do_POST`: answer, then log the attempt with its status. -/
def doPost (api : SellerApi) (data : PartnerOrderEvent) (rejected : Bool) : SellerApi × Status :=
  let (after, status) := api.answer data rejected
  ({ after with attempts := after.attempts ++ [(data.eventId, status)] }, status)

/-- What a request does: it is rejected by the fault policy, it repeats an
applied event, it is refused, or it is the next operation of its order and is
applied. -/
lemma answer_cases (api : SellerApi) (data : PartnerOrderEvent) (rejected : Bool) :
    (api.answer data rejected = (api, .unavailable503)) ∨
    (∃ payload, api.prior data.eventId = some payload ∧ payload = data ∧
      api.answer data rejected = (api, .ok200)) ∨
    (api.answer data rejected = (api, .conflict409) ∧
      ((∃ payload, api.prior data.eventId = some payload ∧ payload ≠ data) ∨
        (api.prior data.eventId = none ∧ data.sequence ≠ api.expected data.order))) ∨
    (api.prior data.eventId = none ∧ data.sequence = api.expected data.order ∧
      api.answer data rejected = (api.apply data, .ok200)) := by
  cases hr : rejected with
  | true => exact Or.inl (by simp [answer])
  | false =>
      cases hp : api.prior data.eventId with
      | some payload =>
          by_cases hd : payload = data
          · exact Or.inr (Or.inl ⟨payload, rfl, hd, by simp [answer, hp, hd]⟩)
          · exact Or.inr (Or.inr (Or.inl
              ⟨by simp [answer, hp, hd], Or.inl ⟨payload, rfl, hd⟩⟩))
      | none =>
          by_cases hs : data.sequence = api.expected data.order
          · exact Or.inr (Or.inr (Or.inr ⟨rfl, hs, by simp [answer, hp, hs]⟩))
          · exact Or.inr (Or.inr (Or.inl ⟨by simp [answer, hp, hs], Or.inr ⟨rfl, hs⟩⟩))

end SellerApi

end OrderSystem.Partner
