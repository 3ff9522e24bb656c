import Mathlib.Data.Finset.Basic
import Mathlib.Data.List.Perm.Basic
import NebulaX.Core.Order

/-!
# The order manager

`OrderManager` of `src/oms/order_manager.h` with the states of `src/oms/order.h`. It keeps every
order it ever registered. A report moves an order along its life cycle, or is ignored when the
order is not in a state the report belongs to.

`iterate` visits the orders as an `unordered_map` does, in an order that is not specified:
`VisitOrder` is any such order. The time stamps of an entry are left out; nothing reads them.

Ids are natural numbers, and `next_id_` is a `uint64_t`. A run starts from a base that it holds, and
is one that gives out no more ids than there are above the base.
-/

namespace NebulaX

/-- `OrderStatus`. -/
inductive OrderStatus
  | pending
  | submitted
  | partialFill
  | pendingCancel
  | filled
  | cancelled
  | rejected
  | notFound
deriving DecidableEq, Repr

/-- `status == SUBMITTED || status == PARTIAL_FILL`. -/
def OrderStatus.live (s : OrderStatus) : Bool := s = .submitted ∨ s = .partialFill

/-- `OrderManager::Entry`. -/
structure Entry where
  /-- `order`. -/
  order : Order
  /-- `status`. -/
  status : OrderStatus
  /-- `exchange_ref`. -/
  exchangeRef : ℕ := 0
  /-- `filled`. -/
  filled : UInt64 := 0
  /-- `remaining`. -/
  remaining : UInt64 := 0
  /-- `avg_fill_price`. -/
  avgFillPrice : ℤ := 0
deriving DecidableEq, Repr

/-- The order in which an `unordered_map` visits its keys. -/
structure VisitOrder where
  /-- How the keys, given in the order of their insertion, are visited. -/
  visit : List ℕ → List ℕ
  /-- Every key is visited once. -/
  perm : ∀ ids, (visit ids).Perm ids

/-- The keys are visited as they were inserted. -/
def VisitOrder.inserted : VisitOrder := ⟨id, fun _ => List.Perm.refl _⟩

/-- `OrderManager`. -/
structure OrderManager where
  /-- `orders_`. -/
  orders : ℕ → Option Entry := fun _ => none
  /-- The keys of `orders_`, in the order of their insertion. -/
  ids : List ℕ := []
  /-- How `orders_` is iterated. -/
  visits : VisitOrder := .inserted
  /-- `sym_orders_`. -/
  symOrders : ℕ → Finset ℕ := fun _ => ∅
  /-- `strat_orders_`. -/
  stratOrders : ℕ → Finset ℕ := fun _ => ∅
  /-- `next_id_`. -/
  nextId : ℕ := 1

/-- `(int64_t)` of a quantity. -/
def toSigned (q : UInt64) : ℤ := q.toInt64.toInt

/-- The signed reading of a small quantity. -/
theorem toSigned_eq {q : UInt64} (h : q.toNat < 2 ^ 63) : toSigned q = q.toNat := by
  show q.toBitVec.toInt = _
  rw [BitVec.toInt_eq_toNat_of_lt]
  · rfl
  · show 2 * q.toNat < 2 ^ 64
    omega

namespace Entry

/-- The quantity that `on_fill` accepts: not more than is open. -/
def accepts (e : Entry) (filledQty : UInt64) : UInt64 :=
  if e.order.quantity < e.filled + filledQty then e.order.quantity - e.filled else filledQty

/-- `filled` after a fill. -/
def newFilled (e : Entry) (filledQty : UInt64) : UInt64 :=
  if e.order.quantity < e.filled + filledQty then e.order.quantity else e.filled + filledQty

/-- The writes of `on_fill`. -/
def fill (e : Entry) (filledQty : UInt64) (fillPrice : Int64) : Entry :=
  let totalCost := e.avgFillPrice * toSigned e.filled +
    fillPrice.toInt * toSigned (e.accepts filledQty)
  { e with
    filled := e.newFilled filledQty
    remaining := e.order.quantity - e.newFilled filledQty
    avgFillPrice := if e.newFilled filledQty = 0 then 0
      else totalCost.tdiv (toSigned (e.newFilled filledQty))
    status := if e.order.quantity ≤ e.newFilled filledQty then .filled else .partialFill }

end Entry

namespace OrderManager

/-- `set_next_id`. -/
def setNextId (om : OrderManager) (base : UInt64) : OrderManager := { om with nextId := base.toNat }

/-- `new_order`: the id, and the order with it written in. -/
def newOrder (om : OrderManager) (order : Order) : Order × OrderManager :=
  let id := om.nextId
  let order := { order with orderId := id }
  (order, { om with
    nextId := id + 1
    ids := if (om.orders id).isSome then om.ids else om.ids ++ [id]
    orders := Function.update om.orders id
      (some { order := order, status := .pending, remaining := order.quantity })
    symOrders := Function.update om.symOrders order.symbolId
      (insert id (om.symOrders order.symbolId))
    stratOrders := Function.update om.stratOrders order.strategyId
      (insert id (om.stratOrders order.strategyId)) })

/-- Write the entry of an order. -/
def setEntry (om : OrderManager) (id : ℕ) (e : Entry) : OrderManager :=
  { om with orders := Function.update om.orders id (some e) }

/-- The two lines that take an order off the indices of open orders. -/
def unindex (om : OrderManager) (id : ℕ) (e : Entry) : OrderManager :=
  { om with
    symOrders := Function.update om.symOrders e.order.symbolId
      ((om.symOrders e.order.symbolId).erase id)
    stratOrders := Function.update om.stratOrders e.order.strategyId
      ((om.stratOrders e.order.strategyId).erase id) }

/-- `on_accept`. -/
def onAccept (om : OrderManager) (id : ℕ) (ref : ℕ) : OrderManager :=
  match om.orders id with
  | none => om
  | some e =>
    if e.status = .pending then om.setEntry id { e with status := .submitted, exchangeRef := ref }
    else om

/-- `on_fill`. -/
def onFill (om : OrderManager) (id : ℕ) (filledQty : UInt64) (fillPrice : Int64) : OrderManager :=
  match om.orders id with
  | none => om
  | some e =>
    if e.status.live then
      let e' := e.fill filledQty fillPrice
      let om := om.setEntry id e'
      if e'.status = .filled then om.unindex id e' else om
    else om

/-- `request_cancel`. -/
def requestCancel (om : OrderManager) (id : ℕ) : Bool × OrderManager :=
  match om.orders id with
  | none => (false, om)
  | some e =>
    if e.status.live then (true, om.setEntry id { e with status := .pendingCancel })
    else (false, om)

/-- `on_cancel`. -/
def onCancel (om : OrderManager) (id : ℕ) : Bool × OrderManager :=
  match om.orders id with
  | none => (false, om)
  | some e =>
    if e.status = .pendingCancel then
      (true, (om.setEntry id { e with status := .cancelled }).unindex id e)
    else (false, om)

/-- `on_reject`. -/
def onReject (om : OrderManager) (id : ℕ) : OrderManager :=
  match om.orders id with
  | none => om
  | some e =>
    if e.status = .pending then (om.setEntry id { e with status := .rejected }).unindex id e
    else om

/-- `status`. -/
def status (om : OrderManager) (id : ℕ) : OrderStatus :=
  ((om.orders id).map Entry.status).getD .notFound

/-- `order`. -/
def order (om : OrderManager) (id : ℕ) : Option Order := (om.orders id).map Entry.order

/-- `open_orders`: the orders of a symbol that are not at their end. -/
def openOrders (om : OrderManager) (symbolId : ℕ) : Finset ℕ := om.symOrders symbolId

/-- `open_orders_by_strategy`. -/
def openOrdersByStrategy (om : OrderManager) (strategyId : ℕ) : Finset ℕ :=
  om.stratOrders strategyId

/-- The keys in the order `iterate` visits them. -/
def visited (om : OrderManager) : List ℕ := om.visits.visit om.ids

end OrderManager

end NebulaX
