import Mathlib.Algebra.Order.Ring.Int

/-!
# Orders and market events

`src/core/types.h` and `src/core/market_event.h`, as far as the simulator uses them. The union of
a market event is the payload of its type. Sequence numbers of messages are left out: nothing on
the way from the exchange to the strategies sets them.
-/

namespace NebulaX

/-- `OrderSide`. -/
inductive OrderSide
  | buy
  | sell
  | none
deriving DecidableEq, Repr

/-- `OrderType`. -/
inductive OrderType
  | market
  | limit
  | iceberg
deriving DecidableEq, Repr

/-- `MarketEvent::order`. -/
structure OrderEvent where
  /-- `side`. -/
  side : OrderSide := .buy
  /-- `price`. -/
  price : Int64 := 0
  /-- `shares`. -/
  shares : UInt64 := 0
  /-- `order_ref`. -/
  orderRef : ℕ := 0
  /-- `new_order_ref`. -/
  newOrderRef : ℕ := 0
deriving DecidableEq, Repr

/-- `MarketEvent::trade`. -/
structure TradeEvent where
  /-- `side`. -/
  side : OrderSide := .buy
  /-- `price`. -/
  price : Int64 := 0
  /-- `volume`. -/
  volume : UInt64 := 0
  /-- `order_ref`. -/
  orderRef : ℕ := 0
deriving DecidableEq, Repr

/-- `MarketEvent::Type` with the payload of the type. -/
inductive EventBody
  | add (order : OrderEvent)
  | delete (order : OrderEvent)
  | cancel (order : OrderEvent)
  | replace (order : OrderEvent)
  | trade (trade : TradeEvent)
  | execute (trade : TradeEvent)
deriving DecidableEq, Repr

/-- `MarketEvent`. -/
structure MarketEvent where
  /-- `locate`. -/
  locate : ℕ
  /-- `timestamp`. -/
  timestamp : ℕ := 0
  /-- `type`, and the struct that goes with it. -/
  body : EventBody
deriving DecidableEq, Repr

end NebulaX
