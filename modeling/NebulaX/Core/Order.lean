import NebulaX.Core.MarketEvent

/-!
# Orders and signals of the strategy side

`Order` of `src/core/types.h`, `Signal` of `src/strategy/base/signal.h`, and the reports of
`src/exchange/i_exchange_simulator.h`.
-/

namespace NebulaX

/-- `Order`. -/
structure Order where
  /-- `order_id`. -/
  orderId : ℕ := 0
  /-- `strategy_id`. -/
  strategyId : ℕ := 0
  /-- `symbol_id`. -/
  symbolId : ℕ := 0
  /-- `side`. -/
  side : OrderSide := .buy
  /-- `type`. -/
  type : OrderType := .market
  /-- `price`. -/
  price : Int64 := 0
  /-- `quantity`. -/
  quantity : UInt64 := 0
  /-- `timestamp`. -/
  timestamp : ℕ := 0
deriving DecidableEq, Repr

/-- `Signal`. -/
structure Signal where
  /-- `side`. -/
  side : OrderSide := .none
  /-- `locate`. -/
  locate : ℕ := 0
  /-- `price`. -/
  price : Int64 := 0
  /-- `timestamp`. -/
  timestamp : ℕ := 0
  /-- `strength`. -/
  strength : Int64 := 0
deriving DecidableEq, Repr

/-- `Signal::kStrengthScale`. -/
def Signal.kStrengthScale : Int64 := 10000

/-- `Fill::type`. -/
inductive FillType
  /-- `'A'`. -/
  | accepted
  /-- `'E'`. -/
  | executed
  /-- `'C'`. -/
  | canceled
  /-- `'J'`. -/
  | rejected
  /-- Any other byte. -/
  | other
deriving DecidableEq, Repr

/-- `Fill`, a report about an order. -/
structure Fill where
  /-- `type`. -/
  type : FillType := .executed
  /-- `order_id`. -/
  orderId : ℕ := 0
  /-- `exchange_ref`. -/
  exchangeRef : ℕ := 0
  /-- `filled_qty`. -/
  filledQty : UInt64 := 0
  /-- `fill_price`. -/
  fillPrice : Int64 := 0
deriving DecidableEq, Repr

/-- `ExchangeSubmitResult`. -/
structure ExchangeSubmitResult where
  /-- `accepted`. -/
  accepted : Bool := false
  /-- `fully_filled`. -/
  fullyFilled : Bool := false
  /-- `fills`. -/
  fills : List Fill := []
deriving DecidableEq, Repr

/-- A call of `RiskManager::mark`: the symbol and the price. -/
abbrev Mark := ℕ × Int64

end NebulaX
