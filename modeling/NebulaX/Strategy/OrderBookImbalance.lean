import NebulaX.Strategy.OrderFlowImbalance

/-!
# The order book imbalance strategy

The strategy of `src/strategy/tick/order_book_imbalance_strategy.h`. It compares the quantities at
the best prices of the book that an event is about. Unlike the order flow strategy it takes every
event, with or without a direction.

The threshold is a `double` in the source, which is used once, as a number of 64 bits on the scale
of strengths. It is that number here.
-/

namespace NebulaX

/-- `OrderBookImbalanceStrategy`. -/
structure OrderBookImbalanceStrategy where
  /-- `threshold_`, on the scale of strengths. -/
  threshold : Int64 := 3000
  /-- `current_`. -/
  current : OrderSide := .none
  /-- `locate_`. -/
  locate : ℕ := 0
  /-- `bid_price_`. -/
  bidPrice : Int64 := 0
  /-- `ask_price_`. -/
  askPrice : Int64 := 0
  /-- `timestamp_`. -/
  timestamp : ℕ := 0
  /-- `strength_`. -/
  strength : Int64 := 0

namespace OrderBookImbalanceStrategy

/-- `obi` in `on_book`. -/
def imbalance (bidVol askVol : UInt64) : Int64 :=
  (bidVol - askVol).toInt64 * Signal.kStrengthScale / (bidVol + askVol).toInt64

/-- `on_book`. -/
def onBook (s : OrderBookImbalanceStrategy) (locate : ℕ) (bidPrice : Int64) (bidVol : UInt64)
    (askPrice : Int64) (askVol : UInt64) (timestamp : ℕ) : OrderBookImbalanceStrategy :=
  let s := { s with
    locate := locate, bidPrice := bidPrice, askPrice := askPrice, timestamp := timestamp }
  if bidVol + askVol = 0 then { s with current := .none, strength := 0 }
  else
    let obi := imbalance bidVol askVol
    let th := s.threshold
    let mag := if 0 < obi then obi else -obi
    { s with
      current := if th < obi then .buy else if obi < -th then .sell else .none
      strength := if th ≤ mag then Signal.kStrengthScale
        else mag * Signal.kStrengthScale / (th + 1) }

/-- `on_market`. -/
def onMarket (ev : MarketEvent) (ctx : BookContext) (s : OrderBookImbalanceStrategy) :
    OrderBookImbalanceStrategy :=
  s.onBook ev.locate ctx.bid ctx.bidVol ctx.ask ctx.askVol ev.timestamp

/-- `signal`. -/
def signal (s : OrderBookImbalanceStrategy) : Signal where
  side := s.current
  locate := s.locate
  price := if s.current = .buy then s.bidPrice else s.askPrice
  timestamp := s.timestamp
  strength := s.strength

/-- The strategy as a worker sees it. -/
def strategy : StrategyT OrderBookImbalanceStrategy := ⟨onMarket, signal⟩

end OrderBookImbalanceStrategy

end NebulaX
