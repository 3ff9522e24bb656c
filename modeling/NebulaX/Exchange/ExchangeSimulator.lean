import Mathlib.Data.UInt
import NebulaX.Core.Order
import NebulaX.Exchange.MatchingEngine
import NebulaX.Market.OrderBookConsumer

/-!
# The exchange simulator

`ExchangeSimulator` of `src/exchange/exchange_simulator.{h,cpp}` with `ItchEvent` of
`itch_parser.h` and `IExchangeSimulator` of `i_exchange_simulator.h`. Orders of the market and of
the strategy go to one engine. What the market does is broadcast to the view; what the engine
answers about strategy orders is reported to the execution engine.

## The callbacks

The simulator calls the execution engine back, and the execution engine calls the simulator. To
keep the two apart, `onMarketOrder` is generic in what it calls back (`Callbacks`), on a state `E`
that may change and may call the simulator in turn. `cancel` returns the reports it makes and
leaves their delivery to the caller: they come last in the source, and they do not lead back to
the exchange.

The subscriber of the broadcasts marks prices with the risk manager. `sink` says which marks it
makes for an event, given the view after it; where the source calls it, the marks are returned.

`tape`, `submitted`, `delivered` and `shown` are not fields of the source. They record the trades
of the engine, the orders of the strategy, and the events broadcast with the clock at that time and
with the view before them, so that results can speak about them.
-/

namespace NebulaX

open Exchange (MatchingEngine BinaryResponse OrderTif Side)
open Market (OrderBookConsumer)

/-- `kStrategyUserId`. -/
def kStrategyUserId : ℕ := 0x4E585F55

/-- `ItchEvent`. -/
inductive ItchEvent
  | add (locate : UInt16) (orderRef : ℕ) (side : Side) (price shares : UInt32)
  | delete (locate : UInt16) (orderRef : ℕ)
  | cancel (locate : UInt16) (orderRef : ℕ) (shares : UInt32)
  | replace (locate : UInt16) (orderRef newOrderRef : ℕ) (price shares : UInt32)
  | book (locate : UInt16)
deriving DecidableEq, Repr

/-- `IExchangeSimulator`, over an exchange of state `X`. -/
structure IExchangeSimulator (X : Type) where
  /-- `submit`: the result, and the marks that the subscribers make meanwhile. -/
  submit : X → Order → ℕ → OrderTif → Option (ExchangeSubmitResult × List Mark × X)
  /-- `cancel`: the reports made to the execution engine. -/
  cancel : X → ℕ → ℕ → ℕ → Option (List Fill × X)

/-- A trade of the engine. -/
structure Trade where
  /-- The incoming order. -/
  taker : ℕ
  /-- The resting order. -/
  maker : ℕ
  /-- How much they traded. -/
  quantity : UInt32
deriving DecidableEq, Repr

/-- `ExchangeSimulator`, without its pointer to the execution engine. -/
structure ExchangeSimulator where
  /-- `pool_`, `index_` and `engine_`. -/
  engine : MatchingEngine
  /-- `view_`. -/
  view : Option OrderBookConsumer := none
  /-- `sink_`: the marks it makes. -/
  sink : MarketEvent → Option OrderBookConsumer → List Mark := fun _ _ => []
  /-- `strategy_refs_`. -/
  strategyRefs : Finset ℕ := ∅
  /-- `trades_`. -/
  trades : ℕ := 0
  /-- `clock_`. -/
  clock : ℕ := 0
  /-- The trades so far. -/
  tape : List Trade := []
  /-- The references submitted so far. -/
  submitted : Finset ℕ := ∅
  /-- The events broadcast so far, each with the clock. -/
  delivered : List (ℕ × MarketEvent) := []
  /-- The events broadcast so far, each with the view before it. -/
  shown : List (Option OrderBookConsumer × MarketEvent) := []

/-- What the simulator calls back: `onOrderReport` is `execution_->on_order_report`, and `mark`
passes the marks of the subscribers on. -/
structure Callbacks (E : Type) where
  /-- `execution_->on_order_report(fill)`. -/
  onOrderReport : Fill → E → ExchangeSimulator → Option (E × ExchangeSimulator)
  /-- The calls of `RiskManager::mark`. -/
  mark : List Mark → E → E

namespace ExchangeSimulator

variable {E : Type}

/-- `is_strategy_order`. -/
def isStrategyOrder (sim : ExchangeSimulator) (ref : ℕ) : Bool := ref ∈ sim.strategyRefs

/-- `++clock_`. -/
def advance (sim : ExchangeSimulator) : ExchangeSimulator := { sim with clock := sim.clock + 1 }

/-! ### Broadcasting -/

/-- `broadcast`. -/
def broadcast (sim : ExchangeSimulator) (ev : MarketEvent) :
    Option (List Mark × ExchangeSimulator) :=
  let sim := { sim with
    delivered := sim.delivered ++ [(sim.clock, ev)], shown := sim.shown ++ [(sim.view, ev)] }
  match sim.view with
  | none => some (sim.sink ev none, sim)
  | some view => (view.onEvent ev).map fun view =>
      (sim.sink ev (some view), { sim with view := some view })

/-- `make_execute`. -/
def makeExecute (locate orderRef : ℕ) (qty : UInt64) : MarketEvent where
  locate := locate
  body := .execute { orderRef := orderRef, volume := qty, price := -1 }

/-- `to_market_event`. -/
def toMarketEvent (clock : ℕ) : ItchEvent → MarketEvent
  | .add locate orderRef side price shares =>
    { locate := locate.toNat, timestamp := clock
      body := .add { side := if side = .buy then .buy else .sell
                     price := price.toUInt64.toInt64
                     shares := shares.toUInt64
                     orderRef := orderRef } }
  | .delete locate orderRef =>
    { locate := locate.toNat, timestamp := clock, body := .delete { orderRef := orderRef } }
  | .cancel locate orderRef shares =>
    { locate := locate.toNat, timestamp := clock
      body := .cancel { orderRef := orderRef, shares := shares.toUInt64 } }
  | .replace locate orderRef newOrderRef price shares =>
    { locate := locate.toNat, timestamp := clock
      body := .replace { orderRef := orderRef
                         newOrderRef := newOrderRef
                         price := price.toUInt64.toInt64
                         shares := shares.toUInt64 } }
  | .book locate => { locate := locate.toNat, timestamp := clock, body := .add {} }

/-- A broadcast, and the marks that come of it. -/
def announce (cb : Callbacks E) (ev : MarketEvent) (s : E × ExchangeSimulator) :
    Option (E × ExchangeSimulator) :=
  (s.2.broadcast ev).map fun (marks, sim) => (cb.mark marks s.1, sim)

/-! ### The market side -/

/-- The side of the old order of a replace. -/
def oldSide (e : MatchingEngine) (orderRef : ℕ) : Option Side :=
  (e.findOrder orderRef).map fun found =>
    (found.map fun idx => (e.shared.pool.storage idx).side).getD .invalid

/-- The `switch` of `on_market_order`; `none` inside for an event that is no order. -/
def enterMarket (e : MatchingEngine) :
    ItchEvent → Option (Option (List BinaryResponse × MatchingEngine))
  | .add locate orderRef side price shares =>
    (e.processAdd locate.toNat orderRef side price shares orderRef .day).map some
  | .delete locate orderRef => (e.processCancel locate.toNat orderRef orderRef).map some
  | .cancel locate orderRef shares =>
    (e.processCancelShares locate.toNat orderRef shares orderRef).map some
  | .replace locate orderRef newOrderRef price shares =>
    (oldSide e orderRef).bind fun side =>
      (e.processReplace locate.toNat orderRef newOrderRef side price shares orderRef).map some
  | .book _ => some none

/-- The reference of the incoming order. -/
def takerRef : ItchEvent → ℕ
  | .add _ orderRef _ _ _ => orderRef
  | .delete _ orderRef => orderRef
  | .cancel _ orderRef _ => orderRef
  | .replace _ _ newOrderRef _ _ => newOrderRef
  | .book _ => 0

/-- The locate of an event. -/
def locateOf : ItchEvent → ℕ
  | .add locate .. => locate.toNat
  | .delete locate _ => locate.toNat
  | .cancel locate .. => locate.toNat
  | .replace locate .. => locate.toNat
  | .book locate => locate.toNat

/-- The trades among the answers of the engine: maker, price and quantity. -/
def tradesIn (rsp : List BinaryResponse) : List (ℕ × UInt32 × UInt32) :=
  rsp.filterMap fun
    | .trade _ orderRef _ price quantity => some (orderRef, price, quantity)
    | .ok _ | .filled _ | .cancelled _ | .error _ => none

/-- `taker_fill`, and `filled_total` of `submit`. -/
def totalFill (ts : List (ℕ × UInt32 × UInt32)) : UInt64 :=
  (ts.map fun t => t.2.2.toUInt64).sum

/-- Count a trade. -/
def countTrade (sim : ExchangeSimulator) (taker maker : ℕ) (quantity : UInt32) :
    ExchangeSimulator :=
  { sim with trades := sim.trades + 1, tape := sim.tape ++ [⟨taker, maker, quantity⟩] }

/-- `unregister_if_gone`. -/
def unregisterIfGone (sim : ExchangeSimulator) (ref : ℕ) : Option ExchangeSimulator :=
  (sim.engine.findOrder ref).map fun
    | none => { sim with strategyRefs := sim.strategyRefs.erase ref }
    | some _ => sim

/-- `on_strategy_maker_fill`. -/
def onStrategyMakerFill (cb : Callbacks E) (makerRef : ℕ) (qty : UInt64) (price : Int64)
    (s : E × ExchangeSimulator) : Option (E × ExchangeSimulator) :=
  (cb.onOrderReport { type := .executed, orderId := makerRef, filledQty := qty, fillPrice := price }
    s.1 s.2).bind fun s => (s.2.unregisterIfGone makerRef).map fun sim => (s.1, sim)

/-- The body of the loop over the trades. -/
def routeTrade (cb : Callbacks E) (locate taker : ℕ) (s : E × ExchangeSimulator)
    (t : ℕ × UInt32 × UInt32) : Option (E × ExchangeSimulator) :=
  let sim := s.2.countTrade taker t.1 t.2.2
  if sim.isStrategyOrder t.1 then
    onStrategyMakerFill cb t.1 t.2.2.toUInt64 t.2.1.toUInt64.toInt64 (s.1, sim)
  else announce cb (makeExecute locate t.1 t.2.2.toUInt64) (s.1, sim)

/-- The loop over the trades. -/
def routeTrades (cb : Callbacks E) (locate taker : ℕ) (ts : List (ℕ × UInt32 × UInt32))
    (s : E × ExchangeSimulator) : Option (E × ExchangeSimulator) :=
  ts.foldlM (routeTrade cb locate taker) s

/-- `on_market_order`. -/
def onMarketOrder (cb : Callbacks E) (ev : ItchEvent) (s : E × ExchangeSimulator) :
    Option (E × ExchangeSimulator) :=
  let sim := s.2.advance
  (enterMarket sim.engine ev).bind fun
    | none => some (s.1, sim)
    | some (rsp, engine) =>
      (announce cb (toMarketEvent sim.clock ev) (s.1, { sim with engine := engine })).bind fun s =>
        (routeTrades cb (locateOf ev) (takerRef ev) (tradesIn rsp) s).bind fun s =>
          if 0 < totalFill (tradesIn rsp) then
            announce cb (makeExecute (locateOf ev) (takerRef ev) (totalFill (tradesIn rsp))) s
          else some s

/-! ### The strategy side -/

/-- The body of the loop of `submit` over the answers of the engine. -/
def takeAnswer (order : Order) (orderId : ℕ)
    (s : ExchangeSubmitResult × List Mark × ExchangeSimulator) :
    BinaryResponse → Option (ExchangeSubmitResult × List Mark × ExchangeSimulator)
  | .trade _ orderRef _ price quantity =>
    let out := { s.1 with
      accepted := true
      fills := s.1.fills ++ [{ orderId := orderId, filledQty := quantity.toUInt64
                               fillPrice := price.toUInt64.toInt64 }] }
    let sim := s.2.2.countTrade orderId orderRef quantity
    (sim.broadcast (makeExecute order.symbolId orderRef quantity.toUInt64)).map
      fun (marks, sim) => (out, s.2.1 ++ marks, sim)
  | .ok _ =>
    let sim := s.2.2
    some ({ s.1 with accepted := true }, s.2.1,
      { sim with strategyRefs := insert orderId sim.strategyRefs })
  | .filled _ => some ({ s.1 with accepted := true }, s.2)
  | .cancelled _ | .error _ => some s

/-- `submit`. -/
def submit (sim : ExchangeSimulator) (order : Order) (orderId : ℕ) (tif : OrderTif) :
    Option (ExchangeSubmitResult × List Mark × ExchangeSimulator) :=
  let sim := { sim.advance with submitted := insert orderId sim.submitted }
  let side := if order.side = .buy then Side.buy else Side.sell
  (sim.engine.processAdd order.symbolId orderId side order.price.toUInt64.toUInt32
    order.quantity.toUInt32 kStrategyUserId tif).bind fun (rsp, engine) =>
      (rsp.foldlM (takeAnswer order orderId) ({}, [], { sim with engine := engine })).map
        fun (out, marks, sim) =>
          ({ out with fullyFilled := totalFill (tradesIn rsp) = order.quantity }, marks, sim)

/-- The body of the loop of `cancel`. -/
def takeCancelAnswer (orderId : ℕ) (s : List Fill × ExchangeSimulator) :
    BinaryResponse → List Fill × ExchangeSimulator
  | .cancelled _ | .ok _ =>
    let sim := s.2
    (s.1 ++ [{ type := .canceled, orderId := orderId }],
      { sim with strategyRefs := sim.strategyRefs.erase orderId })
  | .trade .. | .filled _ | .error _ => s

/-- `cancel`: the reports it makes. -/
def cancel (sim : ExchangeSimulator) (orderId symbolId userId : ℕ) :
    Option (List Fill × ExchangeSimulator) :=
  let sim := sim.advance
  (sim.engine.processCancel symbolId orderId userId).map fun (rsp, engine) =>
    rsp.foldl (takeCancelAnswer orderId) ([], { sim with engine := engine })

/-- The simulator as the execution engine sees it. -/
def interface : IExchangeSimulator ExchangeSimulator where
  submit := submit
  cancel := cancel

end ExchangeSimulator

end NebulaX
