import NebulaX.Exchange.ExchangeSimulator
import NebulaX.Risk.RiskManager

/-!
# The execution engine

`ExecutionEngine` of `src/execution/execution_engine.h`. It turns signals into orders, sends them
to an exchange, and brings what the exchange reports to the order manager and the risk manager.
The exchange is any that has the interface, on a state `X` of its own; `none` is a null pointer.
What is kept for the analysis of trades only is left out.

## The lock

Every entry point holds `mtx_`. A report of the exchange may come while an entry point holds it
already. The lock is taken as re-entrant here: `mtx` counts how often it is held, and `relocked`,
which is not a field of the source, records that it was taken while it was held.

## Reports during a flatten

`flatten_on_drawdown` cancels orders, the exchange reports, and a report of a fill flattens again.
The inner call comes after `flatten_issued_` is set, so it returns at once: `onOrderReportWith` is
the report with a given flatten, and the reports that come during a flatten have one that does
nothing. `onOrderReport_of_issued` says that it makes no difference.
-/

namespace NebulaX

/-- `ExecutionEngine`, without its pointer to the exchange. -/
structure ExecutionEngine where
  /-- `order_manager_`. -/
  orderManager : OrderManager := {}
  /-- `risk_manager_`. -/
  riskManager : RiskManager := {}
  /-- `base_qty_`. -/
  baseQty : UInt64 := 100
  /-- `flatten_issued_`. -/
  flattenIssued : Bool := false
  /-- How often `mtx_` is held. -/
  mtx : ℕ := 0
  /-- It was taken while it was held. -/
  relocked : Bool := false

namespace ExecutionEngine

/-! ### The lock -/

/-- `std::lock_guard`: take the lock. -/
def lock (ee : ExecutionEngine) : ExecutionEngine :=
  { ee with mtx := ee.mtx + 1, relocked := ee.relocked || decide (0 < ee.mtx) }

/-- The end of the scope of a `std::lock_guard`. -/
def unlock (ee : ExecutionEngine) : ExecutionEngine := { ee with mtx := ee.mtx - 1 }

/-! ### Reports -/

/-- A fill goes to the order manager and to the risk manager, with the price it has. -/
def applyFill (ee : ExecutionEngine) (orderId : ℕ) (order : Order) (filledQty : UInt64)
    (fillPrice : Int64) : ExecutionEngine :=
  { ee with
    orderManager := ee.orderManager.onFill orderId filledQty fillPrice
    riskManager := ee.riskManager.onFill { order with price := fillPrice } filledQty }

/-- The `switch` of `on_order_report`, without the flatten. -/
def applyReport (ee : ExecutionEngine) (f : Fill) (order : Order) : ExecutionEngine :=
  match f.type with
  | .accepted => { ee with orderManager := ee.orderManager.onAccept f.orderId f.exchangeRef }
  | .executed => ee.applyFill f.orderId order f.filledQty f.fillPrice
  | .canceled => { ee with orderManager := (ee.orderManager.onCancel f.orderId).2 }
  | .rejected => { ee with orderManager := ee.orderManager.onReject f.orderId }
  | .other => ee

variable {X : Type}

/-- `on_order_report`, with a flatten of its own. -/
def onOrderReportWith (flatten : ExecutionEngine × X → Option (ExecutionEngine × X)) (f : Fill)
    (s : ExecutionEngine × X) : Option (ExecutionEngine × X) :=
  let ee := s.1.lock
  match ee.orderManager.order f.orderId with
  | none => some (ee.unlock, s.2)
  | some order =>
    let s := (ee.applyReport f order, s.2)
    (if f.type = .executed then flatten s else some s).map fun s => (s.1.unlock, s.2)

/-- `exchange_->cancel(id, symbol_id, kStrategyUserId)`, with what takes its reports. -/
def exchangeCancel (exchange : IExchangeSimulator X)
    (report : Fill → ExecutionEngine × X → Option (ExecutionEngine × X)) (id symbolId : ℕ)
    (s : ExecutionEngine × X) : Option (ExecutionEngine × X) :=
  (exchange.cancel s.2 id symbolId kStrategyUserId).bind fun (reports, x) =>
    reports.foldlM (fun s f => report f s) (s.1, x)

/-! ### Flatten -/

/-- The body of the loop of `flatten_on_drawdown`. -/
def cancelLive (exchange : Option (IExchangeSimulator X)) (s : ExecutionEngine × X) (id : ℕ) :
    Option (ExecutionEngine × X) :=
  match s.1.orderManager.orders id with
  | none => some s
  | some e =>
    if e.status.live then
      let ee := { s.1 with orderManager := (s.1.orderManager.requestCancel id).2 }
      match exchange with
      | none => some (ee, s.2)
      | some exchange =>
        exchangeCancel exchange (onOrderReportWith some) id e.order.symbolId (ee, s.2)
    else some s

/-- `flatten_on_drawdown`. -/
def flattenOnDrawdown (exchange : Option (IExchangeSimulator X)) (s : ExecutionEngine × X) :
    Option (ExecutionEngine × X) :=
  if s.1.flattenIssued then some s
  else if !s.1.riskManager.drawdownFlatten then some s
  else s.1.orderManager.visited.foldlM (cancelLive exchange)
    ({ s.1 with flattenIssued := true }, s.2)

/-! ### The entry points -/

/-- `on_order_report`. -/
def onOrderReport (exchange : Option (IExchangeSimulator X)) :
    Fill → ExecutionEngine × X → Option (ExecutionEngine × X) :=
  onOrderReportWith (flattenOnDrawdown exchange)

/-- `on_order_fill`. -/
def onOrderFill (exchange : Option (IExchangeSimulator X)) (orderId : ℕ) (filledQty : UInt64)
    (fillPrice : Int64) (s : ExecutionEngine × X) : Option (ExecutionEngine × X) :=
  let ee := s.1.lock
  match ee.orderManager.order orderId with
  | none => some (ee.unlock, s.2)
  | some order =>
    (flattenOnDrawdown exchange (ee.applyFill orderId order filledQty fillPrice, s.2)).map
      fun s => (s.1.unlock, s.2)

/-- The quantity of a signal. -/
def signalQty (ee : ExecutionEngine) (sig : Signal) : UInt64 :=
  ee.baseQty * sig.strength.toUInt64 / Signal.kStrengthScale.toUInt64

/-- The order of a signal. -/
def signalOrder (ee : ExecutionEngine) (sig : Signal) (strategyId : ℕ) (type : OrderType) :
    Order where
  strategyId := strategyId
  symbolId := sig.locate
  side := sig.side
  type := type
  price := sig.price
  quantity := ee.signalQty sig
  timestamp := sig.timestamp

/-- What the exchange answered to an order goes to the order manager and the risk manager. -/
def takeResult (ee : ExecutionEngine) (order : Order) (r : ExchangeSubmitResult) :
    ExecutionEngine :=
  if r.accepted then
    r.fills.foldl (fun ee f => ee.applyFill order.orderId order f.filledQty f.fillPrice)
      { ee with orderManager := ee.orderManager.onAccept order.orderId 0 }
  else { ee with orderManager := ee.orderManager.onReject order.orderId }

/-- The marks that the subscribers of the exchange make. -/
def takeMarks (ee : ExecutionEngine) (marks : List Mark) : ExecutionEngine :=
  { ee with riskManager := ee.riskManager.marks marks }

/-- The part of `submit_signal` that holds the lock. -/
def submitOrder (exchange : Option (IExchangeSimulator X)) (order : Order)
    (s : ExecutionEngine × X) : Option (ℕ × ExecutionEngine × X) :=
  let ee := s.1.lock
  let registered := ee.orderManager.newOrder order
  let order := registered.1
  let id := order.orderId
  let ee := { ee with orderManager := registered.2 }
  if !ee.riskManager.checkOrder order then
    some (id, { ee with orderManager := ee.orderManager.onReject id }.unlock, s.2)
  else match exchange with
    | none => some (id, { ee with orderManager := ee.orderManager.onReject id }.unlock, s.2)
    | some ex =>
      let tif := if order.type = .limit then Exchange.OrderTif.day else .ioc
      (ex.submit s.2 order id tif).bind fun (r, marks, x) =>
        (flattenOnDrawdown exchange ((ee.takeMarks marks).takeResult order r, x)).map
          fun s => (id, s.1.unlock, s.2)

/-- `submit_signal`: the order id, 0 for no order. -/
def submitSignal (exchange : Option (IExchangeSimulator X)) (sig : Signal) (strategyId : ℕ)
    (type : OrderType) (s : ExecutionEngine × X) : Option (ℕ × ExecutionEngine × X) :=
  if sig.side = .none ∨ sig.price < 0 then some (0, s)
  else if type = .limit ∧ sig.price ≤ 0 then some (0, s)
  else if s.1.signalQty sig = 0 then some (0, s)
  else submitOrder exchange (s.1.signalOrder sig strategyId type) s

/-- `cancel_order`. -/
def cancelOrder (exchange : Option (IExchangeSimulator X)) (orderId : ℕ)
    (s : ExecutionEngine × X) : Option (Bool × ExecutionEngine × X) :=
  let ee := s.1.lock
  match exchange with
  | none => some (false, ee.unlock, s.2)
  | some ex =>
    match ee.orderManager.order orderId with
    | none => some (false, ee.unlock, s.2)
    | some order =>
      let requested := ee.orderManager.requestCancel orderId
      if requested.1 then
        (exchangeCancel ex (onOrderReport exchange) orderId order.symbolId
          ({ ee with orderManager := requested.2 }, s.2)).map fun s => (true, s.1.unlock, s.2)
      else some (false, ee.unlock, s.2)

/-! ### A flatten is issued once -/

section Issued

variable {exchange : Option (IExchangeSimulator X)} {s : ExecutionEngine × X}

theorem flattenOnDrawdown_of_issued (h : s.1.flattenIssued = true) :
    flattenOnDrawdown exchange s = some s := by
  rw [flattenOnDrawdown, if_pos h]

@[simp] theorem applyReport_flattenIssued (ee : ExecutionEngine) (f : Fill) (order : Order) :
    (ee.applyReport f order).flattenIssued = ee.flattenIssued := by
  rw [applyReport]
  split <;> rfl

@[simp] theorem applyReport_mtx (ee : ExecutionEngine) (f : Fill) (order : Order) :
    (ee.applyReport f order).mtx = ee.mtx := by
  rw [applyReport]
  split <;> rfl

@[simp] theorem applyReport_relocked (ee : ExecutionEngine) (f : Fill) (order : Order) :
    (ee.applyReport f order).relocked = ee.relocked := by
  rw [applyReport]
  split <;> rfl

/-- **A report that comes during a flatten** does not flatten again. -/
theorem onOrderReport_of_issued (f : Fill) (h : s.1.flattenIssued = true) :
    onOrderReport exchange f s = onOrderReportWith some f s := by
  rw [onOrderReport, onOrderReportWith, onOrderReportWith]
  cases s.1.lock.orderManager.order f.orderId with
  | none => rfl
  | some order =>
    have hissued : (s.1.lock.applyReport f order).flattenIssued = true := by
      rw [applyReport_flattenIssued]
      exact h
    simp only [flattenOnDrawdown_of_issued (s := (s.1.lock.applyReport f order, s.2)) hissued]

end Issued

end ExecutionEngine

end NebulaX
