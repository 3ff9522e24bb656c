import NebulaX.Exchange.Quotes
import NebulaX.Execution.Steps

/-!
# Trade records

The execution engine with what it keeps for `trades.csv`: `TradeRecord`, `set_mid`, `mid_of` and
`record_trade` of `src/execution/execution_engine.h`, with the quotes it asks for (`query_book`,
`live_mid`, `submit_market_as_limit`). It is bound to an exchange simulator, as in `sim_main`.

The entry points are those of `ExecutionEngine`, with the records they make. A report is recorded
before its flatten, and the cancels of a flatten report no fills. The labels of a record, which are
the segment and the number of the event it was made in, are left out.

## Main results

* `submitSignal_forget`, `onOrderReport_forget` — without the records they are the entry points
* `submitSignal_cases` — the records that a signal makes
-/

namespace NebulaX

open Market (OrderBookConsumer)

/-- `TradeRecord`. -/
structure TradeRecord where
  /-- `order_id`. -/
  orderId : ℕ
  /-- `symbol_id`. -/
  symbolId : ℕ
  /-- `side`. -/
  side : OrderSide
  /-- `qty`. -/
  qty : UInt64
  /-- `price`. -/
  price : Int64
  /-- `mid`. -/
  mid : Int64
  /-- `passive`. -/
  passive : Bool
deriving DecidableEq, Repr

/-- What is kept for the records, and the records that were made. -/
structure TradeLog where
  /-- `mid_map_`. -/
  midMap : ℕ → Option Int64 := fun _ => none
  /-- The records that went to `trade_cb_`. -/
  trades : List TradeRecord := []

namespace TradeLog

/-- `set_mid`. -/
def setMid (log : TradeLog) (symbolId : ℕ) (mid : Int64) : TradeLog :=
  if 0 ≤ mid then { log with midMap := Function.update log.midMap symbolId (some mid) } else log

/-- `mid_of`. -/
def midOf (log : TradeLog) (symbolId : ℕ) : Int64 :=
  match log.midMap symbolId with
  | some mid => mid
  | none => -1

/-- `record_trade`, with the mid of the symbol. -/
def recordTrade (log : TradeLog) (orderId symbolId : ℕ) (side : OrderSide) (qty : UInt64)
    (price : Int64) (passive : Bool) : TradeLog :=
  let mid := log.midOf symbolId
  let mid := if mid < 0 then price else mid
  { log with trades := log.trades ++
      [{ orderId := orderId, symbolId := symbolId, side := side, qty := qty, price := price
         mid := mid, passive := passive }] }

/-- The records of the fills of a submit. -/
def recordFills (log : TradeLog) (order : Order) (r : ExchangeSubmitResult) : TradeLog :=
  if r.accepted then
    r.fills.foldl (fun log f =>
      log.recordTrade order.orderId order.symbolId order.side f.filledQty f.fillPrice false) log
  else log

/-- The record of a report. -/
def recordReport (log : TradeLog) (f : Fill) : Option Order → TradeLog
  | none => log
  | some order =>
    if f.type = .executed then
      log.recordTrade f.orderId order.symbolId order.side f.filledQty f.fillPrice true
    else log

end TradeLog

/-- `ExecutionEngine` with its records. -/
structure RecordingEngine where
  /-- The engine. -/
  engine : ExecutionEngine := {}
  /-- The records. -/
  log : TradeLog := {}

/-- The engine and the exchange that it is bound to. -/
abbrev Desk := RecordingEngine × ExchangeSimulator

namespace Desk

open ExecutionEngine (flattenOnDrawdown tifOf)

/-- `exchange_`. -/
def exchange : Option (IExchangeSimulator ExchangeSimulator) := some ExchangeSimulator.interface

/-- Without the records. -/
def system (d : Desk) : ExecutionEngine × ExchangeSimulator := (d.1.engine, d.2)

/-! ### The entry points -/

/-- `on_order_report`. -/
def onOrderReport (f : Fill) (d : Desk) : Option Desk :=
  let log := d.1.log.recordReport f (d.1.engine.orderManager.order f.orderId)
  (ExecutionEngine.onOrderReport exchange f d.system).map fun s => (⟨s.1, log⟩, s.2)

/-- The part of `submit_signal` that holds the lock. -/
def submitOrder (order : Order) (d : Desk) : Option (ℕ × Desk) :=
  let ee := d.1.engine.lock
  let registered := ee.orderManager.newOrder order
  let order := registered.1
  let id := order.orderId
  let ee := { ee with orderManager := registered.2 }
  if !ee.riskManager.checkOrder order then
    some (id, ⟨{ ee with orderManager := ee.orderManager.onReject id }.unlock, d.1.log⟩, d.2)
  else
    let tif := if order.type = .limit then Exchange.OrderTif.day else .ioc
    (d.2.submit order id tif).bind fun (r, marks, sim) =>
      (flattenOnDrawdown exchange ((ee.takeMarks marks).takeResult order r, sim)).map fun s =>
        (id, ⟨s.1.unlock, d.1.log.recordFills order r⟩, s.2)

/-- `submit_signal`: the order id, 0 for no order. -/
def submitSignal (sig : Signal) (strategyId : ℕ) (type : OrderType) (d : Desk) :
    Option (ℕ × Desk) :=
  if sig.side = .none ∨ sig.price < 0 then some (0, d)
  else if type = .limit ∧ sig.price ≤ 0 then some (0, d)
  else if d.1.engine.signalQty sig = 0 then some (0, d)
  else submitOrder (d.1.engine.signalOrder sig strategyId type) d

/-- `query_book`. -/
def queryBook (d : Desk) (symbolId : ℕ) : Option BookQuote := d.2.bookQuote symbolId

/-- `live_mid`. -/
def liveMid (d : Desk) (symbolId : ℕ) : Int64 :=
  match d.queryBook symbolId with
  | some q => if 0 < q.bid ∧ 0 < q.ask then (q.bid + q.ask) / 2 else -1
  | none => -1

/-- `submit_market_as_limit`. -/
def submitMarketAsLimit (sig : Signal) (strategyId : ℕ) (d : Desk) : Option (ℕ × Desk) :=
  if sig.side = .none then some (0, d)
  else match d.queryBook sig.locate with
    | none => some (0, d)
    | some q =>
      let limitPrice := if sig.side = .buy then q.ask else q.bid
      if limitPrice ≤ 0 then some (0, d)
      else submitSignal { sig with price := limitPrice } strategyId .limit d

/-- `set_mid`. -/
def setMid (symbolId : ℕ) (mid : Int64) (d : Desk) : Desk :=
  (⟨d.1.engine, d.1.log.setMid symbolId mid⟩, d.2)

/-- What the exchange calls back. -/
def callbacks : Callbacks RecordingEngine where
  onOrderReport := fun f ee sim => onOrderReport f (ee, sim)
  mark := fun marks ee => ⟨ee.engine.takeMarks marks, ee.log⟩

/-! ### Without the records -/

section Forget

variable {d d' : Desk}

@[simp] theorem setMid_system (symbolId : ℕ) (mid : Int64) :
    (d.setMid symbolId mid).system = d.system := rfl

/-- **A report** is a report of the engine. -/
theorem onOrderReport_forget {f : Fill} (h : d.onOrderReport f = some d') :
    ExecutionEngine.onOrderReport exchange f d.system = some d'.system ∧
      d'.1.log = d.1.log.recordReport f (d.1.engine.orderManager.order f.orderId) := by
  obtain ⟨s, hs, rfl⟩ := Option.map_eq_some_iff.mp h
  exact ⟨hs, rfl⟩

/-- What the part under the lock comes to. -/
theorem submitOrder_forget {order : Order} {id : ℕ} (h : d.submitOrder order = some (id, d')) :
    ExecutionEngine.submitOrder exchange order d.system = some (id, d'.system) := by
  rw [submitOrder] at h
  rw [ExecutionEngine.submitOrder.eq_def]
  dsimp only [system, exchange] at h ⊢
  split at h
  · next hcheck =>
    rw [if_pos hcheck]
    obtain ⟨rfl, rfl⟩ := Prod.mk.inj (Option.some.inj h)
    rfl
  · next hcheck =>
    rw [if_neg hcheck]
    obtain ⟨⟨r, marks, sim⟩, hsubmit, h⟩ := Option.bind_eq_some_iff.mp h
    obtain ⟨s, hflat, heq⟩ := Option.map_eq_some_iff.mp h
    obtain ⟨rfl, rfl⟩ := Prod.mk.inj heq
    refine Option.bind_eq_some_iff.mpr ⟨(r, marks, sim), hsubmit, ?_⟩
    exact Option.map_eq_some_iff.mpr ⟨s, hflat, rfl⟩

/-- **A signal** is a signal of the engine. -/
theorem submitSignal_forget {sig : Signal} {strategyId id : ℕ} {type : OrderType}
    (h : d.submitSignal sig strategyId type = some (id, d')) :
    ExecutionEngine.submitSignal exchange sig strategyId type d.system = some (id, d'.system) := by
  rw [submitSignal] at h
  rw [ExecutionEngine.submitSignal]
  have hqty : d.system.1 = d.1.engine := rfl
  rw [hqty]
  split_ifs at h with hside hprice hzero
  · obtain ⟨rfl, rfl⟩ := Prod.mk.inj (Option.some.inj h)
    rw [if_pos hside]
  · obtain ⟨rfl, rfl⟩ := Prod.mk.inj (Option.some.inj h)
    rw [if_neg hside, if_pos hprice]
  · obtain ⟨rfl, rfl⟩ := Prod.mk.inj (Option.some.inj h)
    rw [if_neg hside, if_neg hprice, if_pos hzero]
  · rw [if_neg hside, if_neg hprice, if_neg hzero]
    exact submitOrder_forget h

/-- **The records of a signal**: none, if no order goes to the exchange, and those of its fills. -/
theorem submitSignal_cases {sig : Signal} {strategyId id : ℕ} {type : OrderType}
    (h : d.submitSignal sig strategyId type = some (id, d')) :
    (d.1.engine.Ignores sig type ∧ d' = d) ∨ ¬ d.1.engine.Ignores sig type ∧
      ((d.1.engine.riskManager.checkOrder (d.1.engine.orderFor sig strategyId type) = false ∧
        d'.1.log = d.1.log ∧ d'.2 = d.2) ∨
      d.1.engine.riskManager.checkOrder (d.1.engine.orderFor sig strategyId type) = true ∧
        ∃ r marks sim s,
        d.2.submit (d.1.engine.orderFor sig strategyId type) d.1.engine.idOf (tifOf type) =
          some (r, marks, sim) ∧
        flattenOnDrawdown exchange
          (((d.1.engine.registered (d.1.engine.orderFor sig strategyId type)).takeMarks
            marks).takeResult (d.1.engine.orderFor sig strategyId type) r, sim) = some s ∧
        d' = (⟨s.1.unlock,
          d.1.log.recordFills (d.1.engine.orderFor sig strategyId type) r⟩, s.2)) := by
  rw [submitSignal] at h
  split_ifs at h with hside hprice hqty
  · exact Or.inl ⟨Or.inl hside, (Prod.mk.inj (Option.some.inj h)).2.symm⟩
  · exact Or.inl ⟨Or.inr (Or.inl hprice), (Prod.mk.inj (Option.some.inj h)).2.symm⟩
  · exact Or.inl ⟨Or.inr (Or.inr hqty), (Prod.mk.inj (Option.some.inj h)).2.symm⟩
  · refine Or.inr ⟨not_or.mpr ⟨hside, not_or.mpr ⟨hprice, hqty⟩⟩, ?_⟩
    rw [submitOrder] at h
    split at h
    · next hcheck =>
      obtain ⟨-, rfl⟩ := Prod.mk.inj (Option.some.inj h)
      exact Or.inl ⟨(Bool.not_eq_true' _).mp hcheck, rfl, rfl⟩
    · next hcheck =>
      obtain ⟨⟨r, marks, sim⟩, hsubmit, hrest⟩ := Option.bind_eq_some_iff.mp h
      obtain ⟨s, hflat, heq⟩ := Option.map_eq_some_iff.mp hrest
      obtain ⟨-, rfl⟩ := Prod.mk.inj heq
      have hpassed := eq_true_of_ne_false fun hf => hcheck (congrArg not hf)
      exact Or.inr ⟨hpassed, r, marks, sim, s, hsubmit, hflat, rfl⟩

end Forget

end Desk

end NebulaX
