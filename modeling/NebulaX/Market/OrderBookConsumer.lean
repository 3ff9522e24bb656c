import NebulaX.Market.Books

/-!
# The market view

`OrderBookConsumer` of `src/market/book/order_book_consumer.{h,cpp}`. It rebuilds the books from
the events of the exchange and keeps the last trade.
-/

namespace NebulaX.Market

/-- `Tick`, as far as the view writes it. -/
structure Tick where
  /-- `timestamp`. -/
  timestamp : ℕ := 0
  /-- `seq_id`. -/
  seqId : ℕ := 0
  /-- `symbol_id`. -/
  symbolId : ℕ := 0
  /-- `last_price`. -/
  lastPrice : Int64 := 0
  /-- `volume`. -/
  volume : UInt64 := 0
deriving DecidableEq, Repr

/-- `OrderBookConsumer`. -/
structure OrderBookConsumer where
  /-- `books_`, `shared_pool_` and `shared_index_`. -/
  books : Books
  /-- `last_tick_`. -/
  lastTick : Tick := {}
  /-- `has_tick_`. -/
  hasTick : Bool := false
  /-- `tick_seq_`. -/
  tickSeq : ℕ := 0
  /-- `order_seq_`. -/
  orderSeq : ℕ := 0

namespace OrderBookConsumer

/-- A view over a fresh pool and index. -/
def new (capacity : ℕ) : OrderBookConsumer := { books := Books.new capacity }

/-- `last_tick`. -/
def tick? (c : OrderBookConsumer) : Option Tick := if c.hasTick then some c.lastTick else none

/-- `handle_add`. -/
def handleAdd (c : OrderBookConsumer) (locate : ℕ) (o : OrderEvent) : Option OrderBookConsumer :=
  let c := { c with orderSeq := c.orderSeq + 1 }
  (c.books.add locate o.orderRef o.side o.price o.shares c.orderSeq).map fun r =>
    { c with books := r.2 }

/-- `handle_delete`. -/
def handleDelete (c : OrderBookConsumer) (locate : ℕ) (o : OrderEvent) :
    Option OrderBookConsumer :=
  (c.books.remove locate o.orderRef).map fun r => { c with books := r.2 }

/-- `handle_cancel`. -/
def handleCancel (c : OrderBookConsumer) (locate : ℕ) (o : OrderEvent) :
    Option OrderBookConsumer :=
  (c.books.cancel locate o.orderRef o.shares).map fun r => { c with books := r.2 }

/-- `handle_replace`: the new order is on the side of the old one. -/
def handleReplace (c : OrderBookConsumer) (locate : ℕ) (o : OrderEvent) :
    Option OrderBookConsumer :=
  (OrderBook.get c.books.shared o.orderRef).bind fun
    | none => some c
    | some old =>
      let c := { c with orderSeq := c.orderSeq + 1 }
      (c.books.replace locate o.orderRef o.newOrderRef old.side o.price o.shares c.orderSeq).map
        fun r => { c with books := r.2 }

/-- The lines that write the tick; `price` is none where the last price stays. -/
def writeTick (c : OrderBookConsumer) (timestamp locate : ℕ) (price : Option Int64)
    (volume : UInt64) : OrderBookConsumer :=
  { c with
    tickSeq := c.tickSeq + 1
    hasTick := true
    lastTick :=
      { timestamp := timestamp, seqId := c.tickSeq + 1, symbolId := locate
        lastPrice := price.getD c.lastTick.lastPrice, volume := volume } }

/-- `handle_trade`, called with `has_price`. -/
def handleTrade (c : OrderBookConsumer) (locate timestamp : ℕ) (t : TradeEvent) :
    Option OrderBookConsumer :=
  (c.books.execute locate t.orderRef t.volume).map fun r =>
    { c with books := r.2 }.writeTick timestamp locate (some t.price) t.volume

/-- `handle_execute`: the event has no price, so the order's is looked up. -/
def handleExecute (c : OrderBookConsumer) (locate timestamp : ℕ) (t : TradeEvent) :
    Option OrderBookConsumer :=
  (OrderBook.get c.books.shared t.orderRef).bind fun view =>
    let price := (view.map OrderSlotView.price).getD (-1)
    (c.books.execute locate t.orderRef t.volume).map fun r =>
      { c with books := r.2 }.writeTick timestamp locate
        (if 0 ≤ price then some price else none) t.volume

/-- `on_event`. -/
def onEvent (c : OrderBookConsumer) (ev : MarketEvent) : Option OrderBookConsumer :=
  match ev.body with
  | .add o => c.handleAdd ev.locate o
  | .delete o => c.handleDelete ev.locate o
  | .cancel o => c.handleCancel ev.locate o
  | .replace o => c.handleReplace ev.locate o
  | .trade t => c.handleTrade ev.locate ev.timestamp t
  | .execute t => c.handleExecute ev.locate ev.timestamp t

end OrderBookConsumer

end NebulaX.Market
