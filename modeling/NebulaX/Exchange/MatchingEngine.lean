import NebulaX.Exchange.OrderBook

/-!
# The matching engine

`src/exchange/matching_engine.h` and `matching_engine.cpp`, with the parts of `protocol.h`,
`wal.h` and `trade_pool.h` they write to. One engine holds a book per locate over one store.

The source creates a book at its first use. A book that was not created yet is an empty one here,
so `books` is total and `book_for` only checks the range of the locate. A call returns the frames
it appends to `out`. The metrics counters are left out.

`matchBuyOrder` and `matchSellOrder` are one loop, `matchOrder`, at the two sides of the taker.
-/

namespace NebulaX.Exchange

/-! ### Frames -/

/-- `ErrorCode`. -/
inductive ErrorCode
  | invalidSide
  | invalidPriceQtyUser
  | orderNotFound
  | invalidCommandType
  | poolFull
  | mktNoLiquidity
  | fokNoFullFill
deriving DecidableEq, Repr

/-- `OrderTif`. -/
inductive OrderTif
  | day
  | ioc
  | fok
deriving DecidableEq, Repr

/-- `BinaryResponse`, the frames that order processing emits. -/
inductive BinaryResponse
  /-- `RSP_TRADE`: the resting order `orderRef`, of side `side`, traded. -/
  | trade (locate orderRef : ℕ) (side : Side) (price quantity : UInt32)
  /-- `RSP_OK`. -/
  | ok (orderId : ℕ)
  /-- `RSP_FILLED`. -/
  | filled (orderId : ℕ)
  /-- `RSP_CANCELLED`. -/
  | cancelled (orderId : ℕ)
  /-- `RSP_ERROR`. -/
  | error (code : ErrorCode)
deriving DecidableEq, Repr

/-- What a trade frame trades. -/
def BinaryResponse.tradedQty : BinaryResponse → ℕ
  | .trade _ _ _ _ quantity => quantity.toNat
  | _ => 0

/-- Whether a frame is an `RSP_TRADE`. -/
def BinaryResponse.isTrade : BinaryResponse → Bool
  | .trade .. => true
  | _ => false

/-! ### The two logs -/

/-- `WalEntry`. -/
structure WalEntry where
  /-- `type`. -/
  type : UInt8 := 0
  /-- `side`. -/
  side : UInt8 := 0
  /-- `locate`. -/
  locate : UInt16 := 0
  /-- `price`. -/
  price : UInt32 := 0
  /-- `quantity`. -/
  quantity : UInt32 := 0
  /-- `user_id`. -/
  userId : ℕ := 0
  /-- `order_id`. -/
  orderId : ℕ := 0
  /-- `wal_seq`. -/
  walSeq : ℕ := 0
deriving DecidableEq, Repr

/-- `WAL_ENTRIES`: how many 40-byte entries fit in 512 MiB. -/
def walEntries : ℕ := 13421772

/-- `WalWriter`: a ring of entries in a file. -/
structure WalWriter where
  /-- `base_`. -/
  base : ℕ → WalEntry := fun _ => {}
  /-- `total_`. -/
  total : ℕ := 0

/-- `WalWriter::append`. -/
def WalWriter.append (w : WalWriter) (entry : WalEntry) : WalWriter where
  base := Function.update w.base (w.total % walEntries) entry
  total := w.total + 1

/-- `TradeEntry`. -/
structure TradeEntry where
  /-- `trade_id`. -/
  tradeId : ℕ := 0
  /-- `buy_order_id`. -/
  buyOrderId : ℕ := 0
  /-- `sell_order_id`. -/
  sellOrderId : ℕ := 0
  /-- `price`. -/
  price : UInt32 := 0
  /-- `quantity`. -/
  quantity : UInt32 := 0
  /-- `buyer_id`. -/
  buyerId : ℕ := 0
  /-- `seller_id`. -/
  sellerId : ℕ := 0
  /-- `seq`. -/
  seq : ℕ := 0
deriving DecidableEq, Repr

/-- `TRADE_CAPACITY`. -/
def tradeCapacity : ℕ := 1048576

/-- `TradePool`: the ring of recent trades. `written` is no field of the source: it keeps every
entry that has been written, also those that the ring has lost since. -/
structure TradePool where
  /-- `entries`. -/
  entries : ℕ → TradeEntry := fun _ => {}
  /-- `write_idx`. -/
  writeIdx : ℕ := 0
  /-- The entries in the order in which they were written. -/
  written : List TradeEntry := []

/-- Write one trade to the ring. -/
def TradePool.write (t : TradePool) (entry : TradeEntry) : TradePool where
  entries := Function.update t.entries (t.writeIdx % tradeCapacity) entry
  writeIdx := t.writeIdx + 1
  written := t.written ++ [entry]

/-! ### The engine -/

/-- `MatchingEngine`. -/
structure MatchingEngine where
  /-- `books_`. -/
  books : ℕ → OrderBook := fun _ => {}
  /-- `shared_pool_` and `shared_index_`. -/
  shared : Store
  /-- `next_order_id_`. -/
  nextOrderId : ℕ := 1
  /-- `next_sequence_`. -/
  nextSequence : ℕ := 1
  /-- `wal_`. -/
  wal : Option WalWriter := none
  /-- `trade_pool_`. -/
  tradePool : Option TradePool := none
  /-- The static `trade_id` of `matchBuyOrder`. -/
  buyTradeId : ℕ := 0
  /-- The static `trade_id` of `matchSellOrder`. -/
  sellTradeId : ℕ := 0

namespace MatchingEngine

/-- `kMaxLocate`. -/
def kMaxLocate : ℕ := 65536

/-- A fresh engine over a pool and an index of one capacity. -/
def new (capacity : ℕ) : MatchingEngine := { shared := SharedStore.new capacity {} }

/-- `book_for(locate)`. -/
def bookFor (e : MatchingEngine) (locate : ℕ) : Option OrderBook :=
  if locate < kMaxLocate then some (e.books locate) else none

/-- The effect of a call on the book of `locate` and on the shared store. -/
def withBook (e : MatchingEngine) (locate : ℕ) (b : OrderBook) (sh : Store) : MatchingEngine :=
  { e with books := Function.update e.books locate b, shared := sh }

/-- `wal_->append(entry)` when a log is attached. -/
def logWal (e : MatchingEngine) (entry : WalEntry) : MatchingEngine :=
  { e with wal := e.wal.map fun w => w.append entry }

/-- `book.addOrder(order)`. -/
def addOrder (e : MatchingEngine) (locate : ℕ) (order : OrderData)
    (poolNextFree : ℕ := uint32Max) : Option (Bool × MatchingEngine) :=
  ((e.books locate).addOrder e.shared order poolNextFree).map fun (ok, b, sh) =>
    (ok, e.withBook locate b sh)

/-- `book.removeOrder(order)`. -/
def removeOrder (e : MatchingEngine) (locate idx : ℕ) : Option MatchingEngine :=
  ((e.books locate).removeOrder e.shared idx).map fun (b, sh) => e.withBook locate b sh

/-- `book.reduceOrderQty(order, amount)`. -/
def reduceOrderQty (e : MatchingEngine) (locate idx : ℕ) (amount : UInt32) : MatchingEngine :=
  let (b, sh) := (e.books locate).reduceOrderQty e.shared idx amount
  e.withBook locate b sh

/-- `book.reduceQtyCancel(order, amount)`. -/
def reduceQtyCancel (e : MatchingEngine) (locate idx : ℕ) (amount : UInt32) : MatchingEngine :=
  let (b, sh) := (e.books locate).reduceQtyCancel e.shared idx amount
  e.withBook locate b sh

/-- `order->status = status`. -/
def setStatus (e : MatchingEngine) (idx : ℕ) (status : OrderStatus) : MatchingEngine :=
  { e with shared := { e.shared with
      pool := e.shared.pool.modify idx fun o => { o with status := status } } }

/-- `book.findOrder(order_id)`. -/
def findOrder (e : MatchingEngine) (orderId : ℕ) : Option (Option ℕ) :=
  OrderBook.findOrder e.shared orderId

/-! ### Matching -/

/-- `order.price < best_ask->price` for a buyer, `order.price > best_bid->price` for a seller. -/
def beyond (buy : Bool) (limit price : UInt32) : Bool :=
  if buy then decide (limit < price) else decide (price < limit)

/-- The block that writes the trade pool. The counters have 64 bits. -/
def recordTrade (e : MatchingEngine) (buy : Bool) (taker maker : OrderData) (quantity : UInt32) :
    MatchingEngine :=
  match e.tradePool with
  | none => e
  | some pool =>
    let e := if buy then { e with buyTradeId := (e.buyTradeId + 1) % 2 ^ 64 }
      else { e with sellTradeId := (e.sellTradeId + 1) % 2 ^ 64 }
    let (buyer, seller) := if buy then (taker, maker) else (maker, taker)
    { e with tradePool := some (pool.write {
        tradeId := if buy then e.buyTradeId else e.sellTradeId
        buyOrderId := buyer.orderId
        sellOrderId := seller.orderId
        price := maker.price
        quantity := quantity
        buyerId := buyer.userId
        sellerId := seller.userId
        seq := e.nextSequence }) }

/-- What the matching loop works on: the engine, the incoming order and the frames so far. -/
structure Matching where
  /-- The engine. -/
  engine : MatchingEngine
  /-- `order`, the taker. -/
  order : OrderData
  /-- `out`. -/
  out : List BinaryResponse := []

/-- The body of the matching loop: trade with the maker in slot `idx`. -/
def tradeWith (locate : ℕ) (buy : Bool) (s : Matching) (idx : ℕ) : Option Matching :=
  let maker := s.engine.shared.pool.storage idx
  let tradeQty := min s.order.remainingQty maker.remainingQty
  let order := { s.order with
    remainingQty := s.order.remainingQty - tradeQty, filledQty := s.order.filledQty + tradeQty }
  let e := s.engine.reduceOrderQty locate idx tradeQty
  let out := s.out ++ [.trade locate maker.orderId (.ofBuy !buy) maker.price tradeQty]
  let e := e.recordTrade buy order maker.toOrderData tradeQty
  let e := if (e.shared.pool.storage idx).remainingQty = 0
    then (e.setStatus idx .filled).removeOrder locate idx
    else some (e.setStatus idx .partiallyFilled)
  e.map fun e =>
    { engine := e
      order := { order with
        status := if order.remainingQty = 0 then .filled else .partiallyFilled }
      out := out }

/-- The loop of `matchBuyOrder` and `matchSellOrder`. -/
def matchLoop (locate : ℕ) (buy : Bool) : ℕ → Matching → Option Matching
  | 0, _ => none
  | fuel + 1, s =>
    if s.order.remainingQty = 0 then some s
    else ((s.engine.books locate).getBest s.engine.shared (!buy) s.order.userId).bind fun
      | none => some s
      | some idx =>
        if beyond buy s.order.price (s.engine.shared.pool.storage idx).price then some s
        else (tradeWith locate buy s idx).bind (matchLoop locate buy fuel)

/-- The common body of `matchBuyOrder` and `matchSellOrder`. Every iteration but the last removes
an order from the book, so the pool size is fuel enough. -/
def matchOrder (e : MatchingEngine) (locate : ℕ) (buy : Bool) (order : OrderData) :
    Option Matching :=
  matchLoop locate buy (e.shared.pool.capacity + 1) { engine := e, order := order }

/-- `matchBuyOrder`. -/
def matchBuyOrder (e : MatchingEngine) (locate : ℕ) (order : OrderData) : Option Matching :=
  e.matchOrder locate true order

/-- `matchSellOrder`. -/
def matchSellOrder (e : MatchingEngine) (locate : ℕ) (order : OrderData) : Option Matching :=
  e.matchOrder locate false order

/-! ### The entry points -/

/-- The extreme price a market order of that side carries. -/
def marketPrice (side : Side) : UInt32 := if side = .buy then 4294967295 else 0

/-- `canFullFill`. -/
def canFullFill (e : MatchingEngine) (b : OrderBook) (side : Side) (price quantity : UInt32) :
    Option Bool :=
  (b.availableQty e.shared side price).map fun total => quantity ≤ total

/-- The lines that hang the rest of an order in the book and answer. -/
def restOrder (locate : ℕ) (s : Matching) : Option (List BinaryResponse × MatchingEngine) :=
  (s.engine.addOrder locate s.order).map fun (ok, e) =>
    (s.out ++ [if ok then .ok s.order.orderId else .error .poolFull], e)

/-- The end of `processAdd`, after matching. -/
def finishAdd (locate : ℕ) (quantity : UInt32) (tif : OrderTif) (s : Matching) :
    Option (List BinaryResponse × MatchingEngine) :=
  if s.order.status = .filled then some (s.out ++ [.filled s.order.orderId], s.engine)
  else match tif with
    | .ioc => some (if s.order.filledQty = 0 then s.out ++ [.error .mktNoLiquidity] else s.out,
        s.engine)
    | .fok => some (if s.order.filledQty < quantity then s.out ++ [.error .fokNoFullFill]
        else s.out, s.engine)
    | .day =>
      if s.order.status = .open ∨ s.order.status = .partiallyFilled then restOrder locate s
      else some (s.out, s.engine)

/-- The order that `processAdd` matches. -/
def newOrder (e : MatchingEngine) (orderRef : ℕ) (side : Side) (price quantity : UInt32)
    (userId : ℕ) : OrderData :=
  { userId := userId, orderId := orderRef, side := side, price := price, originalQty := quantity
    remainingQty := quantity, filledQty := 0, sequence := e.nextSequence, status := .open }

/-- The matching half of `processAdd`, from the construction of the order on. -/
def acceptAdd (e : MatchingEngine) (locate orderRef : ℕ) (side : Side) (price quantity : UInt32)
    (userId : ℕ) (tif : OrderTif) : Option (List BinaryResponse × MatchingEngine) :=
  let order := e.newOrder orderRef side price quantity userId
  let e := { e with nextSequence := e.nextSequence + 1 }
  let e := e.logWal
    { type := 0x01, side := if side = .buy then 0x01 else 0x02, locate := UInt16.ofNat locate
      price := order.price, quantity := quantity, userId := userId, orderId := orderRef
      walSeq := e.nextSequence }
  (if side = .buy then e.matchBuyOrder locate order else e.matchSellOrder locate order).bind
    (finishAdd locate quantity tif)

/-- `is_market`. -/
def isMarket (tif : OrderTif) (price : UInt32) : Bool := (tif = .ioc ∨ tif = .fok) ∧ price = 0

/-- The price the order is matched at: the extreme one for a market order. -/
def effectivePrice (side : Side) (tif : OrderTif) (price : UInt32) : UInt32 :=
  if isMarket tif price then marketPrice side else price

/-- `processAdd`. -/
def processAdd (e : MatchingEngine) (locate orderRef : ℕ) (side : Side) (price quantity : UInt32)
    (userId : ℕ) (tif : OrderTif) : Option (List BinaryResponse × MatchingEngine) :=
  match e.bookFor locate with
  | none => some ([.error .invalidCommandType], e)
  | some book =>
    if side = .invalid then some ([.error .invalidSide], e)
    else if (isMarket tif price = false ∧ price = 0) ∨ quantity = 0 ∨ userId = 0 ∨ orderRef = 0 then
      some ([.error .invalidPriceQtyUser], e)
    else
      let price := effectivePrice side tif price
      if tif = .fok then
        (e.canFullFill book side price quantity).bind fun full =>
          if full then e.acceptAdd locate orderRef side price quantity userId tif
          else some ([.error .fokNoFullFill], e)
      else e.acceptAdd locate orderRef side price quantity userId tif

/-- `processCancel`. -/
def processCancel (e : MatchingEngine) (locate orderRef userId : ℕ) :
    Option (List BinaryResponse × MatchingEngine) :=
  match e.bookFor locate with
  | none => some ([.error .orderNotFound], e)
  | some book =>
    let e := e.logWal
      { type := 0x02, locate := UInt16.ofNat locate, userId := userId, orderId := orderRef
        walSeq := e.nextSequence }
    (book.removeOrderOf e.shared orderRef userId).map fun (removed, b, sh) =>
      ([if removed then .cancelled orderRef else .error .orderNotFound], e.withBook locate b sh)

/-- `processCancelShares`. -/
def processCancelShares (e : MatchingEngine) (locate orderRef : ℕ) (shares : UInt32)
    (userId : ℕ) : Option (List BinaryResponse × MatchingEngine) :=
  match e.bookFor locate with
  | none => some ([.error .orderNotFound], e)
  | some _ =>
    let e := e.logWal
      { type := 0x03, locate := UInt16.ofNat locate, quantity := shares, userId := userId
        orderId := orderRef, walSeq := e.nextSequence }
    (e.findOrder orderRef).bind fun
      | none => some ([.error .orderNotFound], e)
      | some idx =>
        if (e.shared.pool.storage idx).userId ≠ userId then some ([.error .orderNotFound], e)
        else if (e.shared.pool.storage idx).remainingQty ≤ shares then
          (e.removeOrder locate idx).map fun e => ([.cancelled orderRef], e)
        else some ([.ok orderRef], e.reduceQtyCancel locate idx shares)

/-- The end of `processReplace`, after matching. -/
def finishReplace (locate : ℕ) (s : Matching) : Option (List BinaryResponse × MatchingEngine) :=
  if s.order.status = .open ∨ s.order.status = .partiallyFilled then restOrder locate s
  else if s.order.status = .filled then some (s.out ++ [.filled s.order.orderId], s.engine)
  else some (s.out, s.engine)

/-- `processReplace`. The new order is its own user. -/
def processReplace (e : MatchingEngine) (locate oldRef newRef : ℕ) (side : Side)
    (price quantity : UInt32) (userId : ℕ) : Option (List BinaryResponse × MatchingEngine) :=
  match e.bookFor locate with
  | none => some ([.error .orderNotFound], e)
  | some _ =>
    let e := e.logWal
      { type := 0x04, locate := UInt16.ofNat locate, price := price, quantity := quantity
        userId := userId, orderId := newRef, walSeq := e.nextSequence }
    (e.findOrder oldRef).bind fun
      | none => some ([.error .orderNotFound], e)
      | some idx =>
        if (e.shared.pool.storage idx).userId ≠ userId then some ([.error .orderNotFound], e)
        else (e.removeOrder locate idx).bind fun e =>
          let order := e.newOrder newRef side price quantity newRef
          let e := { e with nextSequence := e.nextSequence + 1 }
          (if side = .buy then e.matchBuyOrder locate order
            else e.matchSellOrder locate order).bind (finishReplace locate)

/-- `processNewOrder`. -/
def processNewOrder (e : MatchingEngine) (side : Side) (price quantity : UInt32) (userId : ℕ) :
    Option (List BinaryResponse × MatchingEngine) :=
  processAdd { e with nextOrderId := e.nextOrderId + 1 } 0 e.nextOrderId side price quantity userId
    .day

/-- What rests on one side of the book of `locate`, in price-time order. -/
def resting (e : MatchingEngine) (locate : ℕ) (buy : Bool) : List OrderData :=
  (e.books locate).resting e.shared buy

end MatchingEngine

end NebulaX.Exchange
