import NebulaX.Core.MarketEvent
import NebulaX.Memory.SharedStore
import NebulaX.Market.PriceLevelTable

/-!
# The book of the strategy side

`OrderBook` of `src/market/book/order_book.h`. It does not match: it follows the events of the
exchange. All books of a view keep their orders in one pool and find them through one index.

New orders go to the front of their level. `unlink_and_free` takes the original quantity of the
order off the level's total, and `dec_level_qty` erases a level whose total becomes zero; both are
kept as they are.

A call returns the book and the store it leaves, after the result the source returns. `none` is a
call that does not return.
-/

namespace NebulaX.Market

/-- `OrderBook::OrderSlotView`: the fields of a slot that are about the order. -/
structure OrderSlotView where
  /-- `order_ref`. -/
  orderRef : ℕ := 0
  /-- `side`. -/
  side : OrderSide := .none
  /-- `price`. -/
  price : Int64 := 0
  /-- `shares`, the original quantity. -/
  shares : UInt64 := 0
  /-- `remaining`. -/
  remaining : UInt64 := 0
  /-- `sequence`. -/
  sequence : ℕ := 0
deriving DecidableEq, Repr

/-- `OrderSlot`. -/
structure OrderSlot extends OrderSlotView where
  /-- `prev_idx`. -/
  prevIdx : ℕ := uint32Max
  /-- `next_idx`. -/
  nextIdx : ℕ := uint32Max
deriving DecidableEq, Repr

/-- The pool and the index that the books of a view share. -/
abbrev Store := SharedStore OrderSlot

/-- The side of the book an order goes to: `side == OrderSide::BUY`. -/
def OrderSlotView.isBuy (s : OrderSlotView) : Bool := s.side = .buy

/-- `OrderBook`, without its references to the shared pool and index. -/
structure OrderBook where
  /-- `bids_`. -/
  bids : PriceLevelTable := .new true 10
  /-- `asks_`. -/
  asks : PriceLevelTable := .new false 10

namespace OrderBook

/-- `(side == OrderSide::BUY) ? bids_ : asks_`. -/
def levels (b : OrderBook) (buy : Bool) : PriceLevelTable := if buy then b.bids else b.asks

/-- Write one of the tables. -/
def setLevels (b : OrderBook) (buy : Bool) (t : PriceLevelTable) : OrderBook :=
  if buy then { b with bids := t } else { b with asks := t }

/-! ### Adding -/

/-- What `add` writes to the level. -/
def pushLevel (idx : ℕ) (shares : UInt64) (lvl : PriceLevel) : PriceLevel where
  headIdx := idx
  tailIdx := if lvl.tailIdx = uint32Max then idx else lvl.tailIdx
  count := lvl.count + 1
  totalQty := lvl.totalQty + shares.toUInt32

/-- The links that `add` writes. -/
def pushSlot (pool : OrderPool OrderSlot) (idx : ℕ) (lvl : PriceLevel) : OrderPool OrderSlot :=
  if lvl.headIdx ≠ uint32Max then
    (pool.modify lvl.headIdx fun o => { o with prevIdx := idx }).modify idx fun o =>
      { o with nextIdx := lvl.headIdx }
  else pool

/-- `add`: the slot of the new order, `UINT32_MAX` when the pool is full. -/
def add (b : OrderBook) (sh : Store) (orderRef : ℕ) (side : OrderSide) (price : Int64)
    (shares : UInt64) (sequence : ℕ) : Option (ℕ × OrderBook × Store) :=
  match sh.pool.allocate with
  | none => some (uint32Max, b, sh)
  | some (idx, pool) =>
    let s : OrderSlotView :=
      { orderRef := orderRef, side := side, price := price, shares := shares, remaining := shares
        sequence := sequence }
    let pool := pool.modify idx fun _ => { toOrderSlotView := s }
    ((b.levels s.isBuy).update price (pushLevel idx shares)).bind fun (lvl, t) =>
      (SharedStore.link { sh with pool := pushSlot pool idx lvl } orderRef idx).map fun sh =>
        (idx, b.setLevels s.isBuy t, sh)

/-! ### Taking off -/

/-- The neighbour writes of `unlink_and_free`. -/
def unlinkSlot (pool : OrderPool OrderSlot) (s : OrderSlot) : OrderPool OrderSlot :=
  let pool := if s.prevIdx ≠ uint32Max
    then pool.modify s.prevIdx fun o => { o with nextIdx := s.nextIdx } else pool
  if s.nextIdx ≠ uint32Max then pool.modify s.nextIdx fun o => { o with prevIdx := s.prevIdx }
  else pool

/-- What `unlink_and_free` writes to the level. -/
def unlinkLevel (s : OrderSlot) (lvl : PriceLevel) : PriceLevel where
  headIdx := if s.prevIdx ≠ uint32Max then lvl.headIdx else s.nextIdx
  tailIdx := if s.nextIdx ≠ uint32Max then lvl.tailIdx else s.prevIdx
  count := lvl.count - 1
  totalQty := lvl.totalQty - s.shares.toUInt32

/-- `unlink_and_free`. -/
def unlinkAndFree (b : OrderBook) (sh : Store) (idx : ℕ) : Option (OrderBook × Store) :=
  let s := sh.pool.storage idx
  ((b.levels s.isBuy).update s.price (unlinkLevel s)).map fun (lvl, t) =>
    let t := if (unlinkLevel s lvl).count = 0 then t.erase s.price else t
    (b.setLevels s.isBuy t, { sh with pool := (unlinkSlot sh.pool s).deallocate idx })

/-- `dec_level_qty`. -/
def decLevelQty (b : OrderBook) (buy : Bool) (price : Int64) (shares : UInt64) :
    Option OrderBook :=
  ((b.levels buy).update price fun lvl =>
    { lvl with totalQty := lvl.totalQty - shares.toUInt32 }).map fun (lvl, t) =>
      b.setLevels buy (if lvl.totalQty - shares.toUInt32 = 0 then t.erase price else t)

/-- `unlink_and_free(s); order_index_.erase(order_ref)`. -/
def release (b : OrderBook) (sh : Store) (idx orderRef : ℕ) : Option (OrderBook × Store) :=
  (b.unlinkAndFree sh idx).bind fun (b, sh) => (sh.unlink orderRef).map fun sh => (b, sh)

/-- `remove`. -/
def remove (b : OrderBook) (sh : Store) (orderRef : ℕ) : Option (Bool × OrderBook × Store) :=
  (sh.index.find orderRef).bind fun
    | none => some (false, b, sh)
    | some idx => (b.release sh idx orderRef).map fun (b, sh) => (true, b, sh)

/-- The common body of `cancel` and `execute`. -/
def reduce (b : OrderBook) (sh : Store) (orderRef : ℕ) (shares : UInt64) :
    Option (Bool × OrderBook × Store) :=
  (sh.index.find orderRef).bind fun
    | none => some (false, b, sh)
    | some idx =>
      let s := sh.pool.storage idx
      let shares := if s.remaining < shares then s.remaining else shares
      let sh := { sh with
        pool := sh.pool.modify idx fun o => { o with remaining := o.remaining - shares } }
      (b.decLevelQty s.isBuy s.price shares).bind fun b =>
        if s.remaining - shares = 0
        then (b.release sh idx orderRef).map fun (b, sh) => (true, b, sh)
        else some (true, b, sh)

/-- `cancel`. -/
def cancel (b : OrderBook) (sh : Store) (orderRef : ℕ) (cancelledShares : UInt64) :
    Option (Bool × OrderBook × Store) :=
  b.reduce sh orderRef cancelledShares

/-- `execute`. -/
def execute (b : OrderBook) (sh : Store) (orderRef : ℕ) (executedShares : UInt64) :
    Option (Bool × OrderBook × Store) :=
  b.reduce sh orderRef executedShares

/-- `replace`. -/
def replace (b : OrderBook) (sh : Store) (oldRef newRef : ℕ) (side : OrderSide)
    (newPrice : Int64) (newShares : UInt64) (newSequence : ℕ) :
    Option (Bool × OrderBook × Store) :=
  (sh.index.find oldRef).bind fun
    | none => some (false, b, sh)
    | some idx =>
      let seq := if newSequence ≠ 0 then newSequence else (sh.pool.storage idx).sequence
      (b.remove sh oldRef).bind fun (_, b, sh) =>
        (b.add sh newRef side newPrice newShares seq).map fun (idx, b, sh) =>
          (idx ≠ uint32Max, b, sh)

/-! ### Queries -/

/-- `get`. -/
def get (sh : Store) (orderRef : ℕ) : Option (Option OrderSlotView) :=
  (sh.index.find orderRef).map fun found =>
    found.map fun idx => (sh.pool.storage idx).toOrderSlotView

/-- `side_of`. -/
def sideOf (sh : Store) (orderRef : ℕ) : Option OrderSide :=
  (get sh orderRef).map fun found => (found.map OrderSlotView.side).getD .none

/-- The common body of `best_bid` and `best_ask`. -/
def best (b : OrderBook) (buy : Bool) : Int64 :=
  if (b.levels buy).empty then -1 else (b.levels buy).best

/-- `best_bid`. -/
def bestBid (b : OrderBook) : Int64 := b.best true

/-- `best_ask`. -/
def bestAsk (b : OrderBook) : Int64 := b.best false

/-- `best_bid_volume` and `best_ask_volume`. -/
def bestVolume (b : OrderBook) (buy : Bool) : UInt64 := (b.levels buy).bestQty

/-- `empty`. -/
def empty (b : OrderBook) : Bool := b.bids.empty && b.asks.empty

end OrderBook

end NebulaX.Market
