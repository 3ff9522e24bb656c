import NebulaX.Memory.SharedStore
import NebulaX.Lib.SortedMap
import Mathlib.Order.RelClasses

/-!
# The authoritative order book

`src/exchange/order.h`, `order_book.h` and `order_book.cpp`. A book is two ordered maps from
prices to levels, bids from the highest price down and asks from the lowest up. A level is the
head and tail of a doubly linked list through the pool, with a count and a total.

An `Order*` is a slot index. Both sides of the book are the same code at the two price orders, so
every definition takes the side as a parameter `buy`; the members the source spells out twice
keep their names.

Calls that walk a list take the length of the pool as fuel. A walk that runs out of it has visited
some slot twice and would never end: it is `none`, like an index call that does not return.
-/

namespace NebulaX.Exchange

/-- `Side`. -/
inductive Side
  | invalid
  | buy
  | sell
deriving DecidableEq, Repr

/-- `side == Side::BUY`. -/
def Side.isBuy : Side → Bool
  | buy => true
  | _ => false

/-- `Side::BUY` or `Side::SELL`. -/
def Side.ofBuy (buy : Bool) : Side := if buy then .buy else .sell

@[simp] theorem Side.isBuy_ofBuy (b : Bool) : (Side.ofBuy b).isBuy = b := by cases b <;> rfl

@[simp] theorem Side.ofBuy_ne_invalid (b : Bool) : Side.ofBuy b ≠ .invalid := by
  cases b <;> decide

theorem Side.ofBuy_isBuy {s : Side} (hs : s ≠ .invalid) : Side.ofBuy s.isBuy = s := by
  cases s with
  | invalid => exact absurd rfl hs
  | buy => rfl
  | sell => rfl

/-- `OrderStatus`. -/
inductive OrderStatus
  | open
  | partiallyFilled
  | filled
  | cancelled
deriving DecidableEq, Repr

/-- `Order` without its list links. -/
structure OrderData where
  /-- `user_id`. -/
  userId : ℕ := 0
  /-- `order_id`. -/
  orderId : ℕ := 0
  /-- `side`. -/
  side : Side := .invalid
  /-- `price`. -/
  price : UInt32 := 0
  /-- `original_qty`. -/
  originalQty : UInt32 := 0
  /-- `remaining_qty`. -/
  remainingQty : UInt32 := 0
  /-- `filled_qty`. -/
  filledQty : UInt32 := 0
  /-- `sequence`. -/
  sequence : ℕ := 0
  /-- `status`. -/
  status : OrderStatus := .open
deriving DecidableEq, Repr

/-- `Order`, the slot type of the pool. -/
structure Order extends OrderData where
  /-- `prev_idx`. -/
  prevIdx : ℕ := uint32Max
  /-- `next_idx`. -/
  nextIdx : ℕ := uint32Max
deriving DecidableEq, Repr

/-- The pool and index shared by all books of an engine. -/
abbrev Store := SharedStore Order

/-! ### Levels -/

/-- The price order of a side: highest bid first, lowest ask first. -/
def better (buy : Bool) (p q : UInt32) : Prop := if buy then q < p else p < q

instance (buy : Bool) : DecidableRel (better buy) := fun p q => by
  unfold better
  infer_instance

theorem better_iff {buy : Bool} {p q : UInt32} :
    better buy p q ↔ if buy then q.toNat < p.toNat else p.toNat < q.toNat := by
  cases buy <;> simp [better, UInt32.lt_iff_toNat_lt]

instance (buy : Bool) : IsStrictTotalOrder UInt32 (better buy) where
  trichotomous p q hpq hqp := by
    rw [better_iff] at hpq hqp
    rw [← UInt32.toNat_inj]
    cases buy <;> simp at hpq hqp <;> omega
  irrefl p := by
    rw [better_iff]
    cases buy <;> simp
  trans p q r hpq hqr := by
    rw [better_iff] at *
    cases buy <;> simp at * <;> omega

/-- `PriceLevel`. -/
structure PriceLevel where
  /-- `head_idx`. -/
  headIdx : ℕ := uint32Max
  /-- `tail_idx`. -/
  tailIdx : ℕ := uint32Max
  /-- `count`. -/
  count : UInt32 := 0
  /-- `total_qty`. -/
  totalQty : UInt32 := 0
deriving DecidableEq, Repr

/-- `OrderBook`, without its pointers to the shared pool and index. -/
structure OrderBook where
  /-- `bids_`. -/
  bids : SortedMap (better true) PriceLevel := .empty
  /-- `asks_`. -/
  asks : SortedMap (better false) PriceLevel := .empty

namespace OrderBook

/-- The levels of one side. -/
def levels (b : OrderBook) : (buy : Bool) → SortedMap (better buy) PriceLevel
  | true => b.bids
  | false => b.asks

/-- The level at a price. -/
def level? (b : OrderBook) (buy : Bool) (price : UInt32) : Option PriceLevel :=
  (b.levels buy).get? price

/-- Write the level at a price. -/
def setLevel (b : OrderBook) (buy : Bool) (price : UInt32) (level : PriceLevel) : OrderBook :=
  match buy with
  | true => { b with bids := b.bids.set price level }
  | false => { b with asks := b.asks.set price level }

/-- Erase the level at a price. -/
def eraseLevel (b : OrderBook) (buy : Bool) (price : UInt32) : OrderBook :=
  match buy with
  | true => { b with bids := b.bids.erase price }
  | false => { b with asks := b.asks.erase price }

section Levels

variable (b : OrderBook) {s s' : Bool} (p : UInt32) (l : PriceLevel)

@[simp] theorem levels_setLevel_self : (b.setLevel s p l).levels s = (b.levels s).set p l := by
  cases s <;> rfl

theorem levels_setLevel_of_ne (h : s' ≠ s) : (b.setLevel s p l).levels s' = b.levels s' := by
  cases s <;> cases s' <;> first | rfl | exact absurd rfl h

@[simp] theorem levels_eraseLevel_self : (b.eraseLevel s p).levels s = (b.levels s).erase p := by
  cases s <;> rfl

theorem levels_eraseLevel_of_ne (h : s' ≠ s) : (b.eraseLevel s p).levels s' = b.levels s' := by
  cases s <;> cases s' <;> first | rfl | exact absurd rfl h

theorem level?_setLevel (s' : Bool) (q : UInt32) :
    (b.setLevel s p l).level? s' q = if s' = s ∧ q = p then some l else b.level? s' q := by
  by_cases hs : s' = s
  · subst hs
    simp only [level?, levels_setLevel_self, SortedMap.get?_set, true_and]
  · simp only [level?, levels_setLevel_of_ne b p l hs, hs, false_and, if_false]

theorem level?_eraseLevel (s' : Bool) (q : UInt32) :
    (b.eraseLevel s p).level? s' q = if s' = s ∧ q = p then none else b.level? s' q := by
  by_cases hs : s' = s
  · subst hs
    simp only [level?, levels_eraseLevel_self, SortedMap.get?_erase, true_and]
  · simp only [level?, levels_eraseLevel_of_ne b p hs, hs, false_and, if_false]

end Levels

/-! ### Adding -/

/-- The list half of `addOrder`: write the order to its slot and hang it behind the tail. -/
def pushBack (level : PriceLevel) (pool : OrderPool Order) (idx : ℕ) (order : OrderData) :
    PriceLevel × OrderPool Order :=
  if level.count = 0 then
    ({ level with headIdx := idx, tailIdx := idx },
      pool.modify idx fun _ => { toOrderData := order })
  else
    ({ level with tailIdx := idx },
      (pool.modify idx fun _ =>
        { toOrderData := order, prevIdx := level.tailIdx }).modify level.tailIdx
        fun o => { o with nextIdx := idx })

/-- `addOrder(order)`: `false` when the side is invalid or the pool is full. The assignment
`*new_order = order` copies `pool_next_free` of the order too, which is `UINT32_MAX` in an order
that is not itself a copy of a slot. -/
def addOrder (b : OrderBook) (sh : Store) (order : OrderData) (poolNextFree : ℕ := uint32Max) :
    Option (Bool × OrderBook × Store) :=
  if order.side = .invalid then some (false, b, sh)
  else match sh.pool.allocate with
    | none => some (false, b, sh)
    | some (idx, pool) =>
      let buy := order.side.isBuy
      let pool := pool.setNextFree idx poolNextFree
      let (level, pool) := pushBack ((b.level? buy order.price).getD {}) pool idx order
      let level := { level with
        count := level.count + 1, totalQty := level.totalQty + order.remainingQty }
      (SharedStore.link { sh with pool := pool } order.orderId idx).map fun sh =>
        (true, b.setLevel buy order.price level, sh)

/-! ### Reducing -/

/-- `level.total_qty -= amount` on the level `bids_[price]` or `asks_[price]`. -/
def decTotal (b : OrderBook) (buy : Bool) (price amount : UInt32) : OrderBook :=
  let level := (b.level? buy price).getD {}
  b.setLevel buy price { level with totalQty := level.totalQty - amount }

/-- `reduceOrderQty(order, amount)`: the order trades. -/
def reduceOrderQty (b : OrderBook) (sh : Store) (idx : ℕ) (amount : UInt32) : OrderBook × Store :=
  let order := sh.pool.storage idx
  (b.decTotal order.side.isBuy order.price amount,
    { sh with pool := sh.pool.modify idx fun o =>
        { o with remainingQty := o.remainingQty - amount, filledQty := o.filledQty + amount } })

/-- `reduceQtyCancel(order, amount)`: part of the order is cancelled. -/
def reduceQtyCancel (b : OrderBook) (sh : Store) (idx : ℕ) (amount : UInt32) : OrderBook × Store :=
  let order := sh.pool.storage idx
  (b.decTotal order.side.isBuy order.price amount,
    { sh with pool := sh.pool.modify idx fun o =>
        { o with remainingQty := o.remainingQty - amount } })

/-! ### Removing -/

/-- Write the forward link of a slot, if there is one. -/
def setNextIdx (pool : OrderPool Order) (idx next : ℕ) : OrderPool Order :=
  if idx ≠ uint32Max then pool.modify idx fun o => { o with nextIdx := next } else pool

/-- Write the back link of a slot, if there is one. -/
def setPrevIdx (pool : OrderPool Order) (idx prev : ℕ) : OrderPool Order :=
  if idx ≠ uint32Max then pool.modify idx fun o => { o with prevIdx := prev } else pool

/-- The neighbour writes of `removeOrder`. -/
def unlinkSlot (pool : OrderPool Order) (idx : ℕ) : OrderPool Order :=
  let pool := setNextIdx pool (pool.storage idx).prevIdx (pool.storage idx).nextIdx
  setPrevIdx pool (pool.storage idx).nextIdx (pool.storage idx).prevIdx

/-- `removeOrder(Order*)`. Nothing happens when the book has no level at the order's price. -/
def removeOrder (b : OrderBook) (sh : Store) (idx : ℕ) : Option (OrderBook × Store) :=
  let order := sh.pool.storage idx
  let buy := order.side.isBuy
  match b.level? buy order.price with
  | none => some (b, sh)
  | some level =>
    let pool := unlinkSlot sh.pool idx
    let order := pool.storage idx
    let level := { level with
      headIdx := if level.headIdx = idx then order.nextIdx else level.headIdx
      tailIdx := if level.tailIdx = idx then order.prevIdx else level.tailIdx
      count := level.count - 1
      totalQty := level.totalQty - order.remainingQty }
    let b := if level.count = 0 then b.eraseLevel buy order.price
      else b.setLevel buy order.price level
    (SharedStore.unlink { sh with pool := pool } order.orderId).map fun sh =>
      (b, { sh with pool := sh.pool.deallocate idx })

/-- `removeOrder(order_id, user_id)`: `false` when there is no such order of that user. -/
def removeOrderOf (b : OrderBook) (sh : Store) (orderId userId : ℕ) :
    Option (Bool × OrderBook × Store) :=
  (sh.index.find orderId).bind fun
    | none => some (false, b, sh)
    | some idx =>
      if (sh.pool.storage idx).userId ≠ userId then some (false, b, sh)
      else (b.removeOrder sh idx).map fun (b, sh) => (true, b, sh)

/-- `findOrder(order_id)`. -/
def findOrder (sh : Store) (orderId : ℕ) : Option (Option ℕ) := sh.index.find orderId

/-! ### The best order -/

/-- Walk a level from `idx` to the first order of another user. -/
def firstOther (storage : ℕ → Order) (user : ℕ) : ℕ → ℕ → Option (Option ℕ)
  | 0, _ => none
  | fuel + 1, idx =>
    if idx = uint32Max then some none
    else if (storage idx).userId ≠ user then some (some idx)
    else firstOther storage user fuel (storage idx).nextIdx

/-- Walk the levels, best price first, to the first order of another user. -/
def firstOtherIn (storage : ℕ → Order) (fuel user : ℕ) :
    List (UInt32 × PriceLevel) → Option (Option ℕ)
  | [] => some none
  | (_, level) :: rest => (firstOther storage user fuel level.headIdx).bind fun
    | some idx => some (some idx)
    | none => firstOtherIn storage fuel user rest

/-- The common body of `getBestBid` and `getBestAsk`. -/
def getBest (b : OrderBook) (sh : Store) (buy : Bool) (excludeUserId : ℕ) : Option (Option ℕ) :=
  match (b.levels buy).entries with
  | [] => some none
  | (price, level) :: rest =>
    if excludeUserId = 0 then some (if 0 < level.count then some level.headIdx else none)
    else firstOtherIn sh.pool.storage (sh.pool.capacity + 1) excludeUserId ((price, level) :: rest)

/-- `getBestBid(exclude_user_id)`. -/
def getBestBid (b : OrderBook) (sh : Store) (excludeUserId : ℕ) : Option (Option ℕ) :=
  b.getBest sh true excludeUserId

/-- `getBestAsk(exclude_user_id)`. -/
def getBestAsk (b : OrderBook) (sh : Store) (excludeUserId : ℕ) : Option (Option ℕ) :=
  b.getBest sh false excludeUserId

/-! ### The quantity on offer -/

/-- Add up the remaining quantities of a level from `idx` on. -/
def sumQty (storage : ℕ → Order) : ℕ → ℕ → UInt32 → Option UInt32
  | 0, _, _ => none
  | fuel + 1, idx, total =>
    if idx = uint32Max then some total
    else sumQty storage fuel (storage idx).nextIdx (total + (storage idx).remainingQty)

/-- Add up the levels until the first one beyond the price limit. -/
def sumLevels (storage : ℕ → Order) (fuel : ℕ) (beyond : UInt32 → Bool) :
    List (UInt32 × PriceLevel) → UInt32 → Option UInt32
  | [], total => some total
  | (p, level) :: rest, total =>
    if beyond p then some total
    else (sumQty storage fuel level.headIdx total).bind (sumLevels storage fuel beyond rest)

/-- `availableQty(side, price)`: what a taker of that side finds within its limit. -/
def availableQty (b : OrderBook) (sh : Store) (side : Side) (price : UInt32) : Option UInt32 :=
  if side = .buy then
    sumLevels sh.pool.storage (sh.pool.capacity + 1) (fun p => price < p) b.asks.entries 0
  else
    sumLevels sh.pool.storage (sh.pool.capacity + 1) (fun p => p < price) b.bids.entries 0

/-! ### What rests in a book -/

/-- The slots of a level, from head to tail. -/
def levelSlots (sh : Store) (level : PriceLevel) : List ℕ :=
  LinkedList.walk (fun i => (sh.pool.storage i).nextIdx) uint32Max sh.pool.capacity level.headIdx

/-- The orders on one side of a book, in price-time order. -/
def resting (b : OrderBook) (sh : Store) (buy : Bool) : List OrderData :=
  (b.levels buy).entries.flatMap fun (_, level) =>
    (levelSlots sh level).map fun i => (sh.pool.storage i).toOrderData

end OrderBook

end NebulaX.Exchange
