import NebulaX.Exchange.MatchingEngine

/-!
# What the engine does not read

A call of the engine writes to the log and to the trade pool, counts trades, and stamps orders with
sequence numbers. None of it is read again while calls are processed: priority is the order of the
level lists. `bare` forgets it, with the sequence numbers changed by a function `f` of one's choice
(the identity to keep them, a constant to forget them as well), and everything a call does to the
books commutes with it.

## Main results

* `removeOrder_bare`, `addOrder_bare`, `findOrder_bare` — the books
* `matchOrder_bare` — matching
* `enter_bare` — an incoming order, from its matching to the answer
-/

namespace NebulaX.Exchange

/-! ### Orders and stores -/

section Slots

variable (f : ℕ → ℕ)

/-- An order with its sequence number changed. -/
def OrderData.stamp (o : OrderData) : OrderData := { o with sequence := f o.sequence }

/-- The same in a slot. -/
def Order.stamp (o : Order) : Order := { o with sequence := f o.sequence }

/-- A pool with the sequence numbers of its slots changed. -/
def stampPool (pool : OrderPool Order) : OrderPool Order :=
  { pool with storage := Order.stamp f ∘ pool.storage }

/-- A store with the sequence numbers of its slots changed. -/
def stampStore (sh : Store) : Store := { sh with pool := stampPool f sh.pool }

/-- A write that does not look at the sequence number. -/
theorem modify_stamp (pool : OrderPool Order) (i : ℕ) {g g' : Order → Order}
    (hg : ∀ o, g' (o.stamp f) = (g o).stamp f) :
    (stampPool f pool).modify i g' = stampPool f (pool.modify i g) := by
  have hcomp : Function.update (Order.stamp f ∘ pool.storage) i (g' ((pool.storage i).stamp f)) =
      Order.stamp f ∘ Function.update pool.storage i (g (pool.storage i)) := by
    rw [Function.comp_update, hg]
  exact congrArg (fun st => { pool with storage := st }) hcomp

theorem allocate_stampPool (pool : OrderPool Order) :
    (stampPool f pool).allocate = pool.allocate.map fun r => (r.1, stampPool f r.2) := by
  rw [OrderPool.allocate, OrderPool.allocate]
  show (if pool.freeHead = uint32Max then none else _) = _
  split <;> rfl

theorem setNextFree_stampPool (pool : OrderPool Order) (i next : ℕ) :
    (stampPool f pool).setNextFree i next = stampPool f (pool.setNextFree i next) := rfl

theorem link_stampStore (sh : Store) (ref idx : ℕ) :
    SharedStore.link (stampStore f sh) ref idx =
      (SharedStore.link sh ref idx).map (stampStore f) := by
  rw [SharedStore.link, SharedStore.link, Option.map_map]
  rfl

theorem unlink_stampStore (sh : Store) (ref : ℕ) :
    SharedStore.unlink (stampStore f sh) ref = (SharedStore.unlink sh ref).map (stampStore f) := by
  rw [SharedStore.unlink, SharedStore.unlink, Option.map_map]
  rfl

end Slots

/-! ### Books -/

namespace OrderBook

variable (f : ℕ → ℕ) (b : OrderBook) (sh : Store)

theorem pushBack_stamp (level : PriceLevel) (pool : OrderPool Order) (idx : ℕ) (order : OrderData) :
    pushBack level (stampPool f pool) idx (order.stamp f) =
      ((pushBack level pool idx order).1, stampPool f (pushBack level pool idx order).2) := by
  rw [pushBack, pushBack]
  split
  · exact congrArg (Prod.mk _) (modify_stamp f pool idx fun _ => rfl)
  · have hwrite : (stampPool f pool).modify idx (fun _ =>
        { toOrderData := order.stamp f, prevIdx := level.tailIdx }) = stampPool f (pool.modify idx
          fun _ => { toOrderData := order, prevIdx := level.tailIdx }) :=
      modify_stamp f pool idx fun _ => rfl
    have hlink : ∀ o : Order, ({ o.stamp f with nextIdx := idx } : Order) =
        ({ o with nextIdx := idx } : Order).stamp f := fun _ => rfl
    rw [hwrite, modify_stamp f _ _ hlink]

theorem addOrder_stamp (order : OrderData) :
    b.addOrder (stampStore f sh) (order.stamp f) =
      (b.addOrder sh order).map fun r => (r.1, r.2.1, stampStore f r.2.2) := by
  rw [addOrder, addOrder]
  show (if order.side = .invalid then _ else _) = _
  by_cases hside : order.side = .invalid
  · rw [if_pos hside, if_pos hside]
    rfl
  rw [if_neg hside, if_neg hside]
  have halloc : (stampStore f sh).pool.allocate =
      sh.pool.allocate.map fun r => (r.1, stampPool f r.2) := allocate_stampPool f sh.pool
  rw [halloc]
  cases sh.pool.allocate with
  | none => rfl
  | some r =>
    obtain ⟨idx, pool⟩ := r
    simp only [Option.map_some, setNextFree_stampPool, pushBack_stamp]
    show Option.map _ (SharedStore.link (stampStore f { sh with pool := (pushBack ((b.level?
      order.side.isBuy order.price).getD {}) (pool.setNextFree idx uint32Max) idx order).2 })
        order.orderId idx) = _
    rw [link_stampStore, Option.map_map, Option.map_map]
    rfl

theorem reduceOrderQty_stamp (idx : ℕ) (amount : UInt32) :
    b.reduceOrderQty (stampStore f sh) idx amount =
      ((b.reduceOrderQty sh idx amount).1, stampStore f (b.reduceOrderQty sh idx amount).2) := by
  have hwrite : ∀ o : Order, ({ o.stamp f with
      remainingQty := o.remainingQty - amount, filledQty := o.filledQty + amount } : Order) =
        ({ o with
          remainingQty := o.remainingQty - amount
          filledQty := o.filledQty + amount } : Order).stamp
            f := fun _ => rfl
  exact congrArg (fun pool => (b.decTotal (sh.pool.storage idx).side.isBuy
    (sh.pool.storage idx).price amount, ({ sh with pool := pool } : Store)))
      (modify_stamp f sh.pool idx hwrite)

theorem setNextIdx_stamp (pool : OrderPool Order) (idx next : ℕ) :
    setNextIdx (stampPool f pool) idx next = stampPool f (setNextIdx pool idx next) := by
  rw [setNextIdx, setNextIdx]
  split
  · exact modify_stamp f pool idx fun _ => rfl
  · rfl

theorem setPrevIdx_stamp (pool : OrderPool Order) (idx prev : ℕ) :
    setPrevIdx (stampPool f pool) idx prev = stampPool f (setPrevIdx pool idx prev) := by
  rw [setPrevIdx, setPrevIdx]
  split
  · exact modify_stamp f pool idx fun _ => rfl
  · rfl

theorem unlinkSlot_stamp (pool : OrderPool Order) (idx : ℕ) :
    unlinkSlot (stampPool f pool) idx = stampPool f (unlinkSlot pool idx) := by
  have hnext : setNextIdx (stampPool f pool) ((stampPool f pool).storage idx).prevIdx
      ((stampPool f pool).storage idx).nextIdx = stampPool f (setNextIdx pool
        (pool.storage idx).prevIdx (pool.storage idx).nextIdx) := setNextIdx_stamp f ..
  rw [unlinkSlot, hnext]
  exact setPrevIdx_stamp f ..

theorem removeOrder_stamp (idx : ℕ) :
    b.removeOrder (stampStore f sh) idx =
      (b.removeOrder sh idx).map fun r => (r.1, stampStore f r.2) := by
  rw [removeOrder, removeOrder]
  have hlevel : b.level? ((stampStore f sh).pool.storage idx).side.isBuy
      ((stampStore f sh).pool.storage idx).price =
        b.level? (sh.pool.storage idx).side.isBuy (sh.pool.storage idx).price := rfl
  simp only [hlevel]
  cases b.level? (sh.pool.storage idx).side.isBuy (sh.pool.storage idx).price with
  | none => rfl
  | some level =>
    have hunlink : unlinkSlot (stampStore f sh).pool idx = stampPool f (unlinkSlot sh.pool idx) :=
      unlinkSlot_stamp f ..
    simp only [hunlink]
    show Option.map _ (SharedStore.unlink (stampStore f { sh with pool := unlinkSlot sh.pool idx })
      ((unlinkSlot sh.pool idx).storage idx).orderId) = _
    rw [unlink_stampStore, Option.map_map, Option.map_map]
    rfl

theorem firstOther_stamp (storage : ℕ → Order) (user fuel idx : ℕ) :
    firstOther (Order.stamp f ∘ storage) user fuel idx = firstOther storage user fuel idx := by
  induction fuel generalizing idx with
  | zero => rfl
  | succ fuel ih =>
    rw [firstOther, firstOther, ih]
    rfl

theorem firstOtherIn_stamp (storage : ℕ → Order) (user fuel : ℕ)
    (levels : List (UInt32 × PriceLevel)) :
    firstOtherIn (Order.stamp f ∘ storage) fuel user levels =
      firstOtherIn storage fuel user levels := by
  induction levels with
  | nil => rfl
  | cons level levels ih =>
    rw [firstOtherIn, firstOtherIn, firstOther_stamp, ih]

theorem getBest_stamp (buy : Bool) (user : ℕ) :
    b.getBest (stampStore f sh) buy user = b.getBest sh buy user := by
  rw [getBest, getBest]
  cases (b.levels buy).entries with
  | nil => rfl
  | cons level levels =>
    show (if user = 0 then _ else firstOtherIn (Order.stamp f ∘ sh.pool.storage) _ _ _) = _
    rw [firstOtherIn_stamp]
    rfl

/-- What rests, up to the sequence numbers. -/
theorem resting_stamp (buy : Bool) :
    b.resting (stampStore f sh) buy = (b.resting sh buy).map (OrderData.stamp f) := by
  rw [resting, resting, List.map_flatMap]
  refine congrArg (fun g => List.flatMap g _) (funext fun level => ?_)
  obtain ⟨p, level⟩ := level
  rw [List.map_map]
  rfl

end OrderBook

/-! ### The engine -/

namespace MatchingEngine

variable (f : ℕ → ℕ) (e : MatchingEngine)

/-- **The engine without what it does not read**: no log, no trade pool and no counters, and the
sequence numbers changed by `f`. -/
def bare : MatchingEngine where
  books := e.books
  shared := stampStore f e.shared
  nextSequence := f e.nextSequence

/-- What rests in it. -/
theorem resting_bare (L : ℕ) (b : Bool) :
    (e.bare f).resting L b = (e.resting L b).map (OrderData.stamp f) :=
  OrderBook.resting_stamp f ..

theorem bare_recordTrade (buy : Bool) (taker maker : OrderData) (q : UInt32) :
    (e.recordTrade buy taker maker q).bare f = e.bare f := by
  rw [recordTrade]
  cases e.tradePool with
  | none => rfl
  | some pool => cases buy <;> rfl

theorem findOrder_bare (ref : ℕ) : (e.bare f).findOrder ref = e.findOrder ref := rfl

theorem addOrder_bare (L : ℕ) (order : OrderData) :
    (e.bare f).addOrder L (order.stamp f) =
      (e.addOrder L order).map fun r => (r.1, r.2.bare f) := by
  rw [addOrder, addOrder, Option.map_map]
  exact (congrArg _ (OrderBook.addOrder_stamp f ..)).trans (Option.map_map ..)

theorem removeOrder_bare (L idx : ℕ) :
    (e.bare f).removeOrder L idx = (e.removeOrder L idx).map (bare f) := by
  rw [removeOrder, removeOrder, Option.map_map]
  exact (congrArg _ (OrderBook.removeOrder_stamp f ..)).trans (Option.map_map ..)

theorem reduceOrderQty_bare (L idx : ℕ) (amount : UInt32) :
    (e.bare f).reduceOrderQty L idx amount = (e.reduceOrderQty L idx amount).bare f := by
  have hbook := OrderBook.reduceOrderQty_stamp f (e.books L) e.shared idx amount
  exact congrArg (fun r : OrderBook × Store => (e.bare f).withBook L r.1 r.2) hbook

theorem setStatus_bare (idx : ℕ) (status : OrderStatus) :
    (e.bare f).setStatus idx status = (e.setStatus idx status).bare f := by
  exact congrArg (fun pool => ({ e.bare f with
    shared := { stampStore f e.shared with pool := pool } } : MatchingEngine))
      (modify_stamp f e.shared.pool idx fun _ => rfl)

/-! ### Matching -/

/-- The same for what the matching loop works on. -/
def Matching.bare (s : Matching) : Matching where
  engine := s.engine.bare f
  order := s.order.stamp f
  out := s.out

/-- The maker after a trade: it leaves the book or stays with less. -/
theorem settle_bare (L idx : ℕ) :
    (if ((e.bare f).shared.pool.storage idx).remainingQty = 0
      then ((e.bare f).setStatus idx .filled).removeOrder L idx
      else some ((e.bare f).setStatus idx .partiallyFilled)) =
    (if (e.shared.pool.storage idx).remainingQty = 0
      then (e.setStatus idx .filled).removeOrder L idx
      else some (e.setStatus idx .partiallyFilled)).map (bare f) := by
  rw [setStatus_bare, setStatus_bare, removeOrder_bare]
  show (if (e.shared.pool.storage idx).remainingQty = 0 then _ else _) = _
  split <;> rfl

theorem tradeWith_bare (L : ℕ) (buy : Bool) (s : Matching) (idx : ℕ) :
    tradeWith L buy (s.bare f) idx = (tradeWith L buy s idx).map (Matching.bare f) := by
  have hrecord : ∀ taker maker taker' maker' q,
      ((s.bare f).engine.reduceOrderQty L idx q).recordTrade buy taker' maker' q =
        ((s.engine.reduceOrderQty L idx q).recordTrade buy taker maker q).bare f := by
    intro taker maker taker' maker' q
    rw [bare_recordTrade, ← reduceOrderQty_bare]
    rfl
  rw [tradeWith, tradeWith, Option.map_map]
  have hq : min (s.bare f).order.remainingQty
      ((s.bare f).engine.shared.pool.storage idx).remainingQty =
        min s.order.remainingQty (s.engine.shared.pool.storage idx).remainingQty := rfl
  simp only [hq]
  generalize min s.order.remainingQty (s.engine.shared.pool.storage idx).remainingQty = q
  rw [hrecord { s.order with
    remainingQty := s.order.remainingQty - q, filledQty := s.order.filledQty + q }
      (s.engine.shared.pool.storage idx).toOrderData, settle_bare, Option.map_map]
  rfl

/-- **The matching loop** commutes with forgetting. -/
theorem matchLoop_bare (L : ℕ) (buy : Bool) (fuel : ℕ) (s : Matching) :
    matchLoop L buy fuel (s.bare f) = (matchLoop L buy fuel s).map (Matching.bare f) := by
  induction fuel generalizing s with
  | zero => rfl
  | succ fuel ih =>
    rw [matchLoop, matchLoop]
    show (if s.order.remainingQty = 0 then _ else _) = _
    split
    · rfl
    have hbest : ((s.bare f).engine.books L).getBest (s.bare f).engine.shared (!buy)
        (s.bare f).order.userId = (s.engine.books L).getBest s.engine.shared (!buy)
          s.order.userId := OrderBook.getBest_stamp f ..
    rw [hbest]
    cases (s.engine.books L).getBest s.engine.shared (!buy) s.order.userId with
    | none => rfl
    | some found =>
      cases found with
      | none => rfl
      | some idx =>
        simp only [Option.bind_some]
        show (if beyond buy s.order.price (s.engine.shared.pool.storage idx).price = true
          then _ else _) = _
        split
        · rfl
        · rw [tradeWith_bare]
          cases tradeWith L buy s idx with
          | none => rfl
          | some s₁ => exact ih s₁

theorem matchOrder_bare (L : ℕ) (buy : Bool) (order : OrderData) :
    (e.bare f).matchOrder L buy (order.stamp f) =
      (e.matchOrder L buy order).map (Matching.bare f) :=
  matchLoop_bare f L buy _ { engine := e, order := order }

/-! ### The rest of an incoming order -/

theorem restOrder_bare (L : ℕ) (s : Matching) :
    restOrder L (s.bare f) = (restOrder L s).map fun r => (r.1, r.2.bare f) := by
  have hadd : (s.bare f).engine.addOrder L (s.bare f).order =
      (s.engine.addOrder L s.order).map fun r => (r.1, r.2.bare f) := addOrder_bare f ..
  rw [restOrder, hadd, Option.map_map, restOrder, Option.map_map]
  rfl

theorem finishReplace_bare (L : ℕ) (s : Matching) :
    finishReplace L (s.bare f) = (finishReplace L s).map fun r => (r.1, r.2.bare f) := by
  rw [finishReplace, finishReplace, restOrder_bare]
  show (if s.order.status = .open ∨ s.order.status = .partiallyFilled then _
    else if s.order.status = .filled then _ else _) = _
  split
  · rfl
  split <;> rfl

/-- **An incoming order** matches and rests in the same way. -/
theorem enter_bare (L : ℕ) (buy : Bool) (order : OrderData) :
    ((e.matchOrder L buy order).bind (finishReplace L)).map (fun r => (r.1, r.2.bare f)) =
      ((e.bare f).matchOrder L buy (order.stamp f)).bind (finishReplace L) := by
  rw [matchOrder_bare]
  cases e.matchOrder L buy order with
  | none => rfl
  | some s => exact (finishReplace_bare f L s).symm

end MatchingEngine

end NebulaX.Exchange
