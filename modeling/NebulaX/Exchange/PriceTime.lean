import NebulaX.Exchange.EngineRuns

/-!
# Price-time priority

What `matchBuyOrder` and `matchSellOrder` do to any book an engine can get into, as a comparison
with a reference allocation that knows nothing of levels, slots and links: take the opposite
orders of other users within the limit, best price first and in their order of arrival at a
price, and fill them one after the other.

The references are part of the contract (`Command.Allowed`). A call that names the wrong locate
for its reference, or a new order under a reference that is in use, leaves levels behind that hide
orders from the loop: `out_of_contract_hides_orders`.

## Main results

* `matching_priceTime` — the loop ends in the state of the reference allocation
-/

namespace NebulaX.Exchange

open MatchingEngine

/-- The opposite orders an incoming order may trade with, in the order it meets them. -/
def eligibleOrders (e : MatchingEngine) (L : ℕ) (buy : Bool) (order : OrderData) :
    List OrderData :=
  (e.resting L !buy).filter (eligible buy order)

/-- The reference allocation of an incoming order in a book. -/
def referenceFills (e : MatchingEngine) (L : ℕ) (buy : Bool) (order : OrderData) :
    List (OrderData × ℕ) :=
  Allocation.allocate qtyOf (qtyOf order) (eligibleOrders e L buy order)

/-- The end of matching `order` in `e`, according to the reference allocation. -/
structure PriceTime (e : MatchingEngine) (L : ℕ) (buy : Bool) (order : OrderData) (s : Matching) :
    Prop where
  /-- The orders are taken by price, then by their place in the queue. -/
  sorted : (eligibleOrders e L buy order).Pairwise (priority !buy)
  /-- The frames are the trades of the allocation, at the makers' references and prices. -/
  frames : s.out = (referenceFills e L buy order).map (tradeFrame L buy)
  /-- On the opposite side every order becomes what its trade leaves of it: nothing if it was
  used up, the order cut down if it was not, and the order itself if it did not trade. -/
  opposite : s.engine.resting L (!buy) = (e.resting L !buy).filterMap
    (Allocation.after OrderData.orderId qtyOf partly (referenceFills e L buy order))
  /-- At most one trade leaves something of the maker. -/
  one_partial : ((referenceFills e L buy order).filter fun f => f.2 ≠ qtyOf f.1).length ≤ 1
  /-- The other sides of all books are as they were. -/
  elsewhere : ∀ L' b, ¬(L' = L ∧ b = !buy) → s.engine.resting L' b = e.resting L' b
  /-- What remains of the incoming order. -/
  remaining : qtyOf s.order =
    qtyOf order - ((eligibleOrders e L buy order).map qtyOf).sum

/-- In every well-formed engine. -/
theorem matchOrder_priceTime {e : MatchingEngine} (h : Inv e) (L : ℕ) (buy : Bool)
    (order : OrderData) : ∃ s, e.matchOrder L buy order = some s ∧ PriceTime e L buy order s := by
  obtain ⟨G, fl, h⟩ := h
  obtain ⟨s, G', taken, hs, -, hrest, horder, hout, -⟩ :=
    matchOrder_spec h L buy order
  refine ⟨s, hs, ⟨(h.resting_sorted L !buy).filter _, hout, ?_, Allocation.allocate_partial _ _,
    fun L' b hne => ?_, ?_⟩⟩
  · rw [hrest, setSide_self, leftBehind,
      Allocation.sweep_eq_filterMap (h.resting_refs_nodup L !buy)]
    rfl
  · rw [hrest, setSide_of_ne _ _ _ _ hne]
  · rw [horder, qtyOf_afterFills, filledQtyOf_fills, eligibleOrders]
    omega

/-- **Matching is price-time priority** in every reachable book, for every incoming order. -/
theorem matching_priceTime {e : MatchingEngine} (h : Reachable e) (L : ℕ) (order : OrderData) :
    (∃ s, e.matchBuyOrder L order = some s ∧ PriceTime e L true order s) ∧
      ∃ s, e.matchSellOrder L order = some s ∧ PriceTime e L false order s :=
  ⟨matchOrder_priceTime h.inv L true order, matchOrder_priceTime h.inv L false order⟩

/-- A buyer of 10 without a user of its own. -/
def anyBuyer : OrderData where
  userId := 0
  orderId := 9
  side := .buy
  price := 200
  originalQty := 10
  remainingQty := 10
  filledQty := 0
  sequence := 9
  status := .open

theorem matching_priceTime_two : ∃ e,
    (new 4).execAll [.add 0 1 .sell 100 5 7 .day, .add 0 2 .sell 101 6 8 .day] = some e ∧
      ∃ s, e.matchBuyOrder 0 anyBuyer = some s ∧ PriceTime e 0 true anyBuyer s := by
  obtain ⟨e, hrun, he⟩ := reachable_execAll 4
    [.add 0 1 .sell 100 5 7 .day, .add 0 2 .sell 101 6 8 .day] (by decide) (by decide)
      (by decide +kernel)
  exact ⟨e, hrun, (matching_priceTime he 0 anyBuyer).1⟩

/-- Without the contract the loop can miss orders. First run: a partial cancel under the wrong
locate creates an empty level in front of an order. Second run: after two orders under one
reference, a cancel takes a slot that was freed before, and the level is dropped while it still
holds orders. -/
theorem out_of_contract_hides_orders :
    (∃ e, (new 4).execAll [.add 0 1 .sell 100 5 7 .day, .cancelShares 1 1 3 7,
        .add 1 2 .sell 101 5 8 .day] = some e ∧
      (referenceFills e 1 true anyBuyer).map (tradeFrame 1 true) = [.trade 1 2 .sell 101 5] ∧
      (e.matchBuyOrder 1 anyBuyer).map Matching.out = some []) ∧
    ∃ e, (new 4).execAll [.add 0 1 .sell 100 5 7 .day, .add 0 1 .sell 100 5 8 .day,
        .add 0 2 .sell 100 5 8 .day, .add 0 3 .buy 100 5 9 .day, .cancel 0 1 7] = some e ∧
      (referenceFills e 0 true anyBuyer).map (tradeFrame 0 true) =
        [.trade 0 1 .sell 100 5, .trade 0 2 .sell 100 5] ∧
      (e.matchBuyOrder 0 anyBuyer).map Matching.out = some [.trade 0 1 .sell 100 5] := by
  constructor
  · refine ⟨_, (Option.some_get (?_ : Option.isSome _)).symm, ?_, ?_⟩ <;> decide +kernel
  · refine ⟨_, (Option.some_get (?_ : Option.isSome _)).symm, ?_, ?_⟩ <;> decide +kernel

end NebulaX.Exchange
