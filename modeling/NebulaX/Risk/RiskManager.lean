import Mathlib.Algebra.BigOperators.Group.List.Basic
import Mathlib.Algebra.BigOperators.Group.Finset.Basic
import NebulaX.Oms.OrderManager

/-!
# The risk manager

`RiskManager` of `src/risk/risk_manager.h`. The three arrays over the locates are one finite map
from the locates that were written to their cells; a locate that was not written has a cell of
zeros. The atomics are plain fields, in the order the engine's lock puts their uses.

Money is an integer without bound, since overflow of a signed integer is not defined in the source.
The exception is `realized_pnl_`: it is an atomic, whose `fetch_add` wraps around like an unsigned
integer, so it is an `Int64` here.

## Main results

* `equity_eq` — the equity is the loop over all locates
-/

namespace NebulaX

/-- `kMaxLocate`. -/
def kMaxLocate : ℕ := 65536

/-- One locate of `qty_`, `avg_cost_` and `mark_price_`. -/
structure Cell where
  /-- `qty_`. -/
  qty : UInt64 := 0
  /-- `avg_cost_`. -/
  avgCost : ℤ := 0
  /-- `mark_price_`. -/
  markPrice : ℤ := 0
deriving DecidableEq, Repr

/-- The cells that were written. -/
structure Cells where
  /-- The locates and their cells. -/
  entries : List (ℕ × Cell) := []
  /-- A locate has one cell. -/
  nodup : (entries.map Prod.fst).Nodup := by decide
  /-- Only locates of the arrays have cells. -/
  lt : ∀ c ∈ entries, c.1 < kMaxLocate := by decide

/-- `locate_idx`. -/
def locateIdx (symbolId : ℕ) : ℕ := if symbolId < kMaxLocate then symbolId else 0

theorem locateIdx_lt (symbolId : ℕ) : locateIdx symbolId < kMaxLocate := by
  rw [locateIdx]
  split
  · assumption
  · decide

namespace Cells

/-- Read a cell. -/
def get (cs : Cells) (l : ℕ) : Cell := (cs.entries.lookup l).getD {}

/-- Write the cell of a symbol. -/
def set (cs : Cells) (symbolId : ℕ) (c : Cell) : Cells where
  entries := (locateIdx symbolId, c) :: cs.entries.filter fun e => e.1 ≠ locateIdx symbolId
  nodup := by
    rw [List.map_cons, List.nodup_cons]
    constructor
    · intro hm
      obtain ⟨e, he, hl⟩ := List.mem_map.mp hm
      have hne := (List.mem_filter.mp he).2
      exact absurd hl (by simpa using hne)
    · exact cs.nodup.sublist (List.filter_sublist.map _)
  lt := by
    intro e he
    rcases List.mem_cons.mp he with rfl | he
    · exact locateIdx_lt symbolId
    · exact cs.lt e (List.mem_filter.mp he).1

end Cells

/-- `RiskManager`. -/
structure RiskManager where
  /-- `qty_`, `avg_cost_` and `mark_price_`. -/
  cells : Cells := {}
  /-- `max_position_`. -/
  maxPosition : UInt64 := 100000
  /-- `max_daily_loss_`. -/
  maxDailyLoss : ℤ := 100000000
  /-- `initial_equity_`. -/
  initialEquity : ℤ := 0
  /-- `max_drawdown_pause_`. -/
  maxDrawdownPause : ℤ := 0
  /-- `max_drawdown_flatten_`. -/
  maxDrawdownFlatten : ℤ := 0
  /-- `realized_pnl_`. -/
  realizedPnl : Int64 := 0
  /-- `equity_peak_`. -/
  equityPeak : ℤ := 0

/-- What the loop of `equity` adds for a cell. -/
def Cell.floating (c : Cell) : ℤ :=
  if 0 < toSigned c.qty ∧ 0 < c.markPrice then toSigned c.qty * (c.markPrice - c.avgCost) else 0

namespace RiskManager

/-- The cell of a symbol. -/
def cell (rm : RiskManager) (symbolId : ℕ) : Cell := rm.cells.get (locateIdx symbolId)

/-- Write the cell of a symbol. -/
def setCell (rm : RiskManager) (symbolId : ℕ) (c : Cell) : RiskManager :=
  { rm with cells := rm.cells.set symbolId c }

/-- `position`. -/
def position (rm : RiskManager) (symbolId : ℕ) : UInt64 := (rm.cell symbolId).qty

/-- `equity`. A locate that was not written adds nothing. -/
def equity (rm : RiskManager) : ℤ :=
  rm.initialEquity + rm.realizedPnl.toInt + (rm.cells.entries.map fun e => e.2.floating).sum

/-- `drawdown`. -/
def drawdown (rm : RiskManager) : ℤ := rm.equityPeak - rm.equity

/-- `drawdown_paused`. -/
def drawdownPaused (rm : RiskManager) : Bool := rm.maxDrawdownPause < rm.drawdown

/-- `drawdown_flatten`. -/
def drawdownFlatten (rm : RiskManager) : Bool := rm.maxDrawdownFlatten < rm.drawdown

/-- `update_equity`. -/
def updateEquity (rm : RiskManager) : RiskManager :=
  if rm.equityPeak < rm.equity then { rm with equityPeak := rm.equity } else rm

/-- `check_order`. -/
def checkOrder (rm : RiskManager) (order : Order) : Bool :=
  if order.quantity = 0 then false
  else if rm.realizedPnl.toInt ≤ -rm.maxDailyLoss then false
  else if rm.drawdownPaused then false
  else match order.side with
    | .buy => rm.position order.symbolId + order.quantity ≤ rm.maxPosition
    | .sell => order.quantity ≤ rm.position order.symbolId
    | .none => false

/-- The branch of `on_fill` for a buyer. -/
def onBuy (rm : RiskManager) (order : Order) (filledQty : UInt64) : RiskManager :=
  let c := rm.cell order.symbolId
  let total := c.avgCost * toSigned c.qty + order.price.toInt * toSigned filledQty
  let newQty := c.qty + filledQty
  rm.setCell order.symbolId
    { c with qty := newQty, avgCost := if newQty = 0 then 0 else total.tdiv (toSigned newQty) }

/-- The branch of `on_fill` for a seller. The `fetch_add` wraps. -/
def onSell (rm : RiskManager) (order : Order) (filledQty : UInt64) : RiskManager :=
  let c := rm.cell order.symbolId
  let qty := if filledQty < c.qty then filledQty else c.qty
  let newQty := c.qty - qty
  { rm.setCell order.symbolId
      { c with qty := newQty, avgCost := if newQty = 0 then 0 else c.avgCost } with
    realizedPnl := rm.realizedPnl + .ofInt ((order.price.toInt - c.avgCost) * toSigned qty) }

/-- `on_fill`. -/
def onFill (rm : RiskManager) (order : Order) (filledQty : UInt64) : RiskManager :=
  (match order.side with
    | .buy => rm.onBuy order filledQty
    | .sell => rm.onSell order filledQty
    | .none => rm).updateEquity

/-- `mark`. -/
def mark (rm : RiskManager) (m : Mark) : RiskManager :=
  (rm.setCell m.1 { rm.cell m.1 with markPrice := m.2.toInt }).updateEquity

/-- Several marks. -/
def marks (rm : RiskManager) (ms : List Mark) : RiskManager := ms.foldl mark rm

/-- A risk manager that was configured and has seen nothing yet. -/
def IsNew (rm : RiskManager) : Prop := rm.cells.entries = [] ∧ rm.realizedPnl = 0

/-! ### The loop over all locates -/

/-- **The equity** is the sum over the whole arrays. -/
theorem equity_eq (rm : RiskManager) : rm.equity =
    rm.initialEquity + rm.realizedPnl.toInt +
      ∑ l ∈ Finset.range kMaxLocate, (rm.cells.get l).floating := by
  have hsum : ∀ es : List (ℕ × Cell), (es.map Prod.fst).Nodup → (∀ e ∈ es, e.1 < kMaxLocate) →
      (es.map fun e => e.2.floating).sum =
        ∑ l ∈ Finset.range kMaxLocate, ((es.lookup l).getD {}).floating := by
    intro es
    induction es with
    | nil =>
      intro _ _
      exact (Finset.sum_eq_zero fun l _ => rfl).symm
    | cons e es ih =>
      intro hnd hlt
      obtain ⟨hnot, hnd⟩ := List.nodup_cons.mp hnd
      have hmem : e.1 ∈ Finset.range kMaxLocate :=
        Finset.mem_range.mpr (hlt e List.mem_cons_self)
      have hzero : ((es.lookup e.1).getD {}).floating = 0 := by
        have hnone : es.lookup e.1 = none := by
          rw [List.lookup_eq_none_iff]
          intro p hp
          have hne : e.1 ≠ p.1 := fun he => hnot (he ▸ List.mem_map_of_mem hp)
          exact bne_iff_ne.mpr hne
        rw [hnone]
        rfl
      rw [List.map_cons, List.sum_cons, ih hnd fun p hp => hlt p (List.mem_cons_of_mem _ hp),
        ← Finset.add_sum_erase _ _ hmem, ← Finset.add_sum_erase _ _ hmem, hzero, zero_add]
      refine congrArg₂ (· + ·) ?_ ?_
      · rw [List.lookup_cons_self]
        rfl
      · refine Finset.sum_congr rfl fun l hl => ?_
        have hne : (l == e.1) = false := beq_eq_false_iff_ne.mpr (Finset.ne_of_mem_erase hl)
        rw [List.lookup_cons, hne]
  rw [equity, hsum rm.cells.entries rm.cells.nodup rm.cells.lt]
  rfl

end RiskManager

end NebulaX
