import Mathlib.Logic.Function.Basic
import NebulaX.Core.Order

/-!
# The order flow imbalance strategy

`StrategyT` and `BookContext` of `src/strategy/base/strategy.h`, and the strategy of
`src/strategy/tick/order_flow_imbalance_strategy.h`. It adds up signed quantities over the last
`kWindow` events and turns the sum into a direction and a strength.

The direction of an event is found out by the caller. An event without one is skipped.

## Main results

* `onMarket_records`, `onMarket_skips` — which events enter the window, and with what
-/

namespace NebulaX

/-- `BookContext`, without its pointer to the book. -/
structure BookContext where
  /-- `side`. -/
  side : OrderSide := .none
  /-- `mid`. -/
  mid : Int64 := -1
  /-- `bid`. -/
  bid : Int64 := -1
  /-- `bid_vol`. -/
  bidVol : UInt64 := 0
  /-- `ask`. -/
  ask : Int64 := -1
  /-- `ask_vol`. -/
  askVol : UInt64 := 0
  /-- `seq`. -/
  seq : ℕ := 0
deriving DecidableEq, Repr

/-- `StrategyT`: what a worker calls on a strategy of state `S`. -/
structure StrategyT (S : Type) where
  /-- `on_market`. -/
  onMarket : MarketEvent → BookContext → S → S
  /-- `signal`. -/
  signal : S → Signal

/-- `OrderFlowImbalanceStrategy`. -/
structure OrderFlowImbalanceStrategy where
  /-- `threshold_`. -/
  threshold : Int64 := 500
  /-- `ofi_`. -/
  ofi : Int64 := 0
  /-- `win_`. -/
  win : ℕ → Int64 := fun _ => 0
  /-- `widx_`. -/
  widx : ℕ := 0
  /-- `current_`. -/
  current : OrderSide := .none
  /-- `locate_`. -/
  locate : ℕ := 0
  /-- `last_price_`. -/
  lastPrice : Int64 := 0
  /-- `last_ts_`. -/
  lastTs : ℕ := 0
  /-- `strength_`. -/
  strength : Int64 := 0

namespace OrderFlowImbalanceStrategy

/-- `kWindow`. -/
def kWindow : ℕ := 1024

/-- `kSaturate`. -/
def kSaturate : Int64 := 2

/-- The `switch` of `on_event`. -/
def delta (ev : MarketEvent) (side : OrderSide) : Int64 :=
  match ev.body with
  | .add o => if side = .buy then o.shares.toInt64 else -o.shares.toInt64
  | .delete o | .cancel o => if side = .buy then -o.shares.toInt64 else o.shares.toInt64
  | .replace o => if side = .buy then o.shares.toInt64 else -o.shares.toInt64
  | .execute t | .trade t => if side = .buy then -t.volume.toInt64 else t.volume.toInt64

/-- The lines of `on_event` that move the window. -/
def slide (s : OrderFlowImbalanceStrategy) (delta : Int64) : OrderFlowImbalanceStrategy :=
  let s := if s.widx < kWindow then { s with win := Function.update s.win s.widx delta }
    else { s with
      ofi := s.ofi - s.win (s.widx % kWindow)
      win := Function.update s.win (s.widx % kWindow) delta }
  { s with ofi := s.ofi + delta, widx := s.widx + 1 }

/-- The lines of `on_event` that find direction and strength. -/
def judge (s : OrderFlowImbalanceStrategy) : OrderFlowImbalanceStrategy :=
  let current : OrderSide := if s.threshold < s.ofi then .buy
    else if s.ofi < -s.threshold then .sell else .none
  let mag := if 0 < s.ofi then s.ofi else -s.ofi
  let excess := mag - s.threshold
  let span := s.threshold * (kSaturate - 1)
  { s with
    current := current
    strength := if current = .none then 0
      else if span ≤ excess then Signal.kStrengthScale else excess * Signal.kStrengthScale / span }

/-- `on_event`. -/
def onEvent (s : OrderFlowImbalanceStrategy) (ev : MarketEvent) (side : OrderSide) :
    OrderFlowImbalanceStrategy :=
  ({ s with locate := ev.locate, lastTs := ev.timestamp }.slide (delta ev side)).judge

/-- `on_market`. -/
def onMarket (ev : MarketEvent) (ctx : BookContext) (s : OrderFlowImbalanceStrategy) :
    OrderFlowImbalanceStrategy :=
  let s := if ctx.side ≠ .none then s.onEvent ev ctx.side else s
  if 0 ≤ ctx.bid ∧ 0 ≤ ctx.ask then { s with lastPrice := ctx.mid } else s

/-- `signal`. -/
def signal (s : OrderFlowImbalanceStrategy) : Signal where
  side := s.current
  locate := s.locate
  price := s.lastPrice
  timestamp := s.lastTs
  strength := s.strength

/-- The strategy as a worker sees it. -/
def strategy : StrategyT OrderFlowImbalanceStrategy := ⟨onMarket, signal⟩

/-! ### The window -/

/-- What leaves the window when something enters. -/
def evicted (s : OrderFlowImbalanceStrategy) : Int64 :=
  if s.widx < kWindow then 0 else s.win (s.widx % kWindow)

/-- Going from `s` to `s'`, the strategy recorded `d`: it stands in the window and is in the
sum. -/
structure Records (s s' : OrderFlowImbalanceStrategy) (d : Int64) : Prop where
  /-- One more was recorded. -/
  widx : s'.widx = s.widx + 1
  /-- It is `d`. -/
  win : s'.win = Function.update s.win (s.widx % kWindow) d
  /-- The sum follows. -/
  ofi : s'.ofi = s.ofi - s.evicted + d

variable {s : OrderFlowImbalanceStrategy} {ev : MarketEvent} {ctx : BookContext}

/-- What `on_event` records. -/
theorem onEvent_records (s : OrderFlowImbalanceStrategy) (ev : MarketEvent) (side : OrderSide) :
    Records s (s.onEvent ev side) (delta ev side) := by
  by_cases hw : s.widx < kWindow
  · constructor
    · simp only [onEvent, judge, slide, if_pos hw]
    · simp only [onEvent, judge, slide, if_pos hw, Nat.mod_eq_of_lt hw]
    · simp only [onEvent, judge, slide, if_pos hw, evicted]
      rw [Int64.sub_zero]
  · constructor
    · simp only [onEvent, judge, slide, if_neg hw]
    · simp only [onEvent, judge, slide, if_neg hw]
    · simp only [onEvent, judge, slide, if_neg hw, evicted]

/-- **An event with a direction** is recorded. -/
theorem onMarket_records (h : ctx.side ≠ .none) :
    Records s (onMarket ev ctx s) (delta ev ctx.side) := by
  have hevent := s.onEvent_records ev ctx.side
  rw [onMarket]
  simp only [if_pos h]
  split
  · exact ⟨hevent.widx, hevent.win, hevent.ofi⟩
  · exact hevent

/-- **An event without one** is not. -/
theorem onMarket_skips (h : ctx.side = .none) : (onMarket ev ctx s).widx = s.widx := by
  rw [onMarket]
  simp only [if_neg (not_not.mpr h)]
  split <;> rfl

end OrderFlowImbalanceStrategy

end NebulaX
