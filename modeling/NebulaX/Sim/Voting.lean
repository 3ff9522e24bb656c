import NebulaX.Exchange.SimulatorRuns
import NebulaX.Execution.Steps
import NebulaX.Sim.SimWorker
import NebulaX.Strategy.Arbitrate
import NebulaX.Strategy.OrderBookImbalance

/-!
# The window of a worker

At the end of a segment a worker lets its strategies vote and sends one order: `arbitrate` of
`src/sim/sim_worker.h`. The votes decide on the side. The symbol is that of the primary strategy,
whatever it voted for.

Every strategy has the symbol of the last event it took, and they do not take the same events. So
the symbol of an order may be one that no strategy has a signal for: `order_without_vote`.

## Main results

* `exists_voter` — a decision has a voter
* `arbitrate_votes` — what is known of the side and the symbol of an order
-/

namespace NebulaX

open Market (OrderBookConsumer)

/-- `kStrengthStep`. -/
def kStrengthStep : ℤ := 500

/-- `SimWorker`, with what it trades by. -/
structure TradingWorker (S : Type) extends SimWorker S where
  /-- `weight_bp_`. -/
  weightBp : ℕ → ℤ := fun _ => 0
  /-- `primary_idx_`. -/
  primaryIdx : ℕ := 0
  /-- `threshold_bp_`. -/
  thresholdBp : ℤ := 0
  /-- `strategy_id_`. -/
  strategyId : ℕ := 1
  /-- `max_position_`. -/
  maxPosition : UInt64 := 10000
  /-- `last_side_`. -/
  lastSide : OrderSide := .none
  /-- `last_str_`. -/
  lastStr : ℤ := -1

namespace TradingWorker

variable {S X : Type}

/-- `from_signal`. -/
def fromSignal (s : Signal) : ArbSignal where
  side := s.side
  locate := s.locate
  strength := s.strength.toInt
  seq := s.timestamp

/-- `on_market_event`. -/
def onMarketEvent (sts : Strategies S) (w : TradingWorker S) (ev : MarketEvent)
    (view : OrderBookConsumer) : Option (List Mark × TradingWorker S) :=
  (SimWorker.onMarketEvent sts w.toSimWorker ev view).map fun (marks, listener) =>
    (marks, { w with toSimWorker := listener })

/-- The decision on the signals of the strategies. -/
def decide (sts : Strategies S) (w : TradingWorker S) : ArbDecision :=
  arbitrateDecide (fun i => fromSignal ((sts.signals w.strategies).get i)) (fun i => w.weightBp i)
    w.primaryIdx w.thresholdBp

/-- `blocked`: the position does not allow the side. -/
def blocked (w : TradingWorker S) (position : UInt64) (dir : OrderSide) : Bool :=
  (dir = .buy ∧ w.maxPosition ≤ position) ∨ (dir = .sell ∧ position = 0)

/-- `fresh_dir` or `strength_ge`: the side is another one, or the strength has jumped. -/
def renewed (w : TradingWorker S) (d : ArbDecision) : Bool :=
  d.dir ≠ w.lastSide ∨ w.lastStr + kStrengthStep ≤ d.strength

/-- `on_segment_all`. -/
def onSegmentAll (onSegment : ℕ → S → S) (segment : ℕ) (w : TradingWorker S) : TradingWorker S :=
  { w with strategies := onSegment segment w.strategies }

/-- `arbitrate`, with the hook of the strategies given, and with the signal it submits, if it
does. -/
def arbitrate (sts : Strategies S) (onSegment : ℕ → S → S)
    (exchange : Option (IExchangeSimulator X)) (segment : ℕ) (w : TradingWorker S)
    (s : ExecutionEngine × X) :
    Option (Option Signal × TradingWorker S × ExecutionEngine × X) :=
  let w := w.onSegmentAll onSegment segment
  let d := w.decide sts
  if !d.act then some (none, w, s)
  else if w.blocked (s.1.riskManager.position d.locate) d.dir || !w.renewed d then some (none, w, s)
  else
    let decision : Signal := { side := d.dir, locate := d.locate, price := 0, timestamp := 0
                               strength := Int64.ofInt d.strength }
    (ExecutionEngine.submitSignal exchange decision w.strategyId .market s).map fun (oid, s) =>
      (some decision,
        if oid ≠ 0 then { w with lastSide := d.dir, lastStr := d.strength } else w, s)

/-! ### Runs -/

/-- **What a worker goes through**: broadcasts, which it hears when the view has applied them, and
ends of segments, at which the execution engine and the exchange are in any state. -/
inductive Worked (sts : Strategies S) (onSegment : ℕ → S → S)
    (exchange : Option (IExchangeSimulator X)) (w₀ : TradingWorker S) (c₀ : OrderBookConsumer) :
    TradingWorker S → OrderBookConsumer → Prop
  | start : Worked sts onSegment exchange w₀ c₀ w₀ c₀
  | event {w w' : TradingWorker S} {c c' : OrderBookConsumer} {marks : List Mark}
      (ev : MarketEvent) (h : Worked sts onSegment exchange w₀ c₀ w c)
      (hview : c.onEvent ev = some c') (hcall : w.onMarketEvent sts ev c' = some (marks, w')) :
      Worked sts onSegment exchange w₀ c₀ w' c'
  | segment {w w' : TradingWorker S} {c : OrderBookConsumer} {s s' : ExecutionEngine × X}
      {order : Option Signal} (n : ℕ) (h : Worked sts onSegment exchange w₀ c₀ w c)
      (hcall : w.arbitrate sts onSegment exchange n s = some (order, w', s')) :
      Worked sts onSegment exchange w₀ c₀ w' c

/-- The configuration of a worker. -/
def config (w : TradingWorker S) : (ℕ → ℤ) × ℕ × ℤ := (w.weightBp, w.primaryIdx, w.thresholdBp)

section Steps

variable {sts : Strategies S} {onSegment : ℕ → S → S} {exchange : Option (IExchangeSimulator X)}
  {w w' : TradingWorker S} {s s' : ExecutionEngine × X}

/-- **What a window does**: nothing, or it submits a decision that is to be acted on. -/
theorem arbitrate_cases {n : ℕ} {order : Option Signal}
    (h : w.arbitrate sts onSegment exchange n s = some (order, w', s')) :
    w'.strategies = onSegment n w.strategies ∧ w'.config = w.config ∧
      ∀ sig, order = some sig → ((w.onSegmentAll onSegment n).decide sts).act = true ∧
        sig.side = ((w.onSegmentAll onSegment n).decide sts).dir ∧
        sig.locate = ((w.onSegmentAll onSegment n).decide sts).locate := by
  rw [arbitrate] at h
  dsimp only at h
  split at h
  · obtain ⟨rfl, heq⟩ := Prod.mk.inj (Option.some.inj h)
    obtain ⟨rfl, rfl⟩ := Prod.mk.inj heq
    exact ⟨rfl, rfl, fun sig hsig => absurd hsig (by simp)⟩
  · next hact =>
    split at h
    · obtain ⟨rfl, heq⟩ := Prod.mk.inj (Option.some.inj h)
      obtain ⟨rfl, rfl⟩ := Prod.mk.inj heq
      exact ⟨rfl, rfl, fun sig hsig => absurd hsig (by simp)⟩
    · obtain ⟨⟨oid, s₁⟩, -, heq⟩ := Option.map_eq_some_iff.mp h
      obtain ⟨horder, heq⟩ := Prod.mk.inj heq
      obtain ⟨hw, -⟩ := Prod.mk.inj heq
      refine ⟨?_, ?_, fun sig hsig => ?_⟩
      · rw [← hw]
        split <;> rfl
      · rw [← hw]
        split <;> rfl
      · obtain rfl := Option.some.inj (horder.trans hsig)
        exact ⟨by simpa using hact, rfl, rfl⟩

/-- **The configuration stays** through a run. -/
theorem Worked.config_eq {w₀ : TradingWorker S} {c₀ c : OrderBookConsumer}
    (h : Worked sts onSegment exchange w₀ c₀ w c) : w.config = w₀.config := by
  induction h with
  | start => rfl
  | event ev _ _ hcall ih =>
    obtain ⟨⟨marks, listener⟩, -, heq⟩ := Option.map_eq_some_iff.mp hcall
    obtain ⟨rfl, rfl⟩ := Prod.mk.inj heq
    exact ih
  | segment n _ hcall ih => exact (arbitrate_cases hcall).2.1.trans ih

end Steps

/-! ### Votes -/

/-- **A decision to act** has the symbol of the primary, and a strategy of some weight that voted
for its side. -/
theorem exists_voter {n : ℕ} {sigs : Fin n → ArbSignal} {weightsBp : Fin n → ℤ} {primaryIdx : ℕ}
    {thresholdBp : ℤ} (hweights : ∀ i, 0 ≤ weightsBp i) (hthreshold : 0 ≤ thresholdBp)
    (hact : (arbitrateDecide sigs weightsBp primaryIdx thresholdBp).act = true) :
    ∃ h : primaryIdx < n,
      (arbitrateDecide sigs weightsBp primaryIdx thresholdBp).locate =
        (sigs ⟨primaryIdx, h⟩).locate ∧
      ∃ i, 0 < weightsBp i ∧
        (sigs i).side = (arbitrateDecide sigs weightsBp primaryIdx thresholdBp).dir := by
  rw [arbitrateDecide] at hact ⊢
  split at hact
  · next hprimary =>
    dsimp only at hact
    split at hact
    · exact absurd hact Bool.false_ne_true
    · next hdir =>
      rw [dif_pos hprimary]
      dsimp only
      rw [if_neg hdir]
      obtain ⟨-, hpos⟩ := sideWeight_pos hweights hthreshold rfl hdir
      obtain ⟨i, hi, hweight⟩ := Finset.exists_lt_of_sum_lt
        (show ∑ i ∈ voters sigs (decided (netBp sigs weightsBp) thresholdBp), (0 : ℤ) <
          ∑ i ∈ voters sigs (decided (netBp sigs weightsBp) thresholdBp), weightsBp i by
            rw [Finset.sum_const_zero]
            exact hpos)
      exact ⟨hprimary, rfl, i, hweight, (Finset.mem_filter.mp hi).2⟩
  · exact absurd hact Bool.false_ne_true

/-- Some strategy has a signal for the side and the symbol of an order. -/
def VotedFor (sts : Strategies S) (w : TradingWorker S) (order : Signal) : Prop :=
  ∃ vote ∈ sts.signals w.strategies, vote.side = order.side ∧ vote.locate = order.locate

/-- **What is known of an order** that a worker submits, after any broadcasts and windows, with
weights and a threshold that are not negative: its symbol is that of the signal of the primary, and
some strategy of weight has a signal for its side. If the primary is for this side, or is the only
strategy, the two come together. -/
theorem arbitrate_votes {sts : Strategies S} {onSegment : ℕ → S → S}
    {exchange : Option (IExchangeSimulator X)} {w₀ w w' : TradingWorker S}
    {c₀ c : OrderBookConsumer} {s s' : ExecutionEngine × X} {n : ℕ} {order : Signal}
    (h : Worked sts onSegment exchange w₀ c₀ w c) (hweights : ∀ i, 0 ≤ w₀.weightBp i)
    (hthreshold : 0 ≤ w₀.thresholdBp)
    (hcall : w.arbitrate sts onSegment exchange n s = some (some order, w', s')) :
    ∃ primary, (sts.signals w'.strategies)[w₀.primaryIdx]? = some primary ∧
      order.locate = primary.locate ∧
      (∃ i vote, (sts.signals w'.strategies)[i]? = some vote ∧ 0 < w₀.weightBp i ∧
        vote.side = order.side) ∧
      (primary.side = order.side ∨ (sts.signals w'.strategies).length = 1 →
        w'.VotedFor sts order) := by
  have hconfig := h.config_eq
  obtain ⟨hstrategies, -, hdecision⟩ := arbitrate_cases hcall
  obtain ⟨hact, hside, hlocate⟩ := hdecision order rfl
  obtain ⟨hweight, hrest⟩ := Prod.mk.inj hconfig
  obtain ⟨hprimary, hbound⟩ := Prod.mk.inj hrest
  rw [hstrategies, ← hprimary, ← hweight]
  rw [← hweight] at hweights
  rw [← hbound] at hthreshold
  obtain ⟨hlt, hsymbol, i, hpos, hvote⟩ := exists_voter (fun i => hweights i) hthreshold hact
  have hsame : order.locate = ((sts.signals (onSegment n w.strategies)).get
      ⟨w.primaryIdx, hlt⟩).locate := hlocate.trans hsymbol
  have hfor : ((sts.signals (onSegment n w.strategies)).get i).side = order.side :=
    hvote.trans hside.symm
  refine ⟨_, List.getElem?_eq_getElem hlt, hsame, ⟨i, _, List.getElem?_eq_getElem i.isLt, hpos,
    hfor⟩, fun hboth => ?_⟩
  rw [VotedFor, hstrategies]
  refine ⟨_, List.getElem_mem hlt, ?_, hsame.symm⟩
  rcases hboth with hagrees | hone
  · exact hagrees
  · -- the only strategy is the primary, and it voted
    have hindex : i = ⟨w.primaryIdx, hlt⟩ := by
      have hi : i.val < (sts.signals (onSegment n w.strategies)).length := i.isLt
      have hlt' : w.primaryIdx < (sts.signals (onSegment n w.strategies)).length := hlt
      refine Fin.ext ?_
      show i.val = w.primaryIdx
      omega
    rw [← hfor, hindex]
    rfl

/-! ### Two strategies and two symbols -/

/-- The order flow and the order book strategy. -/
def flowAndBook : Strategies (OrderFlowImbalanceStrategy × OrderBookImbalanceStrategy × Unit) :=
  .cons OrderFlowImbalanceStrategy.strategy (.cons OrderBookImbalanceStrategy.strategy .nil)

/-- Broadcasts one after the other. -/
def hears (sts : Strategies S) :
    List MarketEvent → TradingWorker S → OrderBookConsumer →
      Option (TradingWorker S × OrderBookConsumer)
  | [], w, c => some (w, c)
  | ev :: evs, w, c => (c.onEvent ev).bind fun c' =>
    (w.onMarketEvent sts ev c').bind fun r => hears sts evs r.2 c'

theorem Worked.hears {sts : Strategies S} {onSegment : ℕ → S → S}
    {exchange : Option (IExchangeSimulator X)} {w₀ w w' : TradingWorker S}
    {c₀ c c' : OrderBookConsumer} {evs : List MarketEvent}
    (h : Worked sts onSegment exchange w₀ c₀ w c)
    (hrun : TradingWorker.hears sts evs w c = some (w', c')) :
    Worked sts onSegment exchange w₀ c₀ w' c' := by
  induction evs generalizing w c with
  | nil =>
    obtain ⟨rfl, rfl⟩ := Prod.mk.inj (Option.some.inj hrun)
    exact h
  | cons ev evs ih =>
    obtain ⟨c₁, hview, hrun⟩ := Option.bind_eq_some_iff.mp hrun
    obtain ⟨⟨marks, w₁⟩, hcall, hrun⟩ := Option.bind_eq_some_iff.mp hrun
    exact ih (h.event ev hview hcall) hrun

/-- A bid of 100 and an offer of 1 for symbol 2, a bid of 10 for symbol 1, and a cancel of an order
of symbol 2 that is not known. -/
def twoSymbols : List MarketEvent :=
  [⟨2, 1, .add { side := .buy, price := 10, shares := 100, orderRef := 1 }⟩,
    ⟨2, 2, .add { side := .sell, price := 11, shares := 1, orderRef := 2 }⟩,
    ⟨1, 3, .add { side := .buy, price := 10, shares := 10, orderRef := 3 }⟩,
    ⟨2, 4, .cancel { shares := 5, orderRef := 9 }⟩]

/-- With the order book strategy for the primary, the order is for the symbol it is about. -/
theorem arbitrate_votes_two : ∃ w c order w' s',
    hears flowAndBook twoSymbols { strategies := ({}, {}, ()), weightBp := fun _ => 10000
                                   primaryIdx := 1 } (.new 4) = some (w, c) ∧
      w.arbitrate flowAndBook (fun _ s => s) (some ExchangeSimulator.interface) 1
        ({}, .new 4 none fun _ _ => []) = some (some order, w', s') ∧
      order.side = .buy ∧ order.locate = 2 ∧
      ∃ (i : ℕ) (vote : Signal), (flowAndBook.signals w'.strategies)[i]? = some vote ∧
        vote.side = .buy := by
  have hread : (hears flowAndBook twoSymbols
    { strategies := ({}, {}, ()), weightBp := fun _ => 10000
      primaryIdx := 1 } (.new 4)).bind (fun p =>
      (p.1.arbitrate flowAndBook (fun _ s => s) (some ExchangeSimulator.interface) 1
        ({}, .new 4 none fun _ _ => [])).bind fun r => r.1.map fun order =>
          (order.side, order.locate)) = some (.buy, 2) := by decide +kernel
  obtain ⟨⟨w, c⟩, hrun, hread⟩ := Option.bind_eq_some_iff.mp hread
  obtain ⟨⟨result, w', s'⟩, hcall, hread⟩ := Option.bind_eq_some_iff.mp hread
  obtain ⟨order, horder, heq⟩ := Option.map_eq_some_iff.mp hread
  obtain rfl : result = some order := horder
  obtain ⟨hside, hlocate⟩ := Prod.mk.inj heq
  obtain ⟨-, -, -, ⟨i, vote, hvote, -, hfor⟩, -⟩ :=
    arbitrate_votes (Worked.start.hears hrun) (fun _ => Int.natCast_nonneg 10000) (by decide) hcall
  exact ⟨w, c, order, w', s', hrun, hcall, hside, hlocate, i, vote, hvote, hfor.trans hside⟩

/-- With the order flow strategy for the primary, it is for the symbol that this one saw last, for
which no strategy has a signal. And with a threshold below zero an order is submitted that no
strategy voted for at all. -/
theorem order_without_vote :
    (∃ w c order w' s',
      hears flowAndBook twoSymbols { strategies := ({}, {}, ()), weightBp := fun _ => 10000 }
        (.new 4) = some (w, c) ∧
      w.arbitrate flowAndBook (fun _ s => s) (some ExchangeSimulator.interface) 1
        ({}, .new 4 none fun _ _ => []) = some (some order, w', s') ∧
      order.side = .buy ∧ order.locate = 1 ∧
      (flowAndBook.signals w'.strategies).map (fun vote => (vote.side, vote.locate)) =
        [(.none, 1), (.buy, 2)] ∧
      ¬ w'.VotedFor flowAndBook order) ∧
    ∃ order w' s', ({ strategies := ({}, {}, ()), weightBp := fun _ => 10000
                      thresholdBp := -1 } : TradingWorker _).arbitrate flowAndBook (fun _ s => s)
        (some ExchangeSimulator.interface) 1 ({}, .new 4 none fun _ _ => []) =
          some (some order, w', s') ∧
      order.side = .buy ∧
      (flowAndBook.signals w'.strategies).map (fun vote => vote.side) = [.none, .none] ∧
      ¬ w'.VotedFor flowAndBook order := by
  constructor
  · have hread : (hears flowAndBook twoSymbols
        { strategies := ({}, {}, ()), weightBp := fun _ => 10000 } (.new 4)).bind (fun p =>
        (p.1.arbitrate flowAndBook (fun _ s => s) (some ExchangeSimulator.interface) 1
          ({}, .new 4 none fun _ _ => [])).bind fun r => r.1.map fun order =>
            (order.side, order.locate, (flowAndBook.signals r.2.1.strategies).map fun vote =>
              (vote.side, vote.locate))) = some (.buy, 1, [(.none, 1), (.buy, 2)]) := by
      decide +kernel
    obtain ⟨⟨w, c⟩, hrun, hread⟩ := Option.bind_eq_some_iff.mp hread
    obtain ⟨⟨result, w', s'⟩, hcall, hread⟩ := Option.bind_eq_some_iff.mp hread
    obtain ⟨order, horder, heq⟩ := Option.map_eq_some_iff.mp hread
    obtain rfl : result = some order := horder
    obtain ⟨hside, heq⟩ := Prod.mk.inj heq
    obtain ⟨hlocate, hvotes⟩ := Prod.mk.inj heq
    refine ⟨w, c, order, w', s', hrun, hcall, hside, hlocate, hvotes, ?_⟩
    rintro ⟨vote, hvote, hfor, hsymbol⟩
    have hmem := List.mem_map_of_mem (f := fun vote : Signal => (vote.side, vote.locate)) hvote
    rw [hvotes, hfor, hside, hsymbol, hlocate] at hmem
    exact absurd hmem (by decide)
  · have hread : ((({ strategies := ({}, {}, ()), weightBp := fun _ => 10000
                      thresholdBp := -1 } : TradingWorker _).arbitrate flowAndBook (fun _ s => s)
        (some ExchangeSimulator.interface) 1 ({}, .new 4 none fun _ _ => [])).bind fun r =>
          r.1.map fun order => (order.side, (flowAndBook.signals r.2.1.strategies).map fun vote =>
            vote.side)) = some (.buy, [.none, .none]) := by decide +kernel
    obtain ⟨⟨result, w', s'⟩, hcall, hread⟩ := Option.bind_eq_some_iff.mp hread
    obtain ⟨order, horder, heq⟩ := Option.map_eq_some_iff.mp hread
    obtain rfl : result = some order := horder
    obtain ⟨hside, hvotes⟩ := Prod.mk.inj heq
    refine ⟨order, w', s', hcall, hside, hvotes, ?_⟩
    rintro ⟨vote, hvote, hfor, -⟩
    have hmem := List.mem_map_of_mem (f := fun vote : Signal => vote.side) hvote
    rw [hvotes, hfor, hside] at hmem
    exact absurd hmem (by decide)

end TradingWorker

end NebulaX
