import NebulaX.Market.OrderBookConsumer
import NebulaX.Strategy.OrderFlowImbalance

/-!
# The workers

`SimWorker` of `src/sim/sim_worker.h`, as far as it listens to the broadcasts. A worker owns the
symbols whose locate has its remainder. It is generic in its strategies, a tuple in the source:
`Strategies.cons` builds one, and `Includes` says that a given strategy is in it.

A worker is called when the view has applied the event. That made the book of the event's locate,
so the tests for a missing book are left out, and so is the trigger context that is passed on to the
execution engine for its trade records.
-/

namespace NebulaX

open Market (OrderBookConsumer OrderBook)

/-! ### Tuples of strategies -/

/-- The strategies of a worker, of which `S` is the state. -/
structure Strategies (S : Type) where
  /-- `feed`: `on_market` of each. -/
  feed : MarketEvent → BookContext → S → S
  /-- The signals of each, in order. -/
  signals : S → List Signal

namespace Strategies

variable {S A B : Type}

/-- No strategy. -/
def nil : Strategies Unit := ⟨fun _ _ s => s, fun _ => []⟩

/-- A strategy in front of others. -/
def cons (st : StrategyT A) (sts : Strategies S) : Strategies (A × S) where
  feed := fun ev ctx s => (st.onMarket ev ctx s.1, sts.feed ev ctx s.2)
  signals := fun s => st.signal s.1 :: sts.signals s.2

/-- The strategies `sts` include `st`: its state is at `get`, and it is called with what the worker
calls all of them with. -/
structure Includes (sts : Strategies S) (st : StrategyT A) where
  /-- Its state. -/
  get : S → A
  /-- It is fed. -/
  feed : ∀ ev ctx s, get (sts.feed ev ctx s) = st.onMarket ev ctx (get s)

/-- The first one is included. -/
def Includes.head (st : StrategyT A) (sts : Strategies S) : Includes (cons st sts) st :=
  ⟨Prod.fst, fun _ _ _ => rfl⟩

/-- Those behind it are. -/
def Includes.tail {st : StrategyT A} {sts : Strategies S} (h : Includes sts st)
    (st' : StrategyT B) : Includes (cons st' sts) st :=
  ⟨fun s => h.get s.2, fun ev ctx s => h.feed ev ctx s.2⟩

end Strategies

/-! ### Workers -/

/-- `SimWorker`, as far as it listens. -/
structure SimWorker (S : Type) where
  /-- `strategies_`. -/
  strategies : S
  /-- `id_`. -/
  id : ℕ := 0
  /-- `nworkers_`. -/
  nworkers : ℕ := 1

namespace SimWorker

variable {S : Type}

/-- The symbol is one of the worker's. -/
def owns (w : SimWorker S) (locate : ℕ) : Prop := ¬(1 < w.nworkers ∧ locate % w.nworkers ≠ w.id)

instance (w : SimWorker S) (locate : ℕ) : Decidable (w.owns locate) :=
  inferInstanceAs (Decidable (¬ _))

/-- The direction of an event: its own, or that of the order in the book. -/
def eventSide (view : OrderBookConsumer) (ev : MarketEvent) : Option OrderSide :=
  match ev.body with
  | .add o | .replace o => some o.side
  | .trade t | .execute t => OrderBook.sideOf view.books.shared t.orderRef
  | .delete o | .cancel o => OrderBook.sideOf view.books.shared o.orderRef

/-- The book has a price on either side. -/
def quoted (b : OrderBook) : Bool := decide (0 ≤ b.bestBid) && decide (0 ≤ b.bestAsk)

/-- The context of an event. -/
def context (b : OrderBook) (timestamp : ℕ) (side : OrderSide) : BookContext :=
  if quoted b then
    { seq := timestamp, side := side, bid := b.bestBid, bidVol := b.bestVolume true
      ask := b.bestAsk, askVol := b.bestVolume false, mid := (b.bestBid + b.bestAsk) / 2 }
  else { seq := timestamp, side := side }

/-- `on_market_event`, with the marks it makes. -/
def onMarketEvent (sts : Strategies S) (w : SimWorker S) (ev : MarketEvent)
    (view : OrderBookConsumer) : Option (List Mark × SimWorker S) :=
  if w.owns ev.locate then
    let b := view.books.book ev.locate
    (eventSide view ev).map fun side =>
      (if quoted b then [(ev.locate, (b.bestBid + b.bestAsk) / 2)] else [],
        { w with strategies := sts.feed ev (context b ev.timestamp side) w.strategies })
  else some ([], w)

theorem context_side (b : OrderBook) (timestamp : ℕ) (side : OrderSide) :
    (context b timestamp side).side = side := by
  rw [context]
  split <;> rfl

end SimWorker

end NebulaX
