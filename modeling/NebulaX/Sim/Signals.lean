import NebulaX.Exchange.MarketOrders
import NebulaX.Sim.Liveness

/-!
# From a signal to the matching engine

A signal has a strength and a price of 64 bits. `submit_signal` books an order of 64 bits with the
order manager and has it checked, and `submit` calls the matching engine with 32 bits of its price
and 32 bits of its quantity. `commandFor` is that call.

A signal of type `MARKET` is sent as immediate-or-cancel, with the price of the signal. The engine
takes it for a market order only if this price is 0.

## Main results

* `exec_of_sends` — what is sent is the call `commandFor`
* `market_price_ignored_iff` — when the price of a market order is ignored
-/

namespace NebulaX

open Exchange (MatchingEngine Command OrderTif SameExecution PriceIgnored Immaterial addError)

namespace ExecutionEngine

/-- **A signal is sent** to the exchange: it comes to an order, and the order passes the check. -/
def Sends (ee : ExecutionEngine) (sig : Signal) (strategyId : ℕ) (type : OrderType) : Prop :=
  ¬ ee.Ignores sig type ∧ ee.riskManager.checkOrder (ee.orderFor sig strategyId type) = true

instance (ee : ExecutionEngine) (sig : Signal) (type : OrderType) :
    Decidable (ee.Ignores sig type) :=
  inferInstanceAs (Decidable ((_ ∨ _) ∨ (_ ∧ _) ∨ _))

instance (ee : ExecutionEngine) (sig : Signal) (strategyId : ℕ) (type : OrderType) :
    Decidable (ee.Sends sig strategyId type) := inferInstanceAs (Decidable (¬ _ ∧ _))

/-- The call of the matching engine for a signal that is sent. -/
def commandFor (ee : ExecutionEngine) (sig : Signal) (strategyId : ℕ) (type : OrderType) :
    Command :=
  ExchangeSimulator.submitCommand (ee.orderFor sig strategyId type) ee.idOf (tifOf type)

end ExecutionEngine

namespace System

/-- **What is sent** is that call. -/
theorem exec_of_sends {s s' : System} {sig : Signal} {strategyId id : ℕ} {type : OrderType}
    (hsends : s.1.Sends sig strategyId type)
    (hcall : ExecutionEngine.submitSignal exchange sig strategyId type s = some (id, s')) :
    ∃ rsp e', s.2.engine.exec (s.1.commandFor sig strategyId type) = some (rsp, e') := by
  rcases ExecutionEngine.submitSignal_cases hcall with ⟨hignored, -⟩ | ⟨-, ⟨hfails, -⟩ |
    ⟨-, r, marks, sim', s₁, hsubmit, -⟩⟩
  · exact absurd hignored hsends.1
  · exact absurd (hsends.2.symm.trans hfails) (by decide)
  · obtain ⟨rsp, e', -, hexec, -⟩ := ExchangeSimulator.submit_spec hsubmit
    exact ⟨rsp, e', hexec⟩

/-! ### The price of a market order -/

/-- The side of the book for a signal. -/
def sideOf (sig : Signal) : Exchange.Side := if sig.side = .buy then .buy else .sell

/-- **When the price of a market order is ignored.** In every state that an engine can get into,
an immediate-or-cancel order does the same at two prices, and trades against everything that
others offer, exactly if it is turned down, or the offers within either price are enough, or both
prices reach the same orders and nothing is offered beyond. So two signals of type `MARKET` that
differ in their price, and are both sent, execute alike exactly if the order is turned down, or
the offers within either price are enough, or both prices reach the same orders. -/
theorem market_price_ignored_iff {e : MatchingEngine} (he : Exchange.Reachable e) {s : System}
    (hs : Reached s) :
    (∀ L ref side price price' quantity user,
      PriceIgnored e L ref side price price' quantity user ↔
        addError L ref side price quantity user .ioc ≠ none ∨
          Immaterial e L side price price' quantity user) ∧
    ∀ (sig : Signal) (strategyId : ℕ) (price price' : Int64),
      s.1.Sends { sig with price := price } strategyId .market →
      s.1.Sends { sig with price := price' } strategyId .market →
      (SameExecution s.2.engine (s.1.commandFor { sig with price := price } strategyId .market)
          (s.1.commandFor { sig with price := price' } strategyId .market) ↔
        addError sig.locate s.1.idOf (sideOf sig) price.toUInt64.toUInt32
            (s.1.signalQty sig).toUInt32 kStrategyUserId .ioc ≠ none ∨
          ((s.1.signalQty sig).toUInt32.toNat ≤ Exchange.withinQty s.2.engine sig.locate
              (sideOf sig) price.toUInt64.toUInt32 kStrategyUserId ∧
            (s.1.signalQty sig).toUInt32.toNat ≤ Exchange.withinQty s.2.engine sig.locate
              (sideOf sig) price'.toUInt64.toUInt32 kStrategyUserId) ∨
          Exchange.within s.2.engine sig.locate (sideOf sig) price.toUInt64.toUInt32
              kStrategyUserId =
            Exchange.within s.2.engine sig.locate (sideOf sig) price'.toUInt64.toUInt32
              kStrategyUserId) := by
  constructor
  · intro L ref side price price' quantity user
    exact Exchange.priceIgnored_iff he.inv L ref side price price' quantity user
  · intro sig strategyId price price' _ _
    exact Exchange.sameExecution_iff hs.joined.owned.1.inv sig.locate s.1.idOf (sideOf sig)
      price.toUInt64.toUInt32 price'.toUInt64.toUInt32 (s.1.signalQty sig).toUInt32
      kStrategyUserId

/-- Two offers at different prices, and a buyer of what the first offers, at either price; and a
signal of 100 for 200 on offer at 101. -/
theorem market_price_ignored_iff_two : ∃ e s,
    (MatchingEngine.new 4).execAll [.add 0 1 .sell 100 5 7 .day, .add 0 2 .sell 101 5 7 .day] =
        some e ∧
      play [.onMarketOrder (.add 0 1 .sell 101 200)] (new 1000 {} 4) = some s ∧
      PriceIgnored e 0 3 .buy 100 101 5 8 ∧
      SameExecution s.2.engine
        (s.1.commandFor { side := .buy, price := 102, strength := 10000 } 1 .market)
        (s.1.commandFor { side := .buy, price := 103, strength := 10000 } 1 .market) := by
  obtain ⟨e, hrun, he⟩ := Exchange.reachable_execAll 4
    [.add 0 1 .sell 100 5 7 .day, .add 0 2 .sell 101 5 7 .day] (by decide) (by decide)
    (by decide +kernel)
  have hread : ((MatchingEngine.new 4).execAll
      [.add 0 1 .sell 100 5 7 .day, .add 0 2 .sell 101 5 7 .day]).map (fun e =>
        (Exchange.withinQty e 0 .buy 100 8, Exchange.withinQty e 0 .buy 101 8)) =
      some (5, 10) := by decide +kernel
  rw [hrun] at hread
  obtain ⟨hfirst, hboth⟩ := Prod.mk.inj (Option.some.inj hread)
  have hplay : (play [.onMarketOrder (.add 0 1 .sell 101 200)] (new 1000 {} 4)).map (fun s =>
      (decide (s.1.Sends { side := .buy, price := 102, strength := 10000 } 1 .market ∧
        s.1.Sends { side := .buy, price := 103, strength := 10000 } 1 .market),
        decide ((s.1.signalQty { strength := 10000 }).toUInt32.toNat = 100),
        Exchange.withinQty s.2.engine 0 .buy 102 kStrategyUserId,
        Exchange.withinQty s.2.engine 0 .buy 103 kStrategyUserId)) =
      some (true, true, 200, 200) := by decide +kernel
  obtain ⟨s, hstart, heq⟩ := Option.map_eq_some_iff.mp hplay
  obtain ⟨hsends, heq⟩ := Prod.mk.inj heq
  obtain ⟨hqty, heq⟩ := Prod.mk.inj heq
  obtain ⟨hlow, hhigh⟩ := Prod.mk.inj heq
  have hs : Reached s := (reached_new 1000 ⟨rfl, rfl⟩ (by decide) (by decide)).play hstart
  have hboth' := of_decide_eq_true hsends
  have hqty' : (s.1.signalQty { side := .buy, price := 0, strength := 10000 }).toUInt32.toNat =
      100 := of_decide_eq_true hqty
  obtain ⟨hignored, hsame⟩ := market_price_ignored_iff he hs
  refine ⟨e, s, hrun, hstart, (hignored 0 3 .buy 100 101 5 8).mpr (Or.inr (Or.inl ⟨?_, ?_⟩)),
    (hsame { side := .buy, price := 0, strength := 10000 } 1 102 103 hboth'.1 hboth'.2).mpr
      (Or.inr (Or.inl ⟨?_, ?_⟩))⟩
  · rw [hfirst]
    decide
  · rw [hboth]
    decide
  · rw [hqty']
    exact hlow.symm ▸ (by decide)
  · rw [hqty']
    exact hhigh.symm ▸ (by decide)

/-- Two offers of 5, at 100 and at 101. A market order of 10 takes both. The same order at 100
takes the first and is dropped. -/
theorem market_price_limits : ∃ e,
    (MatchingEngine.new 4).execAll [.add 0 1 .sell 100 5 7 .day, .add 0 2 .sell 101 5 7 .day] =
        some e ∧
      Exchange.Reachable e ∧
      (e.processAdd 0 3 .buy 0 10 8 .ioc).map Prod.fst =
        some [.trade 0 1 .sell 100 5, .trade 0 2 .sell 101 5, .filled 3] ∧
      (e.processAdd 0 3 .buy 100 10 8 .ioc).map Prod.fst = some [.trade 0 1 .sell 100 5] ∧
      ¬ PriceIgnored e 0 3 .buy 0 100 10 8 := by
  obtain ⟨e, hrun, he⟩ := Exchange.reachable_execAll 4
    [.add 0 1 .sell 100 5 7 .day, .add 0 2 .sell 101 5 7 .day] (by decide) (by decide)
    (by decide +kernel)
  have hread : ((MatchingEngine.new 4).execAll
      [.add 0 1 .sell 100 5 7 .day, .add 0 2 .sell 101 5 7 .day]).map (fun e =>
        ((e.processAdd 0 3 .buy 0 10 8 .ioc).map Prod.fst,
          (e.processAdd 0 3 .buy 100 10 8 .ioc).map Prod.fst)) =
      some (some [.trade 0 1 .sell 100 5, .trade 0 2 .sell 101 5, .filled 3],
        some [.trade 0 1 .sell 100 5]) := by decide +kernel
  rw [hrun] at hread
  obtain ⟨hmarket, hlimit⟩ := Prod.mk.inj (Option.some.inj hread)
  refine ⟨e, hrun, he, hmarket, hlimit, ?_⟩
  rintro ⟨⟨rsp, rsp', e₁, e₁', hcall, hcall', hsame, -⟩, -⟩
  have hcall : e.processAdd 0 3 .buy 0 10 8 .ioc = some (rsp, e₁) := hcall
  have hcall' : e.processAdd 0 3 .buy 100 10 8 .ioc = some (rsp', e₁') := hcall'
  rw [hcall, Option.map_some] at hmarket
  rw [hcall', Option.map_some] at hlimit
  have hboth : rsp = _ := Option.some.inj hmarket
  have hfirst : rsp' = _ := Option.some.inj hlimit
  rw [hboth, hfirst] at hsame
  exact absurd hsame (by decide)

end System

end NebulaX
