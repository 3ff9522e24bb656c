import NebulaX.Exchange.Effects
import NebulaX.Exchange.ExchangeSimulator

/-!
# Runs of the simulator

From outside, the simulator is called with events of the market and with orders and cancels of the
strategy. While it handles an event it calls the execution engine back, which may place or cancel
orders in turn. A `Client` is anything that can be called back this way: all it does to the
simulator is a sequence of strategy calls that keep the contract.

A `Contract` says which calls are made. `Contract.any` asks for nothing; `Contract.refs` is the
contract about references: new references are not resting, and a reference is used with the locate
it rests under.

## Main results

* `Stable.reached` — what every single step keeps, every run keeps, whatever the client does
* `exec_of_enterMarket`, `submit_spec`, `cancel_spec` — what the calls do to the engine
* `Reached.engine` — under the contract about references the engine is a reachable one
-/

namespace NebulaX

open Exchange (MatchingEngine BinaryResponse OrderTif Side Resting Command Fresh RoutedTo Inv Keeps
  Effect)

/-! ### Calls and contracts -/

/-- A call of the strategy side. -/
inductive StrategyCall
  | submit (order : Order) (orderId : ℕ) (tif : OrderTif)
  | cancel (orderId symbolId userId : ℕ)

/-- Which calls are made in which states. -/
structure Contract where
  /-- The events of the market. -/
  market : ItchEvent → ExchangeSimulator → Prop
  /-- The calls of the strategy, its own and those in callbacks. -/
  strategy : StrategyCall → ExchangeSimulator → Prop

/-- Any calls. -/
def Contract.any : Contract := ⟨fun _ _ => True, fun _ _ => True⟩

/-- An event keeps the contract about references. -/
def ItchEvent.Allowed (R : Resting) : ItchEvent → Prop
  | .add _ ref _ _ _ => Fresh R ref
  | .delete locate ref => RoutedTo R ref locate.toNat
  | .cancel locate ref _ => RoutedTo R ref locate.toNat
  | .replace locate ref newRef _ _ =>
    RoutedTo R ref locate.toNat ∧ (newRef = ref ∨ Fresh R newRef)
  | .book _ => True

/-- A strategy call keeps the contract about references. -/
def StrategyCall.Allowed (R : Resting) : StrategyCall → Prop
  | .submit _ orderId _ => Fresh R orderId
  | .cancel orderId symbolId _ => RoutedTo R orderId symbolId

/-- The contract about references. -/
def Contract.refs : Contract where
  market := fun ev sim => ev.Allowed sim.engine.resting
  strategy := fun c sim => c.Allowed sim.engine.resting

namespace ExchangeSimulator

/-- The call of the engine that `submit` makes. -/
def submitCommand (order : Order) (orderId : ℕ) (tif : OrderTif) : Command :=
  .add order.symbolId orderId (if order.side = .buy then .buy else .sell)
    order.price.toUInt64.toUInt32 order.quantity.toUInt32 kStrategyUserId tif

end ExchangeSimulator

/-- The call of the engine that a strategy call makes. -/
def StrategyCall.command : StrategyCall → Command
  | .submit order orderId tif => ExchangeSimulator.submitCommand order orderId tif
  | .cancel orderId symbolId userId => .cancel symbolId orderId userId

namespace ExchangeSimulator

/-- A strategy call, without its answer. -/
def take (sim : ExchangeSimulator) : StrategyCall → Option ExchangeSimulator
  | .submit order orderId tif => (sim.submit order orderId tif).map fun r => r.2.2
  | .cancel orderId symbolId userId => (sim.cancel orderId symbolId userId).map Prod.snd

end ExchangeSimulator

/-- Strategy calls one after the other. -/
inductive Talk (ok : StrategyCall → ExchangeSimulator → Prop) :
    ExchangeSimulator → ExchangeSimulator → Prop
  | done (sim : ExchangeSimulator) : Talk ok sim sim
  | call {sim sim₁ sim₂ : ExchangeSimulator} (c : StrategyCall) (hc : ok c sim)
      (htake : sim.take c = some sim₁) (rest : Talk ok sim₁ sim₂) : Talk ok sim sim₂

/-- Callbacks that do nothing to the simulator but make strategy calls. -/
structure Client (ok : StrategyCall → ExchangeSimulator → Prop) (E : Type) extends
    Callbacks E where
  /-- What a callback does. -/
  talks : ∀ {f : Fill} {s s' : E} {sim sim' : ExchangeSimulator},
    onOrderReport f s sim = some (s', sim') → Talk ok sim sim'

/-- No execution engine. -/
def Client.silent (ok : StrategyCall → ExchangeSimulator → Prop) : Client ok Unit where
  onOrderReport := fun _ s sim => some (s, sim)
  mark := fun _ s => s
  talks := fun {_ _ _ sim _} h => by
    obtain ⟨-, rfl⟩ := Prod.mk.inj (Option.some.inj h)
    exact .done sim

/-- A simulator as it is assembled, with any subscriber and with or without a view. -/
def ExchangeSimulator.new (capacity : ℕ) (view : Option ℕ)
    (sink : MarketEvent → Option Market.OrderBookConsumer → List Mark) : ExchangeSimulator where
  engine := .new capacity
  view := view.map Market.OrderBookConsumer.new
  sink := sink

/-- The states that a client and a simulator can get into. A strategy call changes the client's
state as it likes. -/
inductive Reached {E : Type} (K : Contract) (cl : Client K.strategy E) :
    E × ExchangeSimulator → Prop
  | start (s : E) (capacity : ℕ) (view : Option ℕ)
      (sink : MarketEvent → Option Market.OrderBookConsumer → List Mark) (hlo : 2 ≤ capacity)
      (hhi : capacity ≤ 2 ^ 31) (hview : ∀ n ∈ view, 2 ≤ n ∧ n ≤ 2 ^ 31) :
      Reached K cl (s, .new capacity view sink)
  | market {s s' : E} {sim sim' : ExchangeSimulator} (ev : ItchEvent) (h : Reached K cl (s, sim))
      (hev : K.market ev sim)
      (hcall : ExchangeSimulator.onMarketOrder cl.toCallbacks ev (s, sim) = some (s', sim')) :
      Reached K cl (s', sim')
  | strategy {s s' : E} {sim sim' : ExchangeSimulator} (c : StrategyCall)
      (h : Reached K cl (s, sim)) (hc : K.strategy c sim) (hcall : sim.take c = some sim') :
      Reached K cl (s', sim')

/-! ### What the steps of a call do -/

namespace ExchangeSimulator

variable {E : Type} {sim sim' : ExchangeSimulator}

/-- **A broadcast** changes the view and the records of broadcasts. -/
theorem broadcast_spec {ev : MarketEvent} {marks : List Mark}
    (h : sim.broadcast ev = some (marks, sim')) :
    ∃ view, sim' = { sim with view := view, delivered := sim.delivered ++ [(sim.clock, ev)]
                              shown := sim.shown ++ [(sim.view, ev)] } ∧
      match sim.view with
      | none => view = none
      | some v => ∃ v', v.onEvent ev = some v' ∧ view = some v' := by
  rw [broadcast] at h
  cases hview : sim.view with
  | none =>
    rw [hview] at h
    obtain ⟨-, rfl⟩ := Prod.mk.inj (Option.some.inj h)
    exact ⟨none, rfl, rfl⟩
  | some v =>
    rw [hview] at h
    obtain ⟨v', hv', heq⟩ := Option.map_eq_some_iff.mp h
    obtain ⟨-, rfl⟩ := Prod.mk.inj heq
    exact ⟨some v', rfl, v', hv', rfl⟩

theorem announce_spec {cb : Callbacks E} {ev : MarketEvent} {s s' : E}
    (h : announce cb ev (s, sim) = some (s', sim')) :
    ∃ marks, sim.broadcast ev = some (marks, sim') := by
  obtain ⟨⟨marks, sim₁⟩, hb, heq⟩ := Option.map_eq_some_iff.mp h
  obtain ⟨-, rfl⟩ := Prod.mk.inj heq
  exact ⟨marks, hb⟩

/-- **A submit** makes one call of the engine and goes through its answers. -/
theorem submit_spec {order : Order} {orderId : ℕ} {tif : OrderTif} {out : ExchangeSubmitResult}
    {marks : List Mark} (h : sim.submit order orderId tif = some (out, marks, sim')) :
    ∃ rsp e' out', sim.engine.exec (submitCommand order orderId tif) = some (rsp, e') ∧
      rsp.foldlM (takeAnswer order orderId) ({}, [],
        { sim.advance with submitted := insert orderId sim.submitted, engine := e' }) =
          some (out', marks, sim') ∧
      out = { out' with fullyFilled := totalFill (tradesIn rsp) = order.quantity } := by
  obtain ⟨⟨rsp, e'⟩, hexec, hanswers⟩ := Option.bind_eq_some_iff.mp h
  obtain ⟨⟨out', marks', sim₁⟩, hfold, heq⟩ := Option.map_eq_some_iff.mp hanswers
  obtain ⟨hout, heq⟩ := Prod.mk.inj heq
  obtain ⟨rfl, rfl⟩ := Prod.mk.inj heq
  exact ⟨rsp, e', out', hexec, hfold, hout.symm⟩

/-- **A cancel** makes one call of the engine and goes through its answers. -/
theorem cancel_spec {orderId symbolId userId : ℕ} {reports : List Fill}
    (h : sim.cancel orderId symbolId userId = some (reports, sim')) :
    ∃ rsp e', sim.engine.exec (.cancel symbolId orderId userId) = some (rsp, e') ∧
      (reports, sim') = rsp.foldl (takeCancelAnswer orderId)
        ([], { sim.advance with engine := e' }) := by
  obtain ⟨⟨rsp, e'⟩, hexec, heq⟩ := Option.map_eq_some_iff.mp h
  exact ⟨rsp, e', hexec, heq.symm⟩

/-- Only an event that is no order does not reach the engine. -/
theorem enterMarket_none {e : MatchingEngine} {ev : ItchEvent}
    (h : enterMarket e ev = some none) : ∃ L, ev = .book L := by
  cases ev with
  | add =>
    obtain ⟨_, -, heq⟩ := Option.map_eq_some_iff.mp h
    exact absurd heq (by simp)
  | delete =>
    obtain ⟨_, -, heq⟩ := Option.map_eq_some_iff.mp h
    exact absurd heq (by simp)
  | cancel =>
    obtain ⟨_, -, heq⟩ := Option.map_eq_some_iff.mp h
    exact absurd heq (by simp)
  | replace =>
    obtain ⟨_, -, h⟩ := Option.bind_eq_some_iff.mp h
    obtain ⟨_, -, heq⟩ := Option.map_eq_some_iff.mp h
    exact absurd heq (by simp)
  | book L => exact ⟨L, rfl⟩

/-- **An event that reaches the engine** is broadcast, and then its trades are routed. -/
theorem onMarketOrder_eq {cb : Callbacks E} {ev : ItchEvent} {rsp : List BinaryResponse}
    {e' : MatchingEngine} {marks : List Mark} (s : E)
    (henter : enterMarket sim.engine ev = some (some (rsp, e')))
    (hb : ({ sim.advance with engine := e' } : ExchangeSimulator).broadcast
      (toMarketEvent (sim.clock + 1) ev) = some (marks, sim')) :
    onMarketOrder cb ev (s, sim) =
      (routeTrades cb (locateOf ev) (takerRef ev) (tradesIn rsp) (cb.mark marks s, sim')).bind
        fun r => if 0 < totalFill (tradesIn rsp) then
          announce cb (makeExecute (locateOf ev) (takerRef ev) (totalFill (tradesIn rsp))) r
        else some r := by
  have henter' : enterMarket sim.advance.engine ev = some (some (rsp, e')) := henter
  rw [onMarketOrder]
  simp only [henter', Option.bind_some]
  have hann : announce cb (toMarketEvent sim.advance.clock ev)
      (s, { sim.advance with engine := e' }) = some (cb.mark marks s, sim') := by
    rw [announce]
    exact congrArg (Option.map _) hb
  rw [hann, Option.bind_some]

/-- Every event either reaches the engine that way or is no order. -/
theorem onMarketOrder_cases {cb : Callbacks E} {ev : ItchEvent} {s s' : E}
    (h : onMarketOrder cb ev (s, sim) = some (s', sim')) :
    (s' = s ∧ sim' = sim.advance ∧ ∃ L, ev = .book L) ∨
      ∃ rsp e' marks sim₁, enterMarket sim.engine ev = some (some (rsp, e')) ∧
        ({ sim.advance with engine := e' } : ExchangeSimulator).broadcast
          (toMarketEvent (sim.clock + 1) ev) = some (marks, sim₁) := by
  obtain ⟨answer, henter, h⟩ := Option.bind_eq_some_iff.mp h
  cases answer with
  | none =>
    obtain ⟨rfl, rfl⟩ := Prod.mk.inj (Option.some.inj h)
    exact Or.inl ⟨rfl, rfl, enterMarket_none henter⟩
  | some r =>
    obtain ⟨⟨s₁, sim₁⟩, hann, -⟩ := Option.bind_eq_some_iff.mp h
    obtain ⟨marks, hb⟩ := announce_spec hann
    exact Or.inr ⟨r.1, r.2, marks, sim₁, henter, hb⟩

/-- The report of a trade to the execution engine. -/
def makerReport (t : ℕ × UInt32 × UInt32) : Fill where
  type := .executed
  orderId := t.1
  filledQty := t.2.2.toUInt64
  fillPrice := t.2.1.toUInt64.toInt64

/-- Every report of the loop over the trades satisfies `P`, with the trades that are left, where it
is made. -/
def EachReport (cb : Callbacks E)
    (P : List (ℕ × UInt32 × UInt32) → Fill → E → ExchangeSimulator → Prop) (locate taker : ℕ) :
    List (ℕ × UInt32 × UInt32) → E × ExchangeSimulator → Prop
  | [], _ => True
  | t :: ts, s =>
    (s.2.isStrategyOrder t.1 = true →
      P ts (makerReport t) s.1 (s.2.countTrade taker t.1 t.2.2)) ∧
    ∀ s', routeTrade cb locate taker s t = some s' → EachReport cb P locate taker ts s'

theorem unregisterIfGone_spec {ref : ℕ} (h : sim.unregisterIfGone ref = some sim') :
    (sim.engine.findOrder ref = some none ∧
        sim' = { sim with strategyRefs := sim.strategyRefs.erase ref }) ∨
      ((∃ i, sim.engine.findOrder ref = some (some i)) ∧ sim' = sim) := by
  obtain ⟨found, hf, rfl⟩ := Option.map_eq_some_iff.mp h
  cases found with
  | none => exact Or.inl ⟨hf, rfl⟩
  | some i => exact Or.inr ⟨⟨i, hf⟩, rfl⟩

end ExchangeSimulator

/-! ### What every step keeps -/

/-- `I` holds between calls and `M` during a call, and every step keeps them. -/
structure Stable (K : Contract) (I M : ExchangeSimulator → Prop) : Prop where
  /-- A call may end at any time. -/
  idle : ∀ {sim : ExchangeSimulator}, M sim → I sim
  /-- An event goes to the engine and is broadcast. -/
  market : ∀ {ev : ItchEvent} {sim sim' : ExchangeSimulator} {rsp : List BinaryResponse}
    {e' : MatchingEngine} {marks : List Mark}, I sim → K.market ev sim →
    ExchangeSimulator.enterMarket sim.engine ev = some (some (rsp, e')) →
    ({ sim.advance with engine := e' } : ExchangeSimulator).broadcast
      (ExchangeSimulator.toMarketEvent (sim.clock + 1) ev) = some (marks, sim') → M sim'
  /-- An event that is no order. -/
  book : ∀ {L : UInt16} {sim : ExchangeSimulator}, I sim → K.market (.book L) sim → I sim.advance
  /-- A trade is counted. -/
  count : ∀ {sim : ExchangeSimulator} (taker maker : ℕ) (quantity : UInt32), M sim →
    M (sim.countTrade taker maker quantity)
  /-- An `EXECUTE` is broadcast. -/
  execute : ∀ {sim sim' : ExchangeSimulator} {locate ref : ℕ} {qty : UInt64} {marks : List Mark},
    M sim → sim.broadcast (ExchangeSimulator.makeExecute locate ref qty) = some (marks, sim') →
    M sim'
  /-- A reference is taken off the registry. -/
  gone : ∀ {sim : ExchangeSimulator} (ref : ℕ), M sim →
    M { sim with strategyRefs := sim.strategyRefs.erase ref }
  /-- A reference is put on the registry. -/
  register : ∀ {sim : ExchangeSimulator} (ref : ℕ), M sim →
    M { sim with strategyRefs := insert ref sim.strategyRefs }
  /-- An order of the strategy goes to the engine. -/
  submit : ∀ {order : Order} {orderId : ℕ} {tif : OrderTif} {sim : ExchangeSimulator}
    {rsp : List BinaryResponse} {e' : MatchingEngine}, I sim →
    K.strategy (.submit order orderId tif) sim →
    sim.engine.exec (ExchangeSimulator.submitCommand order orderId tif) = some (rsp, e') →
    M { sim.advance with submitted := insert orderId sim.submitted, engine := e' }
  /-- A cancel of the strategy goes to the engine. -/
  cancel : ∀ {orderId symbolId userId : ℕ} {sim : ExchangeSimulator} {rsp : List BinaryResponse}
    {e' : MatchingEngine}, I sim → K.strategy (.cancel orderId symbolId userId) sim →
    sim.engine.exec (.cancel symbolId orderId userId) = some (rsp, e') →
    M { sim.advance with engine := e' }

/-- The same, where the trades counted all satisfy `Q`: those of every answer of the engine do. -/
structure StableOn (K : Contract) (I M : ExchangeSimulator → Prop) (Q : Trade → Prop) : Prop where
  /-- A call may end at any time. -/
  idle : ∀ {sim : ExchangeSimulator}, M sim → I sim
  /-- An event goes to the engine and is broadcast. -/
  market : ∀ {ev : ItchEvent} {sim sim' : ExchangeSimulator} {rsp : List BinaryResponse}
    {e' : MatchingEngine} {marks : List Mark}, I sim → K.market ev sim →
    ExchangeSimulator.enterMarket sim.engine ev = some (some (rsp, e')) →
    ({ sim.advance with engine := e' } : ExchangeSimulator).broadcast
      (ExchangeSimulator.toMarketEvent (sim.clock + 1) ev) = some (marks, sim') →
    M sim' ∧ ∀ t ∈ ExchangeSimulator.tradesIn rsp,
      Q ⟨ExchangeSimulator.takerRef ev, t.1, t.2.2⟩
  /-- An event that is no order. -/
  book : ∀ {L : UInt16} {sim : ExchangeSimulator}, I sim → K.market (.book L) sim → I sim.advance
  /-- A trade is counted. -/
  count : ∀ {sim : ExchangeSimulator} (taker maker : ℕ) (quantity : UInt32), M sim →
    Q ⟨taker, maker, quantity⟩ → M (sim.countTrade taker maker quantity)
  /-- An `EXECUTE` is broadcast. -/
  execute : ∀ {sim sim' : ExchangeSimulator} {locate ref : ℕ} {qty : UInt64} {marks : List Mark},
    M sim → sim.broadcast (ExchangeSimulator.makeExecute locate ref qty) = some (marks, sim') →
    M sim'
  /-- A reference is taken off the registry. -/
  gone : ∀ {sim : ExchangeSimulator} (ref : ℕ), M sim →
    M { sim with strategyRefs := sim.strategyRefs.erase ref }
  /-- A reference is put on the registry. -/
  register : ∀ {sim : ExchangeSimulator} (ref : ℕ), M sim →
    M { sim with strategyRefs := insert ref sim.strategyRefs }
  /-- An order of the strategy goes to the engine. -/
  submit : ∀ {order : Order} {orderId : ℕ} {tif : OrderTif} {sim : ExchangeSimulator}
    {rsp : List BinaryResponse} {e' : MatchingEngine}, I sim →
    K.strategy (.submit order orderId tif) sim →
    sim.engine.exec (ExchangeSimulator.submitCommand order orderId tif) = some (rsp, e') →
    M { sim.advance with submitted := insert orderId sim.submitted, engine := e' } ∧
      ∀ t ∈ ExchangeSimulator.tradesIn rsp, Q ⟨orderId, t.1, t.2.2⟩
  /-- A cancel of the strategy goes to the engine. -/
  cancel : ∀ {orderId symbolId userId : ℕ} {sim : ExchangeSimulator} {rsp : List BinaryResponse}
    {e' : MatchingEngine}, I sim → K.strategy (.cancel orderId symbolId userId) sim →
    sim.engine.exec (.cancel symbolId orderId userId) = some (rsp, e') →
    M { sim.advance with engine := e' }

/-- With nothing asked of the trades, it is the same. -/
theorem Stable.on {K : Contract} {I M : ExchangeSimulator → Prop} (h : Stable K I M) :
    StableOn K I M fun _ => True where
  idle := h.idle
  market := fun hi hev henter hb => ⟨h.market hi hev henter hb, fun _ _ => trivial⟩
  book := h.book
  count := fun taker maker quantity hi _ => h.count taker maker quantity hi
  execute := h.execute
  gone := h.gone
  register := h.register
  submit := fun hi hc hexec => ⟨h.submit hi hc hexec, fun _ _ => trivial⟩
  cancel := h.cancel

namespace StableOn

open ExchangeSimulator

variable {E : Type} {K : Contract} {I M : ExchangeSimulator → Prop} {Q : Trade → Prop}
  {cl : Client K.strategy E}
  {s s' : E} {sim sim' : ExchangeSimulator}

theorem takeAnswers (h : StableOn K I M Q) {order : Order} {orderId : ℕ} {rsp : List BinaryResponse}
    {s s' : ExchangeSubmitResult × List Mark × ExchangeSimulator} (hi : M s.2.2)
    (hQ : ∀ t ∈ tradesIn rsp, Q ⟨orderId, t.1, t.2.2⟩)
    (hcall : rsp.foldlM (takeAnswer order orderId) s = some s') : M s'.2.2 := by
  induction rsp generalizing s with
  | nil =>
    obtain rfl := Option.some.inj hcall
    exact hi
  | cons r rsp ih =>
    obtain ⟨s₁, hfirst, hrest⟩ := Option.bind_eq_some_iff.mp hcall
    cases r with
    | trade _ maker _ _ quantity =>
      obtain ⟨⟨marks, sim₁⟩, hb, rfl⟩ := Option.map_eq_some_iff.mp hfirst
      have hcount := h.count orderId maker quantity hi (hQ _ List.mem_cons_self)
      exact ih (h.execute hcount hb) (fun t ht => hQ t (List.mem_cons_of_mem _ ht)) hrest
    | ok =>
      obtain rfl := Option.some.inj hfirst
      exact ih (h.register orderId hi) hQ hrest
    | filled =>
      obtain rfl := Option.some.inj hfirst
      refine ih ?_ hQ hrest
      exact hi
    | cancelled =>
      obtain rfl := Option.some.inj hfirst
      refine ih ?_ hQ hrest
      exact hi
    | error =>
      obtain rfl := Option.some.inj hfirst
      refine ih ?_ hQ hrest
      exact hi

theorem takeCancelAnswers (h : StableOn K I M Q) {orderId : ℕ} {rsp : List BinaryResponse}
    {s : List Fill × ExchangeSimulator} (hi : M s.2) :
    M (rsp.foldl (takeCancelAnswer orderId) s).2 := by
  induction rsp generalizing s with
  | nil => exact hi
  | cons r rsp ih =>
    refine ih ?_
    cases r with
    | cancelled => exact h.gone orderId hi
    | ok => exact h.gone orderId hi
    | trade => exact hi
    | filled => exact hi
    | error => exact hi

/-- **A strategy call** keeps it. -/
theorem strategy (h : StableOn K I M Q) {c : StrategyCall} (hi : I sim) (hc : K.strategy c sim)
    (hcall : sim.take c = some sim') : M sim' := by
  cases c with
  | submit order orderId tif =>
    obtain ⟨⟨out, marks, sim₁⟩, hsubmit, rfl⟩ := Option.map_eq_some_iff.mp hcall
    obtain ⟨rsp, e', out', hexec, hfold, -⟩ := submit_spec hsubmit
    obtain ⟨hsubmitted, hQ⟩ := h.submit hi hc hexec
    have hanswers := h.takeAnswers (s := ({}, [], _)) hsubmitted hQ hfold
    exact hanswers
  | cancel orderId symbolId userId =>
    obtain ⟨⟨reports, sim₁⟩, hcancel, rfl⟩ := Option.map_eq_some_iff.mp hcall
    obtain ⟨rsp, e', hexec, heq⟩ := cancel_spec hcancel
    have hcancelled := h.cancel hi hc hexec
    rw [show sim₁ = _ from congrArg Prod.snd heq]
    exact h.takeCancelAnswers hcancelled

theorem talk (h : StableOn K I M Q) (htalk : Talk K.strategy sim sim') (hi : M sim) : M sim' := by
  induction htalk with
  | done => exact hi
  | call c hc htake _ ih => exact ih (h.strategy (h.idle hi) hc htake)

theorem announce (h : StableOn K I M Q) {cb : Callbacks E} {locate ref : ℕ} {qty : UInt64}
    (hi : M sim)
    (hcall : ExchangeSimulator.announce cb (makeExecute locate ref qty) (s, sim) =
      some (s', sim')) : M sim' := by
  obtain ⟨marks, hb⟩ := announce_spec hcall
  exact h.execute hi hb

theorem makerFill (h : StableOn K I M Q) {ref : ℕ} {qty : UInt64} {price : Int64} (hi : M sim)
    (hcall : onStrategyMakerFill cl.toCallbacks ref qty price (s, sim) = some (s', sim')) :
    M sim' := by
  obtain ⟨⟨s₁, sim₁⟩, hreport, hmap⟩ := Option.bind_eq_some_iff.mp hcall
  have hi₁ := h.talk (cl.talks hreport) hi
  obtain ⟨sim₂, hgone, heq⟩ := Option.map_eq_some_iff.mp hmap
  obtain ⟨-, rfl⟩ := Prod.mk.inj heq
  rcases unregisterIfGone_spec hgone with ⟨-, rfl⟩ | ⟨-, rfl⟩
  · exact h.gone ref hi₁
  · exact hi₁

theorem routeTrades (h : StableOn K I M Q) {locate taker : ℕ} {ts : List (ℕ × UInt32 × UInt32)}
    (hi : M sim) (hQ : ∀ t ∈ ts, Q ⟨taker, t.1, t.2.2⟩)
    (hcall : ExchangeSimulator.routeTrades cl.toCallbacks locate taker ts (s, sim) =
      some (s', sim')) : M sim' := by
  induction ts generalizing s sim with
  | nil =>
    obtain ⟨-, rfl⟩ := Prod.mk.inj (Option.some.inj hcall)
    exact hi
  | cons t ts ih =>
    obtain ⟨⟨s₁, sim₁⟩, hfirst, hrest⟩ := Option.bind_eq_some_iff.mp hcall
    refine ih ?_ (fun t ht => hQ t (List.mem_cons_of_mem _ ht)) hrest
    rw [routeTrade] at hfirst
    have hcount := h.count taker t.1 t.2.2 hi (hQ t List.mem_cons_self)
    split at hfirst
    · exact h.makerFill hcount hfirst
    · exact h.announce hcount hfirst

/-- **A market event** keeps it. -/
theorem onMarketOrder (h : StableOn K I M Q) {ev : ItchEvent} (hi : I sim) (hev : K.market ev sim)
    (hcall : ExchangeSimulator.onMarketOrder cl.toCallbacks ev (s, sim) = some (s', sim')) :
    I sim' := by
  obtain ⟨answer, henter, hcall⟩ := Option.bind_eq_some_iff.mp hcall
  cases answer with
  | none =>
    obtain ⟨-, rfl⟩ := Prod.mk.inj (Option.some.inj hcall)
    obtain ⟨L, rfl⟩ := enterMarket_none henter
    exact h.book hi hev
  | some r =>
    obtain ⟨rsp, e'⟩ := r
    obtain ⟨⟨s₁, sim₁⟩, hann, hcall⟩ := Option.bind_eq_some_iff.mp hcall
    obtain ⟨⟨s₂, sim₂⟩, hroute, hcall⟩ := Option.bind_eq_some_iff.mp hcall
    obtain ⟨marks, hb⟩ := announce_spec hann
    obtain ⟨hi₁, hQ⟩ := h.market hi hev henter hb
    have hi₂ := h.routeTrades hi₁ hQ hroute
    split at hcall
    · exact h.idle (h.announce hi₂ hcall)
    · obtain ⟨-, rfl⟩ := Prod.mk.inj (Option.some.inj hcall)
      exact h.idle hi₂

/-- **What every step keeps holds in every state reached.** -/
theorem reached (h : StableOn K I M Q)
    (hnew : ∀ capacity view sink, 2 ≤ capacity → capacity ≤ 2 ^ 31 →
      (∀ n ∈ view, 2 ≤ n ∧ n ≤ 2 ^ 31) → I (.new capacity view sink))
    {r : E × ExchangeSimulator} (hr : Reached K cl r) : I r.2 := by
  induction hr with
  | start _ capacity view sink hlo hhi hview => exact hnew capacity view sink hlo hhi hview
  | market ev _ hev hcall ih => exact h.onMarketOrder ih hev hcall
  | strategy c _ hc hcall ih => exact h.idle (h.strategy ih hc hcall)

end StableOn

namespace Stable

variable {E : Type} {K : Contract} {I M : ExchangeSimulator → Prop} {cl : Client K.strategy E}
  {s s' : E} {sim sim' : ExchangeSimulator}

theorem strategy (h : Stable K I M) {c : StrategyCall} (hi : I sim) (hc : K.strategy c sim)
    (hcall : sim.take c = some sim') : M sim' := h.on.strategy hi hc hcall

theorem talk (h : Stable K I M) (htalk : Talk K.strategy sim sim') (hi : M sim) : M sim' :=
  h.on.talk htalk hi

theorem announce (h : Stable K I M) {cb : Callbacks E} {locate ref : ℕ} {qty : UInt64} (hi : M sim)
    (hcall : ExchangeSimulator.announce cb (ExchangeSimulator.makeExecute locate ref qty) (s, sim) =
      some (s', sim')) : M sim' := h.on.announce hi hcall

theorem makerFill (h : Stable K I M) {ref : ℕ} {qty : UInt64} {price : Int64} (hi : M sim)
    (hcall : ExchangeSimulator.onStrategyMakerFill cl.toCallbacks ref qty price (s, sim) =
      some (s', sim')) : M sim' := h.on.makerFill hi hcall

/-- **What every step keeps holds in every state reached.** -/
theorem reached (h : Stable K I M)
    (hnew : ∀ capacity view sink, 2 ≤ capacity → capacity ≤ 2 ^ 31 →
      (∀ n ∈ view, 2 ≤ n ∧ n ≤ 2 ^ 31) → I (.new capacity view sink))
    {r : E × ExchangeSimulator} (hr : Reached K cl r) : I r.2 := h.on.reached hnew hr

end Stable

/-! ### The engine in a run -/

/-- The call of the engine that an event makes. -/
def ItchEvent.command (e : MatchingEngine) : ItchEvent → Option Command
  | .add locate ref side price shares => some (.add locate.toNat ref side price shares ref .day)
  | .delete locate ref => some (.cancel locate.toNat ref ref)
  | .cancel locate ref shares => some (.cancelShares locate.toNat ref shares ref)
  | .replace locate ref newRef price shares =>
    some (.replace locate.toNat ref newRef ((ExchangeSimulator.oldSide e ref).getD .invalid) price
      shares ref)
  | .book _ => none

theorem findOrder_returns {e : MatchingEngine} (h : Inv e) (ref : ℕ) :
    ∃ found, e.findOrder ref = some found := by
  obtain ⟨G, fl, h⟩ := h
  rcases h.holds.find ref with hf | ⟨i, hf, -⟩
  · exact ⟨none, hf⟩
  · exact ⟨some i, hf⟩

/-- **An event makes one call** of the engine, unless it is no order. -/
theorem enterMarket_eq {e : MatchingEngine} (h : Inv e) {ev : ItchEvent} {c : Command}
    (hc : ev.command e = some c) :
    ExchangeSimulator.enterMarket e ev = (e.exec c).map some := by
  cases ev with
  | add => exact Option.some.inj hc ▸ rfl
  | delete => exact Option.some.inj hc ▸ rfl
  | cancel => exact Option.some.inj hc ▸ rfl
  | replace locate ref newRef price shares =>
    obtain rfl := Option.some.inj hc
    obtain ⟨found, hf⟩ := findOrder_returns h ref
    rw [ExchangeSimulator.enterMarket, ExchangeSimulator.oldSide, hf]
    rfl
  | book => exact absurd hc (by simp [ItchEvent.command])

/-- The call keeps the contract if and only if the event does. -/
theorem ItchEvent.allowed_iff {e : MatchingEngine} {R : Resting} {ev : ItchEvent} {c : Command}
    (hc : ev.command e = some c) : c.Allowed R ↔ ev.Allowed R := by
  cases ev with
  | add => exact Option.some.inj hc ▸ Iff.rfl
  | delete => exact Option.some.inj hc ▸ Iff.rfl
  | cancel => exact Option.some.inj hc ▸ Iff.rfl
  | replace => exact Option.some.inj hc ▸ Iff.rfl
  | book => exact absurd hc (by simp [ItchEvent.command])

/-- An event that makes no call keeps it. -/
theorem ItchEvent.allowed_of_no_command {e : MatchingEngine} {R : Resting} {ev : ItchEvent}
    (hc : ev.command e = none) : ev.Allowed R := by
  cases ev with
  | book => trivial
  | add => exact absurd hc (by simp [ItchEvent.command])
  | delete => exact absurd hc (by simp [ItchEvent.command])
  | cancel => exact absurd hc (by simp [ItchEvent.command])
  | replace => exact absurd hc (by simp [ItchEvent.command])

/-- **What an event did** that reached the engine. -/
theorem exec_of_enterMarket {e e' : MatchingEngine} {ev : ItchEvent} {rsp : List BinaryResponse}
    (henter : ExchangeSimulator.enterMarket e ev = some (some (rsp, e'))) :
    ∃ c, ev.command e = some c ∧ e.exec c = some (rsp, e') := by
  have hcall : ∀ c, (e.exec c).map some = some (some (rsp, e')) → e.exec c = some (rsp, e') := by
    intro c h
    obtain ⟨r, hr, heq⟩ := Option.map_eq_some_iff.mp h
    exact Option.some.inj heq ▸ hr
  cases ev with
  | add => exact ⟨_, rfl, hcall _ henter⟩
  | delete => exact ⟨_, rfl, hcall _ henter⟩
  | cancel => exact ⟨_, rfl, hcall _ henter⟩
  | replace =>
    obtain ⟨side, hside, henter⟩ := Option.bind_eq_some_iff.mp henter
    refine ⟨_, rfl, hcall _ ?_⟩
    rw [hside]
    exact henter
  | book => exact absurd henter (by simp [ExchangeSimulator.enterMarket])

/-- A contract that is at least the one about references. -/
structure Contract.KeepsRefs (K : Contract) : Prop where
  /-- For events. -/
  market : ∀ {ev sim}, K.market ev sim → ev.Allowed sim.engine.resting
  /-- For strategy calls. -/
  strategy : ∀ {c sim}, K.strategy c sim → c.Allowed sim.engine.resting

theorem Contract.refs_keepsRefs : Contract.refs.KeepsRefs := ⟨id, id⟩

/-- Steps that leave the engine alone keep what is known about it. -/
theorem broadcast_engine {sim sim' : ExchangeSimulator} {ev : MarketEvent} {marks : List Mark}
    (h : sim.broadcast ev = some (marks, sim')) : sim'.engine = sim.engine := by
  obtain ⟨view, rfl, -⟩ := ExchangeSimulator.broadcast_spec h
  rfl

theorem stable_engine {K : Contract} (hK : K.KeepsRefs) :
    Stable K (fun sim => Exchange.Reachable sim.engine)
      (fun sim => Exchange.Reachable sim.engine) where
  idle := id
  market := by
    intro ev sim sim' rsp e' marks hi hev henter hb
    obtain ⟨c, hc, hexec⟩ := exec_of_enterMarket henter
    rw [broadcast_engine hb]
    exact hi.call c ((ItchEvent.allowed_iff hc).mpr (hK.market hev)) hexec
  book := fun hi _ => hi
  count := fun _ _ _ hi => hi
  execute := by
    intro sim sim' locate ref qty marks hi hb
    rw [broadcast_engine hb]
    exact hi
  gone := fun _ hi => hi
  register := fun _ hi => hi
  submit := by
    intro order orderId tif sim rsp e' hi hc hexec
    exact hi.call (ExchangeSimulator.submitCommand order orderId tif) (hK.strategy hc) hexec
  cancel := by
    intro orderId symbolId userId sim rsp e' hi hc hexec
    exact hi.call (.cancel symbolId orderId userId) (hK.strategy hc) hexec

/-- **The engine in a run** is an engine that can be reached. -/
theorem Reached.engine {E : Type} {K : Contract} {cl : Client K.strategy E} (hK : K.KeepsRefs)
    {r : E × ExchangeSimulator} (h : Reached K cl r) : Exchange.Reachable r.2.engine :=
  (stable_engine hK).reached (fun capacity _ _ hlo hhi _ => .start capacity none none hlo hhi) h

/-! ### Runs that pass a test -/

/-- A call from outside. -/
inductive SimCall
  | market (ev : ItchEvent)
  | strategy (c : StrategyCall)

namespace ExchangeSimulator

/-- The call of the engine that a call from outside makes. -/
def commandOf (e : MatchingEngine) : SimCall → Option Command
  | .market ev => ev.command e
  | .strategy c => some c.command

/-- A test on the state that implies the contract about references. -/
def refsTest (c : SimCall) (sim : ExchangeSimulator) : Bool :=
  ((commandOf sim.engine c).map fun c => c.check sim.engine).getD true

/-- Calls from outside one after the other, as long as they pass a test. -/
def play {E : Type} (cb : Callbacks E) (test : SimCall → ExchangeSimulator → Bool) :
    List SimCall → E × ExchangeSimulator → Option (E × ExchangeSimulator)
  | [], r => some r
  | .market ev :: cs, r =>
    if test (.market ev) r.2 then (onMarketOrder cb ev r).bind (play cb test cs) else none
  | .strategy c :: cs, r =>
    if test (.strategy c) r.2 then
      (r.2.take c).bind fun sim => play cb test cs (r.1, sim)
    else none

theorem refsTest_market {sim : ExchangeSimulator} (h : Inv sim.engine) {ev : ItchEvent}
    (htest : refsTest (.market ev) sim = true) : ev.Allowed sim.engine.resting := by
  cases hc : ev.command sim.engine with
  | none => exact ItchEvent.allowed_of_no_command hc
  | some c =>
    rw [refsTest, commandOf, hc] at htest
    exact (ItchEvent.allowed_iff hc).mp (Command.allowed_of_check h htest)

theorem refsTest_strategy {sim : ExchangeSimulator} (h : Inv sim.engine) {c : StrategyCall}
    (htest : refsTest (.strategy c) sim = true) : c.Allowed sim.engine.resting := by
  cases c with
  | submit order orderId tif =>
    have hallowed : (submitCommand order orderId tif).Allowed sim.engine.resting :=
      Command.allowed_of_check h htest
    exact hallowed
  | cancel orderId symbolId userId =>
    have hallowed : (Command.cancel symbolId orderId userId).Allowed sim.engine.resting :=
      Command.allowed_of_check h htest
    exact hallowed

end ExchangeSimulator

/-- A run that passes a test is a run, if the test implies the contract. -/
theorem Reached.play {E : Type} {K : Contract} {cl : Client K.strategy E}
    {test : SimCall → ExchangeSimulator → Bool}
    (hmarket : ∀ {s sim ev}, Reached K cl (s, sim) → test (.market ev) sim = true →
      K.market ev sim)
    (hstrategy : ∀ {s sim c}, Reached K cl (s, sim) → test (.strategy c) sim = true →
      K.strategy c sim)
    {r r' : E × ExchangeSimulator} (h : Reached K cl r) {cs : List SimCall}
    (hrun : ExchangeSimulator.play cl.toCallbacks test cs r = some r') : Reached K cl r' := by
  induction cs generalizing r with
  | nil =>
    obtain rfl := Option.some.inj hrun
    exact h
  | cons c cs ih =>
    cases c with
    | market ev =>
      rw [ExchangeSimulator.play] at hrun
      split at hrun
      · next htest =>
        obtain ⟨r₁, hcall, hrest⟩ := Option.bind_eq_some_iff.mp hrun
        exact ih (h.market ev (hmarket h htest) hcall) hrest
      · exact absurd hrun (by simp)
    | strategy c =>
      rw [ExchangeSimulator.play] at hrun
      split at hrun
      · next htest =>
        obtain ⟨sim₁, hcall, hrest⟩ := Option.bind_eq_some_iff.mp hrun
        exact ih (h.strategy c (hstrategy h htest) hcall) hrest
      · exact absurd hrun (by simp)

end NebulaX
