import NebulaX.Exchange.Registry
import NebulaX.Execution.Steps

/-!
# The execution engine on the exchange simulator

`sim_main` binds an `ExecutionEngine` and an `ExchangeSimulator` to each other. The engine calls
the simulator to submit and to cancel, and the simulator calls the engine back with what happens
to orders that rest. A `Call` is a call of one of the five entry points from outside.

The contract is the one about references, and that orders of the market do not have ids of the
strategy: the order manager starts above them.

## Main results

* `Joined` — the order manager knows the orders of the strategy, and where they rest
* `Joined.step`, `Joined.onMarketOrder` — all that the engine does to the simulator is talk
* `reached_registry` — between two calls the registry is exact
-/

namespace NebulaX

open Exchange (MatchingEngine BinaryResponse OrderData OrderTif Command Fresh RoutedTo Rests
  effect_of_exec)

/-- What the simulator and the engine have to go by. -/
abbrev System := ExecutionEngine × ExchangeSimulator

namespace System

/-- `exchange_`. -/
def exchange : Option (IExchangeSimulator ExchangeSimulator) := some ExchangeSimulator.interface

/-- `execution_`. -/
def callbacks : Callbacks ExecutionEngine where
  onOrderReport := fun f ee sim => ExecutionEngine.onOrderReport exchange f (ee, sim)
  mark := fun marks ee => ee.takeMarks marks

/-- A call from outside. -/
inductive Call
  | submitSignal (sig : Signal) (strategyId : ℕ) (type : OrderType)
  | cancelOrder (orderId : ℕ)
  | onOrderReport (f : Fill)
  | onOrderFill (orderId : ℕ) (filledQty : UInt64) (fillPrice : Int64)
  | onMarketOrder (ev : ItchEvent)

/-- What a call does, without its answer. -/
def step (s : System) : Call → Option System
  | .submitSignal sig strategyId type =>
    (ExecutionEngine.submitSignal exchange sig strategyId type s).map Prod.snd
  | .cancelOrder orderId => (ExecutionEngine.cancelOrder exchange orderId s).map Prod.snd
  | .onOrderReport f => ExecutionEngine.onOrderReport exchange f s
  | .onOrderFill orderId filledQty fillPrice =>
    ExecutionEngine.onOrderFill exchange orderId filledQty fillPrice s
  | .onMarketOrder ev => ExchangeSimulator.onMarketOrder callbacks ev s

/-- The contract: references of the market are new, used with their locate, and not ids of the
order manager; an id is not that of an order that rests. -/
def Allowed (s : System) : Call → Prop
  | .submitSignal .. => Fresh s.2.engine.resting s.1.idOf
  | .onMarketOrder ev =>
    ev.Allowed s.2.engine.resting ∧ ∀ ref ∈ ev.refs, s.1.orderManager.order ref = none
  | .cancelOrder _ | .onOrderReport _ | .onOrderFill .. => True

/-- The states of the system, from any configuration on, by calls that satisfy a condition on the
state they are made in. -/
inductive Runs (ok : System → Call → Prop) : System → Prop
  | start (visits : VisitOrder) (base : UInt64) (rm : RiskManager) (baseQty : UInt64) (capacity : ℕ)
      (view : Option ℕ) (sink : MarketEvent → Option Market.OrderBookConsumer → List Mark)
      (hrm : rm.IsNew) (hlo : 2 ≤ capacity) (hhi : capacity ≤ 2 ^ 31)
      (hview : ∀ n ∈ view, 2 ≤ n ∧ n ≤ 2 ^ 31) :
      Runs ok ({ orderManager := { visits := visits, nextId := base.toNat }
                 riskManager := rm, baseQty := baseQty }, .new capacity view sink)
  | call {s s' : System} (c : Call) (h : Runs ok s) (hc : ok s c) (hcall : s.step c = some s') :
      Runs ok s'

/-- A weaker condition allows more. -/
theorem Runs.mono {ok ok' : System → Call → Prop} (hle : ∀ s c, ok s c → ok' s c) {s : System}
    (h : Runs ok s) : Runs ok' s := by
  induction h with
  | start visits base rm baseQty capacity view sink hrm hlo hhi hview =>
    exact .start visits base rm baseQty capacity view sink hrm hlo hhi hview
  | call c _ hc hcall ih => exact ih.call c (hle _ c hc) hcall

/-- The states under the contract. -/
abbrev Reached : System → Prop := Runs Allowed

/-! ### Orders of the order manager and orders of the exchange -/

/-- **The order manager knows** every order of the strategy and where it rests. -/
structure Joined (s : System) : Prop where
  /-- The engine has been reached, and the orders of the strategy are its own. -/
  owned : StrategyOwned s.2
  /-- What was submitted is known. -/
  known : ∀ ref ∈ s.2.submitted, s.1.orderManager.order ref ≠ none
  /-- Ids are issued upwards. -/
  issued : ∀ {ref : ℕ} {order : Order}, s.1.orderManager.order ref = some order → ref < s.1.idOf
  /-- An order rests under its symbol. -/
  routed : ∀ {ref : ℕ} {order : Order}, s.1.orderManager.order ref = some order →
    RoutedTo s.2.engine.resting ref order.symbolId

/-- It depends on which orders there are only. -/
theorem Joined.congr {ee ee' : ExecutionEngine} {sim : ExchangeSimulator} (h : Joined (ee, sim))
    (horder : ∀ id, ee'.orderManager.order id = ee.orderManager.order id)
    (hnext : ee'.orderManager.nextId = ee.orderManager.nextId) : Joined (ee', sim) where
  owned := h.owned
  known := by
    intro ref hm
    rw [horder]
    exact h.known ref hm
  issued := by
    intro ref order hr
    rw [ExecutionEngine.idOf, hnext]
    exact h.issued ((horder ref).symm.trans hr)
  routed := by
    intro ref order hr
    exact h.routed ((horder ref).symm.trans hr)

end System

namespace ExecutionEngine

/-- A report does not change which orders there are. -/
theorem applyReport_orders (ee : ExecutionEngine) (f : Fill) (order : Order) :
    (∀ id, (ee.applyReport f order).orderManager.order id = ee.orderManager.order id) ∧
      (ee.applyReport f order).orderManager.nextId = ee.orderManager.nextId := by
  rw [applyReport]
  split
  · have h := ee.orderManager.onAccept_revises f.orderId f.exchangeRef
    exact ⟨h.order (Entry.accepted_order · _), h.nextId⟩
  · have h := ee.orderManager.onFill_revises f.orderId f.filledQty f.fillPrice
    exact ⟨h.order (Entry.filledWith_order · _ _), h.nextId⟩
  · have h := ee.orderManager.onCancel_revises f.orderId
    exact ⟨h.order Entry.cancelConfirmed_order, h.nextId⟩
  · have h := ee.orderManager.onReject_revises f.orderId
    exact ⟨h.order Entry.rejected_order, h.nextId⟩
  · exact ⟨fun _ => rfl, rfl⟩

/-- Nor does the answer to a submit. -/
theorem takeResult_orders (ee : ExecutionEngine) (order : Order) (r : ExchangeSubmitResult) :
    (∀ id, (ee.takeResult order r).orderManager.order id = ee.orderManager.order id) ∧
      (ee.takeResult order r).orderManager.nextId = ee.orderManager.nextId := by
  rw [takeResult]
  split
  · have hacc := ee.orderManager.onAccept_revises order.orderId 0
    refine applyFills_keep (P := fun ee' =>
      (∀ id, ee'.orderManager.order id = ee.orderManager.order id) ∧
        ee'.orderManager.nextId = ee.orderManager.nextId) ?_ r.fills
      ⟨hacc.order (Entry.accepted_order · _), hacc.nextId⟩
    rintro ee' f ⟨horder, hnext⟩
    have h := ee'.orderManager.onFill_revises order.orderId f.filledQty f.fillPrice
    exact ⟨fun id => (h.order (Entry.filledWith_order · _ _) id).trans (horder id),
      h.nextId.trans hnext⟩
  · have h := ee.orderManager.onReject_revises order.orderId
    exact ⟨h.order Entry.rejected_order, h.nextId⟩

/-- Registering an order adds it under the next id. -/
theorem registered_order (ee : ExecutionEngine) (order : Order) (id : ℕ) :
    (ee.registered order).orderManager.order id =
      if id = ee.idOf then some { order with orderId := ee.idOf }
      else ee.orderManager.order id := by
  rw [OrderManager.order]
  show (Function.update ee.orderManager.orders ee.idOf _ id).map Entry.order = _
  split
  · next hid =>
    rw [hid, Function.update_self]
    rfl
  · next hid =>
    rw [Function.update_of_ne hid]
    rfl

end ExecutionEngine

/-! ### The engine as a client -/

/-- Talking goes on. -/
theorem Talk.trans {ok : StrategyCall → ExchangeSimulator → Prop}
    {sim₁ sim₂ sim₃ : ExchangeSimulator} (h : Talk ok sim₁ sim₂) (h' : Talk ok sim₂ sim₃) :
    Talk ok sim₁ sim₃ := by
  induction h with
  | done => exact h'
  | call c hc htake _ ih => exact .call c hc htake (ih h')

/-- One more call. -/
theorem Talk.snoc {ok : StrategyCall → ExchangeSimulator → Prop}
    {sim₁ sim₂ sim₃ : ExchangeSimulator} (h : Talk ok sim₁ sim₂) (c : StrategyCall)
    (hc : ok c sim₂) (htake : sim₂.take c = some sim₃) : Talk ok sim₁ sim₃ :=
  h.trans (.call c hc htake (.done sim₃))

namespace System

section Joined

variable {ee : ExecutionEngine} {sim sim' : ExchangeSimulator}

/-- A cancel of an order that is known keeps the contract. -/
theorem Joined.cancel (h : Joined (ee, sim)) {id : ℕ} {order : Order} {reports : List Fill}
    (horder : ee.orderManager.order id = some order)
    (hcall : sim.cancel id order.symbolId kStrategyUserId = some (reports, sim')) :
    Contract.apart.strategy (.cancel id order.symbolId kStrategyUserId) sim ∧
      Joined (ee, sim') := by
  have hallowed : Contract.apart.strategy (.cancel id order.symbolId kStrategyUserId) sim :=
    h.routed horder
  have htake : sim.take (.cancel id order.symbolId kStrategyUserId) = some sim' := by
    rw [ExchangeSimulator.take, hcall]
    rfl
  have howned := stable_strategyOwned.strategy h.owned hallowed htake
  obtain ⟨e', -, ⟨b, x, -, -, -, hrest, -, rfl⟩ | ⟨-, hrest, -, rfl⟩⟩ :=
    ExchangeSimulator.cancel_cases h.owned.1.inv (h.routed horder) hcall
  · refine ⟨hallowed, howned, h.known, h.issued, fun hr L b y hy hid => ?_⟩
    have hy : y ∈ e'.resting L b := hy
    rw [hrest] at hy
    exact h.routed hr L b y (Exchange.mem_leave hy) hid
  · refine ⟨hallowed, howned, h.known, h.issued, fun hr L b y hy hid => ?_⟩
    have hy : y ∈ e'.resting L b := hy
    rw [hrest] at hy
    exact h.routed hr L b y hy hid

/-- All that the engine does to the simulator is talk. -/
def Follows (sim₀ : ExchangeSimulator) (s : System) : Prop :=
  Talk Contract.apart.strategy sim₀ s.2 ∧ Joined s

/-- **The steps of the engine** are talk. -/
theorem kept_follows (sim₀ : ExchangeSimulator) :
    ExecutionEngine.Kept ExchangeSimulator.interface (Follows sim₀) where
  lock := fun h => ⟨h.1, h.2.congr (fun _ => rfl) rfl⟩
  unlock := fun h => ⟨h.1, h.2.congr (fun _ => rfl) rfl⟩
  report := by
    intro ee sim f order _ h
    obtain ⟨horder, hnext⟩ := ee.applyReport_orders f order
    exact ⟨h.1, h.2.congr horder hnext⟩
  issue := fun h => ⟨h.1, h.2.congr (fun _ => rfl) rfl⟩
  request := by
    intro ee sim id h
    exact ⟨h.1, h.2.congr (ExecutionEngine.order_requestCancel _ id)
      (ee.orderManager.requestCancel_revises id).nextId⟩
  cancel := by
    intro ee sim sim' id order reports horder h hcall
    have hcall : sim.cancel id order.symbolId kStrategyUserId = some (reports, sim') := hcall
    obtain ⟨hok, hjoined⟩ := h.2.cancel horder hcall
    refine ⟨h.1.snoc _ hok ?_, hjoined⟩
    rw [ExchangeSimulator.take, hcall]
    rfl

/-- **A report** is talk. -/
theorem Joined.report {f : Fill} {ee' : ExecutionEngine} (h : Joined (ee, sim))
    (hcall : callbacks.onOrderReport f ee sim = some (ee', sim')) :
    Talk Contract.apart.strategy sim sim' ∧ Joined (ee', sim') :=
  (kept_follows sim).onOrderReport ⟨.done sim, h⟩ hcall

/-- Joining depends on the orders that rest and were submitted only. -/
theorem Joined.congr_sim (h : Joined (ee, sim)) (he : sim'.engine = sim.engine)
    (hs : sim'.submitted = sim.submitted) : Joined (ee, sim') where
  owned := by
    obtain ⟨hreach, howned⟩ := h.owned
    refine ⟨he ▸ hreach, ?_⟩
    rw [he, hs]
    exact howned
  known := by
    rw [hs]
    exact h.known
  issued := h.issued
  routed := by
    rw [he]
    exact h.routed

/-- An order is registered under an id that rests nowhere. -/
theorem Joined.register (h : Joined (ee, sim)) (order : Order)
    (hfresh : Fresh sim.engine.resting ee.idOf) : Joined (ee.registered order, sim) where
  owned := h.owned
  known := by
    intro ref hm
    rw [ExecutionEngine.registered_order]
    split
    · exact Option.some_ne_none _
    · exact h.known ref hm
  issued := by
    intro ref order' hr
    rw [ExecutionEngine.registered_order] at hr
    split at hr
    · next hid => exact hid ▸ Nat.lt_succ_self _
    · exact Nat.lt_succ_of_lt (h.issued hr)
  routed := by
    intro ref order' hr
    rw [ExecutionEngine.registered_order] at hr
    split at hr
    · next hid => exact fun L b x hx hxid => absurd (hxid.trans hid) (hfresh L b x hx)
    · exact h.routed hr

/-- **A submit** is talk, and puts the order under its symbol. -/
theorem Joined.submit (h : Joined (ee, sim)) {order : Order} {tif : OrderTif}
    {r : ExchangeSubmitResult} {marks : List Mark}
    (hfresh : Fresh sim.engine.resting ee.idOf)
    (hcall : sim.submit order ee.idOf tif = some (r, marks, sim')) :
    Talk Contract.apart.strategy sim sim' ∧ Joined (ee.registered order, sim') := by
  have hok : Contract.apart.strategy (.submit order ee.idOf tif) sim := hfresh
  have htake : sim.take (.submit order ee.idOf tif) = some sim' := by
    rw [ExchangeSimulator.take, hcall]
    rfl
  have howned := stable_strategyOwned.strategy h.owned hok htake
  have hreg := h.register order hfresh
  obtain ⟨rsp, e', out', hexec, hfold, -⟩ := ExchangeSimulator.submit_spec hcall
  obtain ⟨hengine, hsub, -⟩ := ExchangeSimulator.takeAnswers_frame hfold
  have heff := effect_of_exec h.owned.1.inv
    (c := ExchangeSimulator.submitCommand order ee.idOf tif) hfresh hexec
  refine ⟨.call _ hok htake (.done sim'), howned, ?_, hreg.issued, ?_⟩
  · intro ref hm
    rw [hsub] at hm
    rcases Finset.mem_insert.mp hm with rfl | hm
    · rw [ExecutionEngine.registered_order, if_pos rfl]
      exact Option.some_ne_none _
    · exact hreg.known ref hm
  · intro ref order' hr L b y hy hid
    have hy : y ∈ sim'.engine.resting L b := hy
    rw [hengine] at hy
    rw [ExecutionEngine.registered_order] at hr
    split at hr
    · next href =>
      obtain rfl := Option.some.inj hr
      exact (heff.entered hfresh hy (hid.trans href)).2.1.1
    · next href =>
      obtain ⟨x, hx, hcut⟩ := heff.before h.owned.1.inv
        (fun he => href (Option.some.inj he).symm) (Option.some_ne_none _).symm hy hid
      exact h.routed hr L b x hx (hcut.orderId.symm.trans hid)

/-- **A call of the engine from outside** is talk. -/
theorem Joined.step {s s' : System} (h : Joined s) {c : Call} (hc : s.Allowed c)
    (hstrategy : ∀ ev, c ≠ .onMarketOrder ev) (hcall : s.step c = some s') :
    Talk Contract.apart.strategy s.2 s'.2 ∧ Joined s' := by
  have hkept := kept_follows s.2
  have hstart : Follows s.2 s := ⟨.done s.2, h⟩
  cases c with
  | submitSignal sig strategyId type =>
    obtain ⟨⟨id, s₁⟩, hsubmit, rfl⟩ := Option.map_eq_some_iff.mp hcall
    generalize horder : s.1.orderFor sig strategyId type = order at *
    rcases ExecutionEngine.submitSignal_cases hsubmit with
      ⟨-, rfl⟩ | ⟨-, ⟨-, rfl⟩ | ⟨-, r, marks, sim', s₂, hex, hflat, rfl⟩⟩
    · exact hstart
    · rw [horder]
      have hreject := (s.1.registered order).orderManager.onReject_revises s.1.idOf
      exact ⟨.done s.2, (h.register order hc).congr
        (fun id => hreject.order Entry.rejected_order id) hreject.nextId⟩
    · rw [horder] at hex hflat
      obtain ⟨htalk, hjoined⟩ := h.submit hc hex
      obtain ⟨horders, hnext⟩ :=
        ((s.1.registered order).takeMarks marks).takeResult_orders order r
      exact hkept.unlock (hkept.flattenOnDrawdown ⟨htalk, hjoined.congr horders hnext⟩ hflat)
  | cancelOrder id =>
    obtain ⟨⟨ok, s₁⟩, hcancel, rfl⟩ := Option.map_eq_some_iff.mp hcall
    exact hkept.cancelOrder hstart hcancel
  | onOrderReport f => exact hkept.onOrderReport hstart hcall
  | onOrderFill id qty price =>
    have hcall : ExecutionEngine.onOrderReport exchange _ s = some s' :=
      (ExecutionEngine.onOrderFill_eq exchange id qty price s).symm.trans hcall
    exact hkept.onOrderReport hstart hcall
  | onMarketOrder ev => exact absurd rfl (hstrategy ev)

end Joined

/-! ### The simulator with the engine for a client -/

open Classical in
/-- The engine, held to what it does in a run of the system: talk. -/
noncomputable def client : Client Contract.apart.strategy ExecutionEngine where
  onOrderReport := fun f ee sim => (callbacks.onOrderReport f ee sim).bind fun r =>
    if Talk Contract.apart.strategy sim r.2 then some r else none
  mark := callbacks.mark
  talks := by
    intro f ee ee' sim sim' h
    obtain ⟨r, -, hr⟩ := Option.bind_eq_some_iff.mp h
    split at hr
    · next htalk =>
      obtain rfl := Option.some.inj hr
      exact htalk
    · exact absurd hr (by simp)

theorem client_report {f : Fill} {ee ee' : ExecutionEngine} {sim sim' : ExchangeSimulator}
    (h : Joined (ee, sim)) (hcall : callbacks.onOrderReport f ee sim = some (ee', sim')) :
    client.onOrderReport f ee sim = some (ee', sim') := by
  show (callbacks.onOrderReport f ee sim).bind _ = _
  rw [hcall, Option.bind_some, if_pos (h.report hcall).1]

section Client

open ExchangeSimulator

variable {ee ee' : ExecutionEngine} {sim sim' : ExchangeSimulator}

theorem Joined.announce (h : Joined (ee, sim)) {ev : MarketEvent}
    (hcall : ExchangeSimulator.announce callbacks ev (ee, sim) = some (ee', sim')) :
    Joined (ee', sim') := by
  obtain ⟨⟨marks, sim₁⟩, hb, heq⟩ := Option.map_eq_some_iff.mp hcall
  obtain ⟨rfl, rfl⟩ := Prod.mk.inj heq
  obtain ⟨view, rfl, -⟩ := broadcast_spec hb
  have hmark : Joined (ee.takeMarks marks, sim) := h.congr (fun _ => rfl) rfl
  exact hmark.congr_sim rfl rfl

theorem Joined.makerFill (h : Joined (ee, sim)) {ref : ℕ} {qty : UInt64} {price : Int64}
    (hcall : onStrategyMakerFill callbacks ref qty price (ee, sim) = some (ee', sim')) :
    onStrategyMakerFill client.toCallbacks ref qty price (ee, sim) = some (ee', sim') ∧
      Joined (ee', sim') := by
  obtain ⟨⟨ee₁, sim₁⟩, hreport, hmap⟩ := Option.bind_eq_some_iff.mp hcall
  constructor
  · rw [onStrategyMakerFill, client_report h hreport]
    exact hmap
  · obtain ⟨sim₂, hgone, heq⟩ := Option.map_eq_some_iff.mp hmap
    obtain ⟨rfl, rfl⟩ := Prod.mk.inj heq
    have hjoined := (h.report hreport).2
    rcases unregisterIfGone_spec hgone with ⟨-, rfl⟩ | ⟨-, rfl⟩
    · exact hjoined.congr_sim rfl rfl
    · exact hjoined

/-- One trade. -/
theorem Joined.routeTrade {locate taker : ℕ} {t : ℕ × UInt32 × UInt32} (h : Joined (ee, sim))
    (hcall : ExchangeSimulator.routeTrade callbacks locate taker (ee, sim) t = some (ee', sim')) :
    ExchangeSimulator.routeTrade client.toCallbacks locate taker (ee, sim) t = some (ee', sim') ∧
      Joined (ee', sim') := by
  have h₀ : Joined (ee, sim.countTrade taker t.1 t.2.2) := h.congr_sim rfl rfl
  rw [ExchangeSimulator.routeTrade] at hcall ⊢
  split at hcall
  · next hs =>
    rw [if_pos hs]
    exact h₀.makerFill hcall
  · next hs =>
    rw [if_neg hs]
    exact ⟨hcall, h₀.announce hcall⟩

/-- **The loop over the trades** is one with a client. -/
theorem Joined.routeTrades {locate taker : ℕ} {ts : List (ℕ × UInt32 × UInt32)}
    (h : Joined (ee, sim))
    (hcall : ExchangeSimulator.routeTrades callbacks locate taker ts (ee, sim) =
      some (ee', sim')) :
    ExchangeSimulator.routeTrades client.toCallbacks locate taker ts (ee, sim) =
      some (ee', sim') ∧ Joined (ee', sim') := by
  induction ts generalizing ee sim with
  | nil =>
    obtain ⟨rfl, rfl⟩ := Prod.mk.inj (Option.some.inj hcall)
    exact ⟨rfl, h⟩
  | cons t ts ih =>
    obtain ⟨⟨ee₁, sim₁⟩, hfirst, hrest⟩ := Option.bind_eq_some_iff.mp hcall
    obtain ⟨hstep, hjoined₁⟩ := h.routeTrade hfirst
    obtain ⟨hclient, hjoined⟩ := ih hjoined₁ hrest
    refine ⟨?_, hjoined⟩
    show (ExchangeSimulator.routeTrade client.toCallbacks locate taker (ee, sim) t).bind _ = _
    rw [hstep]
    exact hclient

/-- What the contract says about an event. -/
theorem Joined.market (h : Joined (ee, sim)) {ev : ItchEvent}
    (hc : System.Allowed (ee, sim) (.onMarketOrder ev)) : Contract.apart.market ev sim :=
  ⟨hc.1, fun ref hr hm => h.known ref hm (hc.2 ref hr)⟩

/-- An event of the market leaves the orders of the strategy under their symbols. -/
theorem Joined.enter (h : Joined (ee, sim)) {ev : ItchEvent}
    (hc : System.Allowed (ee, sim) (.onMarketOrder ev)) {rsp : List BinaryResponse}
    {e' : MatchingEngine} {marks : List Mark}
    (henter : enterMarket sim.engine ev = some (some (rsp, e')))
    (hb : ({ sim.advance with engine := e' } : ExchangeSimulator).broadcast
      (toMarketEvent (sim.clock + 1) ev) = some (marks, sim')) :
    Joined (ee.takeMarks marks, sim') := by
  obtain ⟨c, hcmd, hexec⟩ := exec_of_enterMarket henter
  have heff := effect_of_exec h.owned.1.inv ((ItchEvent.allowed_iff hcmd).mpr hc.1) hexec
  have hsame : sim'.engine = e' ∧ sim'.submitted = sim.submitted := by
    obtain ⟨view, rfl, -⟩ := broadcast_spec hb
    exact ⟨rfl, rfl⟩
  refine ⟨stable_strategyOwned.market h.owned (h.market hc) henter hb, ?_, h.issued, ?_⟩
  · rw [hsame.2]
    exact h.known
  · intro ref order hr L b y hy hid
    have hr : ee.orderManager.order ref = some order := hr
    have href : ref ∉ ev.refs := fun hm => absurd ((hc.2 ref hm).symm.trans hr) (by simp)
    have hy : y ∈ e'.resting L b := hsame.1 ▸ hy
    obtain ⟨hnew, htarget⟩ := ItchEvent.not_named hcmd href
    obtain ⟨x, hx, hcut⟩ := heff.before h.owned.1.inv hnew htarget hy hid
    exact h.routed hr L b x hx (hcut.orderId.symm.trans hid)

/-- **An event of the market** is one with a client. -/
theorem Joined.onMarketOrder (h : Joined (ee, sim)) {ev : ItchEvent}
    (hc : System.Allowed (ee, sim) (.onMarketOrder ev))
    (hcall : ExchangeSimulator.onMarketOrder callbacks ev (ee, sim) = some (ee', sim')) :
    ExchangeSimulator.onMarketOrder client.toCallbacks ev (ee, sim) = some (ee', sim') ∧
      Joined (ee', sim') := by
  rcases onMarketOrder_cases hcall with ⟨rfl, rfl, L, rfl⟩ | ⟨rsp, e', marks, sim₁, henter, hb⟩
  · exact ⟨hcall, h.congr_sim rfl rfl⟩
  · rw [onMarketOrder_eq ee henter hb] at hcall ⊢
    obtain ⟨⟨ee₂, sim₂⟩, hroute, hcall⟩ := Option.bind_eq_some_iff.mp hcall
    obtain ⟨hclient, hjoined⟩ := (h.enter hc henter hb).routeTrades hroute
    constructor
    · rw [show client.mark = callbacks.mark from rfl]
      rw [show callbacks.mark marks ee = ee.takeMarks marks from rfl, hclient]
      exact hcall
    · split at hcall
      · exact hjoined.announce hcall
      · obtain ⟨rfl, rfl⟩ := Prod.mk.inj (Option.some.inj hcall)
        exact hjoined

end Client

/-! ### Runs -/

theorem Runs.joined {s : System} (h : Reached s) : Joined s := by
  induction h with
  | start visits base rm baseQty capacity view sink hrm hlo hhi hview =>
    have hnone : ∀ {ref : ℕ} {order : Order},
        ({ visits := visits, nextId := base.toNat } : OrderManager).order ref ≠ some order :=
      fun h => absurd h (by simp [OrderManager.order])
    exact ⟨strategyOwned_new capacity view sink hlo hhi,
      fun ref hm => absurd hm (Finset.notMem_empty ref),
      fun hr => absurd hr hnone, fun hr => absurd hr hnone⟩
  | @call s s' c hr hc hcall ih =>
    by_cases hstrategy : ∀ ev, c ≠ .onMarketOrder ev
    · exact (ih.step hc hstrategy hcall).2
    · push Not at hstrategy
      obtain ⟨ev, rfl⟩ := hstrategy
      exact (ih.onMarketOrder hc hcall).2

/-- A test on the state that implies the contract. -/
def test (s : System) : Call → Bool
  | .submitSignal .. => s.2.engine.noSlot s.1.idOf
  | .onMarketOrder ev => ExchangeSimulator.refsTest (.market ev) s.2 &&
    ev.refs.all fun ref => (s.1.orderManager.order ref).isNone
  | .cancelOrder _ | .onOrderReport _ | .onOrderFill .. => true

/-- Calls one after the other, as long as they pass the test. -/
def play : List Call → System → Option System
  | [], s => some s
  | c :: cs, s => if s.test c then (s.step c).bind (play cs) else none

theorem Joined.allowed_of_test {s : System} (h : Joined s) {c : Call} (htest : s.test c = true) :
    s.Allowed c := by
  cases c with
  | submitSignal sig strategyId type => exact Exchange.fresh_of_noSlot h.owned.1.inv htest
  | onMarketOrder ev =>
    obtain ⟨hrefs, hnone⟩ := (Bool.and_eq_true _ _).mp htest
    refine ⟨ExchangeSimulator.refsTest_market h.owned.1.inv hrefs, fun ref hm => ?_⟩
    exact Option.isNone_iff_eq_none.mp (List.all_eq_true.mp hnone ref hm)
  | cancelOrder => trivial
  | onOrderReport => trivial
  | onOrderFill => trivial

/-- A run that passes the test is a run. -/
theorem Runs.play {s s' : System} (h : Reached s) {cs : List Call}
    (hrun : System.play cs s = some s') : Reached s' := by
  induction cs generalizing s with
  | nil => exact Option.some.inj hrun ▸ h
  | cons c cs ih =>
    rw [System.play] at hrun
    split at hrun
    · next htest =>
      obtain ⟨s₁, hcall, hrest⟩ := Option.bind_eq_some_iff.mp hrun
      exact ih (h.call c (h.joined.allowed_of_test htest) hcall) hrest
    · exact absurd hrun (by simp)

/-- The system as it is assembled, with ids from `base` on and a pool of `capacity` slots. -/
def new (base : UInt64) (rm : RiskManager) (capacity : ℕ) : System :=
  ({ orderManager := { nextId := base.toNat }, riskManager := rm },
    .new capacity none fun _ _ => [])

theorem reached_new (base : UInt64) {rm : RiskManager} {capacity : ℕ} (hrm : rm.IsNew)
    (hlo : 2 ≤ capacity) (hhi : capacity ≤ 2 ^ 31) : Reached (new base rm capacity) :=
  .start .inserted base rm 100 capacity none _ hrm hlo hhi (by simp)

/-- **The registry is exact** in every run of the system, between two calls from outside, as long
as the index is complete: a reference is registered if and only if it was submitted and rests. -/
theorem reached_registry {s : System} (h : Reached s)
    (hd : s.2.engine.shared.insertDropped = false) (ref : ℕ) :
    s.2.isStrategyOrder ref = true ↔
      ref ∈ s.2.submitted ∧ Rests s.2.engine.resting ref := by
  refine Registered.iff ?_ hd ref
  clear hd
  induction h with
  | start => exact registered_new _ _ _
  | @call s s' c hr hc hcall ih =>
    have hjoined := hr.joined
    by_cases hstrategy : ∀ ev, c ≠ .onMarketOrder ev
    · exact ih.talk hjoined.owned (hjoined.step hc hstrategy hcall).1
    · push Not at hstrategy
      obtain ⟨ev, rfl⟩ := hstrategy
      exact ih.onMarketOrder hjoined.owned (hjoined.market hc) (hjoined.onMarketOrder hc hcall).1

/-- Two bids of the strategy, the first of which is used up. -/
theorem reached_registry_two : ∃ s, play
    [.submitSignal { side := .buy, price := 101, strength := 10000 } 1 .limit,
      .submitSignal { side := .buy, price := 100, strength := 10000 } 1 .limit,
      .onMarketOrder (.add 0 1 .sell 100 150)] (new 1000 {} 4) = some s ∧
    (Rests s.2.engine.resting 1001 ∧ s.2.isStrategyOrder 1001 = true) ∧
    ¬ Rests s.2.engine.resting 1000 ∧ s.2.isStrategyOrder 1000 = false := by
  have hread : (play [.submitSignal { side := .buy, price := 101, strength := 10000 } 1 .limit,
      .submitSignal { side := .buy, price := 100, strength := 10000 } 1 .limit,
      .onMarketOrder (.add 0 1 .sell 100 150)] (new 1000 {} 4)).map (fun s =>
        (s.2.engine.shared.insertDropped, s.2.isStrategyOrder 1001, s.2.isStrategyOrder 1000,
          s.2.submitted)) = some (false, true, false, {1000, 1001}) := by decide +kernel
  obtain ⟨s, hrun, heq⟩ := Option.map_eq_some_iff.mp hread
  obtain ⟨hd, heq⟩ := Prod.mk.inj heq
  obtain ⟨htwo, heq⟩ := Prod.mk.inj heq
  obtain ⟨hone, hsub⟩ := Prod.mk.inj heq
  have hs : Reached s :=
    (reached_new 1000 ⟨rfl, rfl⟩ (by decide) (by decide)).play hrun
  refine ⟨s, hrun, ⟨((reached_registry hs hd 1001).mp htwo).2, htwo⟩, fun hrests => ?_, hone⟩
  have hmem : 1000 ∈ s.2.submitted := by
    rw [hsub]
    decide
  exact absurd (hone.symm.trans ((reached_registry hs hd 1000).mpr ⟨hmem, hrests⟩)) (by decide)

end System

end NebulaX
