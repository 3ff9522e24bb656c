import NebulaX.Lib.Fold
import NebulaX.Risk.Positions
import NebulaX.Sim.System

/-!
# How a call keeps what it keeps

A call of the system is a nest of small steps: an event goes to the book, its trades are routed one
after the other, the report of a trade may start a flatten, and a flatten cancels one order after
the other. `Steady` lists these steps for a property that may mention the trades of the event that
have not been routed yet. What they keep every call keeps, and so does every run.

There is one condition on the events. When the report of a trade starts a flatten, the orders that
later trades of the same event are about are used up in the book already, but the order manager
does not know. `Undisturbed` says that no such trade is about an order of the strategy.

## Main results

* `Withdrawn` — what a cancel of a live order comes to
* `Steady.flattenOnDrawdown`, `Steady.cancelOrder` — cancels
* `Steady.routeTrades`, `Steady.onMarketOrder` — an event
* `Steady.run` — a run
-/

namespace NebulaX.System

open Exchange (MatchingEngine BinaryResponse OrderData OrderTif Fresh Rests effect_of_exec)

/-- The trades of an event that have not been routed: maker, price and quantity. -/
abbrev Waiting := List (ℕ × UInt32 × UInt32)

/-! ### What the engine leaves alone -/

/-- `s` came of `s₀` by what the engine does. -/
structure Since (s₀ s : System) : Prop where
  /-- The order manager knows the orders of the strategy. -/
  joined : Joined s
  /-- The orders are the same. -/
  orders : ∀ id, s.1.orderManager.order id = s₀.1.orderManager.order id
  /-- An index that is complete was complete. -/
  dropped : s.2.engine.shared.insertDropped = false → s₀.2.engine.shared.insertDropped = false

theorem Joined.since {s : System} (h : Joined s) : Since s s := ⟨h, fun _ => rfl, id⟩

theorem kept_since (s₀ : System) : ExecutionEngine.Kept ExchangeSimulator.interface (Since s₀) where
  lock := fun h => ⟨h.joined.congr (fun _ => rfl) rfl, h.orders, h.dropped⟩
  unlock := fun h => ⟨h.joined.congr (fun _ => rfl) rfl, h.orders, h.dropped⟩
  report := by
    intro ee sim f order _ h
    obtain ⟨horder, hnext⟩ := ee.applyReport_orders f order
    exact ⟨h.joined.congr horder hnext, fun id => (horder id).trans (h.orders id), h.dropped⟩
  issue := fun h => ⟨h.joined.congr (fun _ => rfl) rfl, h.orders, h.dropped⟩
  request := by
    intro ee sim id h
    have horder := ExecutionEngine.order_requestCancel ee.orderManager id
    exact ⟨h.joined.congr horder (ee.orderManager.requestCancel_revises id).nextId,
      fun id' => (horder id').trans (h.orders id'), h.dropped⟩
  cancel := by
    intro ee sim sim' id order reports horder h hcall
    have hcall : sim.cancel id order.symbolId kStrategyUserId = some (reports, sim') := hcall
    refine ⟨(h.joined.cancel horder hcall).2, h.orders, fun hd => h.dropped ?_⟩
    obtain ⟨e', hdropped, ⟨b, x, -, -, -, -, -, rfl⟩ | ⟨-, -, -, rfl⟩⟩ :=
      ExchangeSimulator.cancel_cases h.joined.owned.1.inv (h.joined.routed horder) hcall
    · exact hdropped hd
    · exact hdropped hd

/-- The same orders, positions, book, registry and tape. -/
structure Same (s s' : System) : Prop where
  /-- The order manager. -/
  orderManager : s'.1.orderManager = s.1.orderManager
  /-- The positions. -/
  position : ∀ symbol, s'.1.riskManager.position symbol = s.1.riskManager.position symbol
  /-- The limit on them. -/
  maxPosition : s'.1.riskManager.maxPosition = s.1.riskManager.maxPosition
  /-- The book. -/
  engine : s'.2.engine = s.2.engine
  /-- The registry. -/
  strategyRefs : s'.2.strategyRefs = s.2.strategyRefs
  /-- The tape. -/
  tape : s'.2.tape = s.2.tape

/-- **What a cancel of a live order comes to**: it is taken off the book and the registry, or it is
asked for in vain. -/
inductive Withdrawn (s : System) (id : ℕ) (e : Entry) : System → Prop
  | taken {e' : MatchingEngine} {b : Bool} {x : OrderData}
      (hx : x ∈ s.2.engine.resting e.order.symbolId b) (hid : x.orderId = id)
      (hrest : e'.resting = Exchange.leave s.2.engine.resting e.order.symbolId b id)
      (hdropped : e'.shared.insertDropped = false → s.2.engine.shared.insertDropped = false) :
    Withdrawn s id e
      ({ s.1 with
          orderManager := ((s.1.orderManager.requestCancel id).2.onCancel id).2 },
        { s.2.advance with engine := e', strategyRefs := s.2.strategyRefs.erase id })
  | refused {e' : MatchingEngine}
      (hnot : Exchange.NotOwned s.2.engine e.order.symbolId id kStrategyUserId)
      (hrest : e'.resting = s.2.engine.resting)
      (hdropped : e'.shared.insertDropped = false → s.2.engine.shared.insertDropped = false) :
    Withdrawn s id e
      ({ s.1 with orderManager := (s.1.orderManager.requestCancel id).2 },
        { s.2.advance with engine := e' })

/-- **A cancel at the exchange**, with whatever takes its report. -/
theorem withdrawn_of_cancel {s s' : System} (hj : Joined s) {id : ℕ} {e : Entry}
    (he : s.1.orderManager.orders id = some e) {flatten : System → Option System}
    (hcall : ExecutionEngine.exchangeCancel ExchangeSimulator.interface
      (ExecutionEngine.onOrderReportWith flatten) id e.order.symbolId
      ({ s.1 with orderManager := (s.1.orderManager.requestCancel id).2 }, s.2) = some s') :
    ∃ s₁, Withdrawn s id e s₁ ∧ Same s₁ s' := by
  have horder : s.1.orderManager.order id = some e.order := congrArg (Option.map Entry.order) he
  obtain ⟨⟨reports, sim'⟩, hcancel, hfold⟩ := Option.bind_eq_some_iff.mp hcall
  have hcancel : s.2.cancel id e.order.symbolId kStrategyUserId = some (reports, sim') := hcancel
  obtain ⟨e', hdropped, ⟨b, x, hx, hid, -, hrest, rfl, rfl⟩ | ⟨hnot, hrest, rfl, rfl⟩⟩ :=
    ExchangeSimulator.cancel_cases hj.owned.1.inv (hj.routed horder) hcancel
  · refine ⟨_, .taken hx hid hrest hdropped, ?_⟩
    obtain ⟨s₂, hreport, heq⟩ := Option.bind_eq_some_iff.mp hfold
    obtain rfl := Option.some.inj heq
    have hreport : ExecutionEngine.onOrderReportWith flatten
      { type := .canceled, orderId := id } _ = some s₂ := hreport
    have hknown : (s.1.orderManager.requestCancel id).2.order id = some e.order :=
      (ExecutionEngine.order_requestCancel _ id id).trans horder
    rcases ExecutionEngine.onOrderReportWith_cases hreport with
      ⟨hnone, -⟩ | ⟨order, s₃, -, happlied, rfl⟩
    · exact absurd (hknown.symm.trans hnone) (by simp)
    · obtain rfl := Option.some.inj happlied
      exact ⟨rfl, fun _ => rfl, rfl, rfl, rfl, rfl⟩
  · refine ⟨_, .refused hnot hrest hdropped, ?_⟩
    obtain rfl := Option.some.inj hfold
    exact ⟨rfl, fun _ => rfl, rfl, rfl, rfl, rfl⟩

/-! ### The steps -/

/-- **The steps of the system** keep `P`, which may mention the trades that wait. `ok` is the
condition on the signals that come to an order. -/
structure Steady (ok : System → Order → OrderType → Prop) (P : Waiting → System → Prop) :
    Prop where
  /-- It is about orders, positions, book, registry and tape. -/
  congr : ∀ {ts : Waiting} {s s' : System}, P ts s → Same s s' → P ts s'
  /-- An event goes to the book, and its trades wait. -/
  enter : ∀ {s : System} {ev : ItchEvent} {rsp : List BinaryResponse} {e' : MatchingEngine},
    P [] s → Joined s → s.Allowed (.onMarketOrder ev) →
    ExchangeSimulator.enterMarket s.2.engine ev = some (some (rsp, e')) →
    P (ExchangeSimulator.tradesIn rsp) (s.1, { s.2.advance with engine := e' })
  /-- A trade whose maker is not registered, or not known. -/
  other : ∀ {t : ℕ × UInt32 × UInt32} {ts : Waiting} {taker : ℕ} {s : System}, P (t :: ts) s →
    Joined s → s.1.orderManager.order taker = none →
    s.2.isStrategyOrder t.1 = false ∨ s.1.orderManager.orders t.1 = none →
    P ts (s.1, s.2.countTrade taker t.1 t.2.2)
  /-- A trade whose maker is an order of the strategy. -/
  fill : ∀ {t : ℕ × UInt32 × UInt32} {ts : Waiting} {taker : ℕ} {s : System} {e : Entry},
    P (t :: ts) s → Joined s → s.1.orderManager.order taker = none → t.1 ∉ ts.map Prod.fst →
    s.1.orderManager.orders t.1 = some e →
    P ts (s.1.applyFill t.1 e.order t.2.2.toUInt64 t.2.1.toUInt64.toInt64,
      s.2.countTrade taker t.1 t.2.2)
  /-- An order that is gone is taken off the registry. -/
  gone : ∀ {ts : Waiting} {ref : ℕ} {s : System}, P ts s → Joined s → ref ∉ ts.map Prod.fst →
    s.2.engine.findOrder ref = some none →
    P ts (s.1, { s.2 with strategyRefs := s.2.strategyRefs.erase ref })
  /-- Trades with orders of the market only make no difference. -/
  bare : ∀ {ts : Waiting} {s : System}, P ts s → Joined s →
    (∀ t ∈ ts, s.2.isStrategyOrder t.1 = false) →
    P [] s ∧ ∀ s', Since s s' → P [] s' → P ts s'
  /-- A live order is cancelled. -/
  withdraw : ∀ {s s' : System} {id : ℕ} {e : Entry}, P [] s → Joined s →
    s.1.orderManager.orders id = some e → e.status.live = true → Withdrawn s id e s' → P [] s'
  /-- An order is turned down before it is sent. -/
  reject : ∀ {s : System} {order : Order} {type : OrderType}, P [] s → Joined s →
    order.orderId = s.1.idOf → Fresh s.2.engine.resting s.1.idOf → ok s order type → P []
    ({ s.1.registered order with
        orderManager := (s.1.registered order).orderManager.onReject s.1.idOf }, s.2)
  /-- An order is sent, and answered. -/
  submit : ∀ {s : System} {order : Order} {type : OrderType} {r : ExchangeSubmitResult}
    {marks : List Mark} {sim' : ExchangeSimulator}, P [] s → Joined s → order.orderId = s.1.idOf →
    order.quantity ≠ 0 → Fresh s.2.engine.resting s.1.idOf → ok s order type →
    s.1.riskManager.checkOrder order = true →
    s.2.submit order s.1.idOf (ExecutionEngine.tifOf type) = some (r, marks, sim') →
    P [] (((s.1.registered order).takeMarks marks).takeResult order r, sim')

/-- `flatten_on_drawdown` goes through the orders. -/
def Flattens (ee : ExecutionEngine) : Prop :=
  ee.flattenIssued = false ∧ ee.riskManager.drawdownFlatten = true

/-- The report of a fill comes to that. -/
def ReportFlattens (f : Fill) (ee : ExecutionEngine) : Prop :=
  ∃ order, ee.orderManager.order f.orderId = some order ∧ Flattens (ee.applyReport f order)

/-- **No flatten comes in between**: where the report of a trade starts one, the trades that are
still to be routed are with orders of the market. -/
def Undisturbed (s : System) (ev : ItchEvent) : Prop :=
  ∀ rsp e' marks sim', ExchangeSimulator.enterMarket s.2.engine ev = some (some (rsp, e')) →
    ({ s.2.advance with engine := e' } : ExchangeSimulator).broadcast
      (ExchangeSimulator.toMarketEvent (s.2.clock + 1) ev) = some (marks, sim') →
    ExchangeSimulator.EachReport callbacks
      (fun ts f ee sim => ReportFlattens f ee → ∀ t ∈ ts, sim.isStrategyOrder t.1 = false)
      (ExchangeSimulator.locateOf ev) (ExchangeSimulator.takerRef ev)
      (ExchangeSimulator.tradesIn rsp) (s.1.takeMarks marks, sim')

/-- **The calls of a run**: signals that satisfy a condition, cancels, and undisturbed events. -/
def Regular (ok : System → Order → OrderType → Prop) (s : System) : Call → Prop
  | .submitSignal sig strategyId type => s.Allowed (.submitSignal sig strategyId type) ∧
    (¬ s.1.Ignores sig type → ok s (s.1.orderFor sig strategyId type) type)
  | .cancelOrder _ => True
  | .onMarketOrder ev => s.Allowed (.onMarketOrder ev) ∧ s.Undisturbed ev
  | .onOrderReport _ | .onOrderFill .. => False

theorem Regular.allowed {ok : System → Order → OrderType → Prop} {s : System} {c : Call}
    (h : Regular ok s c) : s.Allowed c := by
  cases c with
  | submitSignal => exact h.1
  | cancelOrder => trivial
  | onMarketOrder => exact h.1
  | onOrderReport => exact h.elim
  | onOrderFill => exact h.elim

namespace Steady

variable {ok : System → Order → OrderType → Prop} {P : Waiting → System → Prop} {s s' : System}

/-! ### Cancels -/

theorem cancelLive (h : Steady ok P) {id : ℕ} (hP : P [] s) (hj : Joined s)
    (hcall : ExecutionEngine.cancelLive exchange s id = some s') : P [] s' := by
  rcases ExecutionEngine.cancelLive_cases hcall with ⟨-, rfl⟩ | ⟨e, he, hlive, hcancel⟩
  · exact hP
  · obtain ⟨s₁, hout, hsame⟩ := withdrawn_of_cancel hj he hcancel
    exact h.congr (h.withdraw hP hj he hlive hout) hsame

/-- **A flatten** keeps it, while no trade waits. -/
theorem flattenOnDrawdown (h : Steady ok P) (hP : P [] s) (hj : Joined s)
    (hcall : ExecutionEngine.flattenOnDrawdown exchange s = some s') : P [] s' := by
  rcases ExecutionEngine.flattenOnDrawdown_cases hcall with ⟨-, rfl⟩ | ⟨-, -, hloop⟩
  · exact hP
  · have hstart : P [] ({ s.1 with flattenIssued := true }, s.2) ∧
        Joined ({ s.1 with flattenIssued := true }, s.2) :=
      ⟨h.congr hP ⟨rfl, fun _ => rfl, rfl, rfl, rfl, rfl⟩, hj.congr (fun _ => rfl) rfl⟩
    refine (Fold.keeps (I := fun s => P [] s ∧ Joined s) ?_ hstart hloop).1
    rintro s₁ id s₂ ⟨hP₁, hj₁⟩ hstep
    exact ⟨h.cancelLive hP₁ hj₁ hstep, ((kept_since s₁).cancelLive hj₁.since hstep).joined⟩

theorem cancelOrder (h : Steady ok P) {id : ℕ} {done : Bool} (hP : P [] s) (hj : Joined s)
    (hcall : ExecutionEngine.cancelOrder exchange id s = some (done, s')) : P [] s' := by
  have hlock : P [] (s.1.lock, s.2) := h.congr hP ⟨rfl, fun _ => rfl, rfl, rfl, rfl, rfl⟩
  rcases ExecutionEngine.cancelOrder_cases hcall with
    ⟨-, rfl⟩ | ⟨e, s₂, he, hlive, hcancel, rfl⟩
  · exact h.congr hP ⟨rfl, fun _ => rfl, rfl, rfl, rfl, rfl⟩
  · obtain ⟨s₁, hout, hsame⟩ := withdrawn_of_cancel (s := (s.1.lock, s.2))
      (hj.congr (fun _ => rfl) rfl) he hcancel
    have hP₂ := h.congr (h.withdraw hlock (hj.congr (fun _ => rfl) rfl) he hlive hout) hsame
    exact h.congr hP₂ ⟨rfl, fun _ => rfl, rfl, rfl, rfl, rfl⟩

/-! ### The report of a trade -/

/-- A report that starts no flatten, or whose flatten no trade waits behind. -/
theorem flattenBefore (h : Steady ok P) {ts : Waiting} (hP : P ts s) (hj : Joined s)
    (hcond : Flattens s.1 → ∀ t ∈ ts, s.2.isStrategyOrder t.1 = false)
    (hcall : ExecutionEngine.flattenOnDrawdown exchange s = some s') : P ts s' := by
  by_cases hflattens : Flattens s.1
  · obtain ⟨hnil, hback⟩ := h.bare hP hj (hcond hflattens)
    have hsince : Since s s' := (kept_since s).flattenOnDrawdown hj.since hcall
    exact hback s' hsince (h.flattenOnDrawdown hnil hj hcall)
  · rcases ExecutionEngine.flattenOnDrawdown_cases hcall with ⟨-, rfl⟩ | ⟨hissued, hdraw, -⟩
    · exact hP
    · exact absurd ⟨hissued, hdraw⟩ hflattens

/-- **The report of a trade** with an order of the strategy takes it off the waiting trades. -/
theorem report (h : Steady ok P) {t : ℕ × UInt32 × UInt32} {ts : Waiting} {taker : ℕ}
    {ee : ExecutionEngine} {sim : ExchangeSimulator} (hP : P (t :: ts) (ee, sim))
    (hj : Joined (ee, sim)) (htaker : ee.orderManager.order taker = none)
    (hnot : t.1 ∉ ts.map Prod.fst)
    (hcond : ReportFlattens (ExchangeSimulator.makerReport t) ee →
      ∀ t' ∈ ts, sim.isStrategyOrder t'.1 = false)
    (hcall : ExecutionEngine.onOrderReport exchange (ExchangeSimulator.makerReport t)
      (ee, sim.countTrade taker t.1 t.2.2) = some s') : P ts s' := by
  have hlock : P (t :: ts) (ee.lock, sim) := h.congr hP ⟨rfl, fun _ => rfl, rfl, rfl, rfl, rfl⟩
  have hj' : Joined (ee.lock, sim) := hj.congr (fun _ => rfl) rfl
  have hrelease : ∀ {s : System}, P ts s → P ts (s.1.unlock, s.2) := fun hP =>
    h.congr hP ⟨rfl, fun _ => rfl, rfl, rfl, rfl, rfl⟩
  rcases ExecutionEngine.onOrderReportWith_cases hcall with
    ⟨hnone, rfl⟩ | ⟨order, s₁, horder, hflat, rfl⟩
  · exact hrelease (h.other hlock hj' htaker (Or.inr (Option.map_eq_none_iff.mp hnone)))
  · obtain ⟨e, he, rfl⟩ := Option.map_eq_some_iff.mp horder
    have he : ee.orderManager.orders t.1 = some e := he
    have hfill := h.fill hlock hj' htaker hnot he
    have hj₁ : Joined (ee.lock.applyReport (ExchangeSimulator.makerReport t) e.order,
        sim.countTrade taker t.1 t.2.2) := by
      obtain ⟨horders, hnext⟩ :=
        ee.lock.applyReport_orders (ExchangeSimulator.makerReport t) e.order
      have hcount : Joined (ee.lock, sim.countTrade taker t.1 t.2.2) := hj'.congr_sim rfl rfl
      exact hcount.congr horders hnext
    exact hrelease (h.flattenBefore hfill hj₁ (fun hf => hcond ⟨e.order, horder, hf⟩) hflat)

/-! ### An event -/

/-- One trade. -/
theorem routeTrade (h : Steady ok P) {t : ℕ × UInt32 × UInt32} {ts : Waiting}
    {locate taker : ℕ} (hP : P (t :: ts) s) (hj : Joined s)
    (htaker : s.1.orderManager.order taker = none) (hnot : t.1 ∉ ts.map Prod.fst)
    (hcond : s.2.isStrategyOrder t.1 = true → ReportFlattens (ExchangeSimulator.makerReport t) s.1 →
      ∀ t' ∈ ts, s.2.isStrategyOrder t'.1 = false)
    (hcall : ExchangeSimulator.routeTrade callbacks locate taker s t = some s') :
    P ts s' ∧ s'.1.orderManager.order taker = none := by
  rw [ExchangeSimulator.routeTrade] at hcall
  split at hcall
  · next hstrategy =>
    obtain ⟨s₁, hreport, hgone⟩ := Option.bind_eq_some_iff.mp hcall
    obtain ⟨sim', hgone', rfl⟩ := Option.map_eq_some_iff.mp hgone
    have hcount : Joined (s.1, s.2.countTrade taker t.1 t.2.2) := hj.congr_sim rfl rfl
    have hreport : ExecutionEngine.onOrderReport exchange (ExchangeSimulator.makerReport t)
      (s.1, s.2.countTrade taker t.1 t.2.2) = some s₁ := hreport
    have hsince : Since (s.1, s.2.countTrade taker t.1 t.2.2) s₁ :=
      (kept_since _).onOrderReport hcount.since hreport
    have hP₁ := h.report hP hj htaker hnot (hcond hstrategy) hreport
    refine ⟨?_, (hsince.orders taker).trans htaker⟩
    rcases ExchangeSimulator.unregisterIfGone_spec hgone' with ⟨hnone, rfl⟩ | ⟨-, rfl⟩
    · exact h.gone hP₁ hsince.joined hnot hnone
    · exact hP₁
  · next hstrategy =>
    obtain ⟨⟨marks, sim'⟩, hb, rfl⟩ := Option.map_eq_some_iff.mp hcall
    obtain ⟨view, rfl, -⟩ := ExchangeSimulator.broadcast_spec hb
    have hP₁ := h.other hP hj htaker (Or.inl (Bool.eq_false_of_not_eq_true hstrategy))
    exact ⟨h.congr hP₁ ⟨rfl, RiskManager.position_marks _ marks,
      RiskManager.maxPosition_marks _ marks, rfl, rfl, rfl⟩, htaker⟩

/-- **The loop over the trades** routes all that wait. -/
theorem routeTrades (h : Steady ok P) {ts : Waiting} {locate taker : ℕ} (hP : P ts s)
    (hj : Joined s) (htaker : s.1.orderManager.order taker = none)
    (hnodup : (ts.map Prod.fst).Nodup)
    (hcond : ExchangeSimulator.EachReport callbacks
      (fun ts f ee sim => ReportFlattens f ee → ∀ t ∈ ts, sim.isStrategyOrder t.1 = false)
      locate taker ts s)
    (hcall : ExchangeSimulator.routeTrades callbacks locate taker ts s = some s') : P [] s' := by
  induction ts generalizing s with
  | nil => exact Option.some.inj hcall ▸ hP
  | cons t ts ih =>
    obtain ⟨s₁, hfirst, hrest⟩ := Option.bind_eq_some_iff.mp hcall
    obtain ⟨hnot, hnodup⟩ := List.nodup_cons.mp hnodup
    obtain ⟨hP₁, htaker₁⟩ := h.routeTrade hP hj htaker hnot hcond.1 hfirst
    exact ih hP₁ (hj.routeTrade hfirst).2 htaker₁ hnodup (hcond.2 s₁ hfirst) hrest

/-- **An undisturbed event** keeps it. -/
theorem onMarketOrder (h : Steady ok P) {ev : ItchEvent} (hP : P [] s) (hj : Joined s)
    (hc : s.Allowed (.onMarketOrder ev)) (hcond : s.Undisturbed ev)
    (hcall : ExchangeSimulator.onMarketOrder callbacks ev s = some s') : P [] s' := by
  have hcall : ExchangeSimulator.onMarketOrder callbacks ev (s.1, s.2) = some (s'.1, s'.2) := hcall
  rcases ExchangeSimulator.onMarketOrder_cases hcall with
    ⟨hee, hsim, -⟩ | ⟨rsp, e', marks, sim₁, henter, hb⟩
  · obtain rfl : s' = (s.1, s.2.advance) := Prod.ext hee hsim
    exact h.congr hP ⟨rfl, fun _ => rfl, rfl, rfl, rfl, rfl⟩
  · rw [ExchangeSimulator.onMarketOrder_eq s.1 henter hb] at hcall
    obtain ⟨s₂, hroute, hlast⟩ := Option.bind_eq_some_iff.mp hcall
    have hj₁ : Joined (s.1.takeMarks marks, sim₁) := hj.enter hc henter hb
    have hP₁ : P (ExchangeSimulator.tradesIn rsp) (s.1.takeMarks marks, sim₁) := by
      obtain ⟨view, rfl, -⟩ := ExchangeSimulator.broadcast_spec hb
      exact h.congr (h.enter hP hj hc henter) ⟨rfl, RiskManager.position_marks _ marks,
        RiskManager.maxPosition_marks _ marks, rfl, rfl, rfl⟩
    obtain ⟨c, hcmd, hexec⟩ := exec_of_enterMarket henter
    have heff := effect_of_exec hj.owned.1.inv ((ItchEvent.allowed_iff hcmd).mpr hc.1) hexec
    have htaker : s.1.orderManager.order (ExchangeSimulator.takerRef ev) = none :=
      hc.2 _ (ItchEvent.takerRef_mem hcmd)
    have hP₂ : P [] s₂ := h.routeTrades hP₁ hj₁ htaker (makers_nodup hj.owned.1.inv heff)
      (hcond rsp e' marks sim₁ henter hb) hroute
    split at hlast
    · obtain ⟨⟨marks', sim'⟩, hb', heq⟩ := Option.map_eq_some_iff.mp hlast
      obtain ⟨view, rfl, -⟩ := ExchangeSimulator.broadcast_spec hb'
      rw [← show _ = s' from heq]
      exact h.congr hP₂ ⟨rfl, RiskManager.position_marks _ marks',
        RiskManager.maxPosition_marks _ marks', rfl, rfl, rfl⟩
    · obtain rfl : s₂ = s' := Option.some.inj hlast
      exact hP₂

/-! ### Signals and runs -/

/-- **A signal** that satisfies the condition keeps it. -/
theorem submitSignal (h : Steady ok P) {sig : Signal} {strategyId id : ℕ} {type : OrderType}
    (hP : P [] s) (hj : Joined s) (hfresh : Fresh s.2.engine.resting s.1.idOf)
    (hok : ¬ s.1.Ignores sig type → ok s (s.1.orderFor sig strategyId type) type)
    (hcall : ExecutionEngine.submitSignal exchange sig strategyId type s = some (id, s')) :
    P [] s' := by
  rcases ExecutionEngine.submitSignal_cases hcall with
    ⟨-, rfl⟩ | ⟨hsent, ⟨-, rfl⟩ | ⟨hcheck, r, marks, sim', s₁, hex, hflat, rfl⟩⟩
  · exact hP
  · exact h.congr (h.reject hP hj rfl hfresh (hok hsent)) ⟨rfl, fun _ => rfl, rfl, rfl, rfl, rfl⟩
  · have hquantity : (s.1.orderFor sig strategyId type).quantity ≠ 0 :=
      fun hq => hsent (Or.inr (Or.inr hq))
    have hP₁ := h.submit hP hj rfl hquantity hfresh (hok hsent) hcheck hex
    obtain ⟨-, hj₁⟩ := hj.submit hfresh hex
    obtain ⟨horders, hnext⟩ := ((s.1.registered (s.1.orderFor sig strategyId type)).takeMarks
      marks).takeResult_orders (s.1.orderFor sig strategyId type) r
    exact h.congr (h.flattenOnDrawdown hP₁ (hj₁.congr horders hnext) hflat)
      ⟨rfl, fun _ => rfl, rfl, rfl, rfl, rfl⟩

/-- **A call** of a run keeps it. -/
theorem step (h : Steady ok P) {c : Call} (hP : P [] s) (hj : Joined s) (hc : Regular ok s c)
    (hcall : s.step c = some s') : P [] s' := by
  cases c with
  | submitSignal sig strategyId type =>
    obtain ⟨⟨id, s₁⟩, hsubmit, rfl⟩ := Option.map_eq_some_iff.mp hcall
    exact h.submitSignal hP hj hc.1 hc.2 hsubmit
  | cancelOrder id =>
    obtain ⟨⟨done, s₁⟩, hcancel, rfl⟩ := Option.map_eq_some_iff.mp hcall
    exact h.cancelOrder hP hj hcancel
  | onMarketOrder ev => exact h.onMarketOrder hP hj hc.1 hc.2 hcall
  | onOrderReport => exact hc.elim
  | onOrderFill => exact hc.elim

/-- **What the steps keep** holds in every state of a run, between the calls. -/
theorem run (h : Steady ok P)
    (hnew : ∀ (visits : VisitOrder) (base : ℕ) (rm : RiskManager) (baseQty : UInt64)
      (capacity : ℕ) (view : Option ℕ)
      (sink : MarketEvent → Option Market.OrderBookConsumer → List Mark), rm.IsNew →
      P [] ({ orderManager := { visits := visits, nextId := base }
              riskManager := rm, baseQty := baseQty }, .new capacity view sink))
    (hr : Runs (Regular ok) s) : P [] s := by
  induction hr with
  | start visits base rm baseQty capacity view sink hrm =>
    exact hnew visits base.toNat rm baseQty capacity view sink hrm
  | call c hr hc hcall ih =>
    have hreached : Reached _ := hr.mono fun _ _ => Regular.allowed
    exact h.step ih hreached.joined hc hcall

end Steady

/-! ### Runs that pass a test -/

section Test

variable {E : Type} {cb : Callbacks E}
  {P : Waiting → Fill → E → ExchangeSimulator → Prop} [∀ ts f s sim, Decidable (P ts f s sim)]

instance decidableEachReport (locate taker : ℕ) (ts : Waiting) (s : E × ExchangeSimulator) :
    Decidable (ExchangeSimulator.EachReport cb P locate taker ts s) :=
  match ts with
  | [] => isTrue trivial
  | t :: ts =>
    have : Decidable (∀ s₁, ExchangeSimulator.routeTrade cb locate taker s t = some s₁ →
        ExchangeSimulator.EachReport cb P locate taker ts s₁) :=
      match ExchangeSimulator.routeTrade cb locate taker s t with
      | none => isTrue fun _ h => absurd h.symm (Option.some_ne_none _)
      | some s₁ =>
        have := decidableEachReport locate taker ts s₁
        decidable_of_iff (ExchangeSimulator.EachReport cb P locate taker ts s₁)
          ⟨fun h _ hs => Option.some.inj hs ▸ h, fun h => h s₁ rfl⟩
    inferInstanceAs (Decidable (_ ∧ _))

end Test

instance (ee : ExecutionEngine) : Decidable (Flattens ee) := inferInstanceAs (Decidable (_ ∧ _))

instance (f : Fill) (ee : ExecutionEngine) : Decidable (ReportFlattens f ee) :=
  match h : ee.orderManager.order f.orderId with
  | none => isFalse fun ⟨_, ho, _⟩ => absurd (h.symm.trans ho).symm (Option.some_ne_none _)
  | some order => decidable_of_iff (Flattens (ee.applyReport f order))
      ⟨fun hf => ⟨order, h, hf⟩, fun ⟨_, ho, hf⟩ => Option.some.inj (ho.symm.trans h) ▸ hf⟩

/-- The condition on an event, from what the book and the view make of it. -/
def Undisturbed.check (s : System) (ev : ItchEvent) : Bool :=
  match ExchangeSimulator.enterMarket s.2.engine ev with
  | none | some none => true
  | some (some (rsp, e')) =>
    match ({ s.2.advance with engine := e' } : ExchangeSimulator).broadcast
      (ExchangeSimulator.toMarketEvent (s.2.clock + 1) ev) with
    | none => true
    | some (marks, sim') => decide (ExchangeSimulator.EachReport callbacks
        (fun ts f ee sim => ReportFlattens f ee → ∀ t ∈ ts, sim.isStrategyOrder t.1 = false)
        (ExchangeSimulator.locateOf ev) (ExchangeSimulator.takerRef ev)
        (ExchangeSimulator.tradesIn rsp) (s.1.takeMarks marks, sim'))

theorem Undisturbed.of_check {s : System} {ev : ItchEvent} (h : Undisturbed.check s ev = true) :
    s.Undisturbed ev := by
  intro rsp e' marks sim' henter hb
  simp only [Undisturbed.check, henter, hb] at h
  exact of_decide_eq_true h

section Play

variable {ok : System → Order → OrderType → Prop} [∀ s order type, Decidable (ok s order type)]

/-- A test on the state that implies that a call is one of a run. -/
def regularTest (ok : System → Order → OrderType → Prop)
    [∀ s order type, Decidable (ok s order type)] (s : System) (c : Call) : Bool :=
  s.test c && match c with
    | .submitSignal sig strategyId type => decide (ok s (s.1.orderFor sig strategyId type) type)
    | .cancelOrder _ => true
    | .onMarketOrder ev => Undisturbed.check s ev
    | .onOrderReport _ | .onOrderFill .. => false

/-- Calls one after the other, as long as they pass a test. -/
def playIf (test : System → Call → Bool) : List Call → System → Option System
  | [], s => some s
  | c :: cs, s => if test s c then (s.step c).bind (playIf test cs) else none

theorem Joined.regular_of_test {s : System} (h : Joined s) {c : Call}
    (htest : regularTest ok s c = true) : Regular ok s c := by
  obtain ⟨hallowed, hrest⟩ := (Bool.and_eq_true _ _).mp htest
  have hallowed := h.allowed_of_test hallowed
  cases c with
  | submitSignal => exact ⟨hallowed, fun _ => of_decide_eq_true hrest⟩
  | cancelOrder => trivial
  | onMarketOrder => exact ⟨hallowed, Undisturbed.of_check hrest⟩
  | onOrderReport => exact absurd hrest Bool.false_ne_true
  | onOrderFill => exact absurd hrest Bool.false_ne_true

/-- A run that passes the test is a run. -/
theorem Runs.playIf {s s' : System} (h : Runs (Regular ok) s) {cs : List Call}
    (hrun : System.playIf (regularTest ok) cs s = some s') : Runs (Regular ok) s' := by
  induction cs generalizing s with
  | nil => exact Option.some.inj hrun ▸ h
  | cons c cs ih =>
    rw [System.playIf] at hrun
    split at hrun
    · next htest =>
      obtain ⟨s₁, hcall, hrest⟩ := Option.bind_eq_some_iff.mp hrun
      have hreached : Reached s := h.mono fun _ _ => Regular.allowed
      exact ih (h.call c (hreached.joined.regular_of_test htest) hcall) hrest
    · exact absurd hrun.symm (Option.some_ne_none _)

end Play

end NebulaX.System
