import NebulaX.Execution.ExecutionEngine
import NebulaX.Lib.Fold
import NebulaX.Oms.Reports

/-!
# The steps of the execution engine

The entry points take the lock, apply reports, ask for cancels, and may flatten in between, where
every cancel may come back with reports of its own. A property of the engine and the exchange that
every single step keeps is kept by all of them, however they are nested: `Kept` lists the steps.
`submit_signal` is a step of its own between the orders it registers and the flatten at its end.

## Main results

* `Kept.onOrderReport`, `Kept.cancelOrder` — what every step keeps, the entry points keep
* `onOrderReportWith_cases`, `cancelLive_cases`, `flattenOnDrawdown_cases`, `cancelOrder_cases`,
  `submitSignal_cases` — what a report, the cancel of a flatten, a flatten, a cancel and a signal
  come to
* `onOrderFill_eq` — a fill is the report of a fill
-/

namespace NebulaX

/-- What the answer to a submit makes of the entry of the order. -/
def Entry.answered (e : Entry) (r : ExchangeSubmitResult) : Entry :=
  if r.accepted then
    r.fills.foldl (fun e f => e.filledWith f.filledQty f.fillPrice) (e.accepted 0)
  else e.rejected

/-- It stays the entry of the order. -/
theorem Entry.answered_order (e : Entry) (r : ExchangeSubmitResult) :
    (e.answered r).order = e.order := by
  have hfills : ∀ (fs : List Fill) (e : Entry),
      (fs.foldl (fun e f => e.filledWith f.filledQty f.fillPrice) e).order = e.order := by
    intro fs
    induction fs with
    | nil => exact fun _ => rfl
    | cons f fs ih => exact fun e => (ih _).trans (e.filledWith_order _ _)
  rw [answered]
  split
  · exact (hfills r.fills _).trans (e.accepted_order 0)
  · exact e.rejected_order

namespace ExecutionEngine

variable {X : Type}

/-- **Every step keeps it**, whatever the exchange reports. -/
structure Kept (exchange : IExchangeSimulator X) (P : ExecutionEngine × X → Prop) : Prop where
  /-- Taking the lock. -/
  lock : ∀ {ee : ExecutionEngine} {x : X}, P (ee, x) → P (ee.lock, x)
  /-- Releasing it. -/
  unlock : ∀ {ee : ExecutionEngine} {x : X}, P (ee, x) → P (ee.unlock, x)
  /-- A report about an order that is known. -/
  report : ∀ {ee : ExecutionEngine} {x : X} (f : Fill) {order : Order},
    ee.orderManager.order f.orderId = some order → P (ee, x) → P (ee.applyReport f order, x)
  /-- The flag of a flatten. -/
  issue : ∀ {ee : ExecutionEngine} {x : X}, P (ee, x) → P ({ ee with flattenIssued := true }, x)
  /-- A request to cancel. -/
  request : ∀ {ee : ExecutionEngine} {x : X} (id : ℕ), P (ee, x) →
    P ({ ee with orderManager := (ee.orderManager.requestCancel id).2 }, x)
  /-- A cancel at the exchange, of an order that is known. -/
  cancel : ∀ {ee : ExecutionEngine} {x x' : X} {id : ℕ} {order : Order} {reports : List Fill},
    ee.orderManager.order id = some order → P (ee, x) →
    exchange.cancel x id order.symbolId kStrategyUserId = some (reports, x') → P (ee, x')

/-- A request to cancel does not change which order an id stands for. -/
theorem order_requestCancel (om : OrderManager) (id id' : ℕ) :
    (om.requestCancel id).2.order id' = om.order id' :=
  (om.requestCancel_revises id).order Entry.cancelRequested_order id'

section Cases

variable {exchange : IExchangeSimulator X} {s s' : ExecutionEngine × X} {id : ℕ}

/-- **What a report comes to**: nothing for an order that is not known. For one that is known it is
applied, and a fill flattens. -/
theorem onOrderReportWith_cases {flatten : ExecutionEngine × X → Option (ExecutionEngine × X)}
    {f : Fill} (hcall : onOrderReportWith flatten f s = some s') :
    (s.1.orderManager.order f.orderId = none ∧ s' = (s.1.lock.unlock, s.2)) ∨
      ∃ order s₁, s.1.orderManager.order f.orderId = some order ∧
        (if f.type = .executed then flatten (s.1.lock.applyReport f order, s.2)
          else some (s.1.lock.applyReport f order, s.2)) = some s₁ ∧
        s' = (s₁.1.unlock, s₁.2) := by
  rw [onOrderReportWith] at hcall
  cases horder : s.1.orderManager.order f.orderId with
  | none =>
    have hsame : s.1.lock.orderManager.order f.orderId = none := horder
    simp only [hsame] at hcall
    exact Or.inl ⟨rfl, (Option.some.inj hcall).symm⟩
  | some order =>
    have hsame : s.1.lock.orderManager.order f.orderId = some order := horder
    simp only [hsame] at hcall
    obtain ⟨s₁, hflatten, rfl⟩ := Option.map_eq_some_iff.mp hcall
    exact Or.inr ⟨order, s₁, rfl, hflatten, rfl⟩

/-- **What the flatten does to one order**: it asks for the cancel of a live order and goes to the
exchange with it. It leaves any other alone. -/
theorem cancelLive_cases (hcall : cancelLive (some exchange) s id = some s') :
    ((∀ e, s.1.orderManager.orders id = some e → ¬ e.status.live = true) ∧ s' = s) ∨
      ∃ e, s.1.orderManager.orders id = some e ∧ e.status.live = true ∧
        exchangeCancel exchange (onOrderReportWith some) id e.order.symbolId
          ({ s.1 with orderManager := (s.1.orderManager.requestCancel id).2 }, s.2) = some s' := by
  rw [cancelLive] at hcall
  cases he : s.1.orderManager.orders id with
  | none =>
    simp only [he] at hcall
    exact Or.inl ⟨fun e he' => absurd he' (by simp), (Option.some.inj hcall).symm⟩
  | some e =>
    simp only [he] at hcall
    by_cases hlive : e.status.live = true
    · rw [if_pos hlive] at hcall
      exact Or.inr ⟨e, rfl, hlive, hcall⟩
    · rw [if_neg hlive] at hcall
      refine Or.inl ⟨fun e' he' => ?_, (Option.some.inj hcall).symm⟩
      obtain rfl := Option.some.inj he'
      exact hlive

/-- **What a flatten does**: it goes through the orders, once and only in a drawdown. -/
theorem flattenOnDrawdown_cases {exchange : Option (IExchangeSimulator X)}
    (hcall : flattenOnDrawdown exchange s = some s') :
    (¬ (s.1.flattenIssued = false ∧ s.1.riskManager.drawdownFlatten = true) ∧ s' = s) ∨
      (s.1.flattenIssued = false ∧ s.1.riskManager.drawdownFlatten = true ∧
        s.1.orderManager.visited.foldlM (cancelLive exchange)
          ({ s.1 with flattenIssued := true }, s.2) = some s') := by
  rw [flattenOnDrawdown] at hcall
  cases hissued : s.1.flattenIssued with
  | true =>
    rw [hissued] at hcall
    exact Or.inl ⟨fun hc => absurd hc.1 (by decide), (Option.some.inj hcall).symm⟩
  | false =>
    rw [hissued, if_neg Bool.false_ne_true] at hcall
    cases hdraw : s.1.riskManager.drawdownFlatten with
    | true =>
      rw [hdraw] at hcall
      exact Or.inr ⟨rfl, rfl, hcall⟩
    | false =>
      rw [hdraw] at hcall
      exact Or.inl ⟨fun hc => absurd hc.2 (by decide), (Option.some.inj hcall).symm⟩

/-- **What a cancel does**: the same under the lock, with the answer whether the order was live. -/
theorem cancelOrder_cases {ok : Bool} (hcall : cancelOrder (some exchange) id s = some (ok, s')) :
    ((∀ e, s.1.orderManager.orders id = some e → ¬ e.status.live = true) ∧
      s' = (s.1.lock.unlock, s.2)) ∨
      ∃ e s₁, s.1.orderManager.orders id = some e ∧ e.status.live = true ∧
        exchangeCancel exchange (onOrderReport (some exchange)) id e.order.symbolId
          ({ s.1.lock with orderManager := (s.1.orderManager.requestCancel id).2 }, s.2) =
            some s₁ ∧
        s' = (s₁.1.unlock, s₁.2) := by
  rw [cancelOrder] at hcall
  have hrequest : s.1.lock.orderManager.requestCancel id = s.1.orderManager.requestCancel id := rfl
  cases he : s.1.orderManager.orders id with
  | none =>
    have horder : s.1.lock.orderManager.order id = none := congrArg (Option.map Entry.order) he
    simp only [horder] at hcall
    exact Or.inl ⟨fun e he' => absurd he' (by simp),
      (Prod.mk.inj (Option.some.inj hcall)).2.symm⟩
  | some e =>
    have horder : s.1.lock.orderManager.order id = some e.order :=
      congrArg (Option.map Entry.order) he
    simp only [horder, hrequest, OrderManager.requestCancel_fst he] at hcall
    by_cases hlive : e.status.live = true
    · rw [if_pos hlive] at hcall
      obtain ⟨s₁, hcancel, heq⟩ := Option.map_eq_some_iff.mp hcall
      exact Or.inr ⟨e, s₁, rfl, hlive, hcancel, (Prod.mk.inj heq).2.symm⟩
    · rw [if_neg hlive] at hcall
      refine Or.inl ⟨fun e' he' => ?_, (Prod.mk.inj (Option.some.inj hcall)).2.symm⟩
      obtain rfl := Option.some.inj he'
      exact hlive

end Cases

namespace Kept

variable {exchange : IExchangeSimulator X} {P : ExecutionEngine × X → Prop}
  {s s' : ExecutionEngine × X}

theorem onOrderReportWith (h : Kept exchange P)
    {flatten : ExecutionEngine × X → Option (ExecutionEngine × X)}
    (hflat : ∀ {s s'}, P s → flatten s = some s' → P s') {f : Fill} (hs : P s)
    (hcall : ExecutionEngine.onOrderReportWith flatten f s = some s') : P s' := by
  have hlock : P (s.1.lock, s.2) := h.lock hs
  rcases onOrderReportWith_cases hcall with ⟨-, rfl⟩ | ⟨order, s₁, horder, hflatten, rfl⟩
  · exact h.unlock hlock
  · have hsame : s.1.lock.orderManager.order f.orderId = some order := horder
    have hreport := h.report f hsame hlock
    refine h.unlock ?_
    split at hflatten
    · exact hflat hreport hflatten
    · exact Option.some.inj hflatten ▸ hreport

theorem exchangeCancel (h : Kept exchange P)
    {report : Fill → ExecutionEngine × X → Option (ExecutionEngine × X)}
    (hreport : ∀ {f s s'}, P s → report f s = some s' → P s') {id : ℕ} {order : Order}
    (horder : s.1.orderManager.order id = some order) (hs : P s)
    (hcall : ExecutionEngine.exchangeCancel exchange report id order.symbolId s = some s') :
    P s' := by
  obtain ⟨⟨reports, x⟩, hcancel, hreports⟩ := Option.bind_eq_some_iff.mp hcall
  have hx : P (s.1, x) := h.cancel horder hs hcancel
  exact Fold.keeps (fun hs hstep => hreport hs hstep) hx hreports

theorem cancelLive (h : Kept exchange P) {id : ℕ} (hs : P s)
    (hcall : ExecutionEngine.cancelLive (some exchange) s id = some s') : P s' := by
  rcases cancelLive_cases hcall with ⟨-, rfl⟩ | ⟨e, he, -, hcancel⟩
  · exact hs
  · have horder : s.1.orderManager.order id = some e.order := congrArg (Option.map Entry.order) he
    exact h.exchangeCancel (h.onOrderReportWith fun hs heq => Option.some.inj heq ▸ hs)
      ((order_requestCancel _ id id).trans horder) (h.request id hs) hcancel

theorem flattenOnDrawdown (h : Kept exchange P) (hs : P s)
    (hcall : ExecutionEngine.flattenOnDrawdown (some exchange) s = some s') : P s' := by
  rcases flattenOnDrawdown_cases hcall with ⟨-, rfl⟩ | ⟨-, -, hloop⟩
  · exact hs
  · exact Fold.keeps (fun hs hstep => h.cancelLive hs hstep) (h.issue hs) hloop

/-- **A report** keeps it, with all that the flatten in it does. -/
theorem onOrderReport (h : Kept exchange P) {f : Fill} (hs : P s)
    (hcall : ExecutionEngine.onOrderReport (some exchange) f s = some s') : P s' :=
  h.onOrderReportWith (fun hs => h.flattenOnDrawdown hs) hs hcall

/-- **A cancel** keeps it. -/
theorem cancelOrder (h : Kept exchange P) {id : ℕ} {ok : Bool} (hs : P s)
    (hcall : ExecutionEngine.cancelOrder (some exchange) id s = some (ok, s')) : P s' := by
  have hlock : P (s.1.lock, s.2) := h.lock hs
  rcases cancelOrder_cases hcall with ⟨-, rfl⟩ | ⟨e, s₁, he, -, hcancel, rfl⟩
  · exact h.unlock hlock
  · have horder : s.1.orderManager.order id = some e.order := congrArg (Option.map Entry.order) he
    exact h.unlock (h.exchangeCancel (fun hs => h.onOrderReport hs)
      ((order_requestCancel _ id id).trans horder) (h.request id hlock) hcancel)

end Kept

/-! ### Fills and signals -/

/-- What one fill keeps, the fills of a submit keep. -/
theorem applyFills_keep {P : ExecutionEngine → Prop} {order : Order}
    (hfill : ∀ {ee} (f : Fill), P ee → P (ee.applyFill order.orderId order f.filledQty f.fillPrice))
    {ee : ExecutionEngine} (fills : List Fill) (h : P ee) :
    P (fills.foldl (fun ee f => ee.applyFill order.orderId order f.filledQty f.fillPrice) ee) := by
  induction fills generalizing ee with
  | nil => exact h
  | cons f fills ih => exact ih (hfill f h)

/-- **The answer to a submit** is a report about its order. -/
theorem takeResult_revises (ee : ExecutionEngine) (order : Order) (r : ExchangeSubmitResult) :
    OrderManager.Revises ee.orderManager (ee.takeResult order r).orderManager order.orderId
      (Entry.answered · r) := by
  rw [takeResult]
  by_cases hacc : r.accepted = true
  · have hfills : ∀ (fs : List Fill) {ee' : ExecutionEngine} {g : Entry → Entry},
        OrderManager.Revises ee.orderManager ee'.orderManager order.orderId g →
        OrderManager.Revises ee.orderManager
          (fs.foldl (fun ee f => ee.applyFill order.orderId order f.filledQty f.fillPrice)
            ee').orderManager order.orderId
          fun e => fs.foldl (fun e f => e.filledWith f.filledQty f.fillPrice) (g e) := by
      intro fs
      induction fs with
      | nil => exact fun h => h
      | cons f fs ih =>
        intro ee' g h
        have hfirst : OrderManager.Revises ee.orderManager
            (ee'.applyFill order.orderId order f.filledQty f.fillPrice).orderManager order.orderId
            fun e => (g e).filledWith f.filledQty f.fillPrice :=
          h.comp (ee'.orderManager.onFill_revises order.orderId f.filledQty f.fillPrice)
        exact ih hfirst
    rw [if_pos hacc]
    have hfirst : OrderManager.Revises ee.orderManager
        ({ ee with orderManager := ee.orderManager.onAccept order.orderId 0 } :
          ExecutionEngine).orderManager order.orderId (Entry.accepted · 0) :=
      ee.orderManager.onAccept_revises order.orderId 0
    have haccept := hfills r.fills hfirst
    have hanswered : (Entry.answered · r) = fun e =>
        r.fills.foldl (fun e f => e.filledWith f.filledQty f.fillPrice) (e.accepted 0) := by
      funext e
      exact if_pos hacc
    rw [hanswered]
    exact haccept
  · rw [if_neg hacc]
    have hanswered : (Entry.answered · r) = Entry.rejected := by
      funext e
      exact if_neg hacc
    rw [hanswered]
    exact ee.orderManager.onReject_revises order.orderId

/-- The answer to a submit leaves the lock alone. -/
theorem takeResult_lock (ee : ExecutionEngine) (order : Order) (r : ExchangeSubmitResult) :
    (ee.takeResult order r).mtx = ee.mtx ∧ (ee.takeResult order r).relocked = ee.relocked := by
  rw [takeResult]
  split
  · exact applyFills_keep (P := fun ee' => ee'.mtx = ee.mtx ∧ ee'.relocked = ee.relocked)
      (fun _ h => h) r.fills ⟨rfl, rfl⟩
  · exact ⟨rfl, rfl⟩

/-- **A fill** is the report of a fill. -/
theorem onOrderFill_eq (exchange : Option (IExchangeSimulator X)) (orderId : ℕ)
    (filledQty : UInt64) (fillPrice : Int64) (s : ExecutionEngine × X) :
    onOrderFill exchange orderId filledQty fillPrice s =
      onOrderReport exchange
        { type := .executed, orderId := orderId, filledQty := filledQty, fillPrice := fillPrice }
        s := rfl

/-- The engine after an order was registered. -/
def registered (ee : ExecutionEngine) (order : Order) : ExecutionEngine :=
  { ee.lock with orderManager := (ee.orderManager.newOrder order).2 }

/-- The id of the next order. -/
def idOf (ee : ExecutionEngine) : ℕ := ee.orderManager.nextId

/-- The order of a signal as it is registered. -/
def orderFor (ee : ExecutionEngine) (sig : Signal) (strategyId : ℕ) (type : OrderType) : Order :=
  { ee.signalOrder sig strategyId type with orderId := ee.idOf }

/-- The time in force of an order. -/
def tifOf (type : OrderType) : Exchange.OrderTif := if type = .limit then .day else .ioc

/-- A signal that comes to no order. -/
def Ignores (ee : ExecutionEngine) (sig : Signal) (type : OrderType) : Prop :=
  (sig.side = .none ∨ sig.price < 0) ∨ (type = .limit ∧ sig.price ≤ 0) ∨ ee.signalQty sig = 0

/-- **What a signal comes to**: no order, an order that is rejected at once, or an order that goes
to the exchange. -/
theorem submitSignal_cases {exchange : IExchangeSimulator X} {sig : Signal} {strategyId : ℕ}
    {type : OrderType} {s s' : ExecutionEngine × X} {id : ℕ}
    (h : submitSignal (some exchange) sig strategyId type s = some (id, s')) :
    (s.1.Ignores sig type ∧ s' = s) ∨ ¬ s.1.Ignores sig type ∧
      ((s.1.riskManager.checkOrder (s.1.orderFor sig strategyId type) = false ∧
        s' = ({ s.1.registered (s.1.orderFor sig strategyId type) with
          orderManager := (s.1.registered (s.1.orderFor sig strategyId type)).orderManager.onReject
            s.1.idOf }.unlock, s.2)) ∨
      s.1.riskManager.checkOrder (s.1.orderFor sig strategyId type) = true ∧ ∃ r marks x s₁,
        exchange.submit s.2 (s.1.orderFor sig strategyId type) s.1.idOf (tifOf type) =
          some (r, marks, x) ∧
        flattenOnDrawdown (some exchange)
          (((s.1.registered (s.1.orderFor sig strategyId type)).takeMarks marks).takeResult
            (s.1.orderFor sig strategyId type) r, x) = some s₁ ∧
        s' = (s₁.1.unlock, s₁.2)) := by
  rw [submitSignal] at h
  split_ifs at h with hside hprice hqty
  · exact Or.inl ⟨Or.inl hside, (Prod.mk.inj (Option.some.inj h)).2.symm⟩
  · exact Or.inl ⟨Or.inr (Or.inl hprice), (Prod.mk.inj (Option.some.inj h)).2.symm⟩
  · exact Or.inl ⟨Or.inr (Or.inr hqty), (Prod.mk.inj (Option.some.inj h)).2.symm⟩
  · refine Or.inr ⟨not_or.mpr ⟨hside, not_or.mpr ⟨hprice, hqty⟩⟩, ?_⟩
    rw [submitOrder] at h
    split at h
    · next hcheck =>
      obtain ⟨-, rfl⟩ := Prod.mk.inj (Option.some.inj h)
      exact Or.inl ⟨(Bool.not_eq_true' _).mp hcheck, rfl⟩
    · next hcheck =>
      obtain ⟨⟨r, marks, x⟩, hsubmit, hrest⟩ := Option.bind_eq_some_iff.mp h
      obtain ⟨s₁, hflat, heq⟩ := Option.map_eq_some_iff.mp hrest
      obtain ⟨-, rfl⟩ := Prod.mk.inj heq
      have hpassed := eq_true_of_ne_false fun hf => hcheck (congrArg not hf)
      exact Or.inr ⟨hpassed, r, marks, x, s₁, hsubmit, hflat, rfl⟩

end ExecutionEngine

end NebulaX
