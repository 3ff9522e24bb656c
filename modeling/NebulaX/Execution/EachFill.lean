import NebulaX.Execution.Steps
import NebulaX.Lib.Fold

/-!
# The fills of a call

A call of the engine applies fills one at a time: those the exchange answers a submit with, the one
that is reported, and those that the exchange reports while the engine cancels orders. `EachFill`
says of a call that every fill that it applies satisfies a condition, in the state that the engine
is in when it applies the fill. The exchange may answer anything.

## Main results

* `KeptWhen` — what fills that satisfy the condition keep, and all other steps
* `KeptWhen.step` — calls whose fills satisfy the condition keep it
-/

namespace NebulaX.ExecutionEngine

open Fold (Along)

variable {X : Type}

/-- A call of the engine from outside. -/
inductive Call
  | submitSignal (sig : Signal) (strategyId : ℕ) (type : OrderType)
  | cancelOrder (orderId : ℕ)
  | onOrderReport (f : Fill)
  | onOrderFill (orderId : ℕ) (filledQty : UInt64) (fillPrice : Int64)

/-- What a call does, without its answer. -/
def step (exchange : Option (IExchangeSimulator X)) (s : ExecutionEngine × X) :
    Call → Option (ExecutionEngine × X)
  | .submitSignal sig strategyId type =>
    (submitSignal exchange sig strategyId type s).map Prod.snd
  | .cancelOrder orderId => (cancelOrder exchange orderId s).map Prod.snd
  | .onOrderReport f => onOrderReport exchange f s
  | .onOrderFill orderId filledQty fillPrice =>
    onOrderFill exchange orderId filledQty fillPrice s

/-! ### The fills of a call -/

section EachFill

variable (G : ExecutionEngine → ℕ → UInt64 → Prop)

/-- The fill of a report, and those of the flatten that comes with it. -/
def ReportFills (flatten : ExecutionEngine × X → Prop) (f : Fill) (s : ExecutionEngine × X) :
    Prop :=
  f.type = .executed → ∀ order, s.1.orderManager.order f.orderId = some order →
    G s.1.lock f.orderId f.filledQty ∧ flatten (s.1.lock.applyReport f order, s.2)

/-- The fills that the exchange reports during a cancel. -/
def CancelFills (exchange : IExchangeSimulator X)
    (report : Fill → ExecutionEngine × X → Option (ExecutionEngine × X))
    (reportFills : Fill → ExecutionEngine × X → Prop) (id symbolId : ℕ)
    (s : ExecutionEngine × X) : Prop :=
  ∀ reports x, exchange.cancel s.2 id symbolId kStrategyUserId = some (reports, x) →
    Along (fun s f => report f s) (fun s f => reportFills f s) reports (s.1, x)

/-- The fills that come while a flatten cancels an order. -/
def LiveFills (exchange : Option (IExchangeSimulator X)) (s : ExecutionEngine × X) (id : ℕ) :
    Prop :=
  ∀ ex ∈ exchange, ∀ e, s.1.orderManager.orders id = some e → e.status.live = true →
    CancelFills ex (onOrderReportWith some) (ReportFills G fun _ => True) id e.order.symbolId
      ({ s.1 with orderManager := (s.1.orderManager.requestCancel id).2 }, s.2)

/-- The fills that come during a flatten. -/
def FlattenFills (exchange : Option (IExchangeSimulator X)) (s : ExecutionEngine × X) : Prop :=
  s.1.flattenIssued = false → s.1.riskManager.drawdownFlatten = true →
    Along (cancelLive exchange) (LiveFills G exchange) s.1.orderManager.visited
      ({ s.1 with flattenIssued := true }, s.2)

/-- The fills that a submit is answered with. -/
def AnswerFills (order : Order) (fills : List Fill) (ee : ExecutionEngine) : Prop :=
  Along (fun ee f => some (ee.applyFill order.orderId order f.filledQty f.fillPrice))
    (fun ee f => G ee order.orderId f.filledQty) fills
    { ee with orderManager := ee.orderManager.onAccept order.orderId 0 }

/-- **Every fill** that a call applies satisfies `G`. -/
def EachFill (exchange : Option (IExchangeSimulator X)) (s : ExecutionEngine × X) : Call → Prop
  | .submitSignal sig strategyId type =>
    ∀ ex ∈ exchange, ¬ s.1.Ignores sig type →
      s.1.riskManager.checkOrder (s.1.orderFor sig strategyId type) = true →
      ∀ r marks x, ex.submit s.2 (s.1.orderFor sig strategyId type) s.1.idOf (tifOf type) =
        some (r, marks, x) →
      (r.accepted = true → AnswerFills G (s.1.orderFor sig strategyId type) r.fills
        ((s.1.registered (s.1.orderFor sig strategyId type)).takeMarks marks)) ∧
      FlattenFills G exchange
        (((s.1.registered (s.1.orderFor sig strategyId type)).takeMarks marks).takeResult
          (s.1.orderFor sig strategyId type) r, x)
  | .cancelOrder id =>
    ∀ ex ∈ exchange, ∀ e, s.1.orderManager.orders id = some e → e.status.live = true →
      CancelFills ex (onOrderReport exchange) (ReportFills G (FlattenFills G exchange)) id
        e.order.symbolId
        ({ s.1.lock with orderManager := (s.1.orderManager.requestCancel id).2 }, s.2)
  | .onOrderReport f => ReportFills G (FlattenFills G exchange) f s
  | .onOrderFill id filledQty fillPrice =>
    ReportFills G (FlattenFills G exchange)
      { type := .executed, orderId := id, filledQty := filledQty, fillPrice := fillPrice } s

end EachFill

/-! ### What the steps keep -/

/-- **Every step keeps it**, and so do the fills that satisfy `G`. -/
structure KeptWhen (G : ExecutionEngine → ℕ → UInt64 → Prop) (P : ExecutionEngine → Prop) :
    Prop where
  /-- Taking the lock. -/
  lock : ∀ {ee : ExecutionEngine}, P ee → P ee.lock
  /-- Releasing it. -/
  unlock : ∀ {ee : ExecutionEngine}, P ee → P ee.unlock
  /-- A fill of an order that is known. -/
  fill : ∀ {ee : ExecutionEngine} {id : ℕ} {order : Order} {q : UInt64} (p : Int64),
    ee.orderManager.order id = some order → G ee id q → P ee → P (ee.applyFill id order q p)
  /-- Any other report. -/
  report : ∀ {ee : ExecutionEngine} (f : Fill) (order : Order), f.type ≠ .executed → P ee →
    P (ee.applyReport f order)
  /-- The flag of a flatten. -/
  issue : ∀ {ee : ExecutionEngine}, P ee → P { ee with flattenIssued := true }
  /-- A request to cancel. -/
  request : ∀ {ee : ExecutionEngine} (id : ℕ), P ee →
    P { ee with orderManager := (ee.orderManager.requestCancel id).2 }
  /-- Marks. -/
  marks : ∀ {ee : ExecutionEngine} (ms : List Mark), P ee → P (ee.takeMarks ms)

namespace KeptWhen

variable {G : ExecutionEngine → ℕ → UInt64 → Prop} {P : ExecutionEngine → Prop}
  {exchange : Option (IExchangeSimulator X)} {s s' : ExecutionEngine × X}

theorem reportWith (h : KeptWhen G P)
    {flatten : ExecutionEngine × X → Option (ExecutionEngine × X)}
    {flattenFills : ExecutionEngine × X → Prop}
    (hflat : ∀ {s s'}, flattenFills s → P s.1 → flatten s = some s' → P s'.1) {f : Fill}
    (hfills : ReportFills G flattenFills f s) (hs : P s.1)
    (hcall : onOrderReportWith flatten f s = some s') : P s'.1 := by
  have hlock : P s.1.lock := h.lock hs
  rcases onOrderReportWith_cases hcall with ⟨-, rfl⟩ | ⟨order, s₁, horder, hflatten, rfl⟩
  · exact h.unlock hlock
  · refine h.unlock ?_
    by_cases hf : f.type = .executed
    · rw [if_pos hf] at hflatten
      obtain ⟨hG, hrest⟩ := hfills hf order horder
      refine hflat hrest ?_ hflatten
      have hsame : s.1.lock.orderManager.order f.orderId = some order := horder
      have hfill := h.fill f.fillPrice hsame hG hlock
      rwa [applyReport, hf]
    · rw [if_neg hf] at hflatten
      exact Option.some.inj hflatten ▸ h.report f order hf hlock

theorem cancelReports {ex : IExchangeSimulator X}
    {report : Fill → ExecutionEngine × X → Option (ExecutionEngine × X)}
    {reportFills : Fill → ExecutionEngine × X → Prop}
    (hreport : ∀ {f s s'}, reportFills f s → P s.1 → report f s = some s' → P s'.1)
    {id symbolId : ℕ} (hfills : CancelFills ex report reportFills id symbolId s) (hs : P s.1)
    (hcall : exchangeCancel ex report id symbolId s = some s') : P s'.1 := by
  obtain ⟨⟨reports, x⟩, hcancel, hreports⟩ := Option.bind_eq_some_iff.mp hcall
  exact (hfills reports x hcancel).keeps (I := fun s => P s.1) (fun hf hs => hreport hf hs) hs
    hreports

theorem cancelLive (h : KeptWhen G P) {id : ℕ} (hfills : LiveFills G exchange s id) (hs : P s.1)
    (hcall : ExecutionEngine.cancelLive exchange s id = some s') : P s'.1 := by
  cases exchange with
  | none =>
    -- the request alone
    rw [ExecutionEngine.cancelLive] at hcall
    split at hcall
    · exact Option.some.inj hcall ▸ hs
    · split at hcall
      · exact Option.some.inj hcall ▸ h.request id hs
      · exact Option.some.inj hcall ▸ hs
  | some ex =>
    rcases cancelLive_cases hcall with ⟨-, rfl⟩ | ⟨e, he, hlive, hcancel⟩
    · exact hs
    · refine cancelReports (fun hf hs => h.reportWith (fun _ hs heq => ?_) hf hs)
        (hfills ex rfl e he hlive) (h.request id hs) hcancel
      exact Option.some.inj heq ▸ hs

theorem flattenOnDrawdown (h : KeptWhen G P) (hfills : FlattenFills G exchange s) (hs : P s.1)
    (hcall : ExecutionEngine.flattenOnDrawdown exchange s = some s') : P s'.1 := by
  rcases flattenOnDrawdown_cases hcall with ⟨-, rfl⟩ | ⟨hissued, hdraw, hloop⟩
  · exact hs
  · exact (hfills hissued hdraw).keeps (I := fun s => P s.1) (fun hf hs => h.cancelLive hf hs)
      (h.issue hs) hloop

theorem onOrderReport (h : KeptWhen G P) {f : Fill}
    (hfills : ReportFills G (FlattenFills G exchange) f s) (hs : P s.1)
    (hcall : ExecutionEngine.onOrderReport exchange f s = some s') : P s'.1 :=
  h.reportWith (fun hf hs => h.flattenOnDrawdown hf hs) hfills hs hcall

theorem cancelOrder (h : KeptWhen G P) {id : ℕ} {ok : Bool}
    (hfills : EachFill G exchange s (.cancelOrder id)) (hs : P s.1)
    (hcall : ExecutionEngine.cancelOrder exchange id s = some (ok, s')) : P s'.1 := by
  have hlock : P s.1.lock := h.lock hs
  cases exchange with
  | none =>
    obtain ⟨-, rfl⟩ := Prod.mk.inj (Option.some.inj hcall)
    exact h.unlock hlock
  | some ex =>
    rcases cancelOrder_cases hcall with ⟨-, rfl⟩ | ⟨e, s₁, he, hlive, hcancel, rfl⟩
    · exact h.unlock hlock
    · exact h.unlock (cancelReports (fun hf hs => h.onOrderReport hf hs)
        (hfills ex rfl e he hlive) (h.request id hlock) hcancel)

/-- The answer to a submit. -/
theorem takeResult (h : KeptWhen G P) {ee : ExecutionEngine} {order : Order}
    {r : ExchangeSubmitResult} (horder : ee.orderManager.order order.orderId = some order)
    (hfills : r.accepted = true → AnswerFills G order r.fills ee) (hs : P ee) :
    P (ee.takeResult order r) := by
  rw [ExecutionEngine.takeResult]
  split
  · next haccepted =>
    -- the order stays the one that was registered, fill after fill
    refine ((hfills haccepted).keeps
      (I := fun ee => P ee ∧ ee.orderManager.order order.orderId = some order) ?_ ⟨?_, ?_⟩
      (Fold.foldlM_total _ r.fills _)).1
    · rintro ee f ee' hG ⟨hP, hsame⟩ heq
      obtain rfl := Option.some.inj heq
      have hrevises := ee.orderManager.onFill_revises order.orderId f.filledQty f.fillPrice
      exact ⟨h.fill f.fillPrice hsame hG hP,
        (hrevises.order (Entry.filledWith_order · _ _) _).trans hsame⟩
    · exact h.report { type := .accepted, orderId := order.orderId } order
        (show FillType.accepted ≠ .executed by decide) hs
    · have hrevises := ee.orderManager.onAccept_revises order.orderId 0
      exact (hrevises.order (Entry.accepted_order · _) _).trans horder
  · exact h.report { type := .rejected, orderId := order.orderId } order
      (show FillType.rejected ≠ .executed by decide) hs

/-- A signal that comes to an order keeps what registering that order keeps. -/
theorem submitSignal (h : KeptWhen G P) {sig : Signal} {strategyId id : ℕ} {type : OrderType}
    (hfills : EachFill G exchange s (.submitSignal sig strategyId type)) (hs : P s.1)
    (hregister : ¬ s.1.Ignores sig type →
      P (s.1.registered (s.1.orderFor sig strategyId type)))
    (hcall : ExecutionEngine.submitSignal exchange sig strategyId type s = some (id, s')) :
    P s'.1 := by
  have hreject : ¬ s.1.Ignores sig type →
      P { s.1.registered (s.1.orderFor sig strategyId type) with
        orderManager := (s.1.registered (s.1.orderFor sig strategyId type)).orderManager.onReject
          s.1.idOf }.unlock := fun hsent => h.unlock (h.report
    { type := .rejected, orderId := s.1.idOf } (s.1.orderFor sig strategyId type)
    (show FillType.rejected ≠ .executed by decide) (hregister hsent))
  cases exchange with
  | none =>
    rw [ExecutionEngine.submitSignal] at hcall
    split_ifs at hcall with hside hprice hqty
    · exact (Prod.mk.inj (Option.some.inj hcall)).2 ▸ hs
    · exact (Prod.mk.inj (Option.some.inj hcall)).2 ▸ hs
    · exact (Prod.mk.inj (Option.some.inj hcall)).2 ▸ hs
    · have hsent : ¬ s.1.Ignores sig type := not_or.mpr ⟨hside, not_or.mpr ⟨hprice, hqty⟩⟩
      rw [submitOrder] at hcall
      split at hcall <;> exact (Prod.mk.inj (Option.some.inj hcall)).2 ▸ hreject hsent
  | some ex =>
    rcases submitSignal_cases hcall with
      ⟨-, rfl⟩ | ⟨hsent, ⟨-, rfl⟩ | ⟨hcheck, r, marks, x, s₁, hex, hflat, rfl⟩⟩
    · exact hs
    · exact hreject hsent
    · obtain ⟨hanswer, hrest⟩ := hfills ex rfl hsent hcheck r marks x hex
      refine h.unlock (h.flattenOnDrawdown hrest (h.takeResult ?_ hanswer
        (h.marks marks (hregister hsent))) hflat)
      show (Function.update s.1.orderManager.orders s.1.idOf _ s.1.idOf).map Entry.order = _
      rw [Function.update_self]
      rfl

/-- **A call whose fills satisfy the condition** keeps what the steps keep. -/
theorem step (h : KeptWhen G P) {c : Call} (hfills : EachFill G exchange s c) (hs : P s.1)
    (hregister : ∀ sig strategyId type, c = .submitSignal sig strategyId type →
      ¬ s.1.Ignores sig type → P (s.1.registered (s.1.orderFor sig strategyId type)))
    (hcall : ExecutionEngine.step exchange s c = some s') : P s'.1 := by
  cases c with
  | submitSignal sig strategyId type =>
    obtain ⟨⟨id, s₁⟩, hsubmit, rfl⟩ := Option.map_eq_some_iff.mp hcall
    exact h.submitSignal hfills hs (hregister sig strategyId type rfl) hsubmit
  | cancelOrder id =>
    obtain ⟨⟨ok, s₁⟩, hcancel, rfl⟩ := Option.map_eq_some_iff.mp hcall
    exact h.cancelOrder hfills hs hcancel
  | onOrderReport f => exact h.onOrderReport hfills hs hcall
  | onOrderFill id filledQty fillPrice => exact h.onOrderReport hfills hs hcall

end KeptWhen

/-! ### Runs -/

/-- The states of an engine on an exchange, from any configuration on, by calls that satisfy a
condition on the state they are made in. -/
inductive Runs (exchange : Option (IExchangeSimulator X))
    (ok : ExecutionEngine × X → Call → Prop) : ExecutionEngine × X → Prop
  | start (visits : VisitOrder) (base : UInt64) (rm : RiskManager) (baseQty : UInt64) (x : X)
      (hrm : rm.IsNew) :
      Runs exchange ok ({ orderManager := { visits := visits, nextId := base.toNat }
                          riskManager := rm, baseQty := baseQty }, x)
  | call {s s' : ExecutionEngine × X} (c : Call) (h : Runs exchange ok s) (hc : ok s c)
      (hcall : step exchange s c = some s') : Runs exchange ok s'

end NebulaX.ExecutionEngine
