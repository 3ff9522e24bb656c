import NebulaX.Exchange.Isolation
import NebulaX.Sim.System

/-!
# When the lock is taken twice

`mtx_` is not re-entrant. `cancel_order` and `flatten_on_drawdown` call the exchange while they
hold it, and the exchange reports a cancel that took an order off the book before it returns, so
the report waits for a lock that its own caller holds. A cancel that the exchange turns away is not
reported.

`Cancellable` says that an order is live in the order manager and would be taken off by the
exchange, and `Fires` that a flatten would find one. `Quiet` is the condition on a call: it comes
to no such cancel. No contract is asked of the calls.

## Main results

* `cancelOrder_relocked`, `flatten_relocked` — when a cancel and a flatten take the lock again
* `relocked_iff` — a run takes the lock twice at its first call that is not quiet
* `cancel_deadlocks` — cancelling an order that rests is such a call
-/

namespace NebulaX.System

open Exchange (MatchingEngine BinaryResponse TurnedAway)

/-! ### Cancels at the exchange -/

/-- The order manager lets the order be cancelled, and so does the exchange. -/
def Cancellable (s : System) (id : ℕ) : Prop :=
  ∃ e, s.1.orderManager.orders id = some e ∧ e.status.live = true ∧
    ¬ TurnedAway s.2.engine e.order.symbolId id kStrategyUserId

/-- `flatten_on_drawdown` would cancel an order at the exchange. -/
def Fires (s : System) : Prop :=
  s.1.flattenIssued = false ∧ s.1.riskManager.drawdownFlatten = true ∧
    ∃ id ∈ s.1.orderManager.visited, Cancellable s id

section Cancel

variable {sim sim' : ExchangeSimulator} {id symbolId : ℕ} {reports : List Fill}

/-- A cancel that is turned away is not reported. -/
theorem cancel_refused (h : TurnedAway sim.engine symbolId id kStrategyUserId)
    (hcall : sim.cancel id symbolId kStrategyUserId = some (reports, sim')) :
    reports = [] ∧ sim'.engine.shared = sim.engine.shared := by
  obtain ⟨rsp, e', hexec, heq⟩ := ExchangeSimulator.cancel_spec hcall
  obtain ⟨e'', hcancel, -, hshared⟩ := Exchange.processCancel_untouched h
  obtain ⟨rfl, rfl⟩ := Prod.mk.inj (Option.some.inj (hexec.symm.trans hcancel))
  obtain ⟨rfl, rfl⟩ := Prod.mk.inj heq
  exact ⟨rfl, hshared⟩

/-- A cancel that is not turned away is. -/
theorem cancel_answered (h : ¬ TurnedAway sim.engine symbolId id kStrategyUserId)
    (hcall : sim.cancel id symbolId kStrategyUserId = some (reports, sim')) :
    reports = [{ type := .canceled, orderId := id }] := by
  obtain ⟨rsp, e', hexec, heq⟩ := ExchangeSimulator.cancel_spec hcall
  obtain rfl : rsp = [.cancelled id] := Exchange.processCancel_cancelled h hexec
  exact congrArg Prod.fst heq

/-- Whether a cancel is turned away depends on the pool and the index only. -/
theorem turnedAway_congr {e e' : MatchingEngine} (h : e'.shared = e.shared) (L ref user : ℕ) :
    TurnedAway e' L ref user ↔ TurnedAway e L ref user := by
  rw [TurnedAway, TurnedAway, MatchingEngine.findOrder, MatchingEngine.findOrder, h]

end Cancel

/-! ### Under the lock -/

section Locked

open ExecutionEngine (onOrderReportWith exchangeCancel cancelLive flattenOnDrawdown)

variable {s s' : System}

/-- A report that is not of a fill takes the lock and gives it back. -/
theorem report_relocked {flatten : System → Option System} {f : Fill} (hf : f.type ≠ .executed)
    (hcall : onOrderReportWith flatten f s = some s') :
    s'.1.mtx = s.1.mtx ∧ s'.1.relocked = (s.1.relocked || decide (0 < s.1.mtx)) := by
  rcases ExecutionEngine.onOrderReportWith_cases hcall with
    ⟨-, rfl⟩ | ⟨order, s₁, -, happlied, rfl⟩
  · exact ⟨Nat.add_sub_cancel .., rfl⟩
  · rw [if_neg hf] at happlied
    obtain rfl := Option.some.inj happlied
    constructor
    · show (s.1.lock.applyReport f order).mtx - 1 = s.1.mtx
      rw [ExecutionEngine.applyReport_mtx]
      exact Nat.add_sub_cancel ..
    · exact ExecutionEngine.applyReport_relocked ..

/-- A cancel at the exchange under the lock. -/
theorem exchangeCancel_relocked {flatten : System → Option System} {id symbolId : ℕ}
    (hlocked : 0 < s.1.mtx)
    (hcall : exchangeCancel ExchangeSimulator.interface (onOrderReportWith flatten) id symbolId s =
      some s') :
    s'.1.mtx = s.1.mtx ∧
      (TurnedAway s.2.engine symbolId id kStrategyUserId →
        s'.1 = s.1 ∧ s'.2.engine.shared = s.2.engine.shared) ∧
      (¬ TurnedAway s.2.engine symbolId id kStrategyUserId → s'.1.relocked = true) := by
  obtain ⟨⟨reports, sim'⟩, hcancel, hfold⟩ := Option.bind_eq_some_iff.mp hcall
  by_cases haway : TurnedAway s.2.engine symbolId id kStrategyUserId
  · obtain ⟨rfl, hshared⟩ := cancel_refused haway hcancel
    obtain rfl := Option.some.inj hfold
    exact ⟨rfl, fun _ => ⟨rfl, hshared⟩, fun h => absurd haway h⟩
  · obtain rfl := cancel_answered haway hcancel
    obtain ⟨s₁, hreport, heq⟩ := Option.bind_eq_some_iff.mp hfold
    obtain rfl := Option.some.inj heq
    obtain ⟨hmtx, hrelocked⟩ :=
      report_relocked (show FillType.canceled ≠ .executed by decide) hreport
    refine ⟨hmtx, fun h => absurd h haway, fun _ => ?_⟩
    rw [hrelocked, decide_eq_true (show 0 < s.1.mtx from hlocked), Bool.or_true]

/-- One order of a flatten. -/
theorem cancelLive_relocked {id : ℕ} (hlocked : 0 < s.1.mtx)
    (hcall : cancelLive exchange s id = some s') :
    s'.1.mtx = s.1.mtx ∧ (Cancellable s id → s'.1.relocked = true) ∧
      (¬ Cancellable s id → s'.1.relocked = s.1.relocked ∧
        ∀ id', Cancellable s' id' ↔ Cancellable s id') := by
  rcases ExecutionEngine.cancelLive_cases hcall with ⟨hdead, rfl⟩ | ⟨e, he, hlive, hcancel⟩
  · refine ⟨rfl, ?_, fun _ => ⟨rfl, fun _ => Iff.rfl⟩⟩
    rintro ⟨e, he, hlive, -⟩
    exact absurd hlive (hdead e he)
  · have hsame : ∀ e', s.1.orderManager.orders id = some e' → e' = e := fun e' he' =>
      Option.some.inj (he'.symm.trans he)
    obtain ⟨hmtx, haway, hanswered⟩ := exchangeCancel_relocked
      (s := ({ s.1 with orderManager := (s.1.orderManager.requestCancel id).2 }, s.2))
      hlocked hcancel
    refine ⟨hmtx, ?_, fun hnot => ?_⟩
    · rintro ⟨e', he', -, hnot⟩
      exact hanswered (hsame e' he' ▸ hnot)
    · have hturned : TurnedAway s.2.engine e.order.symbolId id kStrategyUserId := by
        by_contra hturned
        exact hnot ⟨e, he, hlive, hturned⟩
      obtain ⟨hee, hshared⟩ := haway hturned
      refine ⟨by rw [hee], fun id' => ?_⟩
      have hrevises := s.1.orderManager.requestCancel_revises id
      rw [Cancellable, Cancellable, hee]
      simp only [turnedAway_congr hshared]
      by_cases hid : id' = id
      · -- the order is not live any more, and it was turned away before
        subst hid
        constructor
        · rintro ⟨e', he', hlive', -⟩
          rw [hrevises.self, he, Option.map_some, Entry.cancelRequested, if_pos hlive] at he'
          obtain rfl := Option.some.inj he'
          exact absurd hlive' (show ¬ OrderStatus.pendingCancel.live = true by decide)
        · rintro ⟨e', he', -, hnot'⟩
          exact absurd (hsame e' he' ▸ hturned) hnot'
      · rw [hrevises.of_ne hid]

/-- **The loop of a flatten** takes the lock again at the first order that it cancels. -/
theorem cancelAll_relocked {ids : List ℕ} (hlocked : 0 < s.1.mtx)
    (hcall : ids.foldlM (cancelLive exchange) s = some s') :
    s'.1.mtx = s.1.mtx ∧
      (s'.1.relocked = true ↔ s.1.relocked = true ∨ ∃ id ∈ ids, Cancellable s id) := by
  induction ids generalizing s with
  | nil =>
    obtain rfl := Option.some.inj hcall
    exact ⟨rfl, by simp⟩
  | cons id ids ih =>
    obtain ⟨s₁, hfirst, hrest⟩ := Option.bind_eq_some_iff.mp hcall
    obtain ⟨hmtx, hcancel, hnot⟩ := cancelLive_relocked hlocked hfirst
    obtain ⟨hmtx', hiff⟩ := ih (hmtx ▸ hlocked) hrest
    refine ⟨hmtx'.trans hmtx, hiff.trans ?_⟩
    by_cases hc : Cancellable s id
    · exact iff_of_true (Or.inl (hcancel hc)) (Or.inr ⟨id, List.mem_cons_self, hc⟩)
    · obtain ⟨hsame, hothers⟩ := hnot hc
      rw [hsame]
      simp only [hothers, List.mem_cons, exists_eq_or_imp, hc, false_or]

/-- **A flatten** takes the lock again if and only if it fires. -/
theorem flatten_relocked (hlocked : 0 < s.1.mtx)
    (hcall : flattenOnDrawdown exchange s = some s') :
    s'.1.mtx = s.1.mtx ∧ (s'.1.relocked = true ↔ s.1.relocked = true ∨ Fires s) := by
  rcases ExecutionEngine.flattenOnDrawdown_cases hcall with ⟨hnot, rfl⟩ | ⟨hissued, hdraw, hloop⟩
  · exact ⟨rfl, (or_iff_left fun hf => hnot ⟨hf.1, hf.2.1⟩).symm⟩
  · obtain ⟨hmtx, hiff⟩ := cancelAll_relocked (s := ({ s.1 with flattenIssued := true }, s.2))
      hlocked hloop
    refine ⟨hmtx, hiff.trans (or_congr_right ?_)⟩
    constructor
    · exact fun hex => ⟨hissued, hdraw, hex⟩
    · exact fun hf => hf.2.2

end Locked

/-! ### The entry points -/

/-- The flatten in a report fires. -/
def ReportFires (f : Fill) (s : System) : Prop :=
  f.type = .executed ∧ ∃ order, s.1.orderManager.order f.orderId = some order ∧
    Fires (s.1.applyReport f order, s.2)

/-- The flatten at the end of a signal fires. -/
def SignalFires (sig : Signal) (strategyId : ℕ) (type : OrderType) (s : System) : Prop :=
  ¬ s.1.Ignores sig type ∧
    s.1.riskManager.checkOrder (s.1.orderFor sig strategyId type) = true ∧
    ∃ r marks sim', s.2.submit (s.1.orderFor sig strategyId type) s.1.idOf
        (ExecutionEngine.tifOf type) = some (r, marks, sim') ∧
      Fires (((s.1.registered (s.1.orderFor sig strategyId type)).takeMarks marks).takeResult
        (s.1.orderFor sig strategyId type) r, sim')

/-- **A call comes to no cancel** that the exchange answers. -/
def Quiet (s : System) : Call → Prop
  | .submitSignal sig strategyId type => ¬ SignalFires sig strategyId type s
  | .cancelOrder id => ¬ Cancellable s id
  | .onOrderReport f => ¬ ReportFires f s
  | .onOrderFill id qty price =>
    ¬ ReportFires { type := .executed, orderId := id, filledQty := qty, fillPrice := price } s
  | .onMarketOrder ev => ∀ rsp e' marks sim',
    ExchangeSimulator.enterMarket s.2.engine ev = some (some (rsp, e')) →
    ({ s.2.advance with engine := e' } : ExchangeSimulator).broadcast
      (ExchangeSimulator.toMarketEvent (s.2.clock + 1) ev) = some (marks, sim') →
    ExchangeSimulator.EachReport callbacks (fun _ f ee sim => ¬ ReportFires f (ee, sim))
      (ExchangeSimulator.locateOf ev) (ExchangeSimulator.takerRef ev)
      (ExchangeSimulator.tradesIn rsp) (s.1.takeMarks marks, sim')

section Entry

open ExecutionEngine (onOrderReportWith)

variable {s s' : System}

/-- Holding the lock makes no difference to a report. -/
theorem fires_lock (ee : ExecutionEngine) (f : Fill) (order : Order) (sim : ExchangeSimulator) :
    Fires (ee.lock.applyReport f order, sim) ↔ Fires (ee.applyReport f order, sim) := by
  rw [ExecutionEngine.applyReport, ExecutionEngine.applyReport]
  split <;> exact Iff.rfl

/-- **A report** while the lock is free. -/
theorem onOrderReport_relocked {f : Fill} (hfree : s.1.mtx = 0)
    (hcall : ExecutionEngine.onOrderReport exchange f s = some s') :
    s'.1.mtx = 0 ∧ (s'.1.relocked = true ↔ s.1.relocked = true ∨ ReportFires f s) := by
  have hlock : s.1.lock.relocked = s.1.relocked := by
    show (s.1.relocked || decide (0 < s.1.mtx)) = _
    rw [hfree]
    exact Bool.or_false _
  by_cases hf : f.type = .executed
  · rcases ExecutionEngine.onOrderReportWith_cases hcall with
      ⟨hnone, rfl⟩ | ⟨order, s₁, horder, hflat, rfl⟩
    · refine ⟨hfree, ?_⟩
      show s.1.lock.relocked = true ↔ _
      rw [hlock]
      refine (or_iff_left ?_).symm
      rintro ⟨-, order, horder, -⟩
      exact absurd (hnone.symm.trans horder) (by simp)
    · rw [if_pos hf] at hflat
      have hmtx : (s.1.lock.applyReport f order).mtx = 1 := by
        rw [ExecutionEngine.applyReport_mtx]
        exact congrArg (· + 1) hfree
      obtain ⟨hmtx', hiff⟩ := flatten_relocked (by rw [hmtx]; exact Nat.one_pos) hflat
      rw [hmtx] at hmtx'
      refine ⟨by show s₁.1.mtx - 1 = 0; rw [hmtx'], hiff.trans ?_⟩
      rw [ExecutionEngine.applyReport_relocked, hlock, fires_lock]
      refine or_congr_right ⟨fun hfires => ⟨hf, order, horder, hfires⟩, ?_⟩
      rintro ⟨-, order', horder', hfires⟩
      obtain rfl := Option.some.inj (horder'.symm.trans horder)
      exact hfires
  · obtain ⟨hmtx, hrelocked⟩ := report_relocked hf hcall
    refine ⟨hmtx.trans hfree, ?_⟩
    rw [hrelocked, hfree]
    simp [ReportFires, hf]

/-- **A cancel** while the lock is free. -/
theorem cancelOrder_relocked {id : ℕ} {ok : Bool} (hfree : s.1.mtx = 0)
    (hcall : ExecutionEngine.cancelOrder exchange id s = some (ok, s')) :
    s'.1.mtx = 0 ∧ (s'.1.relocked = true ↔ s.1.relocked = true ∨ Cancellable s id) := by
  have hlock : s.1.lock.relocked = s.1.relocked := by
    show (s.1.relocked || decide (0 < s.1.mtx)) = _
    rw [hfree]
    exact Bool.or_false _
  rcases ExecutionEngine.cancelOrder_cases hcall with
    ⟨hdead, rfl⟩ | ⟨e, s₁, he, hlive, hcancel, rfl⟩
  · refine ⟨hfree, ?_⟩
    show s.1.lock.relocked = true ↔ _
    rw [hlock]
    refine (or_iff_left ?_).symm
    rintro ⟨e, he, hlive, -⟩
    exact hdead e he hlive
  · have hmtx : s.1.lock.mtx = 1 := congrArg (· + 1) hfree
    obtain ⟨hmtx', haway, hanswered⟩ := exchangeCancel_relocked
      (s := ({ s.1.lock with orderManager := (s.1.orderManager.requestCancel id).2 }, s.2))
      (show 0 < s.1.lock.mtx by rw [hmtx]; exact Nat.one_pos) hcancel
    constructor
    · show s₁.1.mtx - 1 = 0
      rw [hmtx']
      show s.1.lock.mtx - 1 = 0
      rw [hmtx]
    · show s₁.1.relocked = true ↔ _
      by_cases hturned : TurnedAway s.2.engine e.order.symbolId id kStrategyUserId
      · rw [(haway hturned).1]
        show s.1.lock.relocked = true ↔ _
        rw [hlock]
        refine (or_iff_left ?_).symm
        rintro ⟨e', he', -, hnot⟩
        exact hnot (Option.some.inj (he.symm.trans he') ▸ hturned)
      · exact iff_of_true (hanswered hturned) (Or.inr ⟨e, he, hlive, hturned⟩)

/-- **A signal** while the lock is free. -/
theorem submitSignal_relocked {sig : Signal} {strategyId id : ℕ} {type : OrderType}
    (hfree : s.1.mtx = 0)
    (hcall : ExecutionEngine.submitSignal exchange sig strategyId type s = some (id, s')) :
    s'.1.mtx = 0 ∧
      (s'.1.relocked = true ↔ s.1.relocked = true ∨ SignalFires sig strategyId type s) := by
  have hlock : s.1.lock.relocked = s.1.relocked := by
    show (s.1.relocked || decide (0 < s.1.mtx)) = _
    rw [hfree]
    exact Bool.or_false _
  rcases ExecutionEngine.submitSignal_cases hcall with
    ⟨hignored, rfl⟩ | ⟨hsent, ⟨hcheck, rfl⟩ | ⟨hcheck, r, marks, sim', s₁, hex, hflat, rfl⟩⟩
  · exact ⟨hfree, (or_iff_left fun hf => hf.1 hignored).symm⟩
  · refine ⟨hfree, ?_⟩
    show s.1.lock.relocked = true ↔ _
    rw [hlock]
    exact (or_iff_left fun hf => absurd (hcheck.symm.trans hf.2.1) (by decide)).symm
  · obtain ⟨hmtx, hrelocked⟩ := ((s.1.registered
      (s.1.orderFor sig strategyId type)).takeMarks marks).takeResult_lock
        (s.1.orderFor sig strategyId type) r
    have hmtx : _ = 1 := hmtx.trans (congrArg (· + 1) hfree)
    obtain ⟨hmtx', hiff⟩ := flatten_relocked (by rw [hmtx]; exact Nat.one_pos) hflat
    rw [hmtx] at hmtx'
    refine ⟨by show s₁.1.mtx - 1 = 0; rw [hmtx'], hiff.trans ?_⟩
    rw [hrelocked.trans hlock]
    refine or_congr_right ⟨fun hfires => ⟨hsent, hcheck, r, marks, sim', hex, hfires⟩, ?_⟩
    rintro ⟨-, -, r', marks', sim'', hex', hfires⟩
    obtain ⟨rfl, heq⟩ := Prod.mk.inj (Option.some.inj (hex'.symm.trans hex))
    obtain ⟨rfl, rfl⟩ := Prod.mk.inj heq
    exact hfires

/-- The loop over the trades of an event, while the lock is free. -/
theorem routeTrades_relocked {locate taker : ℕ} {ts : List (ℕ × UInt32 × UInt32)}
    (hfree : s.1.mtx = 0)
    (hcall : ExchangeSimulator.routeTrades callbacks locate taker ts s = some s') :
    s'.1.mtx = 0 ∧ (s'.1.relocked = false ↔ s.1.relocked = false ∧
      ExchangeSimulator.EachReport callbacks (fun _ f ee sim => ¬ ReportFires f (ee, sim)) locate
        taker ts s) := by
  induction ts generalizing s with
  | nil =>
    obtain rfl := Option.some.inj hcall
    exact ⟨hfree, (and_iff_left trivial).symm⟩
  | cons t ts ih =>
    obtain ⟨s₁, hfirst, hrest⟩ := Option.bind_eq_some_iff.mp hcall
    have hstep : s₁.1.mtx = 0 ∧ (s₁.1.relocked = false ↔ s.1.relocked = false ∧
        (s.2.isStrategyOrder t.1 = true → ¬ ReportFires (ExchangeSimulator.makerReport t)
          (s.1, s.2.countTrade taker t.1 t.2.2))) := by
      rw [ExchangeSimulator.routeTrade] at hfirst
      split at hfirst
      · next hstrategy =>
        have hstrategy : s.2.isStrategyOrder t.1 = true := hstrategy
        obtain ⟨s₂, hreport, hgone⟩ := Option.bind_eq_some_iff.mp hfirst
        obtain ⟨sim', -, rfl⟩ := Option.map_eq_some_iff.mp hgone
        obtain ⟨hmtx, hiff⟩ := onOrderReport_relocked
          (s := (s.1, s.2.countTrade taker t.1 t.2.2)) hfree hreport
        refine ⟨hmtx, ?_⟩
        show s₂.1.relocked = false ↔ _
        rw [← Bool.not_eq_true, hiff, not_or, Bool.not_eq_true]
        exact and_congr_right fun _ => ⟨fun h _ => h, fun h => h hstrategy⟩
      · next hstrategy =>
        obtain ⟨⟨marks, sim'⟩, -, rfl⟩ := Option.map_eq_some_iff.mp hfirst
        refine ⟨hfree, (and_iff_left fun h => ?_).symm⟩
        exact absurd h hstrategy
    obtain ⟨hmtx, hiff⟩ := ih hstep.1 hrest
    refine ⟨hmtx, hiff.trans ?_⟩
    rw [hstep.2, and_assoc, ExchangeSimulator.EachReport]
    refine and_congr_right fun _ => and_congr_right fun _ => ⟨fun h s' hs' => ?_, fun h => ?_⟩
    · exact Option.some.inj (hfirst.symm.trans hs') ▸ h
    · exact h s₁ hfirst

/-- **A call takes the lock again** if and only if it is not quiet. -/
theorem step_relocked {c : Call} (hfree : s.1.mtx = 0) (hcall : s.step c = some s') :
    s'.1.mtx = 0 ∧ (s'.1.relocked = false ↔ s.1.relocked = false ∧ s.Quiet c) := by
  have hnot : ∀ {P : Prop}, s'.1.mtx = 0 ∧ (s'.1.relocked = true ↔ s.1.relocked = true ∨ P) →
      s'.1.mtx = 0 ∧ (s'.1.relocked = false ↔ s.1.relocked = false ∧ ¬ P) := by
    rintro P ⟨hmtx, hiff⟩
    refine ⟨hmtx, ?_⟩
    rw [← Bool.not_eq_true, hiff, not_or, Bool.not_eq_true]
  cases c with
  | submitSignal sig strategyId type =>
    obtain ⟨⟨id, s₁⟩, hsubmit, rfl⟩ := Option.map_eq_some_iff.mp hcall
    exact hnot (submitSignal_relocked hfree hsubmit)
  | cancelOrder id =>
    obtain ⟨⟨ok, s₁⟩, hcancel, rfl⟩ := Option.map_eq_some_iff.mp hcall
    exact hnot (cancelOrder_relocked hfree hcancel)
  | onOrderReport f => exact hnot (onOrderReport_relocked hfree hcall)
  | onOrderFill id qty price => exact hnot (onOrderReport_relocked hfree hcall)
  | onMarketOrder ev =>
    have hcall : ExchangeSimulator.onMarketOrder callbacks ev (s.1, s.2) = some (s'.1, s'.2) :=
      hcall
    rcases ExchangeSimulator.onMarketOrder_cases hcall with
      ⟨hee, -, L, rfl⟩ | ⟨rsp, e', marks, sim₁, henter, hb⟩
    · rw [hee]
      refine ⟨hfree, (and_iff_left fun rsp e' marks sim' henter => ?_).symm⟩
      exact absurd henter (by simp [ExchangeSimulator.enterMarket])
    · rw [ExchangeSimulator.onMarketOrder_eq s.1 henter hb] at hcall
      obtain ⟨s₂, hroute, hlast⟩ := Option.bind_eq_some_iff.mp hcall
      obtain ⟨hmtx, hiff⟩ := routeTrades_relocked (s := (s.1.takeMarks marks, sim₁)) hfree hroute
      have hee : s'.1.mtx = s₂.1.mtx ∧ s'.1.relocked = s₂.1.relocked := by
        split at hlast
        · obtain ⟨r, -, heq⟩ := Option.map_eq_some_iff.mp hlast
          rw [← (Prod.mk.inj heq).1]
          exact ⟨rfl, rfl⟩
        · obtain rfl := Option.some.inj hlast
          exact ⟨rfl, rfl⟩
      rw [hee.1, hee.2]
      refine ⟨hmtx, hiff.trans (and_congr_right fun _ => ⟨fun h => ?_, fun h => ?_⟩)⟩
      · intro rsp' e'' marks' sim' henter' hb'
        obtain ⟨rfl, rfl⟩ := Prod.mk.inj
          (Option.some.inj (Option.some.inj (henter'.symm.trans henter)))
        obtain ⟨rfl, rfl⟩ := Prod.mk.inj (Option.some.inj (hb'.symm.trans hb))
        exact h
      · exact h rsp e' marks sim₁ henter hb

end Entry

/-! ### Runs -/

/-- **The lock is taken once** in a run of quiet calls, and it is taken twice in the first call that
is not quiet. -/
theorem relocked_iff {s : System} (h : Runs Quiet s) :
    s.1.relocked = false ∧
      ∀ c s', s.step c = some s' → (s'.1.relocked = false ↔ s.Quiet c) := by
  have hfree : s.1.mtx = 0 ∧ s.1.relocked = false := by
    induction h with
    | start => exact ⟨rfl, rfl⟩
    | call c _ hc hcall ih =>
      obtain ⟨hmtx, hiff⟩ := step_relocked ih.1 hcall
      exact ⟨hmtx, hiff.mpr ⟨ih.2, hc⟩⟩
  refine ⟨hfree.2, fun c s' hcall => ?_⟩
  rw [(step_relocked hfree.1 hcall).2]
  exact and_iff_right hfree.2

/-- The bid of a run that is cancelled next. -/
def restingBid : Call := .submitSignal { side := .buy, price := 100, strength := 10000 } 1 .limit

/-- A bid goes to the book quietly, and its cancel takes the lock twice. -/
theorem relocked_iff_bid : ∃ s s', (new 1000 {} 4).step restingBid = some s ∧ Runs Quiet s ∧
    s.step (.cancelOrder 1000) = some s' ∧ ¬ s.Quiet (.cancelOrder 1000) := by
  have hread : ((new 1000 {} 4).step restingBid).map (fun s => (s.1.relocked,
      (s.step (.cancelOrder 1000)).map fun s => s.1.relocked)) = some (false, some true) := by
    decide +kernel
  obtain ⟨s, hbid, heq⟩ := Option.map_eq_some_iff.mp hread
  obtain ⟨hfalse, hcancel⟩ := Prod.mk.inj heq
  obtain ⟨s', hcancel, htrue⟩ := Option.map_eq_some_iff.mp hcancel
  have hstart : Runs Quiet (new 1000 {} 4) :=
    .start .inserted 1000 {} 100 4 none _ ⟨rfl, rfl⟩ (by decide) (by decide) (by simp)
  have hs : Runs Quiet s :=
    hstart.call restingBid (((relocked_iff hstart).2 _ s hbid).mp hfalse) hbid
  refine ⟨s, s', hbid, hs, hcancel, fun hquiet => ?_⟩
  exact absurd (htrue.symm.trans (((relocked_iff hs).2 _ s' hcancel).mpr hquiet)) (by decide)

/-- **Cancelling an order that rests** takes the lock while it is held. -/
theorem cancel_deadlocks : ∃ s, play [restingBid, .cancelOrder 1000] (new 1000 {} 4) = some s ∧
    Reached s ∧ s.1.relocked = true := by
  have hread : (play [restingBid, .cancelOrder 1000] (new 1000 {} 4)).map
      (fun s => s.1.relocked) = some true := by decide +kernel
  obtain ⟨s, hrun, htrue⟩ := Option.map_eq_some_iff.mp hread
  exact ⟨s, hrun, (reached_new 1000 ⟨rfl, rfl⟩ (by decide) (by decide)).play hrun, htrue⟩

end NebulaX.System
