import NebulaX.Sim.DeskMarket

/-!
# The audit of the desk

The rows of `trades.csv` are all that is needed to check the books of the risk manager: booked one
after the other by a risk manager that has seen nothing, they give the same positions, the same
average costs and the same realised profit, however the desk was marked meanwhile and however many
orders it turned away.

The profit itself can be checked against the money. Average costs are whole numbers and round down,
so that the equity is never below what came in and what the positions are worth, and above it by
less than the limit on positions for every buy.

## Main results

* `runs_audited` — the books are those of the records
* `runs_cash` — the equity in terms of the money in the records
-/

namespace NebulaX

open RiskManager (Filled SameBooks Within WithinAll Takes taken)

/-- The fill that a record is of. -/
def TradeRecord.filled (t : TradeRecord) : Filled :=
  ({ symbolId := t.symbolId, side := t.side, price := t.price }, t.qty)

/-- The risk manager takes the fills of a submit like the records of them. -/
theorem ExecutionEngine.riskManager_takeResult (ee : ExecutionEngine) (log : TradeLog)
    (order : Order) {r : ExchangeSubmitResult} (hrejected : ¬ r.accepted = true → r.fills = []) :
    (ee.takeResult order r).riskManager = ee.riskManager.fillAll
      ((r.fills.map (log.fillRecord order)).map TradeRecord.filled) := by
  have hfills : ∀ (fs : List Fill) (ee : ExecutionEngine),
      (fs.foldl (fun ee f => ee.applyFill order.orderId order f.filledQty f.fillPrice)
        ee).riskManager =
      ee.riskManager.fillAll ((fs.map (log.fillRecord order)).map TradeRecord.filled) := by
    intro fs
    induction fs with
    | nil => exact fun _ => rfl
    | cons f fs ih => exact fun ee => ih _
  rw [takeResult]
  split
  · exact hfills r.fills _
  · next hacc =>
    rw [hrejected hacc]
    rfl

namespace Desk

/-! ### The books -/

/-- A risk manager that has booked the records, and nothing else. -/
def booked (d : Desk) : RiskManager :=
  RiskManager.unused.fillAll (d.1.log.trades.map TradeRecord.filled)

/-- The risk manager has the books of the records. -/
def Audited (d : Desk) : Prop := SameBooks d.booked d.1.engine.riskManager

section Audited

variable {d d' : Desk}

/-- Requests to cancel and marks leave the books. -/
theorem Audited.stays (h : Audited d) (hstays : Stays d.1.engine d'.1.engine)
    (hlog : d'.1.log.trades = d.1.log.trades) : Audited d' := by
  rw [Audited, booked, hlog]
  exact h.trans hstays.books

/-- **Every call keeps the books.** -/
theorem Audited.step (h : Audited d) (hsim : Unrested d.2) {c : Call} (hc : Foreign d c)
    (hcall : d.step c = some d') : Audited d' := by
  cases c with
  | event ev =>
    obtain ⟨-, hstays, hlog, -⟩ := event_stays hsim hc hcall
    exact h.stays hstays (congrArg TradeLog.trades hlog)
  | decision sig strategyId =>
    have hmid := takeMid_trades sig.locate d
    rcases outcome_of_decision hsim hcall with
      rfl | ⟨-, hengine, hlog, -⟩ | ⟨-, -, r, marks, sim, hsubmit, -, hstays, hlog, -, -⟩
    · refine h.stays ?_ hmid
      rw [(Prod.mk.inj (takeMid_system sig.locate d)).1]
      exact .refl _
    · have hrisk : d'.1.engine.riskManager = d.1.engine.riskManager := by
        rw [hengine]
        rfl
      rw [Audited, booked, hrisk, hlog, hmid]
      exact h
    · obtain ⟨-, -, hrejected⟩ := ExchangeSimulator.submit_fills_le hsubmit
      have htrades := (d.takeMid sig.locate).1.log.recordFills_trades
        (d.1.engine.orderFor sig strategyId .market) hrejected
      rw [hmid, ← hlog] at htrades
      have hmarked : SameBooks d.booked ((d.1.engine.registered
          (d.1.engine.orderFor sig strategyId .market)).takeMarks marks).riskManager :=
        h.trans (d.1.engine.riskManager.sameBooks_marks marks)
      have hfilled := hmarked.fillAll
        ((r.fills.map ((d.takeMid sig.locate).1.log.fillRecord
          (d.1.engine.orderFor sig strategyId .market))).map TradeRecord.filled)
      rw [Audited, booked, htrades, List.map_append, RiskManager.fillAll_append]
      rw [← ExecutionEngine.riskManager_takeResult _ _ _ hrejected] at hfilled
      exact hfilled.trans hstays.books

theorem Runs.audited (h : Runs Foreign d) : Audited d := by
  induction h with
  | start visits base rm baseQty capacity view sink hrm => exact hrm.sameBooks
  | call c hr hc hcall ih => exact ih.step hr.booked.unrested hc hcall

end Audited

/-- **No call lowers the peak** of the equity. -/
theorem risen_step {d d' : Desk} (hsim : Unrested d.2) {c : Call} (hc : Foreign d c)
    (hcall : d.step c = some d') :
    RiskManager.Risen d.1.engine.riskManager d'.1.engine.riskManager := by
  cases c with
  | event ev => exact (event_stays hsim hc hcall).2.1.risen
  | decision sig strategyId =>
    rcases outcome_of_decision hsim hcall with
      rfl | ⟨-, hengine, -, -⟩ | ⟨-, -, r, marks, sim, -, -, hstays, -, -, -⟩
    · rw [(Prod.mk.inj (takeMid_system sig.locate d)).1]
      exact .refl _
    · rw [hengine]
      exact .refl _
    · refine RiskManager.Risen.trans ?_ hstays.risen
      have hmarked := d.1.engine.riskManager.risen_marks marks
      show RiskManager.Risen _ (ExecutionEngine.takeResult _ _ r).riskManager
      rw [ExecutionEngine.takeResult]
      split
      · exact ExecutionEngine.applyFills_keep
          (P := fun ee => RiskManager.Risen d.1.engine.riskManager ee.riskManager)
          (fun f h => h.trans (RiskManager.risen_onFill _ _ _)) r.fills hmarked
      · exact hmarked

/-! ### The money -/

/-- **The fills of an order** that the check let through stay within the limit. -/
theorem withinAll_fills {limit : ℕ} (hlimit : limit < 2 ^ 63) {order : Order} {log : TradeLog}
    (hsymbol : order.symbolId < kMaxLocate) {fs : List Fill} {rm : RiskManager}
    (hprice : ∀ f ∈ fs, 0 ≤ f.fillPrice.toInt)
    (hsmall : (fs.map fun f => f.filledQty.toNat).sum < 2 ^ 63)
    (htakes : Takes order.side (rm.position order.symbolId).toNat
      (fs.map fun f => f.filledQty.toNat).sum)
    (htaken : taken order.side (rm.position order.symbolId).toNat
      (fs.map fun f => f.filledQty.toNat).sum ≤ limit) :
    WithinAll limit rm ((fs.map (log.fillRecord order)).map TradeRecord.filled) := by
  induction fs generalizing rm with
  | nil => trivial
  | cons f fs ih =>
    rw [List.map_cons, List.sum_cons] at hsmall htakes htaken
    obtain ⟨hfirst, hrest, hboth⟩ := RiskManager.takes_add htakes
    have hposition : ((rm.onFill (log.fillRecord order f).filled.1 f.filledQty).position
        order.symbolId).toNat = taken order.side (rm.position order.symbolId).toNat
          f.filledQty.toNat :=
      (rm.toNat_position_onFill (log.fillRecord order f).filled.1 fun _ => hfirst).trans
        (if_pos rfl)
    refine ⟨⟨⟨hsymbol, hprice f List.mem_cons_self, ?_, ?_, ?_⟩, ?_⟩, ih ?_ ?_ ?_ ?_⟩
    · show f.filledQty.toNat < 2 ^ 63
      omega
    · intro hbuy
      have hbuy : order.side = .buy := hbuy
      rw [hbuy, taken] at htaken
      show (rm.position order.symbolId).toNat + f.filledQty.toNat < 2 ^ 63
      omega
    · intro hsell
      have hsell : order.side = .sell := hsell
      rw [hsell] at hfirst
      exact UInt64.le_iff_toNat_le.mpr hfirst
    · intro hbuy
      have hbuy : order.side = .buy := hbuy
      rw [hbuy, taken] at htaken
      show (rm.position order.symbolId).toNat + f.filledQty.toNat ≤ limit
      omega
    · exact fun f' hf' => hprice f' (List.mem_cons_of_mem f hf')
    · omega
    · exact hposition.symm ▸ hrest
    · exact hposition.symm ▸ hboth.trans_le htaken

section Within

variable {base : ℕ} {d d' : Desk}

/-- The records, as fills within the limit on positions. -/
def Limited (d : Desk) : Prop :=
  WithinAll d.1.engine.riskManager.maxPosition.toNat .unused
    (d.1.log.trades.map TradeRecord.filled)

/-- **Every call keeps to the limit.** -/
theorem Limited.step (h : Limited d) (hapart : Apart base d) (hbooked : Booked d) (hheld : Held d)
    (haudited : Audited d) (hlimit : d.1.engine.riskManager.maxPosition.toNat < 2 ^ 63) {c : Call}
    (hc : Proper d c) (hcall : d.step c = some d') : Limited d' := by
  have hmax := maxPosition_step hbooked.unrested hc.foreign hcall
  rw [Limited, hmax]
  cases c with
  | event ev =>
    obtain ⟨-, -, hlog, -⟩ := event_stays hbooked.unrested hc.1 hcall
    rw [hlog]
    exact h
  | decision sig strategyId =>
    have hmid := takeMid_trades sig.locate d
    rcases outcome_of_decision hbooked.unrested hcall with
      rfl | ⟨-, -, hlog, -⟩ | ⟨-, hcheck, r, marks, sim, hsubmit, -, -, hlog, -, -⟩
    · rw [hmid]
      exact h
    · rw [hlog, hmid]
      exact h
    · generalize horder : d.1.engine.orderFor sig strategyId .market = order at *
      have hsmall : order.quantity.toNat < 2 ^ 51 := by
        rw [← horder]
        exact signalQty_lt d.1.engine sig
      obtain ⟨hle, -, hrejected⟩ := ExchangeSimulator.submit_fills_le hsubmit
      have hfits : (r.fills.map fun f => f.filledQty.toNat).sum ≤ order.quantity.toNat := by
        refine hle.trans ?_
        rw [UInt64.toNat_toUInt32]
        exact Nat.mod_le _ _
      have htrades := (d.takeMid sig.locate).1.log.recordFills_trades order hrejected
      rw [hmid, ← hlog] at htrades
      rw [htrades, List.map_append, RiskManager.withinAll_append]
      refine ⟨h, ?_⟩
      by_cases hnone : r.fills = []
      · rw [hnone]
        trivial
      · -- what it traded with rests in the book of a valid locate
        have hmaker := fun f (hf : f ∈ r.fills) =>
          ExchangeSimulator.fill_maker hapart.inv (hapart.fresh hapart.issued.le) hsubmit hf
        obtain ⟨f, hf⟩ := List.exists_mem_of_ne_nil _ hnone
        obtain ⟨x, hx, -⟩ := hmaker f hf
        obtain ⟨G, fl, hrep⟩ := hapart.inv
        have hsymbol : order.symbolId < kMaxLocate := hrep.resting_range hx
        obtain ⟨htakes, htaken⟩ :=
          takes_of_check hcheck hlimit (hheld.within _ hsymbol) hsmall hfits
        refine withinAll_fills hlimit hsymbol (fun f hf => ?_) (by omega) ?_ ?_
        · obtain ⟨x, -, hprice, -⟩ := hmaker f hf
          rw [hprice, toInt_tick]
          exact Int.natCast_nonneg _
        · exact haudited.position _ ▸ htakes
        · exact haudited.position _ ▸ htaken

theorem Runs.limited (h : Runs Proper d)
    (hlimit : d.1.engine.riskManager.maxPosition.toNat < 2 ^ 63) : Limited d := by
  induction h with
  | start => trivial
  | @call d d' c hr hc hcall ih =>
    have hbooked := hr.foreign.booked
    obtain ⟨base, hapart⟩ := hr.apart
    rw [maxPosition_step hbooked.unrested hc.foreign hcall] at hlimit
    exact (ih hlimit).step hapart hbooked (hr.foreign.held hlimit) hr.foreign.audited hlimit hc
      hcall

end Within

/-! ### Runs -/

section Runs

variable {d : Desk}

/-- **The books of the risk manager are those of `trades.csv`**: a risk manager that has seen
nothing, and books the records one after the other, has the same positions, the same average costs
and the same realised profit. -/
theorem runs_audited (h : Runs Foreign d) :
    SameBooks (RiskManager.unused.fillAll (d.1.log.trades.map TradeRecord.filled))
      d.1.engine.riskManager := h.audited

/-- The loss of 100 is in the records. -/
theorem runs_audited_two : ∃ d,
    play (fun d c => decide (Foreign d c)) deskCalls deskStart = some d ∧
      (d.1.log.trades.map fun t => (t.side, t.qty, t.price)) = [(.buy, 60, 101), (.sell, 50, 99)] ∧
      (RiskManager.unused.fillAll (d.1.log.trades.map TradeRecord.filled)).realizedPnl = -100 ∧
      d.1.engine.riskManager.realizedPnl = -100 := by
  have hread : (play (fun d c => decide (Foreign d c)) deskCalls deskStart).map (fun d =>
      (d.1.log.trades.map fun t => (t.side, t.qty, t.price),
        (RiskManager.unused.fillAll (d.1.log.trades.map TradeRecord.filled)).realizedPnl)) =
      some ([(.buy, 60, 101), (.sell, 50, 99)], -100) := by decide +kernel
  obtain ⟨d, hrun, heq⟩ := Option.map_eq_some_iff.mp hread
  obtain ⟨htrades, hpnl⟩ := Prod.mk.inj heq
  exact ⟨d, hrun, htrades, hpnl, (runs_audited (runs_deskCalls hrun)).realizedPnl.trans hpnl⟩

/-- **The profit and the money**, if the market keeps the contract and the limit on positions is
below `2 ^ 63`: the realised profit is the money that came in and what the open positions cost, and
the equity is the initial equity, that money, and what the positions are worth at their marks. Both
are too high by what the average costs dropped, which is less than the limit for every buy. The
counter of the profit wraps around, and the equity with it, if this is not an `int64_t`. -/
theorem runs_cash (h : Runs Proper d)
    (hlimit : d.1.engine.riskManager.maxPosition.toNat < 2 ^ 63) : ∃ dropped : ℤ, 0 ≤ dropped ∧
      dropped ≤ (d.1.log.trades.countP fun t => decide (t.side = .buy)) *
        ((d.1.engine.riskManager.maxPosition.toNat - 1 : ℕ) : ℤ) ∧
      d.1.engine.riskManager.realizedPnl =
        .ofInt (RiskManager.cash (d.1.log.trades.map TradeRecord.filled) +
          d.1.engine.riskManager.costs + dropped) ∧
      (RiskManager.Fits (RiskManager.cash (d.1.log.trades.map TradeRecord.filled) +
          d.1.engine.riskManager.costs + dropped) →
        d.1.engine.riskManager.equity = d.1.engine.riskManager.initialEquity +
          RiskManager.cash (d.1.log.trades.map TradeRecord.filled) +
            d.1.engine.riskManager.worth + dropped) := by
  obtain ⟨dropped, hnonneg, hle, hmoney⟩ := h.foreign.audited.money (h.limited hlimit)
  rw [List.countP_map] at hle
  exact ⟨dropped, hnonneg, hle, hmoney⟩

/-- The 100 were bought for 101.8 each, of which the average cost keeps 101, so 80 are dropped. -/
theorem runs_cash_two : ∃ d, play marketTest marketCalls marketStart = some d ∧
    d.1.engine.riskManager.realizedPnl = -100 ∧
    RiskManager.cash (d.1.log.trades.map TradeRecord.filled) = -5230 ∧
    ∃ dropped : ℤ, 0 ≤ dropped ∧ dropped ≤ 298 ∧
      (-100 : Int64) = .ofInt (-5230 + d.1.engine.riskManager.costs + dropped) := by
  have hread : (play marketTest marketCalls marketStart).map (fun d =>
      (d.1.engine.riskManager.realizedPnl, d.1.engine.riskManager.maxPosition,
        d.1.log.trades.countP fun t => decide (t.side = .buy),
        RiskManager.cash (d.1.log.trades.map TradeRecord.filled))) =
      some (-100, 150, 2, -5230) := by decide +kernel
  obtain ⟨d, hrun, heq⟩ := Option.map_eq_some_iff.mp hread
  obtain ⟨hpnl, heq⟩ := Prod.mk.inj heq
  obtain ⟨hmax, heq⟩ := Prod.mk.inj heq
  obtain ⟨hbuys, hcash⟩ := Prod.mk.inj heq
  have hr : Runs Proper d := by
    refine Runs.play (fun {d c} hr htest => ?_) (runs_marketStart Proper) hrun
    obtain ⟨base, hapart⟩ := hr.apart
    exact (shown_of_test hapart.inv htest).1
  obtain ⟨dropped, hnonneg, hle, hmoney, -⟩ := runs_cash hr (by rw [hmax]; decide)
  rw [hbuys, hmax] at hle
  rw [hpnl, hcash] at hmoney
  exact ⟨d, hrun, hpnl, hcash, dropped, hnonneg, hle, hmoney⟩

end Runs

end Desk

end NebulaX
