import NebulaX.Risk.Positions

/-!
# The drawdown gates

The equity is marked to the market: with every fill and every mark it changes by what changes in
the cell of one symbol. The peak follows it upwards. `drawdown_paused` and `drawdown_flatten`
compare the distance to the peak with a limit, anew at every call, so a gate opens again as soon
as the equity has come back to within the limit. `Recovers` says which steps bring it back, from
the cell of the step alone.

## Main results

* `drawdown_step` — the drawdown after a step
* `gates_latch_iff` — the gates stay shut in a run if and only if no step recovers
* `paused_opens` — a mark that comes back opens the gate
-/

namespace NebulaX.RiskManager

/-- A call of the risk manager. -/
inductive Event
  | onFill (order : Order) (filledQty : UInt64)
  | mark (m : Mark)
  | checkOrder (order : Order)

/-- What a call does, without its answer. -/
def step (rm : RiskManager) : Event → RiskManager
  | .onFill order filledQty => rm.onFill order filledQty
  | .mark m => rm.mark m
  | .checkOrder _ => rm

/-- What an event adds to the equity. -/
def gain (rm : RiskManager) : Event → ℤ
  | .onFill order filledQty =>
    let c := rm.cell order.symbolId
    match order.side with
    | .buy => ((rm.onBuy order filledQty).cell order.symbolId).floating - c.floating
    | .sell => ((rm.onSell order filledQty).cell order.symbolId).floating - c.floating +
        ((rm.onSell order filledQty).realizedPnl.toInt - rm.realizedPnl.toInt)
    | .none => 0
  | .mark m =>
    ({ rm.cell m.1 with markPrice := m.2.toInt } : Cell).floating - (rm.cell m.1).floating
  | .checkOrder _ => 0

/-- An event brings the drawdown back to the limit. -/
def Recovers (limit : ℤ) (rm : RiskManager) (ev : Event) : Prop :=
  0 ≤ limit ∧ rm.drawdown - rm.gain ev ≤ limit

/-! ### The equity -/

/-- Writing a cell changes the equity by what changes in the cell. -/
theorem equity_setCell (rm : RiskManager) (symbolId : ℕ) (c : Cell) :
    (rm.setCell symbolId c).equity =
      rm.equity + (c.floating - (rm.cell symbolId).floating) := by
  have hsum := rm.cells.sum_set symbolId c Cell.floating
  rw [equity_eq, equity_eq]
  show rm.initialEquity + rm.realizedPnl.toInt +
    ∑ l ∈ Finset.range kMaxLocate, ((rm.cells.set symbolId c).get l).floating = _
  rw [hsum, ← add_assoc]
  rfl

theorem equity_updateEquity (rm : RiskManager) : rm.updateEquity.equity = rm.equity := by
  rw [updateEquity]
  split <;> rfl

/-- The peak is not below the equity after it was updated. -/
theorem drawdown_updateEquity (rm : RiskManager) :
    rm.updateEquity.drawdown = max rm.drawdown 0 := by
  rw [drawdown, equity_updateEquity, updateEquity, drawdown]
  split
  · next hlt =>
    show rm.equity - rm.equity = _
    omega
  · next hge =>
    show rm.equityPeak - rm.equity = _
    omega

/-- A cell that was written is read back. -/
theorem cell_setCell_self (rm : RiskManager) (symbolId : ℕ) (c : Cell) :
    (rm.setCell symbolId c).cell symbolId = c := by
  rw [cell_setCell, if_pos rfl]

/-- The equity before a fill updates the peak. -/
theorem equity_onBuy (rm : RiskManager) (order : Order) (q : UInt64) :
    (rm.onBuy order q).equity = rm.equity +
      (((rm.onBuy order q).cell order.symbolId).floating -
        (rm.cell order.symbolId).floating) := by
  rw [onBuy, cell_setCell_self]
  exact rm.equity_setCell order.symbolId _

theorem equity_onSell (rm : RiskManager) (order : Order) (q : UInt64) :
    (rm.onSell order q).equity = rm.equity +
      (((rm.onSell order q).cell order.symbolId).floating - (rm.cell order.symbolId).floating +
        ((rm.onSell order q).realizedPnl.toInt - rm.realizedPnl.toInt)) := by
  have hcell := rm.equity_setCell order.symbolId ((rm.onSell order q).cell order.symbolId)
  have hsplit : (rm.onSell order q).equity =
      (rm.setCell order.symbolId ((rm.onSell order q).cell order.symbolId)).equity +
        ((rm.onSell order q).realizedPnl.toInt - rm.realizedPnl.toInt) := by
    have hread : (rm.onSell order q).cells =
        (rm.setCell order.symbolId ((rm.onSell order q).cell order.symbolId)).cells := by
      show rm.cells.set order.symbolId _ = rm.cells.set order.symbolId _
      exact congrArg _ (rm.cell_setCell_self order.symbolId _).symm
    rw [equity, equity, hread]
    show rm.initialEquity + _ + _ = rm.initialEquity + rm.realizedPnl.toInt + _ + _
    omega
  rw [hsplit, hcell]
  omega

/-- **The drawdown after an event**: less by the gain, and not below zero once the peak was
updated. -/
theorem drawdown_step (rm : RiskManager) (ev : Event) :
    (rm.step ev).drawdown = (match ev with
      | .checkOrder _ => rm.drawdown
      | .onFill .. | .mark _ => max (rm.drawdown - rm.gain ev) 0) := by
  cases ev with
  | checkOrder order => rfl
  | mark m =>
    show (rm.mark m).drawdown = _
    rw [mark, drawdown_updateEquity, drawdown, equity_setCell]
    show max (rm.equityPeak - _) 0 = max (rm.equityPeak - rm.equity - _) 0
    rw [← sub_sub]
    rfl
  | onFill order q =>
    show (rm.onFill order q).drawdown = _
    rw [onFill, drawdown_updateEquity, gain]
    cases order.side with
    | buy =>
      show max (rm.equityPeak - (rm.onBuy order q).equity) 0 = _
      rw [equity_onBuy, ← sub_sub]
      rfl
    | sell =>
      show max (rm.equityPeak - (rm.onSell order q).equity) 0 = _
      rw [equity_onSell, ← sub_sub]
      rfl
    | none =>
      show max rm.drawdown 0 = max (rm.drawdown - 0) 0
      rw [sub_zero]

/-- **A gate that is shut** stays shut in a step if and only if the step does not recover. -/
theorem lt_drawdown_step_iff {rm : RiskManager} {limit : ℤ} (h : limit < rm.drawdown)
    (ev : Event) : limit < (rm.step ev).drawdown ↔ ¬ Recovers limit rm ev := by
  rw [drawdown_step, Recovers]
  cases ev with
  | checkOrder order =>
    show limit < rm.drawdown ↔ ¬ (0 ≤ limit ∧ rm.drawdown - 0 ≤ limit)
    omega
  | mark m =>
    simp only
    omega
  | onFill order q =>
    simp only
    omega

/-! ### Runs -/

/-- The limits are configured before a run. -/
theorem limits_step (rm : RiskManager) (ev : Event) :
    (rm.step ev).maxDrawdownPause = rm.maxDrawdownPause ∧
      (rm.step ev).maxDrawdownFlatten = rm.maxDrawdownFlatten := by
  have hupdate : ∀ rm : RiskManager, rm.updateEquity.maxDrawdownPause = rm.maxDrawdownPause ∧
      rm.updateEquity.maxDrawdownFlatten = rm.maxDrawdownFlatten := by
    intro rm
    rw [updateEquity]
    split <;> exact ⟨rfl, rfl⟩
  cases ev with
  | checkOrder order => exact ⟨rfl, rfl⟩
  | mark m => exact hupdate _
  | onFill order q =>
    show (rm.onFill order q).maxDrawdownPause = _ ∧ (rm.onFill order q).maxDrawdownFlatten = _
    rw [onFill]
    cases order.side <;> exact hupdate _

/-- The state after a run. -/
def run (rm : RiskManager) (evs : List Event) : RiskManager := evs.foldl step rm

theorem limits_run (rm : RiskManager) (evs : List Event) :
    (rm.run evs).maxDrawdownPause = rm.maxDrawdownPause ∧
      (rm.run evs).maxDrawdownFlatten = rm.maxDrawdownFlatten := by
  rw [run]
  induction evs generalizing rm with
  | nil => exact ⟨rfl, rfl⟩
  | cons ev evs ih =>
    obtain ⟨hpause, hflatten⟩ := ih (rm.step ev)
    obtain ⟨hpause', hflatten'⟩ := rm.limits_step ev
    exact ⟨hpause.trans hpause', hflatten.trans hflatten'⟩

/-- Once a gate has been shut in a run, it is shut in every later state. -/
def Latches (gate : RiskManager → Bool) (rm : RiskManager) (evs : List Event) : Prop :=
  ∀ front mid back, evs = front ++ mid ++ back →
    gate (rm.run front) = true → gate (rm.run (front ++ mid)) = true

/-- No event recovers while the gate is shut. -/
def NeverRecovers (limit : ℤ) (rm : RiskManager) (evs : List Event) : Prop :=
  ∀ front ev back, evs = front ++ ev :: back →
    limit < (rm.run front).drawdown → ¬ Recovers limit (rm.run front) ev

theorem run_append (rm : RiskManager) (evs evs' : List Event) :
    rm.run (evs ++ evs') = (rm.run evs).run evs' := List.foldl_append ..

/-- **A gate latches** if and only if no event recovers. -/
theorem latches_iff {gate : RiskManager → Bool} {limit : ℤ} {rm : RiskManager} {evs : List Event}
    (hgate : ∀ evs, gate (rm.run evs) = true ↔ limit < (rm.run evs).drawdown) :
    Latches gate rm evs ↔ NeverRecovers limit rm evs := by
  constructor
  · intro h front ev back hevs hshut
    refine (lt_drawdown_step_iff hshut ev).mp ?_
    have hmid := h front [ev] back (by rw [hevs, List.append_assoc]; rfl) ((hgate front).mpr hshut)
    rw [hgate, run_append] at hmid
    exact hmid
  · -- the gate is carried through the middle, event by event
    intro h front mid back hevs hshut
    induction mid generalizing front with
    | nil => rwa [List.append_nil]
    | cons ev mid ih =>
      have hevs' : evs = front ++ ev :: (mid ++ back) := by
        rw [hevs, List.append_assoc]
        rfl
      have hstep : gate (rm.run (front ++ [ev])) = true := by
        rw [hgate, run_append]
        exact (lt_drawdown_step_iff ((hgate front).mp hshut) ev).mpr
          (h front ev (mid ++ back) hevs' ((hgate front).mp hshut))
      have hrest := ih (front ++ [ev]) (by rw [hevs, List.append_assoc]; simp) hstep
      rwa [List.append_assoc] at hrest

/-- A paused risk manager rejects every order. -/
theorem checkOrder_of_paused {rm : RiskManager} (h : rm.drawdownPaused = true) (order : Order) :
    rm.checkOrder order = false := by
  rw [checkOrder]
  split_ifs <;> rfl

/-- **The gates latch** in a run, and with the first of them all orders are rejected, if and only
if no event of the run brings the drawdown back to the limit while the gate is shut. -/
theorem gates_latch_iff (rm : RiskManager) (evs : List Event) :
    (Latches drawdownPaused rm evs ∧ Latches drawdownFlatten rm evs ∧
      ∀ front mid back order, evs = front ++ mid ++ back →
        (rm.run front).drawdownPaused = true → (rm.run (front ++ mid)).checkOrder order = false) ↔
      NeverRecovers rm.maxDrawdownPause rm evs ∧ NeverRecovers rm.maxDrawdownFlatten rm evs := by
  have hpause : Latches drawdownPaused rm evs ↔ NeverRecovers rm.maxDrawdownPause rm evs := by
    refine latches_iff fun evs => ?_
    rw [drawdownPaused, (rm.limits_run evs).1, decide_eq_true_iff]
  have hflatten : Latches drawdownFlatten rm evs ↔ NeverRecovers rm.maxDrawdownFlatten rm evs := by
    refine latches_iff fun evs => ?_
    rw [drawdownFlatten, (rm.limits_run evs).2, decide_eq_true_iff]
  rw [← hpause, ← hflatten]
  constructor
  · exact fun h => ⟨h.1, h.2.1⟩
  · intro h
    refine ⟨h.1, h.2, fun front mid back order hevs hshut => ?_⟩
    exact checkOrder_of_paused (h.1 front mid back hevs hshut) order

/-- **A mark that comes back** opens the gate: a share is bought at 100, marked at 90 and then
at 100 again. -/
theorem paused_opens :
    ¬ Latches drawdownPaused {} [.onFill { side := .buy, price := 100 } 1, .mark (0, 90),
      .mark (0, 100)] := by
  intro h
  have hopen := h [.onFill { side := .buy, price := 100 } 1, .mark (0, 90)] [.mark (0, 100)] []
    rfl (by decide)
  exact absurd hopen (by decide)

end NebulaX.RiskManager
