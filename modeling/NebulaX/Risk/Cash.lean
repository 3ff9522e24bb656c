import Mathlib.Algebra.Order.Ring.Int
import NebulaX.Risk.Drawdown

/-!
# Profit and cash

The risk manager carries a position as a quantity and one average cost, which is an integer. A buy
computes the average anew and drops the remainder of the division, and a sell realises the
distance of its price to the average. So what was dropped comes back as profit later on: what the
sells realise is the cash that came in, plus what the open positions cost, plus all remainders that
were dropped.

Prices are not negative, a sell is not for more than the position, and positions stay within the
signed integers. The counter of the realised profit wraps around, so it shows what was realised as
long as that is a signed integer of 64 bits.

## Main results

* `realized_eq` — what was realised, in terms of cash, cost and remainders, and what the counter
  shows of it
* `realized_eq_cash_iff` — with all positions closed it is the cash if and only if nothing was
  dropped
* `rounding_is_profit` — three fills that lose money and show a profit
-/

namespace NebulaX

/-! ### One cell -/

namespace Cell

/-- What the position of a cell cost. -/
def cost (c : Cell) : ℤ := c.avgCost * toSigned c.qty

/-- The cell after a buy. -/
def bought (c : Cell) (price : ℤ) (q : UInt64) : Cell :=
  { c with
    qty := c.qty + q
    avgCost := if c.qty + q = 0 then 0
      else (c.cost + price * toSigned q).tdiv (toSigned (c.qty + q)) }

/-- What the average drops in a buy. -/
def remainder (c : Cell) (price : ℤ) (q : UInt64) : ℤ :=
  (c.cost + price * toSigned q).tmod (toSigned (c.qty + q))

/-- The cell after a sell. -/
def sold (c : Cell) (q : UInt64) : Cell :=
  { c with qty := c.qty - q, avgCost := if c.qty - q = 0 then 0 else c.avgCost }

/-- The position is a signed integer, and its cost is not negative. -/
structure Sane (c : Cell) : Prop where
  /-- The position. -/
  qty : c.qty.toNat < 2 ^ 63
  /-- The average. -/
  avgCost : 0 ≤ c.avgCost

variable {c : Cell} {price : ℤ} {q : UInt64}

theorem Sane.cost (h : c.Sane) : 0 ≤ c.cost := by
  refine mul_nonneg h.avgCost ?_
  rw [toSigned_eq h.qty]
  exact Int.natCast_nonneg _

section Bought

variable (h : c.Sane) (hprice : 0 ≤ price) (hsmall : c.qty.toNat + q.toNat < 2 ^ 63)

include hsmall in
theorem qty_bought : (c.qty + q).toNat = c.qty.toNat + q.toNat := by
  rw [UInt64.toNat_add]
  exact Nat.mod_eq_of_lt (by omega)

include h hprice hsmall in
theorem total_nonneg : 0 ≤ c.cost + price * toSigned q := by
  refine add_nonneg h.cost (mul_nonneg hprice ?_)
  rw [toSigned_eq (by omega)]
  exact Int.natCast_nonneg _

include h hprice hsmall in
theorem remainder_nonneg : 0 ≤ c.remainder price q :=
  Int.tmod_nonneg _ (total_nonneg h hprice hsmall)

include h hprice hsmall in
theorem Sane.bought : (c.bought price q).Sane where
  qty := by
    show (c.qty + q).toNat < 2 ^ 63
    rw [qty_bought hsmall]
    exact hsmall
  avgCost := by
    show (0 : ℤ) ≤ if c.qty + q = 0 then 0
      else (c.cost + price * toSigned q).tdiv (toSigned (c.qty + q))
    split
    · exact le_refl 0
    · refine Int.tdiv_nonneg (total_nonneg h hprice hsmall) ?_
      rw [toSigned_eq (by rw [qty_bought hsmall]; exact hsmall)]
      exact Int.natCast_nonneg _

/-- **A buy** costs what was paid, less what the average drops. -/
theorem cost_bought (c : Cell) (price : ℤ) (q : UInt64) :
    (c.bought price q).cost = c.cost + price * toSigned q - c.remainder price q := by
  have hsplit := Int.tmod_add_mul_tdiv (c.cost + price * toSigned q) (toSigned (c.qty + q))
  show (if c.qty + q = 0 then 0 else (c.cost + price * toSigned q).tdiv (toSigned (c.qty + q))) *
    toSigned (c.qty + q) = _
  rw [remainder]
  by_cases hzero : c.qty + q = 0
  · -- nothing is held and nothing is bought
    rw [if_pos hzero, hzero]
    show 0 * _ = _ - Int.tmod _ 0
    rw [Int.tmod_zero, sub_self, zero_mul]
  · rw [if_neg hzero, mul_comm]
    omega

end Bought

section Sold

variable (h : c.Sane) (hle : q ≤ c.qty)

include h hle in
theorem Sane.sold : (c.sold q).Sane where
  qty := by
    show (c.qty - q).toNat < 2 ^ 63
    rw [UInt64.toNat_sub_of_le _ _ hle]
    exact lt_of_le_of_lt (Nat.sub_le _ _) h.qty
  avgCost := by
    show (0 : ℤ) ≤ if c.qty - q = 0 then 0 else c.avgCost
    split
    · exact le_refl 0
    · exact h.avgCost

include h hle in
/-- **A sell** takes off what was sold, at the average. -/
theorem cost_sold : (c.sold q).cost = c.cost - c.avgCost * q.toNat := by
  have hle' := UInt64.le_iff_toNat_le.mp hle
  have hsub := UInt64.toNat_sub_of_le _ _ hle
  have hqty := h.qty
  show (if c.qty - q = 0 then 0 else c.avgCost) * toSigned (c.qty - q) = _
  rw [cost, toSigned_eq hqty, toSigned_eq (by omega), hsub, ← mul_sub, ← Int.ofNat_sub hle']
  split
  · next hzero =>
    have hzero' : (c.qty - q).toNat = 0 := by
      rw [hzero]
      rfl
    rw [← hsub, hzero', zero_mul]
    exact (mul_zero _).symm
  · rfl

end Sold

end Cell

namespace RiskManager

/-! ### Fills -/

/-- A fill: the order, with the price of the fill, and the quantity. -/
abbrev Filled := Order × UInt64

/-- What a fill brings in. -/
def cashOf (f : Filled) : ℤ :=
  match f.1.side with
  | .sell => f.1.price.toInt * f.2.toNat
  | .buy => -(f.1.price.toInt * f.2.toNat)
  | .none => 0

/-- What fills bring in: the sells less the buys. -/
def cash (fs : List Filled) : ℤ := (fs.map cashOf).sum

/-- What a fill realises. -/
def realizes (rm : RiskManager) (f : Filled) : ℤ :=
  match f.1.side with
  | .sell => (f.1.price.toInt - (rm.cell f.1.symbolId).avgCost) * f.2.toNat
  | .buy | .none => 0

/-- What fills realise. -/
def realizesAll : RiskManager → List Filled → ℤ
  | _, [] => 0
  | rm, f :: fs => rm.realizes f + realizesAll (rm.onFill f.1 f.2) fs

/-- A number that an `int64_t` holds. -/
def Fits (n : ℤ) : Prop := -2 ^ 63 ≤ n ∧ n < 2 ^ 63

/-- The state after fills. -/
def fillAll (rm : RiskManager) (fs : List Filled) : RiskManager :=
  fs.foldl (fun rm f => rm.onFill f.1 f.2) rm

/-- What the average drops in a fill. -/
def dropped (rm : RiskManager) (f : Filled) : ℤ :=
  match f.1.side with
  | .buy => (rm.cell f.1.symbolId).remainder f.1.price.toInt f.2
  | .sell | .none => 0

/-- What the averages drop in fills. -/
def droppedAll : RiskManager → List Filled → ℤ
  | _, [] => 0
  | rm, f :: fs => rm.dropped f + droppedAll (rm.onFill f.1 f.2) fs

/-- Every buy divides evenly. -/
def ExactAll : RiskManager → List Filled → Prop
  | _, [] => True
  | rm, f :: fs => rm.dropped f = 0 ∧ ExactAll (rm.onFill f.1 f.2) fs

/-- A fill that the risk manager is meant for. -/
structure Proper (rm : RiskManager) (f : Filled) : Prop where
  /-- The symbol has a locate of its own. -/
  symbol : f.1.symbolId < kMaxLocate
  /-- The price is not negative. -/
  price : 0 ≤ f.1.price.toInt
  /-- The quantity is a signed integer. -/
  small : f.2.toNat < 2 ^ 63
  /-- So is the position after a buy. -/
  buy : f.1.side = .buy → (rm.position f.1.symbolId).toNat + f.2.toNat < 2 ^ 63
  /-- No more is sold than there is. -/
  sell : f.1.side = .sell → f.2 ≤ rm.position f.1.symbolId

/-- All of them are. -/
def ProperAll : RiskManager → List Filled → Prop
  | _, [] => True
  | rm, f :: fs => Proper rm f ∧ ProperAll (rm.onFill f.1 f.2) fs

/-- What all positions cost. -/
def costs (rm : RiskManager) : ℤ := ∑ l ∈ Finset.range kMaxLocate, (rm.cells.get l).cost

/-- All cells are sane. -/
def Sane (rm : RiskManager) : Prop := ∀ l, (rm.cells.get l).Sane

section Fill

variable {rm : RiskManager} {order : Order} {q : UInt64}

theorem costs_setCell (rm : RiskManager) (symbolId : ℕ) (c : Cell) :
    (rm.setCell symbolId c).costs = rm.costs + (c.cost - (rm.cell symbolId).cost) :=
  rm.cells.sum_set symbolId c Cell.cost

theorem Sane.setCell (h : Sane rm) (symbolId : ℕ) {c : Cell} (hc : c.Sane) :
    Sane (rm.setCell symbolId c) := by
  intro l
  show ((rm.cells.set symbolId c).get l).Sane
  rw [Cells.get_set]
  split
  · exact hc
  · exact h l

theorem updateEquity_keeps (rm : RiskManager) : rm.updateEquity.cells = rm.cells ∧
    rm.updateEquity.realizedPnl = rm.realizedPnl ∧
    rm.updateEquity.initialEquity = rm.initialEquity := by
  rw [updateEquity]
  split <;> exact ⟨rfl, rfl, rfl⟩

theorem onBuy_eq (rm : RiskManager) (order : Order) (q : UInt64) : rm.onBuy order q =
    rm.setCell order.symbolId ((rm.cell order.symbolId).bought order.price.toInt q) := rfl

/-- A sell of no more than there is. -/
theorem onSell_eq (hle : q ≤ (rm.cell order.symbolId).qty) : rm.onSell order q =
    { rm.setCell order.symbolId ((rm.cell order.symbolId).sold q) with
      realizedPnl := rm.realizedPnl +
        .ofInt ((order.price.toInt - (rm.cell order.symbolId).avgCost) * toSigned q) } := by
  have hcut : (if q < (rm.cell order.symbolId).qty then q
      else (rm.cell order.symbolId).qty) = q := by
    split
    · rfl
    · next hnot => exact UInt64.le_antisymm (UInt64.not_lt.mp hnot) hle
  rw [onSell, hcut]
  rfl

/-- **One fill** in terms of cash, costs and what is dropped. -/
theorem onFill_cost (h : Sane rm) {f : Filled} (hproper : Proper rm f) :
    Sane (rm.onFill f.1 f.2) ∧ 0 ≤ rm.dropped f ∧
      (rm.onFill f.1 f.2).initialEquity = rm.initialEquity ∧
      (rm.onFill f.1 f.2).realizedPnl = rm.realizedPnl + .ofInt (rm.realizes f) ∧
      rm.realizes f - (rm.onFill f.1 f.2).costs = cashOf f - rm.costs + rm.dropped f := by
  obtain ⟨order, q⟩ := f
  have hcell := h (locateIdx order.symbolId)
  have hq : toSigned q = q.toNat := toSigned_eq hproper.small
  have hupdate : ∀ rm : RiskManager, (Sane rm.updateEquity ↔ Sane rm) ∧
      rm.updateEquity.initialEquity = rm.initialEquity ∧
      rm.updateEquity.realizedPnl = rm.realizedPnl ∧ rm.updateEquity.costs = rm.costs := by
    intro rm
    obtain ⟨hcells, hpnl, hinitial⟩ := rm.updateEquity_keeps
    rw [Sane, Sane, costs, costs, hcells]
    exact ⟨Iff.rfl, hinitial, hpnl, rfl⟩
  rw [onFill, (hupdate _).1, (hupdate _).2.1, (hupdate _).2.2.1, (hupdate _).2.2.2, cashOf,
    dropped, realizes]
  cases hside : order.side with
  | buy =>
    have hsmall : (rm.cell order.symbolId).qty.toNat + q.toNat < 2 ^ 63 := hproper.buy hside
    have hcost := rm.costs_setCell order.symbolId
      ((rm.cell order.symbolId).bought order.price.toInt q)
    rw [Cell.cost_bought, hq] at hcost
    refine ⟨h.setCell order.symbolId (hcell.bought hproper.price hsmall),
      Cell.remainder_nonneg hcell hproper.price hsmall, rfl, (Int64.add_zero _).symm, ?_⟩
    show 0 - (rm.onBuy order q).costs = -(order.price.toInt * q.toNat) - rm.costs +
      (rm.cell order.symbolId).remainder order.price.toInt q
    rw [onBuy_eq, hcost]
    omega
  | sell =>
    have hle : q ≤ (rm.cell order.symbolId).qty := hproper.sell hside
    have hcost := rm.costs_setCell order.symbolId ((rm.cell order.symbolId).sold q)
    have hsold : ((rm.cell order.symbolId).sold q).cost =
      (rm.cell order.symbolId).cost - (rm.cell order.symbolId).avgCost * q.toNat :=
        Cell.cost_sold hcell hle
    have hproduct : (order.price.toInt - (rm.cell order.symbolId).avgCost) * q.toNat =
        order.price.toInt * q.toNat - (rm.cell order.symbolId).avgCost * q.toNat := sub_mul ..
    simp only [onSell_eq hle]
    refine ⟨h.setCell order.symbolId (Cell.Sane.sold hcell hle), le_refl 0, rfl, ?_, ?_⟩
    · rw [hq]
    · show (order.price.toInt - (rm.cell order.symbolId).avgCost) * q.toNat -
        (rm.setCell order.symbolId ((rm.cell order.symbolId).sold q)).costs =
          order.price.toInt * q.toNat - rm.costs + 0
      rw [hproduct, hcost, hsold]
      omega
  | none =>
    refine ⟨h, le_refl 0, rfl, (Int64.add_zero _).symm, ?_⟩
    show 0 - rm.costs = 0 - rm.costs + 0
    omega

end Fill

/-! ### Runs -/

section Runs

variable {rm : RiskManager} {fs : List Filled}

/-- **What was realised** is the cash, what the positions cost, and what was dropped. The counter
shows it, up to what an `int64_t` can tell apart. -/
theorem realized_eq (h : Sane rm) (hproper : ProperAll rm fs) :
    (rm.fillAll fs).realizedPnl = rm.realizedPnl + .ofInt (realizesAll rm fs) ∧
      realizesAll rm fs - (rm.fillAll fs).costs = cash fs - rm.costs + droppedAll rm fs ∧
      (rm.fillAll fs).initialEquity = rm.initialEquity ∧
      0 ≤ droppedAll rm fs ∧ (droppedAll rm fs = 0 ↔ ExactAll rm fs) := by
  induction fs generalizing rm with
  | nil =>
    refine ⟨(Int64.add_zero _).symm, ?_, rfl, le_refl 0, iff_of_true rfl trivial⟩
    show 0 - rm.costs = 0 - rm.costs + 0
    omega
  | cons f fs ih =>
    obtain ⟨hsane, hdropped, hinitial, hpnl, hfirst⟩ := onFill_cost h hproper.1
    obtain ⟨hpnl', hrest, hinitial', hnonneg, hiff⟩ := ih hsane hproper.2
    have hcash : cash (f :: fs) = cashOf f + cash fs := by
      rw [cash, List.map_cons, List.sum_cons]
      rfl
    refine ⟨?_, ?_, hinitial'.trans hinitial, add_nonneg hdropped hnonneg, ?_⟩
    · show ((rm.onFill f.1 f.2).fillAll fs).realizedPnl =
        rm.realizedPnl + .ofInt (rm.realizes f + realizesAll (rm.onFill f.1 f.2) fs)
      rw [hpnl', hpnl, Int64.ofInt_add, Int64.add_assoc]
    · show rm.realizes f + realizesAll (rm.onFill f.1 f.2) fs -
        ((rm.onFill f.1 f.2).fillAll fs).costs = cash (f :: fs) - rm.costs +
          (rm.dropped f + droppedAll (rm.onFill f.1 f.2) fs)
      rw [hcash]
      omega
    · rw [ExactAll, ← hiff]
      show rm.dropped f + droppedAll (rm.onFill f.1 f.2) fs = 0 ↔ _
      omega

/-- With all positions closed nothing costs and nothing floats. -/
theorem closed_of_position (hflat : ∀ symbolId, rm.position symbolId = 0) :
    rm.costs = 0 ∧ rm.equity = rm.initialEquity + rm.realizedPnl.toInt := by
  have hqty : ∀ l ∈ Finset.range kMaxLocate, (rm.cells.get l).qty = 0 := by
    intro l hl
    have hposition := hflat l
    rwa [position, cell, locateIdx_eq (Finset.mem_range.mp hl)] at hposition
  constructor
  · refine Finset.sum_eq_zero fun l hl => ?_
    rw [Cell.cost, hqty l hl]
    exact mul_zero _
  · rw [equity_eq, Finset.sum_eq_zero fun l hl => ?_, add_zero]
    rw [Cell.floating, hqty l hl]
    exact if_neg fun hc => absurd hc.1 (by decide)

/-- What was realised is what the counter shows, if it started at zero. -/
theorem toInt_realizedPnl {pnl : Int64} {n : ℤ} (hpnl : pnl = 0 + .ofInt n) (hfits : Fits n) :
    pnl.toInt = n := by
  rw [hpnl, Int64.zero_add]
  exact Int64.toInt_ofInt_of_le hfits.1 hfits.2

/-- **With all positions closed** the realised profit is the cash, and the equity has changed by
it, if and only if every buy of the run divided evenly. What was realised must not overflow. -/
theorem realized_eq_cash_iff (hrm : rm.IsNew) (hproper : ProperAll rm fs)
    (hfits : Fits (realizesAll rm fs))
    (hflat : ∀ symbolId, (rm.fillAll fs).position symbolId = 0) :
    ((rm.fillAll fs).realizedPnl.toInt = cash fs ∧
      (rm.fillAll fs).equity = rm.initialEquity + cash fs) ↔ ExactAll rm fs := by
  have hempty : ∀ l, rm.cells.get l = {} := by
    intro l
    rw [Cells.get, hrm.1]
    rfl
  have hsane : Sane rm := by
    intro l
    rw [hempty l]
    exact ⟨by decide, le_refl 0⟩
  have hcosts : rm.costs = 0 := by
    refine Finset.sum_eq_zero fun l _ => ?_
    rw [hempty l]
    rfl
  obtain ⟨hpnl, heq, hinitial, -, hiff⟩ := realized_eq hsane hproper
  obtain ⟨hcosts', hequity⟩ := closed_of_position hflat
  rw [hrm.2] at hpnl
  rw [← hiff, hequity, hinitial, toInt_realizedPnl hpnl hfits]
  rw [hcosts, hcosts'] at heq
  omega

end Runs

section Rounding

/-- A fill of a symbol at a price. -/
def fillOf (side : OrderSide) (price : Int64) (q : UInt64) : Filled :=
  ({ side := side, price := price }, q)

/-- Fills of one symbol leave the others alone. -/
theorem position_fillAll (rm : RiskManager) (fs : List Filled) (symbolId : ℕ)
    (hfs : ∀ f ∈ fs, locateIdx f.1.symbolId ≠ locateIdx symbolId) :
    (rm.fillAll fs).position symbolId = rm.position symbolId := by
  induction fs generalizing rm with
  | nil => rfl
  | cons f fs ih =>
    refine (ih _ fun f' hf' => hfs f' (List.mem_cons_of_mem _ hf')).trans ?_
    rw [position_onFill, if_neg (hfs f List.mem_cons_self).symm]

/-- Fills of the symbol 0 that close its position close all of them. -/
theorem flat_of_zero {fs : List Filled} (hfs : ∀ f ∈ fs, f.1.symbolId = 0)
    (hzero : (fillAll {} fs).position 0 = 0) (symbolId : ℕ) :
    (fillAll {} fs).position symbolId = 0 := by
  by_cases hl : locateIdx symbolId = locateIdx 0
  · rw [position, cell, hl]
    exact hzero
  · rw [position_fillAll {} fs symbolId fun f hf h => hl (by rw [← h, hfs f hf])]
    rfl

/-- Two shares are bought at 10 and at 20, so for 15 each, and sold again. -/
theorem realized_eq_cash_iff_even : (fillAll {} [fillOf .buy 10 1, fillOf .buy 20 1,
      fillOf .sell 30 2]).realizedPnl.toInt = 30 ∧
    (30 : ℤ) = cash [fillOf .buy 10 1, fillOf .buy 20 1, fillOf .sell 30 2] := by
  have hproper : ProperAll {} [fillOf .buy 10 1, fillOf .buy 20 1, fillOf .sell 30 2] :=
    ⟨⟨by decide, by decide, by decide, by decide, by decide⟩,
      ⟨by decide, by decide, by decide, by decide, by decide⟩,
      ⟨by decide, by decide, by decide, by decide, by decide⟩, trivial⟩
  have hiff := realized_eq_cash_iff ⟨rfl, rfl⟩ hproper ⟨by decide, by decide⟩
    (flat_of_zero (by decide) (by decide))
  have hcash := (hiff.mpr ⟨by decide, by decide, by decide, trivial⟩).1
  have hthirty : (fillAll {} [fillOf .buy 10 1, fillOf .buy 20 1,
      fillOf .sell 30 2]).realizedPnl.toInt = 30 := by decide
  exact ⟨hthirty, hthirty.symm.trans hcash⟩

/-- **A rounded average is a profit**: three shares are bought for 5 and sold for 6, and the
realised profit is 3. -/
theorem rounding_is_profit :
    ProperAll {} [fillOf .buy 1 1, fillOf .buy 2 2, fillOf .sell 2 3] ∧
    (∀ symbolId, (fillAll {} [fillOf .buy 1 1, fillOf .buy 2 2,
      fillOf .sell 2 3]).position symbolId = 0) ∧
    (fillAll {} [fillOf .buy 1 1, fillOf .buy 2 2, fillOf .sell 2 3]).realizedPnl = 3 ∧
    cash [fillOf .buy 1 1, fillOf .buy 2 2, fillOf .sell 2 3] = 1 :=
  ⟨⟨⟨by decide, by decide, by decide, by decide, by decide⟩,
      ⟨by decide, by decide, by decide, by decide, by decide⟩,
      ⟨by decide, by decide, by decide, by decide, by decide⟩, trivial⟩,
    flat_of_zero (by decide) (by decide), by decide, by decide⟩

end Rounding

end RiskManager

end NebulaX
