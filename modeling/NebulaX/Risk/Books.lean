import NebulaX.Risk.Cash

/-!
# The books and the peak

Two things about a risk manager that marks do not turn back. The books are the quantities, the
average costs and the realised profit: marks leave them alone, and what a fill does to them depends
on nothing else. The peak of the equity never falls, whatever is called.

## Main results

* `SameBooks.onFill`, `sameBooks_marks` — fills go by the books, and marks leave them
* `worth_eq` — the equity in terms of what the positions are worth
* `WithinAll.droppedAll_le` — how much the average costs drop
* `SameBooks.money` — profit and equity in terms of the money of the fills
* `risen_onFill`, `risen_marks` — the peak of the equity does not fall
-/

namespace NebulaX

/-- What a position is worth: at the mark, or at what it cost if there is no mark. -/
def Cell.worth (c : Cell) : ℤ :=
  if 0 < c.markPrice then toSigned c.qty * c.markPrice else c.cost

/-- No cell has two entries if there are none. -/
theorem Cells.nodup_nil : (([] : List (ℕ × Cell)).map Prod.fst).Nodup := List.nodup_nil

/-- No entry is out of range if there are none. -/
theorem Cells.lt_nil : ∀ c ∈ ([] : List (ℕ × Cell)), c.1 < kMaxLocate :=
  fun _ hc => absurd hc List.not_mem_nil

/-- No cell was written. -/
def Cells.none : Cells := ⟨[], Cells.nodup_nil, Cells.lt_nil⟩

namespace RiskManager

/-! ### The books -/

/-- A risk manager that has seen nothing. -/
def unused : RiskManager := { cells := .none }

/-- **The same books**: the quantities, the average costs and the realised profit. -/
structure SameBooks (rm rm' : RiskManager) : Prop where
  /-- The quantities. -/
  qty : ∀ l, (rm'.cells.get l).qty = (rm.cells.get l).qty
  /-- The average costs. -/
  avgCost : ∀ l, (rm'.cells.get l).avgCost = (rm.cells.get l).avgCost
  /-- The realised profit. -/
  realizedPnl : rm'.realizedPnl = rm.realizedPnl

namespace SameBooks

variable {rm rm' rm'' : RiskManager}

theorem refl (rm : RiskManager) : SameBooks rm rm := ⟨fun _ => rfl, fun _ => rfl, rfl⟩

theorem trans (h : SameBooks rm rm') (h' : SameBooks rm' rm'') : SameBooks rm rm'' :=
  ⟨fun l => (h'.qty l).trans (h.qty l), fun l => (h'.avgCost l).trans (h.avgCost l),
    h'.realizedPnl.trans h.realizedPnl⟩

theorem updateEquity (h : SameBooks rm rm') : SameBooks rm.updateEquity rm'.updateEquity := by
  obtain ⟨hcells, hpnl, -⟩ := rm.updateEquity_keeps
  obtain ⟨hcells', hpnl', -⟩ := rm'.updateEquity_keeps
  refine ⟨fun l => ?_, fun l => ?_, ?_⟩
  · rw [hcells, hcells']
    exact h.qty l
  · rw [hcells, hcells']
    exact h.avgCost l
  · rw [hpnl, hpnl']
    exact h.realizedPnl

/-- Cells with the same quantity and the same average cost are written. -/
theorem setCell (h : SameBooks rm rm') (symbolId : ℕ) (c c' : Cell) (hqty : c'.qty = c.qty)
    (havg : c'.avgCost = c.avgCost) :
    SameBooks (rm.setCell symbolId c) (rm'.setCell symbolId c') := by
  refine ⟨fun l => ?_, fun l => ?_, h.realizedPnl⟩
  · show ((rm'.cells.set symbolId c').get l).qty = ((rm.cells.set symbolId c).get l).qty
    rw [Cells.get_set, Cells.get_set]
    split
    · exact hqty
    · exact h.qty l
  · show ((rm'.cells.set symbolId c').get l).avgCost = ((rm.cells.set symbolId c).get l).avgCost
    rw [Cells.get_set, Cells.get_set]
    split
    · exact havg
    · exact h.avgCost l

/-- **A fill** goes by the books alone. -/
theorem onFill (h : SameBooks rm rm') (order : Order) (q : UInt64) :
    SameBooks (rm.onFill order q) (rm'.onFill order q) := by
  have hqty : (rm'.cell order.symbolId).qty = (rm.cell order.symbolId).qty := h.qty _
  have havg : (rm'.cell order.symbolId).avgCost = (rm.cell order.symbolId).avgCost := h.avgCost _
  rw [RiskManager.onFill, RiskManager.onFill]
  refine updateEquity ?_
  cases order.side with
  | buy =>
    refine h.setCell order.symbolId _ _ ?_ ?_
    · rw [hqty]
    · rw [hqty, havg]
  | sell =>
    have hcells := h.setCell order.symbolId
      { rm.cell order.symbolId with
        qty := (rm.cell order.symbolId).qty -
          if q < (rm.cell order.symbolId).qty then q else (rm.cell order.symbolId).qty
        avgCost := if (rm.cell order.symbolId).qty -
          (if q < (rm.cell order.symbolId).qty then q else (rm.cell order.symbolId).qty) = 0 then 0
          else (rm.cell order.symbolId).avgCost }
      { rm'.cell order.symbolId with
        qty := (rm'.cell order.symbolId).qty -
          if q < (rm'.cell order.symbolId).qty then q else (rm'.cell order.symbolId).qty
        avgCost := if (rm'.cell order.symbolId).qty -
          (if q < (rm'.cell order.symbolId).qty then q else (rm'.cell order.symbolId).qty) = 0
            then 0 else (rm'.cell order.symbolId).avgCost }
      (by rw [hqty]) (by rw [hqty, havg])
    refine ⟨hcells.qty, hcells.avgCost, ?_⟩
    show rm'.realizedPnl + _ = rm.realizedPnl + _
    rw [h.realizedPnl, hqty, havg]
  | none => exact h

/-- **Fills** go by the books alone. -/
theorem fillAll (h : SameBooks rm rm') (fs : List Filled) :
    SameBooks (rm.fillAll fs) (rm'.fillAll fs) := by
  induction fs generalizing rm rm' with
  | nil => exact h
  | cons f fs ih => exact ih (h.onFill f.1 f.2)

end SameBooks

section

variable {rm rm' : RiskManager}

theorem sameBooks_updateEquity (rm : RiskManager) : SameBooks rm rm.updateEquity := by
  obtain ⟨hcells, hpnl, -⟩ := rm.updateEquity_keeps
  exact ⟨fun l => by rw [hcells], fun l => by rw [hcells], hpnl⟩

/-- A mark leaves the books. -/
theorem sameBooks_mark (rm : RiskManager) (m : Mark) : SameBooks rm (rm.mark m) := by
  have hcell : SameBooks rm (rm.setCell m.1 { rm.cell m.1 with markPrice := m.2.toInt }) := by
    refine ⟨fun l => ?_, fun l => ?_, rfl⟩
    · show ((rm.cells.set m.1 _).get l).qty = _
      rw [Cells.get_set]
      split
      · next hl => exact congrArg (fun l => (rm.cells.get l).qty) hl.symm
      · rfl
    · show ((rm.cells.set m.1 _).get l).avgCost = _
      rw [Cells.get_set]
      split
      · next hl => exact congrArg (fun l => (rm.cells.get l).avgCost) hl.symm
      · rfl
  exact hcell.trans (sameBooks_updateEquity _)

/-- **Marks** leave the books. -/
theorem sameBooks_marks (rm : RiskManager) (ms : List Mark) : SameBooks rm (rm.marks ms) := by
  rw [marks]
  induction ms generalizing rm with
  | nil => exact .refl rm
  | cons m ms ih => exact (rm.sameBooks_mark m).trans (ih (rm.mark m))

/-- A risk manager that was configured has the same books. -/
theorem IsNew.sameBooks (h : rm.IsNew) : SameBooks unused rm := by
  have hget : ∀ l, rm.cells.get l = {} := by
    intro l
    rw [Cells.get, h.1]
    rfl
  exact ⟨fun l => by rw [hget]; rfl, fun l => by rw [hget]; rfl, h.2⟩

/-- The position is in the books. -/
theorem SameBooks.position (h : SameBooks rm rm') (symbolId : ℕ) :
    rm'.position symbolId = rm.position symbolId := h.qty _

/-- So is what the positions cost. -/
theorem SameBooks.costs (h : SameBooks rm rm') : rm'.costs = rm.costs := by
  refine Finset.sum_congr rfl fun l _ => ?_
  rw [Cell.cost, Cell.cost, h.qty, h.avgCost]

/-- And whether a fill is proper. -/
theorem SameBooks.proper (h : SameBooks rm rm') {f : Filled} (hf : Proper rm f) : Proper rm' f where
  symbol := hf.symbol
  price := hf.price
  small := hf.small
  buy := by
    rw [h.position]
    exact hf.buy
  sell := by
    rw [h.position]
    exact hf.sell

/-- Fills, and more of them. -/
theorem fillAll_append (rm : RiskManager) (fs fs' : List Filled) :
    rm.fillAll (fs ++ fs') = (rm.fillAll fs).fillAll fs' := List.foldl_append

end

/-! ### What the positions are worth -/

/-- What all positions are worth. -/
def worth (rm : RiskManager) : ℤ := ∑ l ∈ Finset.range kMaxLocate, (rm.cells.get l).worth

/-- **The equity** of sane cells: what the positions are worth, and the realised profit less what
they cost. -/
theorem worth_eq {rm : RiskManager} (h : Sane rm) :
    rm.equity = rm.initialEquity + (rm.realizedPnl.toInt - rm.costs) + rm.worth := by
  have hcell : ∀ c : Cell, c.Sane → c.floating = c.worth - c.cost := by
    intro c hc
    have hqty : (0 : ℤ) ≤ toSigned c.qty := by
      rw [toSigned_eq hc.qty]
      exact Int.natCast_nonneg _
    rw [Cell.floating, Cell.worth]
    by_cases hmark : 0 < c.markPrice
    · rw [if_pos hmark]
      rcases hqty.eq_or_lt with hzero | hpos
      · rw [if_neg fun hboth => absurd hboth.1 (by omega), Cell.cost, ← hzero, mul_zero, zero_mul,
          sub_zero]
      · rw [if_pos ⟨hpos, hmark⟩, Cell.cost, mul_sub, mul_comm c.avgCost]
    · rw [if_neg hmark, if_neg fun hboth => hmark hboth.2, sub_self]
  have hsum : ∑ l ∈ Finset.range kMaxLocate, (rm.cells.get l).floating = rm.worth - rm.costs := by
    rw [worth, costs, ← Finset.sum_sub_distrib]
    exact Finset.sum_congr rfl fun l _ => hcell _ (h l)
  rw [equity_eq, hsum]
  omega

/-- The cells stay sane in proper fills. -/
theorem Sane.fillAll {rm : RiskManager} (h : Sane rm) {fs : List Filled} (hfs : ProperAll rm fs) :
    Sane (rm.fillAll fs) := by
  induction fs generalizing rm with
  | nil => exact h
  | cons f fs ih => exact ih (onFill_cost h hfs.1).1 hfs.2

/-- Sane cells are in the books. -/
theorem SameBooks.sane {rm rm' : RiskManager} (h : SameBooks rm rm') (hs : Sane rm) : Sane rm' :=
  fun l => ⟨by rw [h.qty]; exact (hs l).qty, by rw [h.avgCost]; exact (hs l).avgCost⟩

/-! ### Fills within a limit -/

/-- A proper fill, after which no more than `n` are held. -/
structure Within (n : ℕ) (rm : RiskManager) (f : Filled) : Prop extends Proper rm f where
  /-- What is held after a buy. -/
  limit : f.1.side = .buy → (rm.position f.1.symbolId).toNat + f.2.toNat ≤ n

/-- All fills are. -/
def WithinAll (n : ℕ) : RiskManager → List Filled → Prop
  | _, [] => True
  | rm, f :: fs => Within n rm f ∧ WithinAll n (rm.onFill f.1 f.2) fs

section

variable {n : ℕ} {rm rm' : RiskManager} {fs fs' : List Filled}

theorem WithinAll.properAll (h : WithinAll n rm fs) : ProperAll rm fs := by
  induction fs generalizing rm with
  | nil => trivial
  | cons f fs ih => exact ⟨h.1.toProper, ih h.2⟩

/-- It is a matter of the books. -/
theorem WithinAll.congr (h : WithinAll n rm fs) (hbooks : SameBooks rm rm') :
    WithinAll n rm' fs := by
  induction fs generalizing rm rm' with
  | nil => trivial
  | cons f fs ih =>
    refine ⟨⟨hbooks.proper h.1.toProper, ?_⟩, ih h.2 (hbooks.onFill f.1 f.2)⟩
    rw [hbooks.position]
    exact h.1.limit

theorem withinAll_append :
    WithinAll n rm (fs ++ fs') ↔ WithinAll n rm fs ∧ WithinAll n (rm.fillAll fs) fs' := by
  induction fs generalizing rm with
  | nil => exact ⟨fun h => ⟨trivial, h⟩, fun h => h.2⟩
  | cons f fs ih =>
    show Within n rm f ∧ WithinAll n (rm.onFill f.1 f.2) (fs ++ fs') ↔ _
    rw [ih]
    exact and_assoc.symm

/-- **What a buy drops** is less than what is held after it. -/
theorem Within.dropped_le {f : Filled} (h : Within n rm f) :
    rm.dropped f ≤ if f.1.side = .buy then ((n - 1 : ℕ) : ℤ) else 0 := by
  rw [dropped]
  cases hside : f.1.side with
  | buy =>
    have hle := h.limit hside
    have hsmall : (rm.cell f.1.symbolId).qty.toNat + f.2.toNat < 2 ^ 63 := h.buy hside
    have hsum := Cell.qty_bought hsmall
    have hafter : toSigned ((rm.cell f.1.symbolId).qty + f.2) =
        ((rm.position f.1.symbolId).toNat + f.2.toNat : ℕ) := by
      rw [toSigned_eq (by rw [hsum]; exact hsmall), hsum]
      rfl
    rw [if_pos rfl]
    show Int.tmod _ (toSigned ((rm.cell f.1.symbolId).qty + f.2)) ≤ _
    rw [hafter]
    rcases Nat.eq_zero_or_pos ((rm.position f.1.symbolId).toNat + f.2.toNat) with hzero | hpos
    · -- nothing is held and nothing is bought
      have hqty : (rm.cell f.1.symbolId).qty = 0 :=
        UInt64.toNat_inj.mp (Nat.eq_zero_of_add_eq_zero_right hzero)
      have hq : f.2 = 0 := UInt64.toNat_inj.mp (Nat.eq_zero_of_add_eq_zero_left hzero)
      rw [hzero, Cell.cost, hqty, hq, show toSigned 0 = 0 from rfl, mul_zero, mul_zero, add_zero,
        Int.zero_tmod]
      exact Int.natCast_nonneg _
    · have hlt := Int.tmod_lt_of_pos ((rm.cell f.1.symbolId).cost +
        f.1.price.toInt * toSigned f.2) (Int.natCast_pos.mpr hpos)
      omega
  | sell => exact le_of_eq (if_neg (by decide)).symm
  | none => exact le_of_eq (if_neg (by decide)).symm

/-- **What the averages drop** in all: less than what may be held, for every buy. -/
theorem WithinAll.droppedAll_le (h : WithinAll n rm fs) : droppedAll rm fs ≤
    (fs.countP fun f => decide (f.1.side = .buy)) * ((n - 1 : ℕ) : ℤ) := by
  induction fs generalizing rm with
  | nil => exact (zero_mul _).ge
  | cons f fs ih =>
    have hfirst := h.1.dropped_le
    have hrest := ih h.2
    rw [List.countP_cons, Nat.cast_add, add_mul]
    show rm.dropped f + droppedAll (rm.onFill f.1 f.2) fs ≤ _
    by_cases hbuy : f.1.side = .buy
    · rw [if_pos hbuy] at hfirst
      rw [if_pos (decide_eq_true hbuy), Nat.cast_one, one_mul]
      omega
    · rw [if_neg hbuy] at hfirst
      rw [if_neg fun hd => hbuy (of_decide_eq_true hd), Nat.cast_zero, zero_mul]
      omega

/-- **The money**: the books of fills within a limit show what came in, what the positions cost or
are worth, and what the averages dropped. The counter of the profit may have wrapped around; the
equity is right if it has not. -/
theorem SameBooks.money (h : SameBooks (unused.fillAll fs) rm) (hfs : WithinAll n unused fs) :
    ∃ dropped : ℤ, 0 ≤ dropped ∧
      dropped ≤ (fs.countP fun f => decide (f.1.side = .buy)) * ((n - 1 : ℕ) : ℤ) ∧
      rm.realizedPnl = .ofInt (cash fs + rm.costs + dropped) ∧
      (Fits (cash fs + rm.costs + dropped) →
        rm.equity = rm.initialEquity + cash fs + rm.worth + dropped) := by
  have hnew : Sane unused := fun l => ⟨Nat.two_pow_pos 63, le_refl 0⟩
  have hnone : unused.costs = 0 := Finset.sum_eq_zero fun l _ => rfl
  obtain ⟨hpnl, hsplit, -, hnonneg, -⟩ := realized_eq hnew hfs.properAll
  rw [← h.costs, hnone, sub_zero] at hsplit
  have hrealized : realizesAll unused fs = cash fs + rm.costs + droppedAll unused fs := by omega
  rw [← h.realizedPnl, hrealized] at hpnl
  refine ⟨droppedAll unused fs, hnonneg, hfs.droppedAll_le, hpnl.trans (Int64.zero_add _),
    fun hfits => ?_⟩
  rw [worth_eq (h.sane (hnew.fillAll hfs.properAll)), toInt_realizedPnl hpnl hfits]
  omega

end

/-! ### The peak -/

/-- **The peak has risen**, or is where it was, over the same initial equity. -/
structure Risen (rm rm' : RiskManager) : Prop where
  /-- The initial equity. -/
  initialEquity : rm'.initialEquity = rm.initialEquity
  /-- The peak. -/
  peak : rm.equityPeak ≤ rm'.equityPeak
  /-- It is not below the equity, if it was not. -/
  drawdown : 0 ≤ rm.drawdown → 0 ≤ rm'.drawdown

theorem Risen.refl (rm : RiskManager) : Risen rm rm := ⟨rfl, le_rfl, fun h => h⟩

theorem Risen.trans {rm rm' rm'' : RiskManager} (h : Risen rm rm') (h' : Risen rm' rm'') :
    Risen rm rm'' :=
  ⟨h'.initialEquity.trans h.initialEquity, h.peak.trans h'.peak,
    fun hd => h'.drawdown (h.drawdown hd)⟩

/-- The peak is updated. -/
theorem risen_updateEquity {rm rm' : RiskManager} (hinitial : rm'.initialEquity = rm.initialEquity)
    (hpeak : rm'.equityPeak = rm.equityPeak) : Risen rm rm'.updateEquity where
  initialEquity := rm'.updateEquity_keeps.2.2.trans hinitial
  peak := by
    rw [← hpeak, updateEquity]
    split
    · next hlt => exact le_of_lt hlt
    · exact le_rfl
  drawdown := fun _ => by
    rw [drawdown_updateEquity]
    exact le_max_right _ _

/-- **A fill** does not lower the peak. -/
theorem risen_onFill (rm : RiskManager) (order : Order) (q : UInt64) :
    Risen rm (rm.onFill order q) := by
  rw [onFill]
  cases order.side with
  | buy => exact risen_updateEquity rfl rfl
  | sell => exact risen_updateEquity rfl rfl
  | none => exact risen_updateEquity rfl rfl

/-- **Marks** do not. -/
theorem risen_marks (rm : RiskManager) (ms : List Mark) : Risen rm (rm.marks ms) := by
  rw [marks]
  induction ms generalizing rm with
  | nil => exact .refl rm
  | cons m ms ih =>
    have hmark : Risen rm (rm.mark m) := risen_updateEquity rfl rfl
    exact hmark.trans (ih (rm.mark m))

end RiskManager

end NebulaX
