import NebulaX.Risk.RiskManager

/-!
# Positions

What the risk manager does to the positions. A fill of a buyer adds to the position of the symbol,
a fill of a seller takes off what there is, and a mark changes no position.

## Main results

* `Cells.sum_set` — how a sum over all locates changes when a cell is written
* `position_onFill` — a fill changes the position of its symbol
* `toNat_position_onFill` — a fill that is taken as it is
* `position_marks` — marks change no position
-/

namespace NebulaX

/-- Symbols below the bound have locates of their own. -/
theorem locateIdx_eq {symbolId : ℕ} (h : symbolId < kMaxLocate) : locateIdx symbolId = symbolId :=
  if_pos h

/-- Read a cell after one was written. -/
theorem Cells.get_set (cs : Cells) (symbolId : ℕ) (c : Cell) (l : ℕ) :
    (cs.set symbolId c).get l = if l = locateIdx symbolId then c else cs.get l := by
  rw [get, get]
  show (((locateIdx symbolId, c) :: cs.entries.filter fun e => e.1 ≠ locateIdx symbolId).lookup
    l).getD {} = _
  rw [List.lookup_cons]
  by_cases hl : l = locateIdx symbolId
  · rw [if_pos hl, hl, beq_self_eq_true]
    rfl
  · rw [if_neg hl, beq_eq_false_iff_ne.mpr hl]
    refine congrArg (fun c : Option Cell => c.getD {}) ?_
    show (cs.entries.filter fun e => e.1 ≠ locateIdx symbolId).lookup l = cs.entries.lookup l
    induction cs.entries with
    | nil => rfl
    | cons e es ih =>
      by_cases he : e.1 = locateIdx symbolId
      · -- the cell that was dropped is that of another locate
        have hne : l ≠ e.1 := fun h => hl (h.trans he)
        rw [List.filter_cons_of_neg (by simpa using he), List.lookup_cons,
          beq_eq_false_iff_ne.mpr hne]
        exact ih
      · rw [List.filter_cons_of_pos (by simpa using he), List.lookup_cons, List.lookup_cons, ih]

/-- **A sum over all locates** changes by what changes in the cell that is written. -/
theorem Cells.sum_set (cs : Cells) (symbolId : ℕ) (c : Cell) (f : Cell → ℤ) :
    ∑ l ∈ Finset.range kMaxLocate, f ((cs.set symbolId c).get l) =
      ∑ l ∈ Finset.range kMaxLocate, f (cs.get l) +
        (f c - f (cs.get (locateIdx symbolId))) := by
  have hmem : locateIdx symbolId ∈ Finset.range kMaxLocate :=
    Finset.mem_range.mpr (locateIdx_lt symbolId)
  have hrest : ∑ l ∈ (Finset.range kMaxLocate).erase (locateIdx symbolId),
      f ((cs.set symbolId c).get l) =
      ∑ l ∈ (Finset.range kMaxLocate).erase (locateIdx symbolId), f (cs.get l) := by
    refine Finset.sum_congr rfl fun l hl => ?_
    rw [Cells.get_set, if_neg (Finset.ne_of_mem_erase hl)]
  rw [← Finset.add_sum_erase _ _ hmem, ← Finset.add_sum_erase _ _ hmem, hrest, Cells.get_set,
    if_pos rfl]
  omega

namespace RiskManager

/-- Read the cell of a symbol after one was written. -/
theorem cell_setCell (rm : RiskManager) (symbolId : ℕ) (c : Cell) (symbolId' : ℕ) :
    (rm.setCell symbolId c).cell symbolId' =
      if locateIdx symbolId' = locateIdx symbolId then c else rm.cell symbolId' :=
  rm.cells.get_set symbolId c (locateIdx symbolId')

@[simp] theorem position_updateEquity (rm : RiskManager) (symbolId : ℕ) :
    rm.updateEquity.position symbolId = rm.position symbolId := by
  rw [updateEquity]
  split <;> rfl

@[simp] theorem maxPosition_updateEquity (rm : RiskManager) :
    rm.updateEquity.maxPosition = rm.maxPosition := by
  rw [updateEquity]
  split <;> rfl

/-- **A fill** changes the position of its symbol. -/
theorem position_onFill (rm : RiskManager) (order : Order) (q : UInt64) (symbolId : ℕ) :
    (rm.onFill order q).position symbolId =
      if locateIdx symbolId = locateIdx order.symbolId then
        match order.side with
        | .buy => rm.position symbolId + q
        | .sell => rm.position symbolId -
          if q < rm.position symbolId then q else rm.position symbolId
        | .none => rm.position symbolId
      else rm.position symbolId := by
  rw [onFill, position_updateEquity]
  have hcell : locateIdx symbolId = locateIdx order.symbolId →
      rm.cell order.symbolId = rm.cell symbolId := fun h => congrArg rm.cells.get h.symm
  cases order.side with
  | buy =>
    show ((rm.setCell order.symbolId _).cell symbolId).qty = _
    rw [cell_setCell]
    split
    · next hl =>
      rw [hcell hl]
      rfl
    · rfl
  | sell =>
    show ((rm.setCell order.symbolId _).cell symbolId).qty = _
    rw [cell_setCell]
    split
    · next hl =>
      rw [hcell hl]
      rfl
    · rfl
  | none => exact (ite_self _).symm

@[simp] theorem maxPosition_onFill (rm : RiskManager) (order : Order) (q : UInt64) :
    (rm.onFill order q).maxPosition = rm.maxPosition := by
  rw [onFill, maxPosition_updateEquity]
  cases order.side <;> rfl

/-- A fill that is taken as it is. -/
def Takes : OrderSide → ℕ → ℕ → Prop
  | .buy, position, q => position + q < 2 ^ 64
  | .sell, position, q => q ≤ position
  | .none, _, _ => True

/-- The position after it. -/
def taken : OrderSide → ℕ → ℕ → ℕ
  | .buy, position, q => position + q
  | .sell, position, q => position - q
  | .none, position, _ => position

/-- A fill of nothing is, -/
theorem takes_zero (side : OrderSide) {position : ℕ} (h : position < 2 ^ 64) :
    Takes side position 0 := by
  cases side with
  | buy => exact h
  | sell => exact Nat.zero_le _
  | none => trivial

/-- and changes nothing. -/
theorem taken_zero (side : OrderSide) (position : ℕ) : taken side position 0 = position := by
  cases side <;> rfl

/-- Two fills are taken as one. -/
theorem takes_add {side : OrderSide} {position q q' : ℕ} (h : Takes side position (q + q')) :
    Takes side position q ∧ Takes side (taken side position q) q' ∧
      taken side (taken side position q) q' = taken side position (q + q') := by
  cases side with
  | buy =>
    rw [Takes] at h
    refine ⟨?_, ?_, Nat.add_assoc ..⟩
    · rw [Takes]
      omega
    · rw [Takes, taken]
      omega
  | sell =>
    rw [Takes] at h
    refine ⟨?_, ?_, Nat.sub_sub ..⟩
    · rw [Takes]
      omega
    · rw [Takes, taken]
      omega
  | none => exact ⟨trivial, trivial, rfl⟩

/-- **A fill that is taken as it is**, as a number. -/
theorem toNat_position_onFill (rm : RiskManager) (order : Order) {q : UInt64} {symbolId : ℕ}
    (h : locateIdx symbolId = locateIdx order.symbolId →
      Takes order.side (rm.position symbolId).toNat q.toNat) :
    ((rm.onFill order q).position symbolId).toNat =
      if locateIdx symbolId = locateIdx order.symbolId then
        taken order.side (rm.position symbolId).toNat q.toNat
      else (rm.position symbolId).toNat := by
  rw [position_onFill]
  split
  · next hl =>
    have h := h hl
    cases hside : order.side with
    | buy =>
      rw [hside, Takes] at h
      show (rm.position symbolId + q).toNat = _ + _
      rw [UInt64.toNat_add]
      exact Nat.mod_eq_of_lt h
    | sell =>
      rw [hside, Takes] at h
      show (rm.position symbolId - if q < rm.position symbolId then q
        else rm.position symbolId).toNat = _ - _
      split
      · exact UInt64.toNat_sub_of_le _ _ (UInt64.le_iff_toNat_le.mpr h)
      · next hge =>
        have heq : q = rm.position symbolId := by
          refine UInt64.toNat_inj.mp (Nat.le_antisymm h (Nat.le_of_not_lt fun hlt => ?_))
          exact hge (UInt64.lt_iff_toNat_lt.mpr hlt)
        rw [heq, UInt64.sub_self, Nat.sub_self]
        rfl
    | none => rfl
  · rfl

/-- A mark changes no position. -/
theorem position_mark (rm : RiskManager) (m : Mark) (symbolId : ℕ) :
    (rm.mark m).position symbolId = rm.position symbolId := by
  rw [mark, position_updateEquity]
  show ((rm.setCell m.1 _).cell symbolId).qty = _
  rw [cell_setCell]
  split
  · next hl => exact congrArg (fun l => (rm.cells.get l).qty) hl.symm
  · rfl

/-- **Marks** change no position. -/
@[simp] theorem position_marks (rm : RiskManager) (ms : List Mark) (symbolId : ℕ) :
    (rm.marks ms).position symbolId = rm.position symbolId := by
  rw [marks]
  induction ms generalizing rm with
  | nil => rfl
  | cons m ms ih =>
    rw [List.foldl_cons, ih, position_mark]

/-- Nor do they change the limit. -/
@[simp] theorem maxPosition_marks (rm : RiskManager) (ms : List Mark) :
    (rm.marks ms).maxPosition = rm.maxPosition := by
  rw [marks]
  induction ms generalizing rm with
  | nil => rfl
  | cons m ms ih =>
    rw [List.foldl_cons, ih, mark, maxPosition_updateEquity]
    rfl

end RiskManager

end NebulaX
