import NebulaX.Exchange.SimulatorRuns
import NebulaX.Execution.EachFill
import NebulaX.Oms.Totals
import NebulaX.Risk.Positions

/-!
# Positions and filled quantities

Every fill goes to the order manager and to the risk manager. The order manager ignores a fill of
an order that is not live, and takes of any other no more than is open. The risk manager takes a
fill of a buyer as it is, and one of a seller up to the position. So the position of a symbol is
what its orders were filled as long as the two take the same of every fill, and `Even` says when
they do.

It is assumed of the callers of the engine that symbols are below the number of locates and
quantities below `2 ^ 32`.

## Main results

* `agrees_fill_iff` — a fill keeps the agreement if and only if it is even
* `position_eq_filled` — the position in runs whose fills are even
* `overfill_disagrees` — a fill of more than is open is not
-/

namespace NebulaX.ExecutionEngine

variable {X : Type} {symbol : ℕ}

/-- The risk manager and the order manager take the same of a fill. -/
def Even (symbol : ℕ) (ee : ExecutionEngine) (id : ℕ) (q : UInt64) : Prop :=
  ∀ e, ee.orderManager.orders id = some e → e.order.symbolId = symbol →
    match e.order.side with
    | .buy => q.toNat ≤ e.openQty ∧ (ee.riskManager.position symbol).toNat + q.toNat < 2 ^ 64
    | .sell => min q.toNat e.openQty = min q.toNat (ee.riskManager.position symbol).toNat
    | .none => True

/-- The position of a symbol is what its buyers were filled less what its sellers were. -/
def Agrees (symbol : ℕ) (ee : ExecutionEngine) : Prop :=
  (ee.riskManager.position symbol).toNat + ee.orderManager.filledOf .sell symbol =
    ee.orderManager.filledOf .buy symbol

/-- Symbols have locates of their own, and quantities are below `2 ^ 32`. -/
structure InRange (ee : ExecutionEngine) : Prop where
  /-- The keys of the order manager. -/
  keyed : ee.orderManager.Keyed
  /-- The quantities of its orders. -/
  sized : ee.orderManager.All Entry.Sized
  /-- Their symbols. -/
  located : ee.orderManager.All fun e => e.order.symbolId < kMaxLocate

/-- The same of a call. -/
def Bounded (s : ExecutionEngine × X) : Call → Prop
  | .submitSignal sig _ _ => sig.locate < kMaxLocate ∧ (s.1.signalQty sig).toNat < 2 ^ 32
  | .cancelOrder _ | .onOrderReport _ | .onOrderFill .. => True

/-! ### One fill -/

/-- The position after a fill. -/
theorem position_applyFill (ee : ExecutionEngine) (id : ℕ) (order : Order) (q : UInt64)
    (p : Int64) :
    (ee.applyFill id order q p).riskManager.position symbol =
      if locateIdx symbol = locateIdx order.symbolId then
        match order.side with
        | .buy => ee.riskManager.position symbol + q
        | .sell => ee.riskManager.position symbol -
          if q < ee.riskManager.position symbol then q else ee.riskManager.position symbol
        | .none => ee.riskManager.position symbol
      else ee.riskManager.position symbol :=
  ee.riskManager.position_onFill { order with price := p } q symbol

/-- **A fill keeps the agreement** if and only if the two take the same of it. -/
theorem agrees_fill_iff (hsymbol : symbol < kMaxLocate) {ee : ExecutionEngine}
    (hin : InRange ee) (h : Agrees symbol ee) {id : ℕ} {order : Order}
    (horder : ee.orderManager.order id = some order) {q : UInt64} (hq : q.toNat < 2 ^ 32)
    (p : Int64) : Agrees symbol (ee.applyFill id order q p) ↔ Even symbol ee id q := by
  obtain ⟨e, he, rfl⟩ := Option.map_eq_some_iff.mp horder
  have heven : Even symbol ee id q ↔ (e.order.symbolId = symbol →
      match e.order.side with
      | .buy => q.toNat ≤ e.openQty ∧ (ee.riskManager.position symbol).toNat + q.toNat < 2 ^ 64
      | .sell => min q.toNat e.openQty = min q.toNat (ee.riskManager.position symbol).toNat
      | .none => True) := by
    constructor
    · exact fun h => h e he
    · intro h e' he'
      obtain rfl := Option.some.inj (he.symm.trans he')
      exact h
  have hfilled : ∀ side, (ee.applyFill id e.order q p).orderManager.filledOf side symbol =
      ee.orderManager.filledOf side symbol +
        if e.order.side = side ∧ e.order.symbolId = symbol then min q.toNat e.openQty else 0 :=
    fun side => hin.keyed.filledOf_onFill hin.sized he hq p side symbol
  rw [heven, Agrees, hfilled, hfilled, position_applyFill, locateIdx_eq hsymbol,
    locateIdx_eq (hin.located id e he)]
  rw [Agrees] at h
  by_cases hsame : e.order.symbolId = symbol
  · rw [if_pos hsame.symm, hsame]
    cases e.order.side with
    | buy =>
      have hadd : (ee.riskManager.position symbol + q).toNat =
          ((ee.riskManager.position symbol).toNat + q.toNat) % 2 ^ 64 := UInt64.toNat_add ..
      simp only [hadd, reduceCtorEq, false_and, if_false, and_self, if_true, true_imp_iff]
      have hposition := (ee.riskManager.position symbol).toNat_lt
      omega
    | sell =>
      have hsub : (ee.riskManager.position symbol - if q < ee.riskManager.position symbol then q
          else ee.riskManager.position symbol).toNat =
          (ee.riskManager.position symbol).toNat -
            min q.toNat (ee.riskManager.position symbol).toNat := by
        split
        · next hlt =>
          have hlt := UInt64.lt_iff_toNat_lt.mp hlt
          rw [UInt64.toNat_sub_of_le _ _ (UInt64.le_iff_toNat_le.mpr hlt.le),
            Nat.min_eq_left hlt.le]
        · next hge =>
          have hge : (ee.riskManager.position symbol).toNat ≤ q.toNat :=
            Nat.le_of_not_lt fun hlt => hge (UInt64.lt_iff_toNat_lt.mpr hlt)
          rw [UInt64.sub_self, Nat.min_eq_right hge, Nat.sub_self]
          rfl
      simp only [hsub, reduceCtorEq, false_and, if_false, and_self, if_true, true_imp_iff]
      omega
    | none =>
      simp only [reduceCtorEq, false_and, if_false, imp_true_iff, iff_true]
      exact h
  · rw [if_neg fun heq => hsame heq.symm]
    simp only [hsame, and_false, if_false, false_imp_iff, iff_true]
    exact h

/-! ### All steps -/

section Steps

variable {ee : ExecutionEngine} {om : OrderManager} {id : ℕ} {g : Entry → Entry}

/-- The ranges after a report. -/
theorem InRange.revises (h : InRange ee) {ee' : ExecutionEngine}
    (hrevises : OrderManager.Revises ee.orderManager ee'.orderManager id g)
    (horder : ∀ e, (g e).order = e.order) (hsized : ∀ e, e.Sized → (g e).Sized) :
    InRange ee' where
  keyed := hrevises.keyed h.keyed
  sized := hrevises.all h.sized hsized
  located := by
    refine hrevises.all h.located fun e he => ?_
    rw [horder]
    exact he

/-- What a step has to leave alone. -/
def Fits (symbol : ℕ) (ee : ExecutionEngine) : Prop := InRange ee ∧ Agrees symbol ee

/-- A report that fills nothing. -/
theorem Fits.revises (h : Fits symbol ee)
    (hrevises : OrderManager.Revises ee.orderManager om id g)
    (horder : ∀ e, (g e).order = e.order) (hfilled : ∀ e, (g e).filled = e.filled) :
    Fits symbol { ee with orderManager := om } := by
  refine ⟨h.1.revises hrevises horder fun e he => ?_, ?_⟩
  · rw [Entry.Sized, horder, hfilled]
    exact he
  · rw [Agrees, hrevises.filledOf horder hfilled, hrevises.filledOf horder hfilled]
    exact h.2

/-- A fill is in range, and the two take the same of it. -/
def FillsEvenly (symbol : ℕ) (ee : ExecutionEngine) (id : ℕ) (q : UInt64) : Prop :=
  q.toNat < 2 ^ 32 ∧ Even symbol ee id q

/-- **Every step** keeps the agreement, and so does a fill that is even. -/
theorem keptWhen_fits (hsymbol : symbol < kMaxLocate) :
    KeptWhen (FillsEvenly symbol) (Fits symbol) where
  lock := fun h => ⟨⟨h.1.keyed, h.1.sized, h.1.located⟩, h.2⟩
  unlock := fun h => ⟨⟨h.1.keyed, h.1.sized, h.1.located⟩, h.2⟩
  fill := by
    intro ee id order q p horder hG h
    refine ⟨h.1.revises (ee.orderManager.onFill_revises id q p) (Entry.filledWith_order · q p)
      fun e he => he.filledWith hG.1 p, ?_⟩
    exact (agrees_fill_iff hsymbol h.1 h.2 horder hG.1 p).mpr hG.2
  report := by
    intro ee f order hf h
    rw [applyReport]
    split
    · exact h.revises (ee.orderManager.onAccept_revises f.orderId f.exchangeRef)
        (Entry.accepted_order · _) (Entry.accepted_filled · _)
    · next htype => exact absurd htype hf
    · exact h.revises (ee.orderManager.onCancel_revises f.orderId) Entry.cancelConfirmed_order
        Entry.cancelConfirmed_filled
    · exact h.revises (ee.orderManager.onReject_revises f.orderId) Entry.rejected_order
        Entry.rejected_filled
    · exact h
  issue := fun h => ⟨⟨h.1.keyed, h.1.sized, h.1.located⟩, h.2⟩
  request := fun id h => h.revises (OrderManager.requestCancel_revises _ id)
    Entry.cancelRequested_order Entry.cancelRequested_filled
  marks := by
    intro ee ms h
    refine ⟨⟨h.1.keyed, h.1.sized, h.1.located⟩, ?_⟩
    show ((ee.riskManager.marks ms).position symbol).toNat + _ = _
    rw [RiskManager.position_marks]
    exact h.2

/-- An order that is registered has not been filled. -/
theorem Fits.register (h : Fits symbol ee) {sig : Signal} (strategyId : ℕ) (type : OrderType)
    (hlocate : sig.locate < kMaxLocate) (hqty : (ee.signalQty sig).toNat < 2 ^ 32) :
    Fits symbol (ee.registered (ee.orderFor sig strategyId type)) := by
  refine ⟨⟨h.1.keyed.newOrder _, OrderManager.newOrder_all h.1.sized ⟨Nat.zero_le _, hqty⟩,
    OrderManager.newOrder_all h.1.located hlocate⟩, ?_⟩
  show (ee.riskManager.position symbol).toNat +
    (ee.orderManager.newOrder _).2.filledOf .sell symbol =
      (ee.orderManager.newOrder _).2.filledOf .buy symbol
  rw [h.1.keyed.filledOf_newOrder, h.1.keyed.filledOf_newOrder]
  exact h.2

end Steps

/-! ### Runs -/

/-- A run starts with nothing bought. -/
theorem fits_new (visits : VisitOrder) (base : ℕ) {rm : RiskManager} (hrm : rm.IsNew)
    (baseQty : UInt64) : Fits symbol { orderManager := { visits := visits, nextId := base }
                                       riskManager := rm, baseQty := baseQty } := by
  refine ⟨⟨OrderManager.keyed_new visits base, fun _ _ h => ?_, fun _ _ h => ?_⟩, ?_⟩
  · exact absurd h.symm (Option.some_ne_none _)
  · exact absurd h.symm (Option.some_ne_none _)
  · have hposition : rm.position symbol = 0 := by
      rw [RiskManager.position, RiskManager.cell, Cells.get, hrm.1]
      rfl
    show (rm.position symbol).toNat + OrderManager.filledOf _ _ _ = OrderManager.filledOf _ _ _
    rw [hposition, OrderManager.filledOf_new, OrderManager.filledOf_new]
    rfl

/-- **The position of a symbol** is what its orders were filled, in every run on any exchange whose
fills are even. -/
theorem position_eq_filled {exchange : Option (IExchangeSimulator X)} {s : ExecutionEngine × X}
    (hsymbol : symbol < kMaxLocate)
    (h : Runs exchange (fun s c => Bounded s c ∧ EachFill (FillsEvenly symbol) exchange s c) s) :
    ((s.1.riskManager.position symbol).toNat : ℤ) =
      s.1.orderManager.filledOf .buy symbol - s.1.orderManager.filledOf .sell symbol := by
  have hfits : Fits symbol s.1 := by
    induction h with
    | start visits base rm baseQty x hrm => exact fits_new visits base.toNat hrm baseQty
    | call c _ hc hcall ih =>
      refine (keptWhen_fits hsymbol).step hc.2 ih ?_ hcall
      rintro sig strategyId type rfl -
      exact ih.register strategyId type hc.1.1 hc.1.2
  have hagrees : _ = _ := hfits.2
  omega

section Bid

open ExchangeSimulator (interface)

/-- An engine on an exchange without orders. -/
def fresh : ExecutionEngine × ExchangeSimulator :=
  ({ orderManager := { nextId := 1000 } }, .new 4 none fun _ _ => [])

/-- A bid for a hundred shares. -/
def bid : Call := .submitSignal { side := .buy, price := 100, strength := 10000 } 1 .limit

/-- The report that some of them were bought. -/
def bought (q : UInt64) : Call :=
  .onOrderReport { type := .executed, orderId := 1000, filledQty := q, fillPrice := 100 }

/-- The bid rests, and sixty of its shares are bought. -/
theorem position_eq_filled_bid : ∃ s s', step (some interface) fresh bid = some s ∧
    step (some interface) s (bought 60) = some s' ∧ s'.1.riskManager.position 0 = 60 ∧
    (60 : ℤ) = s'.1.orderManager.filledOf .buy 0 - s'.1.orderManager.filledOf .sell 0 := by
  have hread : (step (some interface) fresh bid).map (fun s =>
      ((s.1.orderManager.orders 1000).map fun e =>
        (e.order, e.openQty, (s.1.lock.applyReport
          { type := .executed, orderId := 1000, filledQty := 60, fillPrice := 100 }
            e.order).riskManager.drawdownFlatten),
        s.1.riskManager.position 0,
        (step (some interface) s (bought 60)).map fun s => s.1.riskManager.position 0)) =
      some (some (fresh.1.orderFor { side := .buy, price := 100, strength := 10000 } 1 .limit,
        100, false), 0, some 60) := by
    decide +kernel
  have hsubmit : (interface.submit fresh.2
      (fresh.1.orderFor { side := .buy, price := 100, strength := 10000 } 1 .limit) fresh.1.idOf
      (tifOf .limit)).map (fun p => (p.1.fills, (((fresh.1.registered
        (fresh.1.orderFor { side := .buy, price := 100, strength := 10000 } 1 .limit)).takeMarks
          p.2.1).takeResult (fresh.1.orderFor { side := .buy, price := 100, strength := 10000 } 1
            .limit) p.1).riskManager.drawdownFlatten)) = some ([], false) := by decide +kernel
  obtain ⟨s, hbid, heq⟩ := Option.map_eq_some_iff.mp hread
  obtain ⟨hentry, heq⟩ := Prod.mk.inj heq
  obtain ⟨hposition, hreport⟩ := Prod.mk.inj heq
  obtain ⟨e, he, heq⟩ := Option.map_eq_some_iff.mp hentry
  obtain ⟨horder, heq⟩ := Prod.mk.inj heq
  obtain ⟨hopen, hdraw⟩ := Prod.mk.inj heq
  obtain ⟨s', hreport, hsixty⟩ := Option.map_eq_some_iff.mp hreport
  have hstart : Runs (some interface) (fun s c => Bounded s c ∧
      EachFill (FillsEvenly 0) (some interface) s c) fresh :=
    .start .inserted 1000 {} 100 _ ⟨rfl, rfl⟩
  have hs := hstart.call bid ⟨⟨by decide, by decide⟩, ?_⟩ hbid
  · have hs' := hs.call (bought 60) ⟨trivial, ?_⟩ hreport
    · have hagree := position_eq_filled (by decide) hs'
      rw [hsixty] at hagree
      exact ⟨s, s', hbid, hreport, hsixty, hagree⟩
    · rintro - order horder'
      obtain rfl : e.order = order :=
        Option.some.inj ((congrArg (Option.map Entry.order) he).symm.trans horder')
      refine ⟨⟨by decide, fun e' he' _ => ?_⟩, fun _ hfires => ?_⟩
      · obtain rfl := Option.some.inj (he.symm.trans he')
        rw [horder, hopen, show s.1.lock.riskManager = s.1.riskManager from rfl, hposition]
        exact ⟨by decide, by decide⟩
      · exact absurd (hdraw.symm.trans hfires) (by decide)
  · rintro ex hex - - r marks x hex'
    obtain rfl := Option.some.inj hex
    rw [hex'] at hsubmit
    obtain ⟨hfills, hcalm⟩ := Prod.mk.inj (Option.some.inj hsubmit)
    refine ⟨fun _ => ?_, fun _ hfires => absurd (hcalm.symm.trans hfires) (by decide)⟩
    rw [show r.fills = [] from hfills]
    trivial

/-- **A fill of more than is open** adds to the position what the order manager does not take. -/
theorem overfill_disagrees : ∃ s s', step (some interface) fresh bid = some s ∧
    step (some interface) s (bought 150) = some s' ∧
    Runs (some interface) Bounded s' ∧ s'.1.riskManager.position 0 = 150 ∧
    s'.1.orderManager.filledOf .buy 0 = 100 ∧ s'.1.orderManager.filledOf .sell 0 = 0 := by
  have hread : (step (some interface) fresh bid).map (fun s =>
      (step (some interface) s (bought 150)).map fun s => (s.1.riskManager.position 0,
        s.1.orderManager.filledOf .buy 0, s.1.orderManager.filledOf .sell 0)) =
      some (some (150, 100, 0)) := by decide +kernel
  obtain ⟨s, hbid, hreport⟩ := Option.map_eq_some_iff.mp hread
  obtain ⟨s', hreport, heq⟩ := Option.map_eq_some_iff.mp hreport
  obtain ⟨hposition, heq⟩ := Prod.mk.inj heq
  obtain ⟨hbuy, hsell⟩ := Prod.mk.inj heq
  have hstart : Runs (some interface) Bounded fresh := .start .inserted 1000 {} 100 _ ⟨rfl, rfl⟩
  have hs := hstart.call bid ⟨by decide, by decide⟩ hbid
  exact ⟨s, s', hbid, hreport, hs.call (bought 150) trivial hreport, hposition, hbuy, hsell⟩

end Bid

end NebulaX.ExecutionEngine
