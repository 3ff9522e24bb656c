import Mathlib.Data.UInt
import NebulaX.Exchange.ViewRuns
import NebulaX.Sim.SimWorker

/-!
# The order flow that a strategy is told of

A worker looks the side of an order up after the view has applied the event. An order that the
event took off the book is not found any more, and the strategy skips events without a side: it is
not told of deletes, nor of cancels and executions of all that remains. A replace does not carry a
side. Its field says `BUY`, so the strategy takes every replace for one of a buy order.

## Main results

* `flow_documented_iff` — the broadcasts of a run that a strategy is told of as documented
* `delete_not_recorded` — a delete is not one of them
-/

namespace NebulaX

open Exchange (MatchingEngine)
open Market (OrderBookConsumer OrderSlotView OrderBook)
open OrderFlowImbalanceStrategy (Records delta onMarket_records onMarket_skips)
open SimWorker (eventSide)

/-! ### What is documented -/

/-- A quantity as order flow: a buy order adds to it. -/
def flow (side : OrderSide) (q : UInt64) : Int64 := if side = .buy then q.toInt64 else -q.toInt64

/-- What is left of an order. -/
def left (c : OrderBookConsumer) (ref : ℕ) : UInt64 :=
  ((c.books.held ref).map OrderSlotView.remaining).getD 0

/-- What the strategy should record for an event that turns the view `c` into `c'`: the flow of a
new order; the opposite flow of what is taken off an order; for a replace, something that has the
sign of the order's side. -/
def Documented (c c' : OrderBookConsumer) (ev : MarketEvent)
    (s s' : OrderFlowImbalanceStrategy) : Prop :=
  match ev.body with
  | .add o => Records s s' (flow o.side o.shares)
  | .delete o | .cancel o => ∀ x ∈ c.books.held o.orderRef,
    Records s s' (-flow x.side (left c o.orderRef - left c' o.orderRef))
  | .trade t | .execute t => ∀ x ∈ c.books.held t.orderRef,
    Records s s' (-flow x.side (left c t.orderRef - left c' t.orderRef))
  | .replace o => ∀ x ∈ c.books.held o.orderRef, ∃ d, Records s s' d ∧
    (x.side = .buy → 0 ≤ d) ∧ (x.side = .sell → d ≤ 0)

/-- An order that is found and of which the event leaves something. -/
def Survives (c : OrderBookConsumer) (ref : ℕ) (q : UInt64) : Prop :=
  ∀ x ∈ c.books.held ref, c.finds ref = true ∧ q < x.remaining

/-- The new orders, the events that leave something of their order, and the replaces of buy
orders. -/
def Followed (c : OrderBookConsumer) (ev : MarketEvent) : Prop :=
  match ev.body with
  | .add _ => True
  | .delete o => c.books.held o.orderRef = none
  | .cancel o => Survives c o.orderRef o.shares
  | .trade t | .execute t => Survives c t.orderRef t.volume
  | .replace o => ∀ x ∈ c.books.held o.orderRef, x.side = .buy ∨ o.shares = 0

/-! ### One event -/

/-- Every order of the view has a side. -/
def Sided (c : OrderBookConsumer) : Prop := ∀ ref, ∀ x ∈ c.books.held ref, x.side ≠ .none

/-- What the simulator broadcasts: an order that is entered has a side, and a replace says `BUY`
and has a quantity of 32 bits. -/
def MarketEvent.FromExchange (ev : MarketEvent) : Prop :=
  match ev.body with
  | .add o => o.side ≠ .none
  | .replace o => o.side = .buy ∧ o.shares.toNat < 2 ^ 32
  | .delete _ | .cancel _ | .trade _ | .execute _ => True

section Event

variable {c c' : OrderBookConsumer} {ev : MarketEvent} {S : Type} {sts : Strategies S}

theorem Sided.update {held : ℕ → Option OrderSlotView} {ref : ℕ} {x : Option OrderSlotView}
    (h : ∀ r, ∀ y ∈ held r, y.side ≠ .none) (hx : ∀ y ∈ x, y.side ≠ .none) :
    ∀ r, ∀ y ∈ Function.update held ref x r, y.side ≠ .none := by
  intro r y hy
  by_cases hr : r = ref
  · rw [hr, Function.update_self] at hy
    exact hx y hy
  · rw [Function.update_of_ne hr] at hy
    exact h r y hy

theorem Sided.reduced (h : Sided c) (ref : ℕ) (q : UInt64) :
    ∀ r, ∀ y ∈ c.heldReduced ref q r, y.side ≠ .none := by
  rw [OrderBookConsumer.heldReduced]
  split
  · refine Sided.update h fun y hy => ?_
    obtain ⟨x, hx, hcut⟩ := Option.bind_eq_some_iff.mp hy
    rw [OrderBookConsumer.cut] at hcut
    split at hcut
    · obtain rfl := Option.some.inj hcut
      exact h ref x hx
    · exact absurd hcut (by simp)
  · exact h

/-- An event of the exchange keeps the sides. -/
theorem Sided.onEvent (h : Sided c) (hok : c.Ok) (ht : c.Takes ev.body) (hev : ev.FromExchange)
    (hc' : c.onEvent ev = some c') : Sided c' := by
  rw [Sided, (OrderBookConsumer.becomes_of_onEvent hok ht hc').held]
  rw [MarketEvent.FromExchange] at hev
  cases hbody : ev.body with
  | add o =>
    rw [hbody] at hev
    rw [OrderBookConsumer.heldAfter]
    split
    · refine Sided.update h fun y hy => ?_
      obtain rfl := Option.some.inj hy
      exact hev
    · exact h
  | delete o =>
    rw [OrderBookConsumer.heldAfter]
    split
    · exact Sided.update h fun y hy => absurd hy (by simp)
    · exact h
  | cancel o => exact h.reduced o.orderRef o.shares
  | trade t => exact h.reduced t.orderRef t.volume
  | execute t => exact h.reduced t.orderRef t.volume
  | replace o =>
    rw [OrderBookConsumer.heldAfter]
    split
    · refine Sided.update (Sided.update h fun y hy => absurd hy (by simp)) fun y hy => ?_
      obtain ⟨x, hx, rfl⟩ := Option.map_eq_some_iff.mp hy
      exact h o.orderRef x hx
    · exact h

/-- What was recorded is known. -/
theorem records_unique {s s' : OrderFlowImbalanceStrategy} {d d' : Int64} (h : Records s s' d)
    (h' : Records s s' d') : d = d' := by
  have heq := congrFun (h.win.symm.trans h'.win) (s.widx % OrderFlowImbalanceStrategy.kWindow)
  rwa [Function.update_self, Function.update_self] at heq

theorem not_records {s s' : OrderFlowImbalanceStrategy} (h : s'.widx = s.widx) (d : Int64) :
    ¬ Records s s' d := by
  intro hrec
  have hwidx := hrec.widx
  omega

/-- **A worker that owns the symbol** passes the event on with the side it looked up. -/
theorem onMarketEvent_told (inc : sts.Includes OrderFlowImbalanceStrategy.strategy)
    (w : SimWorker S) (howns : w.owns ev.locate) {side : OrderSide}
    (hside : eventSide c' ev = some side) :
    ∃ marks w', w.onMarketEvent sts ev c' = some (marks, w') ∧
      (side ≠ .none → Records (inc.get w.strategies) (inc.get w'.strategies) (delta ev side)) ∧
      (side = .none → (inc.get w'.strategies).widx = (inc.get w.strategies).widx) := by
  rw [SimWorker.onMarketEvent, if_pos howns]
  simp only [hside, Option.map_some]
  refine ⟨_, _, rfl, fun hne => ?_, fun hno => ?_⟩
  · rw [inc.feed]
    have hctx := SimWorker.context_side (c'.books.book ev.locate) ev.timestamp side
    have hrec := @onMarket_records (inc.get w.strategies) ev
      (SimWorker.context (c'.books.book ev.locate) ev.timestamp side) (by rwa [hctx])
    rwa [hctx] at hrec
  · rw [inc.feed]
    exact onMarket_skips ((SimWorker.context_side _ _ _).trans hno)

/-- **A reduction** is recorded as documented exactly if it leaves something of the order: then the
order is still there to be looked up. -/
theorem reduction_documented_iff {ref : ℕ} {q : UInt64} {side : OrderSide}
    {s s' : OrderFlowImbalanceStrategy} (h : c.Ok) (h' : c'.Ok) (hs : Sided c)
    (hheld : c'.books.held = c.heldReduced ref q)
    (hindex : c.finds ref = false ∨ (∀ x ∈ c.books.held ref, q < x.remaining) →
      c'.books.shared.index = c.books.shared.index)
    (hside : OrderBook.sideOf c'.books.shared ref = some side)
    (hrec : side ≠ .none → Records s s' (-flow side q)) (hskip : side = .none → s'.widx = s.widx) :
    (∀ x ∈ c.books.held ref, Records s s' (-flow x.side (left c ref - left c' ref))) ↔
      Survives c ref q := by
  rcases h.find ref with ⟨hno, hf⟩ | ⟨i, hyes, hf, hslot⟩
  · -- not found before, so not after
    have hf' : c'.books.shared.index.find ref = some none := by rw [hindex (Or.inl hno), hf]
    have hnone := Option.some.inj ((OrderBookConsumer.sideOf_of_find_none hf').symm.trans hside)
    have hwidx := hskip hnone.symm
    constructor
    · exact fun hall x hx => absurd (hall x hx) (not_records hwidx _)
    · exact fun hall x hx => absurd ((hall x hx).1.symm.trans hno) (by decide)
  rw [OrderBookConsumer.heldReduced, if_pos hyes, hslot, Option.bind_some] at hheld
  have hnow : c'.books.held ref = OrderBookConsumer.cut (c.books.slot i) q := by
    rw [hheld, Function.update_self]
  rw [OrderBookConsumer.cut] at hnow
  by_cases hq : q < (c.books.slot i).remaining
  · rw [if_pos hq] at hnow
    have hleft : left c ref - left c' ref = q := by
      rw [left, left, hslot, hnow]
      exact sub_sub_cancel (c.books.slot i).remaining q
    have hone : ∀ x ∈ c.books.held ref, q < x.remaining := fun x hx => by
      obtain rfl := Option.some.inj (hslot.symm.trans hx)
      exact hq
    have hf' : c'.books.shared.index.find ref = some (some i) := by rw [hindex (Or.inr hone), hf]
    have hslot' : c'.books.held ref = some (c'.books.slot i) := by
      obtain ⟨fl, hrep⟩ := h'
      exact (hrep.held_of_find hf').2.2
    have hsame : side = (c.books.slot i).side := by
      have hlook := Option.some.inj ((OrderBookConsumer.sideOf_of_find_some hf').symm.trans hside)
      rw [← hlook, ← Option.some.inj (hnow.symm.trans hslot')]
    subst hsame
    have hflow := hrec (hs ref _ hslot)
    refine iff_of_true (fun x hx => ?_) fun x hx => ⟨hyes, hone x hx⟩
    obtain rfl := Option.some.inj (hslot.symm.trans hx)
    rw [hleft]
    exact hflow
  · rw [if_neg hq] at hnow
    have hf' := h'.find_of_held_none hnow
    have hnone := Option.some.inj ((OrderBookConsumer.sideOf_of_find_none hf').symm.trans hside)
    refine iff_of_false (fun hall => ?_) fun hall => hq (hall _ hslot).2
    exact not_records (hskip hnone.symm) _ (hall _ hslot)

/-- A delete is never recorded. -/
theorem delete_documented_iff {ref : ℕ} {side : OrderSide} {s s' : OrderFlowImbalanceStrategy}
    {d : OrderSlotView → Int64} (h : c.Ok) (h' : c'.Ok)
    (hheld : c'.books.held =
      if c.finds ref then Function.update c.books.held ref none else c.books.held)
    (hindex : c.finds ref = false → c'.books.shared.index = c.books.shared.index)
    (hside : OrderBook.sideOf c'.books.shared ref = some side)
    (hskip : side = .none → s'.widx = s.widx) :
    (∀ x ∈ c.books.held ref, Records s s' (d x)) ↔ c.books.held ref = none := by
  have hf' : c'.books.shared.index.find ref = some none := by
    rcases h.find ref with ⟨hno, hf⟩ | ⟨i, hyes, -, -⟩
    · rw [hindex hno, hf]
    · refine h'.find_of_held_none ?_
      rw [hheld, if_pos hyes, Function.update_self]
  have hnone := Option.some.inj ((OrderBookConsumer.sideOf_of_find_none hf').symm.trans hside)
  constructor
  · intro hall
    cases hx : c.books.held ref with
    | none => rfl
    | some x => exact absurd (hall x hx) (not_records (hskip hnone.symm) _)
  · intro hno x hx
    exact absurd (hno.symm.trans hx) (by simp)

/-- A quantity of 32 bits keeps its value. -/
theorem toInt_toInt64 {q : UInt64} (hq : q.toNat < 2 ^ 32) : q.toInt64.toInt = q.toNat := by
  have hint : q.toInt64.toInt = q.toBitVec.toInt := rfl
  have hnat : q.toBitVec.toNat = q.toNat := rfl
  rw [hint, BitVec.toInt_eq_toNat_of_lt (by omega), hnat]

/-- A replace is recorded as one of a buy order. -/
theorem replace_documented_iff {ref : ℕ} {q : UInt64} {s s' : OrderFlowImbalanceStrategy}
    (hs : Sided c) (hq : q.toNat < 2 ^ 32) (hrec : Records s s' q.toInt64) :
    (∀ x ∈ c.books.held ref, ∃ d, Records s s' d ∧
      (x.side = .buy → 0 ≤ d) ∧ (x.side = .sell → d ≤ 0)) ↔
      ∀ x ∈ c.books.held ref, x.side = .buy ∨ q = 0 := by
  have hnonneg : 0 ≤ q.toInt64 := by
    rw [Int64.le_iff_toInt_le, toInt_toInt64 hq]
    exact Int.natCast_nonneg _
  have hzero : q.toInt64 ≤ 0 ↔ q = 0 := by
    rw [Int64.le_iff_toInt_le, toInt_toInt64 hq, ← UInt64.toNat_inj, UInt64.toNat_zero,
      Int64.toInt_zero]
    omega
  refine forall₂_congr fun x hx => ⟨?_, fun hcase => ⟨_, hrec, fun _ => hnonneg, fun hsell => ?_⟩⟩
  · rintro ⟨d, hd, -, hsell⟩
    obtain rfl := records_unique hrec hd
    cases hside : x.side with
    | buy => exact Or.inl rfl
    | sell => exact Or.inr (hzero.mp (hsell hside))
    | none => exact absurd hside (hs ref x hx)
  · exact hzero.mpr (hcase.resolve_left fun hbuy => by simp [hbuy] at hsell)

/-- A lookup of a side returns. -/
theorem sideOf_returns (h : c.Ok) (ref : ℕ) :
    ∃ side, OrderBook.sideOf c.books.shared ref = some side := by
  rcases h.find ref with ⟨-, hf⟩ | ⟨i, -, hf, -⟩
  · exact ⟨_, OrderBookConsumer.sideOf_of_find_none hf⟩
  · exact ⟨_, OrderBookConsumer.sideOf_of_find_some hf⟩

/-- The strategy records a reduction against the side of its order. -/
theorem delta_of_reduces {ref : ℕ} {q : UInt64}
    (hbody : OrderBookConsumer.reduces ev.body = some (ref, q)) (side : OrderSide) :
    delta ev side = -flow side q := by
  have hneg : (if side = .buy then -q.toInt64 else q.toInt64) = -flow side q := by
    rw [flow]
    split
    · rfl
    · exact (Int64.neg_neg).symm
  rw [← hneg, delta]
  cases hev : ev.body <;> simp only [hev, OrderBookConsumer.reduces, Option.some.injEq,
    Prod.mk.injEq, reduceCtorEq] at hbody
  all_goals
    obtain ⟨rfl, rfl⟩ := hbody
    rfl

theorem eventSide_of_reduces {ref : ℕ} {q : UInt64}
    (hbody : OrderBookConsumer.reduces ev.body = some (ref, q)) :
    eventSide c' ev = OrderBook.sideOf c'.books.shared ref := by
  rw [eventSide]
  cases hev : ev.body <;> simp only [hev, OrderBookConsumer.reduces, Option.some.injEq,
    Prod.mk.injEq, reduceCtorEq] at hbody
  all_goals
    obtain ⟨rfl, rfl⟩ := hbody
    rfl

/-- What a worker makes of a reduction. -/
theorem reduction_told {ref : ℕ} {q : UInt64} (h : c.Ok) (hs : Sided c)
    (hbody : OrderBookConsumer.reduces ev.body = some (ref, q)) (ht : c.Takes ev.body)
    (hc' : c.onEvent ev = some c') (inc : sts.Includes OrderFlowImbalanceStrategy.strategy)
    (w : SimWorker S) (howns : w.owns ev.locate) :
    ∃ marks w', w.onMarketEvent sts ev c' = some (marks, w') ∧
      ((∀ x ∈ c.books.held ref, Records (inc.get w.strategies) (inc.get w'.strategies)
        (-flow x.side (left c ref - left c' ref))) ↔ Survives c ref q) := by
  have hbecomes := OrderBookConsumer.becomes_of_onEvent h ht hc'
  obtain ⟨side, hside⟩ := sideOf_returns hbecomes.ok ref
  have hlook : eventSide c' ev = some side := (eventSide_of_reduces hbody).trans hside
  obtain ⟨marks, w', hcall, hrec, hskip⟩ := onMarketEvent_told inc w howns hlook
  rw [delta_of_reduces hbody] at hrec
  refine ⟨marks, w', hcall, reduction_documented_iff h hbecomes.ok hs ?_ ?_ hside hrec hskip⟩
  · rw [hbecomes.held, OrderBookConsumer.heldAfter_of_reduces hbody]
  · exact OrderBookConsumer.index_of_reduces h hbody hc'

/-- **What a worker makes of an event** of the exchange is documented exactly if it is one of those
that are followed. -/
theorem documented_iff (h : c.Ok) (hs : Sided c) (ht : c.Takes ev.body) (hev : ev.FromExchange)
    (inc : sts.Includes OrderFlowImbalanceStrategy.strategy) (w : SimWorker S)
    (howns : w.owns ev.locate) :
    ∃ c' marks w', c.onEvent ev = some c' ∧ w.onMarketEvent sts ev c' = some (marks, w') ∧
      (Documented c c' ev (inc.get w.strategies) (inc.get w'.strategies) ↔ Followed c ev) := by
  obtain ⟨c', hc', hbecomes⟩ := OrderBookConsumer.onEvent_spec h ht
  have hreduced := fun ref q (hr : OrderBookConsumer.reduces ev.body = some (ref, q)) =>
    reduction_told h hs hr ht hc' inc w howns
  rw [MarketEvent.FromExchange] at hev
  simp only [Documented, Followed]
  cases hbody : ev.body with
  | add o =>
    rw [hbody] at hev
    have hside : eventSide c' ev = some o.side := by rw [eventSide, hbody]
    obtain ⟨marks, w', hcall, hrec, -⟩ := onMarketEvent_told inc w howns hside
    refine ⟨c', marks, w', hc', hcall, iff_of_true ?_ trivial⟩
    have hrec := hrec hev
    rwa [delta, hbody] at hrec
  | delete o =>
    obtain ⟨side, hside⟩ := sideOf_returns hbecomes.ok o.orderRef
    have hlook : eventSide c' ev = some side := by
      rw [eventSide, hbody]
      exact hside
    obtain ⟨marks, w', hcall, -, hskip⟩ := onMarketEvent_told inc w howns hlook
    have hheld := hbecomes.held
    rw [hbody] at hheld
    refine ⟨c', marks, w', hc', hcall,
      delete_documented_iff h hbecomes.ok hheld (fun hno => ?_) hside hskip⟩
    rcases h.find o.orderRef with ⟨-, hf⟩ | ⟨i, hyes, -, -⟩
    · obtain ⟨c'', hc'', hb⟩ :=
        OrderBookConsumer.onEvent_unknown hf (t := {}) (Or.inl ⟨Or.inl hbody, rfl⟩)
      rw [← Option.some.inj (hc''.symm.trans hc'), hb]
    · exact absurd (hno.symm.trans hyes) (by decide)
  | replace o =>
    rw [hbody] at hev
    have hside : eventSide c' ev = some .buy := by
      rw [eventSide, hbody]
      exact congrArg some hev.1
    obtain ⟨marks, w', hcall, hrec, -⟩ := onMarketEvent_told inc w howns hside
    have hrec := hrec (by decide)
    rw [delta, hbody] at hrec
    exact ⟨c', marks, w', hc', hcall, replace_documented_iff hs hev.2 hrec⟩
  | cancel o =>
    obtain ⟨marks, w', hcall, hiff⟩ := hreduced o.orderRef o.shares (by rw [hbody]; rfl)
    exact ⟨c', marks, w', hc', hcall, hiff⟩
  | trade t =>
    obtain ⟨marks, w', hcall, hiff⟩ := hreduced t.orderRef t.volume (by rw [hbody]; rfl)
    exact ⟨c', marks, w', hc', hcall, hiff⟩
  | execute t =>
    obtain ⟨marks, w', hcall, hiff⟩ := hreduced t.orderRef t.volume (by rw [hbody]; rfl)
    exact ⟨c', marks, w', hc', hcall, hiff⟩

end Event

/-! ### Runs -/

/-- The view is well formed and its orders have sides; so it was at every broadcast, and it could
take what was broadcast. -/
structure ShownOk (sim : ExchangeSimulator) : Prop where
  /-- The view. -/
  view : ∀ c ∈ sim.view, c.Ok ∧ Sided c
  /-- The broadcasts so far. -/
  shown : ∀ p ∈ sim.shown, ∀ c ∈ p.1, c.Ok ∧ Sided c ∧ c.Takes p.2.body ∧ p.2.FromExchange

theorem ShownOk.broadcast {sim sim' : ExchangeSimulator} {ev : MarketEvent} {marks : List Mark}
    (h : ShownOk sim) (ht : ∀ c ∈ sim.view, c.Takes ev.body) (hev : ev.FromExchange)
    (hb : sim.broadcast ev = some (marks, sim')) : ShownOk sim' := by
  obtain ⟨view, rfl, hview⟩ := ExchangeSimulator.broadcast_spec hb
  constructor
  · intro c hc
    cases hold : sim.view with
    | none =>
      rw [hold] at hview
      exact absurd hc (by simp [hview])
    | some c₀ =>
      rw [hold] at hview
      obtain ⟨c', hc', rfl⟩ := hview
      obtain rfl := Option.some.inj hc
      obtain ⟨hok, hsided⟩ := h.view c₀ hold
      exact ⟨(OrderBookConsumer.becomes_of_onEvent hok (ht c₀ hold) hc').ok,
        hsided.onEvent hok (ht c₀ hold) hev hc'⟩
  · intro p hp c hc
    rcases List.mem_append.mp hp with hp | hp
    · exact h.shown p hp c hc
    · obtain rfl := List.mem_singleton.mp hp
      obtain ⟨hok, hsided⟩ := h.view c hc
      exact ⟨hok, hsided, ht c hc, hev⟩

/-- What `to_market_event` makes has the shape of what is broadcast. -/
theorem fromExchange_toMarketEvent (clock : ℕ) (ev : ItchEvent) :
    (ExchangeSimulator.toMarketEvent clock ev).FromExchange := by
  cases ev with
  | add locate ref side price shares => cases side <;> exact OrderSide.noConfusion
  | delete => trivial
  | cancel => trivial
  | replace locate ref newRef price shares =>
    refine ⟨rfl, ?_⟩
    show shares.toUInt64.toNat < 2 ^ 32
    rw [UInt32.toNat_toUInt64]
    exact shares.toNat_lt
  | book => exact OrderSide.noConfusion

theorem stable_shown : Stable Contract.live ShownOk ShownOk where
  idle := id
  market := by
    intro ev sim sim' rsp e' marks hi hev henter hb
    obtain ⟨d, hd, -⟩ := exec_of_enterMarket henter
    have hi' : ShownOk { sim.advance with engine := e' } := ⟨hi.view, hi.shown⟩
    exact hi'.broadcast (fun c hc => takes_toMarketEvent hd (hev.2 c hc) _)
      (fromExchange_toMarketEvent _ ev) hb
  book := fun hi _ => ⟨hi.view, hi.shown⟩
  count := fun _ _ _ hi => ⟨hi.view, hi.shown⟩
  execute := fun {_ _ locate ref qty _} hi hb => hi.broadcast
    (fun c _ => show c.Takes (.execute _) from trivial)
    (show (ExchangeSimulator.makeExecute locate ref qty).FromExchange from trivial) hb
  gone := fun _ hi => ⟨hi.view, hi.shown⟩
  register := fun _ hi => ⟨hi.view, hi.shown⟩
  submit := fun hi _ _ => ⟨hi.view, hi.shown⟩
  cancel := fun hi _ _ => ⟨hi.view, hi.shown⟩

theorem Reached.shownOk {E : Type} {cl : Client Contract.live.strategy E}
    {r : E × ExchangeSimulator} (h : Reached Contract.live cl r) : ShownOk r.2 := by
  refine stable_shown.reached (fun capacity view sink _ _ hview => ⟨fun c hc => ?_, ?_⟩) h
  · obtain ⟨n, hn, rfl⟩ := Option.map_eq_some_iff.mp hc
    have hbounds := hview n hn
    have hle : n ≤ uint32Max := by
      simp only [uint32Max]
      omega
    refine ⟨OrderBookConsumer.new_ok (by omega) hle, fun ref x hx => ?_⟩
    rw [OrderBookConsumer.new_held (by omega) hle] at hx
    exact absurd hx (by simp)
  · exact fun p hp => absurd hp List.not_mem_nil

/-- **The order flow.** Whatever is broadcast in a run, the worker that owns its symbol returns, and
what its order flow strategy recorded is what is documented exactly if the event is a new order,
leaves something of the order it takes from, or replaces a buy order. -/
theorem flow_documented_iff {E : Type} {cl : Client Contract.live.strategy E}
    {r : E × ExchangeSimulator} (h : Reached Contract.live cl r) {c : OrderBookConsumer}
    {ev : MarketEvent} (hshown : (some c, ev) ∈ r.2.shown) {S : Type} {sts : Strategies S}
    (inc : sts.Includes OrderFlowImbalanceStrategy.strategy) (w : SimWorker S)
    (howns : w.owns ev.locate) :
    ∃ c' marks w', c.onEvent ev = some c' ∧ w.onMarketEvent sts ev c' = some (marks, w') ∧
      (Documented c c' ev (inc.get w.strategies) (inc.get w'.strategies) ↔ Followed c ev) := by
  obtain ⟨hok, hsided, htakes, hev⟩ := h.shownOk.shown _ hshown c rfl
  exact documented_iff hok hsided htakes hev inc w howns

/-- The strategies of a worker with the order flow strategy alone. -/
def flowOnly : Strategies (OrderFlowImbalanceStrategy × Unit) :=
  .cons OrderFlowImbalanceStrategy.strategy .nil

/-- A cancel of two out of five is recorded as documented. -/
theorem flow_documented_cancel : ∃ r c ev c' marks w', ExchangeSimulator.play
    (Client.silent Contract.live.strategy).toCallbacks liveTest
    [.market (.add 0 1 .sell 100 5), .market (.cancel 0 1 2)]
    ((), .new 4 (some 4) fun _ _ => []) = some r ∧
    (some c, ev) ∈ r.2.shown ∧ ev.body = .cancel { orderRef := 1, shares := 2 } ∧
    c.onEvent ev = some c' ∧
    SimWorker.onMarketEvent flowOnly { strategies := ({}, ()) } ev c' = some (marks, w') ∧
    Documented c c' ev {} w'.strategies.1 := by
  have hread : (ExchangeSimulator.play (Client.silent Contract.live.strategy).toCallbacks liveTest
      [.market (.add 0 1 .sell 100 5), .market (.cancel 0 1 2)]
      ((), .new 4 (some 4) fun _ _ => [])).bind (fun r => r.2.shown.getLast?.bind fun p =>
        p.1.map fun c => (c.finds 1, (c.books.held 1).map OrderSlotView.remaining, p.2.body)) =
      some (true, some 5, .cancel { orderRef := 1, shares := 2 }) := by decide +kernel
  obtain ⟨r, hr, hlast⟩ := Option.bind_eq_some_iff.mp hread
  obtain ⟨⟨view, ev⟩, hmem, hview⟩ := Option.bind_eq_some_iff.mp hlast
  obtain ⟨c, rfl, hc⟩ := Option.map_eq_some_iff.mp hview
  obtain ⟨hfinds, hc⟩ := Prod.mk.inj hc
  obtain ⟨hheld, hbody⟩ := Prod.mk.inj hc
  have hshown := List.mem_of_getLast? hmem
  have hreached : Reached Contract.live (Client.silent Contract.live.strategy) r :=
    (Reached.start () 4 (some 4) _ (by decide) (by decide) (by simp)).play
      (fun h htest => h.live_of_test htest) (fun h htest => ExchangeSimulator.refsTest_strategy
        (h.engine Contract.live_keepsRefs).inv ((Bool.and_eq_true _ _).mp htest).1) hr
  obtain ⟨c', marks, w', hc', hcall, hiff⟩ := flow_documented_iff hreached hshown
    (.head OrderFlowImbalanceStrategy.strategy .nil) { strategies := ({}, ()) }
    (fun hmany => absurd hmany.1 (by decide))
  refine ⟨r, c, ev, c', marks, w', hr, hshown, hbody, hc', hcall, hiff.mpr ?_⟩
  rw [Followed, hbody]
  intro x hx
  refine ⟨hfinds, ?_⟩
  rw [hx] at hheld
  rw [Option.some.inj hheld]
  decide

/-- A delete of the same order: the strategy records nothing. -/
theorem delete_not_recorded : ∃ r c ev, ExchangeSimulator.play
    (Client.silent Contract.live.strategy).toCallbacks liveTest
    [.market (.add 0 1 .sell 100 5), .market (.delete 0 1)]
    ((), .new 4 (some 4) fun _ _ => []) = some r ∧
    (some c, ev) ∈ r.2.shown ∧ ev.body = .delete { orderRef := 1 } ∧ left c 1 = 5 ∧
    ∀ c' marks w', c.onEvent ev = some c' →
      SimWorker.onMarketEvent flowOnly { strategies := ({}, ()) } ev c' = some (marks, w') →
      w'.strategies.1.widx = 0 ∧ ¬ Documented c c' ev {} w'.strategies.1 := by
  have hread : (ExchangeSimulator.play (Client.silent Contract.live.strategy).toCallbacks liveTest
      [.market (.add 0 1 .sell 100 5), .market (.delete 0 1)]
      ((), .new 4 (some 4) fun _ _ => [])).bind (fun r => r.2.shown.getLast?.bind fun p =>
        p.1.map fun c => ((c.books.held 1).map OrderSlotView.remaining, p.2.body,
          (c.onEvent p.2).bind fun c' =>
            (SimWorker.onMarketEvent flowOnly { strategies := ({}, ()) } p.2 c').map fun q =>
              q.2.strategies.1.widx)) =
      some (some 5, .delete { orderRef := 1 }, some 0) := by decide +kernel
  obtain ⟨r, hr, hlast⟩ := Option.bind_eq_some_iff.mp hread
  obtain ⟨⟨view, ev⟩, hmem, hview⟩ := Option.bind_eq_some_iff.mp hlast
  obtain ⟨c, rfl, hc⟩ := Option.map_eq_some_iff.mp hview
  obtain ⟨hheld, hc⟩ := Prod.mk.inj hc
  obtain ⟨hbody, hrun⟩ := Prod.mk.inj hc
  refine ⟨r, c, ev, hr, List.mem_of_getLast? hmem, hbody, by rw [left, hheld]; rfl, ?_⟩
  intro c' marks w' hc' hcall
  rw [hc', Option.bind_some, hcall, Option.map_some] at hrun
  have hwidx : w'.strategies.1.widx = 0 := Option.some.inj hrun
  refine ⟨hwidx, fun hdoc => ?_⟩
  obtain ⟨x, hx, -⟩ := Option.map_eq_some_iff.mp hheld
  rw [Documented, hbody] at hdoc
  have hrecorded := (hdoc x hx).widx
  omega

end NebulaX
