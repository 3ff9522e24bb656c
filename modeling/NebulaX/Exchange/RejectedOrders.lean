import NebulaX.Exchange.BroadcastTime
import NebulaX.Exchange.Isolation
import NebulaX.Exchange.ViewRuns

/-!
# Events that the engine rejects

An event of the market is broadcast whatever the engine answers to it. If the engine answers with an
error, no trade follows, so the view is given the event and nothing else, and it does with it what
it does with any event.

## Main results

* `tradesIn_of_error` — a rejected event does not trade
* `rejected_leaves_view_iff` — exactly when the orders of the view stay as they are
* `rejected_order_enters_view` — an order without a price hangs in no book of the exchange, but in
  the view
-/

namespace NebulaX.Exchange

open MatchingEngine

/-! ### Errors and trades -/

/-- Whether a frame is an `RSP_ERROR`. -/
def BinaryResponse.isError : BinaryResponse → Bool
  | .error _ => true
  | .trade .. | .ok _ | .filled _ | .cancelled _ => false

section Errors

variable {R R' : Resting} {L : ℕ} {o : OrderData} {stays : Bool} {rsp : List BinaryResponse}

/-- An order that is answered with an error and did not hang in the book for want of a slot did not
trade. -/
theorem Arrival.no_trade_of_error (ha : Arrival R L o stays rsp R')
    (hidle : stays = false → (residual R L o).status ≠ .filled → tradesOf R L o = [])
    (herr : ∃ f ∈ rsp, f.isError = true) : ¬ ∃ f ∈ rsp, f.isTrade = true := by
  have htrades : ∀ f ∈ tradeFrames R L o, f.isError = false := fun f hf => by
    obtain ⟨p, -, rfl⟩ := List.mem_map.mp hf
    rfl
  have hno : ∀ f : BinaryResponse, f.isError = false →
      ¬ ∃ g ∈ tradeFrames R L o ++ [f], g.isError = true := by
    rintro f hf ⟨g, hg, hgerr⟩
    rcases List.mem_append.mp hg with hg | hg
    · exact absurd (hgerr.symm.trans (htrades g hg)) (by decide)
    · obtain rfl := List.mem_singleton.mp hg
      exact absurd (hgerr.symm.trans hf) (by decide)
  cases ha with
  | filled => exact absurd herr (hno _ rfl)
  | rests => exact absurd herr (hno _ rfl)
  | dropped hopen hstays tail htail =>
    rw [tradeFrames, hidle hstays hopen, List.map_nil, List.nil_append]
    rcases htail with rfl | ⟨code, rfl⟩
    · rintro ⟨f, hf, -⟩
      exact absurd hf List.not_mem_nil
    · exact no_trade_singleton rfl

end Errors

end NebulaX.Exchange

namespace NebulaX

open Exchange (MatchingEngine BinaryResponse Command OrderData Inv effect_of_exec)
open Market (OrderBookConsumer OrderSlotView)

/-- **An event that is answered with an error** does not trade. -/
theorem tradesIn_of_error {e e' : MatchingEngine} (h : Inv e) {ev : ItchEvent}
    (hev : ev.Allowed e.resting) {rsp : List BinaryResponse}
    (henter : ExchangeSimulator.enterMarket e ev = some (some (rsp, e')))
    (herr : ∃ f ∈ rsp, f.isError = true) : ExchangeSimulator.tradesIn rsp = [] := by
  obtain ⟨c, hc, hexec⟩ := exec_of_enterMarket henter
  have hallowed := (ItchEvent.allowed_iff hc).mpr hev
  have heff := effect_of_exec h hallowed hexec
  generalize e'.resting = R' at heff
  refine tradesIn_eq_nil ?_
  cases ev with
  | add locate ref side price shares =>
    obtain rfl := Option.some.inj hc
    cases heff with
    | rejected => exact Exchange.no_trade_singleton rfl
    | added hvalid ha =>
      refine ha.no_trade_of_error (fun hstays hopen => ?_) herr
      rw [decide_eq_true (Exchange.valid_of_addError hvalid).1, Bool.and_true,
        decide_eq_true (rfl : Exchange.OrderTif.day = .day), Bool.true_and,
        MatchingEngine.roomAfter, Bool.or_eq_false_iff] at hstays
      exact Exchange.tradesOf_eq_nil (by simpa using hstays.2) hopen
  | delete =>
    obtain rfl := Option.some.inj hc
    exact Exchange.processCancel_no_trade hexec
  | cancel =>
    obtain rfl := Option.some.inj hc
    exact Exchange.processCancelShares_no_trade hexec
  | replace locate ref newRef price shares =>
    obtain rfl := Option.some.inj hc
    obtain ⟨G, fl, hrep⟩ := h
    rcases hrep.findOrder_spec hev.1 with ⟨hf, -⟩ | ⟨i, b, p, hf, hi, -⟩
    · -- the engine turns away what its index does not find
      have haway : Exchange.TurnedAway e locate.toNat ref ref := Or.inr (Or.inl hf)
      obtain ⟨e'', hcall, -⟩ := Exchange.processReplace_untouched haway newRef
        ((ExchangeSimulator.oldSide e ref).getD .invalid) price shares
      obtain ⟨rfl, -⟩ := Prod.mk.inj (Option.some.inj (hcall.symm.trans hexec))
      exact Exchange.no_trade_singleton rfl
    · have hside : (ExchangeSimulator.oldSide e ref).getD .invalid ≠ .invalid := by
        rw [ExchangeSimulator.oldSide, hf]
        simp only [Option.map_some, Option.getD_some, hrep.side _ _ _ i hi]
        cases b <;> exact Exchange.Side.noConfusion
      cases heff with
      | replaced hx hid huser ha =>
        refine ha.no_trade_of_error (fun hstays => ?_) herr
        exact absurd (of_decide_eq_false hstays) (not_not.mpr hside)
      | replaceRefused => exact Exchange.no_trade_singleton rfl
  | book => exact absurd hc (by simp [ItchEvent.command])

/-! ### What the view makes of it -/

/-- What a reader of the view sees of an order. -/
def terms (s : OrderSlotView) : OrderSide × Int64 × UInt64 := (s.side, s.price, s.remaining)

/-- The live orders of a view: side, price and what remains, by reference. -/
def liveOrders (c : OrderBookConsumer) : ℕ → Option (OrderSide × Int64 × UInt64) :=
  Option.map terms ∘ c.books.held

/-- The event asks the view for nothing: there is no slot for a new order, or the order is not
found, or it is to stay what it is. -/
def Unseen (c : OrderBookConsumer) : ItchEvent → Prop
  | .add .. => c.hasRoom = false
  | .delete _ ref => c.books.shared.index.find ref = some none
  | .cancel _ ref shares => c.books.shared.index.find ref = some none ∨
    shares = 0 ∧ ∀ s ∈ c.books.held ref, s.remaining ≠ 0
  | .replace _ ref newRef price shares => c.books.shared.index.find ref = some none ∨
    newRef = ref ∧ ∀ s ∈ c.books.held ref,
      s.price = price.toUInt64.toInt64 ∧ s.remaining = shares.toUInt64
  | .book _ => True

section View

variable {c c' : OrderBookConsumer} {ref : ℕ}

theorem liveOrders_of_books (hb : c'.books = c.books) : liveOrders c' = liveOrders c := by
  rw [liveOrders, liveOrders, hb]

/-- A write at one reference leaves the live orders as they are if it writes what is there. -/
theorem liveOrders_update {s : Option OrderSlotView}
    (hheld : c'.books.held = Function.update c.books.held ref s) :
    liveOrders c' = liveOrders c ↔ s.map terms = (c.books.held ref).map terms := by
  rw [liveOrders, liveOrders, hheld, Function.comp_update, Function.update_eq_self_iff]
  rfl

/-- What a partial cancel leaves is what was there, if it takes nothing off something. -/
theorem terms_cut (s : OrderSlotView) (q : UInt64) :
    (OrderBookConsumer.cut s q).map terms = some (terms s) ↔ q = 0 ∧ s.remaining ≠ 0 := by
  rw [OrderBookConsumer.cut]
  by_cases hq : q < s.remaining
  · rw [if_pos hq]
    have hpos : s.remaining ≠ 0 := fun h0 => by simp [h0] at hq
    have hsub : s.remaining - q = s.remaining ↔ q = 0 := by
      rw [← UInt64.toNat_inj, ← UInt64.toNat_inj, UInt64.toNat_sub_of_le _ _ (UInt64.le_of_lt hq)]
      have hlt := UInt64.lt_iff_toNat_lt.mp hq
      rw [UInt64.toNat_zero]
      omega
    simp [terms, hpos, hsub]
  · rw [if_neg hq]
    refine iff_of_false (by simp) ?_
    rintro ⟨rfl, hpos⟩
    exact hq (UInt64.pos_iff_ne_zero.mpr hpos)

/-- **An event that the view can take** leaves its live orders alone exactly if it asks for
nothing. -/
theorem onEvent_unseen_iff (h : c.Ok) {ev : ItchEvent} (hnew : ev.NewIn c.books.held)
    (hbook : ∀ L, ev ≠ .book L) (clock : ℕ) :
    ∃ c', c.onEvent (ExchangeSimulator.toMarketEvent clock ev) = some c' ∧
      (liveOrders c' = liveOrders c ↔ Unseen c ev) := by
  have hfind : ∀ ref, c.books.shared.index.find ref = some none ∨
      ∃ i, c.books.shared.index.find ref = some (some i) ∧
        c.books.held ref = some (c.books.slot i) := fun ref => by
    obtain ⟨fl, hrep⟩ := h
    exact (hrep.find ref).imp_right fun ⟨i, hi, _⟩ => ⟨i, hi, (hrep.held_of_find hi).2.2⟩
  cases ev with
  | add locate ref side price shares =>
    have hbody : (ExchangeSimulator.toMarketEvent clock (.add locate ref side price shares)).body =
      .add { side := if side = .buy then .buy else .sell, price := price.toUInt64.toInt64
             shares := shares.toUInt64, orderRef := ref } := rfl
    obtain ⟨c', hc', hbecomes⟩ :=
      OrderBookConsumer.onEvent_add h hbody (isPrice_of_uint32 price) hnew
    refine ⟨c', hc', ?_⟩
    cases hroom : c.hasRoom with
    | true =>
      rw [hroom, if_pos rfl] at hbecomes
      rw [liveOrders_update hbecomes.held, show c.books.held _ = none from hnew]
      exact iff_of_false (by simp) (by simp [Unseen, hroom])
    | false =>
      rw [hroom] at hbecomes
      exact iff_of_true (liveOrders_of_books hbecomes) hroom
  | delete locate ref =>
    have hbody : (ExchangeSimulator.toMarketEvent clock (.delete locate ref)).body =
      .delete { orderRef := ref } := rfl
    rcases hfind ref with hf | ⟨i, hf, hheld⟩
    · obtain ⟨c', hc', hb⟩ :=
        OrderBookConsumer.onEvent_unknown hf (t := {}) (Or.inl ⟨Or.inl hbody, rfl⟩)
      exact ⟨c', hc', iff_of_true (liveOrders_of_books hb) hf⟩
    · obtain ⟨c', hc', hbecomes⟩ := OrderBookConsumer.onEvent_delete h hbody hf
      refine ⟨c', hc', ?_⟩
      rw [liveOrders_update hbecomes.held, hheld]
      exact iff_of_false (by simp) (by simp [Unseen, hf])
  | cancel locate ref shares =>
    have hbody : (ExchangeSimulator.toMarketEvent clock (.cancel locate ref shares)).body =
      .cancel { orderRef := ref, shares := shares.toUInt64 } := rfl
    rcases hfind ref with hf | ⟨i, hf, hheld⟩
    · obtain ⟨c', hc', hb⟩ :=
        OrderBookConsumer.onEvent_unknown hf (t := {}) (Or.inl ⟨Or.inr (Or.inl hbody), rfl⟩)
      exact ⟨c', hc', iff_of_true (liveOrders_of_books hb) (Or.inl hf)⟩
    · obtain ⟨c', hc', hbecomes, -⟩ := OrderBookConsumer.onEvent_cancel h hbody hf
      refine ⟨c', hc', ?_⟩
      have hzero : shares.toUInt64 = 0 ↔ shares = 0 := by
        rw [← UInt64.toNat_inj, ← UInt32.toNat_inj, UInt32.toNat_toUInt64]
        rfl
      rw [liveOrders_update hbecomes.held, hheld, Option.map_some, terms_cut, hzero]
      simp [Unseen, hf, hheld]
  | replace locate ref newRef price shares =>
    have hbody : (ExchangeSimulator.toMarketEvent clock
        (.replace locate ref newRef price shares)).body =
      .replace { orderRef := ref, newOrderRef := newRef, price := price.toUInt64.toInt64
                 shares := shares.toUInt64 } := rfl
    rcases hfind ref with hf | ⟨i, hf, hheld⟩
    · obtain ⟨c', hc', hb⟩ :=
        OrderBookConsumer.onEvent_unknown hf (t := {}) (Or.inl ⟨Or.inr (Or.inr hbody), rfl⟩)
      exact ⟨c', hc', iff_of_true (liveOrders_of_books hb) (Or.inl hf)⟩
    · obtain ⟨c', hc', hbecomes⟩ :=
        OrderBookConsumer.onEvent_replace h hbody (isPrice_of_uint32 price) hf hnew
      have hnow := hbecomes.held
      refine ⟨c', hc', ?_⟩
      by_cases hsame : newRef = ref
      · subst hsame
        simp only [Function.update_idem] at hnow
        rw [liveOrders_update hnow, hheld]
        simp [Unseen, hf, hheld, terms, OrderBookConsumer.replacement, eq_comm]
      · -- the order under the old reference is gone
        refine iff_of_false (fun heq => ?_) (by simp [Unseen, hf, hsame])
        have hold := congrFun heq ref
        simp only [liveOrders, Function.comp_apply, hnow,
          Function.update_of_ne (Ne.symm hsame), Function.update_self, hheld] at hold
        exact absurd hold (by simp)
  | book L => exact absurd rfl (hbook L)

end View

/-! ### In a run -/

/-- A rejected event is broadcast, and that is all. -/
theorem onMarketOrder_rejected {E : Type} {cb : Callbacks E} {s : E} {sim : ExchangeSimulator}
    {ev : ItchEvent} {rsp : List BinaryResponse} {e' : MatchingEngine}
    (henter : ExchangeSimulator.enterMarket sim.engine ev = some (some (rsp, e')))
    (hnil : ExchangeSimulator.tradesIn rsp = []) :
    ExchangeSimulator.onMarketOrder cb ev (s, sim) = ExchangeSimulator.announce cb
      (ExchangeSimulator.toMarketEvent (sim.clock + 1) ev)
      (s, { sim.advance with engine := e' }) := by
  have hengine : ExchangeSimulator.enterMarket sim.advance.engine ev = some (some (rsp, e')) :=
    henter
  rw [ExchangeSimulator.onMarketOrder]
  simp only [hengine, Option.bind_some, hnil, ExchangeSimulator.routeTrades, List.foldlM_nil]
  exact Option.bind_fun_some _

/-- **A rejected event and the view.** In every state of a run, an event that the engine answers
with an error leaves the live orders of the view as they are if and only if it asks the view for
nothing. -/
theorem rejected_leaves_view_iff {E : Type} {cl : Client Contract.live.strategy E} {s : E}
    {sim : ExchangeSimulator} (h : Reached Contract.live cl (s, sim)) {ev : ItchEvent}
    (hev : Contract.live.market ev sim) {c : OrderBookConsumer} (hc : sim.view = some c)
    {rsp : List BinaryResponse} {e' : MatchingEngine}
    (henter : ExchangeSimulator.enterMarket sim.engine ev = some (some (rsp, e')))
    (herr : ∃ f ∈ rsp, f.isError = true) :
    ∃ s' sim' c', ExchangeSimulator.onMarketOrder cl.toCallbacks ev (s, sim) = some (s', sim') ∧
      sim'.view = some c' ∧ (liveOrders c' = liveOrders c ↔ Unseen c ev) := by
  have hinv := (h.engine Contract.live_keepsRefs).inv
  have hnil := tradesIn_of_error hinv hev.1 henter herr
  have hbook : ∀ L, ev ≠ .book L := by
    rintro L rfl
    exact absurd henter (by simp [ExchangeSimulator.enterMarket])
  obtain ⟨c', hc', hiff⟩ :=
    onEvent_unseen_iff (h.viewOk c hc) (hev.2 c hc) hbook (sim.clock + 1)
  rw [onMarketOrder_rejected henter hnil, ExchangeSimulator.announce, ExchangeSimulator.broadcast]
  simp only [show sim.advance.view = some c from hc, hc', Option.map_some]
  exact ⟨_, _, c', rfl, rfl, hiff⟩

/-- The cancel of an order that nobody knows. -/
theorem rejected_leaves_view_unknown : ∃ s' sim' c', ExchangeSimulator.onMarketOrder
    (Client.silent Contract.live.strategy).toCallbacks (.delete 0 7)
      ((), .new 4 (some 4) fun _ _ => []) = some (s', sim') ∧
    sim'.view = some c' ∧ liveOrders c' = liveOrders (.new 4) := by
  have hstart : Reached Contract.live (Client.silent Contract.live.strategy)
      ((), .new 4 (some 4) fun _ _ => []) :=
    .start () 4 (some 4) _ (by decide) (by decide) (by simp)
  have hread : (ExchangeSimulator.enterMarket (.new 4) (.delete 0 7)).map (fun r => r.map Prod.fst)
      = some (some [.error .orderNotFound]) := by decide +kernel
  obtain ⟨answer, henter, heq⟩ := Option.map_eq_some_iff.mp hread
  obtain ⟨⟨rsp, e'⟩, rfl, rfl⟩ := Option.map_eq_some_iff.mp heq
  obtain ⟨s', sim', c', hcall, hview, hiff⟩ := rejected_leaves_view_iff hstart
    (hstart.live_of_test (by decide +kernel)) rfl henter ⟨_, List.mem_singleton_self _, rfl⟩
  have hfind : (OrderBookConsumer.new 4).books.shared.index.find 7 = some none := by decide +kernel
  exact ⟨s', sim', c', hcall, hview, hiff.mpr hfind⟩

/-- An order without a price is turned down by the engine and hangs in no book. The view holds
it. -/
theorem rejected_order_enters_view : ∃ r c, ExchangeSimulator.onMarketOrder
    (Client.silent Contract.live.strategy).toCallbacks (.add 0 1 .sell 0 5)
      ((), .new 4 (some 4) fun _ _ => []) = some r ∧ r.2.view = some c ∧
    (ExchangeSimulator.enterMarket (.new 4) (.add 0 1 .sell 0 5)).map (fun a => a.map Prod.fst) =
      some (some [.error .invalidPriceQtyUser]) ∧
    r.2.engine.resting 0 false = [] ∧ liveOrders c 1 = some (.sell, 0, 5) ∧
    liveOrders c ≠ liveOrders (.new 4) := by
  have hread : (ExchangeSimulator.onMarketOrder (Client.silent Contract.live.strategy).toCallbacks
      (.add 0 1 .sell 0 5) ((), .new 4 (some 4) fun _ _ => [])).map
        (fun r => (r.2.engine.resting 0 false, r.2.view.map fun c => liveOrders c 1)) =
      some ([], some (some (.sell, 0, 5))) := by decide +kernel
  obtain ⟨r, hr, heq⟩ := Option.map_eq_some_iff.mp hread
  obtain ⟨hrest, hview⟩ := Prod.mk.inj heq
  obtain ⟨c, hc, hlive⟩ := Option.map_eq_some_iff.mp hview
  refine ⟨r, c, hr, hc, by decide +kernel, hrest, hlive, fun hsame => ?_⟩
  have hnone : liveOrders (.new 4) 1 = none := by decide +kernel
  rw [hsame, hnone] at hlive
  exact absurd hlive (by simp)

end NebulaX
