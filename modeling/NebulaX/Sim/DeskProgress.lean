import NebulaX.Lib.Fold
import NebulaX.Sim.DeskMarket

/-!
# The desk goes on

A call of the desk can get lost in four places: in the index of the engine, in the index of the
view, in the slots that either of them points to, and at the lock of the execution engine, which a
report of the exchange takes again. The lock of the model lets its holder in and remembers it in
`relocked`; that it stays free is `Booked.once`. In a run where the market keeps the contract the
other three do not happen: every call returns, and so does what a worker does with a broadcast.

A worker looks at the view after it took the event. `Told` keeps what is needed for that: every
broadcast so far was one that the view could take.

## Main results

* `Told.onMarketOrder`, `Told.submit` — the calls of the exchange return
* `step_returns` — every call of the desk returns
* `Runs.returns` — in every run that keeps the contract
-/

namespace NebulaX

open Exchange (MatchingEngine BinaryResponse Command Fresh exec_keeps)
open Market (OrderBookConsumer OrderBook)

/-! ### Broadcasts return -/

/-- The view is well formed, and it was so after every broadcast. -/
structure Told (sim : ExchangeSimulator) : Prop where
  /-- Now. -/
  view : ViewOk sim
  /-- Then. -/
  took : ∀ b ∈ sim.shown, ∀ c ∈ b.1, ∃ c', c.onEvent b.2 = some c' ∧ c'.Ok

namespace Told

open ExchangeSimulator

variable {sim : ExchangeSimulator}

theorem congr {sim' : ExchangeSimulator} (h : Told sim) (hview : sim'.view = sim.view)
    (hshown : sim'.shown = sim.shown) : Told sim' := by
  refine ⟨?_, ?_⟩
  · rw [ViewOk, hview]
    exact h.view
  · rw [hshown]
    exact h.took

/-- **A broadcast that the view can take** returns. -/
theorem broadcast (h : Told sim) {ev : MarketEvent} (ht : ∀ c ∈ sim.view, c.Takes ev.body) :
    ∃ marks sim', sim.broadcast ev = some (marks, sim') ∧ Told sim' ∧
      sim'.strategyRefs = sim.strategyRefs := by
  have hreturns : (sim.broadcast ev).isSome = true := by
    cases hv : sim.view with
    | none => simp only [ExchangeSimulator.broadcast, hv, Option.isSome_some]
    | some c =>
      obtain ⟨c', hc', -⟩ := OrderBookConsumer.onEvent_spec (h.view c hv) (ht c hv)
      simp only [ExchangeSimulator.broadcast, hv, hc', Option.map_some, Option.isSome_some]
  obtain ⟨⟨marks, sim'⟩, hb⟩ := Option.isSome_iff_exists.mp hreturns
  have hok := h.view.broadcast ht hb
  obtain ⟨view, rfl, -⟩ := broadcast_spec hb
  refine ⟨marks, _, hb, ⟨hok, fun b hm c hc => ?_⟩, rfl⟩
  rcases List.mem_append.mp hm with hm | hm
  · exact h.took b hm c hc
  · rw [List.mem_singleton.mp hm] at hc ⊢
    obtain ⟨c', hc', hb⟩ := OrderBookConsumer.onEvent_spec (h.view c hc) (ht c hc)
    exact ⟨c', hc', hb.ok⟩

/-- An `EXECUTE` can always be taken. -/
theorem execute (h : Told sim) (locate ref : ℕ) (qty : UInt64) :
    ∃ marks sim', sim.broadcast (makeExecute locate ref qty) = some (marks, sim') ∧ Told sim' ∧
      sim'.strategyRefs = sim.strategyRefs :=
  h.broadcast fun c _ => show c.Takes (.execute _) from trivial

/-- The side of the order of a broadcast can be looked up. -/
theorem sides (h : Told sim) {b : Option OrderBookConsumer × MarketEvent} (hb : b ∈ sim.shown)
    {c : OrderBookConsumer} (hc : c ∈ b.1) : ∃ c', c.onEvent b.2 = some c' ∧
      ∀ ref, ∃ side, OrderBook.sideOf c'.books.shared ref = some side := by
  obtain ⟨c', hc', hok⟩ := h.took b hb c hc
  refine ⟨c', hc', fun ref => ?_⟩
  rcases hok.find ref with ⟨-, hf⟩ | ⟨i, -, hf, -⟩
  · exact ⟨_, OrderBookConsumer.sideOf_of_find_none hf⟩
  · exact ⟨_, OrderBookConsumer.sideOf_of_find_some hf⟩

section Market

variable {E : Type} (cb : Callbacks E)

/-- **The loop over the trades** returns, while nothing is registered. -/
theorem routeTrades (locate taker : ℕ) (ts : List (ℕ × UInt32 × UInt32)) (s : E) (h : Told sim)
    (hidle : sim.strategyRefs = ∅) :
    ∃ r, ExchangeSimulator.routeTrades cb locate taker ts (s, sim) = some r ∧ Told r.2 := by
  have hstep : ∀ (r : E × ExchangeSimulator) (t : ℕ × UInt32 × UInt32),
      (Told r.2 ∧ r.2.strategyRefs = ∅) →
      ∃ r', routeTrade cb locate taker r t = some r' ∧ Told r'.2 ∧ r'.2.strategyRefs = ∅ := by
    rintro r t ⟨hr, hnone⟩
    have hother : ¬ (r.2.countTrade taker t.1 t.2.2).isStrategyOrder t.1 = true := by
      show ¬ decide (t.1 ∈ r.2.strategyRefs) = true
      rw [hnone]
      simp
    have hcount : Told (r.2.countTrade taker t.1 t.2.2) := hr.congr rfl rfl
    obtain ⟨marks, sim₁, hb, h₁, hrefs⟩ := hcount.execute locate t.1 t.2.2.toUInt64
    refine ⟨(cb.mark marks r.1, sim₁), ?_, h₁, hrefs.trans hnone⟩
    rw [routeTrade, if_neg hother, announce]
    exact Option.map_eq_some_iff.mpr ⟨_, hb, rfl⟩
  obtain ⟨r, hcall, hr, -⟩ := Fold.returns hstep ts (s := (s, sim)) ⟨h, hidle⟩
  exact ⟨r, hcall, hr⟩

/-- **An event of the market** that keeps the contract, with references that are new to the view,
returns. -/
theorem onMarketOrder (h : Told sim) (hinv : Exchange.Inv sim.engine)
    (hidle : sim.strategyRefs = ∅) {ev : ItchEvent} (hallowed : ev.Allowed sim.engine.resting)
    (hnew : ∀ c ∈ sim.view, ev.NewIn c.books.held) (s : E) :
    ∃ s' sim', ExchangeSimulator.onMarketOrder cb ev (s, sim) = some (s', sim') ∧ Told sim' := by
  cases hcmd : ev.command sim.engine with
  | none =>
    cases ev with
    | book L => exact ⟨s, sim.advance, rfl, h.congr rfl rfl⟩
    | add => exact absurd hcmd (Option.some_ne_none _)
    | delete => exact absurd hcmd (Option.some_ne_none _)
    | cancel => exact absurd hcmd (Option.some_ne_none _)
    | replace => exact absurd hcmd (Option.some_ne_none _)
  | some c =>
    obtain ⟨rsp, e', hexec, -⟩ := exec_keeps hinv ((ItchEvent.allowed_iff hcmd).mpr hallowed)
    have henter : enterMarket sim.engine ev = some (some (rsp, e')) := by
      rw [enterMarket_eq hinv hcmd, hexec]
      rfl
    have hentered : Told ({ sim.advance with engine := e' } : ExchangeSimulator) :=
      h.congr rfl rfl
    obtain ⟨marks, sim₁, hb, h₁, hrefs⟩ := hentered.broadcast
      fun c hc => takes_toMarketEvent hcmd (hnew c hc) (sim.clock + 1)
    rw [onMarketOrder_eq s henter hb]
    obtain ⟨⟨s₂, sim₂⟩, hroute, h₂⟩ := routeTrades cb (locateOf ev) (takerRef ev) (tradesIn rsp)
      (cb.mark marks s) h₁ (hrefs.trans hidle)
    rw [hroute, Option.bind_some]
    split
    · obtain ⟨last, sim₃, hlast, h₃, -⟩ := h₂.execute (locateOf ev) (takerRef ev)
        (totalFill (tradesIn rsp))
      exact ⟨cb.mark last s₂, sim₃, Option.map_eq_some_iff.mpr ⟨_, hlast, rfl⟩, h₃⟩
    · exact ⟨s₂, sim₂, rfl, h₂⟩

end Market

/-- **A submit** under a reference that does not rest returns. -/
theorem submit (h : Told sim) (hinv : Exchange.Inv sim.engine) (order : Order) {orderId : ℕ}
    (hfresh : Fresh sim.engine.resting orderId) (tif : Exchange.OrderTif) :
    ∃ r marks sim', sim.submit order orderId tif = some (r, marks, sim') ∧ Told sim' := by
  have hallowed : (submitCommand order orderId tif).Allowed sim.engine.resting := hfresh
  obtain ⟨rsp, e', hexec, -⟩ := exec_keeps hinv hallowed
  have hentered : Told ({ sim.advance with
      submitted := insert orderId sim.submitted, engine := e' } : ExchangeSimulator) :=
    h.congr rfl rfl
  have hstep : ∀ (s : ExchangeSubmitResult × List Mark × ExchangeSimulator) (f : BinaryResponse),
      Told s.2.2 → ∃ s', takeAnswer order orderId s f = some s' ∧ Told s'.2.2 := by
    intro s f hs
    cases f with
    | trade tradeId maker taker price quantity =>
      have hcount : Told (s.2.2.countTrade orderId maker quantity) := hs.congr rfl rfl
      obtain ⟨marks, sim₁, hb, h₁, -⟩ := hcount.execute order.symbolId maker quantity.toUInt64
      exact ⟨_, Option.map_eq_some_iff.mpr ⟨_, hb, rfl⟩, h₁⟩
    | ok => exact ⟨_, rfl, hs.congr rfl rfl⟩
    | filled => exact ⟨_, rfl, hs⟩
    | cancelled => exact ⟨_, rfl, hs⟩
    | error => exact ⟨_, rfl, hs⟩
  obtain ⟨⟨out, marks, sim'⟩, hanswers, h'⟩ :=
    Fold.returns hstep rsp (s := ({}, [], _)) hentered
  exact ⟨{ out with fullyFilled := totalFill (tradesIn rsp) = order.quantity }, marks, sim',
    Option.bind_eq_some_iff.mpr ⟨(rsp, e'), hexec,
      Option.map_eq_some_iff.mpr ⟨_, hanswers, rfl⟩⟩, h'⟩

end Told

theorem Ticked.told {sim sim' : ExchangeSimulator} (h : Ticked sim sim') (ht : Told sim) :
    Told sim' := by
  obtain ⟨wal, clock, rfl⟩ := h
  exact ht.congr rfl rfl

namespace Desk

section Flatten

open ExecutionEngine (cancelLive flattenOnDrawdown)

variable {s : System}

/-- **One order of a flatten**: the cancel returns. -/
theorem cancelLive_returns {id : ℕ} (hinv : Exchange.Inv s.2.engine) (hsim : Unrested s.2)
    (hknown : ∀ e, s.1.orderManager.orders id = some e → Fresh s.2.engine.resting id) :
    ∃ s', cancelLive Desk.exchange s id = some s' := by
  rw [cancelLive]
  cases he : s.1.orderManager.orders id with
  | none => exact ⟨s, rfl⟩
  | some e =>
    dsimp only
    split
    · have hallowed : (Command.cancel e.order.symbolId id kStrategyUserId).Allowed
          s.2.engine.resting := fun L b x hx hxid => absurd hxid (hknown e he L b x hx)
      obtain ⟨rsp, e', hexec, -⟩ := exec_keeps hinv hallowed
      obtain ⟨⟨reports, sim⟩, hcancel⟩ : ∃ r, s.2.cancel id e.order.symbolId kStrategyUserId =
          some r := ⟨_, Option.map_eq_some_iff.mpr ⟨(rsp, e'), hexec, rfl⟩⟩
      obtain ⟨rfl, -⟩ := hsim.cancel hcancel
      exact ⟨_, Option.bind_eq_some_iff.mpr ⟨([], sim), hcancel, rfl⟩⟩
    · exact ⟨s, rfl⟩

/-- **A flatten** returns. -/
theorem flatten_returns (hinv : Exchange.Inv s.2.engine) (hsim : Unrested s.2)
    (hknown : ∀ id e, s.1.orderManager.orders id = some e → Fresh s.2.engine.resting id) :
    ∃ s', flattenOnDrawdown Desk.exchange s = some s' := by
  have hloop : ∀ (s : System) (id : ℕ), (Exchange.Inv s.2.engine ∧ Unrested s.2 ∧
      ∀ id e, s.1.orderManager.orders id = some e → Fresh s.2.engine.resting id) →
      ∃ s', cancelLive Desk.exchange s id = some s' ∧ Exchange.Inv s'.2.engine ∧
        Unrested s'.2 ∧
        ∀ id e, s'.1.orderManager.orders id = some e → Fresh s'.2.engine.resting id := by
    rintro s id ⟨hinv, hsim, hknown⟩
    obtain ⟨s', hcall⟩ := cancelLive_returns hinv hsim (hknown id)
    obtain ⟨hstays, hticked⟩ := cancelLive_stays hsim hcall
    refine ⟨s', hcall, hticked.inv hinv, hticked.unrested hsim, fun id e he => ?_⟩
    obtain ⟨e', he', -⟩ := Stays.entry_of (hstays.entry id) he
    obtain ⟨wal, clock, heq⟩ := hticked
    rw [heq]
    exact hknown id e' he'
  rw [flattenOnDrawdown]
  split
  · exact ⟨s, rfl⟩
  · split
    · exact ⟨s, rfl⟩
    · obtain ⟨s', hcall, -⟩ := Fold.returns hloop s.1.orderManager.visited
        (s := ({ s.1 with flattenIssued := true }, s.2)) ⟨hinv, hsim, hknown⟩
      exact ⟨s', hcall⟩

end Flatten

/-! ### Calls return -/

section Calls

variable {base : ℕ} {d d' : Desk}

/-- **A signal** for a market order returns. -/
theorem submitSignal_returns (h : Apart base d) (hbooked : Booked d) (htold : Told d.2)
    (sig : Signal) (strategyId : ℕ) :
    ∃ id d', d.submitSignal sig strategyId .market = some (id, d') ∧ Told d'.2 := by
  rw [submitSignal]
  split_ifs
  · exact ⟨0, d, rfl, htold⟩
  · exact ⟨0, d, rfl, htold⟩
  · exact ⟨0, d, rfl, htold⟩
  · rw [submitOrder]
    dsimp only
    split
    · exact ⟨_, _, rfl, htold⟩
    · obtain ⟨r, marks, sim, hsubmit, htold'⟩ := htold.submit h.inv
        (d.1.engine.orderFor sig strategyId .market) (h.fresh h.issued.le) .ioc
      have hsim := hbooked.unrested.submit hsubmit
      obtain ⟨s, hflat⟩ := flatten_returns (s := (((d.1.engine.registered (d.1.engine.orderFor sig
        strategyId .market)).takeMarks marks).takeResult (d.1.engine.orderFor sig strategyId
          .market) r, sim)) (h.submit hsubmit).inv hsim
        fun id e he => (h.known hbooked hsubmit id e he).2
      refine ⟨d.1.engine.idOf, (⟨s.1.unlock, d.1.log.recordFills (d.1.engine.orderFor sig
        strategyId .market) r⟩, s.2), Option.bind_eq_some_iff.mpr ⟨(r, marks, sim), hsubmit,
          Option.map_eq_some_iff.mpr ⟨s, hflat, rfl⟩⟩, ?_⟩
      exact (flatten_stays hsim hflat).2.told htold'

/-- **Every call of the desk returns**, and leaves the view well formed. -/
theorem step_returns (h : Apart base d) (hmirrored : Mirrored {ref | base ≤ ref} [] d.2)
    (hbooked : Booked d) (htold : Told d.2) {c : Call} (hc : Shown d c) :
    ∃ d', d.step c = some d' ∧ Told d'.2 := by
  cases c with
  | event ev =>
    obtain ⟨⟨-, -, hallowed, hrefs⟩, henters, hcomplete⟩ := hc
    have hev : (Contract.mirror {ref | base ≤ ref}).market ev d.2 :=
      ⟨hallowed, fun ref hm hS => Nat.not_le.mpr (h.below hbooked.keyed (hrefs ref hm)) hS,
        henters, hcomplete⟩
    obtain ⟨re, sim, hcall, htold'⟩ := htold.onMarketOrder callbacks h.inv hbooked.unrested.idle
      hallowed (fun c hc => (hmirrored.mirrors hcomplete c hc).newIn hev) d.1
    exact ⟨(re, sim), hcall, htold'⟩
  | decision sig strategyId =>
    have hsame : (d.takeMid sig.locate).2 = d.2 :=
      (Prod.mk.inj (takeMid_system sig.locate d)).2
    have htold₁ : Told (d.takeMid sig.locate).2 := by
      rw [hsame]
      exact htold
    obtain ⟨id, d', hcall, htold'⟩ := submitSignal_returns (h.takeMid sig.locate)
      (hbooked.takeMid sig.locate) htold₁ sig strategyId
    exact ⟨d', Option.map_eq_some_iff.mpr ⟨(id, d'), hcall, rfl⟩, htold'⟩

/-- A view that has taken nothing. -/
theorem told_new (capacity : ℕ) (view : Option ℕ)
    (sink : MarketEvent → Option OrderBookConsumer → List Mark)
    (hview : ∀ n ∈ view, 2 ≤ n ∧ n ≤ 2 ^ 31) : Told (.new capacity view sink) := by
  refine ⟨fun c hc => ?_, fun b hm => absurd hm List.not_mem_nil⟩
  obtain ⟨n, hn, rfl⟩ := Option.map_eq_some_iff.mp hc
  obtain ⟨hlo, hhi⟩ := hview n hn
  exact OrderBookConsumer.new_ok (by omega) (by simp only [uint32Max]; omega)

theorem Runs.told (h : Runs Shown d) : Told d.2 := by
  induction h with
  | start visits base rm baseQty capacity view sink hrm hlo hhi hview =>
    exact told_new capacity view sink hview
  | call c hr hc hcall ih =>
    obtain ⟨base, hapart, hmirrored⟩ := hr.mirrored
    have hbooked := (hr.mono fun _ _ hc => hc.1).foreign.booked
    obtain ⟨d', hreturns, htold⟩ := step_returns hapart hmirrored hbooked ih hc
    obtain rfl := Option.some.inj (hreturns.symm.trans hcall)
    exact htold

/-- **The desk goes on**: in a run where the market keeps the contract, its adds find room and no
index has dropped an insert, every further call returns, whatever a worker decides and however many
orders a flatten asks to cancel. -/
theorem Runs.returns (h : Runs Shown d) {c : Call} (hc : Shown d c) : ∃ d', d.step c = some d' := by
  obtain ⟨base, hapart, hmirrored⟩ := h.mirrored
  have hbooked := (h.mono fun _ _ hc => hc.1).foreign.booked
  obtain ⟨d', hcall, -⟩ := step_returns hapart hmirrored hbooked h.told hc
  exact ⟨d', hcall⟩

end Calls

end Desk

end NebulaX
