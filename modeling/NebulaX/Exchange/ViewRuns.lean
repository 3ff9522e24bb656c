import NebulaX.Exchange.SimulatorRuns
import NebulaX.Market.ViewOrders

/-!
# The view in a run

What the simulator broadcasts can be taken by the view as long as a new reference is new to the view
too. The engine and the view need not hold the same orders, so that is a contract of its own.

## Main results

* `Reached.viewOk` — the view of a run is well formed
-/

namespace NebulaX

open Exchange (MatchingEngine BinaryResponse Command)
open Market (OrderBookConsumer OrderSlotView)
open Market.PriceLevelTable (IsPrice)

/-- A price of the exchange is a price of the view. -/
theorem isPrice_of_uint32 (x : UInt32) : IsPrice x.toUInt64.toInt64 := by
  have hne : ∀ n : Int64, 2 ^ 32 ≤ n.toUInt64.toNat → x.toUInt64.toInt64 ≠ n := by
    rintro n hn rfl
    have hlt := x.toNat_lt
    simp at hn
    omega
  exact ⟨hne _ (by decide), hne _ (by decide)⟩

/-! ### References that are new to the view -/

/-- The reference that an event introduces is not held. A replace may keep its reference. -/
def ItchEvent.NewIn (held : ℕ → Option OrderSlotView) : ItchEvent → Prop
  | .add _ ref _ _ _ => held ref = none
  | .replace _ ref newRef _ _ => newRef = ref ∨ held newRef = none
  | .delete .. | .cancel .. | .book _ => True

/-- The contract about references, with new references not live in the view either. -/
def Contract.live : Contract where
  market := fun ev sim =>
    ev.Allowed sim.engine.resting ∧ ∀ c ∈ sim.view, ev.NewIn c.books.held
  strategy := Contract.refs.strategy

theorem Contract.live_keepsRefs : Contract.live.KeepsRefs := ⟨And.left, id⟩

theorem takes_toMarketEvent {c : OrderBookConsumer} {ev : ItchEvent} {e : MatchingEngine}
    {d : Command} (hd : ev.command e = some d) (hnew : ev.NewIn c.books.held) (clock : ℕ) :
    c.Takes (ExchangeSimulator.toMarketEvent clock ev).body := by
  cases ev with
  | add => exact ⟨isPrice_of_uint32 _, hnew⟩
  | delete => trivial
  | cancel => trivial
  | replace => exact ⟨isPrice_of_uint32 _, hnew⟩
  | book => exact absurd hd (by simp [ItchEvent.command])

/-- The view is well formed. -/
def ViewOk (sim : ExchangeSimulator) : Prop := ∀ c ∈ sim.view, c.Ok

/-- A broadcast that the view can take keeps it. -/
theorem ViewOk.broadcast {sim sim' : ExchangeSimulator} {ev : MarketEvent} {marks : List Mark}
    (h : ViewOk sim) (ht : ∀ c ∈ sim.view, c.Takes ev.body)
    (hb : sim.broadcast ev = some (marks, sim')) : ViewOk sim' := by
  obtain ⟨view, rfl, hview⟩ := ExchangeSimulator.broadcast_spec hb
  intro c hc
  cases hold : sim.view with
  | none =>
    rw [hold] at hview
    exact absurd hc (by simp [hview])
  | some c₀ =>
    rw [hold] at hview
    obtain ⟨c', hc', rfl⟩ := hview
    obtain rfl := Option.some.inj hc
    exact (OrderBookConsumer.becomes_of_onEvent (h c₀ hold) (ht c₀ hold) hc').ok

theorem stable_view : Stable Contract.live ViewOk ViewOk where
  idle := id
  market := by
    intro ev sim sim' rsp e' marks hi hev henter hb
    obtain ⟨d, hd, -⟩ := exec_of_enterMarket henter
    have hi' : ViewOk { sim.advance with engine := e' } := hi
    exact hi'.broadcast (fun c hc => takes_toMarketEvent hd (hev.2 c hc) _) hb
  book := fun hi _ => hi
  count := fun _ _ _ hi => hi
  execute := fun {_ _ locate ref qty _} hi hb =>
    hi.broadcast (fun c _ => show c.Takes (.execute _) from trivial) hb
  gone := fun _ hi => hi
  register := fun _ hi => hi
  submit := fun hi _ _ => hi
  cancel := fun hi _ _ => hi

/-- **The view of a run** is well formed. -/
theorem Reached.viewOk {E : Type} {cl : Client Contract.live.strategy E}
    {r : E × ExchangeSimulator} (h : Reached Contract.live cl r) : ViewOk r.2 := by
  refine stable_view.reached (fun capacity view sink _ _ hview c hc => ?_) h
  obtain ⟨n, hn, rfl⟩ := Option.map_eq_some_iff.mp hc
  have hbounds := hview n hn
  exact OrderBookConsumer.new_ok (by omega) (by simp only [uint32Max]; omega)

/-! ### A test -/

/-- The reference that a call introduces to the view, if it is not one that is replaced. -/
def SimCall.entered : SimCall → Option ℕ
  | .market (.add _ ref _ _ _) => some ref
  | .market (.replace _ ref newRef _ _) => if newRef = ref then none else some newRef
  | .market _ | .strategy _ => none

/-- A test on the state that implies the contract. -/
def liveTest (call : SimCall) (sim : ExchangeSimulator) : Bool :=
  ExchangeSimulator.refsTest call sim &&
    (call.entered.toList.all fun ref => sim.view.toList.all fun c => (c.books.held ref).isNone)

theorem Reached.live_of_test {E : Type} {cl : Client Contract.live.strategy E} {s : E}
    {sim : ExchangeSimulator} {ev : ItchEvent} (h : Reached Contract.live cl (s, sim))
    (htest : liveTest (.market ev) sim = true) : Contract.live.market ev sim := by
  obtain ⟨hrefs, hnew⟩ := (Bool.and_eq_true _ _).mp htest
  refine ⟨ExchangeSimulator.refsTest_market (h.engine Contract.live_keepsRefs).inv hrefs,
    fun c hc => ?_⟩
  have hheld : ∀ ref, (SimCall.market ev).entered = some ref → c.books.held ref = none := by
    intro ref href
    have hall := List.all_eq_true.mp hnew ref (by simp [href])
    exact Option.isNone_iff_eq_none.mp (List.all_eq_true.mp hall c (by simpa using hc))
  cases ev with
  | add => exact hheld _ rfl
  | replace locate ref newRef price shares =>
    by_cases hsame : newRef = ref
    · exact Or.inl hsame
    · exact Or.inr (hheld newRef (if_neg hsame))
  | delete => trivial
  | cancel => trivial
  | book => trivial

end NebulaX
