import NebulaX.Exchange.Unrested
import NebulaX.Execution.TradeRecords
import NebulaX.Oms.Lifecycle
import NebulaX.Risk.Books
import NebulaX.Sim.Limits

/-!
# The desk

What `sim_main` does with the execution engine and the exchange: the replay hands in the events of
the market, and at the end of a segment a worker may place a decision, which is the end of
`arbitrate` of `src/sim/sim_worker.h`. All orders are market orders. Nothing else is ever called
from outside, so the defects of limit orders and of cancels do not show here.

The condition on a run is that the market does not use the strategy's user for a reference. No
contract about references is asked.

## Main results

* `flatten_stays` — a flatten asks for cancels in vain
* `event_stays` — an event passes on marks, and leaves the orders, positions and records alone
* `outcome_of_decision` — a decision is ignored, refused by the risk manager, or sent
-/

namespace NebulaX

open Exchange (OrderTif)

namespace Desk

/-! ### Runs -/

/-- A call from outside. -/
inductive Call
  | event (ev : ItchEvent)
  | decision (sig : Signal) (strategyId : ℕ)

/-- The mid of a symbol for the records, if it is quoted. -/
def takeMid (symbolId : ℕ) (d : Desk) : Desk :=
  let live := d.liveMid symbolId
  if 0 < live then d.setMid symbolId live else d

/-- The end of `arbitrate`: the mid for the records, and the order. -/
def placeDecision (sig : Signal) (strategyId : ℕ) (d : Desk) : Option (ℕ × Desk) :=
  (d.takeMid sig.locate).submitSignal sig strategyId .market

/-- What a call does, without its answer. -/
def step (d : Desk) : Call → Option Desk
  | .event ev => ExchangeSimulator.onMarketOrder callbacks ev d
  | .decision sig strategyId => (d.placeDecision sig strategyId).map Prod.snd

/-- The desk as it is assembled. -/
def new (visits : VisitOrder) (base : UInt64) (rm : RiskManager) (baseQty : UInt64)
    (sim : ExchangeSimulator) : Desk :=
  (⟨{ orderManager := { visits := visits, nextId := base.toNat }
      riskManager := rm, baseQty := baseQty }, {}⟩, sim)

/-- The states of the desk, from any configuration on, by calls that satisfy a condition on the
state they are made in. -/
inductive Runs (ok : Desk → Call → Prop) : Desk → Prop
  | start (visits : VisitOrder) (base : UInt64) (rm : RiskManager) (baseQty : UInt64) (capacity : ℕ)
      (view : Option ℕ) (sink : MarketEvent → Option Market.OrderBookConsumer → List Mark)
      (hrm : rm.IsNew) (hlo : 2 ≤ capacity) (hhi : capacity ≤ 2 ^ 31)
      (hview : ∀ n ∈ view, 2 ≤ n ∧ n ≤ 2 ^ 31) :
      Runs ok (new visits base rm baseQty (.new capacity view sink))
  | call {d d' : Desk} (c : Call) (h : Runs ok d) (hc : ok d c) (hcall : d.step c = some d') :
      Runs ok d'

/-- The market does not use the strategy's user. -/
def Foreign (_ : Desk) : Call → Prop
  | .event ev => ev.Foreign
  | .decision .. => True

instance (d : Desk) : (c : Call) → Decidable (Foreign d c)
  | .event (.add _ ref _ _ _) => inferInstanceAs (Decidable (ref ≠ kStrategyUserId))
  | .event (.replace _ _ newRef _ _) => inferInstanceAs (Decidable (newRef ≠ kStrategyUserId))
  | .event (.delete ..) | .event (.cancel ..) | .event (.book _) | .decision .. => isTrue trivial

/-- Calls one after the other, as long as they pass a test. -/
def play (test : Desk → Call → Bool) : List Call → Desk → Option Desk
  | [], d => some d
  | c :: cs, d => if test d c then (d.step c).bind (play test cs) else none

/-- A run that passes a test is a run, if the test implies the condition. -/
theorem Runs.play {ok : Desk → Call → Prop} {test : Desk → Call → Bool}
    (htest : ∀ {d c}, Runs ok d → test d c = true → ok d c) {d d' : Desk} (h : Runs ok d)
    {cs : List Call} (hrun : Desk.play test cs d = some d') : Runs ok d' := by
  induction cs generalizing d with
  | nil => exact Option.some.inj hrun ▸ h
  | cons c cs ih =>
    rw [Desk.play] at hrun
    split at hrun
    · next hpass =>
      obtain ⟨d₁, hcall, hrest⟩ := Option.bind_eq_some_iff.mp hrun
      exact ih (h.call c (htest h hpass) hcall) hrest
    · exact absurd hrun (by simp)

/-- A weaker condition allows more. -/
theorem Runs.mono {ok ok' : Desk → Call → Prop} (hle : ∀ d c, ok d c → ok' d c) {d : Desk}
    (h : Runs ok d) : Runs ok' d := by
  induction h with
  | start visits base rm baseQty capacity view sink hrm hlo hhi hview =>
    exact .start visits base rm baseQty capacity view sink hrm hlo hhi hview
  | call c _ hc hcall ih => exact ih.call c (hle _ c hc) hcall

end Desk

/-! ### What marks and requests to cancel leave -/

/-- **Nothing happened** to the orders but requests to cancel, and nothing to the books of the risk
manager. -/
structure Stays (ee ee' : ExecutionEngine) : Prop where
  /-- The keys of the orders. -/
  ids : ee'.orderManager.ids = ee.orderManager.ids
  /-- The next id. -/
  nextId : ee'.orderManager.nextId = ee.orderManager.nextId
  /-- The orders and what is filled of them. -/
  entry : ∀ id, (ee'.orderManager.orders id).map (fun e => (e.order, e.filled)) =
    (ee.orderManager.orders id).map fun e => (e.order, e.filled)
  /-- What a request keeps of every order. -/
  all : ∀ {Q : Entry → Prop}, (∀ e, Q e → Q e.cancelRequested) → ee.orderManager.All Q →
    ee'.orderManager.All Q
  /-- The indices of open orders. -/
  index : ee.orderManager.Indexed → ee'.orderManager.Indexed
  /-- The positions, what they cost and the realised profit. -/
  books : RiskManager.SameBooks ee.riskManager ee'.riskManager
  /-- The peak of the equity. -/
  risen : RiskManager.Risen ee.riskManager ee'.riskManager
  /-- The limit. -/
  maxPosition : ee'.riskManager.maxPosition = ee.riskManager.maxPosition
  /-- The lock. -/
  mtx : ee'.mtx = ee.mtx
  /-- The record of the lock. -/
  relocked : ee'.relocked = ee.relocked

namespace Stays

variable {ee ee' ee'' : ExecutionEngine}

theorem refl (ee : ExecutionEngine) : Stays ee ee :=
  ⟨rfl, rfl, fun _ => rfl, fun _ h => h, fun h => h, .refl _, .refl _, rfl, rfl, rfl⟩

theorem trans (h : Stays ee ee') (h' : Stays ee' ee'') : Stays ee ee'' where
  ids := h'.ids.trans h.ids
  nextId := h'.nextId.trans h.nextId
  entry := fun id => (h'.entry id).trans (h.entry id)
  all := fun hQ hall => h'.all hQ (h.all hQ hall)
  index := fun hindex => h'.index (h.index hindex)
  books := h.books.trans h'.books
  risen := h.risen.trans h'.risen
  maxPosition := h'.maxPosition.trans h.maxPosition
  mtx := h'.mtx.trans h.mtx
  relocked := h'.relocked.trans h.relocked

/-- Marks. -/
theorem takeMarks (ee : ExecutionEngine) (marks : List Mark) : Stays ee (ee.takeMarks marks) where
  ids := rfl
  nextId := rfl
  entry := fun _ => rfl
  all := fun _ h => h
  index := fun h => h
  books := ee.riskManager.sameBooks_marks marks
  risen := ee.riskManager.risen_marks marks
  maxPosition := ee.riskManager.maxPosition_marks marks
  mtx := rfl
  relocked := rfl

/-- A request to cancel. -/
theorem request (ee : ExecutionEngine) (id : ℕ) :
    Stays ee { ee with orderManager := (ee.orderManager.requestCancel id).2 } where
  ids := (ee.orderManager.requestCancel_revises id).ids
  nextId := (ee.orderManager.requestCancel_revises id).nextId
  entry := by
    intro id'
    have h := ee.orderManager.requestCancel_revises id
    show ((ee.orderManager.requestCancel id).2.orders id').map _ = _
    by_cases hid : id' = id
    · rw [hid, h.self, Option.map_map]
      refine congrArg (fun f => (ee.orderManager.orders id).map f) (funext fun e => ?_)
      show (e.cancelRequested.order, e.cancelRequested.filled) = (e.order, e.filled)
      rw [Entry.cancelRequested_order, Entry.cancelRequested_filled]
    · rw [h.of_ne hid]
  all := fun hQ hall => (ee.orderManager.requestCancel_revises id).all hall hQ
  index := fun h => h.requestCancel id
  books := .refl _
  risen := .refl _
  maxPosition := rfl
  mtx := rfl
  relocked := rfl

/-- The positions. -/
theorem position (h : Stays ee ee') (symbolId : ℕ) :
    ee'.riskManager.position symbolId = ee.riskManager.position symbolId :=
  h.books.position symbolId

/-- Entries that are alike. -/
theorem entry_of {o o' : Option Entry} (h : o'.map (fun e => (e.order, e.filled)) =
    o.map fun e => (e.order, e.filled)) {e' : Entry} (he' : o' = some e') :
    ∃ e, o = some e ∧ e'.order = e.order ∧ e'.filled = e.filled := by
  rw [he', Option.map_some] at h
  obtain ⟨e, he, heq⟩ := Option.map_eq_some_iff.mp h.symm
  obtain ⟨horder, hfilled⟩ := Prod.mk.inj heq
  exact ⟨e, he, horder.symm, hfilled.symm⟩

/-- The keys are as good as before. -/
theorem keyed (h : Stays ee ee') (hk : ee.orderManager.Keyed) : ee'.orderManager.Keyed where
  mem_iff := by
    intro id
    have hentry := congrArg Option.isNone (h.entry id)
    rw [Option.isNone_map, Option.isNone_map] at hentry
    rw [h.ids, hk.mem_iff, ne_eq, ne_eq, ← Option.isNone_iff_eq_none, ← Option.isNone_iff_eq_none,
      hentry]
  lt := by
    intro id hm
    rw [h.ids] at hm
    rw [h.nextId]
    exact hk.lt id hm

end Stays

/-- The lock is given back. -/
theorem Stays.unlock {ee ee' : ExecutionEngine} (h : Stays ee ee') : Stays ee.unlock ee'.unlock :=
  ⟨h.ids, h.nextId, h.entry, h.all, h.index, h.books, h.risen, h.maxPosition,
    congrArg (· - 1) h.mtx, h.relocked⟩

/-- Only the clock and the log of the engine went on. -/
def Ticked (sim sim' : ExchangeSimulator) : Prop :=
  ∃ wal clock, sim' = { sim with engine := { sim.engine with wal := wal }, clock := clock }

theorem Ticked.refl (sim : ExchangeSimulator) : Ticked sim sim := ⟨_, _, rfl⟩

theorem Ticked.trans {sim sim' sim'' : ExchangeSimulator} (h : Ticked sim sim')
    (h' : Ticked sim' sim'') : Ticked sim sim'' := by
  obtain ⟨wal, clock, rfl⟩ := h
  obtain ⟨wal', clock', rfl⟩ := h'
  exact ⟨wal', clock', rfl⟩

theorem Ticked.unrested {sim sim' : ExchangeSimulator} (h : Ticked sim sim')
    (hsim : Unrested sim) : Unrested sim' := by
  obtain ⟨wal, clock, rfl⟩ := h
  exact ⟨hsim.users, hsim.idle⟩

section Flatten

open ExecutionEngine (cancelLive flattenOnDrawdown onOrderReportWith)

variable {s s' : System}

/-- One order of a flatten. -/
theorem cancelLive_stays {id : ℕ} (hsim : Unrested s.2)
    (hcall : cancelLive Desk.exchange s id = some s') : Stays s.1 s'.1 ∧ Ticked s.2 s'.2 := by
  rcases ExecutionEngine.cancelLive_cases hcall with ⟨-, rfl⟩ | ⟨e, -, -, hcancel⟩
  · exact ⟨.refl _, .refl _⟩
  · obtain ⟨⟨reports, sim⟩, hrefused, hreports⟩ := Option.bind_eq_some_iff.mp hcancel
    obtain ⟨rfl, -, wal, rfl⟩ := hsim.cancel hrefused
    obtain rfl := Option.some.inj hreports
    exact ⟨.request s.1 id, wal, _, rfl⟩

/-- **A flatten** asks for cancels in vain. -/
theorem flatten_stays (hsim : Unrested s.2)
    (hcall : flattenOnDrawdown Desk.exchange s = some s') : Stays s.1 s'.1 ∧ Ticked s.2 s'.2 := by
  have hloop : ∀ {ids : List ℕ} {s s' : System}, Unrested s.2 →
      ids.foldlM (cancelLive Desk.exchange) s = some s' → Stays s.1 s'.1 ∧ Ticked s.2 s'.2 := by
    intro ids
    induction ids with
    | nil =>
      intro s s' _ hcall
      obtain rfl := Option.some.inj hcall
      exact ⟨.refl _, .refl _⟩
    | cons id ids ih =>
      intro s s' hsim hcall
      obtain ⟨s₁, hfirst, hrest⟩ := Option.bind_eq_some_iff.mp hcall
      obtain ⟨hstays, hticked⟩ := cancelLive_stays hsim hfirst
      obtain ⟨hstays', hticked'⟩ := ih (hticked.unrested hsim) hrest
      exact ⟨hstays.trans hstays', hticked.trans hticked'⟩
  rcases ExecutionEngine.flattenOnDrawdown_cases hcall with ⟨-, rfl⟩ | ⟨-, -, hfold⟩
  · exact ⟨.refl _, .refl _⟩
  · have hissued : Unrested (({ s.1 with flattenIssued := true }, s.2) : System).2 := hsim
    obtain ⟨hstays, hticked⟩ := hloop hissued hfold
    exact ⟨⟨hstays.ids, hstays.nextId, hstays.entry, hstays.all, hstays.index,
      hstays.books, hstays.risen, hstays.maxPosition, hstays.mtx, hstays.relocked⟩, hticked⟩

end Flatten

namespace Desk

/-! ### What the calls come to -/

section Calls

variable {d d' : Desk}

theorem takeMid_system (symbolId : ℕ) (d : Desk) : (d.takeMid symbolId).system = d.system := by
  rw [takeMid]
  split <;> rfl

theorem takeMid_trades (symbolId : ℕ) (d : Desk) :
    (d.takeMid symbolId).1.log.trades = d.1.log.trades := by
  have hset : ∀ (log : TradeLog) (mid : Int64), (log.setMid symbolId mid).trades = log.trades := by
    intro log mid
    rw [TradeLog.setMid]
    split <;> rfl
  rw [takeMid]
  split
  · exact hset d.1.log _
  · rfl

/-- **An event** leaves the orders, the positions and the records alone. -/
theorem event_stays {ev : ItchEvent} (hsim : Unrested d.2) (hev : ev.Foreign)
    (hcall : d.step (.event ev) = some d') :
    Unrested d'.2 ∧ Stays d.1.engine d'.1.engine ∧ d'.1.log = d.1.log ∧
      ∃ ms, ExchangeSimulator.Passes (fun cb => ExchangeSimulator.onMarketOrder cb ev) d.2 d'.2
        ms := by
  have hmarks : ∀ (ms : List (List Mark)) (re : RecordingEngine),
      Stays re.engine (callbacks.markAll ms re).engine ∧
        (callbacks.markAll ms re).log = re.log := by
    intro ms
    induction ms with
    | nil => exact fun re => ⟨.refl _, rfl⟩
    | cons marks ms ih =>
      intro re
      obtain ⟨hstays, hlog⟩ := ih (callbacks.mark marks re)
      exact ⟨(Stays.takeMarks re.engine marks).trans hstays, hlog⟩
  obtain ⟨re, sim⟩ := d
  obtain ⟨re', sim'⟩ := d'
  obtain ⟨hsim', ms, hpass⟩ := hsim.onMarketOrder hev hcall
  have hsame : some (callbacks.markAll ms re, sim') = some (re', sim') :=
    (hpass callbacks re).symm.trans hcall
  obtain ⟨rfl, -⟩ := Prod.mk.inj (Option.some.inj hsame)
  exact ⟨hsim', (hmarks ms re).1, (hmarks ms re).2, ms, hpass⟩

/-- What a decision comes to. -/
inductive Outcome (sig : Signal) (strategyId : ℕ) (d d' : Desk) : Prop
  | ignored (heq : d' = d.takeMid sig.locate)
  | refused (hsent : ¬ d.1.engine.Ignores sig .market)
      (hengine : d'.1.engine =
        { d.1.engine.registered (d.1.engine.orderFor sig strategyId .market) with
          orderManager := (d.1.engine.registered
            (d.1.engine.orderFor sig strategyId .market)).orderManager.onReject
              d.1.engine.idOf }.unlock)
      (hlog : d'.1.log = (d.takeMid sig.locate).1.log) (hsim : d'.2 = d.2)
  | sent (hsent : ¬ d.1.engine.Ignores sig .market)
      (hcheck : d.1.engine.riskManager.checkOrder
        (d.1.engine.orderFor sig strategyId .market) = true)
      (r : ExchangeSubmitResult) (marks : List Mark) (sim : ExchangeSimulator)
      (hsubmit : d.2.submit (d.1.engine.orderFor sig strategyId .market) d.1.engine.idOf .ioc =
        some (r, marks, sim))
      (hsim : Unrested sim)
      (hstays : Stays (((d.1.engine.registered
        (d.1.engine.orderFor sig strategyId .market)).takeMarks marks).takeResult
          (d.1.engine.orderFor sig strategyId .market) r).unlock d'.1.engine)
      (hlog : d'.1.log = (d.takeMid sig.locate).1.log.recordFills
        (d.1.engine.orderFor sig strategyId .market) r)
      (hticked : Ticked sim d'.2)
      (hflat : ∃ s, ExecutionEngine.flattenOnDrawdown exchange (((d.1.engine.registered
        (d.1.engine.orderFor sig strategyId .market)).takeMarks marks).takeResult
          (d.1.engine.orderFor sig strategyId .market) r, sim) = some s ∧ d'.2 = s.2)

/-- **A decision** is ignored, refused by the risk manager, or sent. -/
theorem outcome_of_decision {sig : Signal} {strategyId : ℕ} (hsim : Unrested d.2)
    (hcall : d.step (.decision sig strategyId) = some d') : Outcome sig strategyId d d' := by
  obtain ⟨⟨id, d₁⟩, hplace, rfl⟩ := Option.map_eq_some_iff.mp hcall
  have hsystem := takeMid_system sig.locate d
  have hengine : (d.takeMid sig.locate).1.engine = d.1.engine := (Prod.mk.inj hsystem).1
  have hexchange : (d.takeMid sig.locate).2 = d.2 := (Prod.mk.inj hsystem).2
  have hforget := submitSignal_forget hplace
  have hcases := submitSignal_cases hplace
  rw [hengine, hexchange] at hcases
  rcases hcases with
    ⟨-, rfl⟩ | ⟨hsent, ⟨hcheck, hlog, hsame⟩ | ⟨hcheck, r, marks, sim, s, hsubmit, hflat, rfl⟩⟩
  · exact .ignored rfl
  · rw [hsystem] at hforget
    rcases ExecutionEngine.submitSignal_cases hforget with
      ⟨hignored, -⟩ | ⟨-, ⟨-, hrejected⟩ | ⟨hpassed, -⟩⟩
    · exact absurd hignored hsent
    · exact .refused hsent (congrArg Prod.fst hrejected) hlog hsame
    · exact absurd (hcheck.symm.trans hpassed) (by decide)
  · have hsim₁ : Unrested sim := hsim.submit hsubmit
    have hunrested : Unrested ((((d.1.engine.registered
      (d.1.engine.orderFor sig strategyId .market)).takeMarks marks).takeResult
        (d.1.engine.orderFor sig strategyId .market) r, sim) : System).2 := hsim₁
    obtain ⟨hstays, hticked⟩ := flatten_stays hunrested hflat
    exact .sent hsent hcheck r marks sim hsubmit hsim₁ hstays.unlock rfl hticked ⟨s, hflat, rfl⟩

end Calls

end Desk

end NebulaX
