import NebulaX.Exchange.Registry
import NebulaX.Exchange.Users

/-!
# A strategy that rests nothing

The workers send market orders, and a market order goes to the exchange as an immediate-or-cancel
order. It never hangs in a book. So no slot of the pool has the strategy for its user and nothing
is registered, whatever the market sends, as long as the market does not use the strategy's user
for a reference. Then the loop over the trades never takes the branch of a strategy order: an event
of the market calls back nothing but marks. And the exchange turns away every cancel.

None of this needs a contract about references.

## Main results

* `Unrested.onMarketOrder` — an event passes on marks only, and does the same whoever is called back
* `Unrested.submit` — an immediate-or-cancel order leaves it so
* `Unrested.cancel` — a cancel is not reported
* `submit_fills_le` — the fills of a submit are not more than was sent
* `submit_ioc_traded` — an immediate-or-cancel order that is accepted traded
-/

namespace NebulaX

open Exchange (MatchingEngine BinaryResponse OrderTif Command UsersAre takerQty)

/-! ### Marks only -/

/-- The marks of several broadcasts. -/
def Callbacks.markAll {E : Type} (cb : Callbacks E) (ms : List (List Mark)) (s : E) : E :=
  ms.foldl (fun s marks => cb.mark marks s) s

@[simp] theorem Callbacks.markAll_nil {E : Type} (cb : Callbacks E) (s : E) :
    cb.markAll [] s = s := rfl

theorem Callbacks.markAll_append {E : Type} (cb : Callbacks E) (ms ns : List (List Mark)) (s : E) :
    cb.markAll (ms ++ ns) s = cb.markAll ns (cb.markAll ms s) := List.foldl_append

namespace ExchangeSimulator

/-- **A step passes on marks only**: from `sim` it gets to `sim'`, with the marks `ms`, whoever is
called back. -/
def Passes (step : ∀ {E : Type}, Callbacks E → E × ExchangeSimulator →
    Option (E × ExchangeSimulator)) (sim sim' : ExchangeSimulator) (ms : List (List Mark)) : Prop :=
  ∀ {E : Type} (cb : Callbacks E) (s : E), step cb (s, sim) = some (cb.markAll ms s, sim')

section Steps

variable {E : Type} {cb : Callbacks E} {s s' : E} {sim sim' : ExchangeSimulator}

theorem passes_announce {ev : MarketEvent} {marks : List Mark}
    (h : sim.broadcast ev = some (marks, sim')) :
    Passes (fun cb => announce cb ev) sim sim' [marks] := by
  intro E cb s
  show (sim.broadcast ev).map _ = _
  rw [h]
  rfl

/-- A broadcast leaves the registry alone. -/
theorem broadcast_strategyRefs {ev : MarketEvent} {marks : List Mark}
    (h : sim.broadcast ev = some (marks, sim')) : sim'.strategyRefs = sim.strategyRefs := by
  obtain ⟨view, rfl, -⟩ := broadcast_spec h
  rfl

/-- **The loop over the trades**, while nothing is registered. -/
theorem passes_routeTrades {locate taker : ℕ} {ts : List (ℕ × UInt32 × UInt32)}
    (hidle : sim.strategyRefs = ∅)
    (hcall : routeTrades cb locate taker ts (s, sim) = some (s', sim')) :
    sim'.strategyRefs = ∅ ∧ sim'.engine = sim.engine ∧
      ∃ ms, Passes (fun cb => routeTrades cb locate taker ts) sim sim' ms := by
  induction ts generalizing s sim with
  | nil =>
    obtain ⟨-, rfl⟩ := Prod.mk.inj (Option.some.inj hcall)
    exact ⟨hidle, rfl, [], fun _ _ => rfl⟩
  | cons t ts ih =>
    obtain ⟨⟨s₁, sim₁⟩, hfirst, hrest⟩ := Option.bind_eq_some_iff.mp hcall
    have hother : ¬ (sim.countTrade taker t.1 t.2.2).isStrategyOrder t.1 = true := by
      show ¬ decide (t.1 ∈ sim.strategyRefs) = true
      rw [hidle]
      simp
    rw [routeTrade, if_neg hother] at hfirst
    obtain ⟨marks, hb⟩ := announce_spec hfirst
    have hidle₁ : sim₁.strategyRefs = ∅ := (broadcast_strategyRefs hb).trans hidle
    obtain ⟨hrefs, hengine, ms, hpass⟩ := ih hidle₁ hrest
    have hengine₁ : sim₁.engine = sim.engine := by
      rw [broadcast_engine hb]
      rfl
    refine ⟨hrefs, hengine.trans hengine₁, marks :: ms, fun {E} cb s => ?_⟩
    have hstep : routeTrade cb locate taker (s, sim) t = some (cb.mark marks s, sim₁) := by
      rw [routeTrade, if_neg hother]
      exact passes_announce hb cb s
    show (routeTrade cb locate taker (s, sim) t).bind _ = _
    rw [hstep]
    exact hpass cb _

/-- **An event of the market**, while nothing is registered. -/
theorem passes_onMarketOrder {ev : ItchEvent} (hidle : sim.strategyRefs = ∅)
    (hcall : onMarketOrder cb ev (s, sim) = some (s', sim')) :
    sim'.strategyRefs = ∅ ∧ (sim'.engine = sim.engine ∨
        ∃ rsp, enterMarket sim.engine ev = some (some (rsp, sim'.engine))) ∧
      ∃ ms, Passes (fun cb => onMarketOrder cb ev) sim sim' ms := by
  rcases onMarketOrder_cases hcall with ⟨-, rfl, L, rfl⟩ | ⟨rsp, e', marks, sim₁, henter, hb⟩
  · exact ⟨hidle, Or.inl rfl, [], fun _ _ => rfl⟩
  rw [onMarketOrder_eq s henter hb] at hcall
  obtain ⟨⟨s₂, sim₂⟩, hroute, hcall⟩ := Option.bind_eq_some_iff.mp hcall
  have hidle₁ : sim₁.strategyRefs = ∅ := (broadcast_strategyRefs hb).trans hidle
  obtain ⟨hrefs, hengine, ms, hpass⟩ := passes_routeTrades hidle₁ hroute
  have hengine₂ : sim₂.engine = e' := hengine.trans (broadcast_engine hb)
  have hfirst : ∀ {F : Type} (cb : Callbacks F) (t : F), routeTrades cb (locateOf ev) (takerRef ev)
      (tradesIn rsp) (cb.mark marks t, sim₁) = some (cb.markAll (marks :: ms) t, sim₂) :=
    fun cb t => hpass cb _
  split at hcall
  · next hpos =>
    obtain ⟨last, hlast⟩ := announce_spec hcall
    refine ⟨(broadcast_strategyRefs hlast).trans hrefs, Or.inr ⟨rsp, ?_⟩,
      (marks :: ms) ++ [last], fun {F} cb t => ?_⟩
    · rw [broadcast_engine hlast, hengine₂]
      exact henter
    · show onMarketOrder cb ev (t, sim) = _
      rw [onMarketOrder_eq t henter hb, hfirst, Option.bind_some, if_pos hpos,
        Callbacks.markAll_append]
      exact passes_announce hlast cb _
  · next hzero =>
    obtain ⟨-, rfl⟩ := Prod.mk.inj (Option.some.inj hcall)
    refine ⟨hrefs, Or.inr ⟨rsp, ?_⟩, marks :: ms, fun {F} cb t => ?_⟩
    · rw [hengine₂]
      exact henter
    · show onMarketOrder cb ev (t, sim) = _
      rw [onMarketOrder_eq t henter hb, hfirst, Option.bind_some, if_neg hzero]

end Steps

end ExchangeSimulator

/-! ### Nothing of the strategy rests -/

/-- The call of a foreign event hangs no order of the strategy in a book. -/
theorem ItchEvent.Foreign.hangsFor {e : MatchingEngine} {ev : ItchEvent} {c : Command}
    (h : ev.Foreign) (hc : ev.command e = some c) :
    ∀ user ∈ c.hangsFor, user ≠ kStrategyUserId := by
  intro user huser
  cases ev with
  | add =>
    obtain rfl := Option.some.inj hc
    obtain rfl := Option.some.inj huser
    exact h
  | replace =>
    obtain rfl := Option.some.inj hc
    obtain rfl := Option.some.inj huser
    exact h
  | delete =>
    obtain rfl := Option.some.inj hc
    exact absurd huser (Option.some_ne_none _).symm
  | cancel =>
    obtain rfl := Option.some.inj hc
    exact absurd huser (Option.some_ne_none _).symm
  | book => exact absurd hc (by simp [ItchEvent.command])

/-- **No slot has the strategy for its user**, and nothing is registered. -/
structure Unrested (sim : ExchangeSimulator) : Prop where
  /-- The slots of the pool. -/
  users : UsersAre (· ≠ kStrategyUserId) sim.engine.shared
  /-- The registry. -/
  idle : sim.strategyRefs = ∅

namespace Unrested

open ExchangeSimulator

variable {E : Type} {cb : Callbacks E} {s s' : E} {sim sim' : ExchangeSimulator}

theorem new (capacity : ℕ) (view : Option ℕ)
    (sink : MarketEvent → Option Market.OrderBookConsumer → List Mark) :
    Unrested (.new capacity view sink) :=
  ⟨fun _ => show (0 : ℕ) ≠ kStrategyUserId by decide, rfl⟩

/-- **An event of the market** passes on marks only. -/
theorem onMarketOrder {ev : ItchEvent} (h : Unrested sim) (hev : ev.Foreign)
    (hcall : ExchangeSimulator.onMarketOrder cb ev (s, sim) = some (s', sim')) :
    Unrested sim' ∧
      ∃ ms, Passes (fun cb => ExchangeSimulator.onMarketOrder cb ev) sim sim' ms := by
  obtain ⟨hidle, hengine, hpass⟩ := passes_onMarketOrder h.idle hcall
  refine ⟨⟨?_, hidle⟩, hpass⟩
  rcases hengine with hengine | ⟨rsp, henter⟩
  · rw [hengine]
    exact h.users
  · obtain ⟨c, hc, hexec⟩ := exec_of_enterMarket henter
    exact Exchange.exec_users h.users (hev.hangsFor hc) hexec

/-- **A submit** of an immediate-or-cancel order. -/
theorem submit {order : Order} {orderId : ℕ} {r : ExchangeSubmitResult} {marks : List Mark}
    (h : Unrested sim) (hcall : sim.submit order orderId .ioc = some (r, marks, sim')) :
    Unrested sim' := by
  obtain ⟨rsp, e', out, hexec, hfold, -⟩ := submit_spec hcall
  obtain ⟨hengine, -, hrefs⟩ := takeAnswers_frame hfold
  have hengine : sim'.engine = e' := hengine
  constructor
  · rw [hengine]
    refine Exchange.exec_users h.users (fun user huser => ?_) hexec
    exact absurd huser (Option.some_ne_none _).symm
  · refine Finset.eq_empty_of_forall_notMem fun ref hm => ?_
    rcases (hrefs ref).mp hm with hm | ⟨-, answer, hok⟩
    · have hm : ref ∈ sim.strategyRefs := hm
      rw [h.idle] at hm
      exact absurd hm (Finset.notMem_empty ref)
    · exact (Exchange.processAdd_ioc_frames hexec).1 answer hok

/-- **A cancel** of the strategy is turned away, and only the clock and the log of the engine go
on. -/
theorem cancel {orderId symbolId : ℕ} {reports : List Fill} (h : Unrested sim)
    (hcall : sim.cancel orderId symbolId kStrategyUserId = some (reports, sim')) :
    reports = [] ∧ Unrested sim' ∧ ∃ wal,
      sim' = { sim.advance with engine := { sim.engine with wal := wal } } := by
  obtain ⟨rsp, e', hexec, heq⟩ := cancel_spec hcall
  rcases Exchange.processCancel_cases hexec with
    ⟨-, rfl, wal, rfl⟩ | ⟨i, -, -, -, huser, -⟩
  · obtain ⟨rfl, rfl⟩ := Prod.mk.inj heq
    exact ⟨rfl, ⟨h.users, h.idle⟩, wal, rfl⟩
  · exact absurd huser (h.users i)

end Unrested

/-! ### The fills of a submit -/

namespace Exchange

open MatchingEngine

/-- One trade takes from what the taker has left. -/
theorem tradeWith_takerQty {L i : ℕ} {buy : Bool} {s s' : Matching}
    (hcall : tradeWith L buy s i = some s') :
    takerQty s'.out + s'.order.remainingQty.toNat =
      takerQty s.out + s.order.remainingQty.toNat := by
  rw [tradeWith] at hcall
  obtain ⟨e, -, rfl⟩ := Option.map_eq_some_iff.mp hcall
  generalize hq : min s.order.remainingQty (s.engine.shared.pool.storage i).remainingQty = q
  have hle : q.toNat ≤ s.order.remainingQty.toNat := by
    rw [← hq, toNat_min]
    exact Nat.min_le_left _ _
  show takerQty (s.out ++ [_]) + (s.order.remainingQty - q).toNat = _
  rw [takerQty, List.map_append, List.sum_append, ← takerQty]
  show takerQty s.out + (q.toNat + 0) + _ = _
  rw [UInt32.toNat_sub_of_le _ _ (UInt32.le_iff_toNat_le.mpr hle)]
  omega

/-- **An add** takes no more than it is for, and nothing in a symbol that has no book. -/
theorem processAdd_takerQty_le {e e' : MatchingEngine} {L ref user : ℕ} {side : Side}
    {price quantity : UInt32} {tif : OrderTif} {rsp : List BinaryResponse}
    (hcall : e.processAdd L ref side price quantity user tif = some (rsp, e')) :
    takerQty rsp ≤ quantity.toNat ∧ (kMaxLocate ≤ L → takerQty rsp = 0) := by
  have hfar : kMaxLocate ≤ L → takerQty rsp = 0 := by
    intro hL
    have hbook : e.bookFor L = none := if_neg (Nat.not_lt.mpr hL)
    simp only [processAdd, hbook] at hcall
    obtain ⟨rfl, -⟩ := Prod.mk.inj (Option.some.inj hcall)
    rfl
  refine ⟨?_, hfar⟩
  rcases processAdd_cases hcall with ⟨code, rfl, -⟩ | haccept
  · exact Nat.zero_le _
  · obtain ⟨entry, s, hmatch, hfinish⟩ := acceptAdd_cases haccept
    have hloop : takerQty s.out + s.order.remainingQty.toNat = quantity.toNat :=
      matchLoop_keeps (I := fun s => takerQty s.out + s.order.remainingQty.toNat = quantity.toNat)
        (fun hs htrade => (tradeWith_takerQty htrade).trans hs) (Nat.zero_add _) hmatch
    obtain ⟨⟨tail, rfl, htail⟩, -⟩ := finishAdd_cases hfinish
    have hnone : takerQty tail = 0 := by
      refine List.sum_eq_zero fun n hn => ?_
      obtain ⟨f, hf, rfl⟩ := List.mem_map.mp hn
      have hf := htail f hf
      cases f <;> simp_all [BinaryResponse.isTrade, BinaryResponse.tradedQty]
    rw [takerQty, List.map_append, List.sum_append, ← takerQty, ← takerQty, hnone]
    omega

end Exchange

namespace ExchangeSimulator

/-- **The fills of a submit** are not more than was sent, there are none in a symbol that has no
book, and none of an order that was not accepted. -/
theorem submit_fills_le {sim sim' : ExchangeSimulator} {order : Order} {orderId : ℕ}
    {tif : OrderTif} {r : ExchangeSubmitResult} {marks : List Mark}
    (hcall : sim.submit order orderId tif = some (r, marks, sim')) :
    (r.fills.map fun f => f.filledQty.toNat).sum ≤ order.quantity.toUInt32.toNat ∧
      (MatchingEngine.kMaxLocate ≤ order.symbolId →
        (r.fills.map fun f => f.filledQty.toNat).sum = 0) ∧
      (¬ r.accepted = true → r.fills = []) := by
  obtain ⟨rsp, e', out, hexec, hfold, rfl⟩ := submit_spec hcall
  obtain ⟨-, hfills, haccepted⟩ := takeAnswers_trades hfold
  have hfills : out.fills = (tradesIn rsp).map _ := hfills
  have hsum : (out.fills.map fun f => f.filledQty.toNat).sum = takerQty rsp := by
    rw [hfills, List.map_map, takerQty_eq_sum]
    refine congrArg List.sum (List.map_congr_left fun t _ => ?_)
    exact UInt32.toNat_toUInt64 _
  obtain ⟨hle, hfar⟩ := Exchange.processAdd_takerQty_le hexec
  refine ⟨hsum.trans_le hle, fun hL => hsum.trans (hfar hL), fun hrejected => ?_⟩
  -- a trade among the answers would have been an acceptance
  have hnone : tradesIn rsp = [] := by
    refine List.filterMap_eq_nil_iff.mpr fun f hf => ?_
    have hno : ¬ accepts f = true := fun ha => hrejected (haccepted.mpr (Or.inr ⟨f, hf, ha⟩))
    cases f with
    | trade => exact absurd rfl hno
    | ok => rfl
    | filled => rfl
    | cancelled => rfl
    | error => rfl
  show out.fills = []
  rw [hfills, hnone]
  rfl

/-- **An immediate-or-cancel order that is accepted** traded. -/
theorem submit_ioc_traded {sim sim' : ExchangeSimulator} {order : Order} {orderId : ℕ}
    {r : ExchangeSubmitResult} {marks : List Mark}
    (hcall : sim.submit order orderId .ioc = some (r, marks, sim'))
    (haccepted : r.accepted = true) :
    r.fills ≠ [] := by
  obtain ⟨rsp, e', out, hexec, hfold, rfl⟩ := submit_spec hcall
  obtain ⟨-, hfills, hiff⟩ := takeAnswers_trades hfold
  have hfills : out.fills = (tradesIn rsp).map _ := hfills
  obtain ⟨hquiet, hfilled⟩ := Exchange.processAdd_ioc_frames hexec
  have htrade : ∃ f ∈ rsp, f.isTrade = true := by
    obtain ⟨f, hf, ha⟩ := (hiff.mp haccepted).resolve_left Bool.false_ne_true
    cases f with
    | trade => exact ⟨_, hf, rfl⟩
    | ok r => exact absurd hf (hquiet r)
    | filled r => exact hfilled r hf
    | cancelled => exact absurd ha Bool.false_ne_true
    | error => exact absurd ha Bool.false_ne_true
  obtain ⟨f, hf, htrade⟩ := htrade
  show out.fills ≠ []
  rw [hfills, ne_eq, List.map_eq_nil_iff, tradesIn, List.filterMap_eq_nil_iff]
  intro hnone
  have hf := hnone f hf
  cases f with
  | trade => exact absurd hf (Option.some_ne_none _)
  | ok => exact Bool.false_ne_true htrade
  | filled => exact Bool.false_ne_true htrade
  | cancelled => exact Bool.false_ne_true htrade
  | error => exact Bool.false_ne_true htrade

end ExchangeSimulator

end NebulaX
