import NebulaX.Exchange.ViewMirror
import NebulaX.Sim.DeskRecords

/-!
# The desk and the market

`order_id_base` is there to keep the ids of the strategy apart from the references of the market.
In a run where it does, the market keeps the contract about references, and replaces come with
something to trade, the engine is one that can be reached and holds orders of the market only. So
the two sides of a quote do not meet, and what the strategy holds of the market is all of it.

A fill is compared with the mid at the time of the decision, if there was a quote. The price of a
buyer is above that mid and the price of a seller not above it. Without a quote the mid is that of
an earlier decision, and a slip can be negative.

## Main results

* `toInt_mid` — the mid in whole numbers
* `decision_slip` — the records of a decision that is made on a quote
* `runs_slip` — no slip is negative in a run of such decisions
* `runs_mirror` — the view of the strategy holds all that rests
-/

namespace NebulaX

open Exchange (MatchingEngine OrderData Command Effect Fresh Owned IsBest effect_of_exec)
open Market (OrderSlotView)

/-! ### Orders that do not stay -/

/-- What an immediate-or-cancel order leaves of the others. -/
theorem Exchange.Effect.owned_ioc {P : ℕ → ℕ → Prop} {e : MatchingEngine}
    (hinv : Exchange.Inv e) {L ref user : ℕ} {side : Exchange.Side} {price quantity : UInt32}
    {rsp : List Exchange.BinaryResponse} {R' : Exchange.Resting}
    (heff : Effect e (.add L ref side price quantity user .ioc) rsp R')
    (h : Owned P e.resting) : Owned P R' :=
  heff.every (Exchange.survives_owned P) hinv h fun _ _ _ ha _ => nomatch ha

/-- The clock and the log of the engine leave the books alone. -/
theorem Ticked.inv {sim sim' : ExchangeSimulator} (h : Ticked sim sim')
    (hinv : Exchange.Inv sim.engine) : Exchange.Inv sim'.engine := by
  obtain ⟨wal, clock, rfl⟩ := h
  obtain ⟨G, fl, hrep⟩ := hinv
  exact ⟨G, fl, hrep.holds, hrep.level, hrep.side, hrep.price, hrep.fifo, hrep.seq_lt,
    hrep.range, hrep.locate⟩

/-! ### The mid -/

/-- The mid of two prices in whole numbers. -/
theorem toInt_mid (bid ask : UInt32) :
    ((tick bid + tick ask) / 2).toInt = ((bid.toNat : ℤ) + ask.toNat) / 2 := by
  have hbid := bid.toNat_lt
  have hask := ask.toNat_lt
  have hsum : (tick bid + tick ask).toInt = (bid.toNat : ℤ) + ask.toNat := by
    rw [Int64.toInt_add, toInt_tick, toInt_tick]
    exact Int.bmod_eq_of_le (by omega) (by omega)
  rw [Int64.toInt_div_of_ne_right _ _ (by decide), hsum]
  exact Int.tdiv_eq_ediv_of_nonneg (by omega)

/-- `slip`, as `trades.csv` has it. -/
def TradeRecord.slip (t : TradeRecord) : Int64 :=
  if t.side = .buy then t.price - t.mid else t.mid - t.price

namespace Desk

/-! ### The contract -/

/-- A reference that is below the ids of the strategy. -/
def Unissued (d : Desk) (ref : ℕ) : Prop :=
  ref < d.1.engine.idOf ∧ d.1.engine.orderManager.order ref = none

/-- The market keeps the contract about references, with references of its own, and a replace has
something to trade. -/
def Proper (d : Desk) : Call → Prop
  | .event ev => ev.Foreign ∧ ev.Positive ∧ ev.Allowed d.2.engine.resting ∧
    ∀ ref ∈ ev.refs, d.Unissued ref
  | .decision .. => True

/-- It does not use the strategy's user. -/
theorem Proper.foreign {d : Desk} {c : Call} (h : Proper d c) : Foreign d c := by
  cases c with
  | event => exact h.1
  | decision => trivial

theorem Runs.foreign {d : Desk} (h : Runs Proper d) : Runs Foreign d :=
  h.mono fun _ _ hc => hc.foreign

/-- **The ids from `base` on were given out**, one after the other. -/
structure Issued (base : ℕ) (om : OrderManager) : Prop where
  /-- The first one. -/
  le : base ≤ om.nextId
  /-- All of them. -/
  mem_iff : ∀ id, id ∈ om.ids ↔ base ≤ id ∧ id < om.nextId

theorem Issued.newOrder {base : ℕ} {om : OrderManager} (h : Issued base om) (hkeyed : om.Keyed)
    (order : Order) : Issued base (om.newOrder order).2 := by
  have hnew : (om.orders om.nextId).isSome ≠ true := by
    rw [hkeyed.next_none]
    exact Bool.false_ne_true
  refine ⟨h.le.trans (Nat.le_succ _), fun id => ?_⟩
  show id ∈ (if (om.orders om.nextId).isSome then om.ids else om.ids ++ [om.nextId]) ↔
    base ≤ id ∧ id < om.nextId + 1
  rw [if_neg hnew, List.mem_append, List.mem_singleton, h.mem_iff]
  have hle := h.le
  omega

theorem Issued.congr {base : ℕ} {om om' : OrderManager} (h : Issued base om)
    (hids : om'.ids = om.ids) (hnext : om'.nextId = om.nextId) : Issued base om' := by
  refine ⟨?_, fun id => ?_⟩
  · rw [hnext]
    exact h.le
  · rw [hids, hnext]
    exact h.mem_iff id

/-- **The market of the desk**: the books are well formed and uncrossed, and what rests in them are
orders of the market, whose references are below the ids of the strategy. -/
structure Apart (base : ℕ) (d : Desk) : Prop where
  /-- The books. -/
  inv : Exchange.Inv d.2.engine
  /-- Bids and asks that cross have one user. -/
  uncrossed : Exchange.Uncrossed d.2.engine.resting
  /-- An order has its reference for a user, and it is below the ids. -/
  owned : Owned (fun ref user => user = ref ∧ ref < base) d.2.engine.resting
  /-- The ids. -/
  issued : Issued base d.1.engine.orderManager

section Apart

variable {base : ℕ} {d d' : Desk}

/-- No id of the strategy rests. -/
theorem Apart.fresh (h : Apart base d) {id : ℕ} (hid : base ≤ id) :
    Fresh d.2.engine.resting id := by
  intro L b x hx hxid
  have hlt := (h.owned L b x hx).2.2
  omega

/-- The reference of an event is not one. -/
theorem Apart.below (h : Apart base d) (hkeyed : d.1.engine.orderManager.Keyed) {ref : ℕ}
    (href : d.Unissued ref) : ref < base := by
  by_contra hle
  have hmem := (h.issued.mem_iff ref).mpr ⟨Nat.le_of_not_lt hle, href.1⟩
  have hsome := (hkeyed.mem_iff ref).mp hmem
  exact hsome (Option.map_eq_none_iff.mp href.2)

/-- The clock and the log of the engine leave it alone. -/
theorem Apart.ticked {re re' : RecordingEngine} {sim sim' : ExchangeSimulator}
    (h : Apart base (re, sim)) (ht : Ticked sim sim') (hid : Issued base re'.engine.orderManager) :
    Apart base (re', sim') := by
  have hinv := ht.inv h.inv
  obtain ⟨wal, clock, rfl⟩ := ht
  exact ⟨hinv, h.uncrossed, h.owned, hid⟩

/-- So does the mid for the records. -/
theorem Apart.takeMid (h : Apart base d) (symbolId : ℕ) : Apart base (d.takeMid symbolId) := by
  obtain ⟨hengine, hsame⟩ := Prod.mk.inj (takeMid_system symbolId d)
  refine ⟨?_, ?_, ?_, ?_⟩
  · rw [hsame]
    exact h.inv
  · rw [hsame]
    exact h.uncrossed
  · rw [hsame]
    exact h.owned
  · rw [hengine]
    exact h.issued

/-- **An event of the market.** -/
theorem Apart.event (h : Apart base d) {ev : ItchEvent} (hbooked : Booked d)
    (hc : Proper d (.event ev)) (hcall : d.step (.event ev) = some d') : Apart base d' := by
  obtain ⟨hforeign, hpositive, hallowed, hrefs⟩ := hc
  obtain ⟨-, hstays, -, -⟩ := event_stays hbooked.unrested hforeign hcall
  have hissued := h.issued.congr hstays.ids hstays.nextId
  rcases (ExchangeSimulator.passes_onMarketOrder hbooked.unrested.idle hcall).2.1 with
    hsame | ⟨rsp, henter⟩
  · refine ⟨?_, ?_, ?_, hissued⟩
    · rw [hsame]
      exact h.inv
    · rw [hsame]
      exact h.uncrossed
    · rw [hsame]
      exact h.owned
  · obtain ⟨c, hcmd, hexec⟩ := exec_of_enterMarket henter
    have hallowed : c.Allowed d.2.engine.resting := (ItchEvent.allowed_iff hcmd).mpr hallowed
    have heff := effect_of_exec h.inv hallowed hexec
    have hnew : ∀ p ∈ c.enters, p.2 = p.1 ∧ p.1 < base := by
      intro p hp
      cases ev with
      | add =>
        obtain rfl := Option.some.inj hcmd
        obtain rfl := Option.some.inj hp
        exact ⟨rfl, h.below hbooked.keyed (hrefs _ (by simp [ItchEvent.refs]))⟩
      | replace =>
        obtain rfl := Option.some.inj hcmd
        obtain rfl := Option.some.inj hp
        exact ⟨rfl, h.below hbooked.keyed (hrefs _ (by simp [ItchEvent.refs]))⟩
      | delete =>
        obtain rfl := Option.some.inj hcmd
        exact absurd hp (by simp [Command.enters])
      | cancel =>
        obtain rfl := Option.some.inj hcmd
        exact absurd hp (by simp [Command.enters])
      | book => exact absurd hcmd (by simp [ItchEvent.command])
    exact ⟨(Exchange.keeps_of_exec h.inv hallowed hexec).inv, heff.uncrossed h.inv h.uncrossed,
      heff.owned (P := fun ref user => user = ref ∧ ref < base) h.inv (hpositive.command hcmd) hnew
        h.owned, hissued⟩

/-- **An order of the strategy** does not stay. -/
theorem Apart.submit (h : Apart base d) {order : Order} {r : ExchangeSubmitResult}
    {marks : List Mark} {sim : ExchangeSimulator}
    (hsubmit : d.2.submit order d.1.engine.idOf .ioc = some (r, marks, sim)) :
    Apart base (d.1, sim) := by
  obtain ⟨rsp, e', out, hexec, hfold, -⟩ := ExchangeSimulator.submit_spec hsubmit
  have hengine : sim.engine = e' := (ExchangeSimulator.takeAnswers_frame hfold).1
  have hallowed : (ExchangeSimulator.submitCommand order d.1.engine.idOf .ioc).Allowed
    d.2.engine.resting := h.fresh h.issued.le
  have heff := effect_of_exec h.inv hallowed hexec
  refine ⟨?_, ?_, ?_, h.issued⟩
  · rw [hengine]
    exact (Exchange.keeps_of_exec h.inv hallowed hexec).inv
  · rw [hengine]
    exact heff.uncrossed h.inv h.uncrossed
  · rw [hengine]
    exact heff.owned_ioc h.inv h.owned

/-- **Every call keeps the market apart.** -/
theorem Apart.step (h : Apart base d) (hbooked : Booked d) {c : Call} (hc : Proper d c)
    (hcall : d.step c = some d') : Apart base d' := by
  cases c with
  | event ev => exact h.event hbooked hc hcall
  | decision sig strategyId =>
    have hissued := h.issued.newOrder hbooked.keyed (d.1.engine.orderFor sig strategyId .market)
    rcases outcome_of_decision hbooked.unrested hcall with
      heq | ⟨-, hengine, -, hsame⟩ | ⟨-, -, r, marks, sim, hsubmit, -, hstays, -, hticked, -⟩
    · rw [heq]
      exact h.takeMid sig.locate
    · refine Apart.ticked h ?_ ?_
      · rw [hsame]
        exact .refl _
      · have hrevises := OrderManager.onReject_revises (d.1.engine.registered
          (d.1.engine.orderFor sig strategyId .market)).orderManager d.1.engine.idOf
        rw [hengine]
        exact hissued.congr hrevises.ids hrevises.nextId
    · refine (h.submit hsubmit).ticked hticked ?_
      have hrevises := ((d.1.engine.registered (d.1.engine.orderFor sig strategyId
        .market)).takeMarks marks).takeResult_revises
          (d.1.engine.orderFor sig strategyId .market) r
      exact hissued.congr (hstays.ids.trans hrevises.ids) (hstays.nextId.trans hrevises.nextId)

theorem apart_new (visits : VisitOrder) (base : UInt64) (rm : RiskManager) (baseQty : UInt64)
    {capacity : ℕ} (view : Option ℕ)
    (sink : MarketEvent → Option Market.OrderBookConsumer → List Mark) (hlo : 2 ≤ capacity)
    (hhi : capacity ≤ 2 ^ 31) :
    Apart base.toNat (new visits base rm baseQty (.new capacity view sink)) := by
  have hstart : Exchange.Reachable (ExchangeSimulator.new capacity view sink).engine :=
    .start capacity none none hlo hhi
  refine ⟨hstart.inv, hstart.uncrossed, fun L b x hx => ?_, le_rfl, fun id => ?_⟩
  · have hx : x ∈ (ExchangeSimulator.new capacity view sink).engine.resting L b := hx
    rw [Exchange.resting_new rfl] at hx
    exact absurd hx List.not_mem_nil
  · exact iff_of_false List.not_mem_nil fun h => absurd (h.1.trans_lt h.2) (lt_irrefl _)

theorem Runs.apart (h : Runs Proper d) : ∃ base, Apart base d := by
  induction h with
  | start visits base rm baseQty capacity view sink hrm hlo hhi =>
    exact ⟨base.toNat, apart_new visits base rm baseQty view sink hlo hhi⟩
  | call c hr hc hcall ih =>
    obtain ⟨base, h⟩ := ih
    exact ⟨base, h.step hr.foreign.booked hc hcall⟩

end Apart

/-! ### The slip of a fill -/

section Slip

variable {base : ℕ} {d d' : Desk} {sig : Signal} {strategyId : ℕ}

/-- **A quote** of the desk: the mid is the middle of the best prices, and these do not meet. -/
theorem Apart.quote (h : Apart base d) {L : ℕ} (hquoted : 0 < d.liveMid L) :
    ∃ bid ask : UInt32, IsBest true (d.2.engine.resting L true) bid ∧
      IsBest false (d.2.engine.resting L false) ask ∧ bid < ask ∧
      (d.liveMid L).toInt = ((bid.toNat : ℤ) + ask.toNat) / 2 := by
  cases hq : d.queryBook L with
  | none =>
    rw [liveMid, hq] at hquoted
    exact absurd hquoted (by decide)
  | some q =>
    obtain ⟨bid, ask, hbid, hask, hqbid, hqask, hpos⟩ := ExchangeSimulator.bookQuote_spec h.inv hq
    have hown : Owned (fun ref user => user = ref) d.2.engine.resting :=
      fun L b x hx => ⟨(h.owned L b x hx).1, (h.owned L b x hx).2.1⟩
    refine ⟨bid, ask, hbid, hask,
      Exchange.lt_of_isBest h.uncrossed hown h.inv.refsUnique hbid hask, ?_⟩
    rw [liveMid, hq]
    dsimp only
    rw [if_pos hpos, hqbid, hqask]
    exact toInt_mid bid ask

/-- The mid of a quote is the mid of the records. -/
theorem takeMid_midOf {L : ℕ} (hquoted : 0 < d.liveMid L) :
    (d.takeMid L).1.log.midOf L = d.liveMid L := by
  have hnonneg : 0 ≤ d.liveMid L := Int64.le_of_lt hquoted
  have hset : (d.takeMid L).1.log.midMap L = some (d.liveMid L) := by
    rw [takeMid, if_pos hquoted]
    show (d.1.log.setMid L (d.liveMid L)).midMap L = _
    rw [TradeLog.setMid, if_pos hnonneg]
    exact Function.update_self ..
  rw [TradeLog.midOf, hset]

/-- **The records of a decision** that is made on a quote: they have the mid of that quote, a buyer
paid more than it, and a seller did not get more. -/
theorem decision_slip (h : Apart base d) (hsim : Unrested d.2) (hquoted : 0 < d.liveMid sig.locate)
    (hcall : d.step (.decision sig strategyId) = some d') :
    ∃ ts, d'.1.log.trades = d.1.log.trades ++ ts ∧
      ∀ t ∈ ts, 0 < t.mid ∧ 0 ≤ t.slip ∧ (t.side = .buy → 0 < t.slip) := by
  have hmid := takeMid_trades sig.locate d
  rcases outcome_of_decision hsim hcall with
    heq | ⟨-, -, hlog, -⟩ | ⟨-, -, r, marks, sim, hsubmit, -, -, hlog, -, -⟩
  · refine ⟨[], ?_, fun t ht => absurd ht List.not_mem_nil⟩
    rw [heq, hmid, List.append_nil]
  · refine ⟨[], ?_, fun t ht => absurd ht List.not_mem_nil⟩
    rw [hlog, hmid, List.append_nil]
  · generalize horder : d.1.engine.orderFor sig strategyId .market = order at *
    have hsymbol : order.symbolId = sig.locate := by rw [← horder]; rfl
    obtain ⟨-, -, hrejected⟩ := ExchangeSimulator.submit_fills_le hsubmit
    have htrades := (d.takeMid sig.locate).1.log.recordFills_trades order hrejected
    rw [hmid, ← hlog] at htrades
    refine ⟨_, htrades, fun t ht => ?_⟩
    obtain ⟨f, hf, rfl⟩ := List.mem_map.mp ht
    obtain ⟨x, hx, hprice, -⟩ := ExchangeSimulator.fill_maker h.inv (h.fresh h.issued.le) hsubmit hf
    obtain ⟨bid, ask, hbid, hask, hlt, hmiddle⟩ := h.quote hquoted
    have hlt := UInt32.lt_iff_toNat_lt.mp hlt
    have hbidlt := bid.toNat_lt
    have hasklt := ask.toNat_lt
    have hxlt := x.price.toNat_lt
    have hnot : ¬ d.liveMid sig.locate < 0 := Int64.not_lt.mpr (Int64.le_of_lt hquoted)
    have hrecord : ((d.takeMid sig.locate).1.log.fillRecord order f).mid =
        d.liveMid sig.locate := by
      rw [TradeLog.fillRecord, hsymbol, takeMid_midOf hquoted]
      exact if_neg hnot
    have hslip : ((d.takeMid sig.locate).1.log.fillRecord order f).slip =
        if order.side = .buy then tick x.price - d.liveMid sig.locate
        else d.liveMid sig.locate - tick x.price := by
      rw [TradeRecord.slip, hrecord, ← hprice]
      rfl
    rw [hsymbol] at hx
    rw [hrecord, hslip]
    refine ⟨hquoted, ?_⟩
    by_cases hbuy : order.side = .buy
    · -- it bought from an order that rests at the ask or above
      have hside : (ExchangeSimulator.takerSide order).isBuy = true := by
        rw [ExchangeSimulator.takerSide, if_pos hbuy]
        rfl
      rw [hside, Bool.not_true] at hx
      have hle : ask.toNat ≤ x.price.toNat :=
        UInt32.le_iff_toNat_le.mp (UInt32.not_lt.mp (hask.best x hx))
      have hdiff : (tick x.price - d.liveMid sig.locate).toInt =
          (x.price.toNat : ℤ) - ((bid.toNat : ℤ) + ask.toNat) / 2 := by
        rw [Int64.toInt_sub, toInt_tick, hmiddle]
        exact Int.bmod_eq_of_le (by omega) (by omega)
      have hpos : 0 < tick x.price - d.liveMid sig.locate := by
        rw [Int64.lt_iff_toInt_lt, hdiff, Int64.toInt_zero]
        omega
      rw [if_pos hbuy]
      exact ⟨Int64.le_of_lt hpos, fun _ => hpos⟩
    · -- it sold to an order that rests at the bid or below
      have hside : (ExchangeSimulator.takerSide order).isBuy = false := by
        rw [ExchangeSimulator.takerSide, if_neg hbuy]
        rfl
      rw [hside, Bool.not_false] at hx
      have hle : x.price.toNat ≤ bid.toNat :=
        UInt32.le_iff_toNat_le.mp (UInt32.not_lt.mp (hbid.best x hx))
      have hdiff : (d.liveMid sig.locate - tick x.price).toInt =
          ((bid.toNat : ℤ) + ask.toNat) / 2 - (x.price.toNat : ℤ) := by
        rw [Int64.toInt_sub, toInt_tick, hmiddle]
        exact Int.bmod_eq_of_le (by omega) (by omega)
      rw [if_neg hbuy]
      refine ⟨?_, fun hs => absurd hs hbuy⟩
      rw [Int64.le_iff_toInt_le, hdiff, Int64.toInt_zero]
      omega

end Slip

/-! ### What the strategy holds of the market -/

/-- The market keeps the contract, its adds are complete and find room, and no index has dropped an
insert before. -/
def Shown (d : Desk) (c : Call) : Prop :=
  Proper d c ∧ match c with
    | .event ev => ev.Enters d.2 ∧ d.2.Complete
    | .decision .. => True

section Mirror

open ExecutionEngine (cancelLive flattenOnDrawdown)

variable {base : ℕ} {d d' : Desk} {s s' : System}

/-- **One order of a flatten** is not one of the market. -/
theorem cancelLive_mirrored {id : ℕ} (h : Mirrored {ref | base ≤ ref} [] s.2)
    (hknown : ∀ e, s.1.orderManager.orders id = some e →
      base ≤ id ∧ Fresh s.2.engine.resting id) (hsim : Unrested s.2)
    (hcall : cancelLive Desk.exchange s id = some s') : Mirrored {ref | base ≤ ref} [] s'.2 := by
  rcases ExecutionEngine.cancelLive_cases hcall with ⟨-, rfl⟩ | ⟨e, he, -, hcancel⟩
  · exact h
  · obtain ⟨⟨reports, sim⟩, hrefused, hreports⟩ := Option.bind_eq_some_iff.mp hcancel
    obtain ⟨rfl, -⟩ := hsim.cancel hrefused
    obtain rfl := Option.some.inj hreports
    obtain ⟨hid, hfresh⟩ := hknown e he
    exact h.strategy (c := .cancel id e.order.symbolId kStrategyUserId)
      ⟨fun L b x hx hxid => absurd hxid (hfresh L b x hx), hid⟩
      (Option.map_eq_some_iff.mpr ⟨_, hrefused, rfl⟩)

/-- **A flatten** leaves the view as it is. -/
theorem flatten_mirrored (h : Mirrored {ref | base ≤ ref} [] s.2)
    (hknown : ∀ id e, s.1.orderManager.orders id = some e →
      base ≤ id ∧ Fresh s.2.engine.resting id) (hsim : Unrested s.2)
    (hcall : flattenOnDrawdown Desk.exchange s = some s') :
    Mirrored {ref | base ≤ ref} [] s'.2 := by
  have hloop : ∀ {ids : List ℕ} {s s' : System}, Mirrored {ref | base ≤ ref} [] s.2 →
      (∀ id e, s.1.orderManager.orders id = some e →
        base ≤ id ∧ Fresh s.2.engine.resting id) → Unrested s.2 →
      ids.foldlM (cancelLive Desk.exchange) s = some s' → Mirrored {ref | base ≤ ref} [] s'.2 := by
    intro ids
    induction ids with
    | nil =>
      intro s s' h _ _ hcall
      obtain rfl := Option.some.inj hcall
      exact h
    | cons id ids ih =>
      intro s s' h hknown hsim hcall
      obtain ⟨s₁, hfirst, hrest⟩ := Option.bind_eq_some_iff.mp hcall
      obtain ⟨hstays, hticked⟩ := cancelLive_stays hsim hfirst
      refine ih (cancelLive_mirrored h (hknown id) hsim hfirst) (fun id e he => ?_)
        (hticked.unrested hsim) hrest
      obtain ⟨e', he', -⟩ := Stays.entry_of (hstays.entry id) he
      obtain ⟨wal, clock, heq⟩ := hticked
      rw [heq]
      exact hknown id e' he'
  rcases ExecutionEngine.flattenOnDrawdown_cases hcall with ⟨-, rfl⟩ | ⟨-, -, hfold⟩
  · exact h
  · exact hloop (s := ({ s.1 with flattenIssued := true }, s.2)) h hknown hsim hfold

/-- No order of the strategy rests, once the last one was answered. -/
theorem Apart.known (h : Apart base d) (hbooked : Booked d) {order : Order}
    {r : ExchangeSubmitResult} {marks : List Mark} {sim : ExchangeSimulator}
    (hsubmit : d.2.submit order d.1.engine.idOf .ioc = some (r, marks, sim)) (id : ℕ) (e : Entry)
    (he : (((d.1.engine.registered order).takeMarks marks).takeResult order
      r).orderManager.orders id = some e) : base ≤ id ∧ Fresh sim.engine.resting id := by
  have hrevises := ((d.1.engine.registered order).takeMarks marks).takeResult_revises order r
  have hkeyed := hrevises.keyed (hbooked.keyed.newOrder order)
  have hissued := (h.issued.newOrder hbooked.keyed order).congr hrevises.ids hrevises.nextId
  have hid := ((hissued.mem_iff id).mp ((hkeyed.mem_iff id).mpr
    fun hnone => Option.some_ne_none e (he.symm.trans hnone))).1
  exact ⟨hid, (h.submit hsubmit).fresh hid⟩

/-- **Every call keeps the mirror.** -/
theorem mirrored_step (h : Mirrored {ref | base ≤ ref} [] d.2) (hapart : Apart base d)
    (hbooked : Booked d) {c : Call} (hc : Shown d c) (hcall : d.step c = some d') :
    Mirrored {ref | base ≤ ref} [] d'.2 := by
  cases c with
  | event ev =>
    obtain ⟨⟨hforeign, -, hallowed, hrefs⟩, henters, hcomplete⟩ := hc
    obtain ⟨-, -, -, ms, hpass⟩ := event_stays hbooked.unrested hforeign hcall
    refine h.onMarketOrder ⟨hallowed, fun ref hm hS => ?_, henters, hcomplete⟩
      (hpass (Client.silent _).toCallbacks ())
    exact Nat.not_le.mpr (hapart.below hbooked.keyed (hrefs ref hm)) hS
  | decision sig strategyId =>
    rcases outcome_of_decision hbooked.unrested hcall with
      heq | ⟨-, -, -, hsame⟩ | ⟨-, -, r, marks, sim, hsubmit, hsim, -, -, -, s, hflat, hlast⟩
    · rw [heq, (Prod.mk.inj (takeMid_system sig.locate d)).2]
      exact h
    · rw [hsame]
      exact h
    · generalize d.1.engine.orderFor sig strategyId .market = order at *
      have hanswered : Mirrored {ref | base ≤ ref} [] sim :=
        h.strategy (c := .submit order d.1.engine.idOf .ioc)
          ⟨hapart.fresh hapart.issued.le, hapart.issued.le⟩
          (Option.map_eq_some_iff.mpr ⟨_, hsubmit, rfl⟩)
      rw [hlast]
      exact flatten_mirrored hanswered (hapart.known hbooked hsubmit) hsim hflat

theorem Runs.mirrored (h : Runs Shown d) :
    ∃ base, Apart base d ∧ Mirrored {ref | base ≤ ref} [] d.2 := by
  have hproper : ∀ {d}, Runs Shown d → Booked d := fun h =>
    (h.mono fun _ _ hc => hc.1).foreign.booked
  induction h with
  | start visits base rm baseQty capacity view sink hrm hlo hhi hview =>
    exact ⟨base.toNat, apart_new visits base rm baseQty view sink hlo hhi,
      mirrored_new capacity view sink hlo hhi hview⟩
  | call c hr hc hcall ih =>
    obtain ⟨base, hapart, h⟩ := ih
    exact ⟨base, hapart.step (hproper hr) hc.1 hcall, mirrored_step h hapart (hproper hr) hc hcall⟩

end Mirror

/-! ### Runs -/

section Runs

variable {d : Desk}

instance : (ev : ItchEvent) → Decidable ev.Positive
  | .replace _ _ _ _ shares => inferInstanceAs (Decidable (0 < shares))
  | .add .. | .delete .. | .cancel .. | .book _ => isTrue trivial

instance (d : Desk) (ref : ℕ) : Decidable (d.Unissued ref) := inferInstanceAs (Decidable (_ ∧ _))

/-- A test on the state that implies the conditions of this file. -/
def marketTest (d : Desk) : Call → Bool
  | .event ev => ExchangeSimulator.refsTest (.market ev) d.2 && decide (Foreign d (.event ev) ∧
      ev.Positive ∧ (∀ ref ∈ ev.refs, d.Unissued ref) ∧ ev.Enters d.2 ∧ d.2.Complete)
  | .decision sig _ => decide (0 < d.liveMid sig.locate)

theorem shown_of_test (hinv : Exchange.Inv d.2.engine) {c : Call} (htest : marketTest d c = true) :
    Shown d c := by
  cases c with
  | event ev =>
    obtain ⟨hrefs, hev⟩ := (Bool.and_eq_true _ _).mp htest
    obtain ⟨hforeign, hpositive, hunissued, hshown⟩ := of_decide_eq_true hev
    exact ⟨⟨hforeign, hpositive, ExchangeSimulator.refsTest_market hinv hrefs, hunissued⟩, hshown⟩
  | decision => exact ⟨trivial, trivial⟩

/-- The market keeps the contract, and every decision is made on a quote. -/
def Quoted (d : Desk) (c : Call) : Prop :=
  Proper d c ∧ match c with
    | .event _ => True
    | .decision sig _ => 0 < d.liveMid sig.locate

/-- Offers of 60 at 101 and of 50 at 103, and a bid of 100 at 99. The strategy buys 100, in two
fills, and sells 50. -/
def marketCalls : List Call :=
  [.event (.add 0 1 .sell 101 60), .event (.add 0 2 .buy 99 100), .event (.add 0 3 .sell 103 50),
    .decision { side := .buy, strength := 10000 } 1,
    .decision { side := .sell, strength := 5000 } 1]

/-- The desk that takes them. -/
def marketStart : Desk :=
  new .inserted 1000 { cells := .none, maxPosition := 150 } 100 (.new 4 (some 4) fun _ _ => [])

theorem runs_marketStart (ok : Desk → Call → Prop) : Runs ok marketStart :=
  .start .inserted 1000 _ 100 4 (some 4) _ ⟨rfl, rfl⟩ (by decide) (by decide)
    (by simp)

/-- **No slip is negative** in a run where the market keeps the contract and every decision is made
on a quote: every fill is compared with a mid that is positive, a buyer always paid more than it,
and a seller never got more. -/
theorem runs_slip (h : Runs Quoted d) {t : TradeRecord} (ht : t ∈ d.1.log.trades) :
    0 < t.mid ∧ 0 ≤ t.slip ∧ (t.side = .buy → 0 < t.slip) := by
  have hproper : ∀ {d}, Runs Quoted d → Runs Proper d := fun h => h.mono fun _ _ hc => hc.1
  induction h with
  | start => exact absurd ht List.not_mem_nil
  | @call d d' c hr hc hcall ih =>
    have hbooked := (hproper hr).foreign.booked
    cases c with
    | event ev =>
      obtain ⟨-, -, hlog, -⟩ := event_stays hbooked.unrested hc.1.1 hcall
      rw [hlog] at ht
      exact ih ht
    | decision sig strategyId =>
      obtain ⟨base, hapart⟩ := (hproper hr).apart
      obtain ⟨ts, htrades, hnew⟩ := decision_slip hapart hbooked.unrested hc.2 hcall
      rw [htrades] at ht
      rcases List.mem_append.mp ht with ht | ht
      · exact ih ht
      · exact hnew t ht

/-- The slips are 1, 3 and 2. -/
theorem runs_slip_two : ∃ d t, play marketTest marketCalls marketStart = some d ∧
    (d.1.log.trades.map fun t => (t.side, t.slip)) = [(.buy, 1), (.buy, 3), (.sell, 2)] ∧
    t ∈ d.1.log.trades ∧ 0 < t.mid ∧ 0 ≤ t.slip ∧ (t.side = .buy → 0 < t.slip) := by
  have hread : (play marketTest marketCalls marketStart).map (fun d =>
      d.1.log.trades.map fun t => (t.side, t.slip)) =
        some [(.buy, 1), (.buy, 3), (.sell, 2)] := by decide +kernel
  obtain ⟨d, hrun, hslips⟩ := Option.map_eq_some_iff.mp hread
  have hr : Runs Quoted d := by
    refine Runs.play (fun {d c} hr htest => ?_) (runs_marketStart Quoted) hrun
    obtain ⟨base, hapart⟩ := (hr.mono fun _ _ hc => hc.1).apart
    refine ⟨(shown_of_test hapart.inv htest).1, ?_⟩
    cases c with
    | event => trivial
    | decision => exact of_decide_eq_true htest
  obtain ⟨t, ht⟩ := List.exists_mem_of_length_pos (l := d.1.log.trades) (by
    rw [← List.length_map (f := fun t : TradeRecord => (t.side, t.slip)), hslips]
    decide)
  exact ⟨d, t, hrun, hslips, ht, runs_slip hr ht⟩

/-- Without a quote the mid is the last one there was. The strategy buys all there is at a mid of
100, and sells at 200. -/
example : (play (fun _ _ => true) [.event (.add 0 1 .sell 101 100), .event (.add 0 2 .buy 99 100),
    .decision { side := .buy, strength := 10000 } 1, .event (.add 0 3 .buy 200 100),
    .decision { side := .sell, strength := 10000 } 1] marketStart).map (fun d =>
      d.1.log.trades.map fun t => (t.side, t.mid, t.slip)) =
    some [(.buy, 100, 1), (.sell, 100, -100)] := by decide +kernel

/-- **The view holds all that rests**, as long as no insert into an index was dropped: whatever the
strategy decided and whatever a flatten asked for, it holds a reference if and only if an order of
the engine rests under it, and then with the locate, the side, the price and the remaining quantity
of that order. -/
theorem runs_mirror (h : Runs Shown d) (hcomplete : d.2.Complete)
    {c : Market.OrderBookConsumer} (hc : d.2.view = some c) (ref : ℕ) :
    ∃ found, Market.OrderBook.get c.books.shared ref = some found ∧
      (found.isSome ↔ Exchange.Rests d.2.engine.resting ref) ∧
      ∀ s ∈ found, ∃ b, ∃ x ∈ d.2.engine.resting (c.books.addedTo ref) b,
        x.orderId = ref ∧ Shows s b x := by
  obtain ⟨base, hapart, hmirrored⟩ := h.mirrored
  have hok := hmirrored.sound.view c hc
  have hmirrors := hmirrored.mirrors hcomplete c hc
  refine ⟨_, get_eq_held hok (hcomplete.2 c hc) ref, ?_⟩
  cases hheld : c.books.held ref with
  | none =>
    -- it is not one of the market, or it does not rest
    have hfresh : Fresh d.2.engine.resting ref := by
      by_cases hid : base ≤ ref
      · exact hapart.fresh hid
      · have hat : MirrorsAt d.2.engine.resting ref (c.books.held ref) (c.books.addedTo ref) :=
          hmirrors.market ref hid
        rw [hheld] at hat
        exact hat
    exact ⟨iff_of_false Bool.false_ne_true (Exchange.not_rests_iff.mpr hfresh),
      fun s hs => absurd hs (by simp)⟩
  | some s =>
    have hid : ref ∉ ({ref | base ≤ ref} : Set ℕ) := fun hS =>
      Option.some_ne_none s (hheld.symm.trans (hmirrors.strategy ref hS))
    have hat : MirrorsAt d.2.engine.resting ref (c.books.held ref) (c.books.addedTo ref) :=
      hmirrors.market ref hid
    rw [hheld] at hat
    refine ⟨iff_of_true rfl ?_, fun s' hs' => ?_⟩
    · obtain ⟨b, x, hx, hxid, -⟩ := hat
      exact ⟨_, b, x, hx, hxid⟩
    · obtain rfl := Option.some.inj hs'
      exact hat

/-- After the run fifty of the bid are left, and the view says so. -/
theorem runs_mirror_two : ∃ d c, play marketTest marketCalls marketStart = some d ∧
    d.2.view = some c ∧ ∃ s, Market.OrderBook.get c.books.shared 2 = some (some s) ∧
      s.remaining = 50 ∧ ∃ b, ∃ x ∈ d.2.engine.resting (c.books.addedTo 2) b,
        x.orderId = 2 ∧ Shows s b x := by
  have hread : (play marketTest marketCalls marketStart).map (fun d => (decide d.2.Complete,
      d.2.view.map fun c => (Market.OrderBook.get c.books.shared 2).map
        (Option.map OrderSlotView.remaining))) = some (true, some (some (some 50))) := by
    decide +kernel
  obtain ⟨d, hrun, heq⟩ := Option.map_eq_some_iff.mp hread
  obtain ⟨hcomplete, hview⟩ := Prod.mk.inj heq
  obtain ⟨c, hc, hget⟩ := Option.map_eq_some_iff.mp hview
  obtain ⟨found, hfound, hremaining⟩ := Option.map_eq_some_iff.mp hget
  obtain ⟨s, rfl, hfifty⟩ := Option.map_eq_some_iff.mp hremaining
  have hr : Runs Shown d := by
    refine Runs.play (fun {d c} hr htest => ?_) (runs_marketStart Shown) hrun
    obtain ⟨base, hapart, -⟩ := hr.mirrored
    exact shown_of_test hapart.inv htest
  obtain ⟨found, hgot, -, hshows⟩ := runs_mirror hr (of_decide_eq_true hcomplete) hc 2
  obtain rfl := Option.some.inj (hfound.symm.trans hgot)
  exact ⟨d, c, hrun, hc, s, hfound, hfifty, hshows s rfl⟩

end Runs

end Desk

end NebulaX
