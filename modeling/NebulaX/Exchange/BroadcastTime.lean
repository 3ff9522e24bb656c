import NebulaX.Exchange.Isolation
import NebulaX.Exchange.SimulatorRuns

/-!
# The time of a broadcast

The clock ticks once a call, and `to_market_event` stamps the event of the call with it.
`make_execute` stamps nothing: every `EXECUTE` carries the timestamp 0, and the clock is at least 1
when it is broadcast. So the events of a run are stamped with the time of their broadcast as long
as no incoming order trades.

None of this needs the contract about references: the results hold of all runs.

## Main results

* `exec_trades_iff` — the calls of the engine that answer with a trade
* `reached_on_time` — runs of calls that do not trade, and what the others broadcast
* `execute_at_zero` — an `EXECUTE` after the event of its call
-/

namespace NebulaX.Exchange

open MatchingEngine

/-! ### Calls that trade -/

/-- An incoming order finds an order to trade with when the matching loop first looks for one. -/
def Meets (e : MatchingEngine) (L : ℕ) (o : OrderData) : Prop :=
  o.remainingQty ≠ 0 ∧ ∃ i,
    (e.books L).getBest e.shared (!o.side.isBuy) o.userId = some (some i) ∧
      beyond o.side.isBuy o.price (e.shared.pool.storage i).price = false

/-- The order that a call brings in is let in and meets another one: for an add in the state the
call finds, for a replace once the old order is off the book. -/
def Command.Trades (e : MatchingEngine) : Command → Prop
  | .add L ref side price quantity user tif =>
    addError L ref side price quantity user tif = none ∧
      (tif = .fok →
        e.canFullFill (e.books L) side (effectivePrice side tif price) quantity = some true) ∧
      Meets e L (e.newOrder ref side (effectivePrice side tif price) quantity user)
  | .replace L oldRef newRef side price quantity user =>
    L < kMaxLocate ∧ ∃ i e₁, e.findOrder oldRef = some (some i) ∧
      (e.shared.pool.storage i).userId = user ∧ e.removeOrder L i = some e₁ ∧
        Meets e₁ L (e.newOrder newRef side price quantity newRef)
  | .cancel .. | .cancelShares .. => False

section Trades

variable {e e' : MatchingEngine} {L : ℕ} {o o' : OrderData}

/-- Meeting is about the books and the order's terms. -/
theorem meets_congr (hb : e'.books = e.books) (hs : e'.shared = e.shared)
    (hq : o'.remainingQty = o.remainingQty) (hside : o'.side = o.side)
    (hprice : o'.price = o.price) (huser : o'.userId = o.userId) :
    Meets e' L o' ↔ Meets e L o := by
  rw [Meets, Meets, hb, hs, hq, hside, hprice, huser]

/-- **The frames of the matching loop** are trades, and there are some exactly if the order meets
another one. -/
theorem matchOrder_out {s : Matching} (h : e.matchOrder L o.side.isBuy o = some s) :
    (∀ f ∈ s.out, f.isTrade = true) ∧ (s.out ≠ [] ↔ Meets e L o) := by
  have hout := matchLoop_out h
  obtain ⟨fs, hfs, hout⟩ := hout
  have hout : s.out = fs := hout
  refine ⟨fun f hf => hfs f (hout ▸ hf), ?_⟩
  rw [matchOrder, matchLoop] at h
  by_cases hq : o.remainingQty = 0
  · rw [if_pos hq] at h
    obtain rfl := Option.some.inj h
    exact iff_of_false (fun hne => hne rfl) fun hm => hm.1 hq
  rw [if_neg hq] at h
  obtain ⟨found, hfound, h⟩ := Option.bind_eq_some_iff.mp h
  have hfound : (e.books L).getBest e.shared (!o.side.isBuy) o.userId = some found := hfound
  cases found with
  | none =>
    obtain rfl := Option.some.inj h
    refine iff_of_false (fun hne => hne rfl) ?_
    rintro ⟨-, i, hi, -⟩
    exact absurd (hi.symm.trans hfound) (by simp)
  | some i =>
    change (if beyond o.side.isBuy o.price (e.shared.pool.storage i).price then _ else _) = _ at h
    cases hb : beyond o.side.isBuy o.price (e.shared.pool.storage i).price with
    | true =>
      rw [hb, if_pos rfl] at h
      obtain rfl := Option.some.inj h
      refine iff_of_false (fun hne => hne rfl) ?_
      rintro ⟨-, j, hj, hjb⟩
      obtain rfl : i = j := by
        have heq : some (some i) = some (some j) := hfound.symm.trans hj
        simpa using heq
      exact absurd (hb.symm.trans hjb) (by decide)
    | false =>
      rw [hb, if_neg (by decide)] at h
      obtain ⟨s₁, hs₁, h⟩ := Option.bind_eq_some_iff.mp h
      obtain ⟨f, -, hf⟩ := tradeWith_out hs₁
      obtain ⟨gs, -, hgs⟩ := matchLoop_out h
      refine iff_of_true ?_ ⟨hq, i, hfound, hb⟩
      rw [hgs, hf]
      simp

/-- A list of trades with other frames behind it. -/
theorem exists_trade_append {fs gs : List BinaryResponse} (hfs : ∀ f ∈ fs, f.isTrade = true)
    (hgs : ∀ f ∈ gs, f.isTrade = false) : (∃ f ∈ fs ++ gs, f.isTrade = true) ↔ fs ≠ [] := by
  constructor
  · rintro ⟨f, hf, htrade⟩ rfl
    exact absurd (htrade.symm.trans (hgs f hf)) (by decide)
  · intro hne
    obtain ⟨f, fs, rfl⟩ := List.exists_cons_of_ne_nil hne
    exact ⟨f, by simp, hfs f (by simp)⟩

/-- An accepted order trades exactly if it meets another one. -/
theorem acceptAdd_trades_iff {ref user : ℕ} {side : Side} {price quantity : UInt32}
    {tif : OrderTif} {rsp : List BinaryResponse}
    (h : e.acceptAdd L ref side price quantity user tif = some (rsp, e')) :
    (∃ f ∈ rsp, f.isTrade = true) ↔ Meets e L (e.newOrder ref side price quantity user) := by
  obtain ⟨entry, s, hmatch, hfin⟩ := acceptAdd_cases h
  obtain ⟨htrades, hiff⟩ := matchOrder_out (o := e.newOrder ref side price quantity user) hmatch
  obtain ⟨⟨tail, rfl, htail⟩, -⟩ := finishAdd_cases hfin
  rw [exists_trade_append htrades htail, hiff]
  exact meets_congr rfl rfl rfl rfl rfl rfl

/-- An answer of one frame that is no trade. -/
theorem no_trade_singleton {f : BinaryResponse} (hf : f.isTrade = false) :
    ¬ ∃ g ∈ [f], g.isTrade = true := by
  rintro ⟨g, hg, htrade⟩
  obtain rfl := List.mem_singleton.mp hg
  exact absurd (htrade.symm.trans hf) (by decide)

theorem processAdd_trades_iff {ref user : ℕ} {side : Side} {price quantity : UInt32}
    {tif : OrderTif} {rsp : List BinaryResponse}
    (h : e.processAdd L ref side price quantity user tif = some (rsp, e')) :
    (∃ f ∈ rsp, f.isTrade = true) ↔ Command.Trades e (.add L ref side price quantity user tif) := by
  cases hvalid : addError L ref side price quantity user tif with
  | some code =>
    rw [processAdd_of_error hvalid] at h
    obtain ⟨rfl, -⟩ := Prod.mk.inj (Option.some.inj h)
    exact iff_of_false (no_trade_singleton rfl) fun hc => absurd (hvalid.symm.trans hc.1) (by simp)
  | none =>
    rw [(processAdd_of_valid hvalid).2] at h
    by_cases htif : tif = .fok
    · rw [if_pos htif] at h
      obtain ⟨full, hfull, h⟩ := Option.bind_eq_some_iff.mp h
      cases full with
      | true =>
        rw [acceptAdd_trades_iff h]
        exact ⟨fun hm => ⟨hvalid, fun _ => hfull, hm⟩, fun hc => hc.2.2⟩
      | false =>
        obtain ⟨rfl, -⟩ := Prod.mk.inj (Option.some.inj h)
        refine iff_of_false (no_trade_singleton rfl) fun hc => ?_
        exact absurd (hfull.symm.trans (hc.2.1 htif)) (by simp)
    · rw [if_neg htif] at h
      rw [acceptAdd_trades_iff h]
      exact ⟨fun hm => ⟨hvalid, fun hf => absurd hf htif, hm⟩, fun hc => hc.2.2⟩

theorem processCancel_no_trade {ref user : ℕ} {rsp : List BinaryResponse}
    (h : e.processCancel L ref user = some (rsp, e')) : ¬ ∃ f ∈ rsp, f.isTrade = true := by
  rcases processCancel_cases h with ⟨-, rfl, -⟩ | ⟨i, entry, -, -, -, -, rfl⟩
  · exact no_trade_singleton rfl
  · exact no_trade_singleton rfl

theorem processCancelShares_no_trade {ref user : ℕ} {shares : UInt32} {rsp : List BinaryResponse}
    (h : e.processCancelShares L ref shares user = some (rsp, e')) :
    ¬ ∃ f ∈ rsp, f.isTrade = true := by
  rcases processCancelShares_cases h with ⟨-, rfl, -⟩ |
    ⟨i, entry, -, -, -, ⟨-, -, rfl⟩ | ⟨-, -, rfl⟩⟩
  · exact no_trade_singleton rfl
  · exact no_trade_singleton rfl
  · exact no_trade_singleton rfl

/-- Taking an order off does not look at the log. -/
theorem removeOrder_logWal {entry : WalEntry} {i : ℕ} {e₁ : MatchingEngine}
    (h : (e.logWal entry).removeOrder L i = some e₁) :
    ∃ e₂, e.removeOrder L i = some e₂ ∧ e₁.books = e₂.books ∧ e₁.shared = e₂.shared := by
  obtain ⟨⟨b, sh⟩, hrem, rfl⟩ := Option.map_eq_some_iff.mp h
  exact ⟨e.withBook L b sh, Option.map_eq_some_iff.mpr ⟨(b, sh), hrem, rfl⟩, rfl, rfl⟩

theorem processReplace_trades_iff {oldRef newRef user : ℕ} {side : Side} {price quantity : UInt32}
    {rsp : List BinaryResponse}
    (h : e.processReplace L oldRef newRef side price quantity user = some (rsp, e')) :
    (∃ f ∈ rsp, f.isTrade = true) ↔
      Command.Trades e (.replace L oldRef newRef side price quantity user) := by
  rcases processReplace_cases h with ⟨haway, rfl, -⟩ |
    ⟨i, entry, e₁, s, hL, hfound, huser, hrem, hmatch, hfin⟩
  · refine iff_of_false (no_trade_singleton rfl) ?_
    rintro ⟨hL, j, -, hj, hju, -⟩
    rcases haway with hle | hnone | ⟨i, hi, hiu⟩
    · exact absurd hL (Nat.not_lt.mpr hle)
    · exact absurd (hnone.symm.trans hj) (by simp)
    · obtain rfl : i = j := by simpa using hi.symm.trans hj
      exact hiu hju
  · obtain ⟨e₂, hrem₂, hbooks, hshared⟩ := removeOrder_logWal hrem
    obtain ⟨htrades, hiff⟩ :=
      matchOrder_out (o := e₁.newOrder newRef side price quantity newRef) hmatch
    obtain ⟨⟨tail, rfl, htail⟩, -⟩ := finishReplace_cases hfin
    have hmeets : Meets { e₁ with nextSequence := e₁.nextSequence + 1 } L
        (e₁.newOrder newRef side price quantity newRef) ↔
          Meets e₂ L (e.newOrder newRef side price quantity newRef) :=
      meets_congr hbooks hshared rfl rfl rfl rfl
    rw [exists_trade_append htrades htail, hiff, hmeets]
    constructor
    · exact fun hm => ⟨hL, i, e₂, hfound, huser, hrem₂, hm⟩
    · rintro ⟨-, j, e₄, hj, -, hrem₄, hm⟩
      obtain rfl : i = j := by simpa using hfound.symm.trans hj
      obtain rfl := Option.some.inj (hrem₂.symm.trans hrem₄)
      exact hm

/-- **The calls that answer with a trade.** -/
theorem exec_trades_iff {c : Command} {rsp : List BinaryResponse}
    (h : e.exec c = some (rsp, e')) : (∃ f ∈ rsp, f.isTrade = true) ↔ c.Trades e := by
  cases c with
  | add => exact processAdd_trades_iff h
  | cancel => exact iff_of_false (processCancel_no_trade h) id
  | cancelShares => exact iff_of_false (processCancelShares_no_trade h) id
  | replace => exact processReplace_trades_iff h

end Trades

end NebulaX.Exchange

namespace NebulaX

open Exchange (MatchingEngine BinaryResponse Command)

/-! ### Runs of the simulator -/

/-- The event is an `EXECUTE`. -/
def MarketEvent.isExecute (ev : MarketEvent) : Bool :=
  match ev.body with
  | .execute _ => true
  | .add _ | .delete _ | .cancel _ | .replace _ | .trade _ => false

/-- The events broadcast so far are stamped with the time of their broadcast, and so with times
that never go back. -/
structure OnTime (sim : ExchangeSimulator) : Prop where
  /-- Each is stamped with the clock. -/
  stamped : ∀ p ∈ sim.delivered, p.2.timestamp = p.1
  /-- The stamps never go back. -/
  monotone : (sim.delivered.map fun p => p.2.timestamp).Pairwise (· ≤ ·)

/-- What is known of the broadcasts of any run: an `EXECUTE` is stamped with 0, everything else
with the clock, and the clock never goes back. -/
structure Stamped (sim : ExchangeSimulator) : Prop where
  /-- The stamps. -/
  stamp : ∀ p ∈ sim.delivered, p.2.timestamp = if p.2.isExecute then 0 else p.1
  /-- The times of the broadcasts. -/
  times : ∀ p ∈ sim.delivered, 0 < p.1 ∧ p.1 ≤ sim.clock
  /-- They never go back. -/
  monotone : (sim.delivered.map Prod.fst).Pairwise (· ≤ ·)

/-- One more broadcast. -/
theorem Stamped.broadcast {sim sim' : ExchangeSimulator} (h : Stamped sim) {clock : ℕ}
    {ev : MarketEvent} (hclock : sim.clock ≤ clock) (hpos : 0 < clock)
    (hstamp : ev.timestamp = if ev.isExecute then 0 else clock)
    (hdel : sim'.delivered = sim.delivered ++ [(clock, ev)]) (hclock' : sim'.clock = clock) :
    Stamped sim' := by
  refine ⟨fun p hp => ?_, fun p hp => ?_, ?_⟩
  · rw [hdel] at hp
    rcases List.mem_append.mp hp with hp | hp
    · exact h.stamp p hp
    · rw [List.mem_singleton.mp hp]
      exact hstamp
  · rw [hdel] at hp
    rw [hclock']
    rcases List.mem_append.mp hp with hp | hp
    · exact ⟨(h.times p hp).1, (h.times p hp).2.trans hclock⟩
    · rw [List.mem_singleton.mp hp]
      exact ⟨hpos, le_refl clock⟩
  · rw [hdel, List.map_append]
    refine List.pairwise_append.mpr ⟨h.monotone, List.pairwise_singleton .., ?_⟩
    intro t ht u hu
    obtain ⟨p, hp, rfl⟩ := List.mem_map.mp ht
    obtain rfl := List.mem_singleton.mp hu
    exact (h.times p hp).2.trans hclock

/-- A later time changes nothing. -/
theorem Stamped.later {sim sim' : ExchangeSimulator} (h : Stamped sim)
    (hdel : sim'.delivered = sim.delivered) (hclock : sim.clock ≤ sim'.clock) : Stamped sim' := by
  refine ⟨?_, ?_, ?_⟩
  · rw [hdel]
    exact h.stamp
  · rw [hdel]
    exact fun p hp => ⟨(h.times p hp).1, (h.times p hp).2.trans hclock⟩
  · rw [hdel]
    exact h.monotone

theorem toMarketEvent_stamp (clock : ℕ) (ev : ItchEvent) :
    (ExchangeSimulator.toMarketEvent clock ev).timestamp = clock ∧
      (ExchangeSimulator.toMarketEvent clock ev).isExecute = false := by
  cases ev <;> exact ⟨rfl, rfl⟩

/-- **Every step of every call** stamps this way. -/
theorem stable_stamped (K : Contract) :
    Stable K Stamped (fun sim => Stamped sim ∧ 0 < sim.clock) where
  idle := And.left
  market := by
    intro ev sim sim' rsp e' marks hi _ _ hb
    obtain ⟨view, rfl, -⟩ := ExchangeSimulator.broadcast_spec hb
    obtain ⟨htime, hkind⟩ := toMarketEvent_stamp (sim.clock + 1) ev
    refine ⟨hi.broadcast (Nat.le_succ _) (Nat.succ_pos _) ?_ rfl rfl, Nat.succ_pos _⟩
    rw [htime, hkind]
    rfl
  book := fun hi _ => hi.later rfl (Nat.le_succ _)
  count := fun _ _ _ hi => ⟨hi.1.later rfl (le_refl _), hi.2⟩
  execute := by
    intro sim sim' locate ref qty marks hi hb
    obtain ⟨view, rfl, -⟩ := ExchangeSimulator.broadcast_spec hb
    exact ⟨hi.1.broadcast (le_refl _) hi.2 rfl rfl rfl, hi.2⟩
  gone := fun _ hi => ⟨hi.1.later rfl (le_refl _), hi.2⟩
  register := fun _ hi => ⟨hi.1.later rfl (le_refl _), hi.2⟩
  submit := fun hi _ _ => ⟨hi.later rfl (Nat.le_succ _), Nat.succ_pos _⟩
  cancel := fun hi _ _ => ⟨hi.later rfl (Nat.le_succ _), Nat.succ_pos _⟩

theorem Reached.stamped {E : Type} {K : Contract} {cl : Client K.strategy E}
    {r : E × ExchangeSimulator} (h : Reached K cl r) : Stamped r.2 :=
  (stable_stamped K).reached (fun _ _ _ _ _ _ => ⟨fun _ hp => absurd hp List.not_mem_nil,
    fun _ hp => absurd hp List.not_mem_nil, List.Pairwise.nil⟩) h

/-- The broadcasts are on time exactly as long as there was no `EXECUTE`. -/
theorem Stamped.onTime_iff {sim : ExchangeSimulator} (h : Stamped sim) :
    OnTime sim ↔ ∀ p ∈ sim.delivered, p.2.isExecute = false := by
  constructor
  · intro ht p hp
    cases hkind : p.2.isExecute with
    | false => rfl
    | true =>
      have hstamp := h.stamp p hp
      rw [hkind, if_pos rfl, ht.stamped p hp] at hstamp
      exact absurd hstamp (Nat.ne_of_gt (h.times p hp).1)
  · intro hnone
    have hstamp : ∀ p ∈ sim.delivered, p.2.timestamp = p.1 := by
      intro p hp
      rw [h.stamp p hp, hnone p hp]
      rfl
    refine ⟨hstamp, ?_⟩
    rw [List.map_congr_left hstamp]
    exact h.monotone

/-! ### Calls that do not trade -/

/-- Calls that bring in no order that meets another one. -/
def Contract.quiet : Contract where
  market := fun ev sim => ∀ c, ev.command sim.engine = some c → ¬ c.Trades sim.engine
  strategy := fun c sim => ¬ c.command.Trades sim.engine

theorem tradesIn_eq_nil {rsp : List BinaryResponse} (h : ¬ ∃ f ∈ rsp, f.isTrade = true) :
    ExchangeSimulator.tradesIn rsp = [] := by
  refine List.filterMap_eq_nil_iff.mpr fun f hf => ?_
  cases f with
  | trade => exact absurd ⟨_, hf, rfl⟩ h
  | ok => rfl
  | filled => rfl
  | cancelled => rfl
  | error => rfl

section Quiet

open ExchangeSimulator

variable {E : Type} {sim sim' : ExchangeSimulator}

/-- **A market event that does not trade** is the only thing broadcast in its call. -/
theorem onMarketOrder_quiet {cb : Callbacks E} {ev : ItchEvent} {s s' : E}
    (hquiet : Contract.quiet.market ev sim)
    (hcall : onMarketOrder cb ev (s, sim) = some (s', sim')) :
    sim'.delivered = sim.delivered ∨
      sim'.delivered = sim.delivered ++ [(sim.clock + 1, toMarketEvent (sim.clock + 1) ev)] := by
  obtain ⟨answer, henter, hcall⟩ := Option.bind_eq_some_iff.mp hcall
  cases answer with
  | none =>
    obtain ⟨-, rfl⟩ := Prod.mk.inj (Option.some.inj hcall)
    exact Or.inl rfl
  | some r =>
    obtain ⟨rsp, e'⟩ := r
    obtain ⟨c, hc, hexec⟩ := exec_of_enterMarket henter
    have hnil := tradesIn_eq_nil (mt (Exchange.exec_trades_iff hexec).mp (hquiet c hc))
    obtain ⟨⟨s₁, sim₁⟩, hann, hcall⟩ := Option.bind_eq_some_iff.mp hcall
    simp only [hnil] at hcall
    obtain ⟨-, rfl⟩ := Prod.mk.inj (Option.some.inj hcall)
    obtain ⟨marks, hb⟩ := announce_spec hann
    obtain ⟨view, rfl, -⟩ := broadcast_spec hb
    exact Or.inr rfl

/-- Answers without trades broadcast nothing. -/
theorem takeAnswers_quiet {order : Order} {orderId : ℕ} {rsp : List BinaryResponse}
    {s s' : ExchangeSubmitResult × List Mark × ExchangeSimulator}
    (hquiet : ¬ ∃ f ∈ rsp, f.isTrade = true)
    (hcall : rsp.foldlM (takeAnswer order orderId) s = some s') :
    s'.2.2.delivered = s.2.2.delivered := by
  induction rsp generalizing s with
  | nil =>
    obtain rfl := Option.some.inj hcall
    rfl
  | cons f rsp ih =>
    obtain ⟨s₁, hfirst, hrest⟩ := Option.bind_eq_some_iff.mp hcall
    have hfold := ih (fun ⟨g, hg, htrade⟩ => hquiet ⟨g, List.mem_cons_of_mem _ hg, htrade⟩) hrest
    cases f with
    | trade => exact absurd ⟨_, List.mem_cons_self, rfl⟩ hquiet
    | ok =>
      obtain rfl := Option.some.inj hfirst
      exact hfold
    | filled =>
      obtain rfl := Option.some.inj hfirst
      exact hfold
    | cancelled =>
      obtain rfl := Option.some.inj hfirst
      exact hfold
    | error =>
      obtain rfl := Option.some.inj hfirst
      exact hfold

theorem takeCancelAnswers_delivered {orderId : ℕ} {rsp : List BinaryResponse}
    {s : List Fill × ExchangeSimulator} :
    (rsp.foldl (takeCancelAnswer orderId) s).2.delivered = s.2.delivered := by
  induction rsp generalizing s with
  | nil => rfl
  | cons f rsp ih =>
    rw [List.foldl_cons, ih]
    cases f <;> rfl

/-- **A strategy call that does not trade** broadcasts nothing. -/
theorem take_quiet {c : StrategyCall} (hquiet : Contract.quiet.strategy c sim)
    (hcall : sim.take c = some sim') : sim'.delivered = sim.delivered := by
  cases c with
  | submit order orderId tif =>
    obtain ⟨⟨out, marks, sim₁⟩, hsubmit, rfl⟩ := Option.map_eq_some_iff.mp hcall
    obtain ⟨rsp, e', out', hexec, hfold, -⟩ := submit_spec hsubmit
    exact takeAnswers_quiet (mt (Exchange.exec_trades_iff hexec).mp hquiet) hfold
  | cancel orderId symbolId userId =>
    obtain ⟨⟨reports, sim₁⟩, hcancel, rfl⟩ := Option.map_eq_some_iff.mp hcall
    obtain ⟨rsp, e', -, heq⟩ := cancel_spec hcancel
    rw [show sim₁ = _ from congrArg Prod.snd heq]
    exact takeCancelAnswers_delivered

end Quiet

/-- **Broadcast times.** In a run of calls that do not trade, every event is stamped with the clock
at its broadcast, and the stamps never go back. In any run that is so exactly as long as no
`EXECUTE` was broadcast. -/
theorem reached_on_time {E : Type} :
    (∀ {cl : Client Contract.quiet.strategy E} {r : E × ExchangeSimulator},
      Reached Contract.quiet cl r → OnTime r.2) ∧
    ∀ {K : Contract} {cl : Client K.strategy E} {r : E × ExchangeSimulator}, Reached K cl r →
      (OnTime r.2 ↔ ∀ p ∈ r.2.delivered, p.2.isExecute = false) := by
  refine ⟨fun h => ?_, fun h => h.stamped.onTime_iff⟩
  refine h.stamped.onTime_iff.mpr ?_
  induction h with
  | start => exact fun p hp => absurd hp List.not_mem_nil
  | market ev _ hev hcall ih =>
    intro p hp
    rcases onMarketOrder_quiet hev hcall with hdel | hdel
    · exact ih p (hdel ▸ hp)
    · rcases List.mem_append.mp (hdel ▸ hp) with hp | hp
      · exact ih p hp
      · rw [List.mem_singleton.mp hp]
        exact (toMarketEvent_stamp _ ev).2
  | strategy c _ hc hcall ih => exact fun p hp => ih p (take_quiet hc hcall ▸ hp)

/-- A test for calls that do not trade: the engine answers without a trade. -/
def quietTest (c : SimCall) (sim : ExchangeSimulator) : Bool :=
  ((ExchangeSimulator.commandOf sim.engine c).map fun d =>
    ((sim.engine.exec d).map fun r => r.1.all fun f => !f.isTrade).getD false).getD true

theorem not_trades_of_quietTest {c : SimCall} {d : Command} {sim : ExchangeSimulator}
    (hd : ExchangeSimulator.commandOf sim.engine c = some d) (h : quietTest c sim = true) :
    ¬ d.Trades sim.engine := by
  rw [quietTest, hd, Option.map_some, Option.getD_some] at h
  cases hexec : sim.engine.exec d with
  | none =>
    rw [hexec] at h
    exact absurd h (by decide)
  | some r =>
    rw [hexec] at h
    have hall := List.all_eq_true.mp h
    rw [← Exchange.exec_trades_iff hexec]
    rintro ⟨f, hf, htrade⟩
    have hnot := hall f hf
    rw [htrade] at hnot
    exact absurd hnot (by decide)

/-- Two events that do not trade, and a submit between them. -/
theorem reached_on_time_three : ∃ r, ExchangeSimulator.play
    (Client.silent Contract.quiet.strategy).toCallbacks quietTest
    [.market (.add 0 1 .sell 100 5), .strategy (.submit { price := 99, quantity := 3 } 9 .day),
      .market (.delete 0 1)] ((), .new 4 none fun _ _ => []) = some r ∧
    r.2.delivered.map (fun p => (p.1, p.2.timestamp)) = [(1, 1), (3, 3)] ∧ OnTime r.2 := by
  have hread : (ExchangeSimulator.play (Client.silent Contract.quiet.strategy).toCallbacks quietTest
      [.market (.add 0 1 .sell 100 5), .strategy (.submit { price := 99, quantity := 3 } 9 .day),
        .market (.delete 0 1)] ((), .new 4 none fun _ _ => [])).map
      (fun r => r.2.delivered.map fun p => (p.1, p.2.timestamp)) =
      some [(1, 1), (3, 3)] := by decide +kernel
  obtain ⟨r, hr, heq⟩ := Option.map_eq_some_iff.mp hread
  have hstart : Reached Contract.quiet (Client.silent Contract.quiet.strategy)
      ((), .new 4 none fun _ _ => []) := .start () 4 none _ (by decide) (by decide) (by simp)
  refine ⟨r, hr, heq, reached_on_time.1 (hstart.play (fun {s sim ev} _ htest c hc => ?_)
    (fun {s sim c} _ htest => ?_) hr)⟩
  · exact not_trades_of_quietTest (c := .market ev) hc htest
  · exact not_trades_of_quietTest (c := .strategy c) rfl htest

/-- The event of the second call is stamped with 2, the two `EXECUTE`s behind it with 0. -/
theorem execute_at_zero : ∃ r, ExchangeSimulator.play
    (Client.silent Contract.refs.strategy).toCallbacks ExchangeSimulator.refsTest
    [.market (.add 0 1 .sell 100 5), .market (.add 0 2 .buy 100 5)]
    ((), .new 4 none fun _ _ => []) = some r ∧
    r.2.delivered.map (fun p => (p.1, p.2.timestamp)) = [(1, 1), (2, 2), (2, 0), (2, 0)] ∧
    ¬ OnTime r.2 := by
  have hread : (ExchangeSimulator.play (Client.silent Contract.refs.strategy).toCallbacks
      ExchangeSimulator.refsTest [.market (.add 0 1 .sell 100 5), .market (.add 0 2 .buy 100 5)]
      ((), .new 4 none fun _ _ => [])).map
      (fun r => r.2.delivered.map fun p => (p.1, p.2.timestamp)) =
      some [(1, 1), (2, 2), (2, 0), (2, 0)] := by decide +kernel
  obtain ⟨r, hr, heq⟩ := Option.map_eq_some_iff.mp hread
  refine ⟨r, hr, heq, fun ht => ?_⟩
  have hmem : (2, 0) ∈ r.2.delivered.map fun p => (p.1, p.2.timestamp) := by
    rw [heq]
    decide
  obtain ⟨p, hp, hpeq⟩ := List.mem_map.mp hmem
  obtain ⟨hclock, hstamp⟩ := Prod.mk.inj hpeq
  have hsame := ht.stamped p hp
  omega

end NebulaX
