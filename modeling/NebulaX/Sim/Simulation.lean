import NebulaX.Lib.Fold
import NebulaX.Replay.ReplayEngine
import NebulaX.Sim.DeskProgress
import NebulaX.Sim.Voting

/-!
# The simulation

What `run_sim` of `src/sim_main.cpp` puts together: the desk, and the workers that listen to its
broadcasts. The replay hands in the events of the market. At the end of a segment every worker may
place one decision, and a snapshot is taken for `equity.csv`.

The workers hear a broadcast when the call that made it has come to its end, one broadcast after
the other. In the source they hear it at once. Nothing looks at their strategies before that end,
and their marks, which the risk manager looks at, are made at once here too: `marksOf`.

`placed` is not kept by the source. It lists the decisions that led to an order, with the worker.

## Main results

* `marksOf_eq` — the marks do not depend on the number of workers
* `Runs.desk` — **every run of the simulation is a run of the desk**
* `never_stuck` — every event and every window returns, with the lock taken once at a time, if the
  market keeps the contract
-/

namespace NebulaX

open Market (OrderBookConsumer OrderBook)

/-! ### The configuration -/

/-- `StrategyConfig`. -/
structure StrategyConfig where
  /-- `strategies`. -/
  strategies : List String := ["ofi", "obi"]
  /-- `primary`. -/
  primary : String := "ofi"
  /-- `weights_bp`. -/
  weightsBp : List (String × ℤ) := []
  /-- `vote_threshold_bp`. -/
  voteThresholdBp : ℤ := 0

/-- `RiskConfig`. -/
structure RiskConfig where
  /-- `max_position`. -/
  maxPosition : UInt64 := 10000
  /-- `max_daily_loss`. -/
  maxDailyLoss : ℤ := 10000000000
  /-- `initial_equity`. -/
  initialEquity : ℤ := 10000000000
  /-- `max_drawdown_pause`. -/
  maxDrawdownPause : ℤ := 500000000
  /-- `max_drawdown_flatten`. -/
  maxDrawdownFlatten : ℤ := 1000000000

/-- `Config`, as far as `run_sim` reads it. -/
structure Config where
  /-- `order_book.pool_slots`. -/
  poolSlots : ℕ := 2 ^ 20
  /-- `order_book.workers`. -/
  workers : ℕ := 4
  /-- `strategy`. -/
  strategy : StrategyConfig := {}
  /-- `risk`. -/
  risk : RiskConfig := {}
  /-- `execution.base_qty`. -/
  baseQty : UInt64 := 100
  /-- `replay.order_id_base`. -/
  orderIdBase : UInt64 := 100000000000

namespace Config

/-- `nworkers`. -/
def nworkers (cfg : Config) : ℕ := max 1 cfg.workers

/-- The risk manager, after its setters. -/
def riskManager (cfg : Config) : RiskManager where
  cells := .none
  maxPosition := cfg.risk.maxPosition
  maxDailyLoss := cfg.risk.maxDailyLoss
  initialEquity := cfg.risk.initialEquity
  maxDrawdownPause := cfg.risk.maxDrawdownPause
  maxDrawdownFlatten := cfg.risk.maxDrawdownFlatten
  equityPeak := cfg.risk.initialEquity

end Config

/-- `init`, of a worker with `n` strategies. -/
def TradingWorker.init {S : Type} (n id nworkers strategyId : ℕ) (maxPosition : UInt64)
    (sc : StrategyConfig) (strategies : S) : TradingWorker S where
  strategies := strategies
  id := id
  nworkers := nworkers
  strategyId := strategyId
  maxPosition := maxPosition
  weightBp := fun i =>
    match sc.strategies[i]? with
    | some name => if i < n then (sc.weightsBp.lookup name).getD 10000 else 0
    | none => 0
  -- the last one of that name
  primaryIdx := ((List.range n).filter fun i => sc.strategies[i]? = some sc.primary).getLastD 0
  thresholdBp := sc.voteThresholdBp

/-! ### The marks of the workers -/

/-- The mark of a book that has a price on either side. -/
def SimWorker.markOf (b : OrderBook) (locate : ℕ) : List Mark :=
  if quoted b then [(locate, (b.bestBid + b.bestAsk) / 2)] else []

/-- Worker `id` of `n` owns a symbol. -/
def OwnedBy (id n locate : ℕ) : Prop := ¬(1 < n ∧ locate % n ≠ id)

instance (id n locate : ℕ) : Decidable (OwnedBy id n locate) := inferInstanceAs (Decidable (¬ _))

/-- The marks that `n` workers make of an event. -/
def marksOf (n : ℕ) (ev : MarketEvent) : Option OrderBookConsumer → List Mark
  | none => []
  | some view => (List.range n).flatMap fun i =>
      if OwnedBy i n ev.locate then SimWorker.markOf (view.books.book ev.locate) ev.locate else []

/-- They are what the workers make of it, one after the other. -/
theorem SimWorker.onMarketEvent_marks {S : Type} {sts : Strategies S} {w w' : SimWorker S}
    {ev : MarketEvent} {view : OrderBookConsumer} {marks : List Mark}
    (h : w.onMarketEvent sts ev view = some (marks, w')) :
    marks = if OwnedBy w.id w.nworkers ev.locate then
      markOf (view.books.book ev.locate) ev.locate else [] := by
  rw [onMarketEvent] at h
  split at h
  · next howns =>
    obtain ⟨side, -, heq⟩ := Option.map_eq_some_iff.mp h
    exact (Prod.mk.inj heq).1.symm.trans (if_pos howns).symm
  · next hother =>
    exact (Prod.mk.inj (Option.some.inj h)).1.symm.trans (if_neg hother).symm

/-- **One worker owns a symbol**, so that the marks do not depend on how many workers there are. -/
theorem marksOf_eq {n : ℕ} (hn : 0 < n) (ev : MarketEvent) (view : OrderBookConsumer) :
    marksOf n ev (some view) = SimWorker.markOf (view.books.book ev.locate) ev.locate := by
  generalize hms : SimWorker.markOf (view.books.book ev.locate) ev.locate = ms
  have howner : ∀ i < n, OwnedBy i n ev.locate ↔ i = ev.locate % n := by
    intro i hi
    rw [OwnedBy]
    have hlt := Nat.mod_lt ev.locate hn
    omega
  have hone : ∀ m k : ℕ, ((List.range m).flatMap fun i => if i = k then ms else []) =
      if k < m then ms else [] := by
    intro m k
    induction m with
    | zero => rfl
    | succ m ih =>
      rw [List.range_succ, List.flatMap_append, ih, List.flatMap_singleton]
      by_cases hm : m = k
      · subst hm
        rw [if_neg (lt_irrefl m), if_pos rfl, if_pos (Nat.lt_succ_self m), List.nil_append]
      · rw [if_neg hm, List.append_nil]
        exact if_congr (by omega) rfl rfl
  rw [marksOf, hms]
  calc (List.range n).flatMap (fun i => if OwnedBy i n ev.locate then ms else [])
      = (List.range n).flatMap fun i => if i = ev.locate % n then ms else [] :=
        List.flatMap_congr fun i hi => if_congr (howner i (List.mem_range.mp hi)) rfl rfl
    _ = ms := (hone n (ev.locate % n)).trans (if_pos (Nat.mod_lt _ hn))

/-! ### The state -/

/-- `SegmentSnapshot`. -/
structure SegmentSnapshot where
  /-- `segment`. -/
  segment : ℕ
  /-- `equity`. -/
  equity : ℤ
  /-- `drawdown`. -/
  drawdown : ℤ
  /-- `realized_pnl`. -/
  realizedPnl : Int64
  /-- `net_position`. -/
  netPosition : ℤ
  /-- `engine_trades`. -/
  engineTrades : ℕ
  /-- `strategy_resting`. -/
  strategyResting : ℕ
  /-- `strategy_trades`. -/
  strategyTrades : ℕ
  /-- `strategy_filled`. -/
  strategyFilled : UInt64
  /-- `strategy_pnl`. -/
  strategyPnl : Int64
deriving DecidableEq, Repr

/-- One order in the loop of a snapshot: `s_filled` and `net_pos`. -/
def OrderManager.countFilled (om : OrderManager) (sums : UInt64 × ℤ) (id : ℕ) : UInt64 × ℤ :=
  match om.orders id with
  | none => sums
  | some e => (sums.1 + e.filled,
      sums.2 + (if e.order.side = .buy then 1 else -1) * toSigned e.filled)

/-- The loop of a snapshot over the orders. -/
def OrderManager.filledTotals (om : OrderManager) : UInt64 × ℤ :=
  om.visited.foldl om.countFilled (0, 0)

/-- The state of `run_sim`. -/
structure Simulation (S : Type) where
  /-- `ex`, with `om` and `rm`, and `exchange`. -/
  desk : Desk
  /-- `workers`. -/
  workers : List (TradingWorker S)
  /-- The snapshots of `recorder`. -/
  snapshots : List SegmentSnapshot := []
  /-- The decisions that led to an order, each with its worker. -/
  placed : List (ℕ × ArbDecision) := []

namespace Simulation

variable {S : Type} (sts : Strategies S) (onSegment : ℕ → S → S)

/-- The simulation before the replay, with `n` strategies. -/
def start (visits : VisitOrder) (n : ℕ) (strategies : S) (cfg : Config) : Simulation S where
  desk := .new visits cfg.orderIdBase cfg.riskManager cfg.baseQty
    (.new cfg.poolSlots (some cfg.poolSlots) (marksOf cfg.nworkers))
  workers := (List.range cfg.nworkers).map fun i =>
    .init n i cfg.nworkers 1 cfg.risk.maxPosition cfg.strategy strategies

/-! ### Listening -/

/-- A worker hears a broadcast, when the view has taken it. -/
def hearBy (b : Option OrderBookConsumer × MarketEvent) (w : TradingWorker S) :
    Option (TradingWorker S) :=
  match b.1 with
  | none => some w
  | some view => (view.onEvent b.2).bind fun view => (w.onMarketEvent sts b.2 view).map Prod.snd

/-- All workers hear a broadcast. -/
def hear (s : Simulation S) (b : Option OrderBookConsumer × MarketEvent) :
    Option (Simulation S) :=
  (s.workers.mapM (hearBy sts b)).map fun workers => { s with workers := workers }

/-- All workers hear the broadcasts since the first `n`. -/
def hearSince (n : ℕ) (s : Simulation S) : Option (Simulation S) :=
  (s.desk.2.shown.drop n).foldlM (hear sts) s

/-! ### Calls -/

/-- An event of the market. -/
def onMarketOrder (ev : ItchEvent) (s : Simulation S) : Option (Simulation S) :=
  (s.desk.step (.event ev)).bind fun d => hearSince sts s.desk.2.shown.length { s with desk := d }

/-- The signal of a decision. -/
def signalOf (d : ArbDecision) : Signal where
  side := d.dir
  locate := d.locate
  price := 0
  timestamp := 0
  strength := Int64.ofInt d.strength

/-- The end of `arbitrate`, when a decision is placed by worker `i`. -/
def place (i : ℕ) (w : TradingWorker S) (d : ArbDecision) (s : Simulation S) :
    Option (Simulation S) :=
  (s.desk.placeDecision (signalOf d) w.strategyId).bind fun (oid, desk) =>
    hearSince sts s.desk.2.shown.length
      { s with
        desk := desk
        workers := s.workers.set i
          (if oid ≠ 0 then { w with lastSide := d.dir, lastStr := d.strength } else w)
        placed := if oid ≠ 0 then s.placed ++ [(i, d)] else s.placed }

/-- `arbitrate` of worker `i`. -/
def arbitrate (segment : ℕ) (s : Simulation S) (i : ℕ) : Option (Simulation S) :=
  match s.workers[i]? with
  | none => some s
  | some w =>
    let w := w.onSegmentAll onSegment segment
    let d := w.decide sts
    if !d.act then some { s with workers := s.workers.set i w }
    else if w.blocked (s.desk.1.engine.riskManager.position d.locate) d.dir || !w.renewed d then
      some { s with workers := s.workers.set i w }
    else place sts i w d s

/-- The snapshot of a segment. -/
def snapshot (segment : ℕ) (s : Simulation S) : SegmentSnapshot where
  segment := segment
  equity := s.desk.1.engine.riskManager.equity
  drawdown := s.desk.1.engine.riskManager.drawdown
  realizedPnl := s.desk.1.engine.riskManager.realizedPnl
  netPosition := s.desk.1.engine.orderManager.filledTotals.2
  engineTrades := s.desk.2.trades
  strategyResting := s.desk.2.strategyRefs.card
  strategyTrades := s.desk.1.log.trades.length
  strategyFilled := s.desk.1.engine.orderManager.filledTotals.1
  strategyPnl := s.desk.1.engine.riskManager.realizedPnl

/-- The workers arbitrate, one after the other. -/
def arbitrateAll (segment : ℕ) (s : Simulation S) : Option (Simulation S) :=
  (List.range s.workers.length).foldlM (arbitrate sts onSegment segment) s

/-- The end of a segment. -/
def window (segment : ℕ) (s : Simulation S) : Option (Simulation S) :=
  (arbitrateAll sts onSegment segment s).map fun s =>
    { s with snapshots := s.snapshots ++ [s.snapshot segment] }

/-- The states of a simulation of `n` strategies, from any configuration on, by events that satisfy
a condition on the state they come in. Segments are counted. -/
inductive Runs (n : ℕ) (strategies : S) (ok : Desk → Desk.Call → Prop) : Simulation S → Prop
  | start (visits : VisitOrder) (cfg : Config) (hlo : 2 ≤ cfg.poolSlots)
      (hhi : cfg.poolSlots ≤ 2 ^ 31) : Runs n strategies ok (start visits n strategies cfg)
  | event {s s' : Simulation S} (ev : ItchEvent) (h : Runs n strategies ok s)
      (hev : ok s.desk (.event ev)) (hcall : onMarketOrder sts ev s = some s') :
      Runs n strategies ok s'
  | window {s s' : Simulation S} (h : Runs n strategies ok s)
      (hcall : window sts onSegment s.snapshots.length s = some s') : Runs n strategies ok s'

/-- Events one after the other, as long as they pass a test, and an end of a segment where there is
none. -/
def play (test : Desk → Desk.Call → Bool) :
    List (Option ItchEvent) → Simulation S → Option (Simulation S)
  | [], s => some s
  | some ev :: evs, s =>
    if test s.desk (.event ev) then (onMarketOrder sts ev s).bind (play test evs) else none
  | none :: evs, s => (window sts onSegment s.snapshots.length s).bind (play test evs)

variable {sts} {onSegment}

/-- A weaker condition allows more. -/
theorem Runs.mono {n : ℕ} {strategies : S} {ok ok' : Desk → Desk.Call → Prop}
    (hle : ∀ d c, ok d c → ok' d c) {s : Simulation S}
    (h : Runs sts onSegment n strategies ok s) : Runs sts onSegment n strategies ok' s := by
  induction h with
  | start visits cfg hlo hhi => exact .start visits cfg hlo hhi
  | event ev _ hev hcall ih => exact ih.event ev (hle _ _ hev) hcall
  | window _ hcall ih => exact ih.window hcall

/-- A run that passes a test is a run, if the test implies the condition. -/
theorem Runs.play {n : ℕ} {strategies : S} {ok : Desk → Desk.Call → Prop}
    {test : Desk → Desk.Call → Bool}
    (htest : ∀ {s ev}, Runs sts onSegment n strategies ok s → test s.desk (.event ev) = true →
      ok s.desk (.event ev)) {evs : List (Option ItchEvent)} {s s' : Simulation S}
    (h : Runs sts onSegment n strategies ok s)
    (hrun : Simulation.play sts onSegment test evs s = some s') :
    Runs sts onSegment n strategies ok s' := by
  induction evs generalizing s with
  | nil => exact Option.some.inj hrun ▸ h
  | cons ev evs ih =>
    cases ev with
    | none =>
      obtain ⟨s₁, hcall, hrest⟩ := Option.bind_eq_some_iff.mp hrun
      exact ih (h.window hcall) hrest
    | some ev =>
      rw [Simulation.play] at hrun
      split at hrun
      · next hpass =>
        obtain ⟨s₁, hcall, hrest⟩ := Option.bind_eq_some_iff.mp hrun
        exact ih (h.event ev (htest h hpass) hcall) hrest
      · exact absurd hrun (by simp)

/-! ### What listening does -/

/-- **A worker was fed**: its strategies took events of its symbols, and nothing else changed. -/
def Fed (sts : Strategies S) (w w' : TradingWorker S) : Prop :=
  ∃ fed : List (MarketEvent × BookContext), (∀ p ∈ fed, w.owns p.1.locate) ∧
    w' = { w with strategies := fed.foldl (fun s p => sts.feed p.1 p.2 s) w.strategies }

theorem Fed.refl (w : TradingWorker S) : Fed sts w w := ⟨[], by simp, rfl⟩

theorem Fed.trans {w w' w'' : TradingWorker S} (h : Fed sts w w') (h' : Fed sts w' w'') :
    Fed sts w w'' := by
  obtain ⟨fed, howns, rfl⟩ := h
  obtain ⟨fed', howns', rfl⟩ := h'
  refine ⟨fed ++ fed', fun p hp => ?_, ?_⟩
  · exact (List.mem_append.mp hp).elim (howns p) (howns' p)
  · rw [List.foldl_append]

theorem hearBy_fed {b : Option OrderBookConsumer × MarketEvent} {w w' : TradingWorker S}
    (h : hearBy sts b w = some w') : Fed sts w w' := by
  obtain ⟨view?, ev⟩ := b
  cases view? with
  | none =>
    obtain rfl := Option.some.inj h
    exact .refl w
  | some view =>
    obtain ⟨view', -, hmap⟩ := Option.bind_eq_some_iff.mp h
    obtain ⟨⟨marks, w₁⟩, hcall, rfl⟩ := Option.map_eq_some_iff.mp hmap
    obtain ⟨⟨marks', listener⟩, hheard, heq⟩ := Option.map_eq_some_iff.mp hcall
    obtain ⟨-, rfl⟩ := Prod.mk.inj heq
    rw [SimWorker.onMarketEvent] at hheard
    split at hheard
    · next howns =>
      obtain ⟨side, -, heq⟩ := Option.map_eq_some_iff.mp hheard
      obtain ⟨-, rfl⟩ := Prod.mk.inj heq
      exact ⟨[(ev, _)], fun p hp => List.mem_singleton.mp hp ▸ howns, rfl⟩
    · obtain ⟨-, rfl⟩ := Prod.mk.inj (Option.some.inj hheard)
      exact .refl w

/-- What listening leaves of a state, and what it does to the workers. -/
structure Listened (sts : Strategies S) (s s' : Simulation S) : Prop where
  /-- The desk. -/
  desk : s'.desk = s.desk
  /-- The snapshots. -/
  snapshots : s'.snapshots = s.snapshots
  /-- The decisions. -/
  placed : s'.placed = s.placed
  /-- How many workers there are. -/
  length : s'.workers.length = s.workers.length
  /-- The workers. -/
  fed : ∀ (i : ℕ) (w' : TradingWorker S), s'.workers[i]? = some w' →
    ∃ w, s.workers[i]? = some w ∧ Fed sts w w'

theorem Listened.refl (s : Simulation S) : Listened sts s s :=
  ⟨rfl, rfl, rfl, rfl, fun _ w hw => ⟨w, hw, .refl w⟩⟩

/-- **The workers listen.** -/
theorem hearSince_listened {n : ℕ} {s s' : Simulation S} (h : hearSince sts n s = some s') :
    Listened sts s s' := by
  refine Fold.keeps (I := Listened sts s) (fun {s₁ b s₂} hs₁ hcall => ?_) (.refl s) h
  obtain ⟨workers, hmap, rfl⟩ := Option.map_eq_some_iff.mp hcall
  obtain ⟨hlength, hget⟩ := Fold.getElem?_of_mapM hmap
  refine ⟨hs₁.desk, hs₁.snapshots, hs₁.placed, hlength.trans hs₁.length, fun i w' hw' => ?_⟩
  obtain ⟨w₁, hw₁, hheard⟩ := hget i w' hw'
  obtain ⟨w, hw, hfed⟩ := hs₁.fed i w₁ hw₁
  exact ⟨w, hw, hfed.trans (hearBy_fed hheard)⟩

/-! ### What the calls do -/

section Calls

variable {segment i : ℕ} {s s' : Simulation S}

/-- **An event** is one of the desk, and then the workers listen. -/
theorem onMarketOrder_spec {ev : ItchEvent} (h : onMarketOrder sts ev s = some s') :
    ∃ d, s.desk.step (.event ev) = some d ∧ Listened sts { s with desk := d } s' := by
  obtain ⟨d, hcall, hlisten⟩ := Option.bind_eq_some_iff.mp h
  exact ⟨d, hcall, hearSince_listened hlisten⟩

/-- The state in which a decision was placed by worker `i`. -/
def afterPlace (s : Simulation S) (i : ℕ) (w : TradingWorker S) (d : ArbDecision) (oid : ℕ)
    (desk : Desk) : Simulation S :=
  { s with
    desk := desk
    workers := s.workers.set i
      (if oid ≠ 0 then { w with lastSide := d.dir, lastStr := d.strength } else w)
    placed := if oid ≠ 0 then s.placed ++ [(i, d)] else s.placed }

/-- What the window of a worker comes to. -/
inductive Arbitrated (sts : Strategies S) (onSegment : ℕ → S → S) (segment i : ℕ)
    (s s' : Simulation S) : Prop
  | absent (hw : s.workers[i]? = none) (heq : s' = s)
  | waited (w : TradingWorker S) (hw : s.workers[i]? = some w)
      (heq : s' = { s with workers := s.workers.set i (w.onSegmentAll onSegment segment) })
  | acted (w w' : TradingWorker S) (d : ArbDecision) (hw : s.workers[i]? = some w)
      (hw' : w' = w.onSegmentAll onSegment segment) (hd : d = w'.decide sts) (hact : d.act = true)
      (hrenewed : w'.renewed d = true) (oid : ℕ) (desk : Desk)
      (hplace : s.desk.placeDecision (signalOf d) w'.strategyId = some (oid, desk))
      (hlisten : Listened sts (s.afterPlace i w' d oid desk) s')

/-- **The window of a worker**: it waits, or places its decision, and then the workers listen. -/
theorem arbitrated_of_arbitrate (h : arbitrate sts onSegment segment s i = some s') :
    Arbitrated sts onSegment segment i s s' := by
  rw [arbitrate] at h
  cases hw : s.workers[i]? with
  | none =>
    simp only [hw] at h
    exact .absent hw (Option.some.inj h).symm
  | some w =>
    simp only [hw] at h
    split at h
    · exact .waited w hw (Option.some.inj h).symm
    · next hact =>
      split at h
      · exact .waited w hw (Option.some.inj h).symm
      · next hgo =>
        rw [Bool.or_eq_true, not_or, Bool.not_eq_true', Bool.not_eq_false] at hgo
        rw [Bool.not_eq_true', Bool.not_eq_false] at hact
        obtain ⟨⟨oid, desk⟩, hplace, hlisten⟩ := Option.bind_eq_some_iff.mp h
        exact .acted w _ _ hw rfl rfl hact hgo.2 oid desk hplace (hearSince_listened hlisten)

/-- A placed decision is one of the desk. -/
theorem step_of_placeDecision {sig : Signal} {strategyId oid : ℕ} {d d' : Desk}
    (h : d.placeDecision sig strategyId = some (oid, d')) :
    d.step (.decision sig strategyId) = some d' :=
  Option.map_eq_some_iff.mpr ⟨(oid, d'), h, rfl⟩

/-- The desk in the window of a worker. -/
theorem Arbitrated.desk (h : Arbitrated sts onSegment segment i s s') : s'.desk = s.desk ∨
    ∃ sig strategyId, s.desk.step (.decision sig strategyId) = some s'.desk := by
  cases h with
  | absent _ heq => exact Or.inl (congrArg Simulation.desk heq)
  | waited w _ heq =>
    rw [heq]
    exact Or.inl rfl
  | acted w w' d _ _ _ _ _ oid desk hplace hlisten =>
    refine Or.inr ⟨signalOf d, w'.strategyId, ?_⟩
    rw [hlisten.desk]
    exact step_of_placeDecision hplace

/-- No window but that of the whole segment takes a snapshot. -/
theorem Arbitrated.snapshots (h : Arbitrated sts onSegment segment i s s') :
    s'.snapshots = s.snapshots := by
  cases h with
  | absent _ heq => exact congrArg Simulation.snapshots heq
  | waited w _ heq => rw [heq]
  | acted w w' d _ _ _ _ _ oid desk _ hlisten => exact hlisten.snapshots

/-- **The end of a segment**: the workers arbitrate, and then the snapshot is taken. -/
theorem window_spec (h : window sts onSegment segment s = some s') :
    ∃ s₁, arbitrateAll sts onSegment segment s = some s₁ ∧
      s' = { s₁ with snapshots := s₁.snapshots ++ [s₁.snapshot segment] } := by
  obtain ⟨s₁, hall, rfl⟩ := Option.map_eq_some_iff.mp h
  exact ⟨s₁, hall, rfl⟩

/-- **What the window of every worker keeps**, their windows keep. -/
theorem arbitrateAll_keeps {I : Simulation S → Prop}
    (hstep : ∀ {s i s'}, I s → Arbitrated sts onSegment segment i s s' → I s') (hs : I s)
    (h : arbitrateAll sts onSegment segment s = some s') : I s' :=
  Fold.keeps (fun hs hcall => hstep hs (arbitrated_of_arbitrate hcall)) hs h

/-- **The end of a segment** adds the row of what it leaves. -/
theorem window_snapshots (h : window sts onSegment segment s = some s') :
    s'.snapshots = s.snapshots ++ [s'.snapshot segment] := by
  obtain ⟨s₁, hall, rfl⟩ := window_spec h
  have hrows : s₁.snapshots = s.snapshots :=
    arbitrateAll_keeps (I := fun s' => s'.snapshots = s.snapshots)
      (fun hs hstep => hstep.snapshots.trans hs) rfl hall
  show s₁.snapshots ++ [_] = s.snapshots ++ [_]
  rw [hrows]
  rfl

/-- The windows of the workers are calls of the desk, if decisions are always allowed. -/
theorem arbitrateAll_desk {ok : Desk → Desk.Call → Prop}
    (hfree : ∀ d sig strategyId, ok d (.decision sig strategyId)) (hs : Desk.Runs ok s.desk)
    (h : arbitrateAll sts onSegment segment s = some s') : Desk.Runs ok s'.desk := by
  refine arbitrateAll_keeps (I := fun s => Desk.Runs ok s.desk) (fun {s i s'} hs hstep => ?_) hs h
  rcases hstep.desk with heq | ⟨sig, strategyId, hcall⟩
  · rw [heq]
    exact hs
  · exact hs.call _ (hfree _ _ _) hcall

/-- **Every run of the simulation is a run of the desk**: the replay and the workers do to it what
its calls do, and nothing else. -/
theorem Runs.desk {n : ℕ} {strategies : S} {ok : Desk → Desk.Call → Prop}
    (hfree : ∀ d sig strategyId, ok d (.decision sig strategyId))
    (h : Runs sts onSegment n strategies ok s) : Desk.Runs ok s.desk := by
  induction h with
  | start visits cfg hlo hhi =>
    exact .start visits cfg.orderIdBase cfg.riskManager cfg.baseQty cfg.poolSlots
      (some cfg.poolSlots) _ ⟨rfl, rfl⟩ hlo hhi fun n hn => Option.some.inj hn ▸ ⟨hlo, hhi⟩
  | event ev _ hev hcall ih =>
    obtain ⟨d, hstep, hlisten⟩ := onMarketOrder_spec hcall
    rw [hlisten.desk]
    exact ih.call _ hev hstep
  | window _ hcall ih =>
    obtain ⟨s₁, hall, rfl⟩ := window_spec hcall
    have hdesk : Desk.Runs ok s₁.desk := arbitrateAll_desk hfree ih hall
    exact hdesk

end Calls

/-! ### Everything returns -/

section Returns

variable {s : Simulation S}

variable (sts) in
/-- **The workers can listen** to broadcasts that the view could take. -/
theorem hearSince_returns (n : ℕ) (h : Told s.desk.2) : ∃ s', hearSince sts n s = some s' := by
  have hhear : ∀ bs : List (Option OrderBookConsumer × MarketEvent),
      (∀ b ∈ bs, b ∈ s.desk.2.shown) →
        ∀ s₁ : Simulation S, ∃ s', bs.foldlM (hear sts) s₁ = some s' := by
    intro bs
    induction bs with
    | nil => exact fun _ s₁ => ⟨s₁, rfl⟩
    | cons b bs ih =>
      intro hbs s₁
      have hworker : ∀ w ∈ s₁.workers, ∃ w', hearBy sts b w = some w' := by
        intro w _
        rw [hearBy]
        cases hb : b.1 with
        | none => exact ⟨w, rfl⟩
        | some c =>
          obtain ⟨c', hc', hside⟩ := h.sides (hbs b List.mem_cons_self) hb
          have hsides : ∃ side, SimWorker.eventSide c' b.2 = some side := by
            rw [SimWorker.eventSide]
            cases b.2.body with
            | add o => exact ⟨_, rfl⟩
            | replace o => exact ⟨_, rfl⟩
            | trade t => exact hside t.orderRef
            | execute t => exact hside t.orderRef
            | delete o => exact hside o.orderRef
            | cancel o => exact hside o.orderRef
          obtain ⟨side, hside⟩ := hsides
          have hlistens : ∃ r, SimWorker.onMarketEvent sts w.toSimWorker b.2 c' = some r := by
            rw [SimWorker.onMarketEvent]
            split
            · exact ⟨_, Option.map_eq_some_iff.mpr ⟨side, hside, rfl⟩⟩
            · exact ⟨_, rfl⟩
          obtain ⟨r, hr⟩ := hlistens
          dsimp only
          rw [hc', Option.bind_some, TradingWorker.onMarketEvent, hr]
          exact ⟨_, rfl⟩
      obtain ⟨workers, hmap⟩ := exists_of_mapM hworker
      obtain ⟨s', hrest⟩ := ih (fun b hb => hbs b (List.mem_cons_of_mem _ hb))
        { s₁ with workers := workers }
      exact ⟨s', Option.bind_eq_some_iff.mpr
        ⟨_, Option.map_eq_some_iff.mpr ⟨workers, hmap, rfl⟩, hrest⟩⟩
  exact hhear _ (fun b hb => List.mem_of_mem_drop hb) s

variable (sts onSegment) in
/-- **The window of a worker** returns. -/
theorem arbitrate_returns (segment i : ℕ) (h : Desk.Runs Desk.Shown s.desk) :
    ∃ s', arbitrate sts onSegment segment s i = some s' := by
  rw [arbitrate]
  cases s.workers[i]? with
  | none => exact ⟨s, rfl⟩
  | some w =>
    dsimp only
    split
    · exact ⟨_, rfl⟩
    · split
      · exact ⟨_, rfl⟩
      · generalize (w.onSegmentAll onSegment segment).decide sts = d
        generalize w.onSegmentAll onSegment segment = w'
        have hshown : Desk.Shown s.desk (.decision (signalOf d) w'.strategyId) := ⟨trivial, trivial⟩
        obtain ⟨desk, hcall⟩ := h.returns hshown
        have htold : Told desk.2 := (h.call _ hshown hcall).told
        obtain ⟨⟨oid, desk'⟩, hplace, rfl⟩ := Option.map_eq_some_iff.mp hcall
        have htold : Told (s.afterPlace i w' d oid desk').desk.2 := htold
        obtain ⟨s', hlisten⟩ := hearSince_returns sts s.desk.2.shown.length htold
        exact ⟨s', Option.bind_eq_some_iff.mpr ⟨(oid, desk'), hplace, hlisten⟩⟩

variable (sts) in
/-- **An event** that the contract allows returns, and the run of the desk goes on. -/
theorem onMarketOrder_returns (h : Desk.Runs Desk.Shown s.desk) {ev : ItchEvent}
    (hev : Desk.Shown s.desk (.event ev)) :
    ∃ s', onMarketOrder sts ev s = some s' ∧ Desk.Runs Desk.Shown s'.desk := by
  obtain ⟨d, hcall⟩ := h.returns hev
  have hnext : Desk.Runs Desk.Shown d := h.call _ hev hcall
  have htold : Told ({ s with desk := d } : Simulation S).desk.2 := hnext.told
  obtain ⟨s', hlisten⟩ := hearSince_returns sts s.desk.2.shown.length htold
  refine ⟨s', Option.bind_eq_some_iff.mpr ⟨d, hcall, hlisten⟩, ?_⟩
  rw [(hearSince_listened hlisten).desk]
  exact hnext

variable (sts onSegment) in
/-- **The end of a segment** returns, and the run of the desk goes on. -/
theorem window_returns (segment : ℕ) (h : Desk.Runs Desk.Shown s.desk) :
    ∃ s', window sts onSegment segment s = some s' ∧ Desk.Runs Desk.Shown s'.desk := by
  have hall : ∃ s', arbitrateAll sts onSegment segment s = some s' ∧
      Desk.Runs Desk.Shown s'.desk := by
    refine Fold.returns (fun s i hs => ?_) _ h
    obtain ⟨s', hcall⟩ := arbitrate_returns sts onSegment segment i hs
    refine ⟨s', hcall, ?_⟩
    rcases (arbitrated_of_arbitrate hcall).desk with heq | ⟨sig, strategyId, hstep⟩
    · rw [heq]
      exact hs
    · exact hs.call (.decision sig strategyId) ⟨trivial, trivial⟩ hstep
  obtain ⟨s', hcall, hdesk⟩ := hall
  exact ⟨_, Option.map_eq_some_iff.mpr ⟨s', hcall, rfl⟩, hdesk⟩

/-- **The simulation goes on**: in a run where the market keeps the contract, its adds find room and
no index has dropped an insert, every further event returns, and so does the end of a segment. The
lock of the model can be taken again by its holder, that of the source would never be given: it is
not taken twice. -/
theorem never_stuck {n : ℕ} {strategies : S} (h : Runs sts onSegment n strategies Desk.Shown s) :
    (∀ ev, Desk.Shown s.desk (.event ev) → ∃ s', onMarketOrder sts ev s = some s' ∧
      s'.desk.1.engine.relocked = false) ∧
      ∀ segment, ∃ s', window sts onSegment segment s = some s' ∧
        s'.desk.1.engine.relocked = false := by
  have hdesk := h.desk fun _ _ _ => ⟨trivial, trivial⟩
  have honce : ∀ {s' : Simulation S}, Desk.Runs Desk.Shown s'.desk →
      s'.desk.1.engine.relocked = false :=
    fun hs' => (hs'.mono fun _ _ hc => hc.1).foreign.booked.once
  refine ⟨fun ev hev => ?_, fun segment => ?_⟩
  · obtain ⟨s', hcall, hs'⟩ := onMarketOrder_returns sts hdesk hev
    exact ⟨s', hcall, honce hs'⟩
  · obtain ⟨s', hcall, hs'⟩ := window_returns sts onSegment segment hdesk
    exact ⟨s', hcall, honce hs'⟩

/-- Strategies that do nothing at the end of a segment, as those of the source do. -/
def idle {S : Type} (_ : ℕ) (strategies : S) : S := strategies

/-- A bid of 100 at 99 and an offer of 10 at 101, which the first segment ends with. Then there is
an offer of 90 at 102, and 90 of the bid are cancelled. -/
def twoSegments : List (Option ItchEvent) :=
  [some (.add 0 1 .buy 99 100), some (.add 0 2 .sell 101 10), none,
    some (.add 0 3 .sell 102 90), some (.cancel 0 1 90), none]

/-- Two workers that take them, with the order book strategy for the primary. -/
def twoWorkers : Simulation (OrderFlowImbalanceStrategy × OrderBookImbalanceStrategy × Unit) :=
  start .inserted 2 ({}, {}, ())
    { poolSlots := 4, workers := 2, baseQty := 10, orderIdBase := 1000
      strategy := { primary := "obi" } }

/-- The run of them. -/
def played : Option (Simulation (OrderFlowImbalanceStrategy × OrderBookImbalanceStrategy × Unit)) :=
  play TradingWorker.flowAndBook idle Desk.marketTest twoSegments twoWorkers

theorem runs_played {ok : Desk → Desk.Call → Prop}
    (hok : ∀ {d c}, Desk.Shown d c → ok d c)
    {s : Simulation (OrderFlowImbalanceStrategy × OrderBookImbalanceStrategy × Unit)}
    (hrun : played = some s) : Runs TradingWorker.flowAndBook idle 2 ({}, {}, ()) ok s := by
  have hshown : Runs TradingWorker.flowAndBook idle 2 ({}, {}, ()) Desk.Shown s := by
    refine Runs.play (fun {s ev} hr htest => ?_) (.start .inserted _ (by decide) (by decide)) hrun
    obtain ⟨base, hapart, -⟩ := (hr.desk fun _ _ _ => ⟨trivial, trivial⟩).mirrored
    exact Desk.shown_of_test hapart.inv htest
  exact hshown.mono fun _ _ => hok

/-- After the run a delete of the offer returns, and so does the end of a segment. -/
theorem never_stuck_two : ∃ s s₁ s₂, played = some s ∧
    (onMarketOrder TradingWorker.flowAndBook (.delete 0 3) s = some s₁ ∧
      s₁.desk.1.engine.relocked = false) ∧
    window TradingWorker.flowAndBook idle 2 s = some s₂ ∧
      s₂.desk.1.engine.relocked = false := by
  have hread : played.map (fun s => Desk.marketTest s.desk (.event (.delete 0 3))) = some true := by
    decide +kernel
  obtain ⟨s, hrun, htest⟩ := Option.map_eq_some_iff.mp hread
  have hr := runs_played (fun h => h) hrun
  obtain ⟨base, hapart, -⟩ := (hr.desk fun _ _ _ => ⟨trivial, trivial⟩).mirrored
  obtain ⟨hevent, hwindow⟩ := never_stuck hr
  obtain ⟨s₁, hcall⟩ := hevent _ (Desk.shown_of_test hapart.inv htest)
  obtain ⟨s₂, hcall'⟩ := hwindow 2
  exact ⟨s, s₁, s₂, hrun, hcall, hcall'⟩

end Returns

end Simulation

end NebulaX
