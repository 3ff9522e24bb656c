import NebulaX.Replay.RoundTrip
import NebulaX.Sim.Snapshots

/-!
# The program

`main` and `run_sim` of `src/sim_main.cpp`, from the bytes of a file to the two reports at the end:
`summary.txt`, which `ResultRecorder::write` of `src/analysis/result_recorder.cpp` writes, and the
lines on `stdout`. Numbers that are computed in floating point are left out, and so are the texts.

The source says that the two are consistent. They are computed apart, and agree on everything but
two numbers. The drawdown in `summary.txt` is computed anew from the equity at the ends of the
segments, so that it misses what was lost from a peak within a segment. And without a message the
final equity is 0 there, and the initial equity on `stdout`.

Three things are assumed. No message introduces an order with the reference 1314414421, which is
the user of the strategy (`Clean`): such an order would be taken for one of the strategy's. A
segment has at least one message. And there are from 2 to `2 ^ 31` slots for orders.

## Main results

* `begun_segmented` — what a replay makes of the simulation
* `runSim_returns` — the replay of a file whose events the market may send returns, if the primary
  strategy is listed
* `main_reports` — how far the two reports agree, for such a file and any other configuration
-/

namespace NebulaX

open BigEndian (unframe frame)
open Desk (Booked Audited)
open TradeLog (filledIn filledOn)

/-! ### The reports -/

/-- `summary.txt`, as far as it is counted in integers. -/
structure Summary where
  /-- `messages_processed`. -/
  messages : ℕ
  /-- `order_events`. -/
  orderEvents : ℕ
  /-- `segments`. -/
  segments : ℕ
  /-- `engine_trades`. -/
  engineTrades : ℕ
  /-- `n_orders`. -/
  orders : ℕ
  /-- `n_filled`. -/
  filled : ℕ
  /-- `n_rejected`. -/
  rejected : ℕ
  /-- `n_cancelled`. -/
  cancelled : ℕ
  /-- `strat_trades`. -/
  stratTrades : ℕ
  /-- `active`. -/
  active : ℕ
  /-- `passive`. -/
  passive : ℕ
  /-- `strat_filled`. -/
  stratFilled : UInt64
  /-- `slip_sum`. -/
  slipSum : Int64
  /-- `slip_cnt`. -/
  slipCnt : ℕ
  /-- `realized`. -/
  realized : Int64
  /-- `final_eq`. -/
  finalEq : ℤ
  /-- `max_dd`. -/
  maxDd : ℤ
deriving DecidableEq, Repr

/-- The lines on `stdout`. -/
structure Totals where
  /-- `messages`. -/
  messages : ℕ
  /-- `order_events`. -/
  orderEvents : ℕ
  /-- `segments`. -/
  segments : ℕ
  /-- `engine trades`. -/
  engineTrades : ℕ
  /-- `strategy orders`. -/
  strategyOrders : ℕ
  /-- `traded`. -/
  traded : ℕ
  /-- `qty`. -/
  qty : UInt64
  /-- `strategy rest`. -/
  strategyRest : ℕ
  /-- `realized pnl`. -/
  realizedPnl : Int64
  /-- `final equity`. -/
  finalEquity : ℤ
  /-- `max drawdown`. -/
  maxDrawdown : ℤ
deriving DecidableEq, Repr

/-- The body of the loop over the snapshots in `write`: `peak` and `max_dd`. -/
def SegmentSnapshot.fall (s : ℤ × ℤ) (row : SegmentSnapshot) : ℤ × ℤ :=
  let peak := if s.1 < row.equity then row.equity else s.1
  let dd := peak - row.equity
  (peak, if s.2 < dd then dd else s.2)

namespace Simulation

variable {S : Type}

/-- `orders_`: every order as it is at the end. -/
def orders (s : Simulation S) : List (ℕ × Entry) :=
  s.desk.1.engine.orderManager.visited.filterMap fun id =>
    (s.desk.1.engine.orderManager.orders id).map fun e => (id, e)

/-- What `write` puts into `summary.txt`. -/
def summary (replay : ReplayEngine (Option (Simulation S))) (s : Simulation S) : Summary where
  messages := replay.messagesProcessed
  orderEvents := replay.orderEvents
  segments := replay.segments
  engineTrades := s.desk.2.trades
  orders := s.orders.length
  filled := s.orders.countP fun o => o.2.status = .filled
  rejected := s.orders.countP fun o => o.2.status = .rejected
  cancelled := s.orders.countP fun o => o.2.status = .cancelled
  stratTrades := s.trades.length
  active := s.trades.countP fun t => !t.passive
  passive := s.trades.countP fun t => t.passive
  stratFilled := s.trades.foldl (fun sum t => sum + t.qty) 0
  slipSum := s.trades.foldl (fun sum t => if 0 < t.mid then sum + t.slip else sum) 0
  slipCnt := s.trades.countP fun t => 0 < t.mid
  realized := (s.snapshots.getLast?.map SegmentSnapshot.realizedPnl).getD 0
  finalEq := (s.snapshots.getLast?.map SegmentSnapshot.equity).getD 0
  maxDd := (s.snapshots.foldl SegmentSnapshot.fall (0, 0)).2

/-- What `run_sim` prints. -/
def totals (replay : ReplayEngine (Option (Simulation S))) (s : Simulation S) : Totals where
  messages := replay.messagesProcessed
  orderEvents := replay.orderEvents
  segments := replay.segments
  engineTrades := s.desk.2.trades
  strategyOrders := s.desk.1.engine.orderManager.ids.length
  traded := s.trades.length
  qty := s.trades.foldl (fun sum t => sum + t.qty) 0
  strategyRest := s.desk.2.strategyRefs.card
  realizedPnl := s.desk.1.engine.riskManager.realizedPnl
  finalEquity := (s.snapshots.getLast?.map SegmentSnapshot.equity).getD
    s.desk.1.engine.riskManager.equity
  maxDrawdown := s.snapshots.foldl (fun dd row => if dd < row.drawdown then row.drawdown else dd) 0

/-! ### The program -/

variable (sts : Strategies S) (onSegment : ℕ → S → S)

/-- What the replay calls. It goes no further once a call has failed. -/
def handlers : ReplayHandlers (Option (Simulation S)) where
  onMarketOrder := fun ev s => s.bind (onMarketOrder sts ev)
  onSegmentBoundary := some fun seg s => s.bind (window sts onSegment seg)

end Simulation

/-- `run_sim`, for `n` strategies: the exit code and the reports. The replay is given `fuel`. -/
def runSim {S : Type} (sts : Strategies S) (n : ℕ) (strategies : S) (visits : VisitOrder)
    (uninit : ℕ → RawItchEvent) (fuel : ℕ) (cfg : Config) (rcfg : ReplayConfig) :
    Option (ℕ × Option (Summary × Totals)) :=
  if cfg.strategy.strategies ≠ [] ∧ cfg.strategy.primary ≠ "" ∧
      cfg.strategy.primary ∉ cfg.strategy.strategies then some (1, none)
  else
    let handlers := Simulation.handlers sts Simulation.idle
    (ReplayEngine.run handlers uninit rcfg fuel
      { src := {}, parser := {}, ex := some (.start visits n strategies cfg) }).bind fun replay =>
        replay.ex.map fun s => (0, some (s.summary replay, s.totals replay))

/-- `main`, with the configuration it has loaded. -/
def main (visits : VisitOrder) (uninit : ℕ → RawItchEvent) (fuel : ℕ) (cfg : Config)
    (rcfg : ReplayConfig) : Option (ℕ × Option (Summary × Totals)) :=
  let st := cfg.strategy.strategies
  let flow := OrderFlowImbalanceStrategy.strategy
  let book := OrderBookImbalanceStrategy.strategy
  if st = ["ofi", "obi"] then
    runSim (.cons flow (.cons book .nil)) 2 ({}, {}, ()) visits uninit fuel cfg rcfg
  else if st = ["ofi"] then runSim (.cons flow .nil) 1 ({}, ()) visits uninit fuel cfg rcfg
  else if st = ["obi"] then runSim (.cons book .nil) 1 ({}, ()) visits uninit fuel cfg rcfg
  else if st = [] then runSim .nil 0 () visits uninit fuel cfg rcfg
  else some (1, none)

namespace Simulation

variable {S : Type} {sts : Strategies S} {onSegment : ℕ → S → S}

/-! ### The replay and the simulation -/

/-- **No message makes an event** with the strategy's user for a reference. -/
def Clean (body : List UInt8) : Prop :=
  ∀ (p p' : ItchParser) (ev r : RawItchEvent), p.feed body ev = some (some r, p') → r.event.Foreign

/-- **The simulation as it is reported**: as it was started, or with a last row that says what there
is. -/
def Settled (visits : VisitOrder) (n : ℕ) (strategies : S) (cfg : Config) (s : Simulation S) :
    Prop :=
  s = start visits n strategies cfg ∨
    ∃ segment, s.snapshots.getLast? = some (s.snapshot segment)

variable (sts onSegment) in
/-- **The simulation in a replay**, after `m` messages in segments of `size`, `k` of which have
ended. -/
structure Begun (visits : VisitOrder) (n : ℕ) (strategies : S) (cfg : Config) (size m k : ℕ)
    (s : Simulation S) : Prop where
  /-- It is in a run. -/
  runs : Runs sts onSegment n strategies Desk.Foreign s
  /-- The initial equity. -/
  initialEquity : s.riskManager.initialEquity = cfg.risk.initialEquity
  /-- A row for every segment. -/
  rows : s.snapshots.length = k
  /-- Between two segments it can be reported. -/
  settled : m ≤ k * size → Settled visits n strategies cfg s

/-- The event of a message satisfies a condition on the desk, if the simulation goes on. -/
def Allowed (ok : Desk → Desk.Call → Prop) (uninit : ℕ → RawItchEvent)
    (r : ItchParser × Option (Simulation S)) : Segments.Step (List UInt8 × ℕ) → Prop
  | .item m => ∀ s ev p', r.2 = some s → r.1.feed m.1 (uninit m.2) = some (some ev, p') →
      ok s.desk (.event ev.event)
  | .close _ => True

/-- A weaker condition. -/
theorem Allowed.mono {ok ok' : Desk → Desk.Call → Prop} (hle : ∀ d c, ok d c → ok' d c)
    {uninit : ℕ → RawItchEvent} {r : ItchParser × Option (Simulation S)}
    {step : Segments.Step (List UInt8 × ℕ)} (h : Allowed ok uninit r step) :
    Allowed ok' uninit r step := by
  cases step with
  | item m => exact fun s ev p' hs hfeed => hle _ _ (h s ev p' hs hfeed)
  | close => trivial

section Replay

variable {uninit : ℕ → RawItchEvent} {p p' : ItchParser} {x x' : Option (Simulation S)} {n : ℕ}
  {strategies : S} {visits : VisitOrder} {cfg : Config} {size m k : ℕ}

open ReplayEngine (perform performAll)

/-- **A message** is an event, or nothing. -/
theorem Begun.item {s : Simulation S} {item : List UInt8 × ℕ}
    (hallowed : Allowed Desk.Foreign uninit (p, x) (.item item))
    (hbefore : ∀ s, x = some s → Begun sts onSegment visits n strategies cfg size m (m / size) s)
    (hcall : perform (handlers sts onSegment) uninit (p, x) (.item item) = some (p', some s)) :
    Begun sts onSegment visits n strategies cfg size (m + 1) (m / size) s := by
  obtain ⟨⟨out, p₁⟩, hfeed, heq⟩ := Option.map_eq_some_iff.mp hcall
  have hx := (Prod.mk.inj heq).2
  have hopen : ¬ m + 1 ≤ m / size * size := by
    have := Nat.div_mul_le_self m size
    omega
  cases out with
  | none =>
    have hs := hbefore s hx
    exact ⟨hs.runs, hs.initialEquity, hs.rows, fun hle => absurd hle hopen⟩
  | some r =>
    obtain ⟨s₀, hx₀, hcall⟩ := Option.bind_eq_some_iff.mp hx
    have hs := hbefore s₀ hx₀
    have hforeign : r.event.Foreign := hallowed s₀ r p₁ hx₀ hfeed
    obtain ⟨hrows, hrisen⟩ :=
      onMarketOrder_extends (hs.runs.desk fun _ _ _ => trivial) hforeign hcall
    exact ⟨hs.runs.event _ hforeign hcall, hrisen.initialEquity.trans hs.initialEquity,
      by rw [hrows, hs.rows], fun hle => absurd hle hopen⟩

/-- **The end of a segment** adds a row with what there is. -/
theorem Begun.close {s : Simulation S}
    (hbefore : ∀ s, x = some s → Begun sts onSegment visits n strategies cfg size m k s)
    (hcall : perform (handlers sts onSegment) uninit (p, x) (.close k) = some (p', some s)) :
    Begun sts onSegment visits n strategies cfg size m (k + 1) s := by
  obtain ⟨s₀, hx, hwindow⟩ := Option.bind_eq_some_iff.mp (Prod.mk.inj (Option.some.inj hcall)).2
  have hs := hbefore s₀ hx
  have hrow : window sts onSegment s₀.snapshots.length s₀ = some s := hs.rows ▸ hwindow
  have hsnapshots := window_snapshots hwindow
  have hinitial : s.riskManager.initialEquity = s₀.riskManager.initialEquity := by
    obtain ⟨s₁, hall, rfl⟩ := window_spec hwindow
    exact (arbitrateAll_extends (hs.runs.desk fun _ _ _ => trivial) hall).2.2.initialEquity
  refine ⟨hs.runs.window hrow, hinitial.trans hs.initialEquity, ?_, fun _ => Or.inr ⟨k, ?_⟩⟩
  · rw [hsnapshots, List.length_append, hs.rows, List.length_singleton]
  · rw [hsnapshots, List.getLast?_concat]

/-- **What a replay makes of the simulation**, if it returns. -/
theorem begun_segmented (hsize : 0 < size) (hlo : 2 ≤ cfg.poolSlots) (hhi : cfg.poolSlots ≤ 2 ^ 31)
    {items : List (List UInt8 × ℕ)} {s : Simulation S}
    (halong : Fold.Along (perform (handlers sts onSegment) uninit) (Allowed Desk.Foreign uninit)
      (Segments.segmented size 0 items) (p, some (start visits n strategies cfg)))
    (h : performAll (handlers sts onSegment) uninit (p, some (start visits n strategies cfg))
      (Segments.segmented size 0 items) = some (p', some s)) :
    Begun sts onSegment visits n strategies cfg size items.length (items.length ⌈/⌉ size) s := by
  have hstart : Begun sts onSegment visits n strategies cfg size 0 0
      (start visits n strategies cfg) :=
    ⟨.start visits cfg hlo hhi, rfl, rfl, fun _ => Or.inl rfl⟩
  have hkeep := Segments.keeps
    (I := fun m k (r : ItchParser × Option (Simulation S)) => ∀ s, r.2 = some s →
      Begun sts onSegment visits n strategies cfg size m k s) hsize
    (fun {m item r r'} _ hallowed hbefore hcall s hs =>
      Begun.item hallowed hbefore (hcall.trans (congrArg some (Prod.ext rfl hs))))
    (fun {m k r r'} _ hbefore hcall s hs =>
      Begun.close hbefore (hcall.trans (congrArg some (Prod.ext rfl hs))))
    halong (fun s hs => by
      rw [Nat.zero_div, ← Option.some.inj hs]
      exact hstart) h
  rw [Nat.zero_add] at hkeep
  exact hkeep s rfl

/-- **A replay returns**, if every event is one that the market may send. -/
theorem returns_segmented (hsize : 0 < size) (hlo : 2 ≤ cfg.poolSlots)
    (hhi : cfg.poolSlots ≤ 2 ^ 31) {items : List (List UInt8 × ℕ)}
    (halong : Fold.Along (perform (handlers sts onSegment) uninit) (Allowed Desk.Shown uninit)
      (Segments.segmented size 0 items) (p, some (start visits n strategies cfg)))
    (h : performAll (handlers sts onSegment) uninit (p, some (start visits n strategies cfg))
      (Segments.segmented size 0 items) = some (p', x)) : ∃ s, x = some s := by
  have hkeep := Segments.keeps
    (I := fun _ k (r : ItchParser × Option (Simulation S)) => ∃ s, r.2 = some s ∧
      Runs sts onSegment n strategies Desk.Shown s ∧ s.snapshots.length = k) hsize
    (fun {m item r r'} _ hallowed hbefore hcall => ?_)
    (fun {m k r r'} _ hbefore hcall => ?_) halong
    ⟨_, rfl, .start visits cfg hlo hhi, (Nat.zero_div size).symm⟩ h
  · obtain ⟨s, hs, -⟩ := hkeep
    exact ⟨s, hs⟩
  · obtain ⟨s, hs, hr, hrows⟩ := hbefore
    obtain ⟨⟨out, p₁⟩, hfeed, rfl⟩ := Option.map_eq_some_iff.mp hcall
    cases out with
    | none => exact ⟨s, hs, hr, hrows⟩
    | some ev =>
      have hshown : Desk.Shown s.desk (.event ev.event) := hallowed s ev p₁ hs hfeed
      obtain ⟨s', hnext, -⟩ :=
        onMarketOrder_returns sts (hr.desk fun _ _ _ => ⟨trivial, trivial⟩) hshown
      obtain ⟨d, -, hlisten⟩ := onMarketOrder_spec hnext
      refine ⟨s', ?_, hr.event _ hshown hnext, (congrArg List.length hlisten.snapshots).trans hrows⟩
      show r.2.bind _ = _
      rw [hs]
      exact hnext
  · obtain ⟨s, hs, hr, rfl⟩ := hbefore
    obtain rfl := Option.some.inj hcall
    obtain ⟨s', hnext, -⟩ := window_returns sts onSegment s.snapshots.length
      (hr.desk fun _ _ _ => ⟨trivial, trivial⟩)
    refine ⟨s', ?_, hr.window hnext, ?_⟩
    · show r.2.bind _ = _
      rw [hs]
      exact hnext
    · rw [window_snapshots hnext, List.length_append, List.length_singleton]

end Replay

/-! ### The reports agree -/

section Reports

variable {visits : VisitOrder} {n : ℕ} {strategies : S} {cfg : Config}
  {size m k : ℕ} {s : Simulation S}

/-- The body of the loop in `write` is a step of a running peak. -/
theorem fall_eq (r : ℤ × ℤ) (row : SegmentSnapshot) :
    SegmentSnapshot.fall r row = RunningPeak.step r row.equity := by
  rw [SegmentSnapshot.fall, RunningPeak.step, max_def_lt, max_def_lt]

/-- The drawdown in `summary.txt`. -/
theorem foldl_fall (rows : List SegmentSnapshot) :
    (rows.foldl SegmentSnapshot.fall (0, 0)).2 =
      RunningPeak.largestFall 0 (rows.map SegmentSnapshot.equity) := by
  rw [RunningPeak.largestFall, List.foldl_map]
  exact congrArg (fun f => (rows.foldl f (0, 0)).2) (funext₂ fall_eq)

/-- The drawdown on `stdout`. -/
theorem foldl_drawdown (rows : List SegmentSnapshot) :
    rows.foldl (fun dd row => if dd < row.drawdown then row.drawdown else dd) 0 =
      RunningPeak.peak 0 (rows.map SegmentSnapshot.drawdown) := by
  rw [RunningPeak.peak, List.foldl_map]
  exact congrArg (fun f => rows.foldl f 0)
    (funext₂ fun dd (row : SegmentSnapshot) => (max_def_lt dd row.drawdown).symm)

/-- **The drawdown in `summary.txt`** is not above that on `stdout`: it is taken between the ends of
segments, where the other is taken from the peak of the equity. -/
theorem Peaked.maxDd_le (h : Peaked s) (hinitial : 0 ≤ s.riskManager.initialEquity)
    (replay : ReplayEngine (Option (Simulation S))) :
    (s.summary replay).maxDd ≤ (s.totals replay).maxDrawdown := by
  show (s.snapshots.foldl SegmentSnapshot.fall (0, 0)).2 ≤ s.snapshots.foldl _ 0
  rw [foldl_fall, foldl_drawdown, RunningPeak.largestFall_le_iff]
  obtain ⟨hzero, hle⟩ := RunningPeak.peak_le_iff.mp
    (le_refl (RunningPeak.peak 0 (s.snapshots.map SegmentSnapshot.drawdown)))
  have hrow : ∀ row ∈ s.snapshots,
      row.drawdown ≤ RunningPeak.peak 0 (s.snapshots.map SegmentSnapshot.drawdown) :=
    fun row hrow => hle _ (List.mem_map_of_mem hrow)
  refine ⟨hzero, List.pairwise_cons.mpr ⟨fun equity hmem => ?_, ?_⟩⟩
  · obtain ⟨row, hrows, rfl⟩ := List.mem_map.mp hmem
    have hpeak := (h.row row hrows).2.1
    have := hrow row hrows
    omega
  · refine List.pairwise_map.mpr (h.sorted.imp_of_mem fun {a b} ha hb hab => ?_)
    have hfall := (h.row a ha).1
    have := hrow b hb
    omega

/-- All orders are in `orders.csv`. -/
theorem length_orders (h : s.desk.1.engine.orderManager.Keyed) :
    s.orders.length = s.desk.1.engine.orderManager.ids.length := by
  have hperm := s.desk.1.engine.orderManager.visits.perm s.desk.1.engine.orderManager.ids
  rw [orders, List.filterMap_length_eq_length.mpr]
  · exact hperm.length_eq
  · intro id hid
    rw [Option.isSome_map, Option.isSome_iff_ne_none]
    exact (h.mem_iff id).mp (hperm.mem_iff.mp hid)

/-- None of them is cancelled. -/
theorem countP_cancelled (h : s.desk.1.engine.orderManager.All Entry.Ended) :
    s.orders.countP (fun o => o.2.status = .cancelled) = 0 := by
  refine List.countP_eq_zero.mpr fun o ho => ?_
  obtain ⟨id, -, hmap⟩ := List.mem_filterMap.mp ho
  obtain ⟨e, he, rfl⟩ := Option.map_eq_some_iff.mp hmap
  rw [decide_eq_true_eq]
  intro hcancelled
  rcases h id e he with ⟨hstatus, -⟩ | ⟨hstatus, -⟩ | ⟨hstatus | hstatus, -⟩
  all_goals
    rw [show e.status = .cancelled from hcancelled] at hstatus
    exact absurd hstatus (by decide)

/-- **How the two reports agree**, on `m` messages in `k` segments. -/
structure Consistent (cfg : Config) (m k : ℕ) (su : Summary) (st : Totals) : Prop where
  /-- The messages. -/
  messages : su.messages = m ∧ st.messages = m
  /-- The segments. -/
  segments : su.segments = k ∧ st.segments = k
  /-- The order events. -/
  orderEvents : su.orderEvents = st.orderEvents
  /-- The trades of the exchange. -/
  engineTrades : su.engineTrades = st.engineTrades
  /-- The orders of the strategy. -/
  orders : su.orders = st.strategyOrders
  /-- No order was cancelled. -/
  cancelled : su.cancelled = 0
  /-- The trades of the strategy. -/
  stratTrades : su.stratTrades = st.traded
  /-- None of them is passive. -/
  active : su.active = su.stratTrades ∧ su.passive = 0
  /-- The shares. -/
  stratFilled : su.stratFilled = st.qty
  /-- Nothing rests. -/
  strategyRest : st.strategyRest = 0
  /-- What was realized. -/
  realized : su.realized = st.realizedPnl
  /-- The final equity, which `summary.txt` has for 0 if there was no message. -/
  finalEq : su.finalEq = if m = 0 then 0 else st.finalEquity
  /-- Without a message it is the initial one. -/
  initial : m = 0 → st.finalEquity = cfg.risk.initialEquity
  /-- The drawdown. -/
  maxDd : 0 ≤ cfg.risk.initialEquity → su.maxDd ≤ st.maxDrawdown

/-- **The reports of a replay** that has come to its end. -/
theorem Begun.consistent {replay : ReplayEngine (Option (Simulation S))} (hsize : 0 < size)
    (htotal : replay.total = m) (hsegments : replay.segments = m ⌈/⌉ size)
    (h : Begun sts onSegment visits n strategies cfg size m (m ⌈/⌉ size) s) :
    Consistent cfg m (m ⌈/⌉ size) (s.summary replay) (s.totals replay) := by
  have hdesk := h.runs.desk fun _ _ _ => trivial
  have hbooked := hdesk.booked
  have hsettled := h.settled (by
    rw [Nat.mul_comm]
    exact le_smul_ceilDiv hsize)
  -- there is a last row if and only if there was a message
  have hempty : s.snapshots = [] ↔ m = 0 := by
    rw [← List.length_eq_zero_iff, h.rows, Nat.ceilDiv_eq_add_pred_div, Nat.div_eq_zero_iff]
    omega
  have hpassive : s.trades.countP (fun t => t.passive) = 0 :=
    List.countP_eq_zero.mpr fun t ht => by
      rw [hbooked.active t ht]
      exact Bool.false_ne_true
  refine ⟨⟨htotal, htotal⟩, ⟨hsegments, hsegments⟩, rfl, rfl, length_orders hbooked.keyed,
    countP_cancelled hbooked.ended, rfl, ⟨?_, hpassive⟩, rfl, ?_, ?_, ?_, ?_, ?_⟩
  · refine List.countP_eq_length.mpr fun t ht => ?_
    rw [hbooked.active t ht]
    rfl
  · exact Finset.card_eq_zero.mpr hbooked.unrested.idle
  · show (s.snapshots.getLast?.map SegmentSnapshot.realizedPnl).getD 0 = s.riskManager.realizedPnl
    rcases hsettled with rfl | ⟨segment, hlast⟩
    · rfl
    · rw [hlast]
      rfl
  · show (s.snapshots.getLast?.map SegmentSnapshot.equity).getD 0 =
      if m = 0 then 0 else (s.snapshots.getLast?.map SegmentSnapshot.equity).getD _
    split
    · next hzero =>
      rw [hempty.mpr hzero]
      rfl
    · next hmessage =>
      rcases hsettled with rfl | ⟨segment, hlast⟩
      · exact absurd (hempty.mp rfl) hmessage
      · rw [hlast]
        rfl
  · intro hzero
    rcases hsettled with rfl | ⟨segment, hlast⟩
    · show cfg.risk.initialEquity + 0 + 0 = cfg.risk.initialEquity
      rw [add_zero, add_zero]
    · rw [hempty.mpr hzero] at hlast
      exact absurd hlast.symm (Option.some_ne_none _)
  · intro hinitial
    exact h.runs.peaked.maxDd_le (hinitial.trans_eq h.initialEquity.symm) replay

end Reports

end Simulation

/-! ### The program -/

/-- The primary strategy is one of the strategies, if there are any. -/
def Config.Ready (cfg : Config) : Prop :=
  cfg.strategy.strategies = [] ∨ cfg.strategy.primary = "" ∨
    cfg.strategy.primary ∈ cfg.strategy.strategies
deriving Decidable

/-- The program was built for the strategies. -/
def Config.Supported (cfg : Config) : Prop :=
  cfg.strategy.strategies ∈ [["ofi", "obi"], ["ofi"], ["obi"], []] ∧ cfg.Ready
deriving Decidable

section Program

open ReplayEngine (perform limit allowed allowed_zero)
open Simulation (handlers idle start Clean Allowed Consistent)

variable {S : Type} {sts : Strategies S} {n : ℕ} {strategies : S} {visits : VisitOrder}
  {uninit : ℕ → RawItchEvent} {cfg : Config} {rcfg : ReplayConfig} {fuel : ℕ}
  {bodies : List (List UInt8)} {tail : List UInt8}

/-- The messages that are replayed, with their numbers. -/
def replayed (rcfg : ReplayConfig) (bodies : List (List UInt8)) : List (List UInt8 × ℕ) :=
  (bodies.take (limit rcfg.maxMessages bodies.length)).zipIdx 1

/-- A primary strategy that is none of the strategies. -/
theorem runSim_of_not_ready (hready : ¬ cfg.Ready) :
    runSim sts n strategies visits uninit fuel cfg rcfg = some (1, none) := by
  rw [Config.Ready, not_or, not_or] at hready
  exact if_pos hready

variable (sts n strategies visits uninit) in
/-- **`run_sim` is a replay**, and then the reports. -/
theorem runSim_replay (hready : cfg.Ready) (hsize : 0 < rcfg.segmentSize)
    (hb : ∀ b ∈ bodies, b.length < 256 ^ 2) (htail : unframe 2 tail = none)
    (hfile : rcfg.file = (bodies.map (frame 2)).flatten ++ tail)
    (hfuel : rcfg.file.length < fuel) :
    ∃ replay : ReplayEngine (Option (Simulation S)),
      runSim sts n strategies visits uninit fuel cfg rcfg =
        replay.ex.map (fun s => (0, some (s.summary replay, s.totals replay))) ∧
      ReplayEngine.performAll (handlers sts idle) uninit
        ({}, some (start visits n strategies cfg))
        (Segments.segmented rcfg.segmentSize 0 (replayed rcfg bodies)) =
          some (replay.parser, replay.ex) ∧
      replay.total = (replayed rcfg bodies).length ∧
      replay.segments = (replayed rcfg bodies).length ⌈/⌉ rcfg.segmentSize := by
  obtain ⟨replay, hrun, hw⟩ := @ReplayEngine.run_worksThrough _ (handlers sts idle) uninit rcfg
    hsize bodies tail hb htail hfile {} {} (some (start visits n strategies cfg)) fuel hfuel
  have hlength : (allowed rcfg.maxMessages 0 bodies).length = (replayed rcfg bodies).length := by
    rw [replayed, List.length_zipIdx, allowed_zero]
  have hnotready : ¬ (cfg.strategy.strategies ≠ [] ∧ cfg.strategy.primary ≠ "" ∧
      cfg.strategy.primary ∉ cfg.strategy.strategies) := by
    rintro ⟨hstrategies, hprimary, hmissing⟩
    rcases hready with h | h | h
    · exact hstrategies h
    · exact hprimary h
    · exact hmissing h
  have hperformed := hw.performed
  have htotal := hw.total
  have hsegments := hw.segments
  rw [allowed_zero] at hperformed
  rw [hlength, Nat.zero_add] at htotal hsegments
  refine ⟨replay, ?_, hperformed, htotal, hsegments⟩
  rw [runSim, if_neg hnotready]
  exact congrArg (fun r : Option (ReplayEngine (Option (Simulation S))) => r.bind _) hrun

/-- The number of messages that are replayed. -/
theorem length_replayed (rcfg : ReplayConfig) (bodies : List (List UInt8)) :
    (replayed rcfg bodies).length = limit rcfg.maxMessages bodies.length := by
  rw [replayed, List.length_zipIdx, List.length_take, Nat.min_eq_left (ReplayEngine.limit_le _ _)]

/-- **The reports of `run_sim`**, if it returns. -/
theorem runSim_consistent (hready : cfg.Ready) (hlo : 2 ≤ cfg.poolSlots)
    (hhi : cfg.poolSlots ≤ 2 ^ 31) (hsize : 0 < rcfg.segmentSize)
    (hb : ∀ b ∈ bodies, b.length < 256 ^ 2) (htail : unframe 2 tail = none)
    (hfile : rcfg.file = (bodies.map (frame 2)).flatten ++ tail)
    (hfuel : rcfg.file.length < fuel)
    (halong : Fold.Along (perform (handlers sts idle) uninit) (Allowed Desk.Foreign uninit)
      (Segments.segmented rcfg.segmentSize 0 (replayed rcfg bodies))
      ({}, some (start visits n strategies cfg)))
    {out : ℕ × Option (Summary × Totals)}
    (hout : runSim sts n strategies visits uninit fuel cfg rcfg = some out) :
    ∃ su st, out = (0, some (su, st)) ∧ Consistent cfg (limit rcfg.maxMessages bodies.length)
      (limit rcfg.maxMessages bodies.length ⌈/⌉ rcfg.segmentSize) su st := by
  obtain ⟨replay, hrun, hperformed, htotal, hsegments⟩ :=
    runSim_replay sts n strategies visits uninit hready hsize hb htail hfile hfuel
  obtain ⟨s, hs, rfl⟩ := Option.map_eq_some_iff.mp (hrun.symm.trans hout)
  rw [hs] at hperformed
  have hbegun := Simulation.begun_segmented hsize hlo hhi halong hperformed
  rw [length_replayed] at htotal hsegments hbegun
  exact ⟨_, _, rfl, hbegun.consistent hsize htotal hsegments⟩

/-- **`run_sim` returns**, and its reports agree, if every event of the file is one that the market
may send when it comes: it keeps the contract, an add is complete and finds a free slot, and no
index has dropped an insert. -/
theorem runSim_returns (hready : cfg.Ready) (hlo : 2 ≤ cfg.poolSlots)
    (hhi : cfg.poolSlots ≤ 2 ^ 31) (hsize : 0 < rcfg.segmentSize)
    (hb : ∀ b ∈ bodies, b.length < 256 ^ 2) (htail : unframe 2 tail = none)
    (hfile : rcfg.file = (bodies.map (frame 2)).flatten ++ tail)
    (hfuel : rcfg.file.length < fuel)
    (halong : Fold.Along (perform (handlers sts idle) uninit) (Allowed Desk.Shown uninit)
      (Segments.segmented rcfg.segmentSize 0 (replayed rcfg bodies))
      ({}, some (start visits n strategies cfg))) :
    ∃ su st, runSim sts n strategies visits uninit fuel cfg rcfg = some (0, some (su, st)) ∧
      Consistent cfg (limit rcfg.maxMessages bodies.length)
        (limit rcfg.maxMessages bodies.length ⌈/⌉ rcfg.segmentSize) su st := by
  obtain ⟨replay, hrun, hperformed, -, -⟩ :=
    runSim_replay sts n strategies visits uninit hready hsize hb htail hfile hfuel
  obtain ⟨s, hs⟩ := Simulation.returns_segmented hsize hlo hhi halong hperformed
  rw [hs] at hrun
  obtain ⟨su, st, hout, hconsistent⟩ := runSim_consistent hready hlo hhi hsize hb htail hfile hfuel
    (halong.mono fun _ _ h => h.mono fun _ _ hshown => hshown.1.foreign) hrun
  exact ⟨su, st, hrun.trans (congrArg some hout), hconsistent⟩

/-- A configuration with both strategies, for a file of a few messages. -/
def bothStrategies : Config :=
  { poolSlots := 4, workers := 2, baseQty := 10, orderIdBase := 1000
    strategy := { strategies := ["ofi", "obi"], primary := "obi" } }

/-- What an event holds before it is read. -/
def noEvent (_ : ℕ) : RawItchEvent := ⟨.book, 0, 0, 0, .invalid, 0, 0⟩

/-- A file of messages is a file of frames. -/
theorem file_eq_frames (es : List OrderMessage) :
    OrderMessage.file es = ((es.map OrderMessage.encode).map (frame 2)).flatten ++ [] := by
  rw [List.append_nil, List.map_map]
  rfl

/-- A bid, as a file of its own. -/
theorem runSim_returns_one : ∃ su st,
    runSim TradingWorker.flowAndBook 2 ({}, {}, ()) .inserted noEvent 100 bothStrategies
      ⟨OrderMessage.file [.add 0 1 true 100 99], 2, 0⟩ = some (0, some (su, st)) ∧
    Consistent bothStrategies 1 1 su st := by
  refine @runSim_returns _ TradingWorker.flowAndBook 2 ({}, {}, ()) .inserted noEvent
    bothStrategies ⟨OrderMessage.file [.add 0 1 true 100 99], 2, 0⟩ 100
    [(OrderMessage.add 0 1 true 100 99).encode] [] (by decide) (by decide) (by decide) (by decide)
    (by decide) rfl (file_eq_frames _) (by decide +kernel)
    ⟨?_, fun _ _ => ⟨trivial, fun _ _ => trivial⟩⟩
  intro s ev p' hs hfeed
  obtain ⟨r, hread, hevent⟩ := (OrderMessage.add 0 1 true 100 99).feed_encode {} (noEvent 1)
  obtain rfl := Option.some.inj (Prod.mk.inj (Option.some.inj (hread.symm.trans hfeed))).1
  obtain rfl := Option.some.inj hs
  rw [hevent]
  have hrun : Simulation.Runs TradingWorker.flowAndBook idle 2 ({}, {}, ()) Desk.Shown
      (start .inserted 2 ({}, {}, ()) bothStrategies) := .start _ _ (by decide) (by decide)
  obtain ⟨base, hapart, -⟩ := (hrun.desk fun _ _ _ => ⟨trivial, trivial⟩).mirrored
  exact Desk.shown_of_test hapart.inv (by decide +kernel)

/-- Messages that make no event with the strategy's user. -/
theorem along_of_clean {σ : ItchParser × Option (Simulation S)} {size : ℕ}
    (hclean : ∀ b ∈ bodies, Clean b) :
    Fold.Along (perform (handlers sts idle) uninit) (Allowed Desk.Foreign uninit)
      (Segments.segmented size 0 (replayed rcfg bodies)) σ := by
  refine Fold.along_of_mem (fun step hstep σ => ?_) σ
  cases step with
  | item m =>
    intro s ev p' _ hfeed
    have hm : m ∈ Segments.items (Segments.segmented size 0 (replayed rcfg bodies)) :=
      List.mem_filterMap.mpr ⟨_, hstep, rfl⟩
    rw [Segments.items_segmented] at hm
    have hbody : m.1 ∈ bodies := List.mem_of_mem_take (List.fst_mem_of_mem_zipIdx hm)
    exact hclean m.1 hbody _ _ _ _ hfeed
  | close => trivial

/-- **The program** is `run_sim` of the strategies that it was built for, or exits with 1. -/
theorem main_eq_runSim (visits : VisitOrder) (uninit : ℕ → RawItchEvent) (fuel : ℕ)
    (cfg : Config) (rcfg : ReplayConfig) :
    (cfg.strategy.strategies ∉ [["ofi", "obi"], ["ofi"], ["obi"], []] ∧
      main visits uninit fuel cfg rcfg = some (1, none)) ∨
    (cfg.strategy.strategies ∈ [["ofi", "obi"], ["ofi"], ["obi"], []] ∧
      ∃ (S : Type) (sts : Strategies S) (n : ℕ) (strategies : S),
        main visits uninit fuel cfg rcfg =
          runSim sts n strategies visits uninit fuel cfg rcfg) := by
  by_cases hmem : cfg.strategy.strategies ∈ [["ofi", "obi"], ["ofi"], ["obi"], []]
  · refine Or.inr ⟨hmem, ?_⟩
    simp only [List.mem_cons, List.not_mem_nil, or_false] at hmem
    rcases hmem with hst | hst | hst | hst
    · exact ⟨_, _, _, _, if_pos hst⟩
    · exact ⟨_, _, _, _, (if_neg (by rw [hst]; decide)).trans (if_pos hst)⟩
    · exact ⟨_, _, _, _, (if_neg (by rw [hst]; decide)).trans
        ((if_neg (by rw [hst]; decide)).trans (if_pos hst))⟩
    · exact ⟨_, _, _, _, (if_neg (by rw [hst]; decide)).trans
        ((if_neg (by rw [hst]; decide)).trans ((if_neg (by rw [hst]; decide)).trans (if_pos hst)))⟩
  · refine Or.inl ⟨hmem, ?_⟩
    simp only [List.mem_cons, List.not_mem_nil, or_false, not_or] at hmem
    obtain ⟨hboth, hflow, hbook, hnone⟩ := hmem
    rw [main, if_neg hboth, if_neg hflow, if_neg hbook, if_neg hnone]

/-- **The program** exits with 1 and no report for the configurations that it was not built for. For
the others it exits with 0, if it returns, and its reports agree. -/
theorem main_reports (visits : VisitOrder) (uninit : ℕ → RawItchEvent) (hlo : 2 ≤ cfg.poolSlots)
    (hhi : cfg.poolSlots ≤ 2 ^ 31) (hsize : 0 < rcfg.segmentSize)
    (hb : ∀ b ∈ bodies, b.length < 256 ^ 2) (htail : unframe 2 tail = none)
    (hfile : rcfg.file = (bodies.map (frame 2)).flatten ++ tail)
    (hclean : ∀ b ∈ bodies, Clean b) (hfuel : rcfg.file.length < fuel) :
    (¬ cfg.Supported → main visits uninit fuel cfg rcfg = some (1, none)) ∧
    (cfg.Supported → ∀ out, main visits uninit fuel cfg rcfg = some out →
      ∃ su st, out = (0, some (su, st)) ∧ Consistent cfg (limit rcfg.maxMessages bodies.length)
        (limit rcfg.maxMessages bodies.length ⌈/⌉ rcfg.segmentSize) su st) := by
  rcases main_eq_runSim visits uninit fuel cfg rcfg with
    ⟨hother, heq⟩ | ⟨hstrategies, S, sts, n, strategies, heq⟩
  · exact ⟨fun _ => heq, fun hsupported => absurd hsupported.1 hother⟩
  · rw [heq]
    refine ⟨fun hunsupported => runSim_of_not_ready fun hready =>
      hunsupported ⟨hstrategies, hready⟩, fun hsupported out hout => ?_⟩
    exact runSim_consistent hsupported.2 hlo hhi hsize hb htail hfile hfuel
      (along_of_clean hclean) hout

/-- A bid of 100 at 99 and an offer of 10 at 101, and then an offer of 90 at 102 and 90 shares less
of the bid, as a file. -/
def fourMessages : List OrderMessage :=
  [.add 0 1 true 100 99, .add 0 2 false 10 101, .add 0 3 false 90 102, .cancel 0 1 90]

/-- A message of an order of the market. -/
theorem clean_encode {e : OrderMessage} (h : e.event.Foreign) : Clean e.encode := by
  intro p p' ev r hfeed
  obtain ⟨r', hfeed', hevent⟩ := e.feed_encode p ev
  obtain rfl := Option.some.inj (Prod.mk.inj (Option.some.inj (hfeed'.symm.trans hfeed))).1
  rw [hevent]
  exact h

/-- The reports differ in the drawdown: 10 was lost when the strategy bought, before the end of the
first segment. -/
theorem main_reports_four : ∃ su st,
    main .inserted noEvent 200 bothStrategies ⟨OrderMessage.file fourMessages, 2, 0⟩ =
      some (0, some (su, st)) ∧
    su.maxDd = 10 ∧ st.maxDrawdown = 20 ∧ Consistent bothStrategies 4 2 su st := by
  have hread : (main .inserted noEvent 200 bothStrategies
      ⟨OrderMessage.file fourMessages, 2, 0⟩).map (fun out => out.2.map fun r =>
        (r.1.maxDd, r.2.maxDrawdown)) = some (some (10, 20)) := by decide +kernel
  obtain ⟨out, hout, hdrawdowns⟩ := Option.map_eq_some_iff.mp hread
  have hforeign : ∀ e ∈ fourMessages, e.event.Foreign := by
    simp [fourMessages, OrderMessage.event, ItchEvent.Foreign, kStrategyUserId]
  have hclean : ∀ b ∈ fourMessages.map OrderMessage.encode, Clean b := by
    intro b hb
    obtain ⟨e, he, rfl⟩ := List.mem_map.mp hb
    exact clean_encode (hforeign e he)
  obtain ⟨-, hreports⟩ := @main_reports bothStrategies ⟨OrderMessage.file fourMessages, 2, 0⟩ 200
    (fourMessages.map OrderMessage.encode) [] .inserted noEvent (by decide) (by decide) (by decide)
    (by decide) rfl (file_eq_frames fourMessages) hclean (by decide +kernel)
  obtain ⟨su, st, rfl, hconsistent⟩ := hreports (by decide) out hout
  obtain ⟨hmaxDd, hmaxDrawdown⟩ := Prod.mk.inj (Option.some.inj hdrawdowns)
  exact ⟨su, st, hout, hmaxDd, hmaxDrawdown, hconsistent⟩

end Program

end NebulaX
