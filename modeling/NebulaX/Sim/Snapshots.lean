import NebulaX.Lib.RunningPeak
import NebulaX.Sim.Audit
import NebulaX.Sim.Simulation

/-!
# The rows of `equity.csv`

A snapshot counts the records so far, and takes everything else it says about the strategy from the
order manager and the risk manager. Records are only added, so that a row can be compared with the
records it counts, at any later time.

## Main results

* `rows_recomputed` — every row agrees with the rows of `trades.csv` that it counts
-/

namespace NebulaX

open Desk (Booked Audited)
open TradeLog (recorded ofOrder)

/-! ### The loop over the orders -/

namespace OrderManager

/-- What the loop of a snapshot counts of an order. -/
def filledAt (om : OrderManager) (id : ℕ) : ℕ :=
  match om.orders id with
  | none => 0
  | some e => e.filled.toNat

/-- What it adds to the net position. -/
def signedAt (om : OrderManager) (id : ℕ) : ℤ :=
  match om.orders id with
  | none => 0
  | some e => (if e.order.side = .buy then 1 else -1) * toSigned e.filled

/-- **The loop of a snapshot** is two sums over the keys, in whatever order they are visited. -/
theorem filledTotals_eq {om : OrderManager} (hnodup : om.ids.Nodup) : om.filledTotals =
    (UInt64.ofNat (∑ id ∈ om.ids.toFinset, om.filledAt id),
      ∑ id ∈ om.ids.toFinset, om.signedAt id) := by
  have hfold : ∀ (ids : List ℕ) (sums : UInt64 × ℤ), ids.foldl om.countFilled sums =
      (sums.1 + UInt64.ofNat (ids.map om.filledAt).sum,
        sums.2 + (ids.map om.signedAt).sum) := by
    intro ids
    induction ids with
    | nil => exact fun sums => Prod.ext (by simp) (by simp)
    | cons id ids ih =>
      intro sums
      rw [List.foldl_cons, ih, List.map_cons, List.map_cons, List.sum_cons, List.sum_cons,
        countFilled, filledAt, signedAt]
      cases om.orders id with
      | none => simp
      | some e =>
        dsimp only
        rw [UInt64.ofNat_add, UInt64.ofNat_toNat, add_assoc, add_assoc]
  have hperm := om.visits.perm om.ids
  rw [filledTotals, hfold, List.sum_toFinset _ hnodup, List.sum_toFinset _ hnodup,
    ← (hperm.map om.filledAt).sum_eq, ← (hperm.map om.signedAt).sum_eq]
  exact Prod.ext (UInt64.zero_add _) (zero_add _)

end OrderManager

/-! ### What the records say -/

namespace TradeLog

/-- The shares in records. -/
def filledIn (ts : List TradeRecord) : ℕ := recorded (fun _ => true) ts

/-- The shares in the records on a side. -/
def filledOn (side : OrderSide) (ts : List TradeRecord) : ℕ :=
  recorded (fun t => decide (t.side = side)) ts

/-- The records of an order on a side are all of them, or none. -/
theorem recorded_side {ts : List TradeRecord} {id : ℕ} {s : OrderSide}
    (hs : ∀ t ∈ ts, t.orderId = id → t.side = s) (side : OrderSide) :
    recorded (fun t => decide (t.orderId = id) && decide (t.side = side)) ts =
      if s = side then recorded (ofOrder id) ts else 0 := by
  split
  · next heq =>
    rw [recorded, recorded]
    refine congrArg (fun ts => (List.map (fun t : TradeRecord => t.qty.toNat) ts).sum)
      (List.filter_congr fun t ht => ?_)
    by_cases hid : t.orderId = id
    · rw [decide_eq_true hid, ofOrder, decide_eq_true hid, (hs t ht hid).trans heq]
      exact decide_eq_true rfl
    · rw [decide_eq_false hid, ofOrder, decide_eq_false hid]
      rfl
  · next hne =>
    refine recorded_eq_zero fun t ht => ?_
    by_cases hid : t.orderId = id
    · rw [decide_eq_false fun heq => hne ((hs t ht hid).symm.trans heq), Bool.and_false]
    · rw [decide_eq_false hid, Bool.false_and]

end TradeLog

open TradeLog (filledIn filledOn)

/-- An order that came to its end is filled with no more than was ordered. -/
theorem Entry.Ended.filled_le {e : Entry} (h : e.Ended) :
    e.filled.toNat ≤ e.order.quantity.toNat := by
  rcases h with ⟨-, heq⟩ | ⟨-, hzero⟩ | ⟨-, hlt⟩
  · rw [heq]
  · rw [hzero]
    exact Nat.zero_le _
  · exact Nat.le_of_lt (UInt64.lt_iff_toNat_lt.mp hlt)

/-- **The loop of a snapshot** comes to what the records say. -/
theorem Desk.Booked.filledTotals {d : Desk} (h : Booked d) :
    d.1.engine.orderManager.filledTotals = (UInt64.ofNat (filledIn d.1.log.trades),
      (filledOn .buy d.1.log.trades : ℤ) - filledOn .sell d.1.log.trades) := by
  have hids : ∀ t ∈ d.1.log.trades, t.orderId ∈ d.1.engine.orderManager.ids.toFinset := by
    intro t ht
    obtain ⟨e, he, -⟩ := h.known t ht
    rw [List.mem_toFinset, h.keyed.mem_iff, he]
    exact Option.some_ne_none _
  rw [OrderManager.filledTotals_eq h.nodup]
  refine Prod.ext (congrArg UInt64.ofNat ?_) ?_
  · rw [filledIn, TradeLog.recorded_eq_sum hids]
    refine Finset.sum_congr rfl fun id hm => ?_
    rw [List.mem_toFinset, h.keyed.mem_iff] at hm
    obtain ⟨e, he⟩ := Option.ne_none_iff_exists'.mp hm
    simp only [Bool.and_true]
    rw [OrderManager.filledAt, he]
    exact h.filled he
  · show ∑ id ∈ d.1.engine.orderManager.ids.toFinset, d.1.engine.orderManager.signedAt id = _
    rw [filledOn, filledOn, TradeLog.recorded_eq_sum hids,
      TradeLog.recorded_eq_sum (p := fun t => decide (t.side = .sell)) hids, Nat.cast_sum,
      Nat.cast_sum, ← Finset.sum_sub_distrib]
    refine Finset.sum_congr rfl fun id hm => ?_
    rw [List.mem_toFinset, h.keyed.mem_iff] at hm
    obtain ⟨e, he⟩ := Option.ne_none_iff_exists'.mp hm
    -- the records of an order are all on its side
    have hsides : ∀ t ∈ d.1.log.trades, t.orderId = id → t.side = e.order.side := by
      intro t ht hid
      obtain ⟨e', he', -, hside⟩ := h.known t ht
      rw [hid, he] at he'
      exact hside.trans (congrArg (fun e => e.order.side) (Option.some.inj he').symm)
    have hsmall : e.filled.toNat < 2 ^ 63 :=
      (h.ended id e he).filled_le.trans_lt ((h.small id e he).trans (by decide))
    rw [TradeLog.recorded_side hsides, TradeLog.recorded_side hsides, OrderManager.signedAt, he]
    dsimp only
    rw [toSigned_eq hsmall, h.filled he]
    cases hside : e.order.side with
    | buy => simp
    | sell => simp
    | none =>
      have hzero : recorded (ofOrder id) d.1.log.trades = 0 :=
        TradeLog.recorded_eq_zero fun t ht => decide_eq_false fun hid =>
          h.sided t ht ((hsides t ht hid).trans hside)
      rw [hzero]
      simp

/-! ### Rows -/

/-- **Row `k` of `equity.csv` agrees with records.** -/
structure SegmentSnapshot.Agrees (row : SegmentSnapshot) (k : ℕ) (ts : List TradeRecord) :
    Prop where
  /-- `segment`. -/
  segment : row.segment = k
  /-- `strategy_trades`. -/
  strategyTrades : row.strategyTrades = ts.length
  /-- `strategy_filled`. -/
  strategyFilled : row.strategyFilled = UInt64.ofNat (filledIn ts)
  /-- `net_position`. -/
  netPosition : row.netPosition = filledOn .buy ts - filledOn .sell ts
  /-- `realized_pnl`. -/
  realizedPnl : row.realizedPnl =
    (RiskManager.unused.fillAll (ts.map TradeRecord.filled)).realizedPnl
  /-- `strategy_pnl`. -/
  strategyPnl : row.strategyPnl = row.realizedPnl
  /-- `strategy_resting`. -/
  strategyResting : row.strategyResting = 0

namespace Simulation

variable {S : Type} {sts : Strategies S} {onSegment : ℕ → S → S}

/-- The records. -/
def trades (s : Simulation S) : List TradeRecord := s.desk.1.log.trades

/-- **The rows are accounted for**: each agrees with the records it counts, they count more and more
of them, and the last one counts them all. -/
structure Accounted (s : Simulation S) : Prop where
  /-- Every row. -/
  agrees : ∀ (k : ℕ) (row : SegmentSnapshot), s.snapshots[k]? = some row →
    row.Agrees k (s.trades.take row.strategyTrades)
  /-- One row and a later one. -/
  sorted : (s.snapshots.map SegmentSnapshot.strategyTrades).Pairwise (· ≤ ·)
  /-- The last row. -/
  current : ((s.snapshots.map SegmentSnapshot.strategyTrades).getLast?).getD 0 = s.trades.length

section Accounted

variable {s s' : Simulation S}

/-- A row counts no more records than there are. -/
theorem Accounted.le (h : Accounted s) {row : SegmentSnapshot} (hrow : row ∈ s.snapshots) :
    row.strategyTrades ≤ s.trades.length := by
  obtain ⟨k, hk⟩ := List.getElem?_of_mem hrow
  have hcount := (h.agrees k row hk).strategyTrades
  rw [List.length_take] at hcount
  omega

/-- The snapshot of a segment agrees with all records. -/
theorem snapshot_agrees (segment : ℕ) (hbooked : Booked s.desk) (haudited : Audited s.desk) :
    (s.snapshot segment).Agrees segment s.trades where
  segment := rfl
  strategyTrades := rfl
  strategyFilled := congrArg Prod.fst hbooked.filledTotals
  netPosition := congrArg Prod.snd hbooked.filledTotals
  realizedPnl := haudited.realizedPnl
  strategyPnl := rfl
  strategyResting := Finset.card_eq_zero.mpr hbooked.unrested.idle

/-- **An event** changes neither the rows nor the records. -/
theorem Accounted.event (h : Accounted s) (hbooked : Booked s.desk) {ev : ItchEvent}
    (hev : ev.Foreign) (hcall : onMarketOrder sts ev s = some s') : Accounted s' := by
  obtain ⟨d, hstep, hlisten⟩ := onMarketOrder_spec hcall
  obtain ⟨-, -, hlog, -⟩ := Desk.event_stays hbooked.unrested hev hstep
  have htrades : s'.trades = s.trades := by
    rw [trades, hlisten.desk]
    exact congrArg TradeLog.trades hlog
  have hrows : s'.snapshots = s.snapshots := hlisten.snapshots
  refine ⟨?_, ?_, ?_⟩
  · rw [hrows, htrades]
    exact h.agrees
  · rw [hrows]
    exact h.sorted
  · rw [hrows, htrades]
    exact h.current

/-- The risk manager. -/
def riskManager (s : Simulation S) : RiskManager := s.desk.1.engine.riskManager

/-- **What the workers do** at the end of a segment leaves the rows, adds records, and does not
lower the peak. -/
theorem arbitrateAll_extends {segment : ℕ} (hs : Desk.Runs Desk.Foreign s.desk)
    (hcall : arbitrateAll sts onSegment segment s = some s') :
    s'.snapshots = s.snapshots ∧ s.trades <+: s'.trades ∧
      RiskManager.Risen s.riskManager s'.riskManager := by
  have hkeep := arbitrateAll_keeps
    (I := fun s' => Desk.Runs Desk.Foreign s'.desk ∧ s'.snapshots = s.snapshots ∧
      s.trades <+: s'.trades ∧ RiskManager.Risen s.riskManager s'.riskManager)
    (fun {s₁ i s₂} hs₁ hstep => ?_) ⟨hs, rfl, List.prefix_refl _, .refl _⟩ hcall
  · exact hkeep.2
  · obtain ⟨hr, hrows, hprefix, hrisen⟩ := hs₁
    have hrows' := hstep.snapshots.trans hrows
    rcases hstep.desk with heq | ⟨sig, strategyId, hdecision⟩
    · have htrades : s₂.trades = _ := congrArg (fun d : Desk => d.1.log.trades) heq
      have hrisk : s₂.riskManager = _ := congrArg (fun d : Desk => d.1.engine.riskManager) heq
      rw [htrades, hrisk, heq]
      exact ⟨hr, hrows', hprefix, hrisen⟩
    · have hsim := hr.booked.unrested
      exact ⟨hr.call (.decision sig strategyId) trivial hdecision, hrows',
        hprefix.trans (Desk.trades_step hsim (c := .decision sig strategyId) trivial hdecision),
        hrisen.trans (Desk.risen_step hsim (c := .decision sig strategyId) trivial hdecision)⟩

/-- **The end of a segment** adds a row that agrees with all records. -/
theorem Accounted.window (h : Accounted s) (hs : Desk.Runs Desk.Foreign s.desk)
    (hcall : window sts onSegment s.snapshots.length s = some s') : Accounted s' := by
  obtain ⟨s₁, hall, rfl⟩ := window_spec hcall
  obtain ⟨hrows, hprefix, -⟩ := arbitrateAll_extends hs hall
  have hs₁ : Desk.Runs Desk.Foreign s₁.desk :=
    arbitrateAll_desk (fun _ _ _ => trivial) hs hall
  have hlast := snapshot_agrees s.snapshots.length hs₁.booked hs₁.audited
  have hold : ∀ row ∈ s.snapshots, s₁.trades.take row.strategyTrades =
      s.trades.take row.strategyTrades := by
    intro row hrow
    obtain ⟨ts, hts⟩ := hprefix
    rw [← hts, List.take_append_of_le_length (h.le hrow)]
  refine ⟨fun k row hrow => ?_, ?_, ?_⟩
  · show row.Agrees k (s₁.trades.take row.strategyTrades)
    have hrow : (s.snapshots ++ [s₁.snapshot s.snapshots.length])[k]? = some row := hrows ▸ hrow
    rcases Nat.lt_or_ge k s.snapshots.length with hk | hk
    · rw [List.getElem?_append_left hk] at hrow
      rw [hold row (List.mem_of_getElem? hrow)]
      exact h.agrees k row hrow
    · rw [List.getElem?_append_right hk, List.getElem?_singleton] at hrow
      split at hrow
      · next hzero =>
        obtain rfl := Option.some.inj hrow
        obtain rfl : k = s.snapshots.length := by omega
        rw [show (s₁.snapshot s.snapshots.length).strategyTrades = s₁.trades.length from rfl,
          List.take_length]
        exact hlast
      · exact absurd hrow (by simp)
  · show ((s₁.snapshots ++ [_]).map _).Pairwise _
    rw [hrows, List.map_append, List.pairwise_append]
    refine ⟨h.sorted, List.pairwise_singleton _ _, fun n hn m hm => ?_⟩
    obtain ⟨row, hrow, rfl⟩ := List.mem_map.mp hn
    rw [List.map_singleton, List.mem_singleton] at hm
    rw [hm]
    exact (h.le hrow).trans hprefix.length_le
  · show ((s₁.snapshots ++ [_]).map _).getLast?.getD 0 = s₁.trades.length
    rw [List.map_append, List.map_singleton, List.getLast?_concat]
    rfl

theorem Runs.accounted {n : ℕ} {strategies : S}
    (h : Runs sts onSegment n strategies Desk.Foreign s) : Accounted s := by
  induction h with
  | start =>
    exact ⟨fun k row hrow => absurd hrow.symm (Option.some_ne_none row), List.Pairwise.nil, rfl⟩
  | event ev hr hev hcall ih =>
    exact ih.event (hr.desk fun _ _ _ => trivial).booked hev hcall
  | window hr hcall ih => exact ih.window (hr.desk fun _ _ _ => trivial) hcall

/-- **Every row of `equity.csv` can be recomputed from `trades.csv`**: it agrees with the records it
counts, rows count more and more of them, and no record comes after the last row. -/
theorem rows_recomputed {n : ℕ} {strategies : S}
    (h : Runs sts onSegment n strategies Desk.Foreign s) :
    (∀ (k : ℕ) (row : SegmentSnapshot), s.snapshots[k]? = some row →
      row.Agrees k (s.trades.take row.strategyTrades)) ∧
    (s.snapshots.map SegmentSnapshot.strategyTrades).Pairwise (· ≤ ·) ∧
    ((s.snapshots.map SegmentSnapshot.strategyTrades).getLast?).getD 0 = s.trades.length :=
  ⟨h.accounted.agrees, h.accounted.sorted, h.accounted.current⟩

/-- The first row counts the buy, and the second one the sell as well. -/
theorem rows_recomputed_two : ∃ s first second, played = some s ∧
    s.snapshots = [first, second] ∧ first.strategyTrades = 1 ∧ second.strategyTrades = 2 ∧
    first.Agrees 0 (s.trades.take 1) ∧ second.Agrees 1 (s.trades.take 2) := by
  have hread : played.map (fun s => s.snapshots.map SegmentSnapshot.strategyTrades) =
      some [1, 2] := by decide +kernel
  obtain ⟨s, hrun, heq⟩ := Option.map_eq_some_iff.mp hread
  obtain ⟨hagrees, -, -⟩ := rows_recomputed (runs_played (fun h => h.1.foreign) hrun)
  obtain ⟨first, rows, hrows, hfirst, heq⟩ := List.map_eq_cons_iff.mp heq
  obtain ⟨second, rows, rfl, hsecond, hnil⟩ := List.map_eq_cons_iff.mp heq
  obtain rfl := List.map_eq_nil_iff.mp hnil
  refine ⟨s, first, second, hrun, hrows, hfirst, hsecond, ?_, ?_⟩
  · exact hfirst ▸ hagrees 0 first (by rw [hrows]; rfl)
  · exact hsecond ▸ hagrees 1 second (by rw [hrows]; rfl)

end Accounted

/-! ### The peak -/

/-- **The peak of the equity is never below a row**, and no row has a lower peak than an earlier
one: a peak is the equity and the drawdown of a row. -/
structure Peaked (s : Simulation S) : Prop where
  /-- The peak. -/
  peak : s.riskManager.initialEquity ≤ s.riskManager.equityPeak
  /-- The equity is not above it. -/
  drawdown : 0 ≤ s.riskManager.drawdown
  /-- Every row. -/
  row : ∀ row ∈ s.snapshots, 0 ≤ row.drawdown ∧
    s.riskManager.initialEquity ≤ row.equity + row.drawdown ∧
    row.equity + row.drawdown ≤ s.riskManager.equityPeak
  /-- One row and a later one. -/
  sorted : s.snapshots.Pairwise fun a b => a.equity + a.drawdown ≤ b.equity + b.drawdown

section Peaked

variable {s s' : Simulation S}

/-- An event leaves the rows, and does not lower the peak. -/
theorem onMarketOrder_extends (hs : Desk.Runs Desk.Foreign s.desk) {ev : ItchEvent}
    (hev : ev.Foreign) (hcall : onMarketOrder sts ev s = some s') :
    s'.snapshots = s.snapshots ∧ RiskManager.Risen s.riskManager s'.riskManager := by
  obtain ⟨d, hstep, hlisten⟩ := onMarketOrder_spec hcall
  refine ⟨hlisten.snapshots, ?_⟩
  show RiskManager.Risen _ s'.desk.1.engine.riskManager
  rw [hlisten.desk]
  exact Desk.risen_step hs.booked.unrested (c := .event ev) hev hstep

/-- No row is added, and the peak has risen. -/
theorem Peaked.risen (h : Peaked s) (hrows : s'.snapshots = s.snapshots)
    (hrisen : RiskManager.Risen s.riskManager s'.riskManager) : Peaked s' where
  peak := by
    rw [hrisen.initialEquity]
    exact h.peak.trans hrisen.peak
  drawdown := hrisen.drawdown h.drawdown
  row := by
    intro row hrow
    rw [hrows] at hrow
    obtain ⟨hnonneg, hinitial, hpeak⟩ := h.row row hrow
    rw [hrisen.initialEquity]
    exact ⟨hnonneg, hinitial, hpeak.trans hrisen.peak⟩
  sorted := by
    rw [hrows]
    exact h.sorted

/-- **A snapshot** has the peak of its time. -/
theorem Peaked.snapshot (h : Peaked s) (segment : ℕ) :
    Peaked { s with snapshots := s.snapshots ++ [s.snapshot segment] } where
  peak := h.peak
  drawdown := h.drawdown
  row := by
    intro row hrow
    rcases List.mem_append.mp hrow with hrow | hrow
    · exact h.row row hrow
    · obtain rfl := List.mem_singleton.mp hrow
      have hpeak : (s.snapshot segment).equity + (s.snapshot segment).drawdown =
          s.riskManager.equityPeak := add_sub_cancel _ _
      rw [hpeak]
      exact ⟨h.drawdown, h.peak, le_rfl⟩
  sorted := by
    refine List.pairwise_append.mpr ⟨h.sorted, List.pairwise_singleton _ _, fun a ha b hb => ?_⟩
    obtain rfl := List.mem_singleton.mp hb
    exact (h.row a ha).2.2.trans_eq (add_sub_cancel _ _).symm

theorem Runs.peaked {n : ℕ} {strategies : S} (h : Runs sts onSegment n strategies Desk.Foreign s) :
    Peaked s := by
  induction h with
  | start visits cfg =>
    have hzero : (Simulation.start visits n strategies cfg).riskManager.drawdown = 0 := by
      show cfg.risk.initialEquity - (cfg.risk.initialEquity + 0 + 0) = 0
      omega
    exact ⟨le_rfl, hzero.ge, fun row hrow => absurd hrow List.not_mem_nil, List.Pairwise.nil⟩
  | event ev hr hev hcall ih =>
    obtain ⟨hrows, hrisen⟩ := onMarketOrder_extends (hr.desk fun _ _ _ => trivial) hev hcall
    exact ih.risen hrows hrisen
  | window hr hcall ih =>
    obtain ⟨s₁, hall, rfl⟩ := window_spec hcall
    obtain ⟨hrows, -, hrisen⟩ := arbitrateAll_extends (hr.desk fun _ _ _ => trivial) hall
    exact (ih.risen hrows hrisen).snapshot _

end Peaked

end Simulation

end NebulaX
