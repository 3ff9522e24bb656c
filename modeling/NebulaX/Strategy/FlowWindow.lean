import Mathlib.Algebra.Order.Group.Abs
import Mathlib.Algebra.Order.Ring.Int
import NebulaX.Lib.Ring
import NebulaX.Strategy.OrderFlowImbalance

/-!
# The window of the order flow imbalance

The strategy keeps the sum of what it recorded last by adding what comes in and taking off what
leaves a ring of `kWindow` slots. After any number of events the sum is that of the last ones, and
direction and strength are functions of it: the strength grows from nothing at the threshold to
its full scale at twice the threshold, and where the threshold is zero nothing is divided by it.

Sums are taken as integers. They are those of the machine as long as they fit.

## Main results

* `Windowed.record` — what one more event does to the sum
* `judge_strength` — the strength of a sum
* `window_laws` — sum, direction and strength after any events
-/

namespace NebulaX.OrderFlowImbalanceStrategy

variable {s s' : OrderFlowImbalanceStrategy} {ds : List Int64}

/-- `on_event` for several events, each with its direction. -/
def onEvents (s : OrderFlowImbalanceStrategy) (events : List (MarketEvent × OrderSide)) :
    OrderFlowImbalanceStrategy :=
  events.foldl (fun s e => s.onEvent e.1 e.2) s

/-- What several events contribute. -/
def deltas (events : List (MarketEvent × OrderSide)) : List Int64 :=
  events.map fun e => delta e.1 e.2

/-- **The sum of the last** `kWindow` contributions. -/
def windowSum (ds : List Int64) : ℤ := ((Ring.recent kWindow ds).map Int64.toInt).sum

/-! ### The sum -/

/-- The strategy has recorded `ds`. -/
structure Windowed (s : OrderFlowImbalanceStrategy) (ds : List Int64) : Prop where
  /-- How many they are. -/
  widx : s.widx = ds.length
  /-- The last of them stand in the window. -/
  holds : Ring.Holds kWindow s.win ds
  /-- Their sum, in 64 bits. -/
  ofi : s.ofi = Int64.ofInt (windowSum ds)

theorem windowed_new (threshold : Int64) : Windowed { threshold := threshold } [] where
  widx := rfl
  holds := Ring.holds_nil _ _
  ofi := rfl

/-- **One more** comes in, and the oldest leaves. -/
theorem Windowed.record (h : Windowed s ds) {d : Int64} (hr : Records s s' d) :
    Windowed s' (ds ++ [d]) where
  widx := by
    rw [hr.widx, h.widx, List.length_append, List.length_singleton]
  holds := by
    rw [hr.win, h.widx]
    exact h.holds.push d
  ofi := by
    rw [hr.ofi, h.ofi, evicted, h.widx]
    by_cases hlt : ds.length < kWindow
    · rw [if_pos hlt, windowSum, windowSum, Ring.recent_push_of_lt hlt, List.map_append,
        List.sum_append, Int64.ofInt_add, Int64.sub_zero]
      simp
    · obtain ⟨y, ys, hy, hrecent, hpush⟩ :=
        Ring.recent_push_of_le (by decide) (Nat.le_of_not_lt hlt) d
      have hold := h.holds.oldest (Nat.le_of_not_lt hlt) hy
      have hbefore : windowSum ds = y.toInt + (ys.map Int64.toInt).sum := by
        rw [windowSum, hrecent, List.map_cons, List.sum_cons]
      have hafter : windowSum (ds ++ [d]) = (ys.map Int64.toInt).sum + d.toInt := by
        rw [windowSum, hpush, List.map_append, List.sum_append, List.map_singleton,
          List.sum_singleton]
      rw [if_neg hlt, hold, hbefore, hafter, Int64.ofInt_add, Int64.ofInt_add, Int64.ofInt_toInt,
        Int64.ofInt_toInt, Int64.add_comm y, Int64.add_sub_cancel]

/-- **Any number of events.** -/
theorem Windowed.onEvents (h : Windowed s ds) (events : List (MarketEvent × OrderSide)) :
    Windowed (s.onEvents events) (ds ++ deltas events) := by
  induction events generalizing s ds with
  | nil =>
    rw [deltas, List.map_nil, List.append_nil]
    exact h
  | cons e events ih =>
    have hfirst := ih (h.record (s.onEvent_records e.1 e.2))
    rw [List.append_assoc] at hfirst
    exact hfirst

/-! ### Direction and strength -/

/-- The strength for a sum of magnitude `m`: nothing up to the threshold, the full scale from twice
the threshold on, and in proportion in between. -/
def strengthOf (threshold m : ℤ) : ℤ :=
  if m ≤ threshold then 0
  else if 2 * threshold ≤ m then 10000 else (m - threshold) * 10000 / threshold

/-- In between the threshold is not zero, -/
theorem threshold_pos_of_between {threshold m : ℤ} (h : threshold < m) (h' : m < 2 * threshold) :
    0 < threshold := by
  omega

/-- and the strength is below the full scale. -/
theorem strengthOf_between {threshold m : ℤ} (h : threshold < m) (h' : m < 2 * threshold) :
    0 ≤ strengthOf threshold m ∧ strengthOf threshold m < 10000 := by
  have hpos := threshold_pos_of_between h h'
  rw [strengthOf, if_neg (by omega), if_neg (by omega)]
  exact ⟨Int.ediv_nonneg (by omega) (by omega), Int.ediv_lt_of_lt_mul hpos (by omega)⟩

theorem strengthOf_range (threshold m : ℤ) :
    0 ≤ strengthOf threshold m ∧ strengthOf threshold m ≤ 10000 := by
  by_cases hlow : m ≤ threshold
  · rw [strengthOf, if_pos hlow]
    decide
  · by_cases hfull : 2 * threshold ≤ m
    · rw [strengthOf, if_neg hlow, if_pos hfull]
      decide
    · obtain ⟨hnonneg, hlt⟩ := strengthOf_between (Int.lt_of_not_ge hlow) (Int.lt_of_not_ge hfull)
      exact ⟨hnonneg, hlt.le⟩

theorem strengthOf_eq_full_iff {threshold m : ℤ} (h : threshold < m) :
    strengthOf threshold m = 10000 ↔ 2 * threshold ≤ m := by
  constructor
  · intro heq
    by_contra hlt
    exact absurd heq (strengthOf_between h (Int.lt_of_not_ge hlt)).2.ne
  · intro hfull
    rw [strengthOf, if_neg (by omega), if_pos hfull]

/-- **More of a sum is more of a strength.** -/
theorem strengthOf_mono {threshold m m' : ℤ} (hm : m ≤ m') :
    strengthOf threshold m ≤ strengthOf threshold m' := by
  by_cases hlow : m ≤ threshold
  · rw [strengthOf, if_pos hlow]
    exact (strengthOf_range threshold m').1
  · by_cases hfull : 2 * threshold ≤ m'
    · rw [(strengthOf_eq_full_iff (by omega)).mpr hfull]
      exact (strengthOf_range threshold m).2
    · have hpos := threshold_pos_of_between (Int.lt_of_not_ge hlow) (by omega)
      rw [strengthOf, strengthOf, if_neg hlow, if_neg (by omega), if_neg (by omega), if_neg hfull]
      exact Int.ediv_le_ediv hpos (by omega)

/-- An integer that fits is its own remainder. -/
theorem bmod_eq {x : ℤ} (hlo : -2 ^ 63 ≤ x) (hhi : x < 2 ^ 63) : x.bmod (2 ^ 64) = x :=
  Int.bmod_eq_of_le (by omega) (by omega)

/-- The magnitude of a sum that fits. -/
theorem toInt_magnitude (hsmall : |s.ofi.toInt| < 2 ^ 63) :
    (if 0 < s.ofi then s.ofi else -s.ofi).toInt = |s.ofi.toInt| := by
  have hiff : 0 < s.ofi ↔ 0 < s.ofi.toInt := Int64.lt_iff_toInt_lt
  by_cases hpos : 0 < s.ofi.toInt
  · rw [if_pos (hiff.mpr hpos), abs_of_pos hpos]
  · rw [abs_of_nonpos (not_lt.mp hpos)] at hsmall ⊢
    rw [if_neg (mt hiff.mp hpos), Int64.toInt_neg]
    exact bmod_eq (by omega) (by omega)

/-- The direction of a sum. -/
theorem judge_current (hthreshold : 0 ≤ s.threshold.toInt) :
    s.judge.current = if s.threshold.toInt < s.ofi.toInt then .buy
      else if s.ofi.toInt < -s.threshold.toInt then .sell else .none := by
  have hlt := s.threshold.toInt_lt
  have hneg : (-s.threshold).toInt = -s.threshold.toInt := by
    rw [Int64.toInt_neg]
    exact bmod_eq (by omega) (by omega)
  show (if s.threshold < s.ofi then OrderSide.buy
    else if s.ofi < -s.threshold then .sell else .none) = _
  rw [← hneg]
  simp only [Int64.lt_iff_toInt_lt]

/-- The numbers that the strength is made of. -/
theorem judge_numbers (hthreshold : 0 ≤ s.threshold.toInt)
    (hsmall : |s.ofi.toInt| * 10000 < 2 ^ 63) :
    ((if 0 < s.ofi then s.ofi else -s.ofi) - s.threshold).toInt =
        |s.ofi.toInt| - s.threshold.toInt ∧
      s.threshold * (kSaturate - 1) = s.threshold ∧
      (s.judge.current = .none ↔ |s.ofi.toInt| ≤ s.threshold.toInt) := by
  have hlt := s.threshold.toInt_lt
  have hnonneg := abs_nonneg s.ofi.toInt
  refine ⟨?_, ?_, ?_⟩
  · rw [Int64.toInt_sub, toInt_magnitude (by omega)]
    exact bmod_eq (by omega) (by omega)
  · rw [show kSaturate - 1 = 1 by decide]
    exact Int64.mul_one _
  · rw [judge_current hthreshold, abs_le]
    split
    · exact iff_of_false OrderSide.noConfusion (by omega)
    · split
      · exact iff_of_false OrderSide.noConfusion (by omega)
      · exact iff_of_true rfl (by omega)

/-- **The strength of a sum**, in integers. -/
theorem judge_strength (hthreshold : 0 ≤ s.threshold.toInt)
    (hsmall : |s.ofi.toInt| * 10000 < 2 ^ 63) :
    s.judge.strength.toInt = strengthOf s.threshold.toInt |s.ofi.toInt| := by
  obtain ⟨hexcess, hspan, hnone⟩ := judge_numbers hthreshold hsmall
  show (if s.judge.current = .none then (0 : Int64)
    else if s.threshold * (kSaturate - 1) ≤ (if 0 < s.ofi then s.ofi else -s.ofi) - s.threshold
      then Signal.kStrengthScale
      else ((if 0 < s.ofi then s.ofi else -s.ofi) - s.threshold) * Signal.kStrengthScale /
        (s.threshold * (kSaturate - 1))).toInt = _
  rw [hspan, strengthOf]
  by_cases hlow : |s.ofi.toInt| ≤ s.threshold.toInt
  · rw [if_pos (hnone.mpr hlow), if_pos hlow]
    rfl
  · rw [if_neg (mt hnone.mp hlow), if_neg hlow]
    by_cases hfull : 2 * s.threshold.toInt ≤ |s.ofi.toInt|
    · rw [if_pos (Int64.le_iff_toInt_le.mpr (by rw [hexcess]; omega)), if_pos hfull]
      rfl
    · have hscale : Signal.kStrengthScale.toInt = 10000 := by decide
      have hbetween := threshold_pos_of_between (Int.lt_of_not_ge hlow) (Int.lt_of_not_ge hfull)
      have hproduct : (((if 0 < s.ofi then s.ofi else -s.ofi) - s.threshold) *
          Signal.kStrengthScale).toInt = (|s.ofi.toInt| - s.threshold.toInt) * 10000 := by
        rw [Int64.toInt_mul, hexcess, hscale]
        exact bmod_eq (by omega) (by omega)
      have hne : s.threshold ≠ -1 := by
        intro h
        rw [h] at hbetween
        exact absurd hbetween (by decide)
      rw [if_neg fun h => hfull (by rw [Int64.le_iff_toInt_le, hexcess] at h; omega), if_neg hfull,
        Int64.toInt_div_of_ne_right _ _ hne, hproduct]
      exact Int.tdiv_eq_ediv_of_nonneg (by omega)

/-- `on_event` comes to its division, which is by the threshold. -/
def Divides (s : OrderFlowImbalanceStrategy) : Prop :=
  s.judge.current ≠ .none ∧ ¬ s.threshold * (kSaturate - 1) ≤
    (if 0 < s.ofi then s.ofi else -s.ofi) - s.threshold

/-- **It does not divide by zero.** -/
theorem Divides.ne_zero (h : Divides s) (hthreshold : 0 ≤ s.threshold.toInt)
    (hsmall : |s.ofi.toInt| * 10000 < 2 ^ 63) : s.threshold * (kSaturate - 1) ≠ 0 := by
  obtain ⟨hnone, hlt⟩ := h
  obtain ⟨hexcess, hspan, hiff⟩ := judge_numbers hthreshold hsmall
  rw [hspan] at hlt ⊢
  rw [Int64.le_iff_toInt_le, hexcess] at hlt
  intro hzero
  have hlow := mt hiff.mpr hnone
  have hread : s.threshold.toInt = 0 := congrArg Int64.toInt hzero
  omega

/-- Direction and strength are those of the sum. -/
def Judged (s : OrderFlowImbalanceStrategy) : Prop := s.judge = s

theorem judged_new {threshold : Int64} (h : 0 ≤ threshold.toInt) :
    Judged { threshold := threshold } := by
  have hlt := threshold.toInt_lt
  have hbuy : ¬ threshold < 0 := fun hc => absurd (Int64.lt_iff_toInt_lt.mp hc) (not_lt.mpr h)
  have hsell : ¬ 0 < -threshold := by
    intro hc
    have hc := Int64.lt_iff_toInt_lt.mp hc
    rw [Int64.toInt_neg, bmod_eq (by omega) (by omega)] at hc
    exact absurd hc (not_lt.mpr (Int.neg_nonpos_of_nonneg h))
  rw [Judged, judge]
  simp only [if_neg hbuy, if_neg hsell, if_true]

/-- An event leaves the threshold alone. -/
theorem threshold_onEvent (s : OrderFlowImbalanceStrategy) (ev : MarketEvent) (side : OrderSide) :
    (s.onEvent ev side).threshold = s.threshold := by
  simp only [onEvent, judge, slide]
  split <;> rfl

/-- **Direction and strength follow the sum**, after any number of events. -/
theorem judged_onEvents (h : Judged s) (events : List (MarketEvent × OrderSide)) :
    Judged (s.onEvents events) ∧ (s.onEvents events).threshold = s.threshold := by
  induction events generalizing s with
  | nil => exact ⟨h, rfl⟩
  | cons e events ih =>
    have hjudged : Judged (s.onEvent e.1 e.2) := rfl
    obtain ⟨hlast, hthreshold⟩ := ih hjudged
    exact ⟨hlast, hthreshold.trans (s.threshold_onEvent e.1 e.2)⟩

/-- The strategy after any events. -/
theorem onEvents_spec {threshold : Int64} (hthreshold : 0 ≤ threshold.toInt)
    {events : List (MarketEvent × OrderSide)} {W : ℤ} (hsum : windowSum (deltas events) = W)
    (hsmall : |W| * 10000 < 2 ^ 63) :
    (onEvents { threshold := threshold } events).threshold = threshold ∧
      (onEvents { threshold := threshold } events).ofi.toInt = W ∧
      (onEvents { threshold := threshold } events).current =
        (if threshold.toInt < W then .buy else if W < -threshold.toInt then .sell else .none) ∧
      (onEvents { threshold := threshold } events).strength.toInt =
        strengthOf threshold.toInt |W| := by
  obtain ⟨hjudged, hsame⟩ := judged_onEvents (judged_new hthreshold) events
  have hwindow := (windowed_new threshold).onEvents events
  have hofi : (onEvents { threshold := threshold } events).ofi.toInt = W := by
    have hbounds := abs_lt.mp (show |W| < 2 ^ 63 by omega)
    rw [hwindow.ofi, List.nil_append, hsum]
    exact Int64.toInt_ofInt_of_le (by omega) hbounds.2
  have hcurrent := judge_current (s := onEvents { threshold := threshold } events)
    (by rw [hsame]; exact hthreshold)
  have hstrength := judge_strength (s := onEvents { threshold := threshold } events)
    (by rw [hsame]; exact hthreshold) (by rw [hofi]; exact hsmall)
  rw [show (onEvents { threshold := threshold } events).judge = _ from hjudged, hsame, hofi]
    at hcurrent hstrength
  exact ⟨hsame, hofi, hcurrent, hstrength⟩

/-- **The window after any events**: the sum is that of the last `kWindow` contributions, the
direction says on which side of the threshold it is, and the strength is within its scale, full
from twice the threshold on, never divided by zero, and no smaller for a sum that is no smaller. -/
theorem window_laws {threshold : Int64} (hthreshold : 0 ≤ threshold.toInt)
    (events : List (MarketEvent × OrderSide)) {s : OrderFlowImbalanceStrategy}
    (hs : onEvents { threshold := threshold } events = s) {W : ℤ}
    (hsum : windowSum (deltas events) = W) (hsmall : |W| * 10000 < 2 ^ 63) :
    s.ofi.toInt = W ∧
      (s.current = .buy ↔ threshold.toInt < s.ofi.toInt) ∧
      (s.current = .sell ↔ s.ofi.toInt < -threshold.toInt) ∧
      (s.current = .none → s.strength = 0) ∧
      (0 ≤ s.strength ∧ s.strength ≤ Signal.kStrengthScale) ∧
      (s.current ≠ .none →
        (s.strength = Signal.kStrengthScale ↔ 2 * threshold.toInt ≤ |s.ofi.toInt|)) ∧
      (Divides s → s.threshold * (kSaturate - 1) ≠ 0) ∧
      ∀ events', |windowSum (deltas events')| * 10000 < 2 ^ 63 →
        |s.ofi.toInt| ≤ |(onEvents { threshold := threshold } events').ofi.toInt| →
        s.strength ≤ (onEvents { threshold := threshold } events').strength := by
  obtain ⟨hsame, hofi, hcurrent, hstrength⟩ := onEvents_spec hthreshold hsum hsmall
  rw [hs] at hsame hofi hcurrent hstrength
  obtain ⟨hlo, hhi⟩ := strengthOf_range threshold.toInt |W|
  have hscale : Signal.kStrengthScale.toInt = 10000 := by decide
  have hbelow : s.current = .none ↔ |W| ≤ threshold.toInt := by
    rw [hcurrent, abs_le]
    split
    · exact iff_of_false OrderSide.noConfusion (by omega)
    · split
      · exact iff_of_false OrderSide.noConfusion (by omega)
      · exact iff_of_true rfl (by omega)
  rw [hofi]
  refine ⟨rfl, ?_, ?_, fun hnone => ?_, ⟨?_, ?_⟩, fun hne => ?_, fun hdiv => ?_, ?_⟩
  · rw [hcurrent]
    split
    · next h => exact iff_of_true rfl h
    · next h => exact iff_of_false (by split <;> exact OrderSide.noConfusion) h
  · rw [hcurrent]
    split
    · exact iff_of_false OrderSide.noConfusion (by omega)
    · split
      · next h => exact iff_of_true rfl h
      · next h => exact iff_of_false OrderSide.noConfusion h
  · refine Int64.toInt_inj.mp (hstrength.trans ?_)
    rw [strengthOf, if_pos (hbelow.mp hnone)]
    rfl
  · rw [Int64.le_iff_toInt_le, hstrength]
    exact hlo
  · rw [Int64.le_iff_toInt_le, hstrength, hscale]
    exact hhi
  · rw [← Int64.toInt_inj, hstrength, hscale]
    exact strengthOf_eq_full_iff (Int.lt_of_not_ge (mt hbelow.mpr hne))
  · refine hdiv.ne_zero ?_ ?_
    · rw [hsame]
      exact hthreshold
    · rw [hofi]
      exact hsmall
  · intro events' hsmall' hle
    obtain ⟨-, hofi', -, hstrength'⟩ := onEvents_spec hthreshold rfl hsmall'
    rw [hofi'] at hle
    rw [Int64.le_iff_toInt_le, hstrength, hstrength']
    exact strengthOf_mono hle

/-- Eight hundred shares are added to the bids, and fifty of the asks are cancelled. -/
def twoEvents : List (MarketEvent × OrderSide) :=
  [({ body := .add { side := .buy, shares := 800 }, locate := 1, timestamp := 1 }, .buy),
    ({ body := .cancel { side := .sell, shares := 50 }, locate := 1, timestamp := 2 }, .sell)]

theorem window_laws_two : (onEvents { threshold := 500 } twoEvents).ofi.toInt = 850 ∧
    ((onEvents { threshold := 500 } twoEvents).current = .buy ↔
      (500 : Int64).toInt < (onEvents { threshold := 500 } twoEvents).ofi.toInt) := by
  obtain ⟨hofi, hbuy, -⟩ :=
    @window_laws 500 (by decide) twoEvents _ rfl 850 (by decide) (by decide)
  exact ⟨hofi, hbuy⟩

end NebulaX.OrderFlowImbalanceStrategy
