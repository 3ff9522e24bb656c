import Mathlib.Algebra.Order.Group.Defs
import Mathlib.Algebra.Order.Group.Unbundled.Basic
import Mathlib.Order.Lattice
import Mathlib.Tactic.Order

/-!
# The running peak

A list of values is read once. The peak is the highest of them so far, and the largest fall is the
furthest that a value was below the peak of its time. Another reading is that of pairs: a fall is
from one value to a later one.

## Main results

* `peak_le_iff` — the peak is the highest value
* `largestFall_le_iff` — no fall is larger, if and only if none between two values is
-/

namespace RunningPeak

variable {α : Type*} [AddCommGroup α] [LinearOrder α] [IsOrderedAddMonoid α]

/-- The highest value, from `start` on. -/
def peak (start : α) (xs : List α) : α := xs.foldl max start

/-- The peak, and the largest fall below it, after one value more. -/
def step (s : α × α) (x : α) : α × α := (max s.1 x, max s.2 (max s.1 x - x))

/-- The largest fall. -/
def largestFall (start : α) (xs : List α) : α := (xs.foldl step (start, 0)).2

omit [AddCommGroup α] [IsOrderedAddMonoid α] in
/-- **The peak** is below a bound if and only if all values are. -/
theorem peak_le_iff {start b : α} {xs : List α} :
    peak start xs ≤ b ↔ start ≤ b ∧ ∀ x ∈ xs, x ≤ b := by
  rw [peak]
  induction xs generalizing start with
  | nil => simp
  | cons x xs ih => rw [List.foldl_cons, ih, max_le_iff, List.forall_mem_cons, and_assoc]

/-- The largest fall, from a peak and a fall on. -/
theorem foldl_step_le_iff {s : α × α} {b : α} {xs : List α} (hs : 0 ≤ s.2) :
    (xs.foldl step s).2 ≤ b ↔ s.2 ≤ b ∧ (s.1 :: xs).Pairwise fun y x => y - x ≤ b := by
  induction xs generalizing s with
  | nil => simp
  | cons x xs ih =>
    -- a value that falls below the new peak falls below the old one or below `x`
    have hpeak : ∀ z, max s.1 x - z ≤ b ↔ s.1 - z ≤ b ∧ x - z ≤ b := by
      intro z
      rw [sub_le_iff_le_add, sub_le_iff_le_add, sub_le_iff_le_add, max_le_iff]
    rw [List.foldl_cons, ih (hs.trans (le_max_left _ _)), step, List.pairwise_cons,
      List.pairwise_cons, List.pairwise_cons]
    simp only [max_le_iff, hpeak, List.forall_mem_cons, sub_self]
    constructor
    · rintro ⟨⟨hfall, hfirst, -⟩, hboth, hrest⟩
      exact ⟨hfall, ⟨hfirst, fun z hz => (hboth z hz).1⟩, fun z hz => (hboth z hz).2, hrest⟩
    · rintro ⟨hfall, ⟨hfirst, hold⟩, hnew, hrest⟩
      exact ⟨⟨hfall, hfirst, hs.trans hfall⟩, fun z hz => ⟨hold z hz, hnew z hz⟩, hrest⟩

/-- **The largest fall** is below a bound if and only if the bound is not negative, and no value is
further below an earlier one. -/
theorem largestFall_le_iff {start b : α} {xs : List α} :
    largestFall start xs ≤ b ↔ 0 ≤ b ∧ (start :: xs).Pairwise fun y x => y - x ≤ b :=
  foldl_step_le_iff le_rfl

end RunningPeak
