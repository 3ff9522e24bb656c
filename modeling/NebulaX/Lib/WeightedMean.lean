import Mathlib.Algebra.Order.BigOperators.Group.Finset
import Mathlib.Algebra.Order.Ring.Int
import Mathlib.Algebra.BigOperators.Ring.Finset

/-!
# Rounded weighted means

The mean of integers under weights that are not negative, rounded down. It lies between two of the
values that have weight.

## Main results

* `exists_le_mean`, `exists_mean_le` — a value below it, and one above
-/

namespace WeightedMean

variable {ι : Type*} {s : Finset ι} {w x : ι → ℤ}

/-- **The mean**, rounded down. -/
def mean (s : Finset ι) (w x : ι → ℤ) : ℤ := (∑ i ∈ s, x i * w i) / ∑ i ∈ s, w i

/-- **A value with weight** is not above the mean. -/
theorem exists_le_mean (hw : ∀ i ∈ s, 0 ≤ w i) (hpos : 0 < ∑ i ∈ s, w i) :
    ∃ i ∈ s, 0 < w i ∧ x i ≤ mean s w x := by
  by_contra hnone
  push Not at hnone
  -- all values with weight are above the mean, so it is one too small
  have hle : ∀ i ∈ s, (mean s w x + 1) * w i ≤ x i * w i := by
    intro i hi
    rcases (hw i hi).eq_or_lt with hzero | hlt
    · rw [← hzero, mul_zero, mul_zero]
    · exact mul_le_mul_of_nonneg_right (hnone i hi hlt) (hw i hi)
  have hsum : (mean s w x + 1) * ∑ i ∈ s, w i ≤ ∑ i ∈ s, x i * w i := by
    rw [Finset.mul_sum]
    exact Finset.sum_le_sum hle
  have hfloor : mean s w x + 1 ≤ mean s w x := (Int.le_ediv_iff_mul_le hpos).mpr hsum
  omega

/-- **A value with weight** is not below it. -/
theorem exists_mean_le (hw : ∀ i ∈ s, 0 ≤ w i) (hpos : 0 < ∑ i ∈ s, w i) :
    ∃ i ∈ s, 0 < w i ∧ mean s w x ≤ x i := by
  by_contra hnone
  push Not at hnone
  have hle : ∀ i ∈ s, x i * w i ≤ (mean s w x - 1) * w i := by
    intro i hi
    rcases (hw i hi).eq_or_lt with hzero | hlt
    · rw [← hzero, mul_zero, mul_zero]
    · exact mul_le_mul_of_nonneg_right (Int.le_sub_one_of_lt (hnone i hi hlt)) (hw i hi)
  have hsum : ∑ i ∈ s, x i * w i ≤ (mean s w x - 1) * ∑ i ∈ s, w i := by
    rw [Finset.mul_sum]
    exact Finset.sum_le_sum hle
  have hfloor : mean s w x * ∑ i ∈ s, w i ≤ ∑ i ∈ s, x i * w i :=
    Int.ediv_mul_le _ hpos.ne'
  have hstrict : (mean s w x - 1) * ∑ i ∈ s, w i < mean s w x * ∑ i ∈ s, w i :=
    mul_lt_mul_of_pos_right (by omega) hpos
  omega

end WeightedMean
