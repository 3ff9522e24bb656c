import Mathlib.Algebra.BigOperators.Group.List.Basic
import Mathlib.Algebra.Order.Ring.Int
import Mathlib.Data.List.Induction

/-!
# Means that are carried along

A weighted mean of integers, rounded down, is carried along with the weight: with every value that
comes in the old mean, times the old weight, stands for all values before. So what the old mean had
been rounded by is lost. What is lost altogether is known from the values alone: every division
drops a remainder of what is there, and what is there is the sum of the values less what was lost
before.

## Main results

* `mean_mul_weight` — the mean, times the weight, is the sum less what was lost
* `mean_eq_iff` — the mean is the right one if and only if less than the weight was lost
-/

namespace RunningMean

/-- The sum of values, each as often as its weight says. -/
def total (xs : List (ℤ × ℕ)) : ℤ := (xs.map fun x => x.1 * (x.2 : ℤ)).sum

/-- The weight of values. -/
def weight (xs : List (ℤ × ℕ)) : ℕ := (xs.map Prod.snd).sum

/-- The sum, the weight and what is lost, with one value more. -/
def lose (acc : ℤ × ℕ × ℤ) (x : ℤ × ℕ) : ℤ × ℕ × ℤ :=
  (acc.1 + x.1 * x.2, acc.2.1 + x.2,
    acc.2.2 + (acc.1 + x.1 * x.2 - acc.2.2) % ((acc.2.1 + x.2 : ℕ) : ℤ))

/-- What is lost. -/
def lost (xs : List (ℤ × ℕ)) : ℤ := (xs.foldl lose (0, 0, 0)).2.2

/-- The mean and the weight, with one value more. -/
def average (acc : ℤ × ℕ) (x : ℤ × ℕ) : ℤ × ℕ :=
  ((acc.1 * acc.2 + x.1 * x.2) / ((acc.2 + x.2 : ℕ) : ℤ), acc.2 + x.2)

/-- **The mean** that is carried along. -/
def mean (xs : List (ℤ × ℕ)) : ℤ := (xs.foldl average (0, 0)).1

theorem total_concat (xs : List (ℤ × ℕ)) (x : ℤ × ℕ) :
    total (xs ++ [x]) = total xs + x.1 * x.2 := by
  rw [total, List.map_append, List.sum_append, List.map_singleton, List.sum_singleton]
  rfl

theorem weight_concat (xs : List (ℤ × ℕ)) (x : ℤ × ℕ) :
    weight (xs ++ [x]) = weight xs + x.2 := by
  rw [weight, List.map_append, List.sum_append, List.map_singleton, List.sum_singleton]
  rfl

theorem foldl_lose (xs : List (ℤ × ℕ)) :
    xs.foldl lose (0, 0, 0) = (total xs, weight xs, lost xs) := by
  induction xs using List.reverseRecOn with
  | nil => rfl
  | append_singleton xs x ih =>
    have hstep : (xs ++ [x]).foldl lose (0, 0, 0) = lose (xs.foldl lose (0, 0, 0)) x :=
      List.foldl_concat ..
    rw [lost, hstep, total_concat, weight_concat, ih]
    rfl

theorem foldl_average (xs : List (ℤ × ℕ)) : xs.foldl average (0, 0) = (mean xs, weight xs) := by
  induction xs using List.reverseRecOn with
  | nil => rfl
  | append_singleton xs x ih =>
    have hstep : (xs ++ [x]).foldl average (0, 0) = average (xs.foldl average (0, 0)) x :=
      List.foldl_concat ..
    rw [mean, hstep, weight_concat, ih]
    rfl

/-- One value more: what its division drops is lost. -/
theorem lost_concat (xs : List (ℤ × ℕ)) (x : ℤ × ℕ) :
    lost (xs ++ [x]) = lost xs + (total (xs ++ [x]) - lost xs) % (weight (xs ++ [x]) : ℤ) := by
  have hstep : (xs ++ [x]).foldl lose (0, 0, 0) = lose (xs.foldl lose (0, 0, 0)) x :=
    List.foldl_concat ..
  rw [lost, hstep, foldl_lose, total_concat, weight_concat]
  rfl

/-- One value more: the old mean stands for the values before. -/
theorem mean_concat (xs : List (ℤ × ℕ)) (x : ℤ × ℕ) :
    mean (xs ++ [x]) = (mean xs * weight xs + x.1 * x.2) / (weight (xs ++ [x]) : ℤ) := by
  have hstep : (xs ++ [x]).foldl average (0, 0) = average (xs.foldl average (0, 0)) x :=
    List.foldl_concat ..
  rw [mean, hstep, foldl_average, weight_concat]
  rfl

/-- **The mean, times the weight,** is the sum less what was lost. -/
theorem mean_mul_weight (xs : List (ℤ × ℕ)) : mean xs * weight xs = total xs - lost xs := by
  induction xs using List.reverseRecOn with
  | nil => rfl
  | append_singleton xs x ih =>
    have hdiv := Int.mul_ediv_add_emod (total (xs ++ [x]) - lost xs) (weight (xs ++ [x]) : ℤ)
    have hthere : mean xs * weight xs + x.1 * x.2 = total (xs ++ [x]) - lost xs := by
      rw [ih, total_concat]
      omega
    rw [mean_concat, hthere, lost_concat, mul_comm]
    omega

/-- Without weight there is no sum. -/
theorem total_of_weight {xs : List (ℤ × ℕ)} (h : weight xs = 0) : total xs = 0 := by
  induction xs using List.reverseRecOn with
  | nil => rfl
  | append_singleton xs x ih =>
    rw [weight_concat] at h
    have hx : x.2 = 0 := by omega
    rw [total_concat, ih (by omega), hx]
    exact (zero_add _).trans (mul_zero _)

theorem lost_nonneg (xs : List (ℤ × ℕ)) : 0 ≤ lost xs := by
  induction xs using List.reverseRecOn with
  | nil => exact le_refl 0
  | append_singleton xs x ih =>
    rw [lost_concat]
    by_cases hw : weight (xs ++ [x]) = 0
    · rw [hw, Nat.cast_zero, Int.emod_zero, total_of_weight hw]
      omega
    · exact add_nonneg ih (Int.emod_nonneg _ (Nat.cast_ne_zero.mpr hw))

/-- Values that are not negative have such a mean. -/
theorem mean_nonneg {xs : List (ℤ × ℕ)} (h : ∀ x ∈ xs, 0 ≤ x.1) : 0 ≤ mean xs := by
  induction xs using List.reverseRecOn with
  | nil => exact le_refl 0
  | append_singleton xs x ih =>
    have hold := ih fun y hy => h y (List.mem_append_left [x] hy)
    have hx := h x (List.mem_append_right xs List.mem_cons_self)
    rw [mean_concat]
    exact Int.ediv_nonneg (add_nonneg (mul_nonneg hold (Int.natCast_nonneg _))
      (mul_nonneg hx (Int.natCast_nonneg _))) (Int.natCast_nonneg _)

/-- **The mean is the right one** if and only if less than the weight was lost. -/
theorem mean_eq_iff {xs : List (ℤ × ℕ)} (h : 0 < weight xs) :
    mean xs = total xs / (weight xs : ℤ) ↔ lost xs < weight xs := by
  have hsum : total xs = lost xs + mean xs * weight xs := by
    rw [mean_mul_weight]
    omega
  have hpos : (0 : ℤ) < weight xs := Int.natCast_pos.mpr h
  have hquot : total xs / (weight xs : ℤ) = lost xs / (weight xs : ℤ) + mean xs := by
    rw [hsum, Int.add_mul_ediv_right _ _ hpos.ne']
  rw [hquot]
  constructor
  · intro hmean
    have hzero : lost xs / (weight xs : ℤ) = 0 := by omega
    by_contra hge
    have hone : 1 ≤ lost xs / (weight xs : ℤ) :=
      (Int.le_ediv_iff_mul_le hpos).mpr (by omega)
    omega
  · intro hlt
    rw [Int.ediv_eq_zero_of_lt (lost_nonneg xs) hlt, zero_add]

end RunningMean
