import Mathlib.Data.List.Basic
import Mathlib.Data.Nat.ModEq
import Mathlib.Logic.Function.Basic

/-!
# Rings

A ring of `n` slots is written one slot after the other, from the first one again after the last.
It holds the last `n` values that were written.

## Main results

* `Holds.push` — what it holds after one more value
* `recent_push_of_le` — the oldest value goes when the ring is full
* `Holds.map_range` — the slots from the first to the last, if the last one was written last
-/

namespace Ring

variable {α : Type*} {n : ℕ} {slot : ℕ → α} {xs : List α}

/-- The last `n` values. -/
def recent (n : ℕ) (xs : List α) : List α := xs.drop (xs.length - n)

/-- **The slots hold** the last `n` values that were written. -/
def Holds (n : ℕ) (slot : ℕ → α) (xs : List α) : Prop :=
  ∀ k x, xs[k]? = some x → xs.length ≤ k + n → slot (k % n) = x

theorem holds_nil (n : ℕ) (slot : ℕ → α) : Holds n slot [] := fun _ _ h => absurd h (by simp)

/-- Slots of values that are less than a round apart are different. -/
theorem mod_ne_of_lt {k l : ℕ} (hkl : k < l) (hlt : l < k + n) : k % n ≠ l % n := by
  intro heq
  have hdvd : n ∣ l - k := (Nat.modEq_iff_dvd' hkl.le).mp heq
  have hle := Nat.le_of_dvd (by omega) hdvd
  omega

/-- **One more value** is written behind the last one. -/
theorem Holds.push (h : Holds n slot xs) (x : α) :
    Holds n (Function.update slot (xs.length % n) x) (xs ++ [x]) := by
  intro k y hk hle
  rw [List.length_append, List.length_singleton] at hle
  rcases Nat.lt_trichotomy k xs.length with hlt | rfl | hgt
  · rw [List.getElem?_append_left hlt] at hk
    rw [Function.update_of_ne (mod_ne_of_lt hlt (by omega))]
    exact h k y hk (by omega)
  · rw [List.getElem?_concat_length] at hk
    rw [Function.update_self]
    exact Option.some.inj hk
  · rw [List.getElem?_eq_none (by rw [List.length_append, List.length_singleton]; omega)] at hk
    exact absurd hk.symm (Option.some_ne_none y)

/-- Nothing goes while there is room. -/
theorem recent_push_of_lt (h : xs.length < n) (x : α) :
    recent n (xs ++ [x]) = recent n xs ++ [x] := by
  rw [recent, recent, List.length_append, List.length_singleton, Nat.sub_eq_zero_of_le h,
    Nat.sub_eq_zero_of_le h.le]
  rfl

/-- **The oldest value goes** when the ring is full. -/
theorem recent_push_of_le (hn : 0 < n) (h : n ≤ xs.length) (x : α) :
    ∃ y ys, xs[xs.length - n]? = some y ∧ recent n xs = y :: ys ∧
      recent n (xs ++ [x]) = ys ++ [x] := by
  have hlt : xs.length - n < xs.length := by omega
  refine ⟨xs[xs.length - n], xs.drop (xs.length - n + 1), List.getElem?_eq_getElem hlt,
    List.drop_eq_getElem_cons hlt, ?_⟩
  have hsub : xs.length + 1 - n = xs.length - n + 1 := by omega
  rw [recent, List.length_append, List.length_singleton, hsub, List.drop_append_of_le_length]
  omega

/-- The slot that is written next holds the oldest value. -/
theorem Holds.oldest (h : Holds n slot xs) (hle : n ≤ xs.length) {y : α}
    (hy : xs[xs.length - n]? = some y) : slot (xs.length % n) = y := by
  have heq : (xs.length - n) % n = xs.length % n := (Nat.mod_eq_sub_mod hle).symm
  rw [← heq]
  exact h _ y hy (by omega)

/-- **The slots in their order**, if the last round is complete. -/
theorem Holds.map_range (h : Holds n slot xs) (hle : n ≤ xs.length) (hdvd : n ∣ xs.length) :
    (List.range n).map slot = recent n xs := by
  refine List.ext_getElem? fun i => ?_
  rw [recent, List.getElem?_drop, List.getElem?_map]
  by_cases hi : i < n
  · rw [List.getElem?_range hi, Option.map_some]
    have hlt : xs.length - n + i < xs.length := by omega
    have hmod : (xs.length - n + i) % n = i := by
      rw [← Nat.mod_eq_of_lt hi, Nat.add_mod, Nat.mod_mod, ← Nat.mod_eq_sub_mod hle,
        Nat.mod_eq_zero_of_dvd hdvd, Nat.zero_add, Nat.mod_mod]
    have hheld := h _ _ (List.getElem?_eq_getElem hlt) (by omega)
    rw [hmod] at hheld
    rw [List.getElem?_eq_getElem hlt, hheld]
  · rw [List.getElem?_eq_none (by rw [List.length_range]; omega), List.getElem?_eq_none (by omega)]
    rfl

/-- They are all values, if there was room for them. -/
theorem Holds.map_range_length (h : Holds n slot xs) (hle : xs.length ≤ n) :
    (List.range xs.length).map slot = xs := by
  refine List.ext_getElem? fun i => ?_
  rw [List.getElem?_map]
  by_cases hi : i < xs.length
  · have hheld := h i _ (List.getElem?_eq_getElem hi) (by omega)
    rw [Nat.mod_eq_of_lt (by omega)] at hheld
    rw [List.getElem?_range hi, List.getElem?_eq_getElem hi, Option.map_some, hheld]
  · rw [List.getElem?_eq_none (by rw [List.length_range]; omega), List.getElem?_eq_none (by omega)]
    rfl

/-- The first slot holds the first value of the last round that was begun. -/
theorem Holds.first (h : Holds n slot xs) (hn : 0 < n) (hxs : xs ≠ []) :
    xs[n * ((xs.length - 1) / n)]? = some (slot 0) := by
  have hlen := List.length_pos_iff.mpr hxs
  have hround := Nat.div_add_mod (xs.length - 1) n
  have hrest := Nat.mod_lt (xs.length - 1) hn
  have hlt : n * ((xs.length - 1) / n) < xs.length := by omega
  have hheld := h _ _ (List.getElem?_eq_getElem hlt) (by omega)
  rw [Nat.mul_mod_right] at hheld
  rw [List.getElem?_eq_getElem hlt, hheld]

end Ring
