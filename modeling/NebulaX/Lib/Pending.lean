import Mathlib.Data.List.Nodup
import Mathlib.Logic.Function.Basic

/-!
# Updates on their way

A replica of a keyed store gets its updates one at a time, and late. What it will say under a key
once they have all arrived is a fold of the updates with that key over what it says now: `settle`.
An invariant of such a replica is best stated about the settled entries. It does not change when an
update is delivered, and it makes no difference in which order the updates arrive if they commute.

## Main results

* `settle_deliver` — delivering an update changes no settled entry
* `settle_swap` — updates that commute may arrive in any order
* `settle_of_mem` — where every key has one update, that one is made
-/

namespace Pending

variable {κ σ β : Type} [DecidableEq κ]

/-- What the entry `s` under the key `k` will be once the updates have arrived. -/
def settle (act : σ → β → σ) (k : κ) : List (κ × β) → σ → σ
  | [], s => s
  | w :: ws, s => settle act k ws (if w.1 = k then act s w.2 else s)

variable {act : σ → β → σ} {k : κ} {ws vs : List (κ × β)} {s : σ}

theorem settle_append : settle act k (ws ++ vs) s = settle act k vs (settle act k ws s) := by
  induction ws generalizing s with
  | nil => rfl
  | cons w ws ih => exact ih

/-- Updates of other keys make no difference. -/
theorem settle_of_not_mem (h : k ∉ ws.map Prod.fst) : settle act k ws s = s := by
  induction ws generalizing s with
  | nil => rfl
  | cons w ws ih =>
    obtain ⟨hw, hws⟩ := List.ne_and_not_mem_of_not_mem_cons h
    rw [settle, if_neg (Ne.symm hw)]
    exact ih hws

theorem settle_cons_of_ne {w : κ × β} (h : w.1 ≠ k) :
    settle act k (w :: ws) s = settle act k ws s := by
  rw [settle, if_neg h]

/-- **Where every key has one update**, that one is made. -/
theorem settle_of_mem {q : β} (hnd : (ws.map Prod.fst).Nodup) (h : (k, q) ∈ ws) :
    settle act k ws s = act s q := by
  induction ws generalizing s with
  | nil => exact absurd h List.not_mem_nil
  | cons w ws ih =>
    obtain ⟨hw, hnd⟩ := List.nodup_cons.mp hnd
    rcases List.mem_cons.mp h with rfl | h
    · rw [settle, if_pos rfl]
      exact settle_of_not_mem hw
    · rw [settle_cons_of_ne fun he => hw (he ▸ List.mem_map_of_mem h)]
      exact ih hnd h

/-- An entry that no update changes is settled. -/
theorem settle_of_fixed (h : ∀ q, act s q = s) : settle act k ws s = s := by
  induction ws with
  | nil => rfl
  | cons w ws ih =>
    rw [settle, h, ite_self]
    exact ih

/-- **Delivering an update** changes no settled entry. -/
theorem settle_deliver (f : κ → σ) (w : κ × β) :
    settle act k ws (Function.update f w.1 (act (f w.1) w.2) k) =
      settle act k (w :: ws) (f k) := by
  rw [settle]
  by_cases hw : w.1 = k
  · subst hw
    rw [Function.update_self, if_pos rfl]
  · rw [Function.update_of_ne (Ne.symm hw), if_neg hw]

section Commute

variable (hcomm : ∀ s p q, act (act s p) q = act (act s q) p)

include hcomm

theorem settle_act (q : β) : settle act k ws (act s q) = act (settle act k ws s) q := by
  induction ws generalizing s with
  | nil => rfl
  | cons w ws ih =>
    rw [settle, settle]
    by_cases hw : w.1 = k
    · rw [if_pos hw, if_pos hw, hcomm, ih]
    · rw [if_neg hw, if_neg hw, ih]

/-- **Updates that commute** may arrive in any order. -/
theorem settle_swap : settle act k vs (settle act k ws s) =
    settle act k ws (settle act k vs s) := by
  induction ws generalizing s with
  | nil => rfl
  | cons w ws ih =>
    rw [settle, settle, ih]
    by_cases hw : w.1 = k
    · rw [if_pos hw, if_pos hw, settle_act hcomm]
    · rw [if_neg hw, if_neg hw]

end Commute

end Pending
