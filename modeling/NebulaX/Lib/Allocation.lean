import Mathlib.Data.List.Nodup
import Mathlib.Algebra.BigOperators.Group.List.Basic
import Mathlib.Algebra.Order.Ring.Int

/-!
# Greedy allocation from a queue

A demand is served from a queue of offers in order, each giving what it has until the demand is
met. `allocate` says who gives how much. `sweep` says what the queue looks like afterwards when
only some of the offers take part: those that gave all they had leave it, the last one may be cut
down, the others keep their places.

A loop that looks for the first offer taking part, trades with it and starts over performs one
`allocate` step and one `sweep` step at a time: `allocate_of_first` and `sweep_of_first_*` are
those steps, for an offer behind any number of offers that do not take part.

## Main results

* `allocate_sum` — what is given adds up to the demand or to the whole offer
* `length_allocate_eq_iff` — when further offers make a difference
* `allocate_partial` — at most one offer gives less than it has
* `mem_sweep`, `sweep_of_sum_lt` — who is left in the queue, and how
-/

namespace Allocation

variable {α : Type}

/-- Serve a demand from a queue: who gives, and how much. -/
def allocate (w : α → ℕ) : ℕ → List α → List (α × ℕ)
  | _, [] => []
  | q, x :: xs => if q = 0 then [] else (x, min q (w x)) :: allocate w (q - w x) xs

/-- The queue after a demand was served from the offers that satisfy `ok`. -/
def sweep (ok : α → Bool) (w : α → ℕ) (cut : α → ℕ → α) : ℕ → List α → List α
  | _, [] => []
  | q, x :: xs =>
    if q = 0 then x :: xs
    else if ok x then (if w x ≤ q then sweep ok w cut (q - w x) xs else cut x q :: xs)
    else x :: sweep ok w cut q xs

variable {ok : α → Bool} {w : α → ℕ} {cut : α → ℕ → α}

@[simp] theorem allocate_zero (xs : List α) : allocate w 0 xs = [] := by
  cases xs <;> rfl

@[simp] theorem allocate_nil (q : ℕ) : allocate w q [] = [] := rfl

theorem allocate_cons {q : ℕ} (hq : q ≠ 0) (x : α) (xs : List α) :
    allocate w q (x :: xs) = (x, min q (w x)) :: allocate w (q - w x) xs := by
  rw [allocate, if_neg hq]

@[simp] theorem sweep_zero (xs : List α) : sweep ok w cut 0 xs = xs := by
  cases xs <;> rfl

/-! ### One step -/

/-- Offers that do not take part keep their places in front. -/
theorem sweep_append {q : ℕ} {xs ys : List α} (hxs : ∀ x ∈ xs, ok x = false) :
    sweep ok w cut q (xs ++ ys) = xs ++ sweep ok w cut q ys := by
  by_cases hq : q = 0
  · subst hq
    simp
  · induction xs with
    | nil => rfl
    | cons x xs ih =>
      rw [List.cons_append, sweep, if_neg hq, if_neg (by simp [hxs x List.mem_cons_self]),
        ih fun y hy => hxs y (List.mem_cons_of_mem _ hy)]
      rfl

/-- Nobody takes part, nothing happens. -/
theorem sweep_of_forall_not {q : ℕ} {xs : List α} (hxs : ∀ x ∈ xs, ok x = false) :
    sweep ok w cut q xs = xs := by
  have happend : sweep ok w cut q (xs ++ []) = xs ++ sweep ok w cut q [] := sweep_append hxs
  simpa [sweep] using happend

theorem filter_of_first {x : α} {xs ys : List α} (hxs : ∀ y ∈ xs, ok y = false)
    (hx : ok x = true) : (xs ++ x :: ys).filter ok = x :: (xs ++ ys).filter ok := by
  have hnil : xs.filter ok = [] := List.filter_eq_nil_iff.mpr fun y hy => by simp [hxs y hy]
  rw [List.filter_append, List.filter_append, hnil, List.filter_cons_of_pos hx]
  rfl

/-- The first offer that takes part gives first. -/
theorem allocate_of_first {q : ℕ} {x : α} {xs ys : List α} (hq : q ≠ 0)
    (hxs : ∀ y ∈ xs, ok y = false) (hx : ok x = true) :
    allocate w q ((xs ++ x :: ys).filter ok) =
      (x, min q (w x)) :: allocate w (q - w x) ((xs ++ ys).filter ok) := by
  rw [filter_of_first hxs hx, allocate_cons hq]

/-- If it gives all it has, it leaves the queue. -/
theorem sweep_of_first_le {q : ℕ} {x : α} {xs ys : List α} (hq : q ≠ 0)
    (hxs : ∀ y ∈ xs, ok y = false) (hx : ok x = true) (hle : w x ≤ q) :
    sweep ok w cut q (xs ++ x :: ys) = sweep ok w cut (q - w x) (xs ++ ys) := by
  rw [sweep_append hxs, sweep_append hxs, sweep, if_neg hq, if_pos hx, if_pos hle]

/-- If it has more than is wanted, it is cut down and the demand is met. -/
theorem sweep_of_first_lt {q : ℕ} {x : α} {xs ys : List α} (hq : q ≠ 0)
    (hxs : ∀ y ∈ xs, ok y = false) (hx : ok x = true) (hlt : q < w x) :
    sweep ok w cut q (xs ++ x :: ys) = xs ++ cut x q :: ys := by
  rw [sweep_append hxs, sweep, if_neg hq, if_pos hx, if_neg (Nat.not_le.mpr hlt)]

/-! ### Whole runs -/

/-- **What is given** adds up to the demand, or to everything on offer if that is less. -/
theorem allocate_sum (q : ℕ) (xs : List α) :
    ((allocate w q xs).map Prod.snd).sum = min q (xs.map w).sum := by
  induction xs generalizing q with
  | nil => simp
  | cons x xs ih =>
    by_cases hq : q = 0
    · subst hq
      simp
    · rw [allocate_cons hq, List.map_cons, List.sum_cons, ih, List.map_cons, List.sum_cons]
      omega

/-- A queue of two parts: the second gives what is still wanted after all that the first has. -/
theorem allocate_append (q : ℕ) (xs ys : List α) :
    allocate w q (xs ++ ys) = allocate w q xs ++ allocate w (q - (xs.map w).sum) ys := by
  induction xs generalizing q with
  | nil => simp
  | cons x xs ih =>
    by_cases hq : q = 0
    · subst hq
      simp
    · rw [List.cons_append, allocate_cons hq, allocate_cons hq, ih, List.map_cons, List.sum_cons,
        Nat.sub_sub]
      rfl

theorem allocate_eq_nil_iff {q : ℕ} {xs : List α} : allocate w q xs = [] ↔ q = 0 ∨ xs = [] := by
  cases xs with
  | nil => simp
  | cons x xs =>
    by_cases hq : q = 0
    · simp [hq]
    · simp [allocate_cons hq, hq]

/-- **A longer queue** makes a difference to the number of givers exactly when the shorter one does
not meet the demand. -/
theorem length_allocate_eq_iff {q : ℕ} {xs ys : List α} (h : xs <+: ys) :
    (allocate w q xs).length = (allocate w q ys).length ↔ q ≤ (xs.map w).sum ∨ xs = ys := by
  obtain ⟨zs, rfl⟩ := h
  rw [allocate_append, List.length_append, List.self_eq_append_right, ← Nat.sub_eq_zero_iff_le,
    ← allocate_eq_nil_iff (w := w), ← List.length_eq_zero_iff]
  omega

/-- And then none at all. -/
theorem allocate_congr_of_prefix {q : ℕ} {xs ys : List α} (h : xs <+: ys)
    (hq : q ≤ (xs.map w).sum ∨ xs = ys) : allocate w q xs = allocate w q ys := by
  obtain ⟨zs, rfl⟩ := h
  rw [List.self_eq_append_right, ← Nat.sub_eq_zero_iff_le] at hq
  rw [allocate_append, allocate_eq_nil_iff.mpr hq, List.append_nil]

/-- **In a ranked queue** a stricter test that refuses everything behind an offer it refuses
chooses the front of what a weaker one chooses. -/
theorem filter_prefix_filter {r : α → α → Prop} {p p' : α → Bool} {xs : List α}
    (hranked : xs.Pairwise r) (hweaker : ∀ x, p x = true → p' x = true)
    (hfront : ∀ x y, r x y → p' x = true → p y = true → p x = true) :
    xs.filter p <+: xs.filter p' := by
  induction xs with
  | nil => exact List.prefix_rfl
  | cons x xs ih =>
    obtain ⟨hx, hranked⟩ := List.pairwise_cons.mp hranked
    by_cases hp : p x = true
    · rw [List.filter_cons_of_pos hp, List.filter_cons_of_pos (hweaker x hp)]
      exact (List.prefix_cons_inj x).mpr (ih hranked)
    · rw [List.filter_cons_of_neg hp]
      by_cases hp' : p' x = true
      · -- the stricter test refuses the rest as well
        have hnil : xs.filter p = [] :=
          List.filter_eq_nil_iff.mpr fun y hy hpy => hp (hfront x y (hx y hy) hp' hpy)
        rw [hnil]
        exact List.nil_prefix
      · rw [List.filter_cons_of_neg hp']
        exact ih hranked

/-- The givers are the front of the queue. -/
theorem allocate_givers (q : ℕ) (xs : List α) : (allocate w q xs).map Prod.fst <+: xs := by
  induction xs generalizing q with
  | nil => simp
  | cons x xs ih =>
    by_cases hq : q = 0
    · subst hq
      simp
    · rw [allocate_cons hq, List.map_cons]
      exact List.prefix_cons_inj x |>.mpr (ih _)

theorem mem_of_mem_allocate {q : ℕ} {xs : List α} {p : α × ℕ} (hp : p ∈ allocate w q xs) :
    p.1 ∈ xs :=
  (allocate_givers q xs).subset (List.mem_map_of_mem hp)

theorem allocate_le {q : ℕ} {xs : List α} {p : α × ℕ} (hp : p ∈ allocate w q xs) :
    p.2 ≤ w p.1 := by
  induction xs generalizing q with
  | nil => simp at hp
  | cons x xs ih =>
    by_cases hq : q = 0
    · subst hq
      simp at hp
    · rw [allocate_cons hq] at hp
      rcases List.mem_cons.mp hp with rfl | hp
      · exact Nat.min_le_right _ _
      · exact ih hp

/-- Who has something gives something. -/
theorem allocate_pos {q : ℕ} {xs : List α} (hw : ∀ x ∈ xs, 0 < w x) {p : α × ℕ}
    (hp : p ∈ allocate w q xs) : 0 < p.2 := by
  induction xs generalizing q with
  | nil => simp at hp
  | cons x xs ih =>
    by_cases hq : q = 0
    · subst hq
      simp at hp
    · rw [allocate_cons hq] at hp
      rcases List.mem_cons.mp hp with rfl | hp
      · have hx := hw x List.mem_cons_self
        show 0 < min q (w x)
        omega
      · exact ih (fun y hy => hw y (List.mem_cons_of_mem _ hy)) hp

/-- A demand that is not met takes all that each giver has. -/
theorem allocate_full {q : ℕ} {xs : List α} (hsum : ((allocate w q xs).map Prod.snd).sum < q)
    {p : α × ℕ} (hp : p ∈ allocate w q xs) : p.2 = w p.1 := by
  induction xs generalizing q with
  | nil => simp at hp
  | cons x xs ih =>
    by_cases hq : q = 0
    · subst hq
      simp at hp
    · rw [allocate_cons hq] at hp hsum
      rw [List.map_cons, List.sum_cons] at hsum
      have hle : w x ≤ q := by omega
      rcases List.mem_cons.mp hp with rfl | hp
      · exact Nat.min_eq_right hle
      · refine ih ?_ hp
        rw [Nat.min_eq_right hle] at hsum
        omega

/-- **At most one** offer gives less than it has: the one that meets the demand. -/
theorem allocate_partial (q : ℕ) (xs : List α) :
    ((allocate w q xs).filter fun p => p.2 ≠ w p.1).length ≤ 1 := by
  induction xs generalizing q with
  | nil => simp
  | cons x xs ih =>
    by_cases hq : q = 0
    · subst hq
      simp
    · rw [allocate_cons hq]
      by_cases hle : w x ≤ q
      · rw [List.filter_cons_of_neg (by simp [Nat.min_eq_right hle])]
        exact ih _
      · have hzero : q - w x = 0 := by omega
        rw [hzero, allocate_zero]
        exact List.length_filter_le _ _

/-- **Who is left**: an offer as it was, or one that was cut down by less than it had. -/
theorem mem_sweep {q : ℕ} {xs : List α} {x : α} (hx : x ∈ sweep ok w cut q xs) :
    x ∈ xs ∨ ∃ y ∈ xs, ok y = true ∧ ∃ t, 0 < t ∧ t < w y ∧ x = cut y t := by
  induction xs generalizing q with
  | nil => exact absurd hx List.not_mem_nil
  | cons y ys ih =>
    have hlift : (x ∈ ys ∨ ∃ z ∈ ys, ok z = true ∧ ∃ t, 0 < t ∧ t < w z ∧ x = cut z t) →
        x ∈ y :: ys ∨ ∃ z ∈ y :: ys, ok z = true ∧ ∃ t, 0 < t ∧ t < w z ∧ x = cut z t := fun h =>
      h.imp (List.mem_cons_of_mem _) fun ⟨z, hz, h⟩ => ⟨z, List.mem_cons_of_mem _ hz, h⟩
    by_cases hq : q = 0
    · subst hq
      rw [sweep_zero] at hx
      exact Or.inl hx
    rw [sweep, if_neg hq] at hx
    by_cases hok : ok y = true
    · rw [if_pos hok] at hx
      by_cases hle : w y ≤ q
      · rw [if_pos hle] at hx
        exact hlift (ih hx)
      · rw [if_neg hle] at hx
        rcases List.mem_cons.mp hx with rfl | hx
        · exact Or.inr ⟨y, List.mem_cons_self, hok, q, Nat.pos_of_ne_zero hq, Nat.not_le.mp hle,
            rfl⟩
        · exact Or.inl (List.mem_cons_of_mem _ hx)
    · rw [if_neg hok] at hx
      rcases List.mem_cons.mp hx with rfl | hx
      · exact Or.inl List.mem_cons_self
      · exact hlift (ih hx)

/-- **A demand that is not met** leaves no offer that takes part. -/
theorem sweep_of_sum_lt {q : ℕ} {xs : List α} (h : ((xs.filter ok).map w).sum < q) :
    sweep ok w cut q xs = xs.filter fun x => !ok x := by
  induction xs generalizing q with
  | nil => rfl
  | cons x xs ih =>
    have hq : q ≠ 0 := by omega
    rw [sweep, if_neg hq]
    by_cases hok : ok x = true
    · rw [List.filter_cons_of_pos hok, List.map_cons, List.sum_cons] at h
      rw [if_pos hok, if_pos (by omega), ih (by omega), List.filter_cons_of_neg (by simp [hok])]
    · rw [List.filter_cons_of_neg hok] at h
      rw [if_neg hok, ih h, List.filter_cons_of_pos (by simp [hok])]

/-- What an offer looks like once it gave `t`: gone if that was all. -/
def remains (w : α → ℕ) (cut : α → ℕ → α) (x : α) (t : ℕ) : Option α :=
  if t = w x then none else some (cut x t)

/-- What the queue entry `x` becomes, given who gave how much. -/
def after {κ : Type} [DecidableEq κ] (key : α → κ) (w : α → ℕ) (cut : α → ℕ → α)
    (fills : List (α × ℕ)) (x : α) : Option α :=
  match fills.find? fun p => key p.1 = key x with
  | none => some x
  | some p => remains w cut x p.2

section Keys

variable {κ : Type} [DecidableEq κ] {key : α → κ}

/-- An offer that did not give stays as it is. -/
theorem after_of_not_mem {fills : List (α × ℕ)} {x : α} (hx : ∀ p ∈ fills, key p.1 ≠ key x) :
    after key w cut fills x = some x := by
  have hnone : (fills.find? fun p => key p.1 = key x) = none :=
    List.find?_eq_none.mpr fun p hp => by simpa using hx p hp
  rw [after, hnone]

/-- What the offers with a key gave. -/
def given (key : α → κ) (fills : List (α × ℕ)) (k : κ) : ℕ :=
  ((fills.filter fun p => key p.1 = k).map Prod.snd).sum

/-- When nobody gives twice, an offer either gave nothing, or gave what its one entry says. -/
theorem after_cases {fills : List (α × ℕ)} (hnd : (fills.map fun p => key p.1).Nodup) (x : α) :
    (after key w cut fills x = some x ∧ given key fills (key x) = 0 ∧
        ∀ p ∈ fills, key p.1 ≠ key x) ∨
      ∃ p ∈ fills, key p.1 = key x ∧ after key w cut fills x = remains w cut x p.2 ∧
        given key fills (key x) = p.2 := by
  by_cases hx : ∀ p ∈ fills, key p.1 ≠ key x
  · refine Or.inl ⟨after_of_not_mem hx, ?_, hx⟩
    rw [given, List.filter_eq_nil_iff.mpr fun p hp => by simpa using hx p hp]
    rfl
  · push Not at hx
    obtain ⟨p, hp, hpx⟩ := hx
    obtain ⟨as, bs, rfl⟩ := List.append_of_mem hp
    rw [List.map_append, List.map_cons, List.nodup_append'] at hnd
    obtain ⟨-, hbs, has⟩ := hnd
    have hfront : ∀ q ∈ as, ¬ decide (key q.1 = key x) = true := fun q hq => by
      intro he
      have hqp : key q.1 = key p.1 := (of_decide_eq_true he).trans hpx.symm
      exact has (hqp ▸ List.mem_map_of_mem hq) List.mem_cons_self
    have hback : ∀ q ∈ bs, ¬ decide (key q.1 = key x) = true := fun q hq => by
      intro he
      have hqp : key q.1 = key p.1 := (of_decide_eq_true he).trans hpx.symm
      exact (List.nodup_cons.mp hbs).1 (hqp ▸ List.mem_map_of_mem hq)
    refine Or.inr ⟨p, hp, hpx, ?_, ?_⟩
    · rw [after, List.find?_append, List.find?_eq_none.mpr hfront, Option.none_or,
        List.find?_cons_of_pos (by simpa using hpx)]
    · rw [given, List.filter_append, List.filter_eq_nil_iff.mpr hfront, List.nil_append,
        List.filter_cons_of_pos (by simpa using hpx), List.filter_eq_nil_iff.mpr hback]
      exact Nat.add_zero _

/-- **What a sweep leaves**, entry by entry: every offer becomes what `allocate` says it gave
leaves of it. -/
theorem sweep_eq_filterMap {q : ℕ} {xs : List α} (hkey : (xs.map key).Nodup) :
    sweep ok w cut q xs =
      xs.filterMap (after key w cut (allocate w q (xs.filter ok))) := by
  have hstay : ∀ {fills : List (α × ℕ)} {zs : List α},
      (∀ x ∈ zs, ∀ p ∈ fills, key p.1 ≠ key x) →
        zs.filterMap (after key w cut fills) = zs := by
    intro fills zs h
    refine (List.filterMap_congr fun x hx => after_of_not_mem (h x hx)).trans ?_
    exact List.filterMap_some
  induction xs generalizing q with
  | nil => rfl
  | cons x xs ih =>
    obtain ⟨hx, hkey⟩ := List.nodup_cons.mp hkey
    have hne : ∀ y ∈ xs, key x ≠ key y := fun y hy e => hx (e ▸ List.mem_map_of_mem hy)
    by_cases hq : q = 0
    · subst hq
      rw [sweep_zero, allocate_zero]
      exact (hstay fun _ _ _ hp => absurd hp List.not_mem_nil).symm
    rw [sweep, if_neg hq]
    by_cases hok : ok x = true
    · rw [if_pos hok, List.filter_cons_of_pos hok, allocate_cons hq]
      have hself : after key w cut
          ((x, min q (w x)) :: allocate w (q - w x) (xs.filter ok)) x =
            remains w cut x (min q (w x)) := by
        simp [after]
      have hrest : xs.filterMap
          (after key w cut ((x, min q (w x)) :: allocate w (q - w x) (xs.filter ok))) =
            xs.filterMap (after key w cut (allocate w (q - w x) (xs.filter ok))) := by
        refine List.filterMap_congr fun y hy => ?_
        rw [after, after, List.find?_cons_of_neg (by simpa using hne y hy)]
      by_cases hle : w x ≤ q
      · rw [if_pos hle, List.filterMap_cons_none (by
          rw [hself, remains, if_pos (Nat.min_eq_right hle)]), hrest]
        exact ih hkey
      · have hlt := Nat.not_le.mp hle
        rw [if_neg hle, List.filterMap_cons_some (b := cut x q) (by
          rw [hself, Nat.min_eq_left (Nat.le_of_lt hlt), remains, if_neg (Nat.ne_of_lt hlt)]),
        hrest,
          Nat.sub_eq_zero_of_le (Nat.le_of_lt hlt), allocate_zero]
        rw [hstay fun _ _ _ hp => absurd hp List.not_mem_nil]
    · rw [if_neg hok, List.filter_cons_of_neg hok, List.filterMap_cons_some (b := x) ?_, ih hkey]
      refine after_of_not_mem fun p hp e => ?_
      have hmem := (List.mem_filter.mp (mem_of_mem_allocate hp)).1
      exact hne p.1 hmem e.symm

end Keys

end Allocation
