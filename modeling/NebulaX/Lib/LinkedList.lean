import Mathlib.Logic.Function.Basic
import Mathlib.Data.List.Nodup
import Mathlib.Data.List.Perm.Subperm

/-!
# Linked lists threaded through an array

Containers that keep their nodes in one array and link them by index: a free list, a hash
chain, a doubly linked queue. Nothing here knows what a node is. A singly linked list is a
function `nxt : ℕ → ℕ`, a doubly linked one a pair `prv nxt : ℕ → ℕ`, and a *segment* says which
indices are visited between two of them.

`Seg nxt h ids t` starts at index `h`, visits `ids` in order and then stands at `t`. `DSeg` also
follows the back links: `p` is what the first node points back to, `l` the last node visited.
Both are recursive on `ids`, so that a list is taken apart and put together by the two append
lemmas, and both depend on the links of the visited nodes only (`Seg.congr`, `DSeg.congr`). An
update of one link is then a statement about `Function.update` and one node.

## Main results

* `Seg.walk_eq` — following the links with enough fuel returns the nodes of the segment
* `DSeg.pushBack`, `DSeg.unlink` — the two updates of a doubly linked queue
-/

namespace LinkedList

variable {nxt nxt' prv prv' : ℕ → ℕ}

/-! ### Singly linked segments -/

/-- From index `h` the links visit `ids` in order and then stand at `t`. -/
def Seg (nxt : ℕ → ℕ) : ℕ → List ℕ → ℕ → Prop
  | h, [], t => h = t
  | h, x :: xs, t => h = x ∧ Seg nxt (nxt x) xs t

@[simp] theorem seg_nil {h t : ℕ} : Seg nxt h [] t ↔ h = t := Iff.rfl

@[simp] theorem seg_cons {h x t : ℕ} {xs : List ℕ} :
    Seg nxt h (x :: xs) t ↔ h = x ∧ Seg nxt (nxt x) xs t := Iff.rfl

/-- A segment depends on the links of its own nodes only. -/
theorem Seg.congr {h t : ℕ} {ids : List ℕ} (hs : Seg nxt h ids t)
    (heq : ∀ i ∈ ids, nxt' i = nxt i) : Seg nxt' h ids t := by
  induction ids generalizing h with
  | nil => exact hs
  | cons x xs ih =>
    refine ⟨hs.1, ?_⟩
    rw [heq x (by simp)]
    exact ih hs.2 fun i hi => heq i (List.mem_cons_of_mem _ hi)

theorem Seg.update_of_not_mem {h t i v : ℕ} {ids : List ℕ} (hs : Seg nxt h ids t)
    (hi : i ∉ ids) : Seg (Function.update nxt i v) h ids t :=
  hs.congr fun _ hj => Function.update_of_ne (ne_of_mem_of_not_mem hj hi) _ _

theorem seg_append {h t : ℕ} {xs ys : List ℕ} :
    Seg nxt h (xs ++ ys) t ↔ ∃ m, Seg nxt h xs m ∧ Seg nxt m ys t := by
  induction xs generalizing h with
  | nil => simp
  | cons x xs ih => simp [ih, and_assoc]

/-- Follow the links from `h` until `stop`, at most `fuel` nodes. -/
def walk (nxt : ℕ → ℕ) (stop : ℕ) : ℕ → ℕ → List ℕ
  | 0, _ => []
  | fuel + 1, h => if h = stop then [] else h :: walk nxt stop fuel (nxt h)

/-- **A walk returns its segment**, given fuel for every node. -/
theorem Seg.walk_eq {stop h fuel : ℕ} {ids : List ℕ} (hs : Seg nxt h ids stop)
    (hstop : stop ∉ ids) (hfuel : ids.length ≤ fuel) : walk nxt stop fuel h = ids := by
  induction ids generalizing h fuel with
  | nil =>
    cases fuel with
    | zero => rfl
    | succ fuel => simp [walk, seg_nil.mp hs]
  | cons x xs ih =>
    obtain ⟨rfl, hs⟩ := hs
    cases fuel with
    | zero => simp at hfuel
    | succ fuel =>
      have hne : h ≠ stop := fun e => hstop (e ▸ List.mem_cons_self)
      rw [walk, if_neg hne, ih hs (fun hm => hstop (List.mem_cons_of_mem _ hm))
        (by simpa using hfuel)]

/-- An array in which every node links to the next visits all its nodes in order. -/
theorem seg_range {n nil : ℕ} (hn : 0 < n) :
    Seg (fun i => if i + 1 < n then i + 1 else nil) 0 (List.range n) nil := by
  have key : ∀ m k, m + k = n → 0 < m →
      Seg (fun i => if i + 1 < n then i + 1 else nil) k (List.range' k m) nil := by
    intro m
    induction m with
    | zero => intro k _ h; exact absurd h (Nat.lt_irrefl 0)
    | succ m ih =>
      intro k hk _
      refine ⟨rfl, ?_⟩
      rcases Nat.eq_zero_or_pos m with rfl | hm
      · exact if_neg (by omega)
      · have hnext : (if k + 1 < n then k + 1 else nil) = k + 1 := if_pos (by omega)
        show Seg _ (if k + 1 < n then k + 1 else nil) _ _
        rw [hnext]
        exact ih (k + 1) (by omega) hm
  rw [List.range_eq_range']
  exact key n 0 rfl hn

/-- Distinct indices below `n` are at most `n` many; the fuel a walk through an array of `n`
nodes needs. -/
theorem length_le_of_nodup {n : ℕ} {ids : List ℕ} (hnd : ids.Nodup) (hlt : ∀ i ∈ ids, i < n) :
    ids.length ≤ n := by
  simpa using (hnd.subperm fun i hi => List.mem_range.mpr (hlt i hi)).length_le

/-- What is left around a node is in the list, and is not the node. -/
theorem mem_around {n i : ℕ} {as bs : List ℕ} (hnd : (as ++ n :: bs).Nodup) (hi : i ∈ as ++ bs) :
    i ∈ as ++ n :: bs ∧ i ≠ n := by
  obtain ⟨-, hndB, hdisj⟩ := List.nodup_append'.mp hnd
  rcases List.mem_append.mp hi with hi | hi
  · exact ⟨List.mem_append_left _ hi, fun e => hdisj hi (e ▸ List.mem_cons_self)⟩
  · exact ⟨List.mem_append_right _ (List.mem_cons_of_mem n hi),
      fun e => (List.nodup_cons.mp hndB).1 (e ▸ hi)⟩

/-! ### Doubly linked segments -/

/-- From index `h`, whose back link is `p`, the links visit `ids` in order and then stand at
`t`, having left from `l`; every node points back to the one before it. -/
def DSeg (prv nxt : ℕ → ℕ) : ℕ → ℕ → List ℕ → ℕ → ℕ → Prop
  | h, p, [], t, l => h = t ∧ p = l
  | h, p, x :: xs, t, l => h = x ∧ prv x = p ∧ DSeg prv nxt (nxt x) x xs t l

@[simp] theorem dseg_nil {h p t l : ℕ} : DSeg prv nxt h p [] t l ↔ h = t ∧ p = l := Iff.rfl

@[simp] theorem dseg_cons {h p x t l : ℕ} {xs : List ℕ} :
    DSeg prv nxt h p (x :: xs) t l ↔ h = x ∧ prv x = p ∧ DSeg prv nxt (nxt x) x xs t l := Iff.rfl

/-- Forgetting the back links. -/
theorem DSeg.toSeg {h p t l : ℕ} {ids : List ℕ} (hs : DSeg prv nxt h p ids t l) :
    Seg nxt h ids t := by
  induction ids generalizing h p with
  | nil => exact hs.1
  | cons x xs ih => exact ⟨hs.1, ih hs.2.2⟩

theorem DSeg.congr {h p t l : ℕ} {ids : List ℕ} (hs : DSeg prv nxt h p ids t l)
    (hp : ∀ i ∈ ids, prv' i = prv i) (hn : ∀ i ∈ ids, nxt' i = nxt i) :
    DSeg prv' nxt' h p ids t l := by
  induction ids generalizing h p with
  | nil => exact hs
  | cons x xs ih =>
    obtain ⟨hx, hpx, hs⟩ := hs
    refine ⟨hx, (hp x List.mem_cons_self).trans hpx, ?_⟩
    rw [hn x List.mem_cons_self]
    exact ih hs (fun i hi => hp i (List.mem_cons_of_mem _ hi))
      fun i hi => hn i (List.mem_cons_of_mem _ hi)

theorem dseg_append {h p t l : ℕ} {xs ys : List ℕ} :
    DSeg prv nxt h p (xs ++ ys) t l ↔
      ∃ m q, DSeg prv nxt h p xs m q ∧ DSeg prv nxt m q ys t l := by
  induction xs generalizing h p with
  | nil => simp
  | cons x xs ih => simp [ih, and_assoc]

/-- The node a segment leaves from is the one before it, or one of its own. -/
theorem DSeg.last_mem {h p t l : ℕ} {ids : List ℕ} (hs : DSeg prv nxt h p ids t l) :
    (ids = [] ∧ l = p) ∨ l ∈ ids := by
  induction ids generalizing h p with
  | nil => exact Or.inl ⟨rfl, hs.2.symm⟩
  | cons x xs ih =>
    rcases ih hs.2.2 with ⟨rfl, rfl⟩ | hl
    · exact Or.inr List.mem_cons_self
    · exact Or.inr (List.mem_cons_of_mem _ hl)

/-- The index a segment starts at is where it stops, or one of its own nodes. -/
theorem DSeg.head_mem {h p t l : ℕ} {ids : List ℕ} (hs : DSeg prv nxt h p ids t l) :
    (ids = [] ∧ h = t) ∨ h ∈ ids := by
  cases ids with
  | nil => exact Or.inl ⟨rfl, hs.1⟩
  | cons x xs => exact Or.inr (hs.1 ▸ List.mem_cons_self)

/-- **Redirect the end.** Writing the forward link of the last node lets the segment stop
elsewhere; an empty segment starts where it stops. -/
theorem DSeg.redirect {h p t t' l : ℕ} {ids : List ℕ} (hs : DSeg prv nxt h p ids t l)
    (hnd : ids.Nodup) (hp : ∀ i ∈ ids, prv' i = prv i)
    (hn : ∀ i ∈ ids, nxt' i = if i = l then t' else nxt i) :
    DSeg prv' nxt' (if ids = [] then t' else h) p ids t' l := by
  induction ids generalizing h p with
  | nil => exact ⟨if_pos rfl, hs.2⟩
  | cons x xs ih =>
    obtain ⟨rfl, hpx, hs⟩ := hs
    have hrec := ih hs (List.nodup_cons.mp hnd).2
      (fun i hi => hp i (List.mem_cons_of_mem _ hi)) fun i hi => hn i (List.mem_cons_of_mem _ hi)
    refine ⟨if_neg (by simp), (hp h List.mem_cons_self).trans hpx, ?_⟩
    rw [hn h List.mem_cons_self]
    rcases hs.last_mem with ⟨rfl, rfl⟩ | hl
    · simp
    · rw [if_neg (ne_of_mem_of_not_mem hl (List.nodup_cons.mp hnd).1).symm]
      rwa [if_neg (List.ne_nil_of_mem hl)] at hrec

/-- **Rebase the start.** Writing the back link of the first node puts the segment after another
node; an empty segment leaves from the node it comes after. -/
theorem DSeg.rebase {h p p' t l : ℕ} {ids : List ℕ} (hs : DSeg prv nxt h p ids t l)
    (hnd : ids.Nodup) (hp : ∀ i ∈ ids, prv' i = if i = h then p' else prv i)
    (hn : ∀ i ∈ ids, nxt' i = nxt i) :
    DSeg prv' nxt' h p' ids t (if ids = [] then p' else l) := by
  cases ids with
  | nil => exact ⟨hs.1, (if_pos rfl).symm⟩
  | cons x xs =>
    obtain ⟨rfl, -, hs⟩ := hs
    refine ⟨rfl, by rw [hp h List.mem_cons_self, if_pos rfl], ?_⟩
    rw [hn h List.mem_cons_self, if_neg (by simp)]
    refine hs.congr (fun i hi => ?_) fun i hi => hn i (List.mem_cons_of_mem _ hi)
    rw [hp i (List.mem_cons_of_mem _ hi),
      if_neg (ne_of_mem_of_not_mem hi (List.nodup_cons.mp hnd).1)]

/-- **Push at the back.** The old last node now points to `x`, and `x` points back to it. -/
theorem DSeg.pushBack {h p l x nil : ℕ} {ids : List ℕ} (hs : DSeg prv nxt h p ids nil l)
    (hne : ids ≠ []) (hnd : ids.Nodup) (hprv : ∀ i ∈ ids, prv' i = prv i) (hpx : prv' x = l)
    (hnxt : ∀ i ∈ ids, nxt' i = if i = l then x else nxt i) (hnx : nxt' x = nil) :
    DSeg prv' nxt' h p (ids ++ [x]) nil x := by
  have hids := hs.redirect hnd hprv hnxt
  rw [if_neg hne] at hids
  exact dseg_append.mpr ⟨x, l, hids, rfl, hpx, hnx, rfl⟩

/-- **Unlink a node.** Its neighbours, where it has any, are linked to each other; `nil` marks
the missing ones. The head moves on if `x` was first, the last node moves back if `x` was last. -/
theorem DSeg.unlink {h l x nil : ℕ} {as bs : List ℕ}
    (hs : DSeg prv nxt h nil (as ++ x :: bs) nil l) (hnd : (as ++ x :: bs).Nodup)
    (hnil : nil ∉ as ++ x :: bs)
    (hprv : ∀ i ∈ as ++ bs, prv' i = if i = nxt x then prv x else prv i)
    (hnxt : ∀ i ∈ as ++ bs, nxt' i = if i = prv x then nxt x else nxt i) :
    DSeg prv' nxt' (if h = x then nxt x else h) nil (as ++ bs) nil
      (if l = x then prv x else l) := by
  obtain ⟨_, q, has, rfl, rfl, hbs⟩ := dseg_append.mp hs
  rename_i m
  obtain ⟨hndA, hndB, hdisj⟩ := List.nodup_append'.mp hnd
  obtain ⟨hmB, hndB⟩ := List.nodup_cons.mp hndB
  have hmA : m ∉ as := fun hm => hdisj hm List.mem_cons_self
  -- what follows `m` is not in `as`, and what precedes it is not in `bs`
  have hnextA : nxt m ∉ as := by
    intro hm
    rcases hbs.head_mem with ⟨-, he⟩ | he
    · exact hnil (List.mem_append_left _ (he ▸ hm))
    · exact hdisj hm (List.mem_cons_of_mem _ he)
  have hprevB : prv m ∉ bs := by
    intro hm
    rcases has.last_mem with ⟨-, he⟩ | he
    · exact hnil (List.mem_append_right _ (List.mem_cons_of_mem _ (he ▸ hm)))
    · exact hdisj he (List.mem_cons_of_mem _ hm)
  have hA : DSeg prv' nxt' (if as = [] then nxt m else h) nil as (nxt m) (prv m) :=
    has.redirect hndA
    (fun i hi => by
      rw [hprv i (List.mem_append_left _ hi), if_neg (ne_of_mem_of_not_mem hi hnextA)])
    fun i hi => hnxt i (List.mem_append_left _ hi)
  have hB : DSeg prv' nxt' (nxt m) (prv m) bs nil (if bs = [] then prv m else l) :=
    hbs.rebase hndB
    (fun i hi => hprv i (List.mem_append_right _ hi))
    fun i hi => by
      rw [hnxt i (List.mem_append_right _ hi), if_neg (ne_of_mem_of_not_mem hi hprevB)]
  have hhead : (if as = [] then nxt m else h) = if h = m then nxt m else h := by
    rcases has.head_mem with ⟨rfl, rfl⟩ | hm
    · simp
    · rw [if_neg (List.ne_nil_of_mem hm), if_neg (ne_of_mem_of_not_mem hm hmA)]
  have hlast : (if bs = [] then prv m else l) = if l = m then prv m else l := by
    rcases hbs.last_mem with ⟨rfl, rfl⟩ | hm
    · simp
    · rw [if_neg (List.ne_nil_of_mem hm), if_neg (ne_of_mem_of_not_mem hm hmB)]
  rw [← hhead, ← hlast]
  exact dseg_append.mpr ⟨_, _, hA, hB⟩

end LinkedList
