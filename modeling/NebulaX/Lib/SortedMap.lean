import Mathlib.Order.Defs.Unbundled
import Mathlib.Order.RelClasses
import Mathlib.Data.List.Basic

/-!
# Ordered maps

The ordered associative container of a standard library (`std::map` with a comparator), as a list
of bindings that carries its own sortedness. Iterating over the container is reading the list.

`SortedMap r V` is parameterised by the comparator `r`, so a map ordered the other way round is
the same code at the swapped relation.

The second half is about maps whose values stand for groups of things: `grouped m f` lists the
groups in key order. Binding a key, appending to the group of a key and deleting an empty group
are then statements about one flat list, where a thing enters behind everything that is not
after its key (`insertBefore`).

## Main results

* `get?_set_self`, `get?_set_of_ne`, `get?_erase_self`, `get?_erase_of_ne`, `set_eq_self` — the map
  laws
* `grouped_set` — appending to one group, present or not, is one ordered insertion
* `grouped_filter` — thinning out one group is thinning out the flat list
* `filter_grouped`, `eq_of_filter_eq` — the flat list is known by its groups
-/

variable {K V α : Type}

/-- Bindings with strictly ascending keys, for the order `r`. -/
structure SortedMap {K : Type} (r : K → K → Prop) (V : Type) where
  /-- The bindings, in key order. -/
  entries : List (K × V)
  /-- The keys ascend. -/
  sorted : (entries.map Prod.fst).Pairwise r

namespace SortedMap

variable {r : K → K → Prop}

/-- The empty map. -/
def empty : SortedMap r V := ⟨[], List.Pairwise.nil⟩

/-- The keys, in order. -/
def keys (m : SortedMap r V) : List K := m.entries.map Prod.fst

/-- The search of a binding list. -/
def find [DecidableEq K] : List (K × V) → K → Option V
  | [], _ => none
  | (k', v) :: l, k => if k' = k then some v else find l k

/-- `find(k)`. -/
def get? [DecidableEq K] (m : SortedMap r V) (k : K) : Option V := find m.entries k

/-- Enter a binding at its place, over an older one. -/
def insert (r : K → K → Prop) [DecidableEq K] [DecidableRel r] :
    List (K × V) → K → V → List (K × V)
  | [], k, v => [(k, v)]
  | (k', v') :: l, k, v =>
    if k' = k then (k, v) :: l
    else if r k k' then (k, v) :: (k', v') :: l
    else (k', v') :: insert r l k v

/-! ### Sortedness -/

section Sorted

variable [DecidableEq K] [DecidableRel r]

theorem mem_keys_insert {l : List (K × V)} {k : K} {v : V} {x : K} :
    x ∈ (insert r l k v).map Prod.fst ↔ x = k ∨ x ∈ l.map Prod.fst := by
  induction l with
  | nil => simp [insert]
  | cons kv l ih =>
    obtain ⟨k', v'⟩ := kv
    rw [insert]
    split
    · next h => subst h; simp
    · split
      · simp
      · simp only [List.map_cons, List.mem_cons, ih]
        tauto

theorem sorted_insert [IsStrictTotalOrder K r] {l : List (K × V)} (k : K) (v : V)
    (hl : (l.map Prod.fst).Pairwise r) : ((insert r l k v).map Prod.fst).Pairwise r := by
  induction l with
  | nil => simp [insert]
  | cons kv l ih =>
    obtain ⟨k', v'⟩ := kv
    obtain ⟨hk', hl⟩ := List.pairwise_cons.mp hl
    rw [insert]
    split
    · next h => subst h; exact List.pairwise_cons.mpr ⟨hk', hl⟩
    · next hne =>
      split
      · next hr =>
        refine List.pairwise_cons.mpr ⟨fun x hx => ?_, List.pairwise_cons.mpr ⟨hk', hl⟩⟩
        rcases List.mem_cons.mp hx with rfl | hx
        · exact hr
        · exact trans_of r hr (hk' x hx)
      · next hr =>
        refine List.pairwise_cons.mpr ⟨fun x hx => ?_, ih hl⟩
        rcases mem_keys_insert.mp hx with rfl | hx
        · rcases trichotomous_of r k' x with h | h | h
          · exact h
          · exact absurd h hne
          · exact absurd h hr
        · exact hk' x hx

end Sorted

/-- `m[k] = v`. -/
def set [DecidableEq K] [DecidableRel r] [IsStrictTotalOrder K r] (m : SortedMap r V) (k : K)
    (v : V) : SortedMap r V :=
  ⟨insert r m.entries k v, sorted_insert k v m.sorted⟩

/-- `erase(k)`. -/
def erase [DecidableEq K] (m : SortedMap r V) (k : K) : SortedMap r V :=
  ⟨m.entries.filter fun kv => kv.1 ≠ k,
    m.sorted.sublist (List.Sublist.map _ List.filter_sublist)⟩

/-! ### The map laws -/

section Laws

variable [DecidableEq K]

theorem find_eq_none {l : List (K × V)} {k : K} : find l k = none ↔ k ∉ l.map Prod.fst := by
  induction l with
  | nil => simp [find]
  | cons kv l ih =>
    obtain ⟨k', v'⟩ := kv
    by_cases h : k' = k
    · simp [find, h]
    · simp [find, h, ih, Ne.symm h]

theorem get?_eq_none {m : SortedMap r V} {k : K} : m.get? k = none ↔ k ∉ m.keys := find_eq_none

theorem mem_keys_of_get? {m : SortedMap r V} {k : K} {v : V} (h : m.get? k = some v) :
    k ∈ m.keys := by
  by_contra hk
  rw [get?_eq_none.mpr hk] at h
  cases h

theorem mem_keys_iff {m : SortedMap r V} {k : K} : k ∈ m.keys ↔ ∃ v, m.get? k = some v := by
  rw [← not_iff_not, ← get?_eq_none, Option.eq_none_iff_forall_ne_some, not_exists]

/-- A binding of the list is what `get?` finds: no key is bound twice. -/
theorem get?_eq_some_iff [Std.Irrefl r] {m : SortedMap r V} {k : K} {v : V} :
    m.get? k = some v ↔ (k, v) ∈ m.entries := by
  obtain ⟨l, hl⟩ := m
  show find l k = some v ↔ (k, v) ∈ l
  induction l with
  | nil => simp [find]
  | cons kv l ih =>
    obtain ⟨k', v'⟩ := kv
    obtain ⟨hk', hl⟩ := List.pairwise_cons.mp hl
    by_cases h : k' = k
    · subst h
      have hnot : (k', v) ∉ l := fun hm =>
        irrefl k' (hk' k' (List.mem_map.mpr ⟨(k', v), hm, rfl⟩))
      simp [find, hnot, eq_comm]
    · simp [find, h, ih hl, Ne.symm h]

variable [DecidableRel r]

theorem find_insert_self (l : List (K × V)) (k : K) (v : V) :
    find (insert r l k v) k = some v := by
  induction l with
  | nil => simp [insert, find]
  | cons kv l ih =>
    obtain ⟨k', v'⟩ := kv
    rw [insert]
    split
    · simp [find]
    · next h => split <;> simp [find, h, ih]

theorem find_insert_of_ne (l : List (K × V)) {k x : K} (v : V) (hx : x ≠ k) :
    find (insert r l k v) x = find l x := by
  induction l with
  | nil => simp [insert, find, Ne.symm hx]
  | cons kv l ih =>
    obtain ⟨k', v'⟩ := kv
    rw [insert]
    split
    · next h => subst h; simp [find, Ne.symm hx]
    · split
      · simp [find, Ne.symm hx]
      · simp [find, ih]

variable [IsStrictTotalOrder K r]

@[simp] theorem get?_set_self (m : SortedMap r V) (k : K) (v : V) :
    (m.set k v).get? k = some v := find_insert_self _ _ _

theorem get?_set_of_ne (m : SortedMap r V) {k x : K} (v : V) (hx : x ≠ k) :
    (m.set k v).get? x = m.get? x := find_insert_of_ne _ _ hx

theorem get?_set (m : SortedMap r V) (k x : K) (v : V) :
    (m.set k v).get? x = if x = k then some v else m.get? x := by
  by_cases hx : x = k
  · rw [hx, get?_set_self, if_pos rfl]
  · rw [get?_set_of_ne _ _ hx, if_neg hx]

omit [DecidableRel r] [IsStrictTotalOrder K r] in
theorem get?_erase (m : SortedMap r V) (k x : K) :
    (m.erase k).get? x = if x = k then none else m.get? x := by
  obtain ⟨l, hl⟩ := m
  show find (l.filter fun kv => kv.1 ≠ k) x = if x = k then none else find l x
  clear hl
  induction l with
  | nil => simp [find]
  | cons kv l ih =>
    obtain ⟨k', v'⟩ := kv
    by_cases h : k' = k
    · subst h
      rw [List.filter_cons_of_neg (by simp), ih]
      by_cases hx : x = k'
      · simp [hx]
      · simp [hx, find, Ne.symm hx]
    · rw [List.filter_cons_of_pos (by simpa using h), find, ih, find]
      by_cases hx : k' = x
      · subst hx; simp [h]
      · simp [hx]

theorem keys_insert_of_mem {l : List (K × V)} {k : K} (v : V) (hl : (l.map Prod.fst).Pairwise r)
    (hk : k ∈ l.map Prod.fst) : (insert r l k v).map Prod.fst = l.map Prod.fst := by
  induction l with
  | nil => simp at hk
  | cons kv l ih =>
    obtain ⟨k', v'⟩ := kv
    obtain ⟨hk', hl⟩ := List.pairwise_cons.mp hl
    rw [insert]
    split
    · next h => subst h; rfl
    · next hne =>
      have hmem : k ∈ l.map Prod.fst := by simpa [Ne.symm hne] using hk
      rw [if_neg fun hr => asymm hr (hk' k hmem), List.map_cons, List.map_cons, ih hl hmem]

theorem keys_set_of_mem {m : SortedMap r V} {k : K} (v : V) (hk : k ∈ m.keys) :
    (m.set k v).keys = m.keys := keys_insert_of_mem v m.sorted hk

theorem insert_of_find {l : List (K × V)} {k : K} {v : V} (hl : (l.map Prod.fst).Pairwise r)
    (hk : find l k = some v) : insert r l k v = l := by
  induction l with
  | nil => simp [find] at hk
  | cons kv l ih =>
    obtain ⟨k', v'⟩ := kv
    obtain ⟨hk', hl⟩ := List.pairwise_cons.mp hl
    rw [find] at hk
    rw [insert]
    split
    · next h =>
      rw [if_pos h] at hk
      rw [h, Option.some.inj hk]
    · next hne =>
      rw [if_neg hne] at hk
      have hmem : k ∈ l.map Prod.fst := by
        by_contra hnot
        rw [find_eq_none.mpr hnot] at hk
        cases hk
      rw [if_neg fun hr => asymm hr (hk' k hmem), ih hl hk]

/-- Writing what is there. -/
theorem set_eq_self {m : SortedMap r V} {k : K} {v : V} (h : m.get? k = some v) :
    m.set k v = m := by
  obtain ⟨l, hl⟩ := m
  simp only [set, insert_of_find hl h]

omit [DecidableRel r] [IsStrictTotalOrder K r] in
theorem keys_erase (m : SortedMap r V) (k : K) : (m.erase k).keys = m.keys.filter (· ≠ k) := by
  simp [erase, keys, List.filter_map, Function.comp_def]

end Laws

/-! ### Groups in key order -/

/-- Enter `a` before the first element that satisfies `p`. -/
def insertBefore (p : α → Bool) (a : α) : List α → List α
  | [] => [a]
  | x :: xs => if p x then a :: x :: xs else x :: insertBefore p a xs

theorem insertBefore_append {p : α → Bool} {a : α} {xs ys : List α} (h : ∀ x ∈ xs, p x = false) :
    insertBefore p a (xs ++ ys) = xs ++ insertBefore p a ys := by
  induction xs with
  | nil => rfl
  | cons x xs ih =>
    rw [List.cons_append, insertBefore, h x List.mem_cons_self, ih fun y hy =>
      h y (List.mem_cons_of_mem _ hy)]
    rfl

/-- An element that belongs before none of the others goes to the end. -/
theorem insertBefore_of_none {p : α → Bool} {a : α} {xs : List α} (h : ∀ x ∈ xs, p x = false) :
    insertBefore p a xs = xs ++ [a] := by
  have happ : insertBefore p a (xs ++ []) = xs ++ [a] := insertBefore_append h
  rwa [List.append_nil] at happ

theorem insertBefore_of_forall {p : α → Bool} {a : α} {xs : List α} (h : ∀ x ∈ xs, p x = true) :
    insertBefore p a xs = a :: xs := by
  cases xs with
  | nil => rfl
  | cons x xs => rw [insertBefore, h x List.mem_cons_self]; rfl

theorem mem_insertBefore {p : α → Bool} {a x : α} {xs : List α} :
    x ∈ insertBefore p a xs ↔ x = a ∨ x ∈ xs := by
  induction xs with
  | nil => simp [insertBefore]
  | cons y ys ih =>
    rw [insertBefore]
    split
    · simp
    · simp only [List.mem_cons, ih]
      tauto

theorem map_insertBefore {β : Type} {p : α → Bool} {q : β → Bool} {a : α} {xs : List α}
    (f : α → β) (h : ∀ x ∈ xs, q (f x) = p x) :
    (insertBefore p a xs).map f = insertBefore q (f a) (xs.map f) := by
  induction xs with
  | nil => rfl
  | cons x xs ih =>
    rw [insertBefore, List.map_cons, insertBefore, h x List.mem_cons_self]
    split
    · rfl
    · rw [List.map_cons, ih fun y hy => h y (List.mem_cons_of_mem _ hy)]

/-- The groups `f k` of the keys of `m`, in key order. -/
def grouped (m : SortedMap r V) (f : K → List α) : List α := m.keys.flatMap f

theorem mem_grouped {m : SortedMap r V} {f : K → List α} {x : α} :
    x ∈ m.grouped f ↔ ∃ k ∈ m.keys, x ∈ f k := List.mem_flatMap

section Grouped

variable [DecidableEq K] [DecidableRel r] [IsStrictTotalOrder K r]

theorem flatMap_keys_insert {l : List (K × V)} {f g : K → List α} {k : K} {v : V} {a : α}
    {key : α → K} (hl : (l.map Prod.fst).Pairwise r) (hkey : ∀ x, ∀ y ∈ f x, key y = x)
    (hk : g k = f k ++ [a]) (hg : ∀ x, x ≠ k → g x = f x)
    (hnew : k ∉ l.map Prod.fst → f k = []) :
    ((insert r l k v).map Prod.fst).flatMap g =
      insertBefore (fun x => decide (r k (key x))) a ((l.map Prod.fst).flatMap f) := by
  induction l with
  | nil => simp [insert, insertBefore, hk, hnew]
  | cons kv l ih =>
    obtain ⟨k', v'⟩ := kv
    obtain ⟨hk', hl⟩ := List.pairwise_cons.mp hl
    -- every element of a group at a later key is after `k`
    have hafter : ∀ ks : List K, (∀ x ∈ ks, r k x) → ∀ y ∈ ks.flatMap f, r k (key y) := by
      intro ks hks y hy
      obtain ⟨x, hx, hy⟩ := List.mem_flatMap.mp hy
      rw [hkey x y hy]
      exact hks x hx
    have hrest : ∀ ks : List K, k ∉ ks → ks.flatMap g = ks.flatMap f := fun ks hks =>
      List.flatMap_congr fun x hx => hg x (ne_of_mem_of_not_mem hx hks)
    rw [insert]
    split
    · next h =>
      subst h
      have hnot : k' ∉ l.map Prod.fst := fun hm => irrefl k' (hk' k' hm)
      rw [List.map_cons, List.map_cons, List.flatMap_cons, List.flatMap_cons, hk, hrest _ hnot,
        insertBefore_append fun x hx => by simpa [hkey k' x hx] using irrefl k',
        insertBefore_of_forall fun x hx => by simpa using hafter _ hk' x hx]
      simp
    · next hne =>
      split
      · next hr =>
        have hlater : ∀ x ∈ k' :: l.map Prod.fst, r k x := fun x hx => by
          rcases List.mem_cons.mp hx with rfl | hx
          · exact hr
          · exact trans_of r hr (hk' x hx)
        have hnot : k ∉ k' :: l.map Prod.fst := fun hm => irrefl k (hlater k hm)
        rw [List.map_cons, List.map_cons, List.flatMap_cons, hk, hnew hnot, hrest _ hnot,
          insertBefore_of_forall fun x hx => by simpa using hafter _ hlater x hx]
        rfl
      · next hr =>
        rw [List.map_cons, List.map_cons, List.flatMap_cons, List.flatMap_cons, hg k' hne,
          ih hl fun hm => hnew (by simpa [Ne.symm hne] using hm),
          insertBefore_append fun x hx => by simpa [hkey k' x hx] using hr]

/-- **Appending to one group** of the flat list, whether or not its key was bound, is inserting
before the first element with a later key. -/
theorem grouped_set {m : SortedMap r V} {f g : K → List α} {k : K} {v : V} {a : α}
    (key : α → K) (hkey : ∀ x, ∀ y ∈ f x, key y = x) (hk : g k = f k ++ [a])
    (hg : ∀ x, x ≠ k → g x = f x) (hnew : k ∉ m.keys → f k = []) :
    (m.set k v).grouped g = insertBefore (fun x => decide (r k (key x))) a (m.grouped f) :=
  flatMap_keys_insert m.sorted hkey hk hg hnew

omit [DecidableEq K] [DecidableRel r] [IsStrictTotalOrder K r] in
/-- **Thinning out** every group is thinning out the flat list. -/
theorem grouped_filter (m : SortedMap r V) {f g : K → List α} {p : α → Bool}
    (hg : ∀ x, g x = (f x).filter p) : m.grouped g = (m.grouped f).filter p := by
  rw [grouped, grouped, List.filter_flatMap]
  exact List.flatMap_congr fun x _ => hg x

omit [DecidableRel r] [IsStrictTotalOrder K r] in
/-- Deleting a key whose group is empty does not change the flat list. -/
theorem grouped_erase (m : SortedMap r V) {f : K → List α} {k : K} (hk : f k = []) :
    (m.erase k).grouped f = m.grouped f := by
  rw [grouped, grouped, keys_erase]
  induction m.keys with
  | nil => rfl
  | cons x xs ih =>
    by_cases hx : x = k
    · subst hx
      rw [List.filter_cons_of_neg (by simp), ih, List.flatMap_cons, hk, List.nil_append]
    · rw [List.filter_cons_of_pos (by simpa using hx), List.flatMap_cons, List.flatMap_cons, ih]

/-- Rebinding a key does not change the flat list. -/
theorem grouped_set_of_mem {m : SortedMap r V} {k : K} (v : V) (f : K → List α)
    (hk : k ∈ m.keys) : (m.set k v).grouped f = m.grouped f := by
  rw [grouped, grouped, keys_set_of_mem v hk]

omit [DecidableRel r] in
/-- **One group** of the flat list. -/
theorem filter_grouped {m : SortedMap r V} {f : K → List α} (key : α → K) {k : K}
    (hkey : ∀ x, ∀ y ∈ f x, key y = x) (hnone : k ∉ m.keys → f k = []) :
    (m.grouped f).filter (fun y => key y = k) = f k := by
  have hone : ∀ x, (f x).filter (fun y => key y = k) = if x = k then f k else [] := by
    intro x
    split
    · next hx =>
      rw [hx, List.filter_eq_self]
      exact fun y hy => decide_eq_true (hkey k y hy)
    · next hx =>
      rw [List.filter_eq_nil_iff]
      intro y hy hyk
      exact hx ((hkey x y hy).symm.trans (of_decide_eq_true hyk))
  have hflat : ∀ ks : List K, ks.Nodup → (k ∉ ks → f k = []) →
      ks.flatMap (fun x => if x = k then f k else []) = f k := by
    intro ks
    induction ks with
    | nil => exact fun _ hk => (hk List.not_mem_nil).symm
    | cons x ks ih =>
      intro hnd hk
      obtain ⟨hx, hnd⟩ := List.nodup_cons.mp hnd
      rw [List.flatMap_cons]
      by_cases hxk : x = k
      · subst hxk
        have hrest : ks.flatMap (fun y => if y = x then f x else []) = [] := by
          rw [List.flatMap_eq_nil_iff]
          exact fun y hy => if_neg (ne_of_mem_of_not_mem hy hx)
        rw [if_pos rfl, hrest, List.append_nil]
      · rw [if_neg hxk, List.nil_append]
        exact ih hnd fun hk' => hk fun hm => hk' ((List.mem_cons.mp hm).resolve_left (Ne.symm hxk))
  rw [grouped, List.filter_flatMap]
  simp only [hone]
  refine hflat m.keys ?_ hnone
  exact m.sorted.imp fun {x y} (hr : r x y) (he : x = y) => irrefl_of r y (he ▸ hr)

omit [DecidableEq K] [DecidableRel r] [IsStrictTotalOrder K r] in
/-- The flat list is in key order. -/
theorem pairwise_grouped {m : SortedMap r V} {f : K → List α} (key : α → K)
    (hkey : ∀ x, ∀ y ∈ f x, key y = x) :
    (m.grouped f).Pairwise fun x y => key x = key y ∨ r (key x) (key y) := by
  rw [grouped, List.pairwise_flatMap]
  refine ⟨fun k _ => ?_, m.sorted.imp fun {k k'} hk x hx y hy => Or.inr ?_⟩
  · exact List.pairwise_of_forall_mem_list fun x hx y hy =>
      Or.inl ((hkey k x hx).trans (hkey k y hy).symm)
  · rwa [hkey k x hx, hkey k' y hy]

omit [DecidableRel r] in
/-- **Lists in key order are equal** if their groups are. -/
theorem eq_of_filter_eq {key : α → K} {l l' : List α}
    (hl : l.Pairwise fun x y => key x = key y ∨ r (key x) (key y))
    (hl' : l'.Pairwise fun x y => key x = key y ∨ r (key x) (key y))
    (h : ∀ k, l.filter (fun x => key x = k) = l'.filter fun x => key x = k) : l = l' := by
  induction l generalizing l' with
  | nil =>
    cases l' with
    | nil => rfl
    | cons y ys =>
      have hy := h (key y)
      simp at hy
  | cons x xs ih =>
    cases l' with
    | nil =>
      have hx := h (key x)
      simp at hx
    | cons y ys =>
      obtain ⟨hx, hxs⟩ := List.pairwise_cons.mp hl
      obtain ⟨hy, hys⟩ := List.pairwise_cons.mp hl'
      -- the first elements have the same key: each key occurs in the other list
      have hxmem : x ∈ (y :: ys).filter fun z => key z = key x := by
        rw [← h]
        exact List.mem_filter.mpr ⟨List.mem_cons_self, decide_eq_true rfl⟩
      have hymem : y ∈ (x :: xs).filter fun z => key z = key y := by
        rw [h]
        exact List.mem_filter.mpr ⟨List.mem_cons_self, decide_eq_true rfl⟩
      have hkey : key x = key y := by
        rcases List.mem_cons.mp (List.mem_filter.mp hxmem).1 with hxy | hxy
        · rw [hxy]
        rcases List.mem_cons.mp (List.mem_filter.mp hymem).1 with hyx | hyx
        · rw [hyx]
        rcases hx y hyx with he | hlt
        · exact he
        rcases hy x hxy with he | hgt
        · exact he.symm
        exact absurd (trans_of r hlt hgt) (irrefl_of r _)
      have hheads := h (key x)
      simp only [List.filter_cons, hkey, decide_true, if_true] at hheads
      obtain ⟨rfl, -⟩ := List.cons.inj hheads
      refine congrArg _ (ih hxs hys fun k => ?_)
      have hk := h k
      by_cases hxk : key x = k
      · simp only [List.filter_cons, hxk, decide_true, if_true] at hk
        exact (List.cons.inj hk).2
      · simpa only [List.filter_cons, hxk, decide_false, Bool.false_eq_true, if_false] using hk

end Grouped

end SortedMap
