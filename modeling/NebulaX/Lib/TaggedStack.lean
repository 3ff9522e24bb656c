import Mathlib.Algebra.BigOperators.Group.Finset.Basic
import Mathlib.Algebra.Order.BigOperators.Group.Finset
import Mathlib.Data.Fintype.Basic
import Mathlib.Data.UInt
import NebulaX.Lib.LinkedList

/-!
# A lock-free stack of free nodes

A stack of free nodes is threaded through an array and used by any number of threads without a
lock. The head of the stack is one word that holds the index of the first node and a tag. A thread
that pops reads the head, reads the link of that node, and swaps the head for the link if it is
still what it was. A thread that pushes reads the head, writes it to the link of its node, and
swaps the head for the node. Every swap makes a new tag.

Between the two reads and the swap of a pop other threads may pop the node, and push it back on
another stack: the index is the same, the link is not. The tag tells the two apart, unless a whole
period of swaps has passed meanwhile. `Timely` says that it has not. The link of a node that is held
belongs to its holders, who may write anything to it.

Threads perform one atomic operation at a time, in one order for all of them. A swap may fail for
no reason, as a weak compare-and-swap may.

## Main results

* `Inv.step`, `Counted.step` — what every operation keeps
* `Machine.Reached.inv` — in every state a node is free, held, or in the hand of one thread, and the
  history of the swaps is one of a stack
* `Machine.Reached.counted` — what the counter counts
-/

namespace TaggedStack

/-- Words that hold an index and a tag. -/
structure Coding (W : Type) where
  /-- The index that stands for no node. -/
  null : ℕ
  /-- The tags start over after so many. -/
  period : ℕ
  /-- The index in a word. -/
  index : W → ℕ
  /-- The tag in a word. -/
  tag : W → ℕ
  /-- The word that a swap writes over another one, with a new index. -/
  swap : W → ℕ → W
  /-- It has the new index, -/
  index_swap : ∀ w i, i ≤ null → index (swap w i) = i
  /-- and the next tag. -/
  tag_swap : ∀ w i, i ≤ null → tag (swap w i) = (tag w + 1) % period

/-- Where a thread stands. `seen` counts the swaps before the head was read; no thread knows it. -/
inductive Local (W : Type)
  | idle
  /-- A pop has read the head. -/
  | reading (w : W) (seen : ℕ)
  /-- It has read the link, too. -/
  | ready (w : W) (link seen : ℕ)
  /-- It has swapped. The node is not counted yet. -/
  | took (i : ℕ)
  /-- A push has read the head. -/
  | offering (i : ℕ) (w : W)
  /-- It has written the link. -/
  | linked (i : ℕ) (w : W)
  /-- It has swapped. The node is still counted. -/
  | gave
deriving DecidableEq

/-- The node in the hand of a thread. -/
def Local.hand {W : Type} : Local W → Option ℕ
  | .took i | .offering i _ | .linked i _ => some i
  | .idle | .reading .. | .ready .. | .gave => none

/-- Fewer swaps than a period have passed since it read the head it is about to swap. -/
def Local.Timely {W : Type} (period swaps : ℕ) : Local W → Prop
  | .ready _ _ seen => swaps < seen + period
  | .idle | .reading .. | .took _ | .offering .. | .linked .. | .gave => True

instance {W : Type} (period swaps : ℕ) (l : Local W) : Decidable (l.Timely period swaps) :=
  match l with
  | .ready _ _ seen => inferInstanceAs (Decidable (swaps < seen + period))
  | .idle | .reading .. | .took _ | .offering .. | .linked .. | .gave => isTrue trivial

/-- Whether the counter has a node that is neither free nor held. -/
def Local.counted {W : Type} : Local W → ℕ
  | .offering .. | .linked .. | .gave => 1
  | .idle | .reading .. | .ready .. | .took _ => 0

/-- A swap that succeeded. -/
inductive Event
  | took (i : ℕ)
  | gave (i : ℕ)
deriving DecidableEq

/-- What a stack of nodes below `cap` makes of it: its first node is taken, a node that is not on it
is given back. -/
def Event.apply (cap : ℕ) : Event → List ℕ → Option (List ℕ)
  | .took i, j :: free => if i = j then some free else none
  | .took _, [] => none
  | .gave i, free => if i < cap ∧ i ∉ free then some (i :: free) else none

/-- The memory and the threads. -/
structure Machine (W T : Type) where
  /-- The head of the stack. -/
  head : W
  /-- The links. -/
  next : ℕ → ℕ
  /-- The counter of nodes that are taken. -/
  count : UInt64 := 0
  /-- Where the threads stand. -/
  threads : T → Local W := fun _ => .idle
  /-- The nodes that were popped and returned, and not given back. -/
  held : Finset ℕ := ∅
  /-- The swaps so far. -/
  history : List Event := []

/-- What a thread does next. -/
inductive Choice
  /-- It starts a pop. -/
  | pop
  /-- It starts to push a node. -/
  | push (i : ℕ)
  /-- It assigns a node that is held, the link with it. -/
  | assign (i link : ℕ)
  /-- It goes on. -/
  | go
  /-- Its swap fails, whatever the head is. -/
  | fail
deriving DecidableEq

variable {W T : Type}

namespace Machine

/-- How many swaps there were. -/
def swaps (m : Machine W T) : ℕ := m.history.length

/-- A thread moves. -/
def move [DecidableEq T] (m : Machine W T) (t : T) (l : Local W) : Machine W T :=
  { m with threads := Function.update m.threads t l }

/-- A thread swaps the head. -/
def swap (m : Machine W T) (w : W) (e : Event) : Machine W T :=
  { m with head := w, history := m.history ++ [e] }

/-- A pop that has read the head. It is over if there is no node. -/
def popFrom (C : Coding W) (m : Machine W T) : Local W :=
  if C.index m.head = C.null then .idle else .reading m.head m.swaps

section Steps

variable [DecidableEq W] [DecidableEq T]

/-- One atomic operation of a thread. -/
def step (C : Coding W) (m : Machine W T) (t : T) (c : Choice) : Option (Machine W T) :=
  match m.threads t, c with
  | .idle, .pop => some (m.move t (m.popFrom C))
  | .idle, .push i =>
    if i ∈ m.held then some ({ m with held := m.held.erase i }.move t (.offering i m.head))
    else none
  | .idle, .assign i link =>
    if i ∈ m.held then some ({ m with next := Function.update m.next i link }.move t .idle)
    else none
  | .reading w seen, .go => some (m.move t (.ready w (m.next (C.index w)) seen))
  | .ready w link _, .go =>
    if m.head = w then
      some ((m.swap (C.swap w link) (.took (C.index w))).move t (.took (C.index w)))
    else some (m.move t (m.popFrom C))
  | .ready .., .fail => some (m.move t (m.popFrom C))
  | .took i, .go =>
    some ({ m with count := m.count + 1, held := insert i m.held }.move t .idle)
  | .offering i w, .go =>
    some ({ m with next := Function.update m.next i (C.index w) }.move t (.linked i w))
  | .linked i w, .go =>
    if m.head = w then some ((m.swap (C.swap w i) (.gave i)).move t .gave)
    else some (m.move t (.offering i m.head))
  | .linked i _, .fail => some (m.move t (.offering i m.head))
  | .gave, .go => some ({ m with count := m.count - 1 }.move t .idle)
  | _, _ => none

end Steps

/-- The tag that a thread has read has not come up again. -/
def Timely (C : Coding W) (m : Machine W T) (t : T) : Prop :=
  (m.threads t).Timely C.period m.swaps

instance (C : Coding W) (m : Machine W T) (t : T) : Decidable (m.Timely C t) :=
  inferInstanceAs (Decidable ((m.threads t).Timely C.period m.swaps))

/-- The states that threads get into, in any order, as long as they are timely. -/
inductive Reached [DecidableEq W] [DecidableEq T] (C : Coding W) (m₀ : Machine W T) :
    Machine W T → Prop
  | start : Reached C m₀ m₀
  | step {m m' : Machine W T} (t : T) (c : Choice) (h : Reached C m₀ m) (htime : m.Timely C t)
      (hstep : m.step C t c = some m') : Reached C m₀ m'

/-! ### What an operation does -/

/-- **The operations** of a thread, by what they do. -/
inductive Move [DecidableEq T] (C : Coding W) (m : Machine W T) (t : T) : Machine W T → Prop
  /-- A pop reads the head, for the first time or after its swap has failed. -/
  | look (h : m.threads t = .idle ∨ ∃ w link seen, m.threads t = .ready w link seen) :
      Move C m t (m.move t (m.popFrom C))
  /-- It reads the link. -/
  | read {w : W} {seen : ℕ} (h : m.threads t = .reading w seen) :
      Move C m t (m.move t (.ready w (m.next (C.index w)) seen))
  /-- It swaps. -/
  | take {w : W} {link seen : ℕ} (h : m.threads t = .ready w link seen) (hhead : m.head = w) :
      Move C m t ((m.swap (C.swap w link) (.took (C.index w))).move t (.took (C.index w)))
  /-- It counts the node and returns. -/
  | count {i : ℕ} (h : m.threads t = .took i) :
      Move C m t ({ m with count := m.count + 1, held := insert i m.held }.move t .idle)
  /-- A push starts. -/
  | offer {i : ℕ} (h : m.threads t = .idle) (hi : i ∈ m.held) :
      Move C m t ({ m with held := m.held.erase i }.move t (.offering i m.head))
  /-- A node that is held is assigned. -/
  | assign {i link : ℕ} (h : m.threads t = .idle) (hi : i ∈ m.held) :
      Move C m t ({ m with next := Function.update m.next i link }.move t .idle)
  /-- It writes the link. -/
  | link {i : ℕ} {w : W} (h : m.threads t = .offering i w) :
      Move C m t ({ m with next := Function.update m.next i (C.index w) }.move t (.linked i w))
  /-- It swaps. -/
  | give {i : ℕ} {w : W} (h : m.threads t = .linked i w) (hhead : m.head = w) :
      Move C m t ((m.swap (C.swap w i) (.gave i)).move t .gave)
  /-- Its swap fails. -/
  | again {i : ℕ} {w : W} (h : m.threads t = .linked i w) :
      Move C m t (m.move t (.offering i m.head))
  /-- The node is not counted any more. -/
  | uncount (h : m.threads t = .gave) :
      Move C m t ({ m with count := m.count - 1 }.move t .idle)

variable {C : Coding W} {m m' : Machine W T} {t : T}

/-- There are no others. -/
theorem move_of_step [DecidableEq W] [DecidableEq T] {c : Choice} (h : m.step C t c = some m') :
    Move C m t m' := by
  unfold step at h
  split at h
  · next hl => exact Option.some.inj h ▸ .look (.inl hl)
  · next hl =>
    split at h
    · next hi => exact Option.some.inj h ▸ .offer hl hi
    · exact absurd h (by simp)
  · next hl =>
    split at h
    · next hi => exact Option.some.inj h ▸ .assign hl hi
    · exact absurd h (by simp)
  · next hl => exact Option.some.inj h ▸ .read hl
  · next hl =>
    split at h
    · next hhead => exact Option.some.inj h ▸ .take hl hhead
    · exact Option.some.inj h ▸ .look (.inr ⟨_, _, _, hl⟩)
  · next hl => exact Option.some.inj h ▸ .look (.inr ⟨_, _, _, hl⟩)
  · next hl => exact Option.some.inj h ▸ .count hl
  · next hl => exact Option.some.inj h ▸ .link hl
  · next hl =>
    split at h
    · next hhead => exact Option.some.inj h ▸ .give hl hhead
    · exact Option.some.inj h ▸ .again hl
  · next hl => exact Option.some.inj h ▸ .again hl
  · next hl => exact Option.some.inj h ▸ .uncount hl
  · exact absurd h (by simp)

end Machine

/-! ### Where the nodes are

A node is free, or held, or in the hand of one thread. The operations take it from one place to
another. -/

/-- A node is in one hand at most. -/
def Apart (hands : T → Option ℕ) : Prop :=
  ∀ ⦃t t' i⦄, hands t = some i → hands t' = some i → t = t'

/-- **Every node is in one place.** -/
structure Placed (cap : ℕ) (hands : T → Option ℕ) (held : Finset ℕ) (free : List ℕ) : Prop where
  /-- No node is free twice. -/
  nodup : free.Nodup
  /-- Free nodes are nodes. -/
  lt : ∀ i ∈ free, i < cap
  /-- A node that is held is not free. -/
  of_held : ∀ i ∈ held, i < cap ∧ i ∉ free
  /-- A node in the hand of a thread is neither free nor held. -/
  of_hand : ∀ {t i}, hands t = some i → i < cap ∧ i ∉ free ∧ i ∉ held
  /-- It is in no other hand. -/
  apart : Apart hands
  /-- There are no other places. -/
  cover : ∀ i < cap, i ∈ free ∨ i ∈ held ∨ ∃ t, hands t = some i

section Hands

variable [DecidableEq T] {i : ℕ} {hands : T → Option ℕ} {t : T}

/-- In the hands after a thread has moved, a node is the one it has now, or was there before. -/
theorem update_eq_some {h : Option ℕ} {t' : T} {j : ℕ}
    (hj : Function.update hands t h t' = some j) :
    (t' = t ∧ h = some j) ∨ (t' ≠ t ∧ hands t' = some j) := by
  by_cases ht : t' = t
  · subst ht
    exact Or.inl ⟨rfl, by simpa using hj⟩
  · exact Or.inr ⟨ht, by simpa [ht] using hj⟩

/-- A hand is emptied. -/
theorem Apart.drop (h : Apart hands) (t : T) : Apart (Function.update hands t none) := by
  intro t₁ t₂ j h₁ h₂
  rcases update_eq_some h₁ with ⟨-, heq⟩ | ⟨-, hwas₁⟩
  · exact absurd heq (by simp)
  · rcases update_eq_some h₂ with ⟨-, heq⟩ | ⟨-, hwas₂⟩
    · exact absurd heq (by simp)
    · exact h hwas₁ hwas₂

/-- A hand gets a node that no hand has. -/
theorem Apart.get (h : Apart hands) (t : T) (hi : ∀ t', hands t' ≠ some i) :
    Apart (Function.update hands t (some i)) := by
  intro t₁ t₂ j h₁ h₂
  rcases update_eq_some h₁ with ⟨ht₁, heq₁⟩ | ⟨-, hwas₁⟩ <;>
    rcases update_eq_some h₂ with ⟨ht₂, heq₂⟩ | ⟨-, hwas₂⟩
  · exact ht₁.trans ht₂.symm
  · exact absurd (heq₁ ▸ hwas₂) (hi t₂)
  · exact absurd (heq₂ ▸ hwas₁) (hi t₁)
  · exact h hwas₁ hwas₂

end Hands

namespace Placed

variable [DecidableEq T] {cap i : ℕ} {hands : T → Option ℕ} {held : Finset ℕ} {free : List ℕ}
  {t : T}

/-- A hand keeps what it has. -/
theorem same (h : Placed cap hands held free) {i : Option ℕ} (ht : hands t = i) :
    Placed cap (Function.update hands t i) held free := by
  rw [← ht, Function.update_eq_self]
  exact h

/-- From the stack to a hand. -/
theorem take (h : Placed cap hands held (i :: free)) (ht : hands t = none) :
    Placed cap (Function.update hands t (some i)) held free where
  nodup := (List.nodup_cons.mp h.nodup).2
  lt := fun j hj => h.lt j (List.mem_cons_of_mem i hj)
  of_held := fun j hj =>
    ⟨(h.of_held j hj).1, fun hm => (h.of_held j hj).2 (List.mem_cons_of_mem i hm)⟩
  of_hand := by
    intro t' j hj
    rcases update_eq_some hj with ⟨-, heq⟩ | ⟨-, hj⟩
    · obtain rfl := Option.some.inj heq
      exact ⟨h.lt i List.mem_cons_self, (List.nodup_cons.mp h.nodup).1,
        fun hm => (h.of_held i hm).2 List.mem_cons_self⟩
    · obtain ⟨hlt, hfree, hheld⟩ := h.of_hand hj
      exact ⟨hlt, fun hm => hfree (List.mem_cons_of_mem i hm), hheld⟩
  apart := h.apart.get t fun t' ht' => (h.of_hand ht').2.1 List.mem_cons_self
  cover := by
    intro j hj
    rcases h.cover j hj with hm | hm | ⟨t', hm⟩
    · rcases List.mem_cons.mp hm with rfl | hm
      · exact Or.inr (Or.inr ⟨t, Function.update_self ..⟩)
      · exact Or.inl hm
    · exact Or.inr (Or.inl hm)
    · have hne : t' ≠ t := fun he => absurd (he ▸ hm) (by simp [ht])
      exact Or.inr (Or.inr ⟨t', by rw [Function.update_of_ne hne]; exact hm⟩)

/-- From a hand to the stack. -/
theorem give (h : Placed cap hands held free) (ht : hands t = some i) :
    Placed cap (Function.update hands t none) held (i :: free) where
  nodup := List.nodup_cons.mpr ⟨(h.of_hand ht).2.1, h.nodup⟩
  lt := by
    intro j hj
    rcases List.mem_cons.mp hj with rfl | hj
    · exact (h.of_hand ht).1
    · exact h.lt j hj
  of_held := by
    intro j hj
    refine ⟨(h.of_held j hj).1, fun hm => ?_⟩
    rcases List.mem_cons.mp hm with rfl | hm
    · exact (h.of_hand ht).2.2 hj
    · exact (h.of_held j hj).2 hm
  of_hand := by
    intro t' j hj
    rcases update_eq_some hj with ⟨-, heq⟩ | ⟨hne, hj⟩
    · exact absurd heq (by simp)
    · obtain ⟨hlt, hfree, hheld⟩ := h.of_hand hj
      refine ⟨hlt, fun hm => ?_, hheld⟩
      rcases List.mem_cons.mp hm with rfl | hm
      · exact hne (h.apart hj ht)
      · exact hfree hm
  apart := h.apart.drop t
  cover := by
    intro j hj
    rcases h.cover j hj with hm | hm | ⟨t', hm⟩
    · exact Or.inl (List.mem_cons_of_mem i hm)
    · exact Or.inr (Or.inl hm)
    · by_cases hne : t' = t
      · obtain rfl := Option.some.inj (hm.symm.trans (hne ▸ ht))
        exact Or.inl List.mem_cons_self
      · exact Or.inr (Or.inr ⟨t', by rw [Function.update_of_ne hne]; exact hm⟩)

/-- From a hand to the nodes that are held. -/
theorem keep (h : Placed cap hands held free) (ht : hands t = some i) :
    Placed cap (Function.update hands t none) (insert i held) free where
  nodup := h.nodup
  lt := h.lt
  of_held := by
    intro j hj
    rcases Finset.mem_insert.mp hj with rfl | hj
    · exact ⟨(h.of_hand ht).1, (h.of_hand ht).2.1⟩
    · exact h.of_held j hj
  of_hand := by
    intro t' j hj
    rcases update_eq_some hj with ⟨-, heq⟩ | ⟨hne, hj⟩
    · exact absurd heq (by simp)
    · obtain ⟨hlt, hfree, hheld⟩ := h.of_hand hj
      refine ⟨hlt, hfree, fun hm => ?_⟩
      rcases Finset.mem_insert.mp hm with rfl | hm
      · exact hne (h.apart hj ht)
      · exact hheld hm
  apart := h.apart.drop t
  cover := by
    intro j hj
    rcases h.cover j hj with hm | hm | ⟨t', hm⟩
    · exact Or.inl hm
    · exact Or.inr (Or.inl (Finset.mem_insert_of_mem hm))
    · by_cases hne : t' = t
      · obtain rfl := Option.some.inj (hm.symm.trans (hne ▸ ht))
        exact Or.inr (Or.inl (Finset.mem_insert_self j held))
      · exact Or.inr (Or.inr ⟨t', by rw [Function.update_of_ne hne]; exact hm⟩)

/-- From the nodes that are held to a hand. -/
theorem offer (h : Placed cap hands held free) (ht : hands t = none) (hi : i ∈ held) :
    Placed cap (Function.update hands t (some i)) (held.erase i) free where
  nodup := h.nodup
  lt := h.lt
  of_held := fun j hj => h.of_held j (Finset.mem_of_mem_erase hj)
  of_hand := by
    intro t' j hj
    rcases update_eq_some hj with ⟨-, heq⟩ | ⟨-, hj⟩
    · obtain rfl := Option.some.inj heq
      exact ⟨(h.of_held i hi).1, (h.of_held i hi).2, Finset.notMem_erase i held⟩
    · obtain ⟨hlt, hfree, hheld⟩ := h.of_hand hj
      exact ⟨hlt, hfree, fun hm => hheld (Finset.mem_of_mem_erase hm)⟩
  apart := h.apart.get t fun t' ht' => (h.of_hand ht').2.2 hi
  cover := by
    intro j hj
    rcases h.cover j hj with hm | hm | ⟨t', hm⟩
    · exact Or.inl hm
    · by_cases hji : j = i
      · exact Or.inr (Or.inr ⟨t, by rw [Function.update_self, hji]⟩)
      · exact Or.inr (Or.inl (Finset.mem_erase.mpr ⟨hji, hm⟩))
    · have hne : t' ≠ t := fun he => absurd (he ▸ hm) (by simp [ht])
      exact Or.inr (Or.inr ⟨t', by rw [Function.update_of_ne hne]; exact hm⟩)

omit [DecidableEq T] in
/-- When all hands are empty, a node is free or held. -/
theorem card_eq (h : Placed cap hands held free) (hempty : ∀ t, hands t = none) :
    held.card + free.length = cap := by
  have hdisjoint : Disjoint held free.toFinset := by
    rw [Finset.disjoint_left]
    intro i hi hm
    exact (h.of_held i hi).2 (List.mem_toFinset.mp hm)
  have hunion : held ∪ free.toFinset = Finset.range cap := by
    ext i
    rw [Finset.mem_union, List.mem_toFinset, Finset.mem_range]
    constructor
    · rintro (hi | hi)
      · exact (h.of_held i hi).1
      · exact h.lt i hi
    · intro hi
      rcases h.cover i hi with hm | hm | ⟨t, ht⟩
      · exact Or.inr hm
      · exact Or.inl hm
      · exact absurd ht (by rw [hempty]; simp)
  rw [← List.toFinset_card_of_nodup h.nodup, ← Finset.card_union_of_disjoint hdisjoint, hunion,
    Finset.card_range]

end Placed

/-! ### What every thread can rely on -/

/-- **What a thread has read** still holds, as long as no swap has come in between. -/
def Sound (C : Coding W) (m : Machine W T) : Local W → Prop
  | .reading w seen => seen ≤ m.swaps ∧ C.tag w = seen % C.period ∧ C.index w ≠ C.null ∧
      (seen = m.swaps → w = m.head)
  | .ready w link seen => seen ≤ m.swaps ∧ C.tag w = seen % C.period ∧ C.index w ≠ C.null ∧
      (seen = m.swaps → w = m.head ∧ link = m.next (C.index w))
  | .linked i w => m.next i = C.index w
  | .idle | .took _ | .offering .. | .gave => True

/-- **A stack of nodes** below `cap`, from which threads pop and to which they push. -/
structure Inv (C : Coding W) (cap : ℕ) (m : Machine W T) (free : List ℕ) : Prop where
  /-- Every node has an index. -/
  cap_le : cap ≤ C.null
  /-- The links make up the stack. -/
  seg : LinkedList.Seg m.next (C.index m.head) free C.null
  /-- The tag counts the swaps. -/
  tag : C.tag m.head = m.swaps % C.period
  /-- Every node is in one place. -/
  placed : Placed cap (fun t => (m.threads t).hand) m.held free
  /-- The threads can rely on what they have read. -/
  sound : ∀ t, Sound C m (m.threads t)
  /-- The history is one of a stack. -/
  history : m.history.foldlM (fun free e => e.apply cap free) (List.range cap) = some free

namespace Inv

variable {C : Coding W} {cap : ℕ} {m m' : Machine W T} {free : List ℕ} {t : T}

/-- The hands after a thread has moved. -/
theorem hands_move [DecidableEq T] (m : Machine W T) (t : T) (l : Local W) :
    (fun t' => ((m.move t l).threads t').hand) =
      Function.update (fun t' => (m.threads t').hand) t l.hand := by
  funext t'
  show (Function.update m.threads t l t').hand = _
  by_cases ht : t' = t
  · rw [ht, Function.update_self, Function.update_self]
  · rw [Function.update_of_ne ht, Function.update_of_ne ht]

/-- A thread moves, and no other does. -/
theorem sound_move [DecidableEq T] (hothers : ∀ t', t' ≠ t → Sound C m' (m.threads t'))
    {l : Local W}
    (hl : Sound C m' l) (hthreads : m'.threads = Function.update m.threads t l) (t' : T) :
    Sound C m' (m'.threads t') := by
  rw [hthreads]
  by_cases ht : t' = t
  · rw [ht, Function.update_self]
    exact hl
  · rw [Function.update_of_ne ht]
    exact hothers t' ht

/-- **What was read before a swap** is out of date, and no thread relies on it. -/
theorem sound_swap {l : Local W} (h : Sound C m l) {m' : Machine W T}
    (hswaps : m'.swaps = m.swaps + 1) (hnext : m'.next = m.next) : Sound C m' l := by
  cases l with
  | reading w seen =>
    obtain ⟨hle, htag, hnull, -⟩ := h
    refine ⟨by omega, htag, hnull, fun heq => ?_⟩
    omega
  | ready w link seen =>
    obtain ⟨hle, htag, hnull, -⟩ := h
    refine ⟨by omega, htag, hnull, fun heq => ?_⟩
    omega
  | linked i w =>
    show m'.next i = _
    rw [hnext]
    exact h
  | idle | took i | offering i w | gave => trivial

/-- The machine at the start: all nodes are free, in order. -/
theorem start {m : Machine W T} (hpos : 0 < cap) (hle : cap ≤ C.null)
    (hnext : ∀ i < cap, m.next i = if i + 1 < cap then i + 1 else C.null)
    (hindex : C.index m.head = 0) (htag : C.tag m.head = 0) (hthreads : ∀ t, m.threads t = .idle)
    (hheld : m.held = ∅) (hhistory : m.history = []) : Inv C cap m (List.range cap) where
  cap_le := hle
  seg := by
    rw [hindex]
    exact (LinkedList.seg_range hpos).congr fun i hi => hnext i (List.mem_range.mp hi)
  tag := by
    rw [htag, Machine.swaps, hhistory]
    exact (Nat.zero_mod _).symm
  placed := {
    nodup := List.nodup_range
    lt := fun i hi => List.mem_range.mp hi
    of_held := by
      intro i hi
      rw [hheld] at hi
      exact absurd hi (Finset.notMem_empty i)
    of_hand := by
      intro t i hi
      exact absurd hi (by simp [hthreads t, Local.hand])
    apart := by
      intro t t' i hi
      exact absurd hi (by simp [hthreads t, Local.hand])
    cover := fun i hi => Or.inl (List.mem_range.mpr hi) }
  sound := by
    intro t
    rw [hthreads]
    trivial
  history := by
    rw [hhistory]
    rfl

/-- **What a thread read is what it is now** if the head is still the same word, and it is in
time. -/
theorem seen_eq (h : Inv C cap m free) {w : W} {link seen : ℕ}
    (hready : m.threads t = .ready w link seen) (htime : m.Timely C t) (hhead : m.head = w) :
    seen = m.swaps := by
  have hsound := h.sound t
  rw [hready] at hsound
  obtain ⟨hle, htag, -, -⟩ := hsound
  rw [Machine.Timely, hready] at htime
  have htime : m.swaps < seen + C.period := htime
  have hmod : seen ≡ m.swaps [MOD C.period] := htag.symm.trans (hhead ▸ h.tag)
  have hdvd : C.period ∣ m.swaps - seen := (Nat.modEq_iff_dvd' hle).mp hmod
  have hzero : m.swaps - seen = 0 := Nat.eq_zero_of_dvd_of_lt hdvd (by omega)
  omega

section Step

variable [DecidableEq T]

/-- A thread moves, and the stack stays as it is. -/
theorem still (h : Inv C cap m free) {l : Local W} {held : Finset ℕ} {count : UInt64}
    (hl : Sound C m l)
    (hplaced : Placed cap (Function.update (fun t => (m.threads t).hand) t l.hand) held free) :
    Inv C cap ({ m with held := held, count := count }.move t l) free where
  cap_le := h.cap_le
  seg := h.seg
  tag := h.tag
  placed := by
    rw [hands_move]
    exact hplaced
  sound := sound_move (fun t' _ => h.sound t') hl rfl
  history := h.history

/-- A thread moves that has no node, and gets none. -/
theorem look (h : Inv C cap m free) {l : Local W} (hl : Sound C m l)
    (hwas : (m.threads t).hand = none) (his : l.hand = none) :
    Inv C cap (m.move t l) free := by
  refine h.still hl ?_
  rw [his]
  exact h.placed.same hwas

/-- **A pop takes the first node.** -/
theorem take (h : Inv C cap m free) {w : W} {link seen : ℕ}
    (hready : m.threads t = .ready w link seen) (htime : m.Timely C t) (hhead : m.head = w) :
    ∃ free', free = C.index w :: free' ∧
      Inv C cap ((m.swap (C.swap w link) (.took (C.index w))).move t (.took (C.index w)))
        free' := by
  have hseen := h.seen_eq hready htime hhead
  have hsound := h.sound t
  rw [hready] at hsound
  obtain ⟨-, -, hnull, hfresh⟩ := hsound
  have hlink : link = m.next (C.index w) := (hfresh hseen).2
  cases hfree : free with
  | nil =>
    have hseg := h.seg
    rw [hfree, hhead] at hseg
    exact absurd (LinkedList.seg_nil.mp hseg) hnull
  | cons i free' =>
    obtain ⟨hi, hseg⟩ : m.head = m.head ∧ LinkedList.Seg m.next (C.index w) (i :: free') C.null :=
      ⟨rfl, hhead ▸ hfree ▸ h.seg⟩
    obtain ⟨rfl, hseg⟩ := LinkedList.seg_cons.mp hseg
    have hle : link ≤ C.null := by
      rw [hlink]
      cases hrest : free' with
      | nil =>
        rw [hrest] at hseg
        exact (LinkedList.seg_nil.mp hseg).le
      | cons j rest =>
        rw [hrest] at hseg
        obtain ⟨hj, -⟩ := LinkedList.seg_cons.mp hseg
        rw [hj]
        have hlt := h.placed.lt j (by rw [hfree, hrest]; simp)
        exact Nat.le_of_lt (Nat.lt_of_lt_of_le hlt h.cap_le)
    have hplaced := h.placed
    rw [hfree] at hplaced
    refine ⟨free', rfl, h.cap_le, ?_, ?_, ?_, ?_, ?_⟩
    · show LinkedList.Seg m.next (C.index (C.swap w link)) free' C.null
      rw [C.index_swap w link hle, hlink]
      exact hseg
    · show C.tag (C.swap w link) = (m.history ++ [_]).length % C.period
      rw [C.tag_swap w link hle, ← hhead, h.tag, List.length_append, Machine.swaps]
      exact (Nat.mod_add_mod _ _ _)
    · rw [hands_move]
      exact hplaced.take (by rw [hready]; rfl)
    · exact sound_move (l := .took (C.index w))
        (fun t' _ => sound_swap (h.sound t') List.length_append rfl) trivial rfl
    · show (m.history ++ [_]).foldlM _ _ = _
      rw [List.foldlM_append, h.history, hfree]
      show (Event.took (C.index w)).apply cap (C.index w :: free') >>= _ = _
      rw [Event.apply, if_pos rfl]
      rfl

/-- **A push puts its node in front.** -/
theorem give (h : Inv C cap m free) {i : ℕ} {w : W} (hlinked : m.threads t = .linked i w)
    (hhead : m.head = w) :
    Inv C cap ((m.swap (C.swap w i) (.gave i)).move t .gave) (i :: free) := by
  have hhand : (m.threads t).hand = some i := by rw [hlinked]; rfl
  have hlink := h.sound t
  rw [hlinked] at hlink
  have hlink : m.next i = C.index w := hlink
  have hle : i ≤ C.null :=
    Nat.le_of_lt (Nat.lt_of_lt_of_le (h.placed.of_hand hhand).1 h.cap_le)
  refine ⟨h.cap_le, ?_, ?_, ?_, ?_, ?_⟩
  · show LinkedList.Seg m.next (C.index (C.swap w i)) (i :: free) C.null
    rw [C.index_swap w i hle, LinkedList.seg_cons, hlink, ← hhead]
    exact ⟨rfl, h.seg⟩
  · show C.tag (C.swap w i) = (m.history ++ [_]).length % C.period
    rw [C.tag_swap w i hle, ← hhead, h.tag, List.length_append, Machine.swaps]
    exact (Nat.mod_add_mod _ _ _)
  · rw [hands_move]
    exact h.placed.give hhand
  · exact sound_move (l := .gave)
      (fun t' _ => sound_swap (h.sound t') List.length_append rfl) trivial rfl
  · show (m.history ++ [_]).foldlM _ _ = _
    rw [List.foldlM_append, h.history]
    show (Event.gave i).apply cap free >>= _ = _
    rw [Event.apply, if_pos ⟨(h.placed.of_hand hhand).1, (h.placed.of_hand hhand).2.1⟩]
    rfl

/-- **A link is written** of a node that is not free and not in the hand of another thread. -/
theorem write (h : Inv C cap m free) {i link : ℕ} {l : Local W} (hnot : i ∉ free)
    (hhands : ∀ t', t' ≠ t → (m.threads t').hand ≠ some i)
    (hl : Sound C { m with next := Function.update m.next i link } l)
    (hhand : (m.threads t).hand = l.hand) :
    Inv C cap ({ m with next := Function.update m.next i link }.move t l) free := by
  refine ⟨h.cap_le, h.seg.update_of_not_mem hnot, h.tag, ?_, ?_, h.history⟩
  · rw [hands_move]
    exact h.placed.same hhand
  · refine sound_move (l := l) (fun t' ht' => ?_) hl rfl
    have hsound := h.sound t'
    cases hl : m.threads t' with
    | reading w' seen =>
      rw [hl] at hsound
      exact hsound
    | ready w' link' seen =>
      rw [hl] at hsound
      obtain ⟨hle, htag, hnull, hfresh⟩ := hsound
      refine ⟨hle, htag, hnull, fun hseen => ?_⟩
      obtain ⟨hw, hlink⟩ := hfresh hseen
      -- the node that was read is free, and this one is not
      have hne : C.index w' ≠ i := by
        intro heq
        cases hfree : free with
        | nil =>
          have hseg := h.seg
          rw [hfree, ← hw] at hseg
          exact hnull (LinkedList.seg_nil.mp hseg)
        | cons j free' =>
          have hseg := h.seg
          rw [hfree, ← hw] at hseg
          have hj := (LinkedList.seg_cons.mp hseg).1
          exact hnot (by rw [hfree, ← heq, hj]; exact List.mem_cons_self)
      refine ⟨hw, ?_⟩
      show link' = Function.update m.next i link (C.index w')
      rw [Function.update_of_ne hne]
      exact hlink
    | linked i' w' =>
      rw [hl] at hsound
      have hne : i' ≠ i := fun heq => hhands t' ht' (by rw [hl, heq]; rfl)
      show Function.update m.next i link i' = C.index w'
      rw [Function.update_of_ne hne]
      exact hsound
    | idle | took i' | offering i' w' | gave => trivial

/-- **A push writes the link of its own node**, which no other thread has. -/
theorem link (h : Inv C cap m free) {i : ℕ} {w : W} (hoffering : m.threads t = .offering i w) :
    Inv C cap ({ m with next := Function.update m.next i (C.index w) }.move t (.linked i w))
      free := by
  have hhand : (m.threads t).hand = some i := by rw [hoffering]; rfl
  have hown : Function.update m.next i (C.index w) i = C.index w := Function.update_self ..
  exact h.write (h.placed.of_hand hhand).2.1 (fun t' ht' h' => ht' (h.placed.apart h' hhand)) hown
    hhand

/-- **Whoever holds a node** writes its link, which is not in any hand. -/
theorem assign (h : Inv C cap m free) {i link : ℕ} (hidle : m.threads t = .idle)
    (hi : i ∈ m.held) :
    Inv C cap ({ m with next := Function.update m.next i link }.move t .idle) free :=
  h.write (h.placed.of_held i hi).2 (fun _ _ h' => (h.placed.of_hand h').2.2 hi) trivial
    (by rw [hidle])

/-- **Every operation keeps it**, with what it makes of the stack. -/
theorem step [DecidableEq W] (h : Inv C cap m free) (htime : m.Timely C t) {c : Choice}
    (hstep : m.step C t c = some m') : ∃ free', Inv C cap m' free' := by
  cases Machine.move_of_step hstep with
  | look hl =>
    have hwas : (m.threads t).hand = none := by
      rcases hl with hl | ⟨w, link, seen, hl⟩ <;>
        · rw [hl]
          rfl
    refine ⟨free, ?_⟩
    rw [Machine.popFrom]
    split
    · exact h.look trivial hwas rfl
    · next hnull => exact h.look ⟨le_rfl, h.tag, hnull, fun _ => rfl⟩ hwas rfl
  | read hl =>
    have hsound := h.sound t
    rw [hl] at hsound
    obtain ⟨hle, htag, hnull, hfresh⟩ := hsound
    exact ⟨free, h.look ⟨hle, htag, hnull, fun hseen => ⟨hfresh hseen, rfl⟩⟩ (by rw [hl]; rfl) rfl⟩
  | take hl hhead =>
    obtain ⟨free', -, hinv⟩ := h.take hl htime hhead
    exact ⟨free', hinv⟩
  | count hl => exact ⟨free, h.still trivial (h.placed.keep (by rw [hl]; rfl))⟩
  | offer hl hi => exact ⟨free, h.still trivial (h.placed.offer (by rw [hl]; rfl) hi)⟩
  | assign hl hi => exact ⟨free, h.assign hl hi⟩
  | link hl => exact ⟨free, h.link hl⟩
  | give hl hhead => exact ⟨_, h.give hl hhead⟩
  | again hl => exact ⟨free, h.still trivial (h.placed.same (by rw [hl]; rfl))⟩
  | uncount hl => exact ⟨free, h.still trivial (h.placed.same (by rw [hl]; rfl))⟩

end Step

end Inv

/-! ### The counter

The counter is written after the swap. In between it is off by the nodes of the threads that have
swapped and not counted. -/

section Count

variable [DecidableEq T] [Fintype T] {C : Coding W} {cap : ℕ} {m m' : Machine W T}
  {free : List ℕ} {t : T}

/-- **What the counter counts**: the nodes that are held, and those that are being given back. -/
def Counted (m : Machine W T) : Prop :=
  m.count = .ofNat (m.held.card + ∑ t, (m.threads t).counted)

/-- A thread moves. -/
theorem sum_counted_move (threads : T → Local W) (t : T) (l : Local W) :
    ∑ t', (Function.update threads t l t').counted + (threads t).counted =
      ∑ t', (threads t').counted + l.counted := by
  have hrest : ∑ t' ∈ Finset.univ.erase t, (Function.update threads t l t').counted =
      ∑ t' ∈ Finset.univ.erase t, (threads t').counted := by
    refine Finset.sum_congr rfl fun t' ht' => ?_
    rw [Function.update_of_ne (Finset.ne_of_mem_erase ht')]
  rw [← Finset.add_sum_erase _ _ (Finset.mem_univ t), hrest, Function.update_self,
    ← Finset.add_sum_erase _ (fun t' => (threads t').counted) (Finset.mem_univ t)]
  omega

/-- The counter after a thread has moved, by what else changed. -/
theorem counted_of_move {l : Local W} {n : ℕ} (hthreads : m'.threads =
      Function.update m.threads t l) (hcount : m'.count = .ofNat n)
    (hn : n + (m.threads t).counted + m.held.card =
      m.held.card + ∑ t, (m.threads t).counted + l.counted + m'.held.card) : Counted m' := by
  have hsum := sum_counted_move m.threads t l
  rw [Counted, hcount, hthreads]
  congr 1
  omega

/-- **Every operation keeps it.** -/
theorem Counted.step [DecidableEq W] (h : Counted m) (hinv : Inv C cap m free) {c : Choice}
    (hstep : m.step C t c = some m') : Counted m' := by
  cases Machine.move_of_step hstep with
  | look hl =>
    have hwas : (m.threads t).counted = 0 := by
      rcases hl with hl | ⟨w, link, seen, hl⟩ <;>
        · rw [hl]
          rfl
    have his : (m.popFrom C).counted = 0 := by
      rw [Machine.popFrom]
      split <;> rfl
    refine counted_of_move (m := m) rfl h ?_
    show _ + _ + m.held.card = _ + m.held.card
    omega
  | read hl =>
    refine counted_of_move (m := m) rfl h ?_
    rw [hl]
    rfl
  | take hl hhead =>
    refine counted_of_move (m := m) rfl h ?_
    rw [hl]
    rfl
  | @count i hl =>
    have hnot : i ∉ m.held := (hinv.placed.of_hand (t := t) (by rw [hl]; rfl)).2.2
    refine counted_of_move (m := m) rfl (n := m.held.card + ∑ t, (m.threads t).counted + 1) ?_ ?_
    · show m.count + 1 = _
      rw [h, ← UInt64.ofNat_one, ← UInt64.ofNat_add]
    · show _ + _ + m.held.card = _ + 0 + (insert i m.held).card
      rw [hl, Finset.card_insert_of_notMem hnot]
      show _ + 0 + _ = _
      omega
  | @offer i hl hi =>
    refine counted_of_move (m := m) rfl h ?_
    show _ + _ + m.held.card = _ + 1 + (m.held.erase i).card
    rw [hl, Finset.card_erase_of_mem hi]
    have hpos := Finset.card_pos.mpr ⟨i, hi⟩
    show _ + 0 + _ = _
    omega
  | assign hl hi =>
    refine counted_of_move (m := m) rfl h ?_
    rw [hl]
    rfl
  | link hl =>
    refine counted_of_move (m := m) rfl h ?_
    rw [hl]
    rfl
  | give hl hhead =>
    refine counted_of_move (m := m) rfl h ?_
    rw [hl]
    rfl
  | again hl =>
    refine counted_of_move (m := m) rfl h ?_
    rw [hl]
    rfl
  | uncount hl =>
    have hpos : 1 ≤ ∑ t, (m.threads t).counted := by
      have hone : (m.threads t).counted = 1 := by rw [hl]; rfl
      rw [← hone]
      exact Finset.single_le_sum (fun t _ => Nat.zero_le (m.threads t).counted) (Finset.mem_univ t)
    refine counted_of_move (m := m) rfl (n := m.held.card + ∑ t, (m.threads t).counted - 1) ?_ ?_
    · show m.count - 1 = _
      rw [h, UInt64.ofNat_sub (by omega)]
      rfl
    · show _ + _ + m.held.card = _ + 0 + m.held.card
      rw [hl]
      show _ + 1 + _ = _
      omega

omit [DecidableEq T] in
/-- **When no thread is at work**, the counter counts the nodes that are held. -/
theorem Counted.quiet (h : Counted m) (hidle : ∀ t, m.threads t = .idle) :
    m.count = .ofNat m.held.card := by
  have hzero : ∑ t, (m.threads t).counted = 0 :=
    Finset.sum_eq_zero fun t _ => by rw [hidle]; rfl
  rw [h, hzero, Nat.add_zero]

end Count

/-! ### Runs -/

section Runs

variable [DecidableEq W] [DecidableEq T] {C : Coding W} {cap : ℕ} {m₀ m : Machine W T}
  {free : List ℕ}

/-- **Every state that is reached** is that of a stack. -/
theorem Machine.Reached.inv (h : Machine.Reached C m₀ m) (h₀ : Inv C cap m₀ free) :
    ∃ free', Inv C cap m free' := by
  induction h with
  | start => exact ⟨free, h₀⟩
  | step t c _ htime hstep ih =>
    obtain ⟨free', hinv⟩ := ih
    exact hinv.step htime hstep

/-- The counter is right in every one of them. -/
theorem Machine.Reached.counted [Fintype T] (h : Machine.Reached C m₀ m) (h₀ : Inv C cap m₀ free)
    (hcount : Counted m₀) : Counted m := by
  induction h with
  | start => exact hcount
  | step t c hreach htime hstep ih =>
    obtain ⟨free', hinv⟩ := hreach.inv h₀
    exact ih.step hinv hstep

/-- Threads that take turns as given, if every one is in time. -/
def Machine.run (C : Coding W) (m : Machine W T) (turns : List (T × Choice)) :
    Option (Machine W T) :=
  turns.foldlM (fun m turn => if m.Timely C turn.1 then m.step C turn.1 turn.2 else none) m

theorem Machine.Reached.run {turns : List (T × Choice)} {m' : Machine W T}
    (h : Machine.Reached C m₀ m) (hrun : m.run C turns = some m') : Machine.Reached C m₀ m' := by
  induction turns generalizing m with
  | nil => exact Option.some.inj hrun ▸ h
  | cons turn turns ih =>
    rw [Machine.run, List.foldlM_cons] at hrun
    obtain ⟨m₁, hstep, hrun⟩ := Option.bind_eq_some_iff.mp hrun
    split at hstep
    · next htime => exact ih (h.step turn.1 turn.2 htime hstep) hrun
    · exact absurd hstep (by simp)

end Runs

end TaggedStack
