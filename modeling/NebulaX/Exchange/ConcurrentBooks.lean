import NebulaX.Exchange.MatchingEngine
import NebulaX.Lib.TaggedStack

/-!
# The first use of a book

`book_for` of `src/exchange/matching_engine.cpp` with many threads. The slot of a locate in `books_`
is null until the book is used first. A thread that finds null makes a book and swaps it in, if the
slot is still null. If another thread was faster, it deletes its own book and takes the other one.

A book is a number here, in the order in which they are made. Threads perform one atomic operation
at a time.

## Main results

* `Shelf.Inv.step` — what every operation keeps
* `bookFor_agrees` — all threads get the same book, and no other book is left over
-/

namespace NebulaX.Exchange.ConcurrentBooks

open MatchingEngine (kMaxLocate)
open TaggedStack (Apart update_eq_some)

/-- Where a thread stands in `book_for`. -/
inductive Call
  | idle
  /-- It has loaded null. -/
  | missed (locate : ℕ)
  /-- It has made a book. -/
  | made (locate book : ℕ)
  /-- Its swap has failed. -/
  | late (locate book : ℕ)
  /-- It has deleted its book. -/
  | again (locate : ℕ)
  /-- It has returned. -/
  | returned (locate : ℕ) (book : Option ℕ)
deriving DecidableEq

/-- The book that a thread has made and not given away. -/
def Call.hand : Call → Option ℕ
  | .made _ book | .late _ book => some book
  | .idle | .missed _ | .again _ | .returned .. => none

/-- What a thread does next. -/
inductive Choice
  /-- It calls `book_for(locate)`. -/
  | call (locate : ℕ)
  /-- It goes on. -/
  | go
deriving DecidableEq

/-- The slots, the books and the threads. -/
structure Shelf (T : Type) where
  /-- `books_`. -/
  books : ℕ → Option ℕ := fun _ => none
  /-- How many books were made. -/
  made : ℕ := 0
  /-- The books that were deleted. -/
  deleted : Finset ℕ := ∅
  /-- Where the threads stand. -/
  threads : T → Call := fun _ => .idle

namespace Shelf

variable {T : Type} [DecidableEq T]

/-- A thread moves. -/
def move (s : Shelf T) (t : T) (c : Call) : Shelf T :=
  { s with threads := Function.update s.threads t c }

/-- The first load of `book_for`. -/
def load (s : Shelf T) (locate : ℕ) : Call :=
  if kMaxLocate ≤ locate then .returned locate none
  else match s.books locate with
    | some book => .returned locate (some book)
    | none => .missed locate

/-- One operation of a thread in `book_for`. -/
def step (s : Shelf T) (t : T) (c : Choice) : Option (Shelf T) :=
  match s.threads t, c with
  | .idle, .call locate => some (s.move t (s.load locate))
  | .missed locate, .go => some ({ s with made := s.made + 1 }.move t (.made locate s.made))
  | .made locate book, .go =>
    if s.books locate = none then
      some ({ s with books := Function.update s.books locate (some book) }.move t
        (.returned locate (some book)))
    else some (s.move t (.late locate book))
  | .late locate book, .go =>
    some ({ s with deleted := insert book s.deleted }.move t (.again locate))
  | .again locate, .go => some (s.move t (.returned locate (s.books locate)))
  | .returned .., .go => some (s.move t .idle)
  | _, _ => none

/-- **The states that threads get into**, in any order. -/
inductive Reached : Shelf T → Prop
  | start : Reached {}
  | step {s s' : Shelf T} (t : T) (c : Choice) (h : Reached s) (hstep : s.step t c = some s') :
      Reached s'

/-- What a thread can rely on. -/
def Sound (s : Shelf T) : Call → Prop
  | .missed locate | .made locate _ => locate < kMaxLocate
  | .late locate _ | .again locate => locate < kMaxLocate ∧ s.books locate ≠ none
  | .returned locate book =>
    if locate < kMaxLocate then s.books locate = book ∧ book ≠ none else book = none
  | .idle => True

/-- **Every book is in one place**: in a slot, in the hand of a thread, or deleted. -/
structure Inv (s : Shelf T) : Prop where
  /-- A book in a slot is in no other place. -/
  shelved : ∀ {l b}, s.books l = some b →
    b < s.made ∧ b ∉ s.deleted ∧ (∀ t, (s.threads t).hand ≠ some b) ∧
      ∀ l', s.books l' = some b → l' = l
  /-- A book in a hand has been made and not deleted. -/
  hand : ∀ {t b}, (s.threads t).hand = some b → b < s.made ∧ b ∉ s.deleted
  /-- It is in no other hand. -/
  apart : Apart fun t => (s.threads t).hand
  /-- A deleted book has been made. -/
  deleted : ∀ b ∈ s.deleted, b < s.made
  /-- There are no other places. -/
  cover : ∀ b < s.made, (∃ l, s.books l = some b) ∨ (∃ t, (s.threads t).hand = some b) ∨
    b ∈ s.deleted
  /-- The threads can rely on what they have seen. -/
  sound : ∀ t, s.Sound (s.threads t)

namespace Inv

variable {s s' : Shelf T} {t : T}

/-- The hands after a thread has moved. -/
theorem hands_move (s : Shelf T) (t : T) (c : Call) :
    (fun t' => ((s.move t c).threads t').hand) =
      Function.update (fun t' => (s.threads t').hand) t c.hand := by
  funext t'
  show (Function.update s.threads t c t').hand = _
  by_cases ht : t' = t
  · rw [ht, Function.update_self, Function.update_self]
  · rw [Function.update_of_ne ht, Function.update_of_ne ht]

omit [DecidableEq T] in
/-- A slot that is filled stays as it is, and threads can rely on that. -/
theorem sound_mono (hbooks : ∀ l, s.books l ≠ none → s'.books l = s.books l) {c : Call}
    (h : s.Sound c) : s'.Sound c := by
  cases c with
  | late l b | again l =>
    obtain ⟨hl, hne⟩ := h
    exact ⟨hl, by rw [hbooks l hne]; exact hne⟩
  | returned l b =>
    rw [Sound] at h ⊢
    split
    · next hl =>
      rw [if_pos hl] at h
      exact ⟨(hbooks l (by rw [h.1]; exact h.2)).trans h.1, h.2⟩
    · next hl =>
      rw [if_neg hl] at h
      exact h
  | missed l | made l b => exact h
  | idle => trivial

/-- The threads after one has moved. -/
theorem sound_move (h : Inv s) (hbooks : ∀ l, s.books l ≠ none → s'.books l = s.books l)
    {c : Call} (hc : s'.Sound c) (hthreads : s'.threads = Function.update s.threads t c) (t' : T) :
    s'.Sound (s'.threads t') := by
  rw [hthreads]
  by_cases ht : t' = t
  · rw [ht, Function.update_self]
    exact hc
  · rw [Function.update_of_ne ht]
    exact sound_mono hbooks (h.sound t')

/-- A thread moves and keeps the book that it has. -/
theorem still (h : Inv s) {c : Call} (hc : s.Sound c) (hhand : c.hand = (s.threads t).hand) :
    Inv (s.move t c) := by
  have hsame : (fun t' => ((s.move t c).threads t').hand) = fun t' => (s.threads t').hand := by
    rw [hands_move, hhand]
    exact Function.update_eq_self t _
  have hone : ∀ t', ((s.move t c).threads t').hand = (s.threads t').hand := congrFun hsame
  refine ⟨?_, ?_, ?_, h.deleted, ?_, h.sound_move (fun _ _ => rfl) hc rfl⟩
  · intro l b hb
    obtain ⟨hlt, hnot, hhands, huniq⟩ := h.shelved hb
    refine ⟨hlt, hnot, fun t' => ?_, huniq⟩
    rw [hone]
    exact hhands t'
  · intro t' b hb
    exact h.hand ((hone t').symm.trans hb)
  · rw [hsame]
    exact h.apart
  · intro b hb
    rcases h.cover b hb with hl | ⟨t', ht'⟩ | hd
    · exact Or.inl hl
    · exact Or.inr (Or.inl ⟨t', (hone t').trans ht'⟩)
    · exact Or.inr (Or.inr hd)

/-- **A thread makes a book.** -/
theorem make (h : Inv s) {l : ℕ} (hl : l < kMaxLocate) (ht : (s.threads t).hand = none) :
    Inv ({ s with made := s.made + 1 }.move t (.made l s.made)) := by
  have hands := hands_move { s with made := s.made + 1 } t (.made l s.made)
  refine ⟨?_, ?_, ?_, ?_, ?_, h.sound_move (fun _ _ => rfl) (c := .made l s.made) hl rfl⟩
  · intro l' b hb
    obtain ⟨hlt, hnot, hhands, huniq⟩ := h.shelved hb
    refine ⟨Nat.lt_succ_of_lt hlt, hnot, fun t' ht' => ?_, huniq⟩
    rcases update_eq_some ((congrFun hands t').symm.trans ht') with ⟨-, heq⟩ | ⟨-, hwas⟩
    · exact absurd hlt (Option.some.inj heq ▸ Nat.lt_irrefl _)
    · exact hhands t' hwas
  · intro t' b hb
    rcases update_eq_some ((congrFun hands t').symm.trans hb) with ⟨-, heq⟩ | ⟨-, hwas⟩
    · obtain rfl := Option.some.inj heq
      exact ⟨Nat.lt_succ_self _, fun hd => absurd (h.deleted _ hd) (Nat.lt_irrefl _)⟩
    · exact ⟨Nat.lt_succ_of_lt (h.hand hwas).1, (h.hand hwas).2⟩
  · rw [hands]
    exact h.apart.get t fun t' ht' => absurd (h.hand ht').1 (Nat.lt_irrefl _)
  · exact fun b hb => Nat.lt_succ_of_lt (h.deleted b hb)
  · intro b hb
    rcases Nat.lt_succ_iff_lt_or_eq.mp hb with hb | rfl
    · rcases h.cover b hb with hl | ⟨t', ht'⟩ | hd
      · exact Or.inl hl
      · have hne : t' ≠ t := fun he => absurd (he ▸ ht') (by simp [ht])
        refine Or.inr (Or.inl ⟨t', (congrFun hands t').trans ?_⟩)
        rw [Function.update_of_ne hne]
        exact ht'
      · exact Or.inr (Or.inr hd)
    · refine Or.inr (Or.inl ⟨t, (congrFun hands t).trans ?_⟩)
      rw [Function.update_self]
      rfl

/-- **A thread swaps its book in.** -/
theorem shelve (h : Inv s) {l b : ℕ} (hl : l < kMaxLocate) (hnull : s.books l = none)
    (ht : (s.threads t).hand = some b) :
    Inv ({ s with books := Function.update s.books l (some b) }.move t
      (.returned l (some b))) := by
  have hands := hands_move { s with books := Function.update s.books l (some b) } t
    (.returned l (some b))
  have hbooks : ∀ l', s.books l' ≠ none →
      Function.update s.books l (some b) l' = s.books l' := by
    intro l' hne
    exact Function.update_of_ne (fun he : l' = l => hne (he ▸ hnull)) _ _
  refine ⟨?_, ?_, ?_, h.deleted, ?_, h.sound_move hbooks ?_ rfl⟩
  · intro l' b' hb
    rcases update_eq_some hb with ⟨rfl, heq⟩ | ⟨-, hwas⟩
    · obtain rfl := Option.some.inj heq
      refine ⟨(h.hand ht).1, (h.hand ht).2, fun t' ht' => ?_, fun l'' hl'' => ?_⟩
      · rcases update_eq_some ((congrFun hands t').symm.trans ht') with ⟨-, heq⟩ | ⟨hne, hwas⟩
        · exact absurd heq (by simp [Call.hand])
        · exact hne (h.apart hwas ht)
      · rcases update_eq_some hl'' with ⟨heq, -⟩ | ⟨-, hwas⟩
        · exact heq
        · exact absurd ht ((h.shelved hwas).2.2.1 t)
    · obtain ⟨hlt, hnot, hhands, huniq⟩ := h.shelved hwas
      refine ⟨hlt, hnot, fun t' ht' => ?_, fun l'' hl'' => ?_⟩
      · rcases update_eq_some ((congrFun hands t').symm.trans ht') with ⟨-, heq⟩ | ⟨-, hwas'⟩
        · exact absurd heq (by simp [Call.hand])
        · exact hhands t' hwas'
      · rcases update_eq_some hl'' with ⟨-, heq⟩ | ⟨-, hwas'⟩
        · exact absurd (Option.some.inj heq ▸ ht) (hhands t)
        · exact huniq l'' hwas'
  · intro t' b' hb
    rcases update_eq_some ((congrFun hands t').symm.trans hb) with ⟨-, heq⟩ | ⟨-, hwas⟩
    · exact absurd heq (by simp [Call.hand])
    · exact h.hand hwas
  · rw [hands]
    exact h.apart.drop t
  · intro b' hb
    rcases h.cover b' hb with ⟨l', hl'⟩ | ⟨t', ht'⟩ | hd
    · exact Or.inl ⟨l', (hbooks l' (by rw [hl']; simp)).trans hl'⟩
    · by_cases hne : t' = t
      · obtain rfl := Option.some.inj (ht'.symm.trans (hne ▸ ht))
        exact Or.inl ⟨l, Function.update_self ..⟩
      · refine Or.inr (Or.inl ⟨t', (congrFun hands t').trans ?_⟩)
        rw [Function.update_of_ne hne]
        exact ht'
    · exact Or.inr (Or.inr hd)
  · show Sound _ (.returned l (some b))
    rw [Sound, if_pos hl]
    exact ⟨Function.update_self .., by simp⟩

/-- **A thread deletes its book.** -/
theorem delete (h : Inv s) {l b : ℕ} (ht : s.threads t = .late l b) :
    Inv ({ s with deleted := insert b s.deleted }.move t (.again l)) := by
  have hhand : (s.threads t).hand = some b := by rw [ht]; rfl
  have hands := hands_move { s with deleted := insert b s.deleted } t (.again l)
  have hsound := h.sound t
  rw [ht] at hsound
  refine ⟨?_, ?_, ?_, ?_, ?_, h.sound_move (fun _ _ => rfl) (c := .again l) hsound rfl⟩
  · intro l' b' hb
    obtain ⟨hlt, hnot, hhands, huniq⟩ := h.shelved hb
    refine ⟨hlt, fun hd => ?_, fun t' ht' => ?_, huniq⟩
    · rcases Finset.mem_insert.mp hd with rfl | hd
      · exact hhands t hhand
      · exact hnot hd
    · rcases update_eq_some ((congrFun hands t').symm.trans ht') with ⟨-, heq⟩ | ⟨-, hwas⟩
      · exact absurd heq (by simp [Call.hand])
      · exact hhands t' hwas
  · intro t' b' hb
    rcases update_eq_some ((congrFun hands t').symm.trans hb) with ⟨-, heq⟩ | ⟨hne, hwas⟩
    · exact absurd heq (by simp [Call.hand])
    · refine ⟨(h.hand hwas).1, fun hd => ?_⟩
      rcases Finset.mem_insert.mp hd with rfl | hd
      · exact hne (h.apart hwas hhand)
      · exact (h.hand hwas).2 hd
  · rw [hands]
    exact h.apart.drop t
  · intro b' hb
    rcases Finset.mem_insert.mp hb with rfl | hb
    · exact (h.hand hhand).1
    · exact h.deleted b' hb
  · intro b' hb
    rcases h.cover b' hb with hl | ⟨t', ht'⟩ | hd
    · exact Or.inl hl
    · by_cases hne : t' = t
      · obtain rfl := Option.some.inj (ht'.symm.trans (hne ▸ hhand))
        exact Or.inr (Or.inr (Finset.mem_insert_self ..))
      · refine Or.inr (Or.inl ⟨t', (congrFun hands t').trans ?_⟩)
        rw [Function.update_of_ne hne]
        exact ht'
    · exact Or.inr (Or.inr (Finset.mem_insert_of_mem hd))

omit [DecidableEq T] in
/-- What the first load finds. -/
theorem sound_load (s : Shelf T) (l : ℕ) : s.Sound (s.load l) ∧ (s.load l).hand = none := by
  rw [load]
  split
  · next hl =>
    refine ⟨?_, rfl⟩
    rw [Sound, if_neg (Nat.not_lt.mpr hl)]
  · next hl =>
    split
    · next b hb =>
      refine ⟨?_, rfl⟩
      rw [Sound, if_pos (Nat.not_le.mp hl)]
      exact ⟨hb, by simp⟩
    · exact ⟨Nat.not_le.mp hl, rfl⟩

/-- **Every operation keeps it.** -/
theorem step (h : Inv s) {c : Choice} (hstep : s.step t c = some s') : Inv s' := by
  have hsound := h.sound t
  unfold Shelf.step at hstep
  split at hstep
  · next l ht =>
    obtain rfl := Option.some.inj hstep
    obtain ⟨hload, hnone⟩ := sound_load s l
    exact h.still hload (hnone.trans (by rw [ht]; rfl))
  · next l ht =>
    obtain rfl := Option.some.inj hstep
    rw [ht] at hsound
    exact h.make hsound (by rw [ht]; rfl)
  · next l b ht =>
    rw [ht] at hsound
    split at hstep
    · next hnull =>
      obtain rfl := Option.some.inj hstep
      exact h.shelve hsound hnull (by rw [ht]; rfl)
    · next hne =>
      obtain rfl := Option.some.inj hstep
      exact h.still (c := .late l b) ⟨hsound, hne⟩ (by rw [ht]; rfl)
  · next l b ht =>
    obtain rfl := Option.some.inj hstep
    exact h.delete ht
  · next l ht =>
    obtain rfl := Option.some.inj hstep
    rw [ht] at hsound
    refine h.still (c := .returned l (s.books l)) ?_ (by rw [ht]; rfl)
    rw [Sound, if_pos hsound.1]
    exact ⟨rfl, hsound.2⟩
  · next l b ht =>
    obtain rfl := Option.some.inj hstep
    exact h.still (c := .idle) trivial (by rw [ht]; rfl)
  · exact absurd hstep (by simp)

end Inv

/-- **Every state that is reached** has every book in one place. -/
theorem Reached.inv {s : Shelf T} (h : Reached s) : Inv s := by
  induction h with
  | start =>
    refine ⟨fun hb => absurd hb (by simp), fun hb => absurd hb (by simp [Call.hand]),
      fun t t' i hi => absurd hi (by simp [Call.hand]), fun b hb => absurd hb (by simp),
      fun b hb => absurd hb (Nat.not_lt_zero b), fun _ => trivial⟩
  | step t c _ hstep ih => exact ih.step hstep

/-- Threads that take turns as given. -/
def run (s : Shelf T) (turns : List (T × Choice)) : Option (Shelf T) :=
  turns.foldlM (fun s turn => s.step turn.1 turn.2) s

theorem Reached.run {s s' : Shelf T} {turns : List (T × Choice)} (h : Reached s)
    (hrun : s.run turns = some s') : Reached s' := by
  induction turns generalizing s with
  | nil => exact Option.some.inj hrun ▸ h
  | cons turn turns ih =>
    rw [Shelf.run, List.foldlM_cons] at hrun
    obtain ⟨s₁, hstep, hrun⟩ := Option.bind_eq_some_iff.mp hrun
    exact ih (h.step turn.1 turn.2 hstep) hrun

end Shelf

/-- **All threads get the same book.** In every state that any number of threads brings the books
to, a call of `book_for` that has returned got the book that is in the slot of its locate now, so
that two calls for one locate got one book and two calls for different locates got different ones;
only a locate out of range got none. No book that was handed out is ever deleted, and a book that
is in no slot is deleted as soon as no thread has it in hand. -/
theorem bookFor_agrees {T : Type} [DecidableEq T] {s : Shelf T} (h : s.Reached) :
    (∀ t l b, s.threads t = .returned l b →
      (b = none ↔ kMaxLocate ≤ l) ∧ ∀ x ∈ b, s.books l = some x ∧ x ∉ s.deleted) ∧
    (∀ t t' l l' b b', s.threads t = .returned l (some b) → s.threads t' = .returned l' (some b') →
      (b = b' ↔ l = l')) ∧
    ((∀ t, (s.threads t).hand = none) →
      ∀ b < s.made, (∃ l, s.books l = some b) ↔ b ∉ s.deleted) := by
  have hinv := h.inv
  have hreturned : ∀ {t l b}, s.threads t = .returned l b →
      (b = none ↔ kMaxLocate ≤ l) ∧ ∀ x ∈ b, s.books l = some x := by
    intro t l b ht
    have hsound := hinv.sound t
    rw [ht, Shelf.Sound] at hsound
    split at hsound
    · next hl =>
      refine ⟨iff_of_false hsound.2 (Nat.not_le.mpr hl), fun x hx => ?_⟩
      exact hsound.1.trans hx
    · next hl =>
      refine ⟨iff_of_true hsound (Nat.not_lt.mp hl), fun x hx => ?_⟩
      exact absurd (hsound.symm.trans hx) (by simp)
  refine ⟨?_, ?_, ?_⟩
  · intro t l b ht
    obtain ⟨hnone, hbook⟩ := hreturned ht
    exact ⟨hnone, fun x hx => ⟨hbook x hx, (hinv.shelved (hbook x hx)).2.1⟩⟩
  · intro t t' l l' b b' ht ht'
    have hb := (hreturned ht).2 b rfl
    have hb' := (hreturned ht').2 b' rfl
    constructor
    · rintro rfl
      exact (hinv.shelved hb').2.2.2 l hb
    · rintro rfl
      exact Option.some.inj (hb.symm.trans hb')
  · intro hempty b hb
    constructor
    · rintro ⟨l, hl⟩
      exact (hinv.shelved hl).2.1
    · intro hnot
      rcases hinv.cover b hb with hl | ⟨t, ht⟩ | hd
      · exact hl
      · exact absurd ht (by rw [hempty]; simp)
      · exact absurd hd hnot

/-- Two threads that use locate 7 for the first time at once. -/
theorem bookFor_agrees_two : ∃ s : Shelf Bool,
    ({} : Shelf Bool).run [(false, .call 7), (true, .call 7), (false, .go), (true, .go),
      (true, .go), (false, .go), (false, .go), (false, .go)] = some s ∧
      s.threads false = .returned 7 (some 1) ∧ s.threads true = .returned 7 (some 1) ∧
      s.books 7 = some 1 ∧ 1 ∉ s.deleted ∧ ¬ (∃ l, s.books l = some 0) := by
  have hread : (({} : Shelf Bool).run [(false, .call 7), (true, .call 7), (false, .go), (true, .go),
      (true, .go), (false, .go), (false, .go), (false, .go)]).map (fun s =>
      (s.threads false, s.threads true, s.made, decide (s.deleted = {0}))) =
      some (.returned 7 (some 1), .returned 7 (some 1), 2, true) := by decide +kernel
  obtain ⟨s, hrun, heq⟩ := Option.map_eq_some_iff.mp hread
  obtain ⟨hfalse, heq⟩ := Prod.mk.inj heq
  obtain ⟨htrue, heq⟩ := Prod.mk.inj heq
  obtain ⟨hmade, hdeleted⟩ := Prod.mk.inj heq
  have hdeleted := of_decide_eq_true hdeleted
  obtain ⟨hgot, -, hleft⟩ := bookFor_agrees (Shelf.Reached.start.run hrun)
  obtain ⟨hbook, hkept⟩ := (hgot false 7 (some 1) hfalse).2 1 rfl
  have hempty : ∀ t, (s.threads t).hand = none := by
    intro t
    cases t with
    | false => rw [hfalse]; rfl
    | true => rw [htrue]; rfl
  refine ⟨s, hrun, hfalse, htrue, hbook, hkept, fun hl => ?_⟩
  exact (hleft hempty 0 (by rw [hmade]; decide)).mp hl (by rw [hdeleted]; decide)

end NebulaX.Exchange.ConcurrentBooks
