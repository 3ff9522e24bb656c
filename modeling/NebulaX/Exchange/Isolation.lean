import NebulaX.Exchange.Calls
import NebulaX.Exchange.EngineRuns

/-!
# Calls under the wrong locate

`processCancel`, `processCancelShares` and `processReplace` look a reference up in the index that
all books share, compare the user, and then act in the book that the call names. Nothing compares
the two books. So a call that names the wrong locate is turned away exactly when a call that names
the right one would be (`isolated_iff`), and otherwise it answers as if it had acted, whatever it
did.

None of this needs an invariant: the results hold of every engine state.

## Main results

* `isolated_iff` — when the three calls answer that there is no such order and change nothing
* `wrong_locate_acts` — a cancel under the wrong locate that frees a slot its level still lists
-/

namespace NebulaX.Exchange

open MatchingEngine

/-- The call answered that there is no such order, and left the books, the pool and the index
alone. -/
def Untouched (e : MatchingEngine) (result : Option (List BinaryResponse × MatchingEngine)) :
    Prop :=
  ∃ e', result = some ([.error .orderNotFound], e') ∧ e'.books = e.books ∧ e'.shared = e.shared

section Calls

variable {e : MatchingEngine} {L ref user : ℕ}

/-- A call that is not turned away found an order of the user, or its lookup does not return. -/
theorem not_turnedAway (h : ¬ TurnedAway e L ref user) : L < kMaxLocate ∧
    (e.findOrder ref = none ∨
      ∃ i, e.findOrder ref = some (some i) ∧ (e.shared.pool.storage i).userId = user) := by
  rw [TurnedAway, not_or, not_or, Nat.not_le] at h
  obtain ⟨hL, hnone, huser⟩ := h
  refine ⟨hL, ?_⟩
  cases hf : e.findOrder ref with
  | none => exact Or.inl rfl
  | some found =>
    cases found with
    | none => exact absurd hf hnone
    | some i =>
      refine Or.inr ⟨i, rfl, ?_⟩
      by_contra hne
      exact huser ⟨i, hf, hne⟩

theorem untouched_of_eq {e' : MatchingEngine} (hb : e'.books = e.books)
    (hs : e'.shared = e.shared) : Untouched e (some ([.error .orderNotFound], e')) :=
  ⟨e', rfl, hb, hs⟩

/-- A call that goes on with what the index finds. -/
theorem untouched_lookup (h : TurnedAway e L ref user) (hL : L < kMaxLocate)
    {found : Option ℕ → Option (List BinaryResponse × MatchingEngine)} {e' : MatchingEngine}
    (hnone : found none = some ([.error .orderNotFound], e'))
    (hb : e'.books = e.books) (hs : e'.shared = e.shared)
    (hother : ∀ i, (e.shared.pool.storage i).userId ≠ user →
      found (some i) = some ([.error .orderNotFound], e')) :
    Untouched e ((e.findOrder ref).bind found) := by
  rcases h with hle | hf | ⟨i, hf, hne⟩
  · exact absurd hL (Nat.not_lt.mpr hle)
  · rw [hf, Option.bind_some, hnone]
    exact untouched_of_eq hb hs
  · rw [hf, Option.bind_some, hother i hne]
    exact untouched_of_eq hb hs

/-- An answer with other frames is not that answer. -/
theorem not_untouched {result : Option (List BinaryResponse × MatchingEngine)}
    (h : ∀ r, result = some r → r.1 ≠ [.error .orderNotFound]) : ¬ Untouched e result :=
  fun ⟨_, he, _, _⟩ => h _ he rfl

/-! ### `processCancel` -/

theorem processCancel_untouched (h : TurnedAway e L ref user) :
    Untouched e (e.processCancel L ref user) := by
  rw [processCancel, bookFor]
  by_cases hL : L < kMaxLocate
  swap
  · rw [if_neg hL]
    exact untouched_of_eq rfl rfl
  rw [if_pos hL]
  generalize hent : ({ type := 0x02, locate := UInt16.ofNat L, userId := user, orderId := ref
                       walSeq := e.nextSequence } : WalEntry) = entry
  have hkeep : (e.books L).removeOrderOf (e.logWal entry).shared ref user =
      some (false, e.books L, e.shared) := by
    rw [OrderBook.removeOrderOf]
    rcases h with hle | hnone | ⟨i, hf, hne⟩
    · exact absurd hL (Nat.not_lt.mpr hle)
    · exact congrArg (Option.bind · _) hnone
    · refine (congrArg (Option.bind · _) hf).trans ?_
      exact if_pos hne
  simp only [hkeep, Option.map_some]
  exact untouched_of_eq (Function.update_eq_self ..) rfl

/-- A cancel that is not turned away takes the order off. -/
theorem processCancel_cancelled (h : ¬ TurnedAway e L ref user)
    {r : List BinaryResponse × MatchingEngine} (hr : e.processCancel L ref user = some r) :
    r.1 = [.cancelled ref] := by
  rcases processCancel_cases hr with ⟨haway, -⟩ | ⟨i, entry, -, -, -, -, hrsp⟩
  · exact absurd haway h
  · exact hrsp

theorem processCancel_touched (h : ¬ TurnedAway e L ref user) :
    ¬ Untouched e (e.processCancel L ref user) :=
  not_untouched fun _ hr => by simp [processCancel_cancelled h hr]

/-! ### `processCancelShares` -/

theorem processCancelShares_untouched (h : TurnedAway e L ref user) (shares : UInt32) :
    Untouched e (e.processCancelShares L ref shares user) := by
  rw [processCancelShares, bookFor]
  by_cases hL : L < kMaxLocate
  swap
  · rw [if_neg hL]
    exact untouched_of_eq rfl rfl
  rw [if_pos hL]
  exact untouched_lookup h hL rfl rfl rfl fun i hne => if_pos hne

/-- A partial cancel that is not turned away answers about the order it found. -/
theorem processCancelShares_answers (h : ¬ TurnedAway e L ref user) {shares : UInt32}
    {r : List BinaryResponse × MatchingEngine}
    (hr : e.processCancelShares L ref shares user = some r) :
    r.1 = [.cancelled ref] ∨ r.1 = [.ok ref] := by
  rcases processCancelShares_cases hr with ⟨haway, -⟩ |
    ⟨i, entry, -, -, -, ⟨-, -, hrsp⟩ | ⟨-, -, hrsp⟩⟩
  · exact absurd haway h
  · exact Or.inl hrsp
  · exact Or.inr hrsp

theorem processCancelShares_touched (h : ¬ TurnedAway e L ref user) (shares : UInt32) :
    ¬ Untouched e (e.processCancelShares L ref shares user) := by
  refine not_untouched fun r hr => ?_
  rcases processCancelShares_answers h hr with heq | heq
  · simp [heq]
  · simp [heq]

/-! ### `processReplace` -/

/-- An iteration of the matching loop adds the frame of a trade. -/
theorem tradeWith_out {buy : Bool} {s s' : Matching} {i : ℕ} (h : tradeWith L buy s i = some s') :
    ∃ f, f.isTrade = true ∧ s'.out = s.out ++ [f] := by
  rw [tradeWith] at h
  obtain ⟨e', -, rfl⟩ := Option.map_eq_some_iff.mp h
  exact ⟨_, rfl, rfl⟩

/-- The matching loop adds nothing else. -/
theorem matchLoop_out {buy : Bool} {fuel : ℕ} {s s' : Matching}
    (h : matchLoop L buy fuel s = some s') :
    ∃ fs, (∀ f ∈ fs, f.isTrade = true) ∧ s'.out = s.out ++ fs := by
  refine matchLoop_keeps (I := fun t => ∃ fs, (∀ f ∈ fs, f.isTrade = true) ∧ t.out = s.out ++ fs)
    ?_ ⟨[], by simp, (List.append_nil _).symm⟩ h
  rintro t i t' ⟨fs, hfs, hout⟩ htrade
  obtain ⟨f, hf, hout'⟩ := tradeWith_out htrade
  refine ⟨fs ++ [f], fun g hg => ?_, by rw [hout', hout, List.append_assoc]⟩
  rcases List.mem_append.mp hg with hg | hg
  · exact hfs g hg
  · exact List.mem_singleton.mp hg ▸ hf

/-- What `processReplace` answers about an order it found. -/
theorem finishReplace_frames {s : Matching} {r : List BinaryResponse × MatchingEngine}
    (hs : ∀ f ∈ s.out, f.isTrade = true) (h : finishReplace L s = some r) :
    r.1 ≠ [.error .orderNotFound] := by
  have hnot : .error .orderNotFound ∉ s.out := fun hm => absurd (hs _ hm) (by decide)
  intro he
  have hmem : .error .orderNotFound ∈ r.1 := he ▸ List.mem_singleton_self _
  rw [finishReplace] at h
  split at h
  · rw [restOrder] at h
    obtain ⟨⟨ok, e'⟩, -, rfl⟩ := Option.map_eq_some_iff.mp h
    rcases List.mem_append.mp hmem with hmem | hmem
    · exact hnot hmem
    · cases ok <;> simp at hmem
  split at h
  · obtain rfl := Option.some.inj h
    rcases List.mem_append.mp hmem with hmem | hmem
    · exact hnot hmem
    · simp at hmem
  · obtain rfl := Option.some.inj h
    exact hnot hmem

theorem processReplace_untouched (h : TurnedAway e L ref user) (newRef : ℕ) (side : Side)
    (price quantity : UInt32) :
    Untouched e (e.processReplace L ref newRef side price quantity user) := by
  rw [processReplace, bookFor]
  by_cases hL : L < kMaxLocate
  swap
  · rw [if_neg hL]
    exact untouched_of_eq rfl rfl
  rw [if_pos hL]
  exact untouched_lookup h hL rfl rfl rfl fun i hne => if_pos hne

/-- A replace that is not turned away does not answer that there is no such order. -/
theorem processReplace_answers (h : ¬ TurnedAway e L ref user) {newRef : ℕ} {side : Side}
    {price quantity : UInt32} {r : List BinaryResponse × MatchingEngine}
    (hr : e.processReplace L ref newRef side price quantity user = some r) :
    r.1 ≠ [.error .orderNotFound] := by
  rcases processReplace_cases hr with ⟨haway, -⟩ | ⟨i, entry, e₁, s, -, -, -, -, hs, hfin⟩
  · exact absurd haway h
  · obtain ⟨fs, hfs, hout⟩ := matchLoop_out hs
    have hout : s.out = fs := hout
    exact finishReplace_frames (hout ▸ hfs) hfin

theorem processReplace_touched (h : ¬ TurnedAway e L ref user) (newRef : ℕ) (side : Side)
    (price quantity : UInt32) :
    ¬ Untouched e (e.processReplace L ref newRef side price quantity user) :=
  not_untouched fun _ hr => processReplace_answers h hr

end Calls

/-! ### All three -/

/-- **When a call leaves the books alone.** A cancel, partial cancel or replace answers that there
is no such order, and changes no book, slot or index entry, exactly if its locate is out of range,
the index does not find the reference, or the order found has another user. Where that order rests
does not matter. -/
theorem isolated_iff (e : MatchingEngine) (L ref user : ℕ) :
    (Untouched e (e.processCancel L ref user) ↔ TurnedAway e L ref user) ∧
    (∀ shares, Untouched e (e.processCancelShares L ref shares user) ↔
      TurnedAway e L ref user) ∧
    ∀ newRef side price quantity,
      Untouched e (e.processReplace L ref newRef side price quantity user) ↔
        TurnedAway e L ref user := by
  refine ⟨⟨fun h => ?_, processCancel_untouched⟩,
    fun shares => ⟨fun h => ?_, fun h => processCancelShares_untouched h shares⟩,
    fun newRef side price quantity =>
      ⟨fun h => ?_, fun h => processReplace_untouched h newRef side price quantity⟩⟩
  · exact not_not.mp fun hn => processCancel_touched hn h
  · exact not_not.mp fun hn => processCancelShares_touched hn shares h
  · exact not_not.mp fun hn => processReplace_touched hn newRef side price quantity h

/-- Order 1 rests under locate 0. A cancel under locate 1 is not turned away: it answers that the
order is cancelled. If locate 1 has no level at its price, the order goes on resting; if it has one,
the slot is given back and the entry erased while the level of locate 0 still lists the order. -/
theorem wrong_locate_acts :
    (∃ e e', (new 4).execAll [.add 0 1 .sell 100 5 7 .day] = some e ∧ Reachable e ∧
      ¬ Untouched e (e.processCancel 1 1 7) ∧ e.processCancel 1 1 7 = some ([.cancelled 1], e') ∧
      (e.resting 0 false).map OrderData.orderId = [1] ∧
      (e'.resting 0 false).map OrderData.orderId = [1]) ∧
    ∃ e e', (new 4).execAll [.add 0 1 .sell 100 5 7 .day, .add 1 2 .sell 100 6 8 .day] = some e ∧
      Reachable e ∧ ¬ Untouched e (e.processCancel 1 1 7) ∧
      e.processCancel 1 1 7 = some ([.cancelled 1], e') ∧
      (e.resting 0 false).map OrderData.orderId = [1] ∧
      (e'.resting 0 false).map OrderData.orderId = [1] ∧ e'.findOrder 1 = some none ∧
      e'.shared.pool.freeSlots = [0, 2, 3] := by
  constructor
  · obtain ⟨e, hrun, he⟩ := reachable_execAll 4 [.add 0 1 .sell 100 5 7 .day] (by decide)
      (by decide) (by decide +kernel)
    have hread : (((new 4).execAll [.add 0 1 .sell 100 5 7 .day]).bind fun e =>
        (e.processCancel 1 1 7).map fun r => (r.1, (e.resting 0 false).map OrderData.orderId,
          (r.2.resting 0 false).map OrderData.orderId)) = some ([.cancelled 1], [1], [1]) := by
      decide +kernel
    rw [hrun, Option.bind_some] at hread
    obtain ⟨⟨rsp, e'⟩, hcall, heq⟩ := Option.map_eq_some_iff.mp hread
    obtain ⟨rfl, heq⟩ := Prod.mk.inj heq
    obtain ⟨hbefore, hafter⟩ := Prod.mk.inj heq
    refine ⟨e, e', hrun, he, not_untouched fun r hr => ?_, hcall, hbefore, hafter⟩
    obtain rfl := Option.some.inj (hcall.symm.trans hr)
    simp
  · obtain ⟨e, hrun, he⟩ := reachable_execAll 4
      [.add 0 1 .sell 100 5 7 .day, .add 1 2 .sell 100 6 8 .day] (by decide) (by decide)
      (by decide +kernel)
    have hread : (((new 4).execAll [.add 0 1 .sell 100 5 7 .day, .add 1 2 .sell 100 6 8 .day]).bind
        fun e => (e.processCancel 1 1 7).map fun r => (r.1,
          (e.resting 0 false).map OrderData.orderId,
          (r.2.resting 0 false).map OrderData.orderId)) = some ([.cancelled 1], [1], [1]) := by
      decide +kernel
    have hfree : (((new 4).execAll [.add 0 1 .sell 100 5 7 .day, .add 1 2 .sell 100 6 8 .day]).bind
        fun e => (e.processCancel 1 1 7).map fun r => (r.2.findOrder 1,
          r.2.shared.pool.freeSlots)) = some (some none, [0, 2, 3]) := by decide +kernel
    rw [hrun, Option.bind_some] at hread
    obtain ⟨⟨rsp, e'⟩, hcall, heq⟩ := Option.map_eq_some_iff.mp hread
    obtain ⟨rfl, heq⟩ := Prod.mk.inj heq
    obtain ⟨hbefore, hafter⟩ := Prod.mk.inj heq
    rw [hrun, Option.bind_some, hcall] at hfree
    obtain ⟨hfind, hfree⟩ := Prod.mk.inj (Option.some.inj hfree)
    refine ⟨e, e', hrun, he, not_untouched fun r hr => ?_, hcall, hbefore, hafter, hfind, hfree⟩
    obtain rfl := Option.some.inj (hcall.symm.trans hr)
    simp

end NebulaX.Exchange
