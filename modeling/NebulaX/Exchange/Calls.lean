import NebulaX.Exchange.MatchingEngine

/-!
# What the calls come to

`processAdd`, `processCancel`, `processCancelShares` and `processReplace` each turn a call away or
go through with it. The lemmas say which, and what was done, so that a fact about every call
follows from facts about taking an order off, matching one and hanging one in the book. None of
this needs an invariant.

## Main results

* `matchLoop_keeps` — what an iteration of the matching loop keeps, the loop keeps
* `finishAdd_cases`, `finishReplace_cases` — how a call ends after matching
* `processAdd_cases`, `acceptAdd_cases`, `processCancel_cases`, `processCancelShares_cases`,
  `processReplace_cases` — what the calls come to
-/

namespace NebulaX.Exchange

open MatchingEngine

section Ends

variable {L : ℕ} {quantity : UInt32} {tif : OrderTif} {s : Matching} {rsp : List BinaryResponse}
  {e' : MatchingEngine}

/-- **What every iteration keeps**, the matching loop keeps. -/
theorem matchLoop_keeps {buy : Bool} {I : Matching → Prop}
    (hstep : ∀ {s i s'}, I s → tradeWith L buy s i = some s' → I s') {fuel : ℕ} {s s' : Matching}
    (hs : I s) (h : matchLoop L buy fuel s = some s') : I s' := by
  induction fuel generalizing s with
  | zero => exact absurd h (by simp [matchLoop])
  | succ fuel ih =>
    rw [matchLoop] at h
    split at h
    · exact Option.some.inj h ▸ hs
    obtain ⟨best, -, h⟩ := Option.bind_eq_some_iff.mp h
    cases best with
    | none => exact Option.some.inj h ▸ hs
    | some i =>
      simp only [] at h
      split at h
      · exact Option.some.inj h ▸ hs
      obtain ⟨s₁, htrade, h⟩ := Option.bind_eq_some_iff.mp h
      exact ih (hstep hs htrade) h

/-- The end of a replace is the end of an add of the same order. -/
theorem finishReplace_eq (L : ℕ) (quantity : UInt32) (s : Matching) :
    finishReplace L s = finishAdd L quantity .day s := by
  unfold finishReplace finishAdd
  cases s.order.status <;> rfl

/-- **How an add ends**: with frames behind those of the trades, and the engine as it is or the
order in the book. -/
theorem finishAdd_cases (h : finishAdd L quantity tif s = some (rsp, e')) :
    (∃ tail, rsp = s.out ++ tail ∧ ∀ f ∈ tail, f.isTrade = false) ∧
      (e' = s.engine ∨ ∃ ok, s.engine.addOrder L s.order = some (ok, e')) := by
  have hnone : some (s.out, s.engine) = some (rsp, e') →
      (∃ tail, rsp = s.out ++ tail ∧ ∀ f ∈ tail, f.isTrade = false) ∧
        (e' = s.engine ∨ ∃ ok, s.engine.addOrder L s.order = some (ok, e')) := by
    intro heq
    obtain ⟨rfl, rfl⟩ := Prod.mk.inj (Option.some.inj heq)
    exact ⟨⟨[], (List.append_nil _).symm, fun f hf => absurd hf List.not_mem_nil⟩, Or.inl rfl⟩
  have hone : ∀ {f : BinaryResponse}, f.isTrade = false →
      some (s.out ++ [f], s.engine) = some (rsp, e') →
      (∃ tail, rsp = s.out ++ tail ∧ ∀ f ∈ tail, f.isTrade = false) ∧
        (e' = s.engine ∨ ∃ ok, s.engine.addOrder L s.order = some (ok, e')) := by
    intro f hf heq
    obtain ⟨rfl, rfl⟩ := Prod.mk.inj (Option.some.inj heq)
    exact ⟨⟨[f], rfl, fun g hg => List.mem_singleton.mp hg ▸ hf⟩, Or.inl rfl⟩
  unfold finishAdd at h
  split at h
  · exact hone rfl h
  cases tif with
  | ioc =>
    simp only [] at h
    split at h
    · exact hone rfl h
    · exact hnone h
  | fok =>
    simp only [] at h
    split at h
    · exact hone rfl h
    · exact hnone h
  | day =>
    simp only [] at h
    split at h
    · -- the order hangs in the book, or the pool is full
      obtain ⟨⟨ok, e₁⟩, hadd, heq⟩ := Option.map_eq_some_iff.mp h
      obtain ⟨rfl, rfl⟩ := Prod.mk.inj heq
      refine ⟨⟨_, rfl, fun f hf => ?_⟩, Or.inr ⟨ok, hadd⟩⟩
      rw [List.mem_singleton.mp hf]
      cases ok <;> rfl
    · exact hnone h

/-- **How a replace ends**: in the same way. -/
theorem finishReplace_cases (h : finishReplace L s = some (rsp, e')) :
    (∃ tail, rsp = s.out ++ tail ∧ ∀ f ∈ tail, f.isTrade = false) ∧
      (e' = s.engine ∨ ∃ ok, s.engine.addOrder L s.order = some (ok, e')) :=
  finishAdd_cases (finishReplace_eq L 0 s ▸ h)

end Ends

/-- The tests the three calls make: the locate is in range, the index finds the reference, and the
order it finds is the user's. -/
def TurnedAway (e : MatchingEngine) (L ref user : ℕ) : Prop :=
  kMaxLocate ≤ L ∨ e.findOrder ref = some none ∨
    ∃ i, e.findOrder ref = some (some i) ∧ (e.shared.pool.storage i).userId ≠ user

section Calls

variable {e e' : MatchingEngine} {L ref user : ℕ} {side : Side} {price quantity : UInt32}
  {tif : OrderTif} {rsp : List BinaryResponse}

/-- The choice between `matchBuyOrder` and `matchSellOrder`. -/
theorem matchOrder_of_choice {o : OrderData} {s : Matching}
    (h : (if side = .buy then e.matchBuyOrder L o else e.matchSellOrder L o) = some s) :
    e.matchOrder L side.isBuy o = some s := by
  rw [← h]
  cases side <;> rfl

/-- **What an accepted add comes to**: an entry in the log, and an order that is matched and
finished. -/
theorem acceptAdd_cases (h : e.acceptAdd L ref side price quantity user tif = some (rsp, e')) :
    ∃ entry s, (({ e with nextSequence := e.nextSequence + 1 } : MatchingEngine).logWal
        entry).matchOrder L side.isBuy (e.newOrder ref side price quantity user) = some s ∧
      finishAdd L quantity tif s = some (rsp, e') := by
  obtain ⟨s, hs, hfin⟩ := Option.bind_eq_some_iff.mp h
  exact ⟨_, s, matchOrder_of_choice hs, hfin⟩

/-- **What an add comes to**: an error that changes nothing, or it is accepted. -/
theorem processAdd_cases (h : e.processAdd L ref side price quantity user tif = some (rsp, e')) :
    (∃ code, rsp = [.error code] ∧ e' = e) ∨
      e.acceptAdd L ref side (effectivePrice side tif price) quantity user tif =
        some (rsp, e') := by
  have herror : ∀ {code}, some ([BinaryResponse.error code], e) = some (rsp, e') →
      ∃ code, rsp = [.error code] ∧ e' = e := by
    intro code heq
    obtain ⟨rfl, rfl⟩ := Prod.mk.inj (Option.some.inj heq)
    exact ⟨code, rfl, rfl⟩
  rw [processAdd] at h
  split at h
  · exact Or.inl (herror h)
  split at h
  · exact Or.inl (herror h)
  split at h
  · exact Or.inl (herror h)
  dsimp only at h
  split at h
  · obtain ⟨full, -, h⟩ := Option.bind_eq_some_iff.mp h
    split at h
    · exact Or.inr h
    · exact Or.inl (herror h)
  · exact Or.inr h

/-- The log was written to, at most. -/
def Logged (e e' : MatchingEngine) : Prop := ∃ wal, e' = { e with wal := wal }

theorem logged_logWal (e : MatchingEngine) (entry : WalEntry) : Logged e (e.logWal entry) :=
  ⟨_, rfl⟩

/-- **What a cancel comes to**: it is turned away, or the order is taken off. -/
theorem processCancel_cases (h : e.processCancel L ref user = some (rsp, e')) :
    (TurnedAway e L ref user ∧ rsp = [.error .orderNotFound] ∧ Logged e e') ∨
      ∃ i entry, L < kMaxLocate ∧ e.findOrder ref = some (some i) ∧
        (e.shared.pool.storage i).userId = user ∧
        (e.logWal entry).removeOrder L i = some e' ∧ rsp = [.cancelled ref] := by
  rw [processCancel, bookFor] at h
  by_cases hL : L < kMaxLocate
  swap
  · rw [if_neg hL] at h
    obtain ⟨rfl, rfl⟩ := Prod.mk.inj (Option.some.inj h)
    exact Or.inl ⟨Or.inl (Nat.le_of_not_lt hL), rfl, _, rfl⟩
  rw [if_pos hL] at h
  obtain ⟨⟨removed, b, sh⟩, hcall, heq⟩ := Option.map_eq_some_iff.mp h
  obtain ⟨found, hf, hcall⟩ := Option.bind_eq_some_iff.mp hcall
  -- a book that is written back as it was
  have hkeep : some (false, e.books L, e.shared) = some (removed, b, sh) →
      TurnedAway e L ref user →
      TurnedAway e L ref user ∧ rsp = [.error .orderNotFound] ∧ Logged e e' := by
    intro hkeep haway
    obtain ⟨rfl, hbook⟩ := Prod.mk.inj (Option.some.inj hkeep)
    obtain ⟨rfl, rfl⟩ := Prod.mk.inj hbook
    obtain ⟨rfl, rfl⟩ := Prod.mk.inj heq
    exact ⟨haway, rfl, _, congrArg (fun books => ({ e.logWal _ with books := books } :
      MatchingEngine)) (Function.update_eq_self ..)⟩
  cases found with
  | none => exact Or.inl (hkeep hcall (Or.inr (Or.inl hf)))
  | some i =>
    change (if (e.shared.pool.storage i).userId ≠ user then some (false, e.books L, e.shared)
      else _) = _ at hcall
    by_cases huser : (e.shared.pool.storage i).userId = user
    · rw [if_neg (not_not.mpr huser)] at hcall
      obtain ⟨⟨b', sh'⟩, hrem, hout⟩ := Option.map_eq_some_iff.mp hcall
      obtain ⟨rfl, hbook⟩ := Prod.mk.inj hout
      obtain ⟨rfl, rfl⟩ := Prod.mk.inj hbook
      obtain ⟨rfl, rfl⟩ := Prod.mk.inj heq
      exact Or.inr ⟨i, _, hL, hf, huser, Option.map_eq_some_iff.mpr ⟨_, hrem, rfl⟩, rfl⟩
    · rw [if_pos huser] at hcall
      exact Or.inl (hkeep hcall (Or.inr (Or.inr ⟨i, hf, huser⟩)))

/-- **What a partial cancel comes to**: it is turned away, the order is taken off, or it is cut. -/
theorem processCancelShares_cases {shares : UInt32}
    (h : e.processCancelShares L ref shares user = some (rsp, e')) :
    (TurnedAway e L ref user ∧ rsp = [.error .orderNotFound] ∧ Logged e e') ∨
      ∃ i entry, L < kMaxLocate ∧ e.findOrder ref = some (some i) ∧
        (e.shared.pool.storage i).userId = user ∧
        (((e.shared.pool.storage i).remainingQty ≤ shares ∧
            (e.logWal entry).removeOrder L i = some e' ∧ rsp = [.cancelled ref]) ∨
          (¬ (e.shared.pool.storage i).remainingQty ≤ shares ∧
            e' = (e.logWal entry).reduceQtyCancel L i shares ∧ rsp = [.ok ref])) := by
  rw [processCancelShares, bookFor] at h
  by_cases hL : L < kMaxLocate
  swap
  · rw [if_neg hL] at h
    obtain ⟨rfl, rfl⟩ := Prod.mk.inj (Option.some.inj h)
    exact Or.inl ⟨Or.inl (Nat.le_of_not_lt hL), rfl, _, rfl⟩
  rw [if_pos hL] at h
  obtain ⟨found, hf, h⟩ := Option.bind_eq_some_iff.mp h
  cases found with
  | none =>
    obtain ⟨rfl, rfl⟩ := Prod.mk.inj (Option.some.inj h)
    exact Or.inl ⟨Or.inr (Or.inl hf), rfl, logged_logWal ..⟩
  | some i =>
    simp only [show ∀ entry, (e.logWal entry).shared = e.shared from fun _ => rfl] at h
    by_cases huser : (e.shared.pool.storage i).userId = user
    swap
    · rw [if_pos huser] at h
      obtain ⟨rfl, rfl⟩ := Prod.mk.inj (Option.some.inj h)
      exact Or.inl ⟨Or.inr (Or.inr ⟨i, hf, huser⟩), rfl, logged_logWal ..⟩
    rw [if_neg (not_not.mpr huser)] at h
    by_cases hall : (e.shared.pool.storage i).remainingQty ≤ shares
    · rw [if_pos hall] at h
      obtain ⟨e₁, hrem, heq⟩ := Option.map_eq_some_iff.mp h
      obtain ⟨rfl, rfl⟩ := Prod.mk.inj heq
      exact Or.inr ⟨i, _, hL, hf, huser, Or.inl ⟨hall, hrem, rfl⟩⟩
    · rw [if_neg hall] at h
      obtain ⟨rfl, rfl⟩ := Prod.mk.inj (Option.some.inj h)
      exact Or.inr ⟨i, _, hL, hf, huser, Or.inr ⟨hall, rfl, rfl⟩⟩

/-- **What a replace comes to**: it is turned away, or the old order is taken off and the new one
matched and finished. -/
theorem processReplace_cases {newRef : ℕ}
    (h : e.processReplace L ref newRef side price quantity user = some (rsp, e')) :
    (TurnedAway e L ref user ∧ rsp = [.error .orderNotFound] ∧ Logged e e') ∨
      ∃ i entry e₁ s, L < kMaxLocate ∧ e.findOrder ref = some (some i) ∧
        (e.shared.pool.storage i).userId = user ∧
        (e.logWal entry).removeOrder L i = some e₁ ∧
        ({ e₁ with nextSequence := e₁.nextSequence + 1 } : MatchingEngine).matchOrder L side.isBuy
          (e₁.newOrder newRef side price quantity newRef) = some s ∧
        finishReplace L s = some (rsp, e') := by
  rw [processReplace, bookFor] at h
  by_cases hL : L < kMaxLocate
  swap
  · rw [if_neg hL] at h
    obtain ⟨rfl, rfl⟩ := Prod.mk.inj (Option.some.inj h)
    exact Or.inl ⟨Or.inl (Nat.le_of_not_lt hL), rfl, _, rfl⟩
  rw [if_pos hL] at h
  obtain ⟨found, hf, h⟩ := Option.bind_eq_some_iff.mp h
  cases found with
  | none =>
    obtain ⟨rfl, rfl⟩ := Prod.mk.inj (Option.some.inj h)
    exact Or.inl ⟨Or.inr (Or.inl hf), rfl, logged_logWal ..⟩
  | some i =>
    simp only [show ∀ entry, (e.logWal entry).shared = e.shared from fun _ => rfl] at h
    by_cases huser : (e.shared.pool.storage i).userId = user
    swap
    · rw [if_pos huser] at h
      obtain ⟨rfl, rfl⟩ := Prod.mk.inj (Option.some.inj h)
      exact Or.inl ⟨Or.inr (Or.inr ⟨i, hf, huser⟩), rfl, logged_logWal ..⟩
    rw [if_neg (not_not.mpr huser)] at h
    obtain ⟨e₁, hrem, h⟩ := Option.bind_eq_some_iff.mp h
    obtain ⟨s, hs, hfin⟩ := Option.bind_eq_some_iff.mp h
    exact Or.inr ⟨i, _, e₁, s, hL, hf, huser, hrem, matchOrder_of_choice hs, hfin⟩

end Calls

end NebulaX.Exchange
