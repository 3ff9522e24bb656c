import NebulaX.Exchange.EveryOrder
import NebulaX.Exchange.FillOrKill
import NebulaX.Exchange.Isolation

/-!
# Calls that fail

A call that is answered with an error has done nothing. For most errors the reason is that the call
was turned down before it did anything. Two are found out later. `POOL_FULL` comes after matching:
but an order with something left used up every order it traded with, and each of them gave a slot
back, so it finds no slot only if it did not trade. `MKT_NO_LIQUIDITY` comes when nothing was
filled, and as something is left of every resting order, that means that nothing was traded.

A replace takes the old order off before it hangs the new one up, so it always finds the slot of
the old one.

## Main results

* `failed_call_atomic` — an error is the only answer, and the books and the store are as they were
-/

namespace NebulaX.Exchange

open MatchingEngine

/-! ### Orders that did not trade -/

/-- An order that filled nothing did not trade, as something is left of every resting order. -/
theorem tradesOf_eq_nil_of_filledQty {R : Resting} (h : Positive R) {L : ℕ} {o : OrderData}
    (hq : qtyOf o ≠ 0) (ho : o.filledQty = 0) (hnone : (residual R L o).filledQty = 0) :
    tradesOf R L o = [] := by
  have hsum : filledQtyOf (tradesOf R L o) = min (qtyOf o) (eligibleQty R L o) :=
    filledQtyOf_fills _ _ _
  have hfilled := toNat_filledQty_afterFills ho (hsum.trans_le (Nat.min_le_left _ _))
  rw [← residual, hnone] at hfilled
  have hzero : eligibleQty R L o = 0 := by
    have hmin : min (qtyOf o) (eligibleQty R L o) = 0 := hsum.symm.trans hfilled.symm
    omega
  refine (tradesOf_eq_nil_iff R L o hq).mpr fun x hx => ?_
  by_contra hel
  have hmem : x ∈ (R L !o.side.isBuy).filter (eligible o.side.isBuy o) :=
    List.mem_filter.mpr ⟨hx, by simpa using hel⟩
  have hnone := List.sum_eq_zero_iff_forall_eq_nat.mp hzero _ (List.mem_map_of_mem hmem)
  exact absurd (h L _ x hx) (Nat.not_lt.mpr hnone.le)

/-- An order that finds no slot to rest in leaves things as they are. -/
theorem restOrder_full {s : Matching} {n L : ℕ} {G : Layout} {fl : List ℕ}
    (h : Rep s.engine n G fl) (hroom : s.engine.hasRoom = false) :
    ∃ e', restOrder L s = some (s.out ++ [.error .poolFull], e') ∧ e'.books = s.engine.books ∧
      e'.shared = s.engine.shared := by
  have hnil : fl = [] := by
    rw [h.hasRoom_eq] at hroom
    simpa using hroom
  subst hnil
  refine ⟨s.engine.withBook L (s.engine.books L) s.engine.shared, ?_, ?_, rfl⟩
  · rw [restOrder, h.addOrder_full]
    rfl
  · exact Function.update_eq_self ..

/-! ### What the calls do when they fail -/

/-- The call was answered with an error and nothing else, and left the books, the pool and the
index alone. -/
structure Failed (e e' : MatchingEngine) (code : ErrorCode) (rsp : List BinaryResponse) : Prop where
  /-- The error is the only frame. -/
  answer : rsp = [.error code]
  /-- In particular there is no `RSP_TRADE`. -/
  no_trade : ∀ f ∈ rsp, f.isTrade = false
  /-- The books. -/
  books : e'.books = e.books
  /-- The pool and the index. -/
  shared : e'.shared = e.shared

theorem Failed.mk' {e e' : MatchingEngine} {code : ErrorCode} {rsp : List BinaryResponse}
    (hanswer : rsp = [.error code]) (hb : e'.books = e.books) (hs : e'.shared = e.shared) :
    Failed e e' code rsp := by
  refine ⟨hanswer, fun f hf => ?_, hb, hs⟩
  rw [hanswer] at hf
  obtain rfl := List.mem_singleton.mp hf
  rfl

/-- A call that is turned away fails. -/
theorem Untouched.failed {e e' : MatchingEngine} {rsp : List BinaryResponse} {code : ErrorCode}
    (h : Untouched e (some (rsp, e'))) (herr : .error code ∈ rsp) : Failed e e' code rsp := by
  obtain ⟨e'', heq, hb, hs⟩ := h
  obtain ⟨rfl, rfl⟩ := Prod.mk.inj (Option.some.inj heq)
  obtain rfl : code = .orderNotFound := by simpa using herr
  exact .mk' rfl hb hs

/-- The frames of trades are no errors. -/
theorem error_mem_append_iff {R : Resting} {L : ℕ} {o : OrderData} {code : ErrorCode}
    {tail : List BinaryResponse} :
    .error code ∈ tradeFrames R L o ++ tail ↔ .error code ∈ tail := by
  rw [List.mem_append, or_iff_right]
  exact fun hmem => absurd (isTrade_tradeFrames R L o hmem) Bool.false_ne_true

section Calls

variable {e e' : MatchingEngine} {L ref user : ℕ} {side : Side} {price quantity : UInt32}
  {rsp : List BinaryResponse} {code : ErrorCode}

/-- An add that is let in and answered with an error did not trade, and there is no room for it or
it is not to rest. -/
theorem tradesOf_of_error {R : Resting} (hpos : Positive R) {o : OrderData} {tif : OrderTif}
    {room : Bool} (hq : qtyOf o ≠ 0) (ho : o.filledQty = 0) (hside : o.side ≠ .invalid)
    (hfok : tif ≠ .fok) (herr : .error code ∈ (addOutcome R L o tif room).1)
    (hroom : room = false → (usedRefs R L o).isEmpty = true) :
    tradesOf R L o = [] ∧ (tif = .day → room = false) := by
  have hno : ∀ f : BinaryResponse, (∀ c, f ≠ .error c) →
      .error code ∉ tradeFrames R L o ++ [f] := by
    intro f hf hmem
    exact hf code (List.mem_singleton.mp (error_mem_append_iff.mp hmem)).symm
  unfold addOutcome at herr
  change _ ∈ (if (residual R L o).status = .filled then _ else _ : _ × _).1 at herr
  by_cases hst : (residual R L o).status = .filled
  · rw [if_pos hst] at herr
    exact absurd herr (hno _ fun c => by simp)
  rw [if_neg hst] at herr
  cases tif with
  | fok => exact absurd rfl hfok
  | ioc =>
    refine ⟨?_, fun hc => by cases hc⟩
    by_cases hnone : (residual R L o).filledQty = 0
    · exact tradesOf_eq_nil_of_filledQty hpos hq ho hnone
    · change _ ∈ (if (residual R L o).filledQty = 0 then _ else _) at herr
      rw [if_neg hnone, ← List.append_nil (tradeFrames R L o)] at herr
      exact absurd (error_mem_append_iff.mp herr) List.not_mem_nil
  | day =>
    cases room with
    | false => exact ⟨tradesOf_eq_nil (hroom rfl) hst, fun _ => rfl⟩
    | true =>
      have hside' : (afterFills o (tradesOf R L o)).side ≠ .invalid := by rwa [afterFills_side]
      simp only [restOutcome_ok _ _ _ rfl hside'] at herr
      exact absurd herr (hno _ fun c => by simp)

/-- **An add that fails** did nothing. -/
theorem processAdd_failed (h : Inv e) (hpos : Positive e.resting) (hfresh : Fresh e.resting ref)
    {tif : OrderTif} (hfok : tif ≠ .fok)
    (hcall : e.processAdd L ref side price quantity user tif = some (rsp, e'))
    (herr : .error code ∈ rsp) : Failed e e' code rsp := by
  cases hvalid : addError L ref side price quantity user tif with
  | some code' =>
    rw [processAdd_of_error hvalid] at hcall
    obtain ⟨rfl, rfl⟩ := Prod.mk.inj (Option.some.inj hcall)
    obtain rfl : code = code' := by simpa using herr
    exact .mk' rfl rfl rfl
  | none =>
    obtain ⟨rsp', e'', hcall', -, hres, -⟩ := processAdd_spec h hvalid hfok fun _ => hfresh
    obtain ⟨rfl, rfl⟩ := Prod.mk.inj (Option.some.inj (hcall.symm.trans hcall'))
    generalize ho : e.newOrder ref side (effectivePrice side tif price) quantity user = o at hres
    have hq : quantity.toNat ≠ 0 := (valid_of_addError hvalid).2.1
    have hoq : qtyOf o ≠ 0 := by rw [← ho]; exact hq
    have hofill : o.filledQty = 0 := by rw [← ho]; rfl
    have hoside : o.side = side := by rw [← ho]; rfl
    have hostatus : o.status = .open := by rw [← ho]; rfl
    have hside : o.side ≠ .invalid := by rw [hoside]; exact (valid_of_addError hvalid).1
    have hroom : e.roomAfter L o = false → (usedRefs e.resting L o).isEmpty = true := by
      intro hr
      rw [roomAfter, Bool.or_eq_false_iff] at hr
      simpa using hr.2
    have herr' : .error code ∈ (addOutcome e.resting L o tif (e.roomAfter L o)).1 := by
      rw [← hres]
      exact herr
    obtain ⟨hnil, hday⟩ := tradesOf_of_error hpos hoq hofill hside hfok herr' hroom
    have hxs := (tradesOf_eq_nil_iff e.resting L o hoq).mp hnil
    -- nothing is eligible, so the loop stops at once
    obtain ⟨G, fl, hrep⟩ := h
    obtain ⟨e₁, hrep₁, hb₁, hs₁, haccept⟩ :=
      acceptAdd_idle hrep tif ho hq (by rw [hoside] at hxs; exact hxs)
    obtain ⟨-, hadd⟩ := processAdd_of_valid (e := e) hvalid
    rw [hadd, if_neg hfok, haccept] at hcall
    unfold finishAdd at hcall
    have hopen : ¬ o.status = .filled := by rw [hostatus]; exact fun hc => by cases hc
    rw [if_neg hopen] at hcall
    cases tif with
    | fok => exact absurd rfl hfok
    | ioc =>
      obtain ⟨rfl, rfl⟩ := Prod.mk.inj (Option.some.inj hcall)
      simp only [if_pos hofill, List.nil_append] at herr ⊢
      obtain rfl : code = .mktNoLiquidity := by simpa using herr
      exact .mk' rfl hb₁ hs₁
    | day =>
      have hfull : e₁.hasRoom = false := by
        have hroom := hday rfl
        rw [roomAfter, Bool.or_eq_false_iff] at hroom
        rw [MatchingEngine.hasRoom, hs₁]
        exact hroom.1
      obtain ⟨e₂, hrest, hb₂, hs₂⟩ := restOrder_full (s := { engine := e₁, order := o })
        (L := L) hrep₁ hfull
      simp only [if_pos (Or.inl hostatus : o.status = .open ∨ _), hrest] at hcall
      obtain ⟨rfl, rfl⟩ := Prod.mk.inj (Option.some.inj hcall)
      obtain rfl : code = .poolFull := by simpa using herr
      exact .mk' rfl (hb₂.trans hb₁) (hs₂.trans hs₁)

/-- **A replace that fails** did nothing, and a replace of an order of the caller does not fail. -/
theorem processReplace_failed (h : Inv e) (hroute : RoutedTo e.resting ref L) {newRef : ℕ}
    (hnew : newRef = ref ∨ Fresh e.resting newRef)
    (hside : ∀ b, ∀ x ∈ e.resting L b, x.orderId = ref → side = .ofBuy b)
    (hcall : e.processReplace L ref newRef side price quantity user = some (rsp, e'))
    (herr : .error code ∈ rsp) : code = .orderNotFound ∧ Failed e e' code rsp := by
  by_cases haway : TurnedAway e L ref user
  · have hfail : Failed e e' code rsp :=
      Untouched.failed (hcall ▸ processReplace_untouched haway newRef side price quantity) herr
    obtain ⟨e'', heq, -⟩ := processReplace_untouched haway newRef side price quantity
    obtain ⟨rfl, -⟩ := Prod.mk.inj (Option.some.inj (heq.symm.trans hcall))
    exact ⟨by simpa using herr, hfail⟩
  obtain ⟨rsp', e'', hcall', -, hcase⟩ := processReplace_spec h hroute user hnew side price quantity
  obtain ⟨rfl, rfl⟩ := Prod.mk.inj (Option.some.inj (hcall.symm.trans hcall'))
  rcases hcase with ⟨b, x, hx, hid, -, hres, -⟩ | ⟨hrsp, -⟩
  · -- the new order finds the slot of the old one
    have hvalid : (afterFills (e.newOrder newRef side price quantity newRef)
        (tradesOf (leave e.resting L b ref) L
          (e.newOrder newRef side price quantity newRef))).side ≠ .invalid := by
      rw [afterFills_side]
      show side ≠ .invalid
      rw [hside b x hx hid]
      exact Side.ofBuy_ne_invalid b
    unfold replaceOutcome at hres
    have hrsp := congrArg Prod.fst hres
    simp only [restOutcome_ok _ _ _ rfl hvalid] at hrsp
    rw [hrsp] at herr
    split at herr
    all_goals
      have hmem := error_mem_append_iff.mp herr
      simp at hmem
  · exact absurd hrsp (processReplace_answers haway hcall)

end Calls

/-! ### All calls -/

/-- A replace is given the side of the order it replaces. -/
def Command.KeepsSide (e : MatchingEngine) : Command → Prop
  | .replace L oldRef _ side _ _ _ => ∀ b, ∀ x ∈ e.resting L b, x.orderId = oldRef → side = .ofBuy b
  | .add .. | .cancel .. | .cancelShares .. => True

/-- An add is no fill-or-kill order. -/
def Command.NotFok : Command → Prop
  | .add _ _ _ _ _ _ tif => tif ≠ .fok
  | .cancel .. | .cancelShares .. | .replace .. => True

/-- **A call that fails has done nothing.** In an engine whose replaces all asked for something, an
error in the answer to a call other than a fill-or-kill add is the only frame, and the books, the
pool and the index are as they were. A replace of an order that rests and is the caller's does not
run out of slots. -/
theorem failed_call_atomic {e : MatchingEngine} (h : ReachableBy (fun _ c => c.Positive) e)
    {c : Command} (hc : c.Allowed e.resting) (hpos : c.Positive) (hside : c.KeepsSide e)
    (hfok : c.NotFok) :
    ∃ rsp e', e.exec c = some (rsp, e') ∧
      (∀ code, .error code ∈ rsp → Failed e e' code rsp) ∧
      ∀ L oldRef newRef side price quantity user,
        c = .replace L oldRef newRef side price quantity user →
          (∃ b, ∃ x ∈ e.resting L b, x.orderId = oldRef ∧ x.userId = user) →
            .error .poolFull ∉ rsp := by
  have hinv := h.reachable.inv
  obtain ⟨rsp, e', hexec, -⟩ := exec_keeps hinv hc
  refine ⟨rsp, e', hexec, ?_⟩
  cases c with
  | add L ref side price quantity user tif =>
    refine ⟨fun code herr => ?_, fun _ _ _ _ _ _ _ heq => by cases heq⟩
    exact processAdd_failed hinv h.positive hc hfok hexec herr
  | cancel L ref user =>
    refine ⟨fun code herr => ?_, fun _ _ _ _ _ _ _ heq => by cases heq⟩
    by_cases haway : TurnedAway e L ref user
    · exact Untouched.failed (hexec ▸ processCancel_untouched haway) herr
    · rw [show rsp = _ from processCancel_cancelled haway hexec] at herr
      simp at herr
  | cancelShares L ref shares user =>
    refine ⟨fun code herr => ?_, fun _ _ _ _ _ _ _ heq => by cases heq⟩
    by_cases haway : TurnedAway e L ref user
    · exact Untouched.failed (hexec ▸ processCancelShares_untouched haway shares) herr
    · rcases processCancelShares_answers haway hexec with hrsp | hrsp
      · simp [show rsp = _ from hrsp] at herr
      · simp [show rsp = _ from hrsp] at herr
  | replace L oldRef newRef side price quantity user =>
    refine ⟨fun code herr => (processReplace_failed hinv hc.1 hc.2 hside hexec herr).2, ?_⟩
    intro _ _ _ _ _ _ _ _ _ hfull
    exact absurd (processReplace_failed hinv hc.1 hc.2 hside hexec hfull).1 (by decide)

/-- Two orders fill the pool. A third finds no room. -/
theorem failed_call_atomic_full : ∃ e rsp e',
    (new 2).execAll [.add 0 1 .sell 100 5 7 .day, .add 0 2 .sell 101 6 8 .day] = some e ∧
      e.exec (.add 0 3 .buy 99 5 9 .day) = some (rsp, e') ∧ rsp = [.error .poolFull] ∧
      Failed e e' .poolFull rsp := by
  have hsome : ∀ c ∈ [Command.add 0 1 .sell 100 5 7 .day, .add 0 2 .sell 101 6 8 .day],
      MatchingEngine → c.Positive := by
    intro c hc _
    simp only [List.mem_cons, List.not_mem_nil, or_false] at hc
    rcases hc with rfl | rfl <;> trivial
  have hcheck : (new 2).checkAll [.add 0 1 .sell 100 5 7 .day, .add 0 2 .sell 101 6 8 .day] =
      true := by decide +kernel
  obtain ⟨e, hrun, he⟩ := (ReachableBy.start 2 none none (by decide) (by decide)).execAll hcheck
    hsome
  have hread : (((new 2).execAll [.add 0 1 .sell 100 5 7 .day, .add 0 2 .sell 101 6 8 .day]).bind
      fun e => (e.exec (.add 0 3 .buy 99 5 9 .day)).map fun r =>
        ((Command.add 0 3 .buy 99 5 9 .day).check e, r.1)) = some (true, [.error .poolFull]) := by
    decide +kernel
  change (new 2).execAll _ = some e at hrun
  rw [hrun, Option.bind_some] at hread
  obtain ⟨⟨rsp, e'⟩, hcall, heq⟩ := Option.map_eq_some_iff.mp hread
  obtain ⟨hcheck, hrsp⟩ := Prod.mk.inj heq
  obtain ⟨rsp', e'', hcall', hfail, -⟩ := failed_call_atomic he
    (Command.allowed_of_check he.reachable.inv hcheck) (by trivial) (by trivial)
    (OrderTif.noConfusion : OrderTif.day ≠ .fok)
  obtain ⟨rfl, rfl⟩ := Prod.mk.inj (Option.some.inj (hcall.symm.trans hcall'))
  have hrsp : rsp = [.error .poolFull] := hrsp
  exact ⟨e, rsp, e', hrun, hcall, hrsp, hfail _ (by rw [hrsp]; exact List.mem_singleton_self _)⟩

end NebulaX.Exchange
