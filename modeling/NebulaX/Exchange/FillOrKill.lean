import NebulaX.Exchange.PriceTime

/-!
# Fill or kill

`processAdd` lets a fill-or-kill order through when `canFullFill` says that there is enough on the
other side. `canFullFill` adds up everything within the limit, the user's own orders included, in
32 bits; the matching loop skips the user's own orders. Where the two disagree a fill-or-kill
order can be killed although it could be filled, or trade in part.

`eligibleQty` is what the loop can reach, as an exact number, and `onOffer` what `canFullFill`
counts before it is cut to 32 bits.

## Main results

* `fok_allOrNothing_iff` — exactly when a fill-or-kill order is handled as it should be
-/

namespace NebulaX.Exchange

open MatchingEngine

/-! ### What a fill-or-kill order should do -/

/-- The answer trades exactly the whole quantity and ends with `RSP_FILLED`. -/
def FilledInFull (ref : ℕ) (quantity : UInt32) (rsp : List BinaryResponse) : Prop :=
  (rsp.map BinaryResponse.tradedQty).sum = quantity.toNat ∧ rsp.getLast? = some (.filled ref)

/-- The answer is `FOK_NO_FULL_FILL`, without a trade and with the books, the pool and the index as
they were. -/
structure Killed (e e' : MatchingEngine) (rsp : List BinaryResponse) : Prop where
  /-- No `RSP_TRADE`. -/
  no_trade : ∀ r ∈ rsp, r.isTrade = false
  /-- The books. -/
  books : e'.books = e.books
  /-- The pool and the index. -/
  shared : e'.shared = e.shared
  /-- The last frame. -/
  answer : rsp.getLast? = some (.error .fokNoFullFill)

/-- The resting opposite quantity of other users within the price limit. -/
def eligibleQty (R : Resting) (L : ℕ) (o : OrderData) : ℕ :=
  (((R L !o.side.isBuy).filter (eligible o.side.isBuy o)).map qtyOf).sum

/-- All or nothing, and all exactly when there is enough. -/
def FokAllOrNothing (e : MatchingEngine) (L ref : ℕ) (side : Side) (price quantity : UInt32)
    (user : ℕ) : Prop :=
  ∃ rsp e', e.processAdd L ref side price quantity user .fok = some (rsp, e') ∧
    (FilledInFull ref quantity rsp ∨ Killed e e' rsp) ∧
    (FilledInFull ref quantity rsp ↔ quantity.toNat ≤ eligibleQty e.resting L
      (e.newOrder ref side (effectivePrice side .fok price) quantity user))

/-! ### What it does -/

section Frames

variable (R : Resting) (L : ℕ) (o : OrderData)

theorem isTrade_tradeFrames {r : BinaryResponse} (hr : r ∈ tradeFrames R L o) :
    r.isTrade = true := by
  obtain ⟨f, -, rfl⟩ := List.mem_map.mp hr
  rfl

/-- The trades of an incoming order add up. -/
theorem tradedQty_tradeFrames : ((tradeFrames R L o).map BinaryResponse.tradedQty).sum =
    min (qtyOf o) (eligibleQty R L o) := by
  have hexact : (tradeFrames R L o).map BinaryResponse.tradedQty =
      (tradesOf R L o).map Prod.snd := by
    rw [tradeFrames, List.map_map]
    refine List.map_congr_left fun f hf => ?_
    have hlt : f.2 < 2 ^ 32 := Nat.lt_of_le_of_lt (Allocation.allocate_le hf) (qtyOf_lt f.1)
    show (UInt32.ofNat f.2).toNat = f.2
    rw [UInt32.toNat_ofNat', Nat.mod_eq_of_lt hlt]
  rw [hexact]
  exact filledQtyOf_fills _ _ _

/-- There are trades exactly when something is eligible and wanted. -/
theorem tradesOf_eq_nil_iff (hq : qtyOf o ≠ 0) :
    tradesOf R L o = [] ↔ ∀ x ∈ R L !o.side.isBuy, eligible o.side.isBuy o x = false := by
  constructor
  · intro hnil x hx
    by_contra hel
    have hmem : x ∈ (R L !o.side.isBuy).filter (eligible o.side.isBuy o) :=
      List.mem_filter.mpr ⟨hx, by simpa using hel⟩
    rw [tradesOf, fills] at hnil
    cases hxs : (R L !o.side.isBuy).filter (eligible o.side.isBuy o) with
    | nil => exact absurd hmem (by simp [hxs])
    | cons y ys =>
      rw [hxs, Allocation.allocate_cons hq] at hnil
      exact absurd hnil (List.cons_ne_nil _ _)
  · exact fun hxs => (fills_of_not_eligible hxs).1

end Frames

/-- A new order is filled when its trades add up to its quantity. -/
theorem afterFills_filled_iff {o : OrderData} (hst : o.status = .open) (hq : qtyOf o ≠ 0)
    (fs : List (OrderData × ℕ)) :
    (afterFills o fs).status = .filled ↔ qtyOf o ≤ filledQtyOf fs := by
  rw [afterFills]
  split
  · next hnil =>
    subst hnil
    exact iff_of_false (fun hc => by rw [hst] at hc; cases hc)
      fun hle => hq (Nat.le_zero.mp hle)
  · rw [OrderData.filledBy]
    constructor
    · intro hc
      by_contra hle
      rw [if_neg hle] at hc
      cases hc
    · exact fun hle => if_pos hle

/-- Its `filled_qty` is what they add up to. -/
theorem toNat_filledQty_afterFills {o : OrderData} (ho : o.filledQty = 0)
    {fs : List (OrderData × ℕ)} (hle : filledQtyOf fs ≤ qtyOf o) :
    (afterFills o fs).filledQty.toNat = filledQtyOf fs := by
  rw [afterFills]
  split
  · next hnil =>
    subst hnil
    rw [ho]
    rfl
  · rw [OrderData.filledBy, ho, UInt32.zero_add, UInt32.toNat_ofNat',
      Nat.mod_eq_of_lt (Nat.lt_of_le_of_lt hle (qtyOf_lt o))]

/-- The frames of an accepted fill-or-kill order. -/
theorem addOutcome_fok {R : Resting} {L : ℕ} {o : OrderData} {room : Bool} (hst : o.status = .open)
    (hfilled : o.filledQty = 0) (hq : qtyOf o ≠ 0) (horig : o.originalQty = o.remainingQty) :
    (addOutcome R L o .fok room).1 = tradeFrames R L o ++
      [if qtyOf o ≤ eligibleQty R L o then .filled o.orderId else .error .fokNoFullFill] := by
  have hsum : filledQtyOf (tradesOf R L o) = min (qtyOf o) (eligibleQty R L o) :=
    filledQtyOf_fills _ _ _
  have hiff := afterFills_filled_iff hst hq (tradesOf R L o)
  rw [hsum] at hiff
  rw [addOutcome]
  by_cases hle : qtyOf o ≤ eligibleQty R L o
  · rw [if_pos (hiff.mpr (by omega)), if_pos hle]
  · have hlt : (afterFills o (tradesOf R L o)).filledQty < o.originalQty := by
      rw [UInt32.lt_iff_toNat_lt, toNat_filledQty_afterFills hfilled (by omega), hsum, horig]
      change _ < qtyOf o
      omega
    rw [if_neg fun hc => hle (by have := hiff.mp hc; omega), if_neg hle]
    simp only [if_pos hlt]

/-- Nothing is eligible: the loop stops at once and touches nothing. -/
theorem matchOrder_idle {e : MatchingEngine} {n L : ℕ} {G : Layout} {fl : List ℕ}
    (h : Rep e n G fl) {buy : Bool} {order : OrderData} (hq : order.remainingQty ≠ 0)
    (hxs : ∀ x ∈ e.resting L (!buy), eligible buy order x = false) :
    e.matchOrder L buy order = some { engine := e, order := order } := by
  rw [matchOrder, matchLoop, if_neg hq]
  rcases h.getBest_spec L (!buy) order.userId with ⟨hbest, -⟩ |
    ⟨i, p, front, back, hbest, hi, -, -, hok⟩
  · rw [hbest]
    rfl
  · have hbeyond : beyond buy order.price (e.shared.pool.storage i).price = true := by
      simpa [eligible, hok] using hxs _ (h.resting_mem hi)
    rw [hbest, Option.bind_some]
    exact if_pos hbeyond

/-- Then the matching half of an add has used a sequence number and written the log, and nothing
else. -/
theorem acceptAdd_idle {e : MatchingEngine} {G : Layout} {fl : List ℕ}
    (h : Rep e e.nextSequence G fl) {L ref : ℕ} {side : Side} {price quantity : UInt32}
    {user : ℕ} (tif : OrderTif) {o : OrderData}
    (ho : e.newOrder ref side price quantity user = o) (hq : quantity.toNat ≠ 0)
    (hxs : ∀ x ∈ e.resting L !side.isBuy, eligible side.isBuy o x = false) :
    ∃ e₁, Rep e₁ e.nextSequence G fl ∧ e₁.books = e.books ∧ e₁.shared = e.shared ∧
      e.acceptAdd L ref side price quantity user tif =
        finishAdd L quantity tif { engine := e₁, order := o } := by
  rw [acceptAdd, ho]
  generalize he₁ : ({ e with nextSequence := e.nextSequence + 1 } : MatchingEngine).logWal _ = e₁
  obtain ⟨h₁, hr₁⟩ : Rep e₁ e.nextSequence G fl ∧ e₁.resting = e.resting := by
    rw [← he₁]
    exact h.congr rfl rfl
  have hidle : e₁.matchOrder L side.isBuy o = some { engine := e₁, order := o } :=
    matchOrder_idle h₁ (fun h0 => hq (by rw [← ho] at h0; exact congrArg UInt32.toNat h0))
      (by rwa [hr₁])
  have hmatch : (if side = .buy then e₁.matchBuyOrder L o else e₁.matchSellOrder L o) =
      some { engine := e₁, order := o } := by
    rw [← hidle]
    cases side <;> rfl
  refine ⟨e₁, h₁, by rw [← he₁]; rfl, by rw [← he₁]; rfl, ?_⟩
  rw [hmatch, Option.bind_some]

section Fok

variable {e : MatchingEngine} {L ref user : ℕ} {side : Side} {price quantity : UInt32}

/-- An order that `canFullFill` lets through trades with what is eligible, and is filled or answered
`FOK_NO_FULL_FILL` according to whether that was enough. -/
theorem processAdd_fok_enter (h : Inv e)
    (hvalid : addError L ref side price quantity user .fok = none) {o : OrderData}
    (ho : e.newOrder ref side (effectivePrice side .fok price) quantity user = o)
    (hfull : quantity.toNat ≤
      onOffer e.resting L side (effectivePrice side .fok price) % 2 ^ 32) :
    ∃ e', e.processAdd L ref side price quantity user .fok = some (tradeFrames e.resting L o ++
      [if quantity.toNat ≤ eligibleQty e.resting L o
        then .filled ref else .error .fokNoFullFill], e') := by
  obtain ⟨rsp, e', hcall, -, hres, -⟩ := processAdd_fok_spec h hvalid hfull
  have hrsp := congrArg Prod.fst hres
  change rsp = _ at hrsp
  have hq : qtyOf (e.newOrder ref side (effectivePrice side .fok price) quantity user) ≠ 0 :=
    (valid_of_addError hvalid).2.1
  rw [addOutcome_fok (by rfl) (by rfl) hq (by rfl), ho] at hrsp
  subst hrsp ho
  exact ⟨e', hcall⟩

/-- If nothing is eligible, an order that `canFullFill` lets through changes no book. -/
theorem processAdd_fok_idle (h : Inv e)
    (hvalid : addError L ref side price quantity user .fok = none) {o : OrderData}
    (ho : e.newOrder ref side (effectivePrice side .fok price) quantity user = o)
    (hfull : quantity.toNat ≤
      onOffer e.resting L side (effectivePrice side .fok price) % 2 ^ 32)
    (hxs : ∀ x ∈ e.resting L !side.isBuy, eligible side.isBuy o x = false) :
    ∃ e', e.processAdd L ref side price quantity user .fok =
      some ([.error .fokNoFullFill], e') ∧ e'.books = e.books ∧ e'.shared = e.shared := by
  obtain ⟨G, fl, h⟩ := h
  have hq := (valid_of_addError hvalid).2.1
  obtain ⟨-, heq⟩ := processAdd_of_valid (e := e) hvalid
  rw [heq, if_pos rfl, h.canFullFill_eq, Option.bind_some, if_pos (decide_eq_true hfull)]
  obtain ⟨e₁, -, hb, hs, haccept⟩ := acceptAdd_idle h .fok ho hq hxs
  refine ⟨e₁, ?_, hb, hs⟩
  have hlt : o.filledQty < quantity := by
    rw [← ho, UInt32.lt_iff_toNat_lt]
    exact Nat.pos_of_ne_zero hq
  rw [haccept, finishAdd]
  rw [if_neg (by rw [← ho]; exact fun hc => by cases hc)]
  simp only [if_pos hlt]
  rfl

/-- **When a fill-or-kill order is handled as it should be**: there is enough from other users and
`canFullFill` finds it, or there is not enough and `canFullFill` does not find enough either, or
the loop finds nothing at all. -/
theorem fok_allOrNothing_iff (h : Reachable e)
    (hvalid : addError L ref side price quantity user .fok = none) {o : OrderData}
    (ho : e.newOrder ref side (effectivePrice side .fok price) quantity user = o) :
    FokAllOrNothing e L ref side price quantity user ↔
      (quantity.toNat ≤ eligibleQty e.resting L o ∧
        quantity.toNat ≤ onOffer e.resting L side (effectivePrice side .fok price) % 2 ^ 32) ∨
      (eligibleQty e.resting L o < quantity.toNat ∧
        (onOffer e.resting L side (effectivePrice side .fok price) % 2 ^ 32 < quantity.toNat ∨
          ∀ x ∈ e.resting L !side.isBuy, eligible side.isBuy o x = false)) := by
  have hinv := h.inv
  have hside : o.side = side := by rw [← ho]; rfl
  rw [FokAllOrNothing, ho]
  rcases Nat.lt_or_ge (onOffer e.resting L side (effectivePrice side .fok price) % 2 ^ 32)
    quantity.toNat with hlt | hge
  · -- stopped at the check
    have hcall := processAdd_fok_stop hinv hvalid hlt
    have hnot : ¬ FilledInFull ref quantity [.error .fokNoFullFill] := fun hf => by
      simp [FilledInFull] at hf
    constructor
    · rintro ⟨rsp, e', hcall', -, hiff⟩
      obtain ⟨rfl, rfl⟩ := Prod.mk.inj (Option.some.inj (hcall.symm.trans hcall'))
      exact Or.inr ⟨Nat.not_le.mp fun hle => hnot (hiff.mpr hle), Or.inl hlt⟩
    · rintro (⟨-, hge⟩ | ⟨hel, -⟩)
      · omega
      · exact ⟨_, e, hcall, Or.inr ⟨by simp [BinaryResponse.isTrade], rfl, rfl, rfl⟩,
          iff_of_false hnot (Nat.not_le.mpr hel)⟩
  obtain ⟨e', hcall⟩ := processAdd_fok_enter hinv hvalid ho hge
  have hoq : qtyOf o = quantity.toNat := by rw [← ho]; rfl
  have hq := (valid_of_addError hvalid).2.1
  by_cases hel : quantity.toNat ≤ eligibleQty e.resting L o
  · -- filled
    rw [if_pos hel] at hcall
    have hfill : FilledInFull ref quantity (tradeFrames e.resting L o ++ [.filled ref]) := by
      refine ⟨?_, by simp⟩
      rw [List.map_append, List.sum_append, tradedQty_tradeFrames, hoq, Nat.min_eq_left hel]
      rfl
    exact iff_of_true ⟨_, e', hcall, Or.inl hfill, iff_of_true hfill hel⟩ (Or.inl ⟨hel, hge⟩)
  -- killed, but not before it traded
  rw [if_neg hel] at hcall
  have hnot : ∀ rsp : List BinaryResponse,
      ¬ FilledInFull ref quantity (rsp ++ [.error .fokNoFullFill]) := fun rsp hf => by
    simp [FilledInFull] at hf
  constructor
  · rintro ⟨rsp, e'', hcall', hor, -⟩
    obtain ⟨rfl, rfl⟩ := Prod.mk.inj (Option.some.inj (hcall.symm.trans hcall'))
    have hkilled := hor.resolve_left (hnot _)
    refine Or.inr ⟨Nat.not_le.mp hel, Or.inr ?_⟩
    have hnil : tradeFrames e.resting L o = [] := List.eq_nil_iff_forall_not_mem.mpr fun r hr => by
      have := hkilled.no_trade r (List.mem_append_left _ hr)
      rw [isTrade_tradeFrames _ _ _ hr] at this
      cases this
    have := (tradesOf_eq_nil_iff e.resting L o (by rwa [hoq])).mp (List.map_eq_nil_iff.mp hnil)
    rwa [hside] at this
  · rintro (⟨hle, -⟩ | ⟨-, hlt | hxs⟩)
    · exact absurd hle hel
    · omega
    · obtain ⟨e'', hcall', hb, hs⟩ := processAdd_fok_idle hinv hvalid ho hge hxs
      exact ⟨_, e'', hcall', Or.inr ⟨by simp [BinaryResponse.isTrade], hb, hs, rfl⟩,
        iff_of_false (hnot []) hel⟩

/-- An answer that trades and does not end with `RSP_FILLED`, or one that does not although there
is enough, is wrong. -/
theorem not_fokAllOrNothing {rsp : List BinaryResponse}
    (hcall : (e.processAdd L ref side price quantity user .fok).map Prod.fst = some rsp)
    (hlast : rsp.getLast? ≠ some (.filled ref))
    (hwrong : rsp.any BinaryResponse.isTrade = true ∨ quantity.toNat ≤ eligibleQty e.resting L
      (e.newOrder ref side (effectivePrice side .fok price) quantity user)) :
    ¬ FokAllOrNothing e L ref side price quantity user := by
  rintro ⟨rsp', e', hcall', hor, hiff⟩
  rw [hcall', Option.map_some] at hcall
  obtain rfl : rsp' = rsp := Option.some.inj hcall
  have hnot : ¬ FilledInFull ref quantity rsp' := fun hf => hlast hf.2
  rcases hwrong with htrade | hle
  · obtain ⟨r, hr, hrt⟩ := List.any_eq_true.mp htrade
    rw [(hor.resolve_left hnot).no_trade r hr] at hrt
    cases hrt
  · exact hnot (hiff.mpr hle)

end Fok

/-- A market buyer of 3 where 5 are on offer. -/
theorem fok_allOrNothing_enough : ∃ e,
    (new 4).execAll [.add 0 1 .sell 100 5 7 .day] = some e ∧ FokAllOrNothing e 0 2 .buy 0 3 8 := by
  obtain ⟨e, hrun, he⟩ := reachable_execAll 4 [.add 0 1 .sell 100 5 7 .day] (by decide)
    (by decide) (by decide +kernel)
  refine ⟨e, hrun, (fok_allOrNothing_iff he (by decide) rfl).mpr (Or.inl ?_)⟩
  have hqty : ((new 4).execAll [.add 0 1 .sell 100 5 7 .day]).map (fun e =>
      decide (3 ≤ eligibleQty e.resting 0 (e.newOrder 2 .buy 4294967295 3 8) ∧
        3 ≤ onOffer e.resting 0 .buy 4294967295 % 2 ^ 32)) = some true := by decide +kernel
  rw [hrun] at hqty
  exact of_decide_eq_true (Option.some.inj hqty)

/-- The two ways it goes wrong. A buyer of 10 with an own order of 5 behind 5 of somebody else
trades 5 and is killed. A buyer of 10 in a book with `2 ^ 32` on offer is killed at once. -/
theorem fok_partial_or_overflow :
    (∃ e, (new 4).execAll [.add 0 1 .sell 100 5 7 .day, .add 0 2 .sell 101 5 8 .day] = some e ∧
      Reachable e ∧ (e.processAdd 0 3 .buy 101 10 8 .fok).map Prod.fst =
        some [.trade 0 1 .sell 100 5, .error .fokNoFullFill] ∧
      ¬ FokAllOrNothing e 0 3 .buy 101 10 8) ∧
    ∃ e, (new 4).execAll [.add 0 1 .sell 100 2147483648 7 .day,
        .add 0 2 .sell 100 2147483648 7 .day] = some e ∧
      Reachable e ∧ (e.processAdd 0 3 .buy 100 10 8 .fok).map Prod.fst =
        some [.error .fokNoFullFill] ∧
      ¬ FokAllOrNothing e 0 3 .buy 100 10 8 := by
  constructor
  · obtain ⟨e, hrun, he⟩ := reachable_execAll 4
      [.add 0 1 .sell 100 5 7 .day, .add 0 2 .sell 101 5 8 .day] (by decide) (by decide)
      (by decide +kernel)
    have hcall : ((new 4).execAll [.add 0 1 .sell 100 5 7 .day, .add 0 2 .sell 101 5 8 .day]).bind
        (fun e => (e.processAdd 0 3 .buy 101 10 8 .fok).map Prod.fst) =
          some [.trade 0 1 .sell 100 5, .error .fokNoFullFill] := by decide +kernel
    rw [hrun] at hcall
    exact ⟨e, hrun, he, hcall, not_fokAllOrNothing hcall (by decide) (Or.inl (by decide))⟩
  · obtain ⟨e, hrun, he⟩ := reachable_execAll 4
      [.add 0 1 .sell 100 2147483648 7 .day, .add 0 2 .sell 100 2147483648 7 .day] (by decide)
      (by decide) (by decide +kernel)
    have hcall : ((new 4).execAll [.add 0 1 .sell 100 2147483648 7 .day,
        .add 0 2 .sell 100 2147483648 7 .day]).map (fun e =>
          ((e.processAdd 0 3 .buy 100 10 8 .fok).map Prod.fst,
            eligibleQty e.resting 0 (e.newOrder 3 .buy 100 10 8))) =
          some (some [.error .fokNoFullFill], 2 ^ 32) := by decide +kernel
    rw [hrun] at hcall
    obtain ⟨hcall, hqty⟩ := Prod.mk.inj (Option.some.inj hcall)
    refine ⟨e, hrun, he, hcall, not_fokAllOrNothing hcall (by decide) (Or.inr ?_)⟩
    exact hqty ▸ (by decide)

end NebulaX.Exchange
