import NebulaX.Exchange.Effects

/-!
# Books are not crossed

A bid and an ask that cross belong to one user. Matching skips the taker's own orders and takes
everything else within the limit, so when some of an incoming order is left to hang in the book,
no order of another user is left within its limit (`not_eligible_of_open`). All other calls take
orders away or cut them down.

## Main results

* `Effect.uncrossed` — every call keeps the books uncrossed
* `reachable_uncrossed` — so a crossed pair in a reachable book has one user
-/

namespace NebulaX.Exchange

open MatchingEngine

/-- Any two opposite orders that could trade, and have something to trade, are of one user. -/
def Uncrossed (R : Resting) : Prop :=
  ∀ L b, ∀ x ∈ R L b, ∀ y ∈ R L !b, 0 < qtyOf x → 0 < qtyOf y →
    beyond b x.price y.price = false → x.userId = y.userId

/-- A pair crosses from both of its sides. -/
theorem beyond_swap (b : Bool) (p q : UInt32) : beyond (!b) p q = beyond b q p := by
  cases b <;> rfl

/-- Taking orders away and cutting them down does not cross a book. -/
theorem Uncrossed.of_fewer {R R' : Resting} (h : Uncrossed R)
    (hfewer : ∀ L b, ∀ x ∈ R' L b, 0 < qtyOf x →
      ∃ y ∈ R L b, 0 < qtyOf y ∧ y.price = x.price ∧ y.userId = x.userId) : Uncrossed R' := by
  intro L b x hx y hy hxq hyq hcross
  obtain ⟨x', hx', hxq', hxp, hxu⟩ := hfewer L b x hx hxq
  obtain ⟨y', hy', hyq', hyp, hyu⟩ := hfewer L (!b) y hy hyq
  rw [← hxu, ← hyu]
  exact h L b x' hx' y' hy' hxq' hyq' (by rw [hxp, hyp]; exact hcross)

theorem Uncrossed.leave {R : Resting} (h : Uncrossed R) (L : ℕ) (b : Bool) (ref : ℕ) :
    Uncrossed (leave R L b ref) :=
  h.of_fewer fun _ _ x hx hq => ⟨x, mem_leave hx, hq, rfl, rfl⟩

theorem Uncrossed.afterMatch {R : Resting} (h : Uncrossed R) (L : ℕ) (o : OrderData) :
    Uncrossed (afterMatch R L o) := by
  refine h.of_fewer fun L' b x hx hq => ?_
  rcases mem_afterMatch hx with hx | ⟨y, hy, t, ht0, ht, rfl⟩
  · exact ⟨x, hx, hq, rfl, rfl⟩
  · exact ⟨y, hy, by omega, rfl, rfl⟩

/-- An order on a side may be cut down, as long as it had something left. -/
theorem Uncrossed.shrink {R : Resting} (h : Uncrossed R) (L : ℕ) (b : Bool) (ref : ℕ) {q : UInt32}
    (hpos : ∀ y ∈ R L b, y.orderId = ref → 0 < qtyOf y) : Uncrossed (shrink R L b ref q) := by
  refine h.of_fewer fun L' b' x hx hq => ?_
  rcases mem_shrink hx with ⟨hx, -⟩ | ⟨y, hy, rfl, rfl, hid, rfl⟩
  · exact ⟨x, hx, hq, rfl, rfl⟩
  · exact ⟨y, hy, hpos y hy hid, rfl, rfl⟩

@[simp] theorem afterFills_price (o : OrderData) (fs : List (OrderData × ℕ)) :
    (afterFills o fs).price = o.price := by
  rw [afterFills]
  split <;> rfl

@[simp] theorem afterFills_userId (o : OrderData) (fs : List (OrderData × ℕ)) :
    (afterFills o fs).userId = o.userId := by
  rw [afterFills]
  split <;> rfl

/-- **What is left within the limit** of an order that was not filled is its own user's. -/
theorem not_eligible_of_open {R : Resting} {L : ℕ} {o : OrderData}
    (hopen : 0 < qtyOf (residual R L o)) :
    ∀ y ∈ afterMatch R L o L !o.side.isBuy, eligible o.side.isBuy o y = false := by
  rw [residual, qtyOf_afterFills, tradesOf, filledQtyOf_fills] at hopen
  intro y hy
  rw [afterMatch, setSide_self, leftBehind, Allocation.sweep_of_sum_lt (by omega)] at hy
  simpa using (List.mem_filter.mp hy).2

/-- An order that is not eligible to a taker at a price within its limit is of its user. -/
theorem userId_of_not_eligible {b : Bool} {o y : OrderData} (h : eligible b o y = false)
    (hcross : beyond b o.price y.price = false) : y.userId = o.userId := by
  rw [eligible, hcross, Bool.not_false, Bool.and_true, otherUser] at h
  have hne := of_decide_eq_false h
  exact not_not.mp fun hu => hne (Or.inr hu)

/-- **The rest of an incoming order** crosses nobody else. -/
theorem Uncrossed.enter {R : Resting} (h : Uncrossed R) (L : ℕ) (o : OrderData) :
    Uncrossed (enter (Exchange.afterMatch R L o) L (residual R L o)) := by
  have hside : (residual R L o).side = o.side := afterFills_side ..
  have hprice : (residual R L o).price = o.price := afterFills_price ..
  have huser : (residual R L o).userId = o.userId := afterFills_userId ..
  have hnew : ∀ y ∈ Exchange.afterMatch R L o L !o.side.isBuy, 0 < qtyOf (residual R L o) →
      beyond o.side.isBuy o.price y.price = false → y.userId = o.userId := fun y hy hq hcross =>
    userId_of_not_eligible (not_eligible_of_open hq y hy) hcross
  intro L' b x hx y hy hxq hyq hcross
  rw [mem_enter, hside] at hx hy
  rcases hx with ⟨rfl, rfl, rfl⟩ | hx
  · rcases hy with ⟨-, hb, -⟩ | hy
    · exact absurd hb (by cases o.side.isBuy <;> decide)
    · rw [huser]
      exact (hnew y hy hxq (by rwa [hprice] at hcross)).symm
  · rcases hy with ⟨rfl, hb, rfl⟩ | hy
    · obtain rfl : b = !o.side.isBuy := by rw [← hb, Bool.not_not]
      rw [huser]
      exact hnew x hx hyq (by rwa [beyond_swap, hprice] at hcross)
    · exact h.afterMatch L o L' b x hx y hy hxq hyq hcross

theorem Uncrossed.arrival {R R' : Resting} (h : Uncrossed R) {L : ℕ} {o : OrderData}
    {stays : Bool} {rsp : List BinaryResponse} (ha : Arrival R L o stays rsp R') :
    Uncrossed R' := by
  cases ha with
  | filled => exact h.afterMatch L o
  | rests => exact h.enter L o
  | dropped => exact h.afterMatch L o

/-- **Every call keeps the books uncrossed.** -/
theorem Effect.uncrossed {e : MatchingEngine} (hinv : Inv e) {c : Command}
    {rsp : List BinaryResponse} {R' : Resting} (heff : Effect e c rsp R')
    (h : Uncrossed e.resting) : Uncrossed R' := by
  cases heff with
  | rejected => exact h
  | killed => exact h
  | added _ ha => exact h.arrival ha
  | cancelled => exact h.leave _ _ _
  | cancelRefused => exact h
  | sharesAll => exact h.leave _ _ _
  | sharesPart hx hid _ hlt =>
    refine h.shrink _ _ _ fun y hy hyid => ?_
    obtain ⟨G, fl, hrep⟩ := hinv
    obtain ⟨-, -, rfl⟩ := hrep.resting_unique hx hy (hid.trans hyid.symm)
    exact Nat.zero_lt_of_lt (UInt32.lt_iff_toNat_lt.mp hlt)
  | sharesRefused => exact h
  | replaced _ _ _ ha => exact (h.leave _ _ _).arrival ha
  | replaceRefused => exact h

/-- A fresh engine has nothing resting. -/
theorem resting_new {e : MatchingEngine} (h : e.books = fun _ => {}) (L : ℕ) (b : Bool) :
    e.resting L b = [] := by
  rw [MatchingEngine.resting, h]
  cases b <;> rfl

theorem Reachable.uncrossed {e : MatchingEngine} (h : Reachable e) : Uncrossed e.resting := by
  induction h with
  | start capacity wal tradePool hlo hhi =>
    intro L b x hx
    rw [resting_new rfl] at hx
    exact absurd hx List.not_mem_nil
  | call c he hc hexec ih => exact (effect_of_exec he.inv hc hexec).uncrossed he.inv ih

/-- **A resting bid and a resting ask that cross have one user**, in every book of every reachable
engine. -/
theorem reachable_uncrossed {e : MatchingEngine} (h : Reachable e) {L : ℕ} {bid ask : OrderData}
    (hbid : bid ∈ e.resting L true) (hask : ask ∈ e.resting L false)
    (hbidQty : 0 < bid.remainingQty) (haskQty : 0 < ask.remainingQty)
    (hcross : ask.price ≤ bid.price) : bid.userId = ask.userId := by
  refine h.uncrossed L true bid hbid ask hask (UInt32.lt_iff_toNat_lt.mp hbidQty)
    (UInt32.lt_iff_toNat_lt.mp haskQty) ?_
  exact decide_eq_false (UInt32.not_lt.mpr hcross)

/-- Orders of one user may stay crossed. -/
theorem reachable_uncrossed_own : ∃ e,
    (new 4).execAll [.add 0 1 .sell 100 5 7 .day, .add 0 2 .buy 101 6 7 .day] = some e ∧
      ∃ bid ask, bid ∈ e.resting 0 true ∧ ask ∈ e.resting 0 false ∧ ask.price ≤ bid.price ∧
        bid.userId = ask.userId := by
  obtain ⟨e, hrun, he⟩ := reachable_execAll 4
    [.add 0 1 .sell 100 5 7 .day, .add 0 2 .buy 101 6 7 .day] (by decide) (by decide)
    (by decide +kernel)
  have hread : ((new 4).execAll [.add 0 1 .sell 100 5 7 .day, .add 0 2 .buy 101 6 7 .day]).map
      (fun e => (e.resting 0 true, e.resting 0 false)) =
        some ([{ userId := 7, orderId := 2, side := .buy, price := 101, originalQty := 6
                 remainingQty := 6, sequence := 2 }],
          [{ userId := 7, orderId := 1, side := .sell, price := 100, originalQty := 5
             remainingQty := 5, sequence := 1 }]) := by decide +kernel
  rw [hrun] at hread
  obtain ⟨hbid, hask⟩ := Prod.mk.inj (Option.some.inj hread)
  have hb := hbid ▸ List.mem_singleton_self _
  have ha := hask ▸ List.mem_singleton_self _
  exact ⟨e, hrun, _, _, hb, ha, by decide,
    reachable_uncrossed he hb ha (by decide) (by decide) (by decide)⟩

end NebulaX.Exchange
