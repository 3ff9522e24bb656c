import NebulaX.Exchange.BookOps
import NebulaX.Lib.Allocation

/-!
# The matching loop

Every iteration of `matchBuyOrder` and `matchSellOrder` looks for the best order of another user
from the start of the book, trades with it, and removes it if nothing of it remains. On the
opposite side as a list this is one step of a greedy allocation (`Allocation.allocate_of_first`,
`Allocation.sweep_of_first_le`): the orders in front of the one found belong to the taker and stay
where they are. The induction is on the number of orders on that side, which also bounds the
number of iterations.

`fills` are the trades by price-time priority, `leftBehind` is the side after them, and
`afterFills` is the taker.

## Main results

* `tradeWith_full`, `tradeWith_part` — one iteration
* `matchOrder_spec` — the whole loop: it returns, and its frames, the side it matched against
  and the taker are the ones of the reference allocation
-/

namespace NebulaX.Exchange

open MatchingEngine

/-- What remains of an order, as a number. -/
def qtyOf (o : OrderData) : ℕ := o.remainingQty.toNat

/-- Whether a taker may trade with a resting order: another user's, at an acceptable price. -/
def eligible (buy : Bool) (taker x : OrderData) : Bool :=
  otherUser taker.userId x && !beyond buy taker.price x.price

/-- A resting order after a trade that left some of it. -/
def partly (x : OrderData) (t : ℕ) : OrderData :=
  { x.trade (UInt32.ofNat t) with status := .partiallyFilled }

/-- **The reference allocation**: the eligible orders in the order they come, filled greedily. -/
def fills (buy : Bool) (taker : OrderData) (xs : List OrderData) : List (OrderData × ℕ) :=
  Allocation.allocate qtyOf (qtyOf taker) (xs.filter (eligible buy taker))

/-- The opposite side after the reference allocation. -/
def leftBehind (buy : Bool) (taker : OrderData) (xs : List OrderData) : List OrderData :=
  Allocation.sweep (eligible buy taker) qtyOf partly (qtyOf taker) xs

/-- The references of the orders that trades use up. -/
def usedUp (fs : List (OrderData × ℕ)) : List ℕ :=
  (fs.filter fun f => f.2 = qtyOf f.1).map fun f => f.1.orderId

/-- How much a list of trades adds up to. -/
def filledQtyOf (fs : List (OrderData × ℕ)) : ℕ := (fs.map Prod.snd).sum

/-- A taker that traded `t`. -/
def OrderData.filledBy (o : OrderData) (t : ℕ) : OrderData :=
  { o with
    remainingQty := UInt32.ofNat (qtyOf o - t)
    filledQty := o.filledQty + UInt32.ofNat t
    status := if qtyOf o ≤ t then .filled else .partiallyFilled }

/-- The taker after its trades. -/
def afterFills (taker : OrderData) (fs : List (OrderData × ℕ)) : OrderData :=
  if fs = [] then taker else taker.filledBy (filledQtyOf fs)

/-- The `RSP_TRADE` frame of a trade: the maker's reference, side and price. -/
def tradeFrame (L : ℕ) (buy : Bool) (f : OrderData × ℕ) : BinaryResponse :=
  .trade L f.1.orderId (.ofBuy !buy) f.1.price (UInt32.ofNat f.2)

/-! ### The taker -/

theorem qtyOf_lt (o : OrderData) : qtyOf o < 2 ^ 32 := o.remainingQty.toNat_lt

@[simp] theorem qtyOf_filledBy (o : OrderData) (t : ℕ) : qtyOf (o.filledBy t) = qtyOf o - t := by
  have := qtyOf_lt o
  rw [qtyOf, OrderData.filledBy, UInt32.toNat_ofNat', Nat.mod_eq_of_lt (by omega)]

/-- Trades add up. -/
theorem filledBy_filledBy (o : OrderData) (t t' : ℕ) :
    (o.filledBy t).filledBy t' = o.filledBy (t + t') := by
  have hle : qtyOf o - t ≤ t' ↔ qtyOf o ≤ t + t' := by omega
  rw [OrderData.filledBy, qtyOf_filledBy]
  simp only [hle, Nat.sub_sub, OrderData.filledBy, UInt32.ofNat_add, UInt32.add_assoc]

/-- One trade more. -/
theorem afterFills_cons (taker x : OrderData) (t : ℕ) (fs : List (OrderData × ℕ)) :
    afterFills taker ((x, t) :: fs) = afterFills (taker.filledBy t) fs := by
  have hsum : filledQtyOf ((x, t) :: fs) = t + filledQtyOf fs := rfl
  rw [afterFills, if_neg (List.cons_ne_nil _ _), hsum, afterFills]
  by_cases hfs : fs = []
  · subst hfs
    rw [if_pos rfl]
    rfl
  · rw [if_neg hfs, filledBy_filledBy]

theorem qtyOf_afterFills (o : OrderData) (fs : List (OrderData × ℕ)) :
    qtyOf (afterFills o fs) = qtyOf o - filledQtyOf fs := by
  rw [afterFills]
  split
  · next hnil =>
    subst hnil
    exact (Nat.sub_zero _).symm
  · exact qtyOf_filledBy o _

/-- The trades of an incoming order add up to its quantity, or to everything eligible. -/
theorem filledQtyOf_fills (buy : Bool) (o : OrderData) (xs : List OrderData) :
    filledQtyOf (fills buy o xs) = min (qtyOf o) ((xs.filter (eligible buy o)).map qtyOf).sum :=
  Allocation.allocate_sum _ _

theorem toNat_min (a b : UInt32) : (min a b).toNat = min a.toNat b.toNat := by
  show (if a ≤ b then a else b).toNat = _
  simp only [UInt32.le_iff_toNat_le]
  split
  · next h => rw [Nat.min_eq_left h]
  · next h => rw [Nat.min_eq_right (Nat.le_of_not_le h)]

/-! ### One trade -/

section Lists

variable {front back : List OrderData} {d : OrderData}

theorem map_of_split (hnd : ((front ++ d :: back).map OrderData.orderId).Nodup)
    (g : OrderData → OrderData) :
    (front ++ d :: back).map (fun x => if x.orderId = d.orderId then g x else x) =
      front ++ g d :: back := by
  rw [List.map_append, List.map_cons, List.nodup_append'] at hnd
  obtain ⟨-, hback, hfront⟩ := hnd
  have hf : front.map (fun x => if x.orderId = d.orderId then g x else x) = front :=
    (List.map_congr_left fun x hx => if_neg fun he =>
      hfront (List.mem_map_of_mem hx) (List.mem_cons.mpr (Or.inl he))).trans (List.map_id' front)
  have hb : back.map (fun x => if x.orderId = d.orderId then g x else x) = back :=
    (List.map_congr_left fun x hx => if_neg fun (he : x.orderId = d.orderId) =>
      (List.nodup_cons.mp hback).1 (he ▸ List.mem_map_of_mem hx)).trans (List.map_id' back)
  rw [List.map_append, List.map_cons, if_pos rfl, hf, hb]

theorem filter_of_split (hnd : ((front ++ d :: back).map OrderData.orderId).Nodup) :
    (front ++ d :: back).filter (fun x => x.orderId ≠ d.orderId) = front ++ back := by
  rw [List.map_append, List.map_cons, List.nodup_append'] at hnd
  obtain ⟨-, hback, hfront⟩ := hnd
  have hf : front.filter (fun x => x.orderId ≠ d.orderId) = front :=
    List.filter_eq_self.mpr fun x hx => decide_eq_true fun he =>
      hfront (List.mem_map_of_mem hx) (List.mem_cons.mpr (Or.inl he))
  have hb : back.filter (fun x => x.orderId ≠ d.orderId) = back :=
    List.filter_eq_self.mpr fun x hx => decide_eq_true fun (he : x.orderId = d.orderId) =>
      (List.nodup_cons.mp hback).1 (he ▸ List.mem_map_of_mem hx)
  rw [List.filter_append, List.filter_cons_of_neg (by simp), hf, hb]

end Lists

section RecordTrade

variable (e : MatchingEngine) (buy : Bool) (taker maker : OrderData) (q : UInt32)

@[simp] theorem books_recordTrade : (e.recordTrade buy taker maker q).books = e.books := by
  unfold MatchingEngine.recordTrade
  split <;> cases buy <;> rfl

@[simp] theorem shared_recordTrade : (e.recordTrade buy taker maker q).shared = e.shared := by
  unfold MatchingEngine.recordTrade
  split <;> cases buy <;> rfl

@[simp] theorem nextSequence_recordTrade :
    (e.recordTrade buy taker maker q).nextSequence = e.nextSequence := by
  unfold MatchingEngine.recordTrade
  split <;> cases buy <;> rfl

end RecordTrade

/-- `Rep` and `resting` read the books and the store only. -/
theorem Rep.congr {e e' : MatchingEngine} {n : ℕ} {G : Layout} {fl : List ℕ} (h : Rep e n G fl)
    (hb : e'.books = e.books) (hs : e'.shared = e.shared) :
    Rep e' n G fl ∧ e'.resting = e.resting := by
  refine ⟨⟨hs ▸ h.holds, fun L b p => by rw [hb, hs]; exact h.level L b p,
    fun L b p => by rw [hs]; exact h.side L b p, fun L b p => by rw [hs]; exact h.price L b p,
    fun L b p => by rw [hs]; exact h.fifo L b p, fun L b p => by rw [hs]; exact h.seq_lt L b p,
    h.range, h.locate⟩, ?_⟩
  funext L b
  rw [MatchingEngine.resting, MatchingEngine.resting, hb, hs]

section Trade

variable {n : ℕ} {G : Layout} {fl : List ℕ} {L i : ℕ} {buy : Bool} {p : UInt32} {s : Matching}
  {front back : List OrderData}

/-- The taker of `tradeWith`, in terms of the number of shares. -/
theorem taker_eq (o : OrderData) {q : UInt32} {t : ℕ} (hq : q.toNat = t) (ht : t ≤ qtyOf o) :
    ({ o with
      remainingQty := o.remainingQty - q, filledQty := o.filledQty + q
      status := if o.remainingQty - q = 0 then .filled else .partiallyFilled } : OrderData) =
      o.filledBy t := by
  obtain rfl : q = UInt32.ofNat t := by rw [← hq, UInt32.ofNat_toNat]
  have hsub : o.remainingQty - UInt32.ofNat t = UInt32.ofNat (qtyOf o - t) := by
    rw [UInt32.ofNat_sub ht, qtyOf, UInt32.ofNat_toNat]
  have hzero : UInt32.ofNat (qtyOf o - t) = 0 ↔ qtyOf o ≤ t := by
    have hlt := qtyOf_lt o
    rw [← UInt32.toNat_inj, UInt32.toNat_ofNat', Nat.mod_eq_of_lt (by omega),
      UInt32.toNat_zero]
    omega
  simp only [hzero, hsub, OrderData.filledBy]

/-- The two ways an iteration can end. -/
theorem tradeWith_eq (h : Rep s.engine n G fl) (hi : i ∈ G L (!buy) p) {d : OrderData}
    (hd : (s.engine.shared.pool.storage i).toOrderData = d) {q : UInt32}
    (hq : min s.order.remainingQty d.remainingQty = q) :
    ∃ e, Rep e n G fl ∧ (e.shared.pool.storage i).toOrderData = d.trade q ∧
      e.resting = setSide s.engine.resting L (!buy) ((s.engine.resting L (!buy)).map fun x =>
        if x.orderId = d.orderId then x.trade q else x) ∧
      SharedStore.Erased [] s.engine.shared e.shared ∧
      e.nextSequence = s.engine.nextSequence ∧
      tradeWith L buy s i = (if d.remainingQty - q = 0 then (e.setStatus i .filled).removeOrder L i
        else some (e.setStatus i .partiallyFilled)).map fun e =>
          { engine := e
            order := { s.order with
              remainingQty := s.order.remainingQty - q, filledQty := s.order.filledQty + q
              status := if s.order.remainingQty - q = 0 then .filled else .partiallyFilled }
            out := s.out ++ [.trade L d.orderId (.ofBuy !buy) d.price q] } := by
  subst hd hq
  obtain ⟨hrep, hrest, hst⟩ := h.reduceOrderQty_spec hi
    (min s.order.remainingQty (s.engine.shared.pool.storage i).remainingQty)
  generalize hq : min s.order.remainingQty (s.engine.shared.pool.storage i).remainingQty = q at *
  generalize htaker : ({ s.order with
    remainingQty := s.order.remainingQty - q, filledQty := s.order.filledQty + q } : OrderData) =
      taker
  obtain ⟨hrep', hrest'⟩ := hrep.congr
    (books_recordTrade _ buy taker (s.engine.shared.pool.storage i).toOrderData q)
    (shared_recordTrade _ buy taker (s.engine.shared.pool.storage i).toOrderData q)
  refine ⟨_, hrep', by rw [shared_recordTrade, hst], hrest'.trans hrest,
    by rw [shared_recordTrade]; exact .nil rfl rfl rfl, by rw [nextSequence_recordTrade]; rfl, ?_⟩
  have hzero : (((s.engine.reduceOrderQty L i q).recordTrade buy taker
      (s.engine.shared.pool.storage i).toOrderData q).shared.pool.storage i).remainingQty =
        (s.engine.shared.pool.storage i).remainingQty - q := by
    rw [shared_recordTrade, hst]
    rfl
  rw [tradeWith]
  simp only [hq, htaker, hzero]

/-- **An iteration that uses up the maker** removes it. -/
theorem tradeWith_full (h : Rep s.engine n G fl) (hi : i ∈ G L (!buy) p) {d : OrderData}
    (hd : (s.engine.shared.pool.storage i).toOrderData = d)
    (hsplit : s.engine.resting L (!buy) = front ++ d :: back) (hle : qtyOf d ≤ qtyOf s.order) :
    ∃ s' G', tradeWith L buy s i = some s' ∧ Rep s'.engine n G' (i :: fl) ∧
      s'.engine.resting = setSide s.engine.resting L (!buy) (front ++ back) ∧
      s'.order = s.order.filledBy (qtyOf d) ∧
      s'.out = s.out ++ [tradeFrame L buy (d, qtyOf d)] ∧
      SharedStore.Erased [d.orderId] s.engine.shared s'.engine.shared ∧
      s'.engine.nextSequence = s.engine.nextSequence := by
  have hq : (min s.order.remainingQty d.remainingQty).toNat = qtyOf d := by
    rw [toNat_min]
    exact Nat.min_eq_right hle
  generalize hmin : min s.order.remainingQty d.remainingQty = q at hq
  have hzero : d.remainingQty - q = 0 := by
    rw [show q = d.remainingQty from UInt32.toNat_inj.mp hq, UInt32.sub_self]
  obtain ⟨e, hrep, hst, hrest, herased, hseq, heq⟩ := tradeWith_eq h hi hd hmin
  obtain ⟨hrep', hrest'⟩ := hrep.setStatus_spec hi .filled
  obtain ⟨e', hrem, hrep'', hrest'', herased', hseq'⟩ := hrep'.removeOrder_spec hi
  have hset : SharedStore.Erased [] e.shared (e.setStatus i .filled).shared := .nil rfl rfl rfl
  have hid : ((e.setStatus i .filled).shared.pool.storage i).orderId = d.orderId := by
    have : ((e.setStatus i .filled).shared.pool.storage i).orderId =
        (e.shared.pool.storage i).orderId := by
      simp [MatchingEngine.setStatus, OrderPool.modify]
    rw [this, hst]
    rfl
  have hid' : (e.shared.pool.storage i).orderId = d.orderId := by rw [hst]; rfl
  have hnd := h.resting_refs_nodup L (!buy)
  rw [hsplit] at hnd
  refine ⟨_, _, by rw [heq, if_pos hzero, hrem]; rfl, hrep'', ?_,
    taker_eq _ hq hle, ?_, (herased.append hset).append (hid ▸ herased'), hseq'.trans hseq⟩
  · have hside : (e.setStatus i .filled).resting L (!buy) =
        front ++ { d.trade q with status := .filled } :: back := by
      rw [hrest', setSide_self, hrest, setSide_self, hsplit, map_of_split hnd, hid']
      exact map_of_split (d := d.trade q) (by simpa [OrderData.trade] using hnd) _
    rw [hrest'', hside, hid, hrest', hrest, setSide_setSide, setSide_setSide]
    congr 1
    exact filter_of_split (d := { d.trade q with status := .filled })
      (by simpa [OrderData.trade] using hnd)
  · rw [tradeFrame, ← hq, UInt32.ofNat_toNat]

/-- **An iteration that fills the taker** leaves the maker where it is, cut down. -/
theorem tradeWith_part (h : Rep s.engine n G fl) (hi : i ∈ G L (!buy) p) {d : OrderData}
    (hd : (s.engine.shared.pool.storage i).toOrderData = d)
    (hsplit : s.engine.resting L (!buy) = front ++ d :: back) (hlt : qtyOf s.order < qtyOf d) :
    ∃ s', tradeWith L buy s i = some s' ∧ Rep s'.engine n G fl ∧
      s'.engine.resting = setSide s.engine.resting L (!buy)
        (front ++ partly d (qtyOf s.order) :: back) ∧
      s'.order = s.order.filledBy (qtyOf s.order) ∧
      s'.out = s.out ++ [tradeFrame L buy (d, qtyOf s.order)] ∧
      SharedStore.Erased [] s.engine.shared s'.engine.shared ∧
      s'.engine.nextSequence = s.engine.nextSequence := by
  have hq : (min s.order.remainingQty d.remainingQty).toNat = qtyOf s.order := by
    rw [toNat_min]
    exact Nat.min_eq_left (Nat.le_of_lt hlt)
  generalize hmin : min s.order.remainingQty d.remainingQty = q at hq
  have hqo : UInt32.ofNat (qtyOf s.order) = q := by rw [← hq, UInt32.ofNat_toNat]
  obtain ⟨e, hrep, hst, hrest, herased, hseq, heq⟩ := tradeWith_eq h hi hd hmin
  obtain ⟨hrep', hrest'⟩ := hrep.setStatus_spec hi .partiallyFilled
  have hid : (e.shared.pool.storage i).orderId = d.orderId := by rw [hst]; rfl
  have hne : ¬ d.remainingQty - q = 0 := by
    intro h0
    have hd0 := congrArg UInt32.toNat h0
    have hlt' := d.remainingQty.toNat_lt
    rw [UInt32.toNat_sub, UInt32.toNat_zero, hq] at hd0
    simp only [qtyOf] at hlt hd0
    omega
  have hnd := h.resting_refs_nodup L (!buy)
  rw [hsplit] at hnd
  have hset : SharedStore.Erased [] e.shared (e.setStatus i .partiallyFilled).shared :=
    .nil rfl rfl rfl
  refine ⟨_, by rw [heq, if_neg hne]; rfl, hrep', ?_, taker_eq _ hq (Nat.le_refl _), ?_,
    herased.append hset, hseq⟩
  · rw [hrest', hrest, setSide_setSide]
    congr 1
    rw [setSide_self, hsplit, map_of_split hnd, hid, partly, hqo]
    exact map_of_split (d := d.trade q) (by simpa [OrderData.trade] using hnd) _
  · rw [tradeFrame, hqo]

end Trade

/-! ### The loop -/

/-- If the best order of another user is beyond the limit, so is everything behind it. -/
theorem eligible_of_beyond {buy : Bool} {taker d : OrderData} {front back : List OrderData}
    (hsorted : (front ++ d :: back).Pairwise (priority !buy))
    (hfront : ∀ x ∈ front, otherUser taker.userId x = false)
    (hd : beyond buy taker.price d.price = true) :
    ∀ x ∈ front ++ d :: back, eligible buy taker x = false := by
  intro x hx
  rw [eligible]
  rcases List.mem_append.mp hx with hx | hx
  · rw [hfront x hx, Bool.false_and]
  · have hbeyond : beyond buy taker.price x.price = true := by
      rcases List.mem_cons.mp hx with rfl | hx
      · exact hd
      · have hprio := (List.pairwise_cons.mp (List.pairwise_append.mp hsorted).2.1).1 x hx
        rcases hprio with hlt | ⟨heq, -⟩
        · simpa using Rep.beyond_of_better hlt (by simpa using hd)
        · rw [← heq, hd]
    rw [hbeyond, Bool.not_true, Bool.and_false]

/-- Nothing is eligible, nothing trades. -/
theorem fills_of_not_eligible {buy : Bool} {taker : OrderData} {xs : List OrderData}
    (hxs : ∀ x ∈ xs, eligible buy taker x = false) :
    fills buy taker xs = [] ∧ leftBehind buy taker xs = xs := by
  refine ⟨?_, Allocation.sweep_of_forall_not hxs⟩
  rw [fills, List.filter_eq_nil_iff.mpr fun x hx => by simp [hxs x hx], Allocation.allocate_nil]

/-- **The reference allocation is performed** on the way from `s` to `s'`. Before, the free slots
were `fl`. -/
structure Performs (L : ℕ) (buy : Bool) (n : ℕ) (fl : List ℕ) (s s' : Matching) : Prop where
  /-- The books stay well formed, and the slots of orders that are used up are free. -/
  rep : ∃ G' taken, Rep s'.engine n G' (taken ++ fl) ∧
    taken.length = (usedUp (fills buy s.order (s.engine.resting L (!buy)))).length
  /-- The other side of the book keeps what is left behind, -/
  resting : s'.engine.resting = setSide s.engine.resting L (!buy)
    (leftBehind buy s.order (s.engine.resting L (!buy)))
  /-- the taker has its fills, -/
  order : s'.order = afterFills s.order (fills buy s.order (s.engine.resting L (!buy)))
  /-- and each of them is reported. -/
  out : s'.out = s.out ++ (fills buy s.order (s.engine.resting L (!buy))).map (tradeFrame L buy)
  /-- The index loses the orders that are used up. -/
  erased : SharedStore.Erased (usedUp (fills buy s.order (s.engine.resting L (!buy))))
    s.engine.shared s'.engine.shared
  /-- No sequence number is issued. -/
  nextSequence : s'.engine.nextSequence = s.engine.nextSequence

section Performs

variable {L i n : ℕ} {buy : Bool} {p : UInt32} {s : Matching} {G : Layout} {fl : List ℕ}
  {d : OrderData} {front back : List OrderData}

/-- When nothing trades, it is performed at once. -/
theorem performs_stop (h : Rep s.engine n G fl)
    (hf : fills buy s.order (s.engine.resting L (!buy)) = [])
    (hl : leftBehind buy s.order (s.engine.resting L (!buy)) = s.engine.resting L (!buy)) :
    Performs L buy n fl s s where
  rep := ⟨G, [], h, by rw [hf]; rfl⟩
  resting := by rw [hl, setSide_eq_self]
  order := by rw [hf, afterFills, if_pos rfl]
  out := by rw [hf, List.map_nil, List.append_nil]
  erased := by
    rw [hf]
    exact .nil rfl rfl rfl
  nextSequence := rfl

/-- **A maker that has more than is wanted** ends it. -/
theorem performs_part (h : Rep s.engine n G fl) (hi : i ∈ G L (!buy) p)
    (hd : (s.engine.shared.pool.storage i).toOrderData = d)
    (hsplit : s.engine.resting L (!buy) = front ++ d :: back) (hq : qtyOf s.order ≠ 0)
    (hfront : ∀ x ∈ front, eligible buy s.order x = false) (helig : eligible buy s.order d = true)
    (hlt : qtyOf s.order < qtyOf d) :
    ∃ s', tradeWith L buy s i = some s' ∧ s'.order.remainingQty = 0 ∧
      Performs L buy n fl s s' := by
  obtain ⟨s', hs', hrep, hrest, horder, hout, herased, hseq⟩ := tradeWith_part h hi hd hsplit hlt
  have hfills : fills buy s.order (s.engine.resting L (!buy)) = [(d, qtyOf s.order)] := by
    rw [fills, hsplit, Allocation.allocate_of_first hq hfront helig,
      Nat.min_eq_left (Nat.le_of_lt hlt), Nat.sub_eq_zero_of_le (Nat.le_of_lt hlt),
      Allocation.allocate_zero]
  have hused : usedUp [(d, qtyOf s.order)] = [] := by
    rw [usedUp, List.filter_cons_of_neg (by simpa using Nat.ne_of_lt hlt)]
    rfl
  have hdone : qtyOf s'.order = 0 := by rw [horder, qtyOf_filledBy, Nat.sub_self]
  refine ⟨s', hs', UInt32.toNat_inj.mp hdone, ?_⟩
  exact {
    rep := ⟨G, [], hrep, by rw [hfills, hused]⟩
    resting := by
      rw [hrest, leftBehind, hsplit, Allocation.sweep_of_first_lt hq hfront helig hlt]
    order := by rw [hfills, afterFills_cons, horder, afterFills, if_pos rfl]
    out := by
      rw [hfills, hout]
      rfl
    erased := by
      rw [hfills, hused]
      exact herased
    nextSequence := hseq }

/-- **A maker that is used up** is the first of its fills; the rest goes on without it. -/
theorem performs_full (h : Rep s.engine n G fl) (hi : i ∈ G L (!buy) p)
    (hd : (s.engine.shared.pool.storage i).toOrderData = d)
    (hsplit : s.engine.resting L (!buy) = front ++ d :: back) (hq : qtyOf s.order ≠ 0)
    (hfront : ∀ x ∈ front, eligible buy s.order x = false) (helig : eligible buy s.order d = true)
    (hle : qtyOf d ≤ qtyOf s.order) :
    ∃ s₁ G₁, tradeWith L buy s i = some s₁ ∧ Rep s₁.engine n G₁ (i :: fl) ∧
      s₁.engine.resting L (!buy) = front ++ back ∧
      ∀ s₂, Performs L buy n (i :: fl) s₁ s₂ → Performs L buy n fl s s₂ := by
  obtain ⟨s₁, G₁, hs₁, hrep, hrest, horder, hout, herased, hseq⟩ :=
    tradeWith_full h hi hd hsplit hle
  have hside : s₁.engine.resting L (!buy) = front ++ back := by rw [hrest, setSide_self]
  have hel : eligible buy s₁.order = eligible buy s.order := by
    rw [horder]
    rfl
  have hq₁ : qtyOf s₁.order = qtyOf s.order - qtyOf d := by rw [horder, qtyOf_filledBy]
  have hfills : fills buy s.order (s.engine.resting L (!buy)) =
      (d, qtyOf d) :: fills buy s₁.order (s₁.engine.resting L (!buy)) := by
    rw [hside, fills, hsplit, Allocation.allocate_of_first hq hfront helig, Nat.min_eq_right hle,
      fills, hel, hq₁]
  have hused : usedUp (fills buy s.order (s.engine.resting L (!buy))) =
      d.orderId :: usedUp (fills buy s₁.order (s₁.engine.resting L (!buy))) := by
    rw [hfills, usedUp, List.filter_cons_of_pos (by simp), List.map_cons, usedUp]
  refine ⟨s₁, G₁, hs₁, hrep, hside, fun s₂ hrest₂ => ?_⟩
  obtain ⟨G₂, taken, hrep₂, hlen₂⟩ := hrest₂.rep
  exact {
    rep := ⟨G₂, taken ++ [i], by rwa [List.append_assoc], by
      rw [hused, List.length_append, hlen₂, List.length_singleton, List.length_cons]⟩
    resting := by
      rw [hrest₂.resting, hside, hrest, setSide_setSide, leftBehind, leftBehind, hsplit,
        Allocation.sweep_of_first_le hq hfront helig hle, hel, hq₁]
    order := by rw [hrest₂.order, hfills, afterFills_cons, ← horder]
    out := by
      rw [hrest₂.out, hout, hfills, List.map_cons, List.append_assoc]
      rfl
    erased := by
      rw [hused]
      exact herased.append hrest₂.erased
    nextSequence := hrest₂.nextSequence.trans hseq }

/-- **The matching loop** performs the reference allocation. It needs at most one iteration for
each order on the side it matches against, and one to see that it is done. -/
theorem matchLoop_spec {fuel : ℕ} (h : Rep s.engine n G fl)
    (hfuel : (s.engine.resting L (!buy)).length < fuel) :
    ∃ s', matchLoop L buy fuel s = some s' ∧ Performs L buy n fl s s' := by
  induction fuel generalizing s G fl with
  | zero => exact absurd hfuel (Nat.not_lt_zero _)
  | succ fuel ih =>
    by_cases hq : s.order.remainingQty = 0
    · have hq0 : qtyOf s.order = 0 := by rw [qtyOf, hq, UInt32.toNat_zero]
      exact ⟨s, by rw [matchLoop, if_pos hq], performs_stop h
        (by rw [fills, hq0, Allocation.allocate_zero])
        (by rw [leftBehind, hq0, Allocation.sweep_zero])⟩
    have hq0 : qtyOf s.order ≠ 0 := fun h0 => hq (UInt32.toNat_inj.mp h0)
    rcases h.getBest_spec L (!buy) s.order.userId with ⟨hbest, hown⟩ |
      ⟨i, p, front, back, hbest, hi, hsplit, hfront, hok⟩
    · -- only orders of the taker's own user
      have hown' : ∀ x ∈ s.engine.resting L !buy, eligible buy s.order x = false := fun x hx => by
        rw [eligible, hown x hx, Bool.false_and]
      obtain ⟨hf, hl⟩ := fills_of_not_eligible hown'
      exact ⟨s, by rw [matchLoop, if_neg hq, hbest]; rfl, performs_stop h hf hl⟩
    generalize hd : (s.engine.shared.pool.storage i).toOrderData = d at hsplit hok
    have hdp : (s.engine.shared.pool.storage i).price = d.price := congrArg OrderData.price hd
    have hloop : matchLoop L buy (fuel + 1) s = if beyond buy s.order.price d.price then some s
        else (tradeWith L buy s i).bind (matchLoop L buy fuel) := by
      rw [matchLoop, if_neg hq, hbest, ← hdp]
      rfl
    by_cases hb : beyond buy s.order.price d.price = true
    · -- the best order is beyond the limit
      have hsorted := h.resting_sorted L (!buy)
      rw [hsplit] at hsorted
      obtain ⟨hf, hl⟩ := fills_of_not_eligible (eligible_of_beyond hsorted hfront hb)
      rw [← hsplit] at hf hl
      exact ⟨s, by rw [hloop, if_pos hb], performs_stop h hf hl⟩
    -- a trade with `d`
    have helig : eligible buy s.order d = true := by
      rw [eligible, hok, Bool.true_and]
      simpa using hb
    have hfront' : ∀ x ∈ front, eligible buy s.order x = false := fun x hx => by
      rw [eligible, hfront x hx, Bool.false_and]
    rw [if_neg hb] at hloop
    have hlen : (front ++ back).length < fuel := by
      rw [hsplit] at hfuel
      simp only [List.length_append, List.length_cons] at hfuel ⊢
      omega
    rcases Nat.lt_or_ge (qtyOf s.order) (qtyOf d) with hlt | hle
    · obtain ⟨s', hs', hdone, hperf⟩ := performs_part h hi hd hsplit hq0 hfront' helig hlt
      obtain ⟨fuel, rfl⟩ := Nat.exists_eq_succ_of_ne_zero (Nat.ne_of_gt (Nat.zero_lt_of_lt hlen))
      exact ⟨s', by rw [hloop, hs', Option.bind_some, matchLoop, if_pos hdone], hperf⟩
    · obtain ⟨s₁, G₁, hs₁, hrep, hside, hgo⟩ := performs_full h hi hd hsplit hq0 hfront' helig hle
      obtain ⟨s₂, hs₂, hperf⟩ := ih hrep (by rwa [hside])
      exact ⟨s₂, by rw [hloop, hs₁, Option.bind_some, hs₂], hgo s₂ hperf⟩

end Performs

/-- **`matchBuyOrder` and `matchSellOrder`** return after the reference allocation. -/
theorem matchOrder_spec {e : MatchingEngine} {n : ℕ} {G : Layout} {fl : List ℕ}
    (h : Rep e n G fl) (L : ℕ) (buy : Bool) (order : OrderData) :
    ∃ s' G' taken, e.matchOrder L buy order = some s' ∧ Rep s'.engine n G' (taken ++ fl) ∧
      s'.engine.resting = setSide e.resting L (!buy)
        (leftBehind buy order (e.resting L (!buy))) ∧
      s'.order = afterFills order (fills buy order (e.resting L (!buy))) ∧
      s'.out = (fills buy order (e.resting L (!buy))).map (tradeFrame L buy) ∧
      SharedStore.Erased (usedUp (fills buy order (e.resting L (!buy))))
        e.shared s'.engine.shared ∧
      taken.length = (usedUp (fills buy order (e.resting L (!buy)))).length ∧
      s'.engine.nextSequence = e.nextSequence := by
  have hlen : (e.resting L (!buy)).length < e.shared.pool.capacity + 1 := by
    rw [h.resting_eq, List.length_map]
    exact Nat.lt_succ_of_le (LinkedList.length_le_of_nodup (h.slots_nodup L (!buy)) fun i hi =>
      h.holds.lt i (h.live_of_mem_slots hi))
  obtain ⟨s', hs', hperf⟩ := matchLoop_spec (s := { engine := e, order := order }) h hlen
  obtain ⟨G', taken, hrep, htaken⟩ := hperf.rep
  exact ⟨s', G', taken, hs', hrep, hperf.resting, hperf.order, hperf.out, hperf.erased, htaken,
    hperf.nextSequence⟩

end NebulaX.Exchange
