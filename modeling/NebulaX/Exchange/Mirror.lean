import NebulaX.Exchange.Registry
import NebulaX.Lib.Pending
import NebulaX.Market.ViewOrders

/-!
# What the view shows of one order

The view never sees the match. It is told of an event as a whole, and then of every trade by an
`EXECUTE` of its own, the incoming order's last. Until they have all arrived it shows too much. So
the relation between the book and the view is about what the view will show once the reductions
that are on their way have been made: `MirrorsAt` at one reference, with `settle` for what is on its
way.

Reductions commute, which makes room for the calls that the strategy makes while some are still to
come.

## Main results

* `MirrorsAt.arrival`, `MirrorsAt.effect` — a call of the engine and the reductions it causes
* `MirrorsAt.taker` — the incoming order, shown in full, and the reduction for its trades
-/

namespace NebulaX

open Exchange (MatchingEngine BinaryResponse OrderData Resting Arrival Command Effect Inv Fresh
  Rests RefsUnique afterMatch tradesOf partly qtyOf leave shrink filledQtyOf takerQty)
open Market (OrderSlotView OrderBookConsumer)
open Market.OrderBookConsumer (cut)
open Pending (settle)

/-! ### Reductions -/

/-- What a reduction leaves of an order that may be held. -/
def reduce (h : Option OrderSlotView) (q : UInt64) : Option OrderSlotView := h.bind fun s => cut s q

@[simp] theorem reduce_none (q : UInt64) : reduce none q = none := rfl

/-- **Reductions commute**: what matters is whether they use the order up together. -/
theorem reduce_comm (h : Option OrderSlotView) (p q : UInt64) :
    reduce (reduce h p) q = reduce (reduce h q) p := by
  have hcut : ∀ s p q, reduce (cut s p) q =
      if p.toNat + q.toNat < s.remaining.toNat then
        some { s with remaining := s.remaining - p - q } else none := by
    intro s p q
    have hp := UInt64.lt_iff_toNat_lt (a := p) (b := s.remaining)
    rw [cut]
    by_cases hlt : p < s.remaining
    · have hsub : (s.remaining - p).toNat = s.remaining.toNat - p.toNat :=
        UInt64.toNat_sub_of_le _ _ (UInt64.le_of_lt hlt)
      rw [if_pos hlt, reduce, Option.bind_some, cut]
      have hq := UInt64.lt_iff_toNat_lt (a := q) (b := s.remaining - p)
      have hplt := hp.mp hlt
      exact if_congr (by rw [hq]; omega) rfl rfl
    · have hle := mt hp.mpr hlt
      rw [if_neg hlt, if_neg (by omega)]
      rfl
  cases h with
  | none => rfl
  | some s =>
    have hswap : s.remaining - p - q = s.remaining - q - p := by grind
    show reduce (cut s p) q = reduce (cut s q) p
    rw [hcut, hcut, hswap, Nat.add_comm]

/-- An order that is not held will not be. -/
theorem settle_none {ref : ℕ} {ws : List (ℕ × UInt64)} : settle reduce ref ws none = none :=
  Pending.settle_of_fixed fun _ => rfl

namespace ExchangeSimulator

/-- The reductions of the makers that the answers of the engine call for. -/
def makerCuts (rsp : List BinaryResponse) : List (ℕ × UInt64) :=
  (tradesIn rsp).map fun t => (t.1, t.2.2.toUInt64)

/-- The reduction of the incoming order. -/
def takerCut (ref : ℕ) (rsp : List BinaryResponse) : List (ℕ × UInt64) :=
  if 0 < totalFill (tradesIn rsp) then [(ref, totalFill (tradesIn rsp))] else []

theorem settle_takerCut_of_ne {ref r : ℕ} (hne : r ≠ ref) (rsp : List BinaryResponse)
    (h : Option OrderSlotView) : settle reduce r (takerCut ref rsp) h = h := by
  refine Pending.settle_of_not_mem ?_
  rw [takerCut]
  split
  · simpa using hne
  · exact List.not_mem_nil

/-- The sum of the trades does not overflow. -/
theorem toNat_totalFill {rsp : List BinaryResponse} (hlt : takerQty rsp < 2 ^ 64) :
    (totalFill (tradesIn rsp)).toNat = takerQty rsp := by
  rw [takerQty_eq_sum] at hlt ⊢
  generalize tradesIn rsp = ts at hlt ⊢
  induction ts with
  | nil => rfl
  | cons t ts ih =>
    rw [List.map_cons, List.sum_cons] at hlt ⊢
    have ih := ih (by omega)
    rw [totalFill] at ih ⊢
    rw [List.map_cons, List.sum_cons, UInt64.toNat_add, ih, UInt32.toNat_toUInt64]
    exact Nat.mod_eq_of_lt hlt

end ExchangeSimulator

open ExchangeSimulator (makerCuts takerCut)

/-! ### One order -/

/-- The view shows the resting order `x` of the side `b`: its side, its price, what is left. -/
structure Shows (s : OrderSlotView) (b : Bool) (x : OrderData) : Prop where
  /-- `side`. -/
  side : s.side = if b then .buy else .sell
  /-- `price`. -/
  price : s.price = x.price.toUInt64.toInt64
  /-- `remaining`. -/
  remaining : s.remaining = x.remainingQty.toUInt64

/-- **The view and the book agree at a reference**: it shows nothing and no order rests, or it
shows the one that rests, in the book with its locate. -/
def MirrorsAt (R : Resting) (ref : ℕ) : Option OrderSlotView → ℕ → Prop
  | none, _ => Fresh R ref
  | some s, L => ∃ b, ∃ x ∈ R L b, x.orderId = ref ∧ Shows s b x

section Shows

variable {s : OrderSlotView} {b : Bool} {x : OrderData}

theorem Shows.toNat_remaining (h : Shows s b x) : s.remaining.toNat = qtyOf x := by
  rw [h.remaining, UInt32.toNat_toUInt64]
  rfl

/-- A reduction by all that is left, or more, removes the order. -/
theorem Shows.cut_all (h : Shows s b x) {q : UInt64} (hle : qtyOf x ≤ q.toNat) :
    cut s q = none := by
  rw [← h.toNat_remaining, ← UInt64.le_iff_toNat_le] at hle
  exact if_neg (UInt64.not_lt.mpr hle)

/-- A reduction by less leaves the rest. -/
theorem Shows.cut_part (h : Shows s b x) {q : UInt64} (hlt : q.toNat < qtyOf x) :
    ∃ s', cut s q = some s' ∧
      ∀ y : OrderData, y.price = x.price → qtyOf y = qtyOf x - q.toNat → Shows s' b y := by
  rw [← h.toNat_remaining, ← UInt64.lt_iff_toNat_lt] at hlt
  refine ⟨_, if_pos hlt, fun y hp hq => ⟨h.side, by rw [hp, ← h.price], ?_⟩⟩
  have hsub := UInt64.toNat_sub_of_le _ _ (UInt64.le_of_lt hlt)
  refine UInt64.toNat_inj.mp ?_
  rw [UInt32.toNat_toUInt64]
  exact (hsub.trans (by rw [h.toNat_remaining])).trans hq.symm

end Shows

section Mirrors

variable {R : Resting} {L a ref : ℕ} {b : Bool} {x : OrderData} {h : Option OrderSlotView}

/-- What does not rest is not shown. -/
theorem MirrorsAt.eq_none (hm : MirrorsAt R ref h a) (hfresh : Fresh R ref) : h = none := by
  cases h with
  | none => rfl
  | some s =>
    obtain ⟨b, x, hx, hid, -⟩ := hm
    exact absurd hid (hfresh a b x hx)

/-- What rests is shown. -/
theorem MirrorsAt.of_mem (hm : MirrorsAt R ref h a) (hR : RefsUnique R) (hx : x ∈ R L b)
    (hid : x.orderId = ref) : ∃ s, h = some s ∧ a = L ∧ Shows s b x := by
  cases h with
  | none => exact absurd hid (hm L b x hx)
  | some s =>
    obtain ⟨b', y, hy, hyid, hs⟩ := hm
    obtain ⟨rfl, rfl, rfl⟩ := hR.unique hx hy (hid.trans hyid.symm)
    exact ⟨s, rfl, rfl, hs⟩

end Mirrors

/-! ### Calls of the engine -/

section Calls

variable {R R' : Resting} {L a ref : ℕ} {o : OrderData} {stays : Bool}
  {rsp : List BinaryResponse} {h : Option OrderSlotView}

theorem MirrorsAt.leave (hm : MirrorsAt R ref h a) {r : ℕ} (hne : ref ≠ r) (L : ℕ) (b : Bool) :
    MirrorsAt (leave R L b r) ref h a := by
  cases h with
  | none => exact fun L' b' x hx => hm L' b' x (Exchange.mem_leave hx)
  | some s =>
    obtain ⟨b', x, hx, hid, hs⟩ := hm
    exact ⟨b', x, Exchange.mem_leave_of_ne hx (hid ▸ hne), hid, hs⟩

theorem MirrorsAt.shrink (hm : MirrorsAt R ref h a) {r : ℕ} (hne : ref ≠ r) (L : ℕ) (b : Bool)
    (q : UInt32) : MirrorsAt (shrink R L b r q) ref h a := by
  cases h with
  | none =>
    intro L' b' x hx
    rcases Exchange.mem_shrink hx with ⟨hx, -⟩ | ⟨y, hy, -, -, -, rfl⟩
    · exact hm L' b' x hx
    · exact hm L' b' y hy
  | some s =>
    obtain ⟨b', x, hx, hid, hs⟩ := hm
    exact ⟨b', x, Exchange.mem_shrink_of_ne hx (hid ▸ hne), hid, hs⟩

/-- What is fresh after the trades of an incoming order is fresh, unless it is that order. -/
theorem fresh_of_arrival (ha : Arrival R L o stays rsp R') (hne : ref ≠ o.orderId)
    (hfresh : Fresh (afterMatch R L o) ref) : Fresh R' ref := by
  intro L' b x hx hid
  rcases ha.mem_cases hx with hx | ⟨rfl, -⟩
  · exact hfresh L' b x hx hid
  · exact hne (hid.symm.trans (Exchange.afterFills_orderId ..))

theorem makerCuts_of_arrival (ha : Arrival R L o stays rsp R') :
    makerCuts rsp = (tradesOf R L o).map fun p =>
      (p.1.orderId, (UInt32.ofNat p.2).toUInt64) := by
  rw [makerCuts, tradesIn_of_arrival ha, List.map_map]
  rfl

/-- **An incoming order trades with the others**: once they are reduced, they are mirrored. -/
theorem MirrorsAt.arrival (hm : MirrorsAt R ref h a) (hR : RefsUnique R)
    (ha : Arrival R L o stays rsp R') (hne : ref ≠ o.orderId) :
    MirrorsAt R' ref (settle reduce ref (makerCuts rsp) h) a := by
  cases h with
  | none =>
    rw [settle_none]
    exact fresh_of_arrival ha hne (Fresh.afterMatch hm L o)
  | some s =>
    obtain ⟨b, x, hx, rfl, hs⟩ := hm
    rw [makerCuts_of_arrival ha]
    have hnd : (((tradesOf R L o).map fun p =>
        (p.1.orderId, (UInt32.ofNat p.2).toUInt64)).map Prod.fst).Nodup := by
      rw [List.map_map]
      exact Exchange.tradesOf_refs_nodup hR
    have hmade : ∀ t, (x, t) ∈ tradesOf R L o → settle reduce x.orderId
        ((tradesOf R L o).map fun p => (p.1.orderId, (UInt32.ofNat p.2).toUInt64)) (some s) =
          cut s (UInt32.ofNat t).toUInt64 := fun t ht =>
      Pending.settle_of_mem hnd (List.mem_map_of_mem (f := fun p : OrderData × ℕ =>
        (p.1.orderId, (UInt32.ofNat p.2).toUInt64)) ht)
    have hof : ∀ t ≤ qtyOf x, (UInt32.ofNat t).toUInt64.toNat = t := fun t ht => by
      have hlt := Exchange.qtyOf_lt x
      rw [UInt32.toNat_toUInt64, UInt32.toNat_ofNat', Nat.mod_eq_of_lt (by omega)]
    rcases Exchange.afterMatch_cases (L := L) (o := o) hR hx with
      ⟨hy, hnot⟩ | ⟨t, hlt, ht, hy⟩ | ⟨ht, hgone⟩
    · -- no trade names it
      rw [Pending.settle_of_not_mem]
      · exact ⟨b, x, ha.mem_of_afterMatch hy, rfl, hs⟩
      · rw [List.map_map]
        intro hmem
        obtain ⟨p, hp, hid⟩ := List.mem_map.mp hmem
        exact hnot p hp hid
    · -- one trade leaves some of it
      have hle := Nat.le_of_lt hlt
      obtain ⟨s', hcut, hshows⟩ := hs.cut_part (q := (UInt32.ofNat t).toUInt64)
        (by rwa [hof t hle])
      rw [hmade t ht, hcut]
      refine ⟨b, _, ha.mem_of_afterMatch hy, rfl, hshows _ rfl ?_⟩
      rw [hof t hle, Exchange.qtyOf_partly hle]
    · -- one trade uses it up
      rw [hmade _ ht, hs.cut_all]
      · exact fresh_of_arrival ha hne hgone
      · exact Nat.le_of_eq (hof _ le_rfl).symm

/-- **A call trades with the orders that it does not name**: once they are reduced, they are
mirrored. -/
theorem MirrorsAt.effect {e : MatchingEngine} {c : Command} (hm : MirrorsAt e.resting ref h a)
    (hinv : Inv e) (heff : Effect e c rsp R') (hnew : c.newRef ≠ some ref)
    (htarget : c.target ≠ some ref) :
    MirrorsAt R' ref (settle reduce ref (makerCuts rsp) h) a := by
  cases heff with
  | rejected => exact hm
  | killed => exact hm
  | added _ ha => exact hm.arrival hinv.refsUnique ha fun he => hnew (congrArg some he.symm)
  | cancelled => exact hm.leave (fun he => htarget (congrArg some he.symm)) _ _
  | cancelRefused => exact hm
  | sharesAll => exact hm.leave (fun he => htarget (congrArg some he.symm)) _ _
  | sharesPart => exact hm.shrink (fun he => htarget (congrArg some he.symm)) _ _ _
  | sharesRefused => exact hm
  | replaced _ _ _ ha =>
    refine MirrorsAt.arrival (hm.leave ?_ _ _) (hinv.refsUnique.leave _ _ _) ha ?_
    · exact fun he => htarget (congrArg some he.symm)
    · exact fun he => hnew (congrArg some he.symm)
  | replaceRefused => exact hm

/-- **The incoming order** is shown in full first. Once it is reduced by its trades, it is mirrored,
if its rest may hang in the book. -/
theorem MirrorsAt.taker {s : OrderSlotView} (hs : Shows s o.side.isBuy o)
    (hfresh : Fresh R o.orderId) (hopen : o.status = .open) (ha : Arrival R L o true rsp R') :
    MirrorsAt R' o.orderId (settle reduce o.orderId (takerCut o.orderId rsp) (some s)) L := by
  have hsmall := Exchange.qtyOf_lt o
  have hle : filledQtyOf (tradesOf R L o) ≤ qtyOf o := by
    rw [tradesOf, Exchange.filledQtyOf_fills]
    exact Nat.min_le_left _ _
  have htotal : (ExchangeSimulator.totalFill (ExchangeSimulator.tradesIn rsp)).toNat =
      filledQtyOf (tradesOf R L o) := by
    rw [ExchangeSimulator.toNat_totalFill (by rw [ha.takerQty_eq]; omega), ha.takerQty_eq]
  have hpos := UInt64.lt_iff_toNat_lt (a := 0)
    (b := ExchangeSimulator.totalFill (ExchangeSimulator.tradesIn rsp))
  rw [htotal] at hpos
  have hrest : qtyOf (Exchange.residual R L o) = qtyOf o - filledQtyOf (tradesOf R L o) :=
    Exchange.qtyOf_afterFills ..
  cases ha with
  | filled hfilled =>
    -- it traded, with something to trade, and all of it
    have hsome : tradesOf R L o ≠ [] := by
      intro hnil
      rw [Exchange.residual, hnil, Exchange.afterFills, if_pos rfl, hopen] at hfilled
      cases hfilled
    have hall : qtyOf o ≤ filledQtyOf (tradesOf R L o) := by
      rw [Exchange.residual, Exchange.afterFills, if_neg hsome] at hfilled
      by_contra hlt
      exact absurd ((if_neg hlt).symm.trans hfilled) (by decide)
    have hne : qtyOf o ≠ 0 := by
      intro hzero
      refine hsome ?_
      rw [tradesOf, Exchange.fills, hzero, Allocation.allocate_zero]
    have hcut := hs.cut_all (q := ExchangeSimulator.totalFill _) (hall.trans_eq htotal.symm)
    rw [takerCut, if_pos (hpos.mpr (by simp; omega)), settle, if_pos rfl]
    show MirrorsAt _ _ (cut s _) L
    rw [hcut]
    exact hfresh.afterMatch L o
  | rests hnot =>
    have hin : Exchange.residual R L o ∈
        Exchange.enter (afterMatch R L o) L (Exchange.residual R L o) L
        o.side.isBuy :=
      Exchange.mem_enter.mpr
        (Or.inl ⟨rfl, by rw [Exchange.residual, Exchange.afterFills_side], rfl⟩)
    have hid : (Exchange.residual R L o).orderId = o.orderId := Exchange.afterFills_orderId ..
    have hprice : (Exchange.residual R L o).price = o.price := Exchange.afterFills_price ..
    by_cases hzero : 0 < filledQtyOf (tradesOf R L o)
    · have hleft := Exchange.qtyOf_residual_pos (Nat.lt_of_lt_of_le hzero hle) hnot
      obtain ⟨s', hcut, hshows⟩ := hs.cut_part (q := ExchangeSimulator.totalFill _)
        (by rw [htotal]; omega)
      rw [takerCut, if_pos (hpos.mpr (by simpa using hzero)), settle, if_pos rfl]
      show MirrorsAt _ _ (cut s _) L
      rw [hcut]
      exact ⟨_, _, hin, hid, hshows _ hprice (by rw [hrest, htotal])⟩
    · rw [takerCut, if_neg fun hlt => hzero (by simpa using hpos.mp hlt)]
      refine ⟨_, _, hin, hid, hs.side, by rw [hprice, hs.price], ?_⟩
      rw [hs.remaining]
      exact congrArg UInt32.toUInt64 (UInt32.toNat_inj.mp (by
        show qtyOf o = qtyOf _
        rw [hrest]
        omega))
  | dropped _ hstays => exact absurd hstays (by decide)

end Calls

end NebulaX
