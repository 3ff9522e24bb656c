import Mathlib.Algebra.BigOperators.Group.Finset.Basic
import NebulaX.Market.Books

/-!
# What the levels of a view say about its orders

A level counts the orders at its price and adds up what is left of them. `LevelSays` states that
for one level and `Exact` for all of them. This file follows the calls on a book one by one and
finds exactly when they keep it.

`add` always does. `remove` takes the *original* quantity of the order off the level, so it does
unless other orders share the level and something of the order is gone. `cancel` and `execute`
take what they reduce off the level first, through `dec_level_qty`, which erases the level when
its total becomes zero; a partial reduction is exact unless that happens. A full reduction then
runs `unlink_and_free` as well: it takes the original quantity off a second time, and when the
level was erased it makes a new one with a count of `2³² - 1`.

## Main results

* `LevelSays.unlink_iff`, `LevelSays.dec_iff`, `LevelSays.full_iff` — the two helpers, alone and
  one after the other
* `exact_add`, `exact_remove_iff`, `exact_cancel_iff`, `exact_replace_iff` — the calls
* `reachable_exact` — **the levels stay exact** while every call is one that keeps them so
-/

namespace NebulaX.Market

open PriceLevelTable (IsPrice)

/-! ### One level -/

/-- What a level should say about the orders `s` at its price, of which `w` is left: there is
one if there are orders, and it has their number and the sum of what is left, modulo `2³²`. -/
def LevelSays (w : ℕ → ℕ) (s : Finset ℕ) : Option PriceLevel → Prop
  | none => s = ∅
  | some l => s.Nonempty ∧ l.count = UInt32.ofNat s.card ∧ l.totalQty = UInt32.ofNat (∑ i ∈ s, w i)

namespace LevelSays

variable {w w' : ℕ → ℕ} {s : Finset ℕ} {o : Option PriceLevel} {l : PriceLevel} {i : ℕ}

theorem congr (hw : ∀ i ∈ s, w' i = w i) : LevelSays w' s o ↔ LevelSays w s o := by
  cases o with
  | none => exact Iff.rfl
  | some l => rw [LevelSays, LevelSays, Finset.sum_congr rfl hw]

theorem exists_of_mem (h : LevelSays w s o) (hi : i ∈ s) : ∃ l, o = some l := by
  cases o with
  | none => exact absurd hi (h ▸ Finset.notMem_empty i)
  | some l => exact ⟨l, rfl⟩

/-- `UInt32.ofNat` of a number below `2³²` that is zero. -/
theorem ofNat_eq_zero {n : ℕ} (hn : n < 2 ^ 32) : UInt32.ofNat n = 0 ↔ n = 0 := by
  rw [← UInt32.toNat_inj, UInt32.toNat_ofNat', Nat.mod_eq_of_lt hn]
  rfl

/-- **A new order** enters its level, or makes it. -/
theorem push (h : LevelSays w s o) (hi : i ∉ s) {shares : UInt64} (hw : w i = shares.toNat) :
    LevelSays w (insert i s) (some (OrderBook.pushLevel i shares (o.getD {}))) := by
  have hold : (o.getD {}).count = UInt32.ofNat s.card ∧
      (o.getD {}).totalQty = UInt32.ofNat (∑ i ∈ s, w i) := by
    cases o with
    | none =>
      obtain rfl : s = ∅ := h
      exact ⟨rfl, rfl⟩
    | some l => exact h.2
  refine ⟨Finset.insert_nonempty i s, ?_, ?_⟩
  · rw [Finset.card_insert_of_notMem hi, UInt32.ofNat_add, ← hold.1]
    rfl
  · rw [Finset.sum_insert hi, hw, Nat.add_comm, UInt32.ofNat_add, ← hold.2,
      UInt32.ofNat_uInt64ToNat]
    rfl

/-- A level that is no ghost was right before the order came if it is right now. -/
theorem of_push (hghost : ∀ l, o = some l → s.Nonempty) (hcard : s.card < 2 ^ 32) (hi : i ∉ s)
    {shares : UInt64} (hw : w i = shares.toNat)
    (h : LevelSays w (insert i s) (some (OrderBook.pushLevel i shares (o.getD {})))) :
    LevelSays w s o := by
  obtain ⟨-, hcount, htotal⟩ := h
  rw [Finset.card_insert_of_notMem hi, UInt32.ofNat_add] at hcount
  rw [Finset.sum_insert hi, hw, Nat.add_comm, UInt32.ofNat_add, UInt32.ofNat_uInt64ToNat] at htotal
  have hcount' : (o.getD {}).count = UInt32.ofNat s.card := (UInt32.add_left_inj 1).mp hcount
  have htotal' : (o.getD {}).totalQty = UInt32.ofNat (∑ i ∈ s, w i) :=
    (UInt32.add_left_inj shares.toUInt32).mp htotal
  cases o with
  | none => exact Finset.card_eq_zero.mp ((ofNat_eq_zero hcard).mp hcount'.symm)
  | some l => exact ⟨hghost l rfl, hcount', htotal'⟩

/-- **`unlink_and_free`** is right about the last order of a level, and otherwise when the order
still has its original quantity. -/
theorem unlink_iff (h : LevelSays w s (some l)) (hi : i ∈ s) (hcard : s.card < 2 ^ 32)
    (slot : OrderSlot) :
    LevelSays w (s.erase i) (if (OrderBook.unlinkLevel slot l).count = 0 then none
        else some (OrderBook.unlinkLevel slot l)) ↔
      s = {i} ∨ slot.shares.toUInt32 = UInt32.ofNat (w i) := by
  obtain ⟨-, hcount, htotal⟩ := h
  have hpos : 1 ≤ s.card := Finset.card_pos.mpr ⟨i, hi⟩
  have hcount' : (OrderBook.unlinkLevel slot l).count = UInt32.ofNat (s.card - 1) := by
    rw [OrderBook.unlinkLevel, hcount, UInt32.ofNat_sub hpos]
    rfl
  have hsum : UInt32.ofNat (∑ j ∈ s.erase i, w j) = l.totalQty - UInt32.ofNat (w i) := by
    rw [htotal, ← Finset.sum_erase_add s w hi, UInt32.ofNat_add, UInt32.add_sub_cancel]
  by_cases hone : s = {i}
  · subst hone
    rw [if_pos (by rw [hcount', Finset.card_singleton]; rfl)]
    exact iff_of_true (Finset.erase_singleton i) (Or.inl rfl)
  · have hne : s.erase i ≠ ∅ := fun he => by
      rcases Finset.erase_eq_empty_iff s i |>.mp he with rfl | he
      · exact absurd hi (Finset.notMem_empty i)
      · exact hone he
    have hcard' : s.card - 1 ≠ 0 := by
      rw [← Finset.card_erase_of_mem hi]
      exact Finset.card_ne_zero.mpr (Finset.nonempty_iff_ne_empty.mpr hne)
    rw [if_neg (by rw [hcount', ofNat_eq_zero (by omega)]; exact hcard'), or_iff_right hone]
    have htotal' : (OrderBook.unlinkLevel slot l).totalQty =
        l.totalQty - slot.shares.toUInt32 := rfl
    rw [LevelSays, hcount', Finset.card_erase_of_mem hi, htotal', hsum, UInt32.sub_right_inj]
    exact ⟨fun hc => hc.2.2, fun hc => ⟨Finset.nonempty_iff_ne_empty.mpr hne, rfl, hc⟩⟩

/-- It leaves no level without orders. -/
theorem nonempty_of_unlink (h : LevelSays w s (some l)) (hi : i ∈ s) (hcard : s.card < 2 ^ 32)
    {slot : OrderSlot} {l' : PriceLevel}
    (hl' : (if (OrderBook.unlinkLevel slot l).count = 0 then none
        else some (OrderBook.unlinkLevel slot l)) = some l') : (s.erase i).Nonempty := by
  by_contra hempty
  have hone := (h.unlink_iff hi hcard slot).mpr <| by
    rcases (Finset.erase_eq_empty_iff s i).mp (Finset.not_nonempty_iff_eq_empty.mp hempty)
      with rfl | hs
    · exact absurd hi (Finset.notMem_empty i)
    · exact Or.inl hs
  rw [hl'] at hone
  exact hempty hone.1

/-- **`dec_level_qty`** is right unless nothing is left at the price, modulo `2³²`. -/
theorem dec_iff (h : LevelSays w s (some l)) (hi : i ∈ s) {q : UInt64}
    (hw : ∑ i ∈ s, w' i + q.toNat = ∑ i ∈ s, w i) :
    LevelSays w' s (if l.totalQty - q.toUInt32 = 0 then none
        else some { l with totalQty := l.totalQty - q.toUInt32 }) ↔
      UInt32.ofNat (∑ i ∈ s, w' i) ≠ 0 := by
  obtain ⟨hne, hcount, htotal⟩ := h
  have hsum : l.totalQty - q.toUInt32 = UInt32.ofNat (∑ i ∈ s, w' i) := by
    rw [htotal, ← hw, UInt32.ofNat_add, UInt32.ofNat_uInt64ToNat, UInt32.add_sub_cancel]
  rw [hsum]
  split
  · next h0 => exact iff_of_false (Finset.ne_empty_of_mem hi) (not_not.mpr h0)
  · next h0 => exact iff_of_true ⟨hne, hcount, rfl⟩ h0

/-- **Both helpers**, for an order that is taken off completely: right only when other orders
are left at the price and the original quantity was zero, modulo `2³²`. -/
theorem full_iff (h : LevelSays w s (some l)) (hi : i ∈ s) (hcard : s.card < 2 ^ 32)
    {r : UInt64} (hr : w i = r.toNat) (slot : OrderSlot) {o' : Option PriceLevel}
    (ho' : o' = if l.totalQty - r.toUInt32 = 0 then none
      else some { l with totalQty := l.totalQty - r.toUInt32 }) :
    LevelSays w (s.erase i) (if (OrderBook.unlinkLevel slot (o'.getD {})).count = 0 then none
        else some (OrderBook.unlinkLevel slot (o'.getD {}))) ↔
      UInt32.ofNat (∑ j ∈ s.erase i, w j) ≠ 0 ∧ slot.shares.toUInt32 = 0 := by
  obtain ⟨hne, hcount, htotal⟩ := h
  have hsum : l.totalQty - r.toUInt32 = UInt32.ofNat (∑ j ∈ s.erase i, w j) := by
    rw [htotal, ← Finset.sum_erase_add s w hi, hr, UInt32.ofNat_add, UInt32.ofNat_uInt64ToNat,
      UInt32.add_sub_cancel]
  have hpos : 1 ≤ s.card := Finset.card_pos.mpr ⟨i, hi⟩
  rw [hsum] at ho'
  by_cases h0 : UInt32.ofNat (∑ j ∈ s.erase i, w j) = 0
  · -- the level is gone and made anew, with a count below zero
    rw [if_pos h0] at ho'
    subst ho'
    refine iff_of_false (fun hsays => ?_) fun hc => hc.1 h0
    have hcount' : (OrderBook.unlinkLevel slot ((none : Option PriceLevel).getD {})).count =
        UInt32.ofNat (2 ^ 32 - 1) := rfl
    rw [hcount', if_neg (by decide)] at hsays
    have hc := hsays.2.1
    rw [hcount', Finset.card_erase_of_mem hi, ← UInt32.toNat_inj, UInt32.toNat_ofNat',
      UInt32.toNat_ofNat'] at hc
    omega
  · rw [if_neg h0] at ho'
    subst ho'
    -- the level still counts the order, and holds what is left of the others
    have hmany : s.erase i ≠ ∅ := fun he => h0 (by rw [he, Finset.sum_empty]; rfl)
    have hcount' : (OrderBook.unlinkLevel slot
        ((some { l with totalQty := UInt32.ofNat (∑ j ∈ s.erase i, w j) } :
          Option PriceLevel).getD {})).count = UInt32.ofNat (s.card - 1) := by
      show l.count - 1 = _
      rw [hcount, UInt32.ofNat_sub hpos]
      rfl
    have hcard' : s.card - 1 ≠ 0 := by
      rw [← Finset.card_erase_of_mem hi]
      exact Finset.card_ne_zero.mpr (Finset.nonempty_iff_ne_empty.mpr hmany)
    rw [if_neg (by rw [hcount', ofNat_eq_zero (by omega)]; exact hcard'), LevelSays, hcount',
      Finset.card_erase_of_mem hi]
    have htotal' : (OrderBook.unlinkLevel slot
        ((some { l with totalQty := UInt32.ofNat (∑ j ∈ s.erase i, w j) } :
          Option PriceLevel).getD {})).totalQty =
        UInt32.ofNat (∑ j ∈ s.erase i, w j) - slot.shares.toUInt32 := rfl
    rw [htotal', UInt32.sub_eq_iff_eq_add]
    constructor
    · rintro ⟨-, -, hc⟩
      exact ⟨h0, by rwa [UInt32.left_eq_add] at hc⟩
    · rintro ⟨-, hc⟩
      exact ⟨Finset.nonempty_iff_ne_empty.mpr hmany, rfl, by rw [hc, UInt32.add_zero]⟩

end LevelSays

/-! ### All levels -/

namespace Books

/-- The slots that hold an order. -/
def Live (v : Books) (i : ℕ) : Prop := InUse v v.shared.pool.freeSlots i

/-- The live orders of one side of a book at a price. -/
def orders (v : Books) (L : ℕ) (buy : Bool) (p : Int64) : Finset ℕ :=
  {i ∈ Finset.range v.shared.pool.capacity | i ∉ v.shared.pool.freeSlots ∧
    v.addedTo (v.slot i).orderRef = L ∧ (v.slot i).isBuy = buy ∧ (v.slot i).price = p}

/-- What is left of the order in a slot. -/
def left (v : Books) (i : ℕ) : ℕ := (v.slot i).remaining.toNat

/-- The live orders at the price of order `i`, on its side of its book. -/
def peers (v : Books) (i : ℕ) : Finset ℕ :=
  v.orders (v.addedTo (v.slot i).orderRef) (v.slot i).isBuy (v.slot i).price

end Books

/-- Every level says what it should about the live orders at its price. -/
def Exact (v : Books) : Prop :=
  ∀ L buy p, IsPrice p → LevelSays v.left (v.orders L buy p) (v.level? L buy p)

section Levels

variable {v v' : Books} {fl : List ℕ} {i L : ℕ} {buy : Bool} {p : Int64}

theorem Rep.live_iff (h : Rep v fl) : v.Live i ↔ InUse v fl i := by
  rw [Books.Live, h.holds.free.freeSlots_eq]

theorem Rep.mem_orders (h : Rep v fl) : i ∈ v.orders L buy p ↔ InUse v fl i ∧
    v.addedTo (v.slot i).orderRef = L ∧ (v.slot i).isBuy = buy ∧ (v.slot i).price = p := by
  rw [Books.orders, Finset.mem_filter, Finset.mem_range, h.holds.free.freeSlots_eq, ← and_assoc]
  exact Iff.rfl

theorem Rep.mem_peers (h : Rep v fl) (hi : InUse v fl i) : i ∈ v.peers i :=
  h.mem_orders.mpr ⟨hi, rfl, rfl, rfl⟩

theorem Rep.card_orders (h : Rep v fl) : (v.orders L buy p).card < 2 ^ 32 := by
  have hcap := h.holds.free.capacity_le
  have hle := Finset.card_filter_le (Finset.range v.shared.pool.capacity) fun i =>
    i ∉ v.shared.pool.freeSlots ∧ v.addedTo (v.slot i).orderRef = L ∧ (v.slot i).isBuy = buy ∧
      (v.slot i).price = p
  rw [Finset.card_range] at hle
  rw [uint32Max] at hcap
  rw [Books.orders]
  omega

/-- A call that touches one level keeps all of them exact when it keeps that one so. -/
theorem exact_iff_at (he : Exact v) (hp : IsPrice p)
    (horders : ∀ L' buy' q, ¬ (L' = L ∧ buy' = buy ∧ q = p) →
      v'.orders L' buy' q = v.orders L' buy' q)
    (hlevel : ∀ L' buy' q, IsPrice q → ¬ (L' = L ∧ buy' = buy ∧ q = p) →
      v'.level? L' buy' q = v.level? L' buy' q)
    (hleft : ∀ L' buy' q, ¬ (L' = L ∧ buy' = buy ∧ q = p) →
      ∀ j ∈ v.orders L' buy' q, v'.left j = v.left j) :
    Exact v' ↔ LevelSays v'.left (v'.orders L buy p) (v'.level? L buy p) := by
  constructor
  · intro he'
    exact he' L buy p hp
  · intro hsays L' buy' q hq
    by_cases hc : L' = L ∧ buy' = buy ∧ q = p
    · obtain ⟨rfl, rfl, rfl⟩ := hc
      exact hsays
    · rw [horders _ _ _ hc, hlevel _ _ _ hq hc, LevelSays.congr (hleft _ _ _ hc)]
      exact he L' buy' q hq

/-! ### Which orders are live after a call -/

/-- Adding puts one order in. -/
theorem Rep.orders_add (h : Rep v (i :: fl)) (h' : Rep v' fl) {ref : ℕ} {s : OrderSlotView}
    (hcap : v'.shared.pool.capacity = v.shared.pool.capacity)
    (hfresh : ∀ j, InUse v (i :: fl) j → (v.slot j).orderRef ≠ ref) (href : s.orderRef = ref)
    (hslot : v'.slot = Function.update v.slot i s)
    (hadded : v'.addedTo = Function.update v.addedTo ref L) (L' : ℕ) (buy : Bool) (q : Int64) :
    v'.orders L' buy q = if L' = L ∧ buy = s.isBuy ∧ q = s.price then insert i (v.orders L' buy q)
      else v.orders L' buy q := by
  have hnodup := (List.nodup_cons.mp h.holds.free.nodup).1
  have hi : InUse v' fl i := by
    rw [InUse, hcap]
    exact ⟨h.holds.free.lt i List.mem_cons_self, hnodup⟩
  have hother : ∀ j, j ≠ i → (j ∈ v'.orders L' buy q ↔ j ∈ v.orders L' buy q) := by
    intro j hj
    have huse : InUse v' fl j ↔ InUse v (i :: fl) j := by
      rw [InUse, InUse, hcap, List.mem_cons, not_or]
      exact and_congr_right fun _ => (and_iff_right hj).symm
    rw [h'.mem_orders, h.mem_orders, huse, hslot, Function.update_of_ne hj, hadded]
    refine and_congr_right fun hused => ?_
    rw [Function.update_of_ne (hfresh j hused)]
  have hself : i ∈ v'.orders L' buy q ↔ L' = L ∧ buy = s.isBuy ∧ q = s.price := by
    rw [h'.mem_orders, and_iff_right hi, hslot, Function.update_self, hadded, href,
      Function.update_self]
    exact and_congr eq_comm (and_congr eq_comm eq_comm)
  have hold : i ∉ v.orders L' buy q := fun hm => (h.mem_orders.mp hm).1.2 List.mem_cons_self
  ext j
  by_cases hj : j = i
  · subst hj
    rw [hself]
    split
    · next hc => exact iff_of_true hc (Finset.mem_insert_self j _)
    · next hc => exact iff_of_false hc hold
  · rw [hother j hj]
    split
    · exact (Finset.mem_insert.trans (or_iff_right hj)).symm
    · rfl

/-- Writing what is left of an order changes nothing. -/
theorem Rep.orders_same (h : Rep v fl) (h' : Rep v' fl)
    (hcap : v'.shared.pool.capacity = v.shared.pool.capacity) (hadded : v'.addedTo = v.addedTo)
    {r : UInt64} (hslot : v'.slot = Function.update v.slot i { v.slot i with remaining := r }) :
    v'.orders L buy p = v.orders L buy p := by
  ext j
  rw [h.mem_orders, h'.mem_orders, InUse, InUse, hcap, hadded, hslot]
  by_cases hj : j = i
  · subst hj
    rw [Function.update_self]
    rfl
  · rw [Function.update_of_ne hj]

/-- Taking off takes one order out. -/
theorem Rep.orders_erase (h : Rep v fl) (h' : Rep v' (i :: fl))
    (hcap : v'.shared.pool.capacity = v.shared.pool.capacity) (hadded : v'.addedTo = v.addedTo)
    (hslot : ∀ j, j ≠ i → v'.slot j = v.slot j) :
    v'.orders L buy p = (v.orders L buy p).erase i := by
  ext j
  rw [h'.mem_orders, Finset.mem_erase, h.mem_orders, InUse, InUse, hcap, hadded, List.mem_cons,
    not_or]
  by_cases hj : j = i
  · exact iff_of_false (fun hc => hc.1.2.1 hj) fun hc => hc.1 hj
  · rw [hslot j hj]
    exact ⟨fun hc => ⟨hj, ⟨hc.1.1, hc.1.2.2⟩, hc.2⟩, fun hc => ⟨⟨hc.2.1.1, hj, hc.2.1.2⟩, hc.2.2⟩⟩

/-- An order is at one price only. -/
theorem Rep.not_mem_orders (h : Rep v fl)
    (hc : ¬ (L = v.addedTo (v.slot i).orderRef ∧ buy = (v.slot i).isBuy ∧ p = (v.slot i).price)) :
    i ∉ v.orders L buy p := by
  intro hm
  obtain ⟨-, hL, hb, hp⟩ := h.mem_orders.mp hm
  exact hc ⟨hL.symm, hb.symm, hp.symm⟩

end Levels

/-! ### The calls -/

/-- Whether `remove` of the order in slot `i` keeps the levels exact: it is alone at its price,
or has its original quantity left, modulo `2³²`. -/
def Removable (v : Books) (i : ℕ) : Prop :=
  v.peers i = {i} ∨ (v.slot i).shares.toUInt32 = UInt32.ofNat (v.left i)

/-- Whether taking `q` off the order in slot `i` keeps the levels exact. -/
def Reducible (v : Books) (i : ℕ) (q : UInt64) : Prop :=
  if q < (v.slot i).remaining then UInt32.ofNat (∑ j ∈ v.peers i, v.left j - q.toNat) ≠ 0
  else UInt32.ofNat (∑ j ∈ (v.peers i).erase i, v.left j) ≠ 0 ∧ (v.slot i).shares.toUInt32 = 0

section Calls

variable {v : Books} {fl : List ℕ} {i L ref : ℕ}

/-- What the index finds is in use, under the reference. -/
theorem Rep.found (h : Rep v fl) (hf : v.shared.index.find ref = some (some i)) :
    InUse v fl i ∧ (v.slot i).orderRef = ref := by
  rcases h.find ref with hnone | ⟨j, hj, huse, href⟩
  · rw [hnone] at hf
    simp at hf
  · rw [hj, Option.some_inj, Option.some_inj] at hf
    exact hf ▸ ⟨huse, href⟩

/-- **`add`** keeps the levels exact, and does not repair any. -/
theorem exact_add_iff (h : Rep v (i :: fl)) {price : Int64} (hp : IsPrice price)
    (hfresh : ∀ j, InUse v (i :: fl) j → (v.slot j).orderRef ≠ ref)
    (hghost : ∀ L' buy q l, v.level? L' buy q = some l → IsPrice q → (v.orders L' buy q).Nonempty)
    (L : ℕ) (side : OrderSide) (shares : UInt64) (sequence : ℕ) :
    ∃ v', v.add L ref side price shares sequence = some (i, v') ∧ Rep v' fl ∧
      (Exact v' ↔ Exact v) := by
  obtain ⟨v', hadd, h', hcap, -, hslot, hadded, hlevel⟩ := h.add_spec hp hfresh L shares sequence
  refine ⟨v', hadd, h', ?_⟩
  have horders : ∀ L' buy q, v'.orders L' buy q =
      if L' = L ∧ buy = decide (side = .buy) ∧ q = price then insert i (v.orders L' buy q)
      else v.orders L' buy q := h.orders_add h' hcap hfresh rfl hslot hadded
  have hnot : ∀ L' buy q, i ∉ v.orders L' buy q := fun L' buy q hm =>
    (h.mem_orders.mp hm).1.2 List.mem_cons_self
  have hleft : ∀ L' buy q, ∀ j ∈ v.orders L' buy q, v'.left j = v.left j := by
    intro L' buy q j hj
    rw [Books.left, hslot, Function.update_of_ne (ne_of_mem_of_not_mem hj (hnot L' buy q))]
    rfl
  have hself : v'.left i = shares.toNat := by
    rw [Books.left, hslot, Function.update_self]
  refine forall_congr' fun L' => forall_congr' fun buy => forall_congr' fun q =>
    forall_congr' fun hq => ?_
  rw [horders, hlevel L' buy q hq]
  by_cases hc : L' = L ∧ buy = decide (side = .buy) ∧ q = price
  · rw [if_pos hc, if_pos hc, ← LevelSays.congr (hleft L' buy q)]
    exact ⟨LevelSays.of_push (fun l hl => hghost L' buy q l hl hq) h.card_orders (hnot _ _ _) hself,
      fun hsays => hsays.push (hnot _ _ _) hself⟩
  · rw [if_neg hc, if_neg hc, LevelSays.congr (hleft L' buy q)]

/-- Levels that say what they should are no ghosts. -/
theorem Exact.nonempty (he : Exact v) {L : ℕ} {buy : Bool} {q : Int64} {l : PriceLevel}
    (hl : v.level? L buy q = some l) (hq : IsPrice q) : (v.orders L buy q).Nonempty := by
  have hsays := he L buy q hq
  rw [hl] at hsays
  exact hsays.1

/-- **`remove`** keeps the levels exact when `Removable` says so. -/
theorem exact_remove_iff (h : Rep v fl) (he : Exact v)
    (hf : v.shared.index.find ref = some (some i)) (hL : v.addedTo ref = L) :
    ∃ v', v.remove L ref = some (true, v') ∧ Rep v' (i :: fl) ∧
      (∀ j, InUse v' (i :: fl) j → InUse v fl j ∧ j ≠ i ∧ v'.slot j = v.slot j) ∧
      (∀ L' buy q l, v'.level? L' buy q = some l → IsPrice q → (v'.orders L' buy q).Nonempty) ∧
      (Exact v' ↔ Removable v i) := by
  obtain ⟨hi, href⟩ := h.found hf
  obtain ⟨v', hrem, h', hcap, -, hslot, hadded, hlevel⟩ := h.remove_spec hf hi href L
  have hp := h.price i hi
  have horders : ∀ L' buy q, v'.orders L' buy q = (v.orders L' buy q).erase i := fun L' buy q =>
    h.orders_erase h' hcap hadded fun j _ => congrFun hslot j
  have hleft : v'.left = v.left := by
    funext j
    rw [Books.left, hslot, Books.left]
  have hmem : i ∈ v.orders L (v.slot i).isBuy (v.slot i).price := by
    have := h.mem_peers hi
    rwa [Books.peers, href, hL] at this
  have hnot : ∀ L' buy q, ¬ (L' = L ∧ buy = (v.slot i).isBuy ∧ q = (v.slot i).price) →
      i ∉ v.orders L' buy q := fun L' buy q hc => h.not_mem_orders (by rwa [href, hL])
  have hsays := he L (v.slot i).isBuy (v.slot i).price hp
  obtain ⟨l, hl⟩ := hsays.exists_of_mem hmem
  rw [hl] at hsays
  have hkey := hlevel L (v.slot i).isBuy (v.slot i).price hp
  rw [if_pos ⟨rfl, rfl, rfl⟩, hl, Option.getD_some] at hkey
  refine ⟨v', hrem, h', fun j hj => ?_, fun L' buy q l' hl' hq => ?_, ?_⟩
  · rw [InUse, hcap, List.mem_cons, not_or] at hj
    exact ⟨⟨hj.1, hj.2.2⟩, hj.2.1, congrFun hslot j⟩
  · rw [horders]
    by_cases hc : L' = L ∧ buy = (v.slot i).isBuy ∧ q = (v.slot i).price
    · obtain ⟨rfl, rfl, rfl⟩ := hc
      rw [hkey] at hl'
      exact hsays.nonempty_of_unlink hmem h.card_orders hl'
    · rw [hlevel _ _ _ hq, if_neg hc] at hl'
      rw [Finset.erase_eq_of_notMem (hnot _ _ _ hc)]
      exact he.nonempty hl' hq
  · rw [exact_iff_at he hp
      (fun L' buy q hc => by rw [horders, Finset.erase_eq_of_notMem (hnot _ _ _ hc)])
      (fun L' buy q hq hc => by rw [hlevel _ _ _ hq, if_neg hc])
      (fun L' buy q hc j _ => by rw [hleft]), horders, hkey, hleft,
      hsays.unlink_iff hmem h.card_orders, Removable, Books.peers, href, hL]
    rfl

/-- **`cancel` and `execute`** keep the levels exact when `Reducible` says so. -/
theorem exact_cancel_iff (h : Rep v fl) (he : Exact v)
    (hf : v.shared.index.find ref = some (some i)) (hL : v.addedTo ref = L) (q : UInt64) :
    ∃ v' fl', v.cancel L ref q = some (true, v') ∧ Rep v' fl' ∧ (Exact v' ↔ Reducible v i q) := by
  obtain ⟨hi, href⟩ := h.found hf
  have hp := h.price i hi
  have hmem : i ∈ v.orders L (v.slot i).isBuy (v.slot i).price := by
    have := h.mem_peers hi
    rwa [Books.peers, href, hL] at this
  have hnot : ∀ L' buy q, ¬ (L' = L ∧ buy = (v.slot i).isBuy ∧ q = (v.slot i).price) →
      i ∉ v.orders L' buy q := fun L' buy q hc => h.not_mem_orders (by rwa [href, hL])
  have hpeers : v.peers i = v.orders L (v.slot i).isBuy (v.slot i).price := by
    rw [Books.peers, href, hL]
  have hsays := he L (v.slot i).isBuy (v.slot i).price hp
  obtain ⟨l, hl⟩ := hsays.exists_of_mem hmem
  rw [hl] at hsays
  by_cases hq : q < (v.slot i).remaining
  · obtain ⟨v', hcan, h', hcap, -, -, hslot, hadded, hlevel⟩ := h.cancel_part hf hi hq L
    refine ⟨v', fl, hcan, h', ?_⟩
    have horders : ∀ L' buy q, v'.orders L' buy q = v.orders L' buy q := fun L' buy q =>
      h.orders_same h' hcap hadded hslot
    have hleft : ∀ j, j ≠ i → v'.left j = v.left j := by
      intro j hj
      rw [Books.left, hslot, Function.update_of_ne hj]
      rfl
    have hself : v'.left i + q.toNat = v.left i := by
      rw [Books.left, hslot, Function.update_self]
      show ((v.slot i).remaining - q).toNat + q.toNat = (v.slot i).remaining.toNat
      have hle := UInt64.le_of_lt hq
      rw [UInt64.toNat_sub_of_le _ _ hle]
      exact Nat.sub_add_cancel hle
    have hsum : ∑ j ∈ v.peers i, v'.left j + q.toNat = ∑ j ∈ v.peers i, v.left j := by
      have hmem' := h.mem_peers hi
      rw [← Finset.sum_erase_add _ _ hmem', ← Finset.sum_erase_add _ v.left hmem', Nat.add_assoc,
        hself, Finset.sum_congr rfl fun j hj => hleft j (Finset.ne_of_mem_erase hj)]
    have hkey := hlevel L (v.slot i).isBuy (v.slot i).price hp
    rw [if_pos ⟨rfl, rfl, rfl⟩, hl, Option.getD_some] at hkey
    rw [exact_iff_at he hp (fun L' buy q _ => horders L' buy q)
      (fun L' buy q hq hc => by rw [hlevel _ _ _ hq, if_neg hc])
      (fun L' buy q hc j hj => hleft j (ne_of_mem_of_not_mem hj (hnot _ _ _ hc))), horders, hkey,
      hsays.dec_iff hmem (hpeers ▸ hsum), Reducible, if_pos hq, ← hpeers, ← hsum,
      Nat.add_sub_cancel]
  · obtain ⟨v₁, v', hcan, h', hcap, -, hslot, hadded, hlevel₁, slot, hview, hlevel⟩ :=
      h.cancel_full hf hi href (UInt64.not_lt.mp hq) L
    refine ⟨v', i :: fl, hcan, h', ?_⟩
    have hslot' : ∀ j, j ≠ i → v'.slot j = v.slot j := fun j hj => by
      rw [hslot, Function.update_of_ne hj]
    have horders : ∀ L' buy q, v'.orders L' buy q = (v.orders L' buy q).erase i := fun L' buy q =>
      h.orders_erase h' hcap hadded hslot'
    have hleft : ∀ L' buy q, ∀ j ∈ (v.orders L' buy q).erase i, v'.left j = v.left j :=
      fun L' buy q j hj => by rw [Books.left, hslot' j (Finset.ne_of_mem_erase hj), Books.left]
    have hkey₁ := hlevel₁ L (v.slot i).isBuy (v.slot i).price hp
    rw [if_pos ⟨rfl, rfl, rfl⟩, hl, Option.getD_some] at hkey₁
    have hkey := hlevel L (v.slot i).isBuy (v.slot i).price hp
    rw [if_pos ⟨rfl, rfl, rfl⟩] at hkey
    rw [exact_iff_at he hp
      (fun L' buy q hc => by rw [horders, Finset.erase_eq_of_notMem (hnot _ _ _ hc)])
      (fun L' buy q hq hc => by rw [hlevel _ _ _ hq, if_neg hc, hlevel₁ _ _ _ hq, if_neg hc])
      (fun L' buy q hc j hj => hleft L' buy q j
        (Finset.mem_erase.mpr ⟨ne_of_mem_of_not_mem hj (hnot _ _ _ hc), hj⟩)), horders, hkey,
      LevelSays.congr (hleft _ _ _), hsays.full_iff hmem h.card_orders rfl slot hkey₁, Reducible,
      if_neg hq, hpeers]
    have hshares : slot.shares = (v.slot i).shares := by rw [hview]
    rw [hshares]

end Calls

/-! ### Runs -/

/-- A call on one of the books. -/
inductive Call
  | add (L orderRef : ℕ) (side : OrderSide) (price : Int64) (shares : UInt64) (sequence : ℕ)
  | remove (L orderRef : ℕ)
  | cancel (L orderRef : ℕ) (cancelledShares : UInt64)
  | execute (L orderRef : ℕ) (executedShares : UInt64)
  | replace (L oldRef newRef : ℕ) (side : OrderSide) (newPrice : Int64) (newShares : UInt64)
      (newSequence : ℕ)
deriving DecidableEq, Repr

namespace Call

/-- The books after a call. -/
def exec (v : Books) : Call → Option Books
  | add L ref side price shares seq => (v.add L ref side price shares seq).map Prod.snd
  | remove L ref => (v.remove L ref).map Prod.snd
  | cancel L ref shares => (v.cancel L ref shares).map Prod.snd
  | execute L ref shares => (v.execute L ref shares).map Prod.snd
  | replace L old new side price shares seq =>
    (v.replace L old new side price shares seq).map Prod.snd

/-- Perform one call after the other. -/
def execAll (v : Books) : List Call → Option Books
  | [] => some v
  | c :: cs => (c.exec v).bind fun v => execAll v cs

/-- A live reference is used with the book it was added to. -/
def RoutedTo (v : Books) (ref L : ℕ) : Prop :=
  ∀ i, v.Live i → (v.slot i).orderRef = ref → v.addedTo ref = L

/-- The calls that are made: new references are not live, and live ones are used with their own
books. -/
def Allowed (v : Books) : Call → Prop
  | add _ ref _ _ _ _ => ∀ i, v.Live i → (v.slot i).orderRef ≠ ref
  | remove L ref | cancel L ref _ | execute L ref _ => RoutedTo v ref L
  | replace L old new _ _ _ _ =>
    RoutedTo v old L ∧ ∀ i, v.Live i → (v.slot i).orderRef = new → new = old

/-- The prices of the orders that are put in are prices a table can hold. -/
def Priced (v : Books) : Call → Prop
  | add _ _ _ price _ _ => v.shared.pool.freeSlots = [] ∨ IsPrice price
  | replace _ old _ _ price _ _ => v.shared.index.find old = some none ∨ IsPrice price
  | remove _ _ | cancel _ _ _ | execute _ _ _ => True

/-- The calls that keep the levels exact. -/
def Keeps (v : Books) : Call → Prop
  | add _ _ _ _ _ _ => True
  | remove _ ref => ∀ i, v.shared.index.find ref = some (some i) → Removable v i
  | cancel _ ref q | execute _ ref q =>
    ∀ i, v.shared.index.find ref = some (some i) → Reducible v i q
  | replace _ old _ _ _ _ _ => ∀ i, v.shared.index.find old = some (some i) → Removable v i

instance (v : Books) (P : ℕ → Prop) [DecidablePred P] : Decidable (∀ i, v.Live i → P i) :=
  decidable_of_iff (∀ i < v.shared.pool.capacity, i ∉ v.shared.pool.freeSlots → P i)
    ⟨fun h i hi => h i hi.1 hi.2, fun h i hi hfree => h i ⟨hi, hfree⟩⟩

instance (v : Books) (ref : ℕ) (P : ℕ → Prop) [DecidablePred P] :
    Decidable (∀ i, v.shared.index.find ref = some (some i) → P i) :=
  match h : v.shared.index.find ref with
  | some (some i) => decidable_of_iff (P i)
      ⟨fun hP j hj => Option.some.inj (Option.some.inj hj) ▸ hP, fun hP => hP i rfl⟩
  | some none => isTrue fun j hj => by cases hj
  | none => isTrue fun j hj => by cases hj

instance (v : Books) (ref L : ℕ) : Decidable (RoutedTo v ref L) :=
  inferInstanceAs (Decidable (∀ i, v.Live i → (v.slot i).orderRef = ref → v.addedTo ref = L))

instance (v : Books) : DecidablePred (Removable v) := fun i =>
  inferInstanceAs (Decidable (v.peers i = {i} ∨
    (v.slot i).shares.toUInt32 = UInt32.ofNat (v.left i)))

instance (v : Books) (q : UInt64) : DecidablePred (Reducible v · q) := fun i =>
  inferInstanceAs (Decidable (if q < (v.slot i).remaining
    then UInt32.ofNat (∑ j ∈ v.peers i, v.left j - q.toNat) ≠ 0
    else UInt32.ofNat (∑ j ∈ (v.peers i).erase i, v.left j) ≠ 0 ∧
      (v.slot i).shares.toUInt32 = 0))

instance (v : Books) (c : Call) : Decidable (c.Allowed v) :=
  match c with
  | add _ ref _ _ _ _ => inferInstanceAs (Decidable (∀ i, v.Live i → (v.slot i).orderRef ≠ ref))
  | remove L ref | cancel L ref _ | execute L ref _ =>
    inferInstanceAs (Decidable (RoutedTo v ref L))
  | replace L old new _ _ _ _ => inferInstanceAs (Decidable
      (RoutedTo v old L ∧ ∀ i, v.Live i → (v.slot i).orderRef = new → new = old))

instance (v : Books) (c : Call) : Decidable (c.Priced v) :=
  match c with
  | add _ _ _ price _ _ => inferInstanceAs
      (Decidable (v.shared.pool.freeSlots = [] ∨ IsPrice price))
  | replace _ old _ _ price _ _ => inferInstanceAs
      (Decidable (v.shared.index.find old = some none ∨ IsPrice price))
  | remove _ _ | cancel _ _ _ | execute _ _ _ => isTrue trivial

instance (v : Books) (c : Call) : Decidable (c.Keeps v) :=
  match c with
  | add _ _ _ _ _ _ => isTrue trivial
  | remove _ ref | replace _ ref _ _ _ _ _ => inferInstanceAs
      (Decidable (∀ i, v.shared.index.find ref = some (some i) → Removable v i))
  | cancel _ ref q | execute _ ref q => inferInstanceAs
      (Decidable (∀ i, v.shared.index.find ref = some (some i) → Reducible v i q))

/-- Whether all calls are allowed and keep the levels exact. -/
def checkAll (v : Books) : List Call → Bool
  | [] => true
  | c :: cs => decide (c.Allowed v ∧ c.Priced v ∧ c.Keeps v) &&
    ((c.exec v).map fun v => checkAll v cs).getD false

/-- What a statement about the slot that is found says when one is found. -/
theorem forall_found {v : Books} {ref i : ℕ} (hf : v.shared.index.find ref = some (some i))
    (P : ℕ → Prop) : (∀ j, v.shared.index.find ref = some (some j) → P j) ↔ P i := by
  constructor
  · intro h
    exact h i hf
  · intro h j hj
    rw [hf, Option.some_inj, Option.some_inj] at hj
    exact hj ▸ h

theorem forall_not_found {v : Books} {ref : ℕ} (hf : v.shared.index.find ref = some none)
    {P : ℕ → Prop} : ∀ j, v.shared.index.find ref = some (some j) → P j := by
  intro j hj
  rw [hf] at hj
  simp at hj

/-- **One call**: it returns, and keeps the levels exact when `Keeps` says so. -/
theorem exec_spec {v : Books} {fl : List ℕ} (h : Rep v fl) (he : Exact v) {c : Call}
    (ha : c.Allowed v) (hp : c.Priced v) :
    ∃ v' fl', c.exec v = some v' ∧ Rep v' fl' ∧ (Exact v' ↔ c.Keeps v) := by
  have hroute : ∀ {L ref i}, RoutedTo v ref L → v.shared.index.find ref = some (some i) →
      v.addedTo ref = L := by
    intro L ref i hr hf
    obtain ⟨hi, href⟩ := h.found hf
    exact hr i (h.live_iff.mpr hi) href
  have hreduce : ∀ {L ref q}, RoutedTo v ref L →
      ∃ v' fl', (v.cancel L ref q).map Prod.snd = some v' ∧
      Rep v' fl' ∧ (Exact v' ↔ ∀ i, v.shared.index.find ref = some (some i) → Reducible v i q) := by
    intro L ref q hr
    rcases h.find ref with hf | ⟨i, hf, -, -⟩
    · refine ⟨v, fl, by rw [(Rep.unknown hf L).2.1 q]; rfl, h, ?_⟩
      exact iff_of_true he (forall_not_found hf)
    · obtain ⟨v', fl', hcan, h', hiff⟩ := exact_cancel_iff h he hf (hroute hr hf) q
      exact ⟨v', fl', by rw [hcan]; rfl, h',
        hiff.trans (forall_found hf fun j => Reducible v j q).symm⟩
  cases c with
  | add L ref side price shares seq =>
    cases fl with
    | nil =>
      exact ⟨v, [], by rw [exec, h.add_full]; rfl, h, iff_of_true he trivial⟩
    | cons i fl =>
      have hprice : IsPrice price := by
        refine hp.resolve_left fun hnil => ?_
        rw [h.holds.free.freeSlots_eq] at hnil
        exact List.cons_ne_nil i fl hnil
      obtain ⟨v', hadd, h', hiff⟩ := exact_add_iff h hprice
        (fun j hj => ha j (h.live_iff.mpr hj)) (fun L' buy q l hl hq => he.nonempty hl hq) L side
        shares seq
      exact ⟨v', fl, by rw [exec, hadd]; rfl, h', hiff.trans (iff_of_true he trivial)⟩
  | remove L ref =>
    rcases h.find ref with hf | ⟨i, hf, -, -⟩
    · refine ⟨v, fl, by rw [exec, (Rep.unknown hf L).1]; rfl, h, ?_⟩
      exact iff_of_true he (forall_not_found hf)
    · obtain ⟨v', hrem, h', -, -, hiff⟩ := exact_remove_iff h he hf (hroute ha hf)
      exact ⟨v', _, by rw [exec, hrem]; rfl, h', hiff.trans (forall_found hf (Removable v)).symm⟩
  | cancel L ref q => exact hreduce ha
  | execute L ref q => exact hreduce ha
  | replace L old new side price shares seq =>
    rcases h.find old with hf | ⟨i, hf, -, -⟩
    · refine ⟨v, fl, by rw [exec, (Rep.unknown hf L).2.2]; rfl, h, ?_⟩
      exact iff_of_true he (forall_not_found hf)
    · -- `remove`, and `add` in the slot that is free then
      have hprice : IsPrice price := by
        refine hp.resolve_left fun hnone => ?_
        rw [hf] at hnone
        simp at hnone
      obtain ⟨v₁, hrem, h₁, huse, hghost, hiff₁⟩ := exact_remove_iff h he hf (hroute ha.1 hf)
      have hfresh : ∀ j, InUse v₁ (i :: fl) j → (v₁.slot j).orderRef ≠ new := by
        intro j hj href
        obtain ⟨hj', hji, hslot⟩ := huse j hj
        rw [hslot] at href
        obtain rfl := ha.2 j (h.live_iff.mpr hj') href
        obtain ⟨hi, hiref⟩ := h.found hf
        exact hji (h.holds.inj j i hj' hi (href.trans hiref.symm))
      have hrepl := Rep.replace_eq hf L new side price shares seq
      obtain ⟨v', hadd, h', hiff⟩ := exact_add_iff h₁ hprice hfresh hghost L side
        shares (if seq ≠ 0 then seq else (v.slot i).sequence)
      refine ⟨v', fl, ?_, h', hiff.trans (hiff₁.trans (forall_found hf (Removable v)).symm)⟩
      rw [exec, hrepl, hrem]
      simp only [Option.bind_some, hadd, Option.map_some]

end Call

/-- The books reached from empty ones by calls that keep the levels exact. -/
inductive Reachable (capacity : ℕ) : Books → Prop
  | new : Reachable capacity (Books.new capacity)
  | call {v v' : Books} (c : Call) (hv : Reachable capacity v) (ha : c.Allowed v)
      (hp : c.Priced v) (hk : c.Keeps v) (hexec : c.exec v = some v') : Reachable capacity v'

/-- **The run lemma.** -/
theorem Reachable.exact {capacity : ℕ} {v : Books} (hlo : 0 < capacity)
    (hhi : capacity ≤ uint32Max) (hv : Reachable capacity v) : (∃ fl, Rep v fl) ∧ Exact v := by
  induction hv with
  | new =>
    have h : Rep (Books.new capacity) (List.range capacity) := Rep.new hlo hhi
    refine ⟨⟨_, h⟩, fun L buy p hp => ?_⟩
    have hnone : (Books.new capacity).level? L buy p = none := by
      rw [Books.level?]
      cases buy <;> exact PriceLevelTable.Inv.find_new _ _ hp
    rw [hnone]
    refine Finset.eq_empty_of_forall_notMem fun i hi => ?_
    obtain ⟨hcap, hfree⟩ := (h.mem_orders.mp hi).1
    exact hfree (List.mem_range.mpr hcap)
  | call c _ ha hp hk hexec ih =>
    obtain ⟨⟨fl, h⟩, he⟩ := ih
    obtain ⟨v₁, fl', hrun, h', hiff⟩ := Call.exec_spec h he ha hp
    obtain rfl : v₁ = _ := Option.some.inj (hrun.symm.trans hexec)
    exact ⟨⟨fl', h'⟩, hiff.mpr hk⟩

/-- Calls that pass the test make a run. -/
theorem Reachable.execAll {capacity : ℕ} {v : Books} (hlo : 0 < capacity)
    (hhi : capacity ≤ uint32Max) (hv : Reachable capacity v) (cs : List Call)
    (hcs : Call.checkAll v cs = true) :
    ∃ v', Call.execAll v cs = some v' ∧ Reachable capacity v' := by
  induction cs generalizing v with
  | nil => exact ⟨v, rfl, hv⟩
  | cons c cs ih =>
    obtain ⟨hc, hcs⟩ := (Bool.and_eq_true _ _).mp hcs
    obtain ⟨ha, hp, hk⟩ := of_decide_eq_true hc
    obtain ⟨⟨fl, h⟩, he⟩ := hv.exact hlo hhi
    obtain ⟨v₁, -, hexec, -, -⟩ := Call.exec_spec h he ha hp
    rw [hexec] at hcs
    obtain ⟨v', hrun, hv'⟩ := ih (hv.call c ha hp hk hexec) hcs
    refine ⟨v', ?_, hv'⟩
    rw [Call.execAll, hexec]
    exact hrun

/-- One side of a book agrees with the live orders on it. -/
structure SideExact (v : Books) (L : ℕ) (buy : Bool) : Prop where
  /-- There is a level exactly at the prices of live orders. -/
  prices : ∀ p, ((v.book L).levels buy).Present p ↔ (v.orders L buy p).Nonempty
  /-- A level has the number of the orders at its price and the sum of what is left of them. -/
  level : ∀ p l, ((v.book L).levels buy).Present p → ((v.book L).levels buy).find p = some l →
    l.count.toNat = (v.orders L buy p).card ∧
      l.totalQty.toNat = (∑ i ∈ v.orders L buy p, (v.slot i).remaining.toNat) % 2 ^ 32
  /-- `best_bid` and `best_ask` return the best price of a live order. -/
  best : ∀ p, (v.orders L buy p).Nonempty →
    (v.orders L buy ((v.book L).best buy)).Nonempty ∧ ¬ better buy p ((v.book L).best buy)
  /-- They return `-1` exactly when there is no live order. -/
  quote : (v.book L).best buy = -1 ↔ ∀ p, v.orders L buy p = ∅

/-- The best live order of a side has the price that stands for an empty side. -/
def QuotesNone (v : Books) (L : ℕ) (buy : Bool) : Prop :=
  (v.orders L buy (-1)).Nonempty ∧ ∀ p, (v.orders L buy p).Nonempty → ¬ better buy p (-1)

theorem better_antisymm {isBid : Bool} {p q : Int64} (hpq : ¬ better isBid p q)
    (hqp : ¬ better isBid q p) : p = q := by
  rw [← Int64.toInt_inj]
  cases isBid <;> simp only [better, Int64.lt_iff_toInt_lt, if_true, if_false,
    Bool.false_eq_true] at * <;> omega

/-- Exact levels, as the queries see them. -/
theorem Rep.sideExact_iff {v : Books} {fl : List ℕ} (h : Rep v fl) (he : Exact v) (L : ℕ)
    (buy : Bool) : SideExact v L buy ↔ ¬ QuotesNone v L buy := by
  have hfind : ∀ p, IsPrice p → (((v.book L).levels buy).find p ≠ none ↔
      (v.orders L buy p).Nonempty) := by
    intro p hp
    have hsays := he L buy p hp
    rw [Books.level?] at hsays
    cases hl : ((v.book L).levels buy).find p with
    | none =>
      rw [hl] at hsays
      exact iff_of_false (fun hc => hc rfl) (by rw [show v.orders L buy p = ∅ from hsays]; simp)
    | some l =>
      rw [hl] at hsays
      exact iff_of_true (by simp) hsays.1
  have hprice : ∀ p, (v.orders L buy p).Nonempty → IsPrice p := by
    rintro p ⟨i, hi⟩
    obtain ⟨huse, -, -, rfl⟩ := h.mem_orders.mp hi
    exact h.price i huse
  have hprices : ∀ p, ((v.book L).levels buy).Present p ↔ (v.orders L buy p).Nonempty := by
    intro p
    constructor
    · rintro hpres
      have hp : IsPrice p := by
        obtain ⟨j, -, hp, -⟩ := hpres
        exact hp
      exact (hfind p hp).mp (((h.table L buy).present_iff hp).mp hpres)
    · intro hne
      have hp := hprice p hne
      exact ((h.table L buy).present_iff hp).mpr ((hfind p hp).mpr hne)
  have hlevel : ∀ p l, ((v.book L).levels buy).Present p →
      ((v.book L).levels buy).find p = some l → l.count.toNat = (v.orders L buy p).card ∧
        l.totalQty.toNat = (∑ i ∈ v.orders L buy p, (v.slot i).remaining.toNat) % 2 ^ 32 := by
    intro p l hpres hl
    have hsays := he L buy p (hprice p ((hprices p).mp hpres))
    rw [Books.level?, hl] at hsays
    obtain ⟨-, hcount, htotal⟩ := hsays
    rw [hcount, htotal, UInt32.toNat_ofNat', UInt32.toNat_ofNat', Nat.mod_eq_of_lt h.card_orders]
    exact ⟨rfl, rfl⟩
  have hbid := h.isBid L buy
  rcases (h.table L buy).best_spec with ⟨hempty, hnone⟩ | ⟨hfull, hp, hfound, hbest⟩
  · -- no level, and no live order
    have hno : ∀ p, v.orders L buy p = ∅ := by
      intro p
      by_contra hne
      have hne := Finset.nonempty_iff_ne_empty.mpr hne
      exact (hfind p (hprice p hne)).mpr hne (hnone p (hprice p hne))
    refine iff_of_true ⟨hprices, hlevel, fun p hne => ?_, ?_⟩ fun hq => ?_
    · rw [hno p] at hne
      exact absurd hne Finset.not_nonempty_empty
    · rw [OrderBook.best, if_pos hempty]
      exact iff_of_true rfl hno
    · rw [QuotesNone, hno] at hq
      exact Finset.not_nonempty_empty hq.1
  · have hb : (v.book L).best buy = ((v.book L).levels buy).best := by
      rw [OrderBook.best, hfull]
      rfl
    have hextreme : ∀ p, (v.orders L buy p).Nonempty →
        ¬ better buy p ((v.book L).levels buy).best := by
      intro p hne
      have := hbest p (hprice p hne) ((hfind p (hprice p hne)).mpr hne)
      rwa [hbid] at this
    have hlive := (hfind _ hp).mp hfound
    have hsome : ¬ ∀ p, v.orders L buy p = ∅ := fun hno => by
      rw [hno] at hlive
      exact Finset.not_nonempty_empty hlive
    constructor
    · intro hs hq
      have heq : ((v.book L).levels buy).best = -1 :=
        better_antisymm (hq.2 _ hlive) (hextreme _ hq.1)
      exact hsome (hs.quote.mp (hb.trans heq))
    · intro hq
      refine ⟨hprices, hlevel, fun p hne => ?_, ?_⟩
      · rw [hb]
        exact ⟨hlive, hextreme p hne⟩
      · refine iff_of_false (fun heq => hq ?_) hsome
        rw [hb] at heq
        rw [heq] at hlive hextreme
        exact ⟨hlive, hextreme⟩

/-- Sides that agree with their orders have exact levels. -/
theorem Rep.exact_of_sides {v : Books} {fl : List ℕ} (h : Rep v fl)
    (hs : ∀ L buy, SideExact v L buy) : Exact v := by
  intro L buy p hp
  have hprices := (hs L buy).prices p
  rw [(h.table L buy).present_iff hp] at hprices
  rw [Books.level?]
  cases hl : ((v.book L).levels buy).find p with
  | none =>
    by_contra hne
    exact hprices.mpr (Finset.nonempty_iff_ne_empty.mpr hne) hl
  | some l =>
    have hne := hprices.mp (by rw [hl]; exact Option.some_ne_none l)
    obtain ⟨hcount, htotal⟩ := (hs L buy).level p l (((hs L buy).prices p).mpr hne) hl
    refine ⟨hne, ?_, ?_⟩
    · rw [← hcount, UInt32.ofNat_toNat]
    · rw [← UInt32.toNat_inj, htotal, UInt32.toNat_ofNat']
      rfl

/-- **The levels of the books agree with the live orders** in every state that calls reach which
keep them exact: prices, counts, totals and best prices. They do so unless the best order of a
side has the price `-1`. Every further call returns, and one that does not keep the levels exact
leaves a side that disagrees with its orders. -/
theorem reachable_sides {capacity : ℕ} {v : Books} (hlo : 0 < capacity)
    (hhi : capacity ≤ uint32Max) (hv : Reachable capacity v) :
    (∀ L buy, SideExact v L buy ↔ ¬ QuotesNone v L buy) ∧
      ∀ c : Call, c.Allowed v → c.Priced v →
        ∃ v', c.exec v = some v' ∧ (¬ c.Keeps v → ∃ L buy, ¬ SideExact v' L buy) := by
  obtain ⟨⟨fl, h⟩, he⟩ := hv.exact hlo hhi
  refine ⟨h.sideExact_iff he, fun c ha hp => ?_⟩
  obtain ⟨v', fl', hexec, h', hiff⟩ := Call.exec_spec h he ha hp
  refine ⟨v', hexec, fun hk => ?_⟩
  by_contra hall
  push Not at hall
  exact hk (hiff.mp (h'.exact_of_sides hall))

theorem reachable_sides_partial : ∃ v, Call.execAll (Books.new 4)
      [.add 0 1 .buy 100 5 1, .add 0 2 .buy 100 6 2, .cancel 0 1 2] = some v ∧
    ∀ L buy, SideExact v L buy ↔ ¬ QuotesNone v L buy := by
  have hnew : Reachable 4 (Books.new 4) := .new
  obtain ⟨v, hrun, hv⟩ := hnew.execAll (by decide) (by decide)
    [.add 0 1 .buy 100 5 1, .add 0 2 .buy 100 6 2, .cancel 0 1 2] (by decide +kernel)
  exact ⟨v, hrun, (reachable_sides (by decide) (by decide) hv).1⟩

/-- Executing the only order leaves its level in the book: a level without orders, whose price
`best_bid` still returns. -/
theorem execute_leaves_level : ∃ v₁ v₂,
    Call.Allowed (Books.new 4) (.add 0 1 .buy 100 5 1) ∧
    Call.exec (Books.new 4) (.add 0 1 .buy 100 5 1) = some v₁ ∧
    Call.Allowed v₁ (.execute 0 1 5) ∧ Call.exec v₁ (.execute 0 1 5) = some v₂ ∧
    (∀ i, ¬ v₂.Live i) ∧ (v₂.book 0).bestBid = 100 ∧ ¬ SideExact v₂ 0 true := by
  have hrun : (Call.exec (Books.new 4) (.add 0 1 .buy 100 5 1)).bind (fun v₁ =>
      (Call.exec v₁ (.execute 0 1 5)).map fun v₂ => decide (Call.Allowed v₁ (.execute 0 1 5) ∧
        (∀ i, v₂.Live i → False) ∧ (v₂.book 0).bestBid = 100)) = some true := by
    decide +kernel
  obtain ⟨v₁, h₁, hrun⟩ := Option.bind_eq_some_iff.mp hrun
  obtain ⟨v₂, h₂, hrun⟩ := Option.map_eq_some_iff.mp hrun
  obtain ⟨ha, hdead, hbest⟩ := of_decide_eq_true hrun
  refine ⟨v₁, v₂, by decide +kernel, h₁, ha, h₂, hdead, hbest, fun hs => ?_⟩
  have hempty : ∀ p, v₂.orders 0 true p = ∅ := by
    intro p
    refine Finset.eq_empty_of_forall_notMem fun i hi => ?_
    obtain ⟨hcap, hfree, -⟩ := Finset.mem_filter.mp hi
    exact hdead i ⟨Finset.mem_range.mp hcap, hfree⟩
  have hquote : (v₂.book 0).bestBid = -1 := hs.quote.mpr hempty
  rw [hbest] at hquote
  exact absurd hquote (by decide)

end NebulaX.Market
