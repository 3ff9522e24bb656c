import Mathlib.Algebra.Order.BigOperators.Group.Finset
import NebulaX.Oms.Reports

/-!
# Totals over the orders of the order manager

Sums over all orders that were ever registered: how much of a symbol was bought and sold. A report
changes the entry of one order, so it changes a sum by what it changes in that entry, and a new
order adds its own share.

## Main results

* `Keyed` — the keys are those that have an entry, and all of them have been issued
* `Revises.total`, `Keyed.total_newOrder` — how a sum over the orders changes
* `Revises.filledOf` — a report that fills nothing leaves the filled quantities as they are
* `filledWith_filled` — a fill adds what it has, up to what is open
-/

namespace NebulaX

/-! ### What a fill adds -/

namespace Entry

/-- What an order can still be filled: nothing if it is not live. -/
def openQty (e : Entry) : ℕ :=
  if e.status.live then e.order.quantity.toNat - e.filled.toNat else 0

/-- No more is filled than was ordered, and that is below `2 ^ 32`. -/
def Sized (e : Entry) : Prop :=
  e.filled.toNat ≤ e.order.quantity.toNat ∧ e.order.quantity.toNat < 2 ^ 32

/-- **A fill adds** what it has, up to what is open. -/
theorem filledWith_filled {e : Entry} (he : e.Sized) {q : UInt64} (hq : q.toNat < 2 ^ 32)
    (p : Int64) : (e.filledWith q p).filled.toNat = e.filled.toNat + min q.toNat e.openQty := by
  obtain ⟨hle, hlt⟩ := he
  rw [filledWith, openQty]
  by_cases hlive : e.status.live = true
  · rw [if_pos hlive, if_pos hlive]
    show (e.newFilled q).toNat = _
    have hsum : (e.filled + q).toNat = e.filled.toNat + q.toNat := by
      rw [UInt64.toNat_add]
      exact Nat.mod_eq_of_lt (by omega)
    rw [newFilled]
    split
    · next hover =>
      rw [UInt64.lt_iff_toNat_lt, hsum] at hover
      omega
    · next hfits =>
      rw [UInt64.lt_iff_toNat_lt, hsum] at hfits
      omega
  · rw [if_neg hlive, if_neg hlive, Nat.min_zero, Nat.add_zero]

/-- **A fill of what is open** of a live order. It stays live until it is filled. -/
theorem filledWith_of_live {e : Entry} (hlive : e.status.live = true) {q : UInt64}
    (hfits : e.filled.toNat + q.toNat ≤ e.order.quantity.toNat) (p : Int64) :
    (e.filledWith q p).filled.toNat = e.filled.toNat + q.toNat ∧
      ((e.filledWith q p).status.live = true ↔
        e.filled.toNat + q.toNat < e.order.quantity.toNat) := by
  have hsum : (e.filled + q).toNat = e.filled.toNat + q.toNat := by
    have hlt := e.order.quantity.toNat_lt
    rw [UInt64.toNat_add]
    exact Nat.mod_eq_of_lt (by omega)
  have hnew : e.newFilled q = e.filled + q := by
    rw [newFilled, if_neg]
    rw [UInt64.lt_iff_toNat_lt, hsum]
    omega
  rw [filledWith, if_pos hlive]
  refine ⟨(congrArg UInt64.toNat hnew).trans hsum, ?_⟩
  show (if e.order.quantity ≤ e.newFilled q then OrderStatus.filled
    else .partialFill).live = true ↔ _
  have hiff : e.order.quantity ≤ e.newFilled q ↔
      e.order.quantity.toNat ≤ e.filled.toNat + q.toNat := by
    rw [hnew, UInt64.le_iff_toNat_le, hsum]
  split
  · next hge => exact iff_of_false (by decide) (Nat.not_lt.mpr (hiff.mp hge))
  · next hlt => exact iff_of_true (by decide) (Nat.not_le.mp fun hge => hlt (hiff.mpr hge))

/-- **Fills of what is open**, one after the other. -/
theorem filledWith_all {e : Entry}
    (hlive : e.status.live = true ↔ e.filled.toNat < e.order.quantity.toNat) {fs : List Fill}
    (hfits : e.filled.toNat + (fs.map fun f => f.filledQty.toNat).sum ≤ e.order.quantity.toNat) :
    (fs.foldl (fun e f => e.filledWith f.filledQty f.fillPrice) e).order = e.order ∧
      (fs.foldl (fun e f => e.filledWith f.filledQty f.fillPrice) e).filled.toNat =
        e.filled.toNat + (fs.map fun f => f.filledQty.toNat).sum ∧
      ((fs.foldl (fun e f => e.filledWith f.filledQty f.fillPrice) e).status.live = true ↔
        e.filled.toNat + (fs.map fun f => f.filledQty.toNat).sum < e.order.quantity.toNat) := by
  induction fs generalizing e with
  | nil => exact ⟨rfl, rfl, hlive⟩
  | cons f fs ih =>
    rw [List.map_cons, List.sum_cons] at hfits ⊢
    rw [List.foldl_cons]
    have horder := e.filledWith_order f.filledQty f.fillPrice
    -- an order that is not live is filled, so that there is nothing in this fill
    have hstep : (e.filledWith f.filledQty f.fillPrice).filled.toNat =
        e.filled.toNat + f.filledQty.toNat ∧
        ((e.filledWith f.filledQty f.fillPrice).status.live = true ↔
          e.filled.toNat + f.filledQty.toNat < e.order.quantity.toNat) := by
      by_cases hl : e.status.live = true
      · exact filledWith_of_live hl (by omega) f.fillPrice
      · have hfull := mt hlive.mpr hl
        have hnone : f.filledQty.toNat = 0 := by omega
        rw [filledWith, if_neg hl, hnone]
        exact ⟨rfl, hlive⟩
    obtain ⟨hord, hfilled, hl⟩ := ih (e := e.filledWith f.filledQty f.fillPrice)
      (by rw [hstep.1, horder]; exact hstep.2) (by rw [hstep.1, horder]; omega)
    rw [hstep.1, Nat.add_assoc] at hfilled hl
    rw [horder] at hl
    exact ⟨hord.trans horder, hfilled, hl⟩

/-- It does not add more than was ordered. -/
theorem Sized.filledWith {e : Entry} (he : e.Sized) {q : UInt64} (hq : q.toNat < 2 ^ 32)
    (p : Int64) : (e.filledWith q p).Sized := by
  rw [Sized, filledWith_filled he hq, filledWith_order]
  have hopen : e.openQty ≤ e.order.quantity.toNat - e.filled.toNat := by
    rw [openQty]
    split <;> omega
  have hle := he.1
  exact ⟨by omega, he.2⟩

end Entry

namespace OrderManager

variable {om om' : OrderManager} {id : ℕ} {g : Entry → Entry}

/-- All entries satisfy `Q`. -/
def All (om : OrderManager) (Q : Entry → Prop) : Prop := ∀ id e, om.orders id = some e → Q e

/-- What a report keeps of every entry. -/
theorem Revises.all (h : Revises om om' id g) {Q : Entry → Prop} (hQ : om.All Q)
    (hg : ∀ e, Q e → Q (g e)) : om'.All Q := by
  intro id' e' he'
  rcases h.cases he' with ⟨-, e, he, rfl⟩ | ⟨-, he'⟩
  · exact hg e (hQ id e he)
  · exact hQ id' e' he'

/-- The keys are the ids that have an entry, and they have been issued. -/
structure Keyed (om : OrderManager) : Prop where
  /-- A key has an entry, and an entry has a key. -/
  mem_iff : ∀ id, id ∈ om.ids ↔ om.orders id ≠ none
  /-- Keys are below the next id. -/
  lt : ∀ id ∈ om.ids, id < om.nextId

/-- An order manager without orders. -/
theorem keyed_new (visits : VisitOrder) (base : ℕ) :
    Keyed { visits := visits, nextId := base } where
  mem_iff := fun _ => iff_of_false List.not_mem_nil (fun h => h rfl)
  lt := fun _ h => absurd h List.not_mem_nil

/-- **A report** leaves the keys as they are. -/
theorem Revises.keyed (h : Revises om om' id g) (hk : Keyed om) : Keyed om' where
  mem_iff := by
    intro id'
    rw [h.ids, hk.mem_iff]
    by_cases hid : id' = id
    · rw [hid, h.self, ne_eq, ne_eq, Option.map_eq_none_iff]
    · rw [h.of_ne hid]
  lt := by
    intro id' hm
    rw [h.ids] at hm
    rw [h.nextId]
    exact hk.lt id' hm

/-- The next id has no entry. -/
theorem Keyed.next_none (hk : Keyed om) : om.orders om.nextId = none := by
  by_contra h
  exact absurd (hk.lt _ ((hk.mem_iff _).mpr h)) (lt_irrefl _)

/-- An entry of an order that was just registered. -/
def newEntry (om : OrderManager) (order : Order) : Entry where
  order := { order with orderId := om.nextId }
  status := .pending
  remaining := order.quantity

theorem newOrder_orders (om : OrderManager) (order : Order) :
    (om.newOrder order).2.orders =
      Function.update om.orders om.nextId (some (om.newEntry order)) := rfl

/-- After an order was registered and answered at once, an entry is that of the order or one that
was there. -/
theorem Revises.cases_new {order : Order} (h : Revises (om.newOrder order).2 om' om.nextId g)
    {id' : ℕ} {e : Entry} (he : om'.orders id' = some e) :
    (id' = om.nextId ∧ e = g (om.newEntry order)) ∨
      (id' ≠ om.nextId ∧ om.orders id' = some e) := by
  rcases h.cases he with ⟨hid, e₀, he₀, rfl⟩ | ⟨hid, he⟩
  · rw [newOrder_orders, Function.update_self] at he₀
    obtain rfl := Option.some.inj he₀
    exact Or.inl ⟨hid, rfl⟩
  · rw [newOrder_orders, Function.update_of_ne hid] at he
    exact Or.inr ⟨hid, he⟩

/-- A new order is one more entry. -/
theorem newOrder_all {Q : Entry → Prop} (hQ : om.All Q) {order : Order}
    (hnew : Q (om.newEntry order)) : (om.newOrder order).2.All Q := by
  intro id e he
  rw [newOrder_orders] at he
  by_cases hid : id = om.nextId
  · rw [hid, Function.update_self] at he
    exact Option.some.inj he ▸ hnew
  · rw [Function.update_of_ne hid] at he
    exact hQ id e he

theorem newOrder_nextId (om : OrderManager) (order : Order) :
    (om.newOrder order).2.nextId = om.nextId + 1 := rfl

theorem Keyed.newOrder_ids (hk : Keyed om) (order : Order) :
    (om.newOrder order).2.ids = om.ids ++ [om.nextId] := by
  show (if (om.orders om.nextId).isSome then om.ids else om.ids ++ [om.nextId]) = _
  rw [hk.next_none]
  rfl

/-- **A new order** has a new key. -/
theorem Keyed.newOrder (hk : Keyed om) (order : Order) : Keyed (om.newOrder order).2 where
  mem_iff := by
    intro id
    rw [hk.newOrder_ids, newOrder_orders, List.mem_append, List.mem_singleton]
    by_cases hid : id = om.nextId
    · rw [hid, Function.update_self]
      exact iff_of_true (Or.inr rfl) (Option.some_ne_none _)
    · rw [Function.update_of_ne hid, or_iff_left hid]
      exact hk.mem_iff id
  lt := by
    intro id hm
    rw [hk.newOrder_ids, List.mem_append, List.mem_singleton] at hm
    rw [newOrder_nextId]
    rcases hm with hm | rfl
    · exact Nat.lt_succ_of_lt (hk.lt id hm)
    · exact Nat.lt_succ_self _

/-! ### Sums -/

/-- The sum over all orders of a quantity that their entries have. -/
def total (om : OrderManager) (w : Entry → ℕ) : ℕ :=
  ∑ id ∈ om.ids.toFinset, ((om.orders id).map w).getD 0

/-- **A sum after a report** differs in the order that the report is about. -/
theorem Revises.total (h : Revises om om' id g) (hk : Keyed om) {e : Entry}
    (he : om.orders id = some e) (w : Entry → ℕ) :
    om'.total w + w e = om.total w + w (g e) := by
  have hm : id ∈ om.ids.toFinset := by
    rw [List.mem_toFinset, hk.mem_iff, he]
    exact Option.some_ne_none _
  have hrest : ∑ id' ∈ om.ids.toFinset.erase id, ((om'.orders id').map w).getD 0 =
      ∑ id' ∈ om.ids.toFinset.erase id, ((om.orders id').map w).getD 0 := by
    refine Finset.sum_congr rfl fun id' hid' => ?_
    rw [h.of_ne (Finset.ne_of_mem_erase hid')]
  rw [OrderManager.total, OrderManager.total, h.ids, ← Finset.add_sum_erase _ _ hm,
    ← Finset.add_sum_erase _ _ hm, hrest, h.self, he]
  show w (g e) + _ + w e = w e + _ + w (g e)
  omega

/-- A sum in which the order counts only under a condition that the report does not change. -/
theorem Revises.total_if (h : Revises om om' id g) (hk : Keyed om) {e : Entry}
    (he : om.orders id = some e) {w : Entry → ℕ} {P : Prop} [Decidable P] {a b m n : ℕ}
    (hold : w e = if P then a else 0) (hnew : w (g e) = if P then b else 0)
    (hsum : b + m = a + n) :
    om'.total w + (if P then m else 0) = om.total w + if P then n else 0 := by
  have htotal := h.total hk he w
  rw [hold, hnew] at htotal
  by_cases hP : P
  · rw [if_pos hP, if_pos hP] at htotal
    rw [if_pos hP, if_pos hP]
    omega
  · rw [if_neg hP, if_neg hP] at htotal
    rw [if_neg hP, if_neg hP]
    omega

/-- A report that does not change the quantity, -/
theorem Revises.total_congr (h : Revises om om' id g) {w : Entry → ℕ} (hw : ∀ e, w (g e) = w e) :
    om'.total w = om.total w := by
  rw [OrderManager.total, OrderManager.total, h.ids]
  refine Finset.sum_congr rfl fun id' _ => ?_
  by_cases hid : id' = id
  · rw [hid, h.self, Option.map_map]
    exact congrArg (fun w => ((om.orders id).map w).getD 0) (funext hw)
  · rw [h.of_ne hid]

/-- and an order that is registered. -/
theorem Keyed.total_newOrder (hk : Keyed om) (order : Order) (w : Entry → ℕ) :
    (om.newOrder order).2.total w = om.total w + w (om.newEntry order) := by
  have hnot : om.nextId ∉ om.ids.toFinset := by
    rw [List.mem_toFinset, hk.mem_iff, hk.next_none]
    exact fun h => h rfl
  have hids : (om.ids ++ [om.nextId]).toFinset = insert om.nextId om.ids.toFinset := by
    ext id
    simp
  have hrest : ∑ id ∈ om.ids.toFinset, (((om.newOrder order).2.orders id).map w).getD 0 =
      om.total w := by
    refine Finset.sum_congr rfl fun id hm => ?_
    rw [newOrder_orders, Function.update_of_ne fun h : id = om.nextId => hnot (h ▸ hm)]
  rw [OrderManager.total, hk.newOrder_ids, hids, Finset.sum_insert hnot, hrest, newOrder_orders,
    Function.update_self]
  exact Nat.add_comm _ _

/-- An order that is registered and answered at once. -/
theorem Keyed.total_placed (hk : Keyed om) {order : Order}
    (h : Revises (om.newOrder order).2 om' om.nextId g) (w : Entry → ℕ) :
    om'.total w = om.total w + w (g (om.newEntry order)) := by
  have hnew : (om.newOrder order).2.orders om.nextId = some (om.newEntry order) := by
    rw [newOrder_orders, Function.update_self]
  have htotal := h.total (hk.newOrder order) hnew w
  rw [hk.total_newOrder] at htotal
  omega

/-- A report that leaves every order with no more. -/
theorem Revises.total_le (h : Revises om om' id g) {w w' : Entry → ℕ} (hw : ∀ e, w' e ≤ w e)
    (hg : ∀ e, w' (g e) ≤ w e) : om'.total w' ≤ om.total w := by
  rw [OrderManager.total, OrderManager.total, h.ids]
  refine Finset.sum_le_sum fun id' _ => ?_
  by_cases hid : id' = id
  · rw [hid, h.self]
    cases om.orders id with
    | none => exact le_rfl
    | some e => exact hg e
  · rw [h.of_ne hid]
    cases om.orders id' with
    | none => exact le_rfl
    | some e => exact hw e

/-- It is about the orders that there are. -/
theorem total_congr {w w' : Entry → ℕ} (hw : ∀ id e, om.orders id = some e → w e = w' e) :
    om.total w = om.total w' := by
  refine Finset.sum_congr rfl fun id _ => ?_
  cases he : om.orders id with
  | none => rfl
  | some e => exact hw id e he

/-! ### Filled quantities -/

/-- The filled quantity of an order, if it is one on a side of a symbol. -/
def filledAs (side : OrderSide) (symbolId : ℕ) (e : Entry) : ℕ :=
  if e.order.side = side ∧ e.order.symbolId = symbolId then e.filled.toNat else 0

/-- What the orders on a side of a symbol were filled. -/
def filledOf (om : OrderManager) (side : OrderSide) (symbolId : ℕ) : ℕ :=
  om.total (filledAs side symbolId)

/-- Nothing is filled at first. -/
theorem filledOf_new (visits : VisitOrder) (base : ℕ) (side : OrderSide) (symbolId : ℕ) :
    filledOf { visits := visits, nextId := base } side symbolId = 0 := rfl

/-- **A report that fills nothing** leaves the filled quantities as they are. -/
theorem Revises.filledOf (h : Revises om om' id g) (horder : ∀ e, (g e).order = e.order)
    (hfilled : ∀ e, (g e).filled = e.filled) (side : OrderSide) (symbolId : ℕ) :
    om'.filledOf side symbolId = om.filledOf side symbolId := by
  refine h.total_congr fun e => ?_
  rw [filledAs, filledAs, horder, hfilled]

/-- **A fill** adds to the side and the symbol of its order. -/
theorem Keyed.filledOf_onFill (hk : Keyed om) (hs : om.All Entry.Sized) {e : Entry}
    (he : om.orders id = some e) {q : UInt64} (hq : q.toNat < 2 ^ 32) (p : Int64)
    (side : OrderSide) (symbolId : ℕ) :
    (om.onFill id q p).filledOf side symbolId = om.filledOf side symbolId +
      if e.order.side = side ∧ e.order.symbolId = symbolId then min q.toNat e.openQty else 0 := by
  have hnew : filledAs side symbolId (e.filledWith q p) =
      if e.order.side = side ∧ e.order.symbolId = symbolId then
        e.filled.toNat + min q.toNat e.openQty else 0 := by
    rw [filledAs, Entry.filledWith_order, Entry.filledWith_filled (hs id e he) hq]
  have htotal := (om.onFill_revises id q p).total_if hk he rfl hnew (Nat.add_zero _)
  rwa [ite_self, Nat.add_zero] at htotal

/-- A new order has not been filled. -/
theorem Keyed.filledOf_newOrder (hk : Keyed om) (order : Order) (side : OrderSide)
    (symbolId : ℕ) : (om.newOrder order).2.filledOf side symbolId = om.filledOf side symbolId := by
  rw [OrderManager.filledOf, hk.total_newOrder, filledAs]
  show om.total _ + (if _ then 0 else 0) = _
  rw [ite_self]
  rfl

end OrderManager

end NebulaX
