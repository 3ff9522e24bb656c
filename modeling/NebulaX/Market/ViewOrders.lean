import NebulaX.Market.OrderBookConsumer

/-!
# The orders a view holds

What the books of a view are for, without slots, levels and links: a finite map from references to
orders, `held`. The events change it at one reference (a replace at two), and `addedTo` says which
book an order belongs to.

This part of the state is sound whatever becomes of the totals of the levels.

## Main results

* `onEvent_add`, `onEvent_delete`, `onEvent_cancel`, `onEvent_execute`, `onEvent_replace` — what an
  event makes of the orders held; `onEvent_unknown` — an event about a reference that is not found
* `onEvent_spec` — every event returns, and does this
-/

namespace NebulaX.Market

open PriceLevelTable (IsPrice)

namespace Books

/-- The slot of the live order with a reference. -/
def slotOf (v : Books) (ref : ℕ) : Option ℕ :=
  (List.range v.shared.pool.capacity).find? fun i =>
    decide (i ∉ v.shared.pool.freeSlots ∧ (v.slot i).orderRef = ref)

/-- The live order with a reference. -/
def held (v : Books) (ref : ℕ) : Option OrderSlotView := (v.slotOf ref).map v.slot

end Books

/-! ### Slots and references -/

section Held

variable {v v' : Books} {fl : List ℕ} {i ref : ℕ}

theorem Rep.slotOf_spec (h : Rep v fl) (hs : v.slotOf ref = some i) :
    InUse v fl i ∧ (v.slot i).orderRef = ref := by
  rw [Books.slotOf] at hs
  have hlt := List.mem_range.mp (List.mem_of_find?_eq_some hs)
  have hdec := List.find?_some hs
  rw [h.holds.free.freeSlots_eq] at hdec
  obtain ⟨hfree, href⟩ := of_decide_eq_true hdec
  exact ⟨⟨hlt, hfree⟩, href⟩

theorem Rep.held_of_slot (h : Rep v fl) (hi : InUse v fl i) :
    v.held (v.slot i).orderRef = some (v.slot i) := by
  have hsome : v.slotOf (v.slot i).orderRef = some i := by
    cases hs : v.slotOf (v.slot i).orderRef with
    | none =>
      have hnone := List.find?_eq_none.mp hs i (List.mem_range.mpr hi.1)
      rw [h.holds.free.freeSlots_eq] at hnone
      exact absurd (decide_eq_true (And.intro hi.2 rfl)) hnone
    | some j =>
      obtain ⟨hj, href⟩ := h.slotOf_spec hs
      exact congrArg some (h.holds.inj j i hj hi href)
  rw [Books.held, hsome]
  rfl

/-- **A reference is held** exactly if a slot in use carries it. -/
theorem Rep.held_eq_some (h : Rep v fl) {s : OrderSlotView} :
    v.held ref = some s ↔ ∃ i, InUse v fl i ∧ (v.slot i).orderRef = ref ∧ v.slot i = s := by
  constructor
  · intro hs
    obtain ⟨i, hi, rfl⟩ := Option.map_eq_some_iff.mp hs
    obtain ⟨huse, href⟩ := h.slotOf_spec hi
    exact ⟨i, huse, href, rfl⟩
  · rintro ⟨i, hi, rfl, rfl⟩
    exact h.held_of_slot hi

theorem Rep.held_eq_none (h : Rep v fl) :
    v.held ref = none ↔ ∀ i, InUse v fl i → (v.slot i).orderRef ≠ ref := by
  constructor
  · rintro hnone i hi rfl
    exact absurd (hnone.symm.trans (h.held_of_slot hi)) (by simp)
  · intro hnone
    cases hs : v.held ref with
    | none => rfl
    | some s =>
      obtain ⟨i, hi, href, -⟩ := h.held_eq_some.mp hs
      exact absurd href (hnone i hi)

/-- What the index finds is held. -/
theorem Rep.held_of_find (h : Rep v fl) (hf : v.shared.index.find ref = some (some i)) :
    InUse v fl i ∧ (v.slot i).orderRef = ref ∧ v.held ref = some (v.slot i) := by
  rcases h.find ref with hnone | ⟨j, hj, huse, rfl⟩
  · exact absurd (hnone.symm.trans hf) (by simp)
  · obtain rfl : j = i := by
      have heq := hj.symm.trans hf
      simpa using heq
    exact ⟨huse, rfl, h.held_of_slot huse⟩

/-- Unless an insert was dropped, what is held is found. -/
theorem Rep.find_of_held (h : Rep v fl) (hd : v.shared.insertDropped = false)
    {s : OrderSlotView} (hs : v.held ref = some s) :
    ∃ i, v.shared.index.find ref = some (some i) ∧ v.slot i = s := by
  obtain ⟨i, hi, rfl, rfl⟩ := h.held_eq_some.mp hs
  exact ⟨i, h.holds.find_of_live hd hi, rfl⟩

/-- A new order is held, the others are held as before. -/
theorem Rep.held_add (h : Rep v (i :: fl)) (h' : Rep v' fl)
    (hcap : v'.shared.pool.capacity = v.shared.pool.capacity) {s : OrderSlotView}
    (hslot : v'.slot = Function.update v.slot i s) :
    v'.held = Function.update v.held s.orderRef (some s) := by
  have hi : InUse v' fl i := by
    refine ⟨?_, (List.nodup_cons.mp h.holds.free.nodup).1⟩
    rw [hcap]
    exact h.holds.free.lt i List.mem_cons_self
  have hself : v'.slot i = s := by rw [hslot, Function.update_self]
  have hold : ∀ j, j ≠ i → v'.slot j = v.slot j := fun j hj => by
    rw [hslot, Function.update_of_ne hj]
  have huse : ∀ j, j ≠ i → (InUse v' fl j ↔ InUse v (i :: fl) j) := fun j hj => by
    rw [InUse, InUse, hcap, List.mem_cons, not_or]
    exact ⟨fun hc => ⟨hc.1, hj, hc.2⟩, fun hc => ⟨hc.1, hc.2.2⟩⟩
  funext r
  by_cases hr : r = s.orderRef
  · rw [hr, Function.update_self, ← hself]
    exact h'.held_of_slot hi
  · rw [Function.update_of_ne hr]
    cases hs : v.held r with
    | none =>
      refine h'.held_eq_none.mpr fun j hj => ?_
      by_cases hji : j = i
      · rw [hji, hself]
        exact Ne.symm hr
      · rw [hold j hji]
        exact h.held_eq_none.mp hs j ((huse j hji).mp hj)
    | some t =>
      obtain ⟨j, hj, hjr, hjt⟩ := h.held_eq_some.mp hs
      have hji : j ≠ i := fun he => hj.2 (he ▸ List.mem_cons_self)
      exact h'.held_eq_some.mpr ⟨j, (huse j hji).mpr hj, by rw [hold j hji, hjr],
        by rw [hold j hji, hjt]⟩

/-- An order whose slot is given back is held no more. -/
theorem Rep.held_release (h : Rep v fl) (h' : Rep v' (i :: fl)) (hi : InUse v fl i)
    (hcap : v'.shared.pool.capacity = v.shared.pool.capacity)
    (hslot : ∀ j, j ≠ i → v'.slot j = v.slot j) :
    v'.held = Function.update v.held (v.slot i).orderRef none := by
  have huse : ∀ j, InUse v' (i :: fl) j ↔ j ≠ i ∧ InUse v fl j := fun j => by
    rw [InUse, InUse, hcap, List.mem_cons, not_or]
    exact ⟨fun hc => ⟨hc.2.1, hc.1, hc.2.2⟩, fun hc => ⟨hc.2.1, hc.1, hc.2.2⟩⟩
  funext r
  by_cases hr : r = (v.slot i).orderRef
  · rw [hr, Function.update_self]
    refine h'.held_eq_none.mpr fun j hj hjr => ?_
    obtain ⟨hji, hj⟩ := (huse j).mp hj
    rw [hslot j hji] at hjr
    exact hji (h.holds.inj j i hj hi hjr)
  · rw [Function.update_of_ne hr]
    cases hs : v.held r with
    | none =>
      refine h'.held_eq_none.mpr fun j hj => ?_
      obtain ⟨hji, hj⟩ := (huse j).mp hj
      rw [hslot j hji]
      exact h.held_eq_none.mp hs j hj
    | some t =>
      obtain ⟨j, hj, hjr, hjt⟩ := h.held_eq_some.mp hs
      have hji : j ≠ i := fun he => hr (by rw [← hjr, he])
      exact h'.held_eq_some.mpr ⟨j, (huse j).mpr ⟨hji, hj⟩, by rw [hslot j hji, hjr],
        by rw [hslot j hji, hjt]⟩

/-- A write to an order is seen under its reference. -/
theorem Rep.held_write (h : Rep v fl) (h' : Rep v' fl) (hi : InUse v fl i)
    (hcap : v'.shared.pool.capacity = v.shared.pool.capacity) {s : OrderSlotView}
    (hs : s.orderRef = (v.slot i).orderRef) (hslot : v'.slot = Function.update v.slot i s) :
    v'.held = Function.update v.held s.orderRef (some s) := by
  have huse : ∀ j, InUse v' fl j ↔ InUse v fl j := fun j => by rw [InUse, InUse, hcap]
  have hself : v'.slot i = s := by rw [hslot, Function.update_self]
  have hold : ∀ j, j ≠ i → v'.slot j = v.slot j := fun j hj => by
    rw [hslot, Function.update_of_ne hj]
  have hrefs : ∀ j, (v'.slot j).orderRef = (v.slot j).orderRef := fun j => by
    by_cases hj : j = i
    · rw [hj, hself, hs]
    · rw [hold j hj]
  funext r
  by_cases hr : r = s.orderRef
  · rw [hr, Function.update_self, ← hself]
    exact h'.held_of_slot ((huse i).mpr hi)
  · rw [Function.update_of_ne hr]
    cases ht : v.held r with
    | none =>
      refine h'.held_eq_none.mpr fun j hj => ?_
      rw [hrefs j]
      exact h.held_eq_none.mp ht j ((huse j).mp hj)
    | some t =>
      obtain ⟨j, hj, hjr, hjt⟩ := h.held_eq_some.mp ht
      have hji : j ≠ i := fun he => hr (by rw [← hjr, he, hs])
      exact h'.held_eq_some.mpr ⟨j, (huse j).mpr hj, by rw [hold j hji, hjr],
        by rw [hold j hji, hjt]⟩

end Held

/-! ### Events -/

namespace OrderBookConsumer

/-- The books of a view are well formed. -/
def Ok (c : OrderBookConsumer) : Prop := ∃ fl, Rep c.books fl

/-- The pool of the view has a free slot. -/
def hasRoom (c : OrderBookConsumer) : Bool := !c.books.shared.pool.freeSlots.isEmpty

/-- The order that `handle_add` enters. -/
def newSlot (c : OrderBookConsumer) (o : OrderEvent) : OrderSlotView :=
  { orderRef := o.orderRef, side := o.side, price := o.price, shares := o.shares
    remaining := o.shares, sequence := c.orderSeq + 1 }

/-- The order that `handle_replace` enters. -/
def replacement (c : OrderBookConsumer) (side : OrderSide) (o : OrderEvent) : OrderSlotView :=
  { orderRef := o.newOrderRef, side := side, price := o.price, shares := o.shares
    remaining := o.shares, sequence := c.orderSeq + 1 }

/-- What a reduction leaves of an order. -/
def cut (s : OrderSlotView) (q : UInt64) : Option OrderSlotView :=
  if q < s.remaining then some { s with remaining := s.remaining - q } else none

/-- The view after an event: well formed, with the orders `held` on the books `addedTo`. -/
structure Becomes (c c' : OrderBookConsumer) (held : ℕ → Option OrderSlotView)
    (addedTo : ℕ → ℕ) : Prop where
  /-- It is well formed. -/
  ok : c'.Ok
  /-- The orders it holds. -/
  held : c'.books.held = held
  /-- The books they belong to. -/
  addedTo : c'.books.addedTo = addedTo
  /-- A complete index was complete before. -/
  dropped : c'.books.shared.insertDropped = false → c.books.shared.insertDropped = false

theorem Becomes.refl {c c' : OrderBookConsumer} (h : c.Ok) (hb : c'.books = c.books) :
    Becomes c c' c.books.held c.books.addedTo := by
  refine ⟨?_, congrArg Books.held hb, congrArg Books.addedTo hb, fun hd => hb ▸ hd⟩
  rwa [Ok, hb]

section Events

variable {c : OrderBookConsumer} {ev : MarketEvent} {o : OrderEvent} {t : TradeEvent} {i : ℕ}

theorem hasRoom_of_rep {fl : List ℕ} (h : Rep c.books fl) : c.hasRoom = !fl.isEmpty := by
  rw [hasRoom, h.holds.free.freeSlots_eq]

/-- **A new order** is held, if the pool has a slot. -/
theorem onEvent_add (h : c.Ok) (hev : ev.body = .add o) (hp : IsPrice o.price)
    (hfresh : c.books.held o.orderRef = none) :
    ∃ c', c.onEvent ev = some c' ∧
      if c.hasRoom then Becomes c c'
        (Function.update c.books.held o.orderRef (some (c.newSlot o)))
        (Function.update c.books.addedTo o.orderRef ev.locate)
      else c'.books = c.books := by
  obtain ⟨fl, h⟩ := h
  rw [hasRoom_of_rep h, onEvent, hev]
  cases fl with
  | nil =>
    refine ⟨{ c with orderSeq := c.orderSeq + 1 }, ?_, rfl⟩
    show Option.map _ (c.books.add ev.locate o.orderRef o.side o.price o.shares _) = _
    rw [h.add_full]
    rfl
  | cons i fl =>
    obtain ⟨v', hadd, hrep, hcap, hdrop, hslot, hto, -⟩ := @Rep.add_spec _ _ _ _ o.side _ h hp
      (h.held_eq_none.mp hfresh) ev.locate o.shares (c.orderSeq + 1)
    refine ⟨{ c with orderSeq := c.orderSeq + 1, books := v' }, ?_, ⟨fl, hrep⟩, ?_, hto, hdrop⟩
    · show Option.map _ (c.books.add ev.locate o.orderRef o.side o.price o.shares _) = _
      rw [hadd]
      rfl
    · exact h.held_add hrep hcap hslot

/-- **An event about a reference that is not found** changes no book. -/
theorem onEvent_unknown {ref : ℕ} (hf : c.books.shared.index.find ref = some none)
    (hev : (ev.body = .delete o ∨ ev.body = .cancel o ∨ ev.body = .replace o) ∧ o.orderRef = ref ∨
      (ev.body = .execute t ∨ ev.body = .trade t) ∧ t.orderRef = ref) :
    ∃ c', c.onEvent ev = some c' ∧ c'.books = c.books := by
  obtain ⟨hremove, hcancel, -⟩ := Rep.unknown hf ev.locate
  have hexec : ∀ q, c.books.execute ev.locate ref q = some (false, c.books) := hcancel
  rcases hev with ⟨hev | hev | hev, href⟩ | ⟨hev | hev, href⟩
  · refine ⟨c, ?_, rfl⟩
    simp only [onEvent, hev, handleDelete, href, hremove, Option.map_some]
  · refine ⟨c, ?_, rfl⟩
    simp only [onEvent, hev, handleCancel, href, hcancel, Option.map_some]
  · refine ⟨c, ?_, rfl⟩
    simp only [onEvent, hev, handleReplace, href, OrderBook.get, hf, Option.map_some,
      Option.map_none, Option.bind_some]
  · simp only [onEvent, hev, handleExecute, href, OrderBook.get, hf, Option.map_some,
      Option.map_none, Option.bind_some, hexec]
    exact ⟨_, rfl, rfl⟩
  · simp only [onEvent, hev, handleTrade, href, hexec, Option.map_some]
    exact ⟨_, rfl, rfl⟩

/-- **A deleted order** is held no more. -/
theorem onEvent_delete (h : c.Ok) (hev : ev.body = .delete o)
    (hf : c.books.shared.index.find o.orderRef = some (some i)) :
    ∃ c', c.onEvent ev = some c' ∧
      Becomes c c' (Function.update c.books.held o.orderRef none) c.books.addedTo := by
  obtain ⟨fl, h⟩ := h
  obtain ⟨hi, href, -⟩ := h.held_of_find hf
  obtain ⟨v', hrem, hrep, hcap, hdrop, hslot, hto, -⟩ := h.remove_spec hf hi href ev.locate
  refine ⟨{ c with books := v' }, ?_, ⟨_, hrep⟩, ?_, hto, fun hd => hdrop.symm.trans hd⟩
  · simp only [onEvent, hev, handleDelete, hrem, Option.map_some]
  · rw [← href]
    exact h.held_release hrep hi hcap fun j _ => congrFun hslot j

/-- A reduction takes what it says off an order, or the whole order. -/
theorem reduce_spec {v : Books} {fl : List ℕ} (h : Rep v fl) {ref : ℕ}
    (hf : v.shared.index.find ref = some (some i)) (q : UInt64) (L : ℕ) :
    ∃ v', v.cancel L ref q = some (true, v') ∧ (∃ fl', Rep v' fl') ∧
      v'.held = Function.update v.held ref (cut (v.slot i) q) ∧ v'.addedTo = v.addedTo ∧
      v'.shared.insertDropped = v.shared.insertDropped ∧
      (q < (v.slot i).remaining → v'.shared.index = v.shared.index) := by
  obtain ⟨hi, href, -⟩ := h.held_of_find hf
  rw [cut]
  by_cases hq : q < (v.slot i).remaining
  · obtain ⟨v', hcall, hrep, hcap, hdrop, hindex, hslot, hto, -⟩ := h.cancel_part hf hi hq L
    refine ⟨v', hcall, ⟨fl, hrep⟩, ?_, hto, hdrop, fun _ => hindex⟩
    rw [if_pos hq, ← href]
    exact h.held_write (s := { v.slot i with remaining := (v.slot i).remaining - q }) hrep hi hcap
      rfl hslot
  · obtain ⟨v₁, v', hcall, hrep, hcap, hdrop, hslot, hto, -⟩ :=
      h.cancel_full hf hi href (UInt64.not_lt.mp hq) L
    refine ⟨v', hcall, ⟨_, hrep⟩, ?_, hto, hdrop, fun hlt => absurd hlt hq⟩
    rw [if_neg hq, ← href]
    refine h.held_release hrep hi hcap fun j hj => ?_
    rw [hslot, Function.update_of_ne hj]

/-- **A partial cancel.** While something remains the index stays as it is. -/
theorem onEvent_cancel (h : c.Ok) (hev : ev.body = .cancel o)
    (hf : c.books.shared.index.find o.orderRef = some (some i)) :
    ∃ c', c.onEvent ev = some c' ∧ Becomes c c'
      (Function.update c.books.held o.orderRef (cut (c.books.slot i) o.shares))
      c.books.addedTo ∧
      (o.shares < (c.books.slot i).remaining → c'.books.shared.index = c.books.shared.index) := by
  obtain ⟨fl, h⟩ := h
  obtain ⟨v', hcall, hok, hheld, hto, hdrop, hindex⟩ := reduce_spec h hf o.shares ev.locate
  refine ⟨{ c with books := v' }, ?_, ⟨hok, hheld, hto, fun hd => hdrop.symm.trans hd⟩, hindex⟩
  simp only [onEvent, hev, handleCancel, hcall, Option.map_some]

/-- **An execution**, with a price or without. -/
theorem onEvent_execute (h : c.Ok) (hev : ev.body = .execute t ∨ ev.body = .trade t)
    (hf : c.books.shared.index.find t.orderRef = some (some i)) :
    ∃ c', c.onEvent ev = some c' ∧ Becomes c c'
      (Function.update c.books.held t.orderRef (cut (c.books.slot i) t.volume))
      c.books.addedTo ∧
      (t.volume < (c.books.slot i).remaining → c'.books.shared.index = c.books.shared.index) := by
  obtain ⟨fl, h⟩ := h
  obtain ⟨v', hcall, hok, hheld, hto, hdrop, hindex⟩ := reduce_spec h hf t.volume ev.locate
  have hexec : c.books.execute ev.locate t.orderRef t.volume = some (true, v') := hcall
  rcases hev with hev | hev
  · simp only [onEvent, hev, handleExecute, OrderBook.get, hf, Option.map_some, Option.bind_some,
      hexec]
    exact ⟨_, rfl, ⟨hok, hheld, hto, fun hd => hdrop.symm.trans hd⟩, hindex⟩
  · simp only [onEvent, hev, handleTrade, hexec, Option.map_some]
    exact ⟨_, rfl, ⟨hok, hheld, hto, fun hd => hdrop.symm.trans hd⟩, hindex⟩

/-- **A replaced order** leaves, and the new one is held: the slot of the old one is free. -/
theorem onEvent_replace (h : c.Ok) (hev : ev.body = .replace o) (hp : IsPrice o.price)
    (hf : c.books.shared.index.find o.orderRef = some (some i))
    (hfresh : o.newOrderRef = o.orderRef ∨ c.books.held o.newOrderRef = none) :
    ∃ c', c.onEvent ev = some c' ∧ Becomes c c'
      (Function.update (Function.update c.books.held o.orderRef none) o.newOrderRef
        (some (c.replacement (c.books.slot i).side o)))
      (Function.update c.books.addedTo o.newOrderRef ev.locate) := by
  obtain ⟨fl, h⟩ := h
  obtain ⟨hi, href, -⟩ := h.held_of_find hf
  obtain ⟨v₁, hrem, hrep₁, hcap₁, hdrop₁, hslot₁, hto₁, -⟩ := h.remove_spec hf hi href ev.locate
  have hheld₁ : v₁.held = Function.update c.books.held o.orderRef none := by
    rw [← href]
    exact h.held_release hrep₁ hi hcap₁ fun j _ => congrFun hslot₁ j
  have hfresh₁ : v₁.held o.newOrderRef = none := by
    rw [hheld₁]
    rcases hfresh with heq | hnone
    · rw [heq, Function.update_self]
    · by_cases heq : o.newOrderRef = o.orderRef
      · rw [heq, Function.update_self]
      · rw [Function.update_of_ne heq, hnone]
  obtain ⟨v₂, hadd, hrep₂, hcap₂, hdrop₂, hslot₂, hto₂, -⟩ :=
    @Rep.add_spec _ _ _ _ (c.books.slot i).side _ hrep₁ hp (hrep₁.held_eq_none.mp hfresh₁)
      ev.locate o.shares (c.orderSeq + 1)
  have hreplace : c.books.replace ev.locate o.orderRef o.newOrderRef (c.books.slot i).side o.price
      o.shares (c.orderSeq + 1) = some (decide (i ≠ uint32Max), v₂) := by
    rw [Rep.replace_eq hf, hrem, if_pos (Nat.succ_ne_zero _)]
    simp only [Option.bind_some, hadd, Option.map_some]
  refine ⟨{ c with orderSeq := c.orderSeq + 1, books := v₂ }, ?_, ⟨_, hrep₂⟩, ?_, ?_, ?_⟩
  · simp only [onEvent, hev, handleReplace, OrderBook.get, hf, Option.map_some, Option.bind_some]
    exact congrArg (Option.map _) hreplace
  · rw [← hheld₁]
    exact hrep₁.held_add hrep₂ hcap₂ hslot₂
  · rw [← hto₁]
    exact hto₂
  · exact fun hd => hdrop₁.symm.trans (hdrop₂ hd)

/-- What an event enters has a price and a reference that is not held. -/
def Takes (c : OrderBookConsumer) : EventBody → Prop
  | .add o => IsPrice o.price ∧ c.books.held o.orderRef = none
  | .replace o =>
    IsPrice o.price ∧ (o.newOrderRef = o.orderRef ∨ c.books.held o.newOrderRef = none)
  | .delete _ | .cancel _ | .trade _ | .execute _ => True

/-- The index finds the reference. -/
def finds (c : OrderBookConsumer) (ref : ℕ) : Bool :=
  ((c.books.shared.index.find ref).getD none).isSome

/-- The orders held after a reduction. -/
def heldReduced (c : OrderBookConsumer) (ref : ℕ) (q : UInt64) : ℕ → Option OrderSlotView :=
  if c.finds ref then Function.update c.books.held ref ((c.books.held ref).bind fun s => cut s q)
  else c.books.held

/-- The orders held after an event. -/
def heldAfter (c : OrderBookConsumer) : EventBody → ℕ → Option OrderSlotView
  | .add o =>
    if c.hasRoom then Function.update c.books.held o.orderRef (some (c.newSlot o))
    else c.books.held
  | .delete o =>
    if c.finds o.orderRef then Function.update c.books.held o.orderRef none else c.books.held
  | .cancel o => c.heldReduced o.orderRef o.shares
  | .replace o =>
    if c.finds o.orderRef then
      Function.update (Function.update c.books.held o.orderRef none) o.newOrderRef
        ((c.books.held o.orderRef).map fun s => c.replacement s.side o)
    else c.books.held
  | .trade t | .execute t => c.heldReduced t.orderRef t.volume

/-- The books they belong to. -/
def addedToAfter (c : OrderBookConsumer) (ev : MarketEvent) : ℕ → ℕ :=
  match ev.body with
  | .add o =>
    if c.hasRoom then Function.update c.books.addedTo o.orderRef ev.locate else c.books.addedTo
  | .replace o =>
    if c.finds o.orderRef then Function.update c.books.addedTo o.newOrderRef ev.locate
    else c.books.addedTo
  | .delete _ | .cancel _ | .trade _ | .execute _ => c.books.addedTo

/-- A lookup returns. -/
theorem Ok.find (h : c.Ok) (ref : ℕ) :
    (c.finds ref = false ∧ c.books.shared.index.find ref = some none) ∨
      ∃ i, c.finds ref = true ∧ c.books.shared.index.find ref = some (some i) ∧
        c.books.held ref = some (c.books.slot i) := by
  obtain ⟨fl, hrep⟩ := h
  rw [finds]
  rcases hrep.find ref with hf | ⟨i, hf, -⟩
  · exact Or.inl ⟨by rw [hf]; rfl, hf⟩
  · exact Or.inr ⟨i, by rw [hf]; rfl, hf, (hrep.held_of_find hf).2.2⟩

/-- **Every event returns**, and this is what it does. -/
theorem onEvent_spec (h : c.Ok) (ht : c.Takes ev.body) :
    ∃ c', c.onEvent ev = some c' ∧ Becomes c c' (c.heldAfter ev.body) (c.addedToAfter ev) := by
  cases hev : ev.body with
  | add o =>
    rw [hev] at ht
    obtain ⟨c', hc', hbecomes⟩ := onEvent_add h hev ht.1 ht.2
    refine ⟨c', hc', ?_⟩
    rw [heldAfter, addedToAfter, hev]
    cases hroom : c.hasRoom with
    | true => simpa only [hroom, if_true] using hbecomes
    | false =>
      rw [hroom] at hbecomes
      exact .refl h hbecomes
  | delete o =>
    rw [heldAfter, addedToAfter, hev]
    rcases h.find o.orderRef with ⟨hno, hf⟩ | ⟨i, hyes, hf, -⟩
    · obtain ⟨c', hc', hb⟩ := onEvent_unknown hf (t := {}) (Or.inl ⟨Or.inl hev, rfl⟩)
      rw [hno]
      exact ⟨c', hc', .refl h hb⟩
    · obtain ⟨c', hc', hbecomes⟩ := onEvent_delete h hev hf
      rw [hyes, if_pos rfl]
      exact ⟨c', hc', hbecomes⟩
  | cancel o =>
    rw [heldAfter, addedToAfter, hev, heldReduced]
    rcases h.find o.orderRef with ⟨hno, hf⟩ | ⟨i, hyes, hf, hheld⟩
    · obtain ⟨c', hc', hb⟩ := onEvent_unknown hf (t := {}) (Or.inl ⟨Or.inr (Or.inl hev), rfl⟩)
      rw [hno]
      exact ⟨c', hc', .refl h hb⟩
    · obtain ⟨c', hc', hbecomes, -⟩ := onEvent_cancel h hev hf
      rw [hyes, if_pos rfl, hheld]
      exact ⟨c', hc', hbecomes⟩
  | replace o =>
    rw [hev] at ht
    rw [heldAfter, addedToAfter, hev]
    rcases h.find o.orderRef with ⟨hno, hf⟩ | ⟨i, hyes, hf, hheld⟩
    · obtain ⟨c', hc', hb⟩ := onEvent_unknown hf (t := {}) (Or.inl ⟨Or.inr (Or.inr hev), rfl⟩)
      simp only [hno]
      exact ⟨c', hc', .refl h hb⟩
    · obtain ⟨c', hc', hbecomes⟩ := onEvent_replace h hev ht.1 hf ht.2
      simp only [hyes, if_true, hheld]
      exact ⟨c', hc', hbecomes⟩
  | trade t =>
    rw [heldAfter, addedToAfter, hev, heldReduced]
    rcases h.find t.orderRef with ⟨hno, hf⟩ | ⟨i, hyes, hf, hheld⟩
    · obtain ⟨c', hc', hb⟩ := onEvent_unknown hf (o := {}) (Or.inr ⟨Or.inr hev, rfl⟩)
      rw [hno]
      exact ⟨c', hc', .refl h hb⟩
    · obtain ⟨c', hc', hbecomes, -⟩ := onEvent_execute h (Or.inr hev) hf
      rw [hyes, if_pos rfl, hheld]
      exact ⟨c', hc', hbecomes⟩
  | execute t =>
    rw [heldAfter, addedToAfter, hev, heldReduced]
    rcases h.find t.orderRef with ⟨hno, hf⟩ | ⟨i, hyes, hf, hheld⟩
    · obtain ⟨c', hc', hb⟩ := onEvent_unknown hf (o := {}) (Or.inr ⟨Or.inl hev, rfl⟩)
      rw [hno]
      exact ⟨c', hc', .refl h hb⟩
    · obtain ⟨c', hc', hbecomes, -⟩ := onEvent_execute h (Or.inl hev) hf
      rw [hyes, if_pos rfl, hheld]
      exact ⟨c', hc', hbecomes⟩

/-- What an event did that was handled. -/
theorem becomes_of_onEvent {c' : OrderBookConsumer} (h : c.Ok) (ht : c.Takes ev.body)
    (hc' : c.onEvent ev = some c') :
    Becomes c c' (c.heldAfter ev.body) (c.addedToAfter ev) := by
  obtain ⟨c'', hc'', hbecomes⟩ := onEvent_spec h ht
  exact Option.some.inj (hc''.symm.trans hc') ▸ hbecomes

/-- The reference and the quantity of an event that takes something off an order. -/
def reduces : EventBody → Option (ℕ × UInt64)
  | .cancel o => some (o.orderRef, o.shares)
  | .trade t | .execute t => some (t.orderRef, t.volume)
  | .add _ | .delete _ | .replace _ => none

theorem heldAfter_of_reduces {body : EventBody} {ref : ℕ} {q : UInt64}
    (hbody : reduces body = some (ref, q)) : c.heldAfter body = c.heldReduced ref q := by
  cases body <;> simp only [reduces, Option.some.injEq, Prod.mk.injEq, reduceCtorEq] at hbody
  all_goals
    obtain ⟨rfl, rfl⟩ := hbody
    rfl

/-- **The index stays as it is** unless a reduction uses an order up that is found. -/
theorem index_of_reduces {c' : OrderBookConsumer} {ref : ℕ} {q : UInt64} (h : c.Ok)
    (hbody : reduces ev.body = some (ref, q)) (hc' : c.onEvent ev = some c')
    (hpart : c.finds ref = false ∨ ∀ x ∈ c.books.held ref, q < x.remaining) :
    c'.books.shared.index = c.books.shared.index := by
  have hsame : ∀ {c'' : OrderBookConsumer}, c.onEvent ev = some c'' → c'' = c' := fun hc'' =>
    Option.some.inj (hc''.symm.trans hc')
  rcases h.find ref with ⟨-, hf⟩ | ⟨i, hyes, hf, hheld⟩
  · have hunknown : ∃ c'', c.onEvent ev = some c'' ∧ c''.books = c.books := by
      cases hev : ev.body <;> simp only [hev, reduces, Option.some.injEq, Prod.mk.injEq,
        reduceCtorEq] at hbody
      · exact onEvent_unknown hf (t := {}) (Or.inl ⟨Or.inr (Or.inl hev), hbody.1⟩)
      · exact onEvent_unknown hf (o := {}) (Or.inr ⟨Or.inr hev, hbody.1⟩)
      · exact onEvent_unknown hf (o := {}) (Or.inr ⟨Or.inl hev, hbody.1⟩)
    obtain ⟨c'', hc'', hb⟩ := hunknown
    rw [← hsame hc'', hb]
  · have hq := hpart.resolve_left (by simp [hyes]) _ hheld
    cases hev : ev.body <;> simp only [hev, reduces, Option.some.injEq, Prod.mk.injEq,
      reduceCtorEq] at hbody
    all_goals obtain ⟨rfl, rfl⟩ := hbody
    · obtain ⟨c'', hc'', -, hindex⟩ := onEvent_cancel h hev hf
      rw [← hsame hc'', hindex hq]
    · obtain ⟨c'', hc'', -, hindex⟩ := onEvent_execute h (Or.inr hev) hf
      rw [← hsame hc'', hindex hq]
    · obtain ⟨c'', hc'', -, hindex⟩ := onEvent_execute h (Or.inl hev) hf
      rw [← hsame hc'', hindex hq]

/-! ### The side of an order -/

/-- What is not found has no side. -/
theorem sideOf_of_find_none {ref : ℕ} (hf : c.books.shared.index.find ref = some none) :
    OrderBook.sideOf c.books.shared ref = some .none := by
  rw [OrderBook.sideOf, OrderBook.get, hf]
  rfl

theorem sideOf_of_find_some {ref : ℕ} (hf : c.books.shared.index.find ref = some (some i)) :
    OrderBook.sideOf c.books.shared ref = some (c.books.slot i).side := by
  rw [OrderBook.sideOf, OrderBook.get, hf]
  rfl

/-- What is not held is not found. -/
theorem Ok.find_of_held_none (h : c.Ok) {ref : ℕ} (hn : c.books.held ref = none) :
    c.books.shared.index.find ref = some none := by
  rcases h.find ref with ⟨-, hf⟩ | ⟨i, -, -, hheld⟩
  · exact hf
  · exact absurd (hn.symm.trans hheld) (by simp)

/-- A fresh view is well formed. -/
theorem new_ok {capacity : ℕ} (hlo : 0 < capacity) (hhi : capacity ≤ uint32Max) :
    (new capacity).Ok := ⟨_, Rep.new hlo hhi⟩

/-- It holds nothing. -/
theorem new_held {capacity : ℕ} (hlo : 0 < capacity) (hhi : capacity ≤ uint32Max) (ref : ℕ) :
    (new capacity).books.held ref = none :=
  (Rep.new hlo hhi).held_eq_none.mpr fun _ hi => absurd (List.mem_range.mpr hi.1) hi.2

end Events

end OrderBookConsumer

end NebulaX.Market
