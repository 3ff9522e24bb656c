import NebulaX.Market.OrderBook

/-!
# The books of a view

The books of all locates over one pool and one index, and what the calls of one book do to them.
A book is created at its first use in the source; a book that was not created yet is an empty one
here.

Which book a slot belongs to is not written anywhere: the levels of a book lead to its slots, and
a call on another book's reference finds the slot all the same. `addedTo` is not a field of the
source. It records the locate under which a reference was last added, so that results can say
which orders a book should have.

## The invariant

`Rep v fl` says that the price tables are tables (`PriceLevelTable.Inv`) and that pool and index
belong together, with the free slots `fl`. It says nothing about the links and totals of the
levels, and every call keeps it, whichever locate it names.

## Main results

* `Rep.add_spec`, `Rep.release_spec`, `Rep.dec_spec` — what the parts of a call change: slots as
  `slot` reads them, levels as `level?` reads them
* `Rep.remove_spec`, `Rep.cancel_part`, `Rep.cancel_full`, `Rep.replace_eq` — the calls of a known
  reference; `Rep.unknown` — of an unknown one
-/

namespace NebulaX.Market

open PriceLevelTable (IsPrice)

/-- The books of a view, over one store. -/
structure Books where
  /-- The books by locate. -/
  book : ℕ → OrderBook := fun _ => {}
  /-- `shared_pool_` and `shared_index_`. -/
  shared : Store
  /-- The locate under which a reference was last added. -/
  addedTo : ℕ → ℕ := fun _ => 0

namespace Books

/-- Empty books over a fresh pool and index. -/
def new (capacity : ℕ) : Books := { shared := SharedStore.new capacity {} }

/-- The effect of a call on the book of `L` and on the store. -/
def withBook (v : Books) (L : ℕ) (b : OrderBook) (sh : Store) : Books :=
  { v with book := Function.update v.book L b, shared := sh }

/-- `book(L).add(...)`. -/
def add (v : Books) (L orderRef : ℕ) (side : OrderSide) (price : Int64) (shares : UInt64)
    (sequence : ℕ) : Option (ℕ × Books) :=
  ((v.book L).add v.shared orderRef side price shares sequence).map fun (idx, b, sh) =>
    (idx, { v.withBook L b sh with
      addedTo := if idx = uint32Max then v.addedTo else Function.update v.addedTo orderRef L })

/-- `book(L).remove(...)`. -/
def remove (v : Books) (L orderRef : ℕ) : Option (Bool × Books) :=
  ((v.book L).remove v.shared orderRef).map fun (ok, b, sh) => (ok, v.withBook L b sh)

/-- `book(L).cancel(...)`. -/
def cancel (v : Books) (L orderRef : ℕ) (cancelledShares : UInt64) : Option (Bool × Books) :=
  ((v.book L).cancel v.shared orderRef cancelledShares).map fun (ok, b, sh) =>
    (ok, v.withBook L b sh)

/-- `book(L).execute(...)`. -/
def execute (v : Books) (L orderRef : ℕ) (executedShares : UInt64) : Option (Bool × Books) :=
  ((v.book L).execute v.shared orderRef executedShares).map fun (ok, b, sh) =>
    (ok, v.withBook L b sh)

/-- `book(L).replace(...)`. -/
def replace (v : Books) (L oldRef newRef : ℕ) (side : OrderSide) (newPrice : Int64)
    (newShares : UInt64) (newSequence : ℕ) : Option (Bool × Books) :=
  ((v.book L).replace v.shared oldRef newRef side newPrice newShares newSequence).map
    fun (ok, b, sh) => (ok, { v.withBook L b sh with
      addedTo := if ok then Function.update v.addedTo newRef L else v.addedTo })

/-- What slot `i` says about its order. -/
def slot (v : Books) (i : ℕ) : OrderSlotView := (v.shared.pool.storage i).toOrderSlotView

/-- The level of a book at a price. -/
def level? (v : Books) (L : ℕ) (buy : Bool) (p : Int64) : Option PriceLevel :=
  ((v.book L).levels buy).find p

/-- The store after a write to the remaining quantity of slot `i`. -/
def reduced (v : Books) (i : ℕ) (q : UInt64) : Store :=
  { v.shared with pool := v.shared.pool.modify i fun o => { o with remaining := o.remaining - q } }

end Books

/-- The slots that are not free. -/
def InUse (v : Books) (fl : List ℕ) (i : ℕ) : Prop := i < v.shared.pool.capacity ∧ i ∉ fl

/-- The representation invariant of the books of a view. -/
structure Rep (v : Books) (fl : List ℕ) : Prop where
  /-- Pool and index belong together. -/
  holds : v.shared.Holds (fun s => s.orderRef) (InUse v fl) fl
  /-- The price tables are tables. -/
  table : ∀ L buy, ((v.book L).levels buy).Inv
  /-- Bids are bids and asks are asks. -/
  isBid : ∀ L buy, ((v.book L).levels buy).isBid = buy
  /-- Orders have prices that a table can hold. -/
  price : ∀ i, InUse v fl i → IsPrice (v.slot i).price

/-- A slot that is taken is in use. -/
theorem inUse_take {v v' : Books} {fl : List ℕ} {i : ℕ} (hi : i < v.shared.pool.capacity)
    (hfl : i ∉ fl) (hcap : v'.shared.pool.capacity = v.shared.pool.capacity) (j : ℕ) :
    (InUse v (i :: fl) j ∨ j = i) ↔ InUse v' fl j := by
  rw [InUse, InUse, hcap]
  constructor
  · rintro (⟨hj, hjfl⟩ | rfl)
    · exact ⟨hj, fun hm => hjfl (List.mem_cons_of_mem _ hm)⟩
    · exact ⟨hi, hfl⟩
  · rintro ⟨hj, hjfl⟩
    by_cases hji : j = i
    · exact Or.inr hji
    · exact Or.inl ⟨hj, fun hm => (List.mem_cons.mp hm).elim hji hjfl⟩

/-- A slot that is given back is not. -/
theorem inUse_giveBack {v v' : Books} {fl : List ℕ} {i : ℕ}
    (hcap : v'.shared.pool.capacity = v.shared.pool.capacity) (j : ℕ) :
    (InUse v fl j ∧ j ≠ i) ↔ InUse v' (i :: fl) j := by
  rw [InUse, InUse, hcap, List.mem_cons, not_or]
  constructor
  · rintro ⟨⟨hj, hjfl⟩, hji⟩
    exact ⟨hj, hji, hjfl⟩
  · rintro ⟨hj, hji, hjfl⟩
    exact ⟨⟨hj, hjfl⟩, hji⟩

/-! ### Slots and levels after a write -/

namespace OrderBook

theorem levels_setLevels (b : OrderBook) (buy buy' : Bool) (t : PriceLevelTable) :
    (b.setLevels buy t).levels buy' = if buy' = buy then t else b.levels buy' := by
  cases buy <;> cases buy' <;> rfl

theorem view_pushSlot (pool : OrderPool OrderSlot) (idx : ℕ) (lvl : PriceLevel) (j : ℕ) :
    ((pushSlot pool idx lvl).storage j).toOrderSlotView = (pool.storage j).toOrderSlotView := by
  unfold pushSlot
  split
  · simp only [OrderPool.modify, Function.update_apply]
    split_ifs <;> simp_all
  · rfl

theorem view_unlinkSlot (pool : OrderPool OrderSlot) (s : OrderSlot) (j : ℕ) :
    ((unlinkSlot pool s).storage j).toOrderSlotView = (pool.storage j).toOrderSlotView := by
  unfold unlinkSlot
  simp only [OrderPool.modify]
  split_ifs <;> simp only [Function.update_apply] <;> split_ifs <;> simp_all

/-- An order that is written to a slot and hung on a level shows in that slot only. -/
theorem view_push (pool : OrderPool OrderSlot) (idx : ℕ) (s : OrderSlotView) (lvl : PriceLevel) :
    (fun j => ((pushSlot (pool.modify idx fun _ => { toOrderSlotView := s }) idx lvl).storage
      j).toOrderSlotView) =
      Function.update (fun j => (pool.storage j).toOrderSlotView) idx s := by
  funext j
  rw [view_pushSlot, OrderPool.modify]
  by_cases hj : j = idx
  · subst hj
    simp
  · simp [hj]

theorem free_pushSlot {pool : OrderPool OrderSlot} {fl : List ℕ} (h : pool.Free fl) (idx : ℕ)
    (lvl : PriceLevel) : (pushSlot pool idx lvl).Free fl := by
  unfold pushSlot
  split
  · exact (h.modify _ _).modify _ _
  · exact h

theorem free_unlinkSlot {pool : OrderPool OrderSlot} {fl : List ℕ} (h : pool.Free fl)
    (s : OrderSlot) : (unlinkSlot pool s).Free fl := by
  unfold unlinkSlot
  simp only []
  split_ifs
  · exact (h.modify _ _).modify _ _
  · exact h.modify _ _
  · exact h.modify _ _
  · exact h

theorem capacity_pushSlot (pool : OrderPool OrderSlot) (idx : ℕ) (lvl : PriceLevel) :
    (pushSlot pool idx lvl).capacity = pool.capacity := by
  unfold pushSlot
  split <;> rfl

theorem capacity_unlinkSlot (pool : OrderPool OrderSlot) (s : OrderSlot) :
    (unlinkSlot pool s).capacity = pool.capacity := by
  unfold unlinkSlot
  simp only []
  split_ifs <;> rfl

end OrderBook

namespace PriceLevelTable

/-- A level is used and then erased, or not. -/
theorem Inv.update_erase_spec {t : PriceLevelTable} {p : Int64} (h : Inv t) (hp : IsPrice p)
    (f : PriceLevel → PriceLevel) (c : Prop) [Decidable c] :
    ∃ t₁, t.update p f = some ((t.find p).getD {}, t₁) ∧ Inv (if c then t₁.erase p else t₁) ∧
      (if c then t₁.erase p else t₁).isBid = t.isBid ∧
      ∀ q, IsPrice q → (if c then t₁.erase p else t₁).find q =
        if q = p then (if c then none else some (f ((t.find p).getD {}))) else t.find q := by
  obtain ⟨t₁, hup, hinv, hbid, hfind⟩ := h.update_spec hp f
  refine ⟨t₁, hup, ?_⟩
  by_cases hc : c
  · simp only [if_pos hc]
    obtain ⟨hinv', hbid', hfind'⟩ := hinv.erase_spec hp
    refine ⟨hinv', hbid'.trans hbid, fun q hq => ?_⟩
    rw [hfind' q hq, hfind q hq]
    split_ifs <;> rfl
  · simp only [if_neg hc]
    exact ⟨hinv, hbid, hfind⟩

end PriceLevelTable

namespace Rep

variable {v : Books} {fl : List ℕ} {i : ℕ}

/-- Writing one table of one book. -/
theorem tables_withBook (h : Rep v fl) {L : ℕ} {buy : Bool} {t : PriceLevelTable}
    (ht : t.Inv) (hbid : t.isBid = ((v.book L).levels buy).isBid) (sh : Store) :
    (∀ L' buy', (((v.withBook L ((v.book L).setLevels buy t) sh).book L').levels buy').Inv) ∧
      ∀ L' buy', (((v.withBook L ((v.book L).setLevels buy t) sh).book L').levels buy').isBid =
        buy' := by
  have hlevels : ∀ L' buy', ((v.withBook L ((v.book L).setLevels buy t) sh).book L').levels buy' =
      if L' = L ∧ buy' = buy then t else (v.book L').levels buy' := by
    intro L' buy'
    rw [Books.withBook]
    by_cases hL : L' = L
    · subst hL
      simp only [Function.update_self, OrderBook.levels_setLevels, true_and]
    · simp only [Function.update_of_ne hL, hL, false_and, if_false]
  constructor
  · intro L' buy'
    rw [hlevels]
    split
    · exact ht
    · exact h.table L' buy'
  · intro L' buy'
    rw [hlevels]
    split
    · next hc => rw [hbid, h.isBid, hc.2]
    · exact h.isBid L' buy'

theorem level?_withBook {L : ℕ} {buy : Bool} {t : PriceLevelTable} {sh : Store} (L' : ℕ)
    (buy' : Bool) (q : Int64) :
    (v.withBook L ((v.book L).setLevels buy t) sh).level? L' buy' q =
      if L' = L ∧ buy' = buy then t.find q else v.level? L' buy' q := by
  rw [Books.level?, Books.withBook]
  by_cases hL : L' = L
  · subst hL
    simp only [Function.update_self, OrderBook.levels_setLevels, true_and]
    split_ifs <;> rfl
  · simp only [Function.update_of_ne hL, hL, false_and, if_false]
    rfl

/-- A table in which one level was written gives the book in which it was. -/
theorem level?_write {L : ℕ} {buy : Bool} {price : Int64} {t : PriceLevelTable} {sh : Store}
    (g : PriceLevel → Option PriceLevel)
    (hfind : ∀ q, IsPrice q → t.find q =
      if q = price then g ((v.level? L buy price).getD {}) else v.level? L buy q) :
    ∀ L' buy' q, IsPrice q →
      (v.withBook L ((v.book L).setLevels buy t) sh).level? L' buy' q =
        if L' = L ∧ buy' = buy ∧ q = price then g ((v.level? L' buy' q).getD {})
        else v.level? L' buy' q := by
  intro L' buy' q hq
  rw [level?_withBook]
  by_cases hc : L' = L ∧ buy' = buy
  · obtain ⟨rfl, rfl⟩ := hc
    rw [if_pos ⟨rfl, rfl⟩, hfind q hq]
    by_cases hqp : q = price
    · rw [if_pos hqp, if_pos ⟨rfl, rfl, hqp⟩, hqp]
    · rw [if_neg hqp, if_neg fun hc => hqp hc.2.2]
  · rw [if_neg hc, if_neg fun hc' => hc ⟨hc'.1, hc'.2.1⟩]

/-! ### Adding -/

section Add

variable {ref : ℕ} {side : OrderSide} {price : Int64}

/-- **`add`** takes the first free slot and hangs the order on its level. -/
theorem add_spec (h : Rep v (i :: fl)) (hp : IsPrice price)
    (hfresh : ∀ j, InUse v (i :: fl) j → (v.slot j).orderRef ≠ ref) (L : ℕ) (shares : UInt64)
    (sequence : ℕ) :
    ∃ v', v.add L ref side price shares sequence = some (i, v') ∧ Rep v' fl ∧
      v'.shared.pool.capacity = v.shared.pool.capacity ∧
      (v'.shared.insertDropped = false → v.shared.insertDropped = false) ∧
      v'.slot = Function.update v.slot i
        { orderRef := ref, side := side, price := price, shares := shares, remaining := shares
          sequence := sequence } ∧
      v'.addedTo = Function.update v.addedTo ref L ∧
      ∀ L' buy q, IsPrice q → v'.level? L' buy q =
        if L' = L ∧ buy = decide (side = .buy) ∧ q = price
        then some (OrderBook.pushLevel i shares ((v.level? L' buy q).getD {}))
        else v.level? L' buy q := by
  obtain ⟨pool, halloc, hfree, hst, hcap⟩ := h.holds.free.allocate_spec
  generalize hs : OrderSlotView.mk ref side price shares shares sequence = s
  generalize hbuy : s.isBuy = buy
  have hbuy' : buy = decide (side = .buy) := by rw [← hbuy, ← hs]; rfl
  have hi : i < v.shared.pool.capacity := h.holds.free.lt i List.mem_cons_self
  obtain ⟨t, hup, hinv, hbid, hfind⟩ :=
    (h.table L buy).update_spec hp (OrderBook.pushLevel i shares)
  generalize hlvl : (((v.book L).levels buy).find price).getD {} = lvl at hup hfind
  generalize hpool' : OrderBook.pushSlot (pool.modify i fun _ => { toOrderSlotView := s }) i lvl =
    pool'
  have hfree' : pool'.Free fl := by
    rw [← hpool']
    exact OrderBook.free_pushSlot (hfree.modify _ _) _ _
  have hcap' : pool'.capacity = v.shared.pool.capacity := by
    rw [← hpool', OrderBook.capacity_pushSlot]
    exact hcap
  have hview : (fun j => (pool'.storage j).toOrderSlotView) = Function.update v.slot i s := by
    rw [← hpool', OrderBook.view_push, hst]
    rfl
  have hinot : ∀ j, InUse v (i :: fl) j → j ≠ i := fun j hj he =>
    hj.2 (he ▸ List.mem_cons_self)
  have hslot : ∀ j, j ≠ i → (pool'.storage j).toOrderSlotView = v.slot j := fun j hj => by
    rw [congrFun hview j, Function.update_of_ne hj]
  have hself : (pool'.storage i).toOrderSlotView = s := by
    rw [congrFun hview i, Function.update_self]
  obtain ⟨sh', hlink, hsh, hdrop, -, hholds⟩ := h.holds.link hfree' hcap'
    (fun j hj => congrArg OrderSlotView.orderRef (hslot j (hinot j hj)))
    (show (pool'.storage i).orderRef = ref by rw [hself, ← hs]) hfresh
  have hne : i ≠ uint32Max := h.holds.free.lt_uint32Max hi
  have hstore : sh'.pool.capacity = v.shared.pool.capacity := by rw [hsh, hcap']
  generalize hv' : ({ v.withBook L ((v.book L).setLevels buy t) sh' with
    addedTo := if i = uint32Max then v.addedTo else Function.update v.addedTo ref L } : Books) = v'
  have huse : ∀ j, (InUse v (i :: fl) j ∨ j = i) ↔ InUse v' fl j :=
    inUse_take hi (List.nodup_cons.mp h.holds.free.nodup).1 (by rw [← hv']; exact hstore)
  have hslots : v'.slot = Function.update v.slot i s := by
    rw [← hview, ← hv']
    funext j
    show (sh'.pool.storage j).toOrderSlotView = _
    rw [hsh]
  obtain ⟨htable, hisBid⟩ := h.tables_withBook hinv hbid sh'
  refine ⟨v', ?_, ⟨?_, ?_, ?_, ?_⟩, ?_, ?_, hslots, ?_, ?_⟩
  · rw [Books.add, OrderBook.add, halloc]
    simp only [hs, hbuy, hup, hpool', Option.bind_some, hlink, Option.map_some, hv']
  · rw [← hv'] at huse ⊢
    exact hholds.congr huse
  · rw [← hv']
    exact htable
  · rw [← hv']
    exact hisBid
  · intro j hj
    rw [hslots]
    by_cases hji : j = i
    · rw [hji, Function.update_self, ← hs]
      exact hp
    · rw [Function.update_of_ne hji]
      exact h.price j (((huse j).mpr hj).resolve_right hji)
  · rw [← hv']
    exact hstore
  · rw [← hv']
    exact hdrop
  · rw [← hv']
    exact if_neg hne
  · intro L' buy'' q hq
    rw [← hv']
    show (v.withBook L ((v.book L).setLevels buy t) sh').level? L' buy'' q = _
    rw [← hlvl] at hfind
    rw [level?_write (fun lvl => some (OrderBook.pushLevel i shares lvl)) hfind L' buy'' q hq,
      ← hbuy']

/-- A full pool takes no order. -/
theorem add_full (h : Rep v []) (L : ℕ) (shares : UInt64) (sequence : ℕ) :
    v.add L ref side price shares sequence = some (uint32Max, v) := by
  rw [Books.add, OrderBook.add, h.holds.free.allocate_nil]
  simp only [Option.map_some, Books.withBook, Function.update_eq_self, if_true]

end Add

/-! ### Taking off -/

/-- **`unlink_and_free`** and the erasure of the reference give the slot back; the level of its
side and price in the named book loses one order and the order's original quantity. -/
theorem release_spec (h : Rep v fl) (hi : InUse v fl i) (L : ℕ) :
    ∃ b sh, (v.book L).release v.shared i (v.slot i).orderRef = some (b, sh) ∧
      Rep (v.withBook L b sh) (i :: fl) ∧
      sh.pool.capacity = v.shared.pool.capacity ∧ sh.insertDropped = v.shared.insertDropped ∧
      (v.withBook L b sh).slot = v.slot ∧
      ∀ L' buy q, IsPrice q → (v.withBook L b sh).level? L' buy q =
        if L' = L ∧ buy = (v.slot i).isBuy ∧ q = (v.slot i).price
        then (if (OrderBook.unlinkLevel (v.shared.pool.storage i)
            ((v.level? L' buy q).getD {})).count = 0 then none
          else some (OrderBook.unlinkLevel (v.shared.pool.storage i) ((v.level? L' buy q).getD {})))
        else v.level? L' buy q := by
  generalize hs : v.shared.pool.storage i = s
  have hsv : v.slot i = s.toOrderSlotView := by rw [← hs]; rfl
  have hp : IsPrice s.price := by
    have := h.price i hi
    rwa [hsv] at this
  generalize hlvl : (((v.book L).levels s.isBuy).find s.price).getD {} = lvl
  obtain ⟨t, hup, hinv, hbid, hfind⟩ := (h.table L s.isBuy).update_erase_spec hp
    (OrderBook.unlinkLevel s) ((OrderBook.unlinkLevel s lvl).count = 0)
  rw [hlvl] at hup hfind
  generalize ht' : (if (OrderBook.unlinkLevel s lvl).count = 0 then t.erase s.price else t) = t'
    at hinv hbid hfind
  obtain ⟨sh', hunlink, hsh, hdrop, hholds⟩ := (h.holds.modify
    (OrderBook.free_unlinkSlot h.holds.free s) (OrderBook.capacity_unlinkSlot _ s)
    fun j _ => congrArg OrderSlotView.orderRef (OrderBook.view_unlinkSlot _ s j)).unlink hi
  have href : ((OrderBook.unlinkSlot v.shared.pool s).storage i).orderRef = s.orderRef := by
    have := congrArg OrderSlotView.orderRef (OrderBook.view_unlinkSlot v.shared.pool s i)
    rwa [hs] at this
  generalize hsh'' : ({ sh' with pool := sh'.pool.deallocate i } : Store) = sh'' at hholds
  have hpool : sh''.pool = (OrderBook.unlinkSlot v.shared.pool s).deallocate i := by
    rw [← hsh'', hsh]
  have hcapacity : sh''.pool.capacity = v.shared.pool.capacity := by
    rw [hpool]
    exact OrderBook.capacity_unlinkSlot _ s
  have hslots : ∀ b, (v.withBook L b sh'').slot = v.slot := by
    intro b
    funext j
    show (sh''.pool.storage j).toOrderSlotView = _
    rw [hpool]
    exact OrderBook.view_unlinkSlot _ s j
  obtain ⟨htable, hisBid⟩ := h.tables_withBook hinv hbid sh''
  refine ⟨(v.book L).setLevels s.isBuy t', sh'', ?_, ⟨?_, htable, hisBid, ?_⟩, hcapacity, ?_,
    hslots _, ?_⟩
  · have hfree : (v.book L).unlinkAndFree v.shared i = some ((v.book L).setLevels s.isBuy t',
        { v.shared with pool := (OrderBook.unlinkSlot v.shared.pool s).deallocate i }) := by
      rw [OrderBook.unlinkAndFree, hs, hup, ← ht']
      rfl
    have herase : SharedStore.unlink { v.shared with
        pool := (OrderBook.unlinkSlot v.shared.pool s).deallocate i } (v.slot i).orderRef =
          some sh'' := by
      have hunlink' : SharedStore.unlink { v.shared with
          pool := OrderBook.unlinkSlot v.shared.pool s } (v.slot i).orderRef = some sh' := by
        rw [hsv, ← href]
        exact hunlink
      rw [SharedStore.unlink] at hunlink' ⊢
      obtain ⟨index, hindex, rfl⟩ := Option.map_eq_some_iff.mp hunlink'
      rw [hindex, ← hsh'']
      rfl
    rw [OrderBook.release, hfree]
    show Option.map _ (SharedStore.unlink { v.shared with
      pool := (OrderBook.unlinkSlot v.shared.pool s).deallocate i } (v.slot i).orderRef) = _
    rw [herase, Option.map_some]
  · exact hholds.congr (inUse_giveBack hcapacity)
  · intro j hj
    rw [hslots]
    refine h.price j ⟨?_, fun hm => hj.2 (List.mem_cons_of_mem _ hm)⟩
    rw [← hcapacity]
    exact hj.1
  · rw [← hsh'']
    exact hdrop
  · rw [← hlvl] at hfind
    rw [hsv]
    exact level?_write (fun lvl => if (OrderBook.unlinkLevel s lvl).count = 0 then none
      else some (OrderBook.unlinkLevel s lvl)) hfind

/-- **`dec_level_qty`** after a write to the remaining quantity. -/
theorem dec_spec (h : Rep v fl) (hi : InUse v fl i) (L : ℕ) (q : UInt64) :
    ∃ b sh, sh = { v.shared with
        pool := v.shared.pool.modify i fun o => { o with remaining := o.remaining - q } } ∧
      (v.book L).decLevelQty (v.slot i).isBuy (v.slot i).price q = some b ∧
      Rep (v.withBook L b sh) fl ∧
      (v.withBook L b sh).slot = Function.update v.slot i
        { v.slot i with remaining := (v.slot i).remaining - q } ∧
      ∀ L' buy p, IsPrice p → (v.withBook L b sh).level? L' buy p =
        if L' = L ∧ buy = (v.slot i).isBuy ∧ p = (v.slot i).price
        then (if ((v.level? L' buy p).getD {}).totalQty - q.toUInt32 = 0 then none
          else some { (v.level? L' buy p).getD {} with
            totalQty := ((v.level? L' buy p).getD {}).totalQty - q.toUInt32 })
        else v.level? L' buy p := by
  generalize hs : v.slot i = s
  have hp : IsPrice s.price := by
    have := h.price i hi
    rwa [hs] at this
  generalize hlvl : (((v.book L).levels s.isBuy).find s.price).getD {} = lvl
  obtain ⟨t, hup, hinv, hbid, hfind⟩ := (h.table L s.isBuy).update_erase_spec hp
    (fun lvl => { lvl with totalQty := lvl.totalQty - q.toUInt32 })
    (lvl.totalQty - q.toUInt32 = 0)
  rw [hlvl] at hup hfind
  generalize ht' : (if lvl.totalQty - q.toUInt32 = 0 then t.erase s.price else t) = t'
    at hinv hbid hfind
  generalize hsh : ({ v.shared with
    pool := v.shared.pool.modify i fun o => { o with remaining := o.remaining - q } } : Store) = sh
  have hview : ∀ j, (sh.pool.storage j).toOrderSlotView =
      Function.update v.slot i { s with remaining := s.remaining - q } j := by
    intro j
    rw [← hsh]
    by_cases hj : j = i
    · subst hj
      rw [Function.update_self, ← hs]
      simp [OrderPool.modify, Books.slot]
    · rw [Function.update_of_ne hj]
      simp [OrderPool.modify, hj, Books.slot]
  have hslots : ∀ b, (v.withBook L b sh).slot =
      Function.update v.slot i { s with remaining := s.remaining - q } := by
    intro b
    funext j
    exact hview j
  have hdata : ∀ j, (Function.update v.slot i { s with remaining := s.remaining - q } j).orderRef =
      (v.slot j).orderRef ∧
      (Function.update v.slot i { s with remaining := s.remaining - q } j).price =
        (v.slot j).price := by
    intro j
    by_cases hj : j = i
    · subst hj
      rw [Function.update_self, hs]
      exact ⟨rfl, rfl⟩
    · rw [Function.update_of_ne hj]
      exact ⟨rfl, rfl⟩
  obtain ⟨htable, hisBid⟩ := h.tables_withBook hinv hbid sh
  refine ⟨(v.book L).setLevels s.isBuy t', sh, rfl, ?_, ⟨?_, htable, hisBid, ?_⟩, hslots _, ?_⟩
  · rw [OrderBook.decLevelQty, hup, ← ht']
    rfl
  · have hmod := h.holds.modify (h.holds.free.modify i fun o =>
      { o with remaining := o.remaining - q }) rfl fun j _ => by
        have := congrArg OrderSlotView.orderRef (hview j)
        rw [(hdata j).1] at this
        rw [← hsh] at this
        exact this
    rw [hsh] at hmod
    refine hmod.congr fun j => ?_
    rw [InUse, InUse, ← hsh]
    rfl
  · intro j hj
    rw [hslots, (hdata j).2]
    refine h.price j ⟨?_, hj.2⟩
    have := hj.1
    rw [← hsh] at this
    exact this
  · rw [← hlvl] at hfind
    exact level?_write (fun lvl => if lvl.totalQty - q.toUInt32 = 0 then none
      else some { lvl with totalQty := lvl.totalQty - q.toUInt32 }) hfind

/-! ### The calls -/

variable {ref : ℕ}

/-- Empty books. -/
theorem new {capacity : ℕ} (hpos : 0 < capacity) (hle : capacity ≤ uint32Max) :
    Rep (Books.new capacity) (List.range capacity) where
  holds := (SharedStore.Holds.new _ hpos hle).congr fun i =>
    ⟨False.elim, fun hi => hi.2 (List.mem_range.mpr hi.1)⟩
  table := fun L buy => by
    cases buy
    · exact PriceLevelTable.inv_new _ _
    · exact PriceLevelTable.inv_new _ _
  isBid := fun L buy => by cases buy <;> rfl
  price := fun i hi => absurd (List.mem_range.mpr hi.1) hi.2

/-- A lookup returns, and finds nothing or a slot that carries the reference. -/
theorem find (h : Rep v fl) (ref : ℕ) : v.shared.index.find ref = some none ∨
    ∃ i, v.shared.index.find ref = some (some i) ∧ InUse v fl i ∧ (v.slot i).orderRef = ref :=
  h.holds.find ref

/-- Nothing happens to an unknown reference. -/
theorem unknown (hf : v.shared.index.find ref = some none) (L : ℕ) :
    v.remove L ref = some (false, v) ∧ (∀ q, v.cancel L ref q = some (false, v)) ∧
      ∀ newRef side price shares seq,
        v.replace L ref newRef side price shares seq = some (false, v) := by
  have hself : v.withBook L (v.book L) v.shared = v := by
    rw [Books.withBook, Function.update_eq_self]
  refine ⟨?_, fun q => ?_, fun newRef side price shares seq => ?_⟩
  · rw [Books.remove, OrderBook.remove, hf]
    simp only [Option.bind_some, Option.map_some, hself]
  · rw [Books.cancel, OrderBook.cancel, OrderBook.reduce, hf]
    simp only [Option.bind_some, Option.map_some, hself]
  · rw [Books.replace, OrderBook.replace, hf]
    simp only [Option.bind_some, Option.map_some, hself, Bool.false_eq_true, if_false]

/-- **`remove`** of a known reference. -/
theorem remove_spec (h : Rep v fl) (hf : v.shared.index.find ref = some (some i))
    (hi : InUse v fl i) (href : (v.slot i).orderRef = ref) (L : ℕ) :
    ∃ v', v.remove L ref = some (true, v') ∧ Rep v' (i :: fl) ∧
      v'.shared.pool.capacity = v.shared.pool.capacity ∧
      v'.shared.insertDropped = v.shared.insertDropped ∧
      v'.slot = v.slot ∧ v'.addedTo = v.addedTo ∧
      ∀ L' buy q, IsPrice q → v'.level? L' buy q =
        if L' = L ∧ buy = (v.slot i).isBuy ∧ q = (v.slot i).price
        then (if (OrderBook.unlinkLevel (v.shared.pool.storage i)
            ((v.level? L' buy q).getD {})).count = 0 then none
          else some (OrderBook.unlinkLevel (v.shared.pool.storage i) ((v.level? L' buy q).getD {})))
        else v.level? L' buy q := by
  obtain ⟨b, sh, hrel, hrep, hcap, hdrop, hslot, hlevel⟩ := h.release_spec hi L
  refine ⟨v.withBook L b sh, ?_, hrep, hcap, hdrop, hslot, rfl, hlevel⟩
  rw [Books.remove, OrderBook.remove, hf, Option.bind_some]
  simp only [← href, hrel, Option.map_some]

/-- `cancel` and `execute` when the quantity they really take is known. -/
theorem cancel_eq (hf : v.shared.index.find ref = some (some i)) {q x : UInt64}
    (hx : (if (v.slot i).remaining < q then (v.slot i).remaining else q) = x) (L : ℕ) :
    v.cancel L ref q =
      ((v.book L).decLevelQty (v.slot i).isBuy (v.slot i).price x).bind fun b =>
        if (v.slot i).remaining - x = 0
        then (b.release (v.reduced i x) i ref).map fun (b, sh) => (true, v.withBook L b sh)
        else some (true, v.withBook L b (v.reduced i x)) := by
  have hx' : (if (v.shared.pool.storage i).remaining < q then (v.shared.pool.storage i).remaining
    else q) = x := hx
  rw [Books.cancel, OrderBook.cancel, OrderBook.reduce, hf, Option.bind_some]
  simp only [hx']
  rw [Option.map_bind]
  refine congrArg _ (funext fun b => ?_)
  show Option.map _ (if (v.slot i).remaining - x = 0
    then Option.map _ (b.release (v.reduced i x) i ref) else some (true, b, v.reduced i x)) = _
  split
  · rw [Option.map_map]
    rfl
  · rfl

/-- **A reduction that leaves something.** -/
theorem cancel_part (h : Rep v fl) (hf : v.shared.index.find ref = some (some i))
    (hi : InUse v fl i) {q : UInt64} (hq : q < (v.slot i).remaining) (L : ℕ) :
    ∃ v', v.cancel L ref q = some (true, v') ∧ Rep v' fl ∧
      v'.shared.pool.capacity = v.shared.pool.capacity ∧
      v'.shared.insertDropped = v.shared.insertDropped ∧ v'.shared.index = v.shared.index ∧
      v'.slot = Function.update v.slot i
        { v.slot i with remaining := (v.slot i).remaining - q } ∧ v'.addedTo = v.addedTo ∧
      ∀ L' buy p, IsPrice p → v'.level? L' buy p =
        if L' = L ∧ buy = (v.slot i).isBuy ∧ p = (v.slot i).price
        then (if ((v.level? L' buy p).getD {}).totalQty - q.toUInt32 = 0 then none
          else some { (v.level? L' buy p).getD {} with
            totalQty := ((v.level? L' buy p).getD {}).totalQty - q.toUInt32 })
        else v.level? L' buy p := by
  obtain ⟨b, sh, hsh, hdec, hrep, hslot, hlevel⟩ := h.dec_spec hi L q
  refine ⟨v.withBook L b sh, ?_, hrep, by rw [hsh]; rfl, by rw [hsh]; rfl, by rw [hsh]; rfl, hslot,
    rfl, hlevel⟩
  have hmin : (if (v.slot i).remaining < q then (v.slot i).remaining else q) = q :=
    if_neg (UInt64.not_lt.mpr (UInt64.le_of_lt hq))
  have hleft : (v.slot i).remaining - q ≠ 0 := fun h0 =>
    UInt64.ne_of_lt hq ((UInt64.sub_right_inj _).mp (h0.trans (UInt64.sub_self _).symm))
  rw [cancel_eq hf hmin, hdec, Option.bind_some, if_neg hleft, hsh]
  rfl

/-- **A reduction that takes all**: both helpers run on the level. -/
theorem cancel_full (h : Rep v fl) (hf : v.shared.index.find ref = some (some i))
    (hi : InUse v fl i) (href : (v.slot i).orderRef = ref) {q : UInt64}
    (hq : (v.slot i).remaining ≤ q) (L : ℕ) :
    ∃ v₁ v' : Books, v.cancel L ref q = some (true, v') ∧ Rep v' (i :: fl) ∧
      v'.shared.pool.capacity = v.shared.pool.capacity ∧
      v'.shared.insertDropped = v.shared.insertDropped ∧
      v'.slot = Function.update v.slot i { v.slot i with remaining := 0 } ∧
      v'.addedTo = v.addedTo ∧
      (∀ L' buy p, IsPrice p → v₁.level? L' buy p =
        if L' = L ∧ buy = (v.slot i).isBuy ∧ p = (v.slot i).price
        then (if ((v.level? L' buy p).getD {}).totalQty - (v.slot i).remaining.toUInt32 = 0
          then none
          else some { (v.level? L' buy p).getD {} with
            totalQty := ((v.level? L' buy p).getD {}).totalQty - (v.slot i).remaining.toUInt32 })
        else v.level? L' buy p) ∧
      ∃ s : OrderSlot, s.toOrderSlotView = { v.slot i with remaining := 0 } ∧
        ∀ L' buy p, IsPrice p → v'.level? L' buy p =
          if L' = L ∧ buy = (v.slot i).isBuy ∧ p = (v.slot i).price
          then (if (OrderBook.unlinkLevel s ((v₁.level? L' buy p).getD {})).count = 0 then none
            else some (OrderBook.unlinkLevel s ((v₁.level? L' buy p).getD {})))
          else v₁.level? L' buy p := by
  obtain ⟨b, sh, hsh, hdec, hrep, hslot, hlevel⟩ := h.dec_spec hi L (v.slot i).remaining
  rw [UInt64.sub_self] at hslot
  have hself : (v.withBook L b sh).slot i = { v.slot i with remaining := 0 } := by
    rw [hslot, Function.update_self]
  have hi' : InUse (v.withBook L b sh) fl i := ⟨by rw [hsh]; exact hi.1, hi.2⟩
  obtain ⟨b', sh', hrel, hrep', hcap, hdrop, hslot', hlevel'⟩ := hrep.release_spec hi' L
  have hbook : (v.withBook L b sh).book L = b := Function.update_self ..
  have htwice : (v.withBook L b sh).withBook L b' sh' = v.withBook L b' sh' := by
    rw [Books.withBook, Books.withBook, Books.withBook, Function.update_idem]
  rw [hbook, hself] at hrel
  rw [htwice] at hrep' hslot' hlevel'
  rw [hself] at hlevel'
  refine ⟨v.withBook L b sh, v.withBook L b' sh', ?_, hrep', ?_, ?_, hslot'.trans hslot, rfl,
    hlevel,
    _, hself, hlevel'⟩
  · have hmin : (if (v.slot i).remaining < q then (v.slot i).remaining else q) =
        (v.slot i).remaining := by
      split
      · rfl
      · next hlt => exact UInt64.le_antisymm (UInt64.not_lt.mp hlt) hq
    have hrel' : b.release (v.reduced i (v.slot i).remaining) i ref = some (b', sh') := by
      rw [← href, Books.reduced, ← hsh]
      exact hrel
    rw [cancel_eq hf hmin, hdec, Option.bind_some, if_pos (UInt64.sub_self _), hrel',
      Option.map_some]
  · rw [show (v.withBook L b' sh').shared = sh' from rfl, hcap]
    rw [hsh]
    rfl
  · rw [show (v.withBook L b' sh').shared = sh' from rfl, hdrop]
    rw [hsh]
    rfl

/-- **`replace`** of a known reference is `remove` and then `add`. -/
theorem replace_eq (hf : v.shared.index.find ref = some (some i)) (L newRef : ℕ)
    (side : OrderSide) (price : Int64) (shares : UInt64) (sequence : ℕ) :
    v.replace L ref newRef side price shares sequence =
      (v.remove L ref).bind fun (_, v') =>
        (v'.add L newRef side price shares
          (if sequence ≠ 0 then sequence else (v.slot i).sequence)).map
            fun (idx, v'') => (idx ≠ uint32Max, v'') := by
  rw [Books.replace, OrderBook.replace, hf, Option.bind_some, Books.remove]
  cases (v.book L).remove v.shared ref with
  | none => rfl
  | some r =>
    obtain ⟨ok, b, sh⟩ := r
    simp only [Option.bind_some, Option.map_some, Books.add, Books.withBook, Function.update_self,
      Books.slot]
    cases b.add sh newRef side price shares
      (if sequence ≠ 0 then sequence else (v.shared.pool.storage i).sequence) with
    | none => rfl
    | some r =>
      obtain ⟨idx, b', sh'⟩ := r
      simp only [Option.map_some, Function.update_idem, decide_eq_true_eq]
      by_cases hidx : idx = uint32Max
      · simp [hidx]
      · simp [hidx]

end Rep

end NebulaX.Market
