import NebulaX.Exchange.EveryOrder

/-!
# Recovery from shared memory

The slots of a pool may lie in memory that outlives the engine. `recoverFromShared` scans what was
left in them: the free list is started anew, every slot that reads as an order goes to the book
again, in the order of the slots, and lands in the first slot that is free. It lands at or before
the slot it is read from, so the scan reads every slot as it was left.

A slot reads as an order by its reference and its status. Neither is cleared when an order is
cancelled or replaced and its slot goes back to the pool, so such an order comes back. And orders of
one level come back in the order of their slots.

## Main results

* `scanned` — what rests after the scan, whatever was left in the slots
* `recoverFromShared_iff` — when the scan brings back exactly the orders that were resting
* `cancelled_comes_back` — an order that was cancelled, and comes back
-/

namespace NebulaX.Exchange

open MatchingEngine

/-! ### What is to come back -/

/-- What an order is to those who trade: everything but its age and status. -/
structure OrderTerms where
  /-- `order_id`. -/
  orderId : ℕ
  /-- `user_id`. -/
  userId : ℕ
  /-- `side`. -/
  side : Side
  /-- `price`. -/
  price : UInt32
  /-- `remaining_qty`. -/
  remainingQty : UInt32
  /-- `filled_qty`. -/
  filledQty : UInt32
deriving DecidableEq, Repr

/-- The terms of an order. -/
def OrderData.terms (o : OrderData) : OrderTerms where
  orderId := o.orderId
  userId := o.userId
  side := o.side
  price := o.price
  remainingQty := o.remainingQty
  filledQty := o.filledQty

/-- The same orders, in the same price-time order. -/
def SameOrders (R R' : Resting) : Prop :=
  ∀ L b, (R' L b).map OrderData.terms = (R L b).map OrderData.terms

/-! ### The scan -/

namespace MatchingEngine

/-- A new engine over the slots of a pool, as they were left: `OrderPool(storage, capacity, false)`
and an index of that capacity. -/
def attach (pool : OrderPool Order) : MatchingEngine where
  shared := { pool := { pool with freeHead := 0, size := 0 }, index := OrderMap.new pool.capacity }

/-- The body of the loop of `recoverFromShared`. What is added is a copy of the slot, so the link of
the slot goes with it. The counters are compared with what the slot holds after the order has been
added. -/
def recoverSlot (e : MatchingEngine) (i : ℕ) : Option MatchingEngine :=
  let o := e.shared.pool.storage i
  if o.orderId = 0 then some e
  else if o.status = .filled ∨ o.status = .cancelled then some e
  else (e.addOrder 0 o.toOrderData (e.shared.pool.nextFree i)).map fun (_, e) =>
    let o := e.shared.pool.storage i
    let e := if e.nextOrderId ≤ o.orderId then { e with nextOrderId := o.orderId + 1 } else e
    if e.nextSequence ≤ o.sequence then { e with nextSequence := o.sequence + 1 } else e

/-- `recoverFromShared(storage, capacity)`, where `storage` are the slots of the pool itself. -/
def recoverFromShared (e : MatchingEngine) (capacity : ℕ) : Option MatchingEngine :=
  (List.range capacity).foldlM recoverSlot
    { e with shared := { e.shared with pool := e.shared.pool.rebuildFreelist } }

end MatchingEngine

/-- A slot that reads as an order goes back to the book. -/
def OrderData.readsResting (o : OrderData) : Bool :=
  o.orderId ≠ 0 ∧ o.status ≠ .filled ∧ o.status ≠ .cancelled ∧ o.side ≠ .invalid

/-- The orders that the first `i` slots read as. -/
def takenUp (st : ℕ → Order) (i : ℕ) : List OrderData :=
  ((List.range i).map fun j => (st j).toOrderData).filter OrderData.readsResting

theorem takenUp_succ (st : ℕ → Order) (i : ℕ) : takenUp st (i + 1) =
    takenUp st i ++ if (st i).readsResting then [(st i).toOrderData] else [] := by
  rw [takenUp, List.range_succ, List.map_append, List.filter_append, takenUp]
  congr 1
  rw [List.map_singleton, List.filter_singleton]
  cases (st i).readsResting <;> rfl

theorem length_takenUp_le (st : ℕ → Order) (i : ℕ) : (takenUp st i).length ≤ i := by
  have hle := List.length_filter_le OrderData.readsResting
    ((List.range i).map fun j => (st j).toOrderData)
  rwa [List.length_map, List.length_range] at hle

/-- Of the first `k` slots, those of one level. -/
def placed (st : ℕ → Order) (k : ℕ) (b : Bool) (p : UInt32) : List ℕ :=
  (List.range k).filter fun j => (st j).side = .ofBuy b ∧ (st j).price = p

theorem mem_placed {st : ℕ → Order} {k : ℕ} {b : Bool} {p : UInt32} {j : ℕ} :
    j ∈ placed st k b p ↔ j < k ∧ (st j).side = .ofBuy b ∧ (st j).price = p := by
  rw [placed, List.mem_filter, List.mem_range, decide_eq_true_eq]

theorem nodup_placed (st : ℕ → Order) (k : ℕ) (b : Bool) (p : UInt32) :
    (placed st k b p).Nodup := List.nodup_range.filter _

theorem length_placed_le (st : ℕ → Order) (k : ℕ) (b : Bool) (p : UInt32) :
    (placed st k b p).length ≤ k := by
  have hle := List.length_filter_le
    (fun j => decide ((st j).side = .ofBuy b ∧ (st j).price = p)) (List.range k)
  rwa [List.length_range] at hle

/-- **How far a scan has come.** The slots of the pool were `old`, the first `i` of them have been
read, and the orders among them sit in the first slots, on the levels of their prices. -/
structure Scanned (old : OrderPool Order) (i : ℕ) (e : MatchingEngine) : Prop where
  /-- The pool is as large as it was. -/
  capacity : e.shared.pool.capacity = old.capacity
  /-- The slots behind the orders are free, in order. -/
  free : e.shared.pool.Free (List.range' (takenUp old.storage i).length
    (old.capacity - (takenUp old.storage i).length))
  /-- The orders that were read sit in front. -/
  moved : (List.range (takenUp old.storage i).length).map
    (fun j => (e.shared.pool.storage j).toOrderData) = takenUp old.storage i
  /-- The other slots have not been touched yet. -/
  unread : ∀ j, i ≤ j → (e.shared.pool.storage j).toOrderData = (old.storage j).toOrderData
  /-- Each level holds its orders, in the order of their slots. -/
  level : ∀ b p, LevelRep e.shared.pool.storage ((e.books 0).level? b p)
    (placed e.shared.pool.storage (takenUp old.storage i).length b p)
  /-- Nothing goes to other books. -/
  others : ∀ L, L ≠ 0 → e.books L = {}

theorem Scanned.congr {old : OrderPool Order} {i : ℕ} {e e' : MatchingEngine}
    (h : Scanned old i e) (hb : e'.books = e.books) (hs : e'.shared = e.shared) :
    Scanned old i e' where
  capacity := by rw [hs]; exact h.capacity
  free := by rw [hs]; exact h.free
  moved := by rw [hs]; exact h.moved
  unread := by rw [hs]; exact h.unread
  level := by rw [hs, hb]; exact h.level
  others := by rw [hb]; exact h.others

/-- **Adding an order to a level** whose slots are known, if the index takes it: it goes behind
them, in the first free slot, and nothing else changes. -/
theorem addOrder_level {e e' : MatchingEngine} {L i : ℕ} {fl ids : List ℕ} {o : OrderData}
    {next : ℕ} {ok : Bool}
    (hadd : e.addOrder L o next = some (ok, e')) (hfree : e.shared.pool.Free (i :: fl))
    (hside : o.side ≠ .invalid)
    (hlevel : LevelRep e.shared.pool.storage ((e.books L).level? o.side.isBuy o.price) ids)
    (hnd : ids.Nodup) (hi : i ∉ ids) (hlen : ids.length < 2 ^ 32 - 1) :
    e'.shared.pool.Free fl ∧ e'.shared.pool.capacity = e.shared.pool.capacity ∧
      (e'.shared.pool.storage i).toOrderData = o ∧
      (∀ j, j ≠ i → (e'.shared.pool.storage j).toOrderData =
        (e.shared.pool.storage j).toOrderData) ∧
      (∀ j, j ≠ i → j ∉ ids → e'.shared.pool.storage j = e.shared.pool.storage j) ∧
      (∃ l, e'.books = Function.update e.books L
        ((e.books L).setLevel o.side.isBuy o.price l) ∧
          LevelOf e'.shared.pool.storage l (ids ++ [i])) := by
  obtain ⟨taken, pool, halloc, hset, hfree', hst, hcap⟩ := hfree.allocate_assigned next
  have hlevel' : LevelRep pool.storage ((e.books L).level? o.side.isBuy o.price) ids := by
    rwa [hst]
  obtain ⟨level, pool', hpush, hlv, hpfree, hpcap, hpi, hpdata, hprest⟩ :=
    Rep.pushBack_spec hlevel' hnd hi hlen o
  rw [hst] at hpdata hprest
  rw [MatchingEngine.addOrder, OrderBook.addOrder, if_neg hside, halloc] at hadd
  simp only [hset, hpush] at hadd
  cases hlink : ({ e.shared with pool := pool' } : Store).link o.orderId i with
  | none =>
    rw [hlink] at hadd
    exact absurd hadd (by simp)
  | some sh =>
    rw [hlink] at hadd
    obtain ⟨-, rfl⟩ := Prod.mk.inj (Option.some.inj hadd)
    have hpool : sh.pool = pool' := by
      rw [SharedStore.link] at hlink
      obtain ⟨⟨ok', index⟩, -, rfl⟩ := Option.map_eq_some_iff.mp hlink
      rfl
    rw [shared_withBook, hpool]
    exact ⟨hpfree _ hfree', hpcap.trans hcap, hpi, hpdata, hprest, _, rfl, hlv⟩

/-- The slots of a level after one more order. -/
theorem placed_succ {st st' : ℕ → Order} {k : ℕ}
    (hold : ∀ j, j ≠ k → (st' j).toOrderData = (st j).toOrderData) (b : Bool) (p : UInt32) :
    placed st' (k + 1) b p = placed st k b p ++
      if (st' k).side = .ofBuy b ∧ (st' k).price = p then [k] else [] := by
  rw [placed, List.range_succ, List.filter_append, List.filter_singleton]
  congr 1
  · refine List.filter_congr fun j hj => ?_
    have hj := hold j (Nat.ne_of_lt (List.mem_range.mp hj))
    rw [show (st' j).side = (st j).side from congrArg OrderData.side hj,
      show (st' j).price = (st j).price from congrArg OrderData.price hj]
  · by_cases hc : (st' k).side = .ofBuy b ∧ (st' k).price = p
    · rw [if_pos hc, decide_eq_true hc]
      rfl
    · rw [if_neg hc, decide_eq_false hc]
      rfl

section Scan

variable {old : OrderPool Order} {i : ℕ} {e e' : MatchingEngine}

/-- The next slot reads as an order, which is added. -/
theorem Scanned.add (h : Scanned old i e) (hi : i < old.capacity)
    (hcap : old.capacity ≤ uint32Max) (hreads : (old.storage i).readsResting = true) {next : ℕ}
    {ok : Bool}
    (hadd : e.addOrder 0 (e.shared.pool.storage i).toOrderData next = some (ok, e')) :
    Scanned old (i + 1) e' := by
  have hunread := h.unread i (le_refl i)
  have hside : (e.shared.pool.storage i).side ≠ .invalid := by
    rw [show (e.shared.pool.storage i).side = _ from congrArg OrderData.side hunread]
    exact (of_decide_eq_true hreads).2.2.2
  have hk := length_takenUp_le old.storage i
  have htake : takenUp old.storage (i + 1) =
      takenUp old.storage i ++ [(old.storage i).toOrderData] := by
    rw [takenUp_succ, if_pos hreads]
  have hlen : (takenUp old.storage (i + 1)).length = (takenUp old.storage i).length + 1 := by
    rw [htake, List.length_append]
    rfl
  have hfree := h.free
  have hlevel := h.level
  have hmoved := h.moved
  generalize (takenUp old.storage i).length = k at hk hlen hfree hlevel hmoved
  obtain ⟨m, hm⟩ : ∃ m, old.capacity - k = m + 1 := ⟨old.capacity - k - 1, by omega⟩
  rw [hm, List.range'_succ] at hfree
  generalize ho : (e.shared.pool.storage i).toOrderData = o at hadd hunread
  have hoside : o.side ≠ .invalid := by
    rw [← ho]
    exact hside
  have hlt := length_placed_le e.shared.pool.storage k o.side.isBuy o.price
  obtain ⟨hfree', hcap', hnew, hdata, hrest, l, hbooks, hl⟩ := addOrder_level hadd hfree hoside
    (hlevel o.side.isBuy o.price) (nodup_placed _ _ _ _)
    (fun hmem => absurd (mem_placed.mp hmem).1 (Nat.lt_irrefl k))
    (by simp only [uint32Max] at hcap; omega)
  have hplaced := fun b p => placed_succ (b := b) (p := p) hdata
  have hnewside : (e'.shared.pool.storage k).side = .ofBuy o.side.isBuy := by
    rw [show (e'.shared.pool.storage k).side = o.side from congrArg OrderData.side hnew,
      Side.ofBuy_isBuy hoside]
  have hnewprice : (e'.shared.pool.storage k).price = o.price := congrArg OrderData.price hnew
  constructor
  · exact hcap'.trans h.capacity
  · rw [hlen, show old.capacity - (k + 1) = m by omega]
    exact hfree'
  · rw [hlen, List.range_succ, List.map_append, List.map_singleton, hnew, htake, ← hunread,
      ← hmoved]
    congr 1
    exact List.map_congr_left fun j hj => hdata j (Nat.ne_of_lt (List.mem_range.mp hj))
  · intro j hj
    rw [hdata j (by omega)]
    exact h.unread j (by omega)
  · intro b p
    rw [hlen, hplaced b p, hbooks, Function.update_self, OrderBook.level?_setLevel]
    by_cases hc : b = o.side.isBuy ∧ p = o.price
    · obtain ⟨rfl, rfl⟩ := hc
      rw [if_pos ⟨rfl, rfl⟩, if_pos ⟨hnewside, hnewprice⟩]
      exact hl
    · have hc' : ¬((e'.shared.pool.storage k).side = .ofBuy b ∧
          (e'.shared.pool.storage k).price = p) := by
        rintro ⟨hs, hp⟩
        rw [hnewside] at hs
        have hb := congrArg Side.isBuy hs
        rw [Side.isBuy_ofBuy, Side.isBuy_ofBuy] at hb
        exact hc ⟨hb.symm, hp.symm.trans hnewprice⟩
      rw [if_neg hc, if_neg hc', List.append_nil]
      refine (hlevel b p).congr fun j hj => ?_
      obtain ⟨hjk, hjs, hjp⟩ := mem_placed.mp hj
      have hsame : e'.shared.pool.storage j = e.shared.pool.storage j := by
        refine hrest j (Nat.ne_of_lt hjk) fun hmem => ?_
        obtain ⟨-, hs, hp⟩ := mem_placed.mp hmem
        have hb := congrArg Side.isBuy (hjs.symm.trans hs)
        rw [Side.isBuy_ofBuy, Side.isBuy_ofBuy] at hb
        exact hc ⟨hb, hjp.symm.trans hp⟩
      rw [hsame]
      exact ⟨rfl, rfl, rfl⟩
  · intro L hL
    rw [hbooks, Function.update_of_ne hL]
    exact h.others L hL

/-- The next slot does not read as an order. -/
theorem Scanned.skip (h : Scanned old i e) (hreads : (old.storage i).readsResting = false) :
    Scanned old (i + 1) e := by
  have htake : takenUp old.storage (i + 1) = takenUp old.storage i := by
    rw [takenUp_succ, if_neg (by rw [hreads]; decide), List.append_nil]
  constructor
  · exact h.capacity
  · rw [htake]
    exact h.free
  · rw [htake]
    exact h.moved
  · exact fun j hj => h.unread j (by omega)
  · rw [htake]
    exact h.level
  · exact h.others

/-- What one turn of the loop does: nothing, or it adds the order and raises the counters. -/
theorem recoverSlot_cases (hrec : e.recoverSlot i = some e') :
    (e' = e ∧ ((e.shared.pool.storage i).orderId = 0 ∨
      (e.shared.pool.storage i).status = .filled ∨
      (e.shared.pool.storage i).status = .cancelled)) ∨
    ∃ ok e₁, e.addOrder 0 (e.shared.pool.storage i).toOrderData (e.shared.pool.nextFree i) =
        some (ok, e₁) ∧
      ((e.shared.pool.storage i).side ≠ .invalid →
        (e.shared.pool.storage i).readsResting = true) ∧
      e'.books = e₁.books ∧ e'.shared = e₁.shared := by
  rw [recoverSlot] at hrec
  split at hrec
  · next h0 => exact Or.inl ⟨(Option.some.inj hrec).symm, Or.inl h0⟩
  next h0 =>
  split at hrec
  · next hst => exact Or.inl ⟨(Option.some.inj hrec).symm, Or.inr hst⟩
  next hst =>
  obtain ⟨⟨ok, e₁⟩, hadd, hcount⟩ := Option.map_eq_some_iff.mp hrec
  obtain ⟨hfilled, hcancelled⟩ := not_or.mp hst
  refine Or.inr ⟨ok, e₁, hadd, fun hs => decide_eq_true ⟨h0, hfilled, hcancelled, hs⟩, ?_, ?_⟩ <;>
  · rw [← hcount]
    dsimp only
    split <;> split <;> rfl

/-- **One turn of the loop.** -/
theorem Scanned.step (h : Scanned old i e) (hi : i < old.capacity)
    (hcap : old.capacity ≤ uint32Max) (hrec : e.recoverSlot i = some e') :
    Scanned old (i + 1) e' := by
  have hunread := h.unread i (le_refl i)
  rcases recoverSlot_cases hrec with ⟨rfl, hskip⟩ | ⟨ok, e₁, hadd, hreads, hb, hs⟩
  · refine h.skip ?_
    rw [← hunread]
    refine decide_eq_false fun hc => ?_
    rcases hskip with h0 | hst | hst
    · exact hc.1 h0
    · exact hc.2.1 hst
    · exact hc.2.2.1 hst
  · refine Scanned.congr ?_ hb hs
    by_cases hside : (e.shared.pool.storage i).side = .invalid
    · -- `addOrder` refuses it
      rw [Rep.addOrder_invalid hside] at hadd
      obtain ⟨-, rfl⟩ := Prod.mk.inj (Option.some.inj hadd)
      have hskip : (old.storage i).readsResting = false := by
        rw [← hunread]
        exact decide_eq_false fun hc => hc.2.2.2 hside
      exact (h.skip hskip).congr (Function.update_eq_self ..) rfl
    · have hreads' : (old.storage i).readsResting = true := by
        rw [← hunread]
        exact hreads hside
      exact h.add hi hcap hreads' hadd

end Scan

/-- Before the scan. -/
theorem scanned_start {old : OrderPool Order} (hpos : 0 < old.capacity)
    (hcap : old.capacity ≤ uint32Max) :
    Scanned old 0 { attach old with
      shared := { (attach old).shared with
        pool := (attach old).shared.pool.rebuildFreelist } } where
  capacity := rfl
  free := by
    show old.rebuildFreelist.Free (List.range' 0 old.capacity)
    rw [← List.range_eq_range']
    exact OrderPool.free_rebuildFreelist hpos hcap
  moved := rfl
  unread := fun _ _ => rfl
  level := fun b _ => by cases b <;> exact (rfl : ([] : List ℕ) = [])
  others := fun _ _ => rfl

/-- **After the scan** of the first `i` slots. -/
theorem Scanned.run {old : OrderPool Order} (hcap : old.capacity ≤ uint32Max)
    {e₀ : MatchingEngine} (h : Scanned old 0 e₀) {i : ℕ} (hi : i ≤ old.capacity)
    {e : MatchingEngine} (hrun : (List.range i).foldlM recoverSlot e₀ = some e) :
    Scanned old i e := by
  induction i generalizing e with
  | zero => exact Option.some.inj hrun ▸ h
  | succ i ih =>
    rw [List.range_succ, List.foldlM_append] at hrun
    obtain ⟨e₁, hfirst, hlast⟩ := Option.bind_eq_some_iff.mp hrun
    obtain ⟨e₂, hstep, hnil⟩ := Option.bind_eq_some_iff.mp hlast
    obtain rfl := Option.some.inj hnil
    exact (ih (by omega) hfirst).step (by omega) hcap hstep

/-- **What rests after a recovery** is what the slots read as. -/
theorem scanned {old : OrderPool Order} (hpos : 0 < old.capacity) (hcap : old.capacity ≤ uint32Max)
    {e : MatchingEngine} (hrec : (attach old).recoverFromShared old.capacity = some e) :
    Scanned old old.capacity e :=
  (scanned_start hpos hcap).run hcap (le_refl _) hrec

namespace Scanned

variable {old : OrderPool Order} {e : MatchingEngine}

theorem resting_eq (h : Scanned old old.capacity e) (hcap : old.capacity ≤ uint32Max) (b : Bool) :
    e.resting 0 b = (((e.books 0).levels b).grouped
      (placed e.shared.pool.storage (takenUp old.storage old.capacity).length b)).map
        fun j => (e.shared.pool.storage j).toOrderData := by
  have hle := length_takenUp_le old.storage old.capacity
  refine resting_of_levels (h.level b) (fun p hm => ?_) fun p => ?_
  · have hlt := (mem_placed.mp hm).1
    omega
  · rw [h.capacity]
    exact (length_placed_le ..).trans hle

/-- They are in price order. -/
theorem sorted (h : Scanned old old.capacity e) (hcap : old.capacity ≤ uint32Max) (b : Bool) :
    (e.resting 0 b).Pairwise fun x y => x.price = y.price ∨ better b x.price y.price := by
  rw [h.resting_eq hcap, List.pairwise_map]
  exact SortedMap.pairwise_grouped (fun j => (e.shared.pool.storage j).price)
    fun p j hj => (mem_placed.mp hj).2.2

/-- Those of one price are in the order of their slots. -/
theorem filter_resting (h : Scanned old old.capacity e) (hcap : old.capacity ≤ uint32Max) (b : Bool)
    (p : UInt32) : (e.resting 0 b).filter (fun o => o.price = p) =
      (takenUp old.storage old.capacity).filter fun o => o.side = .ofBuy b ∧ o.price = p := by
  have hnone : p ∉ ((e.books 0).levels b).keys → placed e.shared.pool.storage
      (takenUp old.storage old.capacity).length b p = [] := by
    intro hp
    have hl := h.level b p
    have hget : (e.books 0).level? b p = none := SortedMap.get?_eq_none.mpr hp
    rwa [hget] at hl
  have hgroup := SortedMap.filter_grouped (fun j => (e.shared.pool.storage j).price)
    (fun p j hj => (mem_placed.mp hj).2.2) hnone
  conv_rhs => rw [← h.moved]
  rw [h.resting_eq hcap, List.filter_map, List.filter_map]
  exact congrArg _ hgroup

/-- Nothing rests in other books. -/
theorem resting_others (h : Scanned old old.capacity e) {L : ℕ} (hL : L ≠ 0) (b : Bool) :
    e.resting L b = [] := by
  rw [MatchingEngine.resting, h.others L hL]
  cases b <;> rfl

end Scanned

/-! ### The scan ends -/

/-- An index that holds references among the first orders only. -/
structure ReadIndex (old : OrderPool Order) (i : ℕ) (e : MatchingEngine) : Prop where
  /-- The index is well formed. -/
  inv : e.shared.index.Inv
  /-- What it finds has been read. -/
  known : ∀ ref j, e.shared.index.lookup ref = some j →
    ∃ o ∈ takenUp old.storage i, o.orderId = ref

/-- An index takes a reference that it does not find. -/
theorem addOrder_returns {e : MatchingEngine} {L i : ℕ} {fl : List ℕ} {o : OrderData}
    (hinv : e.shared.index.Inv) (hfree : e.shared.pool.Free (i :: fl)) (hside : o.side ≠ .invalid)
    (hnew : e.shared.index.lookup o.orderId = none) (next : ℕ) :
    ∃ ok e', e.addOrder L o next = some (ok, e') ∧ e'.shared.index.Inv ∧
      ∀ ref j, e'.shared.index.lookup ref = some j →
        ref = o.orderId ∨ e.shared.index.lookup ref = some j := by
  obtain ⟨taken, pool, halloc, hset, -⟩ := hfree.allocate_assigned next
  obtain ⟨ok, index, hins, hinv', hlookup⟩ := hinv.insert_spec i hnew
  rw [MatchingEngine.addOrder, OrderBook.addOrder, if_neg hside, halloc]
  obtain ⟨level, pool', hpush⟩ : ∃ level pool', OrderBook.pushBack
      (((e.books L).level? o.side.isBuy o.price).getD {}) pool i o = (level, pool') := ⟨_, _, rfl⟩
  have hlink : ({ e.shared with pool := pool' } : Store).link o.orderId i =
      some { e.shared with
        pool := pool', index := index, insertDropped := e.shared.insertDropped || !ok } := by
    rw [SharedStore.link, hins]
    rfl
  simp only [hset, hpush, hlink]
  refine ⟨_, _, rfl, hinv', fun ref j hj => ?_⟩
  change index.lookup ref = some j at hj
  rw [hlookup] at hj
  split at hj
  · next hc => exact Or.inl hc.2
  · exact Or.inr hj

theorem recoverSlot_of_add {e e₁ : MatchingEngine} {i : ℕ} {ok : Bool}
    (h0 : (e.shared.pool.storage i).orderId ≠ 0)
    (hst : ¬((e.shared.pool.storage i).status = .filled ∨
      (e.shared.pool.storage i).status = .cancelled))
    (hadd : e.addOrder 0 (e.shared.pool.storage i).toOrderData (e.shared.pool.nextFree i) =
      some (ok, e₁)) :
    ∃ e', e.recoverSlot i = some e' ∧ e'.shared = e₁.shared := by
  rw [recoverSlot]
  simp only [if_neg h0, if_neg hst, hadd, Option.map_some]
  refine ⟨_, rfl, ?_⟩
  split <;> split <;> rfl

theorem ReadIndex.congr {old : OrderPool Order} {i : ℕ} {e e' : MatchingEngine}
    (h : ReadIndex old i e) (hs : e'.shared = e.shared) : ReadIndex old i e' where
  inv := by rw [hs]; exact h.inv
  known := by rw [hs]; exact h.known

/-- What has been read before is still there. -/
theorem ReadIndex.mono {old : OrderPool Order} {i : ℕ} {e : MatchingEngine}
    (h : ReadIndex old i e) :
    ReadIndex old (i + 1) e where
  inv := h.inv
  known := fun ref j hj => by
    obtain ⟨o, ho, href⟩ := h.known ref j hj
    exact ⟨o, by rw [takenUp_succ]; exact List.mem_append_left _ ho, href⟩

/-- **A turn of the loop returns**, as long as no reference has been read twice. -/
theorem ReadIndex.step {old : OrderPool Order} {i : ℕ} {e : MatchingEngine} (hx : ReadIndex old i e)
    (h : Scanned old i e) (hi : i < old.capacity)
    (hnd : ((takenUp old.storage (i + 1)).map OrderData.orderId).Nodup) :
    ∃ e', e.recoverSlot i = some e' ∧ ReadIndex old (i + 1) e' := by
  have hunread := h.unread i (le_refl i)
  by_cases h0 : (e.shared.pool.storage i).orderId = 0
  · exact ⟨e, by rw [recoverSlot]; exact if_pos h0, hx.mono⟩
  by_cases hst : (e.shared.pool.storage i).status = .filled ∨
      (e.shared.pool.storage i).status = .cancelled
  · exact ⟨e, by rw [recoverSlot]; simp only [if_neg h0, if_pos hst], hx.mono⟩
  by_cases hside : (e.shared.pool.storage i).side = .invalid
  · obtain ⟨e', hrec, hs⟩ := recoverSlot_of_add h0 hst (Rep.addOrder_invalid hside)
    exact ⟨e', hrec, hx.mono.congr hs⟩
  -- the slot reads as an order whose reference is new
  obtain ⟨hfilled, hcancelled⟩ := not_or.mp hst
  have hreads : (old.storage i).readsResting = true := by
    rw [← hunread]
    exact decide_eq_true ⟨h0, hfilled, hcancelled, hside⟩
  have htake : takenUp old.storage (i + 1) =
      takenUp old.storage i ++ [(old.storage i).toOrderData] := by
    rw [takenUp_succ, if_pos hreads]
  have hnew : e.shared.index.lookup (e.shared.pool.storage i).orderId = none := by
    cases hlookup : e.shared.index.lookup (e.shared.pool.storage i).orderId with
    | none => rfl
    | some j =>
      obtain ⟨o, ho, href⟩ := hx.known _ _ hlookup
      rw [htake, List.map_append, List.nodup_append'] at hnd
      refine absurd ?_ (hnd.2.2 (List.mem_map_of_mem ho))
      rw [href, List.map_singleton, List.mem_singleton, ← hunread]
  obtain ⟨m, hm⟩ : ∃ m, old.capacity - (takenUp old.storage i).length = m + 1 :=
    ⟨old.capacity - (takenUp old.storage i).length - 1, by
      have hk := length_takenUp_le old.storage i
      omega⟩
  have hfree := h.free
  rw [hm, List.range'_succ] at hfree
  obtain ⟨ok, e₁, hadd, hinv, hknown⟩ := addOrder_returns (L := 0) hx.inv hfree hside hnew _
  obtain ⟨e', hrec, hs⟩ := recoverSlot_of_add h0 hst hadd
  refine ⟨e', hrec, ReadIndex.congr ⟨hinv, fun ref j hj => ?_⟩ hs⟩
  rcases hknown ref j hj with rfl | hj
  · refine ⟨(old.storage i).toOrderData, ?_, by rw [hunread]⟩
    rw [htake]
    exact List.mem_append_right _ (List.mem_singleton.mpr rfl)
  · exact hx.mono.known ref j hj

/-- **The scan returns** when no reference is read twice. -/
theorem recoverFromShared_returns {old : OrderPool Order} (hpos : 0 < old.capacity)
    (hcap : old.capacity ≤ uint32Max)
    (hnd : ((takenUp old.storage old.capacity).map OrderData.orderId).Nodup) :
    ∃ e, (attach old).recoverFromShared old.capacity = some e := by
  have hstart := scanned_start hpos hcap
  have key : ∀ i, i ≤ old.capacity → ((takenUp old.storage i).map OrderData.orderId).Nodup →
      ∃ e, (List.range i).foldlM recoverSlot { attach old with
        shared := { (attach old).shared with
          pool := (attach old).shared.pool.rebuildFreelist } } = some e ∧ ReadIndex old i e := by
    intro i
    induction i with
    | zero =>
      refine fun _ _ => ⟨_, rfl, OrderMap.inv_new hpos hcap, fun ref j hj => ?_⟩
      change (OrderMap.new old.capacity).lookup ref = some j at hj
      rw [OrderMap.lookup_new hpos hcap] at hj
      exact absurd hj (by simp)
    | succ i ih =>
      intro hi hnd
      have hnd' : ((takenUp old.storage i).map OrderData.orderId).Nodup := by
        rw [takenUp_succ, List.map_append] at hnd
        exact (List.nodup_append'.mp hnd).1
      obtain ⟨e, hrun, hx⟩ := ih (by omega) hnd'
      obtain ⟨e', hrec, hx'⟩ := hx.step (hstart.run hcap (by omega) hrun) (by omega) hnd
      refine ⟨e', ?_, hx'⟩
      rw [List.range_succ, List.foldlM_append, hrun]
      show (recoverSlot e i).bind some = some e'
      rw [hrec]
      rfl
  obtain ⟨e, hrun, -⟩ := key old.capacity (le_refl _) hnd
  exact ⟨e, hrun⟩

/-! ### When it brings back what rested -/

/-- Trades and cancels do not finish an order that stays. -/
theorem survives_open :
    Survives fun x => x.status = .open ∨ x.status = .partiallyFilled where
  partly := fun _ _ _ => Or.inr rfl
  reduce := fun h _ => h

theorem residual_open {R : Resting} {L : ℕ} {o : OrderData} (ho : o.status = .open)
    (hopen : (residual R L o).status ≠ .filled) :
    (residual R L o).status = .open ∨ (residual R L o).status = .partiallyFilled := by
  rw [residual, afterFills] at hopen ⊢
  split at hopen
  · next hnil =>
    rw [if_pos hnil]
    exact Or.inl ho
  · next hne =>
    rw [if_neg hne]
    rw [OrderData.filledBy] at hopen ⊢
    split at hopen
    · exact absurd rfl hopen
    · next hlt => exact Or.inr (if_neg hlt)

/-- What a run that only uses the book of locate 0 says about what rests. -/
theorem ReachableBy.single {e : MatchingEngine}
    (h : ReachableBy (fun _ c => c.locate = 0) e) :
    (∀ L b, L ≠ 0 → e.resting L b = []) ∧
      Every (fun x => x.status = .open ∨ x.status = .partiallyFilled) e.resting := by
  induction h with
  | start capacity wal tradePool hlo hhi =>
    refine ⟨fun L b _ => resting_new rfl L b, fun L b x hx => ?_⟩
    rw [resting_new rfl] at hx
    exact absurd hx List.not_mem_nil
  | call c he hc hok hexec ih =>
    have hinv := he.reachable.inv
    have heff := effect_of_exec hinv hc hexec
    refine ⟨fun L b hL => ?_, heff.every survives_open hinv ih.2 fun _ _ _ ha hopen => ?_⟩
    · rw [heff.elsewhere (by rwa [hok]) b]
      exact ih.1 L b hL
    · exact residual_open (by cases ha <;> rfl) hopen

/-- **When a recovery is exact:** what is not in use does not read as an order, every resting order
has a reference, and every level is in the order of its slots. -/
structure Recoverable (e : MatchingEngine) : Prop where
  /-- Slots that were given back do not read as orders. -/
  cleared : ∀ i, i < e.shared.pool.capacity → (∀ L b p, ¬ e.OnLevel L b p i) →
    (e.shared.pool.storage i).readsResting = false
  /-- Resting orders have references. -/
  named : ∀ L b, ∀ x ∈ e.resting L b, x.orderId ≠ 0
  /-- Earlier orders of a level sit in earlier slots. -/
  ordered : ∀ b p l, (e.books 0).level? b p = some l →
    (OrderBook.levelSlots e.shared l).Pairwise (· < ·)

/-- The slots of one level that read as orders. -/
def readSlots (st : ℕ → Order) (cap : ℕ) (b : Bool) (p : UInt32) : List ℕ :=
  (List.range cap).filter fun i =>
    (st i).readsResting ∧ (st i).side = .ofBuy b ∧ (st i).price = p

theorem mem_readSlots {st : ℕ → Order} {cap : ℕ} {b : Bool} {p : UInt32} {i : ℕ} :
    i ∈ readSlots st cap b p ↔
      i < cap ∧ (st i).readsResting = true ∧ (st i).side = .ofBuy b ∧ (st i).price = p := by
  rw [readSlots, List.mem_filter, List.mem_range, decide_eq_true_eq]

theorem sorted_readSlots (st : ℕ → Order) (cap : ℕ) (b : Bool) (p : UInt32) :
    (readSlots st cap b p).Pairwise (· < ·) := List.pairwise_lt_range.filter _

theorem filter_takenUp (st : ℕ → Order) (cap : ℕ) (b : Bool) (p : UInt32) :
    (takenUp st cap).filter (fun o => o.side = .ofBuy b ∧ o.price = p) =
      (readSlots st cap b p).map fun i => (st i).toOrderData := by
  rw [takenUp, List.filter_filter, List.filter_map, readSlots]
  congr 1
  refine List.filter_congr fun i _ => ?_
  simp [Bool.and_comm, Bool.decide_and]

/-- Lists are equal when a function that tells their elements apart makes them equal. -/
theorem eq_of_map_eq {α β : Type} {f : α → β} {xs ys : List α}
    (hinj : ∀ x ∈ xs, ∀ y ∈ ys, f x = f y → x = y) (h : xs.map f = ys.map f) : xs = ys := by
  induction xs generalizing ys with
  | nil => exact (List.map_eq_nil_iff.mp h.symm).symm
  | cons x xs ih =>
    cases ys with
    | nil => exact absurd h (by simp)
    | cons y ys =>
      obtain ⟨hxy, hrest⟩ := List.cons.inj h
      rw [hinj x List.mem_cons_self y List.mem_cons_self hxy, ih (fun x hx y hy =>
        hinj x (List.mem_cons_of_mem _ hx) y (List.mem_cons_of_mem _ hy)) hrest]

namespace Rep

variable {e : MatchingEngine} {n : ℕ} {G : Layout} {fl : List ℕ}

/-- Only the book of locate 0 has slots. -/
theorem book_zero (h : Rep e n G fl) (hsingle : ∀ L b, L ≠ 0 → e.resting L b = []) {L : ℕ}
    {b : Bool} {p : UInt32} {i : ℕ} (hi : i ∈ G L b p) : L = 0 := by
  by_contra hL
  have hmem := h.resting_mem hi
  rw [hsingle L b hL] at hmem
  exact List.not_mem_nil hmem

/-- A resting order with a reference reads as one. -/
theorem mem_readSlots_of (h : Rep e n G fl)
    (hopen : Every (fun x => x.status = .open ∨ x.status = .partiallyFilled) e.resting) {b : Bool}
    {p : UInt32} {i : ℕ} (hi : i ∈ G 0 b p) (hid : (e.shared.pool.storage i).orderId ≠ 0) :
    i ∈ readSlots e.shared.pool.storage e.shared.pool.capacity b p := by
  have hstatus : (e.shared.pool.storage i).status = .open ∨
      (e.shared.pool.storage i).status = .partiallyFilled := hopen 0 b _ (h.resting_mem hi)
  have hside := h.side 0 b p i hi
  refine mem_readSlots.mpr ⟨h.holds.lt i (live hi), decide_eq_true ⟨hid, ?_, ?_, ?_⟩, hside,
    h.price 0 b p i hi⟩
  · intro hc
    rw [hc] at hstatus
    exact absurd hstatus (by decide)
  · intro hc
    rw [hc] at hstatus
    exact absurd hstatus (by decide)
  · rw [hside]
    exact Side.ofBuy_ne_invalid b

/-- A recovery is exact when the slots that read as orders are the ones in use, in order. -/
theorem recoverable_iff (h : Rep e n G fl) (hsingle : ∀ L b, L ≠ 0 → e.resting L b = [])
    (hopen : Every (fun x => x.status = .open ∨ x.status = .partiallyFilled) e.resting) :
    Recoverable e ↔
      ∀ b p, readSlots e.shared.pool.storage e.shared.pool.capacity b p = G 0 b p := by
  constructor
  · intro hrec b p
    have hsorted : (G 0 b p).Pairwise (· < ·) := by
      cases hl : (e.books 0).level? b p with
      | none =>
        rw [h.eq_nil_of_level?_eq_none hl]
        exact List.Pairwise.nil
      | some l =>
        rw [← h.levelSlots_of_level? hl]
        exact hrec.ordered b p l hl
    refine List.Pairwise.eq_of_mem_iff (sorted_readSlots _ _ b p) hsorted fun i => ?_
    constructor
    · intro hi
      obtain ⟨hlt, hreads, hside, hprice⟩ := mem_readSlots.mp hi
      by_contra hnot
      refine absurd hreads ?_
      rw [hrec.cleared i hlt fun L b' p' hon => ?_]
      · decide
      have hi' := h.onLevel_iff.mp hon
      obtain rfl := h.book_zero hsingle hi'
      have hb : Side.ofBuy b' = Side.ofBuy b := (h.side 0 b' p' i hi').symm.trans hside
      have hbb := congrArg Side.isBuy hb
      rw [Side.isBuy_ofBuy, Side.isBuy_ofBuy] at hbb
      obtain rfl := (h.price 0 b' p' i hi').symm.trans hprice
      exact hnot (hbb ▸ hi')
    · intro hi
      exact h.mem_readSlots_of hopen hi (hrec.named 0 b _ (h.resting_mem hi))
  · intro hslots
    constructor
    · intro i hlt hfree
      by_contra hreads
      have hreads : (e.shared.pool.storage i).readsResting = true := by simpa using hreads
      have hside := Side.ofBuy_isBuy (of_decide_eq_true hreads).2.2.2
      have hi := mem_readSlots.mpr ⟨hlt, hreads, hside.symm, rfl⟩
      rw [hslots] at hi
      exact hfree _ _ _ (h.onLevel_iff.mpr hi)
    · intro L b x hx
      obtain ⟨i, hi, rfl⟩ := h.mem_resting.mp hx
      obtain rfl := h.book_zero hsingle hi
      rw [← hslots] at hi
      exact (of_decide_eq_true (mem_readSlots.mp hi).2.1).1
    · intro b p l hl
      rw [h.levelSlots_of_level? hl, ← hslots]
      exact sorted_readSlots _ _ b p

/-- The slots that read as orders are those of the level when they show the same orders: the
references tell the orders of a level apart. -/
theorem readSlots_eq_of_terms (h : Rep e n G fl)
    (hopen : Every (fun x => x.status = .open ∨ x.status = .partiallyFilled) e.resting) {b : Bool}
    {p : UInt32} (hterms : (readSlots e.shared.pool.storage e.shared.pool.capacity b p).map
      (fun i => (e.shared.pool.storage i).terms) =
        (G 0 b p).map fun i => (e.shared.pool.storage i).terms) :
    readSlots e.shared.pool.storage e.shared.pool.capacity b p = G 0 b p := by
  have hsub : ∀ i ∈ G 0 b p,
      i ∈ readSlots e.shared.pool.storage e.shared.pool.capacity b p := by
    intro i hi
    have hmem : (e.shared.pool.storage i).terms ∈ (G 0 b p).map fun i =>
      (e.shared.pool.storage i).terms := List.mem_map_of_mem hi
    rw [← hterms] at hmem
    obtain ⟨j, hj, hji⟩ := List.mem_map.mp hmem
    refine h.mem_readSlots_of hopen hi ?_
    have hid : (e.shared.pool.storage j).orderId = (e.shared.pool.storage i).orderId :=
      congrArg OrderTerms.orderId hji
    rw [← hid]
    exact (of_decide_eq_true (mem_readSlots.mp hj).2.1).1
  have hlen : (readSlots e.shared.pool.storage e.shared.pool.capacity b p).length =
      (G 0 b p).length := by
    have hlen := congrArg List.length hterms
    rwa [List.length_map, List.length_map] at hlen
  have hperm : (G 0 b p).Perm (readSlots e.shared.pool.storage e.shared.pool.capacity b p) :=
    ((h.nodup 0 b p).subperm hsub).perm_of_length_le (Nat.le_of_eq hlen)
  refine eq_of_map_eq (fun i hi j hj hij => ?_) hterms
  exact h.slot_inj (hperm.mem_iff.mpr hi) hj (congrArg OrderTerms.orderId hij)

end Rep

/-- **Exactly when a recovery is exact.** In any state that an engine with one book gets into, a
recovery over its slots returns and brings back the orders that were resting, in the same
price-time order, if and only if the state is recoverable. -/
theorem recoverFromShared_iff {e : MatchingEngine}
    (he : ReachableBy (fun _ c => c.locate = 0) e) :
    (∃ e', (attach e.shared.pool).recoverFromShared e.shared.pool.capacity = some e' ∧
      SameOrders e.resting e'.resting) ↔ Recoverable e := by
  obtain ⟨G, fl, h⟩ := he.reachable.inv
  obtain ⟨hsingle, hopen⟩ := he.single
  have hcap := h.holds.free.capacity_le
  have hpos := he.reachable.capacity_pos
  rw [h.recoverable_iff hsingle hopen]
  constructor
  · rintro ⟨e', hrec, hsame⟩ b p
    have hscan := scanned hpos hcap hrec
    -- at each price, the slots that read as orders show the orders of the level
    have hterms : (readSlots e.shared.pool.storage e.shared.pool.capacity b p).map
        (fun i => (e.shared.pool.storage i).terms) =
          (G 0 b p).map fun i => (e.shared.pool.storage i).terms := by
      have hfilter := congrArg (List.filter fun t => t.price = p) (hsame 0 b)
      rw [List.filter_map, List.filter_map] at hfilter
      change ((e'.resting 0 b).filter fun o => o.price = p).map OrderData.terms =
        ((e.resting 0 b).filter fun o => o.price = p).map OrderData.terms at hfilter
      rw [hscan.filter_resting hcap, filter_takenUp, h.filter_resting, List.map_map,
        List.map_map] at hfilter
      exact hfilter
    exact h.readSlots_eq_of_terms hopen hterms
  · intro hslots
    have hnd : ((takenUp e.shared.pool.storage e.shared.pool.capacity).map
        OrderData.orderId).Nodup := by
      rw [takenUp, List.filter_map, List.map_map]
      refine List.Nodup.map_on (fun i hi j hj hij => ?_) (List.nodup_range.filter _)
      have hlevel : ∀ i, i ∈ (List.range e.shared.pool.capacity).filter
          (OrderData.readsResting ∘ fun j => (e.shared.pool.storage j).toOrderData) →
            ∃ b p, i ∈ G 0 b p := by
        intro i hi
        obtain ⟨hlt, hreads⟩ := List.mem_filter.mp hi
        have hside := Side.ofBuy_isBuy (of_decide_eq_true hreads).2.2.2
        exact ⟨_, _, hslots _ _ ▸
          mem_readSlots.mpr ⟨List.mem_range.mp hlt, hreads, hside.symm, rfl⟩⟩
      obtain ⟨b, p, hib⟩ := hlevel i hi
      obtain ⟨b', p', hjb⟩ := hlevel j hj
      exact h.slot_inj hib hjb hij
    obtain ⟨e', hrec⟩ := recoverFromShared_returns hpos hcap hnd
    have hscan := scanned hpos hcap hrec
    refine ⟨e', hrec, fun L b => ?_⟩
    by_cases hL : L = 0
    · subst hL
      refine congrArg _ (SortedMap.eq_of_filter_eq (hscan.sorted hcap b)
        ((h.resting_sorted 0 b).imp ?_) fun p => ?_)
      · rintro x y (hxy | ⟨hxy, -⟩)
        · exact Or.inr hxy
        · exact Or.inl hxy
      · rw [hscan.filter_resting hcap, filter_takenUp, hslots, ← h.filter_resting]
    · rw [hsingle L b hL, hscan.resting_others hL b]

/-- A run of an engine with one book. -/
theorem single_execAll (cs : List Command) (hcs : (new 4).checkAll cs = true)
    (hlocate : ∀ c ∈ cs, c.locate = 0) :
    ∃ e, (new 4).execAll cs = some e ∧ ReachableBy (fun _ c => c.locate = 0) e :=
  (ReachableBy.start 4 none none (by decide) (by decide)).execAll hcs fun c hc _ => hlocate c hc

/-- Two orders that are never filled, cancelled or replaced come back. -/
theorem recoverFromShared_iff_two : ∃ e, (new 4).execAll
    [.add 0 1 .buy 100 5 7 .day, .add 0 2 .buy 100 6 8 .day] = some e ∧
      ((∃ e', (attach e.shared.pool).recoverFromShared e.shared.pool.capacity = some e' ∧
        SameOrders e.resting e'.resting) ↔ Recoverable e) := by
  obtain ⟨e, hrun, he⟩ := single_execAll
    [.add 0 1 .buy 100 5 7 .day, .add 0 2 .buy 100 6 8 .day] (by decide +kernel) (by decide)
  exact ⟨e, hrun, recoverFromShared_iff he⟩

/-- **A cancelled order comes back.** A cancel puts the slot back on the free list, but what is in
it still reads as an order. -/
theorem cancelled_comes_back :
    ∃ e, ReachableBy (fun _ c => c.locate = 0) e ∧ e.resting 0 true = [] ∧
      ∃ e', (attach e.shared.pool).recoverFromShared e.shared.pool.capacity = some e' ∧
        (e'.resting 0 true).map OrderData.terms = [⟨1, 7, .buy, 100, 5, 0⟩] ∧
        ¬ SameOrders e.resting e'.resting := by
  obtain ⟨e, hrun, he⟩ := single_execAll
    [.add 0 1 .buy 100 5 7 .day, .cancel 0 1 7] (by decide +kernel) (by decide)
  have hread : ((new 4).execAll [.add 0 1 .buy 100 5 7 .day, .cancel 0 1 7]).bind (fun e =>
      ((attach e.shared.pool).recoverFromShared e.shared.pool.capacity).map fun e' =>
        (e.resting 0 true, (e'.resting 0 true).map OrderData.terms)) =
      some ([], [⟨1, 7, .buy, 100, 5, 0⟩]) := by decide +kernel
  rw [hrun, Option.bind_some] at hread
  obtain ⟨e', hrec, heq⟩ := Option.map_eq_some_iff.mp hread
  obtain ⟨hlive, hback⟩ := Prod.mk.inj heq
  refine ⟨e, he, hlive, e', hrec, hback, fun hsame => ?_⟩
  have hbuy := hsame 0 true
  rw [hlive, hback] at hbuy
  exact absurd hbuy (by decide)

end NebulaX.Exchange
