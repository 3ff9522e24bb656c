import NebulaX.Exchange.SimulatorRuns

/-!
# Index entries and slots

The engine does not look a new reference up: references come from outside and are unique in the
feed. While no event introduces a reference that is resting, the index finds no slot that is free.
When one does, the index keeps two nodes under one reference, newest first, while matching takes
the oldest order first: then the slot that was given back is not the one whose entry was erased.

## Main results

* `reached_entries` — in runs under the contract, index, free list and levels agree
* `repeated_ref_finds_free_slot` — without it, a lookup finds a free slot
-/

namespace NebulaX

open Exchange (MatchingEngine Side)

/-- Index, free list and levels agree. -/
structure EntriesSound (e : MatchingEngine) : Prop where
  /-- A lookup returns. -/
  returns : ∀ ref, ∃ found, e.findOrder ref = some found
  /-- It finds no free slot, but one on a level, of an order with the reference. -/
  found : ∀ ref i, e.findOrder ref = some (some i) → i ∉ e.shared.pool.freeSlots ∧
    (∃ L b p, e.OnLevel L b p i) ∧ (e.shared.pool.storage i).orderId = ref
  /-- No slot is on the free list twice. -/
  freed_once : e.shared.pool.freeSlots.Nodup
  /-- No slot is on two levels, or on a level and on the free list. -/
  one_level : ∀ i, (∃ L b p, e.OnLevel L b p i) → i ∉ e.shared.pool.freeSlots ∧
    ∃! q : ℕ × Bool × UInt32, e.OnLevel q.1 q.2.1 q.2.2 i
  /-- Nor twice on one level. -/
  one_order : ∀ L b p l, (e.books L).level? b p = some l →
    (Exchange.OrderBook.levelSlots e.shared l).Nodup

/-- Every reachable engine has such an index. -/
theorem entriesSound_of_reachable {e : MatchingEngine} (h : Exchange.Reachable e) :
    EntriesSound e := by
  have hbooks := Exchange.reachable_books h
  obtain ⟨G, fl, hrep⟩ := h.inv
  have hlive : ∀ i, (∃ L b p, e.OnLevel L b p i) → i ∉ e.shared.pool.freeSlots := by
    rintro i ⟨L, b, p, hi⟩
    rw [hrep.holds.free.freeSlots_eq]
    exact hrep.holds.not_mem_free (Exchange.Rep.live (hrep.onLevel_iff.mp hi))
  refine ⟨findOrder_returns h.inv, fun ref i hf => ?_, hbooks.free_nodup, fun i hi => ?_,
    fun L b p l hl => (hbooks.levels L b p l hl).nodup⟩
  · rcases hrep.holds.find ref with hnone | ⟨j, hj, ⟨L, b, p, hjl⟩, href⟩
    · exact absurd (hnone.symm.trans hf) (by simp)
    obtain rfl : j = i := by
      have heq : some (some j) = some (some i) := hj.symm.trans hf
      simpa using heq
    have hlevel : ∃ L b p, e.OnLevel L b p j := ⟨L, b, p, hrep.onLevel_iff.mpr hjl⟩
    exact ⟨hlive j hlevel, hlevel, href⟩
  · refine ⟨hlive i hi, ?_⟩
    obtain ⟨L, b, p, hil⟩ := hi
    have hlt := hrep.holds.lt i (Exchange.Rep.live (hrep.onLevel_iff.mp hil))
    rcases hbooks.partition i hlt with ⟨-, hnone⟩ | ⟨-, hone⟩
    · exact absurd hil (hnone L b p)
    · exact hone

/-- **In a run under the contract about references**, a lookup never finds a free slot, no slot is
freed twice, and no two orders share one. -/
theorem reached_entries {E : Type} {cl : Client Contract.refs.strategy E}
    {r : E × ExchangeSimulator} (h : Reached Contract.refs cl r) : EntriesSound r.2.engine :=
  entriesSound_of_reachable (h.engine Contract.refs_keepsRefs)

/-- A run of three events, and an order of the strategy between them. -/
theorem reached_entries_three : ∃ r, ExchangeSimulator.play
    (Client.silent Contract.refs.strategy).toCallbacks ExchangeSimulator.refsTest
    [.market (.add 0 1 .sell 100 5), .strategy (.submit { price := 99, quantity := 3 } 9 .day),
      .market (.replace 0 1 2 99 4)] ((), .new 4 none fun _ _ => []) = some r ∧
    EntriesSound r.2.engine := by
  have hruns : (ExchangeSimulator.play (Client.silent Contract.refs.strategy).toCallbacks
      ExchangeSimulator.refsTest [.market (.add 0 1 .sell 100 5),
        .strategy (.submit { price := 99, quantity := 3 } 9 .day), .market (.replace 0 1 2 99 4)]
      ((), .new 4 none fun _ _ => [])).isSome = true := by decide +kernel
  obtain ⟨r, hr⟩ := Option.isSome_iff_exists.mp hruns
  have hstart : Reached Contract.refs (Client.silent Contract.refs.strategy)
      ((), .new 4 none fun _ _ => []) := .start () 4 none _ (by decide) (by decide) (by simp)
  refine ⟨r, hr, reached_entries (hstart.play (fun h htest => ?_) (fun h htest => ?_) hr)⟩
  · exact ExchangeSimulator.refsTest_market (h.engine Contract.refs_keepsRefs).inv htest
  · exact ExchangeSimulator.refsTest_strategy (h.engine Contract.refs_keepsRefs).inv htest

/-- Reference 1 is added twice, then the older of the two orders is taken. The entry of the newer
one is erased, and the reference leads to the slot of the older one, which is free. -/
theorem repeated_ref_finds_free_slot : ∃ r, ExchangeSimulator.play
    (Client.silent Contract.any.strategy).toCallbacks (fun _ _ => true)
    [.market (.add 0 1 .sell 100 5), .market (.add 0 1 .sell 100 5), .market (.add 0 2 .buy 100 5)]
    ((), .new 4 none fun _ _ => []) = some r ∧
    r.2.engine.findOrder 1 = some (some 0) ∧ 0 ∈ r.2.engine.shared.pool.freeSlots ∧
    ¬ EntriesSound r.2.engine := by
  have hread : (ExchangeSimulator.play (Client.silent Contract.any.strategy).toCallbacks
      (fun _ _ => true) [.market (.add 0 1 .sell 100 5), .market (.add 0 1 .sell 100 5),
        .market (.add 0 2 .buy 100 5)] ((), .new 4 none fun _ _ => [])).map
      (fun r => (r.2.engine.findOrder 1, r.2.engine.shared.pool.freeSlots)) =
      some (some (some 0), [0, 2, 3]) := by decide +kernel
  obtain ⟨r, hr, heq⟩ := Option.map_eq_some_iff.mp hread
  obtain ⟨hfind, hfree⟩ := Prod.mk.inj heq
  have hmem : 0 ∈ r.2.engine.shared.pool.freeSlots := by
    rw [hfree]
    decide
  exact ⟨r, hr, hfind, hmem, fun hsound => (hsound.found 1 0 hfind).1 hmem⟩

end NebulaX
