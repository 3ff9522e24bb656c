import NebulaX.Memory.OrderMap

/-!
# A pool and an index that belong together

Every book of an engine, and every book of the strategy's market view, keeps its orders in one
shared pool and finds them through one shared index. `SharedStore` is that pair, and `Holds`
says what the two must agree on: the slots in use are exactly those not on the free list, no two
of them carry the same reference, and the index finds nothing else.

The source ignores the result of `OrderMap::insert`. An insert that is dropped leaves an order
in the pool that no reference leads to. `insertDropped` is not a field of the source: it records
whether that has happened, so that results can say when the index is complete.

## Main results

* `Holds.link`, `Holds.unlink` — taking a slot and giving it back keep the agreement
* `Holds.find` — a lookup returns, and what it finds is in use
-/

namespace NebulaX

/-- The pool and the index that a group of books shares. -/
structure SharedStore (σ : Type) where
  /-- The shared pool. -/
  pool : OrderPool σ
  /-- The shared index. -/
  index : OrderMap
  /-- Whether an index insert was dropped so far. -/
  insertDropped : Bool := false

namespace SharedStore

variable {σ : Type}

/-- A pool and an index of the same capacity, as the simulator builds them. -/
def new (capacity : ℕ) (slot : σ) : SharedStore σ :=
  { pool := OrderPool.new capacity slot, index := OrderMap.new capacity }

/-- `index_->insert(ref, slot)`, the result ignored. -/
def link (sh : SharedStore σ) (ref idx : ℕ) : Option (SharedStore σ) :=
  (sh.index.insert ref idx).map fun (ok, index) =>
    { sh with index := index, insertDropped := sh.insertDropped || !ok }

/-- `index_->erase(ref)`. -/
def unlink (sh : SharedStore σ) (ref : ℕ) : Option (SharedStore σ) :=
  (sh.index.erase ref).map fun index => { sh with index := index }

/-- The store after the entries of `refs` were erased from the index, in this order. -/
structure Erased (refs : List ℕ) (sh sh' : SharedStore σ) : Prop where
  /-- The index. -/
  index : sh.index.eraseAll refs = some sh'.index
  /-- Nothing was inserted. -/
  dropped : sh'.insertDropped = sh.insertDropped
  /-- The pool is as large as it was. -/
  capacity : sh'.pool.capacity = sh.pool.capacity

theorem Erased.nil {sh sh' : SharedStore σ} (hi : sh'.index = sh.index)
    (hd : sh'.insertDropped = sh.insertDropped) (hc : sh'.pool.capacity = sh.pool.capacity) :
    Erased [] sh sh' := ⟨congrArg some hi.symm, hd, hc⟩

/-- One after the other. -/
theorem Erased.append {refs refs' : List ℕ} {sh sh' sh'' : SharedStore σ} (h : Erased refs sh sh')
    (h' : Erased refs' sh' sh'') : Erased (refs ++ refs') sh sh'' := by
  refine ⟨?_, h'.dropped.trans h.dropped, h'.capacity.trans h.capacity⟩
  rw [OrderMap.eraseAll_append, h.index]
  exact h'.index

/-- What hanging the reference `ref` in a store means for its index: if the index takes it, nothing
is lost, and if it does not, the reference is not found. -/
structure Linked (ref : ℕ) (sh sh' : SharedStore σ) : Prop where
  /-- The index took the reference. -/
  kept : sh.index.takes ref = true → sh'.insertDropped = sh.insertDropped
  /-- The insert was dropped. -/
  lost : sh.index.takes ref = false → sh'.index.find ref = some none

/-- The slots in use are those that satisfy `live`, and the free ones are `fl`; `ref` is the
reference a slot carries. -/
structure Holds (ref : σ → ℕ) (sh : SharedStore σ) (live : ℕ → Prop) (fl : List ℕ) : Prop where
  /-- The free list is `fl`. -/
  free : sh.pool.Free fl
  /-- The index is well formed. -/
  index : sh.index.Inv
  /-- Slots in use are slots of the pool. -/
  lt : ∀ i, live i → i < sh.pool.capacity
  /-- A slot of the pool is either free or in use. -/
  partition : ∀ i, i < sh.pool.capacity → (i ∈ fl ↔ ¬ live i)
  /-- References are unique. -/
  inj : ∀ i j, live i → live j → ref (sh.pool.storage i) = ref (sh.pool.storage j) → i = j
  /-- The index finds slots in use only, under their own references. -/
  sound : ∀ k i, sh.index.lookup k = some i → live i ∧ ref (sh.pool.storage i) = k
  /-- Unless an insert was dropped, it finds all of them. -/
  complete : sh.insertDropped = false →
    ∀ i, live i → sh.index.lookup (ref (sh.pool.storage i)) = some i

namespace Holds

variable {ref : σ → ℕ} {sh : SharedStore σ} {live : ℕ → Prop} {fl : List ℕ}

theorem not_mem_free (h : Holds ref sh live fl) {i : ℕ} (hi : live i) : i ∉ fl := fun hm =>
  (h.partition i (h.lt i hi)).mp hm hi

theorem ne_uint32Max (h : Holds ref sh live fl) {i : ℕ} (hi : live i) : i ≠ uint32Max :=
  h.free.lt_uint32Max (h.lt i hi)

/-- The slots in use may be described differently. -/
theorem congr (h : Holds ref sh live fl) {live' : ℕ → Prop} (hl : ∀ i, live i ↔ live' i) :
    Holds ref sh live' fl := by
  rwa [show live' = live from funext fun i => propext (hl i).symm]

/-- **A lookup returns**, and finds nothing or a slot in use that carries the reference. -/
theorem find (h : Holds ref sh live fl) (k : ℕ) :
    sh.index.find k = some none ∨
      ∃ i, sh.index.find k = some (some i) ∧ live i ∧ ref (sh.pool.storage i) = k := by
  rw [h.index.find_eq]
  cases hk : sh.index.lookup k with
  | none => exact Or.inl rfl
  | some i => exact Or.inr ⟨i, rfl, h.sound k i hk⟩

/-- While no insert has been dropped, a lookup decides whether a reference is in use. -/
theorem find_of_live (h : Holds ref sh live fl) (hd : sh.insertDropped = false) {i : ℕ}
    (hi : live i) : sh.index.find (ref (sh.pool.storage i)) = some (some i) := by
  rw [h.index.find_eq, h.complete hd i hi]

theorem find_of_not_live (h : Holds ref sh live fl) {k : ℕ}
    (hk : ∀ i, live i → ref (sh.pool.storage i) ≠ k) : sh.index.find k = some none := by
  rcases h.find k with hf | ⟨i, -, hi, hik⟩
  · exact hf
  · exact absurd hik (hk i hi)

/-- Writing slots without touching references changes nothing. -/
theorem modify (h : Holds ref sh live fl) {pool : OrderPool σ} (hfree : pool.Free fl)
    (hcap : pool.capacity = sh.pool.capacity)
    (href : ∀ i, live i → ref (pool.storage i) = ref (sh.pool.storage i)) :
    Holds ref { sh with pool := pool } live fl where
  free := hfree
  index := h.index
  lt := fun i hi => hcap ▸ h.lt i hi
  partition := fun i hi => h.partition i (hcap ▸ hi)
  inj := fun i j hi hj e => h.inj i j hi hj (by rwa [← href i hi, ← href j hj])
  sound := fun k i hk => by
    obtain ⟨hi, hik⟩ := h.sound k i hk
    exact ⟨hi, (href i hi).trans hik⟩
  complete := fun hd i hi => by
    show sh.index.lookup (ref (pool.storage i)) = some i
    rw [href i hi]
    exact h.complete hd i hi

/-- **Taking a slot.** `pool` is the pool after `allocate` took slot `i` and the order was written
to it; linking its new reference puts the slot in use. -/
theorem link {i k : ℕ} (h : Holds ref sh live (i :: fl)) {pool : OrderPool σ}
    (hfree : pool.Free fl) (hcap : pool.capacity = sh.pool.capacity)
    (href : ∀ j, live j → ref (pool.storage j) = ref (sh.pool.storage j))
    (hi : ref (pool.storage i) = k) (hnew : ∀ j, live j → ref (sh.pool.storage j) ≠ k) :
    ∃ sh', ({ sh with pool := pool } : SharedStore σ).link k i = some sh' ∧ sh'.pool = pool ∧
      (sh'.insertDropped = false → sh.insertDropped = false) ∧ Linked k sh sh' ∧
      Holds ref sh' (fun j => live j ∨ j = i) fl := by
  have hnone : sh.index.lookup k = none := by
    cases hk : sh.index.lookup k with
    | none => rfl
    | some j => exact absurd (h.sound k j hk).2 (hnew j (h.sound k j hk).1)
  obtain ⟨ok, index, hins, hinv, hlk⟩ := h.index.insert_spec i hnone
  have hnotlive : ¬ live i := fun hl => h.not_mem_free hl List.mem_cons_self
  have hilt : i < pool.capacity := hcap ▸ h.free.lt i List.mem_cons_self
  refine ⟨_, by rw [SharedStore.link, hins]; rfl, rfl, fun hd => ?_,
    ⟨fun htakes => ?_, fun htakes => ?_⟩, ?_⟩
  · simpa using (Bool.or_eq_false_iff.mp hd).1
  · have hok := (OrderMap.insert_takes hins).trans htakes
    simp [hok]
  · have hok := (OrderMap.insert_takes hins).trans htakes
    rw [hinv.find_eq, hlk, hnone, if_neg (by simp [hok])]
  exact {
    free := hfree
    index := hinv
    lt := fun j hj => by
      rcases hj with hj | rfl
      · exact hcap ▸ h.lt j hj
      · exact hilt
    partition := fun j hj => by
      have hpart := h.partition j (hcap ▸ hj)
      have hnodup := (List.nodup_cons.mp h.free.nodup).1
      by_cases hji : j = i
      · subst hji
        simp [hnodup]
      · rw [List.mem_cons, or_iff_right hji] at hpart
        simp [hpart, hji]
    inj := fun a b ha hb e => by
      rcases ha with ha | rfl <;> rcases hb with hb | rfl
      · exact h.inj a b ha hb (by rwa [← href a ha, ← href b hb])
      · exact absurd (by rw [← href a ha, ← hi]; exact e) (hnew a ha)
      · exact absurd (by rw [← href b hb, ← hi]; exact e.symm) (hnew b hb)
      · rfl
    sound := fun k' j hk' => by
      rw [hlk] at hk'
      split at hk'
      · next hc =>
        obtain rfl := Option.some.inj hk'
        exact ⟨Or.inr rfl, hi.trans hc.2.symm⟩
      · obtain ⟨hj, hjk⟩ := h.sound k' j hk'
        exact ⟨Or.inl hj, (href j hj).trans hjk⟩
    complete := fun hd j hj => by
      obtain ⟨hd, hok⟩ := Bool.or_eq_false_iff.mp hd
      have hok : ok = true := by simpa using hok
      show index.lookup (ref (pool.storage j)) = some j
      rw [hlk]
      rcases hj with hj | rfl
      · rw [href j hj, if_neg (fun hc => hnew j hj hc.2)]
        exact h.complete hd j hj
      · rw [if_pos ⟨hok, hi⟩] }

/-- **Giving a slot back.** Unlinking the reference of a slot in use and freeing the slot takes it
out of use. -/
theorem unlink {i : ℕ} (h : Holds ref sh live fl) (hi : live i) :
    ∃ sh', sh.unlink (ref (sh.pool.storage i)) = some sh' ∧ sh'.pool = sh.pool ∧
      sh'.insertDropped = sh.insertDropped ∧
      Holds ref { sh' with pool := sh'.pool.deallocate i } (fun j => live j ∧ j ≠ i) (i :: fl) := by
  obtain ⟨index, her, hinv, hlk⟩ := h.index.erase_spec (ref (sh.pool.storage i))
  refine ⟨{ sh with index := index }, by rw [SharedStore.unlink, her]; rfl, rfl, rfl, ?_⟩
  exact {
    free := h.free.deallocate (h.lt i hi) (h.not_mem_free hi)
    index := hinv
    lt := fun j hj => h.lt j hj.1
    partition := fun j hj => by
      have hpart := h.partition j hj
      by_cases hji : j = i
      · simp [hji]
      · simp [hji, hpart]
    inj := fun a b ha hb e => h.inj a b ha.1 hb.1 e
    sound := fun k j hk => by
      rw [hlk] at hk
      split at hk
      · exact absurd hk (by simp)
      · next hne =>
        obtain ⟨hj, hjk⟩ := h.sound k j hk
        exact ⟨⟨hj, fun e => hne (by rw [← hjk, e])⟩, hjk⟩
    complete := fun hd j hj => by
      show index.lookup (ref (sh.pool.storage j)) = some j
      rw [hlk, if_neg fun e => hj.2 (h.inj j i hj.1 hi e)]
      exact h.complete hd j hj.1 }

/-- A fresh store is empty. -/
theorem new {capacity : ℕ} (slot : σ) (hpos : 0 < capacity) (hle : capacity ≤ uint32Max) :
    Holds ref (SharedStore.new capacity slot) (fun _ => False) (List.range capacity) where
  free := OrderPool.free_new slot hpos hle
  index := OrderMap.inv_new hpos hle
  lt := fun _ h => h.elim
  partition := fun i hi => ⟨fun _ h => h.elim, fun _ => List.mem_range.mpr hi⟩
  inj := fun _ _ h => h.elim
  sound := fun k i hk => by
    rw [SharedStore.new, OrderMap.lookup_new hpos hle] at hk
    exact absurd hk (by simp)
  complete := fun _ _ h => h.elim

end Holds

end SharedStore

end NebulaX
