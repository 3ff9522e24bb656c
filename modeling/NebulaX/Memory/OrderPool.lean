import Mathlib.Algebra.Order.Ring.Int
import NebulaX.Lib.LinkedList

/-!
# The slot pool

`OrderPool` is a fixed block of slots with a free list threaded through it. The source has it
twice, in `src/exchange/order_pool.h` over `nxex::Order` and in `src/core/memory/order_pool.h`
over `OrderSlot`; the two differ in the slot type only, so the model is generic in it.

The free list is a Treiber stack. In sequential use every compare-and-swap succeeds at the first
try and the tag above the 32-bit head is never read, so the model keeps the head index alone.
`pool_next_free` is kept in a field of the pool beside the slots rather than inside each slot. It
is a member of the slot type all the same, so a slot that is assigned as a whole takes over the
link of the value it is assigned from, and whoever does that has to say so with `setNextFree`. On
a slot that was given back twice the link is read again.

`Free p fl` says that the free list of `p` is `fl`. `allocate` takes its head, `deallocate`
pushes a slot back, and neither touches the slots. The link of a slot in use may be anything.
-/

namespace NebulaX

/-- `UINT32_MAX`, the index that stands for no slot. -/
def uint32Max : ℕ := 4294967295

/-- A fixed number of slots and a free list through them. -/
structure OrderPool (σ : Type) where
  /-- `storage_`. -/
  storage : ℕ → σ
  /-- `pool_next_free` of each slot. -/
  nextFree : ℕ → ℕ
  /-- `capacity_`. -/
  capacity : ℕ
  /-- The index half of `free_head_`. -/
  freeHead : ℕ
  /-- `size_`, the number of slots taken. -/
  size : UInt64

namespace OrderPool

variable {σ : Type}

/-- `OrderPool(capacity)` with `initFreeList`: slot `i` links to slot `i + 1`. -/
def new (capacity : ℕ) (slot : σ) : OrderPool σ where
  storage := fun _ => slot
  nextFree := fun i => if i + 1 < capacity then i + 1 else uint32Max
  capacity := capacity
  freeHead := 0
  size := 0

/-- `allocate()`: take the head of the free list, `none` when the pool is full. -/
def allocate (p : OrderPool σ) : Option (ℕ × OrderPool σ) :=
  if p.freeHead = uint32Max then none
  else some (p.freeHead, { p with freeHead := p.nextFree p.freeHead, size := p.size + 1 })

/-- `deallocate(idx)`: push the slot on the free list. -/
def deallocate (p : OrderPool σ) (idx : ℕ) : OrderPool σ :=
  { p with nextFree := Function.update p.nextFree idx p.freeHead, freeHead := idx,
           size := p.size - 1 }

/-- `rebuildFreelist()`: all slots are free again, in order. -/
def rebuildFreelist (p : OrderPool σ) : OrderPool σ :=
  { p with
    nextFree := fun i =>
      if i + 1 < p.capacity then i + 1
      else if i + 1 = p.capacity then uint32Max
      else p.nextFree i
    freeHead := 0, size := 0 }

/-- Write `pool_next_free` of a slot. -/
def setNextFree (p : OrderPool σ) (idx next : ℕ) : OrderPool σ :=
  { p with nextFree := Function.update p.nextFree idx next }

/-- Write through the pointer `at(idx)`. -/
def modify (p : OrderPool σ) (idx : ℕ) (f : σ → σ) : OrderPool σ :=
  { p with storage := Function.update p.storage idx (f (p.storage idx)) }

/-! ### The free list -/

/-- The free list of `p` visits exactly the slots `fl`, and `size` counts the others. -/
structure Free (p : OrderPool σ) (fl : List ℕ) : Prop where
  /-- Every slot index is below the null index. -/
  capacity_le : p.capacity ≤ uint32Max
  /-- The links visit `fl` and stop at the null index. -/
  seg : LinkedList.Seg p.nextFree p.freeHead fl uint32Max
  /-- No slot is free twice. -/
  nodup : fl.Nodup
  /-- Free slots are slots of the pool. -/
  lt : ∀ i ∈ fl, i < p.capacity
  /-- Taken and free slots add up. -/
  size_add : p.size.toNat + fl.length = p.capacity

theorem Free.lt_uint32Max {p : OrderPool σ} {fl : List ℕ} (h : Free p fl) {i : ℕ}
    (hi : i < p.capacity) : i ≠ uint32Max :=
  Nat.ne_of_lt (Nat.lt_of_lt_of_le hi h.capacity_le)

/-- The slots on the free list, as its links visit them. -/
def freeSlots (p : OrderPool σ) : List ℕ :=
  LinkedList.walk p.nextFree uint32Max p.capacity p.freeHead

theorem Free.freeSlots_eq {p : OrderPool σ} {fl : List ℕ} (h : Free p fl) : p.freeSlots = fl :=
  h.seg.walk_eq (fun hm => h.lt_uint32Max (h.lt _ hm) rfl)
    (LinkedList.length_le_of_nodup h.nodup h.lt)

/-- A fresh pool of at least one slot has all its slots free, in order. -/
theorem free_new {capacity : ℕ} (slot : σ) (hpos : 0 < capacity) (hle : capacity ≤ uint32Max) :
    Free (new capacity slot) (List.range capacity) where
  capacity_le := hle
  seg := LinkedList.seg_range hpos
  nodup := List.nodup_range
  lt := fun i hi => List.mem_range.mp hi
  size_add := by simp [new]

theorem free_rebuildFreelist {p : OrderPool σ} (hpos : 0 < p.capacity)
    (hle : p.capacity ≤ uint32Max) : Free p.rebuildFreelist (List.range p.capacity) where
  capacity_le := hle
  seg := (LinkedList.seg_range hpos).congr fun i hi => by
    have hi := List.mem_range.mp hi
    simp only [rebuildFreelist]
    split
    · rfl
    · rw [if_pos (by omega)]
  nodup := List.nodup_range
  lt := fun i hi => List.mem_range.mp hi
  size_add := by simp [rebuildFreelist]

/-- An empty free list means that `allocate` fails. -/
theorem Free.allocate_nil {p : OrderPool σ} (h : Free p []) : p.allocate = none :=
  if_pos (LinkedList.seg_nil.mp h.seg)

/-- Otherwise `allocate` returns the first free slot. -/
theorem Free.allocate_cons {p : OrderPool σ} {i : ℕ} {fl : List ℕ} (h : Free p (i :: fl)) :
    p.allocate = some (i, { p with freeHead := p.nextFree i, size := p.size + 1 }) ∧
      Free { p with freeHead := p.nextFree i, size := p.size + 1 } fl := by
  obtain ⟨hhead, hseg⟩ := h.seg
  have hi : p.freeHead ≠ uint32Max := hhead ▸ h.lt_uint32Max (h.lt i List.mem_cons_self)
  refine ⟨by rw [allocate, if_neg hi, hhead], ?_⟩
  exact {
    capacity_le := h.capacity_le
    seg := hseg
    nodup := (List.nodup_cons.mp h.nodup).2
    lt := fun j hj => h.lt j (List.mem_cons_of_mem _ hj)
    size_add := by
      have hle := h.capacity_le
      have hsz := h.size_add
      simp only [uint32Max, List.length_cons] at hle hsz
      rw [UInt64.toNat_add]
      simp only [UInt64.toNat_one]
      omega }

/-- The same, with the slots and the capacity named. -/
theorem Free.allocate_spec {p : OrderPool σ} {i : ℕ} {fl : List ℕ} (h : Free p (i :: fl)) :
    ∃ p', p.allocate = some (i, p') ∧ Free p' fl ∧ p'.storage = p.storage ∧
      p'.capacity = p.capacity :=
  ⟨_, h.allocate_cons.1, h.allocate_cons.2, rfl, rfl⟩

/-- The link of a slot in use may be written. -/
theorem Free.setNextFree {p : OrderPool σ} {fl : List ℕ} (h : Free p fl) {i : ℕ} (hi : i ∉ fl)
    (next : ℕ) : Free (p.setNextFree i next) fl :=
  ⟨h.capacity_le, h.seg.update_of_not_mem hi, h.nodup, h.lt, h.size_add⟩

/-- **A slot that is taken and assigned**, link and all. -/
theorem Free.allocate_assigned {p : OrderPool σ} {i : ℕ} {fl : List ℕ} (h : Free p (i :: fl))
    (next : ℕ) : ∃ taken p', p.allocate = some (i, taken) ∧ taken.setNextFree i next = p' ∧
      Free p' fl ∧ p'.storage = p.storage ∧ p'.capacity = p.capacity := by
  obtain ⟨taken, halloc, hfree, hst, hcap⟩ := h.allocate_spec
  exact ⟨taken, _, halloc, rfl, hfree.setNextFree (List.nodup_cons.mp h.nodup).1 next, hst, hcap⟩

theorem Free.length_lt {p : OrderPool σ} {fl : List ℕ} (h : Free p fl) {i : ℕ}
    (hi : i < p.capacity) (hfl : i ∉ fl) : fl.length < p.capacity := by
  have hnd : (i :: fl).Nodup := List.nodup_cons.mpr ⟨hfl, h.nodup⟩
  have := LinkedList.length_le_of_nodup hnd (n := p.capacity) fun j hj => by
    rcases List.mem_cons.mp hj with rfl | hj
    · exact hi
    · exact h.lt j hj
  exact Nat.lt_of_succ_le this

/-- `deallocate` puts a taken slot in front of the free list. -/
theorem Free.deallocate {p : OrderPool σ} {fl : List ℕ} (h : Free p fl) {i : ℕ}
    (hi : i < p.capacity) (hfl : i ∉ fl) : Free (p.deallocate i) (i :: fl) where
  capacity_le := h.capacity_le
  seg := by
    refine ⟨rfl, ?_⟩
    simp only [OrderPool.deallocate, Function.update_self]
    exact h.seg.update_of_not_mem hfl
  nodup := List.nodup_cons.mpr ⟨hfl, h.nodup⟩
  lt := fun j hj => by
    rcases List.mem_cons.mp hj with rfl | hj
    · exact hi
    · exact h.lt j hj
  size_add := by
    have hlt := h.length_lt hi hfl
    have hle := h.capacity_le
    have hsz := h.size_add
    simp only [uint32Max] at hle
    simp only [OrderPool.deallocate, List.length_cons]
    rw [UInt64.toNat_sub]
    simp only [UInt64.toNat_one]
    omega

/-- Writing a slot leaves the free list alone. -/
theorem Free.modify {p : OrderPool σ} {fl : List ℕ} (h : Free p fl) (i : ℕ) (f : σ → σ) :
    Free (p.modify i f) fl :=
  ⟨h.capacity_le, h.seg, h.nodup, h.lt, h.size_add⟩

end OrderPool

end NebulaX
