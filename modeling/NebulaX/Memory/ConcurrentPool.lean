import NebulaX.Lib.TaggedStack
import NebulaX.Memory.OrderPool

/-!
# The slot pool with many threads

`allocate` and `deallocate` of `OrderPool` once more, with any number of threads that call them at
the same time. `free_head_` is a word of 64 bits with the index of the first free slot in its lower
half and a tag in its upper half; every swap counts the tag up. The two functions are the pop and
the push of `TaggedStack`: a load of `free_head_`, a load or a store of `pool_next_free`, a weak
compare-and-swap, and an update of `size_`, each one a step of its own. `allocate` returns null
where the pop finds no node. `OrderMap::allocNode` and `freeNode` are the same without `size_`.
Between the two a caller may assign its slot, which writes `pool_next_free` with the rest.

The loads and stores are taken to have one order for all threads. In the source they are relaxed or
acquire and release; the slot that a thread reads a link from was released by the swap that put it
on the list.

A tag has 32 bits. `Timely` asks of a thread that fewer than `2 ^ 32` swaps pass between its load of
`free_head_` and its own swap.

## Main results

* `pool_linearizable` — what the threads do is what the sequential pool does, in the order of the
  swaps
* `slots_exclusive` — no slot is handed out twice
-/

namespace NebulaX.ConcurrentPool

open TaggedStack (Coding Machine Event Placed Choice Inv Counted)

/-! ### The word -/

/-- `(uint32_t)fh`. -/
def indexOf (fh : UInt64) : ℕ := fh.toUInt32.toNat

/-- `fh >> 32`. -/
def tagOf (fh : UInt64) : ℕ := (fh >>> 32).toNat

/-- `(((fh >> 32) + 1) << 32) | idx`. -/
def desired (fh : UInt64) (idx : ℕ) : UInt64 := (((fh >>> 32) + 1) <<< 32) ||| .ofNat idx

theorem tagOf_eq (fh : UInt64) : tagOf fh = fh.toNat / 2 ^ 32 := by
  rw [tagOf, UInt64.toNat_shiftRight, Nat.shiftRight_eq_div_pow]
  rfl

theorem indexOf_eq (fh : UInt64) : indexOf fh = fh.toNat % 2 ^ 32 := by
  rw [indexOf, UInt64.toNat_toUInt32]

/-- **The two halves** of the word that a swap writes. -/
theorem toNat_desired (fh : UInt64) {idx : ℕ} (hidx : idx ≤ uint32Max) :
    (desired fh idx).toNat = (tagOf fh + 1) % 2 ^ 32 * 2 ^ 32 + idx := by
  have hlt : idx < 2 ^ 32 := Nat.lt_succ_of_le hidx
  have htag : tagOf fh < 2 ^ 32 := by
    rw [tagOf_eq]
    have := fh.toNat_lt
    omega
  have hnext : ((fh >>> 32) + 1).toNat = tagOf fh + 1 := by
    rw [UInt64.toNat_add, UInt64.toNat_one]
    exact Nat.mod_eq_of_lt (by rw [← tagOf]; omega)
  have hshift : (((fh >>> 32) + 1) <<< 32).toNat = ((tagOf fh + 1) % 2 ^ 32) <<< 32 := by
    rw [UInt64.toNat_shiftLeft, hnext, Nat.shiftLeft_eq, Nat.shiftLeft_eq]
    exact Nat.mul_mod_mul_right (2 ^ 32) (tagOf fh + 1) (2 ^ 32)
  rw [desired, UInt64.toNat_or, hshift, UInt64.toNat_ofNat_of_lt' (by
    show idx < 2 ^ 64
    omega), ← Nat.shiftLeft_add_eq_or_of_lt hlt, Nat.shiftLeft_eq]

/-- `free_head_`. -/
def freeHead : Coding UInt64 where
  null := uint32Max
  period := 2 ^ 32
  index := indexOf
  tag := tagOf
  swap := desired
  index_swap := by
    intro fh idx hidx
    rw [indexOf_eq, toNat_desired fh hidx, Nat.mul_add_mod_self_right]
    exact Nat.mod_eq_of_lt (Nat.lt_succ_of_le hidx)
  tag_swap := by
    intro fh idx hidx
    have hlt : idx < 2 ^ 32 := Nat.lt_succ_of_le hidx
    rw [tagOf_eq, toNat_desired fh hidx]
    omega

/-! ### The pool -/

section Pool

/-- `OrderPool(capacity)`, before any thread has called it. -/
def start (T : Type) (capacity : ℕ) : Machine UInt64 T where
  head := 0
  next := (OrderPool.new capacity ()).nextFree

variable {T : Type}

/-- A state that threads bring the pool to. -/
abbrev Reached [DecidableEq T] (capacity : ℕ) (m : Machine UInt64 T) : Prop :=
  Machine.Reached freeHead (start T capacity) m

/-- The free slots, as the links from `free_head_` visit them. -/
def freeSlots (capacity : ℕ) (m : Machine UInt64 T) : List ℕ :=
  LinkedList.walk m.next uint32Max capacity (indexOf m.head)

/-- At the start every slot is free. -/
theorem inv_start {capacity : ℕ} (hpos : 0 < capacity) (hle : capacity ≤ uint32Max) :
    Inv freeHead capacity (start T capacity) (List.range capacity) :=
  Inv.start hpos hle (fun _ _ => rfl) rfl (show tagOf 0 = 0 by decide) (fun _ => rfl) rfl rfl

/-- The free slots are those of the stack. -/
theorem freeSlots_eq {capacity : ℕ} {m : Machine UInt64 T} {free : List ℕ}
    (h : Inv freeHead capacity m free) : freeSlots capacity m = free :=
  h.seg.walk_eq
    (fun hm => absurd (h.placed.lt _ hm) (Nat.not_lt.mpr h.cap_le))
    (LinkedList.length_le_of_nodup h.placed.nodup h.placed.lt)

end Pool

/-! ### The sequential pool -/

/-- A call of the sequential pool, with the slot that it is about: `allocate` has to return it. -/
def replay {σ : Type} (p : OrderPool σ) : Event → Option (OrderPool σ)
  | .took i => p.allocate.bind fun (j, p') => if j = i then some p' else none
  | .gave i => some (p.deallocate i)

/-- The sequential pool does what the stack does. -/
theorem replay_eq {σ : Type} {p : OrderPool σ} {free free' : List ℕ} (h : OrderPool.Free p free)
    {e : Event} (happly : e.apply p.capacity free = some free') :
    ∃ p', replay p e = some p' ∧ OrderPool.Free p' free' ∧ p'.capacity = p.capacity := by
  cases e with
  | took i =>
    cases free with
    | nil => exact absurd happly (by simp [Event.apply])
    | cons j free =>
      rw [Event.apply] at happly
      split at happly
      · next hij =>
        obtain rfl := Option.some.inj happly
        obtain ⟨p', hcall, hfree, -, hcap⟩ := h.allocate_spec
        refine ⟨p', ?_, hfree, hcap⟩
        rw [replay, hcall]
        exact if_pos hij.symm
      · exact absurd happly (by simp)
  | gave i =>
    rw [Event.apply] at happly
    split at happly
    · next hi =>
      obtain rfl := Option.some.inj happly
      exact ⟨p.deallocate i, rfl, h.deallocate hi.1 hi.2, rfl⟩
    · exact absurd happly (by simp)

/-- Call after call. -/
theorem replayAll_eq {σ : Type} {p : OrderPool σ} {free free' : List ℕ} (h : OrderPool.Free p free)
    {es : List Event}
    (happly : es.foldlM (fun free e => e.apply p.capacity free) free = some free') :
    ∃ p', es.foldlM replay p = some p' ∧ OrderPool.Free p' free' ∧ p'.capacity = p.capacity := by
  induction es generalizing p free with
  | nil =>
    obtain rfl := Option.some.inj happly
    exact ⟨p, rfl, h, rfl⟩
  | cons e es ih =>
    rw [List.foldlM_cons] at happly
    obtain ⟨free₁, hone, hrest⟩ := Option.bind_eq_some_iff.mp happly
    obtain ⟨p₁, hcall, hfree₁, hcap₁⟩ := replay_eq h hone
    rw [← hcap₁] at hrest
    obtain ⟨p', hcalls, hfree', hcap'⟩ := ih hfree₁ hrest
    refine ⟨p', ?_, hfree', hcap'.trans hcap₁⟩
    rw [List.foldlM_cons, hcall]
    exact hcalls

/-! ### What many threads get -/

section Threads

variable {T : Type} [DecidableEq T]

/-- **The pool is linearizable.** In every state that any number of threads brings it to, the calls
whose swaps have succeeded, in the order of the swaps, are calls of the sequential pool with the
same results: `allocate` returned the slots that it returns there, and the same slots are free, in
the same order. When no thread is in a call, `size()` is the same, too. -/
theorem pool_linearizable [Fintype T] {capacity : ℕ} (hpos : 0 < capacity)
    (hle : capacity ≤ uint32Max) {m : Machine UInt64 T} (h : Reached capacity m) :
    ∃ p, m.history.foldlM replay (OrderPool.new capacity ()) = some p ∧
      freeSlots capacity m = p.freeSlots ∧
      ((∀ t, m.threads t = .idle) → m.count = p.size) := by
  obtain ⟨free, hinv⟩ := h.inv (inv_start hpos hle)
  have hcount : Counted m := h.counted (inv_start hpos hle) (by
    rw [Counted]
    show (0 : UInt64) = .ofNat (0 + ∑ t : T, 0)
    rw [Finset.sum_const_zero]
    rfl)
  obtain ⟨p, hcalls, hfree, hcap⟩ := replayAll_eq (OrderPool.free_new () hpos hle) hinv.history
  have hcap : p.capacity = capacity := hcap
  refine ⟨p, hcalls, ?_, fun hidle => ?_⟩
  · rw [freeSlots_eq hinv, hfree.freeSlots_eq]
  · have hempty : ∀ t, (m.threads t).hand = none := by
      intro t
      rw [hidle]
      rfl
    have hcard := hinv.placed.card_eq hempty
    have hsize := hfree.size_add
    rw [hcount.quiet hidle]
    refine UInt64.toNat_inj.mp ?_
    rw [UInt64.toNat_ofNat_of_lt' (by
      have hcap_lt : capacity < 2 ^ 32 := Nat.lt_succ_of_le hle
      show m.held.card < 2 ^ 64
      omega)]
    omega

/-- **No slot is handed out twice.** In every state that any number of threads brings the pool to,
a slot of the pool is free, or it was handed out and not given back, or one thread is about to hand
it out or to free it, and it is in one of these places only. `allocate` finds no slot only when none
is free. -/
theorem slots_exclusive {capacity : ℕ} (hpos : 0 < capacity) (hle : capacity ≤ uint32Max)
    {m : Machine UInt64 T} (h : Reached capacity m) :
    Placed capacity (fun t => (m.threads t).hand) m.held (freeSlots capacity m) ∧
      (m.popFrom freeHead = .idle ↔ freeSlots capacity m = []) := by
  obtain ⟨free, hinv⟩ := h.inv (inv_start hpos hle)
  rw [freeSlots_eq hinv]
  refine ⟨hinv.placed, ?_⟩
  rw [Machine.popFrom]
  cases hfree : free with
  | nil =>
    have hseg := hinv.seg
    rw [hfree] at hseg
    rw [if_pos (LinkedList.seg_nil.mp hseg)]
    exact iff_of_true rfl rfl
  | cons i rest =>
    have hseg := hinv.seg
    rw [hfree] at hseg
    have hi := (LinkedList.seg_cons.mp hseg).1
    have hlt := hinv.placed.lt i (by rw [hfree]; exact List.mem_cons_self)
    have hnull : freeHead.index m.head ≠ freeHead.null :=
      hi ▸ Nat.ne_of_lt (Nat.lt_of_lt_of_le hlt hle)
    rw [if_neg hnull]
    exact iff_of_false (by simp) (by simp)

/-- Two threads on a pool of two slots. The first reads the head and its link, and stops. The second
takes both slots, assigns the first one and gives it back: the head has the same index again, and
another link. The swap of the first thread fails, and its second one takes the slot. -/
def overtaken : List (Bool × Choice) :=
  [(false, .pop), (false, .go)] ++
    [(true, .pop), (true, .go), (true, .go), (true, .go)] ++
    [(true, .pop), (true, .go), (true, .go), (true, .go)] ++
    [(true, .assign 0 uint32Max), (true, .push 0), (true, .go), (true, .go), (true, .go)] ++
    [(false, .go), (false, .go), (false, .go), (false, .go)]

theorem pool_linearizable_two : ∃ (m : Machine UInt64 Bool) (p : OrderPool Unit),
    (start Bool 2).run freeHead overtaken = some m ∧
      m.history = [.took 0, .took 1, .gave 0, .took 0] ∧
      m.history.foldlM replay (OrderPool.new 2 ()) = some p ∧ p.size = 2 := by
  have hread : ((start Bool 2).run freeHead overtaken).map (fun m =>
      (m.history, m.count, decide (∀ t, m.threads t = .idle))) =
      some ([.took 0, .took 1, .gave 0, .took 0], 2, true) := by decide +kernel
  obtain ⟨m, hrun, heq⟩ := Option.map_eq_some_iff.mp hread
  obtain ⟨hhistory, heq⟩ := Prod.mk.inj heq
  obtain ⟨hcount, hidle⟩ := Prod.mk.inj heq
  have hreach : Reached 2 m := Machine.Reached.start.run hrun
  obtain ⟨p, hcalls, -, hsize⟩ := pool_linearizable (by decide) (by decide) hreach
  exact ⟨m, p, hrun, hhistory, hcalls, (hsize (of_decide_eq_true hidle)).symm.trans hcount⟩

theorem slots_exclusive_two : ∃ m : Machine UInt64 Bool,
    (start Bool 2).run freeHead overtaken = some m ∧ m.held = {0, 1} ∧
      Placed 2 (fun t => (m.threads t).hand) {0, 1} [] ∧ m.popFrom freeHead = .idle := by
  have hread : ((start Bool 2).run freeHead overtaken).map (fun m =>
      (decide (m.held = {0, 1}), freeSlots 2 m)) = some (true, []) := by decide +kernel
  obtain ⟨m, hrun, heq⟩ := Option.map_eq_some_iff.mp hread
  obtain ⟨hheld, hfree⟩ := Prod.mk.inj heq
  have hheld := of_decide_eq_true hheld
  have hreach : Reached 2 m := Machine.Reached.start.run hrun
  obtain ⟨hplaced, hnull⟩ := slots_exclusive (by decide) (by decide) hreach
  rw [hfree] at hnull
  rw [hfree, hheld] at hplaced
  exact ⟨m, hrun, hheld, hplaced, hnull.mpr rfl⟩

end Threads

end NebulaX.ConcurrentPool
