import NebulaX.Exchange.EngineOps

/-!
# Runs of an engine

Any number of calls of the four entry points, on any number of locates, that keep the contract
about references. The capacity is at least 2 and at most `2 ^ 31`: below, `OrderMap` shifts by the
width of its word, and above, its bucket count does not fit 32 bits.

## Main results

* `exec_keeps` — one call returns and keeps the representation invariant
* `Reachable.inv` — so does a run
* `reachable_books` — what the invariant says about levels, slots and the pool size
-/

namespace NebulaX.Exchange

open MatchingEngine

/-- A call of an engine. -/
inductive Command
  | add (locate orderRef : ℕ) (side : Side) (price quantity : UInt32) (userId : ℕ) (tif : OrderTif)
  | cancel (locate orderRef userId : ℕ)
  | cancelShares (locate orderRef : ℕ) (shares : UInt32) (userId : ℕ)
  | replace (locate oldRef newRef : ℕ) (side : Side) (price quantity : UInt32) (userId : ℕ)

/-- The reference a call introduces. -/
def Command.newRef : Command → Option ℕ
  | .add _ ref _ _ _ _ _ => some ref
  | .replace _ _ newRef _ _ _ _ => some newRef
  | .cancel .. | .cancelShares .. => none

/-- Perform a call. -/
def MatchingEngine.exec (e : MatchingEngine) :
    Command → Option (List BinaryResponse × MatchingEngine)
  | .add locate ref side price quantity user tif =>
    e.processAdd locate ref side price quantity user tif
  | .cancel locate ref user => e.processCancel locate ref user
  | .cancelShares locate ref shares user => e.processCancelShares locate ref shares user
  | .replace locate oldRef newRef side price quantity user =>
    e.processReplace locate oldRef newRef side price quantity user

/-- Perform one call after the other. -/
def MatchingEngine.execAll (e : MatchingEngine) : List Command → Option MatchingEngine
  | [] => some e
  | c :: cs => (e.exec c).bind fun r => r.2.execAll cs

/-- The contract: new references are not resting, and a reference is used with the locate it rests
under. A replace may keep its reference. -/
def Command.Allowed (R : Resting) : Command → Prop
  | .add _ ref _ _ _ _ _ => Fresh R ref
  | .cancel locate ref _ => RoutedTo R ref locate
  | .cancelShares locate ref _ _ => RoutedTo R ref locate
  | .replace locate oldRef newRef _ _ _ _ =>
    RoutedTo R oldRef locate ∧ (newRef = oldRef ∨ Fresh R newRef)

/-- No slot of the pool carries the reference, in use or not. -/
def MatchingEngine.noSlot (e : MatchingEngine) (ref : ℕ) : Bool :=
  (List.range e.shared.pool.capacity).all fun i => (e.shared.pool.storage i).orderId ≠ ref

/-- The reference rests under the locate. -/
def MatchingEngine.restsAt (e : MatchingEngine) (locate ref : ℕ) : Bool :=
  (e.resting locate true ++ e.resting locate false).any fun o => o.orderId = ref

/-- A test on the state that implies the contract. -/
def Command.check (e : MatchingEngine) : Command → Bool
  | .add _ ref _ _ _ _ _ => e.noSlot ref
  | .cancel locate ref _ => e.noSlot ref || e.restsAt locate ref
  | .cancelShares locate ref _ _ => e.noSlot ref || e.restsAt locate ref
  | .replace locate oldRef newRef _ _ _ _ =>
    (e.noSlot oldRef || e.restsAt locate oldRef) && (newRef = oldRef || e.noSlot newRef)

/-- The test for one call after the other. -/
def MatchingEngine.checkAll (e : MatchingEngine) : List Command → Bool
  | [] => true
  | c :: cs => c.check e && ((e.exec c).map fun r => r.2.checkAll cs).getD false

/-- The states an engine can get into under the contract. -/
inductive Reachable : MatchingEngine → Prop
  | start (capacity : ℕ) (wal : Option WalWriter) (tradePool : Option TradePool)
      (hlo : 2 ≤ capacity) (hhi : capacity ≤ 2 ^ 31) :
      Reachable { new capacity with wal := wal, tradePool := tradePool }
  | call {e e' : MatchingEngine} {rsp : List BinaryResponse} (c : Command) (h : Reachable e)
      (hc : c.Allowed e.resting) (hexec : e.exec c = some (rsp, e')) : Reachable e'

/-! ### One call -/

/-- A fresh engine is well formed and empty. -/
theorem rep_new {e : MatchingEngine} {capacity : ℕ} (hb : e.books = fun _ => {})
    (hs : e.shared = SharedStore.new capacity {}) (hlo : 0 < capacity)
    (hhi : capacity ≤ uint32Max) :
    Rep e e.nextSequence (fun _ _ _ => []) (List.range capacity) where
  holds := by
    rw [hs]
    exact (SharedStore.Holds.new _ hlo hhi).congr fun i => by simp
  level := fun L b p => by
    rw [hb]
    cases b <;> exact (rfl : ([] : List ℕ) = [])
  side := fun _ _ _ _ hi => absurd hi List.not_mem_nil
  price := fun _ _ _ _ hi => absurd hi List.not_mem_nil
  fifo := fun _ _ _ => List.Pairwise.nil
  seq_lt := fun _ _ _ _ hi => absurd hi List.not_mem_nil
  range := fun _ _ _ _ hi => absurd hi List.not_mem_nil
  locate := fun _ _ _ _ _ _ _ hi => absurd hi List.not_mem_nil

/-- **A call returns** and keeps the invariant. -/
theorem exec_keeps {e : MatchingEngine} (h : Inv e) {c : Command} (hc : c.Allowed e.resting) :
    ∃ rsp e', e.exec c = some (rsp, e') ∧ Keeps e e' := by
  cases c with
  | add L ref side price quantity user tif =>
    cases hvalid : addError L ref side price quantity user tif with
    | some code => exact ⟨_, e, processAdd_of_error hvalid, Keeps.refl h⟩
    | none =>
      by_cases htif : tif = .fok
      · subst htif
        rcases Nat.lt_or_ge (onOffer e.resting L side (effectivePrice side .fok price) % 2 ^ 32)
          quantity.toNat with hlt | hle
        · exact ⟨_, e, processAdd_fok_stop h hvalid hlt, Keeps.refl h⟩
        · obtain ⟨rsp, e', hexec, hkeeps, -⟩ := processAdd_fok_spec h hvalid hle
          exact ⟨rsp, e', hexec, hkeeps⟩
      · obtain ⟨rsp, e', hexec, hkeeps, -⟩ := processAdd_spec h hvalid htif fun _ => hc
        exact ⟨rsp, e', hexec, hkeeps⟩
  | cancel L ref user =>
    obtain ⟨rsp, e', hexec, hkeeps, -⟩ := processCancel_spec h hc user
    exact ⟨rsp, e', hexec, hkeeps⟩
  | cancelShares L ref shares user =>
    obtain ⟨rsp, e', hexec, hkeeps, -⟩ := processCancelShares_spec h hc user shares
    exact ⟨rsp, e', hexec, hkeeps⟩
  | replace L oldRef newRef side price quantity user =>
    obtain ⟨rsp, e', hexec, hkeeps, -⟩ :=
      processReplace_spec h hc.1 user hc.2 side price quantity
    exact ⟨rsp, e', hexec, hkeeps⟩

/-- **The representation invariant holds in every reachable state.** -/
theorem Reachable.inv {e : MatchingEngine} (h : Reachable e) : Inv e := by
  induction h with
  | start capacity wal tradePool hlo hhi =>
    exact ⟨_, _, rep_new rfl rfl (by omega) (by simp only [uint32Max]; omega)⟩
  | call c _ hc hexec ih =>
    obtain ⟨rsp, e', hexec', hkeeps⟩ := exec_keeps ih hc
    rw [hexec] at hexec'
    obtain ⟨-, rfl⟩ := Prod.mk.inj (Option.some.inj hexec')
    exact hkeeps.inv

theorem fresh_of_noSlot {e : MatchingEngine} (h : Inv e) {ref : ℕ} (href : e.noSlot ref = true) :
    Fresh e.resting ref := fun L b x hx hxr => by
  obtain ⟨G, fl, h⟩ := h
  obtain ⟨i, hi, rfl⟩ := h.mem_resting.mp hx
  have hi' := List.all_eq_true.mp href i (List.mem_range.mpr (h.holds.lt i (Rep.live hi)))
  exact absurd hxr (by simpa using hi')

theorem routedTo_of_restsAt {e : MatchingEngine} (h : Inv e) {ref L : ℕ}
    (href : (e.noSlot ref || e.restsAt L ref) = true) : RoutedTo e.resting ref L := by
  rcases (Bool.or_eq_true _ _).mp href with href | href
  · exact fun L' b x hx hxr => absurd hxr (fresh_of_noSlot h href L' b x hx)
  obtain ⟨G, fl, h⟩ := h
  obtain ⟨o, ho, hor⟩ := List.any_eq_true.mp href
  have hor : o.orderId = ref := by simpa using hor
  obtain ⟨b, ho⟩ : ∃ b, o ∈ e.resting L b :=
    (List.mem_append.mp ho).elim (fun h => ⟨_, h⟩) fun h => ⟨_, h⟩
  exact fun L' b' x hx hxr => (h.resting_unique ho hx (hor.trans hxr.symm)).1

/-- The test is sound. -/
theorem Command.allowed_of_check {e : MatchingEngine} (h : Inv e) {c : Command}
    (hc : c.check e = true) : c.Allowed e.resting := by
  cases c with
  | add => exact fresh_of_noSlot h hc
  | cancel => exact routedTo_of_restsAt h hc
  | cancelShares => exact routedTo_of_restsAt h hc
  | replace locate oldRef newRef =>
    obtain ⟨hold, hnew⟩ := (Bool.and_eq_true _ _).mp hc
    refine ⟨routedTo_of_restsAt h hold, ((Bool.or_eq_true _ _).mp hnew).imp ?_ (fresh_of_noSlot h)⟩
    simp

/-- A run can go on with any call that keeps the contract. -/
theorem Reachable.exec {e : MatchingEngine} (h : Reachable e) {c : Command}
    (hc : c.Allowed e.resting) : ∃ rsp e', e.exec c = some (rsp, e') ∧ Reachable e' := by
  obtain ⟨rsp, e', hexec, -⟩ := exec_keeps h.inv hc
  exact ⟨rsp, e', hexec, h.call c hc hexec⟩

/-- And with any calls that pass the test. -/
theorem Reachable.execAll {e : MatchingEngine} (h : Reachable e) {cs : List Command}
    (hcs : e.checkAll cs = true) : ∃ e', e.execAll cs = some e' ∧ Reachable e' := by
  induction cs generalizing e with
  | nil => exact ⟨e, rfl, h⟩
  | cons c cs ih =>
    obtain ⟨hc, hcs⟩ := (Bool.and_eq_true _ _).mp hcs
    obtain ⟨rsp, e₁, hexec, he₁⟩ := h.exec (Command.allowed_of_check h.inv hc)
    rw [hexec] at hcs
    obtain ⟨e', hrun, he'⟩ := ih he₁ hcs
    refine ⟨e', ?_, he'⟩
    rw [MatchingEngine.execAll, hexec]
    exact hrun

/-- In particular from a fresh engine. -/
theorem reachable_execAll (capacity : ℕ) (cs : List Command) (hlo : 2 ≤ capacity)
    (hhi : capacity ≤ 2 ^ 31) (hcs : (new capacity).checkAll cs = true) :
    ∃ e, (new capacity).execAll cs = some e ∧ Reachable e :=
  (Reachable.start capacity none none hlo hhi).execAll hcs

/-! ### What the invariant says -/

/-- The slots of one level, read off the level itself. -/
def MatchingEngine.OnLevel (e : MatchingEngine) (L : ℕ) (b : Bool) (p : UInt32) (i : ℕ) : Prop :=
  ∃ l, (e.books L).level? b p = some l ∧ i ∈ OrderBook.levelSlots e.shared l

/-- A level of side `b` at price `p` is one doubly linked list, in time order, of the orders `ids`
of that side and price, counted and added up. -/
structure LevelWellFormed (e : MatchingEngine) (b : Bool) (p : UInt32) (l : PriceLevel)
    (ids : List ℕ) : Prop where
  /-- The level is not empty. -/
  ne_nil : ids ≠ []
  /-- Head, tail and the links of the slots form one list. -/
  links : LinkedList.DSeg (fun i => (e.shared.pool.storage i).prevIdx)
    (fun i => (e.shared.pool.storage i).nextIdx) l.headIdx uint32Max ids uint32Max l.tailIdx
  /-- The list has no cycle. -/
  nodup : ids.Nodup
  /-- `count` is its length. -/
  count : l.count.toNat = ids.length
  /-- All orders are of the level's side and price. -/
  own : ∀ i ∈ ids, (e.shared.pool.storage i).side = .ofBuy b ∧ (e.shared.pool.storage i).price = p
  /-- Their sequence numbers increase from head to tail. -/
  fifo : ids.Pairwise fun i j =>
    (e.shared.pool.storage i).sequence < (e.shared.pool.storage j).sequence
  /-- `total_qty` is the 32-bit sum of what remains of them. -/
  total : l.totalQty.toNat =
    (ids.map fun i => (e.shared.pool.storage i).remainingQty.toNat).sum % 2 ^ 32

namespace Rep

variable {e : MatchingEngine} {n : ℕ} {G : Layout} {fl : List ℕ}

theorem levelSlots_of_level? (h : Rep e n G fl) {L : ℕ} {b : Bool} {p : UInt32} {l : PriceLevel}
    (hl : (e.books L).level? b p = some l) : OrderBook.levelSlots e.shared l = G L b p := by
  have hentry : (p, l) ∈ ((e.books L).levels b).entries := SortedMap.get?_eq_some_iff.mp hl
  exact h.levelSlots_eq hentry

theorem onLevel_iff (h : Rep e n G fl) {L : ℕ} {b : Bool} {p : UInt32} {i : ℕ} :
    e.OnLevel L b p i ↔ i ∈ G L b p := by
  constructor
  · rintro ⟨l, hl, hi⟩
    rwa [h.levelSlots_of_level? hl] at hi
  · intro hi
    obtain ⟨l, hl, -⟩ := h.levelOf hi
    exact ⟨l, hl, by rwa [h.levelSlots_of_level? hl]⟩

theorem levelWellFormed (h : Rep e n G fl) {L : ℕ} {b : Bool} {p : UInt32} {l : PriceLevel}
    (hl : (e.books L).level? b p = some l) :
    LevelWellFormed e b p l (OrderBook.levelSlots e.shared l) := by
  rw [h.levelSlots_of_level? hl]
  have hlev := h.level L b p
  rw [hl] at hlev
  exact ⟨hlev.ne_nil, hlev.seg, h.nodup L b p, hlev.count,
    fun i hi => ⟨h.side L b p i hi, h.price L b p i hi⟩, h.fifo L b p, hlev.total⟩

/-- The free slots and the slots of all sides are all slots of the pool, each once. -/
theorem perm_range (h : Rep e n G fl) :
    (fl ++ (List.range kMaxLocate).flatMap fun L => slots e G L true ++ slots e G L false).Perm
      (List.range e.shared.pool.capacity) := by
  have hmem : ∀ i, i ∈ (List.range kMaxLocate).flatMap
      (fun L => slots e G L true ++ slots e G L false) ↔ ∃ L b p, i ∈ G L b p := by
    intro i
    simp only [List.mem_flatMap, List.mem_range, List.mem_append, h.mem_slots]
    constructor
    · rintro ⟨L, -, ⟨p, hi⟩ | ⟨p, hi⟩⟩
      · exact ⟨L, true, p, hi⟩
      · exact ⟨L, false, p, hi⟩
    · rintro ⟨L, b, p, hi⟩
      refine ⟨L, h.range L b p i hi, ?_⟩
      cases b
      · exact Or.inr ⟨p, hi⟩
      · exact Or.inl ⟨p, hi⟩
  have hdisj : ∀ {L L' b b'}, ¬(L' = L ∧ b' = b) →
      (slots e G L b).Disjoint (slots e G L' b') := fun hne i hi hi' => by
    obtain ⟨p, hi⟩ := h.mem_slots.mp hi
    obtain ⟨p', hi'⟩ := h.mem_slots.mp hi'
    obtain ⟨hL, hb, -⟩ := h.unique hi hi'
    exact hne ⟨hL, hb⟩
  refine (List.perm_ext_iff_of_nodup ?_ List.nodup_range).mpr fun i => ?_
  · refine List.nodup_append'.mpr ⟨h.holds.free.nodup, List.nodup_flatMap.mpr ⟨fun L _ => ?_, ?_⟩,
      fun i hi hi' => ?_⟩
    · exact List.nodup_append'.mpr ⟨h.slots_nodup L true, h.slots_nodup L false, hdisj (by simp)⟩
    · refine List.nodup_range.imp fun {L L'} hne i hi hi' => ?_
      simp only [List.mem_append, h.mem_slots] at hi hi'
      obtain ⟨b, p, hb⟩ : ∃ b p, i ∈ G L b p := hi.elim (fun h => ⟨_, h⟩) fun h => ⟨_, h⟩
      obtain ⟨b', p', hb'⟩ : ∃ b p, i ∈ G L' b p := hi'.elim (fun h => ⟨_, h⟩) fun h => ⟨_, h⟩
      exact hne (h.unique hb hb').1.symm
    · exact h.holds.not_mem_free ((hmem i).mp hi') hi
  · rw [List.mem_append, hmem, List.mem_range]
    constructor
    · rintro (hi | hi)
      · exact h.holds.free.lt i hi
      · exact h.holds.lt i hi
    · intro hi
      by_cases hl : ∃ L b p, i ∈ G L b p
      · exact Or.inr hl
      · exact Or.inl ((h.holds.partition i hi).mpr hl)

/-- `size()` counts the resting orders. -/
theorem size_eq (h : Rep e n G fl) : e.shared.pool.size.toNat =
    ((List.range kMaxLocate).map fun L =>
      (e.resting L true).length + (e.resting L false).length).sum := by
  have hlen := h.perm_range.length_eq
  have hsize := h.holds.free.size_add
  rw [List.length_append, List.length_range, List.length_flatMap] at hlen
  have hsum : (List.range kMaxLocate).map (fun L =>
      (slots e G L true ++ slots e G L false).length) = (List.range kMaxLocate).map fun L =>
        (e.resting L true).length + (e.resting L false).length :=
    List.map_congr_left fun L _ => by
      rw [List.length_append, h.resting_eq, h.resting_eq, List.length_map, List.length_map]
  rw [hsum] at hlen
  omega

end Rep

/-- The books of an engine are well formed: every level is one list of its orders, every slot of
the pool is free or on exactly one level of one book, and the pool size counts the resting
orders. -/
structure BooksWellFormed (e : MatchingEngine) : Prop where
  /-- Every level that is present is well formed. -/
  levels : ∀ L b p l, (e.books L).level? b p = some l →
    LevelWellFormed e b p l (OrderBook.levelSlots e.shared l)
  /-- No slot is twice on the free list. -/
  free_nodup : e.shared.pool.freeSlots.Nodup
  /-- A slot is free and on no level, or not free and on exactly one. -/
  partition : ∀ i, i < e.shared.pool.capacity →
    (i ∈ e.shared.pool.freeSlots ∧ ∀ L b p, ¬ e.OnLevel L b p i) ∨
      (i ∉ e.shared.pool.freeSlots ∧ ∃! q : ℕ × Bool × UInt32, e.OnLevel q.1 q.2.1 q.2.2 i)
  /-- `size()`. -/
  size : e.shared.pool.size.toNat = ((List.range kMaxLocate).map fun L =>
    (e.resting L true).length + (e.resting L false).length).sum

/-- **The books of every reachable engine are well formed.** -/
theorem reachable_books {e : MatchingEngine} (h : Reachable e) : BooksWellFormed e := by
  obtain ⟨G, fl, h⟩ := h.inv
  refine ⟨fun L b p l hl => h.levelWellFormed hl, ?_, fun i hi => ?_, h.size_eq⟩
  · rw [h.holds.free.freeSlots_eq]
    exact h.holds.free.nodup
  rw [h.holds.free.freeSlots_eq]
  simp only [h.onLevel_iff]
  by_cases hl : ∃ L b p, i ∈ G L b p
  · refine Or.inr ⟨h.holds.not_mem_free hl, ?_⟩
    obtain ⟨L, b, p, hp⟩ := hl
    refine ⟨(L, b, p), hp, fun ⟨L', b', p'⟩ hp' => ?_⟩
    obtain ⟨hL, hb, hpp⟩ := h.unique hp hp'
    exact Prod.ext hL (Prod.ext hb hpp)
  · exact Or.inl ⟨(h.holds.partition i hi).mpr hl, fun L b p hp => hl ⟨L, b, p, hp⟩⟩

theorem reachable_books_two : ∃ e,
    (new 4).execAll [.add 0 1 .buy 100 5 7 .day, .add 0 2 .buy 100 6 8 .day] = some e ∧
      BooksWellFormed e := by
  obtain ⟨e, hrun, he⟩ := reachable_execAll 4
    [.add 0 1 .buy 100 5 7 .day, .add 0 2 .buy 100 6 8 .day] (by decide) (by decide)
      (by decide +kernel)
  exact ⟨e, hrun, reachable_books he⟩

end NebulaX.Exchange
