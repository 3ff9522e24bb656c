import NebulaX.Exchange.MatchingEngine
import Mathlib.Data.List.Sort

/-!
# What an engine state represents

The books of an engine are doubly linked lists through one pool. `Rep e n G fl` says that they are
well formed: `G` gives the slots of every level of every book from head to tail, `fl` is the free
list, and every resting order has a sequence number below `n`.

Most of the fields are local to a level (`LevelOf`); the rest says that a slot hangs on one level
only, the one of its own side and price, and that the shared store is in order
(`SharedStore.Holds`).

Under `Rep` the walks of the source are reads of lists. `slots` lists the slots of one side in
price-time order, and `resting` is the same list with the orders in place of their slots.

## Main results

* `Rep.resting_eq` — `resting` lists the slots of the levels, best price first
* `Rep.getBest_spec` — `getBestBid` and `getBestAsk` return the first order of another user
* `Rep.availableQty_eq` — `availableQty` is the 32-bit sum over the orders within the limit
* `Rep.resting_sorted` — a side is in price-time order
-/

namespace NebulaX.Exchange

/-! ### Levels -/

/-- Which slots hang on which level of which book, from head to tail. -/
abbrev Layout := ℕ → Bool → UInt32 → List ℕ

/-- Replace the slots of one level. -/
def Layout.set (G : Layout) (L : ℕ) (b : Bool) (p : UInt32) (ids : List ℕ) : Layout :=
  fun L' b' p' => if L' = L ∧ b' = b ∧ p' = p then ids else G L' b' p'

@[simp] theorem Layout.set_self (G : Layout) (L : ℕ) (b : Bool) (p : UInt32) (ids : List ℕ) :
    G.set L b p ids L b p = ids := if_pos ⟨rfl, rfl, rfl⟩

theorem Layout.set_of_ne {G : Layout} {L L' : ℕ} {b b' : Bool} {p p' : UInt32} {ids : List ℕ}
    (h : ¬(L' = L ∧ b' = b ∧ p' = p)) : G.set L b p ids L' b' p' = G L' b' p' := if_neg h

/-- The level `l` holds exactly the slots `ids`. -/
structure LevelOf (st : ℕ → Order) (l : PriceLevel) (ids : List ℕ) : Prop where
  /-- A level that exists is not empty. -/
  ne_nil : ids ≠ []
  /-- The links form one list from head to tail. -/
  seg : LinkedList.DSeg (fun i => (st i).prevIdx) (fun i => (st i).nextIdx) l.headIdx uint32Max
    ids uint32Max l.tailIdx
  /-- `count` counts it. -/
  count : l.count.toNat = ids.length
  /-- `total_qty` adds up what remains, in 32 bits. -/
  total : l.totalQty.toNat = (ids.map fun i => (st i).remainingQty.toNat).sum % 2 ^ 32

/-- The same for a level that may be missing. -/
def LevelRep (st : ℕ → Order) : Option PriceLevel → List ℕ → Prop
  | none, ids => ids = []
  | some l, ids => LevelOf st l ids

/-- Writes elsewhere do not matter to a level. -/
theorem LevelRep.congr {st st' : ℕ → Order} {l : Option PriceLevel} {ids : List ℕ}
    (h : LevelRep st l ids) (hst : ∀ i ∈ ids, (st' i).prevIdx = (st i).prevIdx ∧
      (st' i).nextIdx = (st i).nextIdx ∧ (st' i).remainingQty = (st i).remainingQty) :
    LevelRep st' l ids := by
  cases l with
  | none => exact h
  | some l =>
    refine ⟨h.ne_nil, h.seg.congr (fun i hi => (hst i hi).1) fun i hi => (hst i hi).2.1, h.count,
      ?_⟩
    rw [h.total]
    congr 2
    exact List.map_congr_left fun i hi => by rw [(hst i hi).2.2]

/-- The slots of one side, best price first and earliest first at a price. -/
def slots (e : MatchingEngine) (G : Layout) (L : ℕ) (b : Bool) : List ℕ :=
  ((e.books L).levels b).grouped (G L b)

/-- **What rests on one side**, from its levels alone. -/
theorem resting_of_levels {e : MatchingEngine} {L : ℕ} {b : Bool} {g : UInt32 → List ℕ}
    (hlevel : ∀ p, LevelRep e.shared.pool.storage ((e.books L).level? b p) (g p))
    (hnil : ∀ p, uint32Max ∉ g p) (hlen : ∀ p, (g p).length ≤ e.shared.pool.capacity) :
    e.resting L b =
      (((e.books L).levels b).grouped g).map fun i => (e.shared.pool.storage i).toOrderData := by
  rw [SortedMap.grouped, SortedMap.keys, List.flatMap_map, List.map_flatMap,
    MatchingEngine.resting, OrderBook.resting]
  refine List.flatMap_congr fun pl hpl => ?_
  have hget : (e.books L).level? b pl.1 = some pl.2 := SortedMap.get?_eq_some_iff.mpr hpl
  have hl : LevelOf e.shared.pool.storage pl.2 (g pl.1) := by
    have hl := hlevel pl.1
    rwa [hget] at hl
  show List.map _ (OrderBook.levelSlots e.shared pl.2) = _
  rw [OrderBook.levelSlots, hl.seg.toSeg.walk_eq (hnil pl.1) (hlen pl.1)]

/-- The first-to-last order of a side: better price first, then lower sequence. -/
def priority (b : Bool) (x y : OrderData) : Prop :=
  better b x.price y.price ∨ x.price = y.price ∧ x.sequence < y.sequence

/-- Whether a taker of `user` may trade with an order: user `0` trades with everybody. -/
def otherUser (user : ℕ) (o : OrderData) : Bool := user = 0 ∨ o.userId ≠ user

/-! ### The invariant -/

/-- **The representation invariant.** The slots of the levels are `G`, the free slots are `fl`,
and every sequence number in use is below `n`. -/
structure Rep (e : MatchingEngine) (n : ℕ) (G : Layout) (fl : List ℕ) : Prop where
  /-- The store holds the slots of the levels and no others. -/
  holds : e.shared.Holds (fun o => o.orderId) (fun i => ∃ L b p, i ∈ G L b p) fl
  /-- Every level is well formed. -/
  level : ∀ L b p, LevelRep e.shared.pool.storage ((e.books L).level? b p) (G L b p)
  /-- An order hangs on its own side. -/
  side : ∀ L b p, ∀ i ∈ G L b p, (e.shared.pool.storage i).side = .ofBuy b
  /-- And at its own price. -/
  price : ∀ L b p, ∀ i ∈ G L b p, (e.shared.pool.storage i).price = p
  /-- Within a level, earlier orders come first. -/
  fifo : ∀ L b p, (G L b p).Pairwise fun i j =>
    (e.shared.pool.storage i).sequence < (e.shared.pool.storage j).sequence
  /-- Sequence numbers have been issued. -/
  seq_lt : ∀ L b p, ∀ i ∈ G L b p, (e.shared.pool.storage i).sequence < n
  /-- Only the books of valid locates are in use. -/
  range : ∀ L b p, ∀ i ∈ G L b p, L < MatchingEngine.kMaxLocate
  /-- A slot is in one book only. -/
  locate : ∀ i L b p L' b' p', i ∈ G L b p → i ∈ G L' b' p' → L = L'

namespace Rep

variable {e : MatchingEngine} {n : ℕ} {G : Layout} {fl : List ℕ} {L : ℕ} {b : Bool} {p : UInt32}
  {i : ℕ}

theorem live (hi : i ∈ G L b p) : ∃ L b p, i ∈ G L b p := ⟨L, b, p, hi⟩

/-- A slot hangs on one level only. -/
theorem unique (h : Rep e n G fl) {L' : ℕ} {b' : Bool} {p' : UInt32} (hi : i ∈ G L b p)
    (hi' : i ∈ G L' b' p') : L' = L ∧ b' = b ∧ p' = p := by
  refine ⟨h.locate i _ _ _ _ _ _ hi' hi, ?_, (h.price _ _ _ i hi').symm.trans (h.price _ _ _ i hi)⟩
  have hb : Side.ofBuy b' = Side.ofBuy b := (h.side _ _ _ i hi').symm.trans (h.side _ _ _ i hi)
  rw [← Side.isBuy_ofBuy b', hb, Side.isBuy_ofBuy]

theorem nodup (h : Rep e n G fl) (L : ℕ) (b : Bool) (p : UInt32) : (G L b p).Nodup :=
  (h.fifo L b p).imp fun {i j} hlt (hij : i = j) => absurd (hij ▸ hlt) (Nat.lt_irrefl _)

theorem not_nil (h : Rep e n G fl) (L : ℕ) (b : Bool) (p : UInt32) : uint32Max ∉ G L b p :=
  fun hm => h.holds.ne_uint32Max (live hm) rfl

theorem length_le (h : Rep e n G fl) (L : ℕ) (b : Bool) (p : UInt32) :
    (G L b p).length ≤ e.shared.pool.capacity :=
  LinkedList.length_le_of_nodup (h.nodup L b p) fun i hi => h.holds.lt i (live hi)

/-- A slot in use is found on a level that exists. -/
theorem levelOf (h : Rep e n G fl) (hi : i ∈ G L b p) :
    ∃ l, (e.books L).level? b p = some l ∧ LevelOf e.shared.pool.storage l (G L b p) := by
  have hl := h.level L b p
  cases hlv : (e.books L).level? b p with
  | none =>
    rw [hlv] at hl
    exact absurd hi (by rw [show G L b p = [] from hl]; exact List.not_mem_nil)
  | some l => exact ⟨l, rfl, by rwa [hlv] at hl⟩

theorem eq_nil_of_level?_eq_none (h : Rep e n G fl) (hl : (e.books L).level? b p = none) :
    G L b p = [] := by
  have := h.level L b p
  rwa [hl] at this

/-- Raising the sequence bound. -/
theorem mono (h : Rep e n G fl) {m : ℕ} (hm : n ≤ m) : Rep e m G fl :=
  { h with seq_lt := fun L b p i hi => Nat.lt_of_lt_of_le (h.seq_lt L b p i hi) hm }

/-! ### One side as a list -/

theorem mem_slots (h : Rep e n G fl) : i ∈ slots e G L b ↔ ∃ p, i ∈ G L b p := by
  refine SortedMap.mem_grouped.trans ⟨fun ⟨p, _, hi⟩ => ⟨p, hi⟩, fun ⟨p, hi⟩ => ⟨p, ?_, hi⟩⟩
  obtain ⟨l, hl, -⟩ := h.levelOf hi
  exact SortedMap.mem_keys_iff.mpr ⟨l, hl⟩

theorem live_of_mem_slots (h : Rep e n G fl) (hi : i ∈ slots e G L b) : ∃ L b p, i ∈ G L b p := by
  obtain ⟨p, hi⟩ := h.mem_slots.mp hi
  exact live hi

/-- A level listed in a book holds the slots of its price. -/
theorem levelOf_entry (h : Rep e n G fl) {pl : UInt32 × PriceLevel}
    (hpl : pl ∈ ((e.books L).levels b).entries) :
    LevelOf e.shared.pool.storage pl.2 (G L b pl.1) := by
  have hget : (e.books L).level? b pl.1 = some pl.2 := SortedMap.get?_eq_some_iff.mpr hpl
  have hl := h.level L b pl.1
  rwa [hget] at hl

/-- What a walk over the levels of a side needs to know about each of them. -/
theorem entries_levelOf (h : Rep e n G fl) (L : ℕ) (b : Bool) :
    ∀ pl ∈ ((e.books L).levels b).entries, LevelOf e.shared.pool.storage pl.2 (G L b pl.1) ∧
      uint32Max ∉ G L b pl.1 ∧ (G L b pl.1).length < e.shared.pool.capacity + 1 := fun pl hpl =>
  ⟨h.levelOf_entry hpl, h.not_nil L b pl.1, Nat.lt_succ_of_le (h.length_le L b pl.1)⟩

theorem slots_eq (e : MatchingEngine) (G : Layout) (L : ℕ) (b : Bool) :
    slots e G L b = ((e.books L).levels b).entries.flatMap fun pl => G L b pl.1 := by
  rw [slots, SortedMap.grouped, SortedMap.keys, List.flatMap_map]

theorem levelSlots_eq (h : Rep e n G fl) {pl : UInt32 × PriceLevel}
    (hpl : pl ∈ ((e.books L).levels b).entries) :
    OrderBook.levelSlots e.shared pl.2 = G L b pl.1 :=
  (h.levelOf_entry hpl).seg.toSeg.walk_eq (h.not_nil L b pl.1) (h.length_le L b pl.1)

/-- **What rests on one side** is the orders in its slots. -/
theorem resting_eq (h : Rep e n G fl) (L : ℕ) (b : Bool) :
    e.resting L b = (slots e G L b).map fun i => (e.shared.pool.storage i).toOrderData :=
  resting_of_levels (h.level L b) (h.not_nil L b) (h.length_le L b)

theorem mem_resting (h : Rep e n G fl) {o : OrderData} :
    o ∈ e.resting L b ↔ ∃ i, i ∈ G L b o.price ∧ (e.shared.pool.storage i).toOrderData = o := by
  rw [h.resting_eq, List.mem_map]
  constructor
  · rintro ⟨i, hi, rfl⟩
    obtain ⟨p, hi⟩ := h.mem_slots.mp hi
    exact ⟨i, by rwa [h.price _ _ _ i hi], rfl⟩
  · rintro ⟨i, hi, rfl⟩
    exact ⟨i, h.mem_slots.mpr ⟨_, hi⟩, rfl⟩

theorem resting_mem (h : Rep e n G fl) (hi : i ∈ G L b p) :
    (e.shared.pool.storage i).toOrderData ∈ e.resting L b := by
  rw [h.resting_eq]
  exact List.mem_map_of_mem (h.mem_slots.mpr ⟨p, hi⟩)

/-- The resting orders of one price are those of the slots of its level. -/
theorem filter_resting (h : Rep e n G fl) (L : ℕ) (b : Bool) (p : UInt32) :
    (e.resting L b).filter (fun o => o.price = p) =
      (G L b p).map fun i => (e.shared.pool.storage i).toOrderData := by
  have hnone : p ∉ ((e.books L).levels b).keys → G L b p = [] := fun hp =>
    h.eq_nil_of_level?_eq_none (SortedMap.get?_eq_none.mpr hp)
  have hgroup := SortedMap.filter_grouped (fun i => (e.shared.pool.storage i).price)
    (fun p i hi => h.price L b p i hi) hnone
  rw [h.resting_eq, List.filter_map]
  exact congrArg _ hgroup

/-- Slots in use with one reference are one slot. -/
theorem slot_inj (h : Rep e n G fl) {L' : ℕ} {b' : Bool} {p' : UInt32} {j : ℕ} (hi : i ∈ G L b p)
    (hj : j ∈ G L' b' p')
    (hij : (e.shared.pool.storage i).orderId = (e.shared.pool.storage j).orderId) : i = j :=
  h.holds.inj i j (live hi) (live hj) hij

/-- **A side is in price-time order.** -/
theorem resting_sorted (h : Rep e n G fl) (L : ℕ) (b : Bool) :
    (e.resting L b).Pairwise (priority b) := by
  rw [h.resting_eq, List.pairwise_map, slots, SortedMap.grouped, List.pairwise_flatMap]
  refine ⟨fun p _ => (h.fifo L b p).imp_of_mem fun {i j} hi hj hlt => Or.inr ⟨?_, hlt⟩,
    ((e.books L).levels b).sorted.imp fun {p q} hpq i hi j hj => Or.inl ?_⟩
  · rw [h.price L b p i hi, h.price L b p j hj]
  · rw [h.price L b p i hi, h.price L b q j hj]
    exact hpq

theorem slots_nodup (h : Rep e n G fl) (L : ℕ) (b : Bool) : (slots e G L b).Nodup := by
  have hsorted := h.resting_sorted L b
  rw [h.resting_eq, List.pairwise_map] at hsorted
  refine hsorted.imp fun {i j} hp hij => ?_
  subst hij
  rcases hp with hp | ⟨-, hp⟩
  · exact irrefl_of (better b) _ hp
  · exact Nat.lt_irrefl _ hp

/-- References are unique on a side. -/
theorem resting_refs_nodup (h : Rep e n G fl) (L : ℕ) (b : Bool) :
    ((e.resting L b).map OrderData.orderId).Nodup := by
  rw [h.resting_eq, List.map_map]
  refine List.Nodup.map_on (fun i hi j hj hij => ?_) (h.slots_nodup L b)
  exact h.holds.inj i j (h.live_of_mem_slots hi) (h.live_of_mem_slots hj) hij

/-- **References are unique** in the whole engine. -/
theorem resting_unique (h : Rep e n G fl) {L' : ℕ} {b' : Bool} {x y : OrderData}
    (hx : x ∈ e.resting L b) (hy : y ∈ e.resting L' b') (hxy : x.orderId = y.orderId) :
    L' = L ∧ b' = b ∧ y = x := by
  obtain ⟨i, hi, rfl⟩ := h.mem_resting.mp hx
  obtain ⟨j, hj, rfl⟩ := h.mem_resting.mp hy
  obtain rfl := h.slot_inj hi hj hxy
  obtain ⟨hL, hb, -⟩ := h.unique hi hj
  exact ⟨hL, hb, rfl⟩

/-- An order rests on its own side. -/
theorem resting_side (h : Rep e n G fl) {x : OrderData} (hx : x ∈ e.resting L b) :
    x.side = .ofBuy b := by
  obtain ⟨i, hi, rfl⟩ := h.mem_resting.mp hx
  exact h.side _ _ _ i hi

/-- Only valid locates have anything resting. -/
theorem resting_range (h : Rep e n G fl) {x : OrderData} (hx : x ∈ e.resting L b) :
    L < MatchingEngine.kMaxLocate := by
  obtain ⟨i, hi, -⟩ := h.mem_resting.mp hx
  exact h.range _ _ _ i hi

/-! ### The best order -/

/-- The walk of a level stops at its first order of another user. -/
theorem firstOther_eq {st : ℕ → Order} {user fuel : ℕ} {ids : List ℕ} {hd : ℕ}
    (hs : LinkedList.Seg (fun i => (st i).nextIdx) hd ids uint32Max) (hnil : uint32Max ∉ ids)
    (hfuel : ids.length < fuel) :
    OrderBook.firstOther st user fuel hd = some (ids.find? fun i => (st i).userId ≠ user) := by
  induction ids generalizing hd fuel with
  | nil =>
    obtain ⟨fuel, rfl⟩ := Nat.exists_eq_succ_of_ne_zero (Nat.ne_of_gt hfuel)
    rw [OrderBook.firstOther, if_pos (LinkedList.seg_nil.mp hs)]
    rfl
  | cons x xs ih =>
    obtain ⟨rfl, hs⟩ := hs
    obtain ⟨fuel, rfl⟩ := Nat.exists_eq_succ_of_ne_zero (Nat.ne_of_gt (Nat.zero_lt_of_lt hfuel))
    have hx : hd ≠ uint32Max := fun he => hnil (he ▸ List.mem_cons_self)
    rw [OrderBook.firstOther, if_neg hx]
    by_cases hu : (st hd).userId ≠ user
    · rw [if_pos hu, List.find?_cons_of_pos (by simpa using hu)]
    · rw [if_neg hu, List.find?_cons_of_neg (by simpa using hu),
        ih hs (fun hm => hnil (List.mem_cons_of_mem _ hm)) (Nat.lt_of_succ_lt_succ hfuel)]

/-- The walk of a side stops at its first order of another user. -/
theorem firstOtherIn_eq {st : ℕ → Order} {fuel user : ℕ} {g : UInt32 → List ℕ}
    {ls : List (UInt32 × PriceLevel)}
    (hls : ∀ pl ∈ ls, LevelOf st pl.2 (g pl.1) ∧ uint32Max ∉ g pl.1 ∧ (g pl.1).length < fuel) :
    OrderBook.firstOtherIn st fuel user ls =
      some ((ls.flatMap fun pl => g pl.1).find? fun i => (st i).userId ≠ user) := by
  induction ls with
  | nil => rfl
  | cons pl ls ih =>
    obtain ⟨hl, hnil, hlen⟩ := hls pl List.mem_cons_self
    rw [OrderBook.firstOtherIn, firstOther_eq hl.seg.toSeg hnil hlen, List.flatMap_cons,
      List.find?_append, ih fun pl' hpl' => hls pl' (List.mem_cons_of_mem _ hpl')]
    cases (g pl.1).find? fun i => (st i).userId ≠ user <;> rfl

/-- **`getBestBid` and `getBestAsk`** return the first order in price-time order that belongs to
another user. -/
theorem getBest_eq (h : Rep e n G fl) (L : ℕ) (b : Bool) (user : ℕ) :
    (e.books L).getBest e.shared b user =
      some ((slots e G L b).find? fun i =>
        otherUser user (e.shared.pool.storage i).toOrderData) := by
  have hentry := h.entries_levelOf L b
  rw [OrderBook.getBest, slots_eq]
  cases hes : ((e.books L).levels b).entries with
  | nil => rfl
  | cons pl rest =>
    obtain ⟨p, l⟩ := pl
    rw [hes] at hentry
    by_cases hu : user = 0
    · -- user 0: the head of the first level
      subst hu
      obtain ⟨hl, -, -⟩ := hentry (p, l) List.mem_cons_self
      obtain ⟨x, xs, hG⟩ := List.exists_cons_of_ne_nil hl.ne_nil
      have hhead : l.headIdx = x := by
        have := hl.seg
        rw [hG] at this
        exact this.1
      have hcount : 0 < l.count := by
        rw [UInt32.lt_iff_toNat_lt, hl.count, hG]
        exact Nat.succ_pos _
      simp only [if_pos hcount, hhead, List.flatMap_cons, hG, List.cons_append]
      rw [if_pos trivial, List.find?_cons_of_pos (by simp [otherUser])]
    · simp only [if_neg hu]
      have hother : (fun i => otherUser user (e.shared.pool.storage i).toOrderData) =
          fun i => decide ((e.shared.pool.storage i).userId ≠ user) := by
        funext i
        simp [otherUser, hu]
      rw [firstOtherIn_eq (g := G L b) hentry, hother]

/-- `getBest` in terms of the orders of the side: the ones in front of it are the taker's own. -/
theorem getBest_spec (h : Rep e n G fl) (L : ℕ) (b : Bool) (user : ℕ) :
    ((e.books L).getBest e.shared b user = some none ∧
        ∀ x ∈ e.resting L b, otherUser user x = false) ∨
      ∃ i p front back, (e.books L).getBest e.shared b user = some (some i) ∧ i ∈ G L b p ∧
        e.resting L b = front ++ (e.shared.pool.storage i).toOrderData :: back ∧
        (∀ x ∈ front, otherUser user x = false) ∧
        otherUser user (e.shared.pool.storage i).toOrderData = true := by
  rw [h.getBest_eq, h.resting_eq]
  cases hf : (slots e G L b).find? fun i =>
      otherUser user (e.shared.pool.storage i).toOrderData with
  | none =>
    refine Or.inl ⟨rfl, fun x hx => ?_⟩
    obtain ⟨i, hi, rfl⟩ := List.mem_map.mp hx
    simpa using List.find?_eq_none.mp hf i hi
  | some i =>
    obtain ⟨hok, front, back, hsplit, hfront⟩ := List.find?_eq_some_iff_append.mp hf
    have hi : i ∈ slots e G L b := hsplit ▸ List.mem_append_right _ List.mem_cons_self
    obtain ⟨p, hp⟩ := h.mem_slots.mp hi
    refine Or.inr ⟨i, p, _, _, rfl, hp, by rw [hsplit, List.map_append, List.map_cons], ?_, hok⟩
    intro x hx
    obtain ⟨j, hj, rfl⟩ := List.mem_map.mp hx
    simpa using hfront j hj

/-! ### The quantity on offer -/

theorem sumQty_eq (total : UInt32) {st : ℕ → Order} {fuel : ℕ} {ids : List ℕ} {hd : ℕ}
    (hs : LinkedList.Seg (fun i => (st i).nextIdx) hd ids uint32Max) (hnil : uint32Max ∉ ids)
    (hfuel : ids.length < fuel) :
    ∃ t, OrderBook.sumQty st fuel hd total = some t ∧
      t.toNat = (total.toNat + (ids.map fun i => (st i).remainingQty.toNat).sum) % 2 ^ 32 := by
  induction ids generalizing hd fuel total with
  | nil =>
    obtain ⟨fuel, rfl⟩ := Nat.exists_eq_succ_of_ne_zero (Nat.ne_of_gt hfuel)
    refine ⟨total, by rw [OrderBook.sumQty, if_pos (LinkedList.seg_nil.mp hs)], ?_⟩
    simp
  | cons x xs ih =>
    obtain ⟨rfl, hs⟩ := hs
    obtain ⟨fuel, rfl⟩ := Nat.exists_eq_succ_of_ne_zero (Nat.ne_of_gt (Nat.zero_lt_of_lt hfuel))
    have hx : hd ≠ uint32Max := fun he => hnil (he ▸ List.mem_cons_self)
    obtain ⟨t, ht, hsum⟩ := ih (total + (st hd).remainingQty) hs
      (fun hm => hnil (List.mem_cons_of_mem _ hm)) (Nat.lt_of_succ_lt_succ hfuel)
    refine ⟨t, by rw [OrderBook.sumQty, if_neg hx, ht], ?_⟩
    rw [hsum, UInt32.toNat_add, List.map_cons, List.sum_cons]
    omega

/-- Adding up a side stops at the first price beyond the limit; behind it there is nothing within
the limit. -/
theorem sumLevels_eq (total : UInt32) {st : ℕ → Order} {fuel : ℕ} {beyond : UInt32 → Bool}
    {g : UInt32 → List ℕ} {ls : List (UInt32 × PriceLevel)}
    (hls : ∀ pl ∈ ls, LevelOf st pl.2 (g pl.1) ∧ uint32Max ∉ g pl.1 ∧ (g pl.1).length < fuel)
    (hprice : ∀ pl ∈ ls, ∀ i ∈ g pl.1, (st i).price = pl.1)
    (hsorted : ls.Pairwise fun x y => beyond x.1 = true → beyond y.1 = true) :
    ∃ t, OrderBook.sumLevels st fuel beyond ls total = some t ∧
      t.toNat = (total.toNat + (((ls.flatMap fun pl => g pl.1).filter fun i =>
        !beyond (st i).price).map fun i => (st i).remainingQty.toNat).sum) % 2 ^ 32 := by
  induction ls generalizing total with
  | nil => exact ⟨total, rfl, by simp⟩
  | cons pl ls ih =>
    obtain ⟨hl, hnil, hlen⟩ := hls pl List.mem_cons_self
    obtain ⟨hlater, hsorted⟩ := List.pairwise_cons.mp hsorted
    rw [OrderBook.sumLevels]
    by_cases hb : beyond pl.1 = true
    · -- the first price beyond the limit: so are all later ones
      have hall : ∀ i ∈ (pl :: ls).flatMap fun pl => g pl.1, (!beyond (st i).price) ≠ true := by
        intro i hi
        obtain ⟨pl', hpl', hi⟩ := List.mem_flatMap.mp hi
        rw [hprice pl' hpl' i hi]
        rcases List.mem_cons.mp hpl' with rfl | hpl'
        · simp [hb]
        · simp [hlater pl' hpl' hb]
      refine ⟨total, if_pos hb, ?_⟩
      rw [List.filter_eq_nil_iff.mpr hall]
      simp
    · obtain ⟨t, ht, hsum⟩ := sumQty_eq total hl.seg.toSeg hnil hlen
      obtain ⟨t', ht', hsum'⟩ := ih t
        (fun pl' hpl' => hls pl' (List.mem_cons_of_mem _ hpl'))
        (fun pl' hpl' => hprice pl' (List.mem_cons_of_mem _ hpl')) hsorted
      have hkeep : ((g pl.1).filter fun i => !beyond (st i).price) = g pl.1 := by
        refine List.filter_eq_self.mpr fun i hi => ?_
        rw [hprice pl List.mem_cons_self i hi]
        simpa using hb
      refine ⟨t', by rw [if_neg hb, ht]; exact ht', ?_⟩
      rw [hsum', hsum, List.flatMap_cons, List.filter_append, hkeep, List.map_append,
        List.sum_append]
      omega

/-- Prices further down a side are further beyond any limit. -/
theorem beyond_of_better {b : Bool} {limit p q : UInt32} (hpq : better b p q)
    (hp : MatchingEngine.beyond (!b) limit p = true) :
    MatchingEngine.beyond (!b) limit q = true := by
  cases b <;>
    simp only [better, MatchingEngine.beyond, Bool.not_true, Bool.not_false, if_true,
      Bool.false_eq_true, if_false, decide_eq_true_eq, UInt32.lt_iff_toNat_lt] at *
  all_goals omega

/-- **`availableQty`** is the 32-bit sum of what remains within the limit, whoever it belongs
to. -/
theorem availableQty_eq (h : Rep e n G fl) (L : ℕ) (side : Side) (price : UInt32) :
    ∃ t, (e.books L).availableQty e.shared side price = some t ∧
      t.toNat = (((e.resting L !side.isBuy).filter fun o =>
        !MatchingEngine.beyond side.isBuy price o.price).map fun o =>
          o.remainingQty.toNat).sum % 2 ^ 32 := by
  have key : ∀ b : Bool, ∃ t, OrderBook.sumLevels e.shared.pool.storage
      (e.shared.pool.capacity + 1) (MatchingEngine.beyond (!b) price)
      ((e.books L).levels b).entries 0 = some t ∧
      t.toNat = (((e.resting L b).filter fun o =>
        !MatchingEngine.beyond (!b) price o.price).map fun o =>
          o.remainingQty.toNat).sum % 2 ^ 32 := by
    intro b
    have hsorted : ((e.books L).levels b).entries.Pairwise fun x y =>
        MatchingEngine.beyond (!b) price x.1 = true →
          MatchingEngine.beyond (!b) price y.1 = true :=
      (List.pairwise_map.mp ((e.books L).levels b).sorted).imp fun hpq => beyond_of_better hpq
    obtain ⟨t, ht, hsum⟩ := sumLevels_eq 0 (h.entries_levelOf L b)
      (fun pl _ i hi => h.price L b pl.1 i hi) hsorted
    refine ⟨t, ht, ?_⟩
    rw [hsum, h.resting_eq, slots_eq, List.filter_map, List.map_map]
    simp only [UInt32.toNat_zero, Nat.zero_add]
    rfl
  rw [OrderBook.availableQty]
  by_cases hs : side = .buy
  · subst hs
    exact key false
  · obtain ⟨t, ht, hsum⟩ := key true
    have hbuy : side.isBuy = false := by cases side <;> first | rfl | exact absurd rfl hs
    rw [hbuy, if_neg hs]
    exact ⟨t, ht, hsum⟩

end Rep

end NebulaX.Exchange
