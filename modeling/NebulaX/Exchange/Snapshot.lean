import NebulaX.Exchange.WalIdempotence
import Mathlib.Logic.Relation

/-!
# Snapshots

`OrderBook::saveSnapshot` and `loadSnapshot`, and what `MatchingEngine` makes of them. A snapshot is
a magic word and the orders of the book of locate 0 as they lie in the pool: bids from the best
price down, then asks from the best price up, each level from its head to its tail. Loading adds
them to an engine that has just been built, in the order of the file, and brings both counters past
them. What the links of a saved order say is not used: `addOrder` writes its own.

The sequence numbers of a file do not ascend, but those of one level do, and every order that comes
in belongs behind all that its side has so far. So a side grows at its end only. A fresh index has a
node for each slot and an `insert` takes at most one, so every order can be found afterwards, also
if the old index had lost some.

## Main results

* `saveSnapshot_eq` — the file of a book
* `load_spec` — adding the orders of a file one after the other
* `loadSnapshot_saveSnapshot` — the engine that has read the snapshot of another
-/

namespace NebulaX.Exchange

open MatchingEngine

/-! ### The file -/

/-- The file: the magic word, then the orders. -/
structure Snapshot where
  /-- `magic`. -/
  magic : UInt32
  /-- The structs behind it. -/
  orders : List Order

/-- The word that marks a snapshot. -/
def snapshotMagic : UInt32 := 0x4E4253

/-- `if (value > max) max = value`. -/
def raise (max value : ℕ) : ℕ := if max < value then value else max

theorem raise_eq (m value : ℕ) : raise m value = max m value := by
  rw [raise]
  split <;> omega

namespace OrderBook

/-- What `saveSnapshot` keeps while it walks. -/
structure Saving where
  /-- `max_seq`. -/
  maxSeq : ℕ := 0
  /-- `max_id`. -/
  maxId : ℕ := 0
  /-- What has been written behind the magic word. -/
  written : List Order := []

/-- The body of its inner loops. -/
def Saving.write (s : Saving) (o : Order) : Saving where
  maxSeq := raise s.maxSeq o.sequence
  maxId := raise s.maxId o.orderId
  written := s.written ++ [o]

/-- The walk of a level from `idx`. -/
def saveLevel (storage : ℕ → Order) : ℕ → ℕ → Saving → Option Saving
  | 0, _, _ => none
  | fuel + 1, idx, s =>
    if idx = uint32Max then some s
    else saveLevel storage fuel (storage idx).nextIdx (s.write (storage idx))

/-- The walk of a side. -/
def saveLevels (storage : ℕ → Order) (fuel : ℕ) :
    List (UInt32 × PriceLevel) → Saving → Option Saving
  | [], s => some s
  | (_, level) :: rest, s =>
    (saveLevel storage fuel level.headIdx s).bind (saveLevels storage fuel rest)

/-- `saveSnapshot(path)`: the greatest reference, and the file. -/
def saveSnapshot (b : OrderBook) (sh : Store) : Option (ℕ × Snapshot) :=
  (saveLevels sh.pool.storage (sh.pool.capacity + 1) b.bids.entries {}).bind fun s =>
    (saveLevels sh.pool.storage (sh.pool.capacity + 1) b.asks.entries s).map fun s =>
      (s.maxId, { magic := snapshotMagic, orders := s.written })

/-- What `loadSnapshot` works on. -/
structure Loading where
  /-- The book. -/
  book : OrderBook
  /-- The pool and the index. -/
  shared : Store
  /-- `max_seq_out`. -/
  maxSeqOut : ℕ
  /-- `max_id_out`. -/
  maxIdOut : ℕ

/-- The body of its loop. An order that cannot be added is only logged. -/
def loadOrder (l : Loading) (o : Order) : Option Loading :=
  (l.book.addOrder l.shared o.toOrderData).map fun (_, book, shared) =>
    { book := book, shared := shared, maxSeqOut := raise l.maxSeqOut o.sequence
      maxIdOut := raise l.maxIdOut o.orderId }

/-- `loadSnapshot(path, max_seq_out, max_id_out)`. -/
def loadSnapshot (b : OrderBook) (sh : Store) (file : Snapshot) (maxSeqOut maxIdOut : ℕ) :
    Option Loading :=
  let l := { book := b, shared := sh, maxSeqOut := maxSeqOut, maxIdOut := maxIdOut }
  if file.magic ≠ snapshotMagic then some l else file.orders.foldlM loadOrder l

end OrderBook

namespace MatchingEngine

/-- `saveSnapshot(path)`. -/
def saveSnapshot (e : MatchingEngine) : Option Snapshot :=
  ((e.books 0).saveSnapshot e.shared).map Prod.snd

/-- The lines of `loadSnapshot` behind the call: `max_id + 1` is a 64-bit sum. -/
def finishLoad (e : MatchingEngine) (l : OrderBook.Loading) : MatchingEngine :=
  let e := e.withBook 0 l.book l.shared
  let e := if 0 < l.maxSeqOut then { e with nextSequence := l.maxSeqOut + 1 } else e
  if 0 < l.maxIdOut then { e with nextOrderId := (l.maxIdOut + 1) % 2 ^ 64 } else e

/-- `loadSnapshot(path)`. -/
def loadSnapshot (e : MatchingEngine) (file : Snapshot) : Option MatchingEngine :=
  ((e.books 0).loadSnapshot e.shared file 0 0).map e.finishLoad

/-- The orders of the book of locate 0, in the order of a snapshot. -/
def saved (e : MatchingEngine) : List OrderData := e.resting 0 true ++ e.resting 0 false

end MatchingEngine

/-- The greatest of the numbers that `f` reads off. -/
def greatest (f : OrderData → ℕ) (xs : List OrderData) : ℕ := (xs.map f).foldl max 0

/-! ### Saving -/

namespace OrderBook

/-- Writing one order after the other. -/
theorem foldl_write (os : List Order) (s : Saving) :
    os.foldl Saving.write s =
      { maxSeq := (os.map fun o => o.sequence).foldl max s.maxSeq
        maxId := (os.map fun o => o.orderId).foldl max s.maxId
        written := s.written ++ os } := by
  induction os generalizing s with
  | nil => simp
  | cons o os ih =>
    rw [List.foldl_cons, ih, Saving.write, raise_eq, raise_eq]
    simp

/-- A level is written from its head to its tail. -/
theorem saveLevel_eq {st : ℕ → Order} {fuel idx : ℕ} {ids : List ℕ} (s : Saving)
    (hs : LinkedList.Seg (fun i => (st i).nextIdx) idx ids uint32Max) (hnil : uint32Max ∉ ids)
    (hfuel : ids.length < fuel) :
    saveLevel st fuel idx s = some ((ids.map st).foldl Saving.write s) := by
  induction ids generalizing idx fuel s with
  | nil =>
    obtain ⟨fuel, rfl⟩ := Nat.exists_eq_succ_of_ne_zero (Nat.ne_of_gt hfuel)
    rw [saveLevel, if_pos (LinkedList.seg_nil.mp hs)]
    rfl
  | cons x xs ih =>
    obtain ⟨rfl, hs⟩ := hs
    obtain ⟨fuel, rfl⟩ := Nat.exists_eq_succ_of_ne_zero (Nat.ne_of_gt (Nat.zero_lt_of_lt hfuel))
    have hx : idx ≠ uint32Max := fun he => hnil (he ▸ List.mem_cons_self)
    rw [saveLevel, if_neg hx, ih _ hs (fun hm => hnil (List.mem_cons_of_mem _ hm))
      (Nat.lt_of_succ_lt_succ hfuel)]
    rfl

/-- A side is written level by level. -/
theorem saveLevels_eq {st : ℕ → Order} {fuel : ℕ} {g : UInt32 → List ℕ}
    {ls : List (UInt32 × PriceLevel)} (s : Saving)
    (hls : ∀ pl ∈ ls, LevelOf st pl.2 (g pl.1) ∧ uint32Max ∉ g pl.1 ∧ (g pl.1).length < fuel) :
    saveLevels st fuel ls s =
      some (((ls.flatMap fun pl => g pl.1).map st).foldl Saving.write s) := by
  induction ls generalizing s with
  | nil => rfl
  | cons pl ls ih =>
    obtain ⟨hl, hnil, hfuel⟩ := hls pl List.mem_cons_self
    rw [saveLevels, saveLevel_eq s hl.seg.toSeg hnil hfuel, Option.bind_some,
      ih _ fun pl' hpl' => hls pl' (List.mem_cons_of_mem _ hpl'), List.flatMap_cons,
      List.map_append,
      List.foldl_append]

end OrderBook

section Save

variable {e : MatchingEngine} {n : ℕ} {G : Layout} {fl : List ℕ}

/-- **What is saved:** the orders of the book, bids first, each side in price-time order. -/
theorem saveSnapshot_eq (h : Rep e n G fl) :
    ∃ file, (e.books 0).saveSnapshot e.shared = some (greatest OrderData.orderId e.saved, file) ∧
      file.magic = snapshotMagic ∧ file.orders.map Order.toOrderData = e.saved := by
  have hside : ∀ b s, OrderBook.saveLevels e.shared.pool.storage (e.shared.pool.capacity + 1)
      ((e.books 0).levels b).entries s =
        some (((slots e G 0 b).map e.shared.pool.storage).foldl OrderBook.Saving.write s) := by
    intro b s
    rw [Rep.slots_eq]
    exact OrderBook.saveLevels_eq s (h.entries_levelOf 0 b)
  have hsaved : ((slots e G 0 true).map e.shared.pool.storage ++
      (slots e G 0 false).map e.shared.pool.storage).map Order.toOrderData = e.saved := by
    rw [saved, h.resting_eq, h.resting_eq, List.map_append, List.map_map, List.map_map]
    rfl
  refine ⟨⟨snapshotMagic, (slots e G 0 true).map e.shared.pool.storage ++
    (slots e G 0 false).map e.shared.pool.storage⟩, ?_, rfl, hsaved⟩
  have hbids := hside true {}
  have hasks := hside false
  rw [OrderBook.saveSnapshot]
  change (OrderBook.saveLevels _ _ ((e.books 0).levels true).entries {}).bind (fun s =>
    (OrderBook.saveLevels _ _ ((e.books 0).levels false).entries s).map _) = _
  rw [hbids, Option.bind_some, hasks, ← List.foldl_append, OrderBook.foldl_write, greatest,
    ← hsaved, List.map_map]
  rfl

end Save

/-! ### Loading -/

/-- **Orders that can be added one after the other:** they have sides, come in price-time order on
each of them, differ in their references, and find room in `capacity` slots. -/
structure Loadable (capacity : ℕ) (xs : List OrderData) : Prop where
  /-- Every order has a side. -/
  sided : ∀ x ∈ xs, x.side ≠ .invalid
  /-- Each side is in price-time order. -/
  sorted : xs.Pairwise fun x y => x.side = y.side → priority x.side.isBuy x y
  /-- References are unique. -/
  refs : (xs.map OrderData.orderId).Nodup
  /-- There is room for all. -/
  room : xs.length ≤ capacity

theorem Loadable.left {capacity : ℕ} {xs ys : List OrderData} (h : Loadable capacity (xs ++ ys)) :
    Loadable capacity xs where
  sided := fun x hx => h.sided x (List.mem_append_left _ hx)
  sorted := (List.pairwise_append.mp h.sorted).1
  refs := by
    have hrefs := h.refs
    rw [List.map_append] at hrefs
    exact (List.nodup_append'.mp hrefs).1
  room := by
    have hroom := h.room
    rw [List.length_append] at hroom
    omega

/-- **An engine that has loaded `xs`:** they rest in the book of locate 0 and nothing else does, and
as many slots and nodes are left as a fresh engine has more. -/
structure Loaded (capacity : ℕ) (xs : List OrderData) (e : MatchingEngine) : Prop where
  /-- The invariant, and the slots left. -/
  rep : ∃ n G fl, Rep e n G fl ∧ fl.length + xs.length = capacity
  /-- What rests in the book. -/
  book : ∀ b, e.resting 0 b = xs.filter fun x => x.side = .ofBuy b
  /-- Nothing rests elsewhere. -/
  others : ∀ L b, L ≠ 0 → e.resting L b = []
  /-- The nodes left. -/
  spare : e.shared.index.Spare (capacity - xs.length)
  /-- No insert was dropped. -/
  complete : e.shared.insertDropped = false

/-- An engine that has just been built has loaded nothing. -/
theorem loaded_new {capacity : ℕ} (hpos : 0 < capacity) (hle : capacity ≤ uint32Max)
    (wal : Option WalWriter) (tradePool : Option TradePool) :
    Loaded capacity [] { new capacity with wal := wal, tradePool := tradePool } where
  rep := ⟨_, _, _, rep_new rfl rfl hpos hle, List.length_range⟩
  book := fun b => resting_new rfl 0 b
  others := fun L b _ => resting_new rfl L b
  spare := OrderMap.spare_new hpos hle
  complete := rfl

/-- What adding an order does to the index. -/
theorem index_of_addOrder {e e' : MatchingEngine} {L : ℕ} {o : OrderData}
    (h : e.addOrder L o = some (true, e')) :
    ∃ i ok, e.shared.index.insert o.orderId i = some (ok, e'.shared.index) ∧
      e'.shared.insertDropped = (e.shared.insertDropped || !ok) := by
  rw [MatchingEngine.addOrder, OrderBook.addOrder] at h
  split at h
  · exact absurd h (by simp)
  split at h
  · exact absurd h (by simp)
  · next i pool halloc =>
    obtain ⟨⟨ok₁, b, sh⟩, hbook, heq⟩ := Option.map_eq_some_iff.mp h
    obtain ⟨-, rfl⟩ := Prod.mk.inj heq
    obtain ⟨sh₁, hlink, heq₁⟩ := Option.map_eq_some_iff.mp hbook
    obtain ⟨-, heq₁⟩ := Prod.mk.inj heq₁
    obtain ⟨-, rfl⟩ := Prod.mk.inj heq₁
    obtain ⟨⟨ok, index⟩, hins, rfl⟩ := Option.map_eq_some_iff.mp hlink
    exact ⟨i, ok, hins, rfl⟩

/-- **One more order.** It comes behind everything on its side. -/
theorem Loaded.add {capacity : ℕ} {xs : List OrderData} {e : MatchingEngine} {o : OrderData}
    (h : Loaded capacity xs e) (hload : Loadable capacity (xs ++ [o])) :
    ∃ e', e.addOrder 0 o = some (true, e') ∧ Loaded capacity (xs ++ [o]) e' := by
  obtain ⟨n, G, fl, hrep, hlen⟩ := h.rep
  have hroom := hload.room
  rw [List.length_append, List.length_singleton] at hroom
  have hside : o.side ≠ .invalid := hload.sided o (by simp)
  have hmem : ∀ L b, ∀ x ∈ e.resting L b, x ∈ xs ∧ x.side = .ofBuy b := by
    intro L b x hx
    by_cases hL : L = 0
    · rw [hL, h.book, List.mem_filter, decide_eq_true_eq] at hx
      exact hx
    · rw [h.others L b hL] at hx
      exact absurd hx List.not_mem_nil
  -- what rests on the side of `o` comes before it
  have hbefore : ∀ x ∈ e.resting 0 o.side.isBuy, priority o.side.isBuy x o := by
    intro x hx
    obtain ⟨hxs, hxside⟩ := hmem 0 _ x hx
    have hprio := (List.pairwise_append.mp hload.sorted).2.2 x hxs o (List.mem_singleton_self o)
    rw [Side.ofBuy_isBuy hside] at hxside
    rw [← hxside]
    exact hprio hxside
  have hnew : ∀ L b, ∀ x ∈ e.resting L b, x.orderId ≠ o.orderId := by
    intro L b x hx
    have hrefs := hload.refs
    rw [List.map_append, List.nodup_append'] at hrefs
    intro hid
    exact hrefs.2.2 (List.mem_map_of_mem (hmem L b x hx).1) (by simp [hid])
  cases fl with
  | nil =>
    rw [List.length_nil] at hlen
    omega
  | cons i fl =>
    obtain ⟨e', hadd, hrep', hrest, -, -, -, -⟩ := hrep.addOrder_later (L := 0) (by decide) hside
      (fun j hj => by
        rcases hbefore _ (hrep.resting_mem hj) with hbetter | ⟨-, hlt⟩
        · rw [hrep.price _ _ _ j hj] at hbetter
          exact absurd hbetter (irrefl_of (better _) _)
        · exact hlt) hnew
    obtain ⟨j, ok, hins, hdrop⟩ := index_of_addOrder hadd
    have hnone : e.shared.index.lookup o.orderId = none := by
      rw [OrderMap.lookup, hrep.holds.find_of_not_live (hrep.ref_fresh hnew)]
      rfl
    obtain ⟨k, hk⟩ : ∃ k, capacity - xs.length = k + 1 := ⟨capacity - xs.length - 1, by omega⟩
    have hspare := h.spare
    rw [hk] at hspare
    obtain ⟨rfl, hspare'⟩ := hspare.insert hnone hins
    -- nothing on its side is worse
    have hend : SortedMap.insertBefore (fun x => decide (better o.side.isBuy o.price x.price)) o
        (e.resting 0 o.side.isBuy) = e.resting 0 o.side.isBuy ++ [o] := by
      refine SortedMap.insertBefore_of_none fun x hx => decide_eq_false fun hworse => ?_
      rcases hbefore x hx with hbetter | ⟨heq, -⟩
      · exact irrefl_of (better _) _ (trans_of (better _) hworse hbetter)
      · rw [heq] at hworse
        exact irrefl_of (better _) _ hworse
    refine ⟨e', hadd, ⟨_, _, fl, hrep', ?_⟩, fun b => ?_, fun L b hL => ?_, ?_, ?_⟩
    · simp only [List.length_cons, List.length_append, List.length_nil] at hlen ⊢
      omega
    · rw [hrest, List.filter_append, ← h.book b]
      by_cases hb : o.side = .ofBuy b
      · have hbuy : o.side.isBuy = b := by rw [hb, Side.isBuy_ofBuy]
        rw [← hbuy, setSide_self, hend, List.filter_singleton, Side.ofBuy_isBuy hside,
          decide_eq_true rfl]
        rfl
      · have hother : ¬(0 = 0 ∧ b = o.side.isBuy) := by
          rintro ⟨-, rfl⟩
          exact hb (Side.ofBuy_isBuy hside).symm
        rw [setSide_of_ne _ _ _ _ hother, List.filter_singleton, decide_eq_false hb]
        exact (List.append_nil _).symm
    · rw [hrest, setSide_of_ne _ _ _ _ fun hc => hL hc.1]
      exact h.others L b hL
    · rw [List.length_append, List.length_singleton, show capacity - (xs.length + 1) = k by omega]
      exact hspare'
    · rw [hdrop, h.complete]
      rfl

/-- **Adding the orders of a file.** The engine-level effect is that of `addOrder`, one order after
the other, and both maxima run along. -/
theorem load_spec {capacity : ℕ} {xs : List OrderData} {e : MatchingEngine}
    (h : Loaded capacity xs e) (os : List Order)
    (hload : Loadable capacity (xs ++ os.map Order.toOrderData)) (maxSeq maxId : ℕ) :
    ∃ e', os.foldlM OrderBook.loadOrder ⟨e.books 0, e.shared, maxSeq, maxId⟩ =
        some ⟨e'.books 0, e'.shared, (os.map fun o => o.sequence).foldl max maxSeq,
          (os.map fun o => o.orderId).foldl max maxId⟩ ∧
      e.withBook 0 (e'.books 0) e'.shared = e' ∧
      Loaded capacity (xs ++ os.map Order.toOrderData) e' := by
  induction os generalizing xs e maxSeq maxId with
  | nil =>
    refine ⟨e, rfl, ?_, by simpa using h⟩
    rw [withBook, Function.update_eq_self]
  | cons o os ih =>
    have hcons : xs ++ (o :: os).map Order.toOrderData =
        xs ++ [o.toOrderData] ++ os.map Order.toOrderData := by simp
    rw [hcons] at hload ⊢
    obtain ⟨e₁, hadd, h₁⟩ := h.add hload.left
    obtain ⟨e', hrun, hbook, h'⟩ := ih h₁ hload (max maxSeq o.sequence) (max maxId o.orderId)
    obtain ⟨⟨ok, b, sh⟩, horder, heq⟩ := Option.map_eq_some_iff.mp hadd
    obtain ⟨-, rfl⟩ := Prod.mk.inj heq
    refine ⟨e', ?_, ?_, h'⟩
    · rw [List.foldlM_cons, OrderBook.loadOrder, horder, raise_eq, raise_eq]
      rw [books_withBook_self] at hrun
      exact hrun
    · rw [← hbook, withBook, withBook, withBook]
      simp only [Function.update_idem, Function.update_self]

/-! ### What a level shows -/

/-- **A level as it is seen from outside:** its count, its total, and its orders from head to
tail. -/
structure LevelView where
  /-- `count`. -/
  count : UInt32
  /-- `total_qty`. -/
  totalQty : UInt32
  /-- The orders. -/
  orders : List OrderData
deriving DecidableEq

/-- The level at a price of the book of locate 0. -/
def MatchingEngine.levelView (e : MatchingEngine) (b : Bool) (price : UInt32) : Option LevelView :=
  ((e.books 0).level? b price).map fun l =>
    { count := l.count
      totalQty := l.totalQty
      orders := (OrderBook.levelSlots e.shared l).map fun i =>
        (e.shared.pool.storage i).toOrderData }

namespace Rep

variable {e e' : MatchingEngine} {n n' : ℕ} {G G' : Layout} {fl fl' : List ℕ}

/-- What a level shows, in terms of what rests at its price. -/
theorem levelView_spec (h : Rep e n G fl) (b : Bool) (p : UInt32) :
    (e.levelView b p = none ∧ (e.resting 0 b).filter (fun o => o.price = p) = []) ∨
      ∃ v, e.levelView b p = some v ∧
        v.orders = (e.resting 0 b).filter (fun o => o.price = p) ∧ v.orders ≠ [] ∧
        v.count.toNat = v.orders.length ∧
        v.totalQty.toNat = (v.orders.map fun o => o.remainingQty.toNat).sum % 2 ^ 32 := by
  have hlevel := h.level 0 b p
  rw [h.filter_resting, levelView]
  cases hl : (e.books 0).level? b p with
  | none =>
    rw [hl] at hlevel
    exact Or.inl ⟨rfl, by rw [show G 0 b p = [] from hlevel]; rfl⟩
  | some l =>
    rw [hl] at hlevel
    rw [Option.map_some, h.levelSlots_of_level? hl]
    refine Or.inr ⟨_, rfl, rfl, mt List.map_eq_nil_iff.mp hlevel.ne_nil, ?_, ?_⟩
    · rw [List.length_map]
      exact hlevel.count
    · rw [List.map_map]
      exact hlevel.total

/-- **Levels are determined by what rests.** -/
theorem levelView_congr (h : Rep e n G fl) (h' : Rep e' n' G' fl') {b : Bool}
    (hrest : e'.resting 0 b = e.resting 0 b) (p : UInt32) :
    e'.levelView b p = e.levelView b p := by
  have hspec := h.levelView_spec b p
  have hspec' := h'.levelView_spec b p
  rw [hrest] at hspec'
  rcases hspec with ⟨hnone, hnil⟩ | ⟨v, hv, horders, hne, hcount, htotal⟩ <;>
    rcases hspec' with ⟨hnone', hnil'⟩ | ⟨v', hv', horders', hne', hcount', htotal'⟩
  · rw [hnone, hnone']
  · exact absurd (horders'.trans hnil) hne'
  · exact absurd (horders.trans hnil') hne
  · have heq : v'.orders = v.orders := horders'.trans horders.symm
    rw [heq] at hcount' htotal'
    rw [hv, hv']
    obtain ⟨count, totalQty, orders⟩ := v
    obtain ⟨count', totalQty', orders'⟩ := v'
    obtain rfl : count' = count := UInt32.toNat_inj.mp (hcount'.trans hcount.symm)
    obtain rfl : totalQty' = totalQty := UInt32.toNat_inj.mp (htotal'.trans htotal.symm)
    obtain rfl : orders' = orders := heq
    rfl

/-- **What is saved can be loaded** by an engine with as many slots. -/
theorem loadable_saved (h : Rep e n G fl) : Loadable e.shared.pool.capacity e.saved where
  sided := fun x hx => by
    rcases List.mem_append.mp hx with hx | hx
    · exact h.resting_side hx ▸ Side.ofBuy_ne_invalid _
    · exact h.resting_side hx ▸ Side.ofBuy_ne_invalid _
  sorted := by
    have hside : ∀ b, (e.resting 0 b).Pairwise fun x y =>
        x.side = y.side → priority x.side.isBuy x y := fun b =>
      (h.resting_sorted 0 b).imp_of_mem fun hx _ hp _ => by
        rwa [h.resting_side hx, Side.isBuy_ofBuy]
    refine List.pairwise_append.mpr ⟨hside true, hside false, fun x hx y hy hxy => ?_⟩
    rw [h.resting_side hx, h.resting_side hy] at hxy
    exact absurd hxy (by decide)
  refs := by
    rw [saved, List.map_append]
    refine (h.resting_refs_nodup 0 true).append (h.resting_refs_nodup 0 false) ?_
    intro ref htrue hfalse
    obtain ⟨x, hx, rfl⟩ := List.mem_map.mp htrue
    obtain ⟨y, hy, hyx⟩ := List.mem_map.mp hfalse
    exact absurd (h.resting_unique hx hy hyx.symm).2.1 (by decide)
  room := by
    have hnd : (slots e G 0 true ++ slots e G 0 false).Nodup := by
      refine (h.slots_nodup 0 true).append (h.slots_nodup 0 false) fun i htrue hfalse => ?_
      obtain ⟨p, hp⟩ := h.mem_slots.mp htrue
      obtain ⟨q, hq⟩ := h.mem_slots.mp hfalse
      exact absurd (h.unique hp hq).2.1 (by decide)
    have hle := LinkedList.length_le_of_nodup hnd (n := e.shared.pool.capacity) fun i hi => by
      rcases List.mem_append.mp hi with hi | hi
      · exact h.holds.lt i (h.live_of_mem_slots hi)
      · exact h.holds.lt i (h.live_of_mem_slots hi)
    rw [saved, h.resting_eq, h.resting_eq, ← List.map_append, List.length_map]
    exact hle

/-- Taken apart again, it is the two sides of the book. -/
theorem filter_saved (h : Rep e n G fl) (b : Bool) :
    e.saved.filter (fun x => x.side = .ofBuy b) = e.resting 0 b := by
  have hsame : ∀ b, (e.resting 0 b).filter (fun x => x.side = .ofBuy b) = e.resting 0 b :=
    fun b => List.filter_eq_self.mpr fun x hx => decide_eq_true (h.resting_side hx)
  have hother : ∀ b b', b' ≠ b → (e.resting 0 b').filter (fun x => x.side = .ofBuy b) = [] :=
    fun b b' hne => List.filter_eq_nil_iff.mpr fun x hx hside => by
      rw [h.resting_side hx, decide_eq_true_eq] at hside
      have hb := congrArg Side.isBuy hside
      rw [Side.isBuy_ofBuy, Side.isBuy_ofBuy] at hb
      exact hne hb
  rw [saved, List.filter_append]
  cases b with
  | true => rw [hsame true, hother true false (by decide), List.append_nil]
  | false => rw [hsame false, hother false true (by decide), List.nil_append]

end Rep

/-! ### Runs of an engine with one book -/

/-- A call of an engine with one book. New references are below the greatest 64-bit value. -/
inductive SingleCall : MatchingEngine → MatchingEngine → Prop
  /-- A call for locate 0. -/
  | exec {e e' : MatchingEngine} {rsp : List BinaryResponse} (c : Command) (hzero : c.locate = 0)
      (hc : c.Allowed e.resting) (href : ∀ ref, c.newRef = some ref → ref < 2 ^ 64 - 1)
      (hexec : e.exec c = some (rsp, e')) : SingleCall e e'
  /-- A call of `processNewOrder`, which issues the reference. -/
  | newOrder {e e' : MatchingEngine} {rsp : List BinaryResponse} (side : Side)
      (price quantity : UInt32) (user : ℕ) (hfresh : Fresh e.resting e.nextOrderId)
      (href : e.nextOrderId < 2 ^ 64 - 1)
      (hcall : e.processNewOrder side price quantity user = some (rsp, e')) : SingleCall e e'

/-- The states an engine with one book can get into. -/
def SingleReachable (e : MatchingEngine) : Prop :=
  ∃ (capacity : ℕ) (wal : Option WalWriter) (tradePool : Option TradePool),
    2 ≤ capacity ∧ capacity ≤ 2 ^ 31 ∧
      Relation.ReflTransGen SingleCall { new capacity with wal := wal, tradePool := tradePool } e

theorem ReachableBy.singleReachable {e : MatchingEngine}
    (h : ReachableBy (fun _ c => c.locate = 0 ∧ ∀ ref, c.newRef = some ref → ref < 2 ^ 64 - 1) e) :
    SingleReachable e := by
  induction h with
  | start capacity wal tradePool hlo hhi => exact ⟨capacity, wal, tradePool, hlo, hhi, .refl⟩
  | call c _ hc hok hexec ih =>
    obtain ⟨capacity, wal, tradePool, hlo, hhi, hrun⟩ := ih
    exact ⟨capacity, wal, tradePool, hlo, hhi, hrun.tail (.exec c hok.1 hc hok.2 hexec)⟩

/-- A run of a new engine with one book. -/
theorem singleReachable_execAll (cs : List Command) (hcs : (new 4).checkAll cs = true)
    (hok : ∀ c ∈ cs, c.locate = 0 ∧ ∀ ref, c.newRef = some ref → ref < 2 ^ 64 - 1) :
    ∃ e, (new 4).execAll cs = some e ∧ SingleReachable e := by
  obtain ⟨e, hrun, he⟩ := (ReachableBy.start 4 none none (by decide) (by decide)).execAll hcs
    fun c hc _ => hok c hc
  exact ⟨e, hrun, he.singleReachable⟩

/-- What holds of an engine with one book. -/
structure SingleBook (e : MatchingEngine) : Prop where
  /-- The invariant. -/
  inv : Inv e
  /-- Nothing rests in other books. -/
  others : ∀ L b, L ≠ 0 → e.resting L b = []
  /-- References are below the greatest 64-bit value. -/
  refs : Every (fun x => x.orderId < 2 ^ 64 - 1) e.resting

theorem survives_ref (bound : ℕ) : Survives fun x => x.orderId < bound where
  partly := fun h _ _ => h
  reduce := fun h _ => h

/-- A call that ends does not write to the log. -/
theorem sameLog_ends {L : ℕ} {s : Matching} {e' : MatchingEngine}
    (h : e' = s.engine ∨ ∃ ok, s.engine.addOrder L s.order = some (ok, e')) :
    SameLog s.engine e' := by
  rcases h with rfl | ⟨ok, hadd⟩
  · exact SameLog.refl _
  · exact sameLog_addOrder hadd

/-- **No call moves a counter back.** -/
theorem later_exec {e e' : MatchingEngine} {c : Command} {rsp : List BinaryResponse}
    (h : e.exec c = some (rsp, e')) : Later e e' := by
  have hstep : ∀ {e₁ e₂ : MatchingEngine},
      Later { e₁ with nextSequence := e₁.nextSequence + 1 } e₂ → Later e₁ e₂ :=
    fun h => ⟨Nat.le_of_succ_le h.1, h.2⟩
  cases c with
  | add L ref side price quantity user tif =>
    rcases processAdd_cases h with ⟨code, -, rfl⟩ | haccept
    · exact Later.refl _
    · obtain ⟨entry, s, hs, hfin⟩ := acceptAdd_cases haccept
      exact hstep ((sameLog_matchLoop hs).trans (sameLog_ends (finishAdd_cases hfin).2)).later
  | cancel L ref user =>
    rcases processCancel_cases h with ⟨-, -, wal, rfl⟩ | ⟨i, entry, -, -, -, hrem, -⟩
    · exact Later.refl _
    · exact (sameLog_removeOrder hrem).later
  | cancelShares L ref shares user =>
    rcases processCancelShares_cases h with ⟨-, -, wal, rfl⟩ |
      ⟨i, entry, -, -, -, ⟨-, hrem, -⟩ | ⟨-, rfl, -⟩⟩
    · exact Later.refl _
    · exact (sameLog_removeOrder hrem).later
    · exact Later.refl _
  | replace L oldRef newRef side price quantity user =>
    rcases processReplace_cases h with ⟨-, -, wal, rfl⟩ |
      ⟨i, entry, e₁, s, -, -, -, hrem, hs, hfin⟩
    · exact Later.refl _
    · refine (sameLog_removeOrder hrem).later.trans (hstep ?_)
      exact ((sameLog_matchLoop hs).trans (sameLog_ends (finishReplace_cases hfin).2)).later

section Single

variable {e e' : MatchingEngine}

/-- **A call for locate 0** keeps it. -/
theorem SingleBook.exec (h : SingleBook e) {c : Command} {rsp : List BinaryResponse}
    (hzero : c.locate = 0) (hc : c.Allowed e.resting)
    (href : ∀ ref, c.newRef = some ref → ref < 2 ^ 64 - 1) (hexec : e.exec c = some (rsp, e')) :
    SingleBook e' ∧ e'.shared.pool.capacity = e.shared.pool.capacity := by
  have hkeeps := keeps_of_exec h.inv hc hexec
  have heff := effect_of_exec h.inv hc hexec
  refine ⟨⟨hkeeps.inv, fun L b hL => ?_, ?_⟩, hkeeps.capacity⟩
  · rw [heff.elsewhere (by rwa [hzero]) b]
    exact h.others L b hL
  · refine heff.every (survives_ref _) h.inv h.refs fun R L o ha _ => ?_
    rw [show (residual R L o).orderId = o.orderId from afterFills_orderId ..]
    cases ha with
    | add => exact href _ rfl
    | replace => exact href _ rfl

/-- **A step** keeps it, and moves no counter back. -/
theorem SingleBook.step (h : SingleBook e) (hstep : SingleCall e e') :
    SingleBook e' ∧ e'.shared.pool.capacity = e.shared.pool.capacity ∧ Later e e' := by
  cases hstep with
  | exec c hzero hc href hexec =>
    obtain ⟨h', hcap⟩ := h.exec hzero hc href hexec
    exact ⟨h', hcap, later_exec hexec⟩
  | newOrder side price quantity user hfresh href hcall =>
    -- an add with the reference that the counter shows, after the counter has been moved on
    have hexec : ({ e with nextOrderId := e.nextOrderId + 1 } : MatchingEngine).exec
      (.add 0 e.nextOrderId side price quantity user .day) = some (_, e') := hcall
    have h₁ : SingleBook { e with nextOrderId := e.nextOrderId + 1 } := by
      obtain ⟨G, fl, hrep⟩ := h.inv
      obtain ⟨hcounted, -⟩ : Rep { e with nextOrderId := e.nextOrderId + 1 } e.nextSequence G fl ∧
        _ := hrep.congr rfl rfl
      exact ⟨⟨G, fl, hcounted⟩, h.others, h.refs⟩
    obtain ⟨h', hcap⟩ := h₁.exec (c := .add 0 e.nextOrderId side price quantity user .day) rfl
      hfresh (fun ref hr => Option.some.inj hr ▸ href) hexec
    have hlater : Later e { e with nextOrderId := e.nextOrderId + 1 } :=
      ⟨Nat.le_refl _, Nat.le_succ _⟩
    exact ⟨h', hcap, hlater.trans (later_exec hexec)⟩

/-- So does a run. -/
theorem SingleBook.run (h : SingleBook e) (hrun : Relation.ReflTransGen SingleCall e e') :
    SingleBook e' ∧ e'.shared.pool.capacity = e.shared.pool.capacity ∧ Later e e' := by
  induction hrun with
  | refl => exact ⟨h, rfl, Later.refl e⟩
  | tail _ hstep ih =>
    obtain ⟨h₁, hcap₁, hlater₁⟩ := ih
    obtain ⟨h₂, hcap₂, hlater₂⟩ := h₁.step hstep
    exact ⟨h₂, hcap₂.trans hcap₁, hlater₁.trans hlater₂⟩

/-- It holds of a new engine. -/
theorem singleBook_new {capacity : ℕ} (hpos : 0 < capacity) (hle : capacity ≤ uint32Max)
    (wal : Option WalWriter) (tradePool : Option TradePool) :
    SingleBook { new capacity with wal := wal, tradePool := tradePool } where
  inv := ⟨_, _, rep_new rfl rfl hpos hle⟩
  others := fun L b _ => resting_new rfl L b
  refs := fun L b x hx => by
    rw [resting_new rfl] at hx
    exact absurd hx List.not_mem_nil

/-- **It holds of every state** that an engine with one book gets into. -/
theorem SingleReachable.singleBook (h : SingleReachable e) :
    SingleBook e ∧ 0 < e.shared.pool.capacity ∧ e.shared.pool.capacity ≤ uint32Max := by
  obtain ⟨capacity, wal, tradePool, hlo, hhi, hrun⟩ := h
  have hpos : 0 < capacity := by omega
  have hle : capacity ≤ uint32Max := Nat.le_trans hhi (by decide)
  obtain ⟨h, hcap, -⟩ := (singleBook_new hpos hle wal tradePool).run hrun
  rw [hcap]
  exact ⟨h, hpos, hle⟩

end Single

/-! ### The round trip -/

/-- **What a snapshot brings back.** Every level with its count, its total and its orders, nothing
else, every order under its reference, and counters past all of them, for good. -/
structure Restored (e e' : MatchingEngine) : Prop where
  /-- The levels. -/
  levels : ∀ b price, e'.levelView b price = e.levelView b price
  /-- What rests. -/
  resting : e'.resting = e.resting
  /-- Every order is found. -/
  found : ∀ b, ∀ x ∈ e.resting 0 b, ∃ i, e'.findOrder x.orderId = some (some i) ∧
    (e'.shared.pool.storage i).toOrderData = x
  /-- What is issued in any run from here is greater than what the orders have. -/
  issued : ∀ r, Relation.ReflTransGen SingleCall e' r → ∀ b, ∀ x ∈ e.resting 0 b,
    x.orderId < r.nextOrderId ∧ x.sequence < r.nextSequence

theorem le_foldl_max (ns : List ℕ) (m : ℕ) : m ≤ ns.foldl max m ∧ ∀ n ∈ ns, n ≤ ns.foldl max m := by
  induction ns generalizing m with
  | nil => exact ⟨Nat.le_refl m, by simp⟩
  | cons n ns ih =>
    obtain ⟨hstart, hrest⟩ := ih (max m n)
    rw [List.foldl_cons]
    refine ⟨Nat.le_trans (Nat.le_max_left m n) hstart, fun k hk => ?_⟩
    rcases List.mem_cons.mp hk with rfl | hk
    · exact Nat.le_trans (Nat.le_max_right m k) hstart
    · exact hrest k hk

theorem foldl_max_lt {ns : List ℕ} {m bound : ℕ} (hm : m < bound) (hns : ∀ n ∈ ns, n < bound) :
    ns.foldl max m < bound := by
  induction ns generalizing m with
  | nil => exact hm
  | cons n ns ih =>
    refine ih (Nat.max_lt.mpr ⟨hm, hns n List.mem_cons_self⟩) fun k hk => ?_
    exact hns k (List.mem_cons_of_mem n hk)

theorem le_greatest (f : OrderData → ℕ) {xs : List OrderData} {x : OrderData} (hx : x ∈ xs) :
    f x ≤ greatest f xs :=
  (le_foldl_max _ 0).2 _ (List.mem_map_of_mem hx)

theorem greatest_lt {f : OrderData → ℕ} {xs : List OrderData} {bound : ℕ} (hpos : 0 < bound)
    (h : ∀ x ∈ xs, f x < bound) : greatest f xs < bound :=
  foldl_max_lt hpos fun n hn => by
    obtain ⟨x, hx, rfl⟩ := List.mem_map.mp hn
    exact h x hx

section Load

variable {e e' : MatchingEngine}

/-- What `loadSnapshot` leaves in the books and in the counters. -/
theorem finishLoad_spec (e : MatchingEngine) (l : OrderBook.Loading) :
    (e.finishLoad l).books = (e.withBook 0 l.book l.shared).books ∧
      (e.finishLoad l).shared = l.shared ∧
      (e.finishLoad l).nextSequence =
        (if 0 < l.maxSeqOut then l.maxSeqOut + 1 else e.nextSequence) ∧
      (e.finishLoad l).nextOrderId =
        if 0 < l.maxIdOut then (l.maxIdOut + 1) % 2 ^ 64 else e.nextOrderId := by
  rw [finishLoad]
  split <;> split <;> exact ⟨rfl, rfl, rfl, rfl⟩

/-- **The counters are past every order**, if they were positive and no reference is the greatest
64-bit value. -/
theorem finishLoad_past (hseq : 0 < e.nextSequence) (hid : 0 < e.nextOrderId) {xs : List OrderData}
    (hrefs : ∀ x ∈ xs, x.orderId < 2 ^ 64 - 1) {l : OrderBook.Loading}
    (hmaxSeq : l.maxSeqOut = greatest OrderData.sequence xs)
    (hmaxId : l.maxIdOut = greatest OrderData.orderId xs) {x : OrderData} (hx : x ∈ xs) :
    x.sequence < (e.finishLoad l).nextSequence ∧ x.orderId < (e.finishLoad l).nextOrderId := by
  obtain ⟨-, -, hnextSeq, hnextId⟩ := finishLoad_spec e l
  have hseqle := le_greatest OrderData.sequence hx
  have hidle := le_greatest OrderData.orderId hx
  have hidlt := greatest_lt (by decide) hrefs
  rw [hnextSeq, hnextId, hmaxSeq, hmaxId]
  constructor
  · split <;> omega
  · split
    · rw [Nat.mod_eq_of_lt (by omega)]
      omega
    · omega

/-- **An engine that has loaded what was saved** has everything back. -/
theorem restored_of_loaded {capacity : ℕ} {e₁ : MatchingEngine} (h : SingleBook e)
    (h₁ : Loaded capacity e.saved e₁) (hbooks : e'.books = e₁.books)
    (hshared : e'.shared = e₁.shared)
    (hpast : ∀ x ∈ e.saved, x.sequence < e'.nextSequence ∧ x.orderId < e'.nextOrderId) :
    Restored e e' := by
  obtain ⟨G, fl, hrep⟩ := h.inv
  obtain ⟨n, G₁, fl₁, hrep₁, -⟩ := h₁.rep
  obtain ⟨hrep', hrest'⟩ := hrep₁.congr hbooks hshared
  have hrest : e'.resting = e.resting := by
    rw [hrest']
    funext L b
    by_cases hL : L = 0
    · rw [hL, h₁.book, hrep.filter_saved]
    · rw [h₁.others L b hL, h.others L b hL]
  have hsaved : ∀ L b, ∀ x ∈ e.resting L b, x ∈ e.saved := fun L b x hx => by
    by_cases hL : L = 0
    · subst hL
      cases b with
      | true => exact List.mem_append_left _ hx
      | false => exact List.mem_append_right _ hx
    · rw [h.others L b hL] at hx
      exact absurd hx List.not_mem_nil
  -- the sequence numbers of the file are below the counter, so the invariant holds again
  have hinv : Inv e' := ⟨G₁, fl₁, { hrep' with
    seq_lt := fun L b p i hi => by
      have hmem := hrep'.resting_mem hi
      rw [hrest] at hmem
      exact (hpast _ (hsaved L b _ hmem)).1 }⟩
  have hbook' : SingleBook e' :=
    ⟨hinv, fun L b hL => by rw [hrest]; exact h.others L b hL, by rw [hrest]; exact h.refs⟩
  refine ⟨fun b p => hrep.levelView_congr hrep' (by rw [hrest]) p, hrest, fun b x hx => ?_,
    fun r hrun b x hx => ?_⟩
  · rw [← hrest] at hx
    obtain ⟨i, hi, rfl⟩ := hrep'.mem_resting.mp hx
    have hcomplete : e'.shared.insertDropped = false := by rw [hshared]; exact h₁.complete
    exact ⟨i, hrep'.holds.find_of_live hcomplete (Rep.live hi), rfl⟩
  · obtain ⟨-, -, hlater⟩ := hbook'.run hrun
    obtain ⟨hseq, hid⟩ := hpast x (hsaved 0 b x hx)
    exact ⟨Nat.lt_of_lt_of_le hid hlater.2, Nat.lt_of_lt_of_le hseq hlater.1⟩

/-- **The round trip.** In every state that an engine with one book gets into, `saveSnapshot` writes
a file, and an engine of the same capacity that has just been built and loads it has the same
levels with the same orders, finds every order by its reference, and issues references and sequence
numbers beyond all of theirs. The maxima that the call reports are theirs. -/
theorem loadSnapshot_saveSnapshot (he : SingleReachable e) (wal : Option WalWriter)
    (tradePool : Option TradePool) :
    ∃ file l e', e.saveSnapshot = some file ∧
      OrderBook.loadSnapshot {} (SharedStore.new e.shared.pool.capacity {}) file 0 0 = some l ∧
      l.maxSeqOut = greatest OrderData.sequence e.saved ∧
      l.maxIdOut = greatest OrderData.orderId e.saved ∧
      ({ new e.shared.pool.capacity with wal := wal, tradePool := tradePool } :
        MatchingEngine).loadSnapshot file = some e' ∧ Restored e e' := by
  obtain ⟨hsingle, hpos, hle⟩ := he.singleBook
  obtain ⟨G, fl, hrep⟩ := hsingle.inv
  obtain ⟨file, hsave, hmagic, horders⟩ := saveSnapshot_eq hrep
  have hload : Loadable e.shared.pool.capacity ([] ++ file.orders.map Order.toOrderData) := by
    rw [horders]
    exact hrep.loadable_saved
  obtain ⟨e₁, hrun, hbook, h₁⟩ :=
    load_spec (loaded_new hpos hle wal tradePool) file.orders hload 0 0
  rw [List.nil_append, horders] at h₁
  have hseq : (file.orders.map fun o => o.sequence).foldl max 0 =
      greatest OrderData.sequence e.saved := by
    rw [greatest, ← horders, List.map_map]
    rfl
  have hid : (file.orders.map fun o => o.orderId).foldl max 0 =
      greatest OrderData.orderId e.saved := by
    rw [greatest, ← horders, List.map_map]
    rfl
  rw [hseq, hid] at hrun
  have hcall : OrderBook.loadSnapshot {} (SharedStore.new e.shared.pool.capacity {}) file 0 0 =
      some ⟨e₁.books 0, e₁.shared, greatest OrderData.sequence e.saved,
        greatest OrderData.orderId e.saved⟩ := by
    rw [OrderBook.loadSnapshot, if_neg (not_not.mpr hmagic)]
    exact hrun
  refine ⟨file, _, _, by rw [saveSnapshot, hsave]; rfl, hcall, rfl, rfl,
    congrArg (Option.map _) hcall, ?_⟩
  obtain ⟨hbooks, hshared, -, -⟩ := finishLoad_spec
    { new e.shared.pool.capacity with wal := wal, tradePool := tradePool } ⟨e₁.books 0, e₁.shared,
      greatest OrderData.sequence e.saved, greatest OrderData.orderId e.saved⟩
  rw [hbook] at hbooks
  refine restored_of_loaded hsingle h₁ hbooks hshared fun x hx => ?_
  refine finishLoad_past Nat.one_pos Nat.one_pos (fun x hx => ?_) rfl rfl hx
  rcases List.mem_append.mp hx with hx | hx
  · exact hsingle.refs 0 true x hx
  · exact hsingle.refs 0 false x hx

/-- Two sides, and a maker that has been filled in part. -/
theorem loadSnapshot_saveSnapshot_two : ∃ e, (new 4).execAll
    [.add 0 9 .sell 101 5 7 .day, .add 0 3 .buy 99 6 8 .day, .add 0 4 .buy 101 2 8 .day] = some e ∧
      ∃ file l e', e.saveSnapshot = some file ∧
        OrderBook.loadSnapshot {} (SharedStore.new e.shared.pool.capacity {}) file 0 0 = some l ∧
        l.maxSeqOut = greatest OrderData.sequence e.saved ∧
        l.maxIdOut = greatest OrderData.orderId e.saved ∧
        ({ new e.shared.pool.capacity with wal := none, tradePool := none } :
          MatchingEngine).loadSnapshot file = some e' ∧ Restored e e' := by
  obtain ⟨e, hrun, he⟩ := singleReachable_execAll
    [.add 0 9 .sell 101 5 7 .day, .add 0 3 .buy 99 6 8 .day, .add 0 4 .buy 101 2 8 .day]
    (by decide +kernel) (by simp [Command.locate, Command.newRef])
  exact ⟨e, hrun, loadSnapshot_saveSnapshot he none none⟩

end Load

end NebulaX.Exchange
