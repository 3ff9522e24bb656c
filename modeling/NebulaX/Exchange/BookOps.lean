import NebulaX.Exchange.BookInv

/-!
# The book operations

`addOrder`, `reduceOrderQty`, `reduceQtyCancel`, the status writes and `removeOrder` each touch
one level of one book and one slot. Under `Rep` every one of them returns, keeps `Rep`, and does
to `resting` what its name says: one ordered insertion, a change of one entry, the deletion of one
entry. `setSide` is the change of one side.

## Main results

* `Relevels.rep`, `Relevels.resting` — what rewriting one level keeps, and what it changes
* `Rep.addOrder_spec`, `Rep.addOrder_full` — adding, and adding to a full pool
* `Rep.reduceOrderQty_spec`, `Rep.reduceQtyCancel_spec`, `Rep.setStatus_spec` — changing an order
* `Rep.removeOrder_spec` — removing
-/

namespace NebulaX.Exchange

open MatchingEngine

/-- Replace one side of one book. -/
def setSide (R : ℕ → Bool → List OrderData) (L : ℕ) (b : Bool) (xs : List OrderData) :
    ℕ → Bool → List OrderData :=
  fun L' b' => if L' = L ∧ b' = b then xs else R L' b'

section SetSide

variable (R : ℕ → Bool → List OrderData) (L : ℕ) (b : Bool) (xs : List OrderData)

@[simp] theorem setSide_self : setSide R L b xs L b = xs := if_pos ⟨rfl, rfl⟩

theorem setSide_of_ne {L' : ℕ} {b' : Bool} (h : ¬(L' = L ∧ b' = b)) :
    setSide R L b xs L' b' = R L' b' := if_neg h

@[simp] theorem setSide_setSide (ys : List OrderData) :
    setSide (setSide R L b xs) L b ys = setSide R L b ys := by
  funext L' b'
  by_cases h : L' = L ∧ b' = b <;> simp [setSide, h]

@[simp] theorem setSide_eq_self : setSide R L b (R L b) = R := by
  funext L' b'
  by_cases h : L' = L ∧ b' = b
  · rw [h.1, h.2, setSide_self]
  · exact setSide_of_ne R L b _ h

theorem mem_setSide {L' : ℕ} {b' : Bool} {o : OrderData} :
    o ∈ setSide R L b xs L' b' ↔
      (L' = L ∧ b' = b ∧ o ∈ xs) ∨ (¬(L' = L ∧ b' = b) ∧ o ∈ R L' b') := by
  by_cases h : L' = L ∧ b' = b
  · rw [h.1, h.2, setSide_self]
    simp
  · rw [setSide_of_ne R L b xs h]
    exact ⟨fun ho => Or.inr ⟨h, ho⟩,
      fun ho => ho.elim (fun ho => absurd ⟨ho.1, ho.2.1⟩ h) And.right⟩

end SetSide

namespace MatchingEngine

variable (e : MatchingEngine) (L : ℕ) (bk : OrderBook) (sh : Store)

@[simp] theorem books_withBook_self : (e.withBook L bk sh).books L = bk :=
  Function.update_self ..

theorem books_withBook_of_ne {L' : ℕ} (h : L' ≠ L) :
    (e.withBook L bk sh).books L' = e.books L' := Function.update_of_ne h ..

@[simp] theorem shared_withBook : (e.withBook L bk sh).shared = sh := rfl

end MatchingEngine

/-! ### Rewriting one level -/

namespace Layout

variable {G : Layout} {L L' : ℕ} {b b' : Bool} {p p' : UInt32} {ids : List ℕ} {i j : ℕ}

/-- A slot hangs on the level that was set, or on one that was not. -/
theorem mem_set : j ∈ G.set L b p ids L' b' p' ↔ (L' = L ∧ b' = b ∧ p' = p) ∧ j ∈ ids ∨
    ¬(L' = L ∧ b' = b ∧ p' = p) ∧ j ∈ G L' b' p' := by
  by_cases hc : L' = L ∧ b' = b ∧ p' = p
  · obtain ⟨rfl, rfl, rfl⟩ := hc
    simp
  · rw [set_of_ne hc]
    simp [hc]

@[simp] theorem set_eq_self : G.set L b p (G L b p) = G := by
  funext L' b' p'
  by_cases hc : L' = L ∧ b' = b ∧ p' = p
  · obtain ⟨rfl, rfl, rfl⟩ := hc
    exact set_self ..
  · exact set_of_ne hc

/-- A slot more on one level is a slot more in use. -/
theorem live_append : ((∃ L b p, j ∈ G L b p) ∨ j = i) ↔
    ∃ L' b' p', j ∈ G.set L b p (G L b p ++ [i]) L' b' p' := by
  constructor
  · rintro (⟨L', b', p', hj⟩ | rfl)
    · refine ⟨L', b', p', mem_set.mpr ?_⟩
      by_cases hc : L' = L ∧ b' = b ∧ p' = p
      · obtain ⟨rfl, rfl, rfl⟩ := hc
        exact Or.inl ⟨⟨rfl, rfl, rfl⟩, List.mem_append_left _ hj⟩
      · exact Or.inr ⟨hc, hj⟩
    · exact ⟨L, b, p, mem_set.mpr (Or.inl ⟨⟨rfl, rfl, rfl⟩, List.mem_append_right _
        (List.mem_singleton_self _)⟩)⟩
  · rintro ⟨L', b', p', hj⟩
    rcases mem_set.mp hj with ⟨-, hj⟩ | ⟨-, hj⟩
    · exact (List.mem_append.mp hj).imp (fun hj => ⟨L, b, p, hj⟩) List.mem_singleton.mp
    · exact Or.inl ⟨L', b', p', hj⟩

end Layout

/-- **One level is rewritten**: book `L` becomes `bk` and the store becomes `sh`, which hang
exactly the slots `ids` on the level of side `b` and price `p`, and differ nowhere else. -/
structure Relevels (e : MatchingEngine) (G : Layout) (L : ℕ) (b : Bool) (p : UInt32)
    (ids : List ℕ) (m : ℕ) (bk : OrderBook) (sh : Store) : Prop where
  /-- The level holds the slots. -/
  level : LevelRep sh.pool.storage (bk.level? b p) ids
  /-- They carry orders of its side -/
  side : ∀ j ∈ ids, (sh.pool.storage j).side = .ofBuy b
  /-- and its price, -/
  price : ∀ j ∈ ids, (sh.pool.storage j).price = p
  /-- earlier ones first, -/
  fifo : ids.Pairwise fun j k => (sh.pool.storage j).sequence < (sh.pool.storage k).sequence
  /-- with sequence numbers that have been issued. -/
  seq_lt : ∀ j ∈ ids, (sh.pool.storage j).sequence < m
  /-- They hang on no other level. -/
  own : ∀ j ∈ ids, ∀ L' b' p', j ∈ G L' b' p' → L' = L
  /-- The other side of the book is as it was, -/
  sides : ∀ b', b' ≠ b → bk.levels b' = (e.books L).levels b'
  /-- so are the other levels of this one, -/
  levels : ∀ p', p' ≠ p → bk.level? b p' = (e.books L).level? b p'
  /-- and the slots of every other level. -/
  elsewhere : ∀ L' b' p', ¬(L' = L ∧ b' = b ∧ p' = p) → ∀ j ∈ G L' b' p',
    sh.pool.storage j = e.shared.pool.storage j

namespace Relevels

variable {e : MatchingEngine} {n m : ℕ} {G : Layout} {fl fl' : List ℕ} {L : ℕ} {b : Bool}
  {p : UInt32} {ids : List ℕ} {bk : OrderBook} {sh : Store}

/-- The other sides of all books are as they were. -/
theorem levels_of_ne (hr : Relevels e G L b p ids m bk sh) {L' : ℕ} {b' : Bool}
    (hc : ¬(L' = L ∧ b' = b)) :
    ((e.withBook L bk sh).books L').levels b' = (e.books L').levels b' := by
  by_cases hL : L' = L
  · subst hL
    rw [books_withBook_self, hr.sides b' fun hb => hc ⟨rfl, hb⟩]
  · rw [books_withBook_of_ne _ _ _ _ hL]

/-- The other levels of all books are as they were. -/
theorem level?_of_ne (hr : Relevels e G L b p ids m bk sh) {L' : ℕ} {b' : Bool} {p' : UInt32}
    (hc : ¬(L' = L ∧ b' = b ∧ p' = p)) :
    ((e.withBook L bk sh).books L').level? b' p' = (e.books L').level? b' p' := by
  by_cases hLb : L' = L ∧ b' = b
  · obtain ⟨rfl, rfl⟩ := hLb
    rw [books_withBook_self, hr.levels p' fun hp => hc ⟨rfl, rfl, hp⟩]
  · rw [OrderBook.level?, hr.levels_of_ne hLb, OrderBook.level?]

/-- **The books stay well formed.** -/
theorem rep (hr : Relevels e G L b p ids m bk sh) (h : Rep e n G fl) (hn : n ≤ m)
    (hL : L < kMaxLocate)
    (hholds : sh.Holds (fun o => o.orderId) (fun j => ∃ L' b' p', j ∈ G.set L b p ids L' b' p')
      fl') : Rep (e.withBook L bk sh) m (G.set L b p ids) fl' where
  holds := hholds
  level := fun L' b' p' => by
    by_cases hc : L' = L ∧ b' = b ∧ p' = p
    · obtain ⟨rfl, rfl, rfl⟩ := hc
      rw [books_withBook_self, Layout.set_self]
      exact hr.level
    · rw [hr.level?_of_ne hc, Layout.set_of_ne hc]
      refine (h.level L' b' p').congr fun j hj => ?_
      rw [shared_withBook, hr.elsewhere L' b' p' hc j hj]
      exact ⟨rfl, rfl, rfl⟩
  side := fun L' b' p' j hj => by
    rcases Layout.mem_set.mp hj with ⟨⟨-, rfl, -⟩, hids⟩ | ⟨hc, hj⟩
    · exact hr.side j hids
    · rw [shared_withBook, hr.elsewhere L' b' p' hc j hj]
      exact h.side L' b' p' j hj
  price := fun L' b' p' j hj => by
    rcases Layout.mem_set.mp hj with ⟨⟨-, -, rfl⟩, hids⟩ | ⟨hc, hj⟩
    · exact hr.price j hids
    · rw [shared_withBook, hr.elsewhere L' b' p' hc j hj]
      exact h.price L' b' p' j hj
  fifo := fun L' b' p' => by
    by_cases hc : L' = L ∧ b' = b ∧ p' = p
    · obtain ⟨rfl, rfl, rfl⟩ := hc
      rw [Layout.set_self]
      exact hr.fifo
    · rw [Layout.set_of_ne hc]
      refine (h.fifo L' b' p').imp_of_mem fun {j k} hj hk hlt => ?_
      rwa [shared_withBook, hr.elsewhere L' b' p' hc j hj, hr.elsewhere L' b' p' hc k hk]
  seq_lt := fun L' b' p' j hj => by
    rcases Layout.mem_set.mp hj with ⟨-, hids⟩ | ⟨hc, hj⟩
    · exact hr.seq_lt j hids
    · rw [shared_withBook, hr.elsewhere L' b' p' hc j hj]
      exact Nat.lt_of_lt_of_le (h.seq_lt L' b' p' j hj) hn
  range := fun L' b' p' j hj => by
    rcases Layout.mem_set.mp hj with ⟨⟨rfl, -, -⟩, -⟩ | ⟨-, hj⟩
    · exact hL
    · exact h.range L' b' p' j hj
  locate := fun j L₁ b₁ p₁ L₂ b₂ p₂ h₁ h₂ => by
    rcases Layout.mem_set.mp h₁ with ⟨hc₁, hids₁⟩ | ⟨-, h₁⟩ <;>
      rcases Layout.mem_set.mp h₂ with ⟨hc₂, hids₂⟩ | ⟨-, h₂⟩
    · exact hc₁.1.trans hc₂.1.symm
    · exact hc₁.1.trans (hr.own j hids₁ _ _ _ h₂).symm
    · exact (hr.own j hids₂ _ _ _ h₁).trans hc₂.1.symm
    · exact h.locate j _ _ _ _ _ _ h₁ h₂

/-- **What rests** changes on one side of one book only. -/
theorem resting (hr : Relevels e G L b p ids m bk sh) (h : Rep e n G fl)
    (hrep : Rep (e.withBook L bk sh) m (G.set L b p ids) fl') {xs : List OrderData}
    (hxs : (slots (e.withBook L bk sh) (G.set L b p ids) L b).map
      (fun j => (sh.pool.storage j).toOrderData) = xs) :
    (e.withBook L bk sh).resting = setSide e.resting L b xs := by
  funext L' b'
  rw [hrep.resting_eq, shared_withBook]
  by_cases hc : L' = L ∧ b' = b
  · obtain ⟨rfl, rfl⟩ := hc
    rw [setSide_self, hxs]
  · have hne : ∀ q, ¬(L' = L ∧ b' = b ∧ q = p) := fun q hc' => hc ⟨hc'.1, hc'.2.1⟩
    have hG : G.set L b p ids L' b' = G L' b' := funext fun q => Layout.set_of_ne (hne q)
    rw [setSide_of_ne _ _ _ _ hc, h.resting_eq, slots, slots, hG,
      hr.levels_of_ne hc]
    refine List.map_congr_left fun j hj => ?_
    obtain ⟨q, -, hj⟩ := SortedMap.mem_grouped.mp hj
    rw [hr.elsewhere L' b' q (hne q) j hj]

end Relevels

namespace Rep

variable {e : MatchingEngine} {n : ℕ} {G : Layout} {fl : List ℕ} {L : ℕ} {b : Bool} {p : UInt32}
  {i : ℕ}

/-- References not resting anywhere are carried by no slot in use. -/
theorem ref_fresh (h : Rep e n G fl) {ref : ℕ}
    (hnew : ∀ L b, ∀ x ∈ e.resting L b, x.orderId ≠ ref) :
    ∀ j, (∃ L b p, j ∈ G L b p) → (e.shared.pool.storage j).orderId ≠ ref := by
  rintro j ⟨L, b, p, hj⟩
  exact hnew L b _ (h.resting_mem hj)

/-! ### Adding -/

/-- With a full pool, `addOrder` refuses and changes nothing. -/
theorem addOrder_full (h : Rep e n G []) (L : ℕ) (o : OrderData) :
    e.addOrder L o = some (false, e.withBook L (e.books L) e.shared) := by
  rw [MatchingEngine.addOrder, OrderBook.addOrder]
  split
  · rfl
  · rw [h.holds.free.allocate_nil]
    rfl

/-- So it does for an order without a side. -/
theorem addOrder_invalid {o : OrderData} {next : ℕ} (ho : o.side = .invalid) :
    e.addOrder L o next = some (false, e.withBook L (e.books L) e.shared) := by
  rw [MatchingEngine.addOrder, OrderBook.addOrder, if_pos ho]
  rfl

/-- What `pushBack` does to a level and to the slots: the order sits in slot `i`, behind the old
tail, whose forward link is the only other thing that changed. -/
theorem pushBack_spec {pool : OrderPool Order} {lv : Option PriceLevel} {ids : List ℕ}
    (hl : LevelRep pool.storage lv ids) (hnd : ids.Nodup) (hi : i ∉ ids)
    (hlen : ids.length < 2 ^ 32 - 1) (o : OrderData) :
    ∃ level pool', OrderBook.pushBack (lv.getD {}) pool i o = (level, pool') ∧
      LevelOf pool'.storage { level with
        count := level.count + 1, totalQty := level.totalQty + o.remainingQty } (ids ++ [i]) ∧
      (∀ fl, pool.Free fl → pool'.Free fl) ∧ pool'.capacity = pool.capacity ∧
      (pool'.storage i).toOrderData = o ∧
      (∀ j, j ≠ i → (pool'.storage j).toOrderData = (pool.storage j).toOrderData) ∧
      ∀ j, j ≠ i → j ∉ ids → pool'.storage j = pool.storage j := by
  cases lv with
  | none =>
    have hids : ids = [] := hl
    subst hids
    refine ⟨_, _, by rw [OrderBook.pushBack, if_pos (by rfl)], ?_, fun fl hfl => hfl.modify i _,
      rfl, by simp [OrderPool.modify], fun j hj => by simp [OrderPool.modify, hj],
      fun j hj _ => by simp [OrderPool.modify, hj]⟩
    refine ⟨by simp, ?_, rfl, ?_⟩
    · simp [OrderPool.modify]
    · have := o.remainingQty.toNat_lt
      simp [OrderPool.modify]
  | some l =>
    have hl : LevelOf pool.storage l ids := hl
    have htail : l.tailIdx ∈ ids := by
      rcases hl.seg.last_mem with ⟨hnil, -⟩ | hm
      · exact absurd hnil hl.ne_nil
      · exact hm
    have htne : l.tailIdx ≠ i := fun he => hi (he ▸ htail)
    have hcount : ¬ l.count = 0 := by
      intro h0
      have hc := hl.count
      rw [h0] at hc
      exact hl.ne_nil (List.length_eq_zero_iff.mp hc.symm)
    have hst : ∀ j, ((pool.modify i fun _ => { toOrderData := o, prevIdx := l.tailIdx }).modify
        l.tailIdx fun x => { x with nextIdx := i }).storage j =
          if j = l.tailIdx then { pool.storage j with nextIdx := i }
          else if j = i then { toOrderData := o, prevIdx := l.tailIdx } else pool.storage j := by
      intro j
      by_cases hj : j = l.tailIdx
      · subst hj
        simp [OrderPool.modify, htne]
      · by_cases hji : j = i
        · subst hji
          simp [OrderPool.modify, hj]
        · simp [OrderPool.modify, hj, hji]
    refine ⟨_, _, by rw [Option.getD_some, OrderBook.pushBack, if_neg hcount], ?_,
      fun fl hfl => (hfl.modify i _).modify _ _, rfl, by rw [hst, if_neg htne.symm, if_pos rfl],
      fun j hj => ?_, fun j hj hjids => ?_⟩
    · have hrem : ∀ j ∈ ids, (if j = l.tailIdx then { pool.storage j with nextIdx := i }
          else if j = i then { toOrderData := o, prevIdx := l.tailIdx } else pool.storage j :
            Order).remainingQty = (pool.storage j).remainingQty := fun j hj => by
        rw [if_neg (ne_of_mem_of_not_mem hj hi)]
        split <;> rfl
      refine ⟨by simp, ?_, ?_, ?_⟩
      · refine hl.seg.pushBack hl.ne_nil hnd (fun j hj => ?_) ?_ (fun j hj => ?_) ?_
        · simp only [hst, if_neg (ne_of_mem_of_not_mem hj hi)]
          split <;> rfl
        · simp only [hst, if_neg htne.symm, if_true]
        · simp only [hst, if_neg (ne_of_mem_of_not_mem hj hi)]
          split <;> rfl
        · simp only [hst, if_neg htne.symm, if_true]
      · rw [UInt32.toNat_add, hl.count, List.length_append]
        simp only [UInt32.toNat_one, List.length_cons, List.length_nil]
        omega
      · rw [UInt32.toNat_add, hl.total, List.map_append, List.sum_append, List.map_cons,
          List.map_nil, List.sum_singleton, hst, if_neg htne.symm, if_pos rfl]
        have hsum : ids.map (fun j => ((if j = l.tailIdx then { pool.storage j with nextIdx := i }
            else if j = i then { toOrderData := o, prevIdx := l.tailIdx } else pool.storage j :
              Order).remainingQty).toNat) = ids.map fun j => (pool.storage j).remainingQty.toNat :=
          List.map_congr_left fun j hj => by rw [hrem j hj]
        simp only [hst, hsum]
        omega
    · rw [hst, if_neg hj]
      split <;> rfl
    · rw [hst, if_neg (ne_of_mem_of_not_mem htail hjids).symm, if_neg hj]

/-- The slot that is taken next hangs nowhere. -/
theorem not_hanging (h : Rep e n G (i :: fl)) (L : ℕ) (b : Bool) (p : UInt32) : i ∉ G L b p :=
  fun hm => h.holds.not_mem_free (live hm) List.mem_cons_self

/-- While there is room, a level can count one more. -/
theorem length_lt (h : Rep e n G (i :: fl)) (L : ℕ) (b : Bool) (p : UInt32) :
    (G L b p).length < 2 ^ 32 - 1 := by
  have hnd : (i :: G L b p).Nodup := List.nodup_cons.mpr ⟨h.not_hanging L b p, h.nodup L b p⟩
  have hle := LinkedList.length_le_of_nodup hnd (n := e.shared.pool.capacity) fun j hj => by
    rcases List.mem_cons.mp hj with rfl | hj
    · exact h.holds.free.lt j List.mem_cons_self
    · exact h.holds.lt j (live hj)
  have hmax := h.holds.free.capacity_le
  simp only [uint32Max, List.length_cons] at hle hmax
  omega

section Append

variable {o : OrderData} {level : PriceLevel} {sh : Store}

/-- **An order behind a level** rewrites the level. -/
theorem relevels_append (h : Rep e n G (i :: fl)) (hb : o.side = .ofBuy b)
    (hlater : ∀ j ∈ G L b o.price, (e.shared.pool.storage j).sequence < o.sequence)
    (hlevel : LevelOf sh.pool.storage level (G L b o.price ++ [i]))
    (hi : (sh.pool.storage i).toOrderData = o)
    (hdata : ∀ L b p, ∀ j ∈ G L b p, (sh.pool.storage j).toOrderData =
      (e.shared.pool.storage j).toOrderData)
    (hrest : ∀ j, j ≠ i → j ∉ G L b o.price → sh.pool.storage j = e.shared.pool.storage j) :
    Relevels e G L b o.price (G L b o.price ++ [i]) (max n (o.sequence + 1))
      ((e.books L).setLevel b o.price level) sh where
  level := by
    rw [OrderBook.level?_setLevel, if_pos ⟨rfl, rfl⟩]
    exact hlevel
  side := List.forall_mem_append.mpr ⟨fun j hj => (congrArg OrderData.side
      (hdata _ _ _ j hj)).trans (h.side L b o.price j hj),
    List.forall_mem_singleton.mpr ((congrArg OrderData.side hi).trans hb)⟩
  price := List.forall_mem_append.mpr ⟨fun j hj => (congrArg OrderData.price
      (hdata _ _ _ j hj)).trans (h.price L b o.price j hj),
    List.forall_mem_singleton.mpr (congrArg OrderData.price hi)⟩
  fifo := by
    refine List.pairwise_append.mpr ⟨?_, List.pairwise_singleton _ _, fun j hj k hk => ?_⟩
    · refine (h.fifo L b o.price).imp_of_mem fun {j k} hj hk hlt => ?_
      rwa [hdata _ _ _ j hj, hdata _ _ _ k hk]
    · obtain rfl := List.mem_singleton.mp hk
      rw [hdata _ _ _ j hj, hi]
      exact hlater j hj
  seq_lt := by
    refine List.forall_mem_append.mpr ⟨fun j hj => ?_, List.forall_mem_singleton.mpr ?_⟩
    · rw [hdata _ _ _ j hj]
      exact Nat.lt_of_lt_of_le (h.seq_lt L b o.price j hj) (Nat.le_max_left _ _)
    · rw [hi]
      exact Nat.lt_of_lt_of_le (Nat.lt_succ_self _) (Nat.le_max_right _ _)
  own := List.forall_mem_append.mpr ⟨fun _ hj _ _ _ hj' => (h.unique hj hj').1,
    List.forall_mem_singleton.mpr fun L' b' p' hi' => absurd hi' (h.not_hanging L' b' p')⟩
  sides := fun _ hb' => OrderBook.levels_setLevel_of_ne _ _ _ hb'
  levels := fun p' hp' => by rw [OrderBook.level?_setLevel, if_neg fun hc => hp' hc.2]
  elsewhere := fun L' b' p' hc j hj =>
    hrest j (ne_of_mem_of_not_mem hj (h.not_hanging L' b' p')) fun hj' => hc (h.unique hj' hj)

/-- **The side** has the order behind everything at its price or better. -/
theorem resting_append (h : Rep e n G (i :: fl)) (hi : (sh.pool.storage i).toOrderData = o)
    (hdata : ∀ L b p, ∀ j ∈ G L b p, (sh.pool.storage j).toOrderData =
      (e.shared.pool.storage j).toOrderData) :
    (slots (e.withBook L ((e.books L).setLevel b o.price level) sh)
        (G.set L b o.price (G L b o.price ++ [i])) L b).map
      (fun j => (sh.pool.storage j).toOrderData) =
        SortedMap.insertBefore (fun x => decide (better b o.price x.price)) o (e.resting L b) := by
  have hold : e.resting L b = (slots e G L b).map fun j => (sh.pool.storage j).toOrderData := by
    rw [h.resting_eq]
    refine List.map_congr_left fun j hj => ?_
    obtain ⟨q, hj⟩ := h.mem_slots.mp hj
    exact (hdata L b q j hj).symm
  rw [hold, slots, slots, books_withBook_self, OrderBook.levels_setLevel_self,
    SortedMap.grouped_set (a := i) (fun j => (e.shared.pool.storage j).price)
      (fun q j hj => h.price L b q j hj) (Layout.set_self ..)
      (fun q hq => Layout.set_of_ne fun hc => hq hc.2.2)
      fun hq => h.eq_nil_of_level?_eq_none (SortedMap.get?_eq_none.mpr hq), ← hi]
  refine SortedMap.map_insertBefore _ fun j hj => ?_
  obtain ⟨q, hj⟩ := h.mem_slots.mp hj
  show decide (better b (sh.pool.storage i).price (sh.pool.storage j).price) = _
  rw [hdata L b q j hj, hi]

end Append

/-- **Adding an order** with a side to a pool that has room: it enters its side behind
everything at its price or better, in the first free slot. It must be later than what is at its
price. -/
theorem addOrder_later (h : Rep e n G (i :: fl)) (hL : L < kMaxLocate) {o : OrderData}
    (hside : o.side ≠ .invalid)
    (hlater : ∀ j ∈ G L o.side.isBuy o.price, (e.shared.pool.storage j).sequence < o.sequence)
    (hnew : ∀ L b, ∀ x ∈ e.resting L b, x.orderId ≠ o.orderId) :
    ∃ e', e.addOrder L o = some (true, e') ∧
      Rep e' (max n (o.sequence + 1))
        (G.set L o.side.isBuy o.price (G L o.side.isBuy o.price ++ [i])) fl ∧
      e'.resting = setSide e.resting L o.side.isBuy
        (SortedMap.insertBefore (fun x => decide (better o.side.isBuy o.price x.price)) o
          (e.resting L o.side.isBuy)) ∧
      (e'.shared.insertDropped = false → e.shared.insertDropped = false) ∧
      SharedStore.Linked o.orderId e.shared e'.shared ∧
      e'.nextSequence = e.nextSequence ∧ e'.shared.pool.capacity = e.shared.pool.capacity := by
  obtain ⟨taken, pool, halloc, hset, hfree, hst, hcap⟩ :=
    h.holds.free.allocate_assigned uint32Max
  generalize hb : o.side.isBuy = b at hlater ⊢
  have hsideb : o.side = .ofBuy b := hb ▸ (Side.ofBuy_isBuy hside).symm
  have hlv : LevelRep pool.storage ((e.books L).level? b o.price) (G L b o.price) := by
    rw [hst]
    exact h.level L b o.price
  obtain ⟨level, pool', hpush, hlevel, hpfree, hpcap, hpi, hpdata, hprest⟩ :=
    pushBack_spec hlv (h.nodup L b o.price) (h.not_hanging L b o.price) (h.length_lt L b o.price) o
  rw [hst] at hpdata hprest
  have hdata : ∀ L b p, ∀ j ∈ G L b p, (pool'.storage j).toOrderData =
      (e.shared.pool.storage j).toOrderData := fun L b p j hj =>
    hpdata j (ne_of_mem_of_not_mem hj (h.not_hanging L b p))
  obtain ⟨sh', hlink, rfl, hdrop, hlinked, hholds⟩ := h.holds.link
    (hpfree _ hfree) (hpcap.trans hcap)
    (fun j ⟨L, b, p, hj⟩ => congrArg OrderData.orderId (hdata L b p j hj))
    (congrArg OrderData.orderId hpi) (h.ref_fresh hnew)
  have hr := h.relevels_append hsideb hlater hlevel hpi hdata hprest
  have hrep := hr.rep h (Nat.le_max_left ..) hL (hholds.congr fun _ => Layout.live_append)
  refine ⟨_, ?_, hrep, hr.resting h hrep (h.resting_append hpi hdata), hdrop, hlinked, rfl,
    hpcap.trans hcap⟩
  rw [MatchingEngine.addOrder, OrderBook.addOrder, if_neg hside, halloc]
  simp only [hb, hset]
  rw [hpush]
  simp only [hlink]
  rfl

/-- Adding an order that is later than everything. -/
theorem addOrder_spec (h : Rep e n G (i :: fl)) (hL : L < kMaxLocate) {o : OrderData}
    (hside : o.side ≠ .invalid) (hseq : n ≤ o.sequence)
    (hnew : ∀ L b, ∀ x ∈ e.resting L b, x.orderId ≠ o.orderId) :
    ∃ e', e.addOrder L o = some (true, e') ∧
      Rep e' (o.sequence + 1)
        (G.set L o.side.isBuy o.price (G L o.side.isBuy o.price ++ [i])) fl ∧
      e'.resting = setSide e.resting L o.side.isBuy
        (SortedMap.insertBefore (fun x => decide (better o.side.isBuy o.price x.price)) o
          (e.resting L o.side.isBuy)) ∧
      (e'.shared.insertDropped = false → e.shared.insertDropped = false) ∧
      SharedStore.Linked o.orderId e.shared e'.shared ∧
      e'.nextSequence = e.nextSequence ∧ e'.shared.pool.capacity = e.shared.pool.capacity := by
  obtain ⟨e', hadd, hrep, hrest⟩ := h.addOrder_later hL hside
    (fun j hj => Nat.lt_of_lt_of_le (h.seq_lt _ _ _ j hj) hseq) hnew
  rw [Nat.max_eq_right (Nat.le_succ_of_le hseq)] at hrep
  exact ⟨e', hadd, hrep, hrest⟩

/-! ### Changing an order where it rests -/

/-- A sum changes by the one summand that changed. -/
theorem sum_map_of_mem {ids : List ℕ} (hnd : ids.Nodup) (hi : i ∈ ids) (w w' : ℕ → ℕ)
    (hw : ∀ j, j ≠ i → w' j = w j) : (ids.map w').sum + w i = (ids.map w).sum + w' i := by
  induction ids with
  | nil => exact absurd hi List.not_mem_nil
  | cons x xs ih =>
    obtain ⟨hx, hnd⟩ := List.nodup_cons.mp hnd
    rw [List.map_cons, List.map_cons, List.sum_cons, List.sum_cons]
    rcases List.mem_cons.mp hi with rfl | hi
    · have hrest : xs.map w' = xs.map w :=
        List.map_congr_left fun j hj => hw j (ne_of_mem_of_not_mem hj hx)
      rw [hrest]
      omega
    · have := ih hnd hi
      rw [hw x (ne_of_mem_of_not_mem hi hx).symm]
      omega

section Modify

variable {l : PriceLevel} {g : OrderData → OrderData} {sh : Store} {t : UInt32}

/-- **The data of one slot rewritten**, with the total of its level adjusted by what remains,
rewrites the level. `g` is what happens to the data; side, price and sequence must stay. -/
theorem relevels_modify (h : Rep e n G fl) (hi : i ∈ G L b p)
    (hl : LevelOf e.shared.pool.storage l (G L b p))
    (hg : ∀ o, (g o).orderId = o.orderId ∧ (g o).side = o.side ∧ (g o).price = o.price ∧
      (g o).sequence = o.sequence)
    (ht : (t.toNat + (e.shared.pool.storage i).remainingQty.toNat) % 2 ^ 32 =
      (l.totalQty.toNat + (g (e.shared.pool.storage i).toOrderData).remainingQty.toNat) % 2 ^ 32)
    (hself : sh.pool.storage i =
      { e.shared.pool.storage i with toOrderData := g (e.shared.pool.storage i).toOrderData })
    (hother : ∀ j, j ≠ i → sh.pool.storage j = e.shared.pool.storage j) :
    Relevels e G L b p (G L b p) n ((e.books L).setLevel b p { l with totalQty := t }) sh := by
  -- the links and the fields `g` must keep, for every slot
  have hkeep : ∀ j, (sh.pool.storage j).prevIdx = (e.shared.pool.storage j).prevIdx ∧
      (sh.pool.storage j).nextIdx = (e.shared.pool.storage j).nextIdx ∧
      (sh.pool.storage j).side = (e.shared.pool.storage j).side ∧
      (sh.pool.storage j).price = (e.shared.pool.storage j).price ∧
      (sh.pool.storage j).sequence = (e.shared.pool.storage j).sequence := fun j => by
    by_cases hj : j = i
    · subst hj
      rw [hself]
      exact ⟨rfl, rfl, (hg _).2⟩
    · rw [hother j hj]
      exact ⟨rfl, rfl, rfl, rfl, rfl⟩
  exact {
    level := by
      rw [OrderBook.level?_setLevel, if_pos ⟨rfl, rfl⟩]
      refine ⟨hl.ne_nil, hl.seg.congr (fun j _ => (hkeep j).1) fun j _ => (hkeep j).2.1,
        hl.count, ?_⟩
      have hsum := sum_map_of_mem (h.nodup L b p) hi
        (fun j => (e.shared.pool.storage j).remainingQty.toNat)
        (fun j => (sh.pool.storage j).remainingQty.toNat) fun j hj => by rw [hother j hj]
      have htot := hl.total
      have hself' : (sh.pool.storage i).remainingQty =
          (g (e.shared.pool.storage i).toOrderData).remainingQty := by rw [hself]
      simp only [hself'] at hsum
      have hlt := t.toNat_lt
      show t.toNat = _
      omega
    side := fun j hj => (hkeep j).2.2.1.trans (h.side L b p j hj)
    price := fun j hj => (hkeep j).2.2.2.1.trans (h.price L b p j hj)
    fifo := (h.fifo L b p).imp fun {j k} hlt => by
      rwa [(hkeep j).2.2.2.2, (hkeep k).2.2.2.2]
    seq_lt := fun j hj => (hkeep j).2.2.2.2.symm ▸ h.seq_lt L b p j hj
    own := fun _ hj _ _ _ hj' => (h.unique hj hj').1
    sides := fun _ hb' => OrderBook.levels_setLevel_of_ne _ _ _ hb'
    levels := fun p' hp' => by rw [OrderBook.level?_setLevel, if_neg fun hc => hp' hc.2]
    elsewhere := fun _ _ _ hc j hj => hother j fun hji => hc (h.unique hi (hji ▸ hj)) }

/-- **The side** has the order rewritten where it rests. -/
theorem resting_modify (h : Rep e n G fl) (hi : i ∈ G L b p)
    (hl : (e.books L).level? b p = some l)
    (hself : sh.pool.storage i =
      { e.shared.pool.storage i with toOrderData := g (e.shared.pool.storage i).toOrderData })
    (hother : ∀ j, j ≠ i → sh.pool.storage j = e.shared.pool.storage j) :
    (slots (e.withBook L ((e.books L).setLevel b p { l with totalQty := t }) sh)
        (G.set L b p (G L b p)) L b).map (fun j => (sh.pool.storage j).toOrderData) =
      (e.resting L b).map fun x =>
        if x.orderId = (e.shared.pool.storage i).orderId then g x else x := by
  rw [Layout.set_eq_self, slots, books_withBook_self, OrderBook.levels_setLevel_self,
    SortedMap.grouped_set_of_mem _ _ (SortedMap.mem_keys_of_get? hl), h.resting_eq, List.map_map]
  refine List.map_congr_left fun j hj => ?_
  obtain ⟨q, hj⟩ := h.mem_slots.mp hj
  rw [Function.comp_apply]
  by_cases hji : j = i
  · subst hji
    rw [if_pos rfl, hself]
  · rw [if_neg fun hid => hji (h.slot_inj hj hi hid), hother j hji]

/-- **Rewriting the data of one slot** is rewriting one order where it rests. -/
theorem modifySlot (h : Rep e n G fl) (hi : i ∈ G L b p)
    (hl : (e.books L).level? b p = some l)
    (hg : ∀ o, (g o).orderId = o.orderId ∧ (g o).side = o.side ∧ (g o).price = o.price ∧
      (g o).sequence = o.sequence)
    (ht : (t.toNat + (e.shared.pool.storage i).remainingQty.toNat) % 2 ^ 32 =
      (l.totalQty.toNat + (g (e.shared.pool.storage i).toOrderData).remainingQty.toNat) % 2 ^ 32)
    {e' : MatchingEngine}
    (he' : e' = e.withBook L ((e.books L).setLevel b p { l with totalQty := t })
      { e.shared with pool := e.shared.pool.modify i fun o =>
          { o with toOrderData := g o.toOrderData } }) :
    Rep e' n G fl ∧ e'.resting = setSide e.resting L b ((e.resting L b).map fun x =>
      if x.orderId = (e.shared.pool.storage i).orderId then g x else x) := by
  generalize hsh : ({ e.shared with pool := e.shared.pool.modify i fun o =>
    { o with toOrderData := g o.toOrderData } } : Store) = sh at he'
  have hself : sh.pool.storage i =
      { e.shared.pool.storage i with toOrderData := g (e.shared.pool.storage i).toOrderData } := by
    rw [← hsh]
    exact Function.update_self ..
  have hother : ∀ j, j ≠ i → sh.pool.storage j = e.shared.pool.storage j := fun j hj => by
    rw [← hsh]
    exact Function.update_of_ne hj ..
  have hlev := h.level L b p
  rw [hl] at hlev
  have hholds : sh.Holds (fun o => o.orderId) (fun j => ∃ L b p, j ∈ G L b p) fl := by
    rw [← hsh]
    refine h.holds.modify (h.holds.free.modify i _) rfl fun j _ => ?_
    by_cases hj : j = i
    · subst hj
      exact (congrArg (fun o : Order => o.orderId) (Function.update_self ..)).trans (hg _).1
    · exact congrArg (fun o : Order => o.orderId) (Function.update_of_ne hj ..)
  have hr := h.relevels_modify hi hlev hg ht hself hother
  have hrep := hr.rep h le_rfl (h.range L b p i hi) (by rwa [Layout.set_eq_self])
  rw [he']
  refine ⟨?_, hr.resting h hrep (h.resting_modify hi hl hself hother)⟩
  rwa [Layout.set_eq_self] at hrep

end Modify

/-- `decTotal` on a level that exists. -/
theorem decTotal_eq {bk : OrderBook} {l : PriceLevel} (hl : bk.level? b p = some l)
    (amount : UInt32) :
    bk.decTotal b p amount = bk.setLevel b p { l with totalQty := l.totalQty - amount } := by
  rw [OrderBook.decTotal, hl]
  rfl

/-- Writing a level that is there changes nothing. -/
theorem setLevel_eq_self {bk : OrderBook} {l : PriceLevel} (hl : bk.level? b p = some l) :
    bk.setLevel b p l = bk := by
  cases b with
  | true => exact congrArg (fun m => { bk with bids := m }) (SortedMap.set_eq_self hl)
  | false => exact congrArg (fun m => { bk with asks := m }) (SortedMap.set_eq_self hl)

/-- The reference, side and price of a slot in use, in the words the operations use them. -/
theorem side_isBuy (h : Rep e n G fl) (hi : i ∈ G L b p) :
    (e.shared.pool.storage i).side.isBuy = b := by
  rw [h.side L b p i hi, Side.isBuy_ofBuy]

end Rep

/-- What `reduceOrderQty` does to an order: it trades `q`. -/
def OrderData.trade (q : UInt32) (o : OrderData) : OrderData :=
  { o with remainingQty := o.remainingQty - q, filledQty := o.filledQty + q }

/-- What `reduceQtyCancel` does to an order: `q` of it is cancelled. -/
def OrderData.reduce (q : UInt32) (o : OrderData) : OrderData :=
  { o with remainingQty := o.remainingQty - q }

namespace Rep

variable {e : MatchingEngine} {n : ℕ} {G : Layout} {fl : List ℕ} {L : ℕ} {b : Bool} {p : UInt32}
  {i : ℕ}

/-- **A trade** changes the order where it rests and the total of its level. -/
theorem reduceOrderQty_spec (h : Rep e n G fl) (hi : i ∈ G L b p) (q : UInt32) :
    Rep (e.reduceOrderQty L i q) n G fl ∧
      (e.reduceOrderQty L i q).resting = setSide e.resting L b ((e.resting L b).map fun x =>
        if x.orderId = (e.shared.pool.storage i).orderId then x.trade q else x) ∧
      ((e.reduceOrderQty L i q).shared.pool.storage i).toOrderData =
        (e.shared.pool.storage i).toOrderData.trade q := by
  obtain ⟨l, hl, -⟩ := h.levelOf hi
  have hp := h.price L b p i hi
  have hdef : e.reduceOrderQty L i q = e.withBook L
      ((e.books L).setLevel b p { l with totalQty := l.totalQty - q })
      { e.shared with pool := e.shared.pool.modify i fun o =>
          { o with toOrderData := o.toOrderData.trade q } } := by
    rw [MatchingEngine.reduceOrderQty, OrderBook.reduceOrderQty, h.side_isBuy hi, hp,
      decTotal_eq hl]
    rfl
  have hmod := h.modifySlot hi hl (g := OrderData.trade q) (fun _ => ⟨rfl, rfl, rfl, rfl⟩)
    (by
      simp only [OrderData.trade, UInt32.toNat_sub]
      omega) hdef
  exact ⟨hmod.1, hmod.2, by rw [hdef, shared_withBook]; simp [OrderPool.modify]⟩

/-- **A partial cancel** changes what remains of the order and the total of its level. -/
theorem reduceQtyCancel_spec (h : Rep e n G fl) (hi : i ∈ G L b p) (q : UInt32) :
    Rep (e.reduceQtyCancel L i q) n G fl ∧
      (e.reduceQtyCancel L i q).resting = setSide e.resting L b ((e.resting L b).map fun x =>
        if x.orderId = (e.shared.pool.storage i).orderId then x.reduce q else x) := by
  obtain ⟨l, hl, -⟩ := h.levelOf hi
  have hp := h.price L b p i hi
  have hdef : e.reduceQtyCancel L i q = e.withBook L
      ((e.books L).setLevel b p { l with totalQty := l.totalQty - q })
      { e.shared with pool := e.shared.pool.modify i fun o =>
          { o with toOrderData := o.toOrderData.reduce q } } := by
    rw [MatchingEngine.reduceQtyCancel, OrderBook.reduceQtyCancel, h.side_isBuy hi, hp,
      decTotal_eq hl]
    rfl
  exact h.modifySlot hi hl (g := OrderData.reduce q) (fun _ => ⟨rfl, rfl, rfl, rfl⟩)
    (by
      simp only [OrderData.reduce, UInt32.toNat_sub]
      omega) hdef

/-- **A status write** changes nothing else. -/
theorem setStatus_spec (h : Rep e n G fl) (hi : i ∈ G L b p) (s : OrderStatus) :
    Rep (e.setStatus i s) n G fl ∧
      (e.setStatus i s).resting = setSide e.resting L b ((e.resting L b).map fun x =>
        if x.orderId = (e.shared.pool.storage i).orderId then { x with status := s } else x) := by
  obtain ⟨l, hl, -⟩ := h.levelOf hi
  refine h.modifySlot hi hl (g := fun x => { x with status := s }) (t := l.totalQty)
    (fun _ => ⟨rfl, rfl, rfl, rfl⟩) rfl ?_
  rw [setLevel_eq_self hl, MatchingEngine.withBook, Function.update_eq_self]
  rfl

/-! ### Removing -/

/-- The neighbours of a slot on its level are other slots of the level, or none. -/
theorem neighbours (h : Rep e n G fl) (hi : i ∈ G L b p) :
    ((e.shared.pool.storage i).prevIdx ≠ i ∧ (e.shared.pool.storage i).nextIdx ≠ i) ∧
      ∀ j, (j = (e.shared.pool.storage i).prevIdx ∨ j = (e.shared.pool.storage i).nextIdx) →
        j ≠ uint32Max → j ∈ G L b p := by
  obtain ⟨l, -, hl⟩ := h.levelOf hi
  have hseg := hl.seg
  have hnd := h.nodup L b p
  have hine := h.holds.ne_uint32Max (live hi)
  obtain ⟨as, bs, hG⟩ := List.append_of_mem hi
  rw [hG] at hseg hnd ⊢
  obtain ⟨hndA, hndB, hdisj⟩ := List.nodup_append'.mp hnd
  obtain ⟨m, q, has, rfl, hpq, hbs⟩ := LinkedList.dseg_append.mp hseg
  have hpq : (e.shared.pool.storage m).prevIdx = q := hpq
  have hprev : q = uint32Max ∨ q ∈ as := has.last_mem.imp And.right id
  have hnext : (e.shared.pool.storage m).nextIdx = uint32Max ∨
      (e.shared.pool.storage m).nextIdx ∈ bs := hbs.head_mem.imp And.right id
  rw [hpq]
  refine ⟨⟨?_, ?_⟩, ?_⟩
  · rintro rfl
    rcases hprev with he | he
    · exact hine he
    · exact hdisj he List.mem_cons_self
  · intro he
    rw [he] at hnext
    rcases hnext with he | he
    · exact hine he
    · exact (List.nodup_cons.mp hndB).1 he
  · rintro j (rfl | rfl) hj
    · exact List.mem_append_left _ (hprev.resolve_left hj)
    · exact List.mem_append_right _ (List.mem_cons_of_mem _ (hnext.resolve_left hj))

/-- A write to a slot, if there is one. -/
theorem modify_unless_nil (pool : OrderPool Order) (k : ℕ) (f : Order → Order) :
    (∀ fl, pool.Free fl → (if k ≠ uint32Max then pool.modify k f else pool).Free fl) ∧
      (if k ≠ uint32Max then pool.modify k f else pool).capacity = pool.capacity ∧
      ∀ j, j ≠ uint32Max → (if k ≠ uint32Max then pool.modify k f else pool).storage j =
        if j = k then f (pool.storage j) else pool.storage j := by
  split
  · refine ⟨fun _ hfl => hfl.modify _ _, rfl, fun j _ => ?_⟩
    by_cases hj : j = k
    · subst hj
      simp [OrderPool.modify]
    · simp [OrderPool.modify, hj]
  · next hk =>
    refine ⟨fun _ hfl => hfl, rfl, fun j hj => ?_⟩
    rw [if_neg fun he => hj (he.trans (not_not.mp hk))]

theorem setNextIdx_spec (pool : OrderPool Order) (k v : ℕ) :
    (∀ fl, pool.Free fl → (OrderBook.setNextIdx pool k v).Free fl) ∧
      (OrderBook.setNextIdx pool k v).capacity = pool.capacity ∧
      ∀ j, j ≠ uint32Max → (OrderBook.setNextIdx pool k v).storage j =
        { pool.storage j with nextIdx := if j = k then v else (pool.storage j).nextIdx } := by
  obtain ⟨hfree, hcap, hst⟩ := modify_unless_nil pool k fun o => { o with nextIdx := v }
  refine ⟨hfree, hcap, fun j hj => (hst j hj).trans ?_⟩
  split <;> rfl

theorem setPrevIdx_spec (pool : OrderPool Order) (k v : ℕ) :
    (∀ fl, pool.Free fl → (OrderBook.setPrevIdx pool k v).Free fl) ∧
      (OrderBook.setPrevIdx pool k v).capacity = pool.capacity ∧
      ∀ j, j ≠ uint32Max → (OrderBook.setPrevIdx pool k v).storage j =
        { pool.storage j with prevIdx := if j = k then v else (pool.storage j).prevIdx } := by
  obtain ⟨hfree, hcap, hst⟩ := modify_unless_nil pool k fun o => { o with prevIdx := v }
  refine ⟨hfree, hcap, fun j hj => (hst j hj).trans ?_⟩
  split <;> rfl

/-- What `unlinkSlot` writes: the links of the two neighbours, where there are any. -/
theorem unlinkSlot_spec {pool : OrderPool Order} (hi : i ≠ uint32Max)
    (hprev : (pool.storage i).prevIdx ≠ i) :
    (∀ fl, pool.Free fl → (OrderBook.unlinkSlot pool i).Free fl) ∧
      (OrderBook.unlinkSlot pool i).capacity = pool.capacity ∧
      ∀ j, j ≠ uint32Max → (OrderBook.unlinkSlot pool i).storage j =
        { pool.storage j with
          nextIdx := if j = (pool.storage i).prevIdx then (pool.storage i).nextIdx
            else (pool.storage j).nextIdx
          prevIdx := if j = (pool.storage i).nextIdx then (pool.storage i).prevIdx
            else (pool.storage j).prevIdx } := by
  obtain ⟨hfree, hcap, hst⟩ :=
    setNextIdx_spec pool (pool.storage i).prevIdx (pool.storage i).nextIdx
  have hself := hst i hi
  rw [if_neg hprev.symm] at hself
  obtain ⟨hfree', hcap', hst'⟩ := setPrevIdx_spec
    (OrderBook.setNextIdx pool (pool.storage i).prevIdx (pool.storage i).nextIdx)
    (pool.storage i).nextIdx (pool.storage i).prevIdx
  rw [OrderBook.unlinkSlot, hself]
  refine ⟨fun fl hfl => hfree' fl (hfree fl hfl), hcap'.trans hcap, fun j hj => ?_⟩
  rw [hst' j hj, hst j hj]

/-- A level without one of its slots: it is gone when that was the last one. -/
theorem unlink_level {st : ℕ → Order} (st' : ℕ → Order) {l : PriceLevel} {ids : List ℕ}
    (hl : LevelOf st l ids)
    (hnd : ids.Nodup) (hi : i ∈ ids) (hnil : uint32Max ∉ ids)
    (hlinks : ∀ j ∈ ids, (st' j).nextIdx =
        (if j = (st i).prevIdx then (st i).nextIdx else (st j).nextIdx) ∧
      (st' j).prevIdx = (if j = (st i).nextIdx then (st i).prevIdx else (st j).prevIdx) ∧
      (st' j).remainingQty = (st j).remainingQty) :
    LevelRep st' (if l.count - 1 = 0 then none else some { l with
      headIdx := if l.headIdx = i then (st i).nextIdx else l.headIdx
      tailIdx := if l.tailIdx = i then (st i).prevIdx else l.tailIdx
      count := l.count - 1
      totalQty := l.totalQty - (st i).remainingQty }) (ids.filter (· ≠ i)) := by
  obtain ⟨as, bs, rfl⟩ := List.append_of_mem hi
  obtain ⟨hndA, hndB, hdisj⟩ := List.nodup_append'.mp hnd
  have hkeepA : as.filter (· ≠ i) = as := List.filter_eq_self.mpr fun j hj => by
    simpa using fun hji : j = i => hdisj (hji ▸ hj) List.mem_cons_self
  have hkeepB : bs.filter (· ≠ i) = bs := List.filter_eq_self.mpr fun j hj => by
    simpa using ne_of_mem_of_not_mem hj (List.nodup_cons.mp hndB).1
  have hfilter : (as ++ i :: bs).filter (· ≠ i) = as ++ bs := by
    rw [List.filter_append, List.filter_cons_of_neg (by simp), hkeepA, hkeepB]
  have hsub : ∀ j ∈ as ++ bs, j ∈ as ++ i :: bs := fun j hj => by
    rcases List.mem_append.mp hj with hj | hj
    · exact List.mem_append_left _ hj
    · exact List.mem_append_right _ (List.mem_cons_of_mem _ hj)
  have hcount : (l.count - 1).toNat = (as ++ bs).length := by
    have hc := hl.count
    have hlt := l.count.toNat_lt
    simp only [List.length_append, List.length_cons] at hc ⊢
    rw [UInt32.toNat_sub, UInt32.toNat_one]
    omega
  rw [hfilter]
  split
  · next h0 =>
    rw [h0] at hcount
    exact List.length_eq_zero_iff.mp hcount.symm
  · next h0 =>
    refine ⟨fun hnil' => h0 ?_, ?_, hcount, ?_⟩
    · rw [hnil'] at hcount
      exact UInt32.toNat_inj.mp hcount
    · exact hl.seg.unlink hnd hnil (fun j hj => (hlinks j (hsub j hj)).2.1)
        fun j hj => (hlinks j (hsub j hj)).1
    · have htot := hl.total
      have hrem : (as ++ bs).map (fun j => (st' j).remainingQty.toNat) =
          (as ++ bs).map fun j => (st j).remainingQty.toNat :=
        List.map_congr_left fun j hj => by rw [(hlinks j (hsub j hj)).2.2]
      have hlt := (st i).remainingQty.toNat_lt
      rw [hrem, UInt32.toNat_sub, htot]
      simp only [List.map_append, List.map_cons, List.sum_append, List.sum_cons]
      omega

section Filter

variable {bk : OrderBook} {sh : Store}

/-- A slot less on its level is a slot less in use. -/
theorem live_filter (h : Rep e n G fl) (hi : i ∈ G L b p) {j : ℕ} :
    ((∃ L b p, j ∈ G L b p) ∧ j ≠ i) ↔
      ∃ L' b' p', j ∈ G.set L b p ((G L b p).filter (· ≠ i)) L' b' p' := by
  constructor
  · rintro ⟨⟨L', b', p', hj⟩, hji⟩
    refine ⟨L', b', p', Layout.mem_set.mpr ?_⟩
    by_cases hc : L' = L ∧ b' = b ∧ p' = p
    · obtain ⟨rfl, rfl, rfl⟩ := hc
      exact Or.inl ⟨⟨rfl, rfl, rfl⟩, List.mem_filter.mpr ⟨hj, decide_eq_true hji⟩⟩
    · exact Or.inr ⟨hc, hj⟩
  · rintro ⟨L', b', p', hj⟩
    rcases Layout.mem_set.mp hj with ⟨-, hj⟩ | ⟨hc, hj⟩
    · exact ⟨⟨L, b, p, (List.mem_filter.mp hj).1⟩, of_decide_eq_true (List.mem_filter.mp hj).2⟩
    · exact ⟨⟨L', b', p', hj⟩, fun hji => hc (h.unique hi (hji ▸ hj))⟩

/-- **A slot less** rewrites its level. -/
theorem relevels_filter (h : Rep e n G fl)
    (hlevel : LevelRep sh.pool.storage (bk.level? b p) ((G L b p).filter (· ≠ i)))
    (hbk : bk = (e.books L).eraseLevel b p ∨ ∃ l, bk = (e.books L).setLevel b p l)
    (hdata : ∀ L b p, ∀ j ∈ G L b p, (sh.pool.storage j).toOrderData =
      (e.shared.pool.storage j).toOrderData)
    (helsewhere : ∀ L' b' p', ¬(L' = L ∧ b' = b ∧ p' = p) → ∀ j ∈ G L' b' p',
      sh.pool.storage j = e.shared.pool.storage j) :
    Relevels e G L b p ((G L b p).filter (· ≠ i)) n bk sh where
  level := hlevel
  side := fun j hj => by
    have hj := (List.mem_filter.mp hj).1
    exact (congrArg OrderData.side (hdata L b p j hj)).trans (h.side L b p j hj)
  price := fun j hj => by
    have hj := (List.mem_filter.mp hj).1
    exact (congrArg OrderData.price (hdata L b p j hj)).trans (h.price L b p j hj)
  fifo := by
    refine ((h.fifo L b p).sublist List.filter_sublist).imp_of_mem fun {j k} hj hk hlt => ?_
    rwa [hdata L b p j (List.mem_filter.mp hj).1, hdata L b p k (List.mem_filter.mp hk).1]
  seq_lt := fun j hj => by
    have hj := (List.mem_filter.mp hj).1
    rw [hdata L b p j hj]
    exact h.seq_lt L b p j hj
  own := fun _ hj _ _ _ hj' => (h.unique (List.mem_filter.mp hj).1 hj').1
  sides := fun b' hb' => by
    rcases hbk with rfl | ⟨l, rfl⟩
    · exact OrderBook.levels_eraseLevel_of_ne _ _ hb'
    · exact OrderBook.levels_setLevel_of_ne _ _ _ hb'
  levels := fun p' hp' => by
    rcases hbk with rfl | ⟨l, rfl⟩
    · rw [OrderBook.level?_eraseLevel, if_neg fun hc => hp' hc.2]
    · rw [OrderBook.level?_setLevel, if_neg fun hc => hp' hc.2]
  elsewhere := helsewhere

/-- **The side** has the order no more. The level goes if nothing is left on it. -/
theorem resting_filter (h : Rep e n G fl) (hi : i ∈ G L b p)
    (hbk : (bk = (e.books L).eraseLevel b p ∧ (G L b p).filter (· ≠ i) = []) ∨
      ∃ l, bk = (e.books L).setLevel b p l)
    (hdata : ∀ L b p, ∀ j ∈ G L b p, (sh.pool.storage j).toOrderData =
      (e.shared.pool.storage j).toOrderData) :
    (slots (e.withBook L bk sh) (G.set L b p ((G L b p).filter (· ≠ i))) L b).map
        (fun j => (sh.pool.storage j).toOrderData) =
      (e.resting L b).filter fun x => x.orderId ≠ (e.shared.pool.storage i).orderId := by
  have hG : ∀ q, G.set L b p ((G L b p).filter (· ≠ i)) L b q = (G L b q).filter (· ≠ i) :=
    fun q => by
      by_cases hq : q = p
      · rw [hq, Layout.set_self]
      · rw [Layout.set_of_ne fun hc => hq hc.2.2]
        exact (List.filter_eq_self.mpr fun j hj => by
          simpa using fun hji : j = i => hq (h.unique hi (hji ▸ hj)).2.2).symm
  have hslots : slots (e.withBook L bk sh) (G.set L b p ((G L b p).filter (· ≠ i))) L b =
      (slots e G L b).filter (· ≠ i) := by
    rw [slots, books_withBook_self, slots, ← SortedMap.grouped_filter _ hG]
    rcases hbk with ⟨rfl, hnil⟩ | ⟨l', rfl⟩
    · rw [OrderBook.levels_eraseLevel_self]
      exact SortedMap.grouped_erase _ ((hG p).trans hnil)
    · obtain ⟨l, hl, -⟩ := h.levelOf hi
      rw [OrderBook.levels_setLevel_self,
        SortedMap.grouped_set_of_mem _ _ (SortedMap.mem_keys_of_get? hl)]
  have hold : ((slots e G L b).filter (· ≠ i)).map (fun j => (sh.pool.storage j).toOrderData) =
      ((slots e G L b).filter (· ≠ i)).map fun j => (e.shared.pool.storage j).toOrderData :=
    List.map_congr_left fun j hj => by
      obtain ⟨q, hj⟩ := h.mem_slots.mp (List.mem_filter.mp hj).1
      exact hdata L b q j hj
  rw [hslots, hold, h.resting_eq, List.filter_map]
  congr 1
  refine List.filter_congr fun j hj => ?_
  obtain ⟨q, hj⟩ := h.mem_slots.mp hj
  simp only [Function.comp_apply, ne_eq, decide_not, decide_eq_decide, Bool.not_inj_iff]
  exact ⟨fun hji => by rw [hji], h.slot_inj hj hi⟩

end Filter

/-- **Removing an order** that rests takes it out of its side and frees its slot. -/
theorem removeOrder_spec (h : Rep e n G fl) (hi : i ∈ G L b p) :
    ∃ e', e.removeOrder L i = some e' ∧
      Rep e' n (G.set L b p ((G L b p).filter (· ≠ i))) (i :: fl) ∧
      e'.resting = setSide e.resting L b ((e.resting L b).filter fun x =>
        x.orderId ≠ (e.shared.pool.storage i).orderId) ∧
      SharedStore.Erased [(e.shared.pool.storage i).orderId] e.shared e'.shared ∧
      e'.nextSequence = e.nextSequence := by
  obtain ⟨l, hl, hlev⟩ := h.levelOf hi
  obtain ⟨⟨hprev, hnext⟩, hnb⟩ := h.neighbours hi
  have hine := h.holds.ne_uint32Max (live hi)
  obtain ⟨hufree, hucap, hust⟩ := unlinkSlot_spec hine hprev
  generalize hpool : OrderBook.unlinkSlot e.shared.pool i = pool at hufree hucap hust
  have hui : pool.storage i = e.shared.pool.storage i := by
    rw [hust i hine, if_neg hprev.symm, if_neg hnext.symm]
  -- the data of every slot in use is as before
  have hdata : ∀ L b p, ∀ j ∈ G L b p, (pool.storage j).toOrderData =
      (e.shared.pool.storage j).toOrderData := fun L b p j hj => by
    rw [hust j (h.holds.ne_uint32Max (live hj))]
  -- the neighbours of `i` hang on its own level, so elsewhere no link changed either
  have helsewhere : ∀ L' b' p', ¬(L' = L ∧ b' = b ∧ p' = p) → ∀ j ∈ G L' b' p',
      pool.storage j = e.shared.pool.storage j := fun L' b' p' hc j hj => by
    have hjne := h.holds.ne_uint32Max (live hj)
    rw [hust j hjne, if_neg fun he => hc (h.unique (hnb j (Or.inl he) hjne) hj),
      if_neg fun he => hc (h.unique (hnb j (Or.inr he) hjne) hj)]
  obtain ⟨sh', hunlink, hpool', hdrop, hholds⟩ :=
    (h.holds.modify (hufree _ h.holds.free) hucap fun j ⟨L, b, p, hj⟩ =>
      congrArg OrderData.orderId (hdata L b p j hj)).unlink (live hi)
  rw [hui] at hunlink
  have hlevel := unlink_level pool.storage hlev (h.nodup L b p) hi (h.not_nil L b p)
    fun j hj => by
      rw [hust j (h.holds.ne_uint32Max (live hj))]
      exact ⟨rfl, rfl, rfl⟩
  generalize hl' : ({ l with
    headIdx := if l.headIdx = i then (e.shared.pool.storage i).nextIdx else l.headIdx
    tailIdx := if l.tailIdx = i then (e.shared.pool.storage i).prevIdx else l.tailIdx
    count := l.count - 1
    totalQty := l.totalQty - (e.shared.pool.storage i).remainingQty } : PriceLevel) = l' at hlevel
  generalize hbk : (if l.count - 1 = 0 then (e.books L).eraseLevel b p
    else (e.books L).setLevel b p l') = bk
  have hwhich : (bk = (e.books L).eraseLevel b p ∧ (G L b p).filter (· ≠ i) = []) ∨
      ∃ l, bk = (e.books L).setLevel b p l := by
    rw [← hbk]
    split
    · next h0 =>
      rw [if_pos h0] at hlevel
      exact Or.inl ⟨rfl, hlevel⟩
    · exact Or.inr ⟨l', rfl⟩
  have hbklevel : LevelRep pool.storage (bk.level? b p) ((G L b p).filter (· ≠ i)) := by
    rw [← hbk]
    split
    · next h0 =>
      rw [if_pos h0] at hlevel
      rwa [OrderBook.level?_eraseLevel, if_pos ⟨rfl, rfl⟩]
    · next h0 =>
      rw [if_neg h0] at hlevel
      rwa [OrderBook.level?_setLevel, if_pos ⟨rfl, rfl⟩]
  have hst : ({ sh' with pool := sh'.pool.deallocate i } : Store).pool.storage = pool.storage := by
    show sh'.pool.storage = pool.storage
    rw [hpool']
  have hr : Relevels e G L b p ((G L b p).filter (· ≠ i)) n bk
      { sh' with pool := sh'.pool.deallocate i } :=
    h.relevels_filter (by rwa [hst]) (hwhich.imp_left And.left) (by rwa [hst]) (by rwa [hst])
  have hrep := hr.rep h le_rfl (h.range L b p i hi) (hholds.congr fun _ => h.live_filter hi)
  have herased : SharedStore.Erased [(e.shared.pool.storage i).orderId] e.shared
      { sh' with pool := sh'.pool.deallocate i } := by
    obtain ⟨index, hindex, heq⟩ := Option.map_eq_some_iff.mp hunlink
    refine ⟨(congrArg (Option.bind · _) hindex).trans ?_, hdrop, ?_⟩
    · rw [← heq]
      rfl
    · show sh'.pool.capacity = _
      rw [hpool', hucap]
  refine ⟨_, ?_, hrep, hr.resting h hrep (h.resting_filter hi hwhich (by rwa [hst])), herased, rfl⟩
  rw [MatchingEngine.removeOrder, OrderBook.removeOrder, h.side_isBuy hi, h.price L b p i hi, hl]
  simp only [hpool, hui, hl', hunlink, Option.map_some]
  rw [h.price L b p i hi, hbk]

end Rep

end NebulaX.Exchange
