import NebulaX.Exchange.EngineRuns

/-!
# The top of a book

`getTopOfBook` reads the first level of each side: its price and its running total. The first level
has the best price, and its orders are those that rest at that price. The total is kept in 32 bits,
and the quantities of the orders use all of them, so it is the sum of what remains modulo `2 ^ 32`.

## Main results

* `Rep.top_spec` — price and total of the first level, in terms of what rests on the side
* `getBook_exact_iff` — the volumes are exact if and only if the sums fit
-/

namespace NebulaX.Exchange

open MatchingEngine

/-- `TopOfBook`. -/
structure TopOfBook where
  /-- `bid_price`. -/
  bidPrice : UInt32 := 0
  /-- `bid_volume`. -/
  bidVolume : UInt32 := 0
  /-- `ask_price`. -/
  askPrice : UInt32 := 0
  /-- `ask_volume`. -/
  askVolume : UInt32 := 0
deriving DecidableEq, Repr

/-- Price and total of the first level of a side: `begin()`, if the map is not empty. -/
def OrderBook.top (b : OrderBook) (buy : Bool) : UInt32 × UInt32 :=
  match (b.levels buy).entries with
  | [] => (0, 0)
  | (price, level) :: _ => (price, level.totalQty)

/-- `getTopOfBook`. -/
def OrderBook.getTopOfBook (b : OrderBook) : TopOfBook where
  bidPrice := (b.top true).1
  bidVolume := (b.top true).2
  askPrice := (b.top false).1
  askVolume := (b.top false).2

/-- `data.book` of an `RSP_BOOK`. -/
structure BookResponse extends TopOfBook where
  /-- `locate`. -/
  locate : ℕ
deriving DecidableEq, Repr

/-- `getBook`. A book that was not created yet is an empty one. -/
def MatchingEngine.getBook (e : MatchingEngine) (locate : ℕ) : BookResponse :=
  if kMaxLocate ≤ locate then { locate := locate }
  else { (e.books locate).getTopOfBook with locate := locate }

/-! ### What rests at a price -/

/-- What remains of the orders at a price, as an exact sum. -/
def volumeAt (xs : List OrderData) (price : UInt32) : ℕ :=
  ((xs.filter fun x => x.price = price).map fun x => x.remainingQty.toNat).sum

/-- The best price of a side: an order rests there, and none at a better price. -/
structure IsBest (buy : Bool) (xs : List OrderData) (price : UInt32) : Prop where
  /-- An order rests there. -/
  rests : ∃ x ∈ xs, x.price = price
  /-- No price is better. -/
  best : ∀ x ∈ xs, ¬better buy x.price price

/-- The best price is unique. -/
theorem IsBest.unique {buy : Bool} {xs : List OrderData} {p q : UInt32} (hp : IsBest buy xs p)
    (hq : IsBest buy xs q) : p = q := by
  obtain ⟨x, hx, rfl⟩ := hp.rests
  obtain ⟨y, hy, rfl⟩ := hq.rests
  rcases trichotomous_of (better buy) x.price y.price with hlt | heq | hgt
  · exact absurd hlt (hq.best x hx)
  · exact heq
  · exact absurd hgt (hp.best y hy)

/-- **The report of a side is exact:** the best price and the sum of what remains there, or zeros
for a side where nothing rests. -/
def Exact (buy : Bool) (xs : List OrderData) (top : UInt32 × UInt32) : Prop :=
  (xs = [] ∧ top = (0, 0)) ∨ (IsBest buy xs top.1 ∧ top.2.toNat = volumeAt xs top.1)

namespace Rep

variable {e : MatchingEngine} {n : ℕ} {G : Layout} {fl : List ℕ} {L : ℕ} {b : Bool}

/-- **The first level** of a side. -/
theorem top_spec (h : Rep e n G fl) (L : ℕ) (b : Bool) :
    (e.resting L b = [] ∧ (e.books L).top b = (0, 0)) ∨
      (IsBest b (e.resting L b) ((e.books L).top b).1 ∧
        ((e.books L).top b).2.toNat =
          volumeAt (e.resting L b) ((e.books L).top b).1 % 2 ^ 32) := by
  rw [OrderBook.top]
  cases hentries : ((e.books L).levels b).entries with
  | nil =>
    left
    rw [h.resting_eq, slots_eq, hentries]
    exact ⟨rfl, rfl⟩
  | cons pl rest =>
    right
    obtain ⟨p, l⟩ := pl
    have hl : LevelOf e.shared.pool.storage l (G L b p) :=
      h.levelOf_entry (hentries ▸ List.mem_cons_self)
    have hfilter := h.filter_resting L b p
    refine ⟨⟨?_, ?_⟩, ?_⟩
    · obtain ⟨i, hi⟩ := List.exists_mem_of_ne_nil _ hl.ne_nil
      exact ⟨_, h.resting_mem hi, h.price L b p i hi⟩
    · intro x hx hbetter
      obtain ⟨i, hi, -⟩ := h.mem_resting.mp hx
      obtain ⟨l', hl', -⟩ := h.levelOf hi
      have hmem : (x.price, l') ∈ ((e.books L).levels b).entries :=
        SortedMap.get?_eq_some_iff.mp hl'
      have hsorted := ((e.books L).levels b).sorted
      rw [hentries, List.map_cons, List.pairwise_cons] at hsorted
      rw [hentries] at hmem
      rcases List.mem_cons.mp hmem with heq | hrest
      · rw [(Prod.mk.inj heq).1] at hbetter
        exact irrefl_of (better b) p hbetter
      · have hafter := hsorted.1 _ (List.mem_map_of_mem hrest)
        exact irrefl_of (better b) p (trans_of (better b) hafter hbetter)
    · rw [volumeAt, hfilter, List.map_map]
      exact hl.total

end Rep

/-- **The report of a side** is exact if and only if what remains at its best price, if there is
one, fits in 32 bits. -/
theorem Rep.top_exact_iff {e : MatchingEngine} {n : ℕ} {G : Layout} {fl : List ℕ}
    (h : Rep e n G fl) (L : ℕ) (b : Bool) :
    Exact b (e.resting L b) ((e.books L).top b) ↔
      ∀ p, IsBest b (e.resting L b) p → volumeAt (e.resting L b) p < 2 ^ 32 := by
  rcases h.top_spec L b with ⟨hnil, htop⟩ | ⟨hbest, hvolume⟩
  · refine iff_of_true (.inl ⟨hnil, htop⟩) fun p hp => ?_
    obtain ⟨x, hx, -⟩ := hp.rests
    exact absurd (hnil ▸ hx) List.not_mem_nil
  · constructor
    · rintro (⟨hnil, -⟩ | ⟨-, hexact⟩) p hp
      · obtain ⟨x, hx, -⟩ := hp.rests
        exact absurd (hnil ▸ hx) List.not_mem_nil
      · rw [hp.unique hbest, ← hexact]
        exact ((e.books L).top b).2.toNat_lt
    · intro hfits
      exact .inr ⟨hbest, by rw [hvolume, Nat.mod_eq_of_lt (hfits _ hbest)]⟩

/-- **When the top of the book is exact:** in every state that an engine can get into, `getBook`
reports the best prices, and zeros for an empty side; and the volumes are the sums of what remains
at these prices if and only if the sums fit in 32 bits. -/
theorem getBook_exact_iff {e : MatchingEngine} (h : Reachable e) (L : ℕ) :
    (Exact true (e.resting L true) ((e.getBook L).bidPrice, (e.getBook L).bidVolume) ∧
      Exact false (e.resting L false) ((e.getBook L).askPrice, (e.getBook L).askVolume)) ↔
    ∀ buy p, IsBest buy (e.resting L buy) p → volumeAt (e.resting L buy) p < 2 ^ 32 := by
  obtain ⟨G, fl, hrep⟩ := h.inv
  rw [Bool.forall_bool, and_comm]
  by_cases hL : kMaxLocate ≤ L
  · -- no such book, and nothing rests
    have hnil : ∀ b, e.resting L b = [] := fun b => List.eq_nil_iff_forall_not_mem.mpr fun x hx =>
      absurd (hrep.resting_range hx) (Nat.not_lt.mpr hL)
    have hfits : ∀ b p, IsBest b (e.resting L b) p → volumeAt (e.resting L b) p < 2 ^ 32 := by
      intro b p hp
      obtain ⟨x, hx, -⟩ := hp.rests
      rw [hnil b] at hx
      exact absurd hx List.not_mem_nil
    rw [getBook, if_pos hL]
    exact iff_of_true ⟨.inl ⟨hnil false, rfl⟩, .inl ⟨hnil true, rfl⟩⟩ ⟨hfits false, hfits true⟩
  · rw [getBook, if_neg hL, ← hrep.top_exact_iff L false, ← hrep.top_exact_iff L true]
    exact Iff.rfl

/-- Two bids at one price and an empty side. -/
theorem getBook_exact_iff_two : ∃ e,
    (new 4).execAll [.add 0 1 .buy 100 5 7 .day, .add 0 2 .buy 100 6 8 .day] = some e ∧
      e.getBook 0 = { bidPrice := 100, bidVolume := 11, locate := 0 } ∧
      ((Exact true (e.resting 0 true) ((e.getBook 0).bidPrice, (e.getBook 0).bidVolume) ∧
          Exact false (e.resting 0 false) ((e.getBook 0).askPrice, (e.getBook 0).askVolume)) ↔
        ∀ buy p, IsBest buy (e.resting 0 buy) p → volumeAt (e.resting 0 buy) p < 2 ^ 32) := by
  obtain ⟨e, hrun, he⟩ := reachable_execAll 4
    [.add 0 1 .buy 100 5 7 .day, .add 0 2 .buy 100 6 8 .day] (by decide) (by decide)
    (by decide +kernel)
  have hbook : ((new 4).execAll [.add 0 1 .buy 100 5 7 .day, .add 0 2 .buy 100 6 8 .day]).map
      (fun e => e.getBook 0) = some { bidPrice := 100, bidVolume := 11, locate := 0 } := by
    decide +kernel
  rw [hrun] at hbook
  exact ⟨e, hrun, Option.some.inj hbook, getBook_exact_iff he 0⟩

/-- Two bids at one price of `2 ^ 31` each: the book reports a volume of zero. -/
theorem getBook_wraps : ∃ e,
    (new 4).execAll [.add 0 1 .buy 100 2147483648 7 .day, .add 0 2 .buy 100 2147483648 8 .day] =
        some e ∧
      Reachable e ∧ e.getBook 0 = { bidPrice := 100, bidVolume := 0, locate := 0 } ∧
      volumeAt (e.resting 0 true) 100 = 2 ^ 32 ∧
      ¬Exact true (e.resting 0 true) ((e.getBook 0).bidPrice, (e.getBook 0).bidVolume) := by
  obtain ⟨e, hrun, he⟩ := reachable_execAll 4
    [.add 0 1 .buy 100 2147483648 7 .day, .add 0 2 .buy 100 2147483648 8 .day] (by decide)
    (by decide) (by decide +kernel)
  have hbook : ((new 4).execAll [.add 0 1 .buy 100 2147483648 7 .day,
      .add 0 2 .buy 100 2147483648 8 .day]).map
        (fun e => (e.getBook 0, volumeAt (e.resting 0 true) 100)) =
      some ({ bidPrice := 100, bidVolume := 0, locate := 0 }, 2 ^ 32) := by
    decide +kernel
  rw [hrun] at hbook
  obtain ⟨hbook, hvolume⟩ := Prod.mk.inj (Option.some.inj hbook)
  refine ⟨e, hrun, he, hbook, hvolume, ?_⟩
  rw [hbook]
  rintro (⟨-, hzero⟩ | ⟨-, hexact⟩)
  · exact absurd hzero (by decide)
  · rw [hvolume] at hexact
    exact absurd hexact (by decide)

end NebulaX.Exchange
