import NebulaX.Lib.OpenAddress
import NebulaX.Memory.OrderPool

/-!
# The price levels of a view

`PriceLevelTable` of `src/market/book/order_book.h`: an open-addressed hash table from prices to
levels that caches the best price. The two lowest prices mark empty and deleted cells.

`operator[]` returns a reference, which the caller writes through. Here `subscript` returns the
cell and `update` is the use of the reference: look the level up, creating it if it is not there,
and write it back changed. A call of `subscript` grows the table when no cell is empty. The inner
loops of growing stop at an empty cell; `none` is a loop that does not stop.

The capacity is a power of two, so `& (cap_ - 1)` is the remainder and only the exponent is kept.
The source computes the exponent anew in `probe` and in `grow`, as `__builtin_ctz` of the capacity,
which takes an `unsigned int` and is not defined for zero. So the source is defined for tables of
two to `2 ^ 31` cells; the functions below go on past that, as `__builtin_ctzll` would, and
`Defined` tells where they are those of the source. The tables of a view start with 1024 cells and
double when all are taken.

## Main results

* `Inv.update_spec`, `Inv.erase_spec` — under the invariant both calls return and change what
  `find` reads at one price only
* `Inv.best_spec` — `best()` is the extreme price of the table
-/

namespace NebulaX.Market

/-- `OrderBook::PriceLevel`. -/
structure PriceLevel where
  /-- `head_idx`, the newest order. -/
  headIdx : ℕ := uint32Max
  /-- `tail_idx`, the oldest order. -/
  tailIdx : ℕ := uint32Max
  /-- `count`. -/
  count : UInt32 := 0
  /-- `total_qty`. -/
  totalQty : UInt32 := 0
deriving DecidableEq, Repr

/-- `PriceLevelTable::Slot`. -/
structure Slot where
  /-- `price`. -/
  price : Int64
  /-- `lvl`. -/
  lvl : PriceLevel := {}
deriving DecidableEq, Repr

/-- `PriceLevelTable`. -/
structure PriceLevelTable where
  /-- `is_bid_`. -/
  isBid : Bool
  /-- `best_`. -/
  best : Int64
  /-- `slots_`. -/
  slots : ℕ → Slot
  /-- The exponent of `cap_`. -/
  capLog : ℕ
  /-- `count_`. -/
  count : ℕ := 0

/-- Whether price `p` is better than `q` on a side: higher for bids, lower for asks. -/
def better (isBid : Bool) (p q : Int64) : Prop := if isBid then q < p else p < q

instance (isBid : Bool) (p q : Int64) : Decidable (better isBid p q) :=
  inferInstanceAs (Decidable (if isBid then q < p else p < q))

namespace PriceLevelTable

/-- `kEmpty`. -/
def kEmpty : Int64 := Int64.minValue

/-- `kTombstone`. -/
def kTombstone : Int64 := Int64.minValue + 1

/-- The cells of a table. -/
abbrev scheme : OpenAddress.Cells Slot Int64 where
  key := Slot.price
  empty := kEmpty
  tomb := kTombstone
  empty_ne_tomb := by decide

/-- A price that is not one of the two marks. -/
abbrev IsPrice (p : Int64) : Prop := scheme.IsKey p

/-- What `best_` starts from: the worst price of the side. -/
def worst (isBid : Bool) : Int64 := if isBid then Int64.minValue else Int64.maxValue

/-- `PriceLevelTable(is_bid)` with `2 ^ capLog` cells. -/
def new (isBid : Bool) (capLog : ℕ) : PriceLevelTable where
  isBid := isBid
  best := worst isBid
  slots := fun _ => { price := kEmpty }
  capLog := capLog

/-- `cap_`. -/
def cap (t : PriceLevelTable) : ℕ := 2 ^ t.capLog

/-- `__builtin_ctz(cap_)` is defined, and so is the shift of a `uint64_t` by 64 less that. -/
def Defined (t : PriceLevelTable) : Prop := UInt32.ofNat t.cap ≠ 0 ∧ 64 - t.capLog < 64

instance (t : PriceLevelTable) : Decidable t.Defined :=
  inferInstanceAs (Decidable (UInt32.ofNat t.cap ≠ 0 ∧ 64 - t.capLog < 64))

/-- `probe` in a table of `2 ^ capLog` cells. -/
def home (capLog : ℕ) (price : Int64) : ℕ :=
  (price.toUInt64.toNat * 0x9E3779B97F4A7C15 % 2 ^ 64) >>> (64 - capLog) % 2 ^ capLog

/-- `probe`. -/
def probe (t : PriceLevelTable) (price : Int64) : ℕ := home t.capLog price

/-- The loop of `operator[]`, `erase`, `find` and `best_qty`. -/
def search (t : PriceLevelTable) (price : Int64) : OpenAddress.Walk :=
  OpenAddress.walk scheme t.cap t.slots price t.cap (t.probe price) none

/-- `find`. -/
def find (t : PriceLevelTable) (price : Int64) : Option PriceLevel :=
  match t.search price with
  | .found i => some (t.slots i).lvl
  | .gap _ _ | .full => none

/-- `if (is_bid_ ? price > best_ : price < best_) best_ = price`. -/
def improve (isBid : Bool) (best price : Int64) : Int64 :=
  if better isBid price best then price else best

/-- The last lines of `operator[]`: a new level in cell `ins`. -/
def enter (t : PriceLevelTable) (ins : ℕ) (price : Int64) : PriceLevelTable :=
  { t with
    slots := Function.update t.slots ins { price := price }
    count := t.count + 1
    best := improve t.isBid t.best price }

/-- `grow`. -/
def grow (t : PriceLevelTable) : Option PriceLevelTable :=
  (OpenAddress.rehash scheme (2 ^ (t.capLog + 1)) (home (t.capLog + 1)) t.slots t.cap
    fun _ => { price := kEmpty }).map fun ns => { t with slots := ns, capLog := t.capLog + 1 }

/-- `operator[]`: the cell of a price, which gets one if it has none. -/
def subscript (t : PriceLevelTable) (price : Int64) : Option (ℕ × PriceLevelTable) :=
  match t.search price with
  | .found i => some (i, { t with best := improve t.isBid t.best price })
  | .gap i tomb => some (tomb.getD i, t.enter (tomb.getD i) price)
  | .full => t.grow.bind fun t =>
    (OpenAddress.firstGap scheme t.cap t.slots t.cap (t.probe price)).map fun i =>
      (i, t.enter i price)

/-- Write through the reference that `operator[]` returned. -/
def write (t : PriceLevelTable) (i : ℕ) (lvl : PriceLevel) : PriceLevelTable :=
  { t with slots := Function.update t.slots i { t.slots i with lvl := lvl } }

/-- `PriceLevel& lvl = table[price]`, and the changes `f` to `lvl`. Returns `lvl` as it was. -/
def update (t : PriceLevelTable) (price : Int64) (f : PriceLevel → PriceLevel) :
    Option (PriceLevel × PriceLevelTable) :=
  (t.subscript price).map fun (i, t) => ((t.slots i).lvl, t.write i (f (t.slots i).lvl))

/-- `rescan_best`. -/
def rescanBest (t : PriceLevelTable) : PriceLevelTable :=
  { t with
    best := (List.range t.cap).foldl (fun best i =>
      if (t.slots i).price = kEmpty ∨ (t.slots i).price = kTombstone then best
      else improve t.isBid best (t.slots i).price) (worst t.isBid) }

/-- The lines of `erase` that delete cell `i`. -/
def bury (t : PriceLevelTable) (i : ℕ) : PriceLevelTable :=
  { t with
    slots := Function.update t.slots i { t.slots i with price := kTombstone }
    count := t.count - 1 }

/-- `erase`. -/
def erase (t : PriceLevelTable) (price : Int64) : PriceLevelTable :=
  match t.search price with
  | .found i => if price = t.best then (t.bury i).rescanBest else t.bury i
  | .gap _ _ | .full => t

/-- `size`. -/
def size (t : PriceLevelTable) : ℕ := t.count

/-- `empty`. -/
def empty (t : PriceLevelTable) : Bool := t.count = 0

/-- `best_qty`. -/
def bestQty (t : PriceLevelTable) : UInt64 :=
  if t.empty then 0 else ((t.find t.best).map fun l => l.totalQty.toUInt64).getD 0

/-! ### The number of cells -/

/-- **The source is defined** for tables of two to `2 ^ 31` cells. -/
theorem defined_iff (t : PriceLevelTable) : t.Defined ↔ 1 ≤ t.capLog ∧ t.capLog ≤ 31 := by
  have hctz : UInt32.ofNat t.cap = 0 ↔ 32 ≤ t.capLog := by
    rw [← UInt32.toNat_inj, UInt32.toNat_ofNat']
    show 2 ^ t.capLog % 2 ^ 32 = 0 ↔ _
    rw [← Nat.dvd_iff_mod_eq_zero, Nat.pow_dvd_pow_iff_le_right (by decide)]
  rw [Defined, Ne, hctz]
  omega

/-- `erase` does not change it. -/
theorem capLog_erase (t : PriceLevelTable) (p : Int64) : (t.erase p).capLog = t.capLog := by
  rw [erase]
  split
  · split <;> rfl
  · rfl
  · rfl

/-- `operator[]` doubles it if its loop has gone round once. -/
theorem capLog_update {t t' : PriceLevelTable} {p : Int64} {f : PriceLevel → PriceLevel}
    {lvl : PriceLevel} (h : t.update p f = some (lvl, t')) :
    (t.search p = .full ∧ t'.capLog = t.capLog + 1) ∨
      (t.search p ≠ .full ∧ t'.capLog = t.capLog) := by
  obtain ⟨⟨i, t₁⟩, hsub, heq⟩ := Option.map_eq_some_iff.mp h
  obtain ⟨-, rfl⟩ := Prod.mk.inj heq
  rw [subscript] at hsub
  split at hsub
  · next hsearch =>
    obtain ⟨-, rfl⟩ := Prod.mk.inj (Option.some.inj hsub)
    exact Or.inr ⟨by rw [hsearch]; simp, rfl⟩
  · next hsearch =>
    obtain ⟨-, rfl⟩ := Prod.mk.inj (Option.some.inj hsub)
    exact Or.inr ⟨by rw [hsearch]; simp, rfl⟩
  · next hsearch =>
    obtain ⟨t₂, hgrow, hfill⟩ := Option.bind_eq_some_iff.mp hsub
    obtain ⟨j, -, heq⟩ := Option.map_eq_some_iff.mp hfill
    obtain ⟨-, rfl⟩ := Prod.mk.inj heq
    obtain ⟨ns, -, rfl⟩ := Option.map_eq_some_iff.mp hgrow
    exact Or.inl ⟨hsearch, rfl⟩

/-! ### Better prices -/

theorem better_irrefl {isBid : Bool} {p : Int64} : ¬ better isBid p p := by
  cases isBid <;> simp [better]

theorem better_trans {isBid : Bool} {p q r : Int64} (hpq : better isBid p q)
    (hqr : better isBid q r) : better isBid p r := by
  cases isBid <;> simp only [better, Int64.lt_iff_toInt_lt, if_true, if_false,
    Bool.false_eq_true] at * <;> omega

/-- Nothing is as bad as the price the scan starts from. -/
theorem eq_worst_of_not_better {isBid : Bool} {p : Int64} (h : ¬ better isBid p (worst isBid)) :
    p = worst isBid := by
  have hmin := Int64.le_toInt p
  have hmax := Int64.toInt_lt p
  rw [← Int64.toInt_inj]
  cases isBid <;> simp only [better, worst, Int64.lt_iff_toInt_lt, if_true, if_false,
    Bool.false_eq_true, Int64.toInt_minValue, Int64.toInt_maxValue] at * <;> omega

/-- `best` is the best of the prices that satisfy `P`, or the worst price if there are none. -/
def IsBest (isBid : Bool) (P : Int64 → Prop) (best : Int64) : Prop :=
  (∀ p, P p → ¬ better isBid p best) ∧ (P best ∨ best = worst isBid ∧ ∀ p, ¬ P p)

/-- One more price. -/
theorem IsBest.improve {isBid : Bool} {P : Int64 → Prop} {best : Int64}
    (h : IsBest isBid P best) (p : Int64) :
    IsBest isBid (fun q => P q ∨ q = p) (improve isBid best p) := by
  obtain ⟨hle, hmem⟩ := h
  rw [PriceLevelTable.improve]
  by_cases hb : better isBid p best
  · rw [if_pos hb]
    refine ⟨?_, Or.inl (Or.inr rfl)⟩
    rintro q (hq | rfl)
    · exact fun hqp => hle q hq (better_trans hqp hb)
    · exact better_irrefl
  · rw [if_neg hb]
    constructor
    · rintro q (hq | rfl)
      · exact hle q hq
      · exact hb
    · left
      rcases hmem with hmem | ⟨rfl, -⟩
      · exact Or.inl hmem
      · exact Or.inr (eq_worst_of_not_better hb).symm

/-! ### The invariant -/

/-- The table has a level at this price. -/
def Present (t : PriceLevelTable) (p : Int64) : Prop :=
  ∃ j < t.cap, IsPrice p ∧ (t.slots j).price = p

/-- The invariant of a table. -/
structure Inv (t : PriceLevelTable) : Prop where
  /-- Every level is where walks find it. -/
  chained : OpenAddress.Chained scheme t.cap t.probe t.slots
  /-- `count_` counts them. -/
  count : t.count = (OpenAddress.entries scheme t.cap t.slots).card
  /-- `best_` is the best price. -/
  best : IsBest t.isBid t.Present t.best

theorem home_lt (capLog : ℕ) (p : Int64) : home capLog p < 2 ^ capLog :=
  Nat.mod_lt _ (Nat.two_pow_pos capLog)

theorem inv_new (isBid : Bool) (capLog : ℕ) : Inv (new isBid capLog) where
  chained := OpenAddress.chained_empty (home_lt capLog) fun _ => rfl
  count := (Finset.card_eq_zero.mpr (Finset.filter_eq_empty_iff.mpr fun j _ hj => hj.1 rfl)).symm
  best := by
    have hnone : ∀ p, ¬ (new isBid capLog).Present p := fun p ⟨_, _, hp, he⟩ => hp.1 he.symm
    exact ⟨fun p hp => absurd hp (hnone p), Or.inr ⟨rfl, hnone⟩⟩

namespace Inv

variable {t : PriceLevelTable} {p : Int64}

/-- How a search for a price ends. -/
theorem search_cases (h : Inv t) (hp : IsPrice p) :
    (∃ j < t.cap, (t.slots j).price = p ∧ t.search p = .found j) ∨
    (∀ j < t.cap, (t.slots j).price ≠ p) ∧
      ((∃ j tomb, t.search p = .gap j tomb ∧
          OpenAddress.Open scheme t.cap t.probe t.slots p (tomb.getD j)) ∨
        t.search p = .full) := by
  rcases OpenAddress.walk_cases h.chained hp with ⟨j, hj, hkey, hwalk⟩ | ⟨habsent, hwalk⟩
  · exact Or.inl ⟨j, hj, hkey, hwalk none⟩
  · exact Or.inr ⟨habsent, hwalk.imp id And.left⟩

/-- Levels are found by their prices. -/
theorem find_eq_some (h : Inv t) (hp : IsPrice p) {l : PriceLevel} :
    t.find p = some l ↔ ∃ j < t.cap, (t.slots j).price = p ∧ (t.slots j).lvl = l := by
  rcases h.search_cases hp with ⟨j, hj, hkey, hsearch⟩ | ⟨habsent, hsearch⟩
  · rw [find, hsearch]
    constructor
    · intro hl
      exact ⟨j, hj, hkey, Option.some.inj hl⟩
    · rintro ⟨i, hi, hikey, rfl⟩
      rw [h.chained.inj i hi j hj (show scheme.IsKey (t.slots i).price from hikey ▸ hp)
        (hikey.trans hkey.symm)]
  · refine iff_of_false ?_ fun ⟨j, hj, hkey, _⟩ => habsent j hj hkey
    rcases hsearch with ⟨j, tomb, hsearch, -⟩ | hsearch
    · rw [find, hsearch]
      exact fun he => by cases he
    · rw [find, hsearch]
      exact fun he => by cases he

theorem present_iff (h : Inv t) (hp : IsPrice p) : t.Present p ↔ t.find p ≠ none := by
  rw [Option.ne_none_iff_exists']
  simp only [h.find_eq_some hp]
  constructor
  · rintro ⟨j, hj, -, he⟩
    exact ⟨_, j, hj, he, rfl⟩
  · rintro ⟨_, j, hj, he, -⟩
    exact ⟨j, hj, hp, he⟩

/-- A new table is empty. -/
theorem find_new (isBid : Bool) (capLog : ℕ) (hp : IsPrice p) :
    (new isBid capLog).find p = none := by
  by_contra hfound
  obtain ⟨j, -, -, he⟩ := ((inv_new isBid capLog).present_iff hp).mpr hfound
  exact hp.1 he.symm

/-- **`best()`** is the best price, and `empty()` says whether there is one. -/
theorem best_spec (h : Inv t) :
    (t.empty = true ∧ ∀ p, IsPrice p → t.find p = none) ∨
      (t.empty = false ∧ IsPrice t.best ∧ t.find t.best ≠ none ∧
        ∀ p, IsPrice p → t.find p ≠ none → ¬ better t.isBid p t.best) := by
  have hempty : t.empty = true ↔ ∀ p, ¬ t.Present p := by
    rw [empty, h.count, decide_eq_true_eq, Finset.card_eq_zero, Finset.eq_empty_iff_forall_notMem]
    constructor
    · rintro hno p ⟨j, hj, hp, rfl⟩
      exact hno j (OpenAddress.mem_entries.mpr ⟨hj, hp⟩)
    · intro hno j hj
      obtain ⟨hj, hkey⟩ := OpenAddress.mem_entries.mp hj
      exact hno _ ⟨j, hj, hkey, rfl⟩
  obtain ⟨hle, hbest | ⟨-, hnone⟩⟩ := h.best
  · right
    have hne : t.empty = false := by
      rw [← Bool.not_eq_true, hempty]
      exact fun hno => hno _ hbest
    obtain ⟨j, hj, hprice, hkey⟩ := id hbest
    exact ⟨hne, hprice, (h.present_iff hprice).mp hbest, fun p hp hfound =>
      hle p ((h.present_iff hp).mpr hfound)⟩
  · left
    refine ⟨hempty.mpr hnone, fun p hp => ?_⟩
    by_contra hfound
    exact hnone p ((h.present_iff hp).mpr hfound)

/-! ### Changes -/

/-- What is found, from where the levels are. -/
theorem find_congr {t' : PriceLevelTable} (h : Inv t) (h' : Inv t')
    (hsame : ∀ l, (∃ j < t'.cap, (t'.slots j).price = p ∧ (t'.slots j).lvl = l) ↔
      ∃ j < t.cap, (t.slots j).price = p ∧ (t.slots j).lvl = l) (hp : IsPrice p) :
    t'.find p = t.find p := by
  ext l
  rw [h'.find_eq_some hp, h.find_eq_some hp]
  exact hsame l

/-- Entering a new level in a free cell. -/
theorem enter (h : Inv t) (hp : IsPrice p) (habsent : ∀ j < t.cap, (t.slots j).price ≠ p) {i : ℕ}
    (hopen : OpenAddress.Open scheme t.cap t.probe t.slots p i) :
    Inv (t.enter i p) ∧ (∀ q, IsPrice q → q ≠ p → (t.enter i p).find q = t.find q) := by
  have hfree : i ∉ OpenAddress.entries scheme t.cap t.slots := fun hi =>
    hopen.free (OpenAddress.mem_entries.mp hi).2
  have hinv : Inv (t.enter i p) := by
    have hchained : OpenAddress.Chained scheme t.cap t.probe
        (Function.update t.slots i { price := p }) := h.chained.insert hp habsent hopen
    refine ⟨hchained, ?_, ?_⟩
    · show t.count + 1 = (OpenAddress.entries scheme t.cap
        (Function.update t.slots i { price := p })).card
      rw [OpenAddress.entries_insert hopen.lt (show scheme.IsKey p from hp),
        Finset.card_insert_of_notMem hfree, h.count]
    · have hpresent : (t.enter i p).Present = fun q => t.Present q ∨ q = p := by
        funext q
        refine propext ⟨?_, ?_⟩
        · rintro ⟨j, hj, hq, he⟩
          by_cases hij : j = i
          · right
            rw [hij] at he
            simpa [PriceLevelTable.enter] using he.symm
          · left
            exact ⟨j, hj, hq, by simpa [PriceLevelTable.enter, hij] using he⟩
        · rintro (⟨j, hj, hq, rfl⟩ | rfl)
          · have hij : j ≠ i := fun he => hfree (he ▸ OpenAddress.mem_entries.mpr ⟨hj, hq⟩)
            exact ⟨j, hj, hq, by simp [PriceLevelTable.enter, hij]⟩
          · exact ⟨i, hopen.lt, hp, by simp [PriceLevelTable.enter]⟩
      rw [hpresent]
      exact h.best.improve p
  refine ⟨hinv, fun q hq hqp => h.find_congr hinv (fun l => ?_) hq⟩
  constructor
  · rintro ⟨j, hj, he, hl⟩
    by_cases hij : j = i
    · rw [hij] at he
      exact absurd (by simpa [PriceLevelTable.enter] using he.symm) hqp
    · exact ⟨j, hj, by simpa [PriceLevelTable.enter, hij] using he,
        by simpa [PriceLevelTable.enter, hij] using hl⟩
  · rintro ⟨j, hj, rfl, hl⟩
    have hij : j ≠ i := fun he => hfree (he ▸ OpenAddress.mem_entries.mpr ⟨hj, hq⟩)
    exact ⟨j, hj, by simp [PriceLevelTable.enter, hij], by simpa [PriceLevelTable.enter, hij]⟩

/-- **`grow`** succeeds, keeps all levels, and leaves room. -/
theorem grow_spec (h : Inv t) : ∃ t', t.grow = some t' ∧ Inv t' ∧ t'.isBid = t.isBid ∧
    t'.best = t.best ∧ (∀ q, IsPrice q → t'.find q = t.find q) ∧
    (∃ j < t'.cap, (t'.slots j).price = kEmpty) ∧ ∀ q, t'.Present q ↔ t.Present q := by
  have hcap : t.cap < 2 ^ (t.capLog + 1) := by
    rw [cap, Nat.pow_succ]
    have := Nat.two_pow_pos t.capLog
    omega
  have hfresh : ∀ j, scheme.key ((fun _ => { price := kEmpty } : ℕ → Slot) j) = scheme.empty :=
    fun _ => rfl
  obtain ⟨ns, hrun, hmoved, hgap⟩ :=
    OpenAddress.rehash_spec h.chained (home_lt (t.capLog + 1)) hcap hfresh
  have hsame : ∀ s : Slot, IsPrice s.price →
      ((∃ j < 2 ^ (t.capLog + 1), ns j = s) ↔ ∃ j < t.cap, t.slots j = s) := hmoved.same
  have hpresent : ∀ q,
      ({ t with slots := ns, capLog := t.capLog + 1 } : PriceLevelTable).Present q ↔
      t.Present q := by
    intro q
    constructor
    · rintro ⟨j, hj, hq, rfl⟩
      obtain ⟨i, hi, he⟩ := (hsame (ns j) hq).mp ⟨j, hj, rfl⟩
      exact ⟨i, hi, hq, congrArg Slot.price he⟩
    · rintro ⟨j, hj, hq, rfl⟩
      obtain ⟨i, hi, he⟩ := (hsame (t.slots j) hq).mpr ⟨j, hj, rfl⟩
      exact ⟨i, hi, hq, congrArg Slot.price he⟩
  have hinv : Inv { t with slots := ns, capLog := t.capLog + 1 } :=
    ⟨hmoved.chained, h.count.trans hmoved.card.symm, by
      rw [show ({ t with slots := ns, capLog := t.capLog + 1 } : PriceLevelTable).Present =
        t.Present from funext fun q => propext (hpresent q)]
      exact h.best⟩
  refine ⟨_, by rw [grow, hrun]; rfl, hinv, rfl, rfl,
    fun q hq => h.find_congr hinv (fun l => ?_) hq,
    hgap, hpresent⟩
  constructor
  · rintro ⟨j, hj, rfl, rfl⟩
    obtain ⟨i, hi, he⟩ := (hsame (ns j) hq).mp ⟨j, hj, rfl⟩
    exact ⟨i, hi, congrArg Slot.price he, congrArg Slot.lvl he⟩
  · rintro ⟨j, hj, rfl, rfl⟩
    obtain ⟨i, hi, he⟩ := (hsame (t.slots j) hq).mpr ⟨j, hj, rfl⟩
    exact ⟨i, hi, congrArg Slot.price he, congrArg Slot.lvl he⟩

/-- **`operator[]`** returns the cell of the price, with the level that was there or a new one. -/
theorem subscript_spec (h : Inv t) (hp : IsPrice p) : ∃ i t', t.subscript p = some (i, t') ∧
    Inv t' ∧ i < t'.cap ∧ (t'.slots i).price = p ∧ (t'.slots i).lvl = (t.find p).getD {} ∧
    t'.isBid = t.isBid ∧ ∀ q, IsPrice q → q ≠ p → t'.find q = t.find q := by
  rcases h.search_cases hp with ⟨j, hj, hkey, hsearch⟩ | ⟨habsent, hsearch⟩
  · rw [subscript, hsearch]
    have hfind : t.find p = some (t.slots j).lvl := (h.find_eq_some hp).mpr ⟨j, hj, hkey, rfl⟩
    have hbest : improve t.isBid t.best p = t.best := if_neg (h.best.1 p ⟨j, hj, hp, hkey⟩)
    refine ⟨j, t, by rw [hbest], h, hj, hkey, by rw [hfind]; rfl, rfl, fun _ _ _ => rfl⟩
  have hnone : t.find p = none := by
    by_contra hfound
    obtain ⟨j, hj, -, he⟩ := (h.present_iff hp).mpr hfound
    exact habsent j hj he
  rw [hnone]
  rcases hsearch with ⟨j, tomb, hsearch, hopen⟩ | hsearch
  · rw [subscript, hsearch]
    obtain ⟨hinv, hother⟩ := h.enter hp habsent hopen
    refine ⟨_, _, rfl, hinv, hopen.lt, ?_, ?_, rfl, hother⟩ <;>
      simp [PriceLevelTable.enter]
  · rw [subscript, hsearch]
    obtain ⟨t', hgrow, h', hbid, -, hfind, hgap, hpresent⟩ := h.grow_spec
    have habsent' : ∀ j < t'.cap, (t'.slots j).price ≠ p := by
      intro j hj he
      obtain ⟨i, hi, -, hei⟩ := (hpresent p).mp ⟨j, hj, hp, he⟩
      exact habsent i hi hei
    obtain ⟨i, hi, -, hopen⟩ := OpenAddress.firstGap_spec (c := scheme) (k := p)
      (h'.chained.home_lt p) hgap
    obtain ⟨hinv, hother⟩ := h'.enter hp habsent' hopen
    refine ⟨i, t'.enter i p, ?_, hinv, hopen.lt, ?_, ?_, hbid, fun q hq hqp => ?_⟩
    · simp only [hgrow, Option.bind_some, hi, Option.map_some]
    · simp [PriceLevelTable.enter]
    · simp [PriceLevelTable.enter]
    · rw [hother q hq hqp, hfind q hq]

/-- **Using a level** changes what is found at its price. -/
theorem update_spec (h : Inv t) (hp : IsPrice p) (f : PriceLevel → PriceLevel) :
    ∃ t', t.update p f = some ((t.find p).getD {}, t') ∧ Inv t' ∧ t'.isBid = t.isBid ∧
      ∀ q, IsPrice q → t'.find q = if q = p then some (f ((t.find p).getD {})) else t.find q := by
  obtain ⟨i, t', hsub, h', hi, hprice, hlvl, hbid, hother⟩ := h.subscript_spec hp
  have hprices : ∀ j, ((t'.write i (f (t'.slots i).lvl)).slots j).price = (t'.slots j).price := by
    intro j
    by_cases hij : j = i
    · subst hij
      simp [write]
    · simp [write, hij]
  have hinv : Inv (t'.write i (f (t'.slots i).lvl)) := by
    refine ⟨h'.chained.modify (by rfl), h'.count.trans (congrArg Finset.card ?_), ?_⟩
    · ext j
      rw [OpenAddress.mem_entries, OpenAddress.mem_entries]
      refine and_congr_right fun _ => ?_
      show IsPrice (t'.slots j).price ↔ IsPrice ((t'.write i (f (t'.slots i).lvl)).slots j).price
      rw [hprices j]
    · have hpresent : (t'.write i (f (t'.slots i).lvl)).Present = t'.Present := by
        funext q
        exact propext (exists_congr fun j => by rw [hprices j]; rfl)
      rw [hpresent]
      exact h'.best
  refine ⟨t'.write i (f (t'.slots i).lvl), ?_, hinv, hbid, fun q hq => ?_⟩
  · rw [update, hsub, Option.map_some, ← hlvl]
  · by_cases hqp : q = p
    · subst hqp
      rw [if_pos rfl, hinv.find_eq_some hq]
      exact ⟨i, hi, (hprices i).trans hprice, by simp [write, hlvl]⟩
    · rw [if_neg hqp, ← hother q hq hqp]
      refine h'.find_congr hinv (fun l => exists_congr fun j => and_congr_right fun _ => ?_) hq
      rw [hprices j]
      refine and_congr_right fun he => ?_
      have hij : j ≠ i := fun hij => hqp (by rw [← he, hij, hprice])
      simp [write, hij]

/-- The scan of `rescan_best`. -/
theorem rescanBest_best (t : PriceLevelTable) : IsBest t.isBid t.Present t.rescanBest.best := by
  have hloop : ∀ m, IsBest t.isBid (fun q => ∃ j < m, IsPrice q ∧ (t.slots j).price = q)
      ((List.range m).foldl (fun best i =>
        if (t.slots i).price = kEmpty ∨ (t.slots i).price = kTombstone then best
        else PriceLevelTable.improve t.isBid best (t.slots i).price) (worst t.isBid)) := by
    intro m
    induction m with
    | zero =>
      exact ⟨fun p ⟨j, hj, _⟩ => absurd hj (Nat.not_lt_zero j),
        Or.inr ⟨rfl, fun p ⟨j, hj, _⟩ => absurd hj (Nat.not_lt_zero j)⟩⟩
    | succ m ih =>
      rw [List.range_succ, List.foldl_append, List.foldl_cons, List.foldl_nil]
      by_cases hkey : IsPrice (t.slots m).price
      · have hset : (fun q => ∃ j < m + 1, IsPrice q ∧ (t.slots j).price = q) =
            fun q => (∃ j < m, IsPrice q ∧ (t.slots j).price = q) ∨ q = (t.slots m).price := by
          funext q
          refine propext ⟨?_, ?_⟩
          · rintro ⟨j, hj, hq, he⟩
            rcases Nat.lt_succ_iff_lt_or_eq.mp hj with hj | rfl
            · exact Or.inl ⟨j, hj, hq, he⟩
            · exact Or.inr he.symm
          · rintro (⟨j, hj, hq, he⟩ | rfl)
            · exact ⟨j, by omega, hq, he⟩
            · exact ⟨m, by omega, hkey, rfl⟩
        rw [if_neg (not_or.mpr hkey), hset]
        exact ih.improve _
      · have hmark : (t.slots m).price = kEmpty ∨ (t.slots m).price = kTombstone := by
          by_contra hno
          exact hkey (not_or.mp hno)
        have hset : (fun q => ∃ j < m + 1, IsPrice q ∧ (t.slots j).price = q) =
            fun q => ∃ j < m, IsPrice q ∧ (t.slots j).price = q := by
          funext q
          refine propext ⟨?_, fun ⟨j, hj, hq⟩ => ⟨j, by omega, hq⟩⟩
          rintro ⟨j, hj, hq, he⟩
          refine ⟨j, ?_, hq, he⟩
          have : j ≠ m := fun hjm => hkey (by rw [← hjm, he]; exact hq)
          omega
        rw [if_pos hmark, hset]
        exact ih
  exact hloop t.cap

/-- Deleting the cell of a price takes the price away; the best price may have to be found anew. -/
theorem bury_spec (h : Inv t) (hp : IsPrice p) {j : ℕ} (hj : j < t.cap)
    (hkey : (t.slots j).price = p) :
    (∀ q, (t.bury j).Present q ↔ t.Present q ∧ q ≠ p) ∧
      ∀ best, IsBest t.isBid (t.bury j).Present best → Inv { t.bury j with best := best } ∧
        ∀ q, IsPrice q → ({ t.bury j with best := best } : PriceLevelTable).find q =
          if q = p then none else t.find q := by
  have hself : ((t.bury j).slots j).price = kTombstone := by simp [bury]
  have hother : ∀ i, i ≠ j → (t.bury j).slots i = t.slots i := by
    intro i hij
    simp [bury, hij]
  have hne : ∀ i, IsPrice ((t.bury j).slots i).price → i ≠ j := by
    rintro i hi rfl
    exact hi.2 hself
  have hchained : OpenAddress.Chained scheme (t.bury j).cap (t.bury j).probe (t.bury j).slots :=
    h.chained.erase (by rfl)
  have hcount : (t.bury j).count =
      (OpenAddress.entries scheme (t.bury j).cap (t.bury j).slots).card := by
    have hmem : j ∈ OpenAddress.entries scheme t.cap t.slots :=
      OpenAddress.mem_entries.mpr ⟨hj, by show IsPrice (t.slots j).price; rw [hkey]; exact hp⟩
    have hentries : OpenAddress.entries scheme (t.bury j).cap (t.bury j).slots =
        (OpenAddress.entries scheme t.cap t.slots).erase j :=
      OpenAddress.entries_erase (fun hk => hk.2 rfl)
    rw [hentries, Finset.card_erase_of_mem hmem, ← h.count]
    rfl
  have hpresent : ∀ q, (t.bury j).Present q ↔ t.Present q ∧ q ≠ p := by
    intro q
    constructor
    · rintro ⟨i, hi, hq, rfl⟩
      have hij := hne i hq
      rw [hother i hij] at hq ⊢
      refine ⟨⟨i, hi, hq, rfl⟩, fun he => hij ?_⟩
      exact h.chained.inj i hi j hj hq (he.trans hkey.symm)
    · rintro ⟨⟨i, hi, hq, rfl⟩, hqp⟩
      have hij : i ≠ j := by
        rintro rfl
        exact hqp hkey
      exact ⟨i, hi, hq, by rw [hother i hij]⟩
  refine ⟨hpresent, fun best hbest => ?_⟩
  have hinv : Inv { t.bury j with best := best } := ⟨hchained, hcount, hbest⟩
  refine ⟨hinv, fun q hq => ?_⟩
  by_cases hqp : q = p
  · rw [if_pos hqp]
    by_contra hfound
    exact ((hpresent q).mp ((hinv.present_iff hq).mpr hfound)).2 hqp
  · rw [if_neg hqp]
    refine h.find_congr hinv (fun l => ?_) hq
    constructor
    · rintro ⟨i, hi, rfl, rfl⟩
      have hij := hne i hq
      exact ⟨i, hi, congrArg Slot.price (hother i hij).symm, congrArg Slot.lvl (hother i hij).symm⟩
    · rintro ⟨i, hi, rfl, rfl⟩
      have hij : i ≠ j := by
        rintro rfl
        exact hqp hkey
      exact ⟨i, hi, congrArg Slot.price (hother i hij), congrArg Slot.lvl (hother i hij)⟩

/-- **`erase`** takes the level away. -/
theorem erase_spec (h : Inv t) (hp : IsPrice p) : Inv (t.erase p) ∧
    (t.erase p).isBid = t.isBid ∧
    ∀ q, IsPrice q → (t.erase p).find q = if q = p then none else t.find q := by
  rcases h.search_cases hp with ⟨j, hj, hkey, hsearch⟩ | ⟨habsent, hsearch⟩
  · obtain ⟨hpresent, hfinish⟩ := h.bury_spec hp hj hkey
    rw [erase, hsearch]
    by_cases hpb : p = t.best
    · simp only [if_pos hpb]
      obtain ⟨hinv, hfind⟩ := hfinish _ (rescanBest_best (t.bury j))
      exact ⟨hinv, rfl, hfind⟩
    · simp only [if_neg hpb]
      have hkeep : IsBest t.isBid (t.bury j).Present t.best := by
        refine ⟨fun q hq => h.best.1 q ((hpresent q).mp hq).1, ?_⟩
        rcases h.best.2 with hb | ⟨-, hnone⟩
        · exact Or.inl ((hpresent _).mpr ⟨hb, Ne.symm hpb⟩)
        · exact absurd ⟨j, hj, hp, hkey⟩ (hnone p)
      obtain ⟨hinv, hfind⟩ := hfinish _ hkeep
      exact ⟨hinv, rfl, hfind⟩
  · -- the price is not there
    have hnone : t.find p = none := by
      by_contra hfound
      obtain ⟨j, hj, -, he⟩ := (h.present_iff hp).mpr hfound
      exact habsent j hj he
    have herase : t.erase p = t := by
      rcases hsearch with ⟨i, tomb, hsearch, -⟩ | hsearch <;> rw [erase, hsearch]
    rw [herase]
    refine ⟨h, rfl, fun q _ => ?_⟩
    split
    · next hqp => rw [hqp, hnone]
    · rfl

end Inv

end PriceLevelTable

end NebulaX.Market
