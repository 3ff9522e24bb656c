import NebulaX.Market.PriceLevelTable

/-!
# The price levels as a map

What the table of price levels is for: a finite map from prices to levels, of which the best price
is known. Calls on the table and the same calls on the map give the same results, however they
follow each other, and what else can be read off the table is read off the map.

This is for tables of two to `2 ^ 31` cells. `Roomy` says of a run that no call of it has to grow a
table that has `2 ^ 31` cells already.

## Main results

* `Represents.perform` — one call
* `runs_as_map` — any calls on a new table
* `cells_too_many` — a table of `2 ^ 32` cells
-/

namespace NebulaX.Market

open PriceLevelTable

/-- The map that a table stands for. -/
abbrev LevelMap := Int64 → Option PriceLevel

/-- The calls that are made on a table. -/
inductive LevelCall
  /-- `operator[](price)`, and the changes `f` through the reference that it returns. -/
  | subscript (price : Int64) (f : PriceLevel → PriceLevel)
  /-- `erase(price)`. -/
  | erase (price : Int64)
  /-- `find(price, out)`. -/
  | find (price : Int64)

namespace LevelCall

/-- The price that a call is about. -/
def price : LevelCall → Int64
  | .subscript p _ | .erase p | .find p => p

/-- The call on a table: the level that it returns, if it returns one, and the table afterwards.
A call that does not return is `none`. -/
def attempt (t : PriceLevelTable) : LevelCall → Option (Option PriceLevel × PriceLevelTable)
  | .subscript p f => (t.update p f).map fun (lvl, t) => (some lvl, t)
  | .erase p => some (none, t.erase p)
  | .find p => some (t.find p, t)

/-- The same, and `none` for a call that is not defined, because of the number of cells before it or
of the number that it grows to. -/
def onTable (t : PriceLevelTable) (c : LevelCall) : Option (Option PriceLevel × PriceLevelTable) :=
  if t.Defined then (c.attempt t).filter fun r => r.2.Defined else none

/-- The call on a map. A price that is not there gets a default level. -/
def onMap (m : LevelMap) : LevelCall → Option PriceLevel × LevelMap
  | .subscript p f => (some ((m p).getD {}), Function.update m p (some (f ((m p).getD {}))))
  | .erase p => (none, Function.update m p none)
  | .find p => (m p, m)

/-- One call after the other on a table: what they return, and the table afterwards. -/
def tableRun (t : PriceLevelTable) :
    List LevelCall → Option (List (Option PriceLevel) × PriceLevelTable)
  | [] => some ([], t)
  | c :: cs => do
    let (r, t) ← c.onTable t
    let (rs, t) ← tableRun t cs
    return (r :: rs, t)

/-- The call grows the table: the loop of `operator[]` goes round once and finds no empty cell. -/
def Grows (t : PriceLevelTable) : LevelCall → Prop
  | .subscript p _ => t.search p = .full
  | .erase _ | .find _ => False

/-- No call of the run grows a table of `2 ^ 31` cells. -/
def Roomy : PriceLevelTable → List LevelCall → Prop
  | _, [] => True
  | t, c :: cs => ¬ (t.cap = 2 ^ 31 ∧ c.Grows t) ∧
      ∀ r t', c.onTable t = some (r, t') → Roomy t' cs

/-- One call after the other on a map. -/
def mapRun (m : LevelMap) : List LevelCall → List (Option PriceLevel) × LevelMap
  | [] => ([], m)
  | c :: cs => ((c.onMap m).1 :: (mapRun (c.onMap m).2 cs).1, (mapRun (c.onMap m).2 cs).2)

end LevelCall

/-- **The table stands for the map.** -/
structure Represents (t : PriceLevelTable) (m : LevelMap) : Prop where
  /-- The table is in order. -/
  inv : Inv t
  /-- It finds what the map has. -/
  find : ∀ p, IsPrice p → t.find p = m p
  /-- The two marks are no prices. -/
  mark : ∀ p, ¬IsPrice p → m p = none

/-- What else can be read off a table, in terms of the map. -/
structure ReadsAs (t : PriceLevelTable) (m : LevelMap) : Prop where
  /-- `find` at any price. -/
  find : ∀ p, IsPrice p → t.find p = m p
  /-- `size()` is the number of prices. -/
  size : ∃ prices : Finset Int64, (∀ p, p ∈ prices ↔ m p ≠ none) ∧ t.size = prices.card
  /-- No price is in two cells. -/
  oneCell : ∀ i < t.cap, ∀ j < t.cap, IsPrice (t.slots i).price →
    (t.slots i).price = (t.slots j).price → i = j
  /-- `best()` is one of them, if there are any. -/
  best_mem : (∃ p, m p ≠ none) → m t.best ≠ none
  /-- It is the highest one of a table of bids, the lowest one of a table of asks. -/
  best_extreme : ∀ p, m p ≠ none → if t.isBid then p ≤ t.best else t.best ≤ p
  /-- `best_qty()` is the quantity of its level. -/
  bestQty : ∀ lvl, m t.best = some lvl → t.bestQty = lvl.totalQty.toUInt64
  /-- And nothing for a table without prices. -/
  bestQty_empty : (∀ p, m p = none) → t.bestQty = 0

section Represents

variable {t : PriceLevelTable} {m : LevelMap}

theorem represents_new (isBid : Bool) (capLog : ℕ) :
    Represents (PriceLevelTable.new isBid capLog) fun _ => none where
  inv := inv_new isBid capLog
  find _ hp := Inv.find_new isBid capLog hp
  mark _ _ := rfl

/-- The prices of the map are those of the table. -/
theorem Represents.present_iff (h : Represents t m) (p : Int64) : t.Present p ↔ m p ≠ none := by
  by_cases hp : IsPrice p
  · rw [h.inv.present_iff hp, h.find p hp]
  · exact iff_of_false (fun ⟨_, _, hkey, _⟩ => hp hkey) (not_not.mpr (h.mark p hp))

/-- A change at one price. -/
theorem Represents.change {t' : PriceLevelTable} {p : Int64} {v : Option PriceLevel}
    (h : Represents t m) (hp : IsPrice p) (hinv : Inv t')
    (hfind : ∀ q, IsPrice q → t'.find q = if q = p then v else t.find q) :
    Represents t' (Function.update m p v) where
  inv := hinv
  find q hq := by rw [hfind q hq, Function.update_apply, h.find q hq]
  mark q hq := by
    have hqp : q ≠ p := fun he => hq (he ▸ hp)
    rw [Function.update_of_ne hqp]
    exact h.mark q hq

/-- A call is defined if the tables before it and after it are. -/
theorem LevelCall.onTable_of_defined {c : LevelCall} {r : Option PriceLevel × PriceLevelTable}
    (hdef : t.Defined) (h : c.attempt t = some r) (hdef' : r.2.Defined) : c.onTable t = some r := by
  rw [onTable, if_pos hdef, h]
  exact Option.filter_some_pos (decide_eq_true hdef')

/-- **One call** returns, returns what it returns on the map, and leaves the table of the map. -/
theorem Represents.perform (h : Represents t m) (hdef : t.Defined) {c : LevelCall}
    (hc : IsPrice c.price) (hroom : ¬ (t.cap = 2 ^ 31 ∧ c.Grows t)) :
    ∃ t', c.onTable t = some ((c.onMap m).1, t') ∧ t'.Defined ∧ t'.isBid = t.isBid ∧
      Represents t' (c.onMap m).2 := by
  cases c with
  | subscript p f =>
    have hc : IsPrice p := hc
    obtain ⟨t', hupdate, hinv, hbid, hfind⟩ := h.inv.update_spec hc f
    have hdef' : t'.Defined := by
      rw [defined_iff] at hdef ⊢
      rcases capLog_update hupdate with ⟨hfull, hcap⟩ | ⟨-, hcap⟩
      · have hlog : t.capLog ≠ 31 := fun hlog => hroom ⟨by rw [cap, hlog], hfull⟩
        omega
      · omega
    rw [h.find p hc] at hupdate hfind
    refine ⟨t', LevelCall.onTable_of_defined hdef ?_ hdef', hdef', hbid,
      h.change hc hinv hfind⟩
    rw [LevelCall.attempt, hupdate]
    rfl
  | erase p =>
    have hc : IsPrice p := hc
    obtain ⟨hinv, hbid, hfind⟩ := h.inv.erase_spec hc
    have hdef' : (t.erase p).Defined := by
      rw [defined_iff, capLog_erase]
      exact t.defined_iff.mp hdef
    exact ⟨t.erase p, LevelCall.onTable_of_defined hdef rfl hdef', hdef', hbid,
      h.change hc hinv hfind⟩
  | find p =>
    have hc : IsPrice p := hc
    refine ⟨t, LevelCall.onTable_of_defined hdef ?_ hdef, hdef, rfl, h⟩
    rw [LevelCall.attempt, h.find p hc]
    rfl

/-- **A run of calls.** -/
theorem Represents.run (h : Represents t m) (hdef : t.Defined) {cs : List LevelCall}
    (hcs : ∀ c ∈ cs, IsPrice c.price) (hroom : LevelCall.Roomy t cs) :
    ∃ t', LevelCall.tableRun t cs = some ((LevelCall.mapRun m cs).1, t') ∧
      t'.isBid = t.isBid ∧ Represents t' (LevelCall.mapRun m cs).2 := by
  induction cs generalizing t m with
  | nil => exact ⟨t, rfl, rfl, h⟩
  | cons c cs ih =>
    obtain ⟨t₁, hcall, hdef₁, hbid₁, h₁⟩ := h.perform hdef (hcs c List.mem_cons_self) hroom.1
    obtain ⟨t', hrun, hbid, h'⟩ :=
      ih h₁ hdef₁ (fun c' hc' => hcs c' (List.mem_cons_of_mem c hc')) (hroom.2 _ t₁ hcall)
    refine ⟨t', ?_, hbid.trans hbid₁, h'⟩
    rw [LevelCall.tableRun, hcall]
    simp [hrun, LevelCall.mapRun]

/-- `size()` counts the prices. -/
theorem Represents.size (h : Represents t m) :
    ∃ prices : Finset Int64, (∀ p, p ∈ prices ↔ m p ≠ none) ∧ t.size = prices.card := by
  refine ⟨(OpenAddress.entries scheme t.cap t.slots).image fun j => (t.slots j).price,
    fun p => ?_, ?_⟩
  · rw [← h.present_iff p, Finset.mem_image]
    constructor
    · rintro ⟨j, hj, rfl⟩
      obtain ⟨hlt, hkey⟩ := OpenAddress.mem_entries.mp hj
      exact ⟨j, hlt, hkey, rfl⟩
    · rintro ⟨j, hlt, hkey, rfl⟩
      exact ⟨j, OpenAddress.mem_entries.mpr ⟨hlt, hkey⟩, rfl⟩
  · rw [PriceLevelTable.size, h.inv.count, Finset.card_image_of_injOn]
    intro i hi j hj he
    obtain ⟨hi, hkey⟩ := OpenAddress.mem_entries.mp hi
    exact h.inv.chained.inj i hi j (OpenAddress.mem_entries.mp hj).1 hkey he

theorem Represents.empty_iff (h : Represents t m) : t.empty = true ↔ ∀ p, m p = none := by
  rcases h.inv.best_spec with ⟨hempty, hnone⟩ | ⟨hempty, hprice, hbest, -⟩
  · refine iff_of_true hempty fun p => ?_
    by_cases hp : IsPrice p
    · rw [← h.find p hp, hnone p hp]
    · exact h.mark p hp
  · rw [h.find _ hprice] at hbest
    exact iff_of_false (by rw [hempty]; decide) fun hnone => hbest (hnone _)

/-- **Everything that can be read off the table** is read off the map. -/
theorem Represents.reads (h : Represents t m) : ReadsAs t m where
  find := h.find
  size := h.size
  oneCell := h.inv.chained.inj
  best_mem := by
    rintro ⟨p, hp⟩
    rcases h.inv.best_spec with ⟨hempty, -⟩ | ⟨-, hprice, hbest, -⟩
    · exact absurd (h.empty_iff.mp hempty p) hp
    · rwa [← h.find _ hprice]
  best_extreme := by
    intro p hp
    have hno := h.inv.best.1 p ((h.present_iff p).mpr hp)
    rw [better] at hno
    split at hno <;> rename_i hbid <;> simp only [hbid, if_true, if_false, Bool.false_eq_true]
    · exact Int64.not_lt.mp hno
    · exact Int64.not_lt.mp hno
  bestQty := by
    intro lvl hlvl
    have hprice : IsPrice t.best := by
      by_contra hmark
      exact absurd (hlvl.symm.trans (h.mark _ hmark)) (by simp)
    have hempty : t.empty = false := by
      rw [← Bool.not_eq_true, h.empty_iff]
      exact fun hnone => absurd (hlvl.symm.trans (hnone _)) (by simp)
    rw [PriceLevelTable.bestQty, hempty, h.find _ hprice, hlvl]
    rfl
  bestQty_empty := by
    intro hnone
    rw [PriceLevelTable.bestQty, h.empty_iff.mpr hnone]
    rfl

end Represents

/-- A call grows a table once at most. -/
theorem LevelCall.capLog_le {c : LevelCall} {r : Option PriceLevel} {t' : PriceLevelTable}
    (h : c.onTable t = some (r, t')) : t'.capLog ≤ t.capLog + 1 := by
  rw [onTable] at h
  split at h
  · have h := Option.eq_some_of_filter_eq_some h
    cases c with
    | subscript p f =>
      obtain ⟨⟨lvl, t₁⟩, hupdate, heq⟩ := Option.map_eq_some_iff.mp h
      obtain ⟨-, rfl⟩ := Prod.mk.inj heq
      rcases capLog_update hupdate with ⟨-, hcap⟩ | ⟨-, hcap⟩ <;> omega
    | erase p =>
      obtain ⟨-, rfl⟩ := Prod.mk.inj (Option.some.inj h)
      rw [capLog_erase]
      omega
    | find p =>
      obtain ⟨-, rfl⟩ := Prod.mk.inj (Option.some.inj h)
      omega
  · exact absurd h (by simp)

/-- Few calls do not fill a table. -/
theorem LevelCall.roomy_of_le {cs : List LevelCall} (h : t.capLog + cs.length ≤ 31) :
    Roomy t cs := by
  induction cs generalizing t with
  | nil => trivial
  | cons c cs ih =>
    rw [List.length_cons] at h
    refine ⟨fun ⟨hcap, _⟩ => ?_, fun r t' hcall => ih ?_⟩
    · have hlog : t.capLog = 31 := Nat.pow_right_injective (le_refl 2) hcap
      omega
    · have hle := capLog_le hcall
      omega

/-- **A table of price levels is a map with a cached best price.** Any calls of `operator[]`, with
writes through the reference, `erase` and `find`, on a new table of two to `2 ^ 31` cells that does
not grow beyond, come to an end and return what they return on the map. In the table that they
leave, `find` gives the levels of the map, `size()` the number of its prices, none of which has two
cells, `best()` the highest one (for bids) or the lowest one (for asks), and `best_qty()` the
quantity there. -/
theorem runs_as_map (isBid : Bool) {capLog : ℕ} (hlo : 1 ≤ capLog) (hhi : capLog ≤ 31)
    {cs : List LevelCall} (hcs : ∀ c ∈ cs, IsPrice c.price)
    (hroom : LevelCall.Roomy (PriceLevelTable.new isBid capLog) cs) :
    ∃ t, LevelCall.tableRun (PriceLevelTable.new isBid capLog) cs =
        some ((LevelCall.mapRun (fun _ => none) cs).1, t) ∧
      t.isBid = isBid ∧ ReadsAs t (LevelCall.mapRun (fun _ => none) cs).2 := by
  obtain ⟨t, hrun, hbid, h⟩ := (represents_new isBid capLog).run
    ((PriceLevelTable.new isBid capLog).defined_iff.mpr ⟨hlo, hhi⟩) hcs hroom
  exact ⟨t, hrun, hbid, h.reads⟩

/-- Three prices in a table of two cells, one of them taken away and put back. -/
def reinserted : List LevelCall :=
  [.subscript 7 ({ · with totalQty := 3 }), .subscript 9 ({ · with totalQty := 4 }), .erase 9,
    .subscript 8 ({ · with totalQty := 5 }), .subscript 9 id, .find 9]

/-- The price that was put back has a default level. -/
theorem runs_as_map_reinserted : ∃ t, LevelCall.tableRun (PriceLevelTable.new true 1) reinserted =
      some ([some {}, some {}, none, some {}, some {}, some {}], t) ∧
    ReadsAs t (LevelCall.mapRun (fun _ => none) reinserted).2 := by
  have hresults : (LevelCall.mapRun (fun _ => none) reinserted).1 =
      [some {}, some {}, none, some {}, some {}, some {}] := by decide
  obtain ⟨t, hrun, -, hreads⟩ := @runs_as_map true 1 (by decide) (by decide) reinserted (by decide)
    (LevelCall.roomy_of_le (by decide))
  exact ⟨t, hresults ▸ hrun, hreads⟩

/-- **A table of `2 ^ 32` cells** is no map: not even `find` is defined, since nothing is left of
the capacity in an `unsigned int`. -/
theorem cells_too_many : ¬∃ t, LevelCall.tableRun (PriceLevelTable.new true 32) [.find 7] =
      some ((LevelCall.mapRun (fun _ => none) [.find 7]).1, t) ∧
    t.isBid = true ∧ ReadsAs t (LevelCall.mapRun (fun _ => none) [.find 7]).2 := by
  rintro ⟨t, hrun, -⟩
  have hdef : ¬(PriceLevelTable.new true 32).Defined := by decide
  rw [LevelCall.tableRun, LevelCall.onTable, if_neg hdef] at hrun
  exact absurd hrun (by simp)

end NebulaX.Market
