import Mathlib.Data.Finset.Card
import Mathlib.Data.Nat.Find
import Mathlib.Data.Nat.ModEq
import Mathlib.Data.Finset.Range
import Mathlib.Algebra.Order.Group.Nat
import Mathlib.Logic.Function.Basic

/-!
# Linear probing

A table of `cap` cells. A key lives in the first free cell from its home on, wrapping around at
the end. A deleted cell is marked, not emptied, so that walks pass over it: a walk for a key stops
at the key, at an empty cell, or after one round.

Cells are values of any type `S` with a key read off them. Two keys are not keys of entries: the
one of an empty cell and the one of a deleted cell.

`Chained` is the invariant: between an entry and its home there is no empty cell, and no key has
two entries. `Open k j` says that an entry for `k` may be put in cell `j`.

## Main results

* `walk_cases` — a walk finds the key if it is there, and a cell to put it in if it is not and the
  table has an empty cell
* `Chained.insert`, `Chained.erase` — both keep the invariant
* `rehash_spec` — moving all entries to a bigger table succeeds
-/

namespace OpenAddress

variable {S K : Type}

/-- How cells are read: their keys, and the keys of empty and deleted cells. -/
structure Cells (S K : Type) where
  /-- The key of a cell. -/
  key : S → K
  /-- The key of a cell that was never used. -/
  empty : K
  /-- The key of a cell whose entry was deleted. -/
  tomb : K
  /-- They differ. -/
  empty_ne_tomb : empty ≠ tomb

/-- A key an entry can have. -/
def Cells.IsKey (c : Cells S K) (k : K) : Prop := k ≠ c.empty ∧ k ≠ c.tomb

instance [DecidableEq K] (c : Cells S K) (k : K) : Decidable (c.IsKey k) :=
  inferInstanceAs (Decidable (_ ∧ _))

/-- How a walk ends. -/
inductive Walk
  /-- At the key. -/
  | found (i : ℕ)
  /-- At an empty cell; `tomb` is the first deleted cell on the way. -/
  | gap (i : ℕ) (tomb : Option ℕ)
  /-- After one round. -/
  | full

section Walking

variable [DecidableEq K] (c : Cells S K) (cap : ℕ) (cells : ℕ → S)

/-- Walk from cell `i` in search of `k`, `n` cells at most. -/
def walk (k : K) : ℕ → ℕ → Option ℕ → Walk
  | 0, _, _ => .full
  | n + 1, i, t =>
    if c.key (cells i) = k then .found i
    else
      let t := if c.key (cells i) = c.tomb ∧ t = none then some i else t
      if c.key (cells i) = c.empty then .gap i t
      else walk k n ((i + 1) % cap) t

/-- Walk from cell `i` to the first empty cell, `n` cells at most. -/
def firstGap : ℕ → ℕ → Option ℕ
  | 0, _ => none
  | n + 1, i => if c.key (cells i) = c.empty then some i else firstGap n ((i + 1) % cap)

end Walking

/-- Cell `i` is within `d` steps of `home`, with no empty cell before it. -/
def Reached (c : Cells S K) (cap : ℕ) (cells : ℕ → S) (home i : ℕ) : Prop :=
  ∃ d < cap, i = (home + d) % cap ∧ ∀ d' < d, c.key (cells ((home + d') % cap)) ≠ c.empty

/-- The invariant of a table. -/
structure Chained (c : Cells S K) (cap : ℕ) (home : K → ℕ) (cells : ℕ → S) : Prop where
  /-- Homes are cells. -/
  home_lt : ∀ k, home k < cap
  /-- An entry is reached from its home. -/
  reached : ∀ j < cap, c.IsKey (c.key (cells j)) → Reached c cap cells (home (c.key (cells j))) j
  /-- A key has one entry. -/
  inj : ∀ i < cap, ∀ j < cap, c.IsKey (c.key (cells i)) →
    c.key (cells i) = c.key (cells j) → i = j

/-- An entry for `k` may be put in cell `j`. -/
structure Open (c : Cells S K) (cap : ℕ) (home : K → ℕ) (cells : ℕ → S) (k : K) (j : ℕ) :
    Prop where
  /-- It is a cell of the table. -/
  lt : j < cap
  /-- No entry is in it. -/
  free : ¬ c.IsKey (c.key (cells j))
  /-- A walk for `k` comes to it. -/
  reached : Reached c cap cells (home k) j

/-! ### Positions on a round -/

theorem add_mod_inj {cap i d d' : ℕ} (hd : d < cap) (hd' : d' < cap)
    (h : (i + d) % cap = (i + d') % cap) : d = d' := by
  have hmod : d % cap = d' % cap := Nat.ModEq.add_left_cancel' i h
  rwa [Nat.mod_eq_of_lt hd, Nat.mod_eq_of_lt hd'] at hmod

/-- A round visits every cell. -/
theorem exists_add_mod {cap i j : ℕ} (hi : i < cap) (hj : j < cap) :
    ∃ d < cap, j = (i + d) % cap := by
  rcases Nat.le_total i j with hle | hle
  · refine ⟨j - i, by omega, ?_⟩
    rw [Nat.add_sub_cancel' hle, Nat.mod_eq_of_lt hj]
  · refine ⟨(j + cap - i) % cap, Nat.mod_lt _ (by omega), ?_⟩
    rw [Nat.add_mod_mod, show i + (j + cap - i) = j + cap by omega, Nat.add_mod_right,
      Nat.mod_eq_of_lt hj]

theorem succ_mod_add {cap i d : ℕ} : ((i + 1) % cap + d) % cap = (i + (d + 1)) % cap := by
  rw [Nat.mod_add_mod, Nat.add_assoc, Nat.add_comm 1 d]

section Walks

variable [DecidableEq K] {c : Cells S K} {cap : ℕ} {cells : ℕ → S} {home : K → ℕ}

/-! ### Where a walk ends -/

/-- A walk passes every cell that is neither empty nor of the key. -/
theorem walk_add {k : K} {i n m fuel : ℕ} (hfuel : fuel = m + n) {t : Option ℕ}
    (hpass : ∀ d < m, c.key (cells ((i + d) % cap)) ≠ k ∧
      c.key (cells ((i + d) % cap)) ≠ c.empty) (hi : i < cap) :
    ∃ t', walk c cap cells k fuel i t = walk c cap cells k n ((i + m) % cap) t' ∧
      (t' = t ∨ ∃ d < m, t' = some ((i + d) % cap) ∧
        c.key (cells ((i + d) % cap)) = c.tomb) := by
  subst hfuel
  induction m generalizing i t with
  | zero =>
    refine ⟨t, ?_, Or.inl rfl⟩
    rw [Nat.zero_add, Nat.add_zero, Nat.mod_eq_of_lt hi]
  | succ m ih =>
    obtain ⟨hk, hempty⟩ := hpass 0 (Nat.succ_pos m)
    rw [Nat.add_zero, Nat.mod_eq_of_lt hi] at hk hempty
    have hcap : 0 < cap := Nat.zero_lt_of_lt hi
    obtain ⟨t', hwalk, ht'⟩ := ih (i := (i + 1) % cap)
      (t := if c.key (cells i) = c.tomb ∧ t = none then some i else t)
      (fun d hd => by
        rw [succ_mod_add]
        exact hpass (d + 1) (by omega)) (Nat.mod_lt _ hcap)
    refine ⟨t', ?_, ?_⟩
    · rw [Nat.add_right_comm, walk, if_neg hk]
      simp only [if_neg hempty]
      rw [hwalk, succ_mod_add]
    · rcases ht' with rfl | ⟨d, hd, rfl, htomb⟩
      · by_cases hc : c.key (cells i) = c.tomb ∧ t = none
        · right
          refine ⟨0, Nat.succ_pos m, ?_, ?_⟩
          · rw [if_pos hc, Nat.add_zero, Nat.mod_eq_of_lt hi]
          · rw [Nat.add_zero, Nat.mod_eq_of_lt hi]
            exact hc.1
        · left
          rw [if_neg hc]
      · right
        rw [succ_mod_add] at htomb ⊢
        exact ⟨d + 1, by omega, rfl, htomb⟩

/-- The first cell on a round that satisfies a property, if there is one. -/
theorem exists_first {p : ℕ → Prop} {n : ℕ} (h : ∃ d < n, p d) :
    ∃ d < n, p d ∧ ∀ d' < d, ¬ p d' := by
  classical
  obtain ⟨d, hd, hp⟩ := h
  refine ⟨Nat.find ⟨d, hp⟩, ?_, Nat.find_spec _, fun d' hd' => Nat.find_min _ hd'⟩
  exact Nat.lt_of_le_of_lt (Nat.find_min' _ hp) hd

/-- An entry is found. -/
theorem walk_of_mem (h : Chained c cap home cells) {j : ℕ} (hj : j < cap)
    (hkey : c.IsKey (c.key (cells j))) (t : Option ℕ) :
    walk c cap cells (c.key (cells j)) cap (home (c.key (cells j))) t = .found j := by
  obtain ⟨d, hd, hjd, hbefore⟩ := h.reached j hj hkey
  have hpass : ∀ d' < d, c.key (cells ((home (c.key (cells j)) + d') % cap)) ≠
      c.key (cells j) ∧ c.key (cells ((home (c.key (cells j)) + d') % cap)) ≠ c.empty := by
    intro d' hd'
    refine ⟨fun he => ?_, hbefore d' hd'⟩
    have hij := h.inj j hj _ (Nat.mod_lt _ (Nat.zero_lt_of_lt hj)) hkey he.symm
    have hdd := add_mod_inj hd (Nat.lt_trans hd' hd) (hjd.symm.trans hij)
    omega
  obtain ⟨n, hn⟩ : ∃ n, cap = d + (n + 1) := ⟨cap - d - 1, by omega⟩
  obtain ⟨t', hwalk, -⟩ := walk_add (t := t) hn hpass (h.home_lt _)
  rw [hwalk, ← hjd, walk, if_pos rfl]

/-- **How a walk for a key ends.** -/
theorem walk_cases (h : Chained c cap home cells) {k : K} (hk : c.IsKey k) :
    (∃ j < cap, c.key (cells j) = k ∧
      ∀ t, walk c cap cells k cap (home k) t = .found j) ∨
    (∀ j < cap, c.key (cells j) ≠ k) ∧
      ((∃ j t, walk c cap cells k cap (home k) none = .gap j t ∧
          Open c cap home cells k (t.getD j)) ∨
        walk c cap cells k cap (home k) none = .full ∧
          ∀ j < cap, c.key (cells j) ≠ c.empty) := by
  by_cases hmem : ∃ j < cap, c.key (cells j) = k
  · obtain ⟨j, hj, rfl⟩ := hmem
    exact Or.inl ⟨j, hj, rfl, walk_of_mem h hj hk⟩
  right
  have habsent : ∀ j < cap, c.key (cells j) ≠ k := fun j hj he => hmem ⟨j, hj, he⟩
  have hcap : 0 < cap := Nat.zero_lt_of_lt (h.home_lt k)
  refine ⟨habsent, ?_⟩
  by_cases hgap : ∃ d < cap, c.key (cells ((home k + d) % cap)) = c.empty
  · -- the walk ends at the first empty cell
    left
    obtain ⟨d, hd, hempty, hbefore⟩ := exists_first hgap
    obtain ⟨n, hn⟩ : ∃ n, cap = d + (n + 1) := ⟨cap - d - 1, by omega⟩
    have hlt : ∀ m, (home k + m) % cap < cap := fun m => Nat.mod_lt _ hcap
    obtain ⟨t', hwalk, ht'⟩ := walk_add (t := none) hn
      (fun d' hd' => ⟨habsent _ (hlt d'), hbefore d' hd'⟩) (h.home_lt k)
    have hne : c.key (cells ((home k + d) % cap)) ≠ c.tomb := by
      rw [hempty]
      exact c.empty_ne_tomb
    refine ⟨(home k + d) % cap, t', ?_, ?_⟩
    · rw [hwalk, walk, if_neg (habsent _ (hlt d))]
      simp only [if_neg (fun hc : _ ∧ _ => hne hc.1), if_pos hempty]
    · rcases ht' with rfl | ⟨d', hd', rfl, htomb⟩
      · exact ⟨hlt d, fun hkey => hkey.1 hempty, d, hd, rfl, hbefore⟩
      · exact ⟨hlt d', fun hkey => hkey.2 htomb, d', by omega, rfl,
          fun d'' hd'' => hbefore d'' (by omega)⟩
  · -- no cell is empty
    right
    have hfull : ∀ d < cap, c.key (cells ((home k + d) % cap)) ≠ c.empty :=
      fun d hd he => hgap ⟨d, hd, he⟩
    obtain ⟨t', hwalk, -⟩ := walk_add (n := 0) (t := none) (Nat.add_zero cap).symm
      (fun d hd => ⟨habsent _ (Nat.mod_lt _ hcap), hfull d hd⟩) (h.home_lt k)
    refine ⟨hwalk, fun j hj => ?_⟩
    obtain ⟨d, hd, rfl⟩ := exists_add_mod (h.home_lt k) hj
    exact hfull d hd

/-- If the table has an empty cell, the walk to the first one finds a place for any key. -/
theorem firstGap_spec {k : K} (hhome : home k < cap)
    (hgap : ∃ j < cap, c.key (cells j) = c.empty) :
    ∃ j, firstGap c cap cells cap (home k) = some j ∧ c.key (cells j) = c.empty ∧
      Open c cap home cells k j := by
  have hwalk : ∀ d n i, i < cap → c.key (cells ((i + d) % cap)) = c.empty →
      (∀ d' < d, c.key (cells ((i + d') % cap)) ≠ c.empty) →
        firstGap c cap cells (d + (n + 1)) i = some ((i + d) % cap) := by
    intro d n
    induction d with
    | zero =>
      intro i hi hempty _
      simp only [Nat.add_zero, Nat.mod_eq_of_lt hi] at hempty ⊢
      rw [Nat.zero_add, firstGap, if_pos hempty]
    | succ d ih =>
      intro i hi hempty hbefore
      have h0 := hbefore 0 (Nat.succ_pos d)
      rw [Nat.add_zero, Nat.mod_eq_of_lt hi] at h0
      rw [Nat.add_right_comm, firstGap, if_neg h0, ih _ (Nat.mod_lt _ (Nat.zero_lt_of_lt hi)),
        succ_mod_add]
      · rwa [succ_mod_add]
      · intro d' hd'
        rw [succ_mod_add]
        exact hbefore (d' + 1) (by omega)
  obtain ⟨j, hj, hempty⟩ := hgap
  obtain ⟨d, hd, rfl⟩ := exists_add_mod hhome hj
  have hround : ∃ d < cap, c.key (cells ((home k + d) % cap)) = c.empty := ⟨d, hd, hempty⟩
  obtain ⟨d, hd, hempty, hbefore⟩ := exists_first hround
  obtain ⟨n, hn⟩ : ∃ n, cap = d + (n + 1) := ⟨cap - d - 1, by omega⟩
  refine ⟨(home k + d) % cap, ?_, hempty, Nat.mod_lt _ (by omega), fun hkey => hkey.1 hempty, d, hd,
    rfl, hbefore⟩
  have := hwalk d n (home k) hhome hempty hbefore
  rwa [← hn] at this

/-! ### Entries -/

/-- The cells that hold an entry. -/
def entries (c : Cells S K) (cap : ℕ) (cells : ℕ → S) : Finset ℕ :=
  (Finset.range cap).filter fun j => c.IsKey (c.key (cells j))

theorem mem_entries {j : ℕ} :
    j ∈ entries c cap cells ↔ j < cap ∧ c.IsKey (c.key (cells j)) := by
  rw [entries, Finset.mem_filter, Finset.mem_range]

theorem card_entries_le : (entries c cap cells).card ≤ cap :=
  (Finset.card_filter_le _ _).trans_eq (Finset.card_range cap)

/-- Writing an entry to a cell without one. -/
theorem entries_insert {j : ℕ} {s : S} (hj : j < cap) (hs : c.IsKey (c.key s)) :
    entries c cap (Function.update cells j s) = insert j (entries c cap cells) := by
  ext i
  rw [Finset.mem_insert, mem_entries, mem_entries]
  by_cases hij : i = j
  · subst hij
    rw [Function.update_self]
    exact iff_of_true ⟨hj, hs⟩ (Or.inl rfl)
  · rw [Function.update_of_ne hij]
    exact ⟨Or.inr, fun h => h.resolve_left hij⟩

/-- Writing a mark over an entry. -/
theorem entries_erase {j : ℕ} {s : S} (hs : ¬ c.IsKey (c.key s)) :
    entries c cap (Function.update cells j s) = (entries c cap cells).erase j := by
  ext i
  rw [Finset.mem_erase, mem_entries, mem_entries]
  by_cases hij : i = j
  · subst hij
    rw [Function.update_self]
    exact iff_of_false (fun h => hs h.2) fun h => h.1 rfl
  · rw [Function.update_of_ne hij]
    exact ⟨fun h => ⟨hij, h⟩, And.right⟩

end Walks

/-! ### Writing to the table -/

section Writing

variable {c : Cells S K} {cap : ℕ} {cells : ℕ → S} {home : K → ℕ}

theorem Reached.update {start i j : ℕ} {s : S} (h : Reached c cap cells start i)
    (hs : c.key s ≠ c.empty) : Reached c cap (Function.update cells j s) start i := by
  obtain ⟨d, hd, hi, hbefore⟩ := h
  refine ⟨d, hd, hi, fun d' hd' => ?_⟩
  by_cases hj : (start + d') % cap = j
  · rwa [hj, Function.update_self]
  · rw [Function.update_of_ne hj]
    exact hbefore d' hd'

/-- An entry for a new key may go where the table is open for it. -/
theorem Chained.insert {s : S} {j : ℕ} (h : Chained c cap home cells)
    (hs : c.IsKey (c.key s)) (hnew : ∀ i < cap, c.key (cells i) ≠ c.key s)
    (hj : Open c cap home cells (c.key s) j) :
    Chained c cap home (Function.update cells j s) where
  home_lt := h.home_lt
  reached := by
    intro i hi hkey
    by_cases hij : i = j
    · subst hij
      rw [Function.update_self]
      exact hj.reached.update hs.1
    · rw [Function.update_of_ne hij] at hkey ⊢
      exact (h.reached i hi hkey).update hs.1
  inj := by
    intro i hi i' hi' hkey he
    by_cases hij : i = j <;> by_cases hij' : i' = j
    · rw [hij, hij']
    · rw [hij, Function.update_self, Function.update_of_ne hij'] at he
      exact absurd he.symm (hnew i' hi')
    · rw [hij', Function.update_self, Function.update_of_ne hij] at he
      exact absurd he (hnew i hi)
    · rw [Function.update_of_ne hij] at hkey he
      rw [Function.update_of_ne hij'] at he
      exact h.inj i hi i' hi' hkey he

/-- An entry may be marked deleted. -/
theorem Chained.erase {s : S} {j : ℕ} (h : Chained c cap home cells) (hs : c.key s = c.tomb) :
    Chained c cap home (Function.update cells j s) where
  home_lt := h.home_lt
  reached := by
    have hne : c.key s ≠ c.empty := fun he => c.empty_ne_tomb (he.symm.trans hs)
    intro i hi hkey
    by_cases hij : i = j
    · rw [hij, Function.update_self] at hkey
      exact absurd hs hkey.2
    · rw [Function.update_of_ne hij] at hkey ⊢
      exact (h.reached i hi hkey).update hne
  inj := by
    intro i hi i' hi' hkey he
    have hij : i ≠ j := by
      rintro rfl
      rw [Function.update_self] at hkey
      exact hkey.2 hs
    rw [Function.update_of_ne hij] at hkey he
    have hij' : i' ≠ j := by
      rintro rfl
      rw [Function.update_self, hs] at he
      exact hkey.2 he
    rw [Function.update_of_ne hij'] at he
    exact h.inj i hi i' hi' hkey he

/-- A value may be written to an entry, under the same key. -/
theorem Chained.modify {s : S} {j : ℕ} (h : Chained c cap home cells)
    (hs : c.key s = c.key (cells j)) : Chained c cap home (Function.update cells j s) := by
  have hkeys : ∀ i, c.key (Function.update cells j s i) = c.key (cells i) := by
    intro i
    by_cases hij : i = j
    · rw [hij, Function.update_self, hs]
    · rw [Function.update_of_ne hij]
  refine ⟨h.home_lt, fun i hi hkey => ?_, fun i hi i' hi' hkey he => ?_⟩
  · rw [hkeys] at hkey ⊢
    obtain ⟨d, hd, hid, hbefore⟩ := h.reached i hi hkey
    exact ⟨d, hd, hid, fun d' hd' => by rw [hkeys]; exact hbefore d' hd'⟩
  · rw [hkeys] at hkey he
    rw [hkeys] at he
    exact h.inj i hi i' hi' hkey he

/-- A table of empty cells. -/
theorem chained_empty (hhome : ∀ k, home k < cap) (hcells : ∀ j, c.key (cells j) = c.empty) :
    Chained c cap home cells where
  home_lt := hhome
  reached := fun j _ hkey => absurd (hcells j) hkey.1
  inj := fun i _ _ _ hkey _ => absurd (hcells i) hkey.1

end Writing

/-! ### A bigger table -/

section Growing

variable [DecidableEq K] {c : Cells S K} {cap : ℕ} {cells : ℕ → S} {home : K → ℕ}

/-- Put an entry in the first empty cell from its home on. -/
def place (c : Cells S K) (cap : ℕ) (home : K → ℕ) (cells : ℕ → S) (s : S) : Option (ℕ → S) :=
  (firstGap c cap cells cap (home (c.key s))).map fun j => Function.update cells j s

/-- Place the entries of the first `m` cells of `old`. -/
def rehash (c : Cells S K) (cap : ℕ) (home : K → ℕ) (old : ℕ → S) (m : ℕ) (cells : ℕ → S) :
    Option (ℕ → S) :=
  (List.range m).foldlM (fun cells i =>
    if c.key (old i) = c.empty ∨ c.key (old i) = c.tomb then some cells
    else place c cap home cells (old i)) cells

/-- The table `cells` has exactly the entries of the first `m` cells of `old`. -/
structure Moved (c : Cells S K) (cap : ℕ) (home : K → ℕ) (old : ℕ → S) (m : ℕ) (cells : ℕ → S) :
    Prop where
  /-- It is a table. -/
  chained : Chained c cap home cells
  /-- It has no deleted cells. -/
  no_tomb : ∀ j < cap, c.key (cells j) ≠ c.tomb
  /-- The entries. -/
  same : ∀ s, c.IsKey (c.key s) → ((∃ j < cap, cells j = s) ↔ ∃ i < m, old i = s)
  /-- Their number. -/
  card : (entries c cap cells).card = (entries c m old).card

theorem entries_succ (m : ℕ) : entries c (m + 1) cells =
    if c.IsKey (c.key (cells m)) then insert m (entries c m cells) else entries c m cells := by
  rw [entries, Finset.range_add_one, Finset.filter_insert]
  rfl

/-- A table without deleted cells and with fewer entries than cells has an empty cell. -/
theorem exists_empty (htomb : ∀ j < cap, c.key (cells j) ≠ c.tomb)
    (hcard : (entries c cap cells).card < cap) : ∃ j < cap, c.key (cells j) = c.empty := by
  by_contra hno
  have hall : entries c cap cells = Finset.range cap := by
    ext j
    rw [mem_entries, Finset.mem_range]
    exact ⟨And.left, fun hj => ⟨hj, fun he => hno ⟨j, hj, he⟩, htomb j hj⟩⟩
  rw [hall, Finset.card_range] at hcard
  exact Nat.lt_irrefl _ hcard

/-- One more entry. -/
theorem Moved.place {home₀ : K → ℕ} {old : ℕ → S} {cap₀ m : ℕ}
    (h : Moved c cap home old m cells) (hold : Chained c cap₀ home₀ old) (hm : m < cap₀)
    (hcap : cap₀ ≤ cap) (hkey : c.IsKey (c.key (old m))) :
    ∃ cells', place c cap home cells (old m) = some cells' ∧
      Moved c cap home old (m + 1) cells' := by
  have hcard : (entries c cap cells).card < cap := by
    rw [h.card]
    exact Nat.lt_of_le_of_lt card_entries_le (by omega)
  obtain ⟨j, hgap, hempty, hopen⟩ := firstGap_spec (c := c) (k := c.key (old m))
    (h.chained.home_lt _) (exists_empty h.no_tomb hcard)
  have hnew : ∀ i < cap, c.key (cells i) ≠ c.key (old m) := by
    intro i hi he
    obtain ⟨i', hi', hsame⟩ := (h.same (cells i) (he ▸ hkey)).mp ⟨i, hi, rfl⟩
    have := hold.inj m hm i' (by omega) hkey (by rw [hsame, he])
    omega
  have hjfree : j ∉ entries c cap cells := fun hj => (mem_entries.mp hj).2.1 hempty
  refine ⟨_, by rw [OpenAddress.place, hgap]; rfl, h.chained.insert hkey hnew hopen, ?_, ?_, ?_⟩
  · intro i hi
    by_cases hij : i = j
    · rw [hij, Function.update_self]
      exact hkey.2
    · rw [Function.update_of_ne hij]
      exact h.no_tomb i hi
  · intro s hs
    constructor
    · rintro ⟨i, hi, rfl⟩
      by_cases hij : i = j
      · exact ⟨m, Nat.lt_succ_self m, by rw [hij, Function.update_self]⟩
      · rw [Function.update_of_ne hij] at hs ⊢
        obtain ⟨i', hi', hsame⟩ := (h.same _ hs).mp ⟨i, hi, rfl⟩
        exact ⟨i', by omega, hsame⟩
    · rintro ⟨i, hi, rfl⟩
      rcases Nat.lt_succ_iff_lt_or_eq.mp hi with hi | rfl
      · obtain ⟨i', hi', hsame⟩ := (h.same _ hs).mpr ⟨i, hi, rfl⟩
        refine ⟨i', hi', ?_⟩
        rw [Function.update_of_ne (fun he => ?_), hsame]
        rw [← hsame, he] at hs
        exact hs.1 hempty
      · exact ⟨j, hopen.lt, Function.update_self ..⟩
  · rw [entries_insert hopen.lt hkey, Finset.card_insert_of_notMem hjfree, entries_succ,
      if_pos hkey, Finset.card_insert_of_notMem fun hmem => Nat.lt_irrefl _ (mem_entries.mp hmem).1,
      h.card]

/-- **Moving to a bigger table** succeeds, and the new table has an empty cell. -/
theorem rehash_spec {home₀ : K → ℕ} {old : ℕ → S} {cap₀ : ℕ} (hold : Chained c cap₀ home₀ old)
    (hhome : ∀ k, home k < cap) (hcap : cap₀ < cap) (hcells : ∀ j, c.key (cells j) = c.empty) :
    ∃ cells', rehash c cap home old cap₀ cells = some cells' ∧
      Moved c cap home old cap₀ cells' ∧ ∃ j < cap, c.key (cells' j) = c.empty := by
  have hloop : ∀ m ≤ cap₀, ∃ cells', rehash c cap home old m cells = some cells' ∧
      Moved c cap home old m cells' := by
    intro m
    induction m with
    | zero =>
      intro _
      refine ⟨cells, rfl, chained_empty hhome hcells, fun j _ => ?_, fun s hs => ?_, ?_⟩
      · rw [hcells]
        exact c.empty_ne_tomb
      · constructor
        · rintro ⟨j, -, rfl⟩
          exact absurd (hcells j) hs.1
        · rintro ⟨i, hi, -⟩
          exact absurd hi (Nat.not_lt_zero i)
      · have hnone : entries c cap cells = ∅ := by
          ext j
          rw [mem_entries]
          exact iff_of_false (fun hj => hj.2.1 (hcells j)) (Finset.notMem_empty j)
        rw [hnone]
        rfl
    | succ m ih =>
      intro hm
      obtain ⟨cells', hrun, hmoved⟩ := ih (by omega)
      have hstep : rehash c cap home old (m + 1) cells =
          if c.key (old m) = c.empty ∨ c.key (old m) = c.tomb then some cells'
          else place c cap home cells' (old m) := by
        rw [rehash, List.range_succ, List.foldlM_append]
        show ((rehash c cap home old m cells).bind fun cells => _) = _
        rw [hrun]
        simp
      rw [hstep]
      by_cases hkey : c.IsKey (c.key (old m))
      · obtain ⟨cells'', hplace, hmoved'⟩ := hmoved.place hold (by omega) (by omega) hkey
        refine ⟨cells'', ?_, hmoved'⟩
        rw [if_neg (not_or.mpr hkey), hplace]
      · refine ⟨cells', if_pos ?_, hmoved.chained, hmoved.no_tomb, fun s hs => ?_, ?_⟩
        · by_contra hno
          exact hkey (not_or.mp hno)
        · rw [hmoved.same s hs]
          constructor
          · rintro ⟨i, hi, rfl⟩
            exact ⟨i, by omega, rfl⟩
          · rintro ⟨i, hi, rfl⟩
            refine ⟨i, ?_, rfl⟩
            have : i ≠ m := fun he => hkey (he ▸ hs)
            omega
        · rw [entries_succ, if_neg hkey, hmoved.card]
  obtain ⟨cells', hrun, hmoved⟩ := hloop cap₀ (Nat.le_refl _)
  refine ⟨cells', hrun, hmoved, exists_empty hmoved.no_tomb ?_⟩
  rw [hmoved.card]
  exact Nat.lt_of_le_of_lt card_entries_le hcap

end Growing

end OpenAddress
