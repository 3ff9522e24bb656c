import Mathlib.Data.List.Induction
import Mathlib.Data.List.SplitLengths
import NebulaX.Exchange.MatchingEngine
import NebulaX.Lib.Ring

/-!
# The log file over many sessions

`src/exchange/wal.h`: a writer opens the file of the log, appends entries and closes it; a reader
walks through the slots of the file. How many entries were written is not kept in the file. A
writer that opens a file that is there takes it to be full, and begins again with the first slot.

## Main results

* `afterSessions_kept` — what the slots hold after any number of sessions
* `delivered_iff` — the sessions after which a reader delivers the end of the log, in order
-/

namespace NebulaX.Exchange

/-- `WAL_SIZE`. -/
def walSize : ℕ := 512 * 2 ^ 20

/-- `sizeof(WalEntry)`. -/
def walEntrySize : ℕ := 40

/-- The file of the log: its size in bytes, and what its slots hold. A file that is not there has no
bytes; a slot that was never written holds zeros. -/
structure WalFile where
  /-- The size of the file, as `lseek` gives it. -/
  size : ℕ := 0
  /-- The entries. -/
  slots : ℕ → WalEntry := fun _ => {}

namespace WalFile

/-- `WalWriter::init`: the file afterwards, and the writer. The slots are a mapping of the file. -/
def init (file : WalFile) : WalFile × WalWriter :=
  if file.size = 0 then
    -- `ftruncate` adds zeros to a file without bytes
    ({ file with size := walSize }, { base := file.slots, total := 0 })
  else
    let total := file.size / walEntrySize
    (file, { base := file.slots, total := if walEntries < total then walEntries else total })

/-- A session: `init`, `append` for each entry, `close`. -/
def session (file : WalFile) (entries : List WalEntry) : WalFile where
  size := file.init.1.size
  slots := (entries.foldl WalWriter.append file.init.2).base

/-- Some sessions, one after the other, from no file on. -/
def afterSessions (sessions : List (List WalEntry)) : WalFile := sessions.foldl session {}

end WalFile

/-- `WalReader`. -/
structure WalReader where
  /-- `base_`. -/
  base : ℕ → WalEntry
  /-- `count_`. -/
  count : ℕ

namespace WalReader

/-- `WalReader::open`. -/
def openFile (file : WalFile) : Option WalReader :=
  if file.size < walEntrySize then none
  else
    let count := file.size / walEntrySize
    some { base := file.slots, count := if walEntries < count then walEntries else count }

/-- `entryAt`. -/
def entryAt (self : WalReader) (i : ℕ) : Option WalEntry :=
  if i < self.count then some (self.base i) else none

/-- What `entryAt` gives for zero, one and so on, without the slots that hold zeros. -/
def entries (self : WalReader) : List WalEntry :=
  ((List.range self.count).filterMap self.entryAt).filter (· ≠ {})

/-- A reader of some slots delivers the entries in them. -/
theorem entries_eq (self : WalReader) :
    self.entries = ((List.range self.count).map self.base).filter (· ≠ {}) := by
  rw [entries, ← List.filterMap_eq_map]
  exact congrArg _ (List.filterMap_congr fun i hi => if_pos (List.mem_range.mp hi))

end WalReader

/-- What a reader delivers that opens the file. -/
def WalFile.delivered (file : WalFile) : List WalEntry :=
  match WalReader.openFile file with
  | some reader => reader.entries
  | none => []

namespace WalFile

theorem walSize_div : walSize / walEntrySize = walEntries := by decide

/-! ### One session -/

/-- A writer that begins with the first slot: what it appends goes round the ring, and the slots
that it does not come to are left alone. -/
theorem append_holds {w : WalWriter} (hw : walEntries ∣ w.total) (es : List WalEntry) :
    (es.foldl WalWriter.append w).total = w.total + es.length ∧
      Ring.Holds walEntries (es.foldl WalWriter.append w).base es ∧
      ∀ i, es.length ≤ i → i < walEntries →
        (es.foldl WalWriter.append w).base i = w.base i := by
  induction es using List.reverseRecOn with
  | nil => exact ⟨rfl, Ring.holds_nil _ _, fun _ _ _ => rfl⟩
  | append_singleton es e ih =>
    obtain ⟨htotal, hholds, hframe⟩ := ih
    have hpos : (w.total + es.length) % walEntries = es.length % walEntries := by
      rw [Nat.add_mod, Nat.mod_eq_zero_of_dvd hw, Nat.zero_add, Nat.mod_mod]
    have hstep : (es ++ [e]).foldl WalWriter.append w =
        (es.foldl WalWriter.append w).append e := List.foldl_concat ..
    have hbase : ((es ++ [e]).foldl WalWriter.append w).base =
        Function.update (es.foldl WalWriter.append w).base (es.length % walEntries) e := by
      rw [hstep, WalWriter.append, htotal, hpos]
    refine ⟨?_, ?_, ?_⟩
    · rw [hstep, WalWriter.append, htotal, List.length_append, List.length_singleton]
      rfl
    · rw [hbase]
      exact hholds.push e
    · intro i hi hlt
      rw [List.length_append, List.length_singleton] at hi
      rw [hbase, Function.update_of_ne, hframe i (by omega) hlt]
      rw [Nat.mod_eq_of_lt (by omega)]
      omega

/-- A writer begins with the first slot, also when the file is there and is not full. -/
theorem init_spec {file : WalFile} (hsize : file.size = 0 ∨ file.size = walSize) :
    file.init.1.size = walSize ∧ file.init.2.base = file.slots ∧
      walEntries ∣ file.init.2.total := by
  rw [init]
  rcases hsize with hnone | hthere
  · rw [if_pos hnone]
    exact ⟨rfl, rfl, Nat.dvd_zero _⟩
  · rw [if_neg (by rw [hthere]; decide)]
    dsimp only
    rw [hthere, walSize_div, if_neg (Nat.lt_irrefl _)]
    exact ⟨rfl, rfl, Nat.dvd_refl _⟩

/-! ### Many sessions -/

/-- How many entries the last session appended that appended any. -/
def lastLength (lengths : List ℕ) : ℕ := (lengths.filter (· ≠ 0)).getLast?.getD 0

theorem lastLength_concat (lengths : List ℕ) (m : ℕ) :
    lastLength (lengths ++ [m]) = if m = 0 then lastLength lengths else m := by
  rw [lastLength, lastLength, List.filter_append]
  split
  · rename_i hm
    rw [hm]
    simp
  · rename_i hm
    simp [hm]

/-- What is true of the file of some sessions: `older` was appended before the last session that
appended any entries, and `latest` in that session. -/
structure Kept (sessions : List (List WalEntry)) (file : WalFile) (older latest : List WalEntry) :
    Prop where
  /-- Together they are the log. -/
  log : sessions.flatten = older ++ latest
  /-- The last session that counts. -/
  last : latest.length = lastLength (sessions.map List.length)
  /-- There is nothing before the first session that counts. -/
  first : latest = [] → older = []
  /-- The file is created with the size of a full one. -/
  size : sessions = [] ∧ file.size = 0 ∨ file.size = walSize
  /-- The ring begins anew with the last session. -/
  holds : Ring.Holds walEntries file.slots latest
  /-- The slots behind its entries are empty if it was the first session. -/
  blank : older = [] → ∀ i, latest.length ≤ i → i < walEntries → file.slots i = {}

/-- No session so far. -/
theorem kept_nil : Kept [] {} [] [] where
  log := rfl
  last := rfl
  first _ := rfl
  size := .inl ⟨rfl, rfl⟩
  holds := Ring.holds_nil _ _
  blank _ _ _ _ := rfl

section

variable {sessions : List (List WalEntry)} {file : WalFile} {older latest : List WalEntry}

/-- One session more that appends nothing. -/
theorem Kept.session_nil (h : Kept sessions file older latest) :
    Kept (sessions ++ [[]]) (file.session []) older latest := by
  obtain ⟨hsize, hbase, -⟩ := init_spec (h.size.imp And.right id)
  have hslots : (file.session []).slots = file.slots := hbase
  refine ⟨?_, ?_, h.first, .inr hsize, ?_, ?_⟩
  · rw [List.flatten_concat, List.append_nil, h.log]
  · rw [List.map_append, List.map_singleton, lastLength_concat, if_pos List.length_nil, h.last]
  · rw [hslots]
    exact h.holds
  · rw [hslots]
    exact h.blank

/-- One session more that appends something: it is the last one that counts. -/
theorem Kept.session_cons (h : Kept sessions file older latest) {es : List WalEntry}
    (hes : es ≠ []) :
    Kept (sessions ++ [es]) (file.session es) (older ++ latest) es := by
  obtain ⟨hsize, hbase, hdvd⟩ := init_spec (h.size.imp And.right id)
  obtain ⟨-, hholds, hframe⟩ := append_holds hdvd es
  refine ⟨?_, ?_, fun hnil => absurd hnil hes, .inr hsize, hholds, ?_⟩
  · rw [List.flatten_concat, h.log]
  · have hlen : es.length ≠ 0 := fun h0 => hes (List.length_eq_zero_iff.mp h0)
    rw [List.map_append, List.map_singleton, lastLength_concat, if_neg hlen]
  · intro hnone i hi hlt
    obtain ⟨holder, hlatest⟩ := List.append_eq_nil_iff.mp hnone
    have hslot : (file.session es).slots i = file.init.2.base i := hframe i hi hlt
    rw [hslot, hbase, h.blank holder i (by rw [hlatest]; exact Nat.zero_le i) hlt]

end

/-- **After any number of sessions** the slots hold the end of the last one that appended any
entries. -/
theorem afterSessions_kept (sessions : List (List WalEntry)) :
    ∃ older latest, Kept sessions (afterSessions sessions) older latest := by
  induction sessions using List.reverseRecOn with
  | nil => exact ⟨[], [], kept_nil⟩
  | append_singleton sessions es ih =>
    obtain ⟨older, latest, h⟩ := ih
    have hstep : afterSessions (sessions ++ [es]) = (afterSessions sessions).session es :=
      List.foldl_concat ..
    rw [hstep]
    by_cases hes : es = []
    · exact ⟨older, latest, hes ▸ h.session_nil⟩
    · exact ⟨older ++ latest, es, h.session_cons hes⟩

/-! ### Reading -/

section

variable {sessions : List (List WalEntry)} {file : WalFile} {older latest : List WalEntry}

/-- A reader walks through all slots of the file. -/
theorem Kept.delivered (h : Kept sessions file older latest) :
    file.delivered = ((List.range walEntries).map file.slots).filter (· ≠ {}) := by
  rw [WalFile.delivered, WalReader.openFile]
  rcases h.size with ⟨rfl, hnone⟩ | hthere
  · -- no file, and nothing in its slots
    rw [if_pos (by rw [hnone]; decide)]
    obtain ⟨rfl, rfl⟩ := List.append_eq_nil_iff.mp h.log.symm
    refine (List.filter_eq_nil_iff.mpr ?_).symm
    intro e he
    obtain ⟨i, hi, rfl⟩ := List.mem_map.mp he
    rw [h.blank rfl i (Nat.zero_le i) (List.mem_range.mp hi)]
    decide
  · rw [if_neg (by rw [hthere]; decide)]
    dsimp only
    rw [hthere, walSize_div, if_neg (Nat.lt_irrefl _)]
    exact WalReader.entries_eq _

/-- Entries that can be told from a slot that was never written. -/
theorem filter_written {es : List WalEntry} (hes : ∀ e ∈ es, e ≠ {}) :
    es.filter (· ≠ {}) = es :=
  List.filter_eq_self.mpr fun e he => decide_eq_true (hes e he)

/-- A log of one session that fits in the file. -/
theorem Kept.delivered_once (h : Kept sessions file [] latest) (hfit : latest.length ≤ walEntries)
    (hlatest : ∀ e ∈ latest, e ≠ {}) : file.delivered = latest := by
  obtain ⟨rest, hrest⟩ := Nat.exists_eq_add_of_le hfit
  have hblank : (((List.range rest).map (latest.length + ·)).map file.slots).filter (· ≠ {}) =
      [] := by
    refine List.filter_eq_nil_iff.mpr fun e he => ?_
    obtain ⟨j, hj, rfl⟩ := List.mem_map.mp he
    obtain ⟨i, hi, rfl⟩ := List.mem_map.mp hj
    have hlt := List.mem_range.mp hi
    rw [h.blank rfl _ (Nat.le_add_right _ i) (by omega)]
    decide
  rw [h.delivered, hrest, List.range_add, List.map_append, List.filter_append, hblank,
    h.holds.map_range_length hfit, filter_written hlatest, List.append_nil]

/-- A last session that came round to the first slot again. -/
theorem Kept.delivered_round (h : Kept sessions file older latest) (hlatest : latest ≠ [])
    (hdvd : walEntries ∣ latest.length) (hwritten : ∀ e ∈ sessions.flatten, e ≠ {}) :
    file.delivered = Ring.recent walEntries sessions.flatten := by
  have hle : walEntries ≤ latest.length :=
    Nat.le_of_dvd (List.length_pos_iff.mpr hlatest) hdvd
  have hrecent : Ring.recent walEntries sessions.flatten = Ring.recent walEntries latest := by
    rw [h.log, Ring.recent, Ring.recent, List.length_append, Nat.add_sub_assoc hle,
      List.drop_length_add_append]
  rw [h.delivered, h.holds.map_range hle hdvd, hrecent]
  refine filter_written fun e he => hwritten e ?_
  rw [h.log]
  exact List.mem_append_right older (List.mem_of_mem_drop he)

/-- The entry that a reader delivers first. -/
theorem Kept.head_delivered (h : Kept sessions file older latest) (hlatest : latest ≠ [])
    (hwritten : ∀ e ∈ sessions.flatten, e ≠ {}) :
    file.delivered.head? =
      sessions.flatten[older.length + walEntries * ((latest.length - 1) / walEntries)]? := by
  have hfirst := h.holds.first (by decide) hlatest
  have hslot : file.slots 0 ≠ {} := by
    apply hwritten
    rw [h.log]
    exact List.mem_append_right older (List.mem_of_getElem? hfirst)
  obtain ⟨k, hk⟩ : ∃ k, walEntries = k + 1 := ⟨_, rfl⟩
  have hzero : List.range walEntries = 0 :: (List.range k).map Nat.succ := by
    rw [hk, List.range_succ_eq_map]
  rw [h.delivered, hzero, List.map_cons, List.filter_cons_of_pos (by simpa using hslot),
    List.head?_cons, h.log, List.getElem?_append_right (Nat.le_add_right ..),
    Nat.add_sub_cancel_left, hfirst]

/-- The lengths of the sessions that a log was written in. -/
theorem Kept.lengths (h : Kept sessions file older latest) :
    (sessions.map List.length).sum = older.length + latest.length := by
  rw [← List.length_flatten, h.log, List.length_append]

end

/-! ### When the log is kept -/

/-- **The sessions** that leave the end of the log in order: all entries are of one session that
does not come round to the first slot, or the last session that appended any ends where the file
does. -/
def InOrder (lengths : List ℕ) : Prop :=
  lengths.sum = lastLength lengths ∧ lastLength lengths ≤ walEntries ∨
    0 < lastLength lengths ∧ walEntries ∣ lastLength lengths

instance (lengths : List ℕ) : Decidable (InOrder lengths) :=
  inferInstanceAs (Decidable (_ ∨ _))

/-- After such sessions the reader delivers the end of the log. -/
theorem delivered_of_inOrder {sessions : List (List WalEntry)}
    (hin : InOrder (sessions.map List.length)) (hwritten : ∀ e ∈ sessions.flatten, e ≠ {}) :
    (afterSessions sessions).delivered = Ring.recent walEntries sessions.flatten := by
  obtain ⟨older, latest, h⟩ := afterSessions_kept sessions
  rcases hin with ⟨hsum, hfit⟩ | ⟨hpos, hdvd⟩
  · rw [h.lengths, ← h.last] at hsum
    rw [← h.last] at hfit
    obtain rfl : older = [] := List.length_eq_zero_iff.mp (by omega)
    have hlog : sessions.flatten = latest := h.log
    rw [hlog] at hwritten ⊢
    rw [h.delivered_once hfit hwritten, Ring.recent, Nat.sub_eq_zero_of_le hfit, List.drop_zero]
  · rw [← h.last] at hpos hdvd
    exact h.delivered_round (List.length_pos_iff.mp hpos) hdvd hwritten

/-- The entry that a reader delivers first is the right one after such sessions only. -/
theorem Kept.inOrder {sessions : List (List WalEntry)} {file : WalFile}
    {older latest : List WalEntry} (h : Kept sessions file older latest)
    (hfirst : latest = [] ∨
      older.length + walEntries * ((latest.length - 1) / walEntries) =
        sessions.flatten.length - walEntries) :
    InOrder (sessions.map List.length) := by
  rw [InOrder, h.lengths, ← h.last]
  rcases hfirst with hnil | hfirst
  · left
    rw [hnil, h.first hnil]
    exact ⟨rfl, Nat.zero_le _⟩
  · by_cases hnil : latest = []
    · left
      rw [hnil, h.first hnil]
      exact ⟨rfl, Nat.zero_le _⟩
    have hpos := List.length_pos_iff.mpr hnil
    rw [h.log, List.length_append] at hfirst
    rcases Nat.lt_or_ge walEntries (older.length + latest.length) with hmore | hless
    · right
      refine ⟨hpos, (latest.length - 1) / walEntries + 1, ?_⟩
      rw [Nat.mul_succ]
      omega
    · left
      omega

/-- Two different entries: `marked n k` is a log of `n` of them, all the same but the `k`-th. -/
def marked (n k : ℕ) : List WalEntry :=
  (List.range n).map fun i => if i = k then { type := 1 } else { type := 2 }

theorem getElem?_marked {n k i : ℕ} (hi : i < n) :
    (marked n k)[i]? = some (if i = k then { type := 1 } else { type := 2 }) := by
  rw [marked, List.getElem?_map, List.getElem?_range hi]
  rfl

theorem written_marked {n k : ℕ} {e : WalEntry} (he : e ∈ marked n k) : e ≠ {} := by
  obtain ⟨i, -, rfl⟩ := List.mem_map.mp he
  split <;> decide

/-- **When a reader delivers the log:** after sessions of these lengths it delivers the last entries
that fit in the file, in the order in which they were appended, whatever they are, if and only if
the lengths are those of `InOrder`. -/
theorem delivered_iff (lengths : List ℕ) :
    (∀ sessions : List (List WalEntry), sessions.map List.length = lengths →
        (∀ e ∈ sessions.flatten, e ≠ {}) →
        (afterSessions sessions).delivered = Ring.recent walEntries sessions.flatten) ↔
      InOrder lengths := by
  constructor
  · intro hkept
    -- a log in which the entry that has to be delivered first is marked
    set n := lengths.sum with hn
    set log := marked n (n - walEntries) with hlog
    have hlen : log.length = n := by rw [hlog, marked, List.length_map, List.length_range]
    have hflat : (lengths.splitLengths log).flatten = log :=
      List.flatten_splitLengths log lengths hlen.le
    have hmap : (lengths.splitLengths log).map List.length = lengths :=
      List.map_splitLengths_length log lengths hlen.ge
    obtain ⟨older, latest, h⟩ := afterSessions_kept (lengths.splitLengths log)
    have hwritten : ∀ e ∈ (lengths.splitLengths log).flatten, e ≠ {} := by
      rw [hflat]
      exact fun e he => written_marked he
    rw [← hmap]
    refine h.inOrder ?_
    by_cases hnil : latest = []
    · exact .inl hnil
    · right
      have hhead := h.head_delivered hnil hwritten
      have hpos := List.length_pos_iff.mpr hnil
      have hsum := h.lengths
      rw [hmap, ← hn] at hsum
      have hW : 0 < walEntries := by decide
      have hround := Nat.div_mul_le_self (latest.length - 1) walEntries
      rw [Nat.mul_comm] at hround
      rw [hkept _ hmap hwritten, hflat, Ring.recent, List.head?_drop, hlen, hlog,
        getElem?_marked (by omega), getElem?_marked (by omega), if_pos rfl] at hhead
      rw [hflat, hlen]
      by_contra hne
      rw [if_neg hne] at hhead
      exact absurd hhead (by decide)
  · intro hin sessions hlengths hwritten
    rw [← hlengths] at hin
    exact delivered_of_inOrder hin hwritten

/-- A session of one entry and another one of one entry: the second is written over the first. -/
theorem delivered_two_sessions :
    (∀ e ∈ [[({ type := 1 } : WalEntry)], [{ type := 2 }]].flatten, e ≠ {}) ∧
      (afterSessions [[{ type := 1 }], [{ type := 2 }]]).delivered.head? = some { type := 2 } ∧
      (afterSessions [[{ type := 1 }], [{ type := 2 }]]).delivered ≠
        Ring.recent walEntries [{ type := 1 }, { type := 2 }] := by
  have hwritten : ∀ e ∈ [[({ type := 1 } : WalEntry)], [{ type := 2 }]].flatten, e ≠ {} := by
    decide
  have h := (kept_nil.session_cons (List.cons_ne_nil ({ type := 1 } : WalEntry) [])).session_cons
    (List.cons_ne_nil ({ type := 2 } : WalEntry) [])
  have hhead : (afterSessions [[{ type := 1 }], [{ type := 2 }]]).delivered.head? =
      some { type := 2 } := by
    refine (h.head_delivered (List.cons_ne_nil _ _) hwritten).trans ?_
    rw [show [({ type := 2 } : WalEntry)].length - 1 = 0 from rfl, Nat.zero_div, Nat.mul_zero]
    rfl
  refine ⟨hwritten, hhead, fun hall => ?_⟩
  rw [hall, Ring.recent, Nat.sub_eq_zero_of_le (by decide)] at hhead
  exact absurd hhead (by decide)

end WalFile

end NebulaX.Exchange
