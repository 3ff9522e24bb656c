import NebulaX.Replay.ItchReplaySource

/-!
# Writing a file of orders and reading it back

The order messages as `scripts/gen_test_data.py` writes them, and the round trip through the
replay source and the parser, for whole files and for files that were cut off.

## Main results

* `feed_encode` — the parser reads what was written
* `readOrders_rest` — reading stops before the first message that is not complete
* `read_file` — a file of orders is read back, a file that was cut off as far as it goes
-/

namespace NebulaX

open BigEndian

/-- An order event with the ranges of its fields on the wire. -/
inductive OrderMessage
  | add (locate : UInt16) (ref : UInt64) (buy : Bool) (shares price : UInt32)
  | delete (locate : UInt16) (ref : UInt64)
  | cancel (locate : UInt16) (ref : UInt64) (shares : UInt32)
  | replace (locate : UInt16) (ref newRef : UInt64) (shares price : UInt32)
deriving DecidableEq, Repr

namespace OrderMessage

/-- The event that the exchange is told. -/
def event : OrderMessage → ItchEvent
  | add loc ref buy sh px => .add loc ref.toNat (if buy then .buy else .sell) px sh
  | delete loc ref => .delete loc ref.toNat
  | cancel loc ref sh => .cancel loc ref.toNat sh
  | replace loc ref newRef sh px => .replace loc ref.toNat newRef.toNat px sh

/-- What every order message begins with: its type, the symbol, tracking number, time and order. -/
def header (mt : Char) (loc : UInt16) (ref : UInt64) : List (List UInt8) :=
  [[ascii mt], toBytes 2 loc.toNat, toBytes 2 0, List.replicate 6 0, toBytes 8 ref.toNat]

/-- The fields of a message, in their order: `A`, `D` and `X` of the script, and a replace. -/
def parts : OrderMessage → List (List UInt8)
  | add loc ref buy sh px => header 'A' loc ref ++
    [[ascii (if buy then 'B' else 'S')], toBytes 4 sh.toNat, List.replicate 8 0,
      toBytes 4 px.toNat]
  | delete loc ref => header 'D' loc ref
  | cancel loc ref sh => header 'X' loc ref ++ [toBytes 4 sh.toNat]
  | replace loc ref newRef sh px => header 'U' loc ref ++
    [toBytes 8 newRef.toNat, toBytes 4 sh.toNat, toBytes 4 px.toNat]

/-- The bytes of a message. -/
def encode (e : OrderMessage) : List UInt8 := e.parts.flatten

/-- `frame` of the script. -/
def framed (e : OrderMessage) : List UInt8 := frame 2 e.encode

/-- The file of some messages. -/
def file (es : List OrderMessage) : List UInt8 := (es.map framed).flatten

end OrderMessage

/-! ### Numbers among the fields of a message -/

namespace OrderMessage

section

variable {e : OrderMessage} {k i : ℕ}

theorem rdU16_encode {v : UInt16} (hk : e.parts[k]? = some (toBytes 2 v.toNat))
    (hi : ((e.parts.take k).map List.length).sum = i) : rdU16 e.encode i = some v := by
  have hn := length_toBytes 2 v.toNat
  obtain ⟨w, hw, hval⟩ := rdU16_spec (length_flatten_of_part hk hi hn)
  rw [field_flatten hk hi hn, ofBytes_toBytes v.toNat_lt] at hval
  rw [encode, hw, UInt16.toNat_inj.mp hval]

theorem rdU32_encode {v : UInt32} (hk : e.parts[k]? = some (toBytes 4 v.toNat))
    (hi : ((e.parts.take k).map List.length).sum = i) : rdU32 e.encode i = some v := by
  have hn := length_toBytes 4 v.toNat
  obtain ⟨w, hw, hval⟩ := rdU32_spec (length_flatten_of_part hk hi hn)
  rw [field_flatten hk hi hn, ofBytes_toBytes v.toNat_lt] at hval
  rw [encode, hw, UInt32.toNat_inj.mp hval]

theorem rdU64_encode {v : UInt64} (hk : e.parts[k]? = some (toBytes 8 v.toNat))
    (hi : ((e.parts.take k).map List.length).sum = i) : rdU64 e.encode i = some v := by
  have hn := length_toBytes 8 v.toNat
  obtain ⟨w, hw, hval⟩ := rdU64_spec (length_flatten_of_part hk hi hn)
  rw [field_flatten hk hi hn, ofBytes_toBytes v.toNat_lt] at hval
  rw [encode, hw, UInt64.toNat_inj.mp hval]

end

/-- An order message is not a stock directory message. -/
theorem feed_eq_feedOrder {m : List UInt8} {mt : UInt8} (hlen : ¬m.length < 3)
    (hmt : m[0]? = some mt) (hR : mt ≠ ascii 'R') (parser : ItchParser) (out : RawItchEvent) :
    parser.feed m out = (feedOrder m mt out).map (fun r => (r, parser)) := by
  rw [ItchParser.feed, if_neg hlen, hmt]
  change (if mt = ascii 'R' then _ else _) = _
  rw [if_neg hR]
  cases feedOrder m mt out <;> rfl

/-- **The parser** reads a message as it was written. -/
theorem feed_encode (e : OrderMessage) (parser : ItchParser) (out : RawItchEvent) :
    ∃ r, parser.feed e.encode out = some (some r, parser) ∧ r.event = e.event := by
  cases e with
  | add loc ref buy sh px =>
    have hlen : (add loc ref buy sh px).encode.length = 36 := rfl
    have hmt : (add loc ref buy sh px).encode[0]? = some (ascii 'A') := rfl
    have hside : (add loc ref buy sh px).encode[19]? =
      some (ascii (if buy then 'B' else 'S')) := rfl
    have hloc : rdU16 (add loc ref buy sh px).encode 1 = some loc :=
      rdU16_encode (k := 1) rfl (by simp [parts, header])
    have href : rdU64 (add loc ref buy sh px).encode 11 = some ref :=
      rdU64_encode (k := 4) rfl (by simp [parts, header])
    have hsh : rdU32 (add loc ref buy sh px).encode 20 = some sh :=
      rdU32_encode (k := 6) rfl (by simp [parts, header])
    have hpx : rdU32 (add loc ref buy sh px).encode 32 = some px :=
      rdU32_encode (k := 8) rfl (by simp [parts, header])
    refine ⟨{ out with
      type := .add, locate := loc, orderRef := ref, side := if buy then .buy else .sell,
      shares := sh, price := px }, ?_, rfl⟩
    rw [feed_eq_feedOrder (by rw [hlen]; decide) hmt (by decide), feedOrder,
      if_pos (.inl rfl), if_neg (by rw [hlen]; decide), hside, hloc, href, hsh, hpx]
    cases buy <;> rfl
  | delete loc ref =>
    have hlen : (delete loc ref).encode.length = 19 := rfl
    have hmt : (delete loc ref).encode[0]? = some (ascii 'D') := rfl
    have hloc : rdU16 (delete loc ref).encode 1 = some loc :=
      rdU16_encode (k := 1) rfl (by simp [parts, header])
    have href : rdU64 (delete loc ref).encode 11 = some ref :=
      rdU64_encode (k := 4) rfl (by simp [parts, header])
    refine ⟨{ out with type := .delete, locate := loc, orderRef := ref, side := .invalid },
      ?_, rfl⟩
    rw [feed_eq_feedOrder (by rw [hlen]; decide) hmt (by decide), feedOrder,
      if_neg (by decide), if_pos rfl, if_neg (by rw [hlen]; decide), hloc, href]
    rfl
  | cancel loc ref sh =>
    have hlen : (cancel loc ref sh).encode.length = 23 := rfl
    have hmt : (cancel loc ref sh).encode[0]? = some (ascii 'X') := rfl
    have hloc : rdU16 (cancel loc ref sh).encode 1 = some loc :=
      rdU16_encode (k := 1) rfl (by simp [parts, header])
    have href : rdU64 (cancel loc ref sh).encode 11 = some ref :=
      rdU64_encode (k := 4) rfl (by simp [parts, header])
    have hsh : rdU32 (cancel loc ref sh).encode 19 = some sh :=
      rdU32_encode (k := 5) rfl (by simp [parts, header])
    refine ⟨{ out with
      type := .cancel, locate := loc, orderRef := ref, shares := sh, side := .invalid }, ?_, rfl⟩
    rw [feed_eq_feedOrder (by rw [hlen]; decide) hmt (by decide), feedOrder,
      if_neg (by decide), if_neg (by decide), if_pos rfl, if_neg (by rw [hlen]; decide), hloc,
      href, hsh]
    rfl
  | replace loc ref newRef sh px =>
    have hlen : (replace loc ref newRef sh px).encode.length = 35 := rfl
    have hmt : (replace loc ref newRef sh px).encode[0]? = some (ascii 'U') := rfl
    have hloc : rdU16 (replace loc ref newRef sh px).encode 1 = some loc :=
      rdU16_encode (k := 1) rfl (by simp [parts, header])
    have href : rdU64 (replace loc ref newRef sh px).encode 11 = some ref :=
      rdU64_encode (k := 4) rfl (by simp [parts, header])
    have hnew : rdU64 (replace loc ref newRef sh px).encode 19 = some newRef :=
      rdU64_encode (k := 5) rfl (by simp [parts, header])
    have hsh : rdU32 (replace loc ref newRef sh px).encode 27 = some sh :=
      rdU32_encode (k := 6) rfl (by simp [parts, header])
    have hpx : rdU32 (replace loc ref newRef sh px).encode 31 = some px :=
      rdU32_encode (k := 7) rfl (by simp [parts, header])
    refine ⟨{ out with
      type := .replace, locate := loc, orderRef := ref, newOrderRef := newRef, shares := sh,
      price := px, side := .invalid }, ?_, rfl⟩
    rw [feed_eq_feedOrder (by rw [hlen]; decide) hmt (by decide), feedOrder,
      if_neg (by decide), if_neg (by decide), if_neg (by decide), if_pos rfl,
      if_neg (by rw [hlen]; decide), hloc, href, hnew, hsh, hpx]
    rfl

/-! ### Files -/

/-- The length of a message fits in the two bytes in front of it. -/
theorem length_encode_lt (e : OrderMessage) : e.encode.length < 256 ^ 2 := by
  cases e <;> simp [encode, parts, header]

@[simp] theorem file_nil : file [] = [] := rfl

@[simp] theorem file_cons (e : OrderMessage) (es : List OrderMessage) :
    file (e :: es) = e.framed ++ file es := rfl

/-- The events of some messages, with the numbers of the messages in the file. -/
def numbered (es : List OrderMessage) (first : ℕ) : List (ℕ × ItchEvent) :=
  (es.zipIdx first).map fun p => (p.2, p.1.event)

@[simp] theorem numbered_cons (e : OrderMessage) (es : List OrderMessage) (first : ℕ) :
    numbered (e :: es) first = (first, e.event) :: numbered es (first + 1) := rfl

/-- How many messages of a file are complete when only `n` bytes of it are there. -/
structure CompleteUpTo (es : List OrderMessage) (n k : ℕ) : Prop where
  /-- There are that many messages. -/
  le : k ≤ es.length
  /-- They are complete. -/
  complete : (file (es.take k)).length ≤ n
  /-- The next one is not. -/
  cut : k < es.length → n < (file (es.take (k + 1))).length

/-- **Where the reading stops:** before the first message that is not complete. -/
theorem readOrders_rest (uninit : ℕ → RawItchEvent) {es : List OrderMessage} :
    ∀ {src : ItchReplaySource} (parser : ItchParser) {n fuel : ℕ}, src.rest = (file es).take n →
      src.rest.length < fuel → ∃ k last, CompleteUpTo es n k ∧ last.next = none ∧
        readOrders uninit fuel src parser =
          some (numbered (es.take k) (src.frameCount + 1), last) := by
  induction es with
  | nil =>
    intro src parser n fuel hrest hfuel
    have hnone : src.next = none := by
      apply ItchReplaySource.next_eq_none
      rw [hrest, file_nil, List.take_nil]
      rfl
    obtain ⟨fuel, rfl⟩ := Nat.exists_eq_succ_of_ne_zero (Nat.ne_zero_of_lt hfuel)
    exact ⟨0, src, ⟨le_refl 0, Nat.zero_le n, fun h => absurd h (Nat.lt_irrefl 0)⟩, hnone,
      by rw [readOrders, hnone]; rfl⟩
  | cons e es ih =>
    intro src parser n fuel hrest hfuel
    obtain ⟨fuel, rfl⟩ := Nat.exists_eq_succ_of_ne_zero (Nat.ne_zero_of_lt hfuel)
    rcases Nat.lt_or_ge n e.framed.length with hcut | hfull
    · -- the first message is cut off
      have hnone : src.next = none := by
        apply ItchReplaySource.next_eq_none
        rw [hrest, file_cons]
        exact unframe_cut e.length_encode_lt hcut
      refine ⟨0, src, ⟨Nat.zero_le _, Nat.zero_le n, fun _ => ?_⟩, hnone, ?_⟩
      · rw [List.take_succ_cons, List.take_zero, file_cons, file_nil, List.append_nil]
        exact hcut
      · rw [readOrders, hnone]
        rfl
    · -- it is there, and the others follow it
      have htake : src.rest = e.framed ++ (file es).take (n - e.framed.length) := by
        rw [hrest, file_cons, List.take_append, List.take_of_length_le hfull]
      have hread : unframe 2 src.rest =
          some (e.encode, (file es).take (n - e.framed.length)) := by
        rw [htake]
        exact unframe_frame e.length_encode_lt _
      obtain ⟨f, src', hnext, hbytes, hrest', hseq, hcount⟩ :=
        ItchReplaySource.next_eq_some hread
      obtain ⟨r, hfeed, hevent⟩ := e.feed_encode parser (uninit f.seq)
      have hlen : src'.rest.length < fuel := by
        have hframe : e.framed.length = 2 + e.encode.length := length_frame 2 e.encode
        rw [htake, ← hrest', List.length_append] at hfuel
        omega
      obtain ⟨k, last, hk, hlast, hrun⟩ := ih parser hrest' hlen
      refine ⟨k + 1, last, ⟨?_, ?_, ?_⟩, hlast, ?_⟩
      · exact Nat.succ_le_succ hk.le
      · rw [List.take_succ_cons, file_cons, List.length_append]
        have := hk.complete
        omega
      · intro hlt
        rw [List.take_succ_cons, file_cons, List.length_append]
        have := hk.cut (Nat.lt_of_succ_lt_succ hlt)
        omega
      · rw [readOrders, hnext, List.take_succ_cons, numbered_cons]
        change (parser.feed (src'.bytes f) (uninit f.seq)).bind _ = _
        rw [hbytes, hfeed, Option.bind_some]
        change (readOrders uninit fuel src' parser).bind _ = _
        rw [hrun, Option.bind_some, hcount, hseq, ← hevent]
        rfl

theorem length_file_mono (es : List OrderMessage) {i j : ℕ} (hij : i ≤ j) :
    (file (es.take i)).length ≤ (file (es.take j)).length := by
  have hpre : es.take i <+: es.take j := List.take_prefix_take_left hij
  exact ((hpre.map framed).flatten).length_le

theorem CompleteUpTo.iff {es : List OrderMessage} {n k : ℕ} (h : CompleteUpTo es n k) (j : ℕ) :
    j ≤ k ↔ j ≤ es.length ∧ (file (es.take j)).length ≤ n := by
  constructor
  · intro hj
    exact ⟨hj.trans h.le, (length_file_mono es hj).trans h.complete⟩
  · rintro ⟨hlen, hfit⟩
    by_contra hgt
    have hcut := h.cut (by omega)
    have hmono := length_file_mono es (by omega : k + 1 ≤ j)
    omega

theorem rest_openFile (bytes : List UInt8) :
    (ItchReplaySource.openFile {} bytes).2.rest = bytes := by
  rw [ItchReplaySource.openFile]
  split
  · rename_i hempty
    rw [List.length_eq_zero_iff.mp hempty]
    rfl
  · rfl

theorem frameCount_openFile (bytes : List UInt8) :
    (ItchReplaySource.openFile {} bytes).2.frameCount = 0 := by
  rw [ItchReplaySource.openFile]
  split <;> rfl

/-- **A file of orders** is read back, with the messages numbered from one, up to the end of the
file. When the file is cut off anywhere, what is read are the orders whose messages are complete. -/
theorem read_file (uninit : ℕ → RawItchEvent) (parser : ItchParser) (es : List OrderMessage) :
    (∃ last, readOrders uninit ((file es).length + 1)
        (ItchReplaySource.openFile {} (file es)).2 parser = some (numbered es 1, last) ∧
      last.next = none) ∧
    ∀ n, ∃ k last, (∀ j, j ≤ k ↔ j ≤ es.length ∧ (file (es.take j)).length ≤ n) ∧
      readOrders uninit (((file es).take n).length + 1)
        (ItchReplaySource.openFile {} ((file es).take n)).2 parser =
          some (numbered (es.take k) 1, last) ∧ last.next = none := by
  have hcut : ∀ n, ∃ k last, (∀ j, j ≤ k ↔ j ≤ es.length ∧ (file (es.take j)).length ≤ n) ∧
      readOrders uninit (((file es).take n).length + 1)
        (ItchReplaySource.openFile {} ((file es).take n)).2 parser =
          some (numbered (es.take k) 1, last) ∧ last.next = none := by
    intro n
    obtain ⟨k, last, hk, hlast, hrun⟩ :=
      readOrders_rest uninit parser (rest_openFile ((file es).take n))
        (by rw [rest_openFile]; exact Nat.lt_succ_self _)
    rw [frameCount_openFile] at hrun
    exact ⟨k, last, hk.iff, hrun, hlast⟩
  refine ⟨?_, hcut⟩
  obtain ⟨k, last, hk, hrun, hlast⟩ := hcut (file es).length
  have hall : es.length ≤ k := (hk _).mpr ⟨le_refl _, by rw [List.take_length]⟩
  rw [List.take_of_length_le hall, List.take_length] at hrun
  exact ⟨last, hrun, hlast⟩

end OrderMessage

end NebulaX
