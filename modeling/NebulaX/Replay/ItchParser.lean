import Mathlib.Data.List.DropRight
import NebulaX.Lib.BigEndian
import NebulaX.Exchange.ExchangeSimulator

/-!
# The ITCH parser

`src/exchange/itch_parser.h`: one message, as bytes, becomes one order event. A read beyond the end
of the message is undefined in the source: it is `none` here.

## Main results

* `rdU16_spec`, `rdU32_spec`, `rdU64_spec` — the shifts and ors read a big-endian number
* `ItchParser.feed_total` — no message is read beyond its end
-/

namespace NebulaX

open BigEndian
open Exchange (Side)

/-! ### Reading numbers -/

/-- `rd_u16`. -/
def rdU16 (m : List UInt8) (p : ℕ) : Option UInt16 := do
  let b0 ← m[p]?
  let b1 ← m[p + 1]?
  some ((b0.toUInt16 <<< 8) ||| b1.toUInt16)

/-- `rd_u32`. -/
def rdU32 (m : List UInt8) (p : ℕ) : Option UInt32 := do
  let b0 ← m[p]?
  let b1 ← m[p + 1]?
  let b2 ← m[p + 2]?
  let b3 ← m[p + 3]?
  some ((b0.toUInt32 <<< 24) ||| (b1.toUInt32 <<< 16) ||| (b2.toUInt32 <<< 8) ||| b3.toUInt32)

/-- The loop of `rd_u64`, after `n` turns. -/
def rdU64Loop (m : List UInt8) (p : ℕ) : ℕ → Option UInt64
  | 0 => some 0
  | n + 1 => do
    let v ← rdU64Loop m p n
    let b ← m[p + n]?
    some ((v <<< 8) ||| b.toUInt64)

/-- `rd_u64`. -/
def rdU64 (m : List UInt8) (p : ℕ) : Option UInt64 := rdU64Loop m p 8

theorem ofBytes_field_succ {m : List UInt8} {p n : ℕ} {b : UInt8} (hb : m[p + n]? = some b) :
    ofBytes (field m p (n + 1)) = ofBytes (field m p n) * 256 + b.toNat := by
  rw [field_succ hb, ofBytes_concat]

@[simp] theorem ofBytes_field_zero (m : List UInt8) (p : ℕ) : ofBytes (field m p 0) = 0 := rfl

/-- A number above the bits of another one. -/
theorem or_high {v w k : ℕ} (hw : w < 2 ^ k) : v * 2 ^ k ||| w = v * 2 ^ k + w := by
  rw [Nat.mul_comm, Nat.two_pow_add_eq_or_of_lt hw]

/-- **`rd_u16`** reads a big-endian number. -/
theorem rdU16_spec {m : List UInt8} {p : ℕ} (hp : p + 2 ≤ m.length) :
    ∃ v, rdU16 m p = some v ∧ v.toNat = ofBytes (field m p 2) := by
  have h0 : m[p]? = some m[p] := List.getElem?_eq_getElem (by omega)
  have h1 : m[p + 1]? = some m[p + 1] := List.getElem?_eq_getElem (by omega)
  have l0 := m[p].toNat_lt
  have hhigh : (m[p].toUInt16 <<< 8).toNat = m[p].toNat * 2 ^ 8 := by
    rw [UInt16.toNat_shiftLeft, UInt8.toNat_toUInt16, Nat.shiftLeft_eq,
      show (8 : UInt16).toNat % 16 = 8 from rfl]
    exact Nat.mod_eq_of_lt (by omega)
  refine ⟨m[p].toUInt16 <<< 8 ||| m[p + 1].toUInt16, ?_, ?_⟩
  · rw [rdU16, h0, h1]
    rfl
  · rw [UInt16.toNat_or, hhigh, UInt8.toNat_toUInt16, or_high m[p + 1].toNat_lt,
      ofBytes_field_succ h1, ofBytes_field_succ h0, ofBytes_field_zero]
    omega

/-- A byte that is moved to its place in a word of 32 bits. -/
theorem toNat_byte_shiftLeft (b : UInt8) {k : UInt32} (hk : k.toNat ≤ 24) :
    (b.toUInt32 <<< k).toNat = b.toNat * 2 ^ k.toNat := by
  have hb := b.toNat_lt
  have hfit : b.toNat * 2 ^ k.toNat ≤ b.toNat * 2 ^ 24 :=
    Nat.mul_le_mul_left _ (Nat.pow_le_pow_right (by omega) hk)
  rw [UInt32.toNat_shiftLeft, UInt8.toNat_toUInt32, Nat.shiftLeft_eq,
    Nat.mod_eq_of_lt (by omega : k.toNat < 32)]
  exact Nat.mod_eq_of_lt (by omega)

/-- Four bytes in their places. -/
theorem or_four {a b c d : ℕ} (hb : b < 2 ^ 8) (hc : c < 2 ^ 8) (hd : d < 2 ^ 8) :
    a * 2 ^ 24 ||| b * 2 ^ 16 ||| c * 2 ^ 8 ||| d = ((a * 256 + b) * 256 + c) * 256 + d := by
  have htwo : a * 2 ^ 24 ||| b * 2 ^ 16 = (a * 256 + b) * 2 ^ 16 := by
    rw [or_high (by omega)]
    omega
  have hthree : (a * 256 + b) * 2 ^ 16 ||| c * 2 ^ 8 = ((a * 256 + b) * 256 + c) * 2 ^ 8 := by
    rw [or_high (by omega)]
    omega
  rw [htwo, hthree, or_high hd]
  omega

/-- **`rd_u32`** reads a big-endian number. -/
theorem rdU32_spec {m : List UInt8} {p : ℕ} (hp : p + 4 ≤ m.length) :
    ∃ v, rdU32 m p = some v ∧ v.toNat = ofBytes (field m p 4) := by
  have h0 : m[p]? = some m[p] := List.getElem?_eq_getElem (by omega)
  have h1 : m[p + 1]? = some m[p + 1] := List.getElem?_eq_getElem (by omega)
  have h2 : m[p + 2]? = some m[p + 2] := List.getElem?_eq_getElem (by omega)
  have h3 : m[p + 3]? = some m[p + 3] := List.getElem?_eq_getElem (by omega)
  refine ⟨m[p].toUInt32 <<< 24 ||| m[p + 1].toUInt32 <<< 16 ||| m[p + 2].toUInt32 <<< 8 |||
    m[p + 3].toUInt32, ?_, ?_⟩
  · rw [rdU32, h0, h1, h2, h3]
    rfl
  · have hor := or_four m[p + 1].toNat_lt m[p + 2].toNat_lt m[p + 3].toNat_lt (a := m[p].toNat)
    rw [UInt32.toNat_or, UInt32.toNat_or, UInt32.toNat_or, toNat_byte_shiftLeft _ (by decide),
      toNat_byte_shiftLeft _ (by decide), toNat_byte_shiftLeft _ (by decide),
      UInt8.toNat_toUInt32, ofBytes_field_succ h3, ofBytes_field_succ h2, ofBytes_field_succ h1,
      ofBytes_field_succ h0, ofBytes_field_zero, Nat.zero_mul, Nat.zero_add]
    exact hor

/-- One turn of `rd_u64`, as long as there is room for one more byte. -/
theorem toNat_shiftLeft_or {v : UInt64} (b : UInt8) (hv : v.toNat < 2 ^ 56) :
    ((v <<< 8) ||| b.toUInt64).toNat = v.toNat * 256 + b.toNat := by
  have hhigh : (v <<< 8).toNat = v.toNat * 2 ^ 8 := by
    rw [UInt64.toNat_shiftLeft, Nat.shiftLeft_eq, show (8 : UInt64).toNat % 64 = 8 from rfl]
    exact Nat.mod_eq_of_lt (by omega)
  rw [UInt64.toNat_or, hhigh, UInt8.toNat_toUInt64, or_high b.toNat_lt]
  omega

theorem rdU64Loop_spec {m : List UInt8} {p n : ℕ} (hn : n ≤ 8) (hp : p + n ≤ m.length) :
    ∃ v, rdU64Loop m p n = some v ∧ v.toNat = ofBytes (field m p n) ∧ v.toNat < 256 ^ n := by
  induction n with
  | zero => exact ⟨0, rfl, rfl, by decide⟩
  | succ n ih =>
    obtain ⟨v, hv, hval, hlt⟩ := ih (by omega) (by omega)
    have hb : m[p + n]? = some m[p + n] := List.getElem?_eq_getElem (by omega)
    have l := m[p + n].toNat_lt
    have hpow : 256 ^ n ≤ 256 ^ 7 := Nat.pow_le_pow_right (by omega) (by omega)
    have hstep := toNat_shiftLeft_or m[p + n] (by omega : v.toNat < 2 ^ 56)
    refine ⟨(v <<< 8) ||| m[p + n].toUInt64, ?_, ?_, ?_⟩
    · rw [rdU64Loop, hv, hb]
      rfl
    · rw [hstep, ofBytes_field_succ hb, hval]
    · rw [hstep, Nat.pow_succ]
      omega

/-- **`rd_u64`** reads a big-endian number. -/
theorem rdU64_spec {m : List UInt8} {p : ℕ} (hp : p + 8 ≤ m.length) :
    ∃ v, rdU64 m p = some v ∧ v.toNat = ofBytes (field m p 8) := by
  obtain ⟨v, hv, hval, -⟩ := rdU64Loop_spec (le_refl 8) hp
  exact ⟨v, hv, hval⟩

/-! ### Messages -/

/-- `ItchEvent::Type`. -/
inductive ItchType
  | add
  | delete
  | cancel
  | replace
  | book
deriving DecidableEq, Repr

/-- `nxex::ItchEvent` as `feed` fills it in, with all its fields whatever the type. -/
structure RawItchEvent where
  /-- `type`. -/
  type : ItchType
  /-- `locate`. -/
  locate : UInt16
  /-- `order_ref`. -/
  orderRef : UInt64
  /-- `new_order_ref`. -/
  newOrderRef : UInt64
  /-- `side`. -/
  side : Side
  /-- `price`. -/
  price : UInt32
  /-- `shares`. -/
  shares : UInt32
deriving DecidableEq, Repr

/-- The event: the fields that its type defines. -/
def RawItchEvent.event (r : RawItchEvent) : ItchEvent :=
  match r.type with
  | .add => .add r.locate r.orderRef.toNat r.side r.price r.shares
  | .delete => .delete r.locate r.orderRef.toNat
  | .cancel => .cancel r.locate r.orderRef.toNat r.shares
  | .replace => .replace r.locate r.orderRef.toNat r.newOrderRef.toNat r.price r.shares
  | .book => .book r.locate

/-- A character of a message. -/
def ascii (c : Char) : UInt8 := UInt8.ofNat c.toNat

/-- `ItchParser`: `symbol_map_`. -/
structure ItchParser where
  /-- `symbol_map_`. -/
  symbolMap : List UInt8 → Option UInt16 := fun _ => none

/-- `locate_for_symbol`. -/
def ItchParser.locateForSymbol (self : ItchParser) (sym : List UInt8) : UInt16 :=
  (self.symbolMap sym).getD 0xFFFF

/-- `symbol_map_[s] = loc`. -/
def ItchParser.setLocate (self : ItchParser) (s : List UInt8) (loc : UInt16) : ItchParser :=
  { symbolMap := Function.update self.symbolMap s (some loc) }

/-- The symbol in eight bytes: what stands before the first zero byte, without the blanks at its
end. -/
def trimSymbol (sym : List UInt8) : List UInt8 :=
  (sym.takeWhile (· ≠ 0)).rdropWhile (fun c => c = ascii ' ' ∨ c = 0)

/-- `ItchParser::feed` on a stock directory message. -/
def ItchParser.feedDirectory (self : ItchParser) (m : List UInt8) : Option ItchParser := do
  if m.length < 19 then return self
  let loc ← rdU16 m 1
  let sym ← (List.range 8).mapM (fun i => m[11 + i]?)
  let s := trimSymbol sym
  return if s = [] then self else self.setLocate s loc

/-- `ItchParser::feed`, of the order messages: the event, unless the message is none. -/
def feedOrder (m : List UInt8) (mt : UInt8) (out : RawItchEvent) :
    Option (Option RawItchEvent) := do
  if mt = ascii 'A' ∨ mt = ascii 'F' then
    if m.length < 36 then return none
    let side ← m[19]?
    return some { out with
      type := .add, locate := ← rdU16 m 1, orderRef := ← rdU64 m 11,
      side := if side = ascii 'S' then .sell else .buy,
      shares := ← rdU32 m 20, price := ← rdU32 m 32 }
  else if mt = ascii 'D' then
    if m.length < 19 then return none
    return some { out with
      type := .delete, locate := ← rdU16 m 1, orderRef := ← rdU64 m 11, side := .invalid }
  else if mt = ascii 'X' then
    if m.length < 23 then return none
    return some { out with
      type := .cancel, locate := ← rdU16 m 1, orderRef := ← rdU64 m 11,
      shares := ← rdU32 m 19, side := .invalid }
  else if mt = ascii 'U' then
    if m.length < 35 then return none
    return some { out with
      type := .replace, locate := ← rdU16 m 1, orderRef := ← rdU64 m 11,
      newOrderRef := ← rdU64 m 19, shares := ← rdU32 m 27, price := ← rdU32 m 31,
      side := .invalid }
  else if mt = ascii 'Q' then
    if m.length < 3 then return none
    return some { out with type := .book, locate := ← rdU16 m 1 }
  else
    return none

/-- `ItchParser::feed`: the event, unless the message is none, and the parser afterwards. -/
def ItchParser.feed (self : ItchParser) (m : List UInt8) (out : RawItchEvent) :
    Option (Option RawItchEvent × ItchParser) := do
  if m.length < 3 then return (none, self)
  let mt ← m[0]?
  if mt = ascii 'R' then
    return (none, ← self.feedDirectory m)
  else
    return (← feedOrder m mt out, self)

/-! ### Messages of any length

Every type of message has its own guard on the length, and its own last byte that is read. -/

/-- A loop that fails nowhere. -/
theorem exists_of_mapM {α β : Type} {f : α → Option β} {as : List α}
    (h : ∀ a ∈ as, ∃ b, f a = some b) : ∃ bs, as.mapM f = some bs := by
  induction as with
  | nil => exact ⟨[], rfl⟩
  | cons a as ih =>
    obtain ⟨b, hb⟩ := h a List.mem_cons_self
    obtain ⟨bs, hbs⟩ := ih fun c hc => h c (List.mem_cons_of_mem a hc)
    exact ⟨b :: bs, by rw [List.mapM_cons, hb, hbs]; rfl⟩

/-- A byte of a message that is long enough. -/
theorem exists_byte {m : List UInt8} {i : ℕ} (hi : i < m.length) : ∃ b, m[i]? = some b :=
  ⟨m[i], List.getElem?_eq_getElem hi⟩

theorem ItchParser.feedDirectory_total (self : ItchParser) (m : List UInt8) :
    ∃ parser, self.feedDirectory m = some parser := by
  rw [feedDirectory]
  split
  · exact ⟨self, rfl⟩
  · obtain ⟨loc, hloc, -⟩ := @rdU16_spec m 1 (by omega)
    obtain ⟨sym, hsym⟩ := @exists_of_mapM _ _ (fun i => m[11 + i]?) (List.range 8) fun i hi =>
      exists_byte (by have := List.mem_range.mp hi; omega)
    rw [hloc, hsym]
    exact ⟨_, rfl⟩

theorem feedOrder_total {m : List UInt8} (hm : 3 ≤ m.length) (mt : UInt8) (out : RawItchEvent) :
    ∃ r, feedOrder m mt out = some r := by
  have h16 : ∃ v, rdU16 m 1 = some v := (rdU16_spec (by omega)).imp fun _ => And.left
  have h32 : ∀ p, p + 4 ≤ m.length → ∃ v, rdU32 m p = some v := fun p hp =>
    (rdU32_spec hp).imp fun _ => And.left
  have h64 : ∀ p, p + 8 ≤ m.length → ∃ v, rdU64 m p = some v := fun p hp =>
    (rdU64_spec hp).imp fun _ => And.left
  obtain ⟨loc, hloc⟩ := h16
  rw [feedOrder]
  split
  · -- A, F
    split
    · exact ⟨none, rfl⟩
    · obtain ⟨side, hside⟩ := @exists_byte m 19 (by omega)
      obtain ⟨ref, href⟩ := h64 11 (by omega)
      obtain ⟨sh, hsh⟩ := h32 20 (by omega)
      obtain ⟨px, hpx⟩ := h32 32 (by omega)
      rw [hside, hloc, href, hsh, hpx]
      exact ⟨_, rfl⟩
  split
  · -- D
    split
    · exact ⟨none, rfl⟩
    · obtain ⟨ref, href⟩ := h64 11 (by omega)
      rw [hloc, href]
      exact ⟨_, rfl⟩
  split
  · -- X
    split
    · exact ⟨none, rfl⟩
    · obtain ⟨ref, href⟩ := h64 11 (by omega)
      obtain ⟨sh, hsh⟩ := h32 19 (by omega)
      rw [hloc, href, hsh]
      exact ⟨_, rfl⟩
  split
  · -- U
    split
    · exact ⟨none, rfl⟩
    · obtain ⟨ref, href⟩ := h64 11 (by omega)
      obtain ⟨new, hnew⟩ := h64 19 (by omega)
      obtain ⟨sh, hsh⟩ := h32 27 (by omega)
      obtain ⟨px, hpx⟩ := h32 31 (by omega)
      rw [hloc, href, hnew, hsh, hpx]
      exact ⟨_, rfl⟩
  split
  · -- Q
    split
    · exact ⟨none, rfl⟩
    · rw [hloc]
      exact ⟨_, rfl⟩
  · exact ⟨none, rfl⟩

/-- **No message** is read beyond its end, whatever its bytes. -/
theorem ItchParser.feed_total (self : ItchParser) (m : List UInt8) (out : RawItchEvent) :
    ∃ r, self.feed m out = some r := by
  rw [feed]
  split
  · exact ⟨_, rfl⟩
  · rename_i hm
    obtain ⟨mt, hmt⟩ := @exists_byte m 0 (by omega)
    rw [hmt]
    change ∃ r, (if mt = ascii 'R' then _ else _) = some r
    split
    · obtain ⟨parser, hp⟩ := self.feedDirectory_total m
      rw [hp]
      exact ⟨_, rfl⟩
    · obtain ⟨r, hr⟩ := @feedOrder_total m (by omega) mt out
      rw [hr]
      exact ⟨_, rfl⟩

end NebulaX
