import Mathlib.Data.Nat.Bitwise
import Mathlib.Data.UInt

/-!
# Big-endian numbers and length-prefixed frames

A number is written as its base-256 digits, most significant first, in a fixed number of bytes. A
message is framed by the number of its bytes in front of it. A sequence of frames that is cut off
somewhere is read as far as its frames are complete.

## Main results

* `ofBytes_toBytes` — a number that fits is read back
* `field_flatten` — the parts of a message are found where they were put
* `unframe_frame`, `unframe_cut` — a complete frame is read, one that was cut off is not
-/

namespace BigEndian

/-- The number whose base-256 digits are these, most significant first. -/
def ofBytes (bs : List UInt8) : ℕ := bs.foldl (fun v b => v * 256 + b.toNat) 0

/-- The last `n` base-256 digits of a number, most significant first. -/
def toBytes : ℕ → ℕ → List UInt8
  | 0, _ => []
  | n + 1, v => toBytes n (v / 256) ++ [UInt8.ofNat v]

@[simp] theorem length_toBytes (n v : ℕ) : (toBytes n v).length = n := by
  induction n generalizing v with
  | zero => rfl
  | succ n ih => rw [toBytes, List.length_append, ih]; rfl

theorem ofBytes_concat (bs : List UInt8) (b : UInt8) :
    ofBytes (bs ++ [b]) = ofBytes bs * 256 + b.toNat := by
  rw [ofBytes, List.foldl_append]
  rfl

theorem ofBytes_toBytes_mod (n v : ℕ) : ofBytes (toBytes n v) = v % 256 ^ n := by
  induction n generalizing v with
  | zero => rw [Nat.pow_zero, Nat.mod_one]; rfl
  | succ n ih =>
    have hbyte : (UInt8.ofNat v).toNat = v % 256 := UInt8.toNat_ofNat'
    rw [toBytes, ofBytes_concat, ih, hbyte, Nat.pow_succ', Nat.mod_mul]
    omega

/-- **A number that fits** in the bytes is read back. -/
theorem ofBytes_toBytes {n v : ℕ} (hv : v < 256 ^ n) : ofBytes (toBytes n v) = v := by
  rw [ofBytes_toBytes_mod, Nat.mod_eq_of_lt hv]

/-! ### Fields of a message -/

/-- The `n` bytes of a message from the `i`-th on. -/
def field (m : List UInt8) (i n : ℕ) : List UInt8 := (m.drop i).take n

/-- A field that stands between others. -/
theorem field_append {pre f post : List UInt8} {i n : ℕ} (hi : pre.length = i) (hn : f.length = n) :
    field (pre ++ (f ++ post)) i n = f := by
  rw [field, ← hi, List.drop_left, ← hn, List.take_left]

/-- One byte more. -/
theorem field_succ {m : List UInt8} {i n : ℕ} {b : UInt8} (hb : m[i + n]? = some b) :
    field m i (n + 1) = field m i n ++ [b] := by
  rw [field, List.take_add_one, List.getElem?_drop, hb]
  rfl

section

variable {parts : List (List UInt8)} {k i n : ℕ} {f : List UInt8}

/-- A message around one of its parts. -/
theorem flatten_around (hk : parts[k]? = some f) :
    parts.flatten = (parts.take k).flatten ++ (f ++ (parts.drop (k + 1)).flatten) := by
  have hsplit : parts = parts.take k ++ f :: parts.drop (k + 1) := by
    obtain ⟨hlt, hf⟩ := List.getElem?_eq_some_iff.mp hk
    rw [← hf, List.getElem_cons_drop, List.take_append_drop]
  rw [← List.flatten_cons, ← List.flatten_append, ← hsplit]

/-- **A part of a message** is found behind the parts before it. -/
theorem field_flatten (hk : parts[k]? = some f)
    (hi : ((parts.take k).map List.length).sum = i) (hn : f.length = n) :
    field parts.flatten i n = f := by
  rw [flatten_around hk]
  exact field_append (by rw [List.length_flatten, hi]) hn

/-- A part of a message lies inside of it. -/
theorem length_flatten_of_part (hk : parts[k]? = some f)
    (hi : ((parts.take k).map List.length).sum = i) (hn : f.length = n) :
    i + n ≤ parts.flatten.length := by
  rw [flatten_around hk, List.length_append, List.length_append, List.length_flatten, hi, hn]
  omega

end

/-! ### Frames -/

/-- A message behind the number of its bytes, in `w` bytes. -/
def frame (w : ℕ) (body : List UInt8) : List UInt8 := toBytes w body.length ++ body

@[simp] theorem length_frame (w : ℕ) (body : List UInt8) :
    (frame w body).length = w + body.length := by
  rw [frame, List.length_append, length_toBytes]

/-- Read a frame: the message, and what is behind it. -/
def unframe (w : ℕ) (bs : List UInt8) : Option (List UInt8 × List UInt8) :=
  if bs.length < w + ofBytes (bs.take w) then none
  else some (field bs w (ofBytes (bs.take w)), bs.drop (w + ofBytes (bs.take w)))

/-- **A complete frame** is read. -/
theorem unframe_frame {w : ℕ} {body : List UInt8} (hw : body.length < 256 ^ w)
    (rest : List UInt8) : unframe w (frame w body ++ rest) = some (body, rest) := by
  have hlen : ofBytes ((frame w body ++ rest).take w) = body.length := by
    rw [frame, List.append_assoc, List.take_left' (length_toBytes ..), ofBytes_toBytes hw]
  rw [unframe, hlen, if_neg]
  · have hbody : field (frame w body ++ rest) w body.length = body := by
      rw [frame, List.append_assoc]
      exact field_append (length_toBytes ..) rfl
    rw [hbody, List.drop_left' (length_frame ..)]
  · rw [List.length_append, length_frame]
    omega

/-- **A frame that was cut off** is not. -/
theorem unframe_cut {w : ℕ} {body rest : List UInt8} (hw : body.length < 256 ^ w) {n : ℕ}
    (hn : n < (frame w body).length) : unframe w ((frame w body ++ rest).take n) = none := by
  have hlt : n < w + body.length := by rwa [length_frame] at hn
  rw [unframe, if_pos]
  rcases Nat.lt_or_ge n w with hshort | hlong
  · have hle := List.length_take_le n (frame w body ++ rest)
    omega
  · have htake : ((frame w body ++ rest).take n).take w = toBytes w body.length := by
      rw [List.take_take, Nat.min_eq_left hlong, frame, List.append_assoc,
        List.take_left' (length_toBytes ..)]
    have hle := List.length_take_le n (frame w body ++ rest)
    rw [htake, ofBytes_toBytes hw]
    omega

end BigEndian
