import NebulaX.Replay.ItchParser

/-!
# The historical file

`src/replay/itch_replay_source.h`: the messages of a file one after the other, each behind its
length in two bytes. A message is where it starts in the file and how long it is, as in the source.

## Main results

* `next_eq_none`, `next_eq_some` — a message is there exactly when its frame is complete
-/

namespace NebulaX

open BigEndian

/-- What `next` hands out. -/
structure ReplayFrame where
  /-- `body`, as the index of its first byte. -/
  body : ℕ
  /-- `len`. -/
  len : ℕ
  /-- `seq`. -/
  seq : ℕ
deriving DecidableEq, Repr

/-- `ItchReplaySource`. -/
structure ItchReplaySource where
  /-- `data_`. -/
  data : List UInt8 := []
  /-- `pos_`. -/
  pos : ℕ := 0
  /-- `frame_count_`. -/
  frameCount : ℕ := 0
deriving DecidableEq, Repr

namespace ItchReplaySource

/-- `ItchReplaySource::open`, on a file with these bytes. A file without any is not opened. -/
def openFile (self : ItchReplaySource) (file : List UInt8) : Bool × ItchReplaySource :=
  if file.length = 0 then (false, self)
  else (true, { data := file })

/-- `ItchReplaySource::next`. -/
def next (self : ItchReplaySource) : Option (ReplayFrame × ItchReplaySource) :=
  if _ : self.data.length < self.pos + 2 then none
  else
    let l := (self.data[self.pos].toNat <<< 8) ||| self.data[self.pos + 1].toNat
    if self.data.length < self.pos + 2 + l then none
    else some ({ body := self.pos + 2, len := l, seq := self.frameCount + 1 },
      { self with pos := self.pos + 2 + l, frameCount := self.frameCount + 1 })

/-- The bytes that a frame points to. -/
def bytes (self : ItchReplaySource) (f : ReplayFrame) : List UInt8 := field self.data f.body f.len

/-- What has not been read yet. -/
def rest (self : ItchReplaySource) : List UInt8 := self.data.drop self.pos

/-- The length in front of a message. -/
theorem toNat_lengthBytes {data : List UInt8} {pos : ℕ} (hpos : pos + 2 ≤ data.length) :
    data[pos].toNat <<< 8 ||| data[pos + 1].toNat = ofBytes ((data.drop pos).take 2) := by
  have h0 : data[pos]? = some data[pos] := List.getElem?_eq_getElem (by omega)
  have h1 : data[pos + 1]? = some data[pos + 1] := List.getElem?_eq_getElem (by omega)
  rw [Nat.shiftLeft_eq, or_high data[pos + 1].toNat_lt]
  change _ = ofBytes (field data pos 2)
  rw [ofBytes_field_succ h1, ofBytes_field_succ h0, ofBytes_field_zero]
  omega

/-- **No message** without a complete frame. -/
theorem next_eq_none {src : ItchReplaySource} (h : unframe 2 src.rest = none) :
    src.next = none := by
  rw [unframe, rest, List.length_drop] at h
  rw [next]
  split
  · rfl
  · rename_i hpos
    rw [toNat_lengthBytes (by omega), if_pos]
    split at h
    · omega
    · exact absurd h (by simp)

/-- **The next message** is that of the next complete frame. -/
theorem next_eq_some {src : ItchReplaySource} {body after : List UInt8}
    (h : unframe 2 src.rest = some (body, after)) :
    ∃ f src', src.next = some (f, src') ∧ src'.bytes f = body ∧ src'.rest = after ∧
      f.seq = src.frameCount + 1 ∧ src'.frameCount = src.frameCount + 1 := by
  rw [unframe, rest, List.length_drop] at h
  split at h
  · exact absurd h (by simp)
  · rename_i hlen
    obtain ⟨hbody, hafter⟩ := Prod.mk.inj (Option.some.inj h)
    rw [next, dif_neg (by omega), toNat_lengthBytes (by omega), if_neg (by omega)]
    refine ⟨_, _, rfl, ?_, ?_, rfl, rfl⟩
    · rw [← hbody, bytes, field, field, List.drop_drop]
    · rw [← hafter, rest, List.drop_drop, Nat.add_assoc]

end ItchReplaySource

/-! ### Reading a file -/

/-- The loop of `ReplayEngine::run` over a file, as far as its order events go: each with the
number of its message. An event is not initialised before `feed` (`uninit`). Out of fuel, the
result is `none`. -/
def readOrders (uninit : ℕ → RawItchEvent) :
    ℕ → ItchReplaySource → ItchParser → Option (List (ℕ × ItchEvent) × ItchReplaySource)
  | 0, _, _ => none
  | fuel + 1, src, parser =>
    match src.next with
    | none => some ([], src)
    | some (f, src') => do
      let (out, parser') ← parser.feed (src'.bytes f) (uninit f.seq)
      let (orders, src'') ← readOrders uninit fuel src' parser'
      return (out.toList.map (fun r => (f.seq, r.event)) ++ orders, src'')

end NebulaX
