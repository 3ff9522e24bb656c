import NebulaX.Replay.ItchReplaySource

/-!
# Any bytes

Nobody checks a historical file before it is replayed: its lengths, its types and its end are
whatever they are. Reading it comes to an end all the same, no message reaches beyond the file, and
no message is parsed beyond its own end.

## Main results

* `ItchReplaySource.decoded` — from any place in any buffer
* `any_bytes` — any bytes as the contents of the file
-/

namespace NebulaX

namespace ItchReplaySource

variable {src : ItchReplaySource}

/-- A call of `next`, by a caller that does not stop when it returns `false`: the frame, if there is
one, and the source afterwards. -/
def call (self : ItchReplaySource) : Option ReplayFrame × ItchReplaySource :=
  match self.next with
  | none => (none, self)
  | some (f, self') => (some f, self')

/-- The results of `n` calls in a row. -/
def calls : ℕ → ItchReplaySource → List (Option ReplayFrame)
  | 0, _ => []
  | n + 1, src => src.call.1 :: calls n src.call.2

/-- What a call of `next` can do: nothing at all, or pass over the length and the bytes of a message
that the buffer still holds. -/
theorem next_cases (src : ItchReplaySource) :
    src.next = none ∨
    ∃ l, src.pos + 2 + l ≤ src.data.length ∧
      src.next = some ({ body := src.pos + 2, len := l, seq := src.frameCount + 1 },
        { src with pos := src.pos + 2 + l, frameCount := src.frameCount + 1 }) := by
  by_cases hpos : src.data.length < src.pos + 2
  · exact Or.inl (by rw [next, dif_pos hpos])
  by_cases hlen : src.data.length < src.pos + 2 +
      ((src.data[src.pos].toNat <<< 8) ||| src.data[src.pos + 1].toNat)
  · exact Or.inl (by rw [next, dif_neg hpos]; exact if_pos hlen)
  · exact Or.inr ⟨_, not_lt.mp hlen, by rw [next, dif_neg hpos]; exact if_neg hlen⟩

/-- **A call that returns `false` changes nothing**, so that the calls after it return `false` as
well. -/
theorem calls_of_next_eq_none (h : src.next = none) (n : ℕ) :
    src.calls n = List.replicate n none := by
  have hcall : src.call = (none, src) := by rw [call, h]
  induction n with
  | zero => rfl
  | succ n ih => rw [calls, hcall, ih, List.replicate_succ]

/-- The frames `fs` are what is left in the source. -/
structure Decoded (src : ItchReplaySource) (fs : List ReplayFrame) : Prop where
  /-- The calls hand them out one after the other, and nothing after the last one. -/
  calls (n : ℕ) : src.calls n = (fs.map some).take n ++ List.replicate (n - fs.length) none
  /-- There are at most half as many as there are bytes left. -/
  count : 2 * fs.length ≤ src.data.length - src.pos
  /-- The first body stands behind the length at the place that the source has reached. -/
  first : ∀ f ∈ fs.head?, f.body = src.pos + 2
  /-- A body stands behind the one before it, with nothing but its length in between. -/
  consecutive : fs.IsChain fun f g => g.body = f.body + f.len + 2
  /-- No body begins before the place that the source has reached. -/
  ahead : ∀ f ∈ fs, src.pos + 2 ≤ f.body
  /-- No two bodies have a byte in common. -/
  disjoint : fs.Pairwise fun f g => f.body + f.len ≤ g.body
  /-- No body reaches beyond the buffer. -/
  inside : ∀ f ∈ fs, f.body + f.len ≤ src.data.length

/-- A source without a next message. -/
theorem Decoded.nil (h : src.next = none) : Decoded src [] where
  calls n := by rw [calls_of_next_eq_none h]; simp
  count := Nat.zero_le _
  first := by simp
  consecutive := List.IsChain.nil
  ahead := by simp
  disjoint := List.Pairwise.nil
  inside := by simp

/-- The next message, and what is left behind it. -/
theorem Decoded.cons {l : ℕ} {fs : List ReplayFrame} (hl : src.pos + 2 + l ≤ src.data.length)
    (h : src.next = some ({ body := src.pos + 2, len := l, seq := src.frameCount + 1 },
      { src with pos := src.pos + 2 + l, frameCount := src.frameCount + 1 }))
    (hfs : Decoded { src with pos := src.pos + 2 + l, frameCount := src.frameCount + 1 } fs) :
    Decoded src ({ body := src.pos + 2, len := l, seq := src.frameCount + 1 } :: fs) where
  calls n := by
    cases n with
    | zero => simp [ItchReplaySource.calls]
    | succ n =>
      have hcall := hfs.calls n
      simp [ItchReplaySource.calls, call, h, hcall]
  count := by
    have hcount := hfs.count
    simp only [List.length_cons] at hcount ⊢
    omega
  first := by simp
  consecutive := by
    cases fs with
    | nil => exact List.IsChain.singleton _
    | cons g fs => exact List.IsChain.cons_cons (hfs.first g rfl) hfs.consecutive
  ahead := by
    intro f hf
    rcases List.mem_cons.mp hf with rfl | hf
    · exact le_refl _
    · have hahead := hfs.ahead f hf
      simp only at hahead
      omega
  disjoint := by
    refine List.Pairwise.cons (fun g hg => ?_) hfs.disjoint
    have hahead := hfs.ahead g hg
    simp only at hahead ⊢
    omega
  inside := by
    intro f hf
    rcases List.mem_cons.mp hf with rfl | hf
    · exact hl
    · exact hfs.inside f hf

/-- **Every buffer is decoded**, from every place in it: every message takes two bytes at least, so
the induction is on the bytes that are left. -/
theorem decoded (src : ItchReplaySource) : ∃ fs, Decoded src fs := by
  induction hleft : src.data.length - src.pos using Nat.strong_induction_on generalizing src with
  | _ left ih =>
    obtain hnone | ⟨l, hl, hsome⟩ := src.next_cases
    · exact ⟨[], Decoded.nil hnone⟩
    · obtain ⟨fs, hfs⟩ := ih (src.data.length - (src.pos + 2 + l)) (by omega)
        { src with pos := src.pos + 2 + l, frameCount := src.frameCount + 1 } rfl
      exact ⟨_, Decoded.cons hl hsome hfs⟩

/-- The bytes of a message inside the buffer are as many as its length says. -/
theorem length_bytes {f : ReplayFrame} (h : f.body + f.len ≤ src.data.length) :
    (src.bytes f).length = f.len := by
  rw [bytes, BigEndian.field, List.length_take, List.length_drop]
  omega

/-- `open` on a source that has not been used. -/
theorem openFile_new (file : List UInt8) :
    (openFile {} file).2 = { data := file } := by
  rw [openFile]
  split
  · rename_i hfile
    rw [List.eq_nil_of_length_eq_zero hfile]
  · rfl

end ItchReplaySource

/-- **Decoding any bytes is safe and ends.** Whatever the file holds, there are frames such that
every sequence of calls of `next` returns them in order and `false` ever after, at most one for two
bytes of the file; the bodies follow each other from the first two bytes of the file on, with
nothing but the lengths between them, and none reaches beyond the file. `feed` reads none of them
beyond its end, whatever its length, its type and the state of the parser. -/
theorem any_bytes (file : List UInt8) :
    ∃ fs : List ReplayFrame,
      ItchReplaySource.Decoded (ItchReplaySource.openFile {} file).2 fs ∧
      2 * fs.length ≤ file.length ∧
      (∀ f ∈ fs.head?, f.body = 2) ∧
      ∀ f ∈ fs, f.body + f.len ≤ file.length ∧
        ((ItchReplaySource.openFile {} file).2.bytes f).length = f.len ∧
        ∀ (parser : ItchParser) (out : RawItchEvent),
          ∃ r, parser.feed ((ItchReplaySource.openFile {} file).2.bytes f) out = some r := by
  rw [ItchReplaySource.openFile_new]
  obtain ⟨fs, hfs⟩ := ItchReplaySource.decoded { data := file }
  refine ⟨fs, hfs, hfs.count, hfs.first, fun f hf => ⟨hfs.inside f hf, ?_, ?_⟩⟩
  · exact ItchReplaySource.length_bytes (hfs.inside f hf)
  · intro parser out
    exact parser.feed_total _ out

end NebulaX
