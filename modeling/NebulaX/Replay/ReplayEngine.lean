import NebulaX.Lib.Segments
import NebulaX.Replay.RoundTrip

/-!
# The replay engine

`src/replay/replay_engine.h`: the messages of a file go to the exchange one by one, and after every
`segment_size` of them the strategies are given their turn. What the exchange and the strategies do
is a parameter: two functions on a state of any type.

## Main results

* `run_segmented` — a run works through the messages of a file in segments
-/

namespace NebulaX

open BigEndian

/-- `ReplayEngine::Config`, with the bytes of the file that it names. -/
structure ReplayConfig where
  /-- `file`. -/
  file : List UInt8
  /-- `segment_size`. -/
  segmentSize : ℕ := 1000
  /-- `max_messages`; zero is no limit. -/
  maxMessages : ℕ := 0

/-- What a run calls, and what that does to the rest of the program. -/
structure ReplayHandlers (σ : Type) where
  /-- `ExchangeSimulator::on_market_order`. -/
  onMarketOrder : ItchEvent → σ → σ
  /-- `on_segment_boundary`, if there is one. -/
  onSegmentBoundary : Option (ℕ → σ → σ) := none

/-- `if (on_segment_boundary) on_segment_boundary(segments_)`. -/
def ReplayHandlers.boundary {σ : Type} (h : ReplayHandlers σ) (seg : ℕ) (s : σ) : σ :=
  match h.onSegmentBoundary with
  | some f => f seg s
  | none => s

/-- `ReplayEngine`. The exchange stands for all that is behind it. -/
structure ReplayEngine (σ : Type) where
  /-- `src_`. -/
  src : ItchReplaySource
  /-- `parser_`. -/
  parser : ItchParser
  /-- `ex_`. -/
  ex : σ
  /-- `total_`. -/
  total : ℕ := 0
  /-- `order_events_`. -/
  orderEvents : ℕ := 0
  /-- `segments_`. -/
  segments : ℕ := 0

namespace ReplayEngine

variable {σ : Type} (h : ReplayHandlers σ) (uninit : ℕ → RawItchEvent) (cfg : ReplayConfig)

/-- `messages_processed`. -/
def messagesProcessed (self : ReplayEngine σ) : ℕ := self.total

/-- The loop of `run`, from `parser_.feed` to `++total_`. -/
def onMessage (self : ReplayEngine σ) (body : List UInt8) (ev : RawItchEvent) :
    Option (ReplayEngine σ) := do
  let (out, parser) ← self.parser.feed body ev
  match out with
  | some r =>
    return { self with
      parser := parser, ex := h.onMarketOrder r.event self.ex,
      orderEvents := self.orderEvents + 1, total := self.total + 1 }
  | none => return { self with parser := parser, total := self.total + 1 }

/-- The end of a segment: the callback, and `++segments_`. -/
def closeSegment (self : ReplayEngine σ) : ReplayEngine σ :=
  { self with ex := h.boundary self.segments self.ex, segments := self.segments + 1 }

/-- The loop of `run`, with `seg_msg`. An event is not initialised before `feed` (`uninit`). Out of
fuel, the result is `none`. -/
def loop : ℕ → ReplayEngine σ → ℕ → Option (ReplayEngine σ × ℕ)
  | 0, _, _ => none
  | fuel + 1, self, segMsg =>
    match self.src.next with
    | none => some (self, segMsg)
    | some (f, src) =>
      if cfg.maxMessages ≠ 0 ∧ cfg.maxMessages ≤ self.total then
        some ({ self with src := src }, segMsg)
      else do
        let self ← ({ self with src := src }).onMessage h (src.bytes f) (uninit f.seq)
        if cfg.segmentSize ≤ segMsg + 1 then loop fuel (self.closeSegment h) 0
        else loop fuel self (segMsg + 1)

/-- After the loop: the last segment, if something is left for it. -/
def finish (self : ReplayEngine σ) (segMsg : ℕ) : ReplayEngine σ :=
  if 0 < segMsg then self.closeSegment h else self

/-- `ReplayEngine::run`. -/
def run (fuel : ℕ) (self : ReplayEngine σ) : Option (ReplayEngine σ) :=
  match self.src.openFile cfg.file with
  | (false, src) => some { self with src := src }
  | (true, src) => do
    let (self, segMsg) ← loop h uninit cfg fuel { self with src := src } 0
    return self.finish h segMsg

/-! ### What a run does, step by step

A message is the item of a trace, with its number in the file. -/

/-- A message goes to the parser, and what that makes of it to the exchange; the end of a segment
goes to the callback. -/
def perform (s : ItchParser × σ) : Segments.Step (List UInt8 × ℕ) → Option (ItchParser × σ)
  | .item (body, seq) =>
    (s.1.feed body (uninit seq)).map fun r =>
      (r.2, match r.1 with
        | some ev => h.onMarketOrder ev.event s.2
        | none => s.2)
  | .close seg => some (s.1, h.boundary seg s.2)

/-- A trace is performed step by step. -/
def performAll (s : ItchParser × σ) (trace : List (Segments.Step (List UInt8 × ℕ))) :
    Option (ItchParser × σ) :=
  trace.foldlM (perform h uninit) s

/-- How many of `n` messages a run takes. -/
def limit (M n : ℕ) : ℕ := if M = 0 then n else min n M

variable {h uninit cfg}

/-- One message, as a step of the trace. -/
theorem onMessage_spec (self : ReplayEngine σ) (body : List UInt8) (seq : ℕ) :
    ∃ self', self.onMessage h body (uninit seq) = some self' ∧
      perform h uninit (self.parser, self.ex) (.item (body, seq)) = some (self'.parser, self'.ex) ∧
      self'.src = self.src ∧ self'.total = self.total + 1 ∧ self'.segments = self.segments := by
  obtain ⟨⟨out, parser⟩, hfeed⟩ := self.parser.feed_total body (uninit seq)
  cases out with
  | none =>
    refine ⟨{ self with parser := parser, total := self.total + 1 }, ?_, ?_, rfl, rfl, rfl⟩
    · rw [onMessage, hfeed]
      rfl
    · rw [perform, hfeed]
      rfl
  | some r =>
    refine ⟨{ self with
      parser := parser, ex := h.onMarketOrder r.event self.ex,
      orderEvents := self.orderEvents + 1, total := self.total + 1 }, ?_, ?_, rfl, rfl, rfl⟩
    · rw [onMessage, hfeed]
      rfl
    · rw [perform, hfeed]
      rfl

/-- The messages that are still taken, after `n` of them. -/
def allowed {α : Type} (M n : ℕ) (as : List α) : List α := if M = 0 then as else as.take (M - n)

theorem limit_le (M n : ℕ) : limit M n ≤ n := by
  rw [limit]
  split <;> omega

theorem allowed_zero {α : Type} (M : ℕ) (as : List α) :
    allowed M 0 as = as.take (limit M as.length) := by
  rw [allowed, limit]
  split
  · rw [List.take_length]
  · rw [Nat.sub_zero, Nat.min_comm, ← List.take_eq_take_min]

theorem allowed_stop {α : Type} {M n : ℕ} (hM : M ≠ 0 ∧ M ≤ n) (as : List α) :
    allowed M n as = [] := by
  rw [allowed, if_neg hM.1, Nat.sub_eq_zero_of_le hM.2, List.take_zero]

theorem allowed_cons {α : Type} {M n : ℕ} (hM : ¬(M ≠ 0 ∧ M ≤ n)) (a : α) (as : List α) :
    allowed M n (a :: as) = a :: allowed M (n + 1) as := by
  rw [allowed, allowed]
  split
  · rfl
  · rw [show M - n = M - (n + 1) + 1 by omega, List.take_succ_cons]

/-- The counters in front of a turn of the loop, after `n` messages. -/
structure Counted (S : ℕ) (e : ReplayEngine σ) (segMsg n : ℕ) : Prop where
  total : e.total = n
  segments : e.segments = n / S
  segMsg : segMsg = n % S

variable (h uninit) in
/-- What a run comes to: the trace of the messages it takes, after `n` others, and the counters. -/
structure WorksThrough (S : ℕ) (s : ItchParser × σ) (n : ℕ) (taken : List (List UInt8))
    (last : ReplayEngine σ) : Prop where
  performed : performAll h uninit s (Segments.segmented S n (taken.zipIdx (n + 1))) =
    some (last.parser, last.ex)
  total : last.total = n + taken.length
  segments : last.segments = (n + taken.length) ⌈/⌉ S

section

variable {S : ℕ} {e e' last : ReplayEngine σ} {segMsg n : ℕ} {b : List UInt8}
  {taken : List (List UInt8)}

/-- The end of a run, after the last message. -/
theorem Counted.finish (hc : Counted S e segMsg n) (hS : 0 < S) :
    WorksThrough h uninit S (e.parser, e.ex) n [] (e.finish h segMsg) := by
  rw [ReplayEngine.finish, hc.segMsg]
  by_cases hrest : n % S = 0
  · rw [if_neg (by omega)]
    refine ⟨?_, hc.total, ?_⟩
    · rw [List.zipIdx_nil, Segments.segmented, if_pos hrest]
      rfl
    · rw [List.length_nil, Nat.add_zero, Segments.ceilDiv_of_full hS hrest]
      exact hc.segments
  · rw [if_pos (by omega)]
    refine ⟨?_, hc.total, ?_⟩
    · rw [List.zipIdx_nil, Segments.segmented, if_neg hrest, ← hc.segments]
      rfl
    · rw [List.length_nil, Nat.add_zero, Segments.ceilDiv_of_rest hS hrest, ← hc.segments]
      rfl

/-- The counters after a message that fills its segment. -/
theorem Counted.full (hc : Counted S e segMsg n) (ht : e'.total = e.total + 1)
    (hs : e'.segments = e.segments) (hfull : (n + 1) % S = 0) :
    Counted S (e'.closeSegment h) 0 (n + 1) where
  total := by rw [← hc.total]; exact ht
  segments := by rw [Segments.succ_div_of_full hfull, ← hc.segments, ← hs]; rfl
  segMsg := hfull.symm

/-- The counters after a message that does not. -/
theorem Counted.room (hc : Counted S e segMsg n) (ht : e'.total = e.total + 1)
    (hs : e'.segments = e.segments) (hroom : (n + 1) % S ≠ 0) :
    Counted S e' (segMsg + 1) (n + 1) where
  total := by rw [ht, hc.total]
  segments := by rw [Segments.succ_div_of_room hroom, hs, hc.segments]
  segMsg := by rw [Segments.mod_succ_of_room hroom, hc.segMsg]

/-- One message more in front, when it fills its segment. -/
theorem WorksThrough.full (hs : e'.segments = n / S) (hfull : (n + 1) % S = 0)
    (hperf : perform h uninit (e.parser, e.ex) (.item (b, n + 1)) = some (e'.parser, e'.ex))
    (hw : WorksThrough h uninit S ((e'.closeSegment h).parser, (e'.closeSegment h).ex) (n + 1)
      taken last) : WorksThrough h uninit S (e.parser, e.ex) n (b :: taken) last where
  performed := by
    rw [List.zipIdx_cons, Segments.segmented, if_pos hfull, ← hw.performed, performAll,
      List.foldlM_cons]
    change (perform h uninit (e.parser, e.ex) (.item (b, n + 1))).bind _ = _
    rw [hperf, Option.bind_some, List.foldlM_cons, ← hs]
    rfl
  total := by rw [hw.total, List.length_cons]; omega
  segments := by rw [hw.segments, List.length_cons, Nat.add_right_comm, Nat.add_assoc]

/-- One message more in front, when it does not. -/
theorem WorksThrough.room (hroom : (n + 1) % S ≠ 0)
    (hperf : perform h uninit (e.parser, e.ex) (.item (b, n + 1)) = some (e'.parser, e'.ex))
    (hw : WorksThrough h uninit S (e'.parser, e'.ex) (n + 1) taken last) :
    WorksThrough h uninit S (e.parser, e.ex) n (b :: taken) last where
  performed := by
    rw [List.zipIdx_cons, Segments.segmented, if_neg hroom, ← hw.performed, performAll,
      List.foldlM_cons]
    change (perform h uninit (e.parser, e.ex) (.item (b, n + 1))).bind _ = _
    rw [hperf, Option.bind_some]
    rfl
  total := by rw [hw.total, List.length_cons]; omega
  segments := by rw [hw.segments, List.length_cons, Nat.add_right_comm, Nat.add_assoc]

end

/-- **The loop** works through the messages that are left, in segments. -/
theorem loop_segmented (hS : 0 < cfg.segmentSize) {tail : List UInt8}
    (htail : unframe 2 tail = none) {bodies : List (List UInt8)} :
    ∀ {self : ReplayEngine σ} {segMsg n fuel : ℕ}, (∀ b ∈ bodies, b.length < 256 ^ 2) →
      self.src.rest = (bodies.map (frame 2)).flatten ++ tail → self.src.rest.length < fuel →
      self.src.frameCount = n → Counted cfg.segmentSize self segMsg n →
      ∃ last segMsg', loop h uninit cfg fuel self segMsg = some (last, segMsg') ∧
        WorksThrough h uninit cfg.segmentSize (self.parser, self.ex) n
          (allowed cfg.maxMessages n bodies) (last.finish h segMsg') := by
  induction bodies with
  | nil =>
    intro self segMsg n fuel _ hrest hfuel _ hc
    obtain ⟨fuel, rfl⟩ := Nat.exists_eq_succ_of_ne_zero (Nat.ne_zero_of_lt hfuel)
    have hnone : self.src.next = none := by
      apply ItchReplaySource.next_eq_none
      rw [hrest]
      exact htail
    have hnil : allowed cfg.maxMessages n ([] : List (List UInt8)) = [] := by
      rw [allowed, List.take_nil, ite_self]
    refine ⟨self, segMsg, by rw [loop, hnone], ?_⟩
    rw [hnil]
    exact hc.finish hS
  | cons b bodies ih =>
    intro self segMsg n fuel hb hrest hfuel hframes hc
    obtain ⟨fuel, rfl⟩ := Nat.exists_eq_succ_of_ne_zero (Nat.ne_zero_of_lt hfuel)
    have hread : unframe 2 self.src.rest =
        some (b, (bodies.map (frame 2)).flatten ++ tail) := by
      rw [hrest, List.map_cons, List.flatten_cons, List.append_assoc]
      exact unframe_frame (hb b List.mem_cons_self) _
    obtain ⟨f, src, hnext, hbytes, hrest', hseq, hcount⟩ := ItchReplaySource.next_eq_some hread
    rw [hframes] at hseq hcount
    rw [loop, hnext]
    dsimp only
    by_cases hM : cfg.maxMessages ≠ 0 ∧ cfg.maxMessages ≤ self.total
    · -- the limit is reached: the frame is consumed and left alone
      have hend : Counted cfg.segmentSize { self with src := src } segMsg n :=
        ⟨hc.total, hc.segments, hc.segMsg⟩
      rw [if_pos hM]
      rw [hc.total] at hM
      rw [allowed_stop hM]
      exact ⟨_, segMsg, rfl, hend.finish hS⟩
    · rw [if_neg hM]
      rw [hc.total] at hM
      obtain ⟨self', hmsg, hperf, hsrc, htot, hseg⟩ :=
        @onMessage_spec _ h uninit { self with src := src } b (n + 1)
      have hb' : ∀ b ∈ bodies, b.length < 256 ^ 2 := fun c hc =>
        hb c (List.mem_cons_of_mem b hc)
      have hlen : self'.src.rest.length < fuel := by
        rw [hrest, List.map_cons, List.flatten_cons, List.append_assoc, ← hrest',
          List.length_append, length_frame] at hfuel
        rw [hsrc]
        change src.rest.length < fuel
        omega
      have hcount' : self'.src.frameCount = n + 1 := by rw [hsrc, ← hcount]
      have hrest'' : self'.src.rest = (bodies.map (frame 2)).flatten ++ tail := by
        rw [hsrc, ← hrest']
      rw [hbytes, hseq, hmsg, allowed_cons hM]
      change ∃ last segMsg', (if cfg.segmentSize ≤ segMsg + 1 then _ else _) = _ ∧ _
      rw [hc.segMsg]
      split
      · -- the message fills the segment
        rename_i hfull
        have hmod := (Segments.full_iff hS).mpr hfull
        obtain ⟨last, segMsg', hloop, hw⟩ :=
          @ih (self'.closeSegment h) 0 (n + 1) fuel hb' hrest'' hlen hcount'
            (hc.full htot hseg hmod)
        exact ⟨last, segMsg', hloop, hw.full (hseg.trans hc.segments) hmod hperf⟩
      · rename_i hroom
        have hmod : (n + 1) % cfg.segmentSize ≠ 0 := fun hz => hroom ((Segments.full_iff hS).mp hz)
        obtain ⟨last, segMsg', hloop, hw⟩ :=
          ih hb' hrest'' hlen hcount' (hc.room htot hseg hmod)
        rw [hc.segMsg] at hloop
        exact ⟨last, segMsg', hloop, hw.room hmod hperf⟩

/-- A first run, by its trace. -/
theorem run_worksThrough (hS : 0 < cfg.segmentSize) {bodies : List (List UInt8)} {tail : List UInt8}
    (hb : ∀ b ∈ bodies, b.length < 256 ^ 2) (htail : unframe 2 tail = none)
    (hfile : cfg.file = (bodies.map (frame 2)).flatten ++ tail) (src : ItchReplaySource)
    (parser : ItchParser) (ex : σ) {fuel : ℕ} (hfuel : cfg.file.length < fuel) :
    ∃ last, run h uninit cfg fuel { src := src, parser := parser, ex := ex } = some last ∧
      WorksThrough h uninit cfg.segmentSize (parser, ex) 0 (allowed cfg.maxMessages 0 bodies)
        last := by
  by_cases hempty : cfg.file.length = 0
  · -- there is nothing to open
    have hbodies : bodies = [] := by
      cases bodies with
      | nil => rfl
      | cons b bodies =>
        rw [hfile, List.map_cons, List.flatten_cons, List.append_assoc, List.length_append,
          length_frame] at hempty
        omega
    have hc : Counted cfg.segmentSize ({ src := src, parser := parser, ex := ex } : ReplayEngine σ)
        0 0 := ⟨rfl, (Nat.zero_div _).symm, (Nat.zero_mod _).symm⟩
    refine ⟨{ src := src, parser := parser, ex := ex }, ?_, ?_⟩
    · rw [run, ItchReplaySource.openFile, if_pos hempty]
    · rw [hbodies, allowed, List.take_nil, ite_self]
      exact hc.finish hS
  · have hc : Counted cfg.segmentSize ({ src := { data := cfg.file }, parser := parser, ex := ex } :
        ReplayEngine σ) 0 0 := ⟨rfl, (Nat.zero_div _).symm, (Nat.zero_mod _).symm⟩
    obtain ⟨last, segMsg, hloop, hw⟩ := @loop_segmented _ h uninit cfg hS tail htail bodies
      { src := { data := cfg.file }, parser := parser, ex := ex } 0 0 fuel hb hfile hfuel rfl hc
    refine ⟨last.finish h segMsg, ?_, hw⟩
    rw [run, ItchReplaySource.openFile, if_neg hempty]
    dsimp only
    rw [hloop]
    rfl

end ReplayEngine

end NebulaX
