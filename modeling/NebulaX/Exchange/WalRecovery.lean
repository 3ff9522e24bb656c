import NebulaX.Exchange.Calls
import NebulaX.Exchange.FillOrKill
import NebulaX.Exchange.ReplaceCancelAdd
import NebulaX.Exchange.SharedRecovery

/-!
# Recovery from the log

With a log attached, every call that gets past its first checks writes one entry. `recoverFromWal`
reads the entries back and does for each of them what it says, on a fresh engine: a second
implementation of the four entry points.

Two engines are `Alike` when they agree on all that calls read. The replay of an entry keeps a
live engine and a recovered one alike when it does what the call did, and for four kinds of calls
it does not. An entry does not say how long its order is good for, so the rest of an immediate
order goes to the book. A partial cancel is deducted twice, and without a look at its user. And the
entry of a replace has neither the old reference nor a side, so the replay of it is a cancel of the
new reference. `Replays` says of a call that none of this shows.

## Main results

* `replay_exec` — a call whose entry replays keeps the two engines alike
* `recoverFromWal_book` — the log of a run of such calls brings back its books
* `cancelled_twice` — a partial cancel that the replay deducts twice
-/

namespace NebulaX.Exchange

open MatchingEngine

/-! ### The file -/

/-- What was appended to a ring that has not come round yet. -/
def WalWriter.entries (w : WalWriter) : List WalEntry := (List.range w.total).map w.base

theorem WalWriter.entries_append {w : WalWriter} (hw : w.total < walEntries) (entry : WalEntry) :
    (w.append entry).entries = w.entries ++ [entry] := by
  have hpos : w.total % walEntries = w.total := Nat.mod_eq_of_lt hw
  have hold : (List.range w.total).map (w.append entry).base = (List.range w.total).map w.base := by
    refine List.map_congr_left fun i hi => ?_
    rw [WalWriter.append, hpos]
    exact Function.update_of_ne (Nat.ne_of_lt (List.mem_range.mp hi)) ..
  have hnew : (w.append entry).base w.total = entry := by
    rw [WalWriter.append, hpos]
    exact Function.update_self ..
  rw [entries, show (w.append entry).total = w.total + 1 from rfl, List.range_succ,
    List.map_append, hold, List.map_singleton, hnew, entries]

theorem WalWriter.length_entries (w : WalWriter) : w.entries.length = w.total := by
  rw [entries, List.length_map, List.length_range]

/-! ### The replay of an entry -/

/-- The order that a `NEW` entry is replayed with. -/
def WalEntry.order (entry : WalEntry) : OrderData where
  userId := entry.userId
  orderId := entry.orderId
  side := if entry.side = 0x01 then .buy else .sell
  price := entry.price
  originalQty := entry.quantity
  remainingQty := entry.quantity
  sequence := entry.walSeq
  status := .open

namespace MatchingEngine

/-- The end of the loop body of `recoverFromWal`. -/
def raiseCounters (e : MatchingEngine) (entry : WalEntry) : MatchingEngine :=
  let e := if e.nextSequence ≤ entry.walSeq then { e with nextSequence := entry.walSeq + 1 } else e
  if e.nextOrderId ≤ entry.orderId then { e with nextOrderId := entry.orderId + 1 } else e

/-- The rest of a replayed order hangs in the book, whether there is room or not. -/
def restReplayed (locate : ℕ) (s : Matching) : Option MatchingEngine :=
  if s.order.status = .open ∨ s.order.status = .partiallyFilled then
    (s.engine.addOrder locate s.order).map Prod.snd
  else some s.engine

/-- A `NEW` entry. If its order is found, the loop goes on to the next entry. -/
def replayNew (e : MatchingEngine) (entry : WalEntry) : Option MatchingEngine :=
  (e.findOrder entry.orderId).bind fun
    | some _ => some e
    | none =>
      let order := entry.order
      let locate := entry.locate.toNat
      ((if order.side = .buy then e.matchBuyOrder locate order
        else e.matchSellOrder locate order).bind (restReplayed locate)).map
          (raiseCounters · entry)

/-- A `CANCEL` entry. -/
def replayCancel (e : MatchingEngine) (entry : WalEntry) : Option MatchingEngine :=
  let locate := entry.locate.toNat
  ((e.books locate).removeOrderOf e.shared entry.orderId entry.userId).map fun (_, b, sh) =>
    (e.withBook locate b sh).raiseCounters entry

/-- `o->remaining_qty -= quantity`. -/
def cutRemaining (e : MatchingEngine) (idx : ℕ) (quantity : UInt32) : MatchingEngine :=
  { e with shared := { e.shared with
      pool := e.shared.pool.modify idx fun o =>
        { o with remainingQty := o.remainingQty - quantity } } }

/-- The entry of a partial cancel. -/
def replayCancelShares (e : MatchingEngine) (entry : WalEntry) : Option MatchingEngine :=
  let locate := entry.locate.toNat
  (e.findOrder entry.orderId).bind fun
    | none => some (e.raiseCounters entry)
    | some idx =>
      if entry.quantity = 0 then some (e.raiseCounters entry)
      else if (e.shared.pool.storage idx).remainingQty ≤ entry.quantity then
        (e.removeOrder locate idx).map (raiseCounters · entry)
      else some (((e.cutRemaining idx entry.quantity).reduceOrderQty locate idx
        entry.quantity).raiseCounters entry)

/-- The entry of a replace. -/
def replayReplace (e : MatchingEngine) (entry : WalEntry) : Option MatchingEngine :=
  (e.findOrder entry.orderId).bind fun
    | none => some (e.raiseCounters entry)
    | some idx =>
      if (e.shared.pool.storage idx).userId = entry.userId then
        (e.removeOrder entry.locate.toNat idx).map (raiseCounters · entry)
      else some (e.raiseCounters entry)

/-- The body of the loop of `recoverFromWal`. -/
def replayEntry (e : MatchingEngine) (entry : WalEntry) : Option MatchingEngine :=
  match e.bookFor entry.locate.toNat with
  | none => some e
  | some _ =>
    if entry.type = 0x01 then e.replayNew entry
    else if entry.type = 0x02 then e.replayCancel entry
    else if entry.type = 0x03 then e.replayCancelShares entry
    else if entry.type = 0x04 then e.replayReplace entry
    else some (e.raiseCounters entry)

/-- `recoverFromWal(wal_path)`, where the file holds `file`. -/
def recoverFromWal (e : MatchingEngine) (file : List WalEntry) : Option MatchingEngine :=
  (file.take walEntries).foldlM replayEntry e

end MatchingEngine

/-! ### Orders that do not get in -/

section Refused

variable {e : MatchingEngine} {L : ℕ} {o : OrderData}

theorem withBook_self (e : MatchingEngine) (L : ℕ) : e.withBook L (e.books L) e.shared = e :=
  congrArg (fun books => { e with books := books }) (Function.update_eq_self L e.books)

/-- A full pool takes no order. -/
theorem addOrder_noRoom (h : e.hasRoom = false) (L : ℕ) (o : OrderData) :
    e.addOrder L o = some (false, e) := by
  have hfull : e.shared.pool.freeHead = uint32Max := by simpa [hasRoom] using h
  have hallocate : e.shared.pool.allocate = none := by rw [OrderPool.allocate, if_pos hfull]
  have hbook : (e.books L).addOrder e.shared o = some (false, e.books L, e.shared) := by
    rw [OrderBook.addOrder, hallocate]
    split <;> rfl
  rw [MatchingEngine.addOrder, hbook, Option.map_some]
  exact congrArg (fun e => some (false, e)) (withBook_self e L)

/-- An order that meets nobody and has no side does not get in either. -/
theorem finishReplace_invalid (hside : o.side = .invalid) (hst : o.status = .open) :
    finishReplace L { engine := e, order := o } = some ([.error .poolFull], e) := by
  rw [finishReplace, if_pos (Or.inl hst), restOrder, Rep.addOrder_invalid hside, withBook_self]
  rfl

/-- After its trades an order is done with, or its rest goes to the book. -/
theorem finishAdd_engine {s : Matching} {tif : OrderTif} {quantity : UInt32}
    {rsp : List BinaryResponse} {e' : MatchingEngine}
    (hlive : s.order.status ≠ .filled → s.order.status = .open ∨ s.order.status = .partiallyFilled)
    (h : finishAdd L quantity tif s = some (rsp, e')) :
    ((s.order.status = .filled ∨ tif ≠ .day) ∧ e' = s.engine) ∨
      (s.order.status ≠ .filled ∧ ∃ ok, s.engine.addOrder L s.order = some (ok, e')) := by
  unfold finishAdd at h
  split at h
  · next hst => exact Or.inl ⟨Or.inl hst, (Prod.mk.inj (Option.some.inj h)).2.symm⟩
  next hst =>
  cases tif with
  | ioc => exact Or.inl ⟨Or.inr (by decide), (Prod.mk.inj (Option.some.inj h)).2.symm⟩
  | fok => exact Or.inl ⟨Or.inr (by decide), (Prod.mk.inj (Option.some.inj h)).2.symm⟩
  | day =>
    simp only [if_pos (hlive hst)] at h
    obtain ⟨⟨ok, e₂⟩, hadd, heq⟩ := Option.map_eq_some_iff.mp h
    obtain ⟨-, rfl⟩ := Prod.mk.inj heq
    exact Or.inr ⟨hst, ok, hadd⟩

end Refused

/-! ### Engines that are alike -/

/-- **Two engines are alike** when they agree on everything but their logs, trade pools, counters
and the sequence numbers of the orders. -/
def Alike (e r : MatchingEngine) : Prop := e.bare (fun _ => 0) = r.bare fun _ => 0

section Alike

variable {e r e' : MatchingEngine} {L : ℕ}

theorem Alike.books (h : Alike e r) : e.books = r.books := by
  have hbare := congrArg MatchingEngine.books h
  exact hbare

theorem Alike.findOrder (h : Alike e r) (ref : ℕ) : e.findOrder ref = r.findOrder ref := by
  rw [← findOrder_bare (fun _ => 0), h, findOrder_bare]

theorem Alike.slot (h : Alike e r) (i : ℕ) : ((e.shared.pool.storage i).stamp fun _ => 0) =
    (r.shared.pool.storage i).stamp fun _ => 0 :=
  congrArg (fun e : MatchingEngine => e.shared.pool.storage i) h

theorem Alike.userId (h : Alike e r) (i : ℕ) :
    (e.shared.pool.storage i).userId = (r.shared.pool.storage i).userId := by
  have hslot := congrArg (fun o : Order => o.userId) (h.slot i)
  exact hslot

theorem Alike.remainingQty (h : Alike e r) (i : ℕ) :
    (e.shared.pool.storage i).remainingQty = (r.shared.pool.storage i).remainingQty := by
  have hslot := congrArg (fun o : Order => o.remainingQty) (h.slot i)
  exact hslot

/-- The orders that rest in them are the same, in the same order. -/
theorem Alike.sameOrders (h : Alike e r) : SameOrders e.resting r.resting := fun L b => by
  have hterms : ∀ e : MatchingEngine, (e.resting L b).map OrderData.terms =
      ((e.bare fun _ => 0).resting L b).map OrderData.terms := fun e => by
    rw [resting_bare, List.map_map]
    rfl
  rw [hterms e, hterms r, h]

/-- Counters do not count. -/
@[simp] theorem bare_raiseCounters (e : MatchingEngine) (entry : WalEntry) :
    ((e.raiseCounters entry).bare fun _ => 0) = e.bare fun _ => 0 := by
  rw [raiseCounters]
  split <;> split <;> rfl

theorem Alike.raiseCounters (h : Alike e r) (entry : WalEntry) :
    Alike e (r.raiseCounters entry) := h.trans (bare_raiseCounters r entry).symm

/-- What one engine does and forgets, an engine that is alike does as well. -/
theorem alike_of_map {x y : Option MatchingEngine}
    (h : x.map (bare fun _ => 0) = y.map (bare fun _ => 0)) (hx : x = some e') :
    ∃ r', y = some r' ∧ Alike e' r' := by
  rw [hx, Option.map_some] at h
  obtain ⟨r', hy, hr'⟩ := Option.map_eq_some_iff.mp h.symm
  exact ⟨r', hy, hr'.symm⟩

theorem Alike.removeOrder (h : Alike e r) {i : ℕ} (hexec : e.removeOrder L i = some e') :
    ∃ r', r.removeOrder L i = some r' ∧ Alike e' r' := by
  refine alike_of_map ?_ hexec
  rw [← removeOrder_bare, ← removeOrder_bare, h]

/-- The rest of an order hangs in both books, or in neither. -/
theorem Alike.addOrder (h : Alike e r) {o o' : OrderData}
    (ho : (o.stamp fun _ => 0) = o'.stamp fun _ => 0) {ok : Bool}
    (hexec : e.addOrder L o = some (ok, e')) :
    ∃ r', (r.addOrder L o').map Prod.snd = some r' ∧ Alike e' r' := by
  refine alike_of_map (x := (e.addOrder L o).map Prod.snd) ?_ (by rw [hexec]; rfl)
  have hbare := congrArg (Option.map Prod.snd) (addOrder_bare (fun _ => 0) e L o)
  have hbare' := congrArg (Option.map Prod.snd) (addOrder_bare (fun _ => 0) r L o')
  rw [Option.map_map] at hbare hbare'
  rw [Option.map_map, Option.map_map]
  exact hbare.symm.trans ((by rw [h, ho] : _ = _).trans hbare')

/-- An incoming order trades in both in the same way. -/
theorem Alike.matchOrder (h : Alike e r) {o o' : OrderData}
    (ho : (o.stamp fun _ => 0) = o'.stamp fun _ => 0) {buy : Bool} {s : Matching}
    (hexec : e.matchOrder L buy o = some s) :
    ∃ s', r.matchOrder L buy o' = some s' ∧ Alike s.engine s'.engine ∧
      (s.order.stamp fun _ => 0) = s'.order.stamp fun _ => 0 := by
  have hbare := matchOrder_bare (fun _ => 0) e L buy o
  rw [h, ho, matchOrder_bare, hexec, Option.map_some] at hbare
  obtain ⟨s', hs', heq⟩ := Option.map_eq_some_iff.mp hbare
  exact ⟨s', hs', (congrArg Matching.engine heq).symm, (congrArg Matching.order heq).symm⟩

/-- A cancel takes the order off both books, or finds it in neither. -/
theorem Alike.removeOrderOf (h : Alike e r) {ref user : ℕ} {removed : Bool} {b : OrderBook}
    {sh : Store} (hexec : (e.books L).removeOrderOf e.shared ref user = some (removed, b, sh)) :
    ∃ b' sh', (r.books L).removeOrderOf r.shared ref user = some (removed, b', sh') ∧
      Alike (e.withBook L b sh) (r.withBook L b' sh') := by
  have hfind : e.shared.index.find ref = r.shared.index.find ref := h.findOrder ref
  rw [OrderBook.removeOrderOf] at hexec ⊢
  rw [← hfind]
  have hself : Alike (e.withBook L (e.books L) e.shared) (r.withBook L (r.books L) r.shared) := by
    rw [withBook_self, withBook_self]
    exact h
  obtain ⟨found, hfound, hexec⟩ := Option.bind_eq_some_iff.mp hexec
  rw [hfound, Option.bind_some]
  cases found with
  | none =>
    obtain ⟨rfl, rfl, rfl⟩ : false = removed ∧ e.books L = b ∧ e.shared = sh := by
      simpa using hexec
    exact ⟨_, _, rfl, hself⟩
  | some i =>
    simp only [h.userId i] at hexec ⊢
    split at hexec
    · next hother =>
      obtain ⟨rfl, rfl, rfl⟩ : false = removed ∧ e.books L = b ∧ e.shared = sh := by
        simpa using hexec
      exact ⟨_, _, if_pos hother, hself⟩
    · next hown =>
      obtain ⟨⟨b₁, sh₁⟩, hrem, heq⟩ := Option.map_eq_some_iff.mp hexec
      obtain ⟨rfl, rfl, rfl⟩ : true = removed ∧ b₁ = b ∧ sh₁ = sh := by simpa using heq
      have hrem₁ : e.removeOrder L i = some (e.withBook L b₁ sh₁) := by
        rw [MatchingEngine.removeOrder, hrem]
        rfl
      obtain ⟨r', hrem', halike⟩ := h.removeOrder hrem₁
      obtain ⟨⟨b', sh'⟩, hbook, rfl⟩ := Option.map_eq_some_iff.mp hrem'
      exact ⟨b', sh', by rw [if_neg hown, hbook]; rfl, halike⟩

end Alike

/-! ### What work on the books leaves alone -/

/-- **The log and the counters** are as they were. -/
structure SameLog (e e' : MatchingEngine) : Prop where
  /-- The log. -/
  wal : e'.wal = e.wal
  /-- `next_sequence_`. -/
  nextSequence : e'.nextSequence = e.nextSequence
  /-- `next_order_id_`. -/
  nextOrderId : e'.nextOrderId = e.nextOrderId

theorem SameLog.refl (e : MatchingEngine) : SameLog e e := ⟨rfl, rfl, rfl⟩

theorem SameLog.trans {e₁ e₂ e₃ : MatchingEngine} (h : SameLog e₁ e₂) (h' : SameLog e₂ e₃) :
    SameLog e₁ e₃ where
  wal := h'.wal.trans h.wal
  nextSequence := h'.nextSequence.trans h.nextSequence
  nextOrderId := h'.nextOrderId.trans h.nextOrderId

section Log

variable {e e' : MatchingEngine} {L : ℕ} {buy : Bool}

theorem sameLog_removeOrder {i : ℕ} (h : e.removeOrder L i = some e') : SameLog e e' := by
  obtain ⟨r, -, rfl⟩ := Option.map_eq_some_iff.mp h
  exact ⟨rfl, rfl, rfl⟩

theorem sameLog_addOrder {o : OrderData} {ok : Bool} (h : e.addOrder L o = some (ok, e')) :
    SameLog e e' := by
  obtain ⟨⟨ok₁, b, sh⟩, -, heq⟩ := Option.map_eq_some_iff.mp h
  obtain ⟨-, rfl⟩ := Prod.mk.inj heq
  exact ⟨rfl, rfl, rfl⟩

theorem sameLog_recordTrade (e : MatchingEngine) (buy : Bool) (taker maker : OrderData)
    (q : UInt32) : SameLog e (e.recordTrade buy taker maker q) := by
  rw [recordTrade]
  cases e.tradePool with
  | none => exact SameLog.refl e
  | some pool => cases buy <;> exact ⟨rfl, rfl, rfl⟩

theorem sameLog_tradeWith {s s' : Matching} {i : ℕ} (h : tradeWith L buy s i = some s') :
    SameLog s.engine s'.engine := by
  rw [tradeWith] at h
  obtain ⟨e₁, hsettle, rfl⟩ := Option.map_eq_some_iff.mp h
  have htrade : ∀ taker maker q,
      SameLog s.engine ((s.engine.reduceOrderQty L i q).recordTrade buy taker maker q) :=
    fun taker maker q =>
      have hreduce : SameLog s.engine (s.engine.reduceOrderQty L i q) := ⟨rfl, rfl, rfl⟩
      hreduce.trans (sameLog_recordTrade _ buy taker maker q)
  have hstatus : ∀ e status, SameLog e (e.setStatus i status) := fun _ _ => ⟨rfl, rfl, rfl⟩
  split at hsettle
  · exact ((htrade _ _ _).trans (hstatus _ _)).trans (sameLog_removeOrder hsettle)
  · obtain rfl := Option.some.inj hsettle
    exact (htrade _ _ _).trans (hstatus _ _)

/-- Matching writes no entry and takes no number. -/
theorem sameLog_matchLoop {fuel : ℕ} {s s' : Matching} (h : matchLoop L buy fuel s = some s') :
    SameLog s.engine s'.engine :=
  matchLoop_keeps (I := fun t => SameLog s.engine t.engine)
    (fun hs htrade => hs.trans (sameLog_tradeWith htrade)) (SameLog.refl _) h

end Log

/-! ### When the replay of a call does what the call did -/

/-- An immediate order leaves no rest that could hang in the book: there is enough for all of it, or
the pool is full and nothing on the other side gives a slot back. -/
def LeavesNoRest (e : MatchingEngine) (L : ℕ) (o : OrderData) : Prop :=
  qtyOf o ≤ eligibleQty e.resting L o ∨
    (e.hasRoom = false ∧ ∀ x ∈ e.resting L !o.side.isBuy, eligible o.side.isBuy o x = false)

/-- An add that passes validation and, if it is fill-or-kill, `canFullFill`. -/
def Enters (e : MatchingEngine) (L ref : ℕ) (side : Side) (price quantity : UInt32) (user : ℕ)
    (tif : OrderTif) : Prop :=
  addError L ref side price quantity user tif = none ∧ (tif = .fok →
    quantity.toNat ≤ onOffer e.resting L side (effectivePrice side tif price) % 2 ^ 32)

/-- **When the entry of a call replays.** An immediate order leaves no rest. A partial cancel takes
off all that remains, or nothing at all, and one by another user nothing. A replace that finds its
order keeps the reference, and has no side, so that its new order neither rests nor trades. -/
def Replays (e : MatchingEngine) : Command → Prop
  | .add L ref side price quantity user tif =>
    tif ≠ .day → Enters e L ref side price quantity user tif →
      LeavesNoRest e L (e.newOrder ref side (effectivePrice side tif price) quantity user)
  | .cancel .. => True
  | .cancelShares _ ref shares user => ∀ i, e.findOrder ref = some (some i) →
      if (e.shared.pool.storage i).userId = user then
        (0 < shares ∧ (e.shared.pool.storage i).remainingQty ≤ shares) ∨
          (shares = 0 ∧ 0 < (e.shared.pool.storage i).remainingQty)
      else shares = 0
  | .replace L oldRef newRef side price quantity user => ∀ i, e.findOrder oldRef = some (some i) →
      (e.shared.pool.storage i).userId = user →
        newRef = oldRef ∧ side = .invalid ∧ (quantity = 0 ∨ ∀ x ∈ e.resting L true,
          x.orderId ≠ oldRef →
            eligible false (e.newOrder newRef side price quantity newRef) x = false)

/-- An order leaves no rest exactly when, as a day order, it would not hang in the book. -/
theorem leavesNoRest_iff {e : MatchingEngine} {L : ℕ} {o : OrderData} (hst : o.status = .open)
    (hq : qtyOf o ≠ 0) (hside : o.side ≠ .invalid) :
    LeavesNoRest e L o ↔ e.hangs L o .day = false := by
  have hfilled : (residual e.resting L o).status = .filled ↔
      qtyOf o ≤ eligibleQty e.resting L o := by
    rw [residual, afterFills_filled_iff hst hq, tradesOf, filledQtyOf_fills, Nat.le_min]
    exact and_iff_right (Nat.le_refl _)
  rw [LeavesNoRest, MatchingEngine.hangs, decide_eq_true hside, roomAfter, ← hfilled]
  by_cases hres : (residual e.resting L o).status = .filled
  · simp [hres]
  have hused : (usedRefs e.resting L o).isEmpty = true ↔ tradesOf e.resting L o = [] :=
    ⟨fun hempty => tradesOf_eq_nil hempty hres, fun hnil => by rw [usedRefs, hnil]; rfl⟩
  rw [← tradesOf_eq_nil_iff e.resting L o hq, ← hused]
  simp [hres]

/-! ### One call and its entry -/

/-- **A call and the replay of what it logged.** It wrote nothing, and nothing changed; or it wrote
an entry, and the replay of the entry keeps the engines alike. -/
def Redone (e e' r : MatchingEngine) : Prop :=
  (e'.wal = e.wal ∧ Alike e' r) ∨
    ∃ entry r', e'.wal = e.wal.map (·.append entry) ∧ r.replayEntry entry = some r' ∧ Alike e' r'

theorem Redone.of_entry {e e' r r' : MatchingEngine} {entry : WalEntry}
    (hwal : e'.wal = e.wal.map (·.append entry))
    (hreplay : r.replayEntry entry = some (r'.raiseCounters entry)) (halike : Alike e' r') :
    Redone e e' r := Or.inr ⟨entry, _, hwal, hreplay, halike.raiseCounters entry⟩

section Replay

variable {e e' r : MatchingEngine} {L ref user : ℕ} {side : Side} {price quantity : UInt32}
  {rsp : List BinaryResponse}

/-- A locate in range survives its 16 bits. -/
theorem toNat_ofNat_locate (hL : L < kMaxLocate) : (UInt16.ofNat L).toNat = L := by
  rw [UInt16.toNat_ofNat']
  exact Nat.mod_eq_of_lt hL

/-- Every entry has a book. -/
theorem replayEntry_eq (r : MatchingEngine) (entry : WalEntry) : r.replayEntry entry =
    if entry.type = 0x01 then r.replayNew entry
    else if entry.type = 0x02 then r.replayCancel entry
    else if entry.type = 0x03 then r.replayCancelShares entry
    else if entry.type = 0x04 then r.replayReplace entry
    else some (r.raiseCounters entry) := by
  have hL : entry.locate.toNat < kMaxLocate := entry.locate.toNat_lt
  rw [replayEntry, bookFor, if_pos hL]

/-- A fresh reference is not found. -/
theorem Alike.findOrder_fresh (hr : Alike e r) (h : Inv e) (hfresh : Fresh e.resting ref) :
    r.findOrder ref = some none := by
  obtain ⟨G, fl, h⟩ := h
  rw [← hr.findOrder]
  have hroute : RoutedTo e.resting ref 0 := fun L' b x hx hid => absurd hid (hfresh L' b x hx)
  rcases h.findOrder_spec hroute with ⟨hnone, -⟩ | ⟨i, b, p, -, -, hid, hmem⟩
  · exact hnone
  · exact absurd hid (hfresh 0 b _ hmem)

/-- The order of an entry is the order of the call, but for the sequence number. -/
theorem addEntry_order (hside : side ≠ .invalid) :
    ((e.newOrder ref side price quantity user).stamp fun _ => 0) =
      ((e.addEntry L ref side price quantity user).order.stamp fun _ => 0) := by
  cases side with
  | buy => rfl
  | sell => rfl
  | invalid => exact absurd rfl hside

/-- The matching half of an add, with its entry. -/
theorem acceptAdd_eq (tif : OrderTif) : e.acceptAdd L ref side price quantity user tif =
    ((({ e with nextSequence := e.nextSequence + 1 } : MatchingEngine).logWal
      (e.addEntry L ref side price quantity user)).matchOrder L side.isBuy
        (e.newOrder ref side price quantity user)).bind (finishAdd L quantity tif) := by
  cases side <;> rfl

/-- The replay of a `NEW` entry whose order is not found. -/
theorem replayEntry_new (hL : L < kMaxLocate) (hside : side ≠ .invalid)
    (hfind : r.findOrder ref = some none) :
    r.replayEntry (e.addEntry L ref side price quantity user) =
      ((r.matchOrder L side.isBuy (e.addEntry L ref side price quantity user).order).bind
        (restReplayed L)).map (raiseCounters · (e.addEntry L ref side price quantity user)) := by
  have hlocate : (e.addEntry L ref side price quantity user).locate.toNat = L :=
    toNat_ofNat_locate hL
  have hfind : r.findOrder (e.addEntry L ref side price quantity user).orderId = some none := hfind
  refine (replayEntry_eq ..).trans ((if_pos rfl).trans ?_)
  rw [replayNew, hfind, Option.bind_some]
  simp only [hlocate]
  cases side with
  | buy => rfl
  | sell => rfl
  | invalid => exact absurd rfl hside

/-- **An order that is let in** comes in again when its entry is replayed. -/
theorem replay_acceptAdd {tif : OrderTif} (h : Inv e) (hr : Alike e r) (hL : L < kMaxLocate)
    (hside : side ≠ .invalid) (hquantity : quantity.toNat ≠ 0) (hfresh : Fresh e.resting ref)
    (hrest : tif ≠ .day → LeavesNoRest e L (e.newOrder ref side price quantity user))
    (hexec : e.acceptAdd L ref side price quantity user tif = some (rsp, e')) : Redone e e' r := by
  have hreplay : r.replayEntry (e.addEntry L ref side price quantity user) = _ :=
    replayEntry_new hL hside (hr.findOrder_fresh h hfresh)
  have hstamp : ((e.newOrder ref side price quantity user).stamp fun _ => 0) =
      ((e.addEntry L ref side price quantity user).order.stamp fun _ => 0) := addEntry_order hside
  have hopen : (e.newOrder ref side price quantity user).status = .open := rfl
  have hrest : tif ≠ .day → e.hangs L (e.newOrder ref side price quantity user) .day = false :=
    fun htif => (leavesNoRest_iff hopen hquantity hside).mp (hrest htif)
  have hos : (e.newOrder ref side price quantity user).side = side := rfl
  rw [acceptAdd_eq] at hexec
  generalize hentry : e.addEntry L ref side price quantity user = entry at *
  generalize e.newOrder ref side price quantity user = o at *
  generalize he₁ : ({ e with nextSequence := e.nextSequence + 1 } : MatchingEngine).logWal entry =
    e₁ at hexec
  -- both match the order
  have hwal : e₁.wal = e.wal.map (·.append entry) := by rw [← he₁]; rfl
  have hr₁ : Alike e₁ r := by rw [← he₁]; exact hr
  obtain ⟨s, hs, hfin⟩ := Option.bind_eq_some_iff.mp hexec
  obtain ⟨s', hs', hengine, horder⟩ := hr₁.matchOrder hstamp hs
  have hstatus : s'.order.status = s.order.status :=
    (congrArg (fun o : OrderData => o.status) horder).symm
  rw [hs', Option.bind_some, restReplayed, hstatus] at hreplay
  -- what the live engine had before and after
  obtain ⟨G, fl, hrep⟩ := h
  obtain ⟨hrep₁, hrest₁⟩ : Rep e₁ e.nextSequence G fl ∧ e₁.resting = e.resting := by
    rw [← he₁]
    exact hrep.congr rfl rfl
  obtain ⟨s₁, G', taken, hs₁, hrep', -, hsorder, -, -, hlen, -⟩ :=
    matchOrder_spec hrep₁ L side.isBuy o
  obtain rfl := Option.some.inj (hs.symm.trans hs₁)
  rw [hrest₁, ← hos] at hsorder hlen
  have hres : s.order = residual e.resting L o := hsorder
  have hwals : s.engine.wal = e.wal.map (·.append entry) := (sameLog_matchLoop hs).wal.trans hwal
  have hlive : s.order.status ≠ .filled →
      s.order.status = .open ∨ s.order.status = .partiallyFilled := by
    rw [hres]
    exact afterFills_status hopen _
  -- what the replay does with the rest, when the live engine hung it or had no place for it
  have hhang : s.order.status ≠ .filled → ∀ {ok : Bool} {e₂ : MatchingEngine},
      s.engine.addOrder L s.order = some (ok, e₂) →
        e₂.wal = e.wal.map (·.append entry) → Redone e e₂ r := fun hst _ _ hadd hwal₂ => by
    obtain ⟨r', hr', halike⟩ := hengine.addOrder horder hadd
    rw [if_pos (hlive hst), hr', Option.map_some] at hreplay
    exact Redone.of_entry hwal₂ hreplay halike
  rcases finishAdd_engine hlive hfin with ⟨hdone, rfl⟩ | ⟨hst, ok, hadd⟩
  swap
  · exact hhang hst hadd ((sameLog_addOrder hadd).wal.trans hwals)
  by_cases hst : s.order.status = .filled
  · -- filled: nothing is left for either book
    rw [if_neg (by rw [hst]; decide), Option.map_some] at hreplay
    exact Redone.of_entry hwals hreplay hengine
  · -- dropped: there is no room for it
    have hhangs := hrest (hdone.resolve_left hst)
    rw [hangs, ← hres, decide_eq_true hst, decide_eq_true (hos ▸ hside : o.side ≠ .invalid)]
      at hhangs
    have hroom : e.roomAfter L o = false := by simpa using hhangs
    have hsame : s.engine.hasRoom = e.roomAfter L o := hrep.hasRoom_taken hrep' hlen
    exact hhang hst (addOrder_noRoom (hsame.trans hroom) L s.order) hwals

/-- An add that is refused writes nothing. -/
theorem replay_add {tif : OrderTif} (h : Inv e) (hr : Alike e r) (hfresh : Fresh e.resting ref)
    (hok : Replays e (.add L ref side price quantity user tif))
    (hexec : e.processAdd L ref side price quantity user tif = some (rsp, e')) : Redone e e' r := by
  cases hvalid : addError L ref side price quantity user tif with
  | some code =>
    rw [processAdd_of_error hvalid] at hexec
    obtain ⟨-, rfl⟩ := Prod.mk.inj (Option.some.inj hexec)
    exact Or.inl ⟨rfl, hr⟩
  | none =>
    obtain ⟨hside, hquantity, -⟩ := valid_of_addError hvalid
    obtain ⟨hL, hadd⟩ := processAdd_of_valid (e := e) hvalid
    rw [hadd] at hexec
    by_cases htif : tif = .fok
    swap
    · rw [if_neg htif] at hexec
      exact replay_acceptAdd h hr hL hside hquantity hfresh
        (fun hday => hok hday ⟨hvalid, fun hfok => absurd hfok htif⟩) hexec
    obtain ⟨G, fl, hrep⟩ := id h
    rw [if_pos htif, hrep.canFullFill_eq, Option.bind_some] at hexec
    split at hexec
    · next hfull =>
      exact replay_acceptAdd h hr hL hside hquantity hfresh
        (fun hday => hok hday ⟨hvalid, fun _ => of_decide_eq_true hfull⟩) hexec
    · obtain ⟨-, rfl⟩ := Prod.mk.inj (Option.some.inj hexec)
      exact Or.inl ⟨rfl, hr⟩

/-- **A cancel** is redone by its entry. -/
theorem replay_cancel (hr : Alike e r) (hexec : e.processCancel L ref user = some (rsp, e')) :
    Redone e e' r := by
  rw [processCancel, bookFor] at hexec
  by_cases hL : L < kMaxLocate
  swap
  · rw [if_neg hL] at hexec
    obtain ⟨-, rfl⟩ := Prod.mk.inj (Option.some.inj hexec)
    exact Or.inl ⟨rfl, hr⟩
  rw [if_pos hL] at hexec
  obtain ⟨⟨removed, b, sh⟩, hrem, heq⟩ := Option.map_eq_some_iff.mp hexec
  obtain ⟨-, rfl⟩ := Prod.mk.inj heq
  have hr₁ : Alike (e.logWal (e.cancelEntry L ref user)) r := hr
  obtain ⟨b', sh', hrem', halike⟩ := hr₁.removeOrderOf hrem
  have hlocate : (e.cancelEntry L ref user).locate.toNat = L := toNat_ofNat_locate hL
  have hwal : ((e.logWal (e.cancelEntry L ref user)).withBook L b sh).wal =
      e.wal.map (·.append (e.cancelEntry L ref user)) := rfl
  refine Redone.of_entry hwal ?_ halike
  have htype : (e.cancelEntry L ref user).type = 0x02 := rfl
  rw [replayEntry_eq, htype, if_neg (by decide), if_pos rfl, replayCancel, hlocate]
  exact congrArg (Option.map _) hrem'

/-- A write of what is there. -/
theorem reduceQtyCancel_zero {G : Layout} {fl : List ℕ} {n i : ℕ} {b : Bool} {p : UInt32}
    (h : Rep e n G fl) (hi : i ∈ G L b p) : e.reduceQtyCancel L i 0 = e := by
  obtain ⟨l, hl, -⟩ := h.levelOf hi
  have hbook : (e.books L).decTotal b p 0 = e.books L := by
    rw [Rep.decTotal_eq hl, UInt32.sub_zero]
    exact Rep.setLevel_eq_self hl
  have hpool : e.shared.pool.modify i (fun o => { o with remainingQty := o.remainingQty - 0 }) =
      e.shared.pool := by
    have hsame : { e.shared.pool.storage i with
        remainingQty := (e.shared.pool.storage i).remainingQty - 0 } = e.shared.pool.storage i := by
      rw [UInt32.sub_zero]
    rw [OrderPool.modify, hsame, Function.update_eq_self]
  rw [reduceQtyCancel, OrderBook.reduceQtyCancel, h.side_isBuy hi, h.price L b p i hi, hbook, hpool]
  exact congrArg (fun books => { e with books := books }) (Function.update_eq_self ..)

/-- The replay of the entry of a partial cancel. -/
theorem replayEntry_cancelShares (e r : MatchingEngine) (ref user : ℕ) (shares : UInt32)
    (hL : L < kMaxLocate) :
    r.replayEntry (e.cancelSharesEntry L ref shares user) = (r.findOrder ref).bind fun
      | none => some (r.raiseCounters (e.cancelSharesEntry L ref shares user))
      | some idx =>
        if shares = 0 then some (r.raiseCounters (e.cancelSharesEntry L ref shares user))
        else if (r.shared.pool.storage idx).remainingQty ≤ shares then
          (r.removeOrder L idx).map (raiseCounters · (e.cancelSharesEntry L ref shares user))
        else some (((r.cutRemaining idx shares).reduceOrderQty L idx
          shares).raiseCounters (e.cancelSharesEntry L ref shares user)) := by
  have hlocate : (e.cancelSharesEntry L ref shares user).locate.toNat = L := toNat_ofNat_locate hL
  rw [replayEntry_eq, show (e.cancelSharesEntry L ref shares user).type = 0x03 from rfl,
    if_neg (by decide), if_neg (by decide), if_pos rfl, replayCancelShares, hlocate]
  rfl

/-- **A partial cancel** that takes off all, or nothing, is redone by its entry. -/
theorem replay_cancelShares {shares : UInt32} (h : Inv e) (hr : Alike e r)
    (hroute : RoutedTo e.resting ref L) (hok : Replays e (.cancelShares L ref shares user))
    (hexec : e.processCancelShares L ref shares user = some (rsp, e')) : Redone e e' r := by
  rw [processCancelShares, bookFor] at hexec
  by_cases hL : L < kMaxLocate
  swap
  · rw [if_neg hL] at hexec
    obtain ⟨-, rfl⟩ := Prod.mk.inj (Option.some.inj hexec)
    exact Or.inl ⟨rfl, hr⟩
  rw [if_pos hL] at hexec
  simp only [] at hexec
  have hreplay := replayEntry_cancelShares e r ref user shares hL
  generalize hentry : e.cancelSharesEntry L ref shares user = entry at hreplay
  rw [show ({ type := 0x03, locate := UInt16.ofNat L, quantity := shares, userId := user
              orderId := ref, walSeq := e.nextSequence } : WalEntry) = entry from hentry,
    show (e.logWal entry).findOrder ref = e.findOrder ref from rfl] at hexec
  have hr₁ : Alike (e.logWal entry) r := hr
  rw [← hr.findOrder] at hreplay
  -- an entry that changes nothing
  have hskip : r.replayEntry entry = some (r.raiseCounters entry) →
      Redone e (e.logWal entry) r := fun hnothing => Redone.of_entry rfl hnothing hr₁
  obtain ⟨G, fl, hrep⟩ := h
  rcases hrep.findOrder_spec hroute with ⟨hnone, -⟩ | ⟨i, b, p, hfind, hi, -, -⟩
  · rw [hnone, Option.bind_some] at hexec hreplay
    obtain ⟨-, rfl⟩ := Prod.mk.inj (Option.some.inj hexec)
    exact hskip hreplay
  have hok := hok i hfind
  rw [hfind, Option.bind_some] at hexec hreplay
  simp only [← hr.remainingQty i] at hreplay
  simp only [show (e.logWal entry).shared = e.shared from rfl] at hexec
  by_cases hu : (e.shared.pool.storage i).userId = user
  swap
  · -- somebody else's order
    rw [if_neg hu] at hok
    rw [if_pos hu] at hexec
    rw [if_pos hok] at hreplay
    obtain ⟨-, rfl⟩ := Prod.mk.inj (Option.some.inj hexec)
    exact hskip hreplay
  rw [if_pos hu] at hok
  rw [if_neg (not_not.mpr hu)] at hexec
  rcases hok with ⟨hpos, hle⟩ | ⟨hzero, hlt⟩
  · -- all that remains
    rw [if_pos hle] at hexec
    rw [if_neg (UInt32.pos_iff_ne_zero.mp hpos), if_pos hle] at hreplay
    obtain ⟨e₁, hrem, heq⟩ := Option.map_eq_some_iff.mp hexec
    obtain ⟨-, rfl⟩ := Prod.mk.inj heq
    obtain ⟨r', hrem', halike⟩ := hr₁.removeOrder hrem
    rw [hrem', Option.map_some] at hreplay
    exact Redone.of_entry (sameLog_removeOrder hrem).wal hreplay halike
  · -- nothing
    subst hzero
    rw [if_neg (UInt32.not_le.mpr hlt)] at hexec
    rw [if_pos rfl] at hreplay
    obtain ⟨-, rfl⟩ := Prod.mk.inj (Option.some.inj hexec)
    have hsame : (e.logWal entry).reduceQtyCancel L i 0 = e.logWal entry :=
      reduceQtyCancel_zero (hrep.logWal entry).1 hi
    rw [hsame]
    exact hskip hreplay

/-- The replay of the entry of a replace. -/
theorem replayEntry_replace (e r : MatchingEngine) (newRef user : ℕ) (price quantity : UInt32)
    (hL : L < kMaxLocate) :
    r.replayEntry (e.replaceEntry L newRef price quantity user) = (r.findOrder newRef).bind fun
      | none => some (r.raiseCounters (e.replaceEntry L newRef price quantity user))
      | some idx =>
        if (r.shared.pool.storage idx).userId = user then
          (r.removeOrder L idx).map (raiseCounters · (e.replaceEntry L newRef price quantity user))
        else some (r.raiseCounters (e.replaceEntry L newRef price quantity user)) := by
  have hlocate : (e.replaceEntry L newRef price quantity user).locate.toNat = L :=
    toNat_ofNat_locate hL
  rw [replayEntry_eq, show (e.replaceEntry L newRef price quantity user).type = 0x04 from rfl,
    if_neg (by decide), if_neg (by decide), if_neg (by decide), if_pos rfl, replayReplace, hlocate]
  rfl

/-- An order without a side that finds nothing eligible comes in and goes again. -/
theorem replacement_idle {newRef : ℕ} {G : Layout} {fl : List ℕ} {n : ℕ} (h : Rep e n G fl)
    (hidle : quantity = 0 ∨ ∀ x ∈ e.resting L true,
      eligible false (e.newOrder newRef .invalid price quantity newRef) x = false)
    (hexec : (({ e with nextSequence := e.nextSequence + 1 } : MatchingEngine).matchOrder L false
      (e.newOrder newRef .invalid price quantity newRef)).bind (finishReplace L) =
        some (rsp, e')) : e' = { e with nextSequence := e.nextSequence + 1 } := by
  generalize ho : e.newOrder newRef .invalid price quantity newRef = o at hidle hexec
  generalize he₁ : ({ e with nextSequence := e.nextSequence + 1 } : MatchingEngine) = e₁ at hexec ⊢
  have hmatch : e₁.matchOrder L false o = some { engine := e₁, order := o } := by
    by_cases hquantity : quantity = 0
    · rw [matchOrder, matchLoop, if_pos (by rw [← ho]; exact hquantity)]
    obtain ⟨hrep₁, hrest₁⟩ : Rep e₁ n G fl ∧ e₁.resting = e.resting := by
      rw [← he₁]
      exact h.congr rfl rfl
    refine matchOrder_idle hrep₁ (by rw [← ho]; exact hquantity) fun x hx => ?_
    rw [hrest₁] at hx
    exact hidle.resolve_left hquantity x hx
  have hfin : finishReplace L { engine := e₁, order := o } = some ([.error .poolFull], e₁) :=
    finishReplace_invalid (by rw [← ho]; rfl) (by rw [← ho]; rfl)
  rw [hmatch, Option.bind_some, hfin] at hexec
  exact (Prod.mk.inj (Option.some.inj hexec)).2.symm

/-- **A replace** that finds no order of its user is redone by its entry, and one that keeps its
reference and brings in nothing. -/
theorem replay_replace {newRef : ℕ} (h : Inv e) (hr : Alike e r) (hroute : RoutedTo e.resting ref L)
    (hnew : newRef = ref ∨ Fresh e.resting newRef)
    (hok : Replays e (.replace L ref newRef side price quantity user))
    (hexec : e.processReplace L ref newRef side price quantity user = some (rsp, e')) :
    Redone e e' r := by
  rw [processReplace, bookFor] at hexec
  by_cases hL : L < kMaxLocate
  swap
  · rw [if_neg hL] at hexec
    obtain ⟨-, rfl⟩ := Prod.mk.inj (Option.some.inj hexec)
    exact Or.inl ⟨rfl, hr⟩
  rw [if_pos hL] at hexec
  simp only [] at hexec
  have hreplay := replayEntry_replace e r newRef user price quantity hL
  generalize hentry : e.replaceEntry L newRef price quantity user = entry at hreplay
  rw [show ({ type := 0x04, locate := UInt16.ofNat L, price := price, quantity := quantity
              userId := user, orderId := newRef, walSeq := e.nextSequence } : WalEntry) = entry
    from hentry, show (e.logWal entry).findOrder ref = e.findOrder ref from rfl] at hexec
  have hr₁ : Alike (e.logWal entry) r := hr
  rw [← hr.findOrder] at hreplay
  -- an entry that changes nothing
  have hskip : r.replayEntry entry = some (r.raiseCounters entry) →
      Redone e (e.logWal entry) r := fun hnothing => Redone.of_entry rfl hnothing hr₁
  have hskipFresh : Fresh e.resting newRef → Redone e (e.logWal entry) r := fun hfresh => by
    have hnone : e.findOrder newRef = some none := Alike.findOrder_fresh (rfl : Alike e e) h hfresh
    rw [hnone, Option.bind_some] at hreplay
    exact hskip hreplay
  obtain ⟨G, fl, hrep⟩ := id h
  rcases hrep.findOrder_spec hroute with ⟨hnone, -⟩ | ⟨i, b, p, hfind, hi, hir, hmem⟩
  · rw [hnone, Option.bind_some] at hexec
    obtain ⟨-, rfl⟩ := Prod.mk.inj (Option.some.inj hexec)
    rcases hnew with rfl | hfresh
    · rw [hnone, Option.bind_some] at hreplay
      exact hskip hreplay
    · exact hskipFresh hfresh
  have hok := hok i hfind
  rw [hfind, Option.bind_some] at hexec
  simp only [show (e.logWal entry).shared = e.shared from rfl] at hexec
  by_cases hu : (e.shared.pool.storage i).userId = user
  swap
  · -- somebody else's order
    rw [if_pos hu] at hexec
    obtain ⟨-, rfl⟩ := Prod.mk.inj (Option.some.inj hexec)
    rcases hnew with rfl | hfresh
    · rw [hfind, Option.bind_some] at hreplay
      simp only [← hr.userId i, if_neg hu] at hreplay
      exact hskip hreplay
    · exact hskipFresh hfresh
  -- the old order leaves both books
  rw [if_neg (not_not.mpr hu)] at hexec
  obtain ⟨rfl, rfl, hidle⟩ := hok hu
  rw [hfind, Option.bind_some] at hreplay
  simp only [← hr.userId i, if_pos hu] at hreplay
  obtain ⟨e₂, hrem, hexec⟩ := Option.bind_eq_some_iff.mp hexec
  obtain ⟨r', hrem', halike⟩ := hr₁.removeOrder hrem
  rw [hrem', Option.map_some] at hreplay
  obtain ⟨e₃, hrem₃, hrep₂, hrest₂, -⟩ := (hrep.logWal entry).1.removeOrder_spec hi
  obtain rfl := Option.some.inj (hrem.symm.trans hrem₃)
  have hleave : e₂.resting = leave e.resting L b newRef := by
    rw [hrest₂, (hrep.logWal entry).2, leave]
    simp only [show (e.logWal entry).shared = e.shared from rfl, hir]
  -- and the new one comes in and goes
  rw [if_neg (by decide), matchSellOrder] at hexec
  obtain rfl := replacement_idle hrep₂ (hidle.imp_right fun hnone x hx => by
    rw [hleave] at hx
    exact hnone x (mem_leave hx) (hrep.fresh_leave hmem hir L true x hx)) hexec
  exact Redone.of_entry (sameLog_removeOrder hrem).wal hreplay halike

/-- **One call** that replays: its entry keeps the recovered engine and the live one alike. -/
theorem replay_exec {c : Command} (h : Inv e) (hc : c.Allowed e.resting) (hr : Alike e r)
    (hok : Replays e c) (hexec : e.exec c = some (rsp, e')) : Redone e e' r := by
  cases c with
  | add => exact replay_add h hr hc hok hexec
  | cancel => exact replay_cancel hr hexec
  | cancelShares => exact replay_cancelShares h hr hc hok hexec
  | replace => exact replay_replace h hr hc.1 hc.2 hok hexec

end Replay

/-! ### Runs with a log -/

/-- The states an engine gets into that starts with an empty log, when every call also satisfies
`ok`. -/
inductive LoggedBy (ok : MatchingEngine → Command → Prop) (capacity : ℕ) : MatchingEngine → Prop
  | start (tradePool : Option TradePool) (hlo : 2 ≤ capacity) (hhi : capacity ≤ 2 ^ 31) :
    LoggedBy ok capacity { new capacity with wal := some {}, tradePool := tradePool }
  | call {e e' : MatchingEngine} {rsp : List BinaryResponse} (c : Command)
      (h : LoggedBy ok capacity e) (hc : c.Allowed e.resting) (hok : ok e c)
      (hexec : e.exec c = some (rsp, e')) : LoggedBy ok capacity e'

section Runs

variable {ok : MatchingEngine → Command → Prop} {capacity : ℕ} {e : MatchingEngine} {w : WalWriter}

theorem LoggedBy.reachable (h : LoggedBy ok capacity e) : Reachable e := by
  induction h with
  | start tradePool hlo hhi => exact .start capacity _ tradePool hlo hhi
  | call c _ hc _ hexec ih => exact ih.call c hc hexec

/-- A run can go on with any calls that pass the test of the contract. -/
theorem LoggedBy.execAll (h : LoggedBy ok capacity e) {cs : List Command}
    (hcs : e.checkAll cs = true) (hok : ∀ c ∈ cs, ∀ e, ok e c) :
    ∃ e', e.execAll cs = some e' ∧ LoggedBy ok capacity e' := by
  induction cs generalizing e with
  | nil => exact ⟨e, rfl, h⟩
  | cons c cs ih =>
    obtain ⟨hc, hcs⟩ := (Bool.and_eq_true _ _).mp hcs
    have hallowed := Command.allowed_of_check h.reachable.inv hc
    obtain ⟨rsp, e₁, hexec, -⟩ := h.reachable.exec hallowed
    rw [hexec] at hcs
    obtain ⟨e', hrun, he'⟩ := ih (h.call c hallowed (hok c List.mem_cons_self e) hexec) hcs
      fun c' hc' => hok c' (List.mem_cons_of_mem c hc')
    refine ⟨e', ?_, he'⟩
    rw [MatchingEngine.execAll, hexec]
    exact hrun

/-- One more entry is one more step of the recovery. -/
theorem recoverFromWal_append (hw : w.total < walEntries) (e : MatchingEngine) (entry : WalEntry) :
    e.recoverFromWal (w.append entry).entries =
      (e.recoverFromWal w.entries).bind (replayEntry · entry) := by
  have hall : w.entries.take walEntries = w.entries :=
    List.take_of_length_le (by rw [w.length_entries]; omega)
  have hmore : (w.append entry).entries.take walEntries = w.entries ++ [entry] := by
    rw [WalWriter.entries_append hw]
    refine List.take_of_length_le ?_
    rw [List.length_append, w.length_entries]
    exact hw
  rw [recoverFromWal, recoverFromWal, hall, hmore, List.foldlM_append]
  refine congrArg (Option.bind (w.entries.foldlM replayEntry e)) (funext fun r => ?_)
  exact bind_pure (r.replayEntry entry)

/-- The log of a run of calls that replay makes a fresh engine alike. -/
theorem LoggedBy.recovered (h : LoggedBy Replays capacity e) :
    ∃ w, e.wal = some w ∧ (w.total < walEntries →
      ∃ r, (new capacity).recoverFromWal w.entries = some r ∧ Alike e r) := by
  induction h with
  | start tradePool hlo hhi => exact ⟨{}, rfl, fun _ => ⟨new capacity, rfl, rfl⟩⟩
  | @call e e' rsp c h hc hok hexec ih =>
    obtain ⟨w, hw, hrecover⟩ := ih
    by_cases htotal : w.total < walEntries
    swap
    · -- the ring has come round before, and nothing is claimed
      have hself : Alike e e := rfl
      rcases replay_exec h.reachable.inv hc hself hok hexec with
        ⟨hwal, -⟩ | ⟨entry, -, hwal, -, -⟩
      · exact ⟨w, hwal.trans hw, fun hlt => absurd hlt htotal⟩
      · refine ⟨w.append entry, by rw [hwal, hw]; rfl, fun hlt => absurd hlt ?_⟩
        have hcount : (w.append entry).total = w.total + 1 := rfl
        omega
    obtain ⟨r, hr, halike⟩ := hrecover htotal
    rcases replay_exec h.reachable.inv hc halike hok hexec with
      ⟨hwal, halike'⟩ | ⟨entry, r', hwal, hreplay, halike'⟩
    · exact ⟨w, hwal.trans hw, fun _ => ⟨r, hr, halike'⟩⟩
    · refine ⟨w.append entry, by rw [hwal, hw]; rfl, fun _ => ⟨r', ?_, halike'⟩⟩
      rw [recoverFromWal_append htotal, hr, Option.bind_some, hreplay]

/-- **The log brings back the books**: of every run whose calls all replay, as long as the ring has
not come round. -/
theorem recoverFromWal_book (h : LoggedBy Replays capacity e) (hw : e.wal = some w)
    (htotal : w.total < walEntries) :
    ∃ r, (new capacity).recoverFromWal w.entries = some r ∧ SameOrders e.resting r.resting := by
  obtain ⟨w', hw', hrecover⟩ := h.recovered
  obtain rfl := Option.some.inj (hw.symm.trans hw')
  obtain ⟨r, hr, halike⟩ := hrecover htotal
  exact ⟨r, hr, halike.sameOrders⟩

end Runs

/-- A run of an engine with four slots and a log. -/
theorem logged_execAll (cs : List Command)
    (hcs : ({ new 4 with wal := some {} } : MatchingEngine).checkAll cs = true)
    (ok : MatchingEngine → Command → Prop) (hok : ∀ c ∈ cs, ∀ e, ok e c) :
    ∃ e, ({ new 4 with wal := some {} } : MatchingEngine).execAll cs = some e ∧
      LoggedBy ok 4 e :=
  (LoggedBy.start none (by decide) (by decide)).execAll hcs hok

/-- Two orders trade, and what is left of one is cancelled. -/
theorem recoverFromWal_book_three : ∃ e w r,
    ({ new 4 with wal := some {} } : MatchingEngine).execAll
      [.add 0 1 .buy 100 5 7 .day, .add 0 2 .sell 100 3 8 .day, .add 0 3 .sell 101 3 8 .day,
        .cancel 0 1 7] = some e ∧ e.wal = some w ∧
      (new 4).recoverFromWal w.entries = some r ∧ SameOrders e.resting r.resting := by
  obtain ⟨e, hrun, he⟩ := logged_execAll
    [.add 0 1 .buy 100 5 7 .day, .add 0 2 .sell 100 3 8 .day, .add 0 3 .sell 101 3 8 .day,
      .cancel 0 1 7] (by decide +kernel) Replays (by simp [Replays])
  have hread : (({ new 4 with wal := some {} } : MatchingEngine).execAll
      [.add 0 1 .buy 100 5 7 .day, .add 0 2 .sell 100 3 8 .day, .add 0 3 .sell 101 3 8 .day,
        .cancel 0 1 7]).bind (fun e => e.wal.map fun w => w.total) = some 4 := by decide +kernel
  rw [hrun, Option.bind_some] at hread
  obtain ⟨w, hw, htotal⟩ := Option.map_eq_some_iff.mp hread
  obtain ⟨r, hr, hsame⟩ := recoverFromWal_book he hw (by rw [htotal]; decide)
  exact ⟨e, w, r, hrun, hw, hr, hsame⟩

/-- **A partial cancel counts twice.** Of an order for 10 the user cancels 3. Live, 7 are left and
nothing is filled; after the recovery 4 are left, and 3 pass for filled. -/
theorem cancelled_twice : ∃ e w r, LoggedBy (fun _ _ => True) 4 e ∧ e.wal = some w ∧
    w.total < walEntries ∧ (new 4).recoverFromWal w.entries = some r ∧
      (e.resting 0 true).map OrderData.terms = [⟨1, 7, .buy, 100, 7, 0⟩] ∧
      (r.resting 0 true).map OrderData.terms = [⟨1, 7, .buy, 100, 4, 3⟩] ∧
      ¬ SameOrders e.resting r.resting := by
  obtain ⟨e, hrun, he⟩ := logged_execAll
    [.add 0 1 .buy 100 10 7 .day, .cancelShares 0 1 3 7] (by decide +kernel)
    (fun _ _ => True) (by simp)
  have hread : (({ new 4 with wal := some {} } : MatchingEngine).execAll
      [.add 0 1 .buy 100 10 7 .day, .cancelShares 0 1 3 7]).bind (fun e => e.wal.bind fun w =>
        ((new 4).recoverFromWal w.entries).map fun r => (w.total,
          (e.resting 0 true).map OrderData.terms, (r.resting 0 true).map OrderData.terms)) =
      some (2, [⟨1, 7, .buy, 100, 7, 0⟩], [⟨1, 7, .buy, 100, 4, 3⟩]) := by decide +kernel
  rw [hrun, Option.bind_some] at hread
  obtain ⟨w, hw, hread⟩ := Option.bind_eq_some_iff.mp hread
  obtain ⟨r, hr, heq⟩ := Option.map_eq_some_iff.mp hread
  obtain ⟨htotal, heq⟩ := Prod.mk.inj heq
  obtain ⟨hlive, hback⟩ := Prod.mk.inj heq
  refine ⟨e, w, r, he, hw, by rw [htotal]; decide, hr, hlive, hback, fun hsame => ?_⟩
  have hbuy := hsame 0 true
  rw [hlive, hback] at hbuy
  exact absurd hbuy (by decide)

end NebulaX.Exchange
