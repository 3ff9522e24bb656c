import NebulaX.Exchange.Matching

/-!
# The entry points

`processAdd`, `processCancel`, `processCancelShares` and `processReplace` as functions of what
rests. `Inv` is the representation invariant between calls. Under it, and under the contract that
all results about runs assume, every call returns, keeps `Inv`, and answers and changes the books as
an *outcome* says: a function of the resting orders alone, without slots, links or levels.

The contract is about references: a new order has a reference that is not resting (`Fresh`), and
a cancel or replace names the locate its reference rests under (`RoutedTo`).

The index may have dropped an insert (`SharedStore.insertDropped`); then an order can rest that
no reference leads to, and a cancel of it is answered as if it were not there. What such a call
does is still one of the two outcomes.

## Main results

* `processAdd_spec`, `processCancel_spec`, `processCancelShares_spec`, `processReplace_spec`
-/

namespace NebulaX.Exchange

open MatchingEngine

/-- What rests on every side of every book. -/
abbrev Resting := ℕ → Bool → List OrderData

/-! ### The contract -/

/-- No resting order has this reference. -/
def Fresh (R : Resting) (ref : ℕ) : Prop := ∀ L b, ∀ x ∈ R L b, x.orderId ≠ ref

/-- A resting order with this reference rests under this locate. -/
def RoutedTo (R : Resting) (ref L : ℕ) : Prop :=
  ∀ L' b, ∀ x ∈ R L' b, x.orderId = ref → L' = L

/-- The representation invariant between two calls. -/
def Inv (e : MatchingEngine) : Prop := ∃ G fl, Rep e e.nextSequence G fl

/-- Whether the pool has a free slot. -/
def MatchingEngine.hasRoom (e : MatchingEngine) : Bool := e.shared.pool.freeHead ≠ uint32Max

theorem Rep.hasRoom_eq {e : MatchingEngine} {n : ℕ} {G : Layout} {fl : List ℕ}
    (h : Rep e n G fl) : e.hasRoom = !fl.isEmpty := by
  have hseg := h.holds.free.seg
  cases fl with
  | nil => simpa [hasRoom] using LinkedList.seg_nil.mp hseg
  | cons i fl =>
    have hi : e.shared.pool.freeHead = i := hseg.1
    have := h.holds.free.lt_uint32Max (h.holds.free.lt i List.mem_cons_self)
    simpa [hasRoom, hi] using this

/-- What every call keeps. -/
structure Keeps (e e' : MatchingEngine) : Prop where
  /-- The invariant. -/
  inv : Inv e'
  /-- The pool. -/
  capacity : e'.shared.pool.capacity = e.shared.pool.capacity
  /-- A complete index was complete before. -/
  dropped : e'.shared.insertDropped = false → e.shared.insertDropped = false

theorem Keeps.refl {e : MatchingEngine} (h : Inv e) : Keeps e e := ⟨h, rfl, id⟩

/-! ### Outcomes -/

/-- Take the order with a reference off one side. -/
def leave (R : Resting) (L : ℕ) (b : Bool) (ref : ℕ) : Resting :=
  setSide R L b ((R L b).filter fun x => x.orderId ≠ ref)

/-- Cancel part of the order with a reference on one side. -/
def shrink (R : Resting) (L : ℕ) (b : Bool) (ref : ℕ) (q : UInt32) : Resting :=
  setSide R L b ((R L b).map fun x => if x.orderId = ref then x.reduce q else x)

/-- Hang an order on its side, behind everything at its price or better. -/
def enter (R : Resting) (L : ℕ) (o : OrderData) : Resting :=
  setSide R L o.side.isBuy (SortedMap.insertBefore
    (fun x => decide (better o.side.isBuy o.price x.price)) o (R L o.side.isBuy))

/-- The trades of an incoming order. -/
def tradesOf (R : Resting) (L : ℕ) (o : OrderData) : List (OrderData × ℕ) :=
  fills o.side.isBuy o (R L !o.side.isBuy)

/-- The frames of these trades. -/
def tradeFrames (R : Resting) (L : ℕ) (o : OrderData) : List BinaryResponse :=
  (tradesOf R L o).map (tradeFrame L o.side.isBuy)

/-- What rests after them. -/
def afterMatch (R : Resting) (L : ℕ) (o : OrderData) : Resting :=
  setSide R L (!o.side.isBuy) (leftBehind o.side.isBuy o (R L !o.side.isBuy))

/-- The incoming order after them. -/
def residual (R : Resting) (L : ℕ) (o : OrderData) : OrderData := afterFills o (tradesOf R L o)

/-- The references of the orders they use up. -/
def usedRefs (R : Resting) (L : ℕ) (o : OrderData) : List ℕ := usedUp (tradesOf R L o)

/-- Whether the pool has a free slot after them: every order used up gives its slot back. -/
def MatchingEngine.roomAfter (e : MatchingEngine) (L : ℕ) (o : OrderData) : Bool :=
  e.hasRoom || !(usedRefs e.resting L o).isEmpty

/-- Whether a rest of the incoming order hangs in the book. -/
def MatchingEngine.hangs (e : MatchingEngine) (L : ℕ) (o : OrderData) (tif : OrderTif) : Bool :=
  decide ((residual e.resting L o).status ≠ .filled) &&
    (decide (tif = .day) && (e.roomAfter L o && decide (o.side ≠ .invalid)))

/-- The same for the new order of a replace, which always finds room. -/
def replaceHangs (R : Resting) (L : ℕ) (o : OrderData) : Bool :=
  decide ((residual R L o).status ≠ .filled) && decide (o.side ≠ .invalid)

/-- What becomes of an order that goes to the book. -/
def restOutcome (R : Resting) (L : ℕ) (o : OrderData) (room : Bool) (out : List BinaryResponse) :
    List BinaryResponse × Resting :=
  if room = true ∧ o.side ≠ .invalid then (out ++ [.ok o.orderId], enter R L o)
  else (out ++ [.error .poolFull], R)

/-- The outcome of an accepted `processAdd` of the order `o`. -/
def addOutcome (R : Resting) (L : ℕ) (o : OrderData) (tif : OrderTif) (room : Bool) :
    List BinaryResponse × Resting :=
  let o' := afterFills o (tradesOf R L o)
  if o'.status = .filled then (tradeFrames R L o ++ [.filled o.orderId], afterMatch R L o)
  else match tif with
    | .ioc => (if o'.filledQty = 0 then tradeFrames R L o ++ [.error .mktNoLiquidity]
        else tradeFrames R L o, afterMatch R L o)
    | .fok => (if o'.filledQty < o.originalQty then tradeFrames R L o ++ [.error .fokNoFullFill]
        else tradeFrames R L o, afterMatch R L o)
    | .day => restOutcome (afterMatch R L o) L o' room (tradeFrames R L o)

/-- The outcome of the second half of `processReplace`: the new order `o` enters. -/
def replaceOutcome (R : Resting) (L : ℕ) (o : OrderData) (room : Bool) :
    List BinaryResponse × Resting :=
  let o' := afterFills o (tradesOf R L o)
  if o'.status = .filled then (tradeFrames R L o ++ [.filled o.orderId], afterMatch R L o)
  else restOutcome (afterMatch R L o) L o' room (tradeFrames R L o)

section RestOutcome

variable (R : Resting) (L : ℕ) {o : OrderData} {room : Bool} (out : List BinaryResponse)

theorem restOutcome_ok (hroom : room = true) (hside : o.side ≠ .invalid) :
    restOutcome R L o room out = (out ++ [.ok o.orderId], enter R L o) := if_pos ⟨hroom, hside⟩

theorem restOutcome_full (hroom : room = false) :
    restOutcome R L o room out = (out ++ [.error .poolFull], R) :=
  if_neg fun hc => absurd (hroom.symm.trans hc.1) (by decide)

theorem restOutcome_invalid (hside : o.side = .invalid) :
    restOutcome R L o room out = (out ++ [.error .poolFull], R) := if_neg fun hc => hc.2 hside

end RestOutcome

/-! ### References through an outcome -/

theorem mem_leave {R : Resting} {L : ℕ} {b : Bool} {ref L' : ℕ} {b' : Bool} {x : OrderData}
    (hx : x ∈ leave R L b ref L' b') : x ∈ R L' b' := by
  rcases (mem_setSide ..).mp hx with ⟨rfl, rfl, hx'⟩ | ⟨-, hx'⟩
  · exact (List.mem_filter.mp hx').1
  · exact hx'

/-- Matching introduces no reference: every order left is one that was there, as it was or cut
down. -/
theorem mem_afterMatch {R : Resting} {L : ℕ} {o : OrderData} {L' : ℕ} {b' : Bool} {x : OrderData}
    (hx : x ∈ afterMatch R L o L' b') :
    x ∈ R L' b' ∨ ∃ y ∈ R L' b', ∃ t, 0 < t ∧ t < qtyOf y ∧ x = partly y t := by
  rcases (mem_setSide ..).mp hx with ⟨rfl, rfl, hx'⟩ | ⟨-, hx'⟩
  · rcases Allocation.mem_sweep hx' with hx' | ⟨y, hy, -, t, ht0, ht, rfl⟩
    · exact Or.inl hx'
    · exact Or.inr ⟨y, hy, t, ht0, ht, rfl⟩
  · exact Or.inl hx'

theorem Fresh.afterMatch {R : Resting} {ref : ℕ} (h : Fresh R ref) (L : ℕ) (o : OrderData) :
    Fresh (afterMatch R L o) ref := fun L' b' x hx => by
  rcases mem_afterMatch hx with hx | ⟨y, hy, t, -, -, rfl⟩
  · exact h L' b' x hx
  · exact h L' b' y hy

/-! ### Hanging the rest of an order in the book -/

/-- The store after an order of reference `ref` was hung in a book, if it was. -/
structure Hung (hangs : Bool) (ref : ℕ) (sh sh' : Store) : Prop where
  /-- If not, nothing was inserted in the index. -/
  quiet : hangs = false → sh'.insertDropped = sh.insertDropped
  /-- If so, the index took the reference or dropped it. -/
  linked : hangs = true → SharedStore.Linked ref sh sh'
  /-- A complete index was complete before. -/
  dropped : sh'.insertDropped = false → sh.insertDropped = false
  /-- The pool is as large as it was. -/
  capacity : sh'.pool.capacity = sh.pool.capacity

/-- Nothing was hung in a book. -/
theorem Hung.not {ref : ℕ} {sh sh' : Store} (hd : sh'.insertDropped = sh.insertDropped)
    (hc : sh'.pool.capacity = sh.pool.capacity) : Hung false ref sh sh' :=
  ⟨fun _ => hd, fun h => absurd h (by decide), fun h => hd ▸ h, hc⟩

/-- The store after an incoming order: the orders it used up are gone, and its rest may hang in
the book. -/
def Stored (refs : List ℕ) (hangs : Bool) (ref : ℕ) (sh sh' : Store) : Prop :=
  ∃ sh₁, SharedStore.Erased refs sh sh₁ ∧ Hung hangs ref sh₁ sh'

theorem Stored.capacity {refs : List ℕ} {hangs : Bool} {ref : ℕ} {sh sh' : Store}
    (h : Stored refs hangs ref sh sh') : sh'.pool.capacity = sh.pool.capacity := by
  obtain ⟨sh₁, herased, hhung⟩ := h
  exact hhung.capacity.trans herased.capacity

theorem Stored.dropped {refs : List ℕ} {hangs : Bool} {ref : ℕ} {sh sh' : Store}
    (h : Stored refs hangs ref sh sh') (hd : sh'.insertDropped = false) :
    sh.insertDropped = false := by
  obtain ⟨sh₁, herased, hhung⟩ := h
  exact herased.dropped ▸ hhung.dropped hd

/-- Another order may have been erased before. -/
theorem Stored.cons {r : ℕ} {refs : List ℕ} {hangs : Bool} {ref : ℕ} {sh sh₁ sh' : Store}
    (h : SharedStore.Erased [r] sh sh₁) (h' : Stored refs hangs ref sh₁ sh') :
    Stored (r :: refs) hangs ref sh sh' := by
  obtain ⟨sh₂, herased, hhung⟩ := h'
  exact ⟨sh₂, h.append herased, hhung⟩

/-- The orders used up leave room. -/
theorem Rep.hasRoom_taken {e e' : MatchingEngine} {n n' : ℕ} {G G' : Layout} {fl taken : List ℕ}
    {refs : List ℕ} (h : Rep e n G fl) (h' : Rep e' n' G' (taken ++ fl))
    (hlen : taken.length = refs.length) : e'.hasRoom = (e.hasRoom || !refs.isEmpty) := by
  rw [h.hasRoom_eq, h'.hasRoom_eq]
  cases taken with
  | nil =>
    obtain rfl := List.eq_nil_of_length_eq_zero hlen.symm
    simp
  | cons i taken =>
    cases refs with
    | nil => exact absurd hlen (by simp)
    | cons r refs => simp

@[simp] theorem afterFills_side (o : OrderData) (fs : List (OrderData × ℕ)) :
    (afterFills o fs).side = o.side := by
  rw [afterFills]
  split <;> rfl

@[simp] theorem afterFills_orderId (o : OrderData) (fs : List (OrderData × ℕ)) :
    (afterFills o fs).orderId = o.orderId := by
  rw [afterFills]
  split <;> rfl

@[simp] theorem afterFills_sequence (o : OrderData) (fs : List (OrderData × ℕ)) :
    (afterFills o fs).sequence = o.sequence := by
  rw [afterFills]
  split <;> rfl

/-- A taker that came in open is open, partially filled or filled. -/
theorem afterFills_status {o : OrderData} (ho : o.status = .open) (fs : List (OrderData × ℕ)) :
    (afterFills o fs).status ≠ .filled →
      (afterFills o fs).status = .open ∨ (afterFills o fs).status = .partiallyFilled := by
  rw [afterFills]
  split
  · exact fun _ => Or.inl ho
  · rw [OrderData.filledBy]
    split
    · exact fun h => absurd rfl h
    · exact fun _ => Or.inr rfl

/-- An engine whose books and store did not change. -/
theorem Rep.withBook_self {e : MatchingEngine} {n : ℕ} {G : Layout} {fl : List ℕ}
    (h : Rep e n G fl) (L : ℕ) :
    Rep (e.withBook L (e.books L) e.shared) n G fl ∧
      (e.withBook L (e.books L) e.shared).resting = e.resting :=
  h.congr (Function.update_eq_self ..) rfl

theorem restOrder_spec {s : Matching} {n L : ℕ} {G : Layout} {fl : List ℕ}
    (h : Rep s.engine n G fl) (hL : L < kMaxLocate) (hseq : s.order.sequence = n)
    (hfresh : Fresh s.engine.resting s.order.orderId) :
    ∃ rsp e' G' fl', restOrder L s = some (rsp, e') ∧ Rep e' (n + 1) G' fl' ∧
      (rsp, e'.resting) = restOutcome s.engine.resting L s.order s.engine.hasRoom s.out ∧
      Hung (s.engine.hasRoom && decide (s.order.side ≠ .invalid)) s.order.orderId
        s.engine.shared e'.shared ∧
      e'.nextSequence = s.engine.nextSequence := by
  rw [h.hasRoom_eq]
  obtain ⟨hself, hselfr⟩ := h.withBook_self L
  by_cases hside : s.order.side = .invalid
  · refine ⟨_, _, G, fl, by rw [restOrder, Rep.addOrder_invalid hside]; rfl,
      hself.mono (Nat.le_succ n), ?_, ?_, rfl⟩
    · rw [restOutcome_invalid _ _ _ hside, hselfr]
      rfl
    · rw [decide_eq_false (not_not.mpr hside), Bool.and_false]
      exact .not rfl rfl
  cases fl with
  | nil =>
    refine ⟨_, _, G, [], by rw [restOrder, h.addOrder_full]; rfl, hself.mono (Nat.le_succ n), ?_,
      .not rfl rfl, rfl⟩
    rw [restOutcome_full _ _ _ (by rfl), hselfr]
    rfl
  | cons i fl =>
    obtain ⟨e', hadd, hrep, hrest, hdrop, hlinked, hnseq, hcap⟩ :=
      h.addOrder_spec hL hside (Nat.le_of_eq hseq.symm) hfresh
    rw [hseq] at hrep
    refine ⟨_, e', _, fl, by rw [restOrder, hadd]; rfl, hrep, ?_,
      ⟨fun hh => ?_, fun _ => hlinked, hdrop, hcap⟩, hnseq⟩
    swap
    · rw [decide_eq_true hside] at hh
      exact absurd hh Bool.noConfusion
    rw [restOutcome_ok _ _ _ (by rfl) hside, hrest]
    rfl

/-! ### `processAdd` -/

/-- The second half of an accepted call. -/
theorem finishAdd_spec (tif : OrderTif) {s : Matching} {n L : ℕ} {G : Layout} {fl : List ℕ}
    (R : Resting) (o : OrderData) (quantity : UInt32) (h : Rep s.engine n G fl)
    (hL : L < kMaxLocate) (ho : o.status = .open) (hoq : o.originalQty = quantity)
    (hseq : o.sequence = n) (hR : s.engine.resting = afterMatch R L o)
    (hs : s.order = afterFills o (tradesOf R L o)) (hout : s.out = tradeFrames R L o)
    (hfresh : tif = .day → Fresh R o.orderId) :
    ∃ rsp e' G' fl', finishAdd L quantity tif s = some (rsp, e') ∧ Rep e' (n + 1) G' fl' ∧
      (rsp, e'.resting) = addOutcome R L o tif s.engine.hasRoom ∧
      Hung (decide ((residual R L o).status ≠ .filled) && (decide (tif = .day) &&
        (s.engine.hasRoom && decide (o.side ≠ .invalid)))) o.orderId s.engine.shared e'.shared ∧
      e'.nextSequence = s.engine.nextSequence := by
  have hid : s.order.orderId = o.orderId := by rw [hs, afterFills_orderId]
  have hsd : s.order.side = o.side := by rw [hs, afterFills_side]
  rw [residual]
  unfold finishAdd addOutcome
  rw [← hs, ← hout, ← hR]
  by_cases hst : s.order.status = .filled
  · rw [if_pos hst, if_pos hst, hid, decide_eq_false (not_not.mpr hst), Bool.false_and]
    exact ⟨_, _, G, fl, rfl, h.mono (Nat.le_succ n), rfl, .not rfl rfl, rfl⟩
  rw [if_neg hst, if_neg hst, hoq, decide_eq_true hst, Bool.true_and]
  cases tif with
  | ioc => exact ⟨_, _, G, fl, rfl, h.mono (Nat.le_succ n), rfl, .not rfl rfl, rfl⟩
  | fok => exact ⟨_, _, G, fl, rfl, h.mono (Nat.le_succ n), rfl, .not rfl rfl, rfl⟩
  | day =>
    have hopen := afterFills_status ho (tradesOf R L o)
    rw [← hs] at hopen
    simp only [if_pos (hopen hst)]
    rw [← hid, ← hsd]
    exact restOrder_spec h hL (by rw [hs, afterFills_sequence, hseq])
      (by rw [hR, hid]; exact (hfresh rfl).afterMatch L o)

/-- The frames, the books and the free slots after matching an accepted order. -/
theorem acceptAdd_spec {e : MatchingEngine} {G : Layout} {fl : List ℕ}
    (h : Rep e e.nextSequence G fl) {L ref : ℕ} (hL : L < kMaxLocate) (side : Side)
    (price quantity : UInt32) (user : ℕ) (tif : OrderTif)
    (hfresh : tif = .day → Fresh e.resting ref) :
    ∃ rsp e', e.acceptAdd L ref side price quantity user tif = some (rsp, e') ∧
      Keeps e e' ∧ (rsp, e'.resting) =
        addOutcome e.resting L (e.newOrder ref side price quantity user) tif
          (e.roomAfter L (e.newOrder ref side price quantity user)) ∧
      Stored (usedRefs e.resting L (e.newOrder ref side price quantity user))
        (e.hangs L (e.newOrder ref side price quantity user) tif) ref e.shared e'.shared ∧
      e'.nextSequence = e.nextSequence + 1 := by
  generalize ho : e.newOrder ref side price quantity user = o
  have hos : o.side = side := by rw [← ho]; rfl
  generalize he₁ : ({ e with nextSequence := e.nextSequence + 1 } : MatchingEngine).logWal
    { type := 0x01, side := if side = .buy then 0x01 else 0x02, locate := UInt16.ofNat L
      price := o.price, quantity := quantity, userId := user, orderId := ref
      walSeq := e.nextSequence + 1 } = e₁
  obtain ⟨h₁, hr₁⟩ : Rep e₁ e.nextSequence G fl ∧ e₁.resting = e.resting := by
    rw [← he₁]
    exact h.congr rfl rfl
  have hn₁ : e₁.nextSequence = e.nextSequence + 1 := by rw [← he₁]; rfl
  have hsh₁ : e₁.shared = e.shared := by rw [← he₁]; rfl
  obtain ⟨s, G', taken, hs, hrep, hrest, horder, hout, herased, hlen, hseq⟩ :=
    matchOrder_spec h₁ L side.isBuy o
  rw [hr₁] at hrest horder hout herased hlen
  rw [← hos] at hrest horder hout herased hlen
  rw [hsh₁] at herased
  obtain ⟨rsp, e', G'', fl', hfin, hrep', hres, hhung, hseq'⟩ :=
    finishAdd_spec tif e.resting o quantity hrep hL (by rw [← ho]; rfl) (by rw [← ho]; rfl)
      (by rw [← ho]; rfl) hrest horder hout (by rw [← ho]; exact hfresh)
  rw [h.hasRoom_taken hrep hlen] at hres hhung
  have hstored : Stored (usedRefs e.resting L o) (e.hangs L o tif) ref e.shared e'.shared :=
    ⟨s.engine.shared, herased, by rwa [show ref = o.orderId by rw [← ho]; rfl]⟩
  refine ⟨rsp, e', ?_, ⟨⟨G'', fl', ?_⟩, hstored.capacity, hstored.dropped⟩, hres, hstored, ?_⟩
  · have hbuy : (if side = .buy then e₁.matchBuyOrder L o else e₁.matchSellOrder L o) = some s := by
      rw [← hs]
      cases side <;> rfl
    rw [acceptAdd]
    simp only [ho, he₁]
    rw [hbuy]
    exact hfin
  · rwa [hseq', hseq, hn₁]
  · rw [hseq', hseq, hn₁]

/-- The validation of `processAdd`. -/
def addError (L ref : ℕ) (side : Side) (price quantity : UInt32) (user : ℕ) (tif : OrderTif) :
    Option ErrorCode :=
  if L < kMaxLocate then
    if side = .invalid then some .invalidSide
    else if (isMarket tif price = false ∧ price = 0) ∨ quantity = 0 ∨ user = 0 ∨ ref = 0 then
      some .invalidPriceQtyUser
    else none
  else some .invalidCommandType

section Add

variable {e : MatchingEngine} {L ref user : ℕ} {side : Side} {price quantity : UInt32}
  {tif : OrderTif}

/-- A call that fails validation answers with the error alone and changes nothing. -/
theorem processAdd_of_error {code : ErrorCode}
    (h : addError L ref side price quantity user tif = some code) :
    e.processAdd L ref side price quantity user tif = some ([.error code], e) := by
  rw [processAdd, bookFor]
  rw [addError] at h
  by_cases hL : L < kMaxLocate
  · rw [if_pos hL] at h ⊢
    by_cases hs : side = .invalid
    · rw [if_pos hs] at h
      obtain rfl := Option.some.inj h
      exact if_pos hs
    · rw [if_neg hs] at h
      simp only [if_neg hs]
      split at h
      · next hc =>
        obtain rfl := Option.some.inj h
        exact if_pos hc
      · exact absurd h (by simp)
  · rw [if_neg hL] at h ⊢
    obtain rfl := Option.some.inj h
    rfl

/-- What validation asks for. -/
theorem valid_of_addError (h : addError L ref side price quantity user tif = none) :
    side ≠ .invalid ∧ quantity.toNat ≠ 0 ∧ ref ≠ 0 := by
  rw [addError] at h
  split_ifs at h with hL hside hbad
  rw [not_or, not_or, not_or] at hbad
  obtain ⟨-, hquantity, -, href⟩ := hbad
  exact ⟨hside, fun hzero => hquantity (UInt32.toNat_inj.mp hzero), href⟩

/-- An order that may rest has a price. -/
theorem price_of_addError (h : addError L ref side price quantity user .day = none) :
    0 < price := by
  rw [addError] at h
  split_ifs at h with hL hside hbad
  rw [not_or] at hbad
  exact UInt32.pos_iff_ne_zero.mpr fun hzero => hbad.1 ⟨by simp [isMarket], hzero⟩

/-- A call that passes validation. -/
theorem processAdd_of_valid (h : addError L ref side price quantity user tif = none) :
    L < kMaxLocate ∧ e.processAdd L ref side price quantity user tif =
      if tif = .fok then
        (e.canFullFill (e.books L) side (effectivePrice side tif price) quantity).bind fun full =>
          if full then e.acceptAdd L ref side (effectivePrice side tif price) quantity user tif
          else some ([.error .fokNoFullFill], e)
      else e.acceptAdd L ref side (effectivePrice side tif price) quantity user tif := by
  rw [addError] at h
  by_cases hL : L < kMaxLocate
  · rw [if_pos hL] at h
    refine ⟨hL, ?_⟩
    rw [processAdd, bookFor, if_pos hL]
    by_cases hs : side = .invalid
    · rw [if_pos hs] at h
      exact absurd h (by simp)
    · rw [if_neg hs] at h
      simp only [if_neg hs]
      split at h
      · exact absurd h (by simp)
      · next hc => rw [if_neg hc]
  · rw [if_neg hL] at h
    exact absurd h (by simp)

/-- **`processAdd`** of a day or immediate order. -/
theorem processAdd_spec (h : Inv e) (hvalid : addError L ref side price quantity user tif = none)
    (htif : tif ≠ .fok) (hfresh : tif = .day → Fresh e.resting ref) :
    ∃ rsp e', e.processAdd L ref side price quantity user tif = some (rsp, e') ∧ Keeps e e' ∧
      (rsp, e'.resting) = addOutcome e.resting L
        (e.newOrder ref side (effectivePrice side tif price) quantity user) tif
        (e.roomAfter L (e.newOrder ref side (effectivePrice side tif price) quantity user)) ∧
      Stored (usedRefs e.resting L
          (e.newOrder ref side (effectivePrice side tif price) quantity user))
        (e.hangs L (e.newOrder ref side (effectivePrice side tif price) quantity user) tif)
        ref e.shared e'.shared ∧
      e'.nextSequence = e.nextSequence + 1 := by
  obtain ⟨G, fl, h⟩ := h
  obtain ⟨hL, heq⟩ := processAdd_of_valid (e := e) hvalid
  rw [heq, if_neg htif]
  exact acceptAdd_spec h hL side _ quantity user tif hfresh

/-- What rests within the limit of an incoming order, whoever it belongs to. -/
def onOffer (R : Resting) (L : ℕ) (side : Side) (price : UInt32) : ℕ :=
  (((R L !side.isBuy).filter fun o => !beyond side.isBuy price o.price).map qtyOf).sum

/-- `canFullFill` compares with the 32-bit value of `onOffer`. -/
theorem Rep.canFullFill_eq {n : ℕ} {G : Layout} {fl : List ℕ} (h : Rep e n G fl) :
    e.canFullFill (e.books L) side price quantity =
      some (decide (quantity.toNat ≤ onOffer e.resting L side price % 2 ^ 32)) := by
  obtain ⟨t, ht, hsum⟩ := h.availableQty_eq L side price
  rw [canFullFill, ht, Option.map_some]
  simp only [UInt32.le_iff_toNat_le, hsum]
  rfl

/-- **`processAdd`** of a fill-or-kill order that `canFullFill` lets through. -/
theorem processAdd_fok_spec (h : Inv e)
    (hvalid : addError L ref side price quantity user .fok = none)
    (hfull : quantity.toNat ≤
      onOffer e.resting L side (effectivePrice side .fok price) % 2 ^ 32) :
    ∃ rsp e', e.processAdd L ref side price quantity user .fok = some (rsp, e') ∧ Keeps e e' ∧
      (rsp, e'.resting) = addOutcome e.resting L
        (e.newOrder ref side (effectivePrice side .fok price) quantity user) .fok
        (e.roomAfter L (e.newOrder ref side (effectivePrice side .fok price) quantity user)) ∧
      Stored (usedRefs e.resting L
          (e.newOrder ref side (effectivePrice side .fok price) quantity user))
        (e.hangs L (e.newOrder ref side (effectivePrice side .fok price) quantity user) .fok)
        ref e.shared e'.shared ∧
      e'.nextSequence = e.nextSequence + 1 := by
  obtain ⟨G, fl, h⟩ := h
  obtain ⟨hL, heq⟩ := processAdd_of_valid (e := e) hvalid
  rw [heq, if_pos rfl, h.canFullFill_eq, Option.bind_some, if_pos (decide_eq_true hfull)]
  exact acceptAdd_spec h hL side (effectivePrice side .fok price) quantity user .fok
    fun htif => absurd htif (by decide)

/-- And one that it stops. -/
theorem processAdd_fok_stop (h : Inv e)
    (hvalid : addError L ref side price quantity user .fok = none)
    (hfull : onOffer e.resting L side (effectivePrice side .fok price) % 2 ^ 32 <
      quantity.toNat) :
    e.processAdd L ref side price quantity user .fok = some ([.error .fokNoFullFill], e) := by
  obtain ⟨G, fl, h⟩ := h
  obtain ⟨hL, heq⟩ := processAdd_of_valid (e := e) hvalid
  rw [heq, if_pos rfl, h.canFullFill_eq, Option.bind_some,
    if_neg (by simpa using Nat.not_le.mpr hfull)]

end Add

/-! ### Looking a reference up -/

/-- A lookup finds nothing, or an order of the named locate with the reference. -/
theorem Rep.findOrder_spec {e : MatchingEngine} {n : ℕ} {G : Layout} {fl : List ℕ}
    (h : Rep e n G fl) {ref L : ℕ} (hroute : RoutedTo e.resting ref L) :
    (e.findOrder ref = some none ∧ (e.shared.insertDropped = false → Fresh e.resting ref)) ∨
      ∃ i b p, e.findOrder ref = some (some i) ∧ i ∈ G L b p ∧
        (e.shared.pool.storage i).orderId = ref ∧
        (e.shared.pool.storage i).toOrderData ∈ e.resting L b := by
  rcases h.holds.find ref with hf | ⟨i, hf, ⟨L', b, p, hi⟩, hid⟩
  · refine Or.inl ⟨hf, fun hd L' b x hx hxr => ?_⟩
    obtain ⟨j, hj, rfl⟩ := h.mem_resting.mp hx
    have hfound := h.holds.find_of_live hd (live hj)
    rw [show (e.shared.pool.storage j).orderId = ref from hxr, hf] at hfound
    exact absurd hfound (by simp)
  · obtain rfl := hroute L' b _ (h.resting_mem hi) hid
    exact Or.inr ⟨i, b, p, hf, hi, hid, h.resting_mem hi⟩

/-- Once the order with a reference has left, the reference is fresh. -/
theorem Rep.fresh_leave {e : MatchingEngine} {n : ℕ} {G : Layout} {fl : List ℕ}
    (h : Rep e n G fl) {L ref : ℕ} {b : Bool} {x : OrderData} (hx : x ∈ e.resting L b)
    (hxr : x.orderId = ref) : Fresh (leave e.resting L b ref) ref := fun L' b' y hy hyr => by
  obtain ⟨rfl, rfl, -⟩ := h.resting_unique hx (mem_leave hy) (hxr.trans hyr.symm)
  rw [leave, setSide_self] at hy
  exact absurd hyr (by simpa using (List.mem_filter.mp hy).2)

/-- The log does not matter to the books. -/
theorem Rep.logWal {e : MatchingEngine} {n : ℕ} {G : Layout} {fl : List ℕ} (h : Rep e n G fl)
    (entry : WalEntry) : Rep (e.logWal entry) n G fl ∧ (e.logWal entry).resting = e.resting :=
  h.congr rfl rfl

/-! ### `processCancel` -/

section Cancel

variable {e : MatchingEngine} {L ref : ℕ}

/-- What a cancel that is refused leaves behind. -/
theorem keeps_logWal (h : Inv e) (entry : WalEntry) :
    Keeps e (e.logWal entry) ∧ (e.logWal entry).resting = e.resting := by
  obtain ⟨G, fl, h⟩ := h
  obtain ⟨hrep, hrest⟩ := h.logWal entry
  exact ⟨⟨⟨G, fl, hrep⟩, rfl, id⟩, hrest⟩

/-- **`processCancel`** takes the order off, or finds no order of that user and changes
nothing. -/
theorem processCancel_spec (h : Inv e) (hroute : RoutedTo e.resting ref L) (user : ℕ) :
    ∃ rsp e', e.processCancel L ref user = some (rsp, e') ∧ Keeps e e' ∧
      e'.shared.insertDropped = e.shared.insertDropped ∧ e'.nextSequence = e.nextSequence ∧
      ((∃ b, ∃ x ∈ e.resting L b, x.orderId = ref ∧ x.userId = user ∧ rsp = [.cancelled ref] ∧
          e'.resting = leave e.resting L b ref ∧ e'.hasRoom = true) ∨
        (rsp = [.error .orderNotFound] ∧ e'.resting = e.resting ∧
          (e.shared.insertDropped = false → ∀ b, ∀ x ∈ e.resting L b, x.orderId = ref →
            x.userId ≠ user))) := by
  have hinv := h
  obtain ⟨G, fl, h⟩ := h
  rw [processCancel, bookFor]
  by_cases hL : L < kMaxLocate
  swap
  · refine ⟨_, e, by rw [if_neg hL], Keeps.refl hinv, rfl, rfl,
      Or.inr ⟨rfl, rfl, fun _ b x hx => ?_⟩⟩
    exact absurd (h.resting_range hx) hL
  rw [if_pos hL]
  simp only []
  generalize hent : ({ type := 0x02, locate := UInt16.ofNat L, userId := user, orderId := ref
                       walSeq := e.nextSequence } : WalEntry) = entry
  obtain ⟨h₁, hr₁⟩ := h.logWal entry
  have hself := h₁.withBook_self L
  rcases h.findOrder_spec hroute with ⟨hf, hnone⟩ | ⟨i, b, p, hf, hi, hid, hmem⟩
  · have hcall : (e.books L).removeOrderOf (e.logWal entry).shared ref user =
        some (false, e.books L, (e.logWal entry).shared) := by
      rw [OrderBook.removeOrderOf]
      exact congrArg (Option.bind · _) hf
    rw [hcall]
    exact ⟨_, _, rfl, ⟨⟨G, fl, hself.1⟩, rfl, id⟩, rfl, rfl, Or.inr ⟨rfl, hself.2.trans hr₁,
      fun hd b x hx hxr => absurd hxr (hnone hd L b x hx)⟩⟩
  by_cases hu : (e.shared.pool.storage i).userId = user
  · obtain ⟨e', hrem, hrep, hrest, herased, hseq⟩ := h₁.removeOrder_spec hi
    obtain ⟨⟨bk, sh⟩, hbk, he'⟩ := Option.map_eq_some_iff.mp hrem
    have hcall : (e.books L).removeOrderOf (e.logWal entry).shared ref user =
        some (true, bk, sh) := by
      rw [OrderBook.removeOrderOf]
      refine (congrArg (Option.bind · _) hf).trans ?_
      show (if (e.shared.pool.storage i).userId ≠ user then _ else _) = _
      rw [if_neg (not_not.mpr hu)]
      exact Option.map_eq_some_iff.mpr ⟨_, hbk, rfl⟩
    rw [hcall]
    have hinv' : Inv e' := ⟨_, _, (show e'.nextSequence = e.nextSequence from hseq).symm ▸ hrep⟩
    refine ⟨_, e', by rw [← he']; rfl,
      ⟨hinv', herased.capacity, fun hd => (herased.dropped.symm.trans hd : _)⟩, herased.dropped,
      hseq, Or.inl ⟨b, _, hmem, hid, hu, rfl, ?_, ?_⟩⟩
    · have hid₁ : ((e.logWal entry).shared.pool.storage i).orderId = ref := hid
      rw [hrest, hid₁, hr₁, leave]
    · rw [hrep.hasRoom_eq]
      rfl
  · have hcall : (e.books L).removeOrderOf (e.logWal entry).shared ref user =
        some (false, e.books L, (e.logWal entry).shared) := by
      rw [OrderBook.removeOrderOf]
      refine (congrArg (Option.bind · _) hf).trans ?_
      exact if_pos hu
    rw [hcall]
    refine ⟨_, _, rfl, ⟨⟨G, fl, hself.1⟩, rfl, id⟩, rfl, rfl, Or.inr ⟨rfl, hself.2.trans hr₁,
      fun _ b' x hx hxr hxu => hu ?_⟩⟩
    obtain ⟨-, -, rfl⟩ := h.resting_unique hmem hx (hid.trans hxr.symm)
    exact hxu

/-- **`processCancelShares`** takes the order off, or cuts it down, or finds no order of that
user and changes nothing. -/
theorem processCancelShares_spec (h : Inv e) (hroute : RoutedTo e.resting ref L) (user : ℕ)
    (shares : UInt32) :
    ∃ rsp e', e.processCancelShares L ref shares user = some (rsp, e') ∧ Keeps e e' ∧
      e'.shared.insertDropped = e.shared.insertDropped ∧ e'.nextSequence = e.nextSequence ∧
      ((∃ b, ∃ x ∈ e.resting L b, x.orderId = ref ∧ x.userId = user ∧
          x.remainingQty ≤ shares ∧ rsp = [.cancelled ref] ∧
          e'.resting = leave e.resting L b ref) ∨
        (∃ b, ∃ x ∈ e.resting L b, x.orderId = ref ∧ x.userId = user ∧
          shares < x.remainingQty ∧ rsp = [.ok ref] ∧
          e'.resting = shrink e.resting L b ref shares) ∨
        (rsp = [.error .orderNotFound] ∧ e'.resting = e.resting ∧
          (e.shared.insertDropped = false → ∀ b, ∀ x ∈ e.resting L b, x.orderId = ref →
            x.userId ≠ user))) := by
  have hinv := h
  obtain ⟨G, fl, h⟩ := h
  rw [processCancelShares, bookFor]
  by_cases hL : L < kMaxLocate
  swap
  · refine ⟨_, e, by rw [if_neg hL], Keeps.refl hinv, rfl, rfl,
      Or.inr (Or.inr ⟨rfl, rfl, fun _ b x hx => ?_⟩)⟩
    exact absurd (h.resting_range hx) hL
  rw [if_pos hL]
  simp only []
  generalize hent : ({ type := 0x03, locate := UInt16.ofNat L, quantity := shares, userId := user
                       orderId := ref, walSeq := e.nextSequence } : WalEntry) = entry
  obtain ⟨hkeep, hr₁⟩ := keeps_logWal hinv entry
  obtain ⟨h₁, -⟩ := h.logWal entry
  have hf₁ : (e.logWal entry).findOrder ref = e.findOrder ref := rfl
  rcases h.findOrder_spec hroute with ⟨hf, hnone⟩ | ⟨i, b, p, hf, hi, hid, hmem⟩
  · rw [hf₁, hf]
    exact ⟨_, _, rfl, hkeep, rfl, rfl, Or.inr (Or.inr ⟨rfl, hr₁,
      fun hd b x hx hxr => absurd hxr (hnone hd L b x hx)⟩)⟩
  rw [hf₁, hf, Option.bind_some]
  have hid₁ : ((e.logWal entry).shared.pool.storage i).orderId = ref := hid
  by_cases hu : (e.shared.pool.storage i).userId = user
  swap
  · refine ⟨_, _, if_pos hu, hkeep, rfl, rfl,
      Or.inr (Or.inr ⟨rfl, hr₁, fun _ b' x hx hxr hxu => hu ?_⟩)⟩
    obtain ⟨-, -, rfl⟩ := h.resting_unique hmem hx (hid.trans hxr.symm)
    exact hxu
  have hstore : (e.logWal entry).shared = e.shared := rfl
  simp only [hstore, if_neg (not_not.mpr hu)]
  by_cases hq : (e.shared.pool.storage i).remainingQty ≤ shares
  · obtain ⟨e', hrem, hrep, hrest, herased, hseq⟩ := h₁.removeOrder_spec hi
    have hinv' : Inv e' := ⟨_, _, (show e'.nextSequence = e.nextSequence from hseq).symm ▸ hrep⟩
    refine ⟨_, e', by rw [if_pos hq, hrem]; rfl,
      ⟨hinv', herased.capacity, fun hd => (herased.dropped.symm.trans hd : _)⟩, herased.dropped,
      hseq, Or.inl ⟨b, _, hmem, hid, hu, hq, rfl, ?_⟩⟩
    rw [hrest, hid₁, hr₁, leave]
  · obtain ⟨hrep, hrest⟩ := h₁.reduceQtyCancel_spec hi shares
    refine ⟨_, _, if_neg hq, ⟨⟨G, fl, hrep⟩, rfl, id⟩, rfl, rfl,
      Or.inr (Or.inl ⟨b, _, hmem, hid, hu, UInt32.not_le.mp hq, rfl, ?_⟩)⟩
    rw [hrest, hid₁, hr₁, shrink]

/-! ### `processReplace` -/

/-- The second half of `processReplace`, once the old order has left: its slot is free, so the new
order finds room. -/
theorem enterReplacement_spec {G : Layout} {fl : List ℕ} {i newRef : ℕ}
    (h : Rep e e.nextSequence G (i :: fl)) (hL : L < kMaxLocate) (hfresh : Fresh e.resting newRef)
    (side : Side) (price quantity : UInt32) :
    ∃ rsp e', (if side = .buy
        then ({ e with nextSequence := e.nextSequence + 1 } : MatchingEngine).matchBuyOrder L
          (e.newOrder newRef side price quantity newRef)
        else ({ e with nextSequence := e.nextSequence + 1 } : MatchingEngine).matchSellOrder L
          (e.newOrder newRef side price quantity newRef)).bind (finishReplace L) = some (rsp, e') ∧
      Keeps e e' ∧
      (rsp, e'.resting) = replaceOutcome e.resting L
        (e.newOrder newRef side price quantity newRef) true ∧
      Stored (usedRefs e.resting L (e.newOrder newRef side price quantity newRef))
        (replaceHangs e.resting L (e.newOrder newRef side price quantity newRef)) newRef
        e.shared e'.shared ∧
      e'.nextSequence = e.nextSequence + 1 := by
  generalize ho : e.newOrder newRef side price quantity newRef = o
  have hos : o.side = side := by rw [← ho]; rfl
  generalize he₁ : ({ e with nextSequence := e.nextSequence + 1 } : MatchingEngine) = e₁
  obtain ⟨h₁, hr₁⟩ : Rep e₁ e.nextSequence G (i :: fl) ∧ e₁.resting = e.resting := by
    rw [← he₁]
    exact h.congr rfl rfl
  have hsh₁ : e₁.shared = e.shared := by rw [← he₁]
  have hn₁ : e₁.nextSequence = e.nextSequence + 1 := by rw [← he₁]
  obtain ⟨s, G', taken, hs, hrep, hrest, horder, hout, herased, -, hseq⟩ :=
    matchOrder_spec h₁ L side.isBuy o
  rw [hr₁] at hrest horder hout herased
  rw [← hos] at hrest horder hout herased
  rw [hsh₁] at herased
  have hR : s.engine.resting = afterMatch e.resting L o := hrest
  have hmatch : (if side = .buy then e₁.matchBuyOrder L o else e₁.matchSellOrder L o) = some s := by
    rw [← hs]
    cases side <;> rfl
  have hroom : s.engine.hasRoom = true := by
    rw [hrep.hasRoom_eq]
    simp
  have hoid : s.order.orderId = o.orderId := by rw [horder, afterFills_orderId]
  have hsd : s.order.side = o.side := by rw [horder, afterFills_side]
  have hon : o.orderId = newRef := by rw [← ho]; rfl
  rw [hmatch, Option.bind_some]
  unfold finishReplace replaceOutcome replaceHangs
  rw [residual, ← show s.order = afterFills o (tradesOf e.resting L o) from horder,
    ← show s.out = tradeFrames e.resting L o from hout, ← hR]
  by_cases hst : s.order.status = .filled
  · rw [if_neg (by rw [hst]; simp), if_pos hst, if_pos hst, hoid,
      decide_eq_false (not_not.mpr hst), Bool.false_and]
    have hn : s.engine.nextSequence = e.nextSequence + 1 := by rw [hseq, hn₁]
    have hstored : Stored (usedRefs e.resting L o) false newRef e.shared s.engine.shared :=
      ⟨_, herased, .not rfl rfl⟩
    exact ⟨_, _, rfl, ⟨⟨G', taken ++ i :: fl, hn.symm ▸ hrep.mono (Nat.le_succ _)⟩,
      hstored.capacity, hstored.dropped⟩, rfl, hstored, hn⟩
  · have hopen := afterFills_status (o := o) (by rw [← ho]; rfl) (tradesOf e.resting L o)
    rw [← show s.order = afterFills o (tradesOf e.resting L o) from horder] at hopen
    rw [if_pos (hopen hst), if_neg hst, ← hroom, decide_eq_true hst, Bool.true_and]
    obtain ⟨rsp, e', G'', fl', hfin, hrep', hres, hhung, hseq'⟩ :=
      restOrder_spec hrep hL (by rw [horder, afterFills_sequence, ← ho]; rfl)
        (by rw [hoid, hR, ← ho]; exact hfresh.afterMatch L _)
    have hn' : e'.nextSequence = e.nextSequence + 1 := by rw [hseq', hseq, hn₁]
    rw [hroom, Bool.true_and, hsd, hoid, hon] at hhung
    have hstored : Stored (usedRefs e.resting L o) (decide (o.side ≠ .invalid)) newRef e.shared
      e'.shared := ⟨_, herased, hhung⟩
    exact ⟨rsp, e', hfin, ⟨⟨G'', fl', hn'.symm ▸ hrep'⟩, hstored.capacity, hstored.dropped⟩, hres,
      hstored, hn'⟩

/-- **`processReplace`** takes the old order off and lets the new one in, or finds no order of
that user and changes nothing. The pool has room for the new order: the old one's slot. -/
theorem processReplace_spec (h : Inv e) (hroute : RoutedTo e.resting ref L) (user : ℕ) {newRef : ℕ}
    (hnew : newRef = ref ∨ Fresh e.resting newRef) (side : Side) (price quantity : UInt32) :
    ∃ rsp e', e.processReplace L ref newRef side price quantity user = some (rsp, e') ∧
      Keeps e e' ∧
      ((∃ b, ∃ x ∈ e.resting L b, x.orderId = ref ∧ x.userId = user ∧
          (rsp, e'.resting) = replaceOutcome (leave e.resting L b ref) L
            (e.newOrder newRef side price quantity newRef) true ∧
          Stored (ref :: usedRefs (leave e.resting L b ref) L
              (e.newOrder newRef side price quantity newRef))
            (replaceHangs (leave e.resting L b ref) L
              (e.newOrder newRef side price quantity newRef)) newRef e.shared e'.shared ∧
          e'.nextSequence = e.nextSequence + 1) ∨
        (rsp = [.error .orderNotFound] ∧ e'.resting = e.resting ∧
          e'.shared.insertDropped = e.shared.insertDropped ∧ e'.nextSequence = e.nextSequence ∧
          (e.shared.insertDropped = false → ∀ b, ∀ x ∈ e.resting L b, x.orderId = ref →
            x.userId ≠ user))) := by
  have hinv := h
  obtain ⟨G, fl, h⟩ := h
  rw [processReplace, bookFor]
  by_cases hL : L < kMaxLocate
  swap
  · refine ⟨_, e, by rw [if_neg hL], Keeps.refl hinv,
      Or.inr ⟨rfl, rfl, rfl, rfl, fun _ b x hx => ?_⟩⟩
    exact absurd (h.resting_range hx) hL
  rw [if_pos hL]
  simp only []
  generalize hent : ({ type := 0x04, locate := UInt16.ofNat L, price := price
                       quantity := quantity, userId := user, orderId := newRef
                       walSeq := e.nextSequence } : WalEntry) = entry
  obtain ⟨hkeep, hr₁⟩ := keeps_logWal hinv entry
  obtain ⟨h₁, -⟩ := h.logWal entry
  have hf₁ : (e.logWal entry).findOrder ref = e.findOrder ref := rfl
  rcases h.findOrder_spec hroute with ⟨hf, hnone⟩ | ⟨i, b, p, hf, hi, hid, hmem⟩
  · rw [hf₁, hf]
    exact ⟨_, _, rfl, hkeep, Or.inr ⟨rfl, hr₁, rfl, rfl,
      fun hd b x hx hxr => absurd hxr (hnone hd L b x hx)⟩⟩
  rw [hf₁, hf, Option.bind_some]
  have hid₁ : ((e.logWal entry).shared.pool.storage i).orderId = ref := hid
  by_cases hu : (e.shared.pool.storage i).userId = user
  swap
  · refine ⟨_, _, if_pos hu, hkeep, Or.inr ⟨rfl, hr₁, rfl, rfl, fun _ b' x hx hxr hxu => hu ?_⟩⟩
    obtain ⟨-, -, rfl⟩ := h.resting_unique hmem hx (hid.trans hxr.symm)
    exact hxu
  have hstore : (e.logWal entry).shared = e.shared := rfl
  simp only [hstore, if_neg (not_not.mpr hu)]
  obtain ⟨e₂, hrem, hrep₂, hrest₂, herased, hseq₂⟩ := h₁.removeOrder_spec hi
  have hseq₂ : e₂.nextSequence = e.nextSequence := hseq₂
  have hleave : e₂.resting = leave e.resting L b ref := by rw [hrest₂, hid₁, hr₁, leave]
  have hfresh : Fresh e₂.resting newRef := by
    rw [hleave]
    rcases hnew with rfl | hnew
    · exact h.fresh_leave hmem hid
    · exact fun L' b' x hx => hnew L' b' x (mem_leave hx)
  obtain ⟨rsp, e', hcall, hkeeps, hres, hstored, hn⟩ :=
    enterReplacement_spec (hseq₂.symm ▸ hrep₂) hL hfresh side price quantity
  have horder : e₂.newOrder newRef side price quantity newRef =
      e.newOrder newRef side price quantity newRef := by rw [newOrder, newOrder, hseq₂]
  rw [hleave, horder] at hres hstored
  rw [hid₁] at herased
  have hstored := hstored.cons herased
  exact ⟨rsp, e', by rw [hrem, Option.bind_some]; exact hcall,
    ⟨hkeeps.inv, hstored.capacity, hstored.dropped⟩,
    Or.inl ⟨b, _, hmem, hid, hu, hres, hstored, by rw [hn, hseq₂]⟩⟩

end Cancel

end NebulaX.Exchange
