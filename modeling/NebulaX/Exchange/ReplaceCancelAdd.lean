import NebulaX.Exchange.Calls
import NebulaX.Exchange.EngineRuns
import NebulaX.Exchange.Erasure

/-!
# A replace is a cancel and an add

`processReplace` is written out by hand: it takes the old order off, builds the new one, matches it
and hangs up the rest. That is what a cancel of the old order followed by an add of the new one
does. The two differ in what they write to the log, and the engine does not read the log; so the
new order meets the same books, and the answers and the books after it are the same.

## Main results

* `processReplace_bare` — for every state in which the old order is found and is the caller's
* `replace_eq_cancel_add` — for every reachable state: both return, with the same frames and books
-/

namespace NebulaX.Exchange

open MatchingEngine

/-! ### What the calls log -/

namespace MatchingEngine

variable (e : MatchingEngine) (L ref : ℕ) (side : Side) (price quantity : UInt32) (user : ℕ)

/-- The entry of `processAdd`, written when the sequence number of the order has been taken. -/
def addEntry : WalEntry where
  type := 0x01
  side := if side = .buy then 0x01 else 0x02
  locate := UInt16.ofNat L
  price := price
  quantity := quantity
  userId := user
  orderId := ref
  walSeq := e.nextSequence + 1

/-- The entry of `processCancel`. -/
def cancelEntry : WalEntry where
  type := 0x02
  locate := UInt16.ofNat L
  userId := user
  orderId := ref
  walSeq := e.nextSequence

/-- The entry of `processCancelShares`. -/
def cancelSharesEntry : WalEntry where
  type := 0x03
  locate := UInt16.ofNat L
  quantity := quantity
  userId := user
  orderId := ref
  walSeq := e.nextSequence

/-- The entry of `processReplace`. It has the new reference and not the old one. -/
def replaceEntry : WalEntry where
  type := 0x04
  locate := UInt16.ofNat L
  price := price
  quantity := quantity
  userId := user
  orderId := ref
  walSeq := e.nextSequence

end MatchingEngine

/-! ### Calls that find their order -/

section Replace

variable {e : MatchingEngine} {L oldRef newRef user i : ℕ} {side : Side} {price quantity : UInt32}

/-- A replace of an order that is found: the order is taken off, and the new one comes in. -/
theorem processReplace_found (hL : L < kMaxLocate) (hfind : e.findOrder oldRef = some (some i))
    (huser : (e.shared.pool.storage i).userId = user) :
    e.processReplace L oldRef newRef side price quantity user =
      ((e.books L).removeOrder e.shared i).bind fun r =>
        (({ (e.logWal (e.replaceEntry L newRef price quantity user)).withBook L r.1 r.2 with
            nextSequence := e.nextSequence + 1 } : MatchingEngine).matchOrder L side.isBuy
          (e.newOrder newRef side price quantity newRef)).bind (finishReplace L) := by
  rw [processReplace, bookFor, if_pos hL]
  simp only []
  rw [show ∀ entry, (e.logWal entry).findOrder oldRef = some (some i) from fun _ => hfind,
    Option.bind_some]
  refine (if_neg (not_not.mpr huser)).trans ?_
  rw [MatchingEngine.removeOrder]
  show (((e.books L).removeOrder e.shared i).map _).bind _ = _
  cases (e.books L).removeOrder e.shared i with
  | none => rfl
  | some r => cases side <;> rfl

/-- A cancel of an order that is found. -/
theorem processCancel_found (hL : L < kMaxLocate) (hfind : e.findOrder oldRef = some (some i))
    (huser : (e.shared.pool.storage i).userId = user) :
    e.processCancel L oldRef user = ((e.books L).removeOrder e.shared i).map fun r =>
      ([.cancelled oldRef], (e.logWal (e.cancelEntry L oldRef user)).withBook L r.1 r.2) := by
  have hremove : (e.books L).removeOrderOf e.shared oldRef user =
      ((e.books L).removeOrder e.shared i).map fun r => (true, r.1, r.2) := by
    rw [OrderBook.removeOrderOf]
    refine (congrArg (Option.bind · _) hfind).trans ?_
    exact if_neg (not_not.mpr huser)
  rw [processCancel, bookFor, if_pos hL]
  simp only []
  rw [show ∀ entry, (e.books L).removeOrderOf (e.logWal entry).shared oldRef user = _ from
    fun _ => hremove, Option.map_map]
  rfl

/-- An add that passes validation matches and rests as the new order of a replace does. -/
theorem processAdd_enter (hvalid : addError L newRef side price quantity user .day = none) :
    e.processAdd L newRef side price quantity user .day =
      ((({ e with nextSequence := e.nextSequence + 1 } : MatchingEngine).logWal
        (e.addEntry L newRef side price quantity user)).matchOrder L side.isBuy
          (e.newOrder newRef side price quantity user)).bind (finishReplace L) := by
  obtain ⟨-, hadd⟩ := processAdd_of_valid (e := e) hvalid
  rw [hadd, if_neg (fun hc => by cases hc), acceptAdd]
  rw [show finishReplace L = finishAdd L quantity .day from funext (finishReplace_eq L quantity)]
  have hprice : effectivePrice side .day price = price := by simp [effectivePrice, isMarket]
  rw [hprice]
  cases side <;> rfl

/-- **A replace is a cancel and an add**, apart from the log and from the answer to the cancel. -/
theorem processReplace_bare (hfind : e.findOrder oldRef = some (some i))
    (huser : (e.shared.pool.storage i).userId = user)
    (hvalid : addError L newRef side price quantity newRef .day = none) :
    (e.processReplace L oldRef newRef side price quantity user).map (fun r => (r.1, r.2.bare id)) =
      ((e.processCancel L oldRef user).bind fun r =>
        r.2.processAdd L newRef side price quantity newRef .day).map
          (fun r => (r.1, r.2.bare id)) := by
  obtain ⟨hL, -⟩ := processAdd_of_valid (e := e) hvalid
  rw [processReplace_found hL hfind huser, processCancel_found hL hfind huser]
  cases (e.books L).removeOrder e.shared i with
  | none => rfl
  | some r =>
    rw [Option.bind_some, Option.map_some, Option.bind_some, processAdd_enter hvalid, enter_bare,
      enter_bare]
    rfl

end Replace

/-- **Replace equals cancel plus add** in every reachable state, for an order that rests under the
locate, is found and is the caller's. The frames are the same but for the answer to the cancel, and
so are the books, the pool, the index and the sequence counter. -/
theorem replace_eq_cancel_add {e : MatchingEngine} (h : Reachable e) {L oldRef newRef user : ℕ}
    {b : Bool} {x : OrderData} (hx : x ∈ e.resting L b) (hid : x.orderId = oldRef)
    (huser : x.userId = user) (hfind : e.findOrder oldRef ≠ some none)
    (hnew : newRef = oldRef ∨ Fresh e.resting newRef) (href : newRef ≠ 0)
    {price quantity : UInt32} (hprice : 0 < price) (hquantity : 0 < quantity) :
    ∃ rsp eR eC eA,
      e.processReplace L oldRef newRef (.ofBuy b) price quantity user = some (rsp, eR) ∧
      e.processCancel L oldRef user = some ([.cancelled oldRef], eC) ∧
      eC.processAdd L newRef (.ofBuy b) price quantity newRef .day = some (rsp, eA) ∧
      eA.books = eR.books ∧ eA.shared = eR.shared ∧ eA.nextSequence = eR.nextSequence := by
  obtain ⟨G, fl, hrep⟩ := h.inv
  have hL := hrep.resting_range hx
  have hroute : RoutedTo e.resting oldRef L := fun L' b' y hy hyid =>
    (hrep.resting_unique hx hy (hid.trans hyid.symm)).1
  -- the slot that the index finds is the order's
  rcases hrep.findOrder_spec hroute with ⟨hnone, -⟩ | ⟨i, b', p, hf, hi, hir, hmem⟩
  · exact absurd hnone hfind
  obtain ⟨-, -, hxi⟩ := hrep.resting_unique hmem hx (hir.trans hid.symm)
  have hiuser : (e.shared.pool.storage i).userId = user := by
    rw [← huser, hxi]
  have hvalid : addError L newRef (.ofBuy b) price quantity newRef .day = none := by
    rw [addError, if_pos hL, if_neg (Side.ofBuy_ne_invalid b), if_neg]
    rintro (⟨-, hzero⟩ | hzero | hzero | hzero)
    · exact UInt32.pos_iff_ne_zero.mp hprice hzero
    · exact UInt32.pos_iff_ne_zero.mp hquantity hzero
    · exact href hzero
    · exact href hzero
  obtain ⟨rsp, eR, hR, -⟩ := processReplace_spec h.inv hroute user hnew (.ofBuy b) price quantity
  have hbare := processReplace_bare hf hiuser hvalid
  rw [hR, Option.map_some] at hbare
  obtain ⟨⟨rsp', eA⟩, hA, heq⟩ := Option.map_eq_some_iff.mp hbare.symm
  obtain ⟨⟨rspC, eC⟩, hC, hA⟩ := Option.bind_eq_some_iff.mp hA
  obtain ⟨rfl, hbare⟩ := Prod.mk.inj heq
  have hengine : eA.bare id = eR.bare id := hbare
  rw [processCancel_found hL hf hiuser] at hC
  obtain ⟨r, -, hr⟩ := Option.map_eq_some_iff.mp hC
  obtain ⟨rfl, -⟩ := Prod.mk.inj hr
  rw [← processCancel_found hL hf hiuser] at hC
  have hbooks := congrArg MatchingEngine.books hengine
  have hshared := congrArg MatchingEngine.shared hengine
  have hsequence := congrArg MatchingEngine.nextSequence hengine
  exact ⟨rsp', eR, eC, eA, hR, hC, hA, hbooks, hshared, hsequence⟩

/-- Order 1 is replaced by order 3, which trades with order 2 and rests. -/
theorem replace_eq_cancel_add_crossing : ∃ e rsp eR eC eA,
    (new 4).execAll [.add 0 1 .sell 100 5 7 .day, .add 0 2 .buy 99 3 8 .day] = some e ∧
      e.processReplace 0 1 3 (.ofBuy false) 99 4 7 = some (rsp, eR) ∧
      e.processCancel 0 1 7 = some ([.cancelled 1], eC) ∧
      eC.processAdd 0 3 (.ofBuy false) 99 4 3 .day = some (rsp, eA) ∧
      eA.books = eR.books ∧ eA.shared = eR.shared ∧ eA.nextSequence = eR.nextSequence := by
  obtain ⟨e, hrun, he⟩ := reachable_execAll 4
    [.add 0 1 .sell 100 5 7 .day, .add 0 2 .buy 99 3 8 .day] (by decide) (by decide)
    (by decide +kernel)
  have hread : (((new 4).execAll [.add 0 1 .sell 100 5 7 .day, .add 0 2 .buy 99 3 8 .day]).bind
      fun e => (e.resting 0 false).head?.map fun x =>
        (x.orderId, x.userId, e.findOrder 1, e.noSlot 3)) = some (1, 7, some (some 0), true) := by
    decide +kernel
  rw [hrun, Option.bind_some] at hread
  obtain ⟨x, hx, heq⟩ := Option.map_eq_some_iff.mp hread
  obtain ⟨hid, heq⟩ := Prod.mk.inj heq
  obtain ⟨huser, heq⟩ := Prod.mk.inj heq
  obtain ⟨hfind, hslot⟩ := Prod.mk.inj heq
  obtain ⟨rsp, eR, eC, eA, hcalls⟩ := replace_eq_cancel_add he (List.mem_of_mem_head? hx) hid huser
    (hfind ▸ by simp) (Or.inr (fresh_of_noSlot he.inv hslot)) (by decide : (3 : ℕ) ≠ 0)
    (by decide : (0 : UInt32) < 99) (by decide : (0 : UInt32) < 4)
  exact ⟨e, rsp, eR, eC, eA, hrun, hcalls⟩

end NebulaX.Exchange
