import Mathlib.Algebra.Order.BigOperators.Group.List
import NebulaX.Exchange.FillOrKill
import NebulaX.Oms.Lifecycle
import NebulaX.Sim.Tally

/-!
# Which orders are live

The order manager counts an order as live from the time it is accepted until it is filled or
cancelled; for the exchange it is live while it rests. The two agree after every call, on which
orders are live and on how much is left of them, and no order waits for a cancel to be confirmed.

## The defect

An order of type `MARKET` is sent as immediate-or-cancel. What the exchange cannot fill at once it
drops, and says nothing. The order manager takes the fills that it is answered with, and is left
with a live order in part filled that rests nowhere; a cancel of it is refused, and leaves it
waiting for the confirmation. `NotInPart` asks that such an order finds all that it wants, or
nothing. A `LIMIT` order always agrees: if a part of it traded, it used up orders, and the rest of
it finds a slot.

## Main results

* `Answers.rests` — an accepted order with something left rests
* `steady_level` — every step keeps the agreement
* `live_iff_rests` — the two agree, in runs of undisturbed events and orders not filled in part
* `part_filled_live` — a market order in part filled
-/

namespace NebulaX

/-- A fill does not start a cancel. -/
theorem Entry.filledWith_pendingCancel {e : Entry} {q : UInt64} {p : Int64}
    (h : (e.filledWith q p).status = .pendingCancel) : e.status = .pendingCancel := by
  rw [filledWith] at h
  split at h
  · have h : (if e.order.quantity ≤ e.newFilled q then OrderStatus.filled
      else .partialFill) = .pendingCancel := h
    split at h <;> exact absurd h (by decide)
  · exact h

/-- Nor does the answer to a submit. -/
theorem Entry.answered_pendingCancel {e : Entry} {r : ExchangeSubmitResult}
    (h : (e.answered r).status = .pendingCancel) : e.status = .pendingCancel := by
  have hfills : ∀ (fs : List Fill) (e : Entry),
      (fs.foldl (fun e f => e.filledWith f.filledQty f.fillPrice) e).status = .pendingCancel →
      e.status = .pendingCancel := by
    intro fs
    induction fs with
    | nil => exact fun _ h => h
    | cons f fs ih => exact fun e h => filledWith_pendingCancel (ih _ h)
  rw [answered] at h
  split at h
  · have haccepted := hfills r.fills _ h
    rw [accepted] at haccepted
    split at haccepted
    · exact absurd haccepted (by simp)
    · exact haccepted
  · rw [rejected] at h
    split at h
    · exact absurd h (by simp)
    · exact h

/-- An order that was just registered is in balance, -/
theorem Entry.sound_newEntry {om : OrderManager} {order : Order}
    (hquantity : order.quantity.toNat < 2 ^ 32) : (om.newEntry order).Sound where
  sized := ⟨Nat.zero_le _, hquantity⟩
  split := Nat.zero_add _
  full := fun h => absurd h (by simp [OrderManager.newEntry])
  found := by simp [OrderManager.newEntry]

/-- and so it is after it was answered. -/
theorem Entry.Sound.answered {e : Entry} (h : e.Sound) {r : ExchangeSubmitResult}
    (hfills : ∀ f ∈ r.fills, f.filledQty.toNat < 2 ^ 32) : (e.answered r).Sound := by
  rw [Entry.answered]
  split
  · have haccepted := h.accepted 0
    generalize e.accepted 0 = e' at haccepted
    revert hfills
    generalize r.fills = fs
    intro hfills
    induction fs generalizing e' with
    | nil => exact haccepted
    | cons f fs ih =>
      exact ih _ (haccepted.filledWith (hfills f List.mem_cons_self) f.fillPrice)
        fun f' hf' => hfills f' (List.mem_cons_of_mem _ hf')
  · exact h.rejected

/-- The exchange is sent the whole quantity. -/
theorem Entry.Sound.sent_eq {e : Entry} (h : e.Sound) : e.sent = e.order.quantity.toNat := by
  rw [Entry.sent, UInt64.toNat_toUInt32]
  exact Nat.mod_eq_of_lt h.sized.2

namespace System

open Exchange (MatchingEngine BinaryResponse OrderData OrderTif Fresh Rests Effect CutBy makerQty
  takerQty qtyOf eligible eligibleQty tradesOf residual effect_of_exec)

/-! ### Orders that are filled in part -/

/-- An order as it comes to the book. -/
def incoming (s : System) (order : Order) (type : OrderType) : OrderData :=
  s.2.engine.newOrder s.1.idOf (if order.side = .buy then .buy else .sell)
    (MatchingEngine.effectivePrice (if order.side = .buy then .buy else .sell)
      (ExecutionEngine.tifOf type) order.price.toUInt64.toUInt32)
    order.quantity.toUInt32 kStrategyUserId

/-- **It is not filled in part**: it may rest, or it finds nothing to trade with, or enough. -/
def NotInPart (s : System) (order : Order) (type : OrderType) : Prop :=
  type = .limit ∨
    (∀ x ∈ s.2.engine.resting order.symbolId (!(s.incoming order type).side.isBuy),
      eligible (s.incoming order type).side.isBuy (s.incoming order type) x = false) ∨
    order.quantity.toUInt32.toNat ≤
      eligibleQty s.2.engine.resting order.symbolId (s.incoming order type)

/-- **An accepted order** that is not filled in part and has something left rests. -/
theorem Answers.rests {s : System} {order : Order} {type : OrderType}
    {rsp : List BinaryResponse} {r : ExchangeSubmitResult} {sim' : ExchangeSimulator}
    (h : Answers order s.1.idOf (ExecutionEngine.tifOf type) s.2 rsp r sim')
    (hcond : s.NotInPart order type) (haccepted : r.accepted = true)
    (hlt : takerQty rsp < order.quantity.toUInt32.toNat) :
    Rests sim'.engine.resting s.1.idOf := by
  have hanswer := h.accepted.mp haccepted
  have heff := h.effect
  rw [ExchangeSimulator.submitCommand] at heff
  generalize sim'.engine.resting = R' at heff
  generalize htif : ExecutionEngine.tifOf type = tif at heff
  cases heff with
  | rejected =>
    obtain ⟨f, hf, hacc⟩ := hanswer
    obtain rfl := List.mem_singleton.mp hf
    exact absurd hacc Bool.false_ne_true
  | killed =>
    rw [ExecutionEngine.tifOf] at htif
    split at htif <;> exact absurd htif (by decide)
  | added hvalid ha =>
    subst htif
    have ha : Exchange.Arrival s.2.engine.resting order.symbolId (s.incoming order type) _ rsp R' :=
      ha
    have hq : qtyOf (s.incoming order type) ≠ 0 := (Exchange.valid_of_addError hvalid).2.1
    have hqty : qtyOf (s.incoming order type) = order.quantity.toUInt32.toNat := rfl
    have htaker := ha.takerQty_eq
    have hopen : (residual s.2.engine.resting order.symbolId (s.incoming order type)).status ≠
        .filled := by
      rw [Exchange.residual, ne_eq, Exchange.afterFills_filled_iff rfl hq]
      omega
    cases ha with
    | filled hfilled => exact absurd hfilled hopen
    | rests =>
      refine ⟨_, _, _, Exchange.mem_enter.mpr (Or.inl ⟨rfl, rfl, rfl⟩), ?_⟩
      exact Exchange.afterFills_orderId ..
    | dropped _ hstays tail htail =>
      have hnil : tradesOf s.2.engine.resting order.symbolId (s.incoming order type) = [] := by
        rcases hcond with rfl | hnone | henough
        · -- it did not trade, or there would be a slot for it
          have hroom : (s.2.engine.roomAfter order.symbolId (s.incoming order .limit) &&
              decide ((if order.side = .buy then Exchange.Side.buy else .sell) ≠ .invalid)) =
              false := hstays
          have hside : (if order.side = .buy then Exchange.Side.buy else .sell) ≠ .invalid := by
            split <;> exact Exchange.Side.noConfusion
          rw [decide_eq_true hside, Bool.and_true, MatchingEngine.roomAfter,
            Bool.or_eq_false_iff] at hroom
          exact Exchange.tradesOf_eq_nil (by simpa using hroom.2) hopen
        · exact (Exchange.tradesOf_eq_nil_iff _ _ _ hq).mpr hnone
        · have hsum : Exchange.filledQtyOf (tradesOf s.2.engine.resting order.symbolId
              (s.incoming order type)) = min (qtyOf (s.incoming order type))
                (eligibleQty s.2.engine.resting order.symbolId (s.incoming order type)) :=
            Exchange.filledQtyOf_fills _ _ _
          omega
      rw [Exchange.tradeFrames, hnil, List.map_nil, List.nil_append] at hanswer
      obtain ⟨f, hf, hacc⟩ := hanswer
      rcases htail with rfl | ⟨code, rfl⟩
      · exact absurd hf List.not_mem_nil
      · obtain rfl := List.mem_singleton.mp hf
        exact absurd hacc Bool.false_ne_true

/-! ### One order -/

/-- What the order manager expects of an order, while trades wait. -/
structure Expects (ts : Waiting) (sim : ExchangeSimulator) (ref : ℕ) (e : Entry) : Prop where
  /-- Its quantities are in balance. -/
  sound : e.Sound
  /-- A live order has something left. -/
  unfilled : e.status.live = true → e.filled.toNat < e.order.quantity.toNat
  /-- A live order that does not rest waits for the rest of its fills. -/
  expected : e.status.live = true → Fresh sim.engine.resting ref →
    e.filled.toNat + givenBy ref ts = e.order.quantity.toNat
  /-- It does not wait for a cancel to be confirmed. -/
  settled : e.status ≠ .pendingCancel

/-- The two tally, and expect the same of every order. -/
def Level (ts : Waiting) (s : System) : Prop :=
  Tallied ts s ∧ (s.2.engine.shared.insertDropped = false →
    ∀ ref e, s.1.orderManager.orders ref = some e → Expects ts s.2 ref e)

/-- A signal that comes to an order of less than `2 ^ 32`, under a new id, not filled in part. -/
def Whole (s : System) (order : Order) (type : OrderType) : Prop :=
  s.Unnamed order type ∧ order.quantity.toNat < 2 ^ 32 ∧ s.NotInPart order type

section Order

variable {ts : Waiting} {sim sim' : ExchangeSimulator} {ref : ℕ} {e : Entry}

/-- What an order expects depends on whether it rests and on what it waits for. -/
theorem Expects.congr {ts' : Waiting} (h : Expects ts sim ref e)
    (hfresh : Fresh sim'.engine.resting ref → Fresh sim.engine.resting ref)
    (hgiven : givenBy ref ts' = givenBy ref ts) : Expects ts' sim' ref e where
  sound := h.sound
  unfilled := h.unfilled
  expected := by
    intro hlive hf
    rw [hgiven]
    exact h.expected hlive (hfresh hf)
  settled := h.settled

/-- Nothing is expected of an order that is not live. -/
theorem Expects.of_not_live (hsound : e.Sound) (hlive : ¬ e.status.live = true)
    (hsettled : e.status ≠ .pendingCancel) : Expects ts sim ref e where
  sound := hsound
  unfilled := fun h => absurd h hlive
  expected := fun h => absurd h hlive
  settled := hsettled

/-- While nothing waits, a live order rests. -/
theorem Expects.rests (h : Expects [] sim ref e) (hlive : e.status.live = true) :
    Rests sim.engine.resting ref := by
  by_contra hnot
  have hexpected := h.expected hlive (Exchange.not_rests_iff.mp hnot)
  have hunfilled := h.unfilled hlive
  have hnone : givenBy ref [] = 0 := rfl
  omega

/-- **A trade of the order** is what was expected. -/
theorem Expects.fill {t : ℕ × UInt32 × UInt32} (h : Expects (t :: ts) sim t.1 e) (taker : ℕ)
    (htally : Tallies (t :: ts) sim t.1 e) (p : Int64) :
    Expects ts (sim.countTrade taker t.1 t.2.2) t.1 (e.filledWith t.2.2.toUInt64 p) := by
  have hq : t.2.2.toUInt64.toNat = t.2.2.toNat := UInt32.toNat_toUInt64 _
  have hsound := h.sound.filledWith (by rw [hq]; exact t.2.2.toNat_lt) p
  have hsettled : (e.filledWith t.2.2.toUInt64 p).status ≠ .pendingCancel :=
    fun hp => h.settled (Entry.filledWith_pendingCancel hp)
  by_cases hlive : e.status.live = true
  · obtain ⟨hfilled, hstill⟩ := Entry.filledWith_of_live hlive htally.fits p
    have horder := e.filledWith_order t.2.2.toUInt64 p
    refine ⟨hsound, fun hl => ?_, fun _ hfresh => ?_, hsettled⟩
    · rw [hfilled, horder]
      exact hstill.mp hl
    · have hexpected := h.expected hlive hfresh
      rw [givenBy_cons, if_pos rfl] at hexpected
      rw [hfilled, horder, hq]
      omega
  · refine .of_not_live hsound ?_ hsettled
    rw [Entry.filledWith, if_neg hlive]
    exact hlive

end Order

/-! ### Every step -/

section Steps

variable {ts : Waiting} {s s' : System}

/-- **An event** uses up what it makes orders wait for. -/
theorem Level.enter {ev : ItchEvent} {rsp : List BinaryResponse} {e' : MatchingEngine}
    (h : Level [] s) (hj : Joined s) (hc : s.Allowed (.onMarketOrder ev))
    (henter : ExchangeSimulator.enterMarket s.2.engine ev = some (some (rsp, e'))) :
    Level (ExchangeSimulator.tradesIn rsp) (s.1, { s.2.advance with engine := e' }) := by
  refine ⟨h.1.enter hj hc henter, fun hd ref e he => ?_⟩
  obtain ⟨c, hcmd, hexec⟩ := exec_of_enterMarket henter
  have hinv := hj.owned.1.inv
  have hallowed := (ItchEvent.allowed_iff hcmd).mpr hc.1
  have heff := effect_of_exec hinv hallowed hexec
  have hd₀ := (Exchange.keeps_of_exec hinv hallowed hexec).dropped hd
  have hexpects := h.2 hd₀ ref e he
  refine ⟨hexpects.sound, hexpects.unfilled, fun hlive hfresh => ?_, hexpects.settled⟩
  have href : ref ∉ ev.refs := not_mem_refs hc he
  obtain ⟨L, b, x, hx, hid⟩ := hexpects.rests hlive
  have hstands := (h.1 hd₀ ref e he).rests L b x hx hid
  have hall : makerQty ref rsp = qtyOf x := by
    rcases heff.after hinv (ItchEvent.not_named hcmd href).2 hx hid with ⟨y, hy, hcut⟩ | hall
    · exact absurd (hcut.orderId.trans hid) (hfresh L b y hy)
    · exact hall
  have hsplit := hstands.split
  have hnone : givenBy ref [] = 0 := rfl
  rw [hexpects.sound.sent_eq, hnone] at hsplit
  rw [← makerQty_eq_givenBy, hall]
  exact hsplit

/-- **A cancel** of a live order is confirmed. -/
theorem Level.withdraw {id : ℕ} {e : Entry} (h : Level [] s) (hj : Joined s)
    (he : s.1.orderManager.orders id = some e) (hlive : e.status.live = true)
    (hout : Withdrawn s id e s') : Level [] s' := by
  refine ⟨h.1.withdraw hj he hout, ?_⟩
  have horder : s.1.orderManager.order id = some e.order := congrArg (Option.map Entry.order) he
  have hrequest := s.1.orderManager.requestCancel_revises id
  cases hout with
  | @taken e' b x hx hid hrest hdropped =>
    intro hd ref e₁ he₁
    have hd₀ := hdropped hd
    have hcancel := hrequest.comp ((s.1.orderManager.requestCancel id).2.onCancel_revises id)
    rcases hcancel.cases he₁ with ⟨rfl, e₀, he₀, rfl⟩ | ⟨href, he₁⟩
    · obtain rfl := Option.some.inj (he.symm.trans he₀)
      have hcancelled : e.cancelRequested.cancelConfirmed.status = .cancelled := by
        rw [Entry.cancelRequested, if_pos hlive, Entry.cancelConfirmed, if_pos rfl]
      have hsound := (h.2 hd₀ ref e he).sound.cancelRequested.cancelConfirmed
      exact .of_not_live hsound (by rw [hcancelled]; decide) (by rw [hcancelled]; decide)
    · refine (h.2 hd₀ ref e₁ he₁).congr (fun hf L b' y hy hyid => ?_) rfl
      refine hf L b' y ?_ hyid
      show y ∈ e'.resting L b'
      rw [hrest]
      exact Exchange.mem_leave_of_ne hy fun hyi => href (hyid.symm.trans hyi)
  | @refused e' hnot hrest hdropped =>
    intro hd
    have hd₀ := hdropped hd
    -- a live order rests, under its symbol and with the user of the strategy
    obtain ⟨L, b, x, hx, hid⟩ := (h.2 hd₀ id e he).rests hlive
    obtain rfl := hj.routed horder L b x hx hid
    exact absurd ((h.1 hd₀ id e he).rests _ b x hx hid).user (hnot hd₀ b x hx hid)

/-- An order that is turned down before it is sent. -/
theorem Level.reject {order : Order} {type : OrderType} (h : Level [] s)
    (hfresh : Fresh s.2.engine.resting s.1.idOf) (hok : s.Whole order type) :
    Level [] ({ s.1.registered order with
      orderManager := (s.1.registered order).orderManager.onReject s.1.idOf }, s.2) := by
  refine ⟨h.1.reject hfresh hok.1, fun hd ref e he => ?_⟩
  rcases entry_cases ((s.1.registered order).orderManager.onReject_revises s.1.idOf) he with
    ⟨-, rfl⟩ | ⟨-, he⟩
  · have hsound : (s.1.orderManager.newEntry order).rejected.Sound :=
      (Entry.sound_newEntry hok.2.1).rejected
    have hrejected : (s.1.orderManager.newEntry order).rejected.status = .rejected := rfl
    exact .of_not_live hsound (by rw [hrejected]; decide) (by rw [hrejected]; decide)
  · exact h.2 hd ref e he

/-- **An order that is sent** is live if and only if it rests. -/
theorem Level.submit {order : Order} {type : OrderType} {r : ExchangeSubmitResult}
    {marks : List Mark} {sim' : ExchangeSimulator} (h : Level [] s) (hj : Joined s)
    (hid : order.orderId = s.1.idOf) (hquantity : order.quantity ≠ 0)
    (hfresh : Fresh s.2.engine.resting s.1.idOf) (hok : s.Whole order type)
    (hcall : s.2.submit order s.1.idOf (ExecutionEngine.tifOf type) = some (r, marks, sim')) :
    Level [] (((s.1.registered order).takeMarks marks).takeResult order r, sim') := by
  refine ⟨h.1.submit hj hid hquantity hfresh hok.1 hcall, fun hd ref e he => ?_⟩
  have hinv := hj.owned.1.inv
  obtain ⟨rsp, hanswers⟩ := answers_of_submit hinv hfresh hcall
  have heff := hanswers.effect
  have hd₀ := hanswers.dropped hd
  have hrevises := ((s.1.registered order).takeMarks marks).takeResult_revises order r
  rw [hid] at hrevises
  rcases entry_cases hrevises he with ⟨rfl, rfl⟩ | ⟨-, he⟩
  · obtain ⟨horder, hfilled, hlive⟩ := hanswers.entry hquantity s.1.orderManager
    have hquantity : order.quantity.toUInt32.toNat = order.quantity.toNat := by
      rw [UInt64.toNat_toUInt32]
      exact Nat.mod_eq_of_lt hok.2.1
    have hfills : ∀ f ∈ r.fills, f.filledQty.toNat < 2 ^ 32 := by
      intro f hf
      have hle : f.filledQty.toNat ≤ takerQty rsp := by
        rw [← hanswers.fills]
        exact List.single_le_sum (fun _ _ => Nat.zero_le _) _ (List.mem_map_of_mem hf)
      have htaker : takerQty rsp ≤ order.quantity.toUInt32.toNat := heff.takerQty_le
      exact Nat.lt_of_le_of_lt (hle.trans htaker) order.quantity.toUInt32.toNat_lt
    refine ⟨(Entry.sound_newEntry hok.2.1).answered hfills, fun hl => ?_, fun hl hf => ?_, ?_⟩
    · rw [hfilled, horder]
      exact (hlive.mp hl).2
    · obtain ⟨haccepted, hlt⟩ := hlive.mp hl
      have hrests := hanswers.rests hok.2.2 haccepted (by rw [hquantity]; exact hlt)
      exact absurd hf (fun hf => Exchange.not_rests_iff.mpr hf hrests)
    · exact fun hp => absurd (Entry.answered_pendingCancel hp) (by simp [OrderManager.newEntry])
  · refine (h.2 hd₀ ref e he).congr (fun hf L b x hx hxid => ?_) rfl
    -- an order of the strategy that rests is not traded with
    have hstands := (h.1 hd₀ ref e he).rests L b x hx hxid
    have hpos := hstands.pos
    have hown := heff.own_untouched hinv (by decide) hx hstands.user
    rw [hxid] at hown
    rcases heff.after hinv (Option.some_ne_none _).symm hx hxid with ⟨y, hy, hcut⟩ | hall
    · exact hf L b y hy (hcut.orderId.trans hxid)
    · omega

/-- **The agreement is kept** by every step. -/
theorem steady_level : Steady Whole Level where
  congr := by
    intro ts s s' h hsame
    refine ⟨h.1.congr hsame, fun hd ref e he => ?_⟩
    rw [hsame.engine] at hd
    rw [hsame.orderManager] at he
    exact (h.2 hd ref e he).congr (by rw [hsame.engine]; exact id) rfl
  enter := Level.enter
  other := by
    intro t ts taker s h _ htaker hnot
    refine ⟨h.1.other htaker hnot, fun hd ref e he => ?_⟩
    refine (h.2 hd ref e he).congr (fun hf => hf) ?_
    rw [givenBy_cons, h.1.given_eq_zero hd hnot he, Nat.zero_add]
  fill := by
    intro t ts taker s e h _ htaker hnot he
    refine ⟨h.1.fill htaker hnot he _, fun hd ref e₁ he₁ => ?_⟩
    have hrevises := s.1.orderManager.onFill_revises t.1 t.2.2.toUInt64 t.2.1.toUInt64.toInt64
    rcases hrevises.cases he₁ with ⟨rfl, e₀, he₀, rfl⟩ | ⟨hid, he₁⟩
    · obtain rfl := Option.some.inj (he.symm.trans he₀)
      exact (h.2 hd _ e he).fill taker (h.1 hd _ e he) _
    · refine (h.2 hd ref e₁ he₁).congr (fun hf => hf) ?_
      rw [givenBy_cons, if_neg fun heq => hid heq.symm, Nat.zero_add]
  gone := by
    intro ts ref s h hj hnot hnone
    exact ⟨h.1.gone hj hnot hnone, fun hd ref' e he => (h.2 hd ref' e he).congr (fun hf => hf) rfl⟩
  bare := by
    intro ts s h hj hmarket
    obtain ⟨hnil, hback⟩ := steady_tallied.bare h.1 hj hmarket
    constructor
    · refine ⟨hnil, fun hd ref e he => (h.2 hd ref e he).congr id ?_⟩
      exact (h.1.givenBy_eq_zero hd hmarket he).symm
    · intro s' hsince h'
      refine ⟨hback s' hsince h'.1, fun hd ref e he => (h'.2 hd ref e he).congr id ?_⟩
      obtain ⟨e₀, he₀, -⟩ := Option.map_eq_some_iff.mp
        ((hsince.orders ref).symm.trans (congrArg (Option.map Entry.order) he))
      exact h.1.givenBy_eq_zero (hsince.dropped hd) hmarket he₀
  withdraw := Level.withdraw
  reject := fun h _ _ hfresh hok => h.reject hfresh hok
  submit := fun h hj hid hquantity hfresh hok _ hcall => h.submit hj hid hquantity hfresh hok hcall

instance (s : System) (order : Order) (type : OrderType) : Decidable (s.Whole order type) :=
  inferInstanceAs (Decidable (_ ∧ _ ∧ (_ ∨ _ ∨ _)))

end Steps

/-! ### Runs -/

/-- **The order manager and the exchange agree** on which orders are live and on what is left of
them, after every call of a run of undisturbed events and orders that are not filled in part, as
long as the index is complete. No order waits for a cancel to be confirmed. -/
theorem live_iff_rests {s : System} (h : Runs (Regular Whole) s)
    (hd : s.2.engine.shared.insertDropped = false) {ref : ℕ} {e : Entry}
    (he : s.1.orderManager.orders ref = some e) :
    (e.status = .submitted ∨ e.status = .partialFill ↔ Rests s.2.engine.resting ref) ∧
      (∀ L b, ∀ x ∈ s.2.engine.resting L b, x.orderId = ref →
        e.remaining.toNat = x.remainingQty.toNat) ∧
      e.status ≠ .pendingCancel := by
  have hlevel : Level [] s := steady_level.run (fun visits base rm baseQty _ _ _ _ =>
    ⟨tallied_new visits base rm baseQty _,
      fun _ _ _ he => absurd he.symm (Option.some_ne_none _)⟩) h
  have htally := hlevel.1 hd ref e he
  have hexpects := hlevel.2 hd ref e he
  have hlive : e.status.live = true ↔ e.status = .submitted ∨ e.status = .partialFill :=
    decide_eq_true_iff
  rw [← hlive]
  refine ⟨⟨hexpects.rests, ?_⟩, fun L b x hx hid => ?_, hexpects.settled⟩
  · rintro ⟨L, b, x, hx, hid⟩
    exact (htally.rests L b x hx hid).live
  · have hsplit : e.filled.toNat + 0 + x.remainingQty.toNat = e.sent :=
      (htally.rests L b x hx hid).split
    have hsum := hexpects.sound.split
    rw [hexpects.sound.sent_eq] at hsplit
    omega

/-- A market order that finds all that it wants, and a limit order that trades in part and rests. -/
def wholeCalls : List Call :=
  [.onMarketOrder (.add 0 1 .sell 100 150),
    .submitSignal { side := .buy, price := 100, strength := 10000 } 1 .market,
    .submitSignal { side := .buy, price := 100, strength := 10000 } 1 .limit]

theorem live_iff_rests_whole : ∃ s e, playIf (regularTest Whole) wholeCalls (new 1000 {} 8) =
      some s ∧ s.1.orderManager.orders 1001 = some e ∧ e.status = .partialFill ∧
    Rests s.2.engine.resting 1001 ∧ e.status ≠ .pendingCancel := by
  have hread : (playIf (regularTest Whole) wholeCalls (new 1000 {} 8)).map (fun s =>
      (s.2.engine.shared.insertDropped, (s.1.orderManager.orders 1001).map Entry.status)) =
      some (false, some .partialFill) := by decide +kernel
  obtain ⟨s, hrun, heq⟩ := Option.map_eq_some_iff.mp hread
  obtain ⟨hd, hentry⟩ := Prod.mk.inj heq
  obtain ⟨e, he, hstatus⟩ := Option.map_eq_some_iff.mp hentry
  have hstart : Runs (Regular Whole) (new 1000 {} 8) :=
    .start .inserted 1000 {} 100 8 none _ ⟨rfl, rfl⟩ (by decide) (by decide) (by simp)
  obtain ⟨hiff, -, hsettled⟩ := live_iff_rests (hstart.playIf hrun) hd he
  exact ⟨s, e, hrun, he, hstatus, hiff.mp (Or.inr hstatus), hsettled⟩

/-- **A market order that is filled in part** stays live, and rests nowhere. -/
theorem part_filled_live : ∃ s e, play [.onMarketOrder (.add 0 1 .sell 100 60),
      .submitSignal { side := .buy, price := 100, strength := 10000 } 1 .market] (new 1000 {} 8) =
      some s ∧ Reached s ∧ s.2.engine.shared.insertDropped = false ∧
    s.1.orderManager.orders 1000 = some e ∧ e.status = .partialFill ∧
    ¬ Rests s.2.engine.resting 1000 := by
  have hread : (play [.onMarketOrder (.add 0 1 .sell 100 60),
      .submitSignal { side := .buy, price := 100, strength := 10000 } 1 .market]
      (new 1000 {} 8)).map (fun s => (s.2.engine.shared.insertDropped,
        (s.1.orderManager.orders 1000).map Entry.status, s.2.engine.noSlot 1000)) =
      some (false, some .partialFill, true) := by decide +kernel
  obtain ⟨s, hrun, heq⟩ := Option.map_eq_some_iff.mp hread
  obtain ⟨hd, heq⟩ := Prod.mk.inj heq
  obtain ⟨hentry, hslot⟩ := Prod.mk.inj heq
  obtain ⟨e, he, hstatus⟩ := Option.map_eq_some_iff.mp hentry
  have hs : Reached s := (reached_new 1000 ⟨rfl, rfl⟩ (by decide) (by decide)).play hrun
  exact ⟨s, e, hrun, hs, hd, he, hstatus,
    Exchange.not_rests_iff.mpr (Exchange.fresh_of_noSlot hs.joined.owned.1.inv hslot)⟩

end System

end NebulaX
