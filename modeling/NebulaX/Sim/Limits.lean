import NebulaX.Execution.Positions
import NebulaX.Lib.Ledger
import NebulaX.Sim.Liveness

/-!
# Limits on positions

`check_order` lets a buyer pass while the position and the order stay within the limit, and a
seller while the order stays within the position. So no position is to exceed `max_position_`, and
no symbol is to be sold more than it was bought.

## The defect

The check looks at the position, and not at the orders that are open. Two bids that fit one by one
exceed the limit when both are taken up, and the same shares can be offered twice. `Limited` asks
for room for the open orders as well, at the time a signal passes the check: what they may still
trade is reserved in a `Ledger`, and whatever the market takes up afterwards fits.

## Main results

* `steady_guarded` — every step keeps the ledger of every symbol sound
* `limits_hold` — the limits hold, in runs of undisturbed events and orders that fit
* `limits_exceeded` — they do not in others
-/

namespace NebulaX

open Exchange (MatchingEngine BinaryResponse OrderData OrderTif Fresh Effect takerQty eligibleQty)

/-! ### Orders in the ledger -/

namespace Ledger

variable {limit n m : ℕ} {l : Ledger}

/-- There is room for an order on a side. -/
def Fits (limit : ℕ) (l : Ledger) (n : ℕ) : OrderSide → Prop
  | .buy => l.held + l.bids + n ≤ limit
  | .sell => l.offers + n ≤ l.held
  | .none => True

instance (limit : ℕ) (l : Ledger) (n : ℕ) (side : OrderSide) : Decidable (Fits limit l n side) :=
  match side with
  | .buy => inferInstanceAs (Decidable (_ ≤ _))
  | .sell => inferInstanceAs (Decidable (_ ≤ _))
  | .none => isTrue trivial

/-- The ledger with an order on a side. -/
def reserve (l : Ledger) (n : ℕ) : OrderSide → Ledger
  | .buy => { l with bids := l.bids + n }
  | .sell => { l with offers := l.offers + n }
  | .none => l

/-- It is open on its side. -/
def Covers (l : Ledger) (n : ℕ) : OrderSide → Prop
  | .buy => n ≤ l.bids
  | .sell => n ≤ l.offers
  | .none => True

/-- The ledger after it traded. -/
def trade (l : Ledger) (n : ℕ) : OrderSide → Ledger
  | .buy => { l with held := l.held + n, bought := l.bought + n, bids := l.bids - n }
  | .sell => { l with held := l.held - n, sold := l.sold + n, offers := l.offers - n }
  | .none => l

theorem Fits.mono {side : OrderSide} (h : Fits limit l n side) (hle : m ≤ n) :
    Fits limit l m side := by
  cases side with
  | buy => exact (Nat.add_le_add_left hle _).trans h
  | sell => exact (Nat.add_le_add_left hle _).trans h
  | none => trivial

/-- A ledger that is sound fits. -/
theorem Sound.fits (h : l.Sound limit) (side : OrderSide) : Fits limit l 0 side := by
  cases side with
  | buy => exact h.room
  | sell => exact h.covered
  | none => trivial

/-- **An order is made**, if it fits. -/
theorem Reachable.reserve {side : OrderSide} (h : Reachable limit l)
    (hfits : Fits limit l n side) : Reachable limit (l.reserve n side) := by
  cases side with
  | buy => exact h.tail (.bid n hfits)
  | sell => exact h.tail (.offer n hfits)
  | none => exact h

/-- **It is taken up**, if it is open. -/
theorem Reachable.trade {side : OrderSide} (h : Reachable limit l)
    (hcovers : l.Covers n side) : Reachable limit (l.trade n side) := by
  cases side with
  | buy => exact h.tail (.buy n hcovers)
  | sell => exact h.tail (.sell n hcovers)
  | none => exact h

/-- What is held makes room for what is covered. -/
theorem Sound.takes {side : OrderSide} (h : l.Sound limit) (hlimit : limit < 2 ^ 64)
    (hcovers : l.Covers n side) : RiskManager.Takes side l.held n := by
  have hroom := h.room
  have hcovered := h.covered
  cases side with
  | buy =>
    have hcovers : n ≤ l.bids := hcovers
    rw [RiskManager.Takes]
    omega
  | sell => exact le_trans hcovers hcovered
  | none => trivial

end Ledger

/-! ### The position after fills -/

section Position

variable {symbol : ℕ} {order : Order}

/-- A fill moves the position of its own symbol. Symbols that have no locate have no fills. -/
theorem ExecutionEngine.toNat_position_applyFill (hsymbol : symbol < kMaxLocate)
    (ee : ExecutionEngine) (id : ℕ) {q : UInt64} (p : Int64)
    (hfar : kMaxLocate ≤ order.symbolId → q.toNat = 0)
    (htakes : symbol = order.symbolId → RiskManager.Takes order.side
      (ee.riskManager.position symbol).toNat q.toNat) :
    ((ee.applyFill id order q p).riskManager.position symbol).toNat =
      if symbol = order.symbolId then
        RiskManager.taken order.side (ee.riskManager.position symbol).toNat q.toNat
      else (ee.riskManager.position symbol).toNat := by
  by_cases hnear : order.symbolId < kMaxLocate
  · have hiff : locateIdx symbol = locateIdx order.symbolId ↔ symbol = order.symbolId := by
      rw [locateIdx_eq hsymbol, locateIdx_eq hnear]
    have h := ee.riskManager.toNat_position_onFill { order with price := p } (q := q)
      fun hl => htakes (hiff.mp hl)
    simp only [hiff] at h
    exact h
  · have hzero := hfar (Nat.le_of_not_lt hnear)
    have hne : symbol ≠ order.symbolId := fun h => hnear (h ▸ hsymbol)
    have htakes : locateIdx symbol = locateIdx order.symbolId → RiskManager.Takes order.side
        (ee.riskManager.position symbol).toNat q.toNat := by
      intro _
      rw [hzero]
      exact RiskManager.takes_zero _ (UInt64.toNat_lt _)
    have h := ee.riskManager.toNat_position_onFill { order with price := p } htakes
    rw [hzero, RiskManager.taken_zero, ite_self] at h
    rw [if_neg hne]
    exact h

/-- **The position after the fills** of an order, if it is taken as it is. -/
theorem ExecutionEngine.toNat_position_applyFills (hsymbol : symbol < kMaxLocate) (id : ℕ)
    {fs : List Fill} {ee : ExecutionEngine}
    (hfar : kMaxLocate ≤ order.symbolId → (fs.map fun f => f.filledQty.toNat).sum = 0)
    (htakes : symbol = order.symbolId → RiskManager.Takes order.side
      (ee.riskManager.position symbol).toNat (fs.map fun f => f.filledQty.toNat).sum) :
    ((fs.foldl (fun ee f => ee.applyFill id order f.filledQty f.fillPrice)
      ee).riskManager.position symbol).toNat =
      if symbol = order.symbolId then
        RiskManager.taken order.side (ee.riskManager.position symbol).toNat
          (fs.map fun f => f.filledQty.toNat).sum
      else (ee.riskManager.position symbol).toNat := by
  induction fs generalizing ee with
  | nil =>
    show _ = if symbol = order.symbolId then RiskManager.taken order.side _ 0 else _
    rw [RiskManager.taken_zero, ite_self]
    rfl
  | cons f fs ih =>
    rw [List.map_cons, List.sum_cons] at hfar htakes
    rw [List.map_cons, List.sum_cons, List.foldl_cons]
    have hfirst := toNat_position_applyFill hsymbol ee id f.fillPrice
      (fun hf => (Nat.add_eq_zero_iff.mp (hfar hf)).1)
      fun hs => (RiskManager.takes_add (htakes hs)).1
    by_cases hsame : symbol = order.symbolId
    · obtain ⟨-, hrest, hsum⟩ := RiskManager.takes_add (htakes hsame)
      rw [if_pos hsame] at hfirst ⊢
      rw [ih (fun hf => (Nat.add_eq_zero_iff.mp (hfar hf)).2) fun _ => by rw [hfirst]; exact hrest,
        if_pos hsame, hfirst, hsum]
    · rw [if_neg hsame] at hfirst ⊢
      rw [ih (fun hf => (Nat.add_eq_zero_iff.mp (hfar hf)).2) fun hs => absurd hs hsame,
        if_neg hsame, hfirst]

/-- The position after the answer to a submit. -/
theorem ExecutionEngine.toNat_position_takeResult (hsymbol : symbol < kMaxLocate)
    (ee : ExecutionEngine) {r : ExchangeSubmitResult} {n : ℕ}
    (hsum : (r.fills.map fun f => f.filledQty.toNat).sum = n)
    (hrejected : ¬ r.accepted = true → n = 0)
    (hfar : kMaxLocate ≤ order.symbolId → n = 0)
    (htakes : symbol = order.symbolId → RiskManager.Takes order.side
      (ee.riskManager.position symbol).toNat n) :
    ((ee.takeResult order r).riskManager.position symbol).toNat =
      if symbol = order.symbolId then
        RiskManager.taken order.side (ee.riskManager.position symbol).toNat n
      else (ee.riskManager.position symbol).toNat := by
  subst hsum
  rw [takeResult]
  by_cases hacc : r.accepted = true
  · rw [if_pos hacc]
    exact toNat_position_applyFills hsymbol order.orderId hfar htakes
  · rw [if_neg hacc, hrejected hacc, RiskManager.taken_zero, ite_self]

theorem ExecutionEngine.maxPosition_takeResult (ee : ExecutionEngine) (order : Order)
    (r : ExchangeSubmitResult) :
    (ee.takeResult order r).riskManager.maxPosition = ee.riskManager.maxPosition := by
  rw [takeResult]
  split
  · refine applyFills_keep (P := fun ee' =>
      ee'.riskManager.maxPosition = ee.riskManager.maxPosition) ?_ r.fills rfl
    intro ee' f h
    rw [applyFill, RiskManager.maxPosition_onFill, h]
  · rfl

end Position

namespace System

/-! ### The ledger of a symbol -/

/-- What an order may still trade: what it was sent with and not filled, while it is live and
registered. -/
def leaves (sim : ExchangeSimulator) (e : Entry) : ℕ :=
  if e.status.live = true ∧ sim.isStrategyOrder e.order.orderId = true then
    e.sent - e.filled.toNat
  else 0

/-- The same, if it is an order on a side of a symbol. -/
def leavesAs (sim : ExchangeSimulator) (side : OrderSide) (symbol : ℕ) (e : Entry) : ℕ :=
  if e.order.side = side ∧ e.order.symbolId = symbol then leaves sim e else 0

/-- What the orders on a side of a symbol may still trade. -/
def exposure (s : System) (side : OrderSide) (symbol : ℕ) : ℕ :=
  s.1.orderManager.total (leavesAs s.2 side symbol)

/-- **The ledger of a symbol**: its position, what was bought and sold of it, and its open
orders. -/
def ledger (s : System) (symbol : ℕ) : Ledger where
  held := (s.1.riskManager.position symbol).toNat
  bought := s.1.orderManager.filledOf .buy symbol
  sold := s.1.orderManager.filledOf .sell symbol
  bids := s.exposure .buy symbol
  offers := s.exposure .sell symbol

/-- The limit on positions. -/
def limit (s : System) : ℕ := s.1.riskManager.maxPosition.toNat

/-- **An order on a side of a symbol** is made with `m` shares, and `n` are traded: what it does
to the sums of a symbol. -/
structure Trades (side : OrderSide) (symbol' m n : ℕ) (s s' : System) (symbol : ℕ) : Prop where
  /-- The position, if the trade is taken as it is. -/
  held : (symbol = symbol' →
      RiskManager.Takes side (s.1.riskManager.position symbol).toNat n) →
    (s'.1.riskManager.position symbol).toNat =
      if symbol = symbol' then
        RiskManager.taken side (s.1.riskManager.position symbol).toNat n
      else (s.1.riskManager.position symbol).toNat
  /-- What is filled. -/
  filled : ∀ side', s'.1.orderManager.filledOf side' symbol =
    s.1.orderManager.filledOf side' symbol + if side = side' ∧ symbol' = symbol then n else 0
  /-- What is open. -/
  left : ∀ side', s'.exposure side' symbol + (if side = side' ∧ symbol' = symbol then n else 0) =
    s.exposure side' symbol + if side = side' ∧ symbol' = symbol then m else 0

/-- **The ledger goes along**: it reserves the order and trades. -/
theorem Trades.reachable {side : OrderSide} {symbol' m n limit symbol : ℕ} {s s' : System}
    (ht : Trades side symbol' m n s s' symbol) (hlimit : limit < 2 ^ 64)
    (h : Ledger.Reachable limit (s.ledger symbol))
    (hfits : symbol = symbol' → Ledger.Fits limit (s.ledger symbol) m side) :
    Ledger.Reachable limit (s'.ledger symbol) := by
  by_cases hsame : symbol = symbol'
  · subst hsame
    have hopen := h.reserve (hfits rfl)
    have hcovers : ((s.ledger symbol).reserve m side).Covers n side := by
      have hleft := ht.left side
      rw [if_pos ⟨rfl, rfl⟩, if_pos ⟨rfl, rfl⟩] at hleft
      cases side with
      | buy => exact (Nat.le_add_left _ _).trans_eq hleft
      | sell => exact (Nat.le_add_left _ _).trans_eq hleft
      | none => trivial
    have hheld := ht.held fun _ => by
      have htakes := hopen.sound.takes hlimit hcovers
      cases side <;> exact htakes
    rw [if_pos rfl] at hheld
    have heq : s'.ledger symbol = ((s.ledger symbol).reserve m side).trade n side := by
      have hbought := ht.filled .buy
      have hsold := ht.filled .sell
      have hbids := ht.left .buy
      have hoffers := ht.left .sell
      cases side with
      | buy =>
        simp only [reduceCtorEq, and_self, false_and, if_true, if_false, Nat.add_zero]
          at hbought hsold hbids hoffers
        exact Ledger.ext hheld hbought hsold (Nat.eq_sub_of_add_eq hbids) hoffers
      | sell =>
        simp only [reduceCtorEq, and_self, false_and, if_true, if_false, Nat.add_zero]
          at hbought hsold hbids hoffers
        exact Ledger.ext hheld hbought hsold hbids (Nat.eq_sub_of_add_eq hoffers)
      | none =>
        simp only [reduceCtorEq, false_and, if_false, Nat.add_zero]
          at hbought hsold hbids hoffers
        exact Ledger.ext hheld hbought hsold hbids hoffers
    rw [heq]
    exact hopen.trade hcovers
  · have hheld := ht.held fun h => absurd h hsame
    have hfilled := ht.filled
    have hleft := ht.left
    have hother : ∀ side', ¬ (side = side' ∧ symbol' = symbol) := fun _ hc => hsame hc.2.symm
    simp only [hother, if_false, Nat.add_zero] at hfilled hleft
    rw [if_neg hsame] at hheld
    have heq : s'.ledger symbol = s.ledger symbol :=
      Ledger.ext hheld (hfilled _) (hfilled _) (hleft _) (hleft _)
    rw [heq]
    exact h

/-! ### Orders that fit -/

/-- What an order may trade in all: a limit order all that is sent, and a market order what it
finds of it. -/
def committed (s : System) (order : Order) (type : OrderType) : ℕ :=
  if type = .limit then order.quantity.toUInt32.toNat
  else min order.quantity.toUInt32.toNat
    (eligibleQty s.2.engine.resting order.symbolId (s.incoming order type))

/-- **It fits together with the orders that are open**, if it passes the check and its symbol has
a locate. It comes under a new id. -/
def Limited (s : System) (order : Order) (type : OrderType) : Prop :=
  s.Unnamed order type ∧ (s.1.riskManager.checkOrder order = true → order.symbolId < kMaxLocate →
    Ledger.Fits s.limit (s.ledger order.symbolId) (s.committed order type) order.side)

instance (s : System) (order : Order) (type : OrderType) : Decidable (s.Limited order type) :=
  inferInstanceAs (Decidable (_ ∧ (_ → _ → _)))

section Answers

variable {s : System} {order : Order} {type : OrderType} {rsp : List BinaryResponse}
  {r : ExchangeSubmitResult} {sim' : ExchangeSimulator}

/-- It does not trade more than that, -/
theorem Answers.takerQty_le_committed
    (h : Answers order s.1.idOf (ExecutionEngine.tifOf type) s.2 rsp r sim') :
    takerQty rsp ≤ s.committed order type := by
  have hsent : takerQty rsp ≤ order.quantity.toUInt32.toNat := h.effect.takerQty_le
  have hfound : takerQty rsp ≤
      eligibleQty s.2.engine.resting order.symbolId (s.incoming order type) := by
    have heff := h.effect
    rw [ExchangeSimulator.submitCommand] at heff
    generalize sim'.engine.resting = R' at heff
    generalize htif : ExecutionEngine.tifOf type = tif at heff
    cases heff with
    | rejected => exact Nat.zero_le _
    | killed => exact Nat.zero_le _
    | added _ ha =>
      subst htif
      rw [ha.takerQty_eq, Exchange.tradesOf, Exchange.filledQtyOf_fills]
      exact Nat.min_le_right _ _
  rw [committed]
  split
  · exact hsent
  · exact le_min hsent hfound

/-- and only a limit order is registered. -/
theorem Answers.limit_of_ok
    (h : Answers order s.1.idOf (ExecutionEngine.tifOf type) s.2 rsp r sim')
    (hok : ∃ r, .ok r ∈ rsp) : type = .limit := by
  obtain ⟨ref, hok⟩ := hok
  have hday : ExecutionEngine.tifOf type = .day := h.effect.day_of_ok hok
  rw [ExecutionEngine.tifOf] at hday
  split at hday
  · assumption
  · exact absurd hday (by decide)

/-- An order of a symbol without a locate is answered with an error. -/
theorem Answers.of_far (h : Answers order s.1.idOf (ExecutionEngine.tifOf type) s.2 rsp r sim')
    (hfar : kMaxLocate ≤ order.symbolId) : takerQty rsp = 0 ∧ ¬ ∃ r, .ok r ∈ rsp := by
  have htif : ExecutionEngine.tifOf type ≠ .fok := by
    rw [ExecutionEngine.tifOf]
    split <;> decide
  obtain ⟨code, rfl⟩ := h.effect.of_far htif hfar
  exact ⟨rfl, by simp⟩

end Answers

/-! ### The invariant -/

/-- **The ledgers are kept**, and count every order once. -/
structure Guarded (s : System) : Prop where
  /-- The keys of the order manager. -/
  keyed : s.1.orderManager.Keyed
  /-- An order has its id. -/
  named : ∀ {id : ℕ} {order : Order}, s.1.orderManager.order id = some order → order.orderId = id
  /-- What is registered is known. -/
  known : ∀ {ref : ℕ}, s.2.isStrategyOrder ref = true → s.1.orderManager.order ref ≠ none
  /-- An order of a symbol without a locate does nothing. -/
  far : s.1.orderManager.All fun e => kMaxLocate ≤ e.order.symbolId →
    e.filled.toNat = 0 ∧ ¬ s.2.isStrategyOrder e.order.orderId = true
  /-- The ledger of every symbol with a locate. -/
  ledger : ∀ symbol < kMaxLocate, Ledger.Reachable s.limit (s.ledger symbol)

section Steps

variable {ts : Waiting} {s s' : System} {sim sim' : ExchangeSimulator}

/-- The next id is not registered. -/
theorem Guarded.not_registered (h : Guarded s) : ¬ s.2.isStrategyOrder s.1.idOf = true := by
  intro hr
  refine h.known hr ?_
  rw [OrderManager.order, ExecutionEngine.idOf, h.keyed.next_none]
  rfl

/-- An order that is not filled may trade no more, if nothing becomes live or registered. -/
theorem leaves_le {e e' : Entry} (horder : e'.order = e.order) (hfilled : e'.filled = e.filled)
    (hlive : e'.status.live = true → e.status.live = true)
    (hreg : ∀ ref, sim'.isStrategyOrder ref = true → sim.isStrategyOrder ref = true) :
    leaves sim' e' ≤ leaves sim e := by
  rw [leaves]
  split
  · next h =>
    rw [leaves, if_pos ⟨hlive h.1, horder ▸ hreg _ h.2⟩, Entry.sent, Entry.sent, horder, hfilled]
  · exact Nat.zero_le _

theorem leavesAs_le {e e' : Entry} (horder : e'.order = e.order) (hfilled : e'.filled = e.filled)
    (hlive : e'.status.live = true → e.status.live = true)
    (hreg : ∀ ref, sim'.isStrategyOrder ref = true → sim.isStrategyOrder ref = true)
    (side : OrderSide) (symbol : ℕ) :
    leavesAs sim' side symbol e' ≤ leavesAs sim side symbol e := by
  rw [leavesAs, leavesAs, horder]
  split
  · exact leaves_le horder hfilled hlive hreg
  · exact le_rfl

/-- **Orders are taken off**: nothing is filled, and no order becomes live or registered. -/
theorem Guarded.release (h : Guarded s) {id : ℕ} {g : Entry → Entry}
    (hrev : OrderManager.Revises s.1.orderManager s'.1.orderManager id g)
    (horder : ∀ e, (g e).order = e.order) (hfilled : ∀ e, (g e).filled = e.filled)
    (hlive : ∀ e, (g e).status.live = true → e.status.live = true)
    (hreg : ∀ ref, s'.2.isStrategyOrder ref = true → s.2.isStrategyOrder ref = true)
    (hposition : ∀ symbol, s'.1.riskManager.position symbol = s.1.riskManager.position symbol)
    (hmax : s'.1.riskManager.maxPosition = s.1.riskManager.maxPosition) : Guarded s' where
  keyed := hrev.keyed h.keyed
  named := by
    intro id order ho
    exact h.named ((hrev.order horder id).symm.trans ho)
  known := by
    intro ref hr
    rw [hrev.order horder]
    exact h.known (hreg ref hr)
  far := by
    refine hrev.all (fun id e he hf => ?_) fun e he => by rw [horder, hfilled]; exact he
    obtain ⟨hzero, hnot⟩ := h.far id e he hf
    exact ⟨hzero, fun hr => hnot (hreg _ hr)⟩
  ledger := by
    intro symbol hsymbol
    have hle : ∀ side, s'.exposure side symbol ≤ s.exposure side symbol := fun side =>
      hrev.total_le (fun e => leavesAs_le rfl rfl (fun h => h) hreg side symbol)
        fun e => leavesAs_le (horder e) (hfilled e) (hlive e) hreg side symbol
    have heq : s'.ledger symbol = { s.ledger symbol with
        bids := s'.exposure .buy symbol, offers := s'.exposure .sell symbol } :=
      Ledger.ext (congrArg UInt64.toNat (hposition symbol)) (hrev.filledOf horder hfilled _ _)
        (hrev.filledOf horder hfilled _ _) rfl rfl
    rw [limit, hmax, heq]
    exact (h.ledger symbol hsymbol).tail (.release _ _ (hle _) (hle _))

/-- **A new order** that is answered at once. -/
theorem Guarded.place (h : Guarded s) {order : Order} {g : Entry → Entry} {n : ℕ} {b : Prop}
    (hrev : OrderManager.Revises (s.1.orderManager.newOrder order).2 s'.1.orderManager s.1.idOf g)
    (horder : ∀ e, (g e).order = e.order)
    (hfilled : (g (s.1.orderManager.newEntry order)).filled.toNat = n)
    (hreg : ∀ ref, s'.2.isStrategyOrder ref = true ↔
      s.2.isStrategyOrder ref = true ∨ ref = s.1.idOf ∧ b)
    (hheld : ∀ symbol < kMaxLocate, (symbol = order.symbolId →
        RiskManager.Takes order.side (s.1.riskManager.position symbol).toNat n) →
      (s'.1.riskManager.position symbol).toNat =
        if symbol = order.symbolId then
          RiskManager.taken order.side (s.1.riskManager.position symbol).toNat n
        else (s.1.riskManager.position symbol).toNat)
    (hmax : s'.1.riskManager.maxPosition = s.1.riskManager.maxPosition)
    (hfar : kMaxLocate ≤ order.symbolId → n = 0 ∧ ¬ b)
    (hfits : order.symbolId < kMaxLocate → Ledger.Fits s.limit (s.ledger order.symbolId)
      (leaves s'.2 (g (s.1.orderManager.newEntry order)) + n) order.side) : Guarded s' := by
  have hentry : (g (s.1.orderManager.newEntry order)).order =
      { order with orderId := s.1.idOf } := horder _
  have horders : ∀ id, s'.1.orderManager.order id = if id = s.1.idOf then
      some { order with orderId := s.1.idOf } else s.1.orderManager.order id := by
    intro id
    rw [hrev.order horder]
    exact s.1.registered_order order id
  -- the orders that there are keep what they have
  have hsame : ∀ id e, s.1.orderManager.orders id = some e →
      (s'.2.isStrategyOrder e.order.orderId = true ↔
        s.2.isStrategyOrder e.order.orderId = true) := by
    intro id e he
    have hid : e.order.orderId = id := h.named (congrArg (Option.map Entry.order) he)
    refine (hreg _).trans (or_iff_left fun hc => ?_)
    rw [hid] at hc
    rw [hc.1] at he
    exact absurd (he.symm.trans (h.keyed.next_none)) (Option.some_ne_none _)
  constructor
  · exact hrev.keyed (h.keyed.newOrder order)
  · intro id o ho
    rw [horders] at ho
    split at ho
    · next hid => exact (congrArg Order.orderId (Option.some.inj ho)).symm.trans hid.symm
    · exact h.named ho
  · intro ref hr
    rw [horders]
    split
    · exact Option.some_ne_none _
    · next hid => exact h.known (((hreg ref).mp hr).resolve_right fun hc => hid hc.1)
  · intro id e he hf
    rcases entry_cases hrev he with ⟨-, rfl⟩ | ⟨-, he⟩
    · rw [hentry] at hf ⊢
      obtain ⟨hzero, hb⟩ := hfar hf
      refine ⟨hfilled.trans hzero, fun hr => ?_⟩
      rcases (hreg _).mp hr with hr | ⟨-, hb'⟩
      · exact h.not_registered hr
      · exact hb hb'
    · obtain ⟨hzero, hnot⟩ := h.far id e he hf
      exact ⟨hzero, fun hr => hnot ((hsame id e he).mp hr)⟩
  · intro symbol hsymbol
    have htrades : Trades order.side order.symbolId
        (leaves s'.2 (g (s.1.orderManager.newEntry order)) + n) n s s' symbol := by
      constructor
      · exact hheld symbol hsymbol
      · intro side
        rw [OrderManager.filledOf, h.keyed.total_placed hrev, OrderManager.filledAs, hentry,
          hfilled]
        rfl
      · intro side
        have hold : s.1.orderManager.total (leavesAs s'.2 side symbol) =
            s.exposure side symbol := by
          refine OrderManager.total_congr fun id e he => ?_
          simp only [leavesAs, leaves, hsame id e he]
        rw [exposure, h.keyed.total_placed hrev, hold, leavesAs, hentry]
        show _ + (if order.side = side ∧ order.symbolId = symbol then _ else 0) + _ = _
        split <;> omega
    rw [limit, hmax]
    refine htrades.reachable (UInt64.toNat_lt _) (h.ledger symbol hsymbol) ?_
    rintro rfl
    exact hfits hsymbol

/-- What is reported of an order waited for it. -/
theorem Tallies.registered_of_fill {t : ℕ × UInt32 × UInt32} {e : Entry}
    (h : Tallies (t :: ts) sim t.1 e) (hq : t.2.2.toNat ≠ 0) :
    sim.isStrategyOrder t.1 = true ∧ e.status.live = true ∧
      e.filled.toNat + t.2.2.toNat ≤ e.sent := by
  have hgiven : givenBy t.1 (t :: ts) = t.2.2.toNat + givenBy t.1 ts := by
    rw [givenBy_cons, if_pos rfl]
  obtain ⟨hreg, hlive, hle⟩ := h.waits (by omega)
  exact ⟨hreg, hlive, by omega⟩

/-- **A trade of an order** is taken off what it may still trade. -/
theorem Tallies.leaves_fill {t : ℕ × UInt32 × UInt32} {e : Entry}
    (h : Tallies (t :: ts) sim t.1 e) (hname : e.order.orderId = t.1) (p : Int64) :
    (e.filledWith t.2.2.toUInt64 p).filled.toNat = e.filled.toNat + t.2.2.toNat ∧
      leaves sim (e.filledWith t.2.2.toUInt64 p) + t.2.2.toNat = leaves sim e := by
  have hq : t.2.2.toUInt64.toNat = t.2.2.toNat := UInt32.toNat_toUInt64 _
  have hsent := e.sent_le
  by_cases hlive : e.status.live = true
  · obtain ⟨hfilled, hstill⟩ := Entry.filledWith_of_live hlive h.fits p
    have horder := e.filledWith_order t.2.2.toUInt64 p
    rw [hq] at hfilled hstill
    refine ⟨hfilled, ?_⟩
    simp only [leaves, hfilled, hstill, hlive, horder, hname, Entry.sent, true_and] at hsent ⊢
    by_cases hzero : t.2.2.toNat = 0
    · split_ifs <;> grind
    · obtain ⟨hreg, -, hle⟩ := h.registered_of_fill hzero
      rw [Entry.sent] at hle
      simp only [hreg, and_true, if_true]
      split_ifs <;> omega
  · have hzero : t.2.2.toNat = 0 := by
      by_contra hc
      exact hlive (h.registered_of_fill hc).2.1
    rw [Entry.filledWith, if_neg hlive, hzero]
    exact ⟨rfl, rfl⟩

/-- **A trade** with an order of the strategy. -/
theorem Guarded.fill {t : ℕ × UInt32 × UInt32} {taker : ℕ} {e : Entry} (h : Guarded s)
    (he : s.1.orderManager.orders t.1 = some e) (htally : Tallies (t :: ts) s.2 t.1 e)
    (p : Int64) :
    Guarded (s.1.applyFill t.1 e.order t.2.2.toUInt64 p, s.2.countTrade taker t.1 t.2.2) := by
  have hq : t.2.2.toUInt64.toNat = t.2.2.toNat := UInt32.toNat_toUInt64 _
  have hname : e.order.orderId = t.1 := h.named (congrArg (Option.map Entry.order) he)
  obtain ⟨hfilled, hleaves⟩ := htally.leaves_fill hname p
  have hrev := s.1.orderManager.onFill_revises t.1 t.2.2.toUInt64 p
  have horder := fun e : Entry => e.filledWith_order t.2.2.toUInt64 p
  have hzero : kMaxLocate ≤ e.order.symbolId → t.2.2.toNat = 0 := by
    intro hf
    by_contra hc
    exact (h.far t.1 e he hf).2 (hname.symm ▸ (htally.registered_of_fill hc).1)
  constructor
  · exact hrev.keyed h.keyed
  · intro id o ho
    exact h.named ((hrev.order horder id).symm.trans ho)
  · intro ref hr
    exact fun hnone => h.known hr ((hrev.order horder ref).symm.trans hnone)
  · intro id e₁ he₁ hf
    rcases hrev.cases he₁ with ⟨-, e₀, he₀, rfl⟩ | ⟨-, he₁⟩
    · obtain rfl := Option.some.inj (he.symm.trans he₀)
      rw [horder] at hf ⊢
      obtain ⟨hnone, hnot⟩ := h.far t.1 e he hf
      exact ⟨by rw [hfilled, hzero hf, hnone], hnot⟩
    · exact h.far id e₁ he₁ hf
  · intro symbol hsymbol
    have htrades : Trades e.order.side e.order.symbolId 0 t.2.2.toNat s
        (s.1.applyFill t.1 e.order t.2.2.toUInt64 p, s.2.countTrade taker t.1 t.2.2) symbol := by
      constructor
      · intro htakes
        rw [← hq] at htakes ⊢
        exact s.1.toNat_position_applyFill hsymbol t.1 p (fun hf => hq.trans (hzero hf)) htakes
      · intro side
        have hnew : OrderManager.filledAs side symbol (e.filledWith t.2.2.toUInt64 p) =
            if e.order.side = side ∧ e.order.symbolId = symbol then
              e.filled.toNat + t.2.2.toNat else 0 := by
          rw [OrderManager.filledAs, horder, hfilled]
        have htotal := hrev.total_if h.keyed he rfl hnew (Nat.add_zero _)
        rwa [ite_self, Nat.add_zero] at htotal
      · intro side
        have hnew : leavesAs s.2 side symbol (e.filledWith t.2.2.toUInt64 p) =
            if e.order.side = side ∧ e.order.symbolId = symbol then
              leaves s.2 (e.filledWith t.2.2.toUInt64 p) else 0 := by
          rw [leavesAs, horder]
        exact hrev.total_if h.keyed he rfl hnew hleaves
    rw [limit, ExecutionEngine.applyFill, RiskManager.maxPosition_onFill]
    exact htrades.reachable (UInt64.toNat_lt _) (h.ledger symbol hsymbol)
      fun _ => (h.ledger symbol hsymbol).sound.fits _

/-- **An order that is turned down** before it is sent. -/
theorem Guarded.reject (h : Guarded s) (order : Order) :
    Guarded ({ s.1.registered order with
      orderManager := (s.1.registered order).orderManager.onReject s.1.idOf }, s.2) := by
  have hrejected : (s.1.orderManager.newEntry order).rejected.status = .rejected := rfl
  refine h.place (n := 0) (b := False) ((s.1.registered order).orderManager.onReject_revises _)
    Entry.rejected_order ?_ (fun ref => ?_) (fun symbol _ _ => ?_) rfl (fun _ => ⟨rfl, id⟩) ?_
  · rw [Entry.rejected_filled]
    rfl
  · rw [and_false, or_false]
  · rw [RiskManager.taken_zero, ite_self]
    rfl
  · intro hsymbol
    rw [leaves, if_neg fun hc => absurd hc.1 (by rw [hrejected]; decide)]
    exact (h.ledger _ hsymbol).sound.fits _

/-- **An order that is sent** fits. -/
theorem Guarded.submit {order : Order} {type : OrderType} {r : ExchangeSubmitResult}
    {marks : List Mark} {sim' : ExchangeSimulator} (h : Guarded s) (hj : Joined s)
    (hid : order.orderId = s.1.idOf) (hquantity : order.quantity ≠ 0)
    (hfresh : Fresh s.2.engine.resting s.1.idOf) (hok : s.Limited order type)
    (hcheck : s.1.riskManager.checkOrder order = true)
    (hcall : s.2.submit order s.1.idOf (ExecutionEngine.tifOf type) = some (r, marks, sim')) :
    Guarded (((s.1.registered order).takeMarks marks).takeResult order r, sim') := by
  obtain ⟨rsp, hanswers⟩ := answers_of_submit hj.owned.1.inv hfresh hcall
  obtain ⟨horder, hfilled, -⟩ := hanswers.entry hquantity s.1.orderManager
  have hrev := ((s.1.registered order).takeMarks marks).takeResult_revises order r
  rw [hid] at hrev
  have hposition : ∀ symbol, ((s.1.registered order).takeMarks marks).riskManager.position symbol =
      s.1.riskManager.position symbol := RiskManager.position_marks _ marks
  refine h.place (n := takerQty rsp) (b := ∃ r, .ok r ∈ rsp) hrev (fun e => e.answered_order r)
    hfilled hanswers.registered (fun symbol hsymbol htakes => ?_) ?_ hanswers.of_far
    (fun hsymbol => (hok.2 hcheck hsymbol).mono ?_)
  · rw [← hposition] at htakes ⊢
    exact ExecutionEngine.toNat_position_takeResult hsymbol _ hanswers.fills
      hanswers.takerQty_eq_zero (fun hf => (hanswers.of_far hf).1) htakes
  · rw [ExecutionEngine.maxPosition_takeResult]
    exact RiskManager.maxPosition_marks _ marks
  · -- what is not traded at once is open, if it is registered
    have hle := hanswers.takerQty_le_committed
    rw [leaves]
    split
    · next hopen =>
      have hreg := hopen.2
      rw [horder] at hreg
      rcases (hanswers.registered _).mp hreg with hreg | ⟨-, hlimit⟩
      · exact absurd hreg h.not_registered
      · rw [committed, if_pos (hanswers.limit_of_ok hlimit), hfilled, Entry.sent, horder]
        have htaker : takerQty rsp ≤ order.quantity.toUInt32.toNat := hanswers.effect.takerQty_le
        exact (Nat.sub_add_cancel htaker).le
    · rwa [Nat.zero_add]

/-- **Neither the orders nor the positions change**, and nothing is registered. -/
theorem Guarded.same (h : Guarded s) (horders : s'.1.orderManager = s.1.orderManager)
    (hreg : ∀ ref, s'.2.isStrategyOrder ref = true → s.2.isStrategyOrder ref = true)
    (hposition : ∀ symbol, s'.1.riskManager.position symbol = s.1.riskManager.position symbol)
    (hmax : s'.1.riskManager.maxPosition = s.1.riskManager.maxPosition) : Guarded s' := by
  have hrev : OrderManager.Revises s.1.orderManager s'.1.orderManager s.1.idOf fun e => e := by
    rw [horders]
    exact OrderManager.revises_none h.keyed.next_none
  exact h.release hrev (fun _ => rfl) (fun _ => rfl) (fun _ hlive => hlive) hreg hposition hmax

/-- **A cancel** of an order, whatever it comes to. -/
theorem Guarded.withdraw {id : ℕ} {e : Entry} (h : Guarded s) (hout : Withdrawn s id e s') :
    Guarded s' := by
  have hrequest := s.1.orderManager.requestCancel_revises id
  have hrequested : ∀ e : Entry, ¬ e.cancelRequested.status.live = true := by
    intro e
    rw [Entry.cancelRequested]
    split
    · exact Bool.false_ne_true
    · assumption
  cases hout with
  | taken =>
    have hcancel := hrequest.comp ((s.1.orderManager.requestCancel id).2.onCancel_revises id)
    refine h.release hcancel (fun e => ?_) (fun e => ?_) (fun e hlive => ?_) (fun ref hr => ?_)
      (fun _ => rfl) rfl
    · rw [Entry.cancelConfirmed_order, Entry.cancelRequested_order]
    · rw [Entry.cancelConfirmed_filled, Entry.cancelRequested_filled]
    · rw [Entry.cancelConfirmed] at hlive
      split at hlive
      · exact absurd hlive Bool.false_ne_true
      · exact absurd hlive (hrequested e)
    · exact decide_eq_true (Finset.mem_of_mem_erase (of_decide_eq_true hr))
  | refused =>
    exact h.release hrequest Entry.cancelRequested_order Entry.cancelRequested_filled
      (fun e hlive => absurd hlive (hrequested e)) (fun _ hr => hr) (fun _ => rfl) rfl

/-- The two tally, and the ledgers are kept, as long as the index is complete. -/
def Accounted (ts : Waiting) (s : System) : Prop :=
  Tallied ts s ∧ (s.2.engine.shared.insertDropped = false → Guarded s)

/-- **The ledgers are kept** by every step. -/
theorem steady_guarded : Steady Limited Accounted where
  congr := by
    rintro ts s s' ⟨htally, h⟩ hsame
    refine ⟨htally.congr hsame, fun hd => ?_⟩
    rw [hsame.engine] at hd
    refine (h hd).same hsame.orderManager (fun ref hr => ?_) hsame.position hsame.maxPosition
    rwa [ExchangeSimulator.isStrategyOrder, hsame.strategyRefs] at hr
  enter := by
    rintro s ev rsp e' ⟨htally, h⟩ hj hc henter
    refine ⟨htally.enter hj hc henter, fun hd => ?_⟩
    obtain ⟨c, hcmd, hexec⟩ := exec_of_enterMarket henter
    have hallowed := (ItchEvent.allowed_iff hcmd).mpr hc.1
    have hd₀ := (Exchange.keeps_of_exec hj.owned.1.inv hallowed hexec).dropped hd
    exact (h hd₀).same rfl (fun _ hr => hr) (fun _ => rfl) rfl
  other := by
    rintro t ts taker s ⟨htally, h⟩ _ htaker hnot
    exact ⟨htally.other htaker hnot, fun hd => (h hd).same rfl (fun _ hr => hr) (fun _ => rfl) rfl⟩
  fill := by
    rintro t ts taker s e ⟨htally, h⟩ _ htaker hnot he
    exact ⟨htally.fill htaker hnot he _, fun hd => (h hd).fill he (htally hd _ e he) _⟩
  gone := by
    rintro ts ref s ⟨htally, h⟩ hj hnot hnone
    refine ⟨htally.gone hj hnot hnone, fun hd => ?_⟩
    refine (h hd).same rfl (fun ref' hr => ?_) (fun _ => rfl) rfl
    exact decide_eq_true (Finset.mem_of_mem_erase (of_decide_eq_true hr))
  bare := by
    rintro ts s ⟨htally, h⟩ hj hmarket
    obtain ⟨hnil, hback⟩ := steady_tallied.bare htally hj hmarket
    exact ⟨⟨hnil, h⟩, fun s' hsince h' => ⟨hback s' hsince h'.1, h'.2⟩⟩
  withdraw := by
    rintro s s' id e ⟨htally, h⟩ hj he _ hout
    refine ⟨htally.withdraw hj he hout, fun hd => ?_⟩
    have hd₀ : s.2.engine.shared.insertDropped = false := by
      cases hout with
      | taken _ _ _ hdropped => exact hdropped hd
      | refused _ _ hdropped => exact hdropped hd
    exact (h hd₀).withdraw hout
  reject := by
    rintro s order type ⟨htally, h⟩ _ _ hfresh hok
    exact ⟨htally.reject hfresh hok.1, fun hd => (h hd).reject order⟩
  submit := by
    rintro s order type r marks sim' ⟨htally, h⟩ hj hid hquantity hfresh hok hcheck hcall
    refine ⟨htally.submit hj hid hquantity hfresh hok.1 hcall, fun hd => ?_⟩
    obtain ⟨rsp, hanswers⟩ := answers_of_submit hj.owned.1.inv hfresh hcall
    exact (h (hanswers.dropped hd)).submit hj hid hquantity hfresh hok hcheck hcall

/-- A system that has seen nothing. -/
theorem guarded_new (visits : VisitOrder) (base : ℕ) {rm : RiskManager} (hrm : rm.IsNew)
    (baseQty : UInt64) (capacity : ℕ) (view : Option ℕ)
    (sink : MarketEvent → Option Market.OrderBookConsumer → List Mark) : Guarded
      ({ orderManager := { visits := visits, nextId := base }
         riskManager := rm, baseQty := baseQty }, .new capacity view sink) where
  keyed := OrderManager.keyed_new visits base
  named := fun h => absurd h.symm (Option.some_ne_none _)
  known := fun hr => absurd (of_decide_eq_true hr) (Finset.notMem_empty _)
  far := fun _ _ he => absurd he.symm (Option.some_ne_none _)
  ledger := by
    intro symbol _
    have hposition : rm.position symbol = 0 := by
      rw [RiskManager.position, RiskManager.cell, Cells.get, hrm.1]
      rfl
    have heq : ledger ({ orderManager := { visits := visits, nextId := base }
                         riskManager := rm, baseQty := baseQty }, .new capacity view sink) symbol =
        .empty := Ledger.ext (congrArg UInt64.toNat hposition) rfl rfl rfl rfl
    rw [heq]

end Steps

/-! ### Runs -/

/-- **The limits hold** after every call of a run of undisturbed events and orders that fit
together with those that are open, as long as the index is complete: no position exceeds
`max_position_`, and no more of a symbol is sold than was bought. -/
theorem limits_hold {s : System} (h : Runs (Regular Limited) s)
    (hd : s.2.engine.shared.insertDropped = false) (symbol : ℕ) :
    s.1.riskManager.position symbol ≤ s.1.riskManager.maxPosition ∧
      s.1.orderManager.filledOf .sell symbol ≤ s.1.orderManager.filledOf .buy symbol := by
  have haccounted : Accounted [] s := steady_guarded.run
    (fun visits base rm baseQty capacity view sink hrm =>
      ⟨tallied_new visits base rm baseQty _,
        fun _ => guarded_new visits base hrm baseQty capacity view sink⟩) h
  have hguarded := haccounted.2 hd
  constructor
  · -- a symbol without a locate has the position of locate 0
    have hlocate : s.1.riskManager.position symbol =
        s.1.riskManager.position (locateIdx symbol) := by
      have hidem : locateIdx (locateIdx symbol) = locateIdx symbol :=
        locateIdx_eq (locateIdx_lt symbol)
      exact congrArg (fun l => (s.1.riskManager.cells.get l).qty) hidem.symm
    rw [hlocate]
    exact UInt64.le_iff_toNat_le.mpr (hguarded.ledger _ (locateIdx_lt symbol)).sound.held_le
  · by_cases hsymbol : symbol < kMaxLocate
    · exact (hguarded.ledger symbol hsymbol).sound.sold_le
    · have hzero : s.1.orderManager.filledOf .sell symbol = 0 := by
        rw [OrderManager.filledOf, OrderManager.total]
        refine Finset.sum_eq_zero fun id _ => ?_
        cases he : s.1.orderManager.orders id with
        | none => rfl
        | some e =>
          show OrderManager.filledAs .sell symbol e = 0
          rw [OrderManager.filledAs]
          split
          · next hc => exact (hguarded.far id e he (hc.2.symm ▸ Nat.le_of_not_lt hsymbol)).1
          · rfl
      rw [hzero]
      exact Nat.zero_le _

/-- Two bids and two offers of a hundred shares, with a limit of two hundred. -/
theorem limits_hold_two : ∃ s, playIf (regularTest Limited)
      [.submitSignal { side := .buy, price := 100, strength := 10000 } 1 .limit,
        .submitSignal { side := .buy, price := 99, strength := 10000 } 1 .limit,
        .onMarketOrder (.add 0 1 .sell 99 200),
        .submitSignal { side := .sell, price := 101, strength := 10000 } 1 .limit,
        .submitSignal { side := .sell, price := 102, strength := 10000 } 1 .limit,
        .onMarketOrder (.add 0 2 .buy 101 100)] (new 1000 { maxPosition := 200 } 8) = some s ∧
    s.1.riskManager.position 0 = 100 ∧ s.1.orderManager.filledOf .buy 0 = 200 ∧
    s.1.riskManager.position 0 ≤ s.1.riskManager.maxPosition ∧
    s.1.orderManager.filledOf .sell 0 ≤ s.1.orderManager.filledOf .buy 0 := by
  have hread : (playIf (regularTest Limited)
      [.submitSignal { side := .buy, price := 100, strength := 10000 } 1 .limit,
        .submitSignal { side := .buy, price := 99, strength := 10000 } 1 .limit,
        .onMarketOrder (.add 0 1 .sell 99 200),
        .submitSignal { side := .sell, price := 101, strength := 10000 } 1 .limit,
        .submitSignal { side := .sell, price := 102, strength := 10000 } 1 .limit,
        .onMarketOrder (.add 0 2 .buy 101 100)] (new 1000 { maxPosition := 200 } 8)).map
      (fun s => (s.2.engine.shared.insertDropped, s.1.riskManager.position 0,
        s.1.orderManager.filledOf .buy 0)) = some (false, 100, 200) := by decide +kernel
  obtain ⟨s, hrun, heq⟩ := Option.map_eq_some_iff.mp hread
  obtain ⟨hd, heq⟩ := Prod.mk.inj heq
  obtain ⟨hposition, hbought⟩ := Prod.mk.inj heq
  have hstart : Runs (Regular Limited) (new 1000 { maxPosition := 200 } 8) :=
    .start .inserted 1000 { maxPosition := 200 } 100 8 none _ ⟨rfl, rfl⟩ (by decide) (by decide)
      (by simp)
  exact ⟨s, hrun, hposition, hbought, limits_hold (hstart.playIf hrun) hd 0⟩

/-- **Open orders are not looked at**: with a limit of a hundred and fifty, two bids of a hundred
shares pass the check and are taken up, and a hundred shares of another symbol are offered twice
and sold twice. -/
theorem limits_exceeded : ∃ s, Reached s ∧ s.2.engine.shared.insertDropped = false ∧
    s.1.riskManager.maxPosition < s.1.riskManager.position 1 ∧
    s.1.orderManager.filledOf .buy 0 < s.1.orderManager.filledOf .sell 0 := by
  have hread : (play
      [.submitSignal { side := .buy, price := 100, strength := 10000 } 1 .limit,
        .onMarketOrder (.add 0 1 .sell 100 100),
        .submitSignal { side := .sell, price := 101, strength := 10000 } 1 .limit,
        .submitSignal { side := .sell, price := 102, strength := 10000 } 1 .limit,
        .onMarketOrder (.add 0 2 .buy 102 200),
        .submitSignal { side := .buy, locate := 1, price := 100, strength := 10000 } 1 .limit,
        .submitSignal { side := .buy, locate := 1, price := 99, strength := 10000 } 1 .limit,
        .onMarketOrder (.add 1 3 .sell 99 200)] (new 1000 { maxPosition := 150 } 8)).map
      (fun s => (s.2.engine.shared.insertDropped, s.1.riskManager.maxPosition,
        s.1.riskManager.position 1, s.1.orderManager.filledOf .buy 0,
        s.1.orderManager.filledOf .sell 0)) = some (false, 150, 200, 100, 200) := by decide +kernel
  obtain ⟨s, hrun, heq⟩ := Option.map_eq_some_iff.mp hread
  obtain ⟨hd, heq⟩ := Prod.mk.inj heq
  obtain ⟨hmax, heq⟩ := Prod.mk.inj heq
  obtain ⟨hposition, heq⟩ := Prod.mk.inj heq
  obtain ⟨hbought, hsold⟩ := Prod.mk.inj heq
  refine ⟨s, (reached_new 1000 ⟨rfl, rfl⟩ (by decide) (by decide)).play hrun, hd, ?_, ?_⟩
  · rw [hmax, hposition]
    decide
  · rw [hbought, hsold]
    decide

end System

end NebulaX
