import NebulaX.Sim.Signals

/-!
# The order that was booked

The quantity of an order is the base quantity times the strength of the signal, over the scale of
strengths. The product is taken in 64 bits, and the order that goes to the matching engine has 32
bits for its quantity and 32 for its price. Nothing checks that they fit. So the order manager may
book less than was meant, and the engine may get an order that was not booked.

## Main results

* `ExecutionEngine.toNat_signalQty_eq_iff` — when the quantity is exact
* `accepted_iff` — when the exchange accepts an order
* `booked_iff` — when the order that reaches the engine is the order that was booked
-/

namespace NebulaX

open Exchange (MatchingEngine Command OrderTif Fresh Effect Arrival addError eligible qtyOf tradesOf
  residual usedRefs tradeFrames)

/-! ### Widths -/

/-- Wrapping before a division shows in the quotient, if the modulus is at least the divisor. -/
theorem mod_div_eq_iff {n m d : ℕ} (hd : 0 < d) (hdm : d ≤ m) : n % m / d = n / d ↔ n < m := by
  constructor
  · intro heq
    by_contra hle
    have hwrap : n % m + m ≤ n := by
      have hsplit := Nat.mod_add_div n m
      have hone : 1 ≤ n / m := (Nat.one_le_div_iff (by omega)).mpr (Nat.not_lt.mp hle)
      have hmul : m * 1 ≤ m * (n / m) := Nat.mul_le_mul_left m hone
      omega
    have hmore : n % m / d + 1 ≤ n / d := by
      rw [← Nat.add_div_right _ hd]
      exact Nat.div_le_div_right (by omega)
    omega
  · intro hlt
    rw [Nat.mod_eq_of_lt hlt]

theorem toNat_toUInt32_eq_iff (x : UInt64) :
    x.toUInt32.toNat = x.toNat ↔ x.toNat < 2 ^ 32 := by
  rw [UInt64.toNat_toUInt32]
  constructor
  · intro h
    rw [← h]
    exact Nat.mod_lt _ (by decide)
  · exact fun h => Nat.mod_eq_of_lt h

namespace ExecutionEngine

/-- The quantity of a signal, as an exact number. -/
def exactQty (ee : ExecutionEngine) (sig : Signal) : ℕ :=
  ee.baseQty.toNat * sig.strength.toNatClampNeg / Signal.kStrengthScale.toNatClampNeg

/-- **The quantity of a signal is exact** if and only if the product fits in 64 bits. -/
theorem toNat_signalQty_eq_iff {ee : ExecutionEngine} {sig : Signal} (h : 0 ≤ sig.strength) :
    (ee.signalQty sig).toNat = ee.exactQty sig ↔
      ee.baseQty.toNat * sig.strength.toNatClampNeg < 2 ^ 64 := by
  rw [signalQty, exactQty, UInt64.toNat_div, UInt64.toNat_mul, Int64.toNat_toUInt64_of_le h]
  exact mod_div_eq_iff (by decide) (by decide)

/-- A signal that is not ignored comes to an order of the next id, the others to none. -/
theorem submitSignal_id {X : Type} {exchange : IExchangeSimulator X} {sig : Signal}
    {strategyId id : ℕ} {type : OrderType} {s s' : ExecutionEngine × X}
    (h : submitSignal (some exchange) sig strategyId type s = some (id, s')) :
    (s.1.Ignores sig type ∧ id = 0) ∨ ¬ s.1.Ignores sig type ∧ id = s.1.idOf := by
  rw [submitSignal] at h
  split_ifs at h with hside hprice hqty
  · exact Or.inl ⟨Or.inl hside, (Prod.mk.inj (Option.some.inj h)).1.symm⟩
  · exact Or.inl ⟨Or.inr (Or.inl hprice), (Prod.mk.inj (Option.some.inj h)).1.symm⟩
  · exact Or.inl ⟨Or.inr (Or.inr hqty), (Prod.mk.inj (Option.some.inj h)).1.symm⟩
  · refine Or.inr ⟨not_or.mpr ⟨hside, not_or.mpr ⟨hprice, hqty⟩⟩, ?_⟩
    rw [submitOrder] at h
    split at h
    · exact (Prod.mk.inj (Option.some.inj h)).1.symm
    · obtain ⟨⟨r, marks, x⟩, -, hrest⟩ := Option.bind_eq_some_iff.mp h
      obtain ⟨s₁, -, heq⟩ := Option.map_eq_some_iff.mp hrest
      exact (Prod.mk.inj heq).1.symm

/-- Only orders of type `LIMIT` are sent for the day. -/
theorem tifOf_eq_day {type : OrderType} : tifOf type = .day ↔ type = .limit := by
  rw [tifOf]
  split
  · next h => exact iff_of_true rfl h
  · next h => exact iff_of_false (by decide) h

/-! ### What an entry keeps -/

/-- **What an entry keeps** as it moves on, the steps of the engine keep. -/
theorem kept_entry {X : Type} (exchange : IExchangeSimulator X) (id : ℕ) {P : Entry → Prop}
    (hP : ∀ {e e' : Entry}, e.Evolves e' → P e → P e') :
    Kept exchange fun s => ∃ e, s.1.orderManager.orders id = some e ∧ P e := by
  have hrevises : ∀ {om om' : OrderManager} {id' : ℕ} {g : Entry → Entry},
      OrderManager.Revises om om' id' g → (∀ e : Entry, e.Evolves (g e)) →
      (∃ e, om.orders id = some e ∧ P e) → ∃ e, om'.orders id = some e ∧ P e := by
    rintro om om' id' g h hg ⟨e, he, hPe⟩
    by_cases hid : id = id'
    · subst hid
      exact ⟨g e, by rw [h.self, he]; rfl, hP (hg e) hPe⟩
    · exact ⟨e, by rw [h.of_ne hid, he], hPe⟩
  refine ⟨fun h => h, fun h => h, fun {ee _} f {order} _ h => ?_, fun h => h, fun {ee _} id' h =>
    hrevises (ee.orderManager.requestCancel_revises id') Entry.evolves_cancelRequested h,
    fun _ h _ => h⟩
  rw [applyReport]
  split
  · exact hrevises (ee.orderManager.onAccept_revises _ _) (Entry.evolves_accepted · _) h
  · exact hrevises (ee.orderManager.onFill_revises _ _ _) (Entry.evolves_filledWith · _ _) h
  · exact hrevises (ee.orderManager.onCancel_revises _) Entry.evolves_cancelConfirmed h
  · exact hrevises (ee.orderManager.onReject_revises _) Entry.evolves_rejected h
  · exact h

end ExecutionEngine

namespace System

/-! ### Orders that are turned down -/

/-- **The exchange turns an order down**: it fails validation, or it finds nothing to trade with
and may not rest, or finds no slot. -/
def TurnsDown (s : System) (order : Order) (type : OrderType) : Prop :=
  addError order.symbolId s.1.idOf (s.incoming order type).side order.price.toUInt64.toUInt32
      order.quantity.toUInt32 kStrategyUserId (ExecutionEngine.tifOf type) ≠ none ∨
    ((∀ x ∈ s.2.engine.resting order.symbolId (!(s.incoming order type).side.isBuy),
        eligible (s.incoming order type).side.isBuy (s.incoming order type) x = false) ∧
      (type = .limit → s.2.engine.hasRoom = false))

/-- An order that finds nothing to trade with uses up nothing. -/
theorem usedRefs_of_tradesOf {R : Exchange.Resting} {L : ℕ} {o : Exchange.OrderData}
    (h : tradesOf R L o = []) : usedRefs R L o = [] := by
  rw [usedRefs, h]
  rfl

/-- And it is not filled. -/
theorem not_filled_of_tradesOf {R : Exchange.Resting} {L : ℕ} {o : Exchange.OrderData}
    (hst : o.status = .open) (h : tradesOf R L o = []) : (residual R L o).status ≠ .filled := by
  rw [Exchange.residual, h, Exchange.afterFills, if_pos rfl, hst]
  decide

/-- **What the exchange accepts** is what it does not turn down. -/
theorem Answers.accepted_iff {s : System} {order : Order} {type : OrderType}
    {rsp : List Exchange.BinaryResponse} {r : ExchangeSubmitResult} {sim' : ExchangeSimulator}
    (h : Answers order s.1.idOf (ExecutionEngine.tifOf type) s.2 rsp r sim') :
    r.accepted = true ↔ ¬ s.TurnsDown order type := by
  have hanswer := h.accepted
  have heff := h.effect
  rw [ExchangeSimulator.submitCommand] at heff
  generalize sim'.engine.resting = R' at heff
  generalize htif : ExecutionEngine.tifOf type = tif at heff
  cases heff with
  | rejected hcode =>
    subst htif
    refine iff_of_false (fun hr => ?_) fun hnot => hnot (Or.inl ?_)
    · obtain ⟨f, hf, hacc⟩ := hanswer.mp hr
      obtain rfl := List.mem_singleton.mp hf
      exact absurd hacc Bool.false_ne_true
    · exact fun hnone => absurd (hnone.symm.trans hcode) (by simp)
  | killed =>
    rw [ExecutionEngine.tifOf] at htif
    split at htif <;> exact absurd htif (by decide)
  | added hvalid ha =>
    subst htif
    have ha : Arrival s.2.engine.resting order.symbolId (s.incoming order type) _ rsp R' := ha
    have hq : qtyOf (s.incoming order type) ≠ 0 := (Exchange.valid_of_addError hvalid).2.1
    have hturns : s.TurnsDown order type ↔
        tradesOf s.2.engine.resting order.symbolId (s.incoming order type) = [] ∧
          (type = .limit → s.2.engine.hasRoom = false) := by
      rw [TurnsDown, Exchange.tradesOf_eq_nil_iff _ _ _ hq]
      exact or_iff_right fun hne => hne hvalid
    rw [hturns, hanswer]
    cases ha with
    | filled hfilled =>
      refine iff_of_true ⟨_, List.mem_append_right _ (List.mem_singleton_self _), rfl⟩ fun hc => ?_
      exact not_filled_of_tradesOf rfl hc.1 hfilled
    | rests hopen hstays =>
      refine iff_of_true ⟨_, List.mem_append_right _ (List.mem_singleton_self _), rfl⟩ fun hc => ?_
      -- a slot was free before
      obtain ⟨htype, hslot⟩ := (Bool.and_eq_true _ _).mp hstays
      have hroom : s.2.engine.roomAfter order.symbolId (s.incoming order type) = true :=
        ((Bool.and_eq_true _ _).mp hslot).1
      rw [MatchingEngine.roomAfter, usedRefs_of_tradesOf hc.1, List.isEmpty_nil, Bool.not_true,
        Bool.or_false, hc.2 (ExecutionEngine.tifOf_eq_day.mp (of_decide_eq_true htype))] at hroom
      exact absurd hroom (by decide)
    | dropped hopen hstays tail htail =>
      by_cases hnil : tradesOf s.2.engine.resting order.symbolId (s.incoming order type) = []
      · refine iff_of_false ?_ fun hnot => hnot ⟨hnil, fun htype => ?_⟩
        · rintro ⟨f, hf, hacc⟩
          rw [tradeFrames, hnil, List.map_nil, List.nil_append] at hf
          rcases htail with rfl | ⟨code, rfl⟩
          · exact absurd hf List.not_mem_nil
          · obtain rfl := List.mem_singleton.mp hf
            exact absurd hacc Bool.false_ne_true
        · have hside : (if order.side = .buy then Exchange.Side.buy else .sell) ≠ .invalid := by
            split <;> exact Exchange.Side.noConfusion
          rw [decide_eq_true (ExecutionEngine.tifOf_eq_day.mpr htype), Bool.true_and,
            decide_eq_true hside, Bool.and_true] at hstays
          have hroom : s.2.engine.roomAfter order.symbolId (s.incoming order type) = false := hstays
          rw [MatchingEngine.roomAfter, Bool.or_eq_false_iff] at hroom
          exact hroom.1
      · obtain ⟨p, ps, hps⟩ := List.exists_cons_of_ne_nil hnil
        refine iff_of_true ⟨_, List.mem_append_left _ (List.mem_map_of_mem (hps ▸
          List.mem_cons_self)), rfl⟩ fun hc => hnil hc.1

/-- What is not accepted leaves no order and no trade. -/
theorem Answers.of_not_accepted {order : Order} {id : ℕ} {tif : OrderTif}
    {sim sim' : ExchangeSimulator} {rsp : List Exchange.BinaryResponse} {r : ExchangeSubmitResult}
    (h : Answers order id tif sim rsp r sim') (hfresh : Fresh sim.engine.resting id)
    (hr : ¬ r.accepted = true) : sim'.tape = sim.tape ∧ Fresh sim'.engine.resting id := by
  rw [h.accepted] at hr
  constructor
  · have hnone : ExchangeSimulator.tradesIn rsp = [] := by
      rw [ExchangeSimulator.tradesIn, List.filterMap_eq_nil_iff]
      intro f hf
      cases f with
      | trade => exact absurd ⟨_, hf, rfl⟩ hr
      | ok | filled | cancelled | error => rfl
    rw [h.tape, hnone, List.map_nil, List.append_nil]
  · intro L b y hy hid
    have heff := h.effect
    rw [ExchangeSimulator.submitCommand] at heff
    exact hr ⟨_, (heff.entered hfresh hy hid).1, rfl⟩

/-! ### After the submit -/

/-- An order is not pending any more, and was not rejected. -/
def Settled (e : Entry) : Prop := e.status ≠ .pending ∧ e.status ≠ .rejected

/-- Then it never is. -/
theorem Settled.evolves {e e' : Entry} (h : e.Evolves e') (hs : Settled e) : Settled e' := by
  rcases h.moves with rfl | hmoves
  · exact hs
  · generalize hbefore : e.status = before at hmoves
    generalize hafter : e'.status = after at hmoves
    rw [Settled, hbefore] at hs
    rw [Settled, hafter]
    cases hmoves with
    | accept => exact absurd rfl hs.1
    | reject => exact absurd rfl hs.1
    | fillPart | fillAll | request | cancel => decide

/-- **An order that was accepted** is not rejected. -/
theorem settled_answered {om : OrderManager} {order : Order} {r : ExchangeSubmitResult}
    (hr : r.accepted = true) : Settled ((om.newEntry order).answered r) := by
  have hfills : ∀ (fs : List Fill) (e : Entry), Settled e →
      Settled (fs.foldl (fun e f => e.filledWith f.filledQty f.fillPrice) e) := by
    intro fs
    induction fs with
    | nil => exact fun _ h => h
    | cons f fs ih => exact fun e h => ih _ (h.evolves (e.evolves_filledWith _ _))
  rw [Entry.answered, if_pos hr]
  refine hfills r.fills _ ?_
  have haccepted : ((om.newEntry order).accepted 0).status = .submitted := rfl
  rw [Settled, haccepted]
  decide

/-- **The book** after a submit: a flatten cancels orders, and makes no trade. -/
theorem kept_quiet (sim₀ : ExchangeSimulator) (tape : List Trade) (id : ℕ) :
    ExecutionEngine.Kept ExchangeSimulator.interface fun s =>
      Follows sim₀ s ∧ s.2.tape = tape ∧ Fresh s.2.engine.resting id where
  lock := fun h => ⟨(kept_follows sim₀).lock h.1, h.2⟩
  unlock := fun h => ⟨(kept_follows sim₀).unlock h.1, h.2⟩
  report := by
    intro ee sim f order horder h
    exact ⟨(kept_follows sim₀).report f horder h.1, h.2⟩
  issue := fun h => ⟨(kept_follows sim₀).issue h.1, h.2⟩
  request := fun id h => ⟨(kept_follows sim₀).request id h.1, h.2⟩
  cancel := by
    intro ee sim sim' id' order reports horder h hcall
    refine ⟨(kept_follows sim₀).cancel horder h.1 hcall, ?_⟩
    have hcancel : sim.cancel id' order.symbolId kStrategyUserId = some (reports, sim') := hcall
    obtain ⟨htape, hfresh⟩ := h.2
    obtain ⟨e', -, ⟨b, x, -, -, -, hrest, -, rfl⟩ | ⟨-, hrest, -, rfl⟩⟩ :=
      ExchangeSimulator.cancel_cases h.1.2.owned.1.inv (h.1.2.routed horder) hcancel
    · refine ⟨htape, fun L b' y hy => ?_⟩
      have hy : y ∈ e'.resting L b' := hy
      rw [hrest] at hy
      exact hfresh L b' y (Exchange.mem_leave hy)
    · refine ⟨htape, fun L b' y hy => ?_⟩
      have hy : y ∈ e'.resting L b' := hy
      rw [hrest] at hy
      exact hfresh L b' y hy

/-! ### The order that was booked -/

/-- **The engine gets the order**: with its quantity, and an order of type `LIMIT` with its
price. -/
def Delivered (s : System) (sig : Signal) (strategyId : ℕ) (type : OrderType) : Prop :=
  s.1.Sends sig strategyId type ∧ ∃ L ref side price quantity user tif,
    s.1.commandFor sig strategyId type = .add L ref side price quantity user tif ∧
      quantity.toNat = (s.1.signalQty sig).toNat ∧
      (type = .limit → (price.toNat : ℤ) = sig.price.toInt)

/-- **The order ends rejected**: nothing of it was filled, there was no trade, and no order rests
under its id. -/
structure Refused (s s' : System) (id : ℕ) : Prop where
  /-- It is rejected, and nothing was filled. -/
  rejected : ∃ e, s'.1.orderManager.orders id = some e ∧ e.status = .rejected ∧ e.filled = 0
  /-- There was no trade. -/
  tape : s'.2.tape = s.2.tape
  /-- It does not rest. -/
  fresh : Fresh s'.2.engine.resting id

/-- **The order that reaches the engine is the order that was booked**, with the exact quantity of
the signal. -/
def AsBooked (s : System) (sig : Signal) (strategyId : ℕ) (type : OrderType) (id : ℕ)
    (s' : System) : Prop :=
  (∃ e, s'.1.orderManager.orders id = some e ∧ e.order.quantity.toNat = s.1.exactQty sig) ∧
    (s.Delivered sig strategyId type ∨ s.Refused s' id)

/-- The order fits in the 32 bits of the engine. -/
def Fits (s : System) (sig : Signal) (type : OrderType) : Prop :=
  (s.1.signalQty sig).toNat < 2 ^ 32 ∧ (type = .limit → sig.price.toInt < 2 ^ 32)

/-- **An order is delivered** if it passes the check and fits. -/
theorem delivered_iff_fits {s : System} {sig : Signal} {strategyId : ℕ} {type : OrderType}
    (hnot : ¬ s.1.Ignores sig type) : s.Delivered sig strategyId type ↔
      s.1.riskManager.checkOrder (s.1.orderFor sig strategyId type) = true ∧ s.Fits sig type := by
  have hprice : 0 ≤ sig.price := by
    by_contra hneg
    exact hnot (Or.inl (Or.inr (Int64.not_le.mp hneg)))
  have hint : sig.price.toInt = (sig.price.toUInt64.toNat : ℤ) := by
    rw [Int64.toNat_toUInt64_of_le hprice]
    exact (Int.toNat_of_nonneg (Int64.le_iff_toInt_le.mp hprice)).symm
  have hqty := toNat_toUInt32_eq_iff (s.1.signalQty sig)
  have hlimit : ((sig.price.toUInt64.toUInt32.toNat : ℤ) = sig.price.toInt) ↔
      sig.price.toInt < 2 ^ 32 := by
    have hiff := toNat_toUInt32_eq_iff sig.price.toUInt64
    rw [hint]
    omega
  constructor
  · rintro ⟨hsends, L, ref, side, price, quantity, user, tif, hcommand, hquantity, hpriced⟩
    injection hcommand with _ _ _ hp hq
    subst hp hq
    exact ⟨hsends.2, hqty.mp hquantity, fun htype => hlimit.mp (hpriced htype)⟩
  · rintro ⟨hcheck, hfits, hpriced⟩
    exact ⟨⟨hnot, hcheck⟩, _, _, _, _, _, _, _, rfl, hqty.mpr hfits,
      fun htype => hlimit.mpr (hpriced htype)⟩

/-! ### How the order ends -/

section Ends

variable {s s₁ : System} {order : Order} {type : OrderType} {r : ExchangeSubmitResult}
  {marks : List Mark} {sim' : ExchangeSimulator}

/-- **An order that fails the check** is rejected, and the exchange does not hear of it. -/
theorem refused_of_check (hfresh : Fresh s.2.engine.resting s.1.idOf) :
    s.Refused ({ s.1.registered order with
      orderManager := (s.1.registered order).orderManager.onReject s.1.idOf }.unlock, s.2)
      s.1.idOf := by
  have hself := ((s.1.registered order).orderManager.onReject_revises s.1.idOf).self
  have hentry : (s.1.registered order).orderManager.orders s.1.idOf =
      some (s.1.orderManager.newEntry order) := Function.update_self ..
  rw [hentry] at hself
  exact ⟨⟨_, hself, rfl, rfl⟩, rfl, hfresh⟩

/-- The entry of the order, when the exchange has answered. -/
theorem answered_entry (hid : order.orderId = s.1.idOf) :
    (((s.1.registered order).takeMarks marks).takeResult order r).orderManager.orders s.1.idOf =
      some ((s.1.orderManager.newEntry order).answered r) := by
  have hentry : ((s.1.registered order).takeMarks marks).orderManager.orders s.1.idOf =
      some (s.1.orderManager.newEntry order) := Function.update_self ..
  have hself := (((s.1.registered order).takeMarks marks).takeResult_revises order r).self
  rw [hid, hentry] at hself
  exact hself

/-- **An order that was accepted** is settled: the flatten that may follow does not reject it. -/
theorem settled_of_accepted (hid : order.orderId = s.1.idOf) (hr : r.accepted = true)
    (hflat : ExecutionEngine.flattenOnDrawdown exchange
      (((s.1.registered order).takeMarks marks).takeResult order r, sim') = some s₁) :
    ∃ e, s₁.1.orderManager.orders s.1.idOf = some e ∧ Settled e :=
  (ExecutionEngine.kept_entry ExchangeSimulator.interface s.1.idOf
    fun hev => Settled.evolves hev).flattenOnDrawdown
    ⟨_, answered_entry hid, settled_answered hr⟩ hflat

/-- **An order that was not accepted** is refused: the flatten that may follow leaves it so. -/
theorem refused_of_not_accepted {rsp : List Exchange.BinaryResponse} (h : Joined s)
    (hid : order.orderId = s.1.idOf) (hfresh : Fresh s.2.engine.resting s.1.idOf)
    (hsubmit : s.2.submit order s.1.idOf (ExecutionEngine.tifOf type) = some (r, marks, sim'))
    (hanswers : Answers order s.1.idOf (ExecutionEngine.tifOf type) s.2 rsp r sim')
    (hr : ¬ r.accepted = true)
    (hflat : ExecutionEngine.flattenOnDrawdown exchange
      (((s.1.registered order).takeMarks marks).takeResult order r, sim') = some s₁) :
    s.Refused (s₁.1.unlock, s₁.2) s.1.idOf := by
  -- the entry is final, so it does not move
  have hrejected : (s.1.orderManager.newEntry order).answered r =
      (s.1.orderManager.newEntry order).rejected := if_neg hr
  obtain ⟨e, he, hstatus, hzero⟩ :=
    (ExecutionEngine.kept_entry ExchangeSimulator.interface s.1.idOf
      (P := fun e => e.status = .rejected ∧ e.filled = 0)
      fun hev hP => by
        rw [hev.of_isFinal (by rw [hP.1]; rfl)]
        exact hP).flattenOnDrawdown
      ⟨_, answered_entry hid, by rw [hrejected]; rfl, by rw [hrejected]; rfl⟩ hflat
  -- and a flatten makes no trade
  obtain ⟨htalk, hafter⟩ := h.submit hfresh hsubmit
  obtain ⟨hout, hgone⟩ := hanswers.of_not_accepted hfresh hr
  have hkept := ((s.1.registered order).takeMarks marks).takeResult_orders order r
  obtain ⟨-, hout', hgone'⟩ := (kept_quiet s.2 s.2.tape s.1.idOf).flattenOnDrawdown
    ⟨⟨htalk, hafter.congr hkept.1 hkept.2⟩, hout, hgone⟩ hflat
  exact ⟨⟨e, he, hstatus, hzero⟩, hout', hgone'⟩

end Ends

/-- **How an order ends** that a signal comes to: it is refused, by the check or by the exchange,
or it is settled. -/
theorem ends_cases {s s' : System} (h : Reached s) {sig : Signal} {strategyId id : ℕ}
    {type : OrderType} (hc : s.Allowed (.submitSignal sig strategyId type))
    (hcall : ExecutionEngine.submitSignal exchange sig strategyId type s = some (id, s'))
    (hnot : ¬ s.1.Ignores sig type) :
    ((s.1.riskManager.checkOrder (s.1.orderFor sig strategyId type) = false ∨
        s.TurnsDown (s.1.orderFor sig strategyId type) type) ∧ s.Refused s' s.1.idOf) ∨
      (s.1.riskManager.checkOrder (s.1.orderFor sig strategyId type) = true ∧
        ¬ s.TurnsDown (s.1.orderFor sig strategyId type) type) ∧
        ∃ e, s'.1.orderManager.orders s.1.idOf = some e ∧ Settled e := by
  have hfresh : Fresh s.2.engine.resting s.1.idOf := hc
  rcases ExecutionEngine.submitSignal_cases hcall with ⟨hignored, -⟩ | ⟨-, ⟨hcheck, rfl⟩ |
    ⟨hcheck, r, marks, sim', s₁, hsubmit, hflat, rfl⟩⟩
  · exact absurd hignored hnot
  · exact Or.inl ⟨Or.inl hcheck, refused_of_check hfresh⟩
  · obtain ⟨rsp, hanswers⟩ := answers_of_submit h.joined.owned.1.inv hfresh hsubmit
    have haccepted := hanswers.accepted_iff
    by_cases hr : r.accepted = true
    · obtain ⟨e, he, hsettled⟩ := settled_of_accepted rfl hr hflat
      exact Or.inr ⟨⟨hcheck, haccepted.mp hr⟩, e, he, hsettled⟩
    · exact Or.inl ⟨Or.inr (by_contra fun hdown => hr (haccepted.mpr hdown)),
        refused_of_not_accepted h.joined rfl hfresh hsubmit hanswers hr hflat⟩

/-- **The entry** has the quantity of the signal, however the order ends. -/
theorem entry_quantity {s s' : System} {sig : Signal} {strategyId id : ℕ} {type : OrderType}
    (hcall : ExecutionEngine.submitSignal exchange sig strategyId type s = some (id, s'))
    (hnot : ¬ s.1.Ignores sig type) :
    ∃ e, s'.1.orderManager.orders s.1.idOf = some e ∧ e.order.quantity = s.1.signalQty sig := by
  rcases ExecutionEngine.submitSignal_cases hcall with ⟨hignored, -⟩ | ⟨-, ⟨-, rfl⟩ |
    ⟨-, r, marks, sim', s₁, -, hflat, rfl⟩⟩
  · exact absurd hignored hnot
  · have hself := ((s.1.registered (s.1.orderFor sig strategyId type)).orderManager.onReject_revises
      s.1.idOf).self
    exact ⟨_, hself.trans (congrArg _ (Function.update_self ..)), rfl⟩
  · have hanswered : ((s.1.orderManager.newEntry (s.1.orderFor sig strategyId type)).answered
        r).order.quantity = s.1.signalQty sig := by
      rw [Entry.answered_order]
      rfl
    obtain ⟨e, he, hquantity⟩ :=
      (ExecutionEngine.kept_entry ExchangeSimulator.interface s.1.idOf
        (P := fun e => e.order.quantity = s.1.signalQty sig)
        fun hev hP => (congrArg Order.quantity hev.order).trans hP).flattenOnDrawdown
        ⟨_, answered_entry rfl, hanswered⟩ hflat
    exact ⟨e, he, hquantity⟩

/-- **When the order that reaches the engine is the order that was booked:** a signal in a run of
the system, with a strength that is not negative, that comes to an order. The quantity is exact if
and only if the product fits in 64 bits; and the engine gets what was booked, or the order ends
rejected, if and only if the check fails, or the order fits in 32 bits, or the exchange turns
down what is left of it. -/
theorem booked_iff {s s' : System} (h : Reached s) {sig : Signal} {strategyId id : ℕ}
    {type : OrderType} (hstrength : 0 ≤ sig.strength)
    (hc : s.Allowed (.submitSignal sig strategyId type))
    (hcall : ExecutionEngine.submitSignal exchange sig strategyId type s = some (id, s'))
    (hid : id ≠ 0) : s.AsBooked sig strategyId type id s' ↔
      s.1.baseQty.toNat * sig.strength.toNatClampNeg < 2 ^ 64 ∧
        (s.1.riskManager.checkOrder (s.1.orderFor sig strategyId type) = false ∨
          s.Fits sig type ∨ s.TurnsDown (s.1.orderFor sig strategyId type) type) := by
  have hfresh : Fresh s.2.engine.resting s.1.idOf := hc
  obtain ⟨-, hzero⟩ | ⟨hnot, rfl⟩ := ExecutionEngine.submitSignal_id hcall
  · exact absurd hzero hid
  obtain ⟨e, he, hquantity⟩ := entry_quantity hcall hnot
  -- the first part is about the quantity of the entry
  have hexact : (∃ e, s'.1.orderManager.orders s.1.idOf = some e ∧
      e.order.quantity.toNat = s.1.exactQty sig) ↔
        s.1.baseQty.toNat * sig.strength.toNatClampNeg < 2 ^ 64 := by
    rw [← ExecutionEngine.toNat_signalQty_eq_iff hstrength, ← hquantity]
    constructor
    · rintro ⟨e', he', heq⟩
      obtain rfl := Option.some.inj (he.symm.trans he')
      exact heq
    · exact fun heq => ⟨e, he, heq⟩
  -- the second is about how the order ends
  rw [AsBooked, hexact, delivered_iff_fits hnot]
  refine and_congr_right fun _ => ?_
  rcases ends_cases h hc hcall hnot with ⟨hdown, hrefused⟩ | ⟨⟨hcheck, hup⟩, e', he', hsettled⟩
  · refine iff_of_true (Or.inr hrefused) ?_
    exact hdown.imp_right Or.inr
  · have hnotRefused : ¬ s.Refused s' s.1.idOf := by
      rintro ⟨⟨e'', he'', hrejected, -⟩, -, -⟩
      obtain rfl := Option.some.inj (he'.symm.trans he'')
      exact hsettled.2 hrejected
    have hcheck' : ¬ s.1.riskManager.checkOrder (s.1.orderFor sig strategyId type) = false := by
      rw [hcheck]
      decide
    rw [or_iff_left hnotRefused, or_iff_right hcheck', or_iff_left hup]
    exact and_iff_right hcheck

instance (s : System) (sig : Signal) (type : OrderType) : Decidable (s.Fits sig type) :=
  inferInstanceAs (Decidable (_ ∧ (_ → _)))

/-- A bid for 100 at 100. -/
theorem booked_iff_bid : ∃ s', ExecutionEngine.submitSignal exchange
      { side := .buy, price := 100, strength := 10000 } 1 .limit (new 1000 {} 4) =
        some (1000, s') ∧
    (new 1000 {} 4).AsBooked { side := .buy, price := 100, strength := 10000 } 1 .limit 1000
      s' := by
  have hread : (ExecutionEngine.submitSignal exchange
      { side := .buy, price := 100, strength := 10000 } 1 .limit (new 1000 {} 4)).map Prod.fst =
        some 1000 := by decide +kernel
  obtain ⟨⟨id, s'⟩, hcall, rfl⟩ := Option.map_eq_some_iff.mp hread
  have h : Reached (new 1000 {} 4) := reached_new 1000 ⟨rfl, rfl⟩ (by decide) (by decide)
  have hc : (new 1000 {} 4).Allowed
      (.submitSignal { side := .buy, price := 100, strength := 10000 } 1 .limit) :=
    h.joined.allowed_of_test (by decide +kernel)
  exact ⟨s', hcall, (booked_iff h (by decide) hc hcall (by decide)).mpr
    ⟨by decide, Or.inr (Or.inl (by decide))⟩⟩

/-- Bids at a price of `2 ^ 32 + 100`: the engine gets one at 100, and it rests there. A base
quantity of `1844674407370957` and a signal of full strength: the order manager books one for 1. -/
theorem booked_truncated : (∃ s', ExecutionEngine.submitSignal exchange
      { side := .buy, price := 4294967396, strength := 10000 } 1 .limit (new 1000 {} 4) =
        some (1000, s') ∧
      Reached (new 1000 {} 4) ∧
      (s'.2.engine.resting 0 true).map (fun x => (x.orderId, x.price, x.remainingQty)) =
        [(1000, 100, 100)] ∧
      ¬ (new 1000 {} 4).AsBooked { side := .buy, price := 4294967396, strength := 10000 } 1 .limit
        1000 s') ∧
    ∃ (s₀ : System) (s' : System), s₀ = ({ orderManager := { nextId := 1000 }
                                           baseQty := 1844674407370957 },
        .new 4 none fun _ _ => []) ∧ Reached s₀ ∧
      ExecutionEngine.submitSignal exchange { side := .buy, price := 100, strength := 10000 } 1
        .limit s₀ = some (1000, s') ∧
      (s'.1.orderManager.order 1000).map Order.quantity = some 1 ∧
      ¬ s₀.AsBooked { side := .buy, price := 100, strength := 10000 } 1 .limit 1000 s' := by
  constructor
  · have hread : (ExecutionEngine.submitSignal exchange
        { side := .buy, price := 4294967396, strength := 10000 } 1 .limit (new 1000 {} 4)).map
          (fun r => (r.1, (r.2.1.orderManager.orders 1000).map Entry.status,
            (r.2.2.engine.resting 0 true).map fun x => (x.orderId, x.price, x.remainingQty))) =
        some (1000, some .submitted, [(1000, 100, 100)]) := by decide +kernel
    obtain ⟨⟨id, s'⟩, hcall, heq⟩ := Option.map_eq_some_iff.mp hread
    obtain ⟨rfl, heq⟩ := Prod.mk.inj heq
    obtain ⟨hstatus, hrests⟩ := Prod.mk.inj heq
    refine ⟨s', hcall, reached_new 1000 ⟨rfl, rfl⟩ (by decide) (by decide), hrests, ?_⟩
    rintro ⟨-, hdelivered | hrefused⟩
    · exact absurd ((delivered_iff_fits hdelivered.1.1).mp hdelivered).2 (by decide)
    · obtain ⟨e, he, hrejected, -⟩ := hrefused.rejected
      rw [he, Option.map_some, hrejected] at hstatus
      exact absurd hstatus (by decide)
  · have hread : (ExecutionEngine.submitSignal exchange
        { side := .buy, price := 100, strength := 10000 } 1 .limit
        (({ orderManager := { nextId := 1000 }, baseQty := 1844674407370957 },
          .new 4 none fun _ _ => []) : System)).map
          (fun r => (r.1, (r.2.1.orderManager.order 1000).map Order.quantity)) =
        some (1000, some 1) := by decide +kernel
    obtain ⟨⟨id, s'⟩, hcall, heq⟩ := Option.map_eq_some_iff.mp hread
    obtain ⟨rfl, hquantity⟩ := Prod.mk.inj heq
    refine ⟨_, s', rfl, .start .inserted 1000 {} 1844674407370957 4 none _ ⟨rfl, rfl⟩ (by decide)
      (by decide) (by simp), hcall, hquantity, ?_⟩
    rintro ⟨⟨e, he, hexact⟩, -⟩
    rw [OrderManager.order, he, Option.map_some, Option.map_some] at hquantity
    rw [Option.some.inj hquantity] at hexact
    exact absurd hexact (by decide)

end System

end NebulaX
