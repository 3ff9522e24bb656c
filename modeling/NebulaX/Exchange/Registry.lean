import NebulaX.Exchange.Bystanders
import NebulaX.Exchange.Findable
import NebulaX.Exchange.Ownership

/-!
# The registry of strategy orders

`strategy_refs_` decides whether a trade is reported to the execution engine or broadcast. A
reference is put on it when the order hangs in the book, and taken off when a cancel is answered or
when the order is gone after a trade. One event of the market may use up several orders of the
strategy. Their trades are gone through one after the other, and in between the execution engine
may place and cancel orders; until its trade comes up, an order that is gone is still registered.

## Main results

* `Effect.entered` — what rests of the order that an add brings in
* `Reached.strategyOwned` — the orders of the strategy have its user and something left
* `Registered.routeTrades` — the loop over the trades
* `Reached.registry` — between two calls the registry is exact
-/

namespace NebulaX.Exchange

open MatchingEngine

/-- **The order that an add brings in**, if it rests after it: it was answered with `RSP_OK`, and
what it did not trade is left of it. -/
theorem Effect.entered {e : MatchingEngine} {L ref : ℕ} {side : Side} {price quantity : UInt32}
    {user : ℕ} {tif : OrderTif} {rsp : List BinaryResponse} {R' : Resting}
    (heff : Effect e (.add L ref side price quantity user tif) rsp R')
    (hfresh : Fresh e.resting ref) {L' : ℕ} {b : Bool} {y : OrderData} (hy : y ∈ R' L' b)
    (hid : y.orderId = ref) : .ok ref ∈ rsp ∧ (L' = L ∧ b = side.isBuy) ∧ y.userId = user ∧
      0 < qtyOf y ∧ qtyOf y + takerQty rsp = quantity.toNat := by
  cases heff with
  | rejected => exact absurd hid (hfresh L' b y hy)
  | killed => exact absurd hid (hfresh L' b y hy)
  | added hvalid ha =>
    have htaker := ha.takerQty_eq
    cases ha with
    | filled => exact absurd hid (hfresh.afterMatch _ _ L' b y hy)
    | dropped => exact absurd hid (hfresh.afterMatch _ _ L' b y hy)
    | rests hopen =>
      rcases mem_enter.mp hy with ⟨rfl, hb, rfl⟩ | hy
      · have hq := valid_of_addError hvalid
        have hle : filledQtyOf (tradesOf e.resting L' (e.newOrder ref side
            (effectivePrice side tif price) quantity user)) ≤ quantity.toNat := by
          rw [tradesOf, filledQtyOf_fills]
          exact Nat.min_le_left _ _
        refine ⟨by simp [newOrder], ⟨rfl, ?_⟩, afterFills_userId .., ?_, ?_⟩
        · rw [hb, residual, afterFills_side]
          rfl
        · exact qtyOf_residual_pos (Nat.pos_of_ne_zero hq.2.1) hopen
        · rw [htaker, residual, qtyOf_afterFills]
          exact Nat.sub_add_cancel hle
      · exact absurd hid (hfresh.afterMatch _ _ L' b y hy)

/-- An add does not trade more than it asks for. -/
theorem Effect.takerQty_le {e : MatchingEngine} {L ref : ℕ} {side : Side} {price quantity : UInt32}
    {user : ℕ} {tif : OrderTif} {rsp : List BinaryResponse} {R' : Resting}
    (heff : Effect e (.add L ref side price quantity user tif) rsp R') :
    takerQty rsp ≤ quantity.toNat := by
  cases heff with
  | rejected => exact Nat.zero_le _
  | killed => exact Nat.zero_le _
  | added _ ha =>
    rw [ha.takerQty_eq, tradesOf, filledQtyOf_fills]
    exact Nat.min_le_left _ _

/-- An answer `RSP_OK` to an add names its reference. -/
theorem Effect.ok_ref {e : MatchingEngine} {L ref : ℕ} {side : Side} {price quantity : UInt32}
    {user : ℕ} {tif : OrderTif} {rsp : List BinaryResponse} {R' : Resting}
    (heff : Effect e (.add L ref side price quantity user tif) rsp R') {r : ℕ}
    (hok : .ok r ∈ rsp) : r = ref := by
  cases heff with
  | rejected => exact absurd hok (by simp)
  | killed => exact absurd hok (by simp)
  | added _ ha => exact (ha.mem_of_ok hok).2.1

/-- Only an order that may rest is answered like that. -/
theorem Effect.day_of_ok {e : MatchingEngine} {L ref : ℕ} {side : Side} {price quantity : UInt32}
    {user : ℕ} {tif : OrderTif} {rsp : List BinaryResponse} {R' : Resting}
    (heff : Effect e (.add L ref side price quantity user tif) rsp R') {r : ℕ}
    (hok : .ok r ∈ rsp) : tif = .day := by
  cases heff with
  | rejected => exact absurd hok (by simp)
  | killed => exact absurd hok (by simp)
  | added _ ha =>
    obtain ⟨hday, -⟩ := (Bool.and_eq_true _ _).mp (ha.mem_of_ok hok).2.2
    exact of_decide_eq_true hday

/-- **An order of a symbol without a book** is answered with an error alone. -/
theorem Effect.of_far {e : MatchingEngine} {L ref : ℕ} {side : Side} {price quantity : UInt32}
    {user : ℕ} {rsp : List BinaryResponse} {R' : Resting} {tif : OrderTif}
    (heff : Effect e (.add L ref side price quantity user tif) rsp R') (htif : tif ≠ .fok)
    (hL : kMaxLocate ≤ L) : ∃ code, rsp = [.error code] := by
  cases heff with
  | rejected => exact ⟨_, rfl⟩
  | killed => exact absurd rfl htif
  | added hvalid =>
    rw [addError, if_neg (Nat.not_lt.mpr hL)] at hvalid
    exact absurd hvalid (Option.some_ne_none _)

/-- An add does not trade with the orders of its own user. -/
theorem Effect.own_untouched {e : MatchingEngine} {L ref : ℕ} {side : Side}
    {price quantity : UInt32} {user : ℕ} {tif : OrderTif} {rsp : List BinaryResponse}
    {R' : Resting} (heff : Effect e (.add L ref side price quantity user tif) rsp R')
    (hinv : Inv e) (hne : user ≠ 0) {L' : ℕ} {b : Bool} {x : OrderData}
    (hx : x ∈ e.resting L' b) (huser : x.userId = user) : makerQty x.orderId rsp = 0 := by
  cases heff with
  | rejected => rfl
  | killed => rfl
  | added _ ha =>
    rw [ha.makerQty_eq, makerQty_tradeFrames, Allocation.given, List.filter_eq_nil_iff.mpr]
    · rfl
    · intro p hp hid
      obtain ⟨hmem, helig⟩ := mem_of_mem_tradesOf hp
      obtain ⟨-, -, rfl⟩ := hinv.refsUnique.unique hmem hx (of_decide_eq_true hid)
      have hother := ((Bool.and_eq_true _ _).mp helig).1
      rcases of_decide_eq_true hother with hzero | hother
      · exact hne hzero
      · exact hother huser

/-- What the index finds rests. -/
theorem rests_of_found {e : MatchingEngine} (h : Inv e) {ref i : ℕ}
    (hf : e.findOrder ref = some (some i)) : Rests e.resting ref := by
  obtain ⟨G, fl, h⟩ := h
  rcases h.holds.find ref with hnone | ⟨j, -, hlive, hid⟩
  · exact absurd (hf.symm.trans hnone) (by simp)
  · obtain ⟨L, b, p, hj⟩ := hlive
    obtain rfl := h.price L b p j hj
    exact ⟨L, b, _, h.mem_resting.mpr ⟨j, hj, rfl⟩, hid⟩

end NebulaX.Exchange

namespace NebulaX

open Exchange (MatchingEngine BinaryResponse OrderData OrderTif Command Effect Inv Fresh Rests
  CutBy makerQty qtyOf effect_of_exec exec_effect)

/-! ### Orders of the strategy and orders of the market -/

/-- The references that an event names. -/
def ItchEvent.refs : ItchEvent → List ℕ
  | .add _ ref _ _ _ => [ref]
  | .delete _ ref => [ref]
  | .cancel _ ref _ => [ref]
  | .replace _ ref newRef _ _ => [ref, newRef]
  | .book _ => []

/-- The contract about references, with references of the market that were not submitted. -/
def Contract.apart : Contract where
  market := fun ev sim => ev.Allowed sim.engine.resting ∧ ∀ ref ∈ ev.refs, ref ∉ sim.submitted
  strategy := Contract.refs.strategy

/-- The call that an event makes names no other references. -/
theorem ItchEvent.not_named {e : MatchingEngine} {ev : ItchEvent} {c : Command}
    (hc : ev.command e = some c) {ref : ℕ} (href : ref ∉ ev.refs) :
    c.newRef ≠ some ref ∧ c.target ≠ some ref := by
  cases ev with
  | add =>
    obtain rfl := Option.some.inj hc
    exact ⟨fun h => href (by simp [refs, Option.some.inj h]), (Option.some_ne_none _).symm⟩
  | delete =>
    obtain rfl := Option.some.inj hc
    exact ⟨(Option.some_ne_none _).symm, fun h => href (by simp [refs, Option.some.inj h])⟩
  | cancel =>
    obtain rfl := Option.some.inj hc
    exact ⟨(Option.some_ne_none _).symm, fun h => href (by simp [refs, Option.some.inj h])⟩
  | replace =>
    obtain rfl := Option.some.inj hc
    exact ⟨fun h => href (by simp [refs, Option.some.inj h]),
      fun h => href (by simp [refs, Option.some.inj h])⟩
  | book => exact absurd hc (by simp [ItchEvent.command])

/-- An event that makes a call names the order that may come in. -/
theorem ItchEvent.takerRef_mem {e : MatchingEngine} {ev : ItchEvent} {c : Command}
    (hc : ev.command e = some c) : ExchangeSimulator.takerRef ev ∈ ev.refs := by
  cases ev with
  | book => exact absurd hc (by simp [ItchEvent.command])
  | _ => simp [refs, ExchangeSimulator.takerRef]

/-- The resting orders of the strategy have its user and something left. -/
def StrategyOwned (sim : ExchangeSimulator) : Prop :=
  Exchange.Reachable sim.engine ∧ ∀ L b, ∀ x ∈ sim.engine.resting L b, x.orderId ∈ sim.submitted →
    0 < qtyOf x ∧ x.userId = kStrategyUserId

theorem stable_strategyOwned : Stable Contract.apart StrategyOwned StrategyOwned where
  idle := id
  market := by
    rintro ev sim sim' rsp e' marks ⟨hreach, howned⟩ ⟨hallowed, hapart⟩ henter hb
    obtain ⟨view, rfl, -⟩ := ExchangeSimulator.broadcast_spec hb
    obtain ⟨c, hc, hexec⟩ := exec_of_enterMarket henter
    have hc' := (ItchEvent.allowed_iff hc).mpr hallowed
    refine ⟨hreach.call c hc' hexec, fun L b y hy hsub => ?_⟩
    obtain ⟨hnew, htarget⟩ := ItchEvent.not_named hc fun hm => hapart _ hm hsub
    obtain ⟨x, hx, hcut⟩ :=
      (effect_of_exec hreach.inv hc' hexec).before hreach.inv hnew htarget hy rfl
    obtain ⟨hpos, huser⟩ := howned L b x hx (hcut.orderId ▸ hsub)
    exact ⟨hcut.pos hpos, hcut.userId.trans huser⟩
  book := fun hi _ => hi
  count := fun _ _ _ hi => hi
  execute := by
    intro sim sim' locate ref qty marks hi hb
    obtain ⟨view, rfl, -⟩ := ExchangeSimulator.broadcast_spec hb
    exact hi
  gone := fun _ hi => hi
  register := fun _ hi => hi
  submit := by
    rintro order orderId tif sim rsp e' ⟨hreach, howned⟩ hc hexec
    have hc' : (ExchangeSimulator.submitCommand order orderId tif).Allowed sim.engine.resting := hc
    have heff := effect_of_exec hreach.inv hc' hexec
    refine ⟨hreach.call _ hc' hexec, fun L b y hy hsub => ?_⟩
    by_cases hid : y.orderId = orderId
    · obtain ⟨-, -, huser, hpos, -⟩ := heff.entered hc' hy hid
      exact ⟨hpos, huser⟩
    · have hsub := Finset.mem_of_mem_insert_of_ne hsub hid
      obtain ⟨x, hx, hcut⟩ := heff.before hreach.inv
        (fun h => hid (Option.some.inj h).symm) (Option.some_ne_none _).symm hy rfl
      obtain ⟨hpos, huser⟩ := howned L b x hx (hcut.orderId ▸ hsub)
      exact ⟨hcut.pos hpos, hcut.userId.trans huser⟩
  cancel := by
    rintro orderId symbolId userId sim rsp e' ⟨hreach, howned⟩ hc hexec
    have hc' : (Command.cancel symbolId orderId userId).Allowed sim.engine.resting := hc
    refine ⟨hreach.call _ hc' hexec, fun L b y hy hsub => howned L b y ?_ hsub⟩
    have heff := effect_of_exec hreach.inv hc' hexec
    generalize e'.resting = R' at heff hy
    cases heff with
    | cancelled => exact Exchange.mem_leave hy
    | cancelRefused => exact hy

theorem strategyOwned_new (capacity : ℕ) (view : Option ℕ)
    (sink : MarketEvent → Option Market.OrderBookConsumer → List Mark) (hlo : 2 ≤ capacity)
    (hhi : capacity ≤ 2 ^ 31) : StrategyOwned (.new capacity view sink) := by
  refine ⟨.start capacity none none hlo hhi, fun L b x hx => ?_⟩
  have hnil : (ExchangeSimulator.new capacity view sink).engine.resting L b = [] :=
    Exchange.resting_new rfl L b
  rw [hnil] at hx
  exact absurd hx List.not_mem_nil

theorem Reached.strategyOwned {E : Type} {cl : Client Contract.apart.strategy E}
    {r : E × ExchangeSimulator} (h : Reached Contract.apart cl r) : StrategyOwned r.2 :=
  stable_strategyOwned.reached (fun capacity view sink hlo hhi _ =>
    strategyOwned_new capacity view sink hlo hhi) h

/-! ### Trades that wait to be routed -/

/-- What the order `ref` gives in a list of trades. -/
def givenBy (ref : ℕ) (ts : List (ℕ × UInt32 × UInt32)) : ℕ :=
  (ts.map fun t => if t.1 = ref then t.2.2.toNat else 0).sum

theorem makerQty_eq_givenBy (ref : ℕ) (rsp : List BinaryResponse) :
    makerQty ref rsp = givenBy ref (ExchangeSimulator.tradesIn rsp) := by
  induction rsp with
  | nil => rfl
  | cons r rsp ih =>
    rw [makerQty, List.map_cons, List.sum_cons, ← makerQty, ih]
    cases r with
    | trade => rfl
    | ok => exact Nat.zero_add _
    | filled => exact Nat.zero_add _
    | cancelled => exact Nat.zero_add _
    | error => exact Nat.zero_add _

/-- What the incoming order takes is the sum of the trades. -/
theorem takerQty_eq_sum (rsp : List BinaryResponse) :
    Exchange.takerQty rsp = ((ExchangeSimulator.tradesIn rsp).map fun t => t.2.2.toNat).sum := by
  induction rsp with
  | nil => rfl
  | cons r rsp ih =>
    rw [Exchange.takerQty, List.map_cons, List.sum_cons, ← Exchange.takerQty, ih]
    cases r with
    | trade => rfl
    | ok => exact Nat.zero_add _
    | filled => exact Nat.zero_add _
    | cancelled => exact Nat.zero_add _
    | error => exact Nat.zero_add _

/-- An order that gives something is one of the makers. -/
theorem mem_of_givenBy_ne_zero {ref : ℕ} {ts : List (ℕ × UInt32 × UInt32)}
    (h : givenBy ref ts ≠ 0) : ref ∈ ts.map Prod.fst := by
  by_contra hnot
  refine h (List.sum_eq_zero fun q hq => ?_)
  obtain ⟨t, ht, rfl⟩ := List.mem_map.mp hq
  refine if_neg ?_
  rintro rfl
  exact hnot (List.mem_map_of_mem ht)

/-- The trades of an incoming order, as they are among the answers. -/
theorem tradesIn_of_arrival {R R' : Exchange.Resting} {L : ℕ} {o : OrderData} {stays : Bool}
    {rsp : List BinaryResponse} (ha : Exchange.Arrival R L o stays rsp R') :
    ExchangeSimulator.tradesIn rsp = (Exchange.tradesOf R L o).map fun p =>
      (p.1.orderId, p.1.price, UInt32.ofNat p.2) := by
  have hframes : ExchangeSimulator.tradesIn (Exchange.tradeFrames R L o) =
      (Exchange.tradesOf R L o).map fun p => (p.1.orderId, p.1.price, UInt32.ofNat p.2) := by
    rw [ExchangeSimulator.tradesIn, Exchange.tradeFrames, List.filterMap_map,
      ← List.filterMap_eq_map]
    rfl
  have hlast : ∀ tail : List BinaryResponse, ExchangeSimulator.tradesIn tail = [] →
      ExchangeSimulator.tradesIn (Exchange.tradeFrames R L o ++ tail) =
        (Exchange.tradesOf R L o).map fun p => (p.1.orderId, p.1.price, UInt32.ofNat p.2) := by
    intro tail htail
    rw [ExchangeSimulator.tradesIn, List.filterMap_append, ← ExchangeSimulator.tradesIn, hframes,
      ← ExchangeSimulator.tradesIn, htail, List.append_nil]
  cases ha with
  | filled => exact hlast _ rfl
  | rests => exact hlast _ rfl
  | dropped _ _ tail htail =>
    refine hlast tail ?_
    rcases htail with rfl | ⟨code, rfl⟩ <;> rfl

/-- **The makers** of a call are different orders. -/
theorem makers_nodup {e : MatchingEngine} (hinv : Inv e) {c : Command}
    {rsp : List BinaryResponse} {R' : Exchange.Resting} (heff : Effect e c rsp R') :
    ((ExchangeSimulator.tradesIn rsp).map Prod.fst).Nodup := by
  cases heff with
  | added _ ha =>
    rw [tradesIn_of_arrival ha, List.map_map]
    exact Exchange.tradesOf_refs_nodup hinv.refsUnique
  | replaced _ _ _ ha =>
    rw [tradesIn_of_arrival ha, List.map_map]
    exact Exchange.tradesOf_refs_nodup (hinv.refsUnique.leave _ _ _)
  | _ => exact List.nodup_nil

/-- They rest before it. -/
theorem maker_rests {e : MatchingEngine} {c : Command} {rsp : List BinaryResponse}
    {R' : Exchange.Resting} (heff : Effect e c rsp R') {ref : ℕ}
    (hm : ref ∈ (ExchangeSimulator.tradesIn rsp).map Prod.fst) : Rests e.resting ref := by
  cases heff with
  | added _ ha =>
    rw [tradesIn_of_arrival ha, List.map_map] at hm
    obtain ⟨p, hp, rfl⟩ := List.mem_map.mp hm
    exact ⟨_, _, p.1, (Exchange.mem_of_mem_tradesOf hp).1, rfl⟩
  | replaced _ _ _ ha =>
    rw [tradesIn_of_arrival ha, List.map_map] at hm
    obtain ⟨p, hp, rfl⟩ := List.mem_map.mp hm
    exact ⟨_, _, p.1, Exchange.mem_leave (Exchange.mem_of_mem_tradesOf hp).1, rfl⟩
  | _ => exact absurd hm List.not_mem_nil

/-! ### The registry -/

/-- The registry while the trades of some makers have not been routed. -/
structure Registry (waiting : List ℕ) (sim : ExchangeSimulator) : Prop where
  /-- An order of the strategy that rests is registered. -/
  entered : ∀ ref ∈ sim.submitted, Rests sim.engine.resting ref → ref ∈ sim.strategyRefs
  /-- What is registered is an order of the strategy that rests, or waits. -/
  kept : ∀ ref ∈ sim.strategyRefs,
    ref ∈ sim.submitted ∧ (Rests sim.engine.resting ref ∨ ref ∈ waiting)

/-- The same, as long as the index is complete. -/
def Registered (waiting : List ℕ) (sim : ExchangeSimulator) : Prop :=
  sim.engine.shared.insertDropped = false → Registry waiting sim

/-- It depends on the engine, the registry and the orders submitted only. -/
theorem Registered.congr {waiting : List ℕ} {sim sim' : ExchangeSimulator}
    (h : Registered waiting sim) (he : sim'.engine = sim.engine)
    (hr : sim'.strategyRefs = sim.strategyRefs) (hs : sim'.submitted = sim.submitted) :
    Registered waiting sim' := by
  intro hd
  rw [he] at hd
  obtain ⟨hentered, hkept⟩ := h hd
  constructor
  · rw [he, hr, hs]
    exact hentered
  · rw [he, hr, hs]
    exact hkept

namespace ExchangeSimulator

/-- Of the answers to a submit only `RSP_OK` changes the registry. -/
theorem takeAnswers_frame {order : Order} {orderId : ℕ} {rsp : List BinaryResponse}
    {s s' : ExchangeSubmitResult × List Mark × ExchangeSimulator}
    (h : rsp.foldlM (takeAnswer order orderId) s = some s') :
    s'.2.2.engine = s.2.2.engine ∧ s'.2.2.submitted = s.2.2.submitted ∧
      ∀ ref, ref ∈ s'.2.2.strategyRefs ↔
        ref ∈ s.2.2.strategyRefs ∨ ref = orderId ∧ ∃ r, .ok r ∈ rsp := by
  induction rsp generalizing s with
  | nil =>
    obtain rfl := Option.some.inj h
    exact ⟨rfl, rfl, fun ref => by simp⟩
  | cons r rsp ih =>
    obtain ⟨s₁, hfirst, hrest⟩ := Option.bind_eq_some_iff.mp h
    obtain ⟨hengine, hsub, hrefs⟩ := ih hrest
    have hsame : s₁.2.2.engine = s.2.2.engine → s₁.2.2.submitted = s.2.2.submitted →
        s₁.2.2.strategyRefs = s.2.2.strategyRefs → (∀ r', .ok r' ≠ r) →
        s'.2.2.engine = s.2.2.engine ∧ s'.2.2.submitted = s.2.2.submitted ∧
          ∀ ref, ref ∈ s'.2.2.strategyRefs ↔
            ref ∈ s.2.2.strategyRefs ∨ ref = orderId ∧ ∃ r', .ok r' ∈ r :: rsp := by
      intro he hs hr hne
      refine ⟨hengine.trans he, hsub.trans hs, fun ref => ?_⟩
      rw [hrefs ref, hr]
      simp only [List.mem_cons, hne, false_or]
    cases r with
    | trade =>
      obtain ⟨⟨marks, sim₁⟩, hb, rfl⟩ := Option.map_eq_some_iff.mp hfirst
      obtain ⟨view, rfl, -⟩ := broadcast_spec hb
      exact hsame rfl rfl rfl fun _ => BinaryResponse.noConfusion
    | ok r =>
      obtain rfl := Option.some.inj hfirst
      refine ⟨hengine, hsub, fun ref => ?_⟩
      rw [hrefs ref, Finset.mem_insert]
      simp only [List.mem_cons]
      constructor
      · rintro ((rfl | hm) | ⟨rfl, r', hr'⟩)
        · exact Or.inr ⟨rfl, r, Or.inl rfl⟩
        · exact Or.inl hm
        · exact Or.inr ⟨rfl, r', Or.inr hr'⟩
      · rintro (hm | ⟨rfl, -⟩)
        · exact Or.inl (Or.inr hm)
        · exact Or.inl (Or.inl rfl)
    | filled =>
      obtain rfl := Option.some.inj hfirst
      exact hsame rfl rfl rfl fun _ => BinaryResponse.noConfusion
    | cancelled =>
      obtain rfl := Option.some.inj hfirst
      exact hsame rfl rfl rfl fun _ => BinaryResponse.noConfusion
    | error =>
      obtain rfl := Option.some.inj hfirst
      exact hsame rfl rfl rfl fun _ => BinaryResponse.noConfusion

/-- An answer that a submit takes for an acceptance. -/
def accepts : BinaryResponse → Bool
  | .trade .. | .ok _ | .filled _ => true
  | .cancelled _ | .error _ => false

/-- The trades among the answers to a submit go to the tape and into the result. -/
theorem takeAnswers_trades {order : Order} {orderId : ℕ} {rsp : List BinaryResponse}
    {s s' : ExchangeSubmitResult × List Mark × ExchangeSimulator}
    (h : rsp.foldlM (takeAnswer order orderId) s = some s') :
    s'.2.2.tape = s.2.2.tape ++ (tradesIn rsp).map (fun t => ⟨orderId, t.1, t.2.2⟩) ∧
      s'.1.fills = s.1.fills ++ (tradesIn rsp).map (fun t =>
        { orderId := orderId, filledQty := t.2.2.toUInt64, fillPrice := t.2.1.toUInt64.toInt64 }) ∧
      (s'.1.accepted = true ↔ s.1.accepted = true ∨ ∃ f ∈ rsp, accepts f = true) := by
  induction rsp generalizing s with
  | nil =>
    obtain rfl := Option.some.inj h
    simp [tradesIn]
  | cons r rsp ih =>
    obtain ⟨s₁, hfirst, hrest⟩ := Option.bind_eq_some_iff.mp h
    obtain ⟨htape, hfills, haccepted⟩ := ih hrest
    have hsame : s₁.2.2.tape = s.2.2.tape → s₁.1.fills = s.1.fills →
        (s₁.1.accepted = true ↔ s.1.accepted = true ∨ accepts r = true) →
        tradesIn (r :: rsp) = tradesIn rsp →
        s'.2.2.tape = s.2.2.tape ++ (tradesIn (r :: rsp)).map (fun t => ⟨orderId, t.1, t.2.2⟩) ∧
          s'.1.fills = s.1.fills ++ (tradesIn (r :: rsp)).map (fun t =>
            { orderId := orderId, filledQty := t.2.2.toUInt64
              fillPrice := t.2.1.toUInt64.toInt64 }) ∧
          (s'.1.accepted = true ↔ s.1.accepted = true ∨ ∃ f ∈ r :: rsp, accepts f = true) := by
      intro ht hf ha hts
      rw [htape, hfills, haccepted, ht, hf, ha, hts]
      refine ⟨rfl, rfl, ?_⟩
      rw [List.exists_mem_cons_iff, or_assoc]
    cases r with
    | trade _ maker _ price quantity =>
      obtain ⟨⟨marks, sim₁⟩, hb, rfl⟩ := Option.map_eq_some_iff.mp hfirst
      obtain ⟨view, rfl, -⟩ := broadcast_spec hb
      refine ⟨?_, ?_, ?_⟩
      · rw [htape]
        exact List.append_assoc ..
      · rw [hfills]
        exact List.append_assoc ..
      · rw [haccepted]
        exact iff_of_true (Or.inl rfl) (Or.inr ⟨_, List.mem_cons_self, rfl⟩)
    | ok r =>
      obtain rfl := Option.some.inj hfirst
      exact hsame rfl rfl (iff_of_true rfl (Or.inr rfl)) rfl
    | filled =>
      obtain rfl := Option.some.inj hfirst
      exact hsame rfl rfl (iff_of_true rfl (Or.inr rfl)) rfl
    | cancelled =>
      obtain rfl := Option.some.inj hfirst
      exact hsame rfl rfl (or_iff_left Bool.false_ne_true).symm rfl
    | error =>
      obtain rfl := Option.some.inj hfirst
      exact hsame rfl rfl (or_iff_left Bool.false_ne_true).symm rfl

/-- **What a cancel does**: it takes the order off the book and off the registry and reports that,
or it does nothing but count. -/
theorem cancel_cases {sim sim' : ExchangeSimulator} (hinv : Inv sim.engine)
    {orderId symbolId userId : ℕ} (hroute : Exchange.RoutedTo sim.engine.resting orderId symbolId)
    {reports : List Fill} (hcall : sim.cancel orderId symbolId userId = some (reports, sim')) :
    ∃ e', (e'.shared.insertDropped = false → sim.engine.shared.insertDropped = false) ∧
      ((∃ b, ∃ x ∈ sim.engine.resting symbolId b, x.orderId = orderId ∧ x.userId = userId ∧
        e'.resting = Exchange.leave sim.engine.resting symbolId b orderId ∧
        reports = [{ type := .canceled, orderId := orderId }] ∧
        sim' = { sim.advance with
          engine := e', strategyRefs := sim.strategyRefs.erase orderId }) ∨
      (Exchange.NotOwned sim.engine symbolId orderId userId ∧ e'.resting = sim.engine.resting ∧
        reports = [] ∧ sim' = { sim.advance with engine := e' })) := by
  obtain ⟨rsp, e', hexec, heq⟩ := cancel_spec hcall
  have hallowed : (Command.cancel symbolId orderId userId).Allowed sim.engine.resting := hroute
  have heff := effect_of_exec hinv hallowed hexec
  refine ⟨e', (Exchange.keeps_of_exec hinv hallowed hexec).dropped, ?_⟩
  generalize hR : e'.resting = R' at heff
  cases heff with
  | @cancelled _ _ _ b x hx hid huser =>
    obtain ⟨rfl, rfl⟩ := Prod.mk.inj heq
    exact Or.inl ⟨b, x, hx, hid, huser, rfl, rfl, rfl⟩
  | cancelRefused hnone =>
    obtain ⟨rfl, rfl⟩ := Prod.mk.inj heq
    exact Or.inr ⟨hnone, rfl, rfl, rfl⟩

end ExchangeSimulator

/-! ### The steps of a call -/

section Steps

variable {waiting : List ℕ} {sim sim' : ExchangeSimulator}

/-- **An order of the strategy** is registered if and only if it hangs in the book. -/
theorem Registered.submit (h : Registered waiting sim) (hown : StrategyOwned sim) {order : Order}
    {orderId : ℕ} {tif : OrderTif} (hfresh : Fresh sim.engine.resting orderId)
    (hcall : sim.take (.submit order orderId tif) = some sim') : Registered waiting sim' := by
  obtain ⟨⟨out, marks, sim₁⟩, hsubmit, rfl⟩ := Option.map_eq_some_iff.mp hcall
  obtain ⟨rsp, e', out', hexec, hfold, -⟩ := ExchangeSimulator.submit_spec hsubmit
  obtain ⟨hengine, hsub, hrefs⟩ := ExchangeSimulator.takeAnswers_frame hfold
  have hallowed : (ExchangeSimulator.submitCommand order orderId tif).Allowed
    sim.engine.resting := hfresh
  have hinv := hown.1.inv
  have heff := effect_of_exec hinv hallowed hexec
  intro hd
  rw [hengine] at hd
  obtain ⟨hentered, hkept⟩ := h ((Exchange.keeps_of_exec hinv hallowed hexec).dropped hd)
  constructor
  · intro ref hm hrests
    rw [hsub] at hm
    rw [hengine] at hrests
    rw [hrefs]
    obtain ⟨L, b, y, hy, hid⟩ := hrests
    by_cases href : ref = orderId
    · subst href
      exact Or.inr ⟨rfl, _, (heff.entered hfresh hy hid).1⟩
    · obtain ⟨x, hx, hcut⟩ := heff.before hinv (fun he => href (Option.some.inj he).symm)
        (Option.some_ne_none _).symm hy hid
      exact Or.inl (hentered ref (Finset.mem_of_mem_insert_of_ne hm href)
        ⟨L, b, x, hx, hcut.orderId.symm.trans hid⟩)
  · intro ref hm
    rw [hsub, hengine]
    rcases (hrefs ref).mp hm with hm | ⟨rfl, r, hok⟩
    · obtain ⟨hmsub, hrests⟩ := hkept ref hm
      refine ⟨Finset.mem_insert_of_mem hmsub, hrests.imp_left ?_⟩
      rintro ⟨L, b, x, hx, hid⟩
      obtain ⟨hpos, huser⟩ := hown.2 L b x hx (hid ▸ hmsub)
      have hzero := heff.own_untouched hinv (by decide) hx huser
      rcases heff.after hinv (Option.some_ne_none _).symm hx rfl with ⟨y, hy, hcut⟩ | hall
      · exact ⟨L, b, y, hy, hcut.orderId.trans hid⟩
      · omega
    · have hr := heff.ok_ref hok
      subst hr
      exact ⟨Finset.mem_insert_self _ _, Or.inl (Exchange.rests_of_ok heff rfl hok)⟩

/-- **A cancel** takes an order off the registry if and only if it takes it off the book. -/
theorem Registered.cancel (h : Registered waiting sim) (hown : StrategyOwned sim)
    {orderId symbolId userId : ℕ}
    (hallowed : (Command.cancel symbolId orderId userId).Allowed sim.engine.resting)
    (hcall : sim.take (.cancel orderId symbolId userId) = some sim') : Registered waiting sim' := by
  obtain ⟨⟨reports, sim₁⟩, hcancel, rfl⟩ := Option.map_eq_some_iff.mp hcall
  have hinv := hown.1.inv
  obtain ⟨e', hdropped, ⟨b, x, hx, rfl, -, hrest, -, rfl⟩ | ⟨-, hrest, -, rfl⟩⟩ :=
    ExchangeSimulator.cancel_cases hinv hallowed hcancel
  · have hfresh := hinv.refsUnique.fresh_leave hx
    intro hd
    obtain ⟨hentered, hkept⟩ := h (hdropped hd)
    constructor
    · intro ref hm hrests
      have hrests : Rests e'.resting ref := hrests
      rw [hrest] at hrests
      have hne : ref ≠ x.orderId := by
        rintro rfl
        exact Exchange.not_rests_iff.mpr hfresh hrests
      obtain ⟨L, b, y, hy, hyid⟩ := hrests
      exact Finset.mem_erase_of_ne_of_mem hne
        (hentered ref hm ⟨L, b, y, Exchange.mem_leave hy, hyid⟩)
    · intro ref hm
      obtain ⟨hne, hm⟩ := Finset.mem_erase.mp hm
      obtain ⟨hmsub, hrests⟩ := hkept ref hm
      refine ⟨hmsub, hrests.imp_left ?_⟩
      rintro ⟨L, b, y, hy, hyid⟩
      show Rests e'.resting ref
      rw [hrest]
      exact ⟨L, b, y, Exchange.mem_leave_of_ne hy (hyid ▸ hne), hyid⟩
  · intro hd
    obtain ⟨hentered, hkept⟩ := h (hdropped hd)
    constructor
    · intro ref hm hrests
      have hrests : Rests e'.resting ref := hrests
      exact hentered ref hm (hrest ▸ hrests)
    · intro ref hm
      show _ ∧ (Rests e'.resting ref ∨ _)
      rw [hrest]
      exact hkept ref hm

theorem Registered.strategy (h : Registered waiting sim) (hown : StrategyOwned sim)
    {c : StrategyCall} (hc : Contract.apart.strategy c sim) (hcall : sim.take c = some sim') :
    Registered waiting sim' := by
  cases c with
  | submit order orderId tif => exact h.submit hown hc hcall
  | cancel orderId symbolId userId => exact h.cancel hown hc hcall

/-- **Whatever the strategy does** in a callback keeps it. -/
theorem Registered.talk (h : Registered waiting sim) (hown : StrategyOwned sim)
    (htalk : Talk Contract.apart.strategy sim sim') : Registered waiting sim' := by
  induction htalk with
  | done => exact h
  | call c hc htake _ ih =>
    exact ih (h.strategy hown hc htake) (stable_strategyOwned.strategy hown hc htake)

/-- A maker that was looked up does not wait any more. -/
theorem Registered.unregister {ref : ℕ} (h : Registered (ref :: waiting) sim)
    (hown : StrategyOwned sim) (hcall : sim.unregisterIfGone ref = some sim') :
    Registered waiting sim' := by
  rcases ExchangeSimulator.unregisterIfGone_spec hcall with ⟨hnone, rfl⟩ | ⟨⟨i, hi⟩, rfl⟩
  · intro hd
    obtain ⟨hentered, hkept⟩ := h hd
    constructor
    · intro r hm hrests
      refine Finset.mem_erase_of_ne_of_mem ?_ (hentered r hm hrests)
      rintro rfl
      obtain ⟨L, b, x, hx, rfl⟩ := hrests
      obtain ⟨i, hi, hid⟩ := Exchange.onLevel_of_resting hown.1.inv hx
      have hfound := Exchange.findOrder_of_onLevel hown.1.inv hd hi
      rw [hid] at hfound
      exact absurd (hnone.symm.trans hfound) (by simp)
    · intro r hm
      obtain ⟨hne, hm⟩ := Finset.mem_erase.mp hm
      obtain ⟨hmsub, hrests⟩ := hkept r hm
      exact ⟨hmsub, hrests.imp_right (List.mem_of_ne_of_mem hne)⟩
  · intro hd
    obtain ⟨hentered, hkept⟩ := h hd
    refine ⟨hentered, fun r hm => ?_⟩
    obtain ⟨hmsub, hrests⟩ := hkept r hm
    refine ⟨hmsub, ?_⟩
    by_cases hr : r = ref
    · exact Or.inl (hr ▸ Exchange.rests_of_found hown.1.inv hi)
    · exact hrests.imp_right (List.mem_of_ne_of_mem hr)

/-- A maker that is not registered does not wait. -/
theorem Registered.not_waiting {ref : ℕ} (h : Registered (ref :: waiting) sim)
    (hnot : ref ∉ sim.strategyRefs) : Registered waiting sim := by
  intro hd
  obtain ⟨hentered, hkept⟩ := h hd
  refine ⟨hentered, fun r hm => ?_⟩
  obtain ⟨hmsub, hrests⟩ := hkept r hm
  refine ⟨hmsub, hrests.imp_right fun hw => List.mem_of_ne_of_mem ?_ hw⟩
  rintro rfl
  exact hnot hm

end Steps

/-! ### Events of the market -/

section Market

open ExchangeSimulator

variable {E : Type} {cl : Client Contract.apart.strategy E} {s s' : E}
  {sim sim' : ExchangeSimulator}

/-- **The loop over the trades**: every trade takes its maker off the waiting ones. -/
theorem Registered.routeTrades {locate taker : ℕ} {ts : List (ℕ × UInt32 × UInt32)}
    (h : Registered (ts.map Prod.fst) sim) (hown : StrategyOwned sim)
    (hcall : ExchangeSimulator.routeTrades cl.toCallbacks locate taker ts (s, sim) =
      some (s', sim')) : Registered [] sim' := by
  induction ts generalizing s sim with
  | nil =>
    obtain ⟨-, rfl⟩ := Prod.mk.inj (Option.some.inj hcall)
    exact h
  | cons t ts ih =>
    obtain ⟨⟨s₁, sim₁⟩, hfirst, hrest⟩ := Option.bind_eq_some_iff.mp hcall
    rw [routeTrade] at hfirst
    have hown₀ := stable_strategyOwned.count taker t.1 t.2.2 hown
    have h₀ : Registered (t.1 :: ts.map Prod.fst) (sim.countTrade taker t.1 t.2.2) :=
      h.congr rfl rfl rfl
    split at hfirst
    · refine ih ?_ (stable_strategyOwned.makerFill hown₀ hfirst) hrest
      obtain ⟨⟨s₂, sim₂⟩, hreport, hmap⟩ := Option.bind_eq_some_iff.mp hfirst
      obtain ⟨sim₃, hgone, heq⟩ := Option.map_eq_some_iff.mp hmap
      obtain ⟨-, rfl⟩ := Prod.mk.inj heq
      have htalk := cl.talks hreport
      exact (h₀.talk hown₀ htalk).unregister (stable_strategyOwned.talk htalk hown₀) hgone
    · next hnot =>
      refine ih ?_ (stable_strategyOwned.announce hown₀ hfirst) hrest
      obtain ⟨marks, hb⟩ := announce_spec hfirst
      obtain ⟨view, rfl, -⟩ := broadcast_spec hb
      have hnot : t.1 ∉ (sim.countTrade taker t.1 t.2.2).strategyRefs := by
        simpa [isStrategyOrder] using hnot
      exact (h₀.not_waiting hnot).congr rfl rfl rfl

/-- An event leaves the orders of the strategy registered that it does not use up, and those that
it does use up wait in its trades. -/
theorem Registered.market (h : Registered [] sim) (hown : StrategyOwned sim) {ev : ItchEvent}
    (hev : Contract.apart.market ev sim) {rsp : List BinaryResponse} {e' : MatchingEngine}
    (henter : enterMarket sim.engine ev = some (some (rsp, e'))) :
    Registered ((tradesIn rsp).map Prod.fst) { sim.advance with engine := e' } := by
  obtain ⟨c, hc, hexec⟩ := exec_of_enterMarket henter
  have hallowed := (ItchEvent.allowed_iff hc).mpr hev.1
  have hinv := hown.1.inv
  have heff := effect_of_exec hinv hallowed hexec
  have hnamed : ∀ ref ∈ sim.submitted, c.newRef ≠ some ref ∧ c.target ≠ some ref :=
    fun ref hm => ItchEvent.not_named hc fun hr => hev.2 ref hr hm
  intro hd
  obtain ⟨hentered, hkept⟩ := h ((Exchange.keeps_of_exec hinv hallowed hexec).dropped hd)
  constructor
  · rintro ref hm ⟨L, b, y, hy, hid⟩
    obtain ⟨hnew, htarget⟩ := hnamed ref hm
    obtain ⟨x, hx, hcut⟩ := heff.before hinv hnew htarget hy hid
    exact hentered ref hm ⟨L, b, x, hx, hcut.orderId.symm.trans hid⟩
  · intro ref hm
    obtain ⟨hmsub, hrests | hw⟩ := hkept ref hm
    · refine ⟨hmsub, ?_⟩
      obtain ⟨L, b, x, hx, hid⟩ := hrests
      rcases heff.after hinv (hnamed ref hmsub).2 hx hid with ⟨y, hy, hcut⟩ | hall
      · exact Or.inl ⟨L, b, y, hy, hcut.orderId.trans hid⟩
      · have hpos := (hown.2 L b x hx (hid ▸ hmsub)).1
        rw [makerQty_eq_givenBy] at hall
        exact Or.inr (mem_of_givenBy_ne_zero (by omega))
    · exact absurd hw List.not_mem_nil

theorem Registered.onMarketOrder (h : Registered [] sim) (hown : StrategyOwned sim)
    {ev : ItchEvent} (hev : Contract.apart.market ev sim)
    (hcall : ExchangeSimulator.onMarketOrder cl.toCallbacks ev (s, sim) = some (s', sim')) :
    Registered [] sim' := by
  obtain ⟨answer, henter, hcall⟩ := Option.bind_eq_some_iff.mp hcall
  cases answer with
  | none =>
    obtain ⟨-, rfl⟩ := Prod.mk.inj (Option.some.inj hcall)
    exact h.congr rfl rfl rfl
  | some r =>
    obtain ⟨rsp, e'⟩ := r
    obtain ⟨⟨s₁, sim₁⟩, hann, hcall⟩ := Option.bind_eq_some_iff.mp hcall
    obtain ⟨⟨s₂, sim₂⟩, hroute, hcall⟩ := Option.bind_eq_some_iff.mp hcall
    obtain ⟨marks, hb⟩ := announce_spec hann
    have hown₁ := stable_strategyOwned.market hown hev henter hb
    have h₁ : Registered ((tradesIn rsp).map Prod.fst) sim₁ := by
      obtain ⟨view, rfl, -⟩ := broadcast_spec hb
      exact (h.market hown hev henter).congr rfl rfl rfl
    have h₂ := h₁.routeTrades hown₁ hroute
    split at hcall
    · obtain ⟨marks, hb⟩ := announce_spec hcall
      obtain ⟨view, rfl, -⟩ := broadcast_spec hb
      exact h₂.congr rfl rfl rfl
    · obtain ⟨-, rfl⟩ := Prod.mk.inj (Option.some.inj hcall)
      exact h₂

theorem registered_new (capacity : ℕ) (view : Option ℕ)
    (sink : MarketEvent → Option Market.OrderBookConsumer → List Mark) :
    Registered [] (.new capacity view sink) := fun _ =>
  ⟨fun ref hm => absurd hm (Finset.notMem_empty ref),
    fun ref hm => absurd hm (Finset.notMem_empty ref)⟩

/-- While nothing waits, the registry is exact. -/
theorem Registered.iff (h : Registered [] sim) (hd : sim.engine.shared.insertDropped = false)
    (ref : ℕ) : sim.isStrategyOrder ref = true ↔
      ref ∈ sim.submitted ∧ Rests sim.engine.resting ref := by
  obtain ⟨hentered, hkept⟩ := h hd
  have hiff : sim.isStrategyOrder ref = true ↔ ref ∈ sim.strategyRefs := decide_eq_true_iff
  rw [hiff]
  constructor
  · intro hm
    obtain ⟨hmsub, hrests | hw⟩ := hkept ref hm
    · exact ⟨hmsub, hrests⟩
    · exact absurd hw List.not_mem_nil
  · rintro ⟨hmsub, hrests⟩
    exact hentered ref hmsub hrests

/-- **The registry is exact** between two calls, whatever the client does, as long as the index is
complete: a reference is registered if and only if it was submitted and rests. -/
theorem Reached.registry {r : E × ExchangeSimulator} (h : Reached Contract.apart cl r)
    (hd : r.2.engine.shared.insertDropped = false) (ref : ℕ) :
    r.2.isStrategyOrder ref = true ↔
      ref ∈ r.2.submitted ∧ Rests r.2.engine.resting ref := by
  refine Registered.iff ?_ hd ref
  clear hd
  induction h with
  | start s capacity view sink => exact registered_new capacity view sink
  | market ev hr hev hcall ih => exact ih.onMarketOrder hr.strategyOwned hev hcall
  | strategy c hr hc hcall ih => exact ih.strategy hr.strategyOwned hc hcall

end Market

end NebulaX
