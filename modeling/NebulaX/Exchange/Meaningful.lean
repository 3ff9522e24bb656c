import NebulaX.Exchange.EveryOrder
import NebulaX.Exchange.FillOrKill
import NebulaX.Exchange.Isolation
import NebulaX.Exchange.SimulatorRuns

/-!
# Orders that mean something

`processAdd` turns down an order without a quantity or, if it is to rest, without a price.
`processReplace` has no such test. The order it brings in rests with whatever the message said: a
replace that asks for nothing leaves an order of quantity zero, and one without a price leaves an
order at price zero, unless it is filled at once. An order of quantity zero stays until an incoming
order meets it; then a trade of quantity zero is printed.

`Sensible` is what such a message must satisfy, and `replace_meaningful_iff` says that it is exactly
that. Nothing else in the engine makes an order meaningless, as long as references are fresh and
locates match.

## Main results

* `replace_meaningful_iff` — when a replace leaves only meaningful orders
* `reached_meaningful` — if all do, only meaningful orders rest and only meaningful trades print
* `empty_replace_trades_nothing` — a replace of quantity zero, and the trade it leads to
-/

namespace NebulaX.Exchange

open MatchingEngine

/-- Every resting order has something left and a price. -/
def Meaningful : Resting → Prop := Every fun x => 0 < qtyOf x ∧ 0 < x.price

theorem survives_meaningful : Survives fun x => 0 < qtyOf x ∧ 0 < x.price where
  partly := fun h ht0 ht => ⟨survives_positive.partly h.1 ht0 ht, h.2⟩
  reduce := fun h hq => ⟨survives_positive.reduce h.1 hq, h.2⟩

theorem Meaningful.positive {R : Resting} (h : Meaningful R) : Positive R :=
  fun L b x hx => (h L b x hx).1

/-! ### Trades -/

/-- The trades of an incoming order are of something. -/
theorem tradedQty_pos {R : Resting} (h : Positive R) {L : ℕ} {o : OrderData} {f : BinaryResponse}
    (hf : f ∈ tradeFrames R L o) : 0 < f.tradedQty := by
  obtain ⟨p, hp, rfl⟩ := List.mem_map.mp hf
  have hpos : 0 < p.2 := Allocation.allocate_pos (fun x hx => h L _ x (List.mem_filter.mp hx).1) hp
  show 0 < (UInt32.ofNat p.2).toNat
  rwa [toNat_ofNat_of_mem_fills hp]

theorem Arrival.trades_pos {R R' : Resting} (h : Positive R) {L : ℕ} {o : OrderData} {stays : Bool}
    {rsp : List BinaryResponse} (ha : Arrival R L o stays rsp R') {f : BinaryResponse}
    (hf : f ∈ rsp) (htrade : f.isTrade = true) : 0 < f.tradedQty := by
  have hlast : ∀ g : BinaryResponse, g.isTrade = false → f ∈ tradeFrames R L o ++ [g] →
      0 < f.tradedQty := by
    intro g hg hf
    rcases List.mem_append.mp hf with hf | hf
    · exact tradedQty_pos h hf
    · obtain rfl := List.mem_singleton.mp hf
      exact absurd htrade (by rw [hg]; decide)
  cases ha with
  | filled => exact hlast _ rfl hf
  | rests => exact hlast _ rfl hf
  | dropped _ _ tail htail =>
    rcases htail with rfl | ⟨code, rfl⟩
    · rw [List.append_nil] at hf
      exact tradedQty_pos h hf
    · exact hlast _ rfl hf

/-- **Only meaningful trades print** while something is left of every resting order. -/
theorem Effect.trades_pos {e : MatchingEngine} {c : Command} {rsp : List BinaryResponse}
    {R' : Resting} (heff : Effect e c rsp R') (h : Positive e.resting) {f : BinaryResponse}
    (hf : f ∈ rsp) (htrade : f.isTrade = true) : 0 < f.tradedQty := by
  have hsingle : ∀ g : BinaryResponse, g.isTrade = false → f ∈ [g] → 0 < f.tradedQty := by
    intro g hg hf
    obtain rfl := List.mem_singleton.mp hf
    exact absurd htrade (by rw [hg]; decide)
  cases heff with
  | rejected => exact hsingle _ rfl hf
  | killed => exact hsingle _ rfl hf
  | added _ ha => exact ha.trades_pos h hf htrade
  | cancelled => exact hsingle _ rfl hf
  | cancelRefused => exact hsingle _ rfl hf
  | sharesAll => exact hsingle _ rfl hf
  | sharesPart => exact hsingle _ rfl hf
  | sharesRefused => exact hsingle _ rfl hf
  | replaced _ _ _ ha => exact ha.trades_pos (h.leave _ _ _) hf htrade
  | replaceRefused => exact hsingle _ rfl hf

/-! ### Replaces -/

/-- An order that is not filled and may stay rests. -/
theorem Arrival.mem_of_open {R R' : Resting} {L : ℕ} {o : OrderData} {rsp : List BinaryResponse}
    (ha : Arrival R L o true rsp R') (hopen : (residual R L o).status ≠ .filled) :
    ∃ b, residual R L o ∈ R' L b := by
  cases ha with
  | filled hfilled => exact absurd hfilled hopen
  | rests => exact ⟨_, mem_enter.mpr (Or.inl ⟨rfl, rfl, rfl⟩)⟩
  | dropped _ hstays => exact absurd hstays (by decide)

/-- What rests on the other side does not depend on the order that is replaced. -/
theorem eligibleQty_leave {R : Resting} {L : ℕ} {b : Bool} {ref : ℕ} {o : OrderData}
    (ho : o.side = .ofBuy b) : eligibleQty (leave R L b ref) L o = eligibleQty R L o := by
  have hside : o.side.isBuy = b := by rw [ho, Side.isBuy_ofBuy]
  rw [eligibleQty, hside, leave, setSide_of_ne _ _ _ _ (by simp), eligibleQty, hside]

/-- **When a replace leaves only meaningful orders.** A replace that is not turned away, of the side
of the old order, does so exactly if it asks for something, and has a price or is filled at once. -/
theorem replace_meaningful_iff {e e' : MatchingEngine} (hinv : Inv e) {L oldRef newRef : ℕ}
    {side : Side} {price quantity : UInt32} {user : ℕ} {rsp : List BinaryResponse}
    (hc : (Command.replace L oldRef newRef side price quantity user).Allowed e.resting)
    (hexec : e.exec (.replace L oldRef newRef side price quantity user) = some (rsp, e'))
    (haway : ¬ TurnedAway e L oldRef user)
    (hside : ∀ b, ∀ x ∈ e.resting L b, x.orderId = oldRef → side = .ofBuy b)
    (h : Meaningful e.resting) :
    Meaningful e'.resting ↔ 0 < quantity ∧ (0 < price ∨
      quantity.toNat ≤ eligibleQty e.resting L (e.newOrder newRef side price quantity newRef)) := by
  have heff := effect_of_exec hinv hc hexec
  generalize e'.resting = R' at heff
  cases heff with
  | replaceRefused => exact absurd rfl (processReplace_answers haway hexec)
  | @replaced L oldRef newRef side price quantity user b x rsp R' hx hid huser ha =>
    obtain rfl := hside b x hx hid
    generalize ho : e.newOrder newRef (.ofBuy b) price quantity newRef = o at ha ⊢
    have hoq : qtyOf o = quantity.toNat := by rw [← ho]; rfl
    have hoprice : o.price = price := by rw [← ho]; rfl
    have hostatus : o.status = .open := by rw [← ho]; rfl
    have hoside : o.side = .ofBuy b := by rw [← ho]; rfl
    rw [decide_eq_true (Side.ofBuy_ne_invalid b)] at ha
    have hprice : (residual (leave e.resting L b oldRef) L o).price = price := by
      rw [residual, afterFills_price, hoprice]
    have hfilled : quantity ≠ 0 → ((residual (leave e.resting L b oldRef) L o).status = .filled ↔
        quantity.toNat ≤ eligibleQty e.resting L o) := by
      intro hq
      have hq : qtyOf o ≠ 0 := hoq ▸ fun hc => hq (UInt32.toNat_inj.mp hc)
      have hsum : filledQtyOf (tradesOf (leave e.resting L b oldRef) L o) =
          min (qtyOf o) (eligibleQty (leave e.resting L b oldRef) L o) := filledQtyOf_fills _ _ _
      rw [residual, afterFills_filled_iff hostatus hq, hsum, eligibleQty_leave hoside, hoq]
      omega
    constructor
    · intro hR'
      have hrests : (residual (leave e.resting L b oldRef) L o).status ≠ .filled →
          0 < qtyOf (residual (leave e.resting L b oldRef) L o) ∧ 0 < price := by
        intro hopen
        obtain ⟨b', hmem⟩ := ha.mem_of_open hopen
        obtain ⟨hqty, hpriced⟩ := hR' L b' _ hmem
        exact ⟨hqty, hprice ▸ hpriced⟩
      have hpos : 0 < quantity := by
        by_contra hle
        have hzero : quantity = 0 := not_not.mp fun hne => hle (UInt32.pos_iff_ne_zero.mpr hne)
        have hoq0 : qtyOf o = 0 := by rw [hoq, hzero]; rfl
        have hnil : tradesOf (leave e.resting L b oldRef) L o = [] := by
          rw [tradesOf, fills, hoq0, Allocation.allocate_zero]
        have hres : residual (leave e.resting L b oldRef) L o = o := by
          rw [residual, hnil, afterFills, if_pos rfl]
        have hqty := (hrests (by rw [hres, hostatus]; exact fun hc => by cases hc)).1
        rw [hres, hoq0] at hqty
        exact Nat.lt_irrefl 0 hqty
      refine ⟨hpos, ?_⟩
      by_cases hst : (residual (leave e.resting L b oldRef) L o).status = .filled
      · exact Or.inr ((hfilled (UInt32.pos_iff_ne_zero.mp hpos)).mp hst)
      · exact Or.inl (hrests hst).2
    · rintro ⟨hpos, hrest⟩
      refine (h.leave L b oldRef).arrival survives_meaningful ha fun _ hopen => ⟨?_, ?_⟩
      · exact qtyOf_residual_pos (hoq ▸ UInt32.lt_iff_toNat_lt.mp hpos) hopen
      · rw [hprice]
        exact hrest.resolve_right fun hle =>
          hopen ((hfilled (UInt32.pos_iff_ne_zero.mp hpos)).mpr hle)

/-- No other call leaves a meaningless order. -/
theorem Effect.meaningful {e : MatchingEngine} (hinv : Inv e) {c : Command}
    {rsp : List BinaryResponse} {R' : Resting} (heff : Effect e c rsp R')
    (hc : ∀ L oldRef newRef side price quantity user,
      c ≠ .replace L oldRef newRef side price quantity user) (h : Meaningful e.resting) :
    Meaningful R' := by
  refine heff.every survives_meaningful hinv h fun R L o ha hopen => ?_
  cases ha with
  | add hvalid =>
    refine ⟨qtyOf_residual_pos (Nat.pos_of_ne_zero (valid_of_addError hvalid).2.1) hopen, ?_⟩
    rw [residual, afterFills_price]
    exact price_of_addError hvalid
  | replace => exact (hc _ _ _ _ _ _ _ rfl).elim

end NebulaX.Exchange

namespace NebulaX

open Exchange (MatchingEngine BinaryResponse OrderData Inv Command Meaningful TurnedAway
  effect_of_exec)

/-! ### Runs of the simulator -/

/-- A replace that the engine does not turn away asks for something, and has a price or finds enough
on the other side to be filled at once. -/
def ItchEvent.Sensible (e : MatchingEngine) : ItchEvent → Prop
  | .replace locate ref newRef price shares => TurnedAway e locate.toNat ref ref ∨
    0 < shares ∧ (0 < price ∨ shares.toNat ≤ Exchange.eligibleQty e.resting locate.toNat
      (e.newOrder newRef ((ExchangeSimulator.oldSide e ref).getD .invalid) price shares newRef))
  | .add .. | .delete .. | .cancel .. | .book _ => True

/-- The contract about references, for sensible messages. -/
def Contract.sensible : Contract where
  market := fun ev sim => ev.Allowed sim.engine.resting ∧ ev.Sensible sim.engine
  strategy := fun c sim => c.Allowed sim.engine.resting

theorem Contract.sensible_keepsRefs : Contract.sensible.KeepsRefs := ⟨And.left, id⟩

/-- A replace of the market has the side of the order it replaces. -/
theorem oldSide_eq {e : MatchingEngine} (hinv : Inv e) {L ref user : ℕ} {side : Exchange.Side}
    (hside : ExchangeSimulator.oldSide e ref = some side)
    (hroute : Exchange.RoutedTo e.resting ref L)
    (haway : ¬ TurnedAway e L ref user) :
    ∀ b, ∀ x ∈ e.resting L b, x.orderId = ref → side = .ofBuy b := by
  obtain ⟨-, hfind⟩ := Exchange.not_turnedAway haway
  obtain ⟨G, fl, hrep⟩ := hinv
  intro b x hx hid
  rcases hrep.findOrder_spec hroute with ⟨hf, -⟩ | ⟨i, b', p, hf, hi, hir, hmem⟩
  · rcases hfind with hnone | ⟨i, hi, -⟩
    · exact absurd (hf.symm.trans hnone) (by simp)
    · exact absurd (hf.symm.trans hi) (by simp)
  · obtain ⟨-, rfl, -⟩ := hrep.resting_unique hmem hx (hir.trans hid.symm)
    rw [ExchangeSimulator.oldSide, hf] at hside
    obtain rfl := Option.some.inj hside
    exact hrep.side _ _ _ i hi

/-- **When an event leaves only meaningful orders**: exactly if it is sensible. -/
theorem event_meaningful_iff {e e' : MatchingEngine} (hinv : Inv e) {ev : ItchEvent}
    (hev : ev.Allowed e.resting) {rsp : List BinaryResponse}
    (henter : ExchangeSimulator.enterMarket e ev = some (some (rsp, e')))
    (h : Meaningful e.resting) : Meaningful e'.resting ↔ ev.Sensible e := by
  obtain ⟨c, hc, hexec⟩ := exec_of_enterMarket henter
  have hallowed := (ItchEvent.allowed_iff hc).mpr hev
  have heff := effect_of_exec hinv hallowed hexec
  cases ev with
  | add =>
    obtain rfl := Option.some.inj hc
    exact iff_of_true (heff.meaningful hinv (fun _ _ _ _ _ _ _ heq => by cases heq) h) trivial
  | delete =>
    obtain rfl := Option.some.inj hc
    exact iff_of_true (heff.meaningful hinv (fun _ _ _ _ _ _ _ heq => by cases heq) h) trivial
  | cancel =>
    obtain rfl := Option.some.inj hc
    exact iff_of_true (heff.meaningful hinv (fun _ _ _ _ _ _ _ heq => by cases heq) h) trivial
  | replace locate ref newRef price shares =>
    obtain rfl := Option.some.inj hc
    obtain ⟨side, hside, -⟩ := Option.bind_eq_some_iff.mp henter
    rw [hside, Option.getD_some] at hexec hallowed
    by_cases haway : TurnedAway e locate.toNat ref ref
    · obtain ⟨e'', hcall, hb, hs⟩ :=
        Exchange.processReplace_untouched haway newRef side price shares
      obtain ⟨-, rfl⟩ := Prod.mk.inj (Option.some.inj (hcall.symm.trans hexec))
      refine iff_of_true ?_ (Or.inl haway)
      obtain ⟨G, fl, hrep⟩ := hinv
      rwa [(hrep.congr hb hs).2]
    · rw [Exchange.replace_meaningful_iff hinv hallowed hexec haway
        (oldSide_eq hinv hside hev.1 haway) h, ItchEvent.Sensible, or_iff_right haway, hside,
        Option.getD_some]
  | book => exact absurd hc (by simp [ItchEvent.command])

/-- The engine can be reached, and every resting order means something. -/
def EngineMeaningful (sim : ExchangeSimulator) : Prop :=
  Exchange.Reachable sim.engine ∧ Meaningful sim.engine.resting

/-- The trades among the answers to a call. -/
theorem quantity_pos_of_effect {e : MatchingEngine} {c : Command} {rsp : List BinaryResponse}
    {R' : Exchange.Resting} (heff : Exchange.Effect e c rsp R') (h : Meaningful e.resting)
    {t : ℕ × UInt32 × UInt32} (ht : t ∈ ExchangeSimulator.tradesIn rsp) : 0 < t.2.2 := by
  obtain ⟨f, hf, hft⟩ := List.mem_filterMap.mp ht
  cases f with
  | trade =>
    obtain rfl := Option.some.inj hft
    exact UInt32.lt_iff_toNat_lt.mpr (heff.trades_pos h.positive hf rfl)
  | ok => exact absurd hft (by simp)
  | filled => exact absurd hft (by simp)
  | cancelled => exact absurd hft (by simp)
  | error => exact absurd hft (by simp)

theorem stableOn_meaningful : StableOn Contract.sensible
    (fun sim => EngineMeaningful sim ∧ ∀ t ∈ sim.tape, 0 < t.quantity)
    (fun sim => EngineMeaningful sim ∧ ∀ t ∈ sim.tape, 0 < t.quantity)
    (fun t => 0 < t.quantity) where
  idle := id
  market := by
    rintro ev sim sim' rsp e' marks ⟨⟨hreach, hmeans⟩, htape⟩ ⟨hev, hsense⟩ henter hb
    obtain ⟨view, rfl, -⟩ := ExchangeSimulator.broadcast_spec hb
    obtain ⟨c, hc, hexec⟩ := exec_of_enterMarket henter
    have hallowed := (ItchEvent.allowed_iff hc).mpr hev
    have hmeans' := (event_meaningful_iff hreach.inv hev henter hmeans).mpr hsense
    exact ⟨⟨⟨hreach.call c hallowed hexec, hmeans'⟩, htape⟩, fun t ht =>
      quantity_pos_of_effect (effect_of_exec hreach.inv hallowed hexec) hmeans ht⟩
  book := fun hi _ => hi
  count := by
    rintro sim taker maker quantity ⟨hengine, htape⟩ hpos
    refine ⟨hengine, fun t ht => ?_⟩
    rcases List.mem_append.mp ht with ht | ht
    · exact htape t ht
    · obtain rfl := List.mem_singleton.mp ht
      exact hpos
  execute := by
    intro sim sim' locate ref qty marks hi hb
    obtain ⟨view, rfl, -⟩ := ExchangeSimulator.broadcast_spec hb
    exact hi
  gone := fun _ hi => hi
  register := fun _ hi => hi
  submit := by
    rintro order orderId tif sim rsp e' ⟨⟨hreach, hmeans⟩, htape⟩ hc hexec
    have hallowed : (ExchangeSimulator.submitCommand order orderId tif).Allowed
        sim.engine.resting := hc
    have heff := effect_of_exec hreach.inv hallowed hexec
    exact ⟨⟨⟨hreach.call _ hallowed hexec, heff.meaningful hreach.inv
      (fun _ _ _ _ _ _ _ heq => by cases heq) hmeans⟩, htape⟩,
      fun t ht => quantity_pos_of_effect heff hmeans ht⟩
  cancel := by
    rintro orderId symbolId userId sim rsp e' ⟨⟨hreach, hmeans⟩, htape⟩ hc hexec
    have hallowed : (Command.cancel symbolId orderId userId).Allowed sim.engine.resting := hc
    have heff := effect_of_exec hreach.inv hallowed hexec
    exact ⟨⟨hreach.call _ hallowed hexec, heff.meaningful hreach.inv
      (fun _ _ _ _ _ _ _ heq => by cases heq) hmeans⟩, htape⟩

/-- **Only meaningful orders rest and only meaningful trades print**, in every run whose messages
are all sensible. -/
theorem reached_meaningful {E : Type} {cl : Client Contract.sensible.strategy E}
    {r : E × ExchangeSimulator} (h : Reached Contract.sensible cl r) :
    (∀ L b, ∀ x ∈ r.2.engine.resting L b, 0 < x.remainingQty ∧ 0 < x.price) ∧
      ∀ t ∈ r.2.tape, 0 < t.quantity := by
  have hempty : ∀ capacity, Meaningful (MatchingEngine.new capacity).resting := by
    intro capacity L b x hx
    rw [Exchange.resting_new rfl] at hx
    exact absurd hx List.not_mem_nil
  obtain ⟨⟨-, hmeans⟩, htape⟩ := stableOn_meaningful.reached (fun capacity _ _ hlo hhi _ =>
    ⟨⟨.start capacity none none hlo hhi, hempty capacity⟩,
      fun t ht => absurd ht List.not_mem_nil⟩) h
  exact ⟨fun L b x hx => ⟨UInt32.lt_iff_toNat_lt.mpr (hmeans L b x hx).1, (hmeans L b x hx).2⟩,
    htape⟩

/-- A test that implies the contract: replaces have a quantity and a price. -/
def sensibleTest (c : SimCall) (sim : ExchangeSimulator) : Bool :=
  ExchangeSimulator.refsTest c sim && match c with
    | .market (.replace _ _ _ price shares) => decide (0 < price) && decide (0 < shares)
    | .market _ | .strategy _ => true

theorem sensible_of_test {ev : ItchEvent} {sim : ExchangeSimulator} (h : Inv sim.engine)
    (htest : sensibleTest (.market ev) sim = true) : Contract.sensible.market ev sim := by
  obtain ⟨hrefs, hsense⟩ := (Bool.and_eq_true _ _).mp htest
  refine ⟨ExchangeSimulator.refsTest_market h hrefs, ?_⟩
  cases ev with
  | replace locate ref newRef price shares =>
    obtain ⟨hprice, hshares⟩ := (Bool.and_eq_true _ _).mp hsense
    exact Or.inr ⟨of_decide_eq_true hshares, Or.inl (of_decide_eq_true hprice)⟩
  | add => trivial
  | delete => trivial
  | cancel => trivial
  | book => trivial

/-- A replace, and a trade with the order it brings in. -/
theorem reached_meaningful_replace : ∃ r, ExchangeSimulator.play
    (Client.silent Contract.sensible.strategy).toCallbacks sensibleTest
    [.market (.add 0 1 .sell 100 5), .market (.replace 0 1 2 101 4),
      .market (.add 0 3 .buy 101 2)] ((), .new 4 none fun _ _ => []) = some r ∧
    r.2.tape = [⟨3, 2, 2⟩] ∧
    (∀ L b, ∀ x ∈ r.2.engine.resting L b, 0 < x.remainingQty ∧ 0 < x.price) ∧
      ∀ t ∈ r.2.tape, 0 < t.quantity := by
  have hread : (ExchangeSimulator.play (Client.silent Contract.sensible.strategy).toCallbacks
      sensibleTest [.market (.add 0 1 .sell 100 5), .market (.replace 0 1 2 101 4),
        .market (.add 0 3 .buy 101 2)] ((), .new 4 none fun _ _ => [])).map
      (fun r => r.2.tape) = some [⟨3, 2, 2⟩] := by decide +kernel
  obtain ⟨r, hr, htape⟩ := Option.map_eq_some_iff.mp hread
  have hstart : Reached Contract.sensible (Client.silent Contract.sensible.strategy)
      ((), .new 4 none fun _ _ => []) := .start () 4 none _ (by decide) (by decide) (by simp)
  refine ⟨r, hr, htape, reached_meaningful (hstart.play (fun h htest => ?_) (fun h htest => ?_) hr)⟩
  · exact sensible_of_test (h.engine Contract.sensible_keepsRefs).inv htest
  · exact ExchangeSimulator.refsTest_strategy (h.engine Contract.sensible_keepsRefs).inv
      ((Bool.and_eq_true _ _).mp htest).1

/-- A run of events alone, under the contract about references. -/
theorem reached_of_play {cs : List SimCall} {r : Unit × ExchangeSimulator}
    (hr : ExchangeSimulator.play (Client.silent Contract.refs.strategy).toCallbacks
      ExchangeSimulator.refsTest cs ((), .new 4 none fun _ _ => []) = some r) :
    Reached Contract.refs (Client.silent Contract.refs.strategy) r := by
  have hstart : Reached Contract.refs (Client.silent Contract.refs.strategy)
      ((), .new 4 none fun _ _ => []) := .start () 4 none _ (by decide) (by decide) (by simp)
  refine hstart.play (fun h htest => ?_) (fun h htest => ?_) hr
  · exact ExchangeSimulator.refsTest_market (h.engine Contract.refs_keepsRefs).inv htest
  · exact ExchangeSimulator.refsTest_strategy (h.engine Contract.refs_keepsRefs).inv htest

/-- Order 1 is replaced by order 2, of quantity zero, which rests. A buyer trades zero with it. An
order that is replaced at price zero rests there, too. -/
theorem empty_replace_trades_nothing :
    (∃ r x, Reached Contract.refs (Client.silent Contract.refs.strategy) r ∧
      x ∈ r.2.engine.resting 0 false ∧ x.orderId = 2 ∧ x.remainingQty = 0) ∧
    (∃ r, Reached Contract.refs (Client.silent Contract.refs.strategy) r ∧
      r.2.tape = [⟨3, 2, 0⟩]) ∧
    ∃ r x, Reached Contract.refs (Client.silent Contract.refs.strategy) r ∧
      x ∈ r.2.engine.resting 0 true ∧ x.orderId = 2 ∧ x.price = 0 := by
  refine ⟨?_, ?_, ?_⟩
  · have hread : (ExchangeSimulator.play (Client.silent Contract.refs.strategy).toCallbacks
        ExchangeSimulator.refsTest [.market (.add 0 1 .sell 100 5),
          .market (.replace 0 1 2 100 0)] ((), .new 4 none fun _ _ => [])).bind
        (fun r => (r.2.engine.resting 0 false).head?.map fun x =>
          (x.orderId, x.remainingQty)) = some (2, 0) := by decide +kernel
    obtain ⟨r, hr, hhead⟩ := Option.bind_eq_some_iff.mp hread
    obtain ⟨x, hx, heq⟩ := Option.map_eq_some_iff.mp hhead
    obtain ⟨hid, hqty⟩ := Prod.mk.inj heq
    exact ⟨r, x, reached_of_play hr, List.mem_of_mem_head? hx, hid, hqty⟩
  · have hread : (ExchangeSimulator.play (Client.silent Contract.refs.strategy).toCallbacks
        ExchangeSimulator.refsTest [.market (.add 0 1 .sell 100 5),
          .market (.replace 0 1 2 100 0), .market (.add 0 3 .buy 100 5)]
        ((), .new 4 none fun _ _ => [])).map (fun r => r.2.tape) = some [⟨3, 2, 0⟩] := by
      decide +kernel
    obtain ⟨r, hr, htape⟩ := Option.map_eq_some_iff.mp hread
    exact ⟨r, reached_of_play hr, htape⟩
  · have hread : (ExchangeSimulator.play (Client.silent Contract.refs.strategy).toCallbacks
        ExchangeSimulator.refsTest [.market (.add 0 1 .buy 100 5),
          .market (.replace 0 1 2 0 5)] ((), .new 4 none fun _ _ => [])).bind
        (fun r => (r.2.engine.resting 0 true).head?.map fun x =>
          (x.orderId, x.price)) = some (2, 0) := by decide +kernel
    obtain ⟨r, hr, hhead⟩ := Option.bind_eq_some_iff.mp hread
    obtain ⟨x, hx, heq⟩ := Option.map_eq_some_iff.mp hhead
    obtain ⟨hid, hprice⟩ := Prod.mk.inj heq
    exact ⟨r, x, reached_of_play hr, List.mem_of_mem_head? hx, hid, hprice⟩

/-- Without the contract about references, adds and deletes are enough: reference 5 is added twice,
the older order is filled, and the delete frees its slot a second time. The next add takes the slot
and writes `UINT32_MAX` over its link, so that the add after it gets the same slot once more and the
pool is used up. The slot now hangs at two prices, and when it is filled under one it rests under
the other with nothing left. -/
theorem repeated_ref_rests_empty : ∃ r x, ExchangeSimulator.play
    (Client.silent Contract.any.strategy).toCallbacks (fun _ _ => true)
    [.market (.add 0 5 .sell 100 10), .market (.add 0 5 .sell 100 10),
      .market (.add 0 6 .buy 100 10), .market (.delete 0 5), .market (.add 0 7 .sell 100 10),
      .market (.add 0 8 .sell 101 10), .market (.add 0 9 .buy 101 10)]
      ((), .new 8 none fun _ _ => []) = some r ∧
    x ∈ r.2.engine.resting 0 false ∧ x.remainingQty = 0 := by
  have hread : (ExchangeSimulator.play (Client.silent Contract.any.strategy).toCallbacks
      (fun _ _ => true) [.market (.add 0 5 .sell 100 10), .market (.add 0 5 .sell 100 10),
        .market (.add 0 6 .buy 100 10), .market (.delete 0 5), .market (.add 0 7 .sell 100 10),
        .market (.add 0 8 .sell 101 10), .market (.add 0 9 .buy 101 10)]
        ((), .new 8 none fun _ _ => [])).bind
      (fun r => (r.2.engine.resting 0 false).head?.map fun x => x.remainingQty) = some 0 := by
    decide +kernel
  obtain ⟨r, hr, hhead⟩ := Option.bind_eq_some_iff.mp hread
  obtain ⟨x, hx, hqty⟩ := Option.map_eq_some_iff.mp hhead
  exact ⟨r, x, hr, List.mem_of_mem_head? hx, hqty⟩

end NebulaX
