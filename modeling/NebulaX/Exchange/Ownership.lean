import NebulaX.Exchange.EveryOrder
import NebulaX.Exchange.SimulatorRuns

/-!
# Whose orders may stay crossed

Matching skips the orders of the taker's own user, so two orders of one user may rest crossed. The
strategy has a user of its own, `kStrategyUserId`. A market order has its reference for a user.
References are unique, so two market orders never share a user; but a market order whose reference
is `kStrategyUserId` has the strategy's.

## Main results

* `reached_crossed` — while no market order has that reference, only orders of the strategy cross
* `market_order_crosses_strategy` — one that has it is left alone by an order of the strategy
-/

namespace NebulaX.Exchange

open MatchingEngine

/-! ### What rests, and for whom -/

/-- The reference and the user of the order that a call brings in. -/
def Command.enters : Command → Option (ℕ × ℕ)
  | .add _ ref _ _ _ user _ => some (ref, user)
  | .replace _ _ newRef _ _ _ _ => some (newRef, newRef)
  | .cancel .. | .cancelShares .. => none

/-- Every resting order has something left, and its reference and user are related by `P`. -/
def Owned (P : ℕ → ℕ → Prop) (R : Resting) : Prop :=
  ∀ L b, ∀ x ∈ R L b, 0 < qtyOf x ∧ P x.orderId x.userId

theorem survives_owned (P : ℕ → ℕ → Prop) :
    Survives fun x => 0 < qtyOf x ∧ P x.orderId x.userId where
  partly := fun h ht0 ht => ⟨survives_positive.partly h.1 ht0 ht, h.2⟩
  reduce := fun h hq => ⟨survives_positive.reduce h.1 hq, h.2⟩

/-- **Every call keeps it**, if it holds of the order the call brings in. -/
theorem Effect.owned {P : ℕ → ℕ → Prop} {e : MatchingEngine} (hinv : Inv e) {c : Command}
    {rsp : List BinaryResponse} {R' : Resting} (heff : Effect e c rsp R') (hpos : c.Positive)
    (hnew : ∀ p ∈ c.enters, P p.1 p.2) (h : Owned P e.resting) : Owned P R' := by
  refine heff.every (survives_owned P) hinv h fun R L o ha hopen =>
    ⟨qtyOf_residual_pos (ha.positive hpos) hopen, ?_⟩
  rw [residual, afterFills_orderId, afterFills_userId]
  cases ha with
  | add => exact hnew _ rfl
  | replace => exact hnew _ rfl

end NebulaX.Exchange

namespace NebulaX

open Exchange (MatchingEngine OrderData Owned Command)

/-! ### Runs of the simulator -/

/-- A market order does not bring in the strategy's user as its reference. -/
def ItchEvent.Foreign : ItchEvent → Prop
  | .add _ ref _ _ _ => ref ≠ kStrategyUserId
  | .replace _ _ newRef _ _ => newRef ≠ kStrategyUserId
  | .delete .. | .cancel .. | .book _ => True

/-- A replace brings in an order with something to trade. -/
def ItchEvent.Positive : ItchEvent → Prop
  | .replace _ _ _ _ shares => 0 < shares
  | .add .. | .delete .. | .cancel .. | .book _ => True

/-- The contract about references, for market orders with quantities and references of their
own. -/
def Contract.foreign : Contract where
  market := fun ev sim => ev.Allowed sim.engine.resting ∧ ev.Positive ∧ ev.Foreign
  strategy := fun c sim => c.Allowed sim.engine.resting

theorem Contract.foreign_keepsRefs : Contract.foreign.KeepsRefs := ⟨And.left, id⟩

/-- A submitted order has the strategy's user, a market order its reference. -/
def BelongsTo (submitted : Finset ℕ) (ref user : ℕ) : Prop :=
  (user = kStrategyUserId ∧ ref ∈ submitted) ∨ (user = ref ∧ ref ≠ kStrategyUserId)

/-- Submitting more orders does not change whose the others are. -/
theorem BelongsTo.insert {submitted : Finset ℕ} {ref user : ℕ} (h : BelongsTo submitted ref user)
    (orderId : ℕ) : BelongsTo (insert orderId submitted) ref user :=
  h.imp_left fun ⟨huser, href⟩ => ⟨huser, Finset.mem_insert_of_mem href⟩

/-- The call of an event brings in an order with something to trade. -/
theorem ItchEvent.Positive.command {e : MatchingEngine} {ev : ItchEvent} {c : Command}
    (h : ev.Positive) (hc : ev.command e = some c) : c.Positive := by
  cases ev with
  | replace => exact Option.some.inj hc ▸ h
  | add => exact Option.some.inj hc ▸ trivial
  | delete => exact Option.some.inj hc ▸ trivial
  | cancel => exact Option.some.inj hc ▸ trivial
  | book => exact absurd hc (by simp [ItchEvent.command])

/-- And it has its reference for a user. -/
theorem ItchEvent.Foreign.command {e : MatchingEngine} {ev : ItchEvent} {c : Command}
    {submitted : Finset ℕ} (h : ev.Foreign) (hc : ev.command e = some c) :
    ∀ p ∈ c.enters, BelongsTo submitted p.1 p.2 := by
  intro p hp
  cases ev with
  | add =>
    obtain rfl := Option.some.inj hc
    obtain rfl := Option.some.inj hp
    exact Or.inr ⟨rfl, h⟩
  | replace =>
    obtain rfl := Option.some.inj hc
    obtain rfl := Option.some.inj hp
    exact Or.inr ⟨rfl, h⟩
  | delete =>
    obtain rfl := Option.some.inj hc
    exact absurd hp (by simp [Command.enters])
  | cancel =>
    obtain rfl := Option.some.inj hc
    exact absurd hp (by simp [Command.enters])
  | book => exact absurd hc (by simp [ItchEvent.command])

/-- What the strategy and the market have resting in a simulator. -/
def OwnersKnown (sim : ExchangeSimulator) : Prop :=
  Exchange.Reachable sim.engine ∧ Owned (BelongsTo sim.submitted) sim.engine.resting

/-- A call of the engine keeps the owners known. -/
theorem owned_exec {e e' : MatchingEngine} {P : ℕ → ℕ → Prop}
    {c : Command} {rsp : List Exchange.BinaryResponse} (he : Exchange.Reachable e)
    (hc : c.Allowed e.resting) (hpos : c.Positive) (hnew : ∀ p ∈ c.enters, P p.1 p.2)
    (hexec : e.exec c = some (rsp, e')) (h : Owned P e.resting) :
    Exchange.Reachable e' ∧ Owned P e'.resting :=
  ⟨he.call c hc hexec, (Exchange.effect_of_exec he.inv hc hexec).owned he.inv hpos hnew h⟩

theorem stable_owners : Stable Contract.foreign OwnersKnown OwnersKnown where
  idle := id
  market := by
    rintro ev sim sim' rsp e' marks ⟨hreach, howned⟩ ⟨hallowed, hpos, hforeign⟩ henter hb
    obtain ⟨view, rfl, -⟩ := ExchangeSimulator.broadcast_spec hb
    obtain ⟨c, hc, hexec⟩ := exec_of_enterMarket henter
    exact owned_exec hreach ((ItchEvent.allowed_iff hc).mpr hallowed) (hpos.command hc)
      (hforeign.command hc) hexec howned
  book := fun hi _ => hi
  count := fun _ _ _ hi => hi
  execute := by
    intro sim sim' locate ref qty marks hi hb
    obtain ⟨view, rfl, -⟩ := ExchangeSimulator.broadcast_spec hb
    exact hi
  gone := fun _ hi => hi
  register := fun _ hi => hi
  submit := by
    rintro order orderId tif sim rsp e' ⟨hreach, howned⟩ hc hexec
    refine owned_exec hreach (c := ExchangeSimulator.submitCommand order orderId tif) hc trivial
      ?_ hexec fun L b x hx => ⟨(howned L b x hx).1, (howned L b x hx).2.insert orderId⟩
    intro p hp
    obtain rfl := Option.some.inj hp
    exact Or.inl ⟨rfl, Finset.mem_insert_self ..⟩
  cancel := by
    rintro orderId symbolId userId sim rsp e' ⟨hreach, howned⟩ hc hexec
    exact owned_exec hreach (c := .cancel symbolId orderId userId) hc trivial
      (fun p hp => absurd hp (by simp [Command.enters])) hexec howned

theorem Reached.ownersKnown {E : Type} {cl : Client Contract.foreign.strategy E}
    {r : E × ExchangeSimulator} (h : Reached Contract.foreign cl r) : OwnersKnown r.2 := by
  refine stable_owners.reached (fun capacity _ _ hlo hhi _ => ⟨.start capacity none none hlo hhi,
    fun L b x hx => ?_⟩) h
  rw [Exchange.resting_new rfl] at hx
  exact absurd hx List.not_mem_nil

/-- **A crossed pair is the strategy's**: while no market order has the strategy's user for its
reference, both orders of every crossed pair were submitted. -/
theorem reached_crossed {E : Type} {cl : Client Contract.foreign.strategy E}
    {r : E × ExchangeSimulator} (h : Reached Contract.foreign cl r) {L : ℕ} {bid ask : OrderData}
    (hbid : bid ∈ r.2.engine.resting L true) (hask : ask ∈ r.2.engine.resting L false)
    (hcross : ask.price ≤ bid.price) :
    bid.orderId ∈ r.2.submitted ∧ ask.orderId ∈ r.2.submitted := by
  obtain ⟨hreach, howned⟩ := h.ownersKnown
  obtain ⟨hbidQty, hbidOwner⟩ := howned L true bid hbid
  obtain ⟨haskQty, haskOwner⟩ := howned L false ask hask
  have huser : bid.userId = ask.userId := hreach.uncrossed L true bid hbid ask hask hbidQty haskQty
    (decide_eq_false (UInt32.not_lt.mpr hcross))
  rcases hbidOwner with ⟨hb, hbs⟩ | ⟨hb, hbne⟩
  · rcases haskOwner with ⟨-, has⟩ | ⟨ha, hane⟩
    · exact ⟨hbs, has⟩
    · exact absurd (ha.symm.trans (huser.symm.trans hb)) hane
  · rcases haskOwner with ⟨ha, -⟩ | ⟨ha, -⟩
    · exact absurd (hb.symm.trans (huser.trans ha)) hbne
    · -- two market orders of one user are one order, and it is on one side
      have hid : bid.orderId = ask.orderId := hb.symm.trans (huser.trans ha)
      obtain ⟨-, hside, -⟩ := hreach.inv.refsUnique.unique hbid hask hid
      exact absurd hside (by decide)

/-- A test for runs whose only market event is a given one. -/
def oneEventTest (ev : ItchEvent) (c : SimCall) (sim : ExchangeSimulator) : Bool :=
  ExchangeSimulator.refsTest c sim && match c with
    | .market ev' => ev' = ev
    | .strategy _ => true

/-- Two orders of the strategy rest crossed beside an order of the market. -/
theorem reached_crossed_two : ∃ r, ExchangeSimulator.play
    (Client.silent Contract.foreign.strategy).toCallbacks (oneEventTest (.add 0 1 .sell 200 5))
    [.market (.add 0 1 .sell 200 5), .strategy (.submit { price := 101, quantity := 3 } 8 .day),
      .strategy (.submit { side := .sell, price := 100, quantity := 3 } 9 .day)]
    ((), .new 4 none fun _ _ => []) = some r ∧
    ∃ bid ask, bid ∈ r.2.engine.resting 0 true ∧ ask ∈ r.2.engine.resting 0 false ∧
      ask.price ≤ bid.price ∧ bid.orderId ∈ r.2.submitted ∧ ask.orderId ∈ r.2.submitted := by
  have hread : (ExchangeSimulator.play (Client.silent Contract.foreign.strategy).toCallbacks
      (oneEventTest (.add 0 1 .sell 200 5))
      [.market (.add 0 1 .sell 200 5), .strategy (.submit { price := 101, quantity := 3 } 8 .day),
        .strategy (.submit { side := .sell, price := 100, quantity := 3 } 9 .day)]
      ((), .new 4 none fun _ _ => [])).map (fun r => ((r.2.engine.resting 0 true).head?.map
        OrderData.price, (r.2.engine.resting 0 false).head?.map OrderData.price)) =
      some (some 101, some 100) := by decide +kernel
  obtain ⟨r, hr, heq⟩ := Option.map_eq_some_iff.mp hread
  obtain ⟨hbid, hask⟩ := Prod.mk.inj heq
  obtain ⟨bid, hbid, hbidPrice⟩ := Option.map_eq_some_iff.mp hbid
  obtain ⟨ask, hask, haskPrice⟩ := Option.map_eq_some_iff.mp hask
  have hbid := List.mem_of_mem_head? hbid
  have hask := List.mem_of_mem_head? hask
  have hcross : ask.price ≤ bid.price := by
    rw [hbidPrice, haskPrice]
    decide
  have hstart : Reached Contract.foreign (Client.silent Contract.foreign.strategy)
      ((), .new 4 none fun _ _ => []) := .start () 4 none _ (by decide) (by decide) (by simp)
  have hreached : Reached Contract.foreign (Client.silent Contract.foreign.strategy) r := by
    refine hstart.play (fun {s sim ev} h htest => ?_) (fun h htest => ?_) hr
    · obtain ⟨hrefs, hev⟩ := (Bool.and_eq_true _ _).mp htest
      obtain rfl := of_decide_eq_true hev
      exact ⟨ExchangeSimulator.refsTest_market (h.engine Contract.foreign_keepsRefs).inv hrefs,
        trivial, show (1 : ℕ) ≠ kStrategyUserId by decide⟩
    · exact ExchangeSimulator.refsTest_strategy (h.engine Contract.foreign_keepsRefs).inv
        ((Bool.and_eq_true _ _).mp htest).1
  obtain ⟨hbidSub, haskSub⟩ := reached_crossed hreached hbid hask hcross
  exact ⟨r, hr, bid, ask, hbid, hask, hcross, hbidSub, haskSub⟩

/-- A market order with the reference `kStrategyUserId` is left alone by a crossing order of the
strategy. -/
theorem market_order_crosses_strategy : ∃ r, ExchangeSimulator.play
    (Client.silent Contract.refs.strategy).toCallbacks ExchangeSimulator.refsTest
    [.market (.add 0 0x4E585F55 .sell 100 5),
      .strategy (.submit { price := 101, quantity := 5 } 9 .day)]
    ((), .new 4 none fun _ _ => []) = some r ∧
    (r.2.engine.resting 0 true).map (fun o => (o.orderId, o.price)) = [(9, 101)] ∧
    (r.2.engine.resting 0 false).map (fun o => (o.orderId, o.price)) = [(0x4E585F55, 100)] ∧
    0x4E585F55 ∉ r.2.submitted ∧ 9 ∈ r.2.submitted := by
  have hread : (ExchangeSimulator.play (Client.silent Contract.refs.strategy).toCallbacks
      ExchangeSimulator.refsTest [.market (.add 0 0x4E585F55 .sell 100 5),
        .strategy (.submit { price := 101, quantity := 5 } 9 .day)]
      ((), .new 4 none fun _ _ => [])).map (fun r =>
        ((r.2.engine.resting 0 true).map (fun o => (o.orderId, o.price)),
          (r.2.engine.resting 0 false).map (fun o => (o.orderId, o.price)), r.2.submitted)) =
      some ([(9, 101)], [(0x4E585F55, 100)], {9}) := by decide +kernel
  obtain ⟨r, hr, heq⟩ := Option.map_eq_some_iff.mp hread
  obtain ⟨hbid, heq⟩ := Prod.mk.inj heq
  obtain ⟨hask, hsub⟩ := Prod.mk.inj heq
  refine ⟨r, hr, hbid, hask, ?_, ?_⟩
  · rw [hsub]
    decide
  · rw [hsub]
    decide

end NebulaX
