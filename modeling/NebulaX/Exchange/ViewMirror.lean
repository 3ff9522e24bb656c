import NebulaX.Exchange.Mirror
import NebulaX.Exchange.ViewRuns

/-!
# The view mirrors the market orders

What the market side of the simulator is for: the view should hold the market orders that rest in
the engine, and nothing else. It follows an event of the market, then trade by trade what the event
matched, and between these trades the strategy may already trade with the same orders.

The references are shared out beforehand: those in `S` are the strategy's, the others the market's.

## Main results

* `Mirrors.event` — an event, and the reductions it leaves to be made
* `Mirrored.routeTrades` — the loop over the trades makes them, whatever the strategy does meanwhile
* `reached_mirror` — after every call, the view holds exactly the market orders that rest
-/

namespace NebulaX

open Exchange (MatchingEngine BinaryResponse OrderData Resting Arrival Command Effect Inv Fresh
  Rests RoutedTo RefsUnique NotOwned makerQty effect_of_exec keeps_of_exec)
open Market (OrderSlotView OrderBookConsumer)
open Pending (settle)
open ExchangeSimulator (makerCuts takerCut tradesIn totalFill)

/-! ### The view while its index is complete -/

section View

variable {c : OrderBookConsumer}

/-- What it holds is found. -/
theorem finds_eq (h : c.Ok) (hd : c.books.shared.insertDropped = false) (ref : ℕ) :
    c.finds ref = (c.books.held ref).isSome := by
  rcases h.find ref with ⟨hno, hf⟩ | ⟨i, hyes, -, hheld⟩
  · rw [hno]
    cases hs : c.books.held ref with
    | none => rfl
    | some s =>
      obtain ⟨fl, hrep⟩ := h
      obtain ⟨i, hi, -⟩ := hrep.find_of_held hd hs
      exact absurd (hf.symm.trans hi) (by simp)
  · rw [hyes, hheld]
    rfl

/-- So it can be looked up. -/
theorem get_eq_held (h : c.Ok) (hd : c.books.shared.insertDropped = false) (ref : ℕ) :
    Market.OrderBook.get c.books.shared ref = some (c.books.held ref) := by
  rw [Market.OrderBook.get]
  rcases h.find ref with ⟨hno, hf⟩ | ⟨i, -, hf, hheld⟩
  · have hnone : c.books.held ref = none := by
      rw [finds_eq h hd] at hno
      exact Option.isNone_iff_eq_none.mp (by simpa using hno)
    rw [hf, hnone]
    rfl
  · rw [hf, hheld]
    rfl

/-- A reduction reduces. -/
theorem heldReduced_eq (h : c.Ok) (hd : c.books.shared.insertDropped = false) (ref : ℕ)
    (q : UInt64) :
    c.heldReduced ref q = Function.update c.books.held ref (reduce (c.books.held ref) q) := by
  rw [OrderBookConsumer.heldReduced, finds_eq h hd]
  cases hs : c.books.held ref with
  | none =>
    rw [if_neg (by simp), reduce_none]
    exact (Function.update_eq_self_iff.mpr hs.symm).symm
  | some s => exact if_pos rfl

/-- A delete deletes. -/
theorem heldAfter_delete (h : c.Ok) (hd : c.books.shared.insertDropped = false)
    (o : OrderEvent) :
    c.heldAfter (.delete o) = Function.update c.books.held o.orderRef none := by
  rw [OrderBookConsumer.heldAfter, finds_eq h hd]
  cases hs : c.books.held o.orderRef with
  | none => exact (Function.update_eq_self_iff.mpr hs.symm).symm
  | some s => exact if_pos rfl

end View

/-! ### The relation -/

/-- The view shows the market orders once the reductions `ws` are made, and no other orders. -/
structure Mirrors (S : Set ℕ) (ws : List (ℕ × UInt64)) (R : Resting)
    (held : ℕ → Option OrderSlotView) (addedTo : ℕ → ℕ) : Prop where
  /-- Orders of the strategy are not shown. -/
  strategy : ∀ ref ∈ S, held ref = none
  /-- Orders of the market are. -/
  market : ∀ ref ∉ S, MirrorsAt R ref (settle reduce ref ws (held ref)) (addedTo ref)

namespace Mirrors

variable {S : Set ℕ} {ws : List (ℕ × UInt64)} {e : MatchingEngine} {R R' : Resting}
  {held : ℕ → Option OrderSlotView} {addedTo : ℕ → ℕ} {c : Command} {rsp : List BinaryResponse}

/-- **A reduction arrives.** -/
theorem deliver {w : ℕ × UInt64} (hm : Mirrors S (w :: ws) R held addedTo) :
    Mirrors S ws R (Function.update held w.1 (reduce (held w.1) w.2)) addedTo := by
  refine ⟨fun ref href => ?_, fun ref href => ?_⟩
  · by_cases hw : ref = w.1
    · subst hw
      rw [Function.update_self, hm.strategy _ href]
      rfl
    · rw [Function.update_of_ne hw]
      exact hm.strategy ref href
  · rw [Pending.settle_deliver]
    exact hm.market ref href

/-- A reduction of an order of the strategy need not arrive. -/
theorem skip {w : ℕ × UInt64} (hm : Mirrors S (w :: ws) R held addedTo) (hw : w.1 ∈ S) :
    Mirrors S ws R held addedTo := by
  refine ⟨hm.strategy, fun ref href => ?_⟩
  have hne : w.1 ≠ ref := fun he => href (he ▸ hw)
  rw [← Pending.settle_cons_of_ne hne]
  exact hm.market ref href

/-- **A call that names orders of the strategy only** leaves the reductions for its trades to be
made, on top of the others. -/
theorem call (hm : Mirrors S ws e.resting held addedTo) (hinv : Inv e) (heff : Effect e c rsp R')
    (hnamed : ∀ ref ∉ S, c.newRef ≠ some ref ∧ c.target ≠ some ref) :
    Mirrors S (makerCuts rsp ++ ws) R' held addedTo := by
  refine ⟨hm.strategy, fun ref href => ?_⟩
  rw [Pending.settle_append, Pending.settle_swap reduce_comm]
  exact (hm.market ref href).effect hinv heff (hnamed ref href).1 (hnamed ref href).2

/-- An order comes in that is shown in full. -/
theorem arrival {L : ℕ} {o : OrderData} {s : OrderSlotView} (hR : RefsUnique R)
    (ha : Arrival R L o true rsp R') (hfresh : Fresh R o.orderId) (hopen : o.status = .open)
    (hs : Shows s o.side.isBuy o) (hS : o.orderId ∉ S) (hstrategy : ∀ ref ∈ S, held ref = none)
    (hmarket : ∀ ref ∉ S, ref ≠ o.orderId → MirrorsAt R ref (held ref) (addedTo ref)) :
    Mirrors S (makerCuts rsp ++ takerCut o.orderId rsp) R'
      (Function.update held o.orderId (some s)) (Function.update addedTo o.orderId L) := by
  refine ⟨fun ref href => ?_, fun ref href => ?_⟩
  · have hne : ref ≠ o.orderId := fun he => hS (he ▸ href)
    rw [Function.update_of_ne hne]
    exact hstrategy ref href
  · rw [Pending.settle_append]
    by_cases hid : ref = o.orderId
    · subst hid
      have hmaker : o.orderId ∉ (makerCuts rsp).map Prod.fst := by
        rw [makerCuts_of_arrival ha, List.map_map]
        intro hmem
        obtain ⟨p, hp, hpid⟩ := List.mem_map.mp hmem
        exact hfresh _ _ p.1 (Exchange.mem_of_mem_tradesOf hp).1 hpid
      rw [Function.update_self, Function.update_self, Pending.settle_of_not_mem hmaker]
      exact .taker hs hfresh hopen ha
    · rw [Function.update_of_ne hid, Function.update_of_ne hid,
        ExchangeSimulator.settle_takerCut_of_ne hid]
      exact (hmarket ref href hid).arrival hR ha hid

/-- A call that names one market order, and trades with none. -/
theorem target (hm : Mirrors S [] e.resting held addedTo) (hinv : Inv e)
    (heff : Effect e c rsp R') (hnew : c.newRef = none) {ref : ℕ} (htarget : c.target = some ref)
    (hS : ref ∉ S) (hnil : tradesIn rsp = []) {h : Option OrderSlotView}
    (hat : MirrorsAt R' ref h (addedTo ref)) :
    Mirrors S [] R' (Function.update held ref h) addedTo := by
  refine ⟨fun r hr => ?_, fun r hr => ?_⟩
  · have hne : r ≠ ref := fun he => hS (he ▸ hr)
    rw [Function.update_of_ne hne]
    exact hm.strategy r hr
  · by_cases hne : r = ref
    · subst hne
      rw [Function.update_self]
      exact hat
    · rw [Function.update_of_ne hne]
      have heffect := (hm.market r hr).effect hinv heff (by rw [hnew]; simp) (by
        rw [htarget]
        exact fun he => hne (Option.some.inj he).symm)
      rwa [makerCuts, hnil] at heffect

end Mirrors

/-! ### Events of the market -/

/-- What does not depend on the index: the engine can be reached, the view is well formed, only
orders of the strategy are registered, and a market order has its reference for a user. -/
structure Sound (S : Set ℕ) (sim : ExchangeSimulator) : Prop where
  /-- The engine. -/
  engine : Exchange.Reachable sim.engine
  /-- The view. -/
  view : ViewOk sim
  /-- The registry. -/
  registry : ∀ ref ∈ sim.strategyRefs, ref ∈ S
  /-- The users. -/
  owner : Exchange.Every (fun x => x.orderId ∉ S → x.userId = x.orderId) sim.engine.resting

/-- Neither index has dropped an insert. -/
def ExchangeSimulator.Complete (sim : ExchangeSimulator) : Prop :=
  sim.engine.shared.insertDropped = false ∧
    ∀ c ∈ sim.view, c.books.shared.insertDropped = false

/-- An add has all its fields, and finds a free slot in the engine and in the view. -/
def ItchEvent.Enters (sim : ExchangeSimulator) : ItchEvent → Prop
  | .add _ ref side price shares =>
    (side ≠ .invalid ∧ price ≠ 0 ∧ shares ≠ 0 ∧ ref ≠ 0) ∧ sim.engine.hasRoom = true ∧
      ∀ c ∈ sim.view, c.hasRoom = true
  | .delete .. | .cancel .. | .replace .. | .book _ => True

/-- **The contract**: the strategy uses the references in `S`, the market the others. Adds are
complete and find room, and no index has dropped an insert before. -/
def Contract.mirror (S : Set ℕ) : Contract where
  market := fun ev sim => ev.Allowed sim.engine.resting ∧ (∀ ref ∈ ev.refs, ref ∉ S) ∧
    ev.Enters sim ∧ sim.Complete
  strategy := fun c sim => c.Allowed sim.engine.resting ∧
    match c with
    | .submit _ orderId _ | .cancel orderId _ _ => orderId ∈ S

section Event

variable {S : Set ℕ} {sim : ExchangeSimulator} {c : OrderBookConsumer}
  {rsp : List BinaryResponse} {R' : Resting}

/-- A market order that the engine does not find does not rest. -/
theorem Sound.fresh (h : Sound S sim) (hd : sim.engine.shared.insertDropped = false) {L ref : ℕ}
    (hnone : NotOwned sim.engine L ref ref) (hroute : RoutedTo sim.engine.resting ref L)
    (hS : ref ∉ S) : Fresh sim.engine.resting ref := by
  intro L' b x hx hid
  obtain rfl := hroute L' b x hx hid
  exact hnone hd b x hx hid ((h.owner L' b x hx (hid ▸ hS)).trans hid)

/-- A replace finds the side of the order that rests. -/
theorem oldSide_of_resting {e : MatchingEngine} (hinv : Inv e)
    (hd : e.shared.insertDropped = false) {L : ℕ} {b : Bool} {x : OrderData}
    (hx : x ∈ e.resting L b) : ExchangeSimulator.oldSide e x.orderId = some (.ofBuy b) := by
  obtain ⟨i, hi, hid⟩ := Exchange.onLevel_of_resting hinv hx
  have hfound := Exchange.findOrder_of_onLevel hinv hd hi
  rw [hid] at hfound
  rw [ExchangeSimulator.oldSide, hfound]
  obtain ⟨G, fl, hrep⟩ := hinv
  exact congrArg some (hrep.side _ _ _ i (hrep.onLevel_iff.mp hi))

/-- Nothing to reduce where nothing traded. -/
theorem cuts_eq_nil (hnil : tradesIn rsp = []) (ref : ℕ) :
    makerCuts rsp ++ takerCut ref rsp = [] := by
  rw [makerCuts, takerCut, hnil]
  rfl

/-- **An add** shows the order in full. -/
theorem Mirrors.add (hm : Mirrors S [] sim.engine.resting c.books.held c.books.addedTo)
    (h : Sound S sim) {L : UInt16} {ref : ℕ} {side : Exchange.Side} {price shares : UInt32}
    (hfresh : Fresh sim.engine.resting ref) (hS : ref ∉ S)
    (henters : (ItchEvent.add L ref side price shares).Enters sim)
    (heff : Effect sim.engine (.add L.toNat ref side price shares ref .day) rsp R') :
    Mirrors S (makerCuts rsp ++ takerCut ref rsp) R'
      (Function.update c.books.held ref (some (c.newSlot
        { side := if side = .buy then .buy else .sell, price := price.toUInt64.toInt64,
          shares := shares.toUInt64, orderRef := ref })))
      (Function.update c.books.addedTo ref L.toNat) := by
  obtain ⟨⟨hside, hprice, hshares, href⟩, hroom, -⟩ := henters
  have hvalid : Exchange.addError L.toNat ref side price shares ref .day = none := by
    have hL : L.toNat < MatchingEngine.kMaxLocate := L.toNat_lt
    rw [Exchange.addError, if_pos hL, if_neg hside, if_neg]
    simp [hprice, hshares, href]
  cases heff with
  | rejected hcode => exact absurd (hvalid.symm.trans hcode) (by simp)
  | added _ ha =>
    simp only [Exchange.effectivePrice_day, MatchingEngine.roomAfter, hroom, Bool.true_or,
      Bool.true_and, decide_true, ne_eq, hside, not_false_eq_true] at ha
    refine Mirrors.arrival (o := sim.engine.newOrder ref side price shares ref)
      h.engine.inv.refsUnique ha hfresh rfl ⟨?_, rfl, rfl⟩ hS hm.strategy
      fun r hr _ => hm.market r hr
    cases side with
    | buy => rfl
    | sell => rfl
    | invalid => exact absurd rfl hside

/-- **A delete** shows the order no more. -/
theorem Mirrors.delete (hm : Mirrors S [] sim.engine.resting c.books.held c.books.addedTo)
    (h : Sound S sim) (hcomplete : sim.Complete) {L : UInt16} {ref : ℕ}
    (hroute : RoutedTo sim.engine.resting ref L.toNat) (hS : ref ∉ S)
    (heff : Effect sim.engine (.cancel L.toNat ref ref) rsp R') :
    Mirrors S (makerCuts rsp ++ takerCut ref rsp) R' (Function.update c.books.held ref none)
      c.books.addedTo := by
  have hinv := h.engine.inv
  have hnil : tradesIn rsp = [] := by cases heff <;> rfl
  rw [cuts_eq_nil hnil]
  refine hm.target hinv heff rfl rfl hS hnil ?_
  show Fresh R' ref
  cases heff with
  | cancelled hx hid =>
    subst hid
    exact hinv.refsUnique.fresh_leave hx
  | cancelRefused hnone => exact h.fresh hcomplete.1 hnone hroute hS

/-- **A partial cancel** shows what is left of it. -/
theorem Mirrors.cancel (hm : Mirrors S [] sim.engine.resting c.books.held c.books.addedTo)
    (h : Sound S sim) (hcomplete : sim.Complete) {L : UInt16} {ref : ℕ} {shares : UInt32}
    (hroute : RoutedTo sim.engine.resting ref L.toNat) (hS : ref ∉ S)
    (heff : Effect sim.engine (.cancelShares L.toNat ref shares ref) rsp R') :
    Mirrors S (makerCuts rsp ++ takerCut ref rsp) R'
      (Function.update c.books.held ref (reduce (c.books.held ref) shares.toUInt64))
      c.books.addedTo := by
  have hinv := h.engine.inv
  have hat : MirrorsAt sim.engine.resting ref (c.books.held ref) (c.books.addedTo ref) :=
    hm.market ref hS
  have hnil : tradesIn rsp = [] := by cases heff <;> rfl
  rw [cuts_eq_nil hnil]
  refine hm.target hinv heff rfl rfl hS hnil ?_
  cases heff with
  | sharesAll hx hid _ hle =>
    subst hid
    obtain ⟨s, hs, -, hshows⟩ := hat.of_mem hinv.refsUnique hx rfl
    rw [hs]
    show MirrorsAt _ _ (Market.OrderBookConsumer.cut s _) _
    rw [hshows.cut_all]
    · exact hinv.refsUnique.fresh_leave hx
    · rw [UInt32.toNat_toUInt64]
      exact UInt32.le_iff_toNat_le.mp hle
  | @sharesPart _ _ _ _ b x hx hid _ hlt =>
    subst hid
    obtain ⟨s, hs, hto, hshows⟩ := hat.of_mem hinv.refsUnique hx rfl
    have hlt := UInt32.lt_iff_toNat_lt.mp hlt
    obtain ⟨s', hcut, hrest⟩ := hshows.cut_part (q := shares.toUInt64)
      (by rwa [UInt32.toNat_toUInt64])
    rw [hs, hto]
    show MirrorsAt _ _ (Market.OrderBookConsumer.cut s _) _
    rw [hcut]
    refine ⟨b, x.reduce shares, ?_, rfl, hrest _ rfl ?_⟩
    · rw [Exchange.shrink, Exchange.setSide_self]
      exact List.mem_map.mpr ⟨x, hx, if_pos rfl⟩
    · rw [UInt32.toNat_toUInt64]
      exact UInt32.toNat_sub_of_le _ _ (UInt32.le_iff_toNat_le.mpr (Nat.le_of_lt hlt))
  | sharesRefused hnone =>
    have hfresh := h.fresh hcomplete.1 hnone hroute hS
    rw [hat.eq_none hfresh]
    exact hfresh

/-- **A replace** shows the new order in full, and the old one no more. -/
theorem Mirrors.replace (hm : Mirrors S [] sim.engine.resting c.books.held c.books.addedTo)
    (h : Sound S sim) (hcomplete : sim.Complete) (hc : c ∈ sim.view) {L : UInt16}
    {ref newRef : ℕ} {price shares : UInt32}
    (hroute : RoutedTo sim.engine.resting ref L.toNat)
    (hnew : newRef = ref ∨ Fresh sim.engine.resting newRef) (hS : ref ∉ S) (hS' : newRef ∉ S)
    (heff : Effect sim.engine (.replace L.toNat ref newRef
      ((ExchangeSimulator.oldSide sim.engine ref).getD .invalid) price shares ref) rsp R')
    (clock : ℕ) :
    Mirrors S (makerCuts rsp ++ takerCut newRef rsp) R'
      (c.heldAfter
        (ExchangeSimulator.toMarketEvent clock (.replace L ref newRef price shares)).body)
      (c.addedToAfter
        (ExchangeSimulator.toMarketEvent clock (.replace L ref newRef price shares))) := by
  have hinv := h.engine.inv
  have hat : MirrorsAt sim.engine.resting ref (c.books.held ref) (c.books.addedTo ref) :=
    hm.market ref hS
  have hfinds := finds_eq (h.view c hc) (hcomplete.2 c hc) ref
  rw [ExchangeSimulator.toMarketEvent, OrderBookConsumer.heldAfter,
    OrderBookConsumer.addedToAfter]
  simp only [hfinds]
  generalize hside : (ExchangeSimulator.oldSide sim.engine ref).getD .invalid = side at heff
  cases heff with
  | @replaced _ _ _ _ _ _ _ b x _ _ hx hid _ ha =>
    subst hid
    rw [oldSide_of_resting hinv hcomplete.1 hx, Option.getD_some] at hside
    subst hside
    have hstays : decide (Exchange.Side.ofBuy b ≠ .invalid) = true := by simp
    rw [hstays] at ha
    obtain ⟨s, hs, -, hshows⟩ := hat.of_mem hinv.refsUnique hx rfl
    have hgone := hinv.refsUnique.fresh_leave hx
    rw [hs]
    refine @Mirrors.arrival S _ R' (Function.update c.books.held x.orderId none) _ rsp _
      (sim.engine.newOrder newRef (.ofBuy b) price shares newRef) _
      (hinv.refsUnique.leave _ _ _) ha ?_ rfl ⟨?_, rfl, rfl⟩ hS' (fun r hr => ?_)
      fun r hr hne => ?_
    · rcases hnew with rfl | hnew
      · exact hgone
      · exact fun L' b' y hy => hnew L' b' y (Exchange.mem_leave hy)
    · show s.side = if (Exchange.Side.ofBuy b).isBuy then _ else _
      rw [Exchange.Side.isBuy_ofBuy]
      exact hshows.side
    · have hne : r ≠ x.orderId := fun he => hS (he ▸ hr)
      rw [Function.update_of_ne hne]
      exact hm.strategy r hr
    · by_cases hold : r = x.orderId
      · subst hold
        rw [Function.update_self]
        exact hgone
      · rw [Function.update_of_ne hold]
        exact MirrorsAt.leave (hm.market r hr) hold _ _
  | replaceRefused hnone =>
    have hfresh := h.fresh hcomplete.1 hnone hroute hS
    rw [cuts_eq_nil rfl, hat.eq_none hfresh]
    exact hm

/-- **An event** is shown, and leaves the reductions for its trades to be made. -/
theorem Mirrors.event (hm : Mirrors S [] sim.engine.resting c.books.held c.books.addedTo)
    (h : Sound S sim) (hc : c ∈ sim.view) {ev : ItchEvent}
    (hev : (Contract.mirror S).market ev sim) {d : Command} (hd : ev.command sim.engine = some d)
    (heff : Effect sim.engine d rsp R') (clock : ℕ) :
    Mirrors S (makerCuts rsp ++ takerCut (ExchangeSimulator.takerRef ev) rsp) R'
      (c.heldAfter (ExchangeSimulator.toMarketEvent clock ev).body)
      (c.addedToAfter (ExchangeSimulator.toMarketEvent clock ev)) := by
  obtain ⟨hallowed, hS, henters, hcomplete⟩ := hev
  have hok := h.view c hc
  have hcd := hcomplete.2 c hc
  cases ev with
  | add L ref side price shares =>
    obtain rfl := Option.some.inj hd
    have hadd := hm.add h hallowed (hS ref List.mem_cons_self) henters heff
    rw [ExchangeSimulator.toMarketEvent, OrderBookConsumer.heldAfter,
      OrderBookConsumer.addedToAfter]
    simp only [henters.2.2 c hc, if_true]
    exact hadd
  | delete L ref =>
    obtain rfl := Option.some.inj hd
    rw [ExchangeSimulator.toMarketEvent, heldAfter_delete hok hcd]
    exact hm.delete h hcomplete hallowed (hS ref List.mem_cons_self) heff
  | cancel L ref shares =>
    obtain rfl := Option.some.inj hd
    rw [ExchangeSimulator.toMarketEvent, OrderBookConsumer.heldAfter, heldReduced_eq hok hcd]
    exact hm.cancel h hcomplete hallowed (hS ref List.mem_cons_self) heff
  | replace L ref newRef price shares =>
    obtain rfl := Option.some.inj hd
    exact hm.replace h hcomplete hc hallowed.1 hallowed.2 (hS ref List.mem_cons_self)
      (hS newRef (List.mem_cons_of_mem _ List.mem_cons_self)) heff clock
  | book => exact absurd hd (by simp [ItchEvent.command])

/-- A market event brings in nothing that the view holds already. -/
theorem Mirrors.newIn (hm : Mirrors S [] sim.engine.resting c.books.held c.books.addedTo)
    {ev : ItchEvent} (hev : (Contract.mirror S).market ev sim) : ev.NewIn c.books.held := by
  obtain ⟨hallowed, hS, -, -⟩ := hev
  cases ev with
  | add L ref => exact (hm.market ref (hS ref List.mem_cons_self)).eq_none hallowed
  | replace L ref newRef =>
    have hS' := hS newRef (List.mem_cons_of_mem _ List.mem_cons_self)
    exact hallowed.2.imp_right fun hfresh => (hm.market newRef hS').eq_none hfresh
  | delete => trivial
  | cancel => trivial
  | book => trivial

end Event

/-! ### The steps of a call -/

/-- **The invariant**, with the reductions `ws` to be made: while the indexes are complete, the view
mirrors the market orders. -/
structure Mirrored (S : Set ℕ) (ws : List (ℕ × UInt64)) (sim : ExchangeSimulator) : Prop where
  /-- What does not depend on the indexes. -/
  sound : Sound S sim
  /-- What does. -/
  mirrors : sim.Complete → ∀ c ∈ sim.view,
    Mirrors S ws sim.engine.resting c.books.held c.books.addedTo

/-- **A broadcast** that the view can take. -/
theorem broadcast_becomes {sim sim' : ExchangeSimulator} {ev : MarketEvent} {marks : List Mark}
    (h : ViewOk sim) (ht : ∀ c ∈ sim.view, c.Takes ev.body)
    (hb : sim.broadcast ev = some (marks, sim')) :
    ∀ c' ∈ sim'.view, ∃ c ∈ sim.view, c.Becomes c' (c.heldAfter ev.body) (c.addedToAfter ev) := by
  obtain ⟨view, rfl, hview⟩ := ExchangeSimulator.broadcast_spec hb
  intro c' hc'
  cases hold : sim.view with
  | none =>
    rw [hold] at hview
    exact absurd hc' (by simp [hview])
  | some c =>
    rw [hold] at hview
    obtain ⟨c'', hc'', rfl⟩ := hview
    obtain rfl := Option.some.inj hc'
    exact ⟨c, rfl, OrderBookConsumer.becomes_of_onEvent (h c hold) (ht c hold) hc''⟩

section Steps

variable {S : Set ℕ} {ws : List (ℕ × UInt64)} {sim sim' : ExchangeSimulator}

/-- It depends on the engine, the view and the registry only. -/
theorem Mirrored.congr (h : Mirrored S ws sim) (he : sim'.engine = sim.engine)
    (hv : sim'.view = sim.view) (hr : ∀ ref ∈ sim'.strategyRefs, ref ∈ S) :
    Mirrored S ws sim' := by
  obtain ⟨⟨hengine, hview, -, howner⟩, hmirrors⟩ := h
  refine ⟨⟨he ▸ hengine, ?_, hr, he ▸ howner⟩, ?_⟩
  · rwa [ViewOk, hv]
  · rw [ExchangeSimulator.Complete, he, hv]
    exact hmirrors

/-- **An `EXECUTE` is broadcast**: the reduction is made. -/
theorem Mirrored.execute {L ref : ℕ} {q : UInt64} {marks : List Mark}
    (h : Mirrored S ((ref, q) :: ws) sim)
    (hb : sim.broadcast (ExchangeSimulator.makeExecute L ref q) = some (marks, sim')) :
    Mirrored S ws sim' := by
  have ht : ∀ c ∈ sim.view, c.Takes (ExchangeSimulator.makeExecute L ref q).body :=
    fun c _ => show c.Takes (.execute _) from trivial
  have hbecomes := broadcast_becomes h.sound.view ht hb
  have hview := h.sound.view.broadcast ht hb
  obtain ⟨view, rfl, -⟩ := ExchangeSimulator.broadcast_spec hb
  refine ⟨⟨h.sound.engine, hview, h.sound.registry, h.sound.owner⟩, fun hcomplete c' hc' => ?_⟩
  obtain ⟨c, hc, hb⟩ := hbecomes c' hc'
  -- the reduction touched an index that is complete
  have hd : ∀ c ∈ sim.view, c.books.shared.insertDropped = false := fun c₁ hc₁ => by
    obtain rfl : c = c₁ := Option.some.inj (hc.symm.trans hc₁)
    exact hb.dropped (hcomplete.2 c' hc')
  have hm := h.mirrors ⟨hcomplete.1, hd⟩ c hc
  rw [hb.held, hb.addedTo, ExchangeSimulator.makeExecute, OrderBookConsumer.heldAfter,
    heldReduced_eq (h.sound.view c hc) (hd c hc)]
  exact hm.deliver

/-- An engine call keeps what does not depend on the indexes. -/
theorem Sound.exec (h : Sound S sim) {c : Command} (hc : c.Allowed sim.engine.resting)
    (henters : ∀ p ∈ c.enters, p.1 ∉ S → p.2 = p.1) {rsp : List BinaryResponse}
    {e' : MatchingEngine} (hexec : sim.engine.exec c = some (rsp, e')) :
    Exchange.Reachable e' ∧
      Exchange.Every (fun x => x.orderId ∉ S → x.userId = x.orderId) e'.resting := by
  refine ⟨h.engine.call c hc hexec, (effect_of_exec h.engine.inv hc hexec).every ⟨?_, ?_⟩
    h.engine.inv h.owner fun R L o ha _ => ?_⟩
  · exact fun hx _ _ => hx
  · exact fun hx _ => hx
  · rw [Exchange.residual, Exchange.afterFills_orderId, Exchange.afterFills_userId]
    cases ha with
    | add => exact henters _ rfl
    | replace => exact henters _ rfl

/-- **The strategy calls the engine**: the reductions for the trades are to be made first. -/
theorem Mirrored.exec (h : Mirrored S ws sim) {c : Command} (hc : c.Allowed sim.engine.resting)
    (hnamed : ∀ ref ∉ S, c.newRef ≠ some ref ∧ c.target ≠ some ref)
    (henters : ∀ p ∈ c.enters, p.1 ∉ S → p.2 = p.1) {rsp : List BinaryResponse}
    {e' : MatchingEngine} (hexec : sim.engine.exec c = some (rsp, e'))
    (he : sim'.engine = e') (hv : sim'.view = sim.view)
    (hr : sim'.strategyRefs = sim.strategyRefs) : Mirrored S (makerCuts rsp ++ ws) sim' := by
  subst he
  have hinv := h.sound.engine.inv
  obtain ⟨hengine, howner⟩ := h.sound.exec hc henters hexec
  have hview := h.sound.view
  refine ⟨⟨hengine, ?_, ?_, howner⟩, fun hcomplete c' hc' => ?_⟩
  · rwa [ViewOk, hv]
  · rw [hr]
    exact h.sound.registry
  · have hd := (keeps_of_exec hinv hc hexec).dropped hcomplete.1
    rw [ExchangeSimulator.Complete, hv] at hcomplete
    rw [hv] at hc'
    exact (h.mirrors ⟨hd, hcomplete.2⟩ c' hc').call hinv (effect_of_exec hinv hc hexec) hnamed

/-- The answers to a submit: every trade is broadcast. -/
theorem Mirrored.takeAnswers {order : Order} {orderId : ℕ} (hS : orderId ∈ S)
    {rsp : List BinaryResponse} {s s' : ExchangeSubmitResult × List Mark × ExchangeSimulator}
    (h : Mirrored S (makerCuts rsp ++ ws) s.2.2)
    (hcall : rsp.foldlM (ExchangeSimulator.takeAnswer order orderId) s = some s') :
    Mirrored S ws s'.2.2 := by
  induction rsp generalizing s with
  | nil =>
    obtain rfl := Option.some.inj hcall
    exact h
  | cons r rsp ih =>
    obtain ⟨s₁, hfirst, hrest⟩ := Option.bind_eq_some_iff.mp hcall
    refine ih ?_ hrest
    cases r with
    | trade _ maker _ _ quantity =>
      obtain ⟨⟨marks, sim₁⟩, hb, rfl⟩ := Option.map_eq_some_iff.mp hfirst
      have hcount : Mirrored S ((maker, quantity.toUInt64) :: (makerCuts rsp ++ ws))
          (s.2.2.countTrade orderId maker quantity) := h.congr rfl rfl h.sound.registry
      exact hcount.execute hb
    | ok =>
      obtain rfl := Option.some.inj hfirst
      refine Mirrored.congr h rfl rfl fun ref hm => ?_
      rcases Finset.mem_insert.mp hm with rfl | hm
      · exact hS
      · exact h.sound.registry ref hm
    | filled =>
      obtain rfl := Option.some.inj hfirst
      exact h
    | cancelled =>
      obtain rfl := Option.some.inj hfirst
      exact h
    | error =>
      obtain rfl := Option.some.inj hfirst
      exact h

theorem Mirrored.takeCancelAnswers {orderId : ℕ} {rsp : List BinaryResponse}
    {s : List Fill × ExchangeSimulator} (h : Mirrored S ws s.2) :
    Mirrored S ws (rsp.foldl (ExchangeSimulator.takeCancelAnswer orderId) s).2 := by
  have hgone : ∀ s : List Fill × ExchangeSimulator, Mirrored S ws s.2 →
      Mirrored S ws { s.2 with strategyRefs := s.2.strategyRefs.erase orderId } := fun s h =>
    h.congr rfl rfl fun ref hm => h.sound.registry ref (Finset.mem_of_mem_erase hm)
  induction rsp generalizing s with
  | nil => exact h
  | cons r rsp ih =>
    refine ih ?_
    cases r with
    | cancelled => exact hgone s h
    | ok => exact hgone s h
    | trade => exact h
    | filled => exact h
    | error => exact h

/-- **A call of the strategy**: the reductions for its own trades are made at once. -/
theorem Mirrored.strategy (h : Mirrored S ws sim) {c : StrategyCall}
    (hc : (Contract.mirror S).strategy c sim) (hcall : sim.take c = some sim') :
    Mirrored S ws sim' := by
  cases c with
  | submit order orderId tif =>
    obtain ⟨hallowed, hS⟩ := hc
    obtain ⟨⟨out, marks, sim₁⟩, hsubmit, rfl⟩ := Option.map_eq_some_iff.mp hcall
    obtain ⟨rsp, e', out', hexec, hfold, -⟩ := ExchangeSimulator.submit_spec hsubmit
    have hallowed : (ExchangeSimulator.submitCommand order orderId tif).Allowed
      sim.engine.resting := hallowed
    have hcalled : Mirrored S (makerCuts rsp ++ ws)
        { sim.advance with submitted := insert orderId sim.submitted, engine := e' } := by
      refine h.exec hallowed (fun ref href => ⟨?_, (Option.some_ne_none _).symm⟩) ?_ hexec rfl rfl
        rfl
      · exact fun he => href (Option.some.inj he ▸ hS)
      · intro p hp hout
        obtain rfl := Option.some.inj hp
        exact absurd hS hout
    have hanswers := Mirrored.takeAnswers (s := ({}, [], _)) hS hcalled hfold
    exact hanswers
  | cancel orderId symbolId userId =>
    obtain ⟨hallowed, hS⟩ := hc
    obtain ⟨⟨reports, sim₁⟩, hcancel, rfl⟩ := Option.map_eq_some_iff.mp hcall
    obtain ⟨rsp, e', hexec, heq⟩ := ExchangeSimulator.cancel_spec hcancel
    rw [show sim₁ = _ from congrArg Prod.snd heq]
    refine Mirrored.takeCancelAnswers ?_
    have hallowed : (Command.cancel symbolId orderId userId).Allowed sim.engine.resting := hallowed
    have hnil : makerCuts rsp = [] := by
      have heff := effect_of_exec h.sound.engine.inv hallowed hexec
      generalize e'.resting = R' at heff
      cases heff <;> rfl
    have hcalled : Mirrored S (makerCuts rsp ++ ws) { sim.advance with engine := e' } := by
      refine h.exec hallowed (fun ref href => ⟨(Option.some_ne_none _).symm, ?_⟩) ?_ hexec rfl rfl
        rfl
      · exact fun he => href (Option.some.inj he ▸ hS)
      · exact fun p hp => absurd hp (by simp [Command.enters])
    rwa [hnil] at hcalled

theorem Mirrored.talk (h : Mirrored S ws sim)
    (htalk : Talk (Contract.mirror S).strategy sim sim') : Mirrored S ws sim' := by
  induction htalk with
  | done => exact h
  | call c hc htake _ ih => exact ih (h.strategy hc htake)

/-- A reduction of an order of the strategy is not broadcast. -/
theorem Mirrored.skip {w : ℕ × UInt64} (h : Mirrored S (w :: ws) sim) (hw : w.1 ∈ S) :
    Mirrored S ws sim := ⟨h.sound, fun hcomplete c hc => (h.mirrors hcomplete c hc).skip hw⟩

theorem Mirrored.unregister {ref : ℕ} (h : Mirrored S ws sim)
    (hcall : sim.unregisterIfGone ref = some sim') : Mirrored S ws sim' := by
  rcases ExchangeSimulator.unregisterIfGone_spec hcall with ⟨-, rfl⟩ | ⟨-, rfl⟩
  · exact h.congr rfl rfl fun r hr => h.sound.registry r (Finset.mem_of_mem_erase hr)
  · exact h

end Steps

/-! ### Whole events -/

section Market

open ExchangeSimulator

variable {S : Set ℕ} {ws : List (ℕ × UInt64)} {E : Type}
  {cl : Client (Contract.mirror S).strategy E} {s s' : E} {sim sim' : ExchangeSimulator}

/-- **The loop over the trades** makes the reductions of the makers, one by one. A maker that is
registered belongs to the strategy: it is reported, and the strategy may make calls in turn. -/
theorem Mirrored.routeTrades {locate taker : ℕ} {ts : List (ℕ × UInt32 × UInt32)}
    (h : Mirrored S (ts.map (fun t => (t.1, t.2.2.toUInt64)) ++ ws) sim)
    (hcall : ExchangeSimulator.routeTrades cl.toCallbacks locate taker ts (s, sim) =
      some (s', sim')) : Mirrored S ws sim' := by
  induction ts generalizing s sim with
  | nil =>
    obtain ⟨-, rfl⟩ := Prod.mk.inj (Option.some.inj hcall)
    exact h
  | cons t ts ih =>
    obtain ⟨⟨s₁, sim₁⟩, hfirst, hrest⟩ := Option.bind_eq_some_iff.mp hcall
    refine ih ?_ hrest
    rw [routeTrade] at hfirst
    have hcount : Mirrored S ((t.1, t.2.2.toUInt64) ::
        (ts.map (fun t => (t.1, t.2.2.toUInt64)) ++ ws)) (sim.countTrade taker t.1 t.2.2) :=
      h.congr rfl rfl h.sound.registry
    split at hfirst
    · next hreg =>
      have hS := hcount.sound.registry t.1 (of_decide_eq_true hreg)
      obtain ⟨⟨s₂, sim₂⟩, hreport, hmap⟩ := Option.bind_eq_some_iff.mp hfirst
      obtain ⟨sim₃, hgone, heq⟩ := Option.map_eq_some_iff.mp hmap
      obtain ⟨-, rfl⟩ := Prod.mk.inj heq
      exact ((hcount.skip hS).talk (cl.talks hreport)).unregister hgone
    · obtain ⟨marks, hb⟩ := announce_spec hfirst
      exact hcount.execute hb

/-- **An event** reaches the engine and the view. -/
theorem Mirrored.market (h : Mirrored S [] sim) {ev : ItchEvent}
    (hev : (Contract.mirror S).market ev sim) {rsp : List BinaryResponse} {e' : MatchingEngine}
    (henter : enterMarket sim.engine ev = some (some (rsp, e'))) {marks : List Mark}
    (hb : ({ sim.advance with engine := e' } : ExchangeSimulator).broadcast
      (toMarketEvent (sim.clock + 1) ev) = some (marks, sim')) :
    Mirrored S (makerCuts rsp ++ takerCut (takerRef ev) rsp) sim' := by
  obtain ⟨d, hd, hexec⟩ := exec_of_enterMarket henter
  have hallowed := (ItchEvent.allowed_iff hd).mpr hev.1
  have hinv := h.sound.engine.inv
  have hcomplete := hev.2.2.2
  have ht : ∀ c ∈ sim.view, c.Takes (toMarketEvent (sim.clock + 1) ev).body := fun c hc =>
    takes_toMarketEvent hd ((h.mirrors hcomplete c hc).newIn hev) _
  have hok : ViewOk { sim.advance with engine := e' } := h.sound.view
  have hbecomes := broadcast_becomes hok ht hb
  have hview := hok.broadcast ht hb
  have henters : ∀ p ∈ d.enters, p.1 ∉ S → p.2 = p.1 := by
    -- what an event brings in has its reference for a user
    intro p hp _
    cases ev with
    | add =>
      obtain rfl := Option.some.inj hd
      exact Option.some.inj hp ▸ rfl
    | replace =>
      obtain rfl := Option.some.inj hd
      exact Option.some.inj hp ▸ rfl
    | delete =>
      obtain rfl := Option.some.inj hd
      exact absurd hp (by simp [Command.enters])
    | cancel =>
      obtain rfl := Option.some.inj hd
      exact absurd hp (by simp [Command.enters])
    | book => exact absurd hd (by simp [ItchEvent.command])
  obtain ⟨hengine, howner⟩ := h.sound.exec hallowed henters hexec
  obtain ⟨view, rfl, -⟩ := broadcast_spec hb
  refine ⟨⟨hengine, hview, h.sound.registry, howner⟩, fun _ c' hc' => ?_⟩
  obtain ⟨c, hc, hb⟩ := hbecomes c' hc'
  rw [hb.held, hb.addedTo]
  exact (h.mirrors hcomplete c hc).event h.sound hc hev hd (effect_of_exec hinv hallowed hexec) _

theorem Mirrored.onMarketOrder (h : Mirrored S [] sim) {ev : ItchEvent}
    (hev : (Contract.mirror S).market ev sim)
    (hcall : ExchangeSimulator.onMarketOrder cl.toCallbacks ev (s, sim) = some (s', sim')) :
    Mirrored S [] sim' := by
  obtain ⟨answer, henter, hcall⟩ := Option.bind_eq_some_iff.mp hcall
  cases answer with
  | none =>
    obtain ⟨-, rfl⟩ := Prod.mk.inj (Option.some.inj hcall)
    exact h.congr rfl rfl h.sound.registry
  | some r =>
    obtain ⟨rsp, e'⟩ := r
    obtain ⟨⟨s₁, sim₁⟩, hann, hcall⟩ := Option.bind_eq_some_iff.mp hcall
    obtain ⟨⟨s₂, sim₂⟩, hroute, hcall⟩ := Option.bind_eq_some_iff.mp hcall
    obtain ⟨marks, hb⟩ := announce_spec hann
    have h₂ := (h.market hev henter hb).routeTrades hroute
    rw [takerCut] at h₂
    split at hcall
    · next hpos =>
      rw [if_pos hpos] at h₂
      obtain ⟨marks, hb⟩ := announce_spec hcall
      exact h₂.execute hb
    · next hzero =>
      rw [if_neg hzero] at h₂
      obtain ⟨-, rfl⟩ := Prod.mk.inj (Option.some.inj hcall)
      exact h₂

theorem mirrored_new (capacity : ℕ) (view : Option ℕ)
    (sink : MarketEvent → Option OrderBookConsumer → List Mark) (hlo : 2 ≤ capacity)
    (hhi : capacity ≤ 2 ^ 31) (hview : ∀ n ∈ view, 2 ≤ n ∧ n ≤ 2 ^ 31) :
    Mirrored S [] (.new capacity view sink) := by
  have hnil : ∀ L b, (new capacity view sink).engine.resting L b = [] := Exchange.resting_new rfl
  have hbounds : ∀ n ∈ view, 0 < n ∧ n ≤ uint32Max := fun n hn => by
    have hn := hview n hn
    exact ⟨by omega, by simp only [uint32Max]; omega⟩
  refine ⟨⟨.start capacity none none hlo hhi, fun c hc => ?_, fun ref hm => ?_, ?_⟩,
    fun _ c hc => ⟨fun ref _ => ?_, fun ref _ => ?_⟩⟩
  · obtain ⟨n, hn, rfl⟩ := Option.map_eq_some_iff.mp hc
    exact OrderBookConsumer.new_ok (hbounds n hn).1 (hbounds n hn).2
  · exact absurd hm (Finset.notMem_empty ref)
  · intro L b x hx
    rw [hnil] at hx
    exact absurd hx List.not_mem_nil
  · obtain ⟨n, hn, rfl⟩ := Option.map_eq_some_iff.mp hc
    exact OrderBookConsumer.new_held (hbounds n hn).1 (hbounds n hn).2 ref
  · obtain ⟨n, hn, rfl⟩ := Option.map_eq_some_iff.mp hc
    rw [OrderBookConsumer.new_held (hbounds n hn).1 (hbounds n hn).2 ref]
    intro L b x hx
    rw [hnil] at hx
    exact absurd hx List.not_mem_nil

/-- **The view in a run** mirrors the market orders, with nothing left to be made. -/
theorem Reached.mirrored {r : E × ExchangeSimulator} (h : Reached (Contract.mirror S) cl r) :
    Mirrored S [] r.2 := by
  induction h with
  | start s capacity view sink hlo hhi hview => exact mirrored_new capacity view sink hlo hhi hview
  | market ev _ hev hcall ih => exact ih.onMarketOrder hev hcall
  | strategy c _ hc hcall ih => exact ih.strategy hc hcall

/-- **The mirror.** After every call, as long as no insert into an index was dropped, the view holds
a reference if and only if it is a market order that rests in the engine, and then with the locate,
the side, the price and the remaining quantity of that order. -/
theorem reached_mirror {r : E × ExchangeSimulator} (h : Reached (Contract.mirror S) cl r)
    (hcomplete : r.2.Complete) {c : OrderBookConsumer} (hc : r.2.view = some c) (ref : ℕ) :
    ∃ found, Market.OrderBook.get c.books.shared ref = some found ∧
      (found.isSome ↔ ref ∉ S ∧ Rests r.2.engine.resting ref) ∧
      ∀ s ∈ found, ∃ b, ∃ x ∈ r.2.engine.resting (c.books.addedTo ref) b,
        x.orderId = ref ∧ Shows s b x := by
  have hm := h.mirrored
  have hok := hm.sound.view c hc
  have hmirrors := hm.mirrors hcomplete c hc
  refine ⟨_, get_eq_held hok (hcomplete.2 c hc) ref, ?_⟩
  by_cases hS : ref ∈ S
  · rw [hmirrors.strategy ref hS]
    exact ⟨iff_of_false (by simp) fun hc => hc.1 hS, fun s hs => absurd hs (by simp)⟩
  · have hat : MirrorsAt r.2.engine.resting ref (c.books.held ref) (c.books.addedTo ref) :=
      hmirrors.market ref hS
    cases hheld : c.books.held ref with
    | none =>
      rw [hheld] at hat
      refine ⟨iff_of_false (by simp) fun hc => ?_, fun s hs => absurd hs (by simp)⟩
      exact Exchange.not_rests_iff.mpr hat hc.2
    | some s =>
      rw [hheld] at hat
      refine ⟨iff_of_true rfl ⟨hS, ?_⟩, fun s' hs' => ?_⟩
      · obtain ⟨b, x, hx, hid, -⟩ := hat
        exact ⟨_, b, x, hx, hid⟩
      · obtain rfl := Option.some.inj hs'
        exact hat

end Market

/-! ### A test -/

instance (sim : ExchangeSimulator) : (ev : ItchEvent) → Decidable (ev.Enters sim)
  | .add _ ref side price shares => inferInstanceAs (Decidable
      ((side ≠ .invalid ∧ price ≠ 0 ∧ shares ≠ 0 ∧ ref ≠ 0) ∧ sim.engine.hasRoom = true ∧
        ∀ c ∈ sim.view, c.hasRoom = true))
  | .delete .. | .cancel .. | .replace .. | .book _ => isTrue trivial

instance (sim : ExchangeSimulator) : Decidable sim.Complete :=
  inferInstanceAs (Decidable (_ ∧ ∀ c ∈ sim.view, c.books.shared.insertDropped = false))

/-- A test on the state that implies the contract, for a strategy that uses the references from
`bound` on. -/
def mirrorTest (bound : ℕ) (call : SimCall) (sim : ExchangeSimulator) : Bool :=
  ExchangeSimulator.refsTest call sim &&
    match call with
    | .market ev => decide ((∀ ref ∈ ev.refs, ref < bound) ∧ ev.Enters sim ∧ sim.Complete)
    | .strategy (.submit _ orderId _) | .strategy (.cancel orderId _ _) =>
      decide (bound ≤ orderId)

theorem Contract.mirror_keepsRefs (S : Set ℕ) : (Contract.mirror S).KeepsRefs :=
  ⟨And.left, And.left⟩

/-- A run that passes the test is a run. -/
theorem Reached.playMirror {E : Type} {bound : ℕ}
    {cl : Client (Contract.mirror {ref | bound ≤ ref}).strategy E} {r r' : E × ExchangeSimulator}
    (h : Reached (Contract.mirror {ref | bound ≤ ref}) cl r) {cs : List SimCall}
    (hrun : ExchangeSimulator.play cl.toCallbacks (mirrorTest bound) cs r = some r') :
    Reached (Contract.mirror {ref | bound ≤ ref}) cl r' := by
  refine h.play (fun {s sim ev} h htest => ?_) (fun {s sim c} h htest => ?_) hrun
  · obtain ⟨hrefs, hev⟩ := (Bool.and_eq_true _ _).mp htest
    obtain ⟨hbound, henters, hcomplete⟩ := of_decide_eq_true hev
    have hinv := (h.engine (Contract.mirror_keepsRefs _)).inv
    exact ⟨ExchangeSimulator.refsTest_market hinv hrefs,
      fun ref hm hS => Nat.not_le.mpr (hbound ref hm) hS, henters, hcomplete⟩
  · obtain ⟨hrefs, hid⟩ := (Bool.and_eq_true _ _).mp htest
    have hinv := (h.engine (Contract.mirror_keepsRefs _)).inv
    refine ⟨ExchangeSimulator.refsTest_strategy hinv hrefs, ?_⟩
    cases c with
    | submit => exact of_decide_eq_true hid
    | cancel => exact of_decide_eq_true hid

/-- A strategy order takes three of five, a market order the other two, and rests with what is
left. -/
def mirrorCalls : List SimCall :=
  [.market (.add 0 1 .sell 100 5), .strategy (.submit { price := 100, quantity := 3 } 9 .day),
    .market (.add 0 2 .buy 101 5)]

theorem reached_mirror_two : ∃ r c, ExchangeSimulator.play
    (Client.silent (Contract.mirror {ref | 8 ≤ ref}).strategy).toCallbacks (mirrorTest 8)
    mirrorCalls ((), .new 4 (some 4) fun _ _ => []) = some r ∧ r.2.view = some c ∧
    ∃ s, Market.OrderBook.get c.books.shared 2 = some (some s) ∧ s.remaining = 3 ∧
      ∃ b, ∃ x ∈ r.2.engine.resting (c.books.addedTo 2) b, x.orderId = 2 ∧ Shows s b x := by
  have hread : (ExchangeSimulator.play
      (Client.silent (Contract.mirror {ref | 8 ≤ ref}).strategy).toCallbacks (mirrorTest 8)
      mirrorCalls ((), .new 4 (some 4) fun _ _ => [])).map (fun r => (decide r.2.Complete,
        r.2.view.map fun c => Market.OrderBook.get c.books.shared 2)) =
      some (true, some (some (some
        ⟨2, .buy, 101, 5, 3, 2⟩))) := by decide +kernel
  obtain ⟨r, hr, heq⟩ := Option.map_eq_some_iff.mp hread
  obtain ⟨hcomplete, hview⟩ := Prod.mk.inj heq
  obtain ⟨c, hc, hget⟩ := Option.map_eq_some_iff.mp hview
  have hstart : Reached (Contract.mirror {ref | 8 ≤ ref}) (Client.silent _)
      ((), .new 4 (some 4) fun _ _ => []) :=
    .start () 4 (some 4) _ (by decide) (by decide) (by simp)
  obtain ⟨found, hfound, -, hshows⟩ :=
    reached_mirror (hstart.playMirror hr) (of_decide_eq_true hcomplete) hc 2
  obtain rfl := Option.some.inj (hget.symm.trans hfound)
  exact ⟨r, c, hr, hc, _, hget, rfl, hshows _ rfl⟩

end NebulaX
