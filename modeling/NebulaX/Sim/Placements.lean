import Mathlib.Data.List.Chain
import NebulaX.Sim.Booked
import NebulaX.Sim.Simulation

/-!
# What the workers place

A worker listens to the symbols whose locate has its remainder, and at the end of a segment it may
place a decision: `arbitrate` of `src/sim/sim_worker.h`. It remembers the side and the strength of
the last one, and places another one only for the other side, or when the strength has grown by a
step. This is about the orders of all workers over whole runs.

The symbol of a decision is that of a signal of the strategies, which starts at 0 and then is that
of some event. So a worker never trades a symbol of another one, except for symbol 0.

An order id of 0 stands for no order. When ids start at 0 the first order is taken for none, and the
worker does not remember it. So it is asked that no order has this id.

## Main results

* `Strategies.Local` — the signals have symbols of events, which the strategies of the source do
* `runs_paced` — every order is a decision of the worker of its symbol, and they are paced
-/

namespace NebulaX

/-! ### The orders of the desk -/

/-- The orders stay. -/
theorem Stays.order {ee ee' : ExecutionEngine} (h : Stays ee ee') (id : ℕ) :
    ee'.orderManager.order id = ee.orderManager.order id := by
  have hentry := congrArg (Option.map Prod.fst) (h.entry id)
  rw [Option.map_map, Option.map_map] at hentry
  exact hentry

namespace Desk

section Orders

variable {d d' : Desk}

/-- An event registers no order. -/
theorem order_event (hsim : Unrested d.2) {ev : ItchEvent} (hev : ev.Foreign)
    (hcall : d.step (.event ev) = some d') :
    d'.1.engine.idOf = d.1.engine.idOf ∧
      ∀ id, d'.1.engine.orderManager.order id = d.1.engine.orderManager.order id := by
  obtain ⟨-, hstays, -⟩ := event_stays hsim hev hcall
  exact ⟨hstays.nextId, hstays.order⟩

/-- **Registering an order** adds it under the next id. -/
theorem order_registered (ee : ExecutionEngine) {order : Order} (hid : order.orderId = ee.idOf)
    (id : ℕ) : (ee.registered order).orderManager.order id =
      if id = ee.idOf then some order else ee.orderManager.order id := by
  show (Function.update ee.orderManager.orders ee.idOf _ id).map Entry.order = _
  split
  · next heq =>
    have horder : { order with orderId := ee.idOf } = order := by rw [← hid]
    rw [heq, Function.update_self]
    exact congrArg some horder
  · next hne =>
    rw [Function.update_of_ne hne]
    rfl

/-- **A placed decision** is an order of the next id, or none. -/
theorem order_placeDecision (hsim : Unrested d.2) {sig : Signal} {strategyId oid : ℕ}
    (hcall : d.placeDecision sig strategyId = some (oid, d')) :
    (oid = 0 ∧ d'.1.engine = d.1.engine) ∨
    (oid = d.1.engine.idOf ∧ d'.1.engine.idOf = d.1.engine.idOf + 1 ∧
      ∀ id, d'.1.engine.orderManager.order id = if id = d.1.engine.idOf then
        some (d.1.engine.orderFor sig strategyId .market)
      else d.1.engine.orderManager.order id) := by
  have hforget := submitSignal_forget hcall
  rw [takeMid_system] at hforget
  have hcases := ExecutionEngine.submitSignal_cases hforget
  have hnew := order_registered d.1.engine
    (show (d.1.engine.orderFor sig strategyId .market).orderId = d.1.engine.idOf from rfl)
  rcases ExecutionEngine.submitSignal_id hforget with ⟨hignored, hoid⟩ | ⟨hsent, hoid⟩
  · refine Or.inl ⟨hoid, ?_⟩
    rcases hcases with ⟨-, heq⟩ | ⟨hsent, -⟩
    · exact congrArg Prod.fst heq
    · exact absurd hignored hsent
  · refine Or.inr ⟨hoid, ?_⟩
    rcases hcases with ⟨hignored, -⟩ | ⟨-, ⟨-, heq⟩ | ⟨-, r, marks, sim, s, hsubmit, hflat, heq⟩⟩
    · exact absurd hignored hsent
    · -- the risk manager refuses it
      have hengine : d'.1.engine = _ := congrArg Prod.fst heq
      have hrevises := (d.1.engine.registered
        (d.1.engine.orderFor sig strategyId .market)).orderManager.onReject_revises d.1.engine.idOf
      rw [hengine]
      exact ⟨hrevises.nextId, fun id => (hrevises.order Entry.rejected_order id).trans (hnew id)⟩
    · have hengine : d'.1.engine = _ := congrArg Prod.fst heq
      have hsim' : Unrested sim := hsim.submit hsubmit
      obtain ⟨hstays, -⟩ := flatten_stays (s := (_, sim)) hsim' hflat
      have hrevises := ((d.1.engine.registered
        (d.1.engine.orderFor sig strategyId .market)).takeMarks marks).takeResult_revises
          (d.1.engine.orderFor sig strategyId .market) r
      rw [hengine]
      exact ⟨hstays.nextId.trans hrevises.nextId, fun id => (hstays.order id).trans
        ((hrevises.order (Entry.answered_order · r) id).trans (hnew id))⟩

end Orders

end Desk

/-! ### Symbols of signals -/

namespace Strategies

variable {S A : Type}

/-- **The signals have symbols of events**: none at first, and then that of an event or what it was
before. The hook at the end of a segment makes no new ones. -/
structure Local (sts : Strategies S) (onSegment : ℕ → S → S) (strategies : S) : Prop where
  /-- At first. -/
  start : ∀ sig ∈ sts.signals strategies, sig.locate = 0
  /-- After an event. -/
  feed : ∀ {ev ctx s}, ∀ sig ∈ sts.signals (sts.feed ev ctx s), sig.locate = ev.locate ∨
    ∃ sig' ∈ sts.signals s, sig.locate = sig'.locate
  /-- After the hook. -/
  segment : ∀ {n s}, ∀ sig ∈ sts.signals (onSegment n s),
    ∃ sig' ∈ sts.signals s, sig.locate = sig'.locate

/-- No strategy. -/
theorem local_nil : Local nil Simulation.idle () where
  start := fun _ h => absurd h List.not_mem_nil
  feed := fun _ h => absurd h List.not_mem_nil
  segment := fun _ h => absurd h List.not_mem_nil

/-- A strategy in front of others. -/
theorem local_cons {st : StrategyT A} {a : A} {sts : Strategies S} {strategies : S}
    (hstart : (st.signal a).locate = 0)
    (hfeed : ∀ ev ctx a, (st.signal (st.onMarket ev ctx a)).locate = ev.locate ∨
      (st.signal (st.onMarket ev ctx a)).locate = (st.signal a).locate)
    (h : Local sts Simulation.idle strategies) :
    Local (cons st sts) Simulation.idle (a, strategies) where
  start := by
    intro sig hsig
    rcases List.mem_cons.mp hsig with rfl | hsig
    · exact hstart
    · exact h.start sig hsig
  feed := by
    intro ev ctx s sig hsig
    rcases List.mem_cons.mp hsig with rfl | hsig
    · exact (hfeed ev ctx s.1).imp_right fun heq => ⟨_, List.mem_cons_self, heq⟩
    · rcases h.feed sig hsig with heq | ⟨sig', hsig', heq⟩
      · exact Or.inl heq
      · exact Or.inr ⟨sig', List.mem_cons_of_mem _ hsig', heq⟩
  segment := fun sig hsig => ⟨sig, hsig, rfl⟩

end Strategies

/-- The order flow strategy. -/
theorem OrderFlowImbalanceStrategy.locate_onMarket (ev : MarketEvent) (ctx : BookContext)
    (s : OrderFlowImbalanceStrategy) :
    (strategy.signal (strategy.onMarket ev ctx s)).locate = ev.locate ∨
      (strategy.signal (strategy.onMarket ev ctx s)).locate = (strategy.signal s).locate := by
  show (onMarket ev ctx s).locate = ev.locate ∨ (onMarket ev ctx s).locate = s.locate
  have hevent : (s.onEvent ev ctx.side).locate = ev.locate := by
    rw [onEvent, judge, slide]
    split <;> rfl
  have hquote : ∀ s : OrderFlowImbalanceStrategy,
      (if 0 ≤ ctx.bid ∧ 0 ≤ ctx.ask then { s with lastPrice := ctx.mid } else s).locate =
        s.locate := by
    intro s
    split <;> rfl
  rw [onMarket, hquote]
  split
  · exact Or.inl hevent
  · exact Or.inr rfl

/-- The order book strategy. -/
theorem OrderBookImbalanceStrategy.locate_onMarket (ev : MarketEvent) (ctx : BookContext)
    (s : OrderBookImbalanceStrategy) :
    (strategy.signal (strategy.onMarket ev ctx s)).locate = ev.locate := by
  show (onMarket ev ctx s).locate = ev.locate
  rw [onMarket, onBook]
  split <;> rfl

/-- The strategies of the source. -/
theorem TradingWorker.local_flowAndBook :
    TradingWorker.flowAndBook.Local Simulation.idle ({}, {}, ()) :=
  Strategies.local_cons rfl OrderFlowImbalanceStrategy.locate_onMarket
    (Strategies.local_cons rfl
      (fun ev ctx s => Or.inl (OrderBookImbalanceStrategy.locate_onMarket ev ctx s))
      Strategies.local_nil)

/-! ### Decisions -/

/-- The decision `d'` may follow on `d`: it is for the other side, or stronger by a step. -/
def ArbDecision.Renews (d d' : ArbDecision) : Prop :=
  d'.dir ≠ d.dir ∨ d.strength + kStrengthStep ≤ d'.strength

/-- **A decision to act** has a side, and the symbol of some signal. -/
theorem TradingWorker.locate_decide {S : Type} {sts : Strategies S} {w : TradingWorker S}
    (hact : (w.decide sts).act = true) :
    (w.decide sts).dir ≠ .none ∧ ∃ sig ∈ sts.signals w.strategies,
      (w.decide sts).locate = sig.locate := by
  rw [decide, arbitrateDecide] at hact ⊢
  split at hact
  · next hprimary =>
    dsimp only at hact
    split at hact
    · exact absurd hact Bool.false_ne_true
    · next hdir =>
      rw [dif_pos hprimary]
      dsimp only
      rw [if_neg hdir]
      exact ⟨hdir, _, List.get_mem _ _, rfl⟩
  · exact absurd hact Bool.false_ne_true

/-- **One worker owns a symbol.** -/
theorem OwnedBy.eq {i j n locate : ℕ} (hi : i < n) (hj : j < n) (h : OwnedBy i n locate)
    (h' : OwnedBy j n locate) : i = j := by
  rw [OwnedBy] at h h'
  omega

namespace Simulation

variable {S : Type} {sts : Strategies S} {onSegment : ℕ → S → S}

/-- The decisions that worker `i` placed. -/
def placedBy (s : Simulation S) (i : ℕ) : List ArbDecision :=
  (s.placed.filter fun p => p.1 = i).map Prod.snd

variable (sts) in
/-- **Worker `i` of `n`**, which placed the decisions `mine`. -/
structure Remembers (n i : ℕ) (mine : List ArbDecision) (w : TradingWorker S) : Prop where
  /-- `id_`. -/
  id : w.id = i
  /-- `nworkers_`. -/
  nworkers : w.nworkers = n
  /-- Its signals are for symbols of its own. -/
  signals : ∀ sig ∈ sts.signals w.strategies, OwnedBy i n sig.locate ∨ sig.locate = 0
  /-- It remembers the last decision. -/
  last : (w.lastSide, w.lastStr) =
    (mine.getLast?.map fun d => (d.dir, d.strength)).getD (.none, -1)

section Remembers

variable {n i : ℕ} {mine : List ArbDecision} {w w' : TradingWorker S} {strategies : S}

/-- Listening makes signals for symbols of its own. -/
theorem Remembers.fed (hlocal : sts.Local onSegment strategies) (h : Remembers sts n i mine w)
    (hfed : Fed sts w w') : Remembers sts n i mine w' := by
  obtain ⟨fed, howns, rfl⟩ := hfed
  refine ⟨h.id, h.nworkers, ?_, h.last⟩
  have hsignals := h.signals
  show ∀ sig ∈ sts.signals (fed.foldl (fun s p => sts.feed p.1 p.2 s) w.strategies), _
  generalize w.strategies = state at hsignals
  induction fed generalizing state with
  | nil => exact hsignals
  | cons p fed ih =>
    refine ih (fun q hq => howns q (List.mem_cons_of_mem p hq)) _ fun sig hsig => ?_
    rcases hlocal.feed sig hsig with heq | ⟨sig', hsig', heq⟩
    · have hown := howns p List.mem_cons_self
      rw [SimWorker.owns, h.id, h.nworkers] at hown
      rw [heq]
      exact Or.inl hown
    · rw [heq]
      exact hsignals sig' hsig'

/-- The hook makes no new signals. -/
theorem Remembers.segment (hlocal : sts.Local onSegment strategies) (segment : ℕ)
    (h : Remembers sts n i mine w) :
    Remembers sts n i mine (w.onSegmentAll onSegment segment) where
  id := h.id
  nworkers := h.nworkers
  signals := by
    intro sig hsig
    obtain ⟨sig', hsig', heq⟩ := hlocal.segment sig hsig
    rw [heq]
    exact h.signals sig' hsig'
  last := h.last

end Remembers

/-- **What the workers have placed.** -/
structure Placed (sts : Strategies S) (s : Simulation S) : Prop where
  /-- Every worker. -/
  worker : ∀ i w, s.workers[i]? = some w → Remembers sts s.workers.length i (s.placedBy i) w
  /-- A decision is one of a worker, for a symbol of its own. -/
  owned : ∀ p ∈ s.placed, p.1 < s.workers.length ∧
    (OwnedBy p.1 s.workers.length p.2.locate ∨ p.2.locate = 0)
  /-- The decisions of a worker are paced. -/
  paced : ∀ i, (s.placedBy i).IsChain ArbDecision.Renews
  /-- The orders are the decisions. -/
  orders : ∃ base, s.desk.1.engine.idOf = base + s.placed.length ∧
    ∀ id o, s.desk.1.engine.orderManager.order id = some o →
      ∃ k p, id = base + k ∧ s.placed[k]? = some p ∧ o.symbolId = p.2.locate ∧ o.side = p.2.dir

section Placed

variable {s s' : Simulation S} {n segment i : ℕ} {strategies : S}

/-- Listening adds no order. -/
theorem Placed.listened (hlocal : sts.Local onSegment strategies) (h : Placed sts s)
    (hlisten : Listened sts s s') : Placed sts s' := by
  have hby : ∀ i, s'.placedBy i = s.placedBy i := by
    intro i
    rw [placedBy, hlisten.placed, placedBy]
  refine ⟨fun i w' hw' => ?_, ?_, fun i => ?_, ?_⟩
  · obtain ⟨w, hw, hfed⟩ := hlisten.fed i w' hw'
    rw [hby, hlisten.length]
    exact (h.worker i w hw).fed hlocal hfed
  · rw [hlisten.placed, hlisten.length]
    exact h.owned
  · rw [hby]
    exact h.paced i
  · rw [hlisten.desk, hlisten.placed]
    exact h.orders

/-- The orders are known, whatever else is done to the desk. -/
theorem Placed.desk (h : Placed sts s) {d : Desk} (hid : d.1.engine.idOf = s.desk.1.engine.idOf)
    (horder : ∀ id, d.1.engine.orderManager.order id = s.desk.1.engine.orderManager.order id) :
    Placed sts { s with desk := d } := by
  refine ⟨h.worker, h.owned, h.paced, ?_⟩
  obtain ⟨base, hnext, horders⟩ := h.orders
  exact ⟨base, hid.trans hnext, fun id o ho => horders id o ((horder id).symm.trans ho)⟩

/-- A list with one entry written. -/
theorem getElem?_set_cases {α : Type} {as : List α} {i j : ℕ} {a b : α}
    (h : (as.set i a)[j]? = some b) : (j = i ∧ b = a) ∨ (j ≠ i ∧ as[j]? = some b) := by
  rw [List.getElem?_set] at h
  split at h
  · next heq =>
    split at h
    · exact Or.inl ⟨heq.symm, (Option.some.inj h).symm⟩
    · exact absurd h.symm (Option.some_ne_none _)
  · next hne => exact Or.inr ⟨Ne.symm hne, h⟩

/-- The state of a worker is written back. -/
theorem Placed.setWorker (h : Placed sts s) {w : TradingWorker S}
    (hw : Remembers sts s.workers.length i (s.placedBy i) w) :
    Placed sts { s with workers := s.workers.set i w } := by
  refine ⟨fun j w' hw' => ?_, ?_, h.paced, h.orders⟩
  · show Remembers sts (s.workers.set i w).length j (s.placedBy j) w'
    rw [List.length_set]
    rcases getElem?_set_cases hw' with ⟨rfl, rfl⟩ | ⟨-, hother⟩
    · exact hw
    · exact h.worker j w' hother
  · show ∀ p ∈ s.placed, p.1 < (s.workers.set i w).length ∧
      (OwnedBy p.1 (s.workers.set i w).length p.2.locate ∨ p.2.locate = 0)
    rw [List.length_set]
    exact h.owned

/-- The decisions of a worker after one more. -/
theorem placedBy_append {d : ArbDecision} (h : s'.placed = s.placed ++ [(i, d)]) (j : ℕ) :
    s'.placedBy j = if j = i then s.placedBy j ++ [d] else s.placedBy j := by
  rw [placedBy, h, List.filter_append, List.map_append, placedBy]
  split
  · next heq => simp [heq]
  · next hne => simp [Ne.symm hne]

/-- **A decision is placed**, if no order has the id 0. -/
theorem Placed.place (h : Placed sts s) {w : TradingWorker S} {d : ArbDecision} {oid : ℕ}
    {desk : Desk} (hi : i < s.workers.length)
    (hw : Remembers sts s.workers.length i (s.placedBy i) w) (hd : d = w.decide sts)
    (hact : d.act = true) (hrenewed : w.renewed d = true) (hsim : Unrested s.desk.2)
    (hcall : s.desk.placeDecision (signalOf d) w.strategyId = some (oid, desk))
    (hzero : desk.1.engine.orderManager.order 0 = none) :
    Placed sts (s.afterPlace i w d oid desk) := by
  rcases Desk.order_placeDecision hsim hcall with ⟨rfl, hengine⟩ | ⟨hoid, hnext, horder⟩
  · have hkept := (h.setWorker hw).desk (d := desk) (by rw [hengine]) (fun id => by rw [hengine])
    exact hkept
  · have hpositive : oid ≠ 0 := by
      rintro rfl
      have hfirst := horder 0
      rw [if_pos hoid, hzero] at hfirst
      exact absurd hfirst.symm (Option.some_ne_none _)
    rw [afterPlace, if_pos hpositive, if_pos hpositive]
    obtain ⟨hside, sig, hsig, hlocate⟩ := TradingWorker.locate_decide (hd ▸ hact)
    rw [← hd] at hside hlocate
    generalize hnew : ({ s with
      desk := desk
      workers := s.workers.set i { w with lastSide := d.dir, lastStr := d.strength }
      placed := s.placed ++ [(i, d)] } : Simulation S) = s'
    have hplaced : s'.placed = s.placed ++ [(i, d)] := by rw [← hnew]
    have hworkers : s'.workers =
        s.workers.set i { w with lastSide := d.dir, lastStr := d.strength } := by rw [← hnew]
    have hdesk : s'.desk = desk := by rw [← hnew]
    have hlength : s'.workers.length = s.workers.length := by rw [hworkers, List.length_set]
    have hby := placedBy_append hplaced
    refine ⟨fun j w' hw' => ?_, fun p hp => ?_, fun j => ?_, ?_⟩
    · rw [hlength, hby]
      rw [hworkers] at hw'
      rcases getElem?_set_cases hw' with ⟨rfl, rfl⟩ | ⟨hne, hother⟩
      · rw [if_pos rfl]
        refine ⟨hw.id, hw.nworkers, hw.signals, ?_⟩
        rw [List.getLast?_concat]
        rfl
      · rw [if_neg hne]
        exact h.worker j w' hother
    · rw [hlength]
      rw [hplaced] at hp
      rcases List.mem_append.mp hp with hp | hp
      · exact h.owned p hp
      · obtain rfl := List.mem_singleton.mp hp
        refine ⟨hi, ?_⟩
        rw [hlocate]
        exact hw.signals sig hsig
    · rw [hby]
      split
      · next heq =>
        subst heq
        refine (h.paced j).append (List.isChain_singleton d) fun last hlast d' hd' => ?_
        obtain rfl : d = d' := Option.some.inj hd'
        have hremembers := hw.last
        rw [Option.mem_def.mp hlast] at hremembers
        obtain ⟨hdir, hstrength⟩ := Prod.mk.inj hremembers
        have hrenews := of_decide_eq_true hrenewed
        rw [hdir, hstrength] at hrenews
        exact hrenews
      · exact h.paced j
    · obtain ⟨base, hbase, horders⟩ := h.orders
      rw [hdesk, hplaced]
      refine ⟨base, ?_, fun id o ho => ?_⟩
      · rw [hnext, hbase, List.length_append, List.length_singleton]
        omega
      · rw [horder] at ho
        split at ho
        · next heq =>
          obtain rfl := Option.some.inj ho
          refine ⟨s.placed.length, (i, d), heq.trans hbase, ?_, rfl, rfl⟩
          exact List.getElem?_concat_length
        · obtain ⟨k, p, hid, hp, hlike⟩ := horders id o ho
          have hk : k < s.placed.length := (List.getElem?_eq_some_iff.mp hp).1
          exact ⟨k, p, hid, (List.getElem?_append_left hk).trans hp, hlike⟩

/-- An order with the id 0 stays. -/
theorem Arbitrated.order_zero (hsim : Unrested s.desk.2)
    (h : Arbitrated sts onSegment segment i s s')
    (hzero : s'.desk.1.engine.orderManager.order 0 = none) :
    s.desk.1.engine.orderManager.order 0 = none := by
  cases h with
  | absent _ heq => exact heq ▸ hzero
  | waited w _ heq =>
    rw [heq] at hzero
    exact hzero
  | acted w w' d _ _ _ _ _ oid desk hplace hlisten =>
    rw [hlisten.desk] at hzero
    have hzero : desk.1.engine.orderManager.order 0 = none := hzero
    rcases Desk.order_placeDecision hsim hplace with ⟨-, hengine⟩ | ⟨-, -, horder⟩
    · rw [← hengine]
      exact hzero
    · rw [horder] at hzero
      split at hzero
      · exact absurd hzero (Option.some_ne_none _)
      · exact hzero

/-- **The window of a worker.** -/
theorem Placed.arbitrated (hlocal : sts.Local onSegment strategies) (h : Placed sts s)
    (hsim : Unrested s.desk.2) (hstep : Arbitrated sts onSegment segment i s s')
    (hzero : s'.desk.1.engine.orderManager.order 0 = none) : Placed sts s' := by
  cases hstep with
  | absent _ heq => exact heq ▸ h
  | waited w hw heq =>
    rw [heq]
    exact h.setWorker ((h.worker i w hw).segment hlocal segment)
  | acted w w' d hw hw' hd hact hrenewed oid desk hplace hlisten =>
    rw [hlisten.desk] at hzero
    have hi : i < s.workers.length := (List.getElem?_eq_some_iff.mp hw).1
    have hremembers := (h.worker i w hw).segment hlocal segment
    rw [← hw'] at hremembers
    exact (h.place hi hremembers hd hact hrenewed hsim hplace hzero).listened hlocal hlisten

/-- The simulation before the replay. -/
theorem placed_start (hlocal : sts.Local onSegment strategies) (visits : VisitOrder)
    (cfg : Config) : Placed sts (start visits n strategies cfg) where
  worker := by
    intro i w hw
    have hw : ((List.range cfg.nworkers).map _)[i]? = some w := hw
    obtain ⟨hi, rfl⟩ := List.getElem?_eq_some_iff.mp hw
    have hlength : (start visits n strategies cfg).workers.length = cfg.nworkers := by
      show ((List.range cfg.nworkers).map _).length = _
      rw [List.length_map, List.length_range]
    rw [hlength, List.getElem_map, List.getElem_range]
    exact ⟨rfl, rfl, fun sig hsig => Or.inr (hlocal.start sig hsig), rfl⟩
  owned := fun p hp => absurd hp List.not_mem_nil
  paced := fun _ => List.isChain_nil
  orders := ⟨cfg.orderIdBase.toNat, rfl, fun _ _ ho => absurd ho.symm (Option.some_ne_none _)⟩

theorem Runs.placed (hlocal : sts.Local onSegment strategies)
    (h : Runs sts onSegment n strategies Desk.Foreign s)
    (hzero : s.desk.1.engine.orderManager.order 0 = none) : Placed sts s := by
  induction h with
  | start visits cfg => exact placed_start hlocal visits cfg
  | event ev hr hev hcall ih =>
    obtain ⟨d, hstep, hlisten⟩ := onMarketOrder_spec hcall
    have hsim := (hr.desk fun _ _ _ => trivial).booked.unrested
    obtain ⟨hid, horder⟩ := Desk.order_event hsim hev hstep
    rw [hlisten.desk] at hzero
    exact ((ih ((horder 0).symm.trans hzero)).desk hid horder).listened hlocal hlisten
  | window hr hcall ih =>
    obtain ⟨s₁, hall, rfl⟩ := window_spec hcall
    have hkept := arbitrateAll_keeps
      (I := fun s => Desk.Runs Desk.Foreign s.desk ∧
        (s.desk.1.engine.orderManager.order 0 = none → Placed sts s))
      (fun {s₁ i s₂} hs hstep => ?_) ⟨hr.desk fun _ _ _ => trivial, ih⟩ hall
    · obtain ⟨hworker, howned, hpaced, horders⟩ := hkept.2 hzero
      exact ⟨hworker, howned, hpaced, horders⟩
    · have hsim := hs.1.booked.unrested
      refine ⟨?_, fun hzero =>
        (hs.2 (hstep.order_zero hsim hzero)).arbitrated hlocal hsim hstep hzero⟩
      rcases hstep.desk with heq | ⟨sig, strategyId, hcall⟩
      · rw [heq]
        exact hs.1
      · exact hs.1.call (.decision sig strategyId) trivial hcall

/-- **The orders of a run** are decisions of the workers, one for each, as long as no order has the
id 0. A worker places them for symbols of its own, or for symbol 0, and no other symbol is traded by
two workers. After one decision it places another only for the other side, or with a strength that
is greater by `kStrengthStep`. -/
theorem runs_paced (hlocal : sts.Local onSegment strategies)
    (h : Runs sts onSegment n strategies Desk.Foreign s)
    (hzero : s.desk.1.engine.orderManager.order 0 = none) :
    (∃ base, s.desk.1.engine.idOf = base + s.placed.length ∧
      ∀ id o, s.desk.1.engine.orderManager.order id = some o →
        ∃ k p, id = base + k ∧ s.placed[k]? = some p ∧ o.symbolId = p.2.locate ∧
          o.side = p.2.dir) ∧
    (∀ p ∈ s.placed, OwnedBy p.1 s.workers.length p.2.locate ∨ p.2.locate = 0) ∧
    (∀ p ∈ s.placed, ∀ q ∈ s.placed, p.2.locate = q.2.locate → p.2.locate ≠ 0 → p.1 = q.1) ∧
    ∀ i, (s.placedBy i).IsChain ArbDecision.Renews := by
  have hplaced := h.placed hlocal hzero
  refine ⟨hplaced.orders, fun p hp => (hplaced.owned p hp).2, fun p hp q hq hsame hne => ?_,
    hplaced.paced⟩
  obtain ⟨hi, hown⟩ := hplaced.owned p hp
  obtain ⟨hj, hown'⟩ := hplaced.owned q hq
  have hfirst := hown.resolve_right hne
  rw [hsame] at hne hfirst
  exact hfirst.eq hi hj (hown'.resolve_right hne)

/-- A bid of 100 at 99 and an offer of 10 at 101, for symbol 1 and for symbol 2, in one segment, and
then a segment without events. -/
def twoBooks : List (Option ItchEvent) :=
  [some (.add 1 1 .buy 99 100), some (.add 1 2 .sell 101 10), some (.add 2 3 .buy 99 100),
    some (.add 2 4 .sell 101 10), none, none]

/-- Two workers that take them. -/
def twoOwners : Simulation (OrderFlowImbalanceStrategy × OrderBookImbalanceStrategy × Unit) :=
  start .inserted 2 ({}, {}, ())
    { poolSlots := 8, workers := 2, baseQty := 10, orderIdBase := 1000
      strategy := { primary := "obi" } }

/-- Each worker buys its symbol, and sells it again. -/
theorem runs_paced_two : ∃ s,
    play TradingWorker.flowAndBook idle Desk.marketTest twoBooks twoOwners = some s ∧
    s.placed.map (fun p => (p.1, p.2.locate)) = [(0, 2), (1, 1), (0, 2), (1, 1)] ∧
    s.desk.1.engine.idOf = 1004 ∧
    (∃ base, s.desk.1.engine.idOf = base + s.placed.length) ∧
    (∀ p ∈ s.placed, OwnedBy p.1 s.workers.length p.2.locate ∨ p.2.locate = 0) ∧
    (s.placedBy 0).IsChain ArbDecision.Renews := by
  have hread : (play TradingWorker.flowAndBook idle Desk.marketTest twoBooks twoOwners).map
      (fun s => (s.placed.map (fun p => (p.1, p.2.locate)), s.desk.1.engine.idOf,
        s.desk.1.engine.orderManager.order 0)) =
      some ([(0, 2), (1, 1), (0, 2), (1, 1)], 1004, none) := by decide +kernel
  obtain ⟨s, hrun, heq⟩ := Option.map_eq_some_iff.mp hread
  obtain ⟨hplaced, heq⟩ := Prod.mk.inj heq
  obtain ⟨hid, hzero⟩ := Prod.mk.inj heq
  have hr : Runs TradingWorker.flowAndBook idle 2 ({}, {}, ()) Desk.Shown s := by
    refine Runs.play (fun {s ev} hr htest => ?_) (.start .inserted _ (by decide) (by decide)) hrun
    obtain ⟨base, hapart, -⟩ := (hr.desk fun _ _ _ => ⟨trivial, trivial⟩).mirrored
    exact Desk.shown_of_test hapart.inv htest
  obtain ⟨⟨base, horders⟩, howned, -, hpaced⟩ := runs_paced TradingWorker.local_flowAndBook
    (hr.mono fun _ _ hc => hc.1.foreign) hzero
  exact ⟨s, hrun, hplaced, hid, ⟨base, horders.1⟩, howned, hpaced 0⟩

end Placed

end Simulation

end NebulaX
