import NebulaX.Sim.Desk

/-!
# The records of the desk

What the order manager, the risk manager and `trades.csv` say about the same fills. The order
manager counts what every order was filled, the risk manager carries a position for every symbol,
and every fill makes a record. In a run of the desk the three agree.

A check of the risk manager is followed by the fills of the order at once, so between two calls no
order is open and the limit on positions is kept. Two additions could wrap around: the check adds
the order to the position. A limit below `2 ^ 63` rules it out, since an order is at most
`2 ^ 64 / 10000`.

## Main results

* `Booked.step`, `Held.step` — what every call keeps
* `runs_quiet` — nothing of the strategy rests, and the lock is not taken twice
* `runs_ended` — no order waits for anything
* `runs_recorded` — every order is filled with what its records say
* `runs_held` — every position is what was bought less what was sold, and within the limit
-/

namespace NebulaX

/-! ### Sums of records -/

namespace TradeLog

/-- The shares in the records that satisfy `p`. -/
def recorded (p : TradeRecord → Bool) (ts : List TradeRecord) : ℕ :=
  ((ts.filter p).map fun t => t.qty.toNat).sum

@[simp] theorem recorded_append (p : TradeRecord → Bool) (ts ts' : List TradeRecord) :
    recorded p (ts ++ ts') = recorded p ts + recorded p ts' := by
  rw [recorded, List.filter_append, List.map_append, List.sum_append]
  rfl

theorem recorded_eq_zero {p : TradeRecord → Bool} {ts : List TradeRecord}
    (h : ∀ t ∈ ts, p t = false) : recorded p ts = 0 := by
  rw [recorded, List.filter_eq_nil_iff.mpr fun t ht => by rw [h t ht]; exact Bool.false_ne_true]
  rfl

/-- The record of a fill of a submit. -/
def fillRecord (log : TradeLog) (order : Order) (f : Fill) : TradeRecord :=
  let mid := log.midOf order.symbolId
  { orderId := order.orderId, symbolId := order.symbolId, side := order.side, qty := f.filledQty
    price := f.fillPrice, mid := if mid < 0 then f.fillPrice else mid, passive := false }

/-- **The fills of a submit** make a record each. The mid stays the same meanwhile. -/
theorem recordFills_trades (log : TradeLog) (order : Order) {r : ExchangeSubmitResult}
    (hrejected : ¬ r.accepted = true → r.fills = []) :
    (log.recordFills order r).trades = log.trades ++ r.fills.map (log.fillRecord order) := by
  have hfills : ∀ (fs : List Fill) (log' : TradeLog), log'.midMap = log.midMap →
      (fs.foldl (fun log f => log.recordTrade order.orderId order.symbolId order.side f.filledQty
        f.fillPrice false) log').trades = log'.trades ++ fs.map (log.fillRecord order) := by
    intro fs
    induction fs with
    | nil => exact fun log' _ => (List.append_nil _).symm
    | cons f fs ih =>
      intro log' hmid
      have hmidOf : log'.midOf order.symbolId = log.midOf order.symbolId := by
        rw [midOf, midOf, hmid]
      have hfirst : (log'.recordTrade order.orderId order.symbolId order.side f.filledQty
          f.fillPrice false).trades = log'.trades ++ [log.fillRecord order f] := by
        rw [recordTrade, hmidOf]
        rfl
      rw [List.foldl_cons, ih (log'.recordTrade _ _ _ _ _ _) hmid, List.map_cons, hfirst,
        List.append_assoc, List.singleton_append]
  rw [recordFills]
  split
  · exact hfills r.fills log rfl
  · next hacc =>
    rw [hrejected hacc, List.map_nil, List.append_nil]

/-- The records of the fills of an order all satisfy `p`, or none does. -/
theorem recorded_fills {log : TradeLog} {order : Order} {p : TradeRecord → Bool} {b : Bool}
    (fs : List Fill) (hp : ∀ f, p (log.fillRecord order f) = b) :
    recorded p (fs.map (log.fillRecord order)) =
      if b then (fs.map fun f => f.filledQty.toNat).sum else 0 := by
  cases b with
  | false =>
    refine recorded_eq_zero fun t ht => ?_
    obtain ⟨f, -, rfl⟩ := List.mem_map.mp ht
    exact hp f
  | true =>
    have hall : (fs.map (log.fillRecord order)).filter p = fs.map (log.fillRecord order) := by
      refine List.filter_eq_self.mpr fun t ht => ?_
      obtain ⟨f, -, rfl⟩ := List.mem_map.mp ht
      exact hp f
    rw [recorded, hall, List.map_map, if_pos rfl]
    rfl

/-- **Records of different orders** add up, if all of them are of orders in `ids`. -/
theorem recorded_eq_sum {p : TradeRecord → Bool} {ids : Finset ℕ} {ts : List TradeRecord}
    (hids : ∀ t ∈ ts, t.orderId ∈ ids) :
    recorded p ts = ∑ id ∈ ids, recorded (fun t => decide (t.orderId = id) && p t) ts := by
  induction ts with
  | nil => exact Finset.sum_const_zero.symm
  | cons t ts ih =>
    have hcons : ∀ q : TradeRecord → Bool, recorded q (t :: ts) =
        (if q t then t.qty.toNat else 0) + recorded q ts := by
      intro q
      rw [recorded, List.filter_cons]
      split
      · rfl
      · exact (Nat.zero_add _).symm
    have hone : ∑ id ∈ ids, (if (decide (t.orderId = id) && p t) = true then t.qty.toNat else 0) =
        if p t then t.qty.toNat else 0 := by
      rw [Finset.sum_eq_single_of_mem t.orderId (hids t List.mem_cons_self)]
      · rw [decide_eq_true rfl, Bool.true_and]
      · intro id _ hne
        rw [decide_eq_false (Ne.symm hne), Bool.false_and, if_neg Bool.false_ne_true]
    simp only [hcons]
    rw [Finset.sum_add_distrib, hone, ← ih fun t ht => hids t (List.mem_cons_of_mem _ ht)]

/-- The records of an order. -/
def ofOrder (id : ℕ) (t : TradeRecord) : Bool := decide (t.orderId = id)

/-- The records on a side of a symbol. -/
def onSide (side : OrderSide) (symbolId : ℕ) (t : TradeRecord) : Bool :=
  decide (t.side = side ∧ t.symbolId = symbolId)

end TradeLog

/-- What the answer to a submit fills of an order that waits for it. -/
theorem Entry.answered_filled {e : Entry} {r : ExchangeSubmitResult}
    (hpending : e.status = .pending) (hzero : e.filled.toNat = 0)
    (hqty : 0 < e.order.quantity.toNat)
    (hfits : (r.fills.map fun f => f.filledQty.toNat).sum ≤ e.order.quantity.toNat)
    (hrejected : ¬ r.accepted = true → r.fills = []) :
    (e.answered r).filled.toNat = (r.fills.map fun f => f.filledQty.toNat).sum := by
  rw [answered]
  split
  · have hlive : (e.accepted 0).status.live = true := by
      rw [accepted, if_pos hpending]
      rfl
    have hfilled : (e.accepted 0).filled.toNat = 0 := by rw [accepted_filled, hzero]
    obtain ⟨-, hsum, -⟩ := filledWith_all (e := e.accepted 0)
      (iff_of_true hlive (by rw [hfilled, accepted_order]; exact hqty))
      (by rw [hfilled, accepted_order, Nat.zero_add]; exact hfits)
    rw [hsum, hfilled, Nat.zero_add]
  · next hacc =>
    rw [rejected_filled, hzero, hrejected hacc]
    rfl

/-- **An order that came to its end at once**: filled in full, turned away with nothing filled, or
filled in part, perhaps with a request to cancel that was not answered. -/
def Entry.Ended (e : Entry) : Prop :=
  (e.status = .filled ∧ e.filled = e.order.quantity) ∨
    (e.status = .rejected ∧ e.filled = 0) ∨
    ((e.status = .partialFill ∨ e.status = .pendingCancel) ∧ e.filled < e.order.quantity)

/-- A request to cancel leaves it there. -/
theorem Entry.Ended.cancelRequested {e : Entry} (h : e.Ended) : e.cancelRequested.Ended := by
  rw [Entry.cancelRequested]
  split
  · next hlive =>
    rcases h with ⟨hstatus, -⟩ | ⟨hstatus, -⟩ | ⟨-, hopen⟩
    · rw [hstatus] at hlive
      exact absurd hlive (by decide)
    · rw [hstatus] at hlive
      exact absurd hlive (by decide)
    · exact Or.inr (Or.inr ⟨Or.inr rfl, hopen⟩)
  · exact h

/-- **The answer** to an order that waits for it ends it, if it traded or was not accepted. -/
theorem Entry.answered_ended {e : Entry} {r : ExchangeSubmitResult} (hpending : e.status = .pending)
    (hzero : e.filled = 0) (hqty : 0 < e.order.quantity.toNat)
    (hfits : (r.fills.map fun f => f.filledQty.toNat).sum ≤ e.order.quantity.toNat)
    (htraded : r.accepted = true → r.fills ≠ []) : (e.answered r).Ended := by
  rw [answered]
  split
  · next hacc =>
    have hlive : (e.accepted 0).status.live = true := by
      rw [accepted, if_pos hpending]
      rfl
    have hfilled : (e.accepted 0).filled.toNat = 0 := by
      rw [accepted_filled, hzero]
      rfl
    obtain ⟨horder, hsum, hiff⟩ := filledWith_all (e := e.accepted 0)
      (iff_of_true hlive (by rw [hfilled, accepted_order]; exact hqty))
      (by rw [hfilled, accepted_order, Nat.zero_add]; exact hfits)
    rw [hfilled, Nat.zero_add] at hsum hiff
    rw [accepted_order] at horder hiff
    -- the last of the fills left it partly or fully filled
    have hstatus : ∀ (fs : List Fill) {e : Entry}, (e.status = .filled ∨ e.status = .partialFill) ∨
        e.status.live = true ∧ fs ≠ [] →
        (fs.foldl (fun e f => e.filledWith f.filledQty f.fillPrice) e).status = .filled ∨
        (fs.foldl (fun e f => e.filledWith f.filledQty f.fillPrice) e).status = .partialFill := by
      intro fs
      induction fs with
      | nil => exact fun h => h.resolve_right fun hne => hne.2 rfl
      | cons f fs ih =>
        intro e h
        have hnext : (e.filledWith f.filledQty f.fillPrice).status = .filled ∨
            (e.filledWith f.filledQty f.fillPrice).status = .partialFill := by
          rw [filledWith]
          split
          · rw [fill]
            dsimp only
            split
            · exact Or.inl rfl
            · exact Or.inr rfl
          · next hdead => exact h.resolve_right fun hlive => hdead hlive.1
        exact ih (Or.inl hnext)
    rcases hstatus r.fills (Or.inr ⟨hlive, htraded hacc⟩) with hs | hs
    · have hfull := mt hiff.mpr (by rw [hs]; decide)
      refine Or.inl ⟨hs, UInt64.toNat_inj.mp ?_⟩
      rw [hsum, horder]
      omega
    · have hpart := hiff.mp (by rw [hs]; rfl)
      refine Or.inr (Or.inr ⟨Or.inl hs, UInt64.lt_iff_toNat_lt.mpr ?_⟩)
      rw [hsum, horder]
      exact hpart
  · refine Or.inr (Or.inl ⟨?_, ?_⟩)
    · rw [rejected, if_pos hpending]
    · rw [rejected_filled]
      exact hzero

namespace Desk

open TradeLog (recorded ofOrder onSide)

/-! ### The orders and the records -/

/-- **The books of the desk**: what is true between two calls. -/
structure Booked (d : Desk) : Prop where
  /-- Nothing of the strategy rests. -/
  unrested : Unrested d.2
  /-- The lock is free. -/
  free : d.1.engine.mtx = 0
  /-- It was not taken twice. -/
  once : d.1.engine.relocked = false
  /-- The keys of the orders. -/
  keyed : d.1.engine.orderManager.Keyed
  /-- An order is filled with what its records say. -/
  filled : ∀ {id : ℕ} {e : Entry}, d.1.engine.orderManager.orders id = some e →
    e.filled.toNat = recorded (ofOrder id) d.1.log.trades
  /-- A record is about an order, with its symbol and its side. -/
  known : ∀ t ∈ d.1.log.trades, ∃ e, d.1.engine.orderManager.orders t.orderId = some e ∧
    t.symbolId = e.order.symbolId ∧ t.side = e.order.side
  /-- No fill is passive. -/
  active : ∀ t ∈ d.1.log.trades, t.passive = false
  /-- No order waits for anything. -/
  ended : d.1.engine.orderManager.All Entry.Ended
  /-- The indices of open orders are right. -/
  indexed : d.1.engine.orderManager.Indexed
  /-- No key comes twice. -/
  nodup : d.1.engine.orderManager.ids.Nodup
  /-- Orders are small. -/
  small : d.1.engine.orderManager.All fun e => e.order.quantity.toNat < 2 ^ 51
  /-- A record has a side. -/
  sided : ∀ t ∈ d.1.log.trades, t.side ≠ .none

section Booked

variable {d d' : Desk}

/-- **Requests to cancel and marks** leave them. -/
theorem Booked.stays (h : Booked d) (hsim : Unrested d'.2) (hstays : Stays d.1.engine d'.1.engine)
    (hlog : d'.1.log.trades = d.1.log.trades) : Booked d' where
  unrested := hsim
  free := hstays.mtx.trans h.free
  once := hstays.relocked.trans h.once
  keyed := hstays.keyed h.keyed
  filled := by
    intro id e' he'
    obtain ⟨e, he, -, hfilled⟩ := Stays.entry_of (hstays.entry id) he'
    rw [hfilled, hlog]
    exact h.filled he
  known := by
    intro t ht
    rw [hlog] at ht
    obtain ⟨e, he, hsymbol, hside⟩ := h.known t ht
    obtain ⟨e', he', horder, -⟩ := Stays.entry_of (hstays.entry t.orderId).symm he
    exact ⟨e', he', by rw [hsymbol, horder], by rw [hside, horder]⟩
  active := by
    rw [hlog]
    exact h.active
  ended := hstays.all (fun _ he => he.cancelRequested) h.ended
  indexed := hstays.index h.indexed
  nodup := by
    rw [hstays.ids]
    exact h.nodup
  small := hstays.all (fun e he => by rwa [Entry.cancelRequested_order]) h.small
  sided := by
    rw [hlog]
    exact h.sided

/-- The mid for the records leaves them. -/
theorem Booked.takeMid (h : Booked d) (symbolId : ℕ) : Booked (d.takeMid symbolId) := by
  obtain ⟨hengine, hsim⟩ := Prod.mk.inj (takeMid_system symbolId d)
  refine h.stays ?_ ?_ (takeMid_trades symbolId d)
  · rw [hsim]
    exact h.unrested
  · rw [hengine]
    exact .refl _

/-- The next id has no records. -/
theorem Booked.recorded_next (h : Booked d) :
    recorded (ofOrder d.1.engine.idOf) d.1.log.trades = 0 := by
  refine TradeLog.recorded_eq_zero fun t ht => decide_eq_false fun hid => ?_
  obtain ⟨e, he, -⟩ := h.known t ht
  rw [hid] at he
  rw [ExecutionEngine.idOf, h.keyed.next_none] at he
  exact Option.some_ne_none _ he.symm

/-- **An order** is registered and answered, and its fills are recorded. -/
theorem Booked.place (h : Booked d) (order : Order) (ts : List TradeRecord) {g : Entry → Entry}
    (hrevises : OrderManager.Revises (d.1.engine.orderManager.newOrder order).2
      d'.1.engine.orderManager d.1.engine.idOf g)
    (horder : ∀ e, (g e).order = e.order)
    (hfilled : (g (d.1.engine.orderManager.newEntry order)).filled.toNat =
      recorded (ofOrder d.1.engine.idOf) ts)
    (hended : (g (d.1.engine.orderManager.newEntry order)).Ended)
    (hts : ∀ t ∈ ts, t.orderId = d.1.engine.idOf ∧ t.symbolId = order.symbolId ∧
      t.side = order.side ∧ t.passive = false)
    (hindexed : d'.1.engine.orderManager.Indexed) (hsmall : order.quantity.toNat < 2 ^ 51)
    (hsided : order.side ≠ .none) (hlog : d'.1.log.trades = d.1.log.trades ++ ts)
    (hsim : Unrested d'.2)
    (hfree : d'.1.engine.mtx = 0) (honce : d'.1.engine.relocked = false) : Booked d' where
  unrested := hsim
  free := hfree
  once := honce
  keyed := hrevises.keyed (h.keyed.newOrder order)
  filled := by
    intro id e he
    rw [hlog, TradeLog.recorded_append]
    rcases hrevises.cases_new he with ⟨hid, rfl⟩ | ⟨hid, he⟩
    · rw [hid, hfilled]
      exact (Nat.zero_add _).symm.trans (congrArg (· + _) h.recorded_next.symm)
    · have hnone : recorded (ofOrder id) ts = 0 :=
        TradeLog.recorded_eq_zero fun t ht =>
          decide_eq_false fun hs => hid (hs.symm.trans (hts t ht).1)
      rw [hnone, Nat.add_zero]
      exact h.filled he
  known := by
    intro t ht
    rw [hlog] at ht
    rcases List.mem_append.mp ht with ht | ht
    · obtain ⟨e, he, hsymbol, hside⟩ := h.known t ht
      have hid : t.orderId ≠ d.1.engine.idOf := by
        rintro hid
        rw [hid, ExecutionEngine.idOf, h.keyed.next_none] at he
        exact absurd he.symm (Option.some_ne_none _)
      refine ⟨e, ?_, hsymbol, hside⟩
      rw [hrevises.of_ne hid]
      exact (Function.update_of_ne hid _ _).trans he
    · obtain ⟨hid, hsymbol, hside, -⟩ := hts t ht
      refine ⟨g (d.1.engine.orderManager.newEntry order), ?_, ?_, ?_⟩
      · rw [hid, hrevises.self]
        show (Function.update d.1.engine.orderManager.orders d.1.engine.orderManager.nextId _
          d.1.engine.orderManager.nextId).map g = _
        rw [Function.update_self]
        rfl
      · rw [horder]
        exact hsymbol
      · rw [horder]
        exact hside
  active := by
    intro t ht
    rw [hlog] at ht
    rcases List.mem_append.mp ht with ht | ht
    · exact h.active t ht
    · exact (hts t ht).2.2.2
  ended := by
    intro id e he
    rcases hrevises.cases_new he with ⟨-, rfl⟩ | ⟨-, he⟩
    · exact hended
    · exact h.ended id e he
  indexed := hindexed
  nodup := by
    have hnew : (d.1.engine.orderManager.orders d.1.engine.orderManager.nextId).isSome ≠ true := by
      rw [h.keyed.next_none]
      exact Bool.false_ne_true
    rw [hrevises.ids]
    show (if _ then _ else d.1.engine.orderManager.ids ++ [_]).Nodup
    rw [if_neg hnew]
    refine List.nodup_append.mpr ⟨h.nodup, List.nodup_singleton _, fun id hid id' hid' => ?_⟩
    exact List.mem_singleton.mp hid' ▸ Nat.ne_of_lt (h.keyed.lt id hid)
  small := by
    intro id e he
    rcases hrevises.cases_new he with ⟨-, rfl⟩ | ⟨-, he⟩
    · rw [horder]
      exact hsmall
    · exact h.small id e he
  sided := by
    intro t ht
    rw [hlog] at ht
    rcases List.mem_append.mp ht with ht | ht
    · exact h.sided t ht
    · rw [(hts t ht).2.2.1]
      exact hsided

/-- The lock of a registered order. -/
theorem Booked.registered_lock (h : Booked d) (order : Order) :
    (d.1.engine.registered order).mtx = 1 ∧ (d.1.engine.registered order).relocked = false := by
  constructor
  · exact congrArg (· + 1) h.free
  · show (d.1.engine.relocked || decide (0 < d.1.engine.mtx)) = false
    rw [h.free, h.once]
    rfl

/-- The answer to a submit leaves the indices right. -/
theorem indexed_takeResult {ee : ExecutionEngine} {order : Order} {r : ExchangeSubmitResult}
    (h : ee.orderManager.Indexed) : (ee.takeResult order r).orderManager.Indexed := by
  rw [ExecutionEngine.takeResult]
  split
  · exact ExecutionEngine.applyFills_keep (P := fun ee => ee.orderManager.Indexed)
      (fun f h => h.onFill _ _ _) r.fills (h.onAccept _ _)
  · exact h.onReject _

/-- An order of a signal is small. -/
theorem signalQty_lt (ee : ExecutionEngine) (sig : Signal) :
    (ee.signalQty sig).toNat < 2 ^ 51 := by
  have hlt := (ee.baseQty * sig.strength.toUInt64).toNat_lt
  rw [ExecutionEngine.signalQty, UInt64.toNat_div,
    show Signal.kStrengthScale.toUInt64.toNat = 10000 from rfl]
  omega

/-- **Every call keeps the books.** -/
theorem Booked.step (h : Booked d) {c : Call} (hc : Foreign d c) (hcall : d.step c = some d') :
    Booked d' := by
  cases c with
  | event ev =>
    obtain ⟨hsim, hstays, hlog, -⟩ := event_stays h.unrested hc hcall
    exact h.stays hsim hstays (congrArg TradeLog.trades hlog)
  | decision sig strategyId =>
    have hmid := takeMid_trades sig.locate d
    rcases outcome_of_decision h.unrested hcall with
      rfl | ⟨hsent, hengine, hlog, hsim⟩ |
      ⟨hsent, -, r, marks, sim, hsubmit, hsim, hstays, hlog, hticked, -⟩
    · exact h.takeMid sig.locate
    · -- the risk manager refuses it
      obtain ⟨hmtx, hrelocked⟩ := h.registered_lock (d.1.engine.orderFor sig strategyId .market)
      refine h.place (d.1.engine.orderFor sig strategyId .market) [] (g := Entry.rejected) ?_
        Entry.rejected_order ?_ (Or.inr (Or.inl ⟨rfl, rfl⟩))
        (fun t ht => absurd ht List.not_mem_nil) ?_ ?_ ?_ ?_ ?_ ?_ ?_
      · rw [hengine]
        exact (d.1.engine.orderManager.newOrder _).2.onReject_revises d.1.engine.idOf
      · rw [Entry.rejected_filled]
        rfl
      · rw [hengine]
        exact (h.indexed.newOrder h.keyed _).onReject _
      · exact signalQty_lt d.1.engine sig
      · exact fun hside => hsent (Or.inl (Or.inl hside))
      · rw [hlog, hmid, List.append_nil]
      · rw [hsim]
        exact h.unrested
      · rw [hengine]
        exact congrArg (· - 1) hmtx
      · rw [hengine]
        exact hrelocked
    · generalize horder : d.1.engine.orderFor sig strategyId .market = order at *
      have hquantity : order.quantity = d.1.engine.signalQty sig := by rw [← horder]; rfl
      have hid : order.orderId = d.1.engine.idOf := by rw [← horder]; rfl
      have hsided : order.side ≠ .none := by
        rw [← horder]
        exact fun hside => hsent (Or.inl (Or.inl hside))
      have hsmall : order.quantity.toNat < 2 ^ 51 := by
        rw [hquantity]
        exact signalQty_lt d.1.engine sig
      have hpositive : 0 < order.quantity.toNat := by
        refine Nat.pos_of_ne_zero fun hzero => hsent (Or.inr (Or.inr ?_))
        rw [← hquantity]
        exact UInt64.toNat_inj.mp hzero
      obtain ⟨hle, -, hrejected⟩ := ExchangeSimulator.submit_fills_le hsubmit
      have hsum : (r.fills.map fun f => f.filledQty.toNat).sum ≤ order.quantity.toNat := by
        refine hle.trans ?_
        rw [UInt64.toNat_toUInt32]
        exact Nat.mod_le _ _
      have htrades := (d.takeMid sig.locate).1.log.recordFills_trades order hrejected
      rw [hmid, ← hlog] at htrades
      obtain ⟨hmtx, hrelocked⟩ := h.registered_lock order
      obtain ⟨hlock, hcalm⟩ := ((d.1.engine.registered order).takeMarks marks).takeResult_lock
        order r
      have hanswered := ((d.1.engine.registered order).takeMarks marks).takeResult_revises order r
      rw [hid] at hanswered
      have hplaced : Booked (⟨(((d.1.engine.registered order).takeMarks marks).takeResult order
          r).unlock, d'.1.log⟩, sim) := by
        refine h.place order _ hanswered (Entry.answered_order · r) ?_
          (Entry.answered_ended rfl rfl hpositive hsum
            (ExchangeSimulator.submit_ioc_traded hsubmit)) ?_
          (indexed_takeResult (h.indexed.newOrder h.keyed order)) hsmall hsided htrades hsim ?_ ?_
        · rw [TradeLog.recorded_fills (b := true) _ fun f => decide_eq_true hid, if_pos rfl]
          exact Entry.answered_filled rfl rfl hpositive hsum hrejected
        · intro t ht
          obtain ⟨f, -, rfl⟩ := List.mem_map.mp ht
          exact ⟨hid, rfl, rfl, rfl⟩
        · exact congrArg (· - 1) (hlock.trans hmtx)
        · exact hcalm.trans hrelocked
      exact hplaced.stays (hticked.unrested hsim) hstays rfl

/-- **Records are only added**, and stay as they are. -/
theorem trades_step (hsim : Unrested d.2) {c : Call} (hc : Foreign d c)
    (hcall : d.step c = some d') : d.1.log.trades <+: d'.1.log.trades := by
  cases c with
  | event ev =>
    obtain ⟨-, -, hlog, -⟩ := event_stays hsim hc hcall
    rw [hlog]
  | decision sig strategyId =>
    have hmid := takeMid_trades sig.locate d
    rcases outcome_of_decision hsim hcall with
      heq | ⟨-, -, hlog, -⟩ | ⟨-, -, r, marks, sim, hsubmit, -, -, hlog, -, -⟩
    · rw [heq, hmid]
    · rw [hlog, hmid]
    · obtain ⟨-, -, hrejected⟩ := ExchangeSimulator.submit_fills_le hsubmit
      rw [hlog, TradeLog.recordFills_trades _ _ hrejected, hmid]
      exact List.prefix_append _ _

/-- A desk that has seen nothing. -/
theorem booked_new (visits : VisitOrder) (base : UInt64) (rm : RiskManager) (baseQty : UInt64)
    (capacity : ℕ) (view : Option ℕ)
    (sink : MarketEvent → Option Market.OrderBookConsumer → List Mark) :
    Booked (new visits base rm baseQty (.new capacity view sink)) where
  unrested := .new capacity view sink
  free := rfl
  once := rfl
  keyed := OrderManager.keyed_new visits base.toNat
  filled := fun he => absurd he.symm (Option.some_ne_none _)
  known := fun _ ht => absurd ht List.not_mem_nil
  active := fun _ ht => absurd ht List.not_mem_nil
  ended := fun _ _ he => absurd he.symm (Option.some_ne_none _)
  indexed := OrderManager.indexed_new visits base.toNat
  nodup := List.nodup_nil
  small := fun _ _ he => absurd he.symm (Option.some_ne_none _)
  sided := fun _ ht => absurd ht List.not_mem_nil

theorem Runs.booked (h : Runs Foreign d) : Booked d := by
  induction h with
  | start visits base rm baseQty capacity view sink => exact booked_new visits base rm baseQty _ _ _
  | call c _ hc hcall ih => exact ih.step hc hcall

/-- **The fills of a side of a symbol** are the records of that side of that symbol. -/
theorem Booked.filledOf (h : Booked d) (side : OrderSide) (symbolId : ℕ) :
    d.1.engine.orderManager.filledOf side symbolId =
      recorded (onSide side symbolId) d.1.log.trades := by
  have hids : ∀ t ∈ d.1.log.trades, t.orderId ∈ d.1.engine.orderManager.ids.toFinset := by
    intro t ht
    obtain ⟨e, he, -⟩ := h.known t ht
    rw [List.mem_toFinset, h.keyed.mem_iff, he]
    exact Option.some_ne_none _
  rw [OrderManager.filledOf, OrderManager.total, TradeLog.recorded_eq_sum hids]
  refine Finset.sum_congr rfl fun id hm => ?_
  rw [List.mem_toFinset, h.keyed.mem_iff] at hm
  obtain ⟨e, he⟩ := Option.ne_none_iff_exists'.mp hm
  rw [he]
  -- the records of an order have its side and its symbol
  have hlike : ∀ t ∈ d.1.log.trades, t.orderId = id →
      (onSide side symbolId t = true ↔ e.order.side = side ∧ e.order.symbolId = symbolId) := by
    intro t ht hid
    obtain ⟨e', he', hsymbol, hside⟩ := h.known t ht
    rw [hid, he] at he'
    obtain rfl := Option.some.inj he'
    rw [onSide, decide_eq_true_iff, hsymbol, hside]
  show OrderManager.filledAs side symbolId e = _
  rw [OrderManager.filledAs]
  split
  · next hyes =>
    rw [h.filled he, recorded, recorded]
    refine congrArg (fun ts => (List.map (fun t : TradeRecord => t.qty.toNat) ts).sum)
      (List.filter_congr fun t ht => ?_)
    by_cases hid : t.orderId = id
    · rw [ofOrder, decide_eq_true hid, (hlike t ht hid).mpr hyes]
      rfl
    · rw [ofOrder, decide_eq_false hid]
      rfl
  · next hno =>
    refine (TradeLog.recorded_eq_zero fun t ht => ?_).symm
    by_cases hid : t.orderId = id
    · rw [Bool.eq_false_iff.mpr fun hs => hno ((hlike t ht hid).mp hs), Bool.and_false]
    · rw [decide_eq_false hid, Bool.false_and]

end Booked

/-! ### The positions and the records -/

/-- **The positions of the desk**: bought less sold, and within the limit. -/
structure Held (d : Desk) : Prop where
  /-- What is bought is held or was sold. -/
  balance : ∀ symbol < kMaxLocate, (d.1.engine.riskManager.position symbol).toNat +
    recorded (onSide .sell symbol) d.1.log.trades = recorded (onSide .buy symbol) d.1.log.trades
  /-- What is held is within the limit. -/
  within : ∀ symbol < kMaxLocate, (d.1.engine.riskManager.position symbol).toNat ≤
    d.1.engine.riskManager.maxPosition.toNat

section Held

variable {d d' : Desk}

/-- Requests to cancel and marks leave them. -/
theorem Held.stays (h : Held d) (hstays : Stays d.1.engine d'.1.engine)
    (hlog : d'.1.log.trades = d.1.log.trades) : Held d' where
  balance := by
    intro symbol hsymbol
    rw [hstays.position, hlog]
    exact h.balance symbol hsymbol
  within := by
    intro symbol hsymbol
    rw [hstays.position, hstays.maxPosition]
    exact h.within symbol hsymbol

/-- No call changes the limit. -/
theorem maxPosition_step (hsim : Unrested d.2) {c : Call} (hc : Foreign d c)
    (hcall : d.step c = some d') :
    d'.1.engine.riskManager.maxPosition = d.1.engine.riskManager.maxPosition := by
  cases c with
  | event ev => exact (event_stays hsim hc hcall).2.1.maxPosition
  | decision sig strategyId =>
    rcases outcome_of_decision hsim hcall with
      rfl | ⟨-, hengine, -, -⟩ | ⟨-, -, r, marks, sim, -, -, hstays, -, -, -⟩
    · rw [(Prod.mk.inj (takeMid_system sig.locate d)).1]
    · rw [hengine]
      rfl
    · rw [hstays.maxPosition]
      show (ExecutionEngine.takeResult _ _ r).riskManager.maxPosition = _
      rw [ExecutionEngine.maxPosition_takeResult]
      exact d.1.engine.riskManager.maxPosition_marks marks

/-- **What the check allows** fits into the position. -/
theorem takes_of_check {rm : RiskManager} {order : Order} {n : ℕ}
    (hcheck : rm.checkOrder order = true) (hlimit : rm.maxPosition.toNat < 2 ^ 63)
    (hheld : (rm.position order.symbolId).toNat ≤ rm.maxPosition.toNat)
    (hsmall : order.quantity.toNat < 2 ^ 51) (hn : n ≤ order.quantity.toNat) :
    RiskManager.Takes order.side (rm.position order.symbolId).toNat n ∧
      RiskManager.taken order.side (rm.position order.symbolId).toNat n ≤
        rm.maxPosition.toNat := by
  rw [RiskManager.checkOrder] at hcheck
  split_ifs at hcheck
  cases hside : order.side with
  | buy =>
    rw [hside] at hcheck
    have hle := UInt64.le_iff_toNat_le.mp (of_decide_eq_true hcheck)
    rw [UInt64.toNat_add, Nat.mod_eq_of_lt (by omega)] at hle
    rw [RiskManager.Takes, RiskManager.taken]
    omega
  | sell =>
    rw [hside] at hcheck
    have hle := UInt64.le_iff_toNat_le.mp (of_decide_eq_true hcheck)
    rw [RiskManager.Takes, RiskManager.taken]
    omega
  | none =>
    rw [hside] at hcheck
    exact absurd hcheck Bool.false_ne_true

/-- The records of the fills of an order of another symbol or of the other side. -/
theorem recorded_onSide {log : TradeLog} {order : Order} (fs : List Fill) (side : OrderSide)
    (symbol : ℕ) : recorded (onSide side symbol) (fs.map (log.fillRecord order)) =
      if order.side = side ∧ order.symbolId = symbol then
        (fs.map fun f => f.filledQty.toNat).sum else 0 := by
  by_cases hlike : order.side = side ∧ order.symbolId = symbol
  · rw [TradeLog.recorded_fills (b := true) fs fun f => decide_eq_true hlike, if_pos hlike,
      if_pos rfl]
  · rw [TradeLog.recorded_fills (b := false) fs fun f => decide_eq_false hlike, if_neg hlike,
      if_neg Bool.false_ne_true]

/-- **Every call keeps the positions.** -/
theorem Held.step (h : Held d) (hlimit : d.1.engine.riskManager.maxPosition.toNat < 2 ^ 63)
    (hsim : Unrested d.2) {c : Call} (hc : Foreign d c) (hcall : d.step c = some d') :
    Held d' := by
  have hmax := maxPosition_step hsim hc hcall
  cases c with
  | event ev =>
    obtain ⟨-, hstays, hlog, -⟩ := event_stays hsim hc hcall
    exact h.stays hstays (congrArg TradeLog.trades hlog)
  | decision sig strategyId =>
    have hmid := takeMid_trades sig.locate d
    rcases outcome_of_decision hsim hcall with
      rfl | ⟨-, hengine, hlog, -⟩ | ⟨-, hcheck, r, marks, sim, hsubmit, -, hstays, hlog, -, -⟩
    · refine h.stays ?_ hmid
      rw [(Prod.mk.inj (takeMid_system sig.locate d)).1]
      exact .refl _
    · have hrisk : d'.1.engine.riskManager = d.1.engine.riskManager := by
        rw [hengine]
        rfl
      refine ⟨fun symbol hsymbol => ?_, fun symbol hsymbol => ?_⟩
      · rw [hrisk, hlog, hmid]
        exact h.balance symbol hsymbol
      · rw [hrisk]
        exact h.within symbol hsymbol
    · generalize horder : d.1.engine.orderFor sig strategyId .market = order at *
      have hquantity : order.quantity = d.1.engine.signalQty sig := by rw [← horder]; rfl
      have hsmall : order.quantity.toNat < 2 ^ 51 := by
        rw [hquantity]
        exact signalQty_lt _ _
      obtain ⟨hle, hfar, hrejected⟩ := ExchangeSimulator.submit_fills_le hsubmit
      generalize hn : (r.fills.map fun f => f.filledQty.toNat).sum = n at hle hfar
      have hfits : n ≤ order.quantity.toNat := by
        refine hle.trans ?_
        rw [UInt64.toNat_toUInt32]
        exact Nat.mod_le _ _
      have htrades := (d.takeMid sig.locate).1.log.recordFills_trades order hrejected
      rw [hmid, ← hlog] at htrades
      have hmarked : ∀ symbol, ((d.1.engine.registered order).takeMarks
          marks).riskManager.position symbol = d.1.engine.riskManager.position symbol :=
        fun symbol => d.1.engine.riskManager.position_marks marks symbol
      -- a symbol with a locate has room for what the check allows
      have hallowed : order.symbolId < kMaxLocate →
          RiskManager.Takes order.side (d.1.engine.riskManager.position order.symbolId).toNat n ∧
          RiskManager.taken order.side (d.1.engine.riskManager.position order.symbolId).toNat n ≤
            d.1.engine.riskManager.maxPosition.toNat :=
        fun hsymbol => takes_of_check hcheck hlimit (h.within _ hsymbol) hsmall hfits
      have hposition : ∀ symbol < kMaxLocate, (d'.1.engine.riskManager.position symbol).toNat =
          if symbol = order.symbolId then
            RiskManager.taken order.side (d.1.engine.riskManager.position symbol).toNat n
          else (d.1.engine.riskManager.position symbol).toNat := by
        intro symbol hsymbol
        rw [hstays.position]
        have htaken := ExecutionEngine.toNat_position_takeResult hsymbol
          ((d.1.engine.registered order).takeMarks marks) hn
          (fun hacc => by rw [← hn, hrejected hacc]; rfl) hfar
          (fun hs => by
            rw [hmarked, hs]
            exact (hallowed (hs ▸ hsymbol)).1)
        rwa [hmarked] at htaken
      refine ⟨fun symbol hsymbol => ?_, fun symbol hsymbol => ?_⟩
      · have hbalance := h.balance symbol hsymbol
        rw [hposition symbol hsymbol, htrades, TradeLog.recorded_append, TradeLog.recorded_append,
          recorded_onSide, recorded_onSide, hn]
        by_cases hs : symbol = order.symbolId
        · subst hs
          obtain ⟨htakes, -⟩ := hallowed hsymbol
          rw [if_pos rfl]
          cases hside : order.side with
          | buy =>
            simp only [RiskManager.taken, reduceCtorEq, and_true, if_true, if_false]
            omega
          | sell =>
            rw [hside, RiskManager.Takes] at htakes
            simp only [RiskManager.taken, reduceCtorEq, and_true, if_true, if_false]
            omega
          | none =>
            simp only [RiskManager.taken, reduceCtorEq, false_and, if_false]
            omega
        · rw [if_neg hs, if_neg fun hc => hs hc.2.symm, if_neg fun hc => hs hc.2.symm]
          omega
      · rw [hposition symbol hsymbol, hmax]
        split
        · next hs =>
          rw [hs]
          exact (hallowed (hs ▸ hsymbol)).2
        · exact h.within symbol hsymbol

/-- A desk that has seen nothing. -/
theorem held_new (visits : VisitOrder) (base : UInt64) {rm : RiskManager} (hrm : rm.IsNew)
    (baseQty : UInt64) (sim : ExchangeSimulator) : Held (new visits base rm baseQty sim) := by
  have hposition : ∀ symbol, (rm.position symbol).toNat = 0 := by
    intro symbol
    rw [RiskManager.position, RiskManager.cell, Cells.get, hrm.1]
    rfl
  exact ⟨fun symbol _ => congrArg (· + 0) (hposition symbol),
    fun symbol _ => (hposition symbol).trans_le (Nat.zero_le _)⟩

theorem Runs.held (h : Runs Foreign d)
    (hlimit : d.1.engine.riskManager.maxPosition.toNat < 2 ^ 63) : Held d := by
  induction h with
  | start visits base rm baseQty capacity view sink hrm => exact held_new visits base hrm baseQty _
  | call c hr hc hcall ih =>
    have hsim := hr.booked.unrested
    rw [maxPosition_step hsim hc hcall] at hlimit
    exact (ih hlimit).step hlimit hsim hc hcall

end Held

/-! ### Runs -/

section Runs

variable {d d' : Desk}

/-- An offer of 60 at 101 and a bid of 100 at 99. The strategy buys 100, of which it gets 60, is
not let sell 100, and sells 50. -/
def deskCalls : List Call :=
  [.event (.add 0 1 .sell 101 60), .event (.add 0 2 .buy 99 100),
    .decision { side := .buy, strength := 10000 } 1,
    .decision { side := .sell, strength := 10000 } 1,
    .decision { side := .sell, strength := 5000 } 1]

/-- The desk that takes them. -/
def deskStart : Desk :=
  new .inserted 1000 { cells := .none, maxPosition := 150 } 100 (.new 4 none fun _ _ => [])

/-- They are a run. -/
theorem runs_deskCalls
    (hrun : play (fun d c => decide (Foreign d c)) deskCalls deskStart = some d) :
    Runs Foreign d :=
  Runs.play (fun _ hpass => of_decide_eq_true hpass)
    (.start .inserted 1000 _ 100 4 none _ ⟨rfl, rfl⟩ (by decide) (by decide)
      (by simp)) hrun

/-- **Nothing of the strategy rests** in a run of the desk: none of its orders is registered, no
cancel of its user is reported, every fill is that of an order that came in, and the lock is not
taken while it is held, whatever the drawdown. -/
theorem runs_quiet (h : Runs Foreign d) :
    d.2.strategyRefs = ∅ ∧
      (∀ id symbolId reports sim', d.2.cancel id symbolId kStrategyUserId = some (reports, sim') →
        reports = []) ∧
      (∀ t ∈ d.1.log.trades, t.passive = false) ∧
      d.1.engine.mtx = 0 ∧ d.1.engine.relocked = false := by
  have hbooked := h.booked
  exact ⟨hbooked.unrested.idle, fun id symbolId reports sim' hcancel =>
    (hbooked.unrested.cancel hcancel).1, hbooked.active, hbooked.free, hbooked.once⟩

/-- A flatten is issued, and the lock is taken once all the same. Cancelling the first order, which
was filled in part, is not reported. -/
theorem runs_quiet_two : ∃ d reports sim',
    play (fun d c => decide (Foreign d c)) deskCalls deskStart = some d ∧
      d.2.cancel 1000 0 kStrategyUserId = some (reports, sim') ∧ reports = [] ∧
      d.1.log.trades.length = 2 ∧ d.1.engine.flattenIssued = true ∧
      (∀ t ∈ d.1.log.trades, t.passive = false) ∧ d.2.strategyRefs = ∅ ∧
      d.1.engine.relocked = false := by
  have hread : (play (fun d c => decide (Foreign d c)) deskCalls deskStart).bind (fun d =>
      (d.2.cancel 1000 0 kStrategyUserId).map fun _ =>
        (d.1.log.trades.length, d.1.engine.flattenIssued)) = some (2, true) := by
    decide +kernel
  obtain ⟨d, hrun, hread⟩ := Option.bind_eq_some_iff.mp hread
  obtain ⟨⟨reports, sim'⟩, hcancel, heq⟩ := Option.map_eq_some_iff.mp hread
  obtain ⟨hlength, hissued⟩ := Prod.mk.inj heq
  obtain ⟨hrefs, hnone, hactive, -, honce⟩ := runs_quiet (runs_deskCalls hrun)
  exact ⟨d, reports, sim', hrun, hcancel, hnone _ _ _ _ hcancel, hlength, hissued, hactive, hrefs,
    honce⟩

/-- **No order waits for anything** in a run of the desk: it is filled in full, turned away with
nothing filled, or filled in part, perhaps with a request to cancel that was not answered. No order
is ever cancelled. The order manager lists the orders that were filled in part among the open ones,
though nothing of them is at the exchange any more. -/
theorem runs_ended (h : Runs Foreign d) {id : ℕ} {e : Entry}
    (he : d.1.engine.orderManager.orders id = some e) :
    e.Ended ∧ (id ∈ d.1.engine.orderManager.openOrders e.order.symbolId ↔
      e.status = .partialFill ∨ e.status = .pendingCancel) := by
  have hended := h.booked.ended id e he
  refine ⟨hended, (h.booked.indexed.symbol _ _).trans ?_⟩
  constructor
  · rintro ⟨e', he', -, hopen⟩
    obtain rfl := Option.some.inj (he.symm.trans he')
    rcases hended with ⟨hs, -⟩ | ⟨hs, -⟩ | ⟨hs, -⟩
    · rw [hs] at hopen
      exact absurd hopen (by decide)
    · rw [hs] at hopen
      exact absurd hopen (by decide)
    · exact hs
  · rintro (hs | hs)
    · exact ⟨e, he, rfl, by rw [hs]; rfl⟩
    · exact ⟨e, he, rfl, by rw [hs]; rfl⟩

/-- The sale is at a loss, so that a flatten asks for the cancel of the first order. It stays among
the open ones. -/
theorem runs_ended_two : ∃ d e,
    play (fun d c => decide (Foreign d c)) deskCalls deskStart = some d ∧
      d.1.engine.orderManager.orders 1000 = some e ∧ e.status = .pendingCancel ∧ e.filled = 60 ∧
      e.Ended ∧ 1000 ∈ d.1.engine.orderManager.openOrders e.order.symbolId := by
  have hread : (play (fun d c => decide (Foreign d c)) deskCalls deskStart).bind (fun d =>
      (d.1.engine.orderManager.orders 1000).map fun e => (e.status, e.filled)) =
        some (.pendingCancel, 60) := by decide +kernel
  obtain ⟨d, hrun, hread⟩ := Option.bind_eq_some_iff.mp hread
  obtain ⟨e, he, heq⟩ := Option.map_eq_some_iff.mp hread
  obtain ⟨hstatus, hfilled⟩ := Prod.mk.inj heq
  obtain ⟨hended, hopen⟩ := runs_ended (runs_deskCalls hrun) he
  exact ⟨d, e, hrun, he, hstatus, hfilled, hended, hopen.mpr (Or.inr hstatus)⟩

/-- **The order manager and the records agree**: an order is filled with what its records say, its
records have its symbol and its side, and so a side of a symbol is filled with what the records of
that side say. -/
theorem runs_recorded (h : Runs Foreign d) :
    (∀ id e, d.1.engine.orderManager.orders id = some e →
      e.filled.toNat = recorded (ofOrder id) d.1.log.trades) ∧
    (∀ t ∈ d.1.log.trades, ∃ e, d.1.engine.orderManager.orders t.orderId = some e ∧
      t.symbolId = e.order.symbolId ∧ t.side = e.order.side) ∧
    ∀ side symbol, d.1.engine.orderManager.filledOf side symbol =
      recorded (onSide side symbol) d.1.log.trades :=
  ⟨fun _ _ he => h.booked.filled he, h.booked.known, h.booked.filledOf⟩

/-- Sixty bought and fifty sold. -/
theorem runs_recorded_two : ∃ d,
    play (fun d c => decide (Foreign d c)) deskCalls deskStart = some d ∧
      d.1.engine.orderManager.filledOf .buy 0 = 60 ∧
      recorded (onSide .buy 0) d.1.log.trades = 60 ∧ recorded (onSide .sell 0) d.1.log.trades = 50 ∧
      d.1.engine.orderManager.filledOf .sell 0 = 50 := by
  have hread : (play (fun d c => decide (Foreign d c)) deskCalls deskStart).map (fun d =>
      (recorded (onSide .buy 0) d.1.log.trades, recorded (onSide .sell 0) d.1.log.trades)) =
        some (60, 50) := by decide +kernel
  obtain ⟨d, hrun, heq⟩ := Option.map_eq_some_iff.mp hread
  obtain ⟨hbuy, hsell⟩ := Prod.mk.inj heq
  obtain ⟨-, -, hsides⟩ := runs_recorded (runs_deskCalls hrun)
  exact ⟨d, hrun, (hsides .buy 0).trans hbuy, hbuy, hsell, (hsides .sell 0).trans hsell⟩

/-- **The risk manager and the records agree**, if the limit is below `2 ^ 63`: the position of
every symbol with a locate is what the records say was bought less what they say was sold. It is
within the limit, and no more is sold than was bought. -/
theorem runs_held (h : Runs Foreign d)
    (hlimit : d.1.engine.riskManager.maxPosition.toNat < 2 ^ 63) (symbol : ℕ)
    (hsymbol : symbol < kMaxLocate) :
    (d.1.engine.riskManager.position symbol).toNat +
        recorded (onSide .sell symbol) d.1.log.trades =
      recorded (onSide .buy symbol) d.1.log.trades ∧
    d.1.engine.riskManager.position symbol ≤ d.1.engine.riskManager.maxPosition ∧
    recorded (onSide .sell symbol) d.1.log.trades ≤
      recorded (onSide .buy symbol) d.1.log.trades := by
  have hheld := h.held hlimit
  have hbalance := hheld.balance symbol hsymbol
  exact ⟨hbalance, UInt64.le_iff_toNat_le.mpr (hheld.within symbol hsymbol), by omega⟩

/-- Ten are left. -/
theorem runs_held_two : ∃ d,
    play (fun d c => decide (Foreign d c)) deskCalls deskStart = some d ∧
      d.1.engine.riskManager.position 0 = 10 ∧
      (d.1.engine.riskManager.position 0).toNat + recorded (onSide .sell 0) d.1.log.trades =
        recorded (onSide .buy 0) d.1.log.trades ∧
      d.1.engine.riskManager.position 0 ≤ d.1.engine.riskManager.maxPosition := by
  have hread : (play (fun d c => decide (Foreign d c)) deskCalls deskStart).map (fun d =>
      (d.1.engine.riskManager.position 0, d.1.engine.riskManager.maxPosition)) =
        some (10, 150) := by decide +kernel
  obtain ⟨d, hrun, heq⟩ := Option.map_eq_some_iff.mp hread
  obtain ⟨hposition, hmax⟩ := Prod.mk.inj heq
  obtain ⟨hbalance, hwithin, -⟩ := runs_held (runs_deskCalls hrun)
    (by rw [hmax]; decide) 0 (by decide)
  exact ⟨d, hrun, hposition, hbalance, hwithin⟩

end Runs

end Desk

end NebulaX
