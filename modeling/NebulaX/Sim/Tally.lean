import NebulaX.Sim.Routing
import NebulaX.Oms.Totals

/-!
# Fills are neither lost nor counted twice

The engine's trades reach the order manager on two ways. Those of an order that is submitted come
with the answer to the submit, and those of an order that rests are reported while an event of the
market is handled. What an order was filled is to be what it traded, on either side.

`Tallied` is what carries this through the calls: what an order was filled, what waits to be
reported, and what rests of it, make up what the exchange was sent. In between an order that is
used up in the book is still registered and still live in the order manager.

## The defect

This goes wrong when the order stops being live before its fill is reported. One event may use up
several orders of the strategy. If the report of the first fill starts a flatten, the others are
asked to be cancelled; the fills that are reported for them next are ignored, or not reported any
more. `Undisturbed` excludes it, and `fill_lost` shows it.

## Main results

* `steady_tallied` — every step keeps the tally
* `filled_eq_traded` — what an order was filled is what it traded, in runs of undisturbed events
* `fill_lost` — a flatten between two fills of one event
-/

namespace NebulaX

open Exchange (MatchingEngine BinaryResponse OrderData OrderTif Fresh Rests Effect CutBy makerQty
  takerQty qtyOf effect_of_exec)

/-- What the exchange is sent of an order: its quantity, in 32 bits. -/
def Entry.sent (e : Entry) : ℕ := e.order.quantity.toUInt32.toNat

theorem Entry.sent_le (e : Entry) : e.sent ≤ e.order.quantity.toNat := by
  rw [sent, UInt64.toNat_toUInt32]
  exact Nat.mod_le _ _

/-- What an order traded, as the taker or as the maker. -/
def tradedBy (ref : ℕ) (tape : List Trade) : ℕ :=
  (tape.map fun t => if t.taker = ref ∨ t.maker = ref then t.quantity.toNat else 0).sum

theorem tradedBy_append (ref : ℕ) (tape tape' : List Trade) :
    tradedBy ref (tape ++ tape') = tradedBy ref tape + tradedBy ref tape' := by
  rw [tradedBy, List.map_append, List.sum_append]
  rfl

/-- An order that no trade names did not trade. -/
theorem tradedBy_eq_zero {ref : ℕ} {tape : List Trade}
    (h : ∀ t ∈ tape, t.taker ≠ ref ∧ t.maker ≠ ref) : tradedBy ref tape = 0 := by
  refine List.sum_eq_zero fun q hq => ?_
  obtain ⟨t, ht, rfl⟩ := List.mem_map.mp hq
  exact if_neg (not_or.mpr (h t ht))

/-- One more trade, with another taker. -/
theorem tradedBy_countTrade (sim : ExchangeSimulator) {ref taker : ℕ} (hne : taker ≠ ref)
    (maker : ℕ) (q : UInt32) : tradedBy ref (sim.countTrade taker maker q).tape =
      tradedBy ref sim.tape + if maker = ref then q.toNat else 0 := by
  show tradedBy ref (sim.tape ++ [⟨taker, maker, q⟩]) = _
  rw [tradedBy_append]
  show _ + ((if taker = ref ∨ maker = ref then q.toNat else 0) + 0) = _
  simp only [hne, false_or, Nat.add_zero]

/-- What the answers to a submit add for the order itself, -/
theorem tradedBy_answers (ref : ℕ) (rsp : List BinaryResponse) :
    tradedBy ref ((ExchangeSimulator.tradesIn rsp).map fun t => ⟨ref, t.1, t.2.2⟩) =
      takerQty rsp := by
  rw [takerQty_eq_sum, tradedBy, List.map_map]
  refine congrArg List.sum (List.map_congr_left fun t _ => ?_)
  exact if_pos (Or.inl rfl)

/-- and for another one. -/
theorem tradedBy_answers_of_ne {ref taker : ℕ} (hne : taker ≠ ref) (rsp : List BinaryResponse) :
    tradedBy ref ((ExchangeSimulator.tradesIn rsp).map fun t => ⟨taker, t.1, t.2.2⟩) =
      givenBy ref (ExchangeSimulator.tradesIn rsp) := by
  rw [tradedBy, List.map_map, givenBy]
  refine congrArg List.sum (List.map_congr_left fun t _ => ?_)
  show (if taker = ref ∨ t.1 = ref then t.2.2.toNat else 0) = _
  simp only [hne, false_or]

theorem givenBy_cons (ref : ℕ) (t : ℕ × UInt32 × UInt32) (ts : List (ℕ × UInt32 × UInt32)) :
    givenBy ref (t :: ts) = (if t.1 = ref then t.2.2.toNat else 0) + givenBy ref ts := by
  rw [givenBy, List.map_cons, List.sum_cons]
  rfl

namespace System

/-! ### One order -/

/-- What rests of an order of the strategy, while trades wait. -/
structure Stands (ts : Waiting) (sim : ExchangeSimulator) (ref : ℕ) (e : Entry) (x : OrderData) :
    Prop where
  /-- It is registered. -/
  registered : sim.isStrategyOrder ref = true
  /-- It has the user of the strategy. -/
  user : x.userId = kStrategyUserId
  /-- Something is left of it. -/
  pos : 0 < qtyOf x
  /-- It is live in the order manager. -/
  live : e.status.live = true
  /-- **What was filled, what waits and what rests** make up what was sent. -/
  split : e.filled.toNat + givenBy ref ts + qtyOf x = e.sent

/-- **The order manager and the exchange** agree about an order, while trades wait. -/
structure Tallies (ts : Waiting) (sim : ExchangeSimulator) (ref : ℕ) (e : Entry) : Prop where
  /-- No more is filled than was ordered. -/
  le : e.filled.toNat ≤ e.order.quantity.toNat
  /-- What was filled is what it traded. -/
  counted : e.filled.toNat = tradedBy ref sim.tape
  /-- What rests. -/
  rests : ∀ L b, ∀ x ∈ sim.engine.resting L b, x.orderId = ref → Stands ts sim ref e x
  /-- What waits is still expected. -/
  waits : givenBy ref ts ≠ 0 → sim.isStrategyOrder ref = true ∧ e.status.live = true ∧
    e.filled.toNat + givenBy ref ts ≤ e.sent

/-- The two agree about every order, as long as the index is complete. -/
def Tallied (ts : Waiting) (s : System) : Prop :=
  s.2.engine.shared.insertDropped = false →
    ∀ ref e, s.1.orderManager.orders ref = some e → Tallies ts s.2 ref e

/-- No trade names the order that a signal comes to. -/
def Unnamed (s : System) (_ : Order) (_ : OrderType) : Prop :=
  ∀ t ∈ s.2.tape, t.taker ≠ s.1.idOf ∧ t.maker ≠ s.1.idOf

section Order

variable {ts : Waiting} {sim sim' : ExchangeSimulator} {ref : ℕ} {e : Entry}

/-- It depends on what rests, the registry and the tape only. -/
theorem Tallies.congr (h : Tallies ts sim ref e)
    (hrest : ∀ L b, ∀ y ∈ sim'.engine.resting L b, y.orderId = ref →
      ∃ x ∈ sim.engine.resting L b, CutBy 0 x y)
    (hreg : sim.isStrategyOrder ref = true → sim'.isStrategyOrder ref = true)
    (htape : tradedBy ref sim'.tape = tradedBy ref sim.tape) : Tallies ts sim' ref e where
  le := h.le
  counted := h.counted.trans htape.symm
  rests := by
    intro L b y hy hid
    obtain ⟨x, hx, hcut⟩ := hrest L b y hy hid
    obtain ⟨hr, huser, hpos, hlive, hsplit⟩ := h.rests L b x hx (hcut.orderId.symm.trans hid)
    have hqty : qtyOf y + 0 = qtyOf x := hcut.qty
    exact ⟨hreg hr, hcut.userId.trans huser, hcut.pos hpos, hlive, by omega⟩
  waits := by
    intro hne
    obtain ⟨hr, hlive, hle⟩ := h.waits hne
    exact ⟨hreg hr, hlive, hle⟩

/-- An order that rests nowhere and waits for nothing may have any state. -/
theorem Tallies.withdrawn {e' : Entry} (h : Tallies [] sim ref e) (horder : e'.order = e.order)
    (hfilled : e'.filled = e.filled) (hfresh : Fresh sim'.engine.resting ref)
    (htape : sim'.tape = sim.tape) : Tallies [] sim' ref e' where
  le := by
    rw [horder, hfilled]
    exact h.le
  counted := by
    rw [hfilled, htape]
    exact h.counted
  rests := fun L b x hx hid => absurd hid (hfresh L b x hx)
  waits := fun hne => absurd rfl hne

/-- What waits of an order is all that matters of the waiting trades. -/
theorem Tallies.congr_waiting {ts' : Waiting} (h : Tallies ts sim ref e)
    (hgiven : givenBy ref ts' = givenBy ref ts) : Tallies ts' sim ref e where
  le := h.le
  counted := h.counted
  rests := by
    intro L b x hx hid
    obtain ⟨hr, huser, hpos, hlive, hsplit⟩ := h.rests L b x hx hid
    exact ⟨hr, huser, hpos, hlive, by rw [hgiven]; exact hsplit⟩
  waits := by
    rw [hgiven]
    exact h.waits

/-- A trade that the order gives nothing in. -/
theorem Tallies.skip {t : ℕ × UInt32 × UInt32} {taker : ℕ} (h : Tallies (t :: ts) sim ref e)
    (hne : taker ≠ ref) (hzero : (if t.1 = ref then t.2.2.toNat else 0) = 0) :
    Tallies ts (sim.countTrade taker t.1 t.2.2) ref e := by
  have hts : Tallies ts sim ref e := by
    refine h.congr_waiting ?_
    rw [givenBy_cons, hzero, Nat.zero_add]
  refine hts.congr (fun L b y hy _ => ⟨y, hy, CutBy.refl y⟩) id ?_
  rw [tradedBy_countTrade sim hne, hzero, Nat.add_zero]

/-- What is reported of an order is open. -/
theorem Tallies.fits {t : ℕ × UInt32 × UInt32} (h : Tallies (t :: ts) sim t.1 e) :
    e.filled.toNat + t.2.2.toUInt64.toNat ≤ e.order.quantity.toNat := by
  have hq : t.2.2.toUInt64.toNat = t.2.2.toNat := UInt32.toNat_toUInt64 _
  have hgiven : givenBy t.1 (t :: ts) = t.2.2.toNat + givenBy t.1 ts := by
    rw [givenBy_cons, if_pos rfl]
  have hsent := e.sent_le
  rw [hq]
  by_cases hzero : t.2.2.toNat = 0
  · rw [hzero]
    exact h.le
  · have hwaits := (h.waits (by omega)).2.2
    omega

/-- **A trade of the order** is reported. -/
theorem Tallies.fill {t : ℕ × UInt32 × UInt32} {taker : ℕ} (h : Tallies (t :: ts) sim t.1 e)
    (hne : taker ≠ t.1) (hnot : t.1 ∉ ts.map Prod.fst) (p : Int64) :
    Tallies ts (sim.countTrade taker t.1 t.2.2) t.1 (e.filledWith t.2.2.toUInt64 p) := by
  have hlast : givenBy t.1 ts = 0 := by
    by_contra hc
    exact hnot (mem_of_givenBy_ne_zero hc)
  have hgiven : givenBy t.1 (t :: ts) = t.2.2.toNat := by
    rw [givenBy_cons, if_pos rfl, hlast, Nat.add_zero]
  have hq : t.2.2.toUInt64.toNat = t.2.2.toNat := UInt32.toNat_toUInt64 _
  by_cases hlive : e.status.live = true
  · have hsent := e.sent_le
    have hfits := h.fits
    obtain ⟨hfilled, hstill⟩ := Entry.filledWith_of_live hlive hfits p
    have horder := e.filledWith_order t.2.2.toUInt64 p
    rw [hq] at hfilled hstill hfits
    constructor
    · rw [hfilled, horder]
      exact hfits
    · rw [hfilled, tradedBy_countTrade sim hne, if_pos rfl, h.counted]
    · intro L b x hx hid
      obtain ⟨hr, huser, hpos, -, hsplit⟩ := h.rests L b x hx hid
      rw [hgiven] at hsplit
      refine ⟨hr, huser, hpos, hstill.mpr (by omega), ?_⟩
      rw [hfilled, hlast, Entry.sent, horder, ← Entry.sent]
      omega
    · exact fun hc => absurd hlast hc
  · -- nothing waits of an order that is not live
    have hzero : t.2.2.toNat = 0 := by
      by_contra hc
      exact hlive (h.waits (by rw [hgiven]; exact hc)).2.1
    rw [Entry.filledWith, if_neg hlive]
    exact h.skip hne (by rw [if_pos rfl, hzero])

end Order

/-! ### Every step -/

section Steps

variable {ts : Waiting} {s s' : System}

theorem Tallied.congr (h : Tallied ts s) (hsame : Same s s') : Tallied ts s' := by
  intro hd ref e he
  rw [hsame.engine] at hd
  rw [hsame.orderManager] at he
  refine (h hd ref e he).congr ?_ ?_ ?_
  · rw [hsame.engine]
    exact fun L b y hy _ => ⟨y, hy, CutBy.refl y⟩
  · rw [ExchangeSimulator.isStrategyOrder, ExchangeSimulator.isStrategyOrder, hsame.strategyRefs]
    exact id
  · rw [hsame.tape]

/-- An event does not name an order that is known. -/
theorem not_mem_refs {ev : ItchEvent} (hc : s.Allowed (.onMarketOrder ev)) {ref : ℕ} {e : Entry}
    (he : s.1.orderManager.orders ref = some e) : ref ∉ ev.refs := by
  intro hm
  have hnone : s.1.orderManager.order ref = none := hc.2 ref hm
  rw [OrderManager.order, he] at hnone
  exact absurd hnone (Option.some_ne_none _)

/-- **An event** uses up orders of the strategy, whose fills wait. -/
theorem Tallied.enter {ev : ItchEvent} {rsp : List BinaryResponse} {e' : MatchingEngine}
    (h : Tallied [] s) (hj : Joined s) (hc : s.Allowed (.onMarketOrder ev))
    (henter : ExchangeSimulator.enterMarket s.2.engine ev = some (some (rsp, e'))) :
    Tallied (ExchangeSimulator.tradesIn rsp) (s.1, { s.2.advance with engine := e' }) := by
  obtain ⟨c, hcmd, hexec⟩ := exec_of_enterMarket henter
  have hinv := hj.owned.1.inv
  have hallowed := (ItchEvent.allowed_iff hcmd).mpr hc.1
  have heff := effect_of_exec hinv hallowed hexec
  intro hd ref e he
  have htally := h ((Exchange.keeps_of_exec hinv hallowed hexec).dropped hd) ref e he
  obtain ⟨hnew, htarget⟩ := ItchEvent.not_named hcmd (not_mem_refs hc he)
  constructor
  · exact htally.le
  · exact htally.counted
  · intro L b y hy hid
    obtain ⟨x, hx, hcut⟩ := heff.before hinv hnew htarget hy hid
    obtain ⟨hr, huser, hpos, hlive, hsplit⟩ := htally.rests L b x hx (hcut.orderId.symm.trans hid)
    have hqty := hcut.qty
    have hnone : givenBy ref [] = 0 := rfl
    rw [makerQty_eq_givenBy] at hqty
    exact ⟨hr, hcut.userId.trans huser, hcut.pos hpos, hlive, by omega⟩
  · intro hne
    obtain ⟨L, b, x, hx, hid⟩ := maker_rests heff (mem_of_givenBy_ne_zero hne)
    obtain ⟨hr, -, -, hlive, hsplit⟩ := htally.rests L b x hx hid
    have hle : givenBy ref (ExchangeSimulator.tradesIn rsp) ≤ qtyOf x := by
      rw [← makerQty_eq_givenBy]
      rcases heff.after hinv htarget hx hid with ⟨y, -, hcut⟩ | hall
      · have hqty := hcut.qty
        omega
      · exact hall.le
    have hnone : givenBy ref [] = 0 := rfl
    exact ⟨hr, hlive, by omega⟩

/-- A trade that is not reported is with an order of the market. -/
theorem Tallied.given_eq_zero {t : ℕ × UInt32 × UInt32} (h : Tallied (t :: ts) s)
    (hd : s.2.engine.shared.insertDropped = false)
    (hnot : s.2.isStrategyOrder t.1 = false ∨ s.1.orderManager.orders t.1 = none) {ref : ℕ}
    {e : Entry} (he : s.1.orderManager.orders ref = some e) :
    (if t.1 = ref then t.2.2.toNat else 0) = 0 := by
  by_contra hc
  have hid : t.1 = ref := by
    by_contra hid
    exact hc (if_neg hid)
  rcases hnot with hfalse | hnone
  · have hwaits := (h hd ref e he).waits (by rw [givenBy_cons]; omega)
    exact absurd hwaits.1 (by rw [← hid, hfalse]; decide)
  · exact absurd ((hid ▸ hnone).symm.trans he) (by simp)

theorem Tallied.other {t : ℕ × UInt32 × UInt32} {taker : ℕ} (h : Tallied (t :: ts) s)
    (htaker : s.1.orderManager.order taker = none)
    (hnot : s.2.isStrategyOrder t.1 = false ∨ s.1.orderManager.orders t.1 = none) :
    Tallied ts (s.1, s.2.countTrade taker t.1 t.2.2) := by
  intro hd ref e he
  have he : s.1.orderManager.orders ref = some e := he
  refine (h hd ref e he).skip ?_ (h.given_eq_zero hd hnot he)
  rintro rfl
  rw [OrderManager.order, he] at htaker
  exact absurd htaker (Option.some_ne_none _)

/-- A trade that is reported. -/
theorem Tallied.fill {t : ℕ × UInt32 × UInt32} {taker : ℕ} {e : Entry} (h : Tallied (t :: ts) s)
    (htaker : s.1.orderManager.order taker = none) (hnot : t.1 ∉ ts.map Prod.fst)
    (he : s.1.orderManager.orders t.1 = some e) (p : Int64) :
    Tallied ts (s.1.applyFill t.1 e.order t.2.2.toUInt64 p, s.2.countTrade taker t.1 t.2.2) := by
  intro hd ref e₁ he₁
  have hne : taker ≠ ref := by
    rintro rfl
    have hknown : (s.1.applyFill t.1 e.order t.2.2.toUInt64 p).orderManager.order taker =
      some e₁.order := congrArg (Option.map Entry.order) he₁
    have hsame := (s.1.orderManager.onFill_revises t.1 t.2.2.toUInt64 p).order
      (Entry.filledWith_order · _ _) taker
    exact absurd (hknown.symm.trans (hsame.trans htaker)) (by simp)
  rcases (s.1.orderManager.onFill_revises t.1 t.2.2.toUInt64 p).cases he₁ with
    ⟨rfl, e₀, he₀, rfl⟩ | ⟨hid, he₁⟩
  · obtain rfl := Option.some.inj (he.symm.trans he₀)
    exact (h hd _ e he).fill hne hnot p
  · exact (h hd ref e₁ he₁).skip hne (if_neg fun heq => hid heq.symm)

/-- An order that the index does not find is not waited for. -/
theorem Tallied.gone {ref : ℕ} (h : Tallied ts s) (hj : Joined s) (hnot : ref ∉ ts.map Prod.fst)
    (hnone : s.2.engine.findOrder ref = some none) :
    Tallied ts (s.1, { s.2 with strategyRefs := s.2.strategyRefs.erase ref }) := by
  intro hd ref' e he
  have htally := h hd ref' e he
  by_cases hid : ref' = ref
  · subst hid
    have hfresh : Fresh s.2.engine.resting ref' := by
      rintro L b x hx rfl
      obtain ⟨i, hi, hix⟩ := Exchange.onLevel_of_resting hj.owned.1.inv hx
      have hfound := Exchange.findOrder_of_onLevel hj.owned.1.inv hd hi
      rw [hix] at hfound
      exact absurd (hnone.symm.trans hfound) (by simp)
    refine ⟨htally.le, htally.counted, fun L b x hx hxid => absurd hxid (hfresh L b x hx), ?_⟩
    exact fun hne => absurd (mem_of_givenBy_ne_zero hne) hnot
  · refine htally.congr (fun L b y hy _ => ⟨y, hy, CutBy.refl y⟩) (fun hr => ?_) rfl
    exact decide_eq_true (Finset.mem_erase_of_ne_of_mem hid (of_decide_eq_true hr))

/-- Orders that are known give nothing in trades with orders that are not registered. -/
theorem Tallied.givenBy_eq_zero (h : Tallied ts s)
    (hd : s.2.engine.shared.insertDropped = false)
    (hmarket : ∀ t ∈ ts, s.2.isStrategyOrder t.1 = false) {ref : ℕ} {e : Entry}
    (he : s.1.orderManager.orders ref = some e) : givenBy ref ts = 0 := by
  by_contra hc
  obtain ⟨t, ht, rfl⟩ := List.mem_map.mp (mem_of_givenBy_ne_zero hc)
  exact absurd ((h hd t.1 e he).waits hc).1 (by rw [hmarket t ht]; decide)

/-- **A cancel** leaves an order that rests nowhere. -/
theorem Tallied.withdraw {id : ℕ} {e : Entry} (h : Tallied [] s) (hj : Joined s)
    (he : s.1.orderManager.orders id = some e) (hout : Withdrawn s id e s') : Tallied [] s' := by
  have hinv := hj.owned.1.inv
  have horder : s.1.orderManager.order id = some e.order := congrArg (Option.map Entry.order) he
  have hrequest := s.1.orderManager.requestCancel_revises id
  cases hout with
  | @taken e' b x hx hid hrest hdropped =>
    intro hd ref e₁ he₁
    have hd₀ := hdropped hd
    have hcancel := hrequest.comp ((s.1.orderManager.requestCancel id).2.onCancel_revises id)
    rcases hcancel.cases he₁ with ⟨rfl, e₀, he₀, rfl⟩ | ⟨href, he₁⟩
    · obtain rfl := Option.some.inj (he.symm.trans he₀)
      refine (h hd₀ ref e he).withdrawn ?_ ?_ ?_ rfl
      · rw [Entry.cancelConfirmed_order, Entry.cancelRequested_order]
      · rw [Entry.cancelConfirmed_filled, Entry.cancelRequested_filled]
      · show Fresh e'.resting ref
        rw [hrest, ← hid]
        exact hinv.refsUnique.fresh_leave hx
    · refine (h hd₀ ref e₁ he₁).congr (fun L b' y hy _ => ?_) (fun hr => ?_) rfl
      · have hy : y ∈ e'.resting L b' := hy
        rw [hrest] at hy
        exact ⟨y, Exchange.mem_leave hy, CutBy.refl y⟩
      · exact decide_eq_true (Finset.mem_erase_of_ne_of_mem href (of_decide_eq_true hr))
  | @refused e' hnot hrest hdropped =>
    intro hd ref e₁ he₁
    have hd₀ := hdropped hd
    rcases hrequest.cases he₁ with ⟨rfl, e₀, he₀, rfl⟩ | ⟨-, he₁⟩
    · obtain rfl := Option.some.inj (he.symm.trans he₀)
      refine (h hd₀ ref e he).withdrawn e.cancelRequested_order e.cancelRequested_filled ?_ rfl
      -- what rests under the symbol is of the strategy, and would have been found
      intro L b x hx hid
      have hx : x ∈ e'.resting L b := hx
      rw [hrest] at hx
      obtain rfl := hj.routed horder L b x hx hid
      exact hnot hd₀ b x hx hid ((h hd₀ ref e he).rests _ b x hx hid).user
    · refine (h hd₀ ref e₁ he₁).congr (fun L b' y hy _ => ?_) (fun hr => hr) rfl
      have hy : y ∈ e'.resting L b' := hy
      rw [hrest] at hy
      exact ⟨y, hy, CutBy.refl y⟩

/-- After an order was registered and answered at once, an entry is that of the order or one that
was there. -/
theorem entry_cases {om : OrderManager} {g : Entry → Entry} {order : Order}
    (h : OrderManager.Revises (s.1.registered order).orderManager om s.1.idOf g) {ref : ℕ}
    {e : Entry} (he : om.orders ref = some e) :
    (ref = s.1.idOf ∧ e = g (s.1.orderManager.newEntry order)) ∨
      (ref ≠ s.1.idOf ∧ s.1.orderManager.orders ref = some e) :=
  OrderManager.Revises.cases_new h he

/-- An order that is turned down before it is sent. -/
theorem Tallied.reject {order : Order} {type : OrderType} (h : Tallied [] s)
    (hfresh : Fresh s.2.engine.resting s.1.idOf) (hnamed : s.Unnamed order type) :
    Tallied [] ({ s.1.registered order with
      orderManager := (s.1.registered order).orderManager.onReject s.1.idOf }, s.2) := by
  intro hd ref e he
  rcases entry_cases ((s.1.registered order).orderManager.onReject_revises s.1.idOf) he with
    ⟨rfl, rfl⟩ | ⟨-, he⟩
  · have hzero : (s.1.orderManager.newEntry order).rejected.filled = 0 := Entry.rejected_filled _
    constructor
    · rw [hzero]
      exact Nat.zero_le _
    · rw [hzero, tradedBy_eq_zero hnamed]
      rfl
    · exact fun L b x hx hid => absurd hid (hfresh L b x hx)
    · exact fun hne => absurd rfl hne
  · exact h hd ref e he

/-- **What a submit does** to the book, the registry and the tape, and what it answers. -/
structure Answers (order : Order) (id : ℕ) (tif : OrderTif) (sim : ExchangeSimulator)
    (rsp : List BinaryResponse) (r : ExchangeSubmitResult) (sim' : ExchangeSimulator) : Prop where
  /-- The order goes to the book. -/
  effect : Effect sim.engine (ExchangeSimulator.submitCommand order id tif) rsp
    sim'.engine.resting
  /-- An index that is complete was complete. -/
  dropped : sim'.engine.shared.insertDropped = false → sim.engine.shared.insertDropped = false
  /-- It is registered if it hangs in the book. -/
  registered : ∀ ref, sim'.isStrategyOrder ref = true ↔
    sim.isStrategyOrder ref = true ∨ ref = id ∧ ∃ r, .ok r ∈ rsp
  /-- Its trades go to the tape, -/
  tape : sim'.tape = sim.tape ++ (ExchangeSimulator.tradesIn rsp).map fun t => ⟨id, t.1, t.2.2⟩
  /-- and they are its fills. -/
  fills : (r.fills.map fun f => f.filledQty.toNat).sum = takerQty rsp
  /-- It is accepted if it traded, was filled or hangs in the book. -/
  accepted : r.accepted = true ↔ ∃ f ∈ rsp, ExchangeSimulator.accepts f = true

theorem answers_of_submit {sim sim' : ExchangeSimulator} (hinv : Exchange.Inv sim.engine)
    {order : Order} {id : ℕ} {tif : OrderTif} {r : ExchangeSubmitResult} {marks : List Mark}
    (hfresh : Fresh sim.engine.resting id)
    (hcall : sim.submit order id tif = some (r, marks, sim')) :
    ∃ rsp, Answers order id tif sim rsp r sim' := by
  obtain ⟨rsp, e', out, hexec, hfold, rfl⟩ := ExchangeSimulator.submit_spec hcall
  obtain ⟨hengine, -, hrefs⟩ := ExchangeSimulator.takeAnswers_frame hfold
  obtain ⟨htape, hfills, haccepted⟩ := ExchangeSimulator.takeAnswers_trades hfold
  have hengine : sim'.engine = e' := hengine
  have hallowed : (ExchangeSimulator.submitCommand order id tif).Allowed sim.engine.resting :=
    hfresh
  refine ⟨rsp, ?_, ?_, fun ref => ?_, htape, ?_, ?_⟩
  · rw [hengine]
    exact effect_of_exec hinv hallowed hexec
  · rw [hengine]
    exact (Exchange.keeps_of_exec hinv hallowed hexec).dropped
  · rw [ExchangeSimulator.isStrategyOrder, ExchangeSimulator.isStrategyOrder, decide_eq_true_iff,
      decide_eq_true_iff]
    exact hrefs ref
  · show (out.fills.map _).sum = _
    rw [hfills, List.nil_append, List.map_map, takerQty_eq_sum]
    refine congrArg List.sum (List.map_congr_left fun t _ => ?_)
    exact UInt32.toNat_toUInt64 _
  · exact haccepted.trans (or_iff_right Bool.false_ne_true)

/-- What is not accepted did not trade. -/
theorem Answers.takerQty_eq_zero {order : Order} {id : ℕ} {tif : OrderTif}
    {sim sim' : ExchangeSimulator} {rsp : List BinaryResponse} {r : ExchangeSubmitResult}
    (h : Answers order id tif sim rsp r sim') (hr : ¬ r.accepted = true) : takerQty rsp = 0 := by
  rw [h.accepted] at hr
  refine List.sum_eq_zero fun q hq => ?_
  obtain ⟨f, hf, rfl⟩ := List.mem_map.mp hq
  cases f with
  | trade => exact absurd ⟨_, hf, rfl⟩ hr
  | _ => rfl

/-- **The entry of an order that was answered**: it is filled what it traded, and live if it was
accepted and something is left. -/
theorem Answers.entry {order : Order} {id : ℕ} {tif : OrderTif} {sim sim' : ExchangeSimulator}
    {rsp : List BinaryResponse} {r : ExchangeSubmitResult}
    (h : Answers order id tif sim rsp r sim') (hquantity : order.quantity ≠ 0)
    (om : OrderManager) :
    ((om.newEntry order).answered r).order = { order with orderId := om.nextId } ∧
      ((om.newEntry order).answered r).filled.toNat = takerQty rsp ∧
      (((om.newEntry order).answered r).status.live = true ↔
        r.accepted = true ∧ takerQty rsp < order.quantity.toNat) := by
  have hle : takerQty rsp ≤ order.quantity.toNat := by
    have htaker : takerQty rsp ≤ order.quantity.toUInt32.toNat := h.effect.takerQty_le
    rw [UInt64.toNat_toUInt32] at htaker
    exact htaker.trans (Nat.mod_le _ _)
  have hpos : 0 < order.quantity.toNat :=
    Nat.pos_of_ne_zero fun hzero => hquantity (UInt64.toNat_inj.mp hzero)
  rw [Entry.answered]
  by_cases hr : r.accepted = true
  · rw [if_pos hr]
    have hzero : ((om.newEntry order).accepted 0).filled.toNat = 0 := rfl
    have hfits : ((om.newEntry order).accepted 0).filled.toNat +
        (r.fills.map fun f => f.filledQty.toNat).sum ≤ order.quantity.toNat := by
      rw [h.fills, hzero, Nat.zero_add]
      exact hle
    have hlive : ((om.newEntry order).accepted 0).status.live = true ↔
        ((om.newEntry order).accepted 0).filled.toNat < order.quantity.toNat :=
      iff_of_true rfl hpos
    obtain ⟨horder, hfilled, hlive⟩ := Entry.filledWith_all hlive hfits
    rw [h.fills, hzero, Nat.zero_add] at hfilled hlive
    exact ⟨horder, hfilled, hlive.trans (and_iff_right hr).symm⟩
  · rw [if_neg hr, h.takerQty_eq_zero hr]
    exact ⟨rfl, rfl, iff_of_false Bool.false_ne_true fun hc => hr hc.1⟩

/-- **An order that is sent** is filled what it traded. -/
theorem Tallied.submit {order : Order} {type : OrderType} {r : ExchangeSubmitResult}
    {marks : List Mark} {sim' : ExchangeSimulator} (h : Tallied [] s) (hj : Joined s)
    (hid : order.orderId = s.1.idOf) (hquantity : order.quantity ≠ 0)
    (hfresh : Fresh s.2.engine.resting s.1.idOf) (hnamed : s.Unnamed order type)
    (hcall : s.2.submit order s.1.idOf (ExecutionEngine.tifOf type) = some (r, marks, sim')) :
    Tallied [] (((s.1.registered order).takeMarks marks).takeResult order r, sim') := by
  have hinv := hj.owned.1.inv
  obtain ⟨rsp, hanswers⟩ := answers_of_submit hinv hfresh hcall
  have heff := hanswers.effect
  intro hd ref e he
  have hd₀ := hanswers.dropped hd
  have hrevises := ((s.1.registered order).takeMarks marks).takeResult_revises order r
  rw [hid] at hrevises
  rcases entry_cases hrevises he with ⟨rfl, rfl⟩ | ⟨href, he⟩
  · have htraded : tradedBy s.1.idOf sim'.tape = takerQty rsp := by
      rw [hanswers.tape, tradedBy_append, tradedBy_eq_zero hnamed, tradedBy_answers, Nat.zero_add]
    obtain ⟨horder, hfilled, hlive⟩ := hanswers.entry hquantity s.1.orderManager
    have hsent : ((s.1.orderManager.newEntry order).answered r).sent =
        order.quantity.toUInt32.toNat := by
      rw [Entry.sent, horder]
    have hle := ((s.1.orderManager.newEntry order).answered r).sent_le
    have htaker : takerQty rsp ≤ order.quantity.toUInt32.toNat := heff.takerQty_le
    rw [horder, hsent] at hle
    constructor
    · rw [hfilled, horder]
      exact htaker.trans hle
    · rw [hfilled]
      exact htraded.symm
    · intro L b y hy hyid
      obtain ⟨hok, -, huser, hpos, hsum⟩ := heff.entered hfresh hy hyid
      have hsum : qtyOf y + takerQty rsp = order.quantity.toUInt32.toNat := hsum
      have hlt : takerQty rsp < order.quantity.toNat :=
        Nat.lt_of_lt_of_le (by omega) hle
      have haccepted := hanswers.accepted.mpr ⟨_, hok, rfl⟩
      refine ⟨(hanswers.registered _).mpr (Or.inr ⟨rfl, _, hok⟩), huser, hpos,
        hlive.mpr ⟨haccepted, hlt⟩, ?_⟩
      rw [hfilled, hsent]
      show takerQty rsp + 0 + qtyOf y = _
      omega
    · exact fun hne => absurd rfl hne
  · have htally := h hd₀ ref e he
    have hne : s.1.idOf ≠ ref := fun hc => href hc.symm
    have hown : ∀ L b, ∀ x ∈ s.2.engine.resting L b, x.orderId = ref → makerQty ref rsp = 0 := by
      rintro L b x hx rfl
      exact heff.own_untouched hinv (by decide) hx (htally.rests L b x hx rfl).user
    have hzero : givenBy ref (ExchangeSimulator.tradesIn rsp) = 0 := by
      by_contra hc
      obtain ⟨L, b, x, hx, hxid⟩ := maker_rests heff (mem_of_givenBy_ne_zero hc)
      rw [← makerQty_eq_givenBy] at hc
      exact hc (hown L b x hx hxid)
    refine htally.congr (fun L b y hy hyid => ?_) (fun hr => ?_) ?_
    · obtain ⟨x, hx, hcut⟩ := heff.before hinv (fun hc => hne (Option.some.inj hc))
        (Option.some_ne_none _).symm hy hyid
      rw [makerQty_eq_givenBy, hzero] at hcut
      exact ⟨x, hx, hcut⟩
    · exact (hanswers.registered ref).mpr (Or.inl hr)
    · rw [hanswers.tape, tradedBy_append, tradedBy_answers_of_ne hne, hzero, Nat.add_zero]

/-- **The tally is kept** by every step. -/
theorem steady_tallied : Steady Unnamed Tallied where
  congr := Tallied.congr
  enter := Tallied.enter
  other := fun h _ htaker hnot => h.other htaker hnot
  fill := fun h _ htaker hnot he => h.fill htaker hnot he _
  gone := Tallied.gone
  bare := by
    intro ts s h hj hmarket
    constructor
    · intro hd ref e he
      exact (h hd ref e he).congr_waiting (h.givenBy_eq_zero hd hmarket he).symm
    · intro s' hsince h' hd ref e he
      obtain ⟨e₀, he₀, -⟩ := Option.map_eq_some_iff.mp
        ((hsince.orders ref).symm.trans (congrArg (Option.map Entry.order) he))
      exact (h' hd ref e he).congr_waiting (h.givenBy_eq_zero (hsince.dropped hd) hmarket he₀)
  withdraw := fun h hj he _ hout => h.withdraw hj he hout
  reject := fun h _ _ hfresh hok => h.reject hfresh hok
  submit := fun h hj hid hquantity hfresh hok _ hcall => h.submit hj hid hquantity hfresh hok hcall

theorem tallied_new (visits : VisitOrder) (base : ℕ) (rm : RiskManager) (baseQty : UInt64)
    (sim : ExchangeSimulator) : Tallied []
      ({ orderManager := { visits := visits, nextId := base }
         riskManager := rm, baseQty := baseQty }, sim) :=
  fun _ _ _ he => absurd he.symm (Option.some_ne_none _)

instance (s : System) (order : Order) (type : OrderType) : Decidable (s.Unnamed order type) :=
  inferInstanceAs (Decidable (∀ t ∈ s.2.tape, t.taker ≠ s.1.idOf ∧ t.maker ≠ s.1.idOf))

end Steps

/-! ### Runs -/

/-- **What an order was filled is what it traded**, after every call of a run of undisturbed events,
as long as the index is complete. -/
theorem filled_eq_traded {s : System} (h : Runs (Regular Unnamed) s)
    (hd : s.2.engine.shared.insertDropped = false) {ref : ℕ} {e : Entry}
    (he : s.1.orderManager.orders ref = some e) : e.filled.toNat = tradedBy ref s.2.tape :=
  (steady_tallied.run (fun visits base rm baseQty _ _ _ _ =>
    tallied_new visits base rm baseQty _) h hd ref e he).counted

/-- Two hundred shares are bought, and offered again at a loss in two orders. -/
def lossCalls : List Call :=
  [.onMarketOrder (.add 0 1 .sell 100 200),
    .submitSignal { side := .buy, price := 100, strength := 20000 } 1 .limit,
    .submitSignal { side := .sell, price := 90, strength := 10000 } 1 .limit,
    .submitSignal { side := .sell, price := 91, strength := 10000 } 1 .limit]

/-- An event that takes the first offer only is not disturbed. -/
theorem filled_eq_traded_loss : ∃ s e, playIf (regularTest Unnamed)
      (lossCalls ++ [.onMarketOrder (.add 0 2 .buy 90 100)]) (new 1000 {} 8) = some s ∧
    s.1.orderManager.orders 1001 = some e ∧ e.filled = 100 ∧
    e.filled.toNat = tradedBy 1001 s.2.tape := by
  have hread : (playIf (regularTest Unnamed)
      (lossCalls ++ [.onMarketOrder (.add 0 2 .buy 90 100)]) (new 1000 {} 8)).map (fun s =>
        (s.2.engine.shared.insertDropped, (s.1.orderManager.orders 1001).map Entry.filled)) =
      some (false, some 100) := by decide +kernel
  obtain ⟨s, hrun, heq⟩ := Option.map_eq_some_iff.mp hread
  obtain ⟨hd, hentry⟩ := Prod.mk.inj heq
  obtain ⟨e, he, hfilled⟩ := Option.map_eq_some_iff.mp hentry
  have hstart : Runs (Regular Unnamed) (new 1000 {} 8) :=
    .start .inserted 1000 {} 100 8 none _ ⟨rfl, rfl⟩ (by decide) (by decide) (by simp)
  exact ⟨s, e, hrun, he, hfilled, filled_eq_traded (hstart.playIf hrun) hd he⟩

/-- **A fill is lost** when the report of another one, of the same event, starts a flatten. -/
theorem fill_lost : ∃ s e, play (lossCalls ++ [.onMarketOrder (.add 0 2 .buy 95 200)])
      (new 1000 {} 8) = some s ∧ Reached s ∧ s.2.engine.shared.insertDropped = false ∧
    s.1.orderManager.orders 1002 = some e ∧ e.filled = 0 ∧ tradedBy 1002 s.2.tape = 100 := by
  have hread : (play (lossCalls ++ [.onMarketOrder (.add 0 2 .buy 95 200)])
      (new 1000 {} 8)).map (fun s => (s.2.engine.shared.insertDropped,
        (s.1.orderManager.orders 1002).map Entry.filled, tradedBy 1002 s.2.tape)) =
      some (false, some 0, 100) := by decide +kernel
  obtain ⟨s, hrun, heq⟩ := Option.map_eq_some_iff.mp hread
  obtain ⟨hd, heq⟩ := Prod.mk.inj heq
  obtain ⟨hentry, htraded⟩ := Prod.mk.inj heq
  obtain ⟨e, he, hfilled⟩ := Option.map_eq_some_iff.mp hentry
  exact ⟨s, e, hrun, (reached_new 1000 ⟨rfl, rfl⟩ (by decide) (by decide)).play hrun, hd, he,
    hfilled, htraded⟩

end System

end NebulaX
