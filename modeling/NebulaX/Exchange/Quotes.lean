import NebulaX.Exchange.Ownership
import NebulaX.Exchange.Registry
import NebulaX.Exchange.TopOfBook
import NebulaX.Oms.OrderManager

/-!
# Quotes

`book_quote` of `src/exchange/exchange_simulator.cpp`: the best bid and the best ask of a symbol,
if there are both. The execution engine takes the middle of the two for the price a fill is compared
with.

A submit trades with orders that rest on the other side, within its limit. So what its fills cost
is bounded by the quote on one side, and by the limit on the other.

## Main results

* `bookQuote_spec` — a quote is the best price of either side
* `lt_of_isBest` — where every order has a user of its own, the bid is below the ask
* `fill_maker` — a fill has the price of an order that rested within the limit
-/

namespace NebulaX

open Exchange (MatchingEngine BinaryResponse OrderData Resting Effect Inv Fresh IsBest Owned
  RefsUnique Uncrossed effect_of_exec mem_of_mem_tradesOf)
open Exchange.MatchingEngine (beyond)

/-- `BookQuote`. -/
structure BookQuote where
  /-- `symbol_id`. -/
  symbolId : ℕ := 0
  /-- `bid`. -/
  bid : Int64 := 0
  /-- `bid_vol`. -/
  bidVol : UInt64 := 0
  /-- `ask`. -/
  ask : Int64 := 0
  /-- `ask_vol`. -/
  askVol : UInt64 := 0
deriving DecidableEq, Repr

/-- `(int64_t)price`. -/
def tick (price : UInt32) : Int64 := price.toUInt64.toInt64

theorem toInt_tick (price : UInt32) : (tick price).toInt = price.toNat := by
  have hlt := price.toNat_lt
  have h := toSigned_eq (q := price.toUInt64) (by rw [UInt32.toNat_toUInt64]; omega)
  rwa [UInt32.toNat_toUInt64] at h

/-- `price ? (int64_t)price : 0`. -/
def tickOrZero (price : UInt32) : Int64 := if price ≠ 0 then tick price else 0

/-- It is the price itself. -/
theorem tickOrZero_eq (price : UInt32) : tickOrZero price = tick price := by
  rw [tickOrZero]
  split
  · rfl
  · next hzero =>
    rw [not_not.mp hzero]
    rfl

/-- `book_quote`; `none` for `false`, when nobody reads `out`. -/
def ExchangeSimulator.bookQuote (sim : ExchangeSimulator) (symbolId : ℕ) : Option BookQuote :=
  (sim.engine.bookFor symbolId).bind fun b =>
    let t := b.getTopOfBook
    let out : BookQuote :=
      { symbolId := symbolId
        bid := tickOrZero t.bidPrice
        bidVol := t.bidVolume.toUInt64
        ask := tickOrZero t.askPrice
        askVol := t.askVolume.toUInt64 }
    if 0 < out.bid ∧ 0 < out.ask then some out else none

/-! ### The quote and the book -/

namespace Exchange

variable {R : Resting} {L : ℕ} {bid ask : UInt32}

/-- **The bid is below the ask** in an uncrossed book where every order is its own user. -/
theorem lt_of_isBest (hun : Uncrossed R) (hown : Owned (fun ref user => user = ref) R)
    (hrefs : RefsUnique R) (hbid : IsBest true (R L true) bid)
    (hask : IsBest false (R L false) ask) : bid < ask := by
  obtain ⟨x, hx, rfl⟩ := hbid.rests
  obtain ⟨y, hy, rfl⟩ := hask.rests
  obtain ⟨hxq, hxu⟩ := hown L true x hx
  obtain ⟨hyq, hyu⟩ := hown L false y hy
  by_contra hcross
  have huser : x.userId = y.userId :=
    hun L true x hx y hy hxq hyq (decide_eq_false hcross)
  -- two orders of one user are one order, and it is on one side
  have hid : x.orderId = y.orderId := hxu.symm.trans (huser.trans hyu)
  obtain ⟨-, hside, -⟩ := hrefs.unique hx hy hid
  exact absurd hside (by decide)

/-- **A trade of an order that comes in** is with one that rests on the other side, within its
limit. -/
theorem Effect.maker {e : MatchingEngine} {ref : ℕ} {side : Side} {price quantity : UInt32}
    {user : ℕ} {tif : OrderTif} {rsp : List BinaryResponse} {R' : Resting}
    (heff : Effect e (.add L ref side price quantity user tif) rsp R')
    {t : ℕ × UInt32 × UInt32} (ht : t ∈ ExchangeSimulator.tradesIn rsp) :
    ∃ x ∈ e.resting L (!side.isBuy), x.orderId = t.1 ∧ x.price = t.2.1 ∧
      beyond side.isBuy (MatchingEngine.effectivePrice side tif price) x.price = false := by
  have hframes : ∀ {o : OrderData} {tail : List BinaryResponse}, o.side = side →
      (∀ f ∈ tail, f.isTrade = false) →
      o.price = MatchingEngine.effectivePrice side tif price →
      t ∈ ExchangeSimulator.tradesIn (tradeFrames e.resting L o ++ tail) →
      ∃ x ∈ e.resting L (!side.isBuy), x.orderId = t.1 ∧ x.price = t.2.1 ∧
        beyond side.isBuy (MatchingEngine.effectivePrice side tif price) x.price = false := by
    intro o tail hside htail hprice hmem
    obtain ⟨f, hf, hft⟩ := List.mem_filterMap.mp hmem
    rcases List.mem_append.mp hf with hf | hf
    · obtain ⟨p, hp, rfl⟩ := List.mem_map.mp hf
      obtain ⟨hx, helig⟩ := mem_of_mem_tradesOf hp
      obtain rfl := Option.some.inj hft
      rw [hside] at hx helig
      rw [eligible, hprice, Bool.and_eq_true, Bool.not_eq_true'] at helig
      exact ⟨p.1, hx, rfl, rfl, helig.2⟩
    · have hno := htail f hf
      cases f <;> simp_all [BinaryResponse.isTrade]
  cases heff with
  | rejected => exact absurd ht List.not_mem_nil
  | killed => exact absurd ht List.not_mem_nil
  | added _ ha =>
    cases ha with
    | filled => exact hframes rfl (by simp [BinaryResponse.isTrade]) rfl ht
    | rests => exact hframes rfl (by simp [BinaryResponse.isTrade]) rfl ht
    | dropped _ _ tail htail =>
      refine hframes rfl (fun f hf => ?_) rfl ht
      rcases htail with rfl | ⟨code, rfl⟩
      · exact absurd hf List.not_mem_nil
      · rw [List.mem_singleton.mp hf]
        rfl

end Exchange

namespace ExchangeSimulator

variable {sim sim' : ExchangeSimulator} {L : ℕ} {q : BookQuote}

/-- **A quote** is the best price of either side. -/
theorem bookQuote_spec (hinv : Inv sim.engine) (h : sim.bookQuote L = some q) :
    ∃ bid ask : UInt32, IsBest true (sim.engine.resting L true) bid ∧
      IsBest false (sim.engine.resting L false) ask ∧ q.bid = tick bid ∧ q.ask = tick ask ∧
      0 < q.bid ∧ 0 < q.ask := by
  obtain ⟨G, fl, hrep⟩ := hinv
  obtain ⟨b, hb, h⟩ := Option.bind_eq_some_iff.mp h
  have hb : b = sim.engine.books L := by
    rw [MatchingEngine.bookFor] at hb
    split at hb
    · exact (Option.some.inj hb).symm
    · exact absurd hb.symm (Option.some_ne_none _)
  subst hb
  dsimp only at h
  split at h
  · next hpos =>
    obtain rfl := Option.some.inj h
    have hside : ∀ (buy : Bool), 0 < tickOrZero ((sim.engine.books L).top buy).1 →
        IsBest buy (sim.engine.resting L buy) ((sim.engine.books L).top buy).1 := by
      intro buy hgt
      rcases hrep.top_spec L buy with ⟨-, htop⟩ | ⟨hbest, -⟩
      · rw [htop] at hgt
        exact absurd hgt (by decide)
      · exact hbest
    exact ⟨_, _, hside true hpos.1, hside false hpos.2, tickOrZero_eq _, tickOrZero_eq _, hpos.1,
      hpos.2⟩
  · exact absurd h.symm (Option.some_ne_none _)

/-- The side of an order, as the engine is told. -/
def takerSide (order : Order) : Exchange.Side := if order.side = .buy then .buy else .sell

/-- **A fill of a submit** has the price of an order that rested on the other side, within the
limit. -/
theorem fill_maker {order : Order} {orderId : ℕ} {tif : Exchange.OrderTif}
    {r : ExchangeSubmitResult} {marks : List Mark} (hinv : Inv sim.engine)
    (hfresh : Fresh sim.engine.resting orderId)
    (hcall : sim.submit order orderId tif = some (r, marks, sim')) {f : Fill} (hf : f ∈ r.fills) :
    ∃ x ∈ sim.engine.resting order.symbolId (!(takerSide order).isBuy),
      f.fillPrice = tick x.price ∧ beyond (takerSide order).isBuy (MatchingEngine.effectivePrice
        (takerSide order) tif order.price.toUInt64.toUInt32) x.price = false := by
  obtain ⟨rsp, e', out, hexec, hfold, rfl⟩ := submit_spec hcall
  have heff := effect_of_exec hinv (c := submitCommand order orderId tif) hfresh hexec
  obtain ⟨-, hfills, -⟩ := takeAnswers_trades hfold
  have hf : f ∈ out.fills := hf
  rw [show out.fills = _ from hfills, List.nil_append] at hf
  obtain ⟨t, ht, rfl⟩ := List.mem_map.mp hf
  obtain ⟨x, hx, -, hprice, hwithin⟩ := heff.maker ht
  exact ⟨x, hx, congrArg tick hprice.symm, hwithin⟩

end ExchangeSimulator

end NebulaX
