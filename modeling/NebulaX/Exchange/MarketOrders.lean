import NebulaX.Exchange.FillOrKill

/-!
# Market orders

An immediate-or-cancel order of price 0 is matched at the extreme price of its side. At any other
price it is matched up to this price, and what it cannot trade there is dropped. So the price of
such an order matters, unless the offers it reaches are enough.

## Main results

* `processAdd_ioc` — what such an order trades, and what rests after it
* `sameExecution_iff`, `priceIgnored_iff` — when two prices make no difference
-/

namespace NebulaX.Exchange

open MatchingEngine

/-! ### The price is ignored -/

/-- **Two calls execute alike**: the same `RSP_TRADE` frames, and the same orders left in the
books. -/
def SameExecution (e : MatchingEngine) (c c' : Command) : Prop :=
  ∃ rsp rsp' e₁ e₁', e.exec c = some (rsp, e₁) ∧ e.exec c' = some (rsp', e₁') ∧
    rsp.filter BinaryResponse.isTrade = rsp'.filter BinaryResponse.isTrade ∧
    e₁.resting = e₁'.resting

/-- What the other users have on the opposite side, at any price. -/
def othersQty (e : MatchingEngine) (L : ℕ) (side : Side) (user : ℕ) : ℕ :=
  (((e.resting L !side.isBuy).filter (otherUser user)).map qtyOf).sum

/-- The opposite orders of other users that an immediate-or-cancel order of a price reaches. -/
def within (e : MatchingEngine) (L : ℕ) (side : Side) (price : UInt32) (user : ℕ) :
    List OrderData :=
  (e.resting L !side.isBuy).filter fun x =>
    otherUser user x && !beyond side.isBuy (effectivePrice side .ioc price) x.price

/-- What they have. -/
def withinQty (e : MatchingEngine) (L : ℕ) (side : Side) (price : UInt32) (user : ℕ) : ℕ :=
  ((within e L side price user).map qtyOf).sum

/-- **The price of an immediate-or-cancel order is ignored**, at two prices: the calls execute
alike, and an order that is let in trades against everything that others offer. -/
def PriceIgnored (e : MatchingEngine) (L ref : ℕ) (side : Side) (price price' quantity : UInt32)
    (user : ℕ) : Prop :=
  SameExecution e (.add L ref side price quantity user .ioc)
      (.add L ref side price' quantity user .ioc) ∧
    ∀ rsp e', e.processAdd L ref side price quantity user .ioc = some (rsp, e') →
      addError L ref side price quantity user .ioc = none →
      (rsp.map BinaryResponse.tradedQty).sum = min quantity.toNat (othersQty e L side user)

/-- **When it makes no difference**: the offers within either price are enough, or the two reach
the same orders and others offer nothing else. -/
def Immaterial (e : MatchingEngine) (L : ℕ) (side : Side) (price price' quantity : UInt32)
    (user : ℕ) : Prop :=
  (quantity.toNat ≤ withinQty e L side price user ∧
      quantity.toNat ≤ withinQty e L side price' user) ∨
    (within e L side price user = within e L side price' user ∧
      withinQty e L side price user = othersQty e L side user)

/-! ### What such an order does -/

section Ioc

variable {e : MatchingEngine} {L ref user : ℕ} {side : Side} {price price' quantity : UInt32}

/-- The order that `processAdd` matches. -/
def MatchingEngine.iocOrder (e : MatchingEngine) (ref : ℕ) (side : Side) (price quantity : UInt32)
    (user : ℕ) : OrderData :=
  e.newOrder ref side (effectivePrice side .ioc price) quantity user

/-- Validation does not look at the price. -/
theorem addError_ioc (L ref : ℕ) (side : Side) (price price' quantity : UInt32) (user : ℕ) :
    addError L ref side price quantity user .ioc =
      addError L ref side price' quantity user .ioc := by
  have hprice : ∀ p : UInt32, ¬(isMarket .ioc p = false ∧ p = 0) := by
    intro p hc
    rw [isMarket, decide_eq_false_iff_not] at hc
    exact hc.1 ⟨Or.inl rfl, hc.2⟩
  rw [addError, addError]
  simp only [hprice, false_or]

/-- Its trades, and an answer that is none; its rest is dropped. -/
theorem addOutcome_ioc (R : Resting) (L : ℕ) (o : OrderData) (room : Bool) :
    ∃ tail, (∀ r ∈ tail, r.isTrade = false) ∧
      addOutcome R L o .ioc room = (tradeFrames R L o ++ tail, afterMatch R L o) := by
  unfold addOutcome
  dsimp only
  split
  · exact ⟨[.filled o.orderId], by simp [BinaryResponse.isTrade], rfl⟩
  · split
    · exact ⟨[.error .mktNoLiquidity], by simp [BinaryResponse.isTrade], rfl⟩
    · exact ⟨[], by simp, by rw [List.append_nil]⟩

/-- A frame that is no trade trades nothing. -/
theorem tradedQty_of_not_isTrade {r : BinaryResponse} (h : r.isTrade = false) :
    r.tradedQty = 0 := by
  cases r with
  | trade => exact absurd h (by simp [BinaryResponse.isTrade])
  | ok | filled | cancelled | error => rfl

/-- **An immediate-or-cancel order** that is let in: its trades are those of the reference
allocation over the orders within its price, and its rest is dropped. -/
theorem processAdd_ioc (h : Inv e)
    (hvalid : addError L ref side price quantity user .ioc = none) :
    ∃ rsp e', e.processAdd L ref side price quantity user .ioc = some (rsp, e') ∧
      rsp.filter BinaryResponse.isTrade =
        tradeFrames e.resting L (e.iocOrder ref side price quantity user) ∧
      (rsp.map BinaryResponse.tradedQty).sum =
        min quantity.toNat (withinQty e L side price user) ∧
      e'.resting = afterMatch e.resting L (e.iocOrder ref side price quantity user) := by
  obtain ⟨rsp, e', hcall, -, hres, -⟩ :=
    processAdd_spec h hvalid (by decide) fun hc => absurd hc (by decide)
  obtain ⟨tail, htail, hout⟩ := addOutcome_ioc e.resting L
    (e.iocOrder ref side price quantity user)
    (e.roomAfter L (e.iocOrder ref side price quantity user))
  obtain ⟨rfl, hrest⟩ := Prod.mk.inj (hres.trans hout)
  refine ⟨_, e', hcall, ?_, ?_, hrest⟩
  · rw [List.filter_append, List.filter_eq_self.mpr fun r hr => isTrade_tradeFrames _ _ _ hr,
      List.filter_eq_nil_iff.mpr fun r hr => by simp [htail r hr], List.append_nil]
  · have hnone : (tail.map BinaryResponse.tradedQty).sum = 0 := by
      refine List.sum_eq_zero fun q hq => ?_
      obtain ⟨r, hr, rfl⟩ := List.mem_map.mp hq
      exact tradedQty_of_not_isTrade (htail r hr)
    rw [List.map_append, List.sum_append, tradedQty_tradeFrames, hnone]
    rfl

/-! ### Two prices -/

/-- The orders that a price reaches come first among those that a weaker test lets through. -/
theorem within_prefix_filter (h : Inv e) {p : OrderData → Bool}
    (hweaker : ∀ x, (otherUser user x &&
      !beyond side.isBuy (effectivePrice side .ioc price) x.price) = true → p x = true)
    (hother : ∀ x, p x = true → otherUser user x = true) :
    within e L side price user <+: (e.resting L !side.isBuy).filter p := by
  obtain ⟨G, fl, h⟩ := h
  refine Allocation.filter_prefix_filter (h.resting_sorted L !side.isBuy) hweaker ?_
  intro x y hxy hx hy
  rw [Bool.and_eq_true, Bool.not_eq_true'] at hy ⊢
  refine ⟨hother x hx, ?_⟩
  rcases hxy with hbetter | ⟨hprice, -⟩
  · by_contra hbeyond
    have hafter : beyond side.isBuy (effectivePrice side .ioc price) y.price = true := by
      simpa using Rep.beyond_of_better hbetter (by simpa using hbeyond)
    rw [hafter] at hy
    exact absurd hy.2 (by decide)
  · rw [hprice]
    exact hy.2

/-- Of two prices, one reaches all that the other reaches, and possibly more behind it. -/
theorem within_prefix (h : Inv e) (L : ℕ) (side : Side) (price price' : UInt32) (user : ℕ) :
    within e L side price user <+: within e L side price' user ∨
      within e L side price' user <+: within e L side price user := by
  have hmono : ∀ {p p' : UInt32}, (∀ q, beyond side.isBuy (effectivePrice side .ioc p') q = true →
      beyond side.isBuy (effectivePrice side .ioc p) q = true) →
      within e L side p user <+: within e L side p' user := by
    intro p p' hle
    refine within_prefix_filter h (fun x hx => ?_) fun x hx => ((Bool.and_eq_true _ _).mp hx).1
    rw [Bool.and_eq_true, Bool.not_eq_true'] at hx ⊢
    refine ⟨hx.1, Bool.eq_false_iff.mpr fun hbeyond => ?_⟩
    exact absurd (hle x.price hbeyond) (by rw [hx.2]; decide)
  have htotal : ∀ l l' : UInt32,
      (∀ q, beyond side.isBuy l' q = true → beyond side.isBuy l q = true) ∨
        ∀ q, beyond side.isBuy l q = true → beyond side.isBuy l' q = true := by
    intro l l'
    cases hbuy : side.isBuy with
    | true =>
      simp only [beyond, if_true, decide_eq_true_eq]
      rcases UInt32.le_total l l' with hle | hle
      · exact Or.inl fun q hq => UInt32.lt_of_le_of_lt hle hq
      · exact Or.inr fun q hq => UInt32.lt_of_le_of_lt hle hq
    | false =>
      simp only [beyond, Bool.false_eq_true, if_false, decide_eq_true_eq]
      rcases UInt32.le_total l l' with hle | hle
      · exact Or.inr fun q hq => UInt32.lt_of_lt_of_le hq hle
      · exact Or.inl fun q hq => UInt32.lt_of_lt_of_le hq hle
  exact (htotal _ _).imp hmono hmono

/-- A price reaches no more than everything. -/
theorem withinQty_le (h : Inv e) : withinQty e L side price user ≤ othersQty e L side user := by
  obtain ⟨more, hmore⟩ : within e L side price user <+:
      (e.resting L !side.isBuy).filter (otherUser user) :=
    within_prefix_filter h (fun x hx => ((Bool.and_eq_true _ _).mp hx).1) fun x hx => hx
  rw [withinQty, othersQty, ← hmore, List.map_append, List.sum_append]
  exact Nat.le_add_right _ _

theorem tradesOf_iocOrder (e : MatchingEngine) (L ref : ℕ) (side : Side) (price quantity : UInt32)
    (user : ℕ) : tradesOf e.resting L (e.iocOrder ref side price quantity user) =
      Allocation.allocate qtyOf quantity.toNat (within e L side price user) := rfl

/-- **The trades at two prices** are the same exactly when both reach enough, or the same. -/
theorem tradeFrames_ioc_eq_iff (h : Inv e) (L ref : ℕ) (side : Side)
    (price price' quantity : UInt32) (user : ℕ) :
    tradeFrames e.resting L (e.iocOrder ref side price quantity user) =
        tradeFrames e.resting L (e.iocOrder ref side price' quantity user) ↔
      (quantity.toNat ≤ withinQty e L side price user ∧
          quantity.toNat ≤ withinQty e L side price' user) ∨
        within e L side price user = within e L side price' user := by
  have key : ∀ {p p' : UInt32}, within e L side p user <+: within e L side p' user →
      (tradeFrames e.resting L (e.iocOrder ref side p quantity user) =
          tradeFrames e.resting L (e.iocOrder ref side p' quantity user) ↔
        (quantity.toNat ≤ withinQty e L side p user ∧
            quantity.toNat ≤ withinQty e L side p' user) ∨
          within e L side p user = within e L side p' user) := by
    intro p p' hprefix
    have hmore : withinQty e L side p user ≤ withinQty e L side p' user := by
      obtain ⟨more, hmore⟩ := hprefix
      rw [withinQty, withinQty, ← hmore, List.map_append, List.sum_append]
      exact Nat.le_add_right _ _
    have hiff : (Allocation.allocate qtyOf quantity.toNat (within e L side p user)).length =
        (Allocation.allocate qtyOf quantity.toNat (within e L side p' user)).length ↔
          quantity.toNat ≤ withinQty e L side p user ∨
            within e L side p user = within e L side p' user :=
      Allocation.length_allocate_eq_iff hprefix
    rw [tradeFrames, tradeFrames, tradesOf_iocOrder, tradesOf_iocOrder]
    constructor
    · intro hframes
      have hlen := congrArg List.length hframes
      rw [List.length_map, List.length_map] at hlen
      exact (hiff.mp hlen).imp_left fun hle => ⟨hle, Nat.le_trans hle hmore⟩
    · intro hcond
      rw [Allocation.allocate_congr_of_prefix hprefix (hcond.imp_left fun hle => hle.1)]
      rfl
  rcases within_prefix h L side price price' user with hprefix | hprefix
  · exact key hprefix
  · rw [eq_comm, key hprefix, and_comm]
    exact or_congr_right eq_comm

/-- The same trades leave the same books. -/
theorem afterMatch_ioc_congr (h : Inv e)
    (hframes : tradeFrames e.resting L (e.iocOrder ref side price quantity user) =
      tradeFrames e.resting L (e.iocOrder ref side price' quantity user)) :
    afterMatch e.resting L (e.iocOrder ref side price quantity user) =
      afterMatch e.resting L (e.iocOrder ref side price' quantity user) := by
  have hfills : Allocation.allocate qtyOf quantity.toNat (within e L side price user) =
      Allocation.allocate qtyOf quantity.toNat (within e L side price' user) := by
    have hcond := (tradeFrames_ioc_eq_iff h L ref side price price' quantity user).mp hframes
    rcases within_prefix h L side price price' user with hprefix | hprefix
    · exact Allocation.allocate_congr_of_prefix hprefix (hcond.imp_left fun hle => hle.1)
    · exact (Allocation.allocate_congr_of_prefix hprefix
        (hcond.imp (fun hle => hle.2) Eq.symm)).symm
  obtain ⟨G, fl, h⟩ := h
  have hnodup := h.resting_refs_nodup L !side.isBuy
  have hleft : ∀ p : UInt32, leftBehind side.isBuy (e.iocOrder ref side p quantity user)
      (e.resting L !side.isBuy) = (e.resting L !side.isBuy).filterMap
        (Allocation.after OrderData.orderId qtyOf partly
          (Allocation.allocate qtyOf quantity.toNat (within e L side p user))) := fun p =>
    Allocation.sweep_eq_filterMap hnodup
  have hsame := (hleft price).trans ((congrArg (fun fs => (e.resting L !side.isBuy).filterMap
    (Allocation.after OrderData.orderId qtyOf partly fs)) hfills).trans (hleft price').symm)
  exact congrArg (setSide e.resting L (!side.isBuy)) hsame

end Ioc

/-- **Two immediate-or-cancel orders** that differ in the price execute alike exactly when they are
turned down, or both prices reach enough, or the same. -/
theorem sameExecution_iff {e : MatchingEngine} (h : Inv e) (L ref : ℕ) (side : Side)
    (price price' quantity : UInt32) (user : ℕ) :
    SameExecution e (.add L ref side price quantity user .ioc)
        (.add L ref side price' quantity user .ioc) ↔
      addError L ref side price quantity user .ioc ≠ none ∨
        (quantity.toNat ≤ withinQty e L side price user ∧
          quantity.toNat ≤ withinQty e L side price' user) ∨
        within e L side price user = within e L side price' user := by
  cases hvalid : addError L ref side price quantity user .ioc with
  | some code =>
    refine iff_of_true ⟨_, _, e, e, processAdd_of_error hvalid,
      processAdd_of_error ((addError_ioc L ref side price' price quantity user).trans hvalid),
      rfl, rfl⟩ (Or.inl (by simp))
  | none =>
    have hvalid' := (addError_ioc L ref side price' price quantity user).trans hvalid
    obtain ⟨rsp, e₁, hcall, hframes, -, hrest⟩ := processAdd_ioc h hvalid
    obtain ⟨rsp', e₁', hcall', hframes', -, hrest'⟩ := processAdd_ioc h hvalid'
    have hiff := tradeFrames_ioc_eq_iff h L ref side price price' quantity user
    constructor
    · rintro ⟨rsp₂, rsp₂', e₂, e₂', hcall₂, hcall₂', hsame, -⟩
      obtain ⟨rfl, rfl⟩ := Prod.mk.inj (Option.some.inj (hcall.symm.trans hcall₂))
      obtain ⟨rfl, rfl⟩ := Prod.mk.inj (Option.some.inj (hcall'.symm.trans hcall₂'))
      rw [hframes, hframes', hiff] at hsame
      exact Or.inr hsame
    · rintro (hne | hcond)
      · exact absurd rfl hne
      have hsame := hiff.mpr hcond
      refine ⟨rsp, rsp', e₁, e₁', hcall, hcall', by rw [hframes, hframes', hsame], ?_⟩
      rw [hrest, hrest', afterMatch_ioc_congr h hsame]

/-- **When the price of an immediate-or-cancel order is ignored:** if the order is turned down, or
if the offers of others within either price are enough, or if both prices reach the same orders
and nothing is offered beyond. -/
theorem priceIgnored_iff {e : MatchingEngine} (h : Inv e) (L ref : ℕ) (side : Side)
    (price price' quantity : UInt32) (user : ℕ) :
    PriceIgnored e L ref side price price' quantity user ↔
      addError L ref side price quantity user .ioc ≠ none ∨
        Immaterial e L side price price' quantity user := by
  rw [PriceIgnored, sameExecution_iff h]
  cases hvalid : addError L ref side price quantity user .ioc with
  | some code =>
    exact iff_of_true ⟨Or.inl (by simp), fun _ _ _ hnone => absurd hnone (by simp)⟩
      (Or.inl (by simp))
  | none =>
    obtain ⟨rsp, e', hcall, -, hqty, -⟩ := processAdd_ioc h hvalid
    have hle : withinQty e L side price user ≤ othersQty e L side user := withinQty_le h
    have hboth : within e L side price user = within e L side price' user →
        withinQty e L side price user = withinQty e L side price' user := fun heq => by
      rw [withinQty, withinQty, heq]
    simp only [ne_eq, not_true, false_or, forall_const]
    constructor
    · rintro ⟨hreach, hamount⟩
      have hmin := hamount rsp e' hcall
      rw [hqty] at hmin
      rcases hreach with henough | heq
      · exact Or.inl henough
      · have hsum := hboth heq
        by_cases henough : quantity.toNat ≤ withinQty e L side price user
        · exact Or.inl ⟨henough, by omega⟩
        · exact Or.inr ⟨heq, by omega⟩
    · intro hcond
      refine ⟨hcond.imp_right fun hc => hc.1, fun rsp₂ e₂ hcall₂ => ?_⟩
      obtain ⟨rfl, rfl⟩ := Prod.mk.inj (Option.some.inj (hcall.symm.trans hcall₂))
      rw [hqty]
      rcases hcond with henough | ⟨-, hall⟩
      · omega
      · rw [hall]

end NebulaX.Exchange
