import NebulaX.Oms.Totals

/-!
# The life cycle of an order

An order starts pending, and the reports move it along until it is filled, cancelled or rejected.
This holds of every sequence of calls on the order manager, whatever their ids and their order:
a report that does not belong to the state of its order is ignored.

`Entry.Sound` is what every entry satisfies and `Indexed` what the two indices of open orders
satisfy. The only assumption is that quantities are below `2 ^ 32`.

## Main results

* `Moves` — the moves of the life cycle
* `step_moves` — a call moves an order along the life cycle or leaves it alone
* `reached_lifecycle` — entries and indices in every state, and what a further call can do
-/

namespace NebulaX

/-! ### States -/

namespace OrderStatus

/-- A state that an order can leave. -/
def isOpen : OrderStatus → Bool
  | .pending | .submitted | .partialFill | .pendingCancel => true
  | .filled | .cancelled | .rejected | .notFound => false

/-- A state that an order ends in. -/
def isFinal : OrderStatus → Bool
  | .filled | .cancelled | .rejected => true
  | .pending | .submitted | .partialFill | .pendingCancel | .notFound => false

/-- **The moves of the life cycle.** -/
inductive Moves : OrderStatus → OrderStatus → Prop
  | accept : Moves .pending .submitted
  | reject : Moves .pending .rejected
  | fillPart {s : OrderStatus} (h : s.live = true) : Moves s .partialFill
  | fillAll {s : OrderStatus} (h : s.live = true) : Moves s .filled
  | request {s : OrderStatus} (h : s.live = true) : Moves s .pendingCancel
  | cancel : Moves .pendingCancel .cancelled

theorem isOpen_of_live {s : OrderStatus} (h : s.live = true) : s.isOpen = true := by
  cases s <;> first | rfl | exact absurd h (by decide)

theorem isFinal_of_isOpen {s : OrderStatus} (h : s.isOpen = true) : s.isFinal = false := by
  cases s <;> first | rfl | exact absurd h (by decide)

end OrderStatus

/-! ### Entries -/

namespace Entry

/-- What every entry satisfies. -/
structure Sound (e : Entry) : Prop where
  /-- No more is filled than was ordered, and that is below `2 ^ 32`. -/
  sized : e.Sized
  /-- What was filled and what remains make up the quantity. -/
  split : e.filled.toNat + e.remaining.toNat = e.order.quantity.toNat
  /-- A filled order was filled completely. -/
  full : e.status = .filled → e.filled = e.order.quantity
  /-- There is an order. -/
  found : e.status ≠ .notFound

/-- A report that changes the state only. -/
theorem Sound.withStatus {e e' : Entry} (h : e.Sound) (horder : e'.order = e.order)
    (hfilled : e'.filled = e.filled) (hremaining : e'.remaining = e.remaining)
    (hfull : e'.status = .filled → e.status = .filled) (hfound : e'.status ≠ .notFound) :
    e'.Sound where
  sized := by
    rw [Sized, horder, hfilled]
    exact h.sized
  split := by
    rw [horder, hfilled, hremaining]
    exact h.split
  full := by
    intro hs
    rw [horder, hfilled]
    exact h.full (hfull hs)
  found := hfound

theorem Sound.accepted {e : Entry} (h : e.Sound) (ref : ℕ) : (e.accepted ref).Sound := by
  rw [Entry.accepted]
  split
  · exact h.withStatus rfl rfl rfl (fun hs => absurd hs (by simp)) (by simp)
  · exact h

theorem Sound.cancelRequested {e : Entry} (h : e.Sound) : e.cancelRequested.Sound := by
  rw [Entry.cancelRequested]
  split
  · exact h.withStatus rfl rfl rfl (fun hs => absurd hs (by simp)) (by simp)
  · exact h

theorem Sound.cancelConfirmed {e : Entry} (h : e.Sound) : e.cancelConfirmed.Sound := by
  rw [Entry.cancelConfirmed]
  split
  · exact h.withStatus rfl rfl rfl (fun hs => absurd hs (by simp)) (by simp)
  · exact h

theorem Sound.rejected {e : Entry} (h : e.Sound) : e.rejected.Sound := by
  rw [Entry.rejected]
  split
  · exact h.withStatus rfl rfl rfl (fun hs => absurd hs (by simp)) (by simp)
  · exact h

/-- **A fill** keeps the quantities in balance, also when it is for more than is open. -/
theorem Sound.filledWith {e : Entry} (h : e.Sound) {q : UInt64} (hq : q.toNat < 2 ^ 32)
    (p : Int64) : (e.filledWith q p).Sound := by
  by_cases hlive : e.status.live = true
  · have hsized := h.sized.filledWith hq p
    rw [Entry.filledWith, if_pos hlive] at hsized ⊢
    have hle : e.newFilled q ≤ e.order.quantity := UInt64.le_iff_toNat_le.mpr hsized.1
    refine ⟨hsized, ?_, ?_, ?_⟩
    · show (e.newFilled q).toNat + (e.order.quantity - e.newFilled q).toNat = e.order.quantity.toNat
      rw [UInt64.toNat_sub_of_le _ _ hle]
      exact Nat.add_sub_cancel' hsized.1
    · intro hs
      show e.newFilled q = e.order.quantity
      have hs : (if e.order.quantity ≤ e.newFilled q then OrderStatus.filled
        else .partialFill) = .filled := hs
      split at hs
      · next hge => exact UInt64.le_antisymm hle hge
      · exact absurd hs (by decide)
    · show (if e.order.quantity ≤ e.newFilled q then OrderStatus.filled
        else .partialFill) ≠ .notFound
      split <;> decide
  · rw [Entry.filledWith, if_neg hlive]
    exact h

/-- A report leaves an entry alone, or moves it along the life cycle. -/
structure Evolves (e e' : Entry) : Prop where
  /-- The order stays. -/
  order : e'.order = e.order
  /-- The state moves on, if anything changes. -/
  moves : e' = e ∨ e.status.Moves e'.status

theorem evolves_accepted (e : Entry) (ref : ℕ) : e.Evolves (e.accepted ref) := by
  refine ⟨e.accepted_order ref, ?_⟩
  rw [accepted]
  split
  · next hs =>
    rw [hs]
    exact Or.inr .accept
  · exact Or.inl rfl

theorem evolves_filledWith (e : Entry) (q : UInt64) (p : Int64) :
    e.Evolves (e.filledWith q p) := by
  refine ⟨e.filledWith_order q p, ?_⟩
  rw [filledWith]
  split
  · next hlive =>
    refine Or.inr ?_
    show e.status.Moves (if e.order.quantity ≤ e.newFilled q then .filled else .partialFill)
    split
    · exact .fillAll hlive
    · exact .fillPart hlive
  · exact Or.inl rfl

theorem evolves_cancelRequested (e : Entry) : e.Evolves e.cancelRequested := by
  refine ⟨e.cancelRequested_order, ?_⟩
  rw [cancelRequested]
  split
  · next hlive => exact Or.inr (.request hlive)
  · exact Or.inl rfl

theorem evolves_cancelConfirmed (e : Entry) : e.Evolves e.cancelConfirmed := by
  refine ⟨e.cancelConfirmed_order, ?_⟩
  rw [cancelConfirmed]
  split
  · next hs =>
    rw [hs]
    exact Or.inr .cancel
  · exact Or.inl rfl

theorem evolves_rejected (e : Entry) : e.Evolves e.rejected := by
  refine ⟨e.rejected_order, ?_⟩
  rw [rejected]
  split
  · next hs =>
    rw [hs]
    exact Or.inr .reject
  · exact Or.inl rfl

/-- **An order that came to its end** is not changed any more. -/
theorem Evolves.of_isFinal {e e' : Entry} (h : e.Evolves e') (hfinal : e.status.isFinal = true) :
    e' = e := by
  refine h.moves.resolve_right fun hmoves => ?_
  have hnot : ∀ {s : OrderStatus}, s.live = true → s.isFinal = true → False := fun hlive hf =>
    absurd (hf.symm.trans (OrderStatus.isFinal_of_isOpen (OrderStatus.isOpen_of_live hlive)))
      (by decide)
  generalize e.status = s at hmoves hfinal
  generalize e'.status = s' at hmoves
  cases hmoves with
  | accept => exact absurd hfinal (by decide)
  | reject => exact absurd hfinal (by decide)
  | fillPart hlive => exact hnot hlive hfinal
  | fillAll hlive => exact hnot hlive hfinal
  | request hlive => exact hnot hlive hfinal
  | cancel => exact absurd hfinal (by decide)

end Entry

/-! ### Indices of open orders -/

/-- An index lists the open orders under a key that their orders have. -/
def IndexOf (orders : ℕ → Option Entry) (index : ℕ → Finset ℕ) (key : Order → ℕ) : Prop :=
  ∀ k id, id ∈ index k ↔ ∃ e, orders id = some e ∧ key e.order = k ∧ e.status.isOpen = true

namespace IndexOf

variable {orders : ℕ → Option Entry} {index : ℕ → Finset ℕ} {key : Order → ℕ} {id : ℕ}
  {e e' : Entry}

/-- What the entry of an id says about the index after it was written. -/
theorem update_self (hkey : key e'.order = key e.order) (k : ℕ) :
    (∃ e₁, Function.update orders id (some e') id = some e₁ ∧ key e₁.order = k ∧
      e₁.status.isOpen = true) ↔ key e.order = k ∧ e'.status.isOpen = true := by
  rw [Function.update_self, ← hkey]
  constructor
  · rintro ⟨e₁, he₁, hk, hopen⟩
    obtain rfl := Option.some.inj he₁
    exact ⟨hk, hopen⟩
  · rintro ⟨hk, hopen⟩
    exact ⟨e', rfl, hk, hopen⟩

/-- An order that stays open keeps its place. -/
theorem stays (h : IndexOf orders index key) (he : orders id = some e)
    (hkey : key e'.order = key e.order) (hopen : e'.status.isOpen = e.status.isOpen) :
    IndexOf (Function.update orders id (some e')) index key := by
  intro k id'
  by_cases hid : id' = id
  · subst hid
    rw [update_self hkey, hopen, h]
    constructor
    · rintro ⟨e₁, he₁, hk⟩
      exact Option.some.inj (he.symm.trans he₁) ▸ hk
    · exact fun hk => ⟨e, he, hk⟩
  · rw [Function.update_of_ne hid]
    exact h k id'

/-- An order that ends is taken off. -/
theorem ends (h : IndexOf orders index key) (hkey : key e'.order = key e.order)
    (hopen : e'.status.isOpen = false) (he : orders id = some e) :
    IndexOf (Function.update orders id (some e'))
      (Function.update index (key e.order) ((index (key e.order)).erase id)) key := by
  intro k id'
  by_cases hid : id' = id
  · subst hid
    rw [update_self hkey, hopen]
    refine iff_of_false ?_ fun hk => absurd hk.2 (by decide)
    by_cases hk : k = key e.order
    · rw [hk, Function.update_self]
      exact Finset.notMem_erase _ _
    · -- the order is listed under its own key only
      rw [Function.update_of_ne hk, h]
      rintro ⟨e₁, he₁, hk', -⟩
      exact hk (Option.some.inj (he.symm.trans he₁) ▸ hk').symm
  · rw [Function.update_of_ne hid, ← h]
    by_cases hk : k = key e.order
    · rw [hk, Function.update_self, Finset.mem_erase, and_iff_right hid]
    · rw [Function.update_of_ne hk]

/-- A new order is put on. -/
theorem starts (h : IndexOf orders index key) (he : orders id = none)
    (hopen : e'.status.isOpen = true) :
    IndexOf (Function.update orders id (some e'))
      (Function.update index (key e'.order) (insert id (index (key e'.order)))) key := by
  intro k id'
  by_cases hid : id' = id
  · subst hid
    rw [update_self (e := e') rfl, hopen, and_iff_left rfl]
    by_cases hk : k = key e'.order
    · rw [hk, Function.update_self]
      exact iff_of_true (Finset.mem_insert_self _ _) rfl
    · rw [Function.update_of_ne hk, h]
      refine iff_of_false ?_ fun hk' => hk hk'.symm
      rintro ⟨e₁, he₁, -⟩
      exact absurd (he.symm.trans he₁) (by simp)
  · rw [Function.update_of_ne hid, ← h]
    by_cases hk : k = key e'.order
    · rw [hk, Function.update_self, Finset.mem_insert, or_iff_right hid]
    · rw [Function.update_of_ne hk]

end IndexOf

/-! ### Calls -/

namespace OrderManager

/-- A call of the order manager. -/
inductive Call
  | newOrder (order : Order)
  | onAccept (id ref : ℕ)
  | onFill (id : ℕ) (filledQty : UInt64) (fillPrice : Int64)
  | requestCancel (id : ℕ)
  | onCancel (id : ℕ)
  | onReject (id : ℕ)

/-- What a call does, without its answer. -/
def step (om : OrderManager) : Call → OrderManager
  | .newOrder order => (om.newOrder order).2
  | .onAccept id ref => om.onAccept id ref
  | .onFill id filledQty fillPrice => om.onFill id filledQty fillPrice
  | .requestCancel id => (om.requestCancel id).2
  | .onCancel id => (om.onCancel id).2
  | .onReject id => om.onReject id

/-- Quantities are below `2 ^ 32`. -/
def Call.Bounded : Call → Prop
  | .newOrder order => order.quantity.toNat < 2 ^ 32
  | .onFill _ filledQty _ => filledQty.toNat < 2 ^ 32
  | .onAccept .. | .requestCancel _ | .onCancel _ | .onReject _ => True

/-- The states of an order manager, whose next id is set once. -/
inductive Reached : OrderManager → Prop
  | start (visits : VisitOrder) (base : UInt64) :
      Reached { visits := visits, nextId := base.toNat }
  | call {om : OrderManager} (c : Call) (h : Reached om) (hc : c.Bounded) : Reached (om.step c)

variable {om : OrderManager} {id : ℕ} {e e' : Entry}

/-- **A call** registers an order under a new id, or it is a report about one order. -/
theorem step_cases (om : OrderManager) (c : Call) :
    (∃ order, c = .newOrder order) ∨
      ∃ (id : ℕ) (g : Entry → Entry), Revises om (om.step c) id g ∧
        (∀ e : Entry, e.Evolves (g e)) ∧ (c.Bounded → ∀ e : Entry, e.Sound → (g e).Sound) := by
  cases c with
  | newOrder order => exact Or.inl ⟨order, rfl⟩
  | onAccept id ref =>
    exact Or.inr ⟨id, _, om.onAccept_revises id ref, (Entry.evolves_accepted · ref),
      fun _ _ he => he.accepted ref⟩
  | onFill id q p =>
    exact Or.inr ⟨id, _, om.onFill_revises id q p, (Entry.evolves_filledWith · q p),
      fun hq _ he => he.filledWith hq p⟩
  | requestCancel id =>
    exact Or.inr ⟨id, _, om.requestCancel_revises id, Entry.evolves_cancelRequested,
      fun _ _ he => he.cancelRequested⟩
  | onCancel id =>
    exact Or.inr ⟨id, _, om.onCancel_revises id, Entry.evolves_cancelConfirmed,
      fun _ _ he => he.cancelConfirmed⟩
  | onReject id =>
    exact Or.inr ⟨id, _, om.onReject_revises id, Entry.evolves_rejected,
      fun _ _ he => he.rejected⟩

/-- **A call moves an order** along the life cycle or leaves it alone. -/
theorem Keyed.step_moves (hk : Keyed om) (c : Call) (he : om.orders id = some e) :
    ∃ e', (om.step c).orders id = some e' ∧ e.Evolves e' := by
  rcases om.step_cases c with ⟨order, rfl⟩ | ⟨id', g, hrevises, hevolves, -⟩
  · have hne : id ≠ om.nextId := by
      rintro rfl
      exact absurd (hk.next_none.symm.trans he) (by simp)
    refine ⟨e, ?_, rfl, Or.inl rfl⟩
    show (om.newOrder order).2.orders id = _
    rw [newOrder_orders, Function.update_of_ne hne]
    exact he
  · by_cases hid : id = id'
    · rw [hid] at he ⊢
      rw [hrevises.self, he]
      exact ⟨g e, rfl, hevolves e⟩
    · exact ⟨e, (hrevises.of_ne hid).trans he, rfl, Or.inl rfl⟩

/-! ### The indices -/

/-- The two indices list the open orders. -/
structure Indexed (om : OrderManager) : Prop where
  /-- By symbol. -/
  symbol : IndexOf om.orders om.symOrders Order.symbolId
  /-- By strategy. -/
  strategy : IndexOf om.orders om.stratOrders Order.strategyId

theorem indexed_new (visits : VisitOrder) (base : ℕ) :
    Indexed { visits := visits, nextId := base } := by
  constructor
  all_goals
    intro k id
    refine iff_of_false (Finset.notMem_empty id) ?_
    rintro ⟨e, he, -⟩
    exact absurd he (by simp)

/-- An entry whose order stays open. -/
theorem Indexed.setEntry (h : Indexed om) (he : om.orders id = some e)
    (horder : e'.order = e.order) (hopen : e'.status.isOpen = e.status.isOpen) :
    Indexed (om.setEntry id e') where
  symbol := h.symbol.stays he (by rw [horder]) hopen
  strategy := h.strategy.stays he (by rw [horder]) hopen

/-- An entry whose order ends. -/
theorem Indexed.unindex (h : Indexed om) (he : om.orders id = some e)
    (horder : e'.order = e.order) (hopen : e'.status.isOpen = false) :
    Indexed ((om.setEntry id e').unindex id e) where
  symbol := h.symbol.ends (by rw [horder]) hopen he
  strategy := h.strategy.ends (by rw [horder]) hopen he

theorem Indexed.newOrder (h : Indexed om) (hk : Keyed om) (order : Order) :
    Indexed (om.newOrder order).2 := by
  have hopen : (om.newEntry order).status.isOpen = true := rfl
  exact ⟨h.symbol.starts hk.next_none hopen, h.strategy.starts hk.next_none hopen⟩

theorem Indexed.onAccept (h : Indexed om) (id ref : ℕ) : Indexed (om.onAccept id ref) := by
  rw [OrderManager.onAccept]
  cases he : om.orders id with
  | none => exact h
  | some e =>
    simp only
    split
    · next hs => exact h.setEntry he rfl (by rw [hs]; rfl)
    · exact h

theorem Indexed.onFill (h : Indexed om) (id : ℕ) (q : UInt64) (p : Int64) :
    Indexed (om.onFill id q p) := by
  rw [OrderManager.onFill]
  cases he : om.orders id with
  | none => exact h
  | some e =>
    simp only
    split
    · next hlive =>
      split
      · next hfilled =>
        -- the order that is taken off is that of the entry, not of the rewritten one
        have horder : (e.fill q p).order = e.order := rfl
        have hends := h.unindex he horder (by rw [hfilled]; rfl)
        rw [OrderManager.unindex] at hends ⊢
        exact hends
      · next hpart =>
        have hstatus : (e.fill q p).status = .partialFill := by
          have hpart : ¬ (if e.order.quantity ≤ e.newFilled q then OrderStatus.filled
            else .partialFill) = .filled := hpart
          show (if e.order.quantity ≤ e.newFilled q then OrderStatus.filled
            else .partialFill) = _
          split
          · next hge => exact absurd (if_pos hge) hpart
          · rfl
        refine h.setEntry he rfl ?_
        rw [hstatus, OrderStatus.isOpen_of_live hlive]
        rfl
    · exact h

theorem Indexed.requestCancel (h : Indexed om) (id : ℕ) : Indexed (om.requestCancel id).2 := by
  rw [OrderManager.requestCancel]
  cases he : om.orders id with
  | none => exact h
  | some e =>
    simp only
    split
    · next hlive =>
      refine h.setEntry he rfl ?_
      rw [OrderStatus.isOpen_of_live hlive]
      rfl
    · exact h

theorem Indexed.onCancel (h : Indexed om) (id : ℕ) : Indexed (om.onCancel id).2 := by
  rw [OrderManager.onCancel]
  cases he : om.orders id with
  | none => exact h
  | some e =>
    simp only
    split
    · exact h.unindex he rfl rfl
    · exact h

theorem Indexed.onReject (h : Indexed om) (id : ℕ) : Indexed (om.onReject id) := by
  rw [OrderManager.onReject]
  cases he : om.orders id with
  | none => exact h
  | some e =>
    simp only
    split
    · exact h.unindex he rfl rfl
    · exact h

/-- **Every call** leaves the indices right. -/
theorem Indexed.step (h : Indexed om) (hk : Keyed om) (c : Call) : Indexed (om.step c) := by
  cases c with
  | newOrder order => exact h.newOrder hk order
  | onAccept id ref => exact h.onAccept id ref
  | onFill id q p => exact h.onFill id q p
  | requestCancel id => exact h.requestCancel id
  | onCancel id => exact h.onCancel id
  | onReject id => exact h.onReject id

/-! ### Runs -/

/-- The invariant of all runs. -/
structure WellKept (om : OrderManager) : Prop where
  /-- The keys are the ids that were issued. -/
  keyed : Keyed om
  /-- Every entry is sound. -/
  sound : om.All Entry.Sound
  /-- The indices are right. -/
  indexed : Indexed om

theorem Reached.wellKept (h : Reached om) : WellKept om := by
  induction h with
  | start visits base =>
    exact ⟨keyed_new visits base.toNat, fun _ _ he => absurd he.symm (Option.some_ne_none _),
      indexed_new visits base.toNat⟩
  | @call om c _ hc ih =>
    refine ⟨?_, ?_, ih.indexed.step ih.keyed c⟩
    · rcases om.step_cases c with ⟨order, rfl⟩ | ⟨id, g, hrevises, -, -⟩
      · exact ih.keyed.newOrder order
      · exact hrevises.keyed ih.keyed
    · rcases om.step_cases c with ⟨order, rfl⟩ | ⟨id, g, hrevises, -, hsound⟩
      · refine newOrder_all ih.sound ⟨⟨Nat.zero_le _, hc⟩, ?_, ?_, ?_⟩
        · exact Nat.zero_add _
        · exact fun hs => absurd hs (show OrderStatus.pending ≠ .filled by decide)
        · exact show OrderStatus.pending ≠ .notFound by decide
      · exact hrevises.all ih.sound (hsound hc)

/-- **The life cycle of every order**, in every state that calls with any ids in any order come to:
quantities are in balance, the indices list the orders that are open, and a further call moves an
order along the life cycle or does not change it, the latter if it came to its end. -/
theorem reached_lifecycle (h : Reached om) :
    (∀ id e, om.orders id = some e →
      e.filled.toNat + e.remaining.toNat = e.order.quantity.toNat ∧
      (e.status = .filled → e.filled = e.order.quantity) ∧
      ∀ c, ∃ e', (om.step c).orders id = some e' ∧
        (e'.status ≠ e.status → e.status.Moves e'.status) ∧
        (e.status.isFinal = true → e' = e)) ∧
    (∀ c id e, om.orders id = none → (om.step c).orders id = some e → e.status = .pending) ∧
    (∀ symbolId id, id ∈ om.openOrders symbolId ↔
      ∃ e, om.orders id = some e ∧ e.order.symbolId = symbolId ∧ e.status.isOpen = true) ∧
    ∀ strategyId id, id ∈ om.openOrdersByStrategy strategyId ↔
      ∃ e, om.orders id = some e ∧ e.order.strategyId = strategyId ∧ e.status.isOpen = true := by
  have hkept := h.wellKept
  refine ⟨fun id e he => ?_, fun c id e hnone he => ?_, hkept.indexed.symbol,
    hkept.indexed.strategy⟩
  · have hsound := hkept.sound id e he
    refine ⟨hsound.split, hsound.full, fun c => ?_⟩
    obtain ⟨e', he', hevolves⟩ := hkept.keyed.step_moves c he
    refine ⟨e', he', fun hne => ?_, hevolves.of_isFinal⟩
    exact hevolves.moves.resolve_left fun hsame => hne (by rw [hsame])
  · rcases om.step_cases c with ⟨order, rfl⟩ | ⟨id', g, hrevises, -, -⟩
    · have he : (om.newOrder order).2.orders id = some e := he
      rw [newOrder_orders] at he
      by_cases hid : id = om.nextId
      · rw [hid, Function.update_self] at he
        exact Option.some.inj he ▸ rfl
      · rw [Function.update_of_ne hid] at he
        exact absurd (hnone.symm.trans he) (by simp)
    · rcases hrevises.cases he with ⟨rfl, e₀, he₀, -⟩ | ⟨-, he⟩
      · exact absurd (hnone.symm.trans he₀) (by simp)
      · exact absurd (hnone.symm.trans he) (by simp)

/-- A bid that is filled in two parts, the second of them for more than is open. -/
theorem reached_lifecycle_bid : ∃ om, om = [Call.newOrder { quantity := 100 }, .onAccept 1 7,
      .onFill 1 60 100, .onFill 1 60 100].foldl step {} ∧
    (om.orders 1).map (fun e => (e.status, e.filled)) = some (.filled, 100) ∧
    (1 ∈ om.openOrders 0 ↔
      ∃ e, om.orders 1 = some e ∧ e.order.symbolId = 0 ∧ e.status.isOpen = true) := by
  have hrun : Reached ([Call.newOrder { quantity := 100 }, .onAccept 1 7,
      .onFill 1 60 100, .onFill 1 60 100].foldl step {}) :=
    ((((Reached.start .inserted 1).call (.newOrder { quantity := 100 })
      (show (100 : UInt64).toNat < 2 ^ 32 by decide)).call (.onAccept 1 7) trivial).call
      (.onFill 1 60 100) (show (60 : UInt64).toNat < 2 ^ 32 by decide)).call
      (.onFill 1 60 100) (show (60 : UInt64).toNat < 2 ^ 32 by decide)
  exact ⟨_, rfl, by decide, (reached_lifecycle hrun).2.2.1 0 1⟩

end OrderManager

end NebulaX
