import NebulaX.Oms.OrderManager

/-!
# What a report does to an order

Every report of the order manager looks an order up and rewrites its entry, or leaves it when the
order is not in a state that the report belongs to. So a report is a function on entries, one for
each kind of report, and the orders that it is not about stay as they are.

## Main results

* `onAccept_revises`, `onFill_revises`, `requestCancel_revises`, `onCancel_revises`,
  `onReject_revises` — each report as a function on one entry
* `Revises.order` — no report changes which order an id stands for
-/

namespace NebulaX

namespace Entry

/-! ### Reports as functions on entries -/

/-- What `on_accept` makes of an entry. -/
def accepted (e : Entry) (ref : ℕ) : Entry :=
  if e.status = .pending then { e with status := .submitted, exchangeRef := ref } else e

/-- What `on_fill` makes of it. -/
def filledWith (e : Entry) (filledQty : UInt64) (fillPrice : Int64) : Entry :=
  if e.status.live then e.fill filledQty fillPrice else e

/-- What `request_cancel` makes of it. -/
def cancelRequested (e : Entry) : Entry :=
  if e.status.live then { e with status := .pendingCancel } else e

/-- What `on_cancel` makes of it. -/
def cancelConfirmed (e : Entry) : Entry :=
  if e.status = .pendingCancel then { e with status := .cancelled } else e

/-- What `on_reject` makes of it. -/
def rejected (e : Entry) : Entry :=
  if e.status = .pending then { e with status := .rejected } else e

@[simp] theorem accepted_order (e : Entry) (ref : ℕ) : (e.accepted ref).order = e.order := by
  rw [accepted]
  split <;> rfl

@[simp] theorem filledWith_order (e : Entry) (q : UInt64) (p : Int64) :
    (e.filledWith q p).order = e.order := by
  rw [filledWith]
  split <;> rfl

@[simp] theorem cancelRequested_order (e : Entry) : e.cancelRequested.order = e.order := by
  rw [cancelRequested]
  split <;> rfl

@[simp] theorem cancelConfirmed_order (e : Entry) : e.cancelConfirmed.order = e.order := by
  rw [cancelConfirmed]
  split <;> rfl

@[simp] theorem rejected_order (e : Entry) : e.rejected.order = e.order := by
  rw [rejected]
  split <;> rfl

/-! Only a fill changes what is filled. -/

@[simp] theorem accepted_filled (e : Entry) (ref : ℕ) : (e.accepted ref).filled = e.filled := by
  rw [accepted]
  split <;> rfl

@[simp] theorem cancelRequested_filled (e : Entry) : e.cancelRequested.filled = e.filled := by
  rw [cancelRequested]
  split <;> rfl

@[simp] theorem cancelConfirmed_filled (e : Entry) : e.cancelConfirmed.filled = e.filled := by
  rw [cancelConfirmed]
  split <;> rfl

@[simp] theorem rejected_filled (e : Entry) : e.rejected.filled = e.filled := by
  rw [rejected]
  split <;> rfl

end Entry

namespace OrderManager

variable {om om' : OrderManager} {id : ℕ} {g : Entry → Entry}

/-- `om'` is `om` with the entry of `id` rewritten by `g`, apart from the indices of open
orders. -/
structure Revises (om om' : OrderManager) (id : ℕ) (g : Entry → Entry) : Prop where
  /-- The entry is rewritten, if there is one. -/
  orders : om'.orders = Function.update om.orders id ((om.orders id).map g)
  /-- The keys stay, -/
  ids : om'.ids = om.ids
  /-- in their order, -/
  visits : om'.visits = om.visits
  /-- and so does the next id. -/
  nextId : om'.nextId = om.nextId

/-- A report that finds no entry. -/
theorem revises_none (h : om.orders id = none) : Revises om om id g where
  orders := by rw [h, Option.map_none, ← h, Function.update_eq_self]
  ids := rfl
  visits := rfl
  nextId := rfl

/-- A report that leaves the entry as it is. -/
theorem revises_same {e : Entry} (h : om.orders id = some e) (hg : g e = e) :
    Revises om om id g where
  orders := by rw [h, Option.map_some, hg, ← h, Function.update_eq_self]
  ids := rfl
  visits := rfl
  nextId := rfl

/-- A report that writes the entry. -/
theorem revises_setEntry {e e' : Entry} (h : om.orders id = some e) (hg : g e = e') :
    Revises om (om.setEntry id e') id g where
  orders := by
    rw [h, Option.map_some, hg]
    rfl
  ids := rfl
  visits := rfl
  nextId := rfl

/-- Taking an order off the indices of open orders makes no difference. -/
theorem Revises.unindex (h : Revises om om' id g) (e : Entry) :
    Revises om (om'.unindex id e) id g := ⟨h.orders, h.ids, h.visits, h.nextId⟩

theorem onAccept_revises (om : OrderManager) (id ref : ℕ) :
    Revises om (om.onAccept id ref) id fun e => e.accepted ref := by
  rw [onAccept]
  cases h : om.orders id with
  | none => exact revises_none h
  | some e =>
    by_cases hst : e.status = .pending
    · simp only [if_pos hst]
      exact revises_setEntry h (if_pos hst)
    · simp only [if_neg hst]
      exact revises_same h (if_neg hst)

theorem onFill_revises (om : OrderManager) (id : ℕ) (q : UInt64) (p : Int64) :
    Revises om (om.onFill id q p) id fun e => e.filledWith q p := by
  rw [onFill]
  cases h : om.orders id with
  | none => exact revises_none h
  | some e =>
    by_cases hst : e.status.live = true
    · simp only [if_pos hst]
      have hfill : Revises om (om.setEntry id (e.fill q p)) id fun e => e.filledWith q p :=
        revises_setEntry h (if_pos hst)
      split
      · exact hfill.unindex _
      · exact hfill
    · simp only [if_neg hst]
      exact revises_same h (if_neg hst)

theorem requestCancel_revises (om : OrderManager) (id : ℕ) :
    Revises om (om.requestCancel id).2 id Entry.cancelRequested := by
  rw [requestCancel]
  cases h : om.orders id with
  | none => exact revises_none h
  | some e =>
    by_cases hst : e.status.live = true
    · simp only [if_pos hst]
      exact revises_setEntry h (if_pos hst)
    · simp only [if_neg hst]
      exact revises_same h (if_neg hst)

/-- It is taken for a live order. -/
theorem requestCancel_fst {e : Entry} (h : om.orders id = some e) :
    (om.requestCancel id).1 = e.status.live := by
  rw [requestCancel, h]
  show (if e.status.live then (true, _) else (false, om)).1 = _
  split
  · next hlive => exact hlive.symm
  · next hlive => exact (Bool.eq_false_of_not_eq_true hlive).symm

theorem onCancel_revises (om : OrderManager) (id : ℕ) :
    Revises om (om.onCancel id).2 id Entry.cancelConfirmed := by
  rw [onCancel]
  cases h : om.orders id with
  | none => exact revises_none h
  | some e =>
    by_cases hst : e.status = .pendingCancel
    · simp only [if_pos hst]
      have hset : Revises om (om.setEntry id { e with status := .cancelled }) id
          Entry.cancelConfirmed := revises_setEntry h (if_pos hst)
      exact hset.unindex _
    · simp only [if_neg hst]
      exact revises_same h (if_neg hst)

theorem onReject_revises (om : OrderManager) (id : ℕ) :
    Revises om (om.onReject id) id Entry.rejected := by
  rw [onReject]
  cases h : om.orders id with
  | none => exact revises_none h
  | some e =>
    by_cases hst : e.status = .pending
    · simp only [if_pos hst]
      have hset : Revises om (om.setEntry id { e with status := .rejected }) id Entry.rejected :=
        revises_setEntry h (if_pos hst)
      exact hset.unindex _
    · simp only [if_neg hst]
      exact revises_same h (if_neg hst)

/-! ### What stays -/

/-- The entry itself. -/
theorem Revises.self (h : Revises om om' id g) : om'.orders id = (om.orders id).map g := by
  rw [h.orders, Function.update_self]

/-- **The other orders** stay as they are. -/
theorem Revises.of_ne (h : Revises om om' id g) {id' : ℕ} (hne : id' ≠ id) :
    om'.orders id' = om.orders id' := by
  rw [h.orders, Function.update_of_ne hne]

/-- An entry after a report is the one that it is about, rewritten, or one that was there. -/
theorem Revises.cases (h : Revises om om' id g) {id' : ℕ} {e : Entry}
    (he : om'.orders id' = some e) :
    (id' = id ∧ ∃ e₀, om.orders id = some e₀ ∧ e = g e₀) ∨
      (id' ≠ id ∧ om.orders id' = some e) := by
  by_cases hid : id' = id
  · subst hid
    rw [h.self] at he
    obtain ⟨e₀, he₀, hge⟩ := Option.map_eq_some_iff.mp he
    exact Or.inl ⟨rfl, e₀, he₀, hge.symm⟩
  · rw [h.of_ne hid] at he
    exact Or.inr ⟨hid, he⟩

/-- One report after the other. -/
theorem Revises.comp {om'' : OrderManager} {g' : Entry → Entry} (h : Revises om om' id g)
    (h' : Revises om' om'' id g') : Revises om om'' id fun e => g' (g e) where
  orders := by
    rw [h'.orders, h.orders, Function.update_self, Function.update_idem, Option.map_map]
    rfl
  ids := h'.ids.trans h.ids
  visits := h'.visits.trans h.visits
  nextId := h'.nextId.trans h.nextId

/-- **The order of an id** stays. -/
theorem Revises.order (h : Revises om om' id g) (hg : ∀ e, (g e).order = e.order) (id' : ℕ) :
    om'.order id' = om.order id' := by
  rw [OrderManager.order, OrderManager.order]
  by_cases hid : id' = id
  · subst hid
    rw [h.self, Option.map_map]
    exact congrArg (fun f => (om.orders id').map f) (funext hg)
  · rw [h.of_ne hid]

end OrderManager

end NebulaX
