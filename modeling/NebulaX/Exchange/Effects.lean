import NebulaX.Exchange.EngineRuns

/-!
# What a call can do

The outcomes of the entry points are functions of what rests. Here they are inverted: `Effect`
lists everything an allowed call can answer, and what rests after it, one constructor for each way
a call can go. An invariant of the resting orders is then a case analysis with six small cases,
and no proof about runs opens an entry point again.

An order that comes in, by an add or in a replace, trades first. `Arrival` says how it goes on:
it is filled, or its rest hangs in the book, or its rest is dropped.

## Main results

* `exec_effect` — an allowed call has one of these effects
* `mem_enter`, `mem_afterMatch`, `mem_leave`, `mem_shrink` — which orders rest after them
* `afterMatch_of_mem`, `mem_afterMatch_of` — what the `RSP_TRADE` frames say about a resting order
-/

namespace NebulaX.Exchange

open MatchingEngine

/-! ### An incoming order -/

/-- **How an incoming order goes on** after its trades. `stays` says whether a rest of it may go
to the book. -/
inductive Arrival (R : Resting) (L : ℕ) (o : OrderData) (stays : Bool) :
    List BinaryResponse → Resting → Prop
  /-- It is filled. -/
  | filled (hfilled : (residual R L o).status = .filled) :
    Arrival R L o stays (tradeFrames R L o ++ [.filled o.orderId]) (afterMatch R L o)
  /-- Its rest hangs in the book. -/
  | rests (hopen : (residual R L o).status ≠ .filled) (hstays : stays = true)
      (hside : o.side ≠ .invalid) :
    Arrival R L o stays (tradeFrames R L o ++ [.ok o.orderId])
      (enter (afterMatch R L o) L (residual R L o))
  /-- Its rest is dropped. -/
  | dropped (hopen : (residual R L o).status ≠ .filled) (hstays : stays = false)
      (tail : List BinaryResponse) (htail : tail = [] ∨ ∃ code, tail = [.error code]) :
    Arrival R L o stays (tradeFrames R L o ++ tail) (afterMatch R L o)

section Arrival

variable {R R' : Resting} {L : ℕ} {o : OrderData} {room : Bool} {rsp : List BinaryResponse}

/-- An order that is not filled used up every order it traded with. If it used up none, it did not
trade. -/
theorem tradesOf_eq_nil (hused : (usedRefs R L o).isEmpty = true)
    (hopen : (residual R L o).status ≠ .filled) : tradesOf R L o = [] := by
  by_contra hne
  have hlt : filledQtyOf (tradesOf R L o) < qtyOf o := by
    rw [residual, afterFills, if_neg hne, OrderData.filledBy] at hopen
    by_contra hle
    exact hopen (if_pos (Nat.not_lt.mp hle))
  obtain ⟨p, ps, hps⟩ := List.exists_cons_of_ne_nil hne
  have hp : p ∈ tradesOf R L o := hps ▸ List.mem_cons_self
  have hfull : p.2 = qtyOf p.1 := Allocation.allocate_full hlt hp
  have hmem : p.1.orderId ∈ usedRefs R L o :=
    List.mem_map.mpr ⟨p, List.mem_filter.mpr ⟨hp, decide_eq_true hfull⟩, rfl⟩
  rw [List.isEmpty_iff.mp hused] at hmem
  exact absurd hmem List.not_mem_nil

/-- An order that goes to the book hangs there or finds no room. -/
theorem arrival_of_restOutcome (hopen : (residual R L o).status ≠ .filled)
    (h : (rsp, R') = restOutcome (afterMatch R L o) L (residual R L o) room (tradeFrames R L o)) :
    Arrival R L o (room && decide (o.side ≠ .invalid)) rsp R' := by
  have hside : (residual R L o).side = o.side := afterFills_side ..
  rw [restOutcome, hside] at h
  split at h
  · next hc =>
    obtain ⟨rfl, rfl⟩ := Prod.mk.inj h
    rw [show (residual R L o).orderId = o.orderId from afterFills_orderId ..]
    exact .rests hopen (by rw [hc.1, decide_eq_true hc.2]; rfl) hc.2
  · next hc =>
    obtain ⟨rfl, rfl⟩ := Prod.mk.inj h
    refine .dropped hopen ?_ _ (Or.inr ⟨_, rfl⟩)
    cases room
    · rfl
    · rw [Bool.true_and]
      exact decide_eq_false fun hs => hc ⟨rfl, hs⟩

theorem arrival_of_addOutcome {tif : OrderTif} (h : (rsp, R') = addOutcome R L o tif room) :
    Arrival R L o (decide (tif = .day) && (room && decide (o.side ≠ .invalid))) rsp R' := by
  unfold addOutcome at h
  change (rsp, R') = if (residual R L o).status = .filled then _ else _ at h
  by_cases hst : (residual R L o).status = .filled
  · rw [if_pos hst] at h
    obtain ⟨rfl, rfl⟩ := Prod.mk.inj h
    exact .filled hst
  rw [if_neg hst] at h
  cases tif with
  | day => exact arrival_of_restOutcome hst h
  | ioc =>
    obtain ⟨rfl, rfl⟩ := Prod.mk.inj h
    split
    · exact .dropped hst rfl _ (Or.inr ⟨_, rfl⟩)
    · rw [← List.append_nil (tradeFrames R L o)]
      exact .dropped hst rfl _ (Or.inl rfl)
  | fok =>
    obtain ⟨rfl, rfl⟩ := Prod.mk.inj h
    split
    · exact .dropped hst rfl _ (Or.inr ⟨_, rfl⟩)
    · rw [← List.append_nil (tradeFrames R L o)]
      exact .dropped hst rfl _ (Or.inl rfl)

theorem arrival_of_replaceOutcome (h : (rsp, R') = replaceOutcome R L o room) :
    Arrival R L o (room && decide (o.side ≠ .invalid)) rsp R' := by
  unfold replaceOutcome at h
  change (rsp, R') = if (residual R L o).status = .filled then _ else _ at h
  by_cases hst : (residual R L o).status = .filled
  · rw [if_pos hst] at h
    obtain ⟨rfl, rfl⟩ := Prod.mk.inj h
    exact .filled hst
  · rw [if_neg hst] at h
    exact arrival_of_restOutcome hst h

end Arrival

/-! ### All calls -/

/-- No order of that user and reference rests under the locate, as far as the index can tell. -/
def NotOwned (e : MatchingEngine) (L ref user : ℕ) : Prop :=
  e.shared.insertDropped = false → ∀ b, ∀ x ∈ e.resting L b, x.orderId = ref → x.userId ≠ user

/-- **What an allowed call can answer**, and what rests after it. -/
inductive Effect (e : MatchingEngine) : Command → List BinaryResponse → Resting → Prop
  /-- An add that fails validation. -/
  | rejected {L ref : ℕ} {side : Side} {price quantity : UInt32} {user : ℕ} {tif : OrderTif}
      {code : ErrorCode} (hcode : addError L ref side price quantity user tif = some code) :
    Effect e (.add L ref side price quantity user tif) [.error code] e.resting
  /-- A fill-or-kill order that is stopped. -/
  | killed {L ref : ℕ} {side : Side} {price quantity : UInt32} {user : ℕ} :
    Effect e (.add L ref side price quantity user .fok) [.error .fokNoFullFill] e.resting
  /-- An add that is let in. -/
  | added {L ref : ℕ} {side : Side} {price quantity : UInt32} {user : ℕ} {tif : OrderTif}
      {rsp : List BinaryResponse} {R' : Resting}
      (hvalid : addError L ref side price quantity user tif = none)
      (h : Arrival e.resting L
        (e.newOrder ref side (effectivePrice side tif price) quantity user)
        (decide (tif = .day) &&
          (e.roomAfter L (e.newOrder ref side (effectivePrice side tif price) quantity user) &&
            decide (side ≠ .invalid))) rsp R') :
    Effect e (.add L ref side price quantity user tif) rsp R'
  /-- A cancel. -/
  | cancelled {L ref user : ℕ} {b : Bool} {x : OrderData} (hx : x ∈ e.resting L b)
      (hid : x.orderId = ref) (huser : x.userId = user) :
    Effect e (.cancel L ref user) [.cancelled ref] (leave e.resting L b ref)
  /-- A cancel of nothing. -/
  | cancelRefused {L ref user : ℕ} (hnone : NotOwned e L ref user) :
    Effect e (.cancel L ref user) [.error .orderNotFound] e.resting
  /-- A partial cancel of everything. -/
  | sharesAll {L ref : ℕ} {shares : UInt32} {user : ℕ} {b : Bool} {x : OrderData}
      (hx : x ∈ e.resting L b) (hid : x.orderId = ref) (huser : x.userId = user)
      (hle : x.remainingQty ≤ shares) :
    Effect e (.cancelShares L ref shares user) [.cancelled ref] (leave e.resting L b ref)
  /-- A partial cancel. -/
  | sharesPart {L ref : ℕ} {shares : UInt32} {user : ℕ} {b : Bool} {x : OrderData}
      (hx : x ∈ e.resting L b) (hid : x.orderId = ref) (huser : x.userId = user)
      (hlt : shares < x.remainingQty) :
    Effect e (.cancelShares L ref shares user) [.ok ref] (shrink e.resting L b ref shares)
  /-- A partial cancel of nothing. -/
  | sharesRefused {L ref : ℕ} {shares : UInt32} {user : ℕ} (hnone : NotOwned e L ref user) :
    Effect e (.cancelShares L ref shares user) [.error .orderNotFound] e.resting
  /-- A replace. -/
  | replaced {L oldRef newRef : ℕ} {side : Side} {price quantity : UInt32} {user : ℕ} {b : Bool}
      {x : OrderData} {rsp : List BinaryResponse} {R' : Resting} (hx : x ∈ e.resting L b)
      (hid : x.orderId = oldRef) (huser : x.userId = user)
      (h : Arrival (leave e.resting L b oldRef) L
        (e.newOrder newRef side price quantity newRef) (decide (side ≠ .invalid)) rsp R') :
    Effect e (.replace L oldRef newRef side price quantity user) rsp R'
  /-- A replace of nothing. -/
  | replaceRefused {L oldRef newRef : ℕ} {side : Side} {price quantity : UInt32} {user : ℕ}
      (hnone : NotOwned e L oldRef user) :
    Effect e (.replace L oldRef newRef side price quantity user) [.error .orderNotFound] e.resting

/-- The book that a call is about. -/
def Command.locate : Command → ℕ
  | .add locate .. => locate
  | .cancel locate .. => locate
  | .cancelShares locate .. => locate
  | .replace locate .. => locate

theorem Arrival.elsewhere {R R' : Resting} {L : ℕ} {o : OrderData} {stays : Bool}
    {rsp : List BinaryResponse} (ha : Arrival R L o stays rsp R') {L' : ℕ} (hL : L' ≠ L)
    (b : Bool) : R' L' b = R L' b := by
  have hmatch : afterMatch R L o L' b = R L' b := setSide_of_ne _ _ _ _ fun hc => hL hc.1
  cases ha with
  | filled => exact hmatch
  | rests =>
    rw [enter, setSide_of_ne _ _ _ _ fun hc => hL hc.1]
    exact hmatch
  | dropped => exact hmatch

/-- **The other books** are left alone. -/
theorem Effect.elsewhere {e : MatchingEngine} {c : Command} {rsp : List BinaryResponse}
    {R' : Resting} (heff : Effect e c rsp R') {L' : ℕ} (hL : L' ≠ c.locate) (b : Bool) :
    R' L' b = e.resting L' b := by
  cases heff with
  | rejected => rfl
  | killed => rfl
  | added _ ha => exact ha.elsewhere hL b
  | cancelled => exact setSide_of_ne _ _ _ _ fun hc => hL hc.1
  | cancelRefused => rfl
  | sharesAll => exact setSide_of_ne _ _ _ _ fun hc => hL hc.1
  | sharesPart => exact setSide_of_ne _ _ _ _ fun hc => hL hc.1
  | sharesRefused => rfl
  | replaced _ _ _ ha =>
    rw [ha.elsewhere hL b]
    exact setSide_of_ne _ _ _ _ fun hc => hL hc.1
  | replaceRefused => rfl

/-- **An allowed call returns** with one of these effects, and keeps the invariant. -/
theorem exec_effect {e : MatchingEngine} (h : Inv e) {c : Command} (hc : c.Allowed e.resting) :
    ∃ rsp e', e.exec c = some (rsp, e') ∧ Keeps e e' ∧ Effect e c rsp e'.resting := by
  cases c with
  | add L ref side price quantity user tif =>
    cases hvalid : addError L ref side price quantity user tif with
    | some code => exact ⟨_, e, processAdd_of_error hvalid, Keeps.refl h, .rejected hvalid⟩
    | none =>
      by_cases htif : tif = .fok
      · subst htif
        rcases Nat.lt_or_ge (onOffer e.resting L side (effectivePrice side .fok price) % 2 ^ 32)
          quantity.toNat with hlt | hle
        · exact ⟨_, e, processAdd_fok_stop h hvalid hlt, Keeps.refl h, .killed⟩
        · obtain ⟨rsp, e', hexec, hkeeps, hres, -⟩ := processAdd_fok_spec h hvalid hle
          exact ⟨rsp, e', hexec, hkeeps, .added hvalid (arrival_of_addOutcome hres)⟩
      · obtain ⟨rsp, e', hexec, hkeeps, hres, -⟩ :=
          processAdd_spec h hvalid htif fun _ => hc
        exact ⟨rsp, e', hexec, hkeeps, .added hvalid (arrival_of_addOutcome hres)⟩
  | cancel L ref user =>
    obtain ⟨rsp, e', hexec, hkeeps, -, -, hcase⟩ := processCancel_spec h hc user
    refine ⟨rsp, e', hexec, hkeeps, ?_⟩
    rcases hcase with ⟨b, x, hx, hid, hu, rfl, hrest, -⟩ | ⟨rfl, hrest, hnone⟩
    · rw [hrest]
      exact .cancelled hx hid hu
    · rw [hrest]
      exact .cancelRefused hnone
  | cancelShares L ref shares user =>
    obtain ⟨rsp, e', hexec, hkeeps, -, -, hcase⟩ := processCancelShares_spec h hc user shares
    refine ⟨rsp, e', hexec, hkeeps, ?_⟩
    rcases hcase with ⟨b, x, hx, hid, hu, hle, rfl, hrest⟩ |
      ⟨b, x, hx, hid, hu, hlt, rfl, hrest⟩ | ⟨rfl, hrest, hnone⟩
    · rw [hrest]
      exact .sharesAll hx hid hu hle
    · rw [hrest]
      exact .sharesPart hx hid hu hlt
    · rw [hrest]
      exact .sharesRefused hnone
  | replace L oldRef newRef side price quantity user =>
    obtain ⟨rsp, e', hexec, hkeeps, hcase⟩ :=
      processReplace_spec h hc.1 user hc.2 side price quantity
    refine ⟨rsp, e', hexec, hkeeps, ?_⟩
    rcases hcase with ⟨b, x, hx, hid, hu, hres, -⟩ | ⟨rfl, hrest, -, -, hnone⟩
    · exact .replaced hx hid hu (arrival_of_replaceOutcome hres)
    · rw [hrest]
      exact .replaceRefused hnone

/-- The effect of a call that was made. -/
theorem effect_of_exec {e e' : MatchingEngine} {c : Command} {rsp : List BinaryResponse}
    (h : Inv e) (hc : c.Allowed e.resting) (hexec : e.exec c = some (rsp, e')) :
    Effect e c rsp e'.resting := by
  obtain ⟨rsp', e'', hexec', -, heff⟩ := exec_effect h hc
  obtain ⟨rfl, rfl⟩ := Prod.mk.inj (Option.some.inj (hexec.symm.trans hexec'))
  exact heff

/-- And the invariant after it. -/
theorem keeps_of_exec {e e' : MatchingEngine} {c : Command} {rsp : List BinaryResponse}
    (h : Inv e) (hc : c.Allowed e.resting) (hexec : e.exec c = some (rsp, e')) : Keeps e e' := by
  obtain ⟨rsp', e'', hexec', hkeeps, -⟩ := exec_effect h hc
  obtain ⟨rfl, rfl⟩ := Prod.mk.inj (Option.some.inj (hexec.symm.trans hexec'))
  exact hkeeps

/-! ### Which orders rest after it -/

theorem mem_shrink {R : Resting} {L : ℕ} {b : Bool} {ref : ℕ} {q : UInt32} {L' : ℕ} {b' : Bool}
    {x : OrderData} (hx : x ∈ shrink R L b ref q L' b') :
    (x ∈ R L' b' ∧ ¬(L' = L ∧ b' = b ∧ x.orderId = ref)) ∨
      ∃ y ∈ R L' b', L' = L ∧ b' = b ∧ y.orderId = ref ∧ x = y.reduce q := by
  rcases (mem_setSide ..).mp hx with ⟨rfl, rfl, hx'⟩ | ⟨hside, hx'⟩
  · obtain ⟨y, hy, rfl⟩ := List.mem_map.mp hx'
    split
    · next hid => exact Or.inr ⟨y, hy, rfl, rfl, hid, rfl⟩
    · next hid => exact Or.inl ⟨hy, fun hc => hid hc.2.2⟩
  · exact Or.inl ⟨hx', fun hc => hside ⟨hc.1, hc.2.1⟩⟩

/-- An order that hangs in the book stands beside the orders that were there. -/
theorem mem_enter {R : Resting} {L : ℕ} {o : OrderData} {L' : ℕ} {b' : Bool} {x : OrderData} :
    x ∈ enter R L o L' b' ↔ (L' = L ∧ b' = o.side.isBuy ∧ x = o) ∨ x ∈ R L' b' := by
  rw [enter, mem_setSide, SortedMap.mem_insertBefore]
  by_cases hside : L' = L ∧ b' = o.side.isBuy
  · obtain ⟨rfl, rfl⟩ := hside
    simp
  · simp only [hside, not_false_eq_true, true_and]
    constructor
    · rintro (⟨hL, hb, -⟩ | hx)
      · exact absurd ⟨hL, hb⟩ hside
      · exact Or.inr hx
    · rintro (⟨hL, hb, -⟩ | hx)
      · exact absurd ⟨hL, hb⟩ hside
      · exact Or.inr hx

/-! ### What the frames say about a resting order -/

/-- What the order `ref` traded as a maker, according to the frames of a call. -/
def makerQty (ref : ℕ) (rsp : List BinaryResponse) : ℕ :=
  (rsp.map fun
    | .trade _ orderRef _ _ quantity => if orderRef = ref then quantity.toNat else 0
    | .ok _ | .filled _ | .cancelled _ | .error _ => 0).sum

/-- What the incoming order traded, according to the frames of a call. -/
def takerQty (rsp : List BinaryResponse) : ℕ := (rsp.map BinaryResponse.tradedQty).sum

@[simp] theorem makerQty_append (ref : ℕ) (rsp rsp' : List BinaryResponse) :
    makerQty ref (rsp ++ rsp') = makerQty ref rsp + makerQty ref rsp' := by
  rw [makerQty, List.map_append, List.sum_append]
  rfl

@[simp] theorem takerQty_append (rsp rsp' : List BinaryResponse) :
    takerQty (rsp ++ rsp') = takerQty rsp + takerQty rsp' := by
  rw [takerQty, List.map_append, List.sum_append]
  rfl

/-- An offer in a list of trades gives no more than a resting order can have. -/
theorem toNat_ofNat_of_mem_fills {buy : Bool} {o : OrderData} {xs : List OrderData}
    {p : OrderData × ℕ} (hp : p ∈ fills buy o xs) : (UInt32.ofNat p.2).toNat = p.2 := by
  have hle := Allocation.allocate_le hp
  have hlt := qtyOf_lt p.1
  rw [UInt32.toNat_ofNat', Nat.mod_eq_of_lt (by omega)]

theorem makerQty_map_tradeFrame (L : ℕ) (buy : Bool) (ref : ℕ) {fs : List (OrderData × ℕ)}
    (hfs : ∀ p ∈ fs, (UInt32.ofNat p.2).toNat = p.2) :
    makerQty ref (fs.map (tradeFrame L buy)) = Allocation.given OrderData.orderId fs ref := by
  induction fs with
  | nil => rfl
  | cons p fs ih =>
    have ih := ih fun q hq => hfs q (List.mem_cons_of_mem _ hq)
    have hp := hfs p List.mem_cons_self
    rw [makerQty, List.map_cons, List.map_cons, List.sum_cons, ← makerQty, ih, Allocation.given,
      Allocation.given]
    by_cases hid : p.1.orderId = ref
    · rw [List.filter_cons_of_pos (by simpa using hid), List.map_cons, List.sum_cons]
      exact congrArg (· + _) ((if_pos hid).trans hp)
    · rw [List.filter_cons_of_neg (by simpa using hid)]
      exact (congrArg (· + _) (if_neg hid)).trans (Nat.zero_add _)

theorem takerQty_map_tradeFrame (L : ℕ) (buy : Bool) {fs : List (OrderData × ℕ)}
    (hfs : ∀ p ∈ fs, (UInt32.ofNat p.2).toNat = p.2) :
    takerQty (fs.map (tradeFrame L buy)) = filledQtyOf fs := by
  rw [takerQty, List.map_map, filledQtyOf]
  exact congrArg List.sum (List.map_congr_left fun p hp => hfs p hp)

/-- References are unique among the orders that rest. -/
structure RefsUnique (R : Resting) : Prop where
  /-- On one side. -/
  nodup : ∀ L b, ((R L b).map OrderData.orderId).Nodup
  /-- And everywhere. -/
  unique : ∀ {L b x L' b' y}, x ∈ R L b → y ∈ R L' b' → x.orderId = y.orderId →
    L' = L ∧ b' = b ∧ y = x

theorem Inv.refsUnique {e : MatchingEngine} (h : Inv e) : RefsUnique e.resting := by
  obtain ⟨G, fl, h⟩ := h
  exact ⟨h.resting_refs_nodup, fun hx hy hxy => h.resting_unique hx hy hxy⟩

theorem RefsUnique.leave {R : Resting} (h : RefsUnique R) (L : ℕ) (b : Bool) (ref : ℕ) :
    RefsUnique (leave R L b ref) := by
  refine ⟨fun L' b' => ?_, fun hx hy hxy => h.unique (mem_leave hx) (mem_leave hy) hxy⟩
  by_cases hside : L' = L ∧ b' = b
  · rw [hside.1, hside.2, Exchange.leave, setSide_self]
    exact (h.nodup L b).sublist (List.filter_sublist.map _)
  · rw [Exchange.leave, setSide_of_ne _ _ _ _ hside]
    exact h.nodup L' b'

/-- Once the order with a reference has left, the reference is fresh. -/
theorem RefsUnique.fresh_leave {R : Resting} (h : RefsUnique R) {L : ℕ} {b : Bool} {x : OrderData}
    (hx : x ∈ R L b) : Fresh (Exchange.leave R L b x.orderId) x.orderId := fun L' b' y hy hyr => by
  obtain ⟨rfl, rfl, -⟩ := h.unique hx (mem_leave hy) hyr.symm
  rw [Exchange.leave, setSide_self] at hy
  exact absurd hyr (by simpa using (List.mem_filter.mp hy).2)

section Frames

variable {R : Resting} {L : ℕ} {o : OrderData}

theorem makerQty_tradeFrames (ref : ℕ) : makerQty ref (tradeFrames R L o) =
    Allocation.given OrderData.orderId (tradesOf R L o) ref :=
  makerQty_map_tradeFrame L _ ref fun _ hp => toNat_ofNat_of_mem_fills hp

theorem takerQty_tradeFrames : takerQty (tradeFrames R L o) = filledQtyOf (tradesOf R L o) :=
  takerQty_map_tradeFrame L _ fun _ hp => toNat_ofNat_of_mem_fills hp

/-- The makers of a call rest on the other side of its book. -/
theorem mem_of_mem_tradesOf {p : OrderData × ℕ} (hp : p ∈ tradesOf R L o) :
    p.1 ∈ R L (!o.side.isBuy) ∧ eligible o.side.isBuy o p.1 = true :=
  List.mem_filter.mp (Allocation.mem_of_mem_allocate hp)

/-- A reference that is not resting there trades nothing. -/
theorem makerQty_of_not_mem {ref : ℕ} (h : ∀ x ∈ R L (!o.side.isBuy), x.orderId ≠ ref) :
    makerQty ref (tradeFrames R L o) = 0 := by
  rw [makerQty_tradeFrames, Allocation.given, List.filter_eq_nil_iff.mpr fun p hp => by
    simpa using h p.1 (mem_of_mem_tradesOf hp).1]
  rfl

theorem tradesOf_refs_nodup (h : RefsUnique R) :
    ((tradesOf R L o).map fun p => p.1.orderId).Nodup := by
  have hpre := Allocation.allocate_givers (w := qtyOf) (qtyOf o)
    ((R L (!o.side.isBuy)).filter (eligible o.side.isBuy o))
  have hsub := ((hpre.sublist.trans List.filter_sublist).map OrderData.orderId)
  rw [List.map_map] at hsub
  exact (h.nodup L _).sublist hsub

/-- What matching makes of an order on the side it matches against. -/
theorem leftBehind_eq (h : RefsUnique R) :
    afterMatch R L o L (!o.side.isBuy) = (R L (!o.side.isBuy)).filterMap
      (Allocation.after OrderData.orderId qtyOf partly (tradesOf R L o)) := by
  rw [afterMatch, setSide_self, leftBehind, Allocation.sweep_eq_filterMap (h.nodup L _)]
  rfl

/-- The two ways matching can treat an order on that side. -/
theorem after_tradesOf (h : RefsUnique R) {x : OrderData} (hx : x ∈ R L !o.side.isBuy) :
    (Allocation.after OrderData.orderId qtyOf partly (tradesOf R L o) x = some x ∧
        makerQty x.orderId (tradeFrames R L o) = 0 ∧
        ∀ p ∈ tradesOf R L o, p.1.orderId ≠ x.orderId) ∨
      ∃ t, Allocation.after OrderData.orderId qtyOf partly (tradesOf R L o) x =
          (if t = qtyOf x then none else some (partly x t)) ∧ t ≤ qtyOf x ∧
        makerQty x.orderId (tradeFrames R L o) = t ∧ (x, t) ∈ tradesOf R L o := by
  have hcases := @Allocation.after_cases _ qtyOf partly _ _ _ _
    (tradesOf_refs_nodup (L := L) (o := o) h) x
  rcases hcases with ⟨hsame, hzero, hnot⟩ | ⟨p, hp, hpx, hafter, hgiven⟩
  · exact Or.inl ⟨hsame, by rw [makerQty_tradeFrames, hzero], hnot⟩
  · obtain ⟨-, -, rfl⟩ := h.unique hx (mem_of_mem_tradesOf hp).1 hpx.symm
    exact Or.inr ⟨p.2, hafter, Allocation.allocate_le hp, by rw [makerQty_tradeFrames, hgiven], hp⟩

/-- **A resting order after the trades of a call**: as it was, cut down by what it traded, or used
up. -/
theorem afterMatch_of_mem (h : RefsUnique R) {L' : ℕ} {b' : Bool} {x : OrderData}
    (hx : x ∈ R L' b') :
    (x ∈ afterMatch R L o L' b' ∧ makerQty x.orderId (tradeFrames R L o) = 0) ∨
      (∃ t, t < qtyOf x ∧ partly x t ∈ afterMatch R L o L' b' ∧
        makerQty x.orderId (tradeFrames R L o) = t) ∨
      makerQty x.orderId (tradeFrames R L o) = qtyOf x := by
  by_cases hside : L' = L ∧ b' = !o.side.isBuy
  · obtain ⟨rfl, rfl⟩ := hside
    rw [leftBehind_eq h]
    rcases after_tradesOf h hx with ⟨hsame, hzero, -⟩ | ⟨t, hafter, hle, hmk, -⟩
    · exact Or.inl ⟨List.mem_filterMap.mpr ⟨x, hx, hsame⟩, hzero⟩
    · by_cases ht : t = qtyOf x
      · exact Or.inr (Or.inr (hmk.trans ht))
      · rw [if_neg ht] at hafter
        exact Or.inr (Or.inl ⟨t, by omega, List.mem_filterMap.mpr ⟨x, hx, hafter⟩, hmk⟩)
  · refine Or.inl ⟨?_, makerQty_of_not_mem fun y hy hyx => ?_⟩
    · rwa [afterMatch, setSide_of_ne _ _ _ _ hside]
    · obtain ⟨hL, hb, -⟩ := h.unique hy hx hyx
      exact hside ⟨hL, hb⟩

/-- **The same, trade by trade**: an order that no trade names stays as it is, and one that a trade
names is cut down or gone. Without quantities to compare this is also right for empty orders. -/
theorem afterMatch_cases (h : RefsUnique R) {L' : ℕ} {b' : Bool} {x : OrderData}
    (hx : x ∈ R L' b') :
    (x ∈ afterMatch R L o L' b' ∧ ∀ p ∈ tradesOf R L o, p.1.orderId ≠ x.orderId) ∨
      (∃ t, t < qtyOf x ∧ (x, t) ∈ tradesOf R L o ∧ partly x t ∈ afterMatch R L o L' b') ∨
      ((x, qtyOf x) ∈ tradesOf R L o ∧ Fresh (afterMatch R L o) x.orderId) := by
  by_cases hside : L' = L ∧ b' = !o.side.isBuy
  · obtain ⟨rfl, rfl⟩ := hside
    rcases after_tradesOf h hx with ⟨hsame, -, hnot⟩ | ⟨t, hafter, hle, -, hmem⟩
    · rw [leftBehind_eq h]
      exact Or.inl ⟨List.mem_filterMap.mpr ⟨x, hx, hsame⟩, hnot⟩
    · by_cases ht : t = qtyOf x
      · subst ht
        rw [if_pos rfl] at hafter
        refine Or.inr (Or.inr ⟨hmem, fun L₂ b₂ y hy hid => ?_⟩)
        -- an order with this reference could only be what is left of `x`
        by_cases hside : L₂ = L' ∧ b₂ = !o.side.isBuy
        · obtain ⟨rfl, rfl⟩ := hside
          rw [leftBehind_eq h] at hy
          obtain ⟨z, hz, hzy⟩ := List.mem_filterMap.mp hy
          have hzid : y.orderId = z.orderId := by
            rcases after_tradesOf h hz with ⟨hsame, -⟩ | ⟨t', hafter', -⟩
            · rw [Option.some.inj (hsame.symm.trans hzy)]
            · rw [hafter'] at hzy
              split at hzy
              · exact absurd hzy (by simp)
              · exact Option.some.inj hzy ▸ rfl
          obtain ⟨-, -, rfl⟩ := h.unique hx hz (hid.symm.trans hzid)
          exact absurd (hafter.symm.trans hzy) (by simp)
        · rw [afterMatch, setSide_of_ne _ _ _ _ hside] at hy
          obtain ⟨hL, hb, -⟩ := h.unique hx hy hid.symm
          exact hside ⟨hL, hb⟩
      · rw [if_neg ht] at hafter
        rw [leftBehind_eq h]
        exact Or.inr (Or.inl ⟨t, by omega, hmem, List.mem_filterMap.mpr ⟨x, hx, hafter⟩⟩)
  · refine Or.inl ⟨?_, fun p hp hid => ?_⟩
    · rwa [afterMatch, setSide_of_ne _ _ _ _ hside]
    · obtain ⟨hL, hb, -⟩ := h.unique (mem_of_mem_tradesOf hp).1 hx hid
      exact hside ⟨hL, hb⟩

/-- **Where an order comes from** that rests after the trades of a call. -/
theorem mem_afterMatch_of (h : RefsUnique R) {L' : ℕ} {b' : Bool} {y : OrderData}
    (hy : y ∈ afterMatch R L o L' b') :
    ∃ x ∈ R L' b', (y = x ∧ makerQty x.orderId (tradeFrames R L o) = 0) ∨
      ∃ t, t < qtyOf x ∧ y = partly x t ∧ makerQty x.orderId (tradeFrames R L o) = t := by
  by_cases hside : L' = L ∧ b' = !o.side.isBuy
  · obtain ⟨rfl, rfl⟩ := hside
    rw [leftBehind_eq h] at hy
    obtain ⟨x, hx, hxy⟩ := List.mem_filterMap.mp hy
    refine ⟨x, hx, ?_⟩
    rcases after_tradesOf h hx with ⟨hsame, hzero, -⟩ | ⟨t, hafter, hle, hmk, -⟩
    · exact Or.inl ⟨(Option.some.inj (hsame.symm.trans hxy)).symm, hzero⟩
    · rw [hafter] at hxy
      split at hxy
      · exact absurd hxy (by simp)
      · next ht => exact Or.inr ⟨t, by omega, (Option.some.inj hxy).symm, hmk⟩
  · have hx : y ∈ R L' b' := by rwa [afterMatch, setSide_of_ne _ _ _ _ hside] at hy
    refine ⟨y, hx, Or.inl ⟨rfl, makerQty_of_not_mem fun z hz hzy => ?_⟩⟩
    obtain ⟨hL, hb, -⟩ := h.unique hz hx hzy
    exact hside ⟨hL, hb⟩

end Frames

end NebulaX.Exchange
