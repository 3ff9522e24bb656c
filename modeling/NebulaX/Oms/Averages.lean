import NebulaX.Lib.RunningMean
import NebulaX.Oms.Lifecycle

/-!
# Average prices

The order manager keeps the average price of what was filled of an order, and computes it anew with
every fill from the average before. The average is an integer, so every fill drops a remainder, and
the fills after it do not get it back.

Prices are not negative, and quantities and money stay within the signed integers: `Entry` has the
average as an integer of any size.

## Main results

* `averaged_after` — what the order manager keeps is the mean that is carried along
* `avgFillPrice_eq_iff` — it is the true average if and only if less than the quantity was lost
-/

namespace NebulaX

namespace Entry

variable {e : Entry} {q : UInt64}

/-- The quantity that is accepted fits in the order. -/
theorem toNat_newFilled (hle : e.filled.toNat ≤ e.order.quantity.toNat)
    (hsmall : e.order.quantity.toNat < 2 ^ 63) (hq : q.toNat < 2 ^ 63) :
    (e.newFilled q).toNat = e.filled.toNat + (e.accepts q).toNat ∧
      (e.newFilled q).toNat ≤ e.order.quantity.toNat := by
  have hsum : (e.filled + q).toNat = e.filled.toNat + q.toNat := by
    rw [UInt64.toNat_add]
    exact Nat.mod_eq_of_lt (by omega)
  rw [newFilled, accepts]
  split
  · rw [UInt64.toNat_sub_of_le _ _ (UInt64.le_iff_toNat_le.mpr hle)]
    omega
  · rename_i hfits
    rw [UInt64.lt_iff_toNat_lt, hsum] at hfits
    omega

/-- The fills of an entry: how many there were, and at which average. -/
structure Averaged (e : Entry) (xs : List (ℤ × ℕ)) : Prop where
  /-- No more was filled than was ordered. -/
  le : e.filled.toNat ≤ e.order.quantity.toNat
  /-- What was filled. -/
  filled : e.filled.toNat = RunningMean.weight xs
  /-- The average. -/
  average : e.avgFillPrice = RunningMean.mean xs

/-- **One fill more.** -/
theorem Averaged.fill {xs : List (ℤ × ℕ)} (h : e.Averaged xs) (hxs : ∀ x ∈ xs, 0 ≤ x.1)
    (hsmall : e.order.quantity.toNat < 2 ^ 63) (hq : q.toNat < 2 ^ 63) {p : Int64}
    (hp : 0 ≤ p.toInt) :
    (e.fill q p).Averaged (xs ++ [(p.toInt, (e.accepts q).toNat)]) := by
  obtain ⟨hnew, hle⟩ := toNat_newFilled h.le hsmall hq
  have hweight : (e.newFilled q).toNat =
      RunningMean.weight (xs ++ [(p.toInt, (e.accepts q).toNat)]) := by
    rw [RunningMean.weight_concat, ← h.filled, hnew]
  have hcost : e.avgFillPrice * toSigned e.filled + p.toInt * toSigned (e.accepts q) =
      RunningMean.mean xs * RunningMean.weight xs + p.toInt * ((e.accepts q).toNat : ℤ) := by
    rw [toSigned_eq (by omega), toSigned_eq (by omega), h.average, h.filled]
  have hnonneg : 0 ≤ RunningMean.mean xs * RunningMean.weight xs +
      p.toInt * ((e.accepts q).toNat : ℤ) :=
    add_nonneg (mul_nonneg (RunningMean.mean_nonneg hxs) (Int.natCast_nonneg _))
      (mul_nonneg hp (Int.natCast_nonneg _))
  refine ⟨hle, hweight, ?_⟩
  rw [RunningMean.mean_concat, ← hweight]
  show (if e.newFilled q = 0 then 0
    else (e.avgFillPrice * toSigned e.filled + p.toInt * toSigned (e.accepts q)).tdiv
      (toSigned (e.newFilled q))) = _
  split
  · rename_i hzero
    rw [hzero]
    exact (Int.ediv_zero _).symm
  · rw [hcost, Int.tdiv_eq_ediv_of_nonneg hnonneg, toSigned_eq (by omega)]

/-- A report that is no fill. -/
theorem Averaged.same {e' : Entry} {xs : List (ℤ × ℕ)} (h : e.Averaged xs)
    (horder : e'.order = e.order) (hfilled : e'.filled = e.filled)
    (haverage : e'.avgFillPrice = e.avgFillPrice) : e'.Averaged xs where
  le := by rw [horder, hfilled]; exact h.le
  filled := by rw [hfilled]; exact h.filled
  average := by rw [haverage]; exact h.average

end Entry

namespace OrderManager

/-- The fill of an order that a call makes: its price, and the quantity that is accepted. A report
for an order that is not live is ignored. -/
def fillOf (om : OrderManager) (id : ℕ) : Call → List (ℤ × ℕ)
  | .onFill id' filledQty fillPrice =>
    if id' = id then
      match om.orders id with
      | none => []
      | some e => if e.status.live then [(fillPrice.toInt, (e.accepts filledQty).toNat)] else []
    else []
  | .newOrder _ | .onAccept .. | .requestCancel _ | .onCancel _ | .onReject _ => []

/-- The fills of an order that some calls make, one after the other. -/
def fillsOf (id : ℕ) : OrderManager → List Call → List (ℤ × ℕ)
  | _, [] => []
  | om, c :: cs => om.fillOf id c ++ fillsOf id (om.step c) cs

/-- The reports of fills of an order: prices that are not negative, and signed quantities. -/
def Call.ProperFor (id : ℕ) : Call → Prop
  | .onFill id' filledQty fillPrice => id' = id → filledQty.toNat < 2 ^ 63 ∧ 0 ≤ fillPrice.toInt
  | .newOrder _ | .onAccept .. | .requestCancel _ | .onCancel _ | .onReject _ => True

instance (id : ℕ) (c : Call) : Decidable (c.ProperFor id) :=
  match c with
  | .onFill id' filledQty fillPrice => inferInstanceAs (Decidable (id' = id →
      filledQty.toNat < 2 ^ 63 ∧ 0 ≤ fillPrice.toInt))
  | .newOrder _ | .onAccept .. | .requestCancel _ | .onCancel _ | .onReject _ => .isTrue trivial

/-- What is true of an order whose fills were `xs`. -/
structure Averages (om : OrderManager) (id : ℕ) (xs : List (ℤ × ℕ)) : Prop where
  /-- Keys are below the next id. -/
  keyed : Keyed om
  /-- Prices are not negative. -/
  nonneg : ∀ x ∈ xs, 0 ≤ x.1
  /-- No order, no fills. -/
  none : om.orders id = none → xs = []
  /-- The entry of the order. -/
  some : ∀ e, om.orders id = some e → e.order.quantity.toNat < 2 ^ 63 → e.Averaged xs

theorem averages_new (visits : VisitOrder) (base id : ℕ) :
    Averages { visits := visits, nextId := base } id [] where
  keyed := keyed_new visits base
  nonneg _ hx := absurd hx List.not_mem_nil
  none _ := rfl
  some _ he := absurd he.symm (Option.some_ne_none _)

section

variable {om om' : OrderManager} {id : ℕ} {xs : List (ℤ × ℕ)}

/-- A new order. -/
theorem Averages.newOrder (h : Averages om id xs) (order : Order) :
    Averages (om.newOrder order).2 id xs := by
  have hself : id = om.nextId → xs = [] := fun hid => h.none (by rw [hid]; exact h.keyed.next_none)
  refine ⟨h.keyed.newOrder order, h.nonneg, fun hnone => ?_, fun e he hsmall => ?_⟩
  · rw [newOrder_orders, Function.update_apply] at hnone
    split at hnone
    · exact absurd hnone (Option.some_ne_none _)
    · exact h.none hnone
  · rw [newOrder_orders, Function.update_apply] at he
    split at he
    · rename_i hid
      rw [hself hid, ← Option.some.inj he]
      exact ⟨Nat.zero_le _, rfl, rfl⟩
    · exact h.some e he hsmall

/-- A report that is no fill of the order. -/
theorem Averages.quiet {id' : ℕ} {g : Entry → Entry} (h : Averages om id xs)
    (hrev : Revises om om' id' g)
    (hg : id' = id → ∀ e, (g e).order = e.order ∧ (g e).filled = e.filled ∧
      (g e).avgFillPrice = e.avgFillPrice) : Averages om' id xs := by
  rcases eq_or_ne id id' with rfl | hne
  · have hself := hrev.self
    refine ⟨hrev.keyed h.keyed, h.nonneg, fun hnone => ?_, fun e' he' hsmall => ?_⟩
    · rw [hself, Option.map_eq_none_iff] at hnone
      exact h.none hnone
    · rw [hself] at he'
      obtain ⟨e, he, rfl⟩ := Option.map_eq_some_iff.mp he'
      obtain ⟨horder, hfilled, haverage⟩ := hg rfl e
      rw [horder] at hsmall
      exact (h.some e he hsmall).same horder hfilled haverage
  · have hother := hrev.of_ne hne
    refine ⟨hrev.keyed h.keyed, h.nonneg, fun hnone => ?_, fun e he => ?_⟩
    · rw [hother] at hnone
      exact h.none hnone
    · rw [hother] at he
      exact h.some e he

/-- A fill of the order. -/
theorem Averages.onFill (h : Averages om id xs) {q : UInt64} {p : Int64} (hq : q.toNat < 2 ^ 63)
    (hp : 0 ≤ p.toInt) :
    Averages (om.onFill id q p) id (xs ++ om.fillOf id (.onFill id q p)) := by
  have hrev := om.onFill_revises id q p
  have hself := hrev.self
  rw [fillOf, if_pos rfl]
  cases he : om.orders id with
  | none =>
    rw [he] at hself
    dsimp only
    rw [List.append_nil]
    refine ⟨hrev.keyed h.keyed, h.nonneg, fun _ => h.none he, fun e' he' => ?_⟩
    rw [hself] at he'
    exact absurd he'.symm (Option.some_ne_none _)
  | some e =>
    rw [he] at hself
    dsimp only
    by_cases hlive : e.status.live = true
    · have hfilled : e.filledWith q p = e.fill q p := by rw [Entry.filledWith, if_pos hlive]
      rw [if_pos hlive]
      refine ⟨hrev.keyed h.keyed, fun x hx => ?_, fun hnone => ?_, fun e' he' hsmall => ?_⟩
      · rcases List.mem_append.mp hx with hx | hx
        · exact h.nonneg x hx
        · rw [List.mem_singleton.mp hx]
          exact hp
      · rw [hself] at hnone
        exact absurd hnone (Option.some_ne_none _)
      · rw [hself] at he'
        obtain rfl := Option.some.inj he'
        rw [Entry.filledWith_order] at hsmall
        have hfill := (h.some e he hsmall).fill h.nonneg hsmall hq hp
        rw [← hfilled] at hfill
        exact hfill
    · -- the report is ignored
      have hfilled : e.filledWith q p = e := by rw [Entry.filledWith, if_neg hlive]
      rw [if_neg hlive, List.append_nil]
      refine ⟨hrev.keyed h.keyed, h.nonneg, fun hnone => ?_, fun e' he' hsmall => ?_⟩
      · rw [hself] at hnone
        exact absurd hnone (Option.some_ne_none _)
      · rw [hself, Option.map_some, hfilled] at he'
        obtain rfl := Option.some.inj he'
        exact h.some e he hsmall

/-- **A call.** -/
theorem Averages.step (h : Averages om id xs) {c : Call} (hc : c.ProperFor id) :
    Averages (om.step c) id (xs ++ om.fillOf id c) := by
  cases c with
  | newOrder order =>
    rw [fillOf, List.append_nil]
    exact h.newOrder order
  | onAccept id' ref =>
    rw [fillOf, List.append_nil]
    exact h.quiet (om.onAccept_revises id' ref) fun _ e => by
      rw [Entry.accepted]
      split <;> exact ⟨rfl, rfl, rfl⟩
  | onFill id' q p =>
    rcases eq_or_ne id' id with rfl | hne
    · obtain ⟨hq, hp⟩ := hc rfl
      exact h.onFill hq hp
    · rw [fillOf, if_neg hne, List.append_nil]
      exact h.quiet (om.onFill_revises id' q p) fun heq => absurd heq hne
  | requestCancel id' =>
    rw [fillOf, List.append_nil]
    exact h.quiet (om.requestCancel_revises id') fun _ e => by
      rw [Entry.cancelRequested]
      split <;> exact ⟨rfl, rfl, rfl⟩
  | onCancel id' =>
    rw [fillOf, List.append_nil]
    exact h.quiet (om.onCancel_revises id') fun _ e => by
      rw [Entry.cancelConfirmed]
      split <;> exact ⟨rfl, rfl, rfl⟩
  | onReject id' =>
    rw [fillOf, List.append_nil]
    exact h.quiet (om.onReject_revises id') fun _ e => by
      rw [Entry.rejected]
      split <;> exact ⟨rfl, rfl, rfl⟩

/-- **After any calls** the order manager keeps the mean of the fills that is carried along. -/
theorem Averages.after (h : Averages om id xs) {cs : List Call} (hcs : ∀ c ∈ cs, c.ProperFor id) :
    Averages (cs.foldl OrderManager.step om) id (xs ++ fillsOf id om cs) := by
  induction cs generalizing om xs with
  | nil =>
    rw [fillsOf, List.append_nil]
    exact h
  | cons c cs ih =>
    rw [fillsOf, ← List.append_assoc]
    exact ih (h.step (hcs c List.mem_cons_self)) fun c' hc' => hcs c' (List.mem_cons_of_mem c hc')

end

/-- **When the average is the true one:** after any calls, the average of an order that was filled
is the sum of its fills, each price as often as its quantity says, by the quantity, rounded down,
if and only if less than that quantity was lost in the divisions. -/
theorem avgFillPrice_eq_iff (visits : VisitOrder) (base id : ℕ) {cs : List Call}
    (hcs : ∀ c ∈ cs, c.ProperFor id) {e : Entry}
    (he : (cs.foldl step { visits := visits, nextId := base }).orders id = some e)
    (hsmall : e.order.quantity.toNat < 2 ^ 63)
    (hfilled : 0 < RunningMean.weight (fillsOf id { visits := visits, nextId := base } cs)) :
    e.avgFillPrice = RunningMean.total (fillsOf id { visits := visits, nextId := base } cs) /
        (RunningMean.weight (fillsOf id { visits := visits, nextId := base } cs) : ℤ) ↔
      RunningMean.lost (fillsOf id { visits := visits, nextId := base } cs) <
        RunningMean.weight (fillsOf id { visits := visits, nextId := base } cs) := by
  have h := (averages_new visits base id).after hcs
  rw [List.nil_append] at h
  rw [(h.some e he hsmall).average]
  exact RunningMean.mean_eq_iff hfilled

/-- Two fills with an average that is an integer: nothing is lost. -/
theorem avgFillPrice_eq_iff_two :
    let cs := [Call.newOrder { symbolId := 3, side := .buy, price := 300000, quantity := 100 },
      .onAccept 1000 0, .onFill 1000 40 300000, .onFill 1000 60 300500]
    let fs := fillsOf 1000 { nextId := 1000 } cs
    ∃ e, (cs.foldl step { nextId := 1000 }).orders 1000 = some e ∧ e.avgFillPrice = 300300 ∧
      (e.avgFillPrice = RunningMean.total fs / (RunningMean.weight fs : ℤ) ↔
        RunningMean.lost fs < RunningMean.weight fs) := by
  intro cs fs
  have he : ∃ e, (cs.foldl step { nextId := 1000 }).orders 1000 = some e ∧
      e.avgFillPrice = 300300 ∧ e.order.quantity.toNat < 2 ^ 63 := ⟨_, rfl, by decide +kernel⟩
  obtain ⟨e, he, haverage, hsmall⟩ := he
  exact ⟨e, he, haverage, @avgFillPrice_eq_iff .inserted 1000 1000 cs (by decide) e he hsmall
    (by decide +kernel)⟩

/-- Three fills of one share each: half a tick is lost in the second division, and the third one
drops the rest. -/
theorem avgFillPrice_three :
    let cs := [Call.newOrder { quantity := 3 }, .onAccept 1 0, .onFill 1 1 300001,
      .onFill 1 1 300000, .onFill 1 1 300002]
    (∀ c ∈ cs, c.ProperFor 1) ∧
      fillsOf 1 {} cs = [(300001, 1), (300000, 1), (300002, 1)] ∧
      ((cs.foldl step {}).orders 1).map Entry.avgFillPrice = some 300000 ∧
      RunningMean.total (fillsOf 1 {} cs) / (RunningMean.weight (fillsOf 1 {} cs) : ℤ) =
        300001 := by
  decide +kernel

end OrderManager

end NebulaX
