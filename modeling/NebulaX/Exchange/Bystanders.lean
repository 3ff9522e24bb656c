import NebulaX.Exchange.Conservation

/-!
# Orders that a call does not name

A call may name a resting order, to cancel it or to replace it, and it may bring in an order. To
every other order it does one thing: it trades with it. So what is left of such an order, and
whether anything is, can be read off the trades among the answers.

## Main results

* `Effect.before`, `Effect.after` — an order that a call does not name is cut by its trades
* `Effect.rests_iff` — and is gone once they used it up
-/

namespace NebulaX.Exchange

open MatchingEngine

/-- An order with this reference rests. -/
def Rests (R : Resting) (ref : ℕ) : Prop := ∃ L b, ∃ x ∈ R L b, x.orderId = ref

theorem not_rests_iff {R : Resting} {ref : ℕ} : ¬ Rests R ref ↔ Fresh R ref := by
  constructor
  · intro h L b x hx hid
    exact h ⟨L, b, x, hx, hid⟩
  · rintro h ⟨L, b, x, hx, hid⟩
    exact h L b x hx hid

/-- The resting order that a call names. -/
def Command.target : Command → Option ℕ
  | .add .. => none
  | .cancel _ ref _ => some ref
  | .cancelShares _ ref _ _ => some ref
  | .replace _ oldRef .. => some oldRef

/-- `y` is `x` after it traded `t` as a maker. -/
structure CutBy (t : ℕ) (x y : OrderData) : Prop where
  /-- It keeps its reference, -/
  orderId : y.orderId = x.orderId
  /-- its user, -/
  userId : y.userId = x.userId
  /-- its side -/
  side : y.side = x.side
  /-- and its price. -/
  price : y.price = x.price
  /-- What it traded is gone. -/
  qty : qtyOf y + t = qtyOf x
  /-- An order that is used up does not stay. -/
  pos : 0 < qtyOf x → 0 < qtyOf y

theorem CutBy.refl (x : OrderData) : CutBy 0 x x := ⟨rfl, rfl, rfl, rfl, rfl, id⟩

theorem qtyOf_partly {x : OrderData} {t : ℕ} (ht : t ≤ qtyOf x) :
    qtyOf (partly x t) = qtyOf x - t := by
  have hlt := qtyOf_lt x
  rw [qtyOf] at ht hlt
  have hq : (UInt32.ofNat t).toNat = t := by
    rw [UInt32.toNat_ofNat', Nat.mod_eq_of_lt (by omega)]
  show (x.remainingQty - UInt32.ofNat t).toNat = x.remainingQty.toNat - t
  rw [UInt32.toNat_sub_of_le _ _ (UInt32.le_iff_toNat_le.mpr (by omega)), hq]

theorem cutBy_partly {x : OrderData} {t : ℕ} (ht : t < qtyOf x) : CutBy t x (partly x t) := by
  have hqty := qtyOf_partly (Nat.le_of_lt ht)
  exact ⟨rfl, rfl, rfl, rfl, by omega, fun _ => by omega⟩

/-! ### An incoming order -/

section Arrival

variable {R R' : Resting} {L : ℕ} {o : OrderData} {stays : Bool} {rsp : List BinaryResponse}

/-- Beside the order that comes in, what rests after an arrival rested before. -/
theorem Arrival.before (ha : Arrival R L o stays rsp R') (hR : RefsUnique R) {L' : ℕ} {b : Bool}
    {y : OrderData} (hy : y ∈ R' L' b) (hne : y.orderId ≠ o.orderId) :
    ∃ x ∈ R L' b, CutBy (makerQty y.orderId rsp) x y := by
  rcases ha.mem_cases hy with hy | ⟨rfl, -⟩
  · rw [ha.makerQty_eq]
    obtain ⟨x, hx, ⟨rfl, hzero⟩ | ⟨t, ht, rfl, hmk⟩⟩ := mem_afterMatch_of hR hy
    · exact ⟨y, hx, hzero ▸ CutBy.refl y⟩
    · refine ⟨x, hx, ?_⟩
      show CutBy (makerQty x.orderId _) x _
      rw [hmk]
      exact cutBy_partly ht
  · exact absurd (afterFills_orderId ..) hne

/-- What rested before an arrival rests after it, unless the trades used it up. -/
theorem Arrival.after (ha : Arrival R L o stays rsp R') (hR : RefsUnique R) {L' : ℕ} {b : Bool}
    {x : OrderData} (hx : x ∈ R L' b) :
    (∃ y ∈ R' L' b, CutBy (makerQty x.orderId rsp) x y) ∨ makerQty x.orderId rsp = qtyOf x := by
  rw [ha.makerQty_eq]
  rcases afterMatch_of_mem (L := L) (o := o) hR hx with ⟨hy, hzero⟩ | ⟨t, ht, hy, hmk⟩ | hall
  · exact Or.inl ⟨x, ha.mem_of_afterMatch hy, hzero ▸ CutBy.refl x⟩
  · refine Or.inl ⟨_, ha.mem_of_afterMatch hy, ?_⟩
    rw [hmk]
    exact cutBy_partly ht
  · exact Or.inr hall

end Arrival

/-! ### Calls -/

section Effect

variable {e : MatchingEngine} {c : Command} {rsp : List BinaryResponse} {R' : Resting} {ref : ℕ}

/-- **Where an order comes from** that a call does not name. -/
theorem Effect.before (heff : Effect e c rsp R') (hinv : Inv e) (hnew : c.newRef ≠ some ref)
    (htarget : c.target ≠ some ref) {L : ℕ} {b : Bool} {y : OrderData} (hy : y ∈ R' L b)
    (hid : y.orderId = ref) : ∃ x ∈ e.resting L b, CutBy (makerQty ref rsp) x y := by
  have hR := hinv.refsUnique
  subst hid
  cases heff with
  | rejected => exact ⟨y, hy, CutBy.refl y⟩
  | killed => exact ⟨y, hy, CutBy.refl y⟩
  | added _ ha => exact ha.before hR hy fun he => hnew (congrArg some he.symm)
  | cancelled => exact ⟨y, mem_leave hy, CutBy.refl y⟩
  | cancelRefused => exact ⟨y, hy, CutBy.refl y⟩
  | sharesAll => exact ⟨y, mem_leave hy, CutBy.refl y⟩
  | sharesPart =>
    rcases mem_shrink hy with ⟨hy, -⟩ | ⟨z, -, -, -, hzid, rfl⟩
    · exact ⟨y, hy, CutBy.refl y⟩
    · exact absurd (congrArg some hzid.symm) htarget
  | sharesRefused => exact ⟨y, hy, CutBy.refl y⟩
  | replaced _ _ _ ha =>
    obtain ⟨x, hx, hcut⟩ := ha.before (hR.leave _ _ _) hy fun he => hnew (congrArg some he.symm)
    exact ⟨x, mem_leave hx, hcut⟩
  | replaceRefused => exact ⟨y, hy, CutBy.refl y⟩

/-- **What becomes of an order** that a call does not name. -/
theorem Effect.after (heff : Effect e c rsp R') (hinv : Inv e) (htarget : c.target ≠ some ref)
    {L : ℕ} {b : Bool} {x : OrderData} (hx : x ∈ e.resting L b) (hid : x.orderId = ref) :
    (∃ y ∈ R' L b, CutBy (makerQty ref rsp) x y) ∨ makerQty ref rsp = qtyOf x := by
  have hR := hinv.refsUnique
  subst hid
  cases heff with
  | rejected => exact Or.inl ⟨x, hx, CutBy.refl x⟩
  | killed => exact Or.inl ⟨x, hx, CutBy.refl x⟩
  | added _ ha => exact ha.after hR hx
  | cancelled =>
    have hne := fun he : x.orderId = _ => htarget (congrArg some he.symm)
    exact Or.inl ⟨x, mem_leave_of_ne hx hne, CutBy.refl x⟩
  | cancelRefused => exact Or.inl ⟨x, hx, CutBy.refl x⟩
  | sharesAll =>
    have hne := fun he : x.orderId = _ => htarget (congrArg some he.symm)
    exact Or.inl ⟨x, mem_leave_of_ne hx hne, CutBy.refl x⟩
  | sharesPart =>
    have hne := fun he : x.orderId = _ => htarget (congrArg some he.symm)
    exact Or.inl ⟨x, mem_shrink_of_ne hx hne, CutBy.refl x⟩
  | sharesRefused => exact Or.inl ⟨x, hx, CutBy.refl x⟩
  | replaced _ _ _ ha =>
    have hne := fun he : x.orderId = _ => htarget (congrArg some he.symm)
    exact ha.after (hR.leave _ _ _) (mem_leave_of_ne hx hne)
  | replaceRefused => exact Or.inl ⟨x, hx, CutBy.refl x⟩

/-- **An order is gone** after a call that does not name it if its trades used it up, and only
then. -/
theorem Effect.rests_iff (heff : Effect e c rsp R') (hinv : Inv e) (hnew : c.newRef ≠ some ref)
    (htarget : c.target ≠ some ref) {L : ℕ} {b : Bool} {x : OrderData} (hx : x ∈ e.resting L b)
    (hid : x.orderId = ref) (hpos : 0 < qtyOf x) :
    Rests R' ref ↔ makerQty ref rsp ≠ qtyOf x := by
  constructor
  · rintro ⟨L', b', y, hy, hyid⟩ hall
    obtain ⟨z, hz, hcut⟩ := heff.before hinv hnew htarget hy hyid
    obtain ⟨-, -, rfl⟩ := hinv.refsUnique.unique hx hz (hid.trans (hyid.symm.trans hcut.orderId))
    have hleft := hcut.pos hpos
    have hqty := hcut.qty
    omega
  · intro hsome
    rcases heff.after hinv htarget hx hid with ⟨y, hy, hcut⟩ | hall
    · exact ⟨L, b, y, hy, hcut.orderId.trans hid⟩
    · exact absurd hall hsome

/-- A call that does not name a reference does not bring it in. -/
theorem Effect.fresh (heff : Effect e c rsp R') (hinv : Inv e) (hnew : c.newRef ≠ some ref)
    (htarget : c.target ≠ some ref) (hfresh : Fresh e.resting ref) : Fresh R' ref := by
  intro L b y hy hid
  obtain ⟨x, hx, hcut⟩ := heff.before hinv hnew htarget hy hid
  exact hfresh L b x hx (hcut.orderId.symm.trans hid)

end Effect

end NebulaX.Exchange
