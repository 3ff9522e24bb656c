import NebulaX.Exchange.Bystanders
import NebulaX.Exchange.Uncrossed

/-!
# Invariants of single orders

Most of what is to be known about the resting orders is a property of each of them alone. Trades
and partial cancels change an order only while something of it is left, so such a property is kept
if it survives these two (`Survives`) and holds of what comes in. `Effect.every` is the rule.

`ReachableBy` are the states of runs whose calls all satisfy a condition besides the contract.

## Main results

* `Effect.every` — a call keeps what survives, if it holds of the order that comes in
* `ReachableBy.positive` — something is left of every resting order, if every replace asks for
  something
-/

namespace NebulaX.Exchange

open MatchingEngine

/-- Every resting order satisfies `P`. -/
def Every (P : OrderData → Prop) (R : Resting) : Prop := ∀ L b, ∀ x ∈ R L b, P x

/-- `P` survives a trade or a partial cancel that leaves something of the order. -/
structure Survives (P : OrderData → Prop) : Prop where
  /-- A trade. -/
  partly : ∀ {x : OrderData} {t : ℕ}, P x → 0 < t → t < qtyOf x → P (partly x t)
  /-- A partial cancel. -/
  reduce : ∀ {x : OrderData} {q : UInt32}, P x → q < x.remainingQty → P (x.reduce q)

/-- The order that comes in with a call and may hang in the book, and what rests where it comes
in. -/
inductive Arrives (e : MatchingEngine) : Command → Resting → ℕ → OrderData → Prop
  | add {L ref : ℕ} {side : Side} {price quantity : UInt32} {user : ℕ}
      (hvalid : addError L ref side price quantity user .day = none) :
    Arrives e (.add L ref side price quantity user .day) e.resting L
      (e.newOrder ref side price quantity user)
  | replace {L oldRef newRef : ℕ} {side : Side} {price quantity : UInt32} {user : ℕ} {b : Bool}
      {x : OrderData} (hx : x ∈ e.resting L b) (hid : x.orderId = oldRef)
      (huser : x.userId = user) (hside : side ≠ .invalid) :
    Arrives e (.replace L oldRef newRef side price quantity user) (leave e.resting L b oldRef) L
      (e.newOrder newRef side price quantity newRef)

section Every

variable {P : OrderData → Prop} {R R' : Resting}

theorem Every.leave (h : Every P R) (L : ℕ) (b : Bool) (ref : ℕ) : Every P (leave R L b ref) :=
  fun _ _ x hx => h _ _ x (mem_leave hx)

theorem Every.afterMatch (hP : Survives P) (h : Every P R) (L : ℕ) (o : OrderData) :
    Every P (afterMatch R L o) := by
  intro L' b' x hx
  rcases mem_afterMatch hx with hx | ⟨y, hy, t, ht0, ht, rfl⟩
  · exact h L' b' x hx
  · exact hP.partly (h L' b' y hy) ht0 ht

theorem Every.shrink (hP : Survives P) (h : Every P R) {L : ℕ} {b : Bool} {ref : ℕ} {q : UInt32}
    (hlt : ∀ y ∈ R L b, y.orderId = ref → q < y.remainingQty) : Every P (shrink R L b ref q) := by
  intro L' b' x hx
  rcases mem_shrink hx with ⟨hx, -⟩ | ⟨y, hy, rfl, rfl, hid, rfl⟩
  · exact h L' b' x hx
  · exact hP.reduce (h L' b' y hy) (hlt y hy hid)

theorem Every.arrival (hP : Survives P) (h : Every P R) {L : ℕ} {o : OrderData} {stays : Bool}
    {rsp : List BinaryResponse} (ha : Arrival R L o stays rsp R')
    (hrest : stays = true → (residual R L o).status ≠ .filled → P (residual R L o)) :
    Every P R' := by
  cases ha with
  | filled => exact h.afterMatch hP L o
  | rests hopen hstays hside =>
    intro L' b' x hx
    rcases mem_enter.mp hx with ⟨-, -, rfl⟩ | hx
    · exact hrest hstays hopen
    · exact h.afterMatch hP L o L' b' x hx
  | dropped => exact h.afterMatch hP L o

end Every

@[simp] theorem effectivePrice_day (side : Side) (price : UInt32) :
    effectivePrice side .day price = price := by
  simp [effectivePrice, isMarket]

/-- **A call keeps what survives**, if it holds of what is left of the order that comes in. -/
theorem Effect.every {P : OrderData → Prop} (hP : Survives P) {e : MatchingEngine} (hinv : Inv e)
    {c : Command} {rsp : List BinaryResponse} {R' : Resting} (heff : Effect e c rsp R')
    (h : Every P e.resting)
    (hrest : ∀ R L o, Arrives e c R L o → (residual R L o).status ≠ .filled →
      P (residual R L o)) : Every P R' := by
  cases heff with
  | rejected => exact h
  | killed => exact h
  | @added L ref side price quantity user tif rsp R' hvalid ha =>
    refine h.arrival hP ha fun hstays hopen => ?_
    obtain rfl : tif = .day := of_decide_eq_true ((Bool.and_eq_true _ _).mp hstays).1
    rw [effectivePrice_day] at hopen ⊢
    exact hrest _ _ _ (.add hvalid) hopen
  | cancelled => exact h.leave _ _ _
  | cancelRefused => exact h
  | sharesAll => exact h.leave _ _ _
  | sharesPart hx hid _ hlt =>
    refine h.shrink hP fun y hy hyid => ?_
    obtain ⟨-, -, rfl⟩ := hinv.refsUnique.unique hx hy (hid.trans hyid.symm)
    exact hlt
  | sharesRefused => exact h
  | replaced hx hid huser ha =>
    refine (h.leave _ _ _).arrival hP ha fun hstays hopen => ?_
    exact hrest _ _ _ (.replace hx hid huser (of_decide_eq_true hstays)) hopen
  | replaceRefused => exact h

/-! ### Runs under a condition -/

/-- The states an engine can get into when every call also satisfies `ok`. -/
inductive ReachableBy (ok : MatchingEngine → Command → Prop) : MatchingEngine → Prop
  | start (capacity : ℕ) (wal : Option WalWriter) (tradePool : Option TradePool)
      (hlo : 2 ≤ capacity) (hhi : capacity ≤ 2 ^ 31) :
      ReachableBy ok { new capacity with wal := wal, tradePool := tradePool }
  | call {e e' : MatchingEngine} {rsp : List BinaryResponse} (c : Command) (h : ReachableBy ok e)
      (hc : c.Allowed e.resting) (hok : ok e c) (hexec : e.exec c = some (rsp, e')) :
      ReachableBy ok e'

theorem ReachableBy.reachable {ok : MatchingEngine → Command → Prop} {e : MatchingEngine}
    (h : ReachableBy ok e) : Reachable e := by
  induction h with
  | start capacity wal tradePool hlo hhi => exact .start capacity wal tradePool hlo hhi
  | call c _ hc _ hexec ih => exact ih.call c hc hexec

/-- A pool has slots. -/
theorem Reachable.capacity_pos {e : MatchingEngine} (h : Reachable e) :
    0 < e.shared.pool.capacity := by
  induction h with
  | start capacity wal tradePool hlo hhi => exact Nat.lt_of_lt_of_le (by decide) hlo
  | call c he hc hexec ih =>
    obtain ⟨rsp, e', hexec', hkeeps⟩ := exec_keeps he.inv hc
    rw [hexec] at hexec'
    obtain ⟨-, rfl⟩ := Prod.mk.inj (Option.some.inj hexec')
    rw [hkeeps.capacity]
    exact ih

/-- A run under a condition can go on with calls that satisfy it and pass the test of the
contract. -/
theorem ReachableBy.execAll {ok : MatchingEngine → Command → Prop} {e : MatchingEngine}
    (h : ReachableBy ok e) {cs : List Command} (hcs : e.checkAll cs = true)
    (hok : ∀ c ∈ cs, ∀ e, ok e c) : ∃ e', e.execAll cs = some e' ∧ ReachableBy ok e' := by
  induction cs generalizing e with
  | nil => exact ⟨e, rfl, h⟩
  | cons c cs ih =>
    obtain ⟨hc, hcs⟩ := (Bool.and_eq_true _ _).mp hcs
    have hallowed := Command.allowed_of_check h.reachable.inv hc
    obtain ⟨rsp, e₁, hexec, -⟩ := h.reachable.exec hallowed
    rw [hexec] at hcs
    obtain ⟨e', hrun, he'⟩ := ih (h.call c hallowed (hok c List.mem_cons_self e) hexec) hcs
      fun c hc => hok c (List.mem_cons_of_mem _ hc)
    refine ⟨e', ?_, he'⟩
    rw [MatchingEngine.execAll, hexec]
    exact hrun

/-! ### Something is left -/

/-- Something is left of every resting order. -/
def Positive : Resting → Prop := Every fun x => 0 < qtyOf x

theorem survives_positive : Survives fun x => 0 < qtyOf x where
  partly := by
    intro x t _ ht0 ht
    rw [qtyOf_partly (Nat.le_of_lt ht)]
    omega
  reduce := by
    intro x q _ hq
    have hlt := UInt32.lt_iff_toNat_lt.mp hq
    show 0 < (x.remainingQty - q).toNat
    rw [UInt32.toNat_sub_of_le _ _ (UInt32.le_of_lt hq)]
    omega

/-- The rest of an order that was not filled is not empty. -/
theorem qtyOf_residual_pos {R : Resting} {L : ℕ} {o : OrderData} (hq : 0 < qtyOf o)
    (hopen : (residual R L o).status ≠ .filled) : 0 < qtyOf (residual R L o) := by
  rw [residual] at hopen ⊢
  rw [qtyOf_afterFills]
  rw [afterFills] at hopen
  split at hopen
  · next hnil =>
    rw [hnil]
    exact hq
  · rw [OrderData.filledBy] at hopen
    by_contra hzero
    exact hopen (if_pos (by omega))

/-- A replace brings in an order with something to trade. An add without is turned down. -/
def Command.Positive : Command → Prop
  | .replace _ _ _ _ _ quantity _ => 0 < quantity
  | .add .. | .cancel .. | .cancelShares .. => True

/-- The order that comes in has something to trade. -/
theorem Arrives.positive {e : MatchingEngine} {c : Command} {R : Resting} {L : ℕ} {o : OrderData}
    (ha : Arrives e c R L o) (hpos : c.Positive) : 0 < qtyOf o := by
  cases ha with
  | add hvalid => exact Nat.pos_of_ne_zero (valid_of_addError hvalid).2.1
  | replace => exact UInt32.lt_iff_toNat_lt.mp hpos

theorem Effect.positive {e : MatchingEngine} (hinv : Inv e) {c : Command}
    {rsp : List BinaryResponse} {R' : Resting} (heff : Effect e c rsp R') (hpos : c.Positive)
    (h : Positive e.resting) : Positive R' :=
  heff.every survives_positive hinv h fun _ _ _ ha hopen =>
    qtyOf_residual_pos (ha.positive hpos) hopen

/-- **Something is left of every resting order** while every replace asks for something. -/
theorem ReachableBy.positive {e : MatchingEngine}
    (h : ReachableBy (fun _ c => c.Positive) e) : Positive e.resting := by
  induction h with
  | start capacity wal tradePool hlo hhi =>
    intro L b x hx
    rw [resting_new rfl] at hx
    exact absurd hx List.not_mem_nil
  | call c he hc hok hexec ih =>
    have hinv := he.reachable.inv
    exact (effect_of_exec hinv hc hexec).positive hinv hok ih

end NebulaX.Exchange
