import NebulaX.Exchange.Effects

/-!
# Quantities are conserved

What a resting order has left, what it traded and what was cancelled of it add up to what it came
with. The order itself only keeps the first two. The third, and the trades as the frames report
them, are read off the history of the run: `account` goes back to the call in which the order was
hung in the book and adds up what the calls since then say about its reference.

A reference may be used again once its order is gone, so the account starts anew with every call
that hangs an order of that reference in the book.

## Main results

* `Effect.balanced` — every call keeps the books balanced
* `quantity_conserved` — the balance of every resting order, and the only ways its remaining
  quantity goes down
-/

namespace NebulaX.Exchange

open MatchingEngine

/-! ### Histories -/

/-- A call and its answer. -/
structure Event where
  /-- The call. -/
  command : Command
  /-- The frames it answered with. -/
  frames : List BinaryResponse

/-- The event hung an order with this reference in the book. -/
def Event.hangs (ev : Event) (ref : ℕ) : Prop :=
  ev.command.newRef = some ref ∧ .ok ref ∈ ev.frames

instance (ev : Event) (ref : ℕ) : Decidable (ev.hangs ref) :=
  inferInstanceAs (Decidable (_ ∧ _))

/-- What a partial cancel took off the order with this reference. -/
def Event.cutFrom (ev : Event) (ref : ℕ) : ℕ :=
  match ev.command with
  | .cancelShares _ orderRef shares _ =>
    if orderRef = ref ∧ .ok ref ∈ ev.frames then shares.toNat else 0
  | .add .. | .cancel .. | .replace .. => 0

/-- What a history says about the order that rests under a reference. -/
structure Account where
  /-- The sum of its trades, as the taker or the maker. -/
  traded : ℕ := 0
  /-- The sum of the partial cancels. -/
  cancelled : ℕ := 0

/-- The account of a reference, from a history with the latest event first. -/
def account (ref : ℕ) : List Event → Account
  | [] => {}
  | ev :: past =>
    if ev.hangs ref then { traded := takerQty ev.frames }
    else { traded := (account ref past).traded + makerQty ref ev.frames
           cancelled := (account ref past).cancelled + ev.cutFrom ref }

/-- The runs of an engine under the contract, with their histories. -/
inductive Run : MatchingEngine → List Event → Prop
  | start (capacity : ℕ) (wal : Option WalWriter) (tradePool : Option TradePool)
      (hlo : 2 ≤ capacity) (hhi : capacity ≤ 2 ^ 31) :
      Run { new capacity with wal := wal, tradePool := tradePool } []
  | call {e e' : MatchingEngine} {past : List Event} {rsp : List BinaryResponse} (c : Command)
      (h : Run e past) (hc : c.Allowed e.resting) (hexec : e.exec c = some (rsp, e')) :
      Run e' (⟨c, rsp⟩ :: past)

theorem Run.reachable {e : MatchingEngine} {past : List Event} (h : Run e past) : Reachable e := by
  induction h with
  | start capacity wal tradePool hlo hhi => exact .start capacity wal tradePool hlo hhi
  | call c _ hc hexec ih => exact ih.call c hc hexec

/-- Perform one call after the other, and keep the history. -/
def MatchingEngine.recordAll (e : MatchingEngine) (past : List Event) :
    List Command → Option (MatchingEngine × List Event)
  | [] => some (e, past)
  | c :: cs => (e.exec c).bind fun r => r.2.recordAll (⟨c, r.1⟩ :: past) cs

/-- A run can go on with any calls that pass the test. -/
theorem Run.recordAll {e : MatchingEngine} {past : List Event} (h : Run e past)
    {cs : List Command} (hcs : e.checkAll cs = true) :
    ∃ e' past', e.recordAll past cs = some (e', past') ∧ Run e' past' := by
  induction cs generalizing e past with
  | nil => exact ⟨e, past, rfl, h⟩
  | cons c cs ih =>
    obtain ⟨hc, hcs⟩ := (Bool.and_eq_true _ _).mp hcs
    have hallowed := Command.allowed_of_check h.reachable.inv hc
    obtain ⟨rsp, e₁, hexec, -⟩ := h.reachable.exec hallowed
    rw [hexec] at hcs
    obtain ⟨e', past', hrun, hrun'⟩ := ih (h.call c hallowed hexec) hcs
    refine ⟨e', past', ?_, hrun'⟩
    rw [MatchingEngine.recordAll, hexec]
    exact hrun

/-- In particular from a fresh engine. -/
theorem run_recordAll (capacity : ℕ) (cs : List Command) (hlo : 2 ≤ capacity)
    (hhi : capacity ≤ 2 ^ 31) (hcs : (new capacity).checkAll cs = true) :
    ∃ e past, (new capacity).recordAll [] cs = some (e, past) ∧ Run e past :=
  (Run.start capacity none none hlo hhi).recordAll hcs

/-! ### The balance of an order -/

/-- An order and its account agree. -/
structure Balance (x : OrderData) (a : Account) : Prop where
  /-- Nothing of what it came with is lost. -/
  original : x.originalQty.toNat = x.remainingQty.toNat + x.filledQty.toNat + a.cancelled
  /-- It knows what it traded. -/
  filled : x.filledQty.toNat = a.traded

/-- All resting orders agree with their accounts. -/
def Balanced (R : Resting) (past : List Event) : Prop :=
  ∀ L b, ∀ x ∈ R L b, Balance x (account x.orderId past)

section Balance

variable {x : OrderData} {a : Account} {ref : ℕ} {ev : Event} {past : List Event}

/-- An event that does not hang the reference adds to its account. -/
theorem account_cons (h : ¬ ev.hangs ref) : account ref (ev :: past) =
    { traded := (account ref past).traded + makerQty ref ev.frames
      cancelled := (account ref past).cancelled + ev.cutFrom ref } := if_neg h

/-- An event that says nothing about a reference leaves its account. -/
theorem account_of_quiet (h : ¬ ev.hangs ref) (hmaker : makerQty ref ev.frames = 0)
    (hcut : ev.cutFrom ref = 0) : account ref (ev :: past) = account ref past := by
  rw [account_cons h, hmaker, hcut]
  rfl

/-- An order that trades. -/
theorem Balance.partly (h : Balance x a) {t : ℕ} (ht : t ≤ qtyOf x) :
    Balance (partly x t) { traded := a.traded + t, cancelled := a.cancelled + 0 } := by
  obtain ⟨horig, hfill⟩ := h
  have hx := x.originalQty.toNat_lt
  rw [qtyOf] at ht
  have hq : (UInt32.ofNat t).toNat = t := by
    rw [UInt32.toNat_ofNat', Nat.mod_eq_of_lt (by omega)]
  have hrem : (x.remainingQty - UInt32.ofNat t).toNat = x.remainingQty.toNat - t := by
    rw [UInt32.toNat_sub_of_le _ _ (UInt32.le_iff_toNat_le.mpr (by omega)), hq]
  have hfil : (x.filledQty + UInt32.ofNat t).toNat = x.filledQty.toNat + t := by
    rw [UInt32.toNat_add, hq, Nat.mod_eq_of_lt (by omega)]
  refine ⟨?_, ?_⟩
  · show x.originalQty.toNat = (x.remainingQty - UInt32.ofNat t).toNat +
      (x.filledQty + UInt32.ofNat t).toNat + (a.cancelled + 0)
    omega
  · show (x.filledQty + UInt32.ofNat t).toNat = a.traded + t
    omega

/-- An order that is cut down. -/
theorem Balance.reduce (h : Balance x a) {q : UInt32} (hq : q ≤ x.remainingQty) :
    Balance (x.reduce q) { traded := a.traded + 0, cancelled := a.cancelled + q.toNat } := by
  obtain ⟨horig, hfill⟩ := h
  have hle := UInt32.le_iff_toNat_le.mp hq
  refine ⟨?_, hfill⟩
  show x.originalQty.toNat = (x.remainingQty - q).toNat + x.filledQty.toNat +
    (a.cancelled + q.toNat)
  rw [UInt32.toNat_sub_of_le _ _ hq]
  omega

end Balance

/-! ### An incoming order -/

section Arrival

variable {R R' : Resting} {L : ℕ} {o : OrderData} {stays : Bool} {rsp : List BinaryResponse}

/-- Only the trade frames speak of trades. -/
theorem Arrival.makerQty_eq (h : Arrival R L o stays rsp R') (ref : ℕ) :
    makerQty ref rsp = makerQty ref (tradeFrames R L o) := by
  cases h with
  | filled => rw [makerQty_append]; rfl
  | rests => rw [makerQty_append]; rfl
  | dropped _ _ tail htail =>
    rw [makerQty_append]
    rcases htail with rfl | ⟨code, rfl⟩ <;> rfl

theorem Arrival.takerQty_eq (h : Arrival R L o stays rsp R') :
    takerQty rsp = filledQtyOf (tradesOf R L o) := by
  rw [← takerQty_tradeFrames]
  cases h with
  | filled => rw [takerQty_append]; rfl
  | rests => rw [takerQty_append]; rfl
  | dropped _ _ tail htail =>
    rw [takerQty_append]
    rcases htail with rfl | ⟨code, rfl⟩ <;> rfl

/-- An order rests after an arrival because it rested before, or because it arrived. -/
theorem Arrival.mem_cases (h : Arrival R L o stays rsp R') {L' : ℕ} {b' : Bool} {y : OrderData}
    (hy : y ∈ R' L' b') :
    y ∈ afterMatch R L o L' b' ∨
      (y = residual R L o ∧ .ok o.orderId ∈ rsp) := by
  cases h with
  | filled => exact Or.inl hy
  | rests =>
    rcases mem_enter.mp hy with ⟨-, -, rfl⟩ | hy
    · exact Or.inr ⟨rfl, by simp⟩
    · exact Or.inl hy
  | dropped => exact Or.inl hy

/-- And what the trades left rests after it. -/
theorem Arrival.mem_of_afterMatch (h : Arrival R L o stays rsp R') {L' : ℕ} {b' : Bool}
    {y : OrderData} (hy : y ∈ afterMatch R L o L' b') : y ∈ R' L' b' := by
  cases h with
  | filled => exact hy
  | rests => exact mem_enter.mpr (Or.inr hy)
  | dropped => exact hy

/-- The rest of a new order agrees with the trades of its own call. -/
theorem balance_residual (hq : o.originalQty = o.remainingQty) (hf : o.filledQty = 0) :
    Balance (residual R L o) { traded := filledQtyOf (tradesOf R L o) } := by
  have hle : filledQtyOf (tradesOf R L o) ≤ qtyOf o := by
    rw [tradesOf, filledQtyOf_fills]
    exact Nat.min_le_left _ _
  have hlt := qtyOf_lt o
  have hrem : qtyOf (residual R L o) = qtyOf o - filledQtyOf (tradesOf R L o) :=
    qtyOf_afterFills ..
  have horig : (residual R L o).originalQty = o.originalQty := by
    rw [residual, afterFills]
    split <;> rfl
  have hfill : (residual R L o).filledQty.toNat = filledQtyOf (tradesOf R L o) := by
    rw [residual, afterFills]
    split
    · next hnil => rw [hf, hnil]; rfl
    · show (o.filledQty + UInt32.ofNat _).toNat = _
      rw [hf, UInt32.zero_add, UInt32.toNat_ofNat', Nat.mod_eq_of_lt (by omega)]
  refine ⟨?_, hfill⟩
  rw [horig, hq, hfill]
  rw [qtyOf, qtyOf] at hrem
  rw [qtyOf] at hle
  show o.remainingQty.toNat = _ + _ + 0
  omega

/-- **An arrival keeps the books balanced.** -/
theorem Balanced.arrival {past : List Event} {c : Command} (hR : RefsUnique R)
    (h : Balanced R past) (ha : Arrival R L o stays rsp R') (hc : c.newRef = some o.orderId)
    (hfresh : Fresh R o.orderId) (hcut : ∀ ref, Event.cutFrom ⟨c, rsp⟩ ref = 0)
    (hq : o.originalQty = o.remainingQty) (hf : o.filledQty = 0) :
    Balanced R' (⟨c, rsp⟩ :: past) := by
  have hold : ∀ L' b', ∀ x ∈ R L' b', ¬ Event.hangs ⟨c, rsp⟩ x.orderId := fun L' b' x hx hh =>
    hfresh L' b' x hx (Option.some.inj (hh.1.symm.trans hc))
  intro L' b' y hy
  rcases ha.mem_cases hy with hy | ⟨rfl, hok⟩
  · obtain ⟨x, hx, ⟨rfl, hzero⟩ | ⟨t, ht, rfl, hmk⟩⟩ := mem_afterMatch_of hR hy
    · rw [account_of_quiet (hold L' b' y hx) (by rw [ha.makerQty_eq, hzero]) (hcut _)]
      exact h L' b' y hx
    · show Balance _ (account x.orderId _)
      rw [account_cons (hold L' b' x hx), ha.makerQty_eq, hmk, hcut]
      exact (h L' b' x hx).partly (Nat.le_of_lt ht)
  · have hid : (residual R L o).orderId = o.orderId := afterFills_orderId ..
    rw [hid, account, if_pos ⟨hc, hok⟩, ha.takerQty_eq]
    exact balance_residual hq hf

end Arrival

/-! ### Calls -/

/-- The call is a cancel or replace that names the order together with its own user. -/
def Command.Names (c : Command) (x : OrderData) : Prop :=
  match c with
  | .add .. => False
  | .cancel _ ref user => ref = x.orderId ∧ user = x.userId
  | .cancelShares _ ref _ user => ref = x.orderId ∧ user = x.userId
  | .replace _ oldRef _ _ _ _ user => oldRef = x.orderId ∧ user = x.userId

/-- What a call may do to a resting order: leave it, cut down by its trades, or use it up in
trades, or whatever a cancel does that names it. -/
def Accounted (c : Command) (rsp : List BinaryResponse) (x : OrderData)
    (after : List OrderData) : Prop :=
  (∃ y ∈ after, y.orderId = x.orderId ∧ y.sequence = x.sequence ∧
    y.remainingQty.toNat + makerQty x.orderId rsp = x.remainingQty.toNat) ∨
  makerQty x.orderId rsp = x.remainingQty.toNat ∨ c.Names x

theorem Accounted.same {c : Command} {rsp : List BinaryResponse} {x : OrderData}
    {after : List OrderData} (hx : x ∈ after) (hrsp : makerQty x.orderId rsp = 0) :
    Accounted c rsp x after :=
  Or.inl ⟨x, hx, rfl, rfl, by rw [hrsp]; rfl⟩

theorem Accounted.arrival {R R' : Resting} {L : ℕ} {o : OrderData} {stays : Bool}
    {rsp : List BinaryResponse} {c : Command} (hR : RefsUnique R)
    (ha : Arrival R L o stays rsp R') {L' : ℕ} {b' : Bool} {x : OrderData} (hx : x ∈ R L' b') :
    Accounted c rsp x (R' L' b') := by
  rw [Accounted, ha.makerQty_eq]
  rcases afterMatch_of_mem (L := L) (o := o) hR hx with ⟨hy, hzero⟩ | ⟨t, ht, hy, hmk⟩ | hall
  · exact Or.inl ⟨x, ha.mem_of_afterMatch hy, rfl, rfl, by rw [hzero]; rfl⟩
  · refine Or.inl ⟨_, ha.mem_of_afterMatch hy, rfl, rfl, ?_⟩
    have hlt := qtyOf_lt x
    rw [qtyOf] at ht hlt
    have hq : (UInt32.ofNat t).toNat = t := by
      rw [UInt32.toNat_ofNat', Nat.mod_eq_of_lt (by omega)]
    show (x.remainingQty - UInt32.ofNat t).toNat + _ = _
    rw [UInt32.toNat_sub_of_le _ _ (UInt32.le_iff_toNat_le.mpr (by omega)), hq, hmk]
    omega
  · exact Or.inr (Or.inl hall)

section Effect

variable {e : MatchingEngine} {c : Command} {rsp : List BinaryResponse} {R' : Resting}

/-- An order that is not the one with the reference stays when that one leaves. -/
theorem mem_leave_of_ne {R : Resting} {L : ℕ} {b : Bool} {ref L' : ℕ} {b' : Bool} {x : OrderData}
    (hx : x ∈ R L' b') (hne : x.orderId ≠ ref) : x ∈ leave R L b ref L' b' := by
  by_cases hside : L' = L ∧ b' = b
  · rw [hside.1, hside.2] at hx ⊢
    rw [leave, setSide_self]
    exact List.mem_filter.mpr ⟨hx, decide_eq_true hne⟩
  · rwa [leave, setSide_of_ne _ _ _ _ hside]

/-- The same when that one is cut down. -/
theorem mem_shrink_of_ne {R : Resting} {L : ℕ} {b : Bool} {ref : ℕ} {q : UInt32} {L' : ℕ}
    {b' : Bool} {x : OrderData} (hx : x ∈ R L' b') (hne : x.orderId ≠ ref) :
    x ∈ shrink R L b ref q L' b' := by
  by_cases hside : L' = L ∧ b' = b
  · rw [hside.1, hside.2] at hx ⊢
    rw [shrink, setSide_self]
    exact List.mem_map.mpr ⟨x, hx, if_neg hne⟩
  · rwa [shrink, setSide_of_ne _ _ _ _ hside]

/-- **Every call keeps the books balanced.** -/
theorem Effect.balanced {past : List Event} (hinv : Inv e) (hc : c.Allowed e.resting)
    (heff : Effect e c rsp R') (h : Balanced e.resting past) :
    Balanced R' (⟨c, rsp⟩ :: past) := by
  have hR := hinv.refsUnique
  -- a call that leaves only orders that were there, and says nothing about them
  have hquiet : (∀ L b, ∀ y ∈ R' L b, y ∈ e.resting L b) → (∀ ref, .ok ref ∉ rsp) →
      (∀ ref, makerQty ref rsp = 0) → Balanced R' (⟨c, rsp⟩ :: past) := by
    intro hsub hok hmk L b y hy
    have hcut : Event.cutFrom ⟨c, rsp⟩ y.orderId = 0 := by
      rw [Event.cutFrom]
      split
      · exact if_neg fun hh => hok _ hh.2
      all_goals rfl
    rw [account_of_quiet (fun hh => hok _ hh.2) (hmk _) hcut]
    exact h L b y (hsub L b y hy)
  cases heff with
  | rejected => exact hquiet (fun _ _ _ hy => hy) (by simp) fun _ => rfl
  | killed => exact hquiet (fun _ _ _ hy => hy) (by simp) fun _ => rfl
  | added _ ha => exact h.arrival hR ha rfl hc (fun _ => rfl) rfl rfl
  | cancelled => exact hquiet (fun _ _ _ hy => mem_leave hy) (by simp) fun _ => rfl
  | cancelRefused => exact hquiet (fun _ _ _ hy => hy) (by simp) fun _ => rfl
  | sharesAll => exact hquiet (fun _ _ _ hy => mem_leave hy) (by simp) fun _ => rfl
  | @sharesPart L ref shares user b x hx hid huser hlt =>
    intro L' b' y hy
    have hhangs : ∀ k, ¬ Event.hangs ⟨.cancelShares L ref shares user, [.ok ref]⟩ k :=
      fun k hh => absurd hh.1 (by simp [Command.newRef])
    rcases mem_shrink hy with ⟨hy', hne⟩ | ⟨z, hz, rfl, rfl, hzid, rfl⟩
    · have hyid : y.orderId ≠ ref := fun he => by
        obtain ⟨hL, hb, -⟩ := hR.unique hx hy' (hid.trans he.symm)
        exact hne ⟨hL, hb, he⟩
      rw [account_of_quiet (hhangs _) rfl (if_neg fun hh => hyid hh.1.symm)]
      exact h L' b' y hy'
    · obtain ⟨-, -, rfl⟩ := hR.unique hx hz (hid.trans hzid.symm)
      have hcut : Event.cutFrom ⟨.cancelShares L' ref shares user, [.ok ref]⟩ z.orderId =
          shares.toNat := if_pos ⟨hzid.symm, by rw [hzid]; exact List.mem_singleton_self _⟩
      show Balance _ (account z.orderId _)
      rw [account_cons (hhangs _), hcut]
      exact (h L' b' z hz).reduce (UInt32.le_of_lt hlt)
  | sharesRefused => exact hquiet (fun _ _ _ hy => hy) (by simp) fun _ => rfl
  | @replaced L oldRef newRef side price quantity user b x _ _ hx hid huser ha =>
    subst hid
    refine Balanced.arrival (hR.leave L b x.orderId) (fun L' b' y hy => h L' b' y (mem_leave hy)) ha
      rfl ?_ (fun _ => rfl) rfl rfl
    rcases hc.2 with rfl | hfresh
    · exact hR.fresh_leave hx
    · exact fun L' b' y hy => hfresh L' b' y (mem_leave hy)
  | replaceRefused => exact hquiet (fun _ _ _ hy => hy) (by simp) fun _ => rfl

/-- **Every call accounts for what it does** to every resting order. -/
theorem Effect.accounted (hinv : Inv e) (heff : Effect e c rsp R') {L : ℕ} {b : Bool}
    {x : OrderData} (hx : x ∈ e.resting L b) : Accounted c rsp x (R' L b) := by
  have hR := hinv.refsUnique
  cases heff with
  | rejected => exact .same hx rfl
  | killed => exact .same hx rfl
  | added _ ha => exact .arrival hR ha hx
  | @cancelled _ _ _ _ z hz hid huser =>
    by_cases hxz : x.orderId = z.orderId
    · obtain ⟨-, -, rfl⟩ := hR.unique hx hz hxz
      exact Or.inr (Or.inr ⟨hid.symm, huser.symm⟩)
    · exact .same (mem_leave_of_ne hx fun he => hxz (he.trans hid.symm)) rfl
  | cancelRefused => exact .same hx rfl
  | @sharesAll _ _ _ _ _ z hz hid huser =>
    by_cases hxz : x.orderId = z.orderId
    · obtain ⟨-, -, rfl⟩ := hR.unique hx hz hxz
      exact Or.inr (Or.inr ⟨hid.symm, huser.symm⟩)
    · exact .same (mem_leave_of_ne hx fun he => hxz (he.trans hid.symm)) rfl
  | @sharesPart _ _ _ _ _ z hz hid huser =>
    by_cases hxz : x.orderId = z.orderId
    · obtain ⟨-, -, rfl⟩ := hR.unique hx hz hxz
      exact Or.inr (Or.inr ⟨hid.symm, huser.symm⟩)
    · exact .same (mem_shrink_of_ne hx fun he => hxz (he.trans hid.symm)) rfl
  | sharesRefused => exact .same hx rfl
  | @replaced _ _ _ _ _ _ _ _ z _ _ hz hid huser ha =>
    by_cases hxz : x.orderId = z.orderId
    · obtain ⟨-, -, rfl⟩ := hR.unique hx hz hxz
      exact Or.inr (Or.inr ⟨hid.symm, huser.symm⟩)
    · exact .arrival (hR.leave _ _ _) ha (mem_leave_of_ne hx fun he => hxz (he.trans hid.symm))
  | replaceRefused => exact .same hx rfl

end Effect

/-! ### Runs -/

theorem Run.balanced {e : MatchingEngine} {past : List Event} (h : Run e past) :
    Balanced e.resting past := by
  induction h with
  | start capacity wal tradePool hlo hhi =>
    intro L b x hx
    rw [(by cases b <;> rfl : MatchingEngine.resting
      { new capacity with wal := wal, tradePool := tradePool } L b = [])] at hx
    exact absurd hx List.not_mem_nil
  | call c hrun hc hexec ih =>
    exact (effect_of_exec hrun.reachable.inv hc hexec).balanced hrun.reachable.inv hc ih

/-- **Quantities are conserved.** In every state of a run, what a resting order has left, what it
traded and what partial cancels took off it make up its original quantity, and it traded what the
frames say. Its remaining quantity goes down by trades only, or in a cancel or replace that names
it and its user. -/
theorem quantity_conserved {e : MatchingEngine} {past : List Event} (h : Run e past) :
    (∀ L b, ∀ x ∈ e.resting L b,
      x.originalQty.toNat =
        x.remainingQty.toNat + x.filledQty.toNat + (account x.orderId past).cancelled ∧
      x.filledQty.toNat = (account x.orderId past).traded) ∧
    ∀ c rsp e', c.Allowed e.resting → e.exec c = some (rsp, e') →
      ∀ L b, ∀ x ∈ e.resting L b, Accounted c rsp x (e'.resting L b) := by
  refine ⟨fun L b x hx => ?_, fun c rsp e' hc hexec L b x hx => ?_⟩
  · obtain ⟨horig, hfill⟩ := h.balanced L b x hx
    exact ⟨horig, hfill⟩
  · exact (effect_of_exec h.reachable.inv hc hexec).accounted h.reachable.inv hx

/-- A seller of 9 trades 3 and has 1 cancelled. -/
theorem quantity_conserved_nine : ∃ e past x,
    (new 4).recordAll [] [.add 0 1 .sell 100 9 7 .day, .add 0 2 .buy 100 3 8 .day,
      .cancelShares 0 1 1 7] = some (e, past) ∧ x ∈ e.resting 0 false ∧
    x.originalQty = 9 ∧ x.remainingQty = 5 ∧
    x.originalQty.toNat =
      x.remainingQty.toNat + x.filledQty.toNat + (account x.orderId past).cancelled := by
  obtain ⟨e, past, hrun, h⟩ := run_recordAll 4
    [.add 0 1 .sell 100 9 7 .day, .add 0 2 .buy 100 3 8 .day, .cancelShares 0 1 1 7] (by decide)
    (by decide) (by decide +kernel)
  have hread : ((new 4).recordAll [] [.add 0 1 .sell 100 9 7 .day, .add 0 2 .buy 100 3 8 .day,
      .cancelShares 0 1 1 7]).map (fun r => r.1.resting 0 false) =
        some [{ userId := 7, orderId := 1, side := .sell, price := 100, originalQty := 9
                remainingQty := 5, filledQty := 3, sequence := 1
                status := .partiallyFilled }] := by
    decide +kernel
  rw [hrun] at hread
  have hx := Option.some.inj hread ▸ List.mem_singleton_self _
  exact ⟨e, past, _, hrun, hx, rfl, rfl, ((quantity_conserved h).1 0 false _ hx).1⟩

end NebulaX.Exchange
