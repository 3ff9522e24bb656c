import NebulaX.Exchange.Effects
import NebulaX.Exchange.Isolation

/-!
# Resting orders and the index

`addOrder` hangs an order in the book and ignores what `OrderMap::insert` answers. The index has
as many nodes as the pool has slots, so a node should be left whenever a slot is. But a bucket that
moves to the overflow map keeps its nodes, and the test for an empty free list compares the index
together with its tag. After that an insert can find no node, and the order rests without an entry.

`Command.Fits` is the condition under which a call cannot run into this. It looks at the index as
it is when the order gets to the book: the entries of the orders used up before, and of a replaced
order, are erased.

## Main results

* `indexed_findable` — in runs of calls that fit, every resting order is found and can be
  cancelled, and the first call that does not fit leaves an order that cannot
* `treeified_bucket_strands_nodes` — such a call
-/

namespace NebulaX.Exchange

open MatchingEngine

/-! ### Calls that hang an order in the book -/

/-- The call takes the entries of `refs` off the index and then hangs an order `ref` in the
book. -/
inductive Hangs (e : MatchingEngine) : Command → List ℕ → ℕ → Prop
  | add {L ref : ℕ} {side : Side} {price quantity : UInt32} {user : ℕ} {tif : OrderTif}
      {o : OrderData} (ho : e.newOrder ref side (effectivePrice side tif price) quantity user = o)
      (hvalid : addError L ref side price quantity user tif = none)
      (hhangs : e.hangs L o tif = true) :
    Hangs e (.add L ref side price quantity user tif) (usedRefs e.resting L o) ref
  | replace {L oldRef newRef : ℕ} {side : Side} {price quantity : UInt32} {user : ℕ} {b : Bool}
      {x o : OrderData} (ho : e.newOrder newRef side price quantity newRef = o)
      (hx : x ∈ e.resting L b) (hid : x.orderId = oldRef) (huser : x.userId = user)
      (hhangs : replaceHangs (leave e.resting L b oldRef) L o = true) :
    Hangs e (.replace L oldRef newRef side price quantity user)
      (oldRef :: usedRefs (leave e.resting L b oldRef) L o) newRef

/-- If the call hangs an order in the book, the index has a place for it then. -/
def Command.Fits (e : MatchingEngine) (c : Command) : Prop :=
  ∀ refs ref m, Hangs e c refs ref → e.shared.index.eraseAll refs = some m → m.takes ref = true

section Call

variable {e e' : MatchingEngine} {c : Command} {rsp : List BinaryResponse}

/-- What a call does to the store: it hangs an order in a book, or inserts nothing. -/
theorem exec_stored (h : Inv e) (hc : c.Allowed e.resting) (hexec : e.exec c = some (rsp, e')) :
    (∃ refs ref, Hangs e c refs ref ∧ Stored refs true ref e.shared e'.shared) ∨
      (e'.shared.insertDropped = e.shared.insertDropped ∧
        (e.shared.insertDropped = false → ∀ refs ref, ¬ Hangs e c refs ref)) := by
  have hquiet : ∀ {refs : List ℕ} {ref : ℕ}, Stored refs false ref e.shared e'.shared →
      e'.shared.insertDropped = e.shared.insertDropped := fun ⟨_, herased, hhung⟩ =>
    (hhung.quiet rfl).trans herased.dropped
  cases c with
  | add L ref side price quantity user tif =>
    change e.processAdd L ref side price quantity user tif = _ at hexec
    -- only a day order that is not stopped before can hang
    have hnot : ∀ {o}, e.newOrder ref side (effectivePrice side tif price) quantity user = o →
        (addError L ref side price quantity user tif = none → e.hangs L o tif = false) →
        e.shared.insertDropped = false → ∀ refs ref',
          ¬ Hangs e (.add L ref side price quantity user tif) refs ref' := by
      rintro o ho hfalse - refs ref' hh
      cases hh with
      | add ho' hvalid hhangs =>
        obtain rfl := ho.symm.trans ho'
        exact absurd (hhangs.symm.trans (hfalse hvalid)) (by decide)
    cases hvalid : addError L ref side price quantity user tif with
    | some code =>
      rw [processAdd_of_error hvalid] at hexec
      obtain ⟨-, rfl⟩ := Prod.mk.inj (Option.some.inj hexec)
      exact Or.inr ⟨rfl, hnot rfl fun hv => absurd (hvalid.symm.trans hv) (by simp)⟩
    | none =>
      by_cases htif : tif = .fok
      · subst htif
        have hfalse : ∀ o, e.hangs L o .fok = false := fun o => by simp [MatchingEngine.hangs]
        rcases Nat.lt_or_ge (onOffer e.resting L side (effectivePrice side .fok price) % 2 ^ 32)
          quantity.toNat with hlt | hle
        · rw [processAdd_fok_stop h hvalid hlt] at hexec
          obtain ⟨-, rfl⟩ := Prod.mk.inj (Option.some.inj hexec)
          exact Or.inr ⟨rfl, hnot rfl fun _ => hfalse _⟩
        · obtain ⟨rsp', e'', hexec', -, -, hstored, -⟩ := processAdd_fok_spec h hvalid hle
          obtain ⟨-, rfl⟩ := Prod.mk.inj (Option.some.inj (hexec.symm.trans hexec'))
          exact Or.inr ⟨hquiet (hfalse _ ▸ hstored), hnot rfl fun _ => hfalse _⟩
      · obtain ⟨rsp', e'', hexec', -, -, hstored, -⟩ := processAdd_spec h hvalid htif fun _ => hc
        obtain ⟨-, rfl⟩ := Prod.mk.inj (Option.some.inj (hexec.symm.trans hexec'))
        generalize ho : e.newOrder ref side (effectivePrice side tif price) quantity user = o
          at hstored
        cases hhangs : e.hangs L o tif with
        | true => exact Or.inl ⟨_, _, .add ho hvalid hhangs, hhangs ▸ hstored⟩
        | false => exact Or.inr ⟨hquiet (hhangs ▸ hstored), hnot ho fun _ => hhangs⟩
  | cancel L ref user =>
    obtain ⟨rsp', e'', hexec', -, hdrop, -⟩ := processCancel_spec h hc user
    obtain ⟨-, rfl⟩ := Prod.mk.inj (Option.some.inj (hexec.symm.trans hexec'))
    exact Or.inr ⟨hdrop, fun _ refs ref' hh => nomatch hh⟩
  | cancelShares L ref shares user =>
    obtain ⟨rsp', e'', hexec', -, hdrop, -⟩ := processCancelShares_spec h hc user shares
    obtain ⟨-, rfl⟩ := Prod.mk.inj (Option.some.inj (hexec.symm.trans hexec'))
    exact Or.inr ⟨hdrop, fun _ refs ref' hh => nomatch hh⟩
  | replace L oldRef newRef side price quantity user =>
    obtain ⟨rsp', e'', hexec', -, hcase⟩ :=
      processReplace_spec h hc.1 user hc.2 side price quantity
    obtain ⟨-, rfl⟩ := Prod.mk.inj (Option.some.inj (hexec.symm.trans hexec'))
    rcases hcase with ⟨b, x, hx, hid, hu, -, hstored, -⟩ | ⟨-, -, hdrop, -, hnone⟩
    · generalize ho : e.newOrder newRef side price quantity newRef = o at hstored
      cases hhangs : replaceHangs (leave e.resting L b oldRef) L o with
      | true => exact Or.inl ⟨_, _, .replace ho hx hid hu hhangs, hhangs ▸ hstored⟩
      | false =>
        refine Or.inr ⟨hquiet (hhangs ▸ hstored), fun _ refs ref' hh => ?_⟩
        cases hh with
        | replace ho' hy hyid _ hhangs' =>
          obtain rfl := ho.symm.trans ho'
          obtain ⟨-, rfl, -⟩ := h.refsUnique.unique hx hy (hid.trans hyid.symm)
          exact absurd (hhangs.symm.trans hhangs') (by decide)
    · refine Or.inr ⟨hdrop, fun hd refs ref' hh => ?_⟩
      cases hh with
      | replace _ hy hyid hyu _ => exact hnone hd _ _ hy hyid hyu

/-- A call hangs one order at most. -/
theorem Hangs.unique (h : Inv e) {refs refs' : List ℕ} {ref ref' : ℕ} (hh : Hangs e c refs ref)
    (hh' : Hangs e c refs' ref') : refs' = refs ∧ ref' = ref := by
  cases hh with
  | add ho =>
    cases hh' with
    | add ho' =>
      obtain rfl := ho.symm.trans ho'
      exact ⟨rfl, rfl⟩
  | replace ho hx hid =>
    cases hh' with
    | replace ho' hy hyid =>
      obtain rfl := ho.symm.trans ho'
      obtain ⟨-, rfl, -⟩ := h.refsUnique.unique hx hy (hid.trans hyid.symm)
      exact ⟨rfl, rfl⟩

/-- **A call that fits** loses no reference. -/
theorem complete_of_fits (h : Inv e) (hd : e.shared.insertDropped = false)
    (hc : c.Allowed e.resting) (hfits : c.Fits e) (hexec : e.exec c = some (rsp, e')) :
    e'.shared.insertDropped = false := by
  rcases exec_stored h hc hexec with ⟨refs, ref, hhangs, sh₁, herased, hhung⟩ | ⟨hdrop, -⟩
  · rw [(hhung.linked rfl).kept (hfits refs ref _ hhangs herased.index), herased.dropped, hd]
  · rw [hdrop, hd]

/-- The order that hangs in the book is one with the new reference. -/
theorem Arrival.mem_of_hangs {R R' : Resting} {L : ℕ} {o : OrderData} {stays : Bool}
    (ha : Arrival R L o stays rsp R') (hopen : (residual R L o).status ≠ .filled)
    (hstays : stays = true) : residual R L o ∈ R' L o.side.isBuy ∧ .ok o.orderId ∈ rsp := by
  cases ha with
  | filled hfilled => exact absurd hfilled hopen
  | rests =>
    refine ⟨mem_enter.mpr (Or.inl ⟨rfl, ?_, rfl⟩), by simp⟩
    rw [show (residual R L o).side = o.side from afterFills_side ..]
  | dropped _ hstays' => exact absurd (hstays'.symm.trans hstays) (by decide)

/-- An answer `RSP_OK` to a new order says that it hangs in the book. -/
theorem Arrival.mem_of_ok {R R' : Resting} {L : ℕ} {o : OrderData} {stays : Bool} {ref : ℕ}
    (ha : Arrival R L o stays rsp R') (hok : .ok ref ∈ rsp) :
    residual R L o ∈ R' L o.side.isBuy ∧ ref = o.orderId ∧ stays = true := by
  have htrade : .ok ref ∉ tradeFrames R L o := fun hm => by
    obtain ⟨f, -, hf⟩ := List.mem_map.mp hm
    exact absurd hf (by simp [tradeFrame])
  cases ha with
  | filled =>
    rcases List.mem_append.mp hok with hm | hm
    · exact absurd hm htrade
    · exact absurd hm (by simp)
  | rests _ hstays =>
    rcases List.mem_append.mp hok with hm | hm
    · exact absurd hm htrade
    · refine ⟨mem_enter.mpr (Or.inl ⟨rfl, ?_, rfl⟩), by simpa using hm, hstays⟩
      rw [show (residual R L o).side = o.side from afterFills_side ..]
  | dropped _ _ tail htail =>
    rcases List.mem_append.mp hok with hm | hm
    · exact absurd hm htrade
    · rcases htail with rfl | ⟨code, rfl⟩
      · exact absurd hm List.not_mem_nil
      · exact absurd hm (by simp)

/-- A call that hangs an order leaves one with that reference. -/
theorem rests_of_hangs (h : Inv e) (hd : e.shared.insertDropped = false)
    (hc : c.Allowed e.resting) (hexec : e.exec c = some (rsp, e')) {refs : List ℕ} {ref : ℕ}
    (hhangs : Hangs e c refs ref) : ∃ L b, ∃ x ∈ e'.resting L b, x.orderId = ref := by
  have heff := effect_of_exec h hc hexec
  generalize e'.resting = R' at heff ⊢
  cases hhangs with
  | @add L ref side price quantity user tif o ho hvalid hhangs =>
    obtain ⟨hopen, hstays⟩ := (Bool.and_eq_true _ _).mp hhangs
    have hopen := of_decide_eq_true hopen
    subst ho
    cases heff with
    | rejected hcode => exact absurd (hvalid.symm.trans hcode) (by simp)
    | killed => exact absurd hstays (by simp)
    | added _ ha => exact ⟨L, _, _, (ha.mem_of_hangs hopen hstays).1, afterFills_orderId ..⟩
  | @replace L oldRef newRef side price quantity user b x o ho hx hid huser hhangs =>
    obtain ⟨hopen, hstays⟩ := (Bool.and_eq_true _ _).mp hhangs
    have hopen := of_decide_eq_true hopen
    subst ho
    cases heff with
    | replaced hy hyid _ ha =>
      obtain ⟨-, rfl, -⟩ := h.refsUnique.unique hx hy (hid.trans hyid.symm)
      exact ⟨L, _, _, (ha.mem_of_hangs hopen hstays).1, afterFills_orderId ..⟩
    | replaceRefused hnone => exact absurd huser (hnone hd _ _ hx hid)

/-- **A call that does not fit** leaves an order that the index does not find. -/
theorem lost_of_not_fits (h : Inv e) (hd : e.shared.insertDropped = false)
    (hc : c.Allowed e.resting) (hfits : ¬ c.Fits e) (hexec : e.exec c = some (rsp, e')) :
    ∃ L b, ∃ x ∈ e'.resting L b, e'.findOrder x.orderId = some none := by
  rw [Command.Fits] at hfits
  push Not at hfits
  obtain ⟨refs, ref, m, hhangs, herase, htakes⟩ := hfits
  rcases exec_stored h hc hexec with ⟨refs', ref', hhangs', sh₁, herased, hhung⟩ | ⟨-, hnot⟩
  · obtain ⟨rfl, rfl⟩ := hhangs.unique h hhangs'
    obtain rfl := Option.some.inj (herase.symm.trans herased.index)
    obtain ⟨L, b, x, hx, hid⟩ := rests_of_hangs h hd hc hexec hhangs
    refine ⟨L, b, x, hx, ?_⟩
    rw [hid]
    exact (hhung.linked rfl).lost (by simpa using htakes)
  · exact absurd hhangs (hnot hd refs ref)

end Call

/-! ### Runs of calls that fit -/

/-- The states an engine can get into by calls that keep the contract and fit. -/
inductive Indexed : MatchingEngine → Prop
  | start (capacity : ℕ) (wal : Option WalWriter) (tradePool : Option TradePool)
      (hlo : 2 ≤ capacity) (hhi : capacity ≤ 2 ^ 31) :
      Indexed { new capacity with wal := wal, tradePool := tradePool }
  | call {e e' : MatchingEngine} {rsp : List BinaryResponse} (c : Command) (h : Indexed e)
      (hc : c.Allowed e.resting) (hfits : c.Fits e) (hexec : e.exec c = some (rsp, e')) :
      Indexed e'

theorem Indexed.reachable {e : MatchingEngine} (h : Indexed e) : Reachable e := by
  induction h with
  | start capacity wal tradePool hlo hhi => exact .start capacity wal tradePool hlo hhi
  | call c _ hc _ hexec ih => exact ih.call c hc hexec

/-- No insert was dropped in such a run. -/
theorem Indexed.complete {e : MatchingEngine} (h : Indexed e) : e.shared.insertDropped = false := by
  induction h with
  | start => rfl
  | call c he hc hfits hexec ih => exact complete_of_fits he.reachable.inv ih hc hfits hexec

/-- A call that loses no reference fits. -/
theorem fits_of_complete {e e' : MatchingEngine} {c : Command} {rsp : List BinaryResponse}
    (h : Inv e) (h' : Inv e') (hd : e.shared.insertDropped = false)
    (hd' : e'.shared.insertDropped = false) (hc : c.Allowed e.resting)
    (hexec : e.exec c = some (rsp, e')) : c.Fits e := by
  by_contra hfits
  obtain ⟨L, b, x, hx, hnone⟩ := lost_of_not_fits h hd hc hfits hexec
  obtain ⟨G, fl, hrep⟩ := h'
  obtain ⟨i, hi, rfl⟩ := hrep.mem_resting.mp hx
  have hfound := hrep.holds.find_of_live hd' (Rep.live hi)
  exact absurd (hnone.symm.trans hfound) (by simp)

/-- A complete index was complete all along. -/
theorem dropped_of_execAll {e e' : MatchingEngine} {cs : List Command} (h : Inv e)
    (hcs : e.checkAll cs = true) (hrun : e.execAll cs = some e')
    (hd : e'.shared.insertDropped = false) : e.shared.insertDropped = false := by
  induction cs generalizing e with
  | nil =>
    obtain rfl := Option.some.inj hrun
    exact hd
  | cons c cs ih =>
    obtain ⟨hc, hcs⟩ := (Bool.and_eq_true _ _).mp hcs
    obtain ⟨rsp, e₁, hexec, hkeeps⟩ := exec_keeps h (Command.allowed_of_check h hc)
    rw [hexec] at hcs
    rw [MatchingEngine.execAll, hexec] at hrun
    exact hkeeps.dropped (ih hkeeps.inv hcs hrun)

/-- A run that passes the test and ends with a complete index is such a run. -/
theorem Indexed.execAll {e : MatchingEngine} (h : Indexed e) {cs : List Command}
    (hcs : e.checkAll cs = true) (hd : ((e.execAll cs).map fun e => e.shared.insertDropped) =
      some false) : ∃ e', e.execAll cs = some e' ∧ Indexed e' := by
  induction cs generalizing e with
  | nil => exact ⟨e, rfl, h⟩
  | cons c cs ih =>
    obtain ⟨hc, hcs⟩ := (Bool.and_eq_true _ _).mp hcs
    have hallowed := Command.allowed_of_check h.reachable.inv hc
    obtain ⟨rsp, e₁, hexec, hkeeps⟩ := exec_keeps h.reachable.inv hallowed
    rw [hexec] at hcs
    rw [MatchingEngine.execAll, hexec] at hd ⊢
    have hd₁ : e₁.shared.insertDropped = false := by
      obtain ⟨e', hrun, he'⟩ := Option.map_eq_some_iff.mp hd
      exact dropped_of_execAll hkeeps.inv hcs hrun he'
    exact ih (h.call c hallowed (fits_of_complete h.reachable.inv hkeeps.inv h.complete hd₁ hallowed
      hexec) hexec) hcs hd

/-! ### Finding and cancelling -/

/-- In a complete index every order on a level is found under its reference. -/
theorem findOrder_of_onLevel {e : MatchingEngine} (h : Inv e) (hd : e.shared.insertDropped = false)
    {L : ℕ} {b : Bool} {p : UInt32} {i : ℕ} (hi : e.OnLevel L b p i) :
    e.findOrder (e.shared.pool.storage i).orderId = some (some i) := by
  obtain ⟨G, fl, h⟩ := h
  exact h.holds.find_of_live hd (Rep.live (h.onLevel_iff.mp hi))

/-- A resting order is on a level. -/
theorem onLevel_of_resting {e : MatchingEngine} (h : Inv e) {L : ℕ} {b : Bool} {x : OrderData}
    (hx : x ∈ e.resting L b) :
    ∃ i, e.OnLevel L b x.price i ∧ (e.shared.pool.storage i).orderId = x.orderId := by
  obtain ⟨G, fl, h⟩ := h
  obtain ⟨i, hi, rfl⟩ := h.mem_resting.mp hx
  exact ⟨i, h.onLevel_iff.mpr hi, rfl⟩

/-- In a complete index the owner's cancel takes the order off. -/
theorem cancel_of_resting {e : MatchingEngine} (h : Inv e) (hd : e.shared.insertDropped = false)
    {L : ℕ} {b : Bool} {x : OrderData} (hx : x ∈ e.resting L b) :
    ∃ e', e.processCancel L x.orderId x.userId = some ([.cancelled x.orderId], e') ∧
      e'.resting = leave e.resting L b x.orderId := by
  have hroute : RoutedTo e.resting x.orderId L := fun L' b' y hy hyx =>
    (h.refsUnique.unique hx hy hyx.symm).1
  obtain ⟨rsp, e', hcall, -, -, -, hcase⟩ := processCancel_spec h hroute x.userId
  rcases hcase with ⟨b', y, hy, hid, -, rfl, hrest, -⟩ | ⟨-, -, hnone⟩
  · obtain ⟨-, rfl, -⟩ := h.refsUnique.unique hx hy hid.symm
    exact ⟨e', hcall, hrest⟩
  · exact absurd rfl (hnone hd b x hx rfl)

/-- An order accepted with `RSP_OK` rests. -/
theorem rests_of_ok {e : MatchingEngine} {c : Command} {rsp : List BinaryResponse} {R' : Resting}
    (heff : Effect e c rsp R') {ref : ℕ} (hnew : c.newRef = some ref) (hok : .ok ref ∈ rsp) :
    ∃ L b, ∃ x ∈ R' L b, x.orderId = ref := by
  cases heff with
  | rejected => exact absurd hok (by simp)
  | killed => exact absurd hok (by simp)
  | @added L r side price quantity user tif _ _ _ ha =>
    obtain ⟨hmem, rfl, -⟩ := ha.mem_of_ok hok
    exact ⟨L, _, _, hmem, afterFills_orderId ..⟩
  | cancelled => exact absurd hnew (by simp [Command.newRef])
  | cancelRefused => exact absurd hnew (by simp [Command.newRef])
  | sharesAll => exact absurd hnew (by simp [Command.newRef])
  | sharesPart => exact absurd hnew (by simp [Command.newRef])
  | sharesRefused => exact absurd hnew (by simp [Command.newRef])
  | @replaced L oldRef newRef side price quantity user b x _ _ _ _ _ ha =>
    obtain ⟨hmem, rfl, -⟩ := ha.mem_of_ok hok
    exact ⟨L, _, _, hmem, afterFills_orderId ..⟩
  | replaceRefused => exact absurd hok (by simp)

/-- **Resting orders are found.** In a run of calls that fit, the index finds the slot of every
resting order, and the order's owner can cancel it. Every further call that keeps the contract
returns. If it fits, an order it answered with `RSP_OK` rests and is found; if it does not fit, an
order rests that the index does not find, and its owner's cancel is answered as if it were not
there. -/
theorem indexed_findable {e : MatchingEngine} (h : Indexed e) :
    (∀ L b p i, e.OnLevel L b p i →
      e.findOrder (e.shared.pool.storage i).orderId = some (some i)) ∧
    (∀ L b, ∀ x ∈ e.resting L b,
      ∃ e', e.processCancel L x.orderId x.userId = some ([.cancelled x.orderId], e') ∧
        e'.resting = leave e.resting L b x.orderId) ∧
    ∀ c : Command, c.Allowed e.resting → ∃ rsp e', e.exec c = some (rsp, e') ∧
      (c.Fits e → ∀ ref, c.newRef = some ref → .ok ref ∈ rsp →
        ∃ L b p i, e'.OnLevel L b p i ∧ (e'.shared.pool.storage i).orderId = ref ∧
          e'.findOrder ref = some (some i)) ∧
      (¬ c.Fits e → ∃ L b, ∃ x ∈ e'.resting L b, e'.findOrder x.orderId = some none ∧
        Untouched e' (e'.processCancel L x.orderId x.userId)) := by
  have hinv := h.reachable.inv
  refine ⟨fun L b p i hi => findOrder_of_onLevel hinv h.complete hi,
    fun L b x hx => cancel_of_resting hinv h.complete hx, fun c hc => ?_⟩
  obtain ⟨rsp, e', hexec, hkeeps, heff⟩ := exec_effect hinv hc
  refine ⟨rsp, e', hexec, fun hfits ref hnew hok => ?_, fun hfits => ?_⟩
  · obtain ⟨L, b, x, hx, rfl⟩ := rests_of_ok heff hnew hok
    obtain ⟨i, hi, hid⟩ := onLevel_of_resting hkeeps.inv hx
    have hd := complete_of_fits hinv h.complete hc hfits hexec
    exact ⟨L, b, x.price, i, hi, hid, hid ▸ findOrder_of_onLevel hkeeps.inv hd hi⟩
  · obtain ⟨L, b, x, hx, hnone⟩ := lost_of_not_fits hinv h.complete hc hfits hexec
    exact ⟨L, b, x, hx, hnone, processCancel_untouched (Or.inr (Or.inl hnone))⟩

theorem indexed_findable_two : ∃ e,
    (new 4).execAll [.add 0 1 .sell 100 5 7 .day, .add 0 2 .buy 99 6 8 .day] = some e ∧
      ∃ x ∈ e.resting 0 true, x.orderId = 2 ∧
        ∃ e', e.processCancel 0 2 x.userId = some ([.cancelled 2], e') ∧
          e'.resting = leave e.resting 0 true 2 := by
  obtain ⟨e, hrun, he⟩ := (Indexed.start 4 none none (by decide) (by decide)).execAll
    (show ({ new 4 with wal := none, tradePool := none } : MatchingEngine).checkAll
      [.add 0 1 .sell 100 5 7 .day, .add 0 2 .buy 99 6 8 .day] = true by decide +kernel)
    (by decide +kernel)
  have hread : ((new 4).execAll [.add 0 1 .sell 100 5 7 .day, .add 0 2 .buy 99 6 8 .day]).map
      (fun e => (e.resting 0 true).map OrderData.orderId) = some [2] := by decide +kernel
  have hrun' : (new 4).execAll [.add 0 1 .sell 100 5 7 .day, .add 0 2 .buy 99 6 8 .day] =
    some e := hrun
  rw [hrun'] at hread
  obtain ⟨x, hx, hid⟩ := List.mem_map.mp
    ((Option.some.inj hread).symm ▸ List.mem_singleton_self 2)
  obtain ⟨-, hcancel, -⟩ := indexed_findable he
  exact ⟨e, hrun', x, hx, hid, hid ▸ hcancel 0 true x hx⟩

/-- Eight orders whose references share a bucket. Then one of them is cancelled. -/
def oneBucket : List Command :=
  [5, 13, 18, 26, 34, 39, 47, 60].map (fun ref => .add 0 ref .buy 100 5 7 .day) ++ [.cancel 0 60 7]

/-- Eight references of one bucket use up the nodes and move the bucket to the overflow map, where
they keep their nodes. After a cancel the pool has a slot again but the index has no node, and the
test for an empty free list does not see it. The next order is answered `RSP_OK` and rests without
an entry, and its owner's cancel finds nothing. -/
theorem treeified_bucket_strands_nodes : ∃ e e', (new 8).execAll oneBucket = some e ∧
    Reachable e ∧ (Command.add 0 1 .buy 100 5 7 .day).Allowed e.resting ∧
    e.exec (.add 0 1 .buy 100 5 7 .day) = some ([.ok 1], e') ∧
    (∃ i, e'.OnLevel 0 true 100 i ∧ (e'.shared.pool.storage i).orderId = 1) ∧
    e'.findOrder 1 = some none ∧
    (e'.processCancel 0 1 7).map Prod.fst = some [.error .orderNotFound] := by
  obtain ⟨e, hrun, he⟩ := reachable_execAll 8 oneBucket (by decide) (by decide) (by decide +kernel)
  have hcheck : ((new 8).execAll oneBucket).map
      (fun e => (Command.add 0 1 .buy 100 5 7 .day).check e) = some true := by decide +kernel
  rw [hrun] at hcheck
  have hallowed := Command.allowed_of_check he.inv (Option.some.inj hcheck)
  obtain ⟨rsp, e', hexec, he'⟩ := he.exec hallowed
  have hread : (((new 8).execAll oneBucket).bind fun e =>
      (e.exec (.add 0 1 .buy 100 5 7 .day)).map fun r =>
        (r.1, (r.2.resting 0 true).map fun o => (o.orderId, o.price))) =
      some ([.ok 1], [(5, 100), (13, 100), (18, 100), (26, 100), (34, 100), (39, 100), (47, 100),
        (1, 100)]) := by decide +kernel
  have hfind : (((new 8).execAll oneBucket).bind fun e =>
      (e.exec (.add 0 1 .buy 100 5 7 .day)).map fun r =>
        (r.2.findOrder 1, (r.2.processCancel 0 1 7).map Prod.fst)) =
      some (some none, some [.error .orderNotFound]) := by decide +kernel
  rw [hrun, Option.bind_some, hexec] at hread hfind
  obtain ⟨rfl, hrest⟩ := Prod.mk.inj (Option.some.inj hread)
  obtain ⟨hnone, hcancel⟩ := Prod.mk.inj (Option.some.inj hfind)
  have hmem : (1, 100) ∈ (e'.resting 0 true).map fun o => (o.orderId, o.price) := by
    rw [hrest]
    decide
  obtain ⟨x, hx, hxeq⟩ := List.mem_map.mp hmem
  obtain ⟨hid, hprice⟩ := Prod.mk.inj hxeq
  obtain ⟨i, hi, hiid⟩ := onLevel_of_resting he'.inv hx
  exact ⟨e, e', hrun, he, hallowed, hexec, ⟨i, hprice ▸ hi, hiid.trans hid⟩, hnone, hcancel⟩

end NebulaX.Exchange
