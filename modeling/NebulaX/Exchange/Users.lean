import NebulaX.Exchange.Calls
import NebulaX.Exchange.EngineRuns

/-!
# The users of the slots

A slot of the pool keeps the user of the order it was last written for. Only hanging an order in a
book writes a user. An order that is not a day order never gets there, so a party that sends no day
orders owns no slot, and none of its cancels finds one, whatever the references are.

## Main results

* `exec_users` — every call keeps what the users of the slots satisfy
* `processAdd_ioc_frames` — an immediate-or-cancel order is never answered with `RSP_OK`
* `turnedAway_of_users` — a user of no slot is turned away
-/

namespace NebulaX.Exchange

open MatchingEngine

/-- The users of all slots satisfy `P`. -/
def UsersAre (P : ℕ → Prop) (sh : Store) : Prop := ∀ i, P (sh.pool.storage i).userId

section Store

variable {P : ℕ → Prop} {sh sh' : Store}

theorem UsersAre.of_pool (h : UsersAre P sh) (hpool : sh'.pool.storage = sh.pool.storage) :
    UsersAre P sh' := by
  intro i
  rw [hpool]
  exact h i

/-- A write that leaves a user that satisfies `P`. -/
theorem UsersAre.modify (h : UsersAre P sh) (i : ℕ) {f : Order → Order}
    (hf : ∀ o : Order, P o.userId → P (f o).userId) :
    UsersAre P { sh with pool := sh.pool.modify i f } := by
  intro j
  show P (Function.update sh.pool.storage i (f (sh.pool.storage i)) j).userId
  by_cases hj : j = i
  · subst hj
    rw [Function.update_self]
    exact hf _ (h j)
  · rw [Function.update_of_ne hj]
    exact h j

/-- The links of a list are not users. -/
theorem UsersAre.unlinkSlot (h : UsersAre P sh) (i : ℕ) :
    UsersAre P { sh with pool := OrderBook.unlinkSlot sh.pool i } := by
  have hnext : ∀ {sh : Store} (i n : ℕ), UsersAre P sh →
      UsersAre P { sh with pool := OrderBook.setNextIdx sh.pool i n } := by
    intro sh i n h
    rw [OrderBook.setNextIdx]
    split
    · exact h.modify i fun _ ho => ho
    · exact h
  have hprev : ∀ {sh : Store} (i n : ℕ), UsersAre P sh →
      UsersAre P { sh with pool := OrderBook.setPrevIdx sh.pool i n } := by
    intro sh i n h
    rw [OrderBook.setPrevIdx]
    split
    · exact h.modify i fun _ ho => ho
    · exact h
  exact hprev _ _ (hnext _ _ h)

/-- An order is written with its user. -/
theorem UsersAre.pushBack (h : UsersAre P sh) (level : PriceLevel) (i : ℕ) {order : OrderData}
    (ho : P order.userId) :
    UsersAre P { sh with pool := (OrderBook.pushBack level sh.pool i order).2 } := by
  rw [OrderBook.pushBack]
  split
  · exact h.modify i (f := fun _ => { toOrderData := order }) fun _ _ => ho
  · have hwritten := h.modify i (f := fun _ => { toOrderData := order, prevIdx := level.tailIdx })
      fun _ _ => ho
    exact hwritten.modify level.tailIdx (f := fun o => { o with nextIdx := i }) fun _ ho => ho

end Store

section Books

variable {P : ℕ → Prop} {e e' : MatchingEngine} {L : ℕ}

theorem users_removeOrder {i : ℕ} (h : UsersAre P e.shared) (hcall : e.removeOrder L i = some e') :
    UsersAre P e'.shared := by
  obtain ⟨⟨b, sh⟩, hbook, rfl⟩ := Option.map_eq_some_iff.mp hcall
  rw [OrderBook.removeOrder] at hbook
  dsimp only at hbook
  split at hbook
  · obtain ⟨-, rfl⟩ := Prod.mk.inj (Option.some.inj hbook)
    exact h
  · obtain ⟨sh₁, hunlink, heq⟩ := Option.map_eq_some_iff.mp hbook
    obtain ⟨-, rfl⟩ := Prod.mk.inj heq
    obtain ⟨index, -, rfl⟩ := Option.map_eq_some_iff.mp hunlink
    exact (h.unlinkSlot i).of_pool rfl

theorem users_addOrder {order : OrderData} {ok : Bool} (h : UsersAre P e.shared)
    (ho : P order.userId) (hcall : e.addOrder L order = some (ok, e')) :
    UsersAre P e'.shared := by
  obtain ⟨⟨ok', b, sh⟩, hbook, heq⟩ := Option.map_eq_some_iff.mp hcall
  obtain ⟨-, rfl⟩ := Prod.mk.inj heq
  rw [OrderBook.addOrder] at hbook
  split at hbook
  · obtain ⟨-, heq⟩ := Prod.mk.inj (Option.some.inj hbook)
    obtain ⟨-, rfl⟩ := Prod.mk.inj heq
    exact h
  · cases halloc : e.shared.pool.allocate with
    | none =>
      rw [halloc] at hbook
      obtain ⟨-, heq⟩ := Prod.mk.inj (Option.some.inj hbook)
      obtain ⟨-, rfl⟩ := Prod.mk.inj heq
      exact h
    | some r =>
      obtain ⟨i, pool⟩ := r
      rw [halloc] at hbook
      obtain ⟨sh₁, hlink, heq⟩ := Option.map_eq_some_iff.mp hbook
      obtain ⟨-, heq⟩ := Prod.mk.inj heq
      obtain ⟨-, rfl⟩ := Prod.mk.inj heq
      obtain ⟨-, -, rfl⟩ := Option.map_eq_some_iff.mp hlink
      have hpool : pool.storage = e.shared.pool.storage := by
        rw [OrderPool.allocate] at halloc
        split at halloc
        · exact absurd halloc.symm (Option.some_ne_none _)
        · rw [← (Prod.mk.inj (Option.some.inj halloc)).2]
      have hpooled : UsersAre P { e.shared with pool := pool.setNextFree i uint32Max } :=
        h.of_pool hpool
      exact (hpooled.pushBack _ i ho).of_pool rfl

theorem users_reduceOrderQty (h : UsersAre P e.shared) (i : ℕ) (amount : UInt32) :
    UsersAre P (e.reduceOrderQty L i amount).shared :=
  h.modify i fun _ ho => ho

theorem users_reduceQtyCancel (h : UsersAre P e.shared) (i : ℕ) (amount : UInt32) :
    UsersAre P (e.reduceQtyCancel L i amount).shared :=
  h.modify i fun _ ho => ho

theorem users_setStatus (h : UsersAre P e.shared) (i : ℕ) (status : OrderStatus) :
    UsersAre P (e.setStatus i status).shared :=
  h.modify i fun _ ho => ho

end Books

/-! ### Matching -/

section Match

variable {P : ℕ → Prop} {L : ℕ} {buy : Bool} {s s' : Matching}

/-- What the loop keeps: the users of the slots, the user of the taker, and that it answers with
trades. -/
structure Matches (P : ℕ → Prop) (user : ℕ) (s : Matching) : Prop where
  /-- The slots. -/
  users : UsersAre P s.engine.shared
  /-- The taker. -/
  taker : s.order.userId = user
  /-- The frames. -/
  trades : ∀ f ∈ s.out, f.isTrade = true

theorem Matches.tradeWith {user i : ℕ} (h : Matches P user s)
    (hcall : tradeWith L buy s i = some s') : Matches P user s' := by
  rw [Exchange.MatchingEngine.tradeWith] at hcall
  obtain ⟨e, he, rfl⟩ := Option.map_eq_some_iff.mp hcall
  refine ⟨?_, h.taker, fun f hf => ?_⟩
  · have hreduced : ∀ taker maker, UsersAre P (((s.engine.reduceOrderQty L i
        (min s.order.remainingQty (s.engine.shared.pool.storage i).remainingQty)).recordTrade buy
          taker maker (min s.order.remainingQty
            (s.engine.shared.pool.storage i).remainingQty)).shared) := by
      intro taker maker
      rw [shared_recordTrade]
      exact users_reduceOrderQty h.users i _
    split at he
    · exact users_removeOrder (users_setStatus (hreduced _ _) i _) he
    · obtain rfl := Option.some.inj he
      exact users_setStatus (hreduced _ _) i _
  · rcases List.mem_append.mp hf with hf | hf
    · exact h.trades f hf
    · rw [List.mem_singleton.mp hf]
      rfl

theorem matches_matchOrder {e : MatchingEngine} {order : OrderData}
    (hcall : e.matchOrder L buy order = some s') (h : UsersAre P e.shared) :
    Matches P order.userId s' :=
  matchLoop_keeps (I := Matches P order.userId) (fun hs htrade => hs.tradeWith htrade)
    ⟨h, rfl, fun _ hf => absurd hf List.not_mem_nil⟩ hcall

/-- An order that is not a day order does not get to the book, and the frames behind those of the
trades say that it was filled or that it was not. -/
theorem finishAdd_dropped {quantity : UInt32} {tif : OrderTif} {rsp : List BinaryResponse}
    {e' : MatchingEngine} (htif : tif ≠ .day)
    (hcall : finishAdd L quantity tif s = some (rsp, e')) :
    e' = s.engine ∧ ∀ f ∈ rsp, f ∈ s.out ∨
      (s.order.status = .filled ∧ ∃ ref, f = .filled ref) ∨ ∃ code, f = .error code := by
  have hsame : some (s.out, s.engine) = some (rsp, e') → e' = s.engine ∧ ∀ f ∈ rsp, f ∈ s.out ∨
      (s.order.status = .filled ∧ ∃ ref, f = .filled ref) ∨ ∃ code, f = .error code := by
    intro heq
    obtain ⟨rfl, rfl⟩ := Prod.mk.inj (Option.some.inj heq)
    exact ⟨rfl, fun _ hm => Or.inl hm⟩
  have herror : ∀ {code}, some (s.out ++ [.error code], s.engine) = some (rsp, e') →
      e' = s.engine ∧ ∀ f ∈ rsp, f ∈ s.out ∨
        (s.order.status = .filled ∧ ∃ ref, f = .filled ref) ∨ ∃ code, f = .error code := by
    intro code heq
    obtain ⟨rfl, rfl⟩ := Prod.mk.inj (Option.some.inj heq)
    exact ⟨rfl, fun f hm => (List.mem_append.mp hm).imp_right fun hlast =>
      Or.inr ⟨code, List.mem_singleton.mp hlast⟩⟩
  rw [finishAdd.eq_def] at hcall
  split at hcall
  · next hfilled =>
    obtain ⟨rfl, rfl⟩ := Prod.mk.inj (Option.some.inj hcall)
    exact ⟨rfl, fun f hm => (List.mem_append.mp hm).imp_right fun hlast =>
      Or.inl ⟨hfilled, _, List.mem_singleton.mp hlast⟩⟩
  · cases tif with
    | day => exact absurd rfl htif
    | ioc =>
      dsimp only at hcall
      split at hcall
      · exact herror hcall
      · exact hsame hcall
    | fok =>
      dsimp only at hcall
      split at hcall
      · exact herror hcall
      · exact hsame hcall

/-- **An order that comes in** leaves the users of the slots, and its own if it may hang. -/
theorem users_finishAdd {quantity : UInt32} {tif : OrderTif} {rsp : List BinaryResponse}
    {e' : MatchingEngine} {user : ℕ} (h : Matches P user s) (huser : tif = .day → P user)
    (hcall : finishAdd L quantity tif s = some (rsp, e')) : UsersAre P e'.shared := by
  rcases (finishAdd_cases hcall).2 with rfl | ⟨ok, hadd⟩
  · exact h.users
  · by_cases htif : tif = .day
    · exact users_addOrder h.users (h.taker ▸ huser htif) hadd
    · rw [(finishAdd_dropped htif hcall).1]
      exact h.users

end Match

/-! ### The calls -/

section Calls

variable {P : ℕ → Prop} {e e' : MatchingEngine} {rsp : List BinaryResponse}

/-- The user of the order that a call may hang in a book. -/
def Command.hangsFor : Command → Option ℕ
  | .add _ _ _ _ _ user tif => if tif = .day then some user else none
  | .replace _ _ newRef _ _ _ _ => some newRef
  | .cancel .. | .cancelShares .. => none

theorem Logged.users (h : Logged e e') (hu : UsersAre P e.shared) : UsersAre P e'.shared := by
  obtain ⟨wal, rfl⟩ := h
  exact hu

/-- **Every call keeps it**, if the order it may hang in a book satisfies it. -/
theorem exec_users {c : Command} (h : UsersAre P e.shared) (hnew : ∀ user ∈ c.hangsFor, P user)
    (hexec : e.exec c = some (rsp, e')) : UsersAre P e'.shared := by
  cases c with
  | add L ref side price quantity user tif =>
    rcases processAdd_cases hexec with ⟨-, -, rfl⟩ | haccept
    · exact h
    · obtain ⟨entry, s, hmatch, hfinish⟩ := acceptAdd_cases haccept
      exact users_finishAdd (matches_matchOrder hmatch h)
        (fun htif => hnew user (by rw [Command.hangsFor, if_pos htif]; rfl)) hfinish
  | cancel L ref user =>
    rcases processCancel_cases hexec with ⟨-, -, hlogged⟩ | ⟨i, entry, -, -, -, hremove, -⟩
    · exact hlogged.users h
    · exact users_removeOrder (e := e.logWal entry) h hremove
  | cancelShares L ref shares user =>
    rcases processCancelShares_cases hexec with ⟨-, -, hlogged⟩ |
      ⟨i, entry, -, -, -, ⟨-, hremove, -⟩ | ⟨-, rfl, -⟩⟩
    · exact hlogged.users h
    · exact users_removeOrder (e := e.logWal entry) h hremove
    · exact users_reduceQtyCancel (e := e.logWal entry) h i shares
  | replace L oldRef newRef side price quantity user =>
    rcases processReplace_cases hexec with ⟨-, -, hlogged⟩ |
      ⟨i, entry, e₁, s, -, -, -, hremove, hmatch, hfinish⟩
    · exact hlogged.users h
    · have hremoved : UsersAre P e₁.shared := users_removeOrder (e := e.logWal entry) h hremove
      rw [finishReplace_eq L 0] at hfinish
      exact users_finishAdd (matches_matchOrder hmatch hremoved) (fun _ => hnew newRef rfl) hfinish

/-- **The answers to an immediate-or-cancel order**: it is never answered that it rests, and if it
is answered that it was filled, it traded. -/
theorem processAdd_ioc_frames {L ref user : ℕ} {side : Side} {price quantity : UInt32}
    (hcall : e.processAdd L ref side price quantity user .ioc = some (rsp, e')) :
    (∀ r, .ok r ∉ rsp) ∧ ∀ r, .filled r ∈ rsp → ∃ f ∈ rsp, f.isTrade = true := by
  rcases processAdd_cases hcall with ⟨code, rfl, -⟩ | haccept
  · exact ⟨fun r hm => absurd (List.mem_singleton.mp hm) (by simp),
      fun r hm => absurd (List.mem_singleton.mp hm) (by simp)⟩
  · obtain ⟨entry, s, hmatch, hfinish⟩ := acceptAdd_cases haccept
    have hmatches : Matches (fun _ => True) user s :=
      matches_matchOrder hmatch fun _ => trivial
    -- an order is filled by a trade only
    have hfilled : s.order.status = .filled → s.out ≠ [] := by
      refine matchLoop_keeps (I := fun s => s.order.status = .filled → s.out ≠ [])
        (fun {s i s'} _ htrade => ?_) (fun hopen => ?_) hmatch
      · rw [tradeWith] at htrade
        obtain ⟨e₁, -, rfl⟩ := Option.map_eq_some_iff.mp htrade
        exact fun _ => List.append_ne_nil_of_right_ne_nil _ (List.cons_ne_nil _ _)
      · exact absurd (show OrderStatus.open = .filled from hopen) (by decide)
    obtain ⟨-, hframes⟩ := finishAdd_dropped (by decide) hfinish
    obtain ⟨⟨tail, hrsp, -⟩, -⟩ := finishAdd_cases hfinish
    constructor
    · intro r hm
      rcases hframes _ hm with hout | ⟨-, ref, heq⟩ | ⟨code, heq⟩
      · exact absurd (hmatches.trades _ hout) Bool.false_ne_true
      · exact absurd heq (by simp)
      · exact absurd heq (by simp)
    · intro r hm
      rcases hframes _ hm with hout | ⟨hstatus, -⟩ | ⟨code, heq⟩
      · exact absurd (hmatches.trades _ hout) Bool.false_ne_true
      · obtain ⟨f, hf⟩ := List.exists_mem_of_ne_nil _ (hfilled hstatus)
        exact ⟨f, by rw [hrsp]; exact List.mem_append_left _ hf, hmatches.trades f hf⟩
      · exact absurd heq (by simp)

/-- **A user of no slot** is turned away. -/
theorem turnedAway_of_users {user : ℕ} (h : UsersAre (· ≠ user) e.shared) {L ref : ℕ}
    (hfind : e.findOrder ref ≠ none) : TurnedAway e L ref user := by
  cases hf : e.findOrder ref with
  | none => exact absurd hf hfind
  | some found =>
    cases found with
    | none => exact Or.inr (Or.inl hf)
    | some i => exact Or.inr (Or.inr ⟨i, hf, h i⟩)

end Calls

end NebulaX.Exchange
