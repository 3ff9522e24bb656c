import NebulaX.Lib.Numbering
import NebulaX.Lib.Ring
import NebulaX.Exchange.BroadcastTime
import NebulaX.Exchange.SharedRecovery
import NebulaX.Exchange.Snapshot

/-!
# The ids of trades

`matchBuyOrder` and `matchSellOrder` write the trade pool alike, but each has its own static
`trade_id`. So the trades of incoming buys are numbered from one, and those of incoming sells from
one again: an id says how many trades there were with a taker of that side. The ids of a run ascend
exactly if all its takers are of one side (and there are fewer trades than a counter has values).

Only the counters and the pool matter here. The runs may break every rule about references.

## Main results

* `Wrote` and its lemmas — what an operation writes to the trade pool
* `tradeIds_ascend_iff` — the runs whose ids ascend
* `tradeIds_repeat` — a run of two trades with the same id
-/

namespace NebulaX.Exchange

open MatchingEngine Numbering

/-! ### What leaves the trades alone -/

/-- **The trade pool and its counters** are as they were. -/
structure SameTrades (e e' : MatchingEngine) : Prop where
  /-- The pool. -/
  tradePool : e'.tradePool = e.tradePool
  /-- The counter of `matchBuyOrder`. -/
  buyTradeId : e'.buyTradeId = e.buyTradeId
  /-- The counter of `matchSellOrder`. -/
  sellTradeId : e'.sellTradeId = e.sellTradeId

theorem SameTrades.refl (e : MatchingEngine) : SameTrades e e := ⟨rfl, rfl, rfl⟩

theorem SameTrades.trans {e₁ e₂ e₃ : MatchingEngine} (h : SameTrades e₁ e₂)
    (h' : SameTrades e₂ e₃) : SameTrades e₁ e₃ where
  tradePool := h'.tradePool.trans h.tradePool
  buyTradeId := h'.buyTradeId.trans h.buyTradeId
  sellTradeId := h'.sellTradeId.trans h.sellTradeId

/-- A loop of turns that leave the trades alone. -/
theorem SameTrades.foldlM {α : Type} {f : MatchingEngine → α → Option MatchingEngine}
    (hf : ∀ e a e', f e a = some e' → SameTrades e e') {as : List α} {e e' : MatchingEngine}
    (h : as.foldlM f e = some e') : SameTrades e e' :=
  Fold.keeps (I := fun e₁ => SameTrades e e₁) (fun hs hstep => hs.trans (hf _ _ _ hstep))
    (SameTrades.refl e) h

section Quiet

variable {e e' : MatchingEngine} {L : ℕ}

theorem sameTrades_removeOrder {i : ℕ} (h : e.removeOrder L i = some e') : SameTrades e e' := by
  obtain ⟨r, -, rfl⟩ := Option.map_eq_some_iff.mp h
  exact ⟨rfl, rfl, rfl⟩

theorem sameTrades_addOrder {o : OrderData} {next : ℕ} {ok : Bool}
    (h : e.addOrder L o next = some (ok, e')) : SameTrades e e' := by
  obtain ⟨r, -, heq⟩ := Option.map_eq_some_iff.mp h
  obtain ⟨-, rfl⟩ := Prod.mk.inj heq
  exact ⟨rfl, rfl, rfl⟩

/-- A call that ends trades no more. -/
theorem sameTrades_ends {s : Matching}
    (h : e' = s.engine ∨ ∃ ok, s.engine.addOrder L s.order = some (ok, e')) :
    SameTrades s.engine e' := by
  rcases h with rfl | ⟨ok, hadd⟩
  · exact SameTrades.refl _
  · exact sameTrades_addOrder hadd

theorem sameTrades_raiseCounters (e : MatchingEngine) (entry : WalEntry) :
    SameTrades e (e.raiseCounters entry) := by
  rw [raiseCounters]
  split <;> split <;> exact ⟨rfl, rfl, rfl⟩

theorem sameTrades_recoverSlot (e : MatchingEngine) (i : ℕ) (e' : MatchingEngine)
    (h : e.recoverSlot i = some e') : SameTrades e e' := by
  rw [recoverSlot] at h
  split at h
  · exact Option.some.inj h ▸ SameTrades.refl e
  split at h
  · exact Option.some.inj h ▸ SameTrades.refl e
  obtain ⟨⟨ok, e₁⟩, hadd, rfl⟩ := Option.map_eq_some_iff.mp h
  refine (sameTrades_addOrder hadd).trans ?_
  dsimp only
  split <;> split <;> exact ⟨rfl, rfl, rfl⟩

/-- `recoverFromShared` hangs orders in the book; it matches none. -/
theorem sameTrades_recoverFromShared {capacity : ℕ}
    (h : e.recoverFromShared capacity = some e') : SameTrades e e' := by
  have hloop := SameTrades.foldlM sameTrades_recoverSlot h
  exact ⟨hloop.tradePool, hloop.buyTradeId, hloop.sellTradeId⟩

/-- Neither does `loadSnapshot`. -/
theorem sameTrades_loadSnapshot {file : Snapshot} (h : e.loadSnapshot file = some e') :
    SameTrades e e' := by
  obtain ⟨l, -, rfl⟩ := Option.map_eq_some_iff.mp h
  rw [finishLoad]
  split <;> split <;> exact ⟨rfl, rfl, rfl⟩

end Quiet

/-! ### What is written -/

/-- The ring holds the last of the entries that were written. -/
structure TradePool.Recorded (pool : TradePool) : Prop where
  /-- `write_idx` counts them. -/
  count : pool.writeIdx = pool.written.length
  /-- The slots of the ring. -/
  ring : Ring.Holds tradeCapacity pool.entries pool.written

theorem TradePool.Recorded.write {pool : TradePool} (h : pool.Recorded) (entry : TradeEntry) :
    (pool.write entry).Recorded where
  count := by
    rw [TradePool.write, List.length_append, h.count]
    rfl
  ring := by
    rw [TradePool.write, h.count]
    exact h.ring.push entry

/-- **The trades so far**, in a pool that was attached with both counters at zero. Where `takers`
says which of them had a buyer as the taker, each id is the number of the trade among those with
takers of its side. -/
structure Numbered (e : MatchingEngine) (takers : List Bool) : Prop where
  /-- The counter of `matchBuyOrder`. -/
  buy : e.buyTradeId = takers.count true % 2 ^ 64
  /-- The counter of `matchSellOrder`. -/
  sell : e.sellTradeId = takers.count false % 2 ^ 64
  /-- The entries. -/
  pool : ∃ pool, e.tradePool = some pool ∧ pool.Recorded ∧
    pool.written.map (·.tradeId) = (numbers takers).map (· % 2 ^ 64)

/-- The operation writes `n` trades with takers of side `buy`. -/
def Wrote (buy : Bool) (n : ℕ) (e e' : MatchingEngine) : Prop :=
  ∀ takers, Numbered e takers → Numbered e' (takers ++ List.replicate n buy)

theorem Wrote.trans {buy : Bool} {m n : ℕ} {e₁ e₂ e₃ : MatchingEngine} (h : Wrote buy m e₁ e₂)
    (h' : Wrote buy n e₂ e₃) : Wrote buy (m + n) e₁ e₃ := by
  intro takers hids
  rw [List.replicate_add, ← List.append_assoc]
  exact h' _ (h _ hids)

theorem SameTrades.wrote {e e' : MatchingEngine} (h : SameTrades e e') (buy : Bool) :
    Wrote buy 0 e e' := by
  intro takers hids
  rw [List.replicate_zero, List.append_nil]
  exact ⟨h.buyTradeId.trans hids.buy, h.sellTradeId.trans hids.sell, h.tradePool ▸ hids.pool⟩

/-- **One trade** takes the next number of its side. -/
theorem wrote_recordTrade (e : MatchingEngine) (buy : Bool) (taker maker : OrderData)
    (q : UInt32) : Wrote buy 1 e (e.recordTrade buy taker maker q) := by
  intro takers hids
  obtain ⟨pool, hpool, hrec, hmap⟩ := hids.pool
  have hnext : ∀ b, (takers.count b % 2 ^ 64 + 1) % 2 ^ 64 = (takers.count b + 1) % 2 ^ 64 :=
    fun b => Nat.mod_add_mod ..
  have hcount : ∀ b, (takers ++ [buy]).count b = takers.count b + if buy = b then 1 else 0 := by
    intro b
    rw [List.count_append, List.count_singleton]
    cases buy <;> cases b <;> rfl
  have hwritten : ∀ entry : TradeEntry, entry.tradeId = (takers.count buy + 1) % 2 ^ 64 →
      (pool.write entry).written.map (·.tradeId) =
        (numbers (takers ++ [buy])).map (· % 2 ^ 64) := by
    intro entry hid
    rw [numbers_concat, List.map_append, ← hmap, TradePool.write, List.map_append]
    exact congrArg (fun id => pool.written.map (·.tradeId) ++ [id]) hid
  rw [recordTrade, hpool]
  cases buy with
  | true =>
    have hid : (e.buyTradeId + 1) % 2 ^ 64 = (takers.count true + 1) % 2 ^ 64 := by
      rw [hids.buy, hnext]
    exact ⟨hid.trans (by rw [List.replicate_one, hcount]; rfl),
      hids.sell.trans (by rw [List.replicate_one, hcount]; rfl), _, rfl, hrec.write _,
      hwritten _ hid⟩
  | false =>
    have hid : (e.sellTradeId + 1) % 2 ^ 64 = (takers.count false + 1) % 2 ^ 64 := by
      rw [hids.sell, hnext]
    exact ⟨hids.buy.trans (by rw [List.replicate_one, hcount]; rfl),
      hid.trans (by rw [List.replicate_one, hcount]; rfl), _, rfl, hrec.write _,
      hwritten _ hid⟩

section Matching

variable {e e' : MatchingEngine} {L : ℕ} {buy : Bool}

theorem wrote_tradeWith {s s' : Matching} {i : ℕ} (h : tradeWith L buy s i = some s') :
    Wrote buy 1 s.engine s'.engine := by
  rw [tradeWith] at h
  obtain ⟨e₁, hsettle, rfl⟩ := Option.map_eq_some_iff.mp h
  have htrade : ∀ taker maker q,
      Wrote buy 1 s.engine ((s.engine.reduceOrderQty L i q).recordTrade buy taker maker q) :=
    fun taker maker q =>
      have hreduce : SameTrades s.engine (s.engine.reduceOrderQty L i q) := ⟨rfl, rfl, rfl⟩
      (hreduce.wrote buy).trans (wrote_recordTrade _ buy taker maker q)
  have hstatus : ∀ e status, SameTrades e (e.setStatus i status) := fun _ _ => ⟨rfl, rfl, rfl⟩
  split at hsettle
  · have hrem := (hstatus _ _).trans (sameTrades_removeOrder hsettle)
    exact (htrade _ _ _).trans (hrem.wrote buy)
  · obtain rfl := Option.some.inj hsettle
    exact (htrade _ _ _).trans ((hstatus _ _).wrote buy)

/-- **The matching loop** writes as many trades as it adds frames. -/
theorem wrote_matchLoop {fuel : ℕ} {s s' : Matching} (h : matchLoop L buy fuel s = some s') :
    ∃ n, s'.out.length = s.out.length + n ∧ Wrote buy n s.engine s'.engine := by
  refine matchLoop_keeps
    (I := fun t => ∃ n, t.out.length = s.out.length + n ∧ Wrote buy n s.engine t.engine)
    ?_ ⟨0, rfl, (SameTrades.refl _).wrote buy⟩ h
  rintro t i t' ⟨n, hlen, hwrote⟩ htrade
  obtain ⟨f, -, hout⟩ := tradeWith_out htrade
  refine ⟨n + 1, ?_, hwrote.trans (wrote_tradeWith htrade)⟩
  rw [hout, List.length_append, hlen]
  rfl

/-- The call writes trades with takers of side `buy`, and some exactly if `traded`. -/
def Writes (buy : Bool) (traded : Prop) (e e' : MatchingEngine) : Prop :=
  ∃ n, (0 < n ↔ traded) ∧ Wrote buy n e e'

theorem SameTrades.writes {traded : Prop} (h : SameTrades e e') (hno : ¬traded) :
    Writes buy traded e e' :=
  ⟨0, iff_of_false (Nat.lt_irrefl 0) hno, h.wrote buy⟩

theorem Writes.congr {traded traded' : Prop} (h : Writes buy traded e e')
    (hiff : traded ↔ traded') : Writes buy traded' e e' := propext hiff ▸ h

/-- **An order that is matched**, with anything before and after it that leaves the trades alone. -/
theorem writes_matchOrder {o : OrderData} {e₁ : MatchingEngine} {s : Matching}
    (hbefore : SameTrades e e₁) (h : e₁.matchOrder L o.side.isBuy o = some s)
    (hafter : SameTrades s.engine e') : Writes o.side.isBuy (s.out ≠ []) e e' := by
  obtain ⟨n, hlen, hwrote⟩ := wrote_matchLoop h
  refine ⟨n, ?_, ?_⟩
  · rw [← List.length_pos_iff, hlen]
    exact Iff.of_eq (congrArg (0 < ·) (Nat.zero_add n).symm)
  · have hall := ((hbefore.wrote _).trans hwrote).trans (hafter.wrote _)
    rwa [Nat.zero_add] at hall

/-- Its answer has the frames of its trades, and behind them none. -/
theorem writes_answer {o : OrderData} {e₁ : MatchingEngine} {s : Matching}
    {rsp tail : List BinaryResponse} (hbefore : SameTrades e e₁)
    (h : e₁.matchOrder L o.side.isBuy o = some s) (hafter : SameTrades s.engine e')
    (hrsp : rsp = s.out ++ tail) (htail : ∀ f ∈ tail, f.isTrade = false) :
    Writes o.side.isBuy (∃ f ∈ rsp, f.isTrade = true) e e' :=
  (writes_matchOrder hbefore h hafter).congr
    (hrsp ▸ (exists_trade_append (matchOrder_out h).1 htail).symm)

end Matching

/-! ### The calls -/

section Calls

variable {e e' : MatchingEngine} {L ref user : ℕ} {side : Side} {price quantity : UInt32}
  {rsp : List BinaryResponse}

theorem writes_acceptAdd {tif : OrderTif}
    (h : e.acceptAdd L ref side price quantity user tif = some (rsp, e')) :
    Writes side.isBuy (∃ f ∈ rsp, f.isTrade = true) e e' := by
  obtain ⟨entry, s, hmatch, hfin⟩ := acceptAdd_cases h
  obtain ⟨⟨tail, hrsp, htail⟩, hends⟩ := finishAdd_cases hfin
  refine writes_answer (o := e.newOrder ref side price quantity user) ?_ hmatch
    (sameTrades_ends hends) hrsp htail
  exact ⟨rfl, rfl, rfl⟩

theorem writes_processAdd {tif : OrderTif}
    (h : e.processAdd L ref side price quantity user tif = some (rsp, e')) :
    Writes side.isBuy (∃ f ∈ rsp, f.isTrade = true) e e' := by
  rcases processAdd_cases h with ⟨code, rfl, rfl⟩ | haccept
  · exact (SameTrades.refl _).writes (no_trade_singleton rfl)
  · exact writes_acceptAdd haccept

theorem sameTrades_processCancel (h : e.processCancel L ref user = some (rsp, e')) :
    SameTrades e e' := by
  rcases processCancel_cases h with ⟨-, -, wal, rfl⟩ | ⟨i, entry, -, -, -, hrem, -⟩
  · exact ⟨rfl, rfl, rfl⟩
  · have hoff := sameTrades_removeOrder hrem
    exact ⟨hoff.tradePool, hoff.buyTradeId, hoff.sellTradeId⟩

theorem sameTrades_processCancelShares {shares : UInt32}
    (h : e.processCancelShares L ref shares user = some (rsp, e')) : SameTrades e e' := by
  rcases processCancelShares_cases h with ⟨-, -, wal, rfl⟩ |
    ⟨i, entry, -, -, -, ⟨-, hrem, -⟩ | ⟨-, rfl, -⟩⟩
  · exact ⟨rfl, rfl, rfl⟩
  · have hoff := sameTrades_removeOrder hrem
    exact ⟨hoff.tradePool, hoff.buyTradeId, hoff.sellTradeId⟩
  · exact ⟨rfl, rfl, rfl⟩

theorem writes_processReplace {newRef : ℕ}
    (h : e.processReplace L ref newRef side price quantity user = some (rsp, e')) :
    Writes side.isBuy (∃ f ∈ rsp, f.isTrade = true) e e' := by
  rcases processReplace_cases h with ⟨-, rfl, wal, rfl⟩ |
    ⟨i, entry, e₁, s, -, -, -, hrem, hmatch, hfin⟩
  · have hsame : SameTrades e { e with wal := wal } := ⟨rfl, rfl, rfl⟩
    exact hsame.writes (no_trade_singleton rfl)
  · obtain ⟨⟨tail, hrsp, htail⟩, hends⟩ := finishReplace_cases hfin
    have hoff := sameTrades_removeOrder hrem
    refine writes_answer (o := e₁.newOrder newRef side price quantity newRef) ?_ hmatch
      (sameTrades_ends hends) hrsp htail
    exact ⟨hoff.tradePool, hoff.buyTradeId, hoff.sellTradeId⟩

/-- The side of the order that a call brings in. -/
def Command.takerBuys : Command → Bool
  | .add _ _ side _ _ _ _ | .replace _ _ _ side _ _ _ => side.isBuy
  | .cancel .. | .cancelShares .. => false

/-- **A call** writes the trades of the order that it brings in. -/
theorem writes_exec {c : Command} (h : e.exec c = some (rsp, e')) :
    Writes c.takerBuys (c.Trades e) e e' := by
  refine Writes.congr ?_ (exec_trades_iff h)
  cases c with
  | add => exact writes_processAdd h
  | cancel => exact (sameTrades_processCancel h).writes (processCancel_no_trade h)
  | cancelShares =>
    exact (sameTrades_processCancelShares h).writes (processCancelShares_no_trade h)
  | replace => exact writes_processReplace h

theorem writes_replayNew {entry : WalEntry} (h : e.replayNew entry = some e') :
    Writes entry.order.side.isBuy
      (e.findOrder entry.orderId = some none ∧ Meets e entry.locate.toNat entry.order) e e' := by
  obtain ⟨found, hfound, h⟩ := Option.bind_eq_some_iff.mp h
  cases found with
  | some i =>
    obtain rfl := Option.some.inj h
    exact (SameTrades.refl e).writes fun hc => by simp [hfound] at hc
  | none =>
    obtain ⟨e₁, hrest, rfl⟩ := Option.map_eq_some_iff.mp h
    obtain ⟨s, hs, hrest⟩ := Option.bind_eq_some_iff.mp hrest
    have hmatch := matchOrder_of_choice hs
    have hafter : SameTrades s.engine e₁ := by
      rw [restReplayed] at hrest
      split at hrest
      · obtain ⟨⟨ok, e₂⟩, hadd, rfl⟩ := Option.map_eq_some_iff.mp hrest
        exact sameTrades_addOrder hadd
      · exact Option.some.inj hrest ▸ SameTrades.refl _
    have hwrites := writes_matchOrder (SameTrades.refl e) hmatch
      (hafter.trans (sameTrades_raiseCounters e₁ entry))
    exact hwrites.congr ((matchOrder_out hmatch).2.trans (and_iff_right hfound).symm)

/-- The other entries of the log match nothing. -/
theorem sameTrades_replayEntry {entry : WalEntry} (htype : entry.type ≠ 0x01)
    (h : e.replayEntry entry = some e') : SameTrades e e' := by
  have hraise : ∀ e₁, SameTrades e e₁ → SameTrades e (e₁.raiseCounters entry) := fun e₁ hsame =>
    hsame.trans (sameTrades_raiseCounters e₁ entry)
  rw [replayEntry_eq, if_neg htype] at h
  split at h
  · obtain ⟨r, -, rfl⟩ := Option.map_eq_some_iff.mp h
    exact hraise _ ⟨rfl, rfl, rfl⟩
  split at h
  · obtain ⟨found, -, h⟩ := Option.bind_eq_some_iff.mp h
    cases found with
    | none => exact Option.some.inj h ▸ hraise e (SameTrades.refl e)
    | some i =>
      simp only [] at h
      split at h
      · exact Option.some.inj h ▸ hraise e (SameTrades.refl e)
      split at h
      · obtain ⟨e₁, hrem, rfl⟩ := Option.map_eq_some_iff.mp h
        exact hraise e₁ (sameTrades_removeOrder hrem)
      · exact Option.some.inj h ▸ hraise _ ⟨rfl, rfl, rfl⟩
  split at h
  · obtain ⟨found, -, h⟩ := Option.bind_eq_some_iff.mp h
    cases found with
    | none => exact Option.some.inj h ▸ hraise e (SameTrades.refl e)
    | some i =>
      simp only [] at h
      split at h
      · obtain ⟨e₁, hrem, rfl⟩ := Option.map_eq_some_iff.mp h
        exact hraise e₁ (sameTrades_removeOrder hrem)
      · exact Option.some.inj h ▸ hraise e (SameTrades.refl e)
  · exact Option.some.inj h ▸ hraise e (SameTrades.refl e)

end Calls

/-! ### Runs -/

/-- What can be done to an engine: the calls of the two interfaces, and what brings it back up.
`recoverFromWal` is one `replay` after the other. -/
inductive Operation
  /-- A call for any locate. -/
  | call (c : Command)
  /-- `processNewOrder`. -/
  | newOrder (side : Side) (price quantity : UInt32) (userId : ℕ)
  /-- An entry of the log that `recoverFromWal` reads. -/
  | replay (entry : WalEntry)
  /-- `recoverFromShared`. -/
  | recoverFromShared (capacity : ℕ)
  /-- `loadSnapshot`. -/
  | loadSnapshot (file : Snapshot)

namespace Operation

/-- The engine afterwards. -/
def perform (e : MatchingEngine) : Operation → Option MatchingEngine
  | .call c => (e.exec c).map Prod.snd
  | .newOrder side price quantity userId =>
    (e.processNewOrder side price quantity userId).map Prod.snd
  | .replay entry => e.replayEntry entry
  | .recoverFromShared capacity => e.recoverFromShared capacity
  | .loadSnapshot file => e.loadSnapshot file

/-- The side of the order that the operation matches. -/
def takerBuys : Operation → Bool
  | .call c => c.takerBuys
  | .newOrder side _ _ _ => side.isBuy
  | .replay entry => entry.order.side.isBuy
  | .recoverFromShared _ | .loadSnapshot _ => false

/-- The operation matches an order, and the order meets another one. -/
def Trades (e : MatchingEngine) : Operation → Prop
  | .call c => c.Trades e
  | .newOrder side price quantity userId =>
    Command.Trades { e with nextOrderId := e.nextOrderId + 1 }
      (.add 0 e.nextOrderId side price quantity userId .day)
  | .replay entry => entry.type = 0x01 ∧ e.findOrder entry.orderId = some none ∧
      Meets e entry.locate.toNat entry.order
  | .recoverFromShared _ | .loadSnapshot _ => False

/-- **One operation** writes the trades of the order that it matches. -/
theorem writes {op : Operation} {e e' : MatchingEngine} (h : op.perform e = some e') :
    Writes op.takerBuys (op.Trades e) e e' := by
  cases op with
  | call c =>
    obtain ⟨⟨rsp, e₁⟩, hexec, rfl⟩ := Option.map_eq_some_iff.mp h
    exact writes_exec hexec
  | newOrder side price quantity userId =>
    obtain ⟨⟨rsp, e₁⟩, hcall, rfl⟩ := Option.map_eq_some_iff.mp h
    obtain ⟨n, hiff, hwrote⟩ := @writes_exec _ _ _
      (.add 0 e.nextOrderId side price quantity userId .day) hcall
    exact ⟨n, hiff, fun takers hids => hwrote takers ⟨hids.buy, hids.sell, hids.pool⟩⟩
  | replay entry =>
    by_cases htype : entry.type = 0x01
    · have hnew : e.replayNew entry = some e' := by
        rw [← show e.replayEntry entry = some e' from h, replayEntry_eq, if_pos htype]
      exact (writes_replayNew hnew).congr (and_iff_right htype).symm
    · exact (sameTrades_replayEntry htype h).writes fun hc => htype hc.1
  | recoverFromShared capacity => exact (sameTrades_recoverFromShared h).writes id
  | loadSnapshot file => exact (sameTrades_loadSnapshot h).writes id

end Operation

/-- **The runs** of an engine with a trade pool, from its construction with the counters at zero,
and the sides of the orders that traded. -/
inductive TradingRun : MatchingEngine → List Bool → Prop
  /-- A fresh engine. -/
  | start (capacity : ℕ) (wal : Option WalWriter) :
      TradingRun { new capacity with wal := wal, tradePool := some {} } []
  /-- An operation that does not trade. -/
  | quiet {e e' : MatchingEngine} {sides : List Bool} (op : Operation) (h : TradingRun e sides)
      (hrun : op.perform e = some e') (hno : ¬op.Trades e) : TradingRun e' sides
  /-- An operation that does. -/
  | trade {e e' : MatchingEngine} {sides : List Bool} (op : Operation) (h : TradingRun e sides)
      (hrun : op.perform e = some e') (hyes : op.Trades e) :
      TradingRun e' (sides ++ [op.takerBuys])

/-- **The trades of a run** and their numbers. -/
theorem TradingRun.numbered {e : MatchingEngine} {sides : List Bool} (h : TradingRun e sides) :
    ∃ takers, Numbered e takers ∧ ∀ b, b ∈ takers ↔ b ∈ sides := by
  induction h with
  | start capacity wal =>
    exact ⟨[], ⟨rfl, rfl, {}, rfl, ⟨rfl, Ring.holds_nil _ _⟩, rfl⟩, fun b => Iff.rfl⟩
  | quiet op _ hrun hno ih =>
    obtain ⟨takers, hids, hmem⟩ := ih
    obtain ⟨n, hiff, hwrote⟩ := Operation.writes hrun
    obtain rfl : n = 0 := Nat.eq_zero_of_not_pos fun hpos => hno (hiff.mp hpos)
    exact ⟨_, hwrote takers hids, fun b => by simpa using hmem b⟩
  | trade op _ hrun hyes ih =>
    obtain ⟨takers, hids, hmem⟩ := ih
    obtain ⟨n, hiff, hwrote⟩ := Operation.writes hrun
    have hpos : n ≠ 0 := Nat.ne_of_gt (hiff.mpr hyes)
    refine ⟨_, hwrote takers hids, fun b => ?_⟩
    rw [List.mem_append, List.mem_append, hmem b, List.mem_replicate, List.mem_singleton]
    exact or_congr Iff.rfl (and_iff_right hpos)

/-- One operation more, whatever it does. -/
theorem TradingRun.perform {e e' : MatchingEngine} {sides : List Bool} (h : TradingRun e sides)
    {op : Operation} (hrun : op.perform e = some e') : ∃ sides', TradingRun e' sides' := by
  by_cases hop : op.Trades e
  · exact ⟨_, h.trade op hrun hop⟩
  · exact ⟨_, h.quiet op hrun hop⟩

theorem TradingRun.performAll {ops : List Operation} {e e' : MatchingEngine} {sides : List Bool}
    (h : TradingRun e sides) (hrun : ops.foldlM Operation.perform e = some e') :
    ∃ sides', TradingRun e' sides' := by
  induction ops generalizing e sides with
  | nil => exact Option.some.inj hrun ▸ ⟨sides, h⟩
  | cons op ops ih =>
    obtain ⟨e₁, hstep, hrest⟩ := Option.bind_eq_some_iff.mp hrun
    obtain ⟨sides₁, h₁⟩ := h.perform hstep
    exact ih h₁ hrest

end NebulaX.Exchange
