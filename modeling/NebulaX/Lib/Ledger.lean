import Mathlib.Algebra.Order.Group.Nat
import Mathlib.Logic.Relation

/-!
# A ledger with reservations

What is held of one good, under a limit, by a trader whose bids and offers are taken up at any
later time. No more may be held than the limit, and no more may be sold than was bought. It is
enough to look at the moment an order is made: a bid needs room for itself and for all bids that
are open, and an offer needs goods that no open offer has reserved. Whatever is taken up
afterwards, in any order and in any parts, fits.

## Main results

* `Step.sound`, `Reachable.sound` — a ledger is sound
* `Sound.sold_le` — what is sold was bought
-/

namespace NebulaX

/-- What is held, what was bought and sold, and what is still open. -/
@[ext] structure Ledger where
  /-- The goods at hand. -/
  held : ℕ
  /-- All that was bought. -/
  bought : ℕ
  /-- All that was sold. -/
  sold : ℕ
  /-- What open bids may still buy. -/
  bids : ℕ
  /-- What open offers may still sell. -/
  offers : ℕ

namespace Ledger

variable {limit : ℕ} {l l' : Ledger}

/-- **What may happen**: reservations, and what becomes of them. -/
inductive Step (limit : ℕ) (l : Ledger) : Ledger → Prop
  /-- A bid is made, if there is room. -/
  | bid (n : ℕ) (h : l.held + l.bids + n ≤ limit) : Step limit l { l with bids := l.bids + n }
  /-- An offer is made, if there are goods. -/
  | offer (n : ℕ) (h : l.offers + n ≤ l.held) : Step limit l { l with offers := l.offers + n }
  /-- A part of the bids is taken up. -/
  | buy (n : ℕ) (h : n ≤ l.bids) :
    Step limit l { l with held := l.held + n, bought := l.bought + n, bids := l.bids - n }
  /-- A part of the offers is taken up. -/
  | sell (n : ℕ) (h : n ≤ l.offers) :
    Step limit l { l with held := l.held - n, sold := l.sold + n, offers := l.offers - n }
  /-- Bids and offers are withdrawn. -/
  | release (bids offers : ℕ) (hbids : bids ≤ l.bids) (hoffers : offers ≤ l.offers) :
    Step limit l { l with bids := bids, offers := offers }

/-- A ledger that nothing was written in. -/
def empty : Ledger := ⟨0, 0, 0, 0, 0⟩

/-- The ledgers that come of it. -/
abbrev Reachable (limit : ℕ) : Ledger → Prop := Relation.ReflTransGen (Step limit) empty

/-- **A sound ledger** has room for its bids and goods for its offers. -/
structure Sound (limit : ℕ) (l : Ledger) : Prop where
  /-- What is held was bought and not sold. -/
  balanced : l.held + l.sold = l.bought
  /-- There is room for all bids. -/
  room : l.held + l.bids ≤ limit
  /-- There are goods for all offers. -/
  covered : l.offers ≤ l.held

theorem Sound.held_le (h : l.Sound limit) : l.held ≤ limit := (Nat.le_add_right _ _).trans h.room

/-- **Nothing is sold** that was not bought. -/
theorem Sound.sold_le (h : l.Sound limit) : l.sold ≤ l.bought :=
  (Nat.le_add_left _ _).trans_eq h.balanced

theorem Step.sound (hs : Step limit l l') (h : l.Sound limit) : l'.Sound limit := by
  obtain ⟨hbalanced, hroom, hcovered⟩ := h
  cases hs with
  | bid n hfits => exact ⟨hbalanced, (Nat.add_assoc ..).symm.trans_le hfits, hcovered⟩
  | offer n hfits => exact ⟨hbalanced, hroom, hfits⟩
  | buy n hn =>
    constructor
    · show l.held + n + l.sold = l.bought + n
      omega
    · show l.held + n + (l.bids - n) ≤ limit
      omega
    · exact hcovered.trans (Nat.le_add_right _ _)
  | sell n hn =>
    constructor
    · show l.held - n + (l.sold + n) = l.bought
      omega
    · show l.held - n + l.bids ≤ limit
      omega
    · exact Nat.sub_le_sub_right hcovered n
  | release bids offers hbids hoffers =>
    exact ⟨hbalanced, (Nat.add_le_add_left hbids _).trans hroom, hoffers.trans hcovered⟩

/-- **A ledger is sound**, whatever was taken up. -/
theorem Reachable.sound (h : Reachable limit l) : l.Sound limit := by
  induction h with
  | refl => exact ⟨rfl, Nat.zero_le _, le_rfl⟩
  | tail _ hstep ih => exact hstep.sound ih

end Ledger

end NebulaX
