import Mathlib.Algebra.BigOperators.Fin
import Mathlib.Algebra.Order.Group.Abs
import Mathlib.Data.Fin.VecNotation
import NebulaX.Core.MarketEvent
import NebulaX.Lib.WeightedMean

/-!
# The arbitration

`arbitrate_decide` of `src/strategy/base/arbitrate.h`: the strategies vote with their weights, and
the side that leads by more than a threshold is acted on, with the mean strength of those that
voted for it. Weights and strengths are integers without bound: overflow of a signed integer is not
defined in the source.

The two loops are sums. The votes do not depend on how the strategies are numbered, and to turn
every signal round is to change the sign of the net vote, so the laws of the decision are laws of
sums.

## Main results

* `arbitrateDecide_eq` — the decision as a function of the net vote
* `arbitrateDecide_laws` — the laws of the weighted vote
-/

namespace NebulaX

/-- `ArbSignal`. -/
structure ArbSignal where
  /-- `side`. -/
  side : OrderSide := .none
  /-- `locate`. -/
  locate : ℕ := 0
  /-- `strength`. -/
  strength : ℤ := 0
  /-- `seq`. -/
  seq : ℕ := 0
deriving DecidableEq, Repr

/-- `ArbDecision`. -/
structure ArbDecision where
  /-- `act`. -/
  act : Bool := false
  /-- `dir`. -/
  dir : OrderSide := .none
  /-- `locate`. -/
  locate : ℕ := 0
  /-- `strength`. -/
  strength : ℤ := 0
  /-- `seq`. -/
  seq : ℕ := 0
deriving DecidableEq, Repr

/-- `sign` in the first loop of `arbitrate_decide`. -/
def OrderSide.sign : OrderSide → ℤ
  | .buy => 1
  | .sell => -1
  | .none => 0

section Loops

variable {n : ℕ} (sigs : Fin n → ArbSignal) (weightsBp : Fin n → ℤ)

/-- The first loop: `net_bp`. -/
def netBp : ℤ :=
  (List.finRange n).foldl (fun net i => net + (sigs i).side.sign * weightsBp i) 0

/-- The second loop: `sum_w` and `sum_sw`. -/
def dirSums (dir : OrderSide) : ℤ × ℤ :=
  (List.finRange n).foldl (fun sums i =>
    if (sigs i).side = dir then
      (sums.1 + weightsBp i, sums.2 + (sigs i).strength * weightsBp i)
    else sums) (0, 0)

end Loops

/-- The lines that choose `dir`. -/
def decided (netBp thresholdBp : ℤ) : OrderSide :=
  if thresholdBp < netBp then .buy else if netBp < -thresholdBp then .sell else .none

/-- `arbitrate_decide`. -/
def arbitrateDecide {n : ℕ} (sigs : Fin n → ArbSignal) (weightsBp : Fin n → ℤ) (primaryIdx : ℕ)
    (thresholdBp : ℤ) : ArbDecision :=
  if h : primaryIdx < n then
    let dir := decided (netBp sigs weightsBp) thresholdBp
    if dir = .none then {}
    else
      let sums := dirSums sigs weightsBp dir
      { act := true
        dir := dir
        strength := if 0 < sums.1 then sums.2.tdiv sums.1 else 0
        locate := (sigs ⟨primaryIdx, h⟩).locate
        seq := (sigs ⟨primaryIdx, h⟩).seq }
  else {}

/-! ### The loops are sums -/

section Sums

variable {n : ℕ} {sigs : Fin n → ArbSignal} {weightsBp : Fin n → ℤ}

/-- A loop that adds something for each index. -/
theorem foldl_add_eq_sum (f : Fin n → ℤ) (a : ℤ) :
    (List.finRange n).foldl (fun acc i => acc + f i) a = a + ∑ i, f i := by
  have hlist : ∀ (is : List (Fin n)) (a : ℤ),
      is.foldl (fun acc i => acc + f i) a = a + (is.map f).sum := by
    intro is
    induction is with
    | nil => exact fun a => (add_zero a).symm
    | cons i is ih =>
      intro a
      rw [List.foldl_cons, ih, List.map_cons, List.sum_cons, add_assoc]
  rw [hlist, ← List.ofFn_eq_map, List.sum_ofFn]

/-- The strategies that vote for a side. -/
def voters (sigs : Fin n → ArbSignal) (dir : OrderSide) : Finset (Fin n) :=
  Finset.univ.filter fun i => (sigs i).side = dir

/-- The weight of a side. -/
def sideWeight (sigs : Fin n → ArbSignal) (weightsBp : Fin n → ℤ) (dir : OrderSide) : ℤ :=
  ∑ i ∈ voters sigs dir, weightsBp i

theorem dirSums_eq (dir : OrderSide) : dirSums sigs weightsBp dir =
    (sideWeight sigs weightsBp dir,
      ∑ i ∈ voters sigs dir, (sigs i).strength * weightsBp i) := by
  have hpair : ∀ (is : List (Fin n)) (a b : ℤ), is.foldl (fun sums i =>
      if (sigs i).side = dir then
        (sums.1 + weightsBp i, sums.2 + (sigs i).strength * weightsBp i)
      else sums) (a, b) =
      (is.foldl (fun acc i => acc + if (sigs i).side = dir then weightsBp i else 0) a,
        is.foldl (fun acc i => acc +
          if (sigs i).side = dir then (sigs i).strength * weightsBp i else 0) b) := by
    intro is
    induction is with
    | nil => exact fun _ _ => rfl
    | cons i is ih =>
      intro a b
      rw [List.foldl_cons, List.foldl_cons, List.foldl_cons]
      split
      · exact ih _ _
      · rw [add_zero, add_zero]
        exact ih a b
  rw [dirSums, hpair, foldl_add_eq_sum, foldl_add_eq_sum, zero_add, zero_add, sideWeight, voters,
    Finset.sum_filter, Finset.sum_filter]

/-- **The net vote** is the weight of the buyers less that of the sellers. -/
theorem netBp_eq : netBp sigs weightsBp =
    sideWeight sigs weightsBp .buy - sideWeight sigs weightsBp .sell := by
  rw [netBp, foldl_add_eq_sum, zero_add, sideWeight, sideWeight, voters, voters,
    Finset.sum_filter, Finset.sum_filter, ← Finset.sum_sub_distrib]
  refine Finset.sum_congr rfl fun i _ => ?_
  cases (sigs i).side with
  | buy => simp [OrderSide.sign]
  | sell => simp [OrderSide.sign]
  | none => simp [OrderSide.sign]

end Sums

/-! ### The decision -/

/-- The other side. -/
def OrderSide.flip : OrderSide → OrderSide
  | .buy => .sell
  | .sell => .buy
  | .none => .none

theorem decided_eq_none_iff {net thresholdBp : ℤ} :
    decided net thresholdBp = .none ↔ |net| ≤ thresholdBp := by
  rw [decided, abs_le]
  split
  · next h => exact iff_of_false OrderSide.noConfusion fun hc => absurd hc.2 (not_le.mpr h)
  · next h =>
    split
    · next h' => exact iff_of_false OrderSide.noConfusion fun hc => absurd hc.1 (not_le.mpr h')
    · next h' => exact iff_of_true rfl ⟨not_lt.mp h', not_lt.mp h⟩

/-- A vote with the sign changed decides for the other side. -/
theorem decided_neg {net thresholdBp : ℤ} (h : 0 ≤ thresholdBp) :
    decided (-net) thresholdBp = (decided net thresholdBp).flip := by
  rw [decided, decided]
  by_cases hbuy : thresholdBp < net
  · rw [if_pos hbuy, if_neg (by omega), if_pos (by omega)]
    rfl
  · by_cases hsell : net < -thresholdBp
    · rw [if_neg hbuy, if_pos hsell, if_pos (by omega)]
      rfl
    · rw [if_neg hbuy, if_neg hsell, if_neg (by omega), if_neg (by omega)]
      rfl

/-- **The side that is acted on** leads by more than the threshold. -/
theorem lt_of_decided {w : OrderSide → ℤ} {thresholdBp : ℤ}
    (hdir : decided (w .buy - w .sell) thresholdBp ≠ .none) :
    w (decided (w .buy - w .sell) thresholdBp).flip + thresholdBp <
      w (decided (w .buy - w .sell) thresholdBp) := by
  rw [decided] at hdir ⊢
  split
  · show w .sell + _ < w .buy
    omega
  · next hbuy =>
    rw [if_neg hbuy] at hdir
    split
    · show w .buy + _ < w .sell
      omega
    · next hsell => exact absurd (if_neg hsell) hdir

section Laws

variable {n : ℕ} {sigs : Fin n → ArbSignal} {weightsBp : Fin n → ℤ} {thresholdBp : ℤ}

/-- The decision, when the net vote is for a side. -/
def decisionFor (sigs : Fin n → ArbSignal) (weightsBp : Fin n → ℤ) (primary : Fin n) :
    OrderSide → ArbDecision
  | .none => {}
  | dir =>
    { act := true
      dir := dir
      strength := WeightedMean.mean (voters sigs dir) weightsBp fun i => (sigs i).strength
      locate := (sigs primary).locate
      seq := (sigs primary).seq }

/-- A side that is acted on has weight. -/
theorem sideWeight_pos (hweights : ∀ i, 0 ≤ weightsBp i) (hthreshold : 0 ≤ thresholdBp)
    {dir : OrderSide} (hdir : decided (netBp sigs weightsBp) thresholdBp = dir)
    (hne : dir ≠ .none) : sideWeight sigs weightsBp dir.flip + thresholdBp <
      sideWeight sigs weightsBp dir ∧ 0 < sideWeight sigs weightsBp dir := by
  subst hdir
  rw [netBp_eq] at hne ⊢
  have hlt := lt_of_decided hne
  have hother : 0 ≤ sideWeight sigs weightsBp (decided (sideWeight sigs weightsBp .buy -
      sideWeight sigs weightsBp .sell) thresholdBp).flip :=
    Finset.sum_nonneg fun i _ => hweights i
  exact ⟨hlt, by omega⟩

/-- **The decision** depends on the net vote, and is of mean strength. -/
theorem arbitrateDecide_eq (hstrengths : ∀ i, 0 ≤ (sigs i).strength)
    (hweights : ∀ i, 0 ≤ weightsBp i) (hthreshold : 0 ≤ thresholdBp) (primary : Fin n) :
    arbitrateDecide sigs weightsBp primary thresholdBp =
      decisionFor sigs weightsBp primary (decided (netBp sigs weightsBp) thresholdBp) := by
  rw [arbitrateDecide, dif_pos primary.isLt]
  dsimp only
  generalize hdir : decided (netBp sigs weightsBp) thresholdBp = dir
  by_cases hnone : dir = .none
  · rw [if_pos hnone, hnone]
    rfl
  · have hpos : 0 < (dirSums sigs weightsBp dir).1 := by
      rw [dirSums_eq]
      exact (sideWeight_pos hweights hthreshold hdir hnone).2
    have hstrength : (dirSums sigs weightsBp dir).2.tdiv (dirSums sigs weightsBp dir).1 =
        WeightedMean.mean (voters sigs dir) weightsBp fun i => (sigs i).strength := by
      rw [dirSums_eq]
      have hsum : 0 ≤ ∑ i ∈ voters sigs dir, (sigs i).strength * weightsBp i :=
        Finset.sum_nonneg fun i _ => mul_nonneg (hstrengths i) (hweights i)
      exact Int.tdiv_eq_ediv_of_nonneg hsum
    rw [if_neg hnone, if_pos hpos, hstrength]
    cases dir with
    | buy => rfl
    | sell => rfl
    | none => exact absurd rfl hnone

/-- A signal for the other side. -/
def ArbSignal.flip (s : ArbSignal) : ArbSignal := { s with side := s.side.flip }

theorem voters_flip (sigs : Fin n → ArbSignal) (dir : OrderSide) :
    voters (fun i => (sigs i).flip) dir = voters sigs dir.flip := by
  refine Finset.filter_congr fun i _ => ?_
  show (sigs i).side.flip = dir ↔ _
  cases (sigs i).side <;> cases dir <;> decide

/-- **Turning every signal round** turns the decision round, and changes nothing else. -/
theorem decisionFor_flip (primary : Fin n) (dir : OrderSide) :
    decisionFor (fun i => (sigs i).flip) weightsBp primary dir.flip =
      { decisionFor sigs weightsBp primary dir with dir := dir.flip } := by
  have hmean : WeightedMean.mean (voters (fun i => (sigs i).flip) dir.flip) weightsBp
      (fun i => (sigs i).flip.strength) =
      WeightedMean.mean (voters sigs dir) weightsBp fun i => (sigs i).strength := by
    rw [voters_flip, show dir.flip.flip = dir by cases dir <;> rfl]
    rfl
  cases dir with
  | buy =>
    rw [OrderSide.flip] at hmean ⊢
    rw [decisionFor, hmean]
    · rfl
    · exact OrderSide.noConfusion
  | sell =>
    rw [OrderSide.flip] at hmean ⊢
    rw [decisionFor, hmean]
    · rfl
    · exact OrderSide.noConfusion
  | none => rfl

/-- Sums over the voters do not depend on the numbering. -/
theorem sum_voters_perm (σ : Equiv.Perm (Fin n)) (f : Fin n → ℤ) (dir : OrderSide) :
    ∑ i ∈ voters (fun i => sigs (σ i)) dir, f (σ i) = ∑ i ∈ voters sigs dir, f i := by
  rw [voters, voters, Finset.sum_filter, Finset.sum_filter]
  exact Equiv.sum_comp σ fun i => if (sigs i).side = dir then f i else 0

theorem decisionFor_perm (σ : Equiv.Perm (Fin n)) (primary : Fin n) (dir : OrderSide) :
    decisionFor (fun i => sigs (σ i)) (fun i => weightsBp (σ i)) (σ.symm primary) dir =
      decisionFor sigs weightsBp primary dir := by
  have hmean : WeightedMean.mean (voters (fun i => sigs (σ i)) dir) (fun i => weightsBp (σ i))
      (fun i => (sigs (σ i)).strength) =
      WeightedMean.mean (voters sigs dir) weightsBp fun i => (sigs i).strength := by
    rw [WeightedMean.mean, WeightedMean.mean]
    exact congrArg₂ (· / ·)
      (sum_voters_perm σ (fun i => (sigs i).strength * weightsBp i) dir)
      (sum_voters_perm σ weightsBp dir)
  have hprimary : sigs (σ (σ.symm primary)) = sigs primary :=
    congrArg sigs (σ.apply_symm_apply primary)
  cases dir with
  | buy => simp only [decisionFor, hmean, hprimary]
  | sell => simp only [decisionFor, hmean, hprimary]
  | none => rfl

/-- What is acted on. -/
theorem acts_of_decisionFor {primary : Fin n} (hweights : ∀ i, 0 ≤ weightsBp i)
    (hthreshold : 0 ≤ thresholdBp)
    (hact : (decisionFor sigs weightsBp primary
      (decided (netBp sigs weightsBp) thresholdBp)).act = true) :
    ∃ dir, dir ≠ .none ∧ decided (netBp sigs weightsBp) thresholdBp = dir ∧
      (decisionFor sigs weightsBp primary dir).dir = dir ∧
      sideWeight sigs weightsBp dir.flip + thresholdBp < sideWeight sigs weightsBp dir ∧
      (∃ i ∈ voters sigs dir, 0 < weightsBp i ∧
        (sigs i).strength ≤ (decisionFor sigs weightsBp primary dir).strength) ∧
      ∃ i ∈ voters sigs dir, 0 < weightsBp i ∧
        (decisionFor sigs weightsBp primary dir).strength ≤ (sigs i).strength := by
  generalize hdir : decided (netBp sigs weightsBp) thresholdBp = dir at hact
  have hne : dir ≠ .none := by
    rintro rfl
    exact absurd hact Bool.false_ne_true
  obtain ⟨hlead, hpos⟩ := sideWeight_pos hweights hthreshold hdir hne
  have hread : (decisionFor sigs weightsBp primary dir).dir = dir ∧
      (decisionFor sigs weightsBp primary dir).strength =
        WeightedMean.mean (voters sigs dir) weightsBp fun i => (sigs i).strength := by
    cases dir with
    | buy => exact ⟨rfl, rfl⟩
    | sell => exact ⟨rfl, rfl⟩
    | none => exact absurd rfl hne
  refine ⟨dir, hne, rfl, hread.1, hlead, ?_⟩
  rw [hread.2]
  exact ⟨WeightedMean.exists_le_mean (fun i _ => hweights i) hpos,
    WeightedMean.exists_mean_le (fun i _ => hweights i) hpos⟩

/-- **The laws of the weighted vote.** If it acts, the side leads by more than the threshold, and
the strength lies between the strengths of two strategies on that side that have weight. It does
not act exactly if the net vote is within the threshold. Turning every signal round turns the
decision round. The numbering of the strategies does not matter. -/
theorem arbitrateDecide_laws (hstrengths : ∀ i, 0 ≤ (sigs i).strength)
    (hweights : ∀ i, 0 ≤ weightsBp i) (hthreshold : 0 ≤ thresholdBp) (primary : Fin n)
    {d : ArbDecision} (hd : arbitrateDecide sigs weightsBp primary thresholdBp = d) :
    (d.act = true → d.dir ≠ .none ∧
      sideWeight sigs weightsBp d.dir.flip + thresholdBp < sideWeight sigs weightsBp d.dir ∧
      (∃ i ∈ voters sigs d.dir, 0 < weightsBp i ∧ (sigs i).strength ≤ d.strength) ∧
      ∃ i ∈ voters sigs d.dir, 0 < weightsBp i ∧ d.strength ≤ (sigs i).strength) ∧
    (d.act = false ↔
      |sideWeight sigs weightsBp .buy - sideWeight sigs weightsBp .sell| ≤ thresholdBp) ∧
    arbitrateDecide (fun i => (sigs i).flip) weightsBp primary thresholdBp =
      { d with dir := d.dir.flip } ∧
    ∀ σ : Equiv.Perm (Fin n), arbitrateDecide (fun i => sigs (σ i)) (fun i => weightsBp (σ i))
      (σ.symm primary) thresholdBp = d := by
  rw [arbitrateDecide_eq hstrengths hweights hthreshold] at hd
  subst hd
  refine ⟨fun hact => ?_, ?_, ?_, fun σ => ?_⟩
  · obtain ⟨dir, hne, hdir, hsame, hlead, hbounds⟩ :=
      acts_of_decisionFor hweights hthreshold hact
    rw [hdir, hsame]
    exact ⟨hne, hlead, hbounds⟩
  · rw [← netBp_eq, ← decided_eq_none_iff]
    cases decided (netBp sigs weightsBp) thresholdBp <;> simp [decisionFor]
  · have hflip : netBp (fun i => (sigs i).flip) weightsBp = -netBp sigs weightsBp := by
      rw [netBp_eq, netBp_eq, sideWeight, sideWeight, voters_flip, voters_flip]
      exact (neg_sub _ _).symm
    have hflipped : ∀ i, 0 ≤ (sigs i).flip.strength := hstrengths
    rw [arbitrateDecide_eq hflipped hweights hthreshold, hflip, decided_neg hthreshold,
      decisionFor_flip]
    cases decided (netBp sigs weightsBp) thresholdBp <;> rfl
  · have hperm : netBp (fun i => sigs (σ i)) (fun i => weightsBp (σ i)) =
        netBp sigs weightsBp := by
      rw [netBp_eq, netBp_eq]
      exact congrArg₂ (· - ·) (sum_voters_perm σ weightsBp _) (sum_voters_perm σ weightsBp _)
    rw [arbitrateDecide_eq (fun i => hstrengths (σ i)) (fun i => hweights (σ i)) hthreshold,
      hperm]
    exact decisionFor_perm σ primary _

/-- Two strategies for a side, and one of more weight against them, with its symbol and strength. -/
theorem arbitrateDecide_laws_three :
    arbitrateDecide ![⟨.sell, 1, 8000, 10⟩, ⟨.buy, 2, 5000, 11⟩, ⟨.sell, 1, 3000, 12⟩]
      ![4000, 10000, 5000] 1 0 = ⟨true, .buy, 2, 5000, 11⟩ ∧
    arbitrateDecide (fun i => (![⟨.sell, 1, 8000, 10⟩, ⟨.buy, 2, 5000, 11⟩,
      ⟨.sell, 1, 3000, 12⟩] i : ArbSignal).flip) ![4000, 10000, 5000] 1 0 =
        ⟨true, .sell, 2, 5000, 11⟩ := by
  have hd : arbitrateDecide ![⟨.sell, 1, 8000, 10⟩, ⟨.buy, 2, 5000, 11⟩, ⟨.sell, 1, 3000, 12⟩]
      ![4000, 10000, 5000] 1 0 = ⟨true, .buy, 2, 5000, 11⟩ := by decide +kernel
  exact ⟨hd, (arbitrateDecide_laws (by decide) (by decide) (by decide) (1 : Fin 3) hd).2.2.1⟩

end Laws

end NebulaX
