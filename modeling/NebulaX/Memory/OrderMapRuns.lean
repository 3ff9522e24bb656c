import Mathlib.Data.Finset.Card
import NebulaX.Memory.OrderMap

/-!
# The reference index as a map

What the index is for: a finite map from order references to orders. A run enters keys that are not
there, takes keys out, and looks keys up, all in one thread. An `insert` without a node left does
nothing; only the index of `src/exchange` reports it.

A bucket that has gone to the overflow map leaves its chain where it is. No call walks it any more,
but its nodes are not free either, and so it stays a chain of the bucket for good.

The numbers of the buckets have 32 bits, and there is a power of two of them, so that there can be
`2 ^ 31` of them at most. No index can be built for more orders than that.

## Main results

* `construct_eq_some_iff` — the capacities for which an index can be built
* `Tracks.insert`, `Tracks.erase` — one call
* `index_as_map` — any calls on a new index
-/

namespace NebulaX

namespace OrderMap

/-! ### Building an index -/

/-- `bucket_mask_`, which has 32 bits: so has what `roundPow2` returns. -/
def bucketMask (capacity : ℕ) : UInt32 := UInt32.ofNat (roundPow2 capacity) - 1

/-- `OrderMap(capacity)`, if that is defined. `hash_shift_` is computed from the zeros at the end of
`bucket_mask_ + 1`, which are not defined for the number zero; there are no buckets then either. -/
def construct (capacity : ℕ) : Option OrderMap :=
  if bucketMask capacity + 1 = 0 then none else some (new capacity)

/-- Doubling powers of two: the result is the least one from `n` on, if there is fuel enough. -/
theorem roundPow2From_eq (n fuel e : ℕ) : ∃ e', roundPow2From n fuel (2 ^ e) = 2 ^ e' ∧
    (n ≤ 2 ^ (e + fuel) → n ≤ 2 ^ e') ∧ ∀ b, e ≤ b → n ≤ 2 ^ b → e' ≤ b := by
  induction fuel generalizing e with
  | zero => exact ⟨e, rfl, id, fun b hb _ => hb⟩
  | succ fuel ih =>
    rw [roundPow2From]
    split
    · rename_i hlt
      obtain ⟨e', hpow, hge, hleast⟩ := ih (e + 1)
      refine ⟨e', by rw [← Nat.pow_succ', hpow], fun hn => hge ?_, fun b hb hn => ?_⟩
      · rwa [Nat.add_assoc, Nat.add_comm 1 fuel]
      · have heb : e < b := (Nat.pow_lt_pow_iff_right (by decide)).mp (Nat.lt_of_lt_of_le hlt hn)
        exact hleast b heb hn
    · rename_i hle
      exact ⟨e, rfl, fun _ => Nat.le_of_not_lt hle, fun b hb _ => hb⟩

/-- There are `2 ^ e` buckets, and the mask has 32 bits. -/
theorem bucketMask_eq_zero_iff {capacity e : ℕ} (he : roundPow2 capacity = 2 ^ e) :
    bucketMask capacity + 1 = 0 ↔ 32 ≤ e := by
  rw [bucketMask, he, UInt32.sub_add_cancel, ← UInt32.toNat_inj, UInt32.toNat_ofNat']
  constructor
  · intro hzero
    by_contra hlt
    have hsmall : 2 ^ e < 2 ^ 32 := Nat.pow_lt_pow_of_lt (by decide) (by omega)
    rw [Nat.mod_eq_of_lt hsmall] at hzero
    exact absurd hzero (Nat.ne_of_gt (Nat.two_pow_pos e))
  · intro hle
    exact Nat.mod_eq_zero_of_dvd (Nat.pow_dvd_pow 2 hle)

/-- **An index can be built** for `2 ^ 31` orders or less, and for no more. -/
theorem construct_eq_some_iff {capacity : ℕ} (hcapacity : capacity < 2 ^ 64) :
    construct capacity = some (new capacity) ↔ capacity ≤ 2 ^ 31 := by
  obtain ⟨e, he, hge, hleast⟩ := roundPow2From_eq capacity 64 0
  have hzero := bucketMask_eq_zero_iff (show roundPow2 capacity = 2 ^ e from he)
  have hlarge : 32 ≤ e ↔ 2 ^ 31 < capacity := by
    constructor
    · intro hle
      by_contra hno
      have hsmall := hleast 31 (by omega) (by omega)
      omega
    · intro hlt
      by_contra hno
      have hpow : 2 ^ e ≤ 2 ^ 31 := Nat.pow_le_pow_right (by decide) (by omega)
      have hbound := hge (by omega)
      omega
  rw [construct]
  by_cases hmask : bucketMask capacity + 1 = 0
  · rw [if_pos hmask]
    exact iff_of_false (by simp) (Nat.not_le.mpr (hlarge.mp (hzero.mp hmask)))
  · rw [if_neg hmask]
    exact iff_of_true rfl (Nat.le_of_not_lt fun hlt => hmask (hzero.mpr (hlarge.mpr hlt)))

/-! ### The bindings and their number -/

/-- **The bindings** of the index are those of `f`, and `size_` counts them. -/
structure Binds (m : OrderMap) (f : ℕ → Option ℕ) : Prop where
  /-- What can be found. -/
  lookup : ∀ k, m.lookup k = f k
  /-- How many keys there are. -/
  size : ∃ keys : Finset ℕ, (∀ k, k ∈ keys ↔ f k ≠ none) ∧ m.size = UInt64.ofNat keys.card

section Binds

variable {m m' : OrderMap} {f : ℕ → Option ℕ} {k v : ℕ}

theorem Binds.insert (h : Binds m f) (hnew : f k = none)
    (hlookup : ∀ k', m'.lookup k' = if k' = k then some v else m.lookup k')
    (hsize : m'.size = m.size + 1) : Binds m' (Function.update f k (some v)) where
  lookup k' := by rw [hlookup, Function.update_apply, h.lookup]
  size := by
    obtain ⟨keys, hmem, hcard⟩ := h.size
    have hk : k ∉ keys := fun hk => (hmem k).mp hk hnew
    refine ⟨Insert.insert k keys, fun k' => ?_, ?_⟩
    · rw [Finset.mem_insert, hmem, Function.update_apply]
      by_cases hkk : k' = k <;> simp [hkk]
    · rw [hsize, hcard, Finset.card_insert_of_notMem hk, UInt64.ofNat_add]
      rfl

theorem Binds.erase (h : Binds m f) (hk : f k ≠ none)
    (hlookup : ∀ k', m'.lookup k' = if k' = k then none else m.lookup k')
    (hsize : m'.size = m.size - 1) : Binds m' (Function.update f k none) where
  lookup k' := by rw [hlookup, Function.update_apply, h.lookup]
  size := by
    obtain ⟨keys, hmem, hcard⟩ := h.size
    have hmemk : k ∈ keys := (hmem k).mpr hk
    refine ⟨keys.erase k, fun k' => ?_, ?_⟩
    · rw [Finset.mem_erase, hmem, Function.update_apply]
      by_cases hkk : k' = k <;> simp [hkk]
    · have hsucc : UInt64.ofNat keys.card = UInt64.ofNat (keys.erase k).card + 1 := by
        rw [← Finset.card_erase_add_one hmemk, UInt64.ofNat_add]
        rfl
      rw [hsize, hcard, hsucc, UInt64.add_sub_cancel]

end Binds

/-- Moving a bucket writes the overflow map and the state of the bucket. -/
theorem eq_of_treeify {m t : OrderMap} {b : ℕ} (hb : m.state b = 0) (h : m.treeify b = some t) :
    ∃ ov, t = { m with overflow := ov, state := Function.update m.state b 2 } := by
  rw [treeify, if_neg (by simpa using hb)] at h
  obtain ⟨ov, -, rfl⟩ := Option.map_eq_some_iff.mp h
  exact ⟨ov, rfl⟩

/-! ### All chains -/

/-- **The chains of all buckets**, with those that were left behind: `D` are the chains, `C` those
of the buckets that are not in the overflow map, `F` is the free list. -/
structure AllChains (m : OrderMap) (C : ℕ → List ℕ) (F : List ℕ) (D : ℕ → List ℕ) : Prop where
  /-- A bucket that is not in the overflow map has its own chain. -/
  live : ∀ b, m.state b = 0 → D b = C b
  /-- The links of every bucket come to an end. -/
  seg : ∀ b, LinkedList.Seg (fun i => (m.nodes i).nextIdx) (m.buckets b) (D b) uint32Max
  /-- They visit nodes of the bucket only. -/
  own : ∀ b, ∀ n ∈ D b, n < m.capacity ∧ (m.nodes n).bucket = b
  /-- They visit no node twice. -/
  nodup : ∀ b, (D b).Nodup
  /-- They visit no free node. -/
  free : ∀ n ∈ F, ∀ b, n ∉ D b

namespace AllChains

variable {m m' : OrderMap} {C C' D : ℕ → List ℕ} {F : List ℕ}

/-- Chains are about nodes and heads. -/
theorem congr (h : AllChains m C F D) (hnodes : m'.nodes = m.nodes)
    (hbuckets : m'.buckets = m.buckets) (hcapacity : m'.capacity = m.capacity)
    (hlive : ∀ b, m'.state b = 0 → m.state b = 0 ∧ C' b = C b) : AllChains m' C' F D where
  live b hb := (h.live b (hlive b hb).1).trans (hlive b hb).2.symm
  seg b := by rw [hnodes, hbuckets]; exact h.seg b
  own b n hn := by rw [hnodes, hcapacity]; exact h.own b n hn
  nodup := h.nodup
  free := h.free

/-- A bucket that is moved leaves its chain behind. -/
theorem treeify (h : AllChains m C F D) {b : ℕ} {t : OrderMap} (hb : m.state b = 0)
    (ht : m.treeify b = some t) : AllChains t (Function.update C b []) F D := by
  obtain ⟨ov, rfl⟩ := eq_of_treeify hb ht
  refine h.congr rfl rfl rfl fun c hc => ?_
  have hc : Function.update m.state b 2 c = 0 := hc
  have hcb : c ≠ b := by
    rintro rfl
    simp at hc
  rw [Function.update_of_ne hcb] at hc ⊢
  exact ⟨hc, rfl⟩

/-- A node from the free list becomes the head of a chain. -/
theorem linked {n k v : ℕ} (h : AllChains m C (n :: F) D) (hn : n < m.capacity) (hnF : n ∉ F)
    (hs : m.state (m.hash k) = 0) :
    AllChains (m.linked n k v) (Function.update C (m.hash k) (n :: C (m.hash k))) F
      (Function.update D (m.hash k) (n :: D (m.hash k))) := by
  have hnD : ∀ b, n ∉ D b := h.free n List.mem_cons_self
  have hself : (m.linked n k v).nodes n = ⟨k, v, m.buckets (m.hash k), m.hash k⟩ :=
    Function.update_self ..
  have hother : ∀ b, ∀ i ∈ D b, (m.linked n k v).nodes i = m.nodes i := fun b i hi =>
    Function.update_of_ne (ne_of_mem_of_not_mem hi (hnD b)) ..
  have hkeep : ∀ b, LinkedList.Seg (fun i => ((m.linked n k v).nodes i).nextIdx) (m.buckets b)
      (D b) uint32Max := fun b => (h.seg b).congr fun i hi => by rw [hother b i hi]
  constructor
  · intro b hb
    by_cases hbk : b = m.hash k
    · rw [hbk, Function.update_self, Function.update_self, h.live _ hs]
    · rw [Function.update_of_ne hbk, Function.update_of_ne hbk]
      exact h.live b hb
  · intro b
    by_cases hbk : b = m.hash k
    · rw [hbk, Function.update_self]
      refine ⟨Function.update_self .., ?_⟩
      show LinkedList.Seg _ ((m.linked n k v).nodes n).nextIdx _ _
      rw [hself]
      exact hkeep _
    · rw [Function.update_of_ne hbk, show (m.linked n k v).buckets b = m.buckets b from
        Function.update_of_ne hbk ..]
      exact hkeep b
  · intro b i hi
    by_cases hbk : b = m.hash k
    · rw [hbk, Function.update_self] at hi
      rw [hbk]
      rcases List.mem_cons.mp hi with rfl | hi
      · rw [hself]
        exact ⟨hn, rfl⟩
      · rw [hother _ i hi]
        exact h.own _ i hi
    · rw [Function.update_of_ne hbk] at hi
      rw [hother b i hi]
      exact h.own b i hi
  · intro b
    by_cases hbk : b = m.hash k
    · rw [hbk, Function.update_self]
      exact List.nodup_cons.mpr ⟨hnD _, h.nodup _⟩
    · rw [Function.update_of_ne hbk]
      exact h.nodup b
  · intro i hi b
    have hiD := h.free i (List.mem_cons_of_mem n hi) b
    by_cases hbk : b = m.hash k
    · rw [hbk, Function.update_self]
      rw [hbk] at hiD
      exact List.not_mem_cons_of_ne_of_not_mem (ne_of_mem_of_not_mem hi hnF) hiD
    · rw [Function.update_of_ne hbk]
      exact hiD

/-- A node leaves its chain for the free list. -/
theorem release (h : AllChains m C F D) {b n : ℕ} {as bs : List ℕ} {N : ℕ → MapNode} {B : ℕ → ℕ}
    (hs : m.state b = 0) (hC : C b = as ++ n :: bs) (hun : Unlinked m b n as bs N B) :
    AllChains ({ m with nodes := N, buckets := B }.release b n)
      (Function.update C b (as ++ bs)) (n :: F) (Function.update D b (as ++ bs)) := by
  have hD : D b = as ++ n :: bs := (h.live b hs).trans hC
  have hnD : n ∈ D b := by simp [hD]
  have hsub : ∀ i ∈ as ++ bs, i ∈ D b ∧ i ≠ n := fun i hi =>
    hD ▸ LinkedList.mem_around (hD ▸ h.nodup b) hi
  -- the node has the tag of its bucket, and so it is in no other chain
  have hapart : ∀ c, c ≠ b → ∀ i ∈ D c, i ∉ D b := fun c hc i hi hib =>
    hc ((h.own c i hi).2.symm.trans (h.own b i hib).2)
  generalize hm' : ({ m with nodes := N, buckets := B } : OrderMap).release b n = m'
  have hnext : ∀ i, i ≠ n → (m'.nodes i).nextIdx = (N i).nextIdx := by
    rw [← hm']
    exact hun.release_nextIdx
  have hbucket : ∀ i, (m'.nodes i).bucket = (m.nodes i).bucket := by
    rw [← hm']
    exact fun i => (hun.release_fields i).2.2
  have hbuckets : m'.buckets = B := by rw [← hm']; rfl
  have hcapacity : m'.capacity = m.capacity := by rw [← hm']; rfl
  have hstate : m'.state = m.state := by rw [← hm']; rfl
  constructor
  · intro c hc
    rw [hstate] at hc
    by_cases hcb : c = b
    · rw [hcb, Function.update_self, Function.update_self]
    · rw [Function.update_of_ne hcb, Function.update_of_ne hcb]
      exact h.live c hc
  · intro c
    rw [hbuckets]
    by_cases hcb : c = b
    · rw [hcb, Function.update_self]
      exact hun.seg.congr fun i hi => hnext i (hsub i hi).2
    · rw [Function.update_of_ne hcb, hun.buckets c hcb]
      refine (h.seg c).congr fun i hi => ?_
      have hib := hapart c hcb i hi
      rw [hnext i fun e => hib (e ▸ hnD),
        hun.link i fun hia => hib (hD ▸ List.mem_append_left _ hia)]
  · intro c i hi
    rw [hcapacity, hbucket]
    by_cases hcb : c = b
    · rw [hcb, Function.update_self] at hi
      rw [hcb]
      exact h.own b i (hsub i hi).1
    · rw [Function.update_of_ne hcb] at hi
      exact h.own c i hi
  · intro c
    by_cases hcb : c = b
    · have hnd := h.nodup b
      rw [hD] at hnd
      rw [hcb, Function.update_self]
      exact hnd.sublist (List.Sublist.append_left (List.sublist_cons_self n bs) as)
    · rw [Function.update_of_ne hcb]
      exact h.nodup c
  · intro i hi c
    by_cases hcb : c = b
    · rw [hcb, Function.update_self]
      rcases List.mem_cons.mp hi with rfl | hi
      · exact fun hib => (hsub i hib).2 rfl
      · exact fun hib => h.free i hi b (hsub i hib).1
    · rw [Function.update_of_ne hcb]
      rcases List.mem_cons.mp hi with rfl | hi
      · exact fun hic => hapart c hcb i hic hnD
      · exact h.free i hi c

end AllChains

/-! ### One call -/

/-- **The index stands for the map `f`.** -/
def Tracks (m : OrderMap) (f : ℕ → Option ℕ) : Prop :=
  ∃ C F D, Rep m C F ∧ AllChains m C F D ∧ Binds m f

theorem tracks_new {capacity : ℕ} (hpos : 0 < capacity) (hle : capacity ≤ uint32Max) :
    Tracks (new capacity) fun _ => none :=
  ⟨_, _, fun _ => [], Rep.rep_new hpos hle,
    ⟨fun _ _ => rfl, fun _ => rfl, fun _ _ hn => absurd hn List.not_mem_nil,
      fun _ => List.nodup_nil, fun _ _ _ => List.not_mem_nil⟩,
    ⟨lookup_new hpos hle, ∅, fun k => by simp, rfl⟩⟩

section Tracks

variable {m : OrderMap} {f : ℕ → Option ℕ}

/-- **`insert` of a new key returns.** It binds the key; or no node is left, and it does nothing. -/
theorem Tracks.insert (h : Tracks m f) {k : ℕ} (hnew : f k = none) (v : ℕ) :
    (∃ m', m.insert k v = some (true, m') ∧ Tracks m' (Function.update f k (some v))) ∨
      (m.freeIdx = uint32Max ∧ m.insert k v = some (false, m)) := by
  obtain ⟨C, F, D, hrep, hall, hbinds⟩ := h
  have hlookup : m.lookup k = none := (hbinds.lookup k).trans hnew
  rcases hrep.insert_cases k v with ⟨hs, hins⟩ | ⟨hs, hins⟩ | ⟨rfl, hins⟩ |
    ⟨hs, hlen, n, F', rfl, hins⟩
  · -- the bucket is in the overflow map
    obtain ⟨hrep', hlk⟩ := hrep.overflowInsert_spec (v := v) hs
    have hall' : AllChains (m.overflowInsert k v) C F D :=
      hall.congr rfl rfl rfl fun b hb => ⟨hb, rfl⟩
    exact Or.inl ⟨_, hins, C, F, D, hrep', hall', hbinds.insert hnew hlk rfl⟩
  · -- the bucket goes there now
    obtain ⟨t, ht, hrept, hstate, hhash, hlkt⟩ := hrep.treeify_spec hs
    obtain ⟨hrep', hlk⟩ := hrept.overflowInsert_spec (k := k) (v := v) (by rwa [hhash])
    rw [ht] at hins
    have hall' : AllChains (t.overflowInsert k v) (Function.update C (m.hash k) []) F D :=
      (hall.treeify hs ht).congr rfl rfl rfl fun b hb => ⟨hb, rfl⟩
    have hsize : (t.overflowInsert k v).size = m.size + 1 := by
      obtain ⟨ov, rfl⟩ := eq_of_treeify hs ht
      rfl
    refine Or.inl ⟨_, hins, _, F, D, hrep', hall', hbinds.insert hnew (fun k' => ?_) hsize⟩
    rw [hlk, hlkt]
  · exact Or.inr ⟨LinkedList.seg_nil.mp hrep.freeSeg, hins⟩
  · -- the key goes to the head of its chain
    obtain ⟨hrep', hlk⟩ := hrep.link_spec (k := k) (v := v) rfl hs hlen hlookup rfl
    have hall' := @AllChains.linked _ _ _ _ n k v hall (hrep.freeOwn n List.mem_cons_self).1
      (List.nodup_cons.mp hrep.freeNodup).1 hs
    rcases hins with hins | hins
    · exact Or.inl ⟨_, hins, _, F', _, hrep', hall', hbinds.insert hnew hlk rfl⟩
    · obtain ⟨t, ht, hrept, -, -, hlkt⟩ := hrep'.treeify_spec (b := m.hash k) hs
      rw [ht] at hins
      have hsize : t.size = m.size + 1 := by
        obtain ⟨ov, rfl⟩ := eq_of_treeify (m := m.linked n k v) hs ht
        rfl
      refine Or.inl ⟨t, hins, _, F', _, hrept, hall'.treeify hs ht,
        hbinds.insert hnew (fun k' => ?_) hsize⟩
      rw [hlkt, hlk]

/-- **`erase` returns**, and the key is not there any more. -/
theorem Tracks.erase (h : Tracks m f) (k : ℕ) :
    ∃ m', m.erase k = some m' ∧ Tracks m' (Function.update f k none) := by
  obtain ⟨C, F, D, hrep, hall, hbinds⟩ := h
  rcases hrep.erase_cases k with ⟨hs, hov, her⟩ | ⟨hnone, her⟩ |
    ⟨hs, n, as, bs, N, B, hC, rfl, hun, her⟩
  · obtain ⟨hrep', hlk⟩ := hrep.overflow_spec hs none (m.size - 1)
    have hk : f k ≠ none := by rwa [← hbinds.lookup, hrep.lookup_eq, if_neg hs]
    refine ⟨_, her, C, F, D, hrep', ?_, hbinds.erase hk hlk rfl⟩
    exact hall.congr rfl rfl rfl fun b hb => ⟨hb, rfl⟩
  · refine ⟨m, her, ?_⟩
    rw [Function.update_eq_self_iff.mpr ((hbinds.lookup k).symm.trans hnone).symm]
    exact ⟨C, F, D, hrep, hall, hbinds⟩
  · obtain ⟨hrep', hlk⟩ := hrep.release_spec hs hC hun rfl
    have hk : f (m.nodes n).orderId ≠ none := by
      rw [← hbinds.lookup, hrep.lookup_eq, if_pos hs, Ne, Rep.chainFind_eq_none]
      exact fun hno => hno n (by simp [hC]) rfl
    exact ⟨_, her, _, _, _, hrep', hall.release hs hC hun, hbinds.erase hk hlk rfl⟩

end Tracks

/-! ### Runs -/

/-- **The runs** on an index, in one thread, and the bindings that they make: keys are entered when
they are not bound, and an `insert` that reports `false` binds nothing. -/
inductive IndexRun (m₀ : OrderMap) : (ℕ → Option ℕ) → OrderMap → Prop
  /-- Nothing has been called. -/
  | start : IndexRun m₀ (fun _ => none) m₀
  /-- A call of `insert`. -/
  | insert {f : ℕ → Option ℕ} {m m' : OrderMap} {ok : Bool} (k v : ℕ) (h : IndexRun m₀ f m)
      (hnew : f k = none) (hcall : m.insert k v = some (ok, m')) :
      IndexRun m₀ (if ok then Function.update f k (some v) else f) m'
  /-- A call of `erase`. -/
  | erase {f : ℕ → Option ℕ} {m m' : OrderMap} (k : ℕ) (h : IndexRun m₀ f m)
      (hcall : m.erase k = some m') : IndexRun m₀ (Function.update f k none) m'

/-- What the calls on an index give, in terms of a map. -/
structure ActsAs (m : OrderMap) (f : ℕ → Option ℕ) : Prop where
  /-- `find` returns, and returns the value of the key. -/
  find : ∀ k, m.find k = some (f k)
  /-- `insert` of a new key returns. If it enters nothing, no node is left, and nothing changes. -/
  insert : ∀ k v, f k = none → ∃ ok m', m.insert k v = some (ok, m') ∧
    (ok = false → m.freeIdx = uint32Max ∧ m' = m)
  /-- `erase` returns. -/
  erase : ∀ k, ∃ m', m.erase k = some m'
  /-- `size()` is the number of keys. -/
  size : ∃ keys : Finset ℕ, (∀ k, k ∈ keys ↔ f k ≠ none) ∧ m.size = UInt64.ofNat keys.card
  /-- The links of a bucket visit nodes of that bucket, none of them twice, and come to an end. -/
  chains : ∀ b, ∃ ids, LinkedList.Seg (fun i => (m.nodes i).nextIdx) (m.buckets b) ids uint32Max ∧
    ids.Nodup ∧ ∀ n ∈ ids, n < m.capacity ∧ (m.nodes n).bucket = b

/-- **All that a run can see of the index** is the map. -/
theorem Tracks.actsAs {m : OrderMap} {f : ℕ → Option ℕ} (h : Tracks m f) : ActsAs m f where
  find k := by
    obtain ⟨C, F, D, hrep, -, hbinds⟩ := h
    rw [hrep.find_lookup, hbinds.lookup]
  insert k v hnew := by
    rcases h.insert hnew v with ⟨m', hins, -⟩ | ⟨hfree, hins⟩
    · exact ⟨true, m', hins, fun hok => absurd hok (by decide)⟩
    · exact ⟨false, m, hins, fun _ => ⟨hfree, rfl⟩⟩
  erase k := (h.erase k).imp fun _ her => her.1
  size := by
    obtain ⟨-, -, -, -, -, hbinds⟩ := h
    exact hbinds.size
  chains b := by
    obtain ⟨C, F, D, -, hall, -⟩ := h
    exact ⟨D b, hall.seg b, hall.nodup b, hall.own b⟩

/-- A run keeps the index and the map together. -/
theorem IndexRun.tracks {m₀ m : OrderMap} {f : ℕ → Option ℕ} (h₀ : Tracks m₀ fun _ => none)
    (h : IndexRun m₀ f m) : Tracks m f := by
  induction h with
  | start => exact h₀
  | insert k v _ hnew hcall ih =>
    rcases ih.insert hnew v with ⟨m₁, hins, htracks⟩ | ⟨-, hins⟩
    · rw [hins] at hcall
      obtain ⟨rfl, rfl⟩ := Prod.mk.inj (Option.some.inj hcall)
      exact htracks
    · rw [hins] at hcall
      obtain ⟨rfl, rfl⟩ := Prod.mk.inj (Option.some.inj hcall)
      exact ih
  | erase k _ hcall ih =>
    obtain ⟨m₁, her, htracks⟩ := ih.erase k
    obtain rfl := Option.some.inj (her.symm.trans hcall)
    exact htracks

/-- **The index is a map.** For every capacity from 2 to `2 ^ 31` an index can be built. After any
calls of `insert` (of keys that are not bound), `find` and `erase` on it, the next call returns,
`find` gives the latest value of the key that was entered and not erased since, `size()` is the
number of keys, and the links of every bucket, also of one that has gone to the overflow map, end
and visit nodes of that bucket only. -/
theorem index_as_map {capacity : ℕ} (hlo : 2 ≤ capacity) (hhi : capacity ≤ 2 ^ 31) :
    ∃ m₀, construct capacity = some m₀ ∧ ∀ f m, IndexRun m₀ f m → ActsAs m f := by
  refine ⟨new capacity, (construct_eq_some_iff (by omega)).mpr hhi, fun f m h => ?_⟩
  have hle : capacity ≤ uint32Max := Nat.le_trans hhi (by decide)
  exact (h.tracks (tracks_new (by omega) hle)).actsAs

/-- An index for two orders. -/
theorem index_as_map_two : ∃ m₀, construct 2 = some m₀ ∧ ∀ f m, IndexRun m₀ f m → ActsAs m f :=
  index_as_map (by decide) (by decide)

/-- **An index for one order more** than `2 ^ 31` cannot be built: 32 bits are not enough for the
number of its buckets. -/
theorem index_too_large : ¬∃ m₀, construct (2 ^ 31 + 1) = some m₀ ∧
    ∀ f m, IndexRun m₀ f m → ActsAs m f := by
  rintro ⟨m₀, hm₀, -⟩
  have hmask : bucketMask (2 ^ 31 + 1) + 1 = 0 := by decide
  rw [construct, if_pos hmask] at hm₀
  exact absurd hm₀ (by simp)

end OrderMap

end NebulaX
