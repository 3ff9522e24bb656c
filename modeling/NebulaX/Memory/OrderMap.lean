import NebulaX.Memory.OrderPool

/-!
# The reference index

`OrderMap` finds the pool slot of an order reference. The source has it twice, in
`src/exchange/order_map.h` and `src/core/memory/order_map.h`, with the same body; the copies
differ in the pointer type and in whether `insert` reports its result. A pointer into a pool is a
slot index here, so one model serves both.

The table is an array of buckets, each the head of a chain of nodes. All nodes come from one
array; a node not in a chain is on a free list threaded through the same link field. When a
chain reaches eight nodes the bucket is copied to a `std::map` (`treeify`) and its chain is left
behind: from then on `state` routes the bucket to the map.

## Sequential use

In sequential use every compare-and-swap succeeds at the first try, so the retry loops around
them and the second look at `state_` are left out. Two things of the concurrent design stay
visible and are modelled. The head of the free list carries a tag that every pop and push
increments, and `insert` compares the *whole* 64-bit word with `UINT32_MAX`. And `find` and
`erase` start over when a node is not tagged with the bucket they walk; sequentially nothing
changes in between, so starting over means never returning. A call that does not return is
`none`, as is a chain walk longer than the node array.

## Main results

* `Rep` — the representation invariant: chains, free list and overflow map
* `Rep.insert_cases`, `Rep.erase_cases` — what `insert` and `erase` do to such a representation
* `Rep.find_eq`, `Inv.insert_spec`, `Inv.erase_spec` — under it every call returns, `find` reads
  a partial function `lookup`, and `insert` and `erase` update that function at one key;
  an `insert` that reports `false` changes nothing
* `Spare.insert` — while nodes are left, no `insert` reports `false`
-/

namespace NebulaX

/-- `OrderMap::Node`. -/
structure MapNode where
  /-- `order_id`. -/
  orderId : ℕ := 0
  /-- `order`, a pointer into the pool. -/
  order : ℕ := 0
  /-- `next_idx`, the chain or free-list link. -/
  nextIdx : ℕ
  /-- `bucket`, the bucket the node was put in. -/
  bucket : ℕ := 0

/-- The reference index. -/
structure OrderMap where
  /-- `nodes_`. -/
  nodes : ℕ → MapNode
  /-- `buckets_`, the chain heads. -/
  buckets : ℕ → ℕ
  /-- `bucket_len_`. -/
  bucketLen : ℕ → UInt16
  /-- `state_`: 0 chain, 2 moved to the overflow map. -/
  state : ℕ → UInt8
  /-- `hash_shift_`. -/
  hashShift : ℕ
  /-- `capacity_`, the number of nodes. -/
  capacity : ℕ
  /-- The tag half of `free_head_`. -/
  freeTag : UInt32
  /-- The index half of `free_head_`. -/
  freeIdx : ℕ
  /-- `size_`. -/
  size : UInt64
  /-- `overflow_`. -/
  overflow : ℕ → Option ℕ

namespace OrderMap

/-- `TREEIFY_THRESHOLD`. -/
def treeifyThreshold : UInt16 := 8

/-- The loop of `roundPow2`: double `p` until it reaches `n`. -/
def roundPow2From (n : ℕ) : ℕ → ℕ → ℕ
  | 0, p => p
  | fuel + 1, p => if p < n then roundPow2From n fuel (2 * p) else p

/-- `roundPow2`: the least power of two from `n` on. -/
def roundPow2 (n : ℕ) : ℕ := roundPow2From n 64 1

/-- `OrderMap(capacity)`: all nodes free in order, all buckets empty. -/
def new (capacity : ℕ) : OrderMap where
  nodes := fun i => { nextIdx := if i + 1 < capacity then i + 1 else uint32Max }
  buckets := fun _ => uint32Max
  bucketLen := fun _ => 0
  state := fun _ => 0
  hashShift := 64 - (roundPow2 capacity).log2
  capacity := capacity
  freeTag := 0
  freeIdx := 0
  size := 0
  overflow := fun _ => none

/-- `hash`: the high bits of the product with the golden ratio constant. -/
def hash (m : OrderMap) (id : ℕ) : ℕ :=
  (id * 0x9E3779B97F4A7C15 % 2 ^ 64) >>> m.hashShift

/-- `allocNode`. -/
def allocNode (m : OrderMap) : Option (ℕ × OrderMap) :=
  if m.freeIdx = uint32Max then none
  else some (m.freeIdx,
    { m with freeIdx := (m.nodes m.freeIdx).nextIdx, freeTag := m.freeTag + 1 })

/-- Write the link of node `i`. -/
def setNext (nodes : ℕ → MapNode) (i v : ℕ) : ℕ → MapNode :=
  Function.update nodes i { nodes i with nextIdx := v }

/-- It writes nothing else. -/
theorem setNext_fields (nodes : ℕ → MapNode) (i v j : ℕ) :
    (setNext nodes i v j).orderId = (nodes j).orderId ∧
      (setNext nodes i v j).order = (nodes j).order ∧
      (setNext nodes i v j).bucket = (nodes j).bucket := by
  by_cases hj : j = i <;> simp [setNext, hj]

/-- `freeNode`. -/
def freeNode (m : OrderMap) (idx : ℕ) : OrderMap :=
  { m with nodes := setNext m.nodes idx m.freeIdx, freeIdx := idx, freeTag := m.freeTag + 1 }

/-- The copy loop of `treeify`: enter the chain from `cur` into the overflow map. -/
def copyChain (nodes : ℕ → MapNode) : ℕ → ℕ → (ℕ → Option ℕ) → Option (ℕ → Option ℕ)
  | 0, _, _ => none
  | fuel + 1, cur, ov =>
    if cur = uint32Max then some ov
    else copyChain nodes fuel (nodes cur).nextIdx
      (Function.update ov (nodes cur).orderId (some (nodes cur).order))

/-- `treeify`: move bucket `b` to the overflow map. The chain stays as it is. -/
def treeify (m : OrderMap) (b : ℕ) : Option OrderMap :=
  if m.state b ≠ 0 then some m
  else (copyChain m.nodes (m.capacity + 1) (m.buckets b) m.overflow).map fun ov =>
    { m with overflow := ov, state := Function.update m.state b 2 }

/-- The three lines that enter a key into the overflow map. -/
def overflowInsert (m : OrderMap) (orderId order : ℕ) : OrderMap :=
  { m with overflow := Function.update m.overflow orderId (some order), size := m.size + 1 }

/-- `free_head_ == UINT32_MAX`, which compares tag and index at once. -/
def freeHeadExhausted (m : OrderMap) : Bool := m.freeTag = 0 ∧ m.freeIdx = uint32Max

/-- `insert`: `false` when no node is left and the entry is dropped. -/
def insert (m : OrderMap) (orderId order : ℕ) : Option (Bool × OrderMap) :=
  let b := m.hash orderId
  if m.state b ≠ 0 then some (true, m.overflowInsert orderId order)
  else if treeifyThreshold ≤ m.bucketLen b ∨ m.freeHeadExhausted then
    (m.treeify b).map fun m' => (true, m'.overflowInsert orderId order)
  else match m.allocNode with
    | none => some (false, m)
    | some (idx, m') =>
      let m'' := { m' with
        nodes := Function.update m'.nodes idx ⟨orderId, order, m'.buckets b, b⟩
        buckets := Function.update m'.buckets b idx
        bucketLen := Function.update m'.bucketLen b (m'.bucketLen b + 1)
        size := m'.size + 1 }
      if treeifyThreshold ≤ m''.bucketLen b then (m''.treeify b).map fun t => (true, t)
      else some (true, m'')

/-- The lines of `insert` that put the key into node `n`, at the head of its chain. -/
def linked (m : OrderMap) (n orderId order : ℕ) : OrderMap :=
  let b := m.hash orderId
  { m with
    nodes := Function.update m.nodes n ⟨orderId, order, m.buckets b, b⟩
    buckets := Function.update m.buckets b n
    bucketLen := Function.update m.bucketLen b (m.bucketLen b + 1)
    freeIdx := (m.nodes n).nextIdx
    freeTag := m.freeTag + 1
    size := m.size + 1 }

/-- The chain walk of `find`. -/
def findFrom (m : OrderMap) (b orderId : ℕ) : ℕ → ℕ → Option (Option ℕ)
  | 0, _ => none
  | fuel + 1, idx =>
    if idx = uint32Max then some none
    else if (m.nodes idx).bucket ≠ b then none
    else if (m.nodes idx).orderId = orderId then some (some (m.nodes idx).order)
    else findFrom m b orderId fuel (m.nodes idx).nextIdx

/-- `find`. The outer `none` is a call that does not return, the inner one `nullptr`. -/
def find (m : OrderMap) (orderId : ℕ) : Option (Option ℕ) :=
  let b := m.hash orderId
  if m.state b ≠ 0 then some (m.overflow orderId)
  else m.findFrom b orderId (m.capacity + 1) (m.buckets b)

/-- The lines of `erase` after a node has been unlinked. -/
def release (m : OrderMap) (b idx : ℕ) : OrderMap :=
  { m.freeNode idx with
    bucketLen := Function.update m.bucketLen b (m.bucketLen b - 1), size := m.size - 1 }

/-- The loop of `erase` over predecessors. -/
def eraseFrom (m : OrderMap) (b orderId : ℕ) : ℕ → ℕ → Option OrderMap
  | 0, _ => none
  | fuel + 1, idx =>
    if idx = uint32Max then some m
    else if (m.nodes idx).bucket ≠ b then none
    else
      let next := (m.nodes idx).nextIdx
      if next = uint32Max then some m
      else if (m.nodes next).orderId = orderId then
        some ({ m with nodes := setNext m.nodes idx (m.nodes next).nextIdx }.release b next)
      else eraseFrom m b orderId fuel next

/-- `erase`. -/
def erase (m : OrderMap) (orderId : ℕ) : Option OrderMap :=
  let b := m.hash orderId
  if m.state b ≠ 0 then
    match m.overflow orderId with
    | some _ => some { m with overflow := Function.update m.overflow orderId none,
                              size := m.size - 1 }
    | none => some m
  else
    let idx := m.buckets b
    if idx = uint32Max then some m
    else if (m.nodes idx).orderId = orderId then
      some ({ m with buckets := Function.update m.buckets b (m.nodes idx).nextIdx }.release b idx)
    else m.eraseFrom b orderId (m.capacity + 1) idx

/-- Erase one key after the other. -/
def eraseAll (m : OrderMap) : List ℕ → Option OrderMap
  | [] => some m
  | orderId :: ids => (m.erase orderId).bind fun m => m.eraseAll ids

theorem eraseAll_append (m : OrderMap) (ids ids' : List ℕ) :
    m.eraseAll (ids ++ ids') = (m.eraseAll ids).bind fun m => m.eraseAll ids' := by
  induction ids generalizing m with
  | nil => rfl
  | cons id ids ih =>
    rw [List.cons_append, eraseAll, eraseAll, Option.bind_assoc]
    exact congrArg _ (funext fun m => ih m)

/-- `insert` has a place for the key: its bucket is in the overflow map or goes there now, or a
node is left. -/
def takes (m : OrderMap) (orderId : ℕ) : Bool :=
  m.state (m.hash orderId) ≠ 0 ∨ treeifyThreshold ≤ m.bucketLen (m.hash orderId) ∨
    m.freeHeadExhausted = true ∨ m.freeIdx ≠ uint32Max

/-- The partial function that `find` reads. -/
def lookup (m : OrderMap) (orderId : ℕ) : Option ℕ := (m.find orderId).getD none

/-! ### The representation invariant -/

/-- What a chain says about a key: the value of its first node with that key. -/
def chainFind (nodes : ℕ → MapNode) (ids : List ℕ) (k : ℕ) : Option ℕ :=
  (ids.find? fun n => (nodes n).orderId = k).map fun n => (nodes n).order

/-- The chains of `m` are `C`, its free list is `F`. A bucket that went to the overflow map has
no chain any more: the nodes it left behind are in neither. -/
structure Rep (m : OrderMap) (C : ℕ → List ℕ) (F : List ℕ) : Prop where
  /-- Every node index is below the null index. -/
  capacity_le : m.capacity ≤ uint32Max
  /-- The links of a bucket visit its chain. -/
  seg : ∀ b, m.state b = 0 → LinkedList.Seg (fun i => (m.nodes i).nextIdx) (m.buckets b) (C b)
    uint32Max
  /-- A bucket in the overflow map has no chain. -/
  treed : ∀ b, m.state b ≠ 0 → C b = []
  /-- A node of a chain is tagged with its bucket and holds a key of that bucket. -/
  own : ∀ b, ∀ n ∈ C b, n < m.capacity ∧ (m.nodes n).bucket = b ∧
    m.hash (m.nodes n).orderId = b
  /-- The keys of a chain are distinct. -/
  keys : ∀ b, (C b).Pairwise fun i j => (m.nodes i).orderId ≠ (m.nodes j).orderId
  /-- `bucket_len_` counts the chain, which never outgrows the threshold. -/
  len : ∀ b, m.state b = 0 → (m.bucketLen b).toNat = (C b).length ∧ (C b).length ≤ 8
  /-- The free list. -/
  freeSeg : LinkedList.Seg (fun i => (m.nodes i).nextIdx) m.freeIdx F uint32Max
  /-- No node is free twice, and a free node is in no chain. -/
  freeNodup : F.Nodup
  /-- Free nodes are nodes of the array. -/
  freeOwn : ∀ n ∈ F, n < m.capacity ∧ ∀ b, n ∉ C b
  /-- The overflow map holds keys of moved buckets only. -/
  overflow_eq : ∀ k, m.state (m.hash k) = 0 → m.overflow k = none

/-- Node `n` has been taken out of the chain `as ++ n :: bs` of bucket `b`, by a write to the link
behind `as` or to the head. -/
structure Unlinked (m : OrderMap) (b n : ℕ) (as bs : List ℕ) (N : ℕ → MapNode) (B : ℕ → ℕ) :
    Prop where
  /-- The keys are as they were. -/
  orderId : ∀ i, (N i).orderId = (m.nodes i).orderId
  /-- So are the values. -/
  order : ∀ i, (N i).order = (m.nodes i).order
  /-- So are the tags. -/
  bucket : ∀ i, (N i).bucket = (m.nodes i).bucket
  /-- Only links in front of the node were written. -/
  link : ∀ i, i ∉ as → (N i).nextIdx = (m.nodes i).nextIdx
  /-- The other heads are as they were. -/
  buckets : ∀ c, c ≠ b → B c = m.buckets c
  /-- The chain passes over the node. -/
  seg : LinkedList.Seg (fun i => (N i).nextIdx) (B b) (as ++ bs) uint32Max

namespace Unlinked

variable {m : OrderMap} {b n : ℕ} {as bs : List ℕ} {N : ℕ → MapNode} {B : ℕ → ℕ}

/-- Releasing the node keeps all keys, values and tags. -/
theorem release_fields (hun : Unlinked m b n as bs N B) (i : ℕ) :
    ((({ m with nodes := N, buckets := B } : OrderMap).release b n).nodes i).orderId =
        (m.nodes i).orderId ∧
      ((({ m with nodes := N, buckets := B } : OrderMap).release b n).nodes i).order =
        (m.nodes i).order ∧
      ((({ m with nodes := N, buckets := B } : OrderMap).release b n).nodes i).bucket =
        (m.nodes i).bucket := by
  obtain ⟨hid, horder, hbucket⟩ := setNext_fields N n m.freeIdx i
  exact ⟨hid.trans (hun.orderId i), horder.trans (hun.order i), hbucket.trans (hun.bucket i)⟩

/-- The node now leads to the free list, -/
theorem release_self (_ : Unlinked m b n as bs N B) :
    ((({ m with nodes := N, buckets := B } : OrderMap).release b n).nodes n).nextIdx =
      m.freeIdx := by
  show (setNext N n m.freeIdx n).nextIdx = _
  rw [setNext, Function.update_self]

/-- and no other link is written. -/
theorem release_nextIdx (_ : Unlinked m b n as bs N B) (i : ℕ) (hi : i ≠ n) :
    ((({ m with nodes := N, buckets := B } : OrderMap).release b n).nodes i).nextIdx =
      (N i).nextIdx := by
  show (setNext N n m.freeIdx i).nextIdx = _
  rw [setNext, Function.update_of_ne hi]

end Unlinked

namespace Rep

variable {m : OrderMap} {C : ℕ → List ℕ} {F : List ℕ}

theorem nodup (h : Rep m C F) (b : ℕ) : (C b).Nodup :=
  (h.keys b).imp fun hne e => hne (congrArg (fun n => (m.nodes n).orderId) e)

theorem not_mem_nil (h : Rep m C F) (b : ℕ) : uint32Max ∉ C b := fun hm =>
  Nat.lt_irrefl _ (Nat.lt_of_lt_of_le (h.own b _ hm).1 h.capacity_le)

theorem length_le (h : Rep m C F) (b : ℕ) : (C b).length ≤ m.capacity :=
  LinkedList.length_le_of_nodup (h.nodup b) fun n hn => (h.own b n hn).1

/-- Chains of different buckets share no node. -/
theorem bucket_unique (h : Rep m C F) {b b' n : ℕ} (hb : n ∈ C b) (hb' : n ∈ C b') : b = b' :=
  (h.own b n hb).2.1.symm.trans (h.own b' n hb').2.1

/-- The chain walk of `find`. -/
theorem findFrom_eq {b k fuel idx : ℕ} {ids : List ℕ}
    (hseg : LinkedList.Seg (fun i => (m.nodes i).nextIdx) idx ids uint32Max)
    (hnil : uint32Max ∉ ids) (hbucket : ∀ n ∈ ids, (m.nodes n).bucket = b)
    (hfuel : ids.length < fuel) :
    m.findFrom b k fuel idx = some (chainFind m.nodes ids k) := by
  induction ids generalizing idx fuel with
  | nil =>
    cases fuel with
    | zero => exact absurd hfuel (Nat.not_lt_zero _)
    | succ fuel =>
      rw [findFrom, if_pos (LinkedList.seg_nil.mp hseg)]
      rfl
  | cons n ids ih =>
    obtain ⟨rfl, hseg⟩ := hseg
    cases fuel with
    | zero => exact absurd hfuel (Nat.not_lt_zero _)
    | succ fuel =>
      have hne : idx ≠ uint32Max := fun e => hnil (e ▸ List.mem_cons_self)
      rw [findFrom, if_neg hne, if_neg (by simpa using hbucket idx List.mem_cons_self)]
      by_cases hk : (m.nodes idx).orderId = k
      · rw [if_pos hk]
        simp [chainFind, hk]
      · rw [if_neg hk, ih hseg (fun hm => hnil (List.mem_cons_of_mem _ hm))
          (fun n hn => hbucket n (List.mem_cons_of_mem _ hn)) (by simpa using hfuel)]
        simp [chainFind, hk]

/-- **`find` returns**, and reads the chain or the overflow map. -/
theorem find_eq (h : Rep m C F) (k : ℕ) :
    m.find k = some (if m.state (m.hash k) = 0 then chainFind m.nodes (C (m.hash k)) k
      else m.overflow k) := by
  rw [find]
  by_cases hs : m.state (m.hash k) = 0
  · rw [if_neg (by simpa using hs), if_pos hs]
    exact findFrom_eq (h.seg _ hs) (h.not_mem_nil _) (fun n hn => (h.own _ n hn).2.1)
      (Nat.lt_succ_of_le (h.length_le _))
  · rw [if_pos hs, if_neg hs]

theorem lookup_eq (h : Rep m C F) (k : ℕ) :
    m.lookup k = if m.state (m.hash k) = 0 then chainFind m.nodes (C (m.hash k)) k
      else m.overflow k := by
  rw [lookup, h.find_eq]
  rfl

/-- `find` returns what `lookup` says. -/
theorem find_lookup (h : Rep m C F) (k : ℕ) : m.find k = some (m.lookup k) := by
  rw [h.find_eq, h.lookup_eq]

/-- A fresh index is empty. -/
theorem rep_new {capacity : ℕ} (hpos : 0 < capacity) (hle : capacity ≤ uint32Max) :
    Rep (new capacity) (fun _ => []) (List.range capacity) where
  capacity_le := hle
  seg := fun _ _ => rfl
  treed := fun _ _ => rfl
  own := fun _ _ hn => absurd hn List.not_mem_nil
  keys := fun _ => List.Pairwise.nil
  len := fun _ _ => ⟨rfl, Nat.zero_le _⟩
  freeSeg := LinkedList.seg_range hpos
  freeNodup := List.nodup_range
  freeOwn := fun _ hn => ⟨List.mem_range.mp hn, fun _ => List.not_mem_nil⟩
  overflow_eq := fun _ _ => rfl

/-! ### Moving a bucket to the overflow map -/

/-- `find?` on a chain with distinct keys, one node at a time. -/
theorem chainFind_cons {nodes : ℕ → MapNode} {n : ℕ} {ids : List ℕ} (k : ℕ) :
    chainFind nodes (n :: ids) k =
      if (nodes n).orderId = k then some (nodes n).order else chainFind nodes ids k := by
  by_cases hk : (nodes n).orderId = k <;> simp [chainFind, hk]

theorem chainFind_eq_none {nodes : ℕ → MapNode} {ids : List ℕ} {k : ℕ} :
    chainFind nodes ids k = none ↔ ∀ n ∈ ids, (nodes n).orderId ≠ k := by
  simp [chainFind]

theorem chainFind_congr {nodes nodes' : ℕ → MapNode} {ids : List ℕ} (k : ℕ)
    (heq : ∀ n ∈ ids, (nodes' n).orderId = (nodes n).orderId ∧
      (nodes' n).order = (nodes n).order) : chainFind nodes' ids k = chainFind nodes ids k := by
  induction ids with
  | nil => rfl
  | cons n ids ih =>
    obtain ⟨hid, hord⟩ := heq n List.mem_cons_self
    rw [chainFind_cons, chainFind_cons, hid, hord,
      ih fun j hj => heq j (List.mem_cons_of_mem _ hj)]

/-- Taking a node out of a chain with distinct keys unbinds its key. -/
theorem chainFind_remove {nodes : ℕ → MapNode} {n : ℕ} {as bs : List ℕ}
    (hkeys : (as ++ n :: bs).Pairwise fun i j => (nodes i).orderId ≠ (nodes j).orderId) (k : ℕ) :
    chainFind nodes (as ++ bs) k =
      if k = (nodes n).orderId then none else chainFind nodes (as ++ n :: bs) k := by
  induction as with
  | nil =>
    rw [List.nil_append, List.nil_append, chainFind_cons]
    obtain ⟨hn, -⟩ := List.pairwise_cons.mp hkeys
    by_cases hk : k = (nodes n).orderId
    · rw [if_pos hk]
      exact chainFind_eq_none.mpr fun i hi => hk ▸ (hn i hi).symm
    · rw [if_neg hk, if_neg (Ne.symm hk)]
  | cons a as ih =>
    obtain ⟨ha, hkeys⟩ := List.pairwise_cons.mp hkeys
    rw [List.cons_append, List.cons_append, chainFind_cons, chainFind_cons, ih hkeys]
    by_cases hk : (nodes a).orderId = k
    · have hkn : k ≠ (nodes n).orderId := hk ▸ ha n (by simp)
      simp [hk, hkn]
    · simp [hk]

/-- The copy loop enters exactly the chain's own bindings. -/
theorem copyChain_eq (ov : ℕ → Option ℕ) {nodes : ℕ → MapNode} {fuel cur : ℕ} {ids : List ℕ}
    (hseg : LinkedList.Seg (fun i => (nodes i).nextIdx) cur ids uint32Max)
    (hnil : uint32Max ∉ ids) (hkeys : ids.Pairwise fun i j => (nodes i).orderId ≠ (nodes j).orderId)
    (hfuel : ids.length < fuel) :
    copyChain nodes fuel cur ov = some fun k => (chainFind nodes ids k).or (ov k) := by
  induction ids generalizing cur fuel ov with
  | nil =>
    cases fuel with
    | zero => exact absurd hfuel (Nat.not_lt_zero _)
    | succ fuel =>
      rw [copyChain, if_pos (LinkedList.seg_nil.mp hseg)]
      simp [chainFind]
  | cons n ids ih =>
    obtain ⟨rfl, hseg⟩ := hseg
    cases fuel with
    | zero => exact absurd hfuel (Nat.not_lt_zero _)
    | succ fuel =>
      have hne : cur ≠ uint32Max := fun e => hnil (e ▸ List.mem_cons_self)
      obtain ⟨hcur, hkeys⟩ := List.pairwise_cons.mp hkeys
      rw [copyChain, if_neg hne, ih _ hseg (fun hm => hnil (List.mem_cons_of_mem _ hm)) hkeys
        (by simpa using hfuel)]
      congr 1
      funext k
      rw [chainFind_cons]
      by_cases hk : (nodes cur).orderId = k
      · subst hk
        have : chainFind nodes ids (nodes cur).orderId = none :=
          chainFind_eq_none.mpr fun n hn => (hcur n hn).symm
        simp [this]
      · rw [if_neg hk, Function.update_of_ne (Ne.symm hk)]

/-- **`treeify` returns** and changes nothing that `find` can see; the bucket is moved. -/
theorem treeify_spec (h : Rep m C F) {b : ℕ} (hb : m.state b = 0) :
    ∃ m', m.treeify b = some m' ∧ Rep m' (Function.update C b []) F ∧
      m'.state b ≠ 0 ∧ m'.hash = m.hash ∧ ∀ k, m'.lookup k = m.lookup k := by
  have hcopy := copyChain_eq m.overflow (h.seg b hb) (h.not_mem_nil b) (h.keys b)
    (Nat.lt_succ_of_le (h.length_le b))
  have hnone : ∀ k, m.hash k ≠ b → chainFind m.nodes (C b) k = none := fun k hk =>
    chainFind_eq_none.mpr fun n hn e => hk (e ▸ (h.own b n hn).2.2)
  have hrep : Rep { m with
      overflow := fun k => (chainFind m.nodes (C b) k).or (m.overflow k)
      state := Function.update m.state b 2 } (Function.update C b []) F := {
    capacity_le := h.capacity_le
    seg := fun c hc => by
      have hcb : c ≠ b := by rintro rfl; simp at hc
      rw [Function.update_of_ne hcb]
      exact h.seg c (by simpa [hcb] using hc)
    treed := fun c hc => by
      by_cases hcb : c = b
      · rw [hcb, Function.update_self]
      · rw [Function.update_of_ne hcb]
        exact h.treed c (by simpa [hcb] using hc)
    own := fun c n hn => by
      by_cases hcb : c = b
      · simp [hcb] at hn
      · rw [Function.update_of_ne hcb] at hn
        exact h.own c n hn
    keys := fun c => by
      by_cases hcb : c = b
      · simp [hcb]
      · rw [Function.update_of_ne hcb]
        exact h.keys c
    len := fun c hc => by
      have hcb : c ≠ b := by rintro rfl; simp at hc
      rw [Function.update_of_ne hcb]
      exact h.len c (by simpa [hcb] using hc)
    freeSeg := h.freeSeg
    freeNodup := h.freeNodup
    freeOwn := fun n hn => ⟨(h.freeOwn n hn).1, fun c => by
      by_cases hcb : c = b
      · simp [hcb]
      · rw [Function.update_of_ne hcb]
        exact (h.freeOwn n hn).2 c⟩
    overflow_eq := fun k hk => by
      have hk' : Function.update m.state b 2 (m.hash k) = 0 := hk
      have hkb : m.hash k ≠ b := by rintro rfl; simp at hk'
      rw [Function.update_of_ne hkb] at hk'
      simp [hnone k hkb, h.overflow_eq k hk'] }
  refine ⟨_, by rw [treeify, if_neg (by simpa using hb), hcopy]; rfl, hrep, by simp, rfl, ?_⟩
  · intro k
    rw [hrep.lookup_eq, h.lookup_eq]
    show (if Function.update m.state b 2 (m.hash k) = 0
      then chainFind m.nodes (Function.update C b [] (m.hash k)) k
      else (chainFind m.nodes (C b) k).or (m.overflow k)) = _
    by_cases hkb : m.hash k = b
    · subst hkb
      simp [hb, h.overflow_eq k hb]
    · simp [hkb, hnone k hkb]

/-! ### `insert` -/

/-- **Writing the overflow** under a key whose bucket has moved. -/
theorem overflow_spec (h : Rep m C F) {k : ℕ} (hk : m.state (m.hash k) ≠ 0) (o : Option ℕ)
    (size : UInt64) :
    Rep { m with overflow := Function.update m.overflow k o, size := size } C F ∧
      ∀ k', ({ m with overflow := Function.update m.overflow k o, size := size } : OrderMap).lookup
        k' = if k' = k then o else m.lookup k' := by
  have hrep : Rep { m with overflow := Function.update m.overflow k o, size := size } C F := {
    capacity_le := h.capacity_le
    seg := h.seg
    treed := h.treed
    own := h.own
    keys := h.keys
    len := h.len
    freeSeg := h.freeSeg
    freeNodup := h.freeNodup
    freeOwn := h.freeOwn
    overflow_eq := fun k' hk' => by
      have hne : k' ≠ k := by rintro rfl; exact hk hk'
      simpa [hne] using h.overflow_eq k' hk' }
  refine ⟨hrep, fun k' => ?_⟩
  rw [hrep.lookup_eq, h.lookup_eq]
  show (if m.state (m.hash k') = 0 then chainFind m.nodes (C (m.hash k')) k'
    else Function.update m.overflow k o k') = _
  by_cases hkk : k' = k
  · subst hkk
    simp [hk]
  · simp [hkk]

/-- Entering a key whose bucket has moved. -/
theorem overflowInsert_spec (h : Rep m C F) {k v : ℕ} (hk : m.state (m.hash k) ≠ 0) :
    Rep (m.overflowInsert k v) C F ∧
      ∀ k', (m.overflowInsert k v).lookup k' = if k' = k then some v else m.lookup k' :=
  h.overflow_spec hk (some v) (m.size + 1)

/-- Entering a key at the head of its chain, in the first free node. -/
theorem link_spec (h : Rep m C F) {k v n : ℕ} {F' : List ℕ} (hF : F = n :: F')
    (hs : m.state (m.hash k) = 0) (hlen : (C (m.hash k)).length < 8) (hnew : m.lookup k = none)
    {m' : OrderMap} (hm' : m' = m.linked n k v) :
    Rep m' (Function.update C (m.hash k) (n :: C (m.hash k))) F' ∧
      ∀ k', m'.lookup k' = if k' = k then some v else m.lookup k' := by
  subst hF
  obtain ⟨hnlt, hnC⟩ := h.freeOwn n List.mem_cons_self
  obtain ⟨hnF, hndF⟩ := List.nodup_cons.mp h.freeNodup
  have hchain : ∀ b, ∀ i ∈ C b, m'.nodes i = m.nodes i := fun b i hi => by
    rw [hm']
    exact Function.update_of_ne (ne_of_mem_of_not_mem hi (hnC b)) _ _
  have hn : m'.nodes n = ⟨k, v, m.buckets (m.hash k), m.hash k⟩ := by
    rw [hm']
    exact Function.update_self _ _ _
  have hhash : m'.hash = m.hash := by rw [hm']; rfl
  have hstate : m'.state = m.state := by rw [hm']; rfl
  have hbuckets : m'.buckets = Function.update m.buckets (m.hash k) n := by rw [hm']; rfl
  have hbucketLen : m'.bucketLen =
      Function.update m.bucketLen (m.hash k) (m.bucketLen (m.hash k) + 1) := by rw [hm']; rfl
  have hfind : chainFind m.nodes (C (m.hash k)) k = none := by
    rwa [h.lookup_eq, if_pos hs] at hnew
  have hrep : Rep m' (Function.update C (m.hash k) (n :: C (m.hash k))) F' := {
    capacity_le := by rw [hm']; exact h.capacity_le
    seg := fun b hb => by
      rw [hstate] at hb
      by_cases hbk : b = m.hash k
      · subst hbk
        rw [Function.update_self]
        have htail : LinkedList.Seg (fun i => (m'.nodes i).nextIdx) (m'.nodes n).nextIdx
            (C (m.hash k)) uint32Max := by
          rw [hn]
          exact (h.seg _ hb).congr fun i hi => by rw [hchain _ i hi]
        exact ⟨by rw [hbuckets, Function.update_self], htail⟩
      · rw [Function.update_of_ne hbk, hbuckets, Function.update_of_ne hbk]
        exact (h.seg b hb).congr fun i hi => by rw [hchain _ i hi]
    treed := fun b hb => by
      rw [hstate] at hb
      have hbk : b ≠ m.hash k := by rintro rfl; exact hb hs
      rw [Function.update_of_ne hbk]
      exact h.treed b hb
    own := fun b i hi => by
      rw [hhash, show m'.capacity = m.capacity by rw [hm']; rfl]
      have hold : i ∈ C b → i < m.capacity ∧ (m'.nodes i).bucket = b ∧
          m.hash (m'.nodes i).orderId = b := fun hi => by rw [hchain b i hi]; exact h.own b i hi
      by_cases hbk : b = m.hash k
      · subst hbk
        rw [Function.update_self] at hi
        rcases List.mem_cons.mp hi with rfl | hi
        · rw [hn]
          exact ⟨hnlt, rfl, rfl⟩
        · exact hold hi
      · rw [Function.update_of_ne hbk] at hi
        exact hold hi
    keys := fun b => by
      have hold : (C b).Pairwise fun i j => (m'.nodes i).orderId ≠ (m'.nodes j).orderId :=
        (h.keys b).imp_of_mem fun hi hj hne => by rw [hchain b _ hi, hchain b _ hj]; exact hne
      by_cases hbk : b = m.hash k
      · subst hbk
        rw [Function.update_self]
        refine List.pairwise_cons.mpr ⟨fun i hi => ?_, hold⟩
        rw [hn, hchain _ i hi]
        exact (chainFind_eq_none.mp hfind i hi).symm
      · rw [Function.update_of_ne hbk]
        exact hold
    len := fun b hb => by
      rw [hstate] at hb
      obtain ⟨hl, hle⟩ := h.len b hb
      by_cases hbk : b = m.hash k
      · subst hbk
        rw [hbucketLen, Function.update_self, Function.update_self, List.length_cons,
          UInt16.toNat_add, hl]
        simp only [UInt16.toNat_one]
        omega
      · rw [hbucketLen, Function.update_of_ne hbk, Function.update_of_ne hbk]
        exact ⟨hl, hle⟩
    freeSeg := by
      rw [show m'.freeIdx = (m.nodes n).nextIdx by rw [hm']; rfl]
      refine h.freeSeg.2.congr fun i hi => ?_
      have hi' : m'.nodes i = m.nodes i := by
        rw [hm']
        exact Function.update_of_ne (ne_of_mem_of_not_mem hi hnF) _ _
      rw [hi']
    freeNodup := hndF
    freeOwn := fun i hi => by
      obtain ⟨hlt, hC⟩ := h.freeOwn i (List.mem_cons_of_mem _ hi)
      refine ⟨by rw [hm']; exact hlt, fun b => ?_⟩
      by_cases hbk : b = m.hash k
      · subst hbk
        rw [Function.update_self, List.mem_cons, not_or]
        exact ⟨ne_of_mem_of_not_mem hi hnF, hC _⟩
      · rw [Function.update_of_ne hbk]
        exact hC b
    overflow_eq := fun k' hk' => by
      rw [hstate, hhash] at hk'
      rw [hm']
      exact h.overflow_eq k' hk' }
  refine ⟨hrep, fun k' => ?_⟩
  rw [hrep.lookup_eq, h.lookup_eq, hhash, hstate, show m'.overflow = m.overflow by rw [hm']; rfl]
  have hold : chainFind m'.nodes (C (m.hash k')) k' = chainFind m.nodes (C (m.hash k')) k' :=
    chainFind_congr k' fun i hi => by rw [hchain _ i hi]; exact ⟨rfl, rfl⟩
  by_cases hbk : m.hash k' = m.hash k
  · rw [hbk, Function.update_self, chainFind_cons, hn, ← hbk, hold, hbk, if_pos hs, if_pos hs]
    by_cases hkk : k = k'
    · simp [hkk]
    · simp [hkk, Ne.symm hkk]
  · have hkk : k' ≠ k := fun e => hbk (congrArg m.hash e)
    rw [Function.update_of_ne hbk, hold, if_neg hkk]

/-! ### `erase` -/

/-- **A node is released** that was unlinked from its chain. -/
theorem release_spec (h : Rep m C F) {b n : ℕ} {as bs : List ℕ} (hs : m.state b = 0)
    (hC : C b = as ++ n :: bs) {N : ℕ → MapNode} {B : ℕ → ℕ} (hun : Unlinked m b n as bs N B)
    {m' : OrderMap} (hm' : m' = { m with nodes := N, buckets := B }.release b n) :
    Rep m' (Function.update C b (as ++ bs)) (n :: F) ∧
      ∀ k, m'.lookup k = if k = (m.nodes n).orderId then none else m.lookup k := by
  have hnC : n ∈ C b := hC ▸ List.mem_append_right _ List.mem_cons_self
  have hsub : ∀ i ∈ as ++ bs, i ∈ C b ∧ i ≠ n := fun i hi =>
    hC ▸ LinkedList.mem_around (hC ▸ h.nodup b) hi
  have hasC : ∀ i ∈ as, i ∈ C b := fun i hi => (hsub i (List.mem_append_left _ hi)).1
  have hnext : ∀ i, i ≠ n → (m'.nodes i).nextIdx = (N i).nextIdx := by
    rw [hm']
    exact hun.release_nextIdx
  have hself : (m'.nodes n).nextIdx = m.freeIdx := by
    rw [hm']
    exact hun.release_self
  have hfield : ∀ i, (m'.nodes i).orderId = (m.nodes i).orderId ∧
      (m'.nodes i).order = (m.nodes i).order ∧ (m'.nodes i).bucket = (m.nodes i).bucket := by
    rw [hm']
    exact hun.release_fields
  -- nothing else of the index changes, but heads and lengths
  obtain ⟨hhash, hstate, hbuckets, hcap, hbucketLen, hfree, hov⟩ : m'.hash = m.hash ∧
      m'.state = m.state ∧ m'.buckets = B ∧ m'.capacity = m.capacity ∧
      m'.bucketLen = Function.update m.bucketLen b (m.bucketLen b - 1) ∧ m'.freeIdx = n ∧
      m'.overflow = m.overflow := by
    rw [hm']
    exact ⟨rfl, rfl, rfl, rfl, rfl, rfl, rfl⟩
  have hrep : Rep m' (Function.update C b (as ++ bs)) (n :: F) := {
    capacity_le := hcap ▸ h.capacity_le
    seg := fun c hc => by
      rw [hstate] at hc
      rw [hbuckets]
      by_cases hcb : c = b
      · subst hcb
        rw [Function.update_self]
        exact hun.seg.congr fun i hi => hnext i (hsub i hi).2
      · rw [Function.update_of_ne hcb, hun.buckets c hcb]
        refine (h.seg c hc).congr fun i hi => ?_
        rw [hnext i fun e => hcb (h.bucket_unique (e ▸ hi) hnC),
          hun.link i fun hia => hcb (h.bucket_unique hi (hasC i hia))]
    treed := fun c hc => by
      rw [hstate] at hc
      have hcb : c ≠ b := by rintro rfl; exact hc hs
      rw [Function.update_of_ne hcb]
      exact h.treed c hc
    own := fun c i hi => by
      rw [hcap, (hfield i).2.2, (hfield i).1, hhash]
      by_cases hcb : c = b
      · subst hcb
        rw [Function.update_self] at hi
        exact h.own c i (hsub i hi).1
      · rw [Function.update_of_ne hcb] at hi
        exact h.own c i hi
    keys := fun c => by
      simp only [hfield]
      by_cases hcb : c = b
      · subst hcb
        rw [Function.update_self]
        have hk := h.keys c
        rw [hC] at hk
        exact hk.sublist (List.Sublist.append_left (List.sublist_cons_self n bs) as)
      · rw [Function.update_of_ne hcb]
        exact h.keys c
    len := fun c hc => by
      rw [hstate] at hc
      rw [hbucketLen]
      by_cases hcb : c = b
      · subst hcb
        obtain ⟨hl, hle⟩ := h.len c hc
        rw [hC] at hl hle
        simp only [List.length_append, List.length_cons] at hl hle
        rw [Function.update_self, Function.update_self, UInt16.toNat_sub, hl, UInt16.toNat_one,
          List.length_append]
        omega
      · rw [Function.update_of_ne hcb, Function.update_of_ne hcb]
        exact h.len c hc
    freeSeg := by
      refine ⟨hfree, ?_⟩
      show LinkedList.Seg _ (m'.nodes n).nextIdx F uint32Max
      rw [hself]
      refine h.freeSeg.congr fun i hi => ?_
      have hin : i ≠ n := fun e => (h.freeOwn i hi).2 b (e ▸ hnC)
      rw [hnext i hin, hun.link i fun hia => (h.freeOwn i hi).2 b (hasC i hia)]
    freeNodup := List.nodup_cons.mpr ⟨fun hn => (h.freeOwn n hn).2 b hnC, h.freeNodup⟩
    freeOwn := fun i hi => by
      rw [hcap]
      rcases List.mem_cons.mp hi with rfl | hi
      · refine ⟨(h.own b i hnC).1, fun c hc => ?_⟩
        by_cases hcb : c = b
        · subst hcb
          rw [Function.update_self] at hc
          exact (hsub i hc).2 rfl
        · rw [Function.update_of_ne hcb] at hc
          exact hcb (h.bucket_unique hc hnC)
      · refine ⟨(h.freeOwn i hi).1, fun c hc => ?_⟩
        by_cases hcb : c = b
        · subst hcb
          rw [Function.update_self] at hc
          exact (h.freeOwn i hi).2 c (hsub i hc).1
        · rw [Function.update_of_ne hcb] at hc
          exact (h.freeOwn i hi).2 c hc
    overflow_eq := fun k hk => by
      rw [hstate, hhash] at hk
      rw [hov]
      exact h.overflow_eq k hk }
  refine ⟨hrep, fun k => ?_⟩
  rw [hrep.lookup_eq, h.lookup_eq, hhash, hstate, hov,
    chainFind_congr k fun i _ => ⟨(hfield i).1, (hfield i).2.1⟩]
  by_cases hkb : m.hash k = b
  · rw [hkb, if_pos hs, if_pos hs, Function.update_self, hC]
    exact chainFind_remove (hC ▸ h.keys b) k
  · have hkn : k ≠ (m.nodes n).orderId := by
      rintro rfl
      exact hkb (h.own b n hnC).2.2
    rw [Function.update_of_ne hkb, if_neg hkn]

/-- The loop of `erase` over predecessors leaves the index alone when the key is not there. -/
theorem eraseFrom_of_not_mem {b k fuel idx : ℕ} {ids : List ℕ}
    (hseg : LinkedList.Seg (fun i => (m.nodes i).nextIdx) idx ids uint32Max)
    (hnil : uint32Max ∉ ids) (hbucket : ∀ n ∈ ids, (m.nodes n).bucket = b)
    (hk : ∀ n ∈ ids, (m.nodes n).orderId ≠ k) (hfuel : ids.length < fuel) :
    m.eraseFrom b k fuel idx = some m := by
  induction ids generalizing idx fuel with
  | nil =>
    cases fuel with
    | zero => exact absurd hfuel (Nat.not_lt_zero _)
    | succ fuel => rw [eraseFrom, if_pos (LinkedList.seg_nil.mp hseg)]
  | cons n ids ih =>
    obtain ⟨rfl, hseg⟩ := hseg
    cases fuel with
    | zero => exact absurd hfuel (Nat.not_lt_zero _)
    | succ fuel =>
      have hne : idx ≠ uint32Max := fun e => hnil (e ▸ List.mem_cons_self)
      rw [eraseFrom, if_neg hne, if_neg (by simpa using hbucket idx List.mem_cons_self)]
      cases ids with
      | nil => exact if_pos (LinkedList.seg_nil.mp hseg)
      | cons n' ids =>
        have hn' : (m.nodes idx).nextIdx = n' := hseg.1
        have hne' : n' ≠ uint32Max := fun e => hnil (e ▸ by simp)
        simp only [hn', if_neg hne', if_neg (hk n' (by simp))]
        exact ih (hn' ▸ hseg) (fun hm => hnil (List.mem_cons_of_mem _ hm))
          (fun j hj => hbucket j (List.mem_cons_of_mem _ hj))
          (fun j hj => hk j (List.mem_cons_of_mem _ hj)) (by simpa using hfuel)

/-- Otherwise it unlinks the key's node behind its predecessor `q`. -/
theorem eraseFrom_of_mem {b k fuel idx q n : ℕ} {as bs : List ℕ}
    (hseg : LinkedList.Seg (fun i => (m.nodes i).nextIdx) idx (as ++ q :: n :: bs) uint32Max)
    (hnil : uint32Max ∉ as ++ q :: n :: bs)
    (hbucket : ∀ i ∈ as ++ q :: n :: bs, (m.nodes i).bucket = b)
    (hk : ∀ i ∈ as ++ [q], (m.nodes i).orderId ≠ k) (hn : (m.nodes n).orderId = k)
    (hfuel : as.length + 1 < fuel) :
    m.eraseFrom b k fuel idx =
      some ({ m with nodes := setNext m.nodes q (m.nodes n).nextIdx }.release b n) := by
  induction as generalizing idx fuel with
  | nil =>
    obtain ⟨rfl, hnext, -⟩ := hseg
    cases fuel with
    | zero => exact absurd hfuel (Nat.not_lt_zero _)
    | succ fuel =>
      have hne : idx ≠ uint32Max := fun e => hnil (by simp [e])
      have hne' : n ≠ uint32Max := fun e => hnil (by simp [e])
      rw [eraseFrom, if_neg hne, if_neg (by simpa using hbucket idx (by simp))]
      have hnext' : (m.nodes idx).nextIdx = n := hnext
      simp only [hnext', if_neg hne', if_pos hn]
  | cons a as ih =>
    rw [List.cons_append] at hseg
    obtain ⟨rfl, hseg⟩ := hseg
    cases fuel with
    | zero => exact absurd hfuel (Nat.not_lt_zero _)
    | succ fuel =>
      have hne : idx ≠ uint32Max := fun e => hnil (by simp [e])
      rw [eraseFrom, if_neg hne, if_neg (by simpa using hbucket idx (by simp))]
      have hrec := ih hseg (fun hm => hnil (List.mem_cons_of_mem _ hm))
        (fun j hj => hbucket j (List.mem_cons_of_mem _ hj))
        (fun j hj => hk j (List.mem_cons_of_mem _ hj)) (by simpa using hfuel)
      obtain ⟨n', ids, hids⟩ : ∃ n' ids, as ++ q :: n :: bs = n' :: ids := by
        cases as <;> exact ⟨_, _, rfl⟩
      have hmem : n' ∈ as ++ [q] := by
        cases as with
        | nil => simp at hids; simp [hids.1]
        | cons a' as => simp at hids; simp [hids.1]
      rw [hids] at hseg
      have hn' : (m.nodes idx).nextIdx = n' := hseg.1
      have hne' : n' ≠ uint32Max := fun e => hnil (by simp [hids, e])
      simp only [hn', if_neg hne', if_neg (hk n' (List.mem_cons_of_mem _ hmem))]
      exact hn' ▸ hrec

end Rep

/-- Some chains and free list represent `m`. -/
def Inv (m : OrderMap) : Prop := ∃ C F, Rep m C F

/-- A fresh index is well formed. -/
theorem inv_new {capacity : ℕ} (hpos : 0 < capacity) (hle : capacity ≤ uint32Max) :
    Inv (new capacity) :=
  ⟨_, _, Rep.rep_new hpos hle⟩

/-- A fresh index is empty. -/
theorem lookup_new {capacity : ℕ} (hpos : 0 < capacity) (hle : capacity ≤ uint32Max) (k : ℕ) :
    (new capacity).lookup k = none := by
  rw [(Rep.rep_new hpos hle).lookup_eq]
  exact if_pos rfl

/-- **`find` returns.** -/
theorem Inv.find_eq {m : OrderMap} (h : Inv m) (k : ℕ) : m.find k = some (m.lookup k) := by
  obtain ⟨C, F, h⟩ := h
  exact h.find_lookup k

/-- `insert` reports whether it has a place for the key. -/
theorem insert_takes {m m' : OrderMap} {k v : ℕ} {ok : Bool} (h : m.insert k v = some (ok, m')) :
    ok = m.takes k := by
  rw [insert] at h
  by_cases hs : m.state (m.hash k) ≠ 0
  · rw [if_pos hs] at h
    obtain ⟨rfl, -⟩ := Prod.mk.inj (Option.some.inj h)
    exact (decide_eq_true (Or.inl hs)).symm
  rw [if_neg hs] at h
  by_cases hfull : treeifyThreshold ≤ m.bucketLen (m.hash k) ∨ m.freeHeadExhausted = true
  · rw [if_pos hfull] at h
    obtain ⟨_, -, heq⟩ := Option.map_eq_some_iff.mp h
    obtain ⟨rfl, -⟩ := Prod.mk.inj heq
    exact (decide_eq_true (Or.inr (hfull.imp_right Or.inl))).symm
  rw [if_neg hfull, allocNode] at h
  by_cases hfree : m.freeIdx = uint32Max
  · rw [if_pos hfree] at h
    obtain ⟨rfl, -⟩ := Prod.mk.inj (Option.some.inj h)
    refine (decide_eq_false ?_).symm
    rintro (hs' | hlen | hex | hne)
    · exact hs hs'
    · exact hfull (Or.inl hlen)
    · exact hfull (Or.inr hex)
    · exact hne hfree
  · rw [if_neg hfree] at h
    have htakes : m.takes k = true := decide_eq_true (Or.inr (Or.inr (Or.inr hfree)))
    rw [htakes]
    simp only [] at h
    split at h
    · obtain ⟨_, -, heq⟩ := Option.map_eq_some_iff.mp h
      exact (Prod.mk.inj heq).1.symm
    · exact (Prod.mk.inj (Option.some.inj h)).1.symm

/-- **What `insert` does**: it enters the key into the overflow map, to which it may have to move
the bucket first; or it drops the key, as no node is left; or it links the key into its chain, and
moves the bucket if the chain has become too long. -/
theorem Rep.insert_cases {m : OrderMap} {C : ℕ → List ℕ} {F : List ℕ} (h : Rep m C F) (k v : ℕ) :
    (m.state (m.hash k) ≠ 0 ∧ m.insert k v = some (true, m.overflowInsert k v)) ∨
    (m.state (m.hash k) = 0 ∧ m.insert k v =
      (m.treeify (m.hash k)).map fun t => (true, t.overflowInsert k v)) ∨
    (F = [] ∧ m.insert k v = some (false, m)) ∨
    (m.state (m.hash k) = 0 ∧ (C (m.hash k)).length < 8 ∧ ∃ n F', F = n :: F' ∧
      (m.insert k v = some (true, m.linked n k v) ∨
        m.insert k v = ((m.linked n k v).treeify (m.hash k)).map fun t => (true, t))) := by
  by_cases hs : m.state (m.hash k) = 0
  swap
  · exact Or.inl ⟨hs, by rw [insert, if_pos hs]⟩
  right
  by_cases hfull : treeifyThreshold ≤ m.bucketLen (m.hash k) ∨ m.freeHeadExhausted = true
  · exact Or.inl ⟨hs, by rw [insert, if_neg (by simpa using hs), if_pos hfull]⟩
  right
  have hlen : (C (m.hash k)).length < 8 := by
    have hcount := (h.len _ hs).1
    rw [not_or, UInt16.not_le, UInt16.lt_iff_toNat_lt, hcount] at hfull
    exact hfull.1
  cases F with
  | nil =>
    refine Or.inl ⟨rfl, ?_⟩
    rw [insert, if_neg (by simpa using hs), if_neg hfull, allocNode,
      if_pos (LinkedList.seg_nil.mp h.freeSeg)]
  | cons n F' =>
    have hidx : m.freeIdx = n := h.freeSeg.1
    have hne : m.freeIdx ≠ uint32Max := by
      rw [hidx]
      exact Nat.ne_of_lt (Nat.lt_of_lt_of_le (h.freeOwn n List.mem_cons_self).1 h.capacity_le)
    refine Or.inr ⟨hs, hlen, n, F', rfl, ?_⟩
    rw [insert, if_neg (by simpa using hs), if_neg hfull, allocNode, if_neg hne]
    by_cases hlong : treeifyThreshold ≤ m.bucketLen (m.hash k) + 1
    · right
      simp only [Function.update_self, if_pos hlong, hidx]
      rfl
    · left
      simp only [Function.update_self, if_neg hlong, hidx]
      rfl

/-- What `insert` of a new key does to chains and free list: it takes one node at most, and
reports `false` only when there is none. -/
theorem Rep.insert_spec {m : OrderMap} {C : ℕ → List ℕ} {F : List ℕ} (h : Rep m C F) {k : ℕ}
    (v : ℕ) (hnew : m.lookup k = none) :
    ∃ ok m' C' F', m.insert k v = some (ok, m') ∧ Rep m' C' F' ∧ F.length ≤ F'.length + 1 ∧
      (F ≠ [] → ok = true) ∧
      ∀ k', m'.lookup k' = if ok = true ∧ k' = k then some v else m.lookup k' := by
  rcases h.insert_cases k v with ⟨hs, hins⟩ | ⟨hs, hins⟩ | ⟨rfl, hins⟩ |
    ⟨hs, hlen, n, F', rfl, hins⟩
  · obtain ⟨hrep, hlk⟩ := h.overflowInsert_spec (v := v) hs
    exact ⟨true, _, C, F, hins, hrep, Nat.le_succ _, fun _ => rfl, fun k' => by simp [hlk]⟩
  · obtain ⟨m', hm', hrep, hb, hhash, hlk⟩ := h.treeify_spec hs
    obtain ⟨hrep', hlk'⟩ := hrep.overflowInsert_spec (k := k) (v := v) (by rwa [hhash])
    rw [hm'] at hins
    exact ⟨true, _, _, F, hins, hrep', Nat.le_succ _, fun _ => rfl, fun k' => by simp [hlk', hlk]⟩
  · exact ⟨false, m, C, [], hins, h, Nat.zero_le _, fun hne => absurd rfl hne, fun k' => by simp⟩
  · obtain ⟨hrep, hlk⟩ := h.link_spec (k := k) (v := v) rfl hs hlen hnew rfl
    rcases hins with hins | hins
    · exact ⟨true, _, _, F', hins, hrep, Nat.le_refl _, fun _ => rfl, fun k' => by simp [hlk]⟩
    · obtain ⟨m', hm', hrep', -, -, hlk'⟩ := hrep.treeify_spec (b := m.hash k) hs
      rw [show (m.linked n k v).treeify (m.hash k) = some m' from hm'] at hins
      exact ⟨true, m', _, F', hins, hrep', Nat.le_refl _, fun _ => rfl,
        fun k' => by simp [hlk', hlk]⟩

/-- **`insert` of a new key returns**, keeps the invariant, and either binds the key or, when it
reports `false`, leaves the index as it was. -/
theorem Inv.insert_spec {m : OrderMap} (h : Inv m) {k : ℕ} (v : ℕ) (hnew : m.lookup k = none) :
    ∃ ok m', m.insert k v = some (ok, m') ∧ Inv m' ∧
      ∀ k', m'.lookup k' = if ok = true ∧ k' = k then some v else m.lookup k' := by
  obtain ⟨C, F, h⟩ := h
  obtain ⟨ok, m', C', F', hins, hrep, -, -, hlk⟩ := h.insert_spec v hnew
  exact ⟨ok, m', hins, ⟨C', F', hrep⟩, hlk⟩

/-- The index has `n` nodes left. -/
def Spare (m : OrderMap) (n : ℕ) : Prop := ∃ C F, Rep m C F ∧ n ≤ F.length

/-- All nodes of a fresh index are left. -/
theorem spare_new {capacity : ℕ} (hpos : 0 < capacity) (hle : capacity ≤ uint32Max) :
    Spare (new capacity) capacity :=
  ⟨_, _, Rep.rep_new hpos hle, Nat.le_of_eq List.length_range.symm⟩

/-- **While nodes are left, `insert` drops nothing.** -/
theorem Spare.insert {m m' : OrderMap} {n k v : ℕ} {ok : Bool} (h : Spare m (n + 1))
    (hnew : m.lookup k = none) (hins : m.insert k v = some (ok, m')) :
    ok = true ∧ Spare m' n := by
  obtain ⟨C, F, hrep, hlen⟩ := h
  obtain ⟨ok', m₁, C', F', hins', hrep', hlen', hok, -⟩ := hrep.insert_spec v hnew
  rw [hins] at hins'
  obtain ⟨rfl, rfl⟩ := Prod.mk.inj (Option.some.inj hins')
  have hne : F ≠ [] := by
    rintro rfl
    exact absurd hlen (Nat.not_succ_le_zero n)
  exact ⟨hok hne, C', F', hrep', by omega⟩

section Erase

variable {m : OrderMap} {C : ℕ → List ℕ} {F : List ℕ} {k n q : ℕ} {as bs : List ℕ}

/-- The head of the chain is unlinked by a write to the bucket. -/
theorem Rep.erase_head (h : Rep m C F) (hs : m.state (m.hash k) = 0)
    (hC : C (m.hash k) = n :: bs) (hnk : (m.nodes n).orderId = k) :
    Unlinked m (m.hash k) n [] bs m.nodes
        (Function.update m.buckets (m.hash k) (m.nodes n).nextIdx) ∧
      m.erase k = some ({ m with
        buckets := Function.update m.buckets (m.hash k) (m.nodes n).nextIdx }.release
          (m.hash k) n) := by
  have hnil := h.not_mem_nil (m.hash k)
  have hseg := h.seg _ hs
  rw [hC] at hnil hseg
  obtain ⟨hhead, hbs⟩ := hseg
  refine ⟨{
    orderId := fun _ => rfl
    order := fun _ => rfl
    bucket := fun _ => rfl
    link := fun _ _ => rfl
    buckets := fun c hc => Function.update_of_ne hc _ _
    seg := by rw [Function.update_self]; exact hbs }, ?_⟩
  have hne : n ≠ uint32Max := fun e => hnil (e ▸ List.mem_cons_self)
  rw [erase, if_neg (not_not.mpr hs)]
  simp only [hhead, if_neg hne, if_pos hnk]

/-- A later node is unlinked by a write to the link of its predecessor `q`. -/
theorem Rep.unlinked_behind (h : Rep m C F) (hs : m.state (m.hash k) = 0)
    (hC : C (m.hash k) = as ++ q :: n :: bs) :
    Unlinked m (m.hash k) n (as ++ [q]) bs (setNext m.nodes q (m.nodes n).nextIdx)
      m.buckets := by
  have hseg := h.seg _ hs
  have hnd := h.nodup (m.hash k)
  rw [hC] at hseg hnd
  obtain ⟨-, hndq, hdisj⟩ := List.nodup_append'.mp hnd
  have hqas : q ∉ as := fun hq => hdisj hq List.mem_cons_self
  have hqbs : q ∉ bs := fun hq => (List.nodup_cons.mp hndq).1 (List.mem_cons_of_mem _ hq)
  have hother : ∀ i, i ≠ q → (setNext m.nodes q (m.nodes n).nextIdx i).nextIdx =
      (m.nodes i).nextIdx := fun i hi => by rw [setNext, Function.update_of_ne hi]
  have hfield := setNext_fields m.nodes q (m.nodes n).nextIdx
  exact {
    orderId := fun i => (hfield i).1
    order := fun i => (hfield i).2.1
    bucket := fun i => (hfield i).2.2
    link := fun i hi => hother i fun e =>
      hi (List.mem_append_right _ (List.mem_singleton.mpr e))
    buckets := fun _ _ => rfl
    seg := by
      obtain ⟨j, hpre, rfl, hnext, hbs⟩ := LinkedList.seg_append.mp hseg
      refine LinkedList.seg_append.mpr ⟨(m.nodes n).nextIdx, LinkedList.seg_append.mpr
        ⟨j, hpre.congr fun i hi => hother i (ne_of_mem_of_not_mem hi hqas), rfl, ?_⟩,
        hbs.congr fun i hi => hother i (ne_of_mem_of_not_mem hi hqbs)⟩
      simp [setNext] }

/-- The loop of `erase` finds it. -/
theorem Rep.erase_behind (h : Rep m C F) (hs : m.state (m.hash k) = 0)
    (hC : C (m.hash k) = as ++ q :: n :: bs) (hnk : (m.nodes n).orderId = k) :
    m.erase k = some ({ m with nodes := setNext m.nodes q (m.nodes n).nextIdx }.release
      (m.hash k) n) := by
  have hkeys := h.keys (m.hash k)
  have hnil := h.not_mem_nil (m.hash k)
  have hbucket : ∀ i ∈ C (m.hash k), (m.nodes i).bucket = m.hash k := fun i hi => (h.own _ i hi).2.1
  have hseg := h.seg _ hs
  have hlen := h.length_le (m.hash k)
  rw [hC] at hnil hseg hbucket hlen
  have hassoc : as ++ q :: n :: bs = (as ++ [q]) ++ n :: bs := by simp
  rw [hC, hassoc] at hkeys
  have has : ∀ i ∈ as ++ [q], (m.nodes i).orderId ≠ k := fun i hi =>
    hnk ▸ (List.pairwise_append.mp hkeys).2.2 i hi n List.mem_cons_self
  have hfuel : as.length + 1 < m.capacity + 1 := by
    simp only [List.length_append, List.length_cons] at hlen
    omega
  have hhead : m.buckets (m.hash k) ∈ as ++ [q] := by
    cases as with
    | nil => exact hseg.1 ▸ List.mem_cons_self
    | cons a as => exact hseg.1 ▸ List.mem_cons_self
  have hne : m.buckets (m.hash k) ≠ uint32Max := fun e => hnil (by
    rw [← e, hassoc]
    exact List.mem_append_left _ hhead)
  rw [erase, if_neg (not_not.mpr hs)]
  simp only [if_neg hne, if_neg (has _ hhead)]
  exact Rep.eraseFrom_of_mem hseg hnil hbucket has hnk hfuel

/-- A key that no node of the chain has is not there, and `erase` walks past all of them. -/
theorem Rep.erase_absent (h : Rep m C F) (hs : m.state (m.hash k) = 0)
    (hk : ∀ n ∈ C (m.hash k), (m.nodes n).orderId ≠ k) :
    m.lookup k = none ∧ m.erase k = some m := by
  constructor
  · rw [h.lookup_eq, if_pos hs]
    exact Rep.chainFind_eq_none.mpr hk
  · have hloop := Rep.eraseFrom_of_not_mem (h.seg _ hs) (h.not_mem_nil _)
      (fun n hn => (h.own _ n hn).2.1) hk (Nat.lt_succ_of_le (h.length_le _))
    rw [erase, if_neg (not_not.mpr hs)]
    by_cases hnil : m.buckets (m.hash k) = uint32Max
    · exact if_pos hnil
    · have hhead : m.buckets (m.hash k) ∈ C (m.hash k) := by
        have hseg := h.seg _ hs
        cases hC : C (m.hash k) with
        | nil => rw [hC] at hseg; exact absurd hseg hnil
        | cons n ids => rw [hC] at hseg; exact hseg.1 ▸ List.mem_cons_self
      simp only [if_neg hnil, if_neg (hk _ hhead)]
      exact hloop

end Erase

/-- **What `erase` does**: it takes the key out of the overflow map; or it does nothing, as the key
is not there; or it unlinks the node of the key and releases it. -/
theorem Rep.erase_cases {m : OrderMap} {C : ℕ → List ℕ} {F : List ℕ} (h : Rep m C F) (k : ℕ) :
    (m.state (m.hash k) ≠ 0 ∧ m.overflow k ≠ none ∧ m.erase k = some { m with
      overflow := Function.update m.overflow k none, size := m.size - 1 }) ∨
    (m.lookup k = none ∧ m.erase k = some m) ∨
    (m.state (m.hash k) = 0 ∧ ∃ n as bs N B, C (m.hash k) = as ++ n :: bs ∧
      (m.nodes n).orderId = k ∧ Unlinked m (m.hash k) n as bs N B ∧
      m.erase k = some ({ m with nodes := N, buckets := B }.release (m.hash k) n)) := by
  by_cases hs : m.state (m.hash k) = 0
  swap
  · cases hov : m.overflow k with
    | none =>
      refine Or.inr (Or.inl ⟨?_, by rw [erase, if_pos hs, hov]⟩)
      rw [h.lookup_eq, if_neg hs, hov]
    | some v => exact Or.inl ⟨hs, by simp, by rw [erase, if_pos hs, hov]⟩
  right
  by_cases hk : ∃ n ∈ C (m.hash k), (m.nodes n).orderId = k
  · obtain ⟨n, hn, hnk⟩ := hk
    obtain ⟨as, bs, hC⟩ := List.append_of_mem hn
    rcases List.eq_nil_or_concat as with rfl | ⟨as', q, rfl⟩
    · obtain ⟨hun, her⟩ := h.erase_head hs hC hnk
      exact Or.inr ⟨hs, n, [], bs, _, _, hC, hnk, hun, her⟩
    · have hC' : C (m.hash k) = as' ++ q :: n :: bs := by simpa using hC
      rw [List.concat_eq_append] at hC
      exact Or.inr ⟨hs, n, as' ++ [q], bs, _, _, hC, hnk, h.unlinked_behind hs hC',
        h.erase_behind hs hC' hnk⟩
  · exact Or.inl (h.erase_absent hs fun n hn e => hk ⟨n, hn, e⟩)

/-- **`erase` returns**, keeps the invariant and unbinds the key. -/
theorem Inv.erase_spec {m : OrderMap} (h : Inv m) (k : ℕ) :
    ∃ m', m.erase k = some m' ∧ Inv m' ∧
      ∀ k', m'.lookup k' = if k' = k then none else m.lookup k' := by
  obtain ⟨C, F, h⟩ := h
  rcases h.erase_cases k with ⟨hs, -, her⟩ | ⟨hnone, her⟩ |
    ⟨hs, n, as, bs, N, B, hC, rfl, hun, her⟩
  · obtain ⟨hrep, hlk⟩ := h.overflow_spec hs none (m.size - 1)
    exact ⟨_, her, ⟨C, F, hrep⟩, hlk⟩
  · refine ⟨m, her, ⟨C, F, h⟩, fun k' => ?_⟩
    by_cases hkk : k' = k
    · rw [if_pos hkk, hkk, hnone]
    · rw [if_neg hkk]
  · obtain ⟨hrep, hlk⟩ := h.release_spec hs hC hun rfl
    exact ⟨_, her, ⟨_, _, hrep⟩, hlk⟩

end OrderMap

end NebulaX
