import DeltaX.BlobCache.Storage
import DeltaX.Support.LinkedCells
import Mathlib.Algebra.BigOperators.Group.Finset.Basic
/-!
# What the shared memory represents

Each shard represents a list of entries, the most recently inserted one first.  The
list is linked through the entries both ways, the bucket chains are its parts for each
bucket, and the counters are its length and its bytes.
-/

namespace DeltaX.BlobCache

open Support

def chainOf (m : Memory) (b : ℕ) (lru : List ℕ) : List ℕ :=
  lru.filter fun dp => bucketIdx (m.key dp) == b

/-- The bucket array has the chain of each bucket; without entries there may be none. -/
def Chains (m : Memory) (bucketsDp : ℕ) (lru : List ℕ) : Prop :=
  bucketsDp = 0 ∧ lru = [] ∨
    bucketsDp ≠ 0 ∧ ∃ heads, m.block bucketsDp = some (.buckets heads) ∧
      ∀ b < bucketsPerShard, Linked 0 m.bucketNext (heads b) (chainOf m b lru)

def payloadBytes (m : Memory) (lru : List ℕ) : ℕ := (lru.map fun dp => (m.dataLen dp).toNat).sum

/-- The allocations lie in the area and do not overlap. -/
structure Separate (area : ℕ) (m : Memory) : Prop where
  bounds : ∀ p b, m.block p = some b → 0 < p ∧ 0 < b.size ∧ p + b.size ≤ area
  disjoint : ∀ p q a b, m.block p = some a → m.block q = some b → p ≠ q →
    p + a.size ≤ q ∨ q + b.size ≤ p

def pinsOn (pins : List Pin) (dp : ℕ) : ℕ := pins.countP fun pin => pin.entryDp == dp

/-- The cache holds the entries `lru i` in shard `i`; the backends hold `pins`, and
`inserted` has been handed to `insert`. -/
structure Represents (cfg : Config) (pins : List Pin)
    (inserted : List (BlobCacheKey × List UInt8)) (c : Cache) (lru : ℕ → List ℕ) : Prop where
  list : ∀ i, DoublyLinked 0 c.memory.lruNext c.memory.lruPrev (c.shards i).lruHead
    (c.shards i).lruTail (lru i)
  nodup : ∀ i, (lru i).Nodup
  chains : ∀ i, Chains c.memory (c.shards i).bucketArray (lru i)
  bucketArray_inj : ∀ i j, (c.shards i).bucketArray = (c.shards j).bucketArray →
    (c.shards i).bucketArray ≠ 0 → i = j
  entry : ∀ i, ∀ dp ∈ lru i, c.memory.block dp = some .entry
  shard : ∀ i, ∀ dp ∈ lru i, shardIdx cfg.nShards (c.memory.key dp) = i
  key_inj : ∀ i, ∀ dp ∈ lru i, ∀ dp' ∈ lru i, c.memory.key dp = c.memory.key dp' → dp = dp'
  payload : ∀ i, ∀ dp ∈ lru i, ∃ bytes, c.memory.block (c.memory.dataPtr dp) =
    some (.payload bytes) ∧ bytes.length = (c.memory.dataLen dp).toNat ∧ bytes ≠ [] ∧
      (c.memory.key dp, bytes) ∈ inserted
  dataPtr_inj : ∀ i j, ∀ dp ∈ lru i, ∀ dp' ∈ lru j,
    c.memory.dataPtr dp = c.memory.dataPtr dp' → dp = dp'
  nEntries_eq : ∀ i, (c.shards i).nEntries.toNat = (lru i).length
  bytesUsed_eq : ∀ i, (c.shards i).bytesUsed.toNat = payloadBytes c.memory (lru i)
  total_nEntries : c.nEntries.toNat = ∑ i ∈ Finset.range cfg.nShards, (lru i).length
  total_bytes : c.totalBytes.toNat = ∑ i ∈ Finset.range cfg.nShards, payloadBytes c.memory (lru i)
  total_le : c.totalBytes.toNat ≤ cfg.maxBytes
  separate : Separate cfg.maxBytes c.memory
  pinned : ∀ pin ∈ pins, pin.entryDp ∈ lru (shardIdx cfg.nShards pin.key) ∧
    c.memory.key pin.entryDp = pin.key
  pinCount_eq : ∀ i, ∀ dp ∈ lru i, (c.memory.pinCount dp).toNat = pinsOn pins dp

variable {cfg : Config} {pins : List Pin} {inserted : List (BlobCacheKey × List UInt8)}
  {c : Cache} {lru : ℕ → List ℕ}

/-! ## Bounds -/

theorem bucketIdx_lt (k : BlobCacheKey) : bucketIdx k < bucketsPerShard := by
  have hle : bucketIdx k ≤ bucketsPerShard - 1 := Nat.and_le_right
  have hpos : 0 < bucketsPerShard := by decide
  omega

theorem shardIdx_lt (cfg : Config) (k : BlobCacheKey) :
    shardIdx cfg.nShards k < cfg.nShards := by
  have hle : shardIdx cfg.nShards k ≤ cfg.nShards - 1 := Nat.and_le_right
  have hpos := cfg.nShards_pos
  omega

namespace Represents

theorem ne_zero (h : Represents cfg pins inserted c lru) {i dp : ℕ} (hdp : dp ∈ lru i) :
    dp ≠ 0 :=
  (h.list i).forward.ne_null dp hdp

theorem dataPtr_ne_zero (h : Represents cfg pins inserted c lru) {i dp : ℕ}
    (hdp : dp ∈ lru i) : c.memory.dataPtr dp ≠ 0 := by
  obtain ⟨bytes, hblock, -⟩ := h.payload i dp hdp
  exact (h.separate.bounds _ _ hblock).1.ne'

theorem shard_unique (h : Represents cfg pins inserted c lru) {i j dp : ℕ} (hi : dp ∈ lru i)
    (hj : dp ∈ lru j) : i = j :=
  (h.shard i dp hi).symm.trans (h.shard j dp hj)

/-- Every entry takes its header's bytes of the area. -/
theorem length_le (h : Represents cfg pins inserted c lru) (i : ℕ) :
    (lru i).length * 80 ≤ cfg.maxBytes := by
  apply length_mul_le_of_disjoint (h.nodup i)
  · intro p hp
    exact (h.separate.bounds p _ (h.entry i p hp)).2.2
  · intro p hp q hq hne
    exact h.separate.disjoint p q _ _ (h.entry i p hp) (h.entry i q hq) hne

theorem length_lt_loopFuel (h : Represents cfg pins inserted c lru) (i : ℕ) :
    (lru i).length + 1 < loopFuel := by
  have hlength := h.length_le i
  have harea := cfg.maxBytes_le
  unfold loopFuel
  omega

/-- Entries of different shards have different bucket arrays, payloads and headers. -/
theorem bucketArray_block (h : Represents cfg pins inserted c lru) {i : ℕ}
    (hne : (c.shards i).bucketArray ≠ 0) :
    ∃ heads, c.memory.block (c.shards i).bucketArray = some (.buckets heads) ∧
      ∀ b < bucketsPerShard, Linked 0 c.memory.bucketNext (heads b) (chainOf c.memory b (lru i)) := by
  rcases h.chains i with ⟨hzero, -⟩ | ⟨-, hchains⟩
  · exact absurd hzero hne
  · exact hchains

end Represents

/-! ## What the list does not depend on -/

/-- `m'` has all that is allocated in `m`. -/
structure Memory.Extends (m m' : Memory) : Prop where
  block : ∀ p b, m.block p = some b → m'.block p = some b
  key : ∀ p, (m.block p).isSome → m'.key p = m.key p
  dataPtr : ∀ p, (m.block p).isSome → m'.dataPtr p = m.dataPtr p
  dataLen : ∀ p, (m.block p).isSome → m'.dataLen p = m.dataLen p
  pinCount : ∀ p, (m.block p).isSome → m'.pinCount p = m.pinCount p
  bucketNext : ∀ p, (m.block p).isSome → m'.bucketNext p = m.bucketNext p
  lruPrev : ∀ p, (m.block p).isSome → m'.lruPrev p = m.lruPrev p
  lruNext : ∀ p, (m.block p).isSome → m'.lruNext p = m.lruNext p

theorem chainOf_congr {m m' : Memory} {lru : List ℕ} (h : ∀ dp ∈ lru, m'.key dp = m.key dp)
    (b : ℕ) : chainOf m' b lru = chainOf m b lru :=
  List.filter_congr fun dp hdp => by rw [h dp hdp]

theorem payloadBytes_congr {m m' : Memory} {lru : List ℕ}
    (h : ∀ dp ∈ lru, m'.dataLen dp = m.dataLen dp) :
    payloadBytes m' lru = payloadBytes m lru := by
  unfold payloadBytes
  congr 1
  exact List.map_congr_left fun dp hdp => by rw [h dp hdp]

theorem mem_chainOf {m : Memory} {b : ℕ} {lru : List ℕ} {dp : ℕ} :
    dp ∈ chainOf m b lru ↔ dp ∈ lru ∧ bucketIdx (m.key dp) = b := by
  rw [chainOf, List.mem_filter, beq_iff_eq]

/-- New allocations, and freed ones that no shard uses, leave the lists as they are. -/
theorem Represents.extends (h : Represents cfg pins inserted c lru) {m' : Memory}
    (hext : c.memory.Extends m') (hseparate : Separate cfg.maxBytes m') :
    Represents cfg pins inserted { c with memory := m' } lru := by
  have hlive : ∀ i, ∀ dp ∈ lru i, (c.memory.block dp).isSome := by
    intro i dp hdp
    rw [h.entry i dp hdp]
    rfl
  have hlen (i : ℕ) : payloadBytes m' (lru i) = payloadBytes c.memory (lru i) :=
    payloadBytes_congr fun dp hdp => hext.dataLen dp (hlive i dp hdp)
  exact {
    list := fun i => (h.list i).congr (fun dp hdp => hext.lruNext dp (hlive i dp hdp))
      fun dp hdp => hext.lruPrev dp (hlive i dp hdp)
    nodup := h.nodup
    chains := by
      intro i
      rcases h.chains i with hnone | ⟨hne, heads, hblock, hlinked⟩
      · exact .inl hnone
      · refine .inr ⟨hne, heads, hext.block _ _ hblock, fun b hb => ?_⟩
        rw [chainOf_congr fun dp hdp => hext.key dp (hlive i dp hdp)]
        exact (hlinked b hb).congr fun dp hdp =>
          hext.bucketNext dp (hlive i dp (mem_chainOf.mp hdp).1)
    bucketArray_inj := h.bucketArray_inj
    entry := fun i dp hdp => hext.block dp _ (h.entry i dp hdp)
    shard := fun i dp hdp => by
      show shardIdx cfg.nShards (m'.key dp) = i
      rw [hext.key dp (hlive i dp hdp)]
      exact h.shard i dp hdp
    key_inj := fun i dp hdp dp' hdp' heq => by
      have heq' : m'.key dp = m'.key dp' := heq
      rw [hext.key dp (hlive i dp hdp), hext.key dp' (hlive i dp' hdp')] at heq'
      exact h.key_inj i dp hdp dp' hdp' heq'
    payload := fun i dp hdp => by
      obtain ⟨bytes, hblock, hlength, hne, hmem⟩ := h.payload i dp hdp
      refine ⟨bytes, ?_, ?_, hne, ?_⟩
      · show m'.block (m'.dataPtr dp) = _
        rw [hext.dataPtr dp (hlive i dp hdp)]
        exact hext.block _ _ hblock
      · show _ = (m'.dataLen dp).toNat
        rw [hext.dataLen dp (hlive i dp hdp)]
        exact hlength
      · show (m'.key dp, bytes) ∈ inserted
        rw [hext.key dp (hlive i dp hdp)]
        exact hmem
    dataPtr_inj := fun i j dp hdp dp' hdp' heq => by
      have heq' : m'.dataPtr dp = m'.dataPtr dp' := heq
      rw [hext.dataPtr dp (hlive i dp hdp), hext.dataPtr dp' (hlive j dp' hdp')] at heq'
      exact h.dataPtr_inj i j dp hdp dp' hdp' heq'
    nEntries_eq := h.nEntries_eq
    bytesUsed_eq := fun i => (h.bytesUsed_eq i).trans (hlen i).symm
    total_nEntries := h.total_nEntries
    total_bytes := h.total_bytes.trans (Finset.sum_congr rfl fun i _ => (hlen i).symm)
    total_le := h.total_le
    separate := hseparate
    pinned := fun pin hpin => by
      obtain ⟨hmem, hkey⟩ := h.pinned pin hpin
      refine ⟨hmem, ?_⟩
      show m'.key pin.entryDp = pin.key
      rw [hext.key _ (hlive _ _ hmem)]
      exact hkey
    pinCount_eq := fun i dp hdp => by
      show (m'.pinCount dp).toNat = _
      rw [hext.pinCount dp (hlive i dp hdp)]
      exact h.pinCount_eq i dp hdp }

/-- The reported counters and the clock do not matter. -/
theorem Represents.counters (h : Represents cfg pins inserted c lru) (counters : Counters)
    (tick : BitVec 64) :
    Represents cfg pins inserted { c with counters := counters, lastUsedCounter := tick } lru :=
  { h with }

theorem Represents.insertFailed (h : Represents cfg pins inserted c lru) :
    Represents cfg pins inserted c.insertFailed lru :=
  { h with }

theorem Represents.hit (h : Represents cfg pins inserted c lru) (key : BlobCacheKey) :
    Represents cfg pins inserted (c.hit key) lru := by
  unfold Cache.hit
  split
  · exact { h with }
  · exact { h with }

theorem Represents.miss (h : Represents cfg pins inserted c lru) (key : BlobCacheKey) :
    Represents cfg pins inserted (c.miss key) lru := by
  unfold Cache.miss
  split
  · exact { h with }
  · exact { h with }

/-- More may have been handed to `insert`. -/
theorem Represents.inserted_cons (h : Represents cfg pins inserted c lru)
    (p : BlobCacheKey × List UInt8) : Represents cfg pins (p :: inserted) c lru :=
  { h with
    payload := fun i dp hdp => by
      obtain ⟨bytes, hblock, hlength, hne, hmem⟩ := h.payload i dp hdp
      exact ⟨bytes, hblock, hlength, hne, List.mem_cons_of_mem _ hmem⟩ }

/-! ## Allocation -/

theorem Separate.block_eq_none {m : Memory} {area dp size : ℕ} (h : Separate area m)
    (hfresh : Fresh area m dp size) (hsize : 0 < size) : m.block dp = none := by
  cases hblock : m.block dp with
  | none => rfl
  | some b =>
      have hbounds := h.bounds dp b hblock
      have hcases := hfresh.disjoint dp b hblock
      omega

theorem Separate.alloc {m : Memory} {area dp size : ℕ} (h : Separate area m)
    (hfresh : Fresh area m dp size) (hsize : 0 < size) {b : Block} (hb : b.size = size)
    {m' : Memory}
    (hm' : m'.block = Function.update m.block dp (some b)) : Separate area m' := by
  constructor
  · intro p a hp
    rw [hm', Function.update_apply] at hp
    split_ifs at hp with heq
    · obtain rfl : b = a := by simpa using hp
      subst heq
      exact ⟨hfresh.pos, hb ▸ hsize, hb ▸ hfresh.le_area⟩
    · exact h.bounds p a hp
  · intro p q a a' hp hq hne
    rw [hm', Function.update_apply] at hp hq
    split_ifs at hp hq with hpd hqd hqd
    · exact absurd (hpd.trans hqd.symm) hne
    · obtain rfl : b = a := by simpa using hp
      rw [hpd, hb]
      exact hfresh.disjoint q a' hq
    · obtain rfl : b = a' := by simpa using hq
      rw [hqd, hb]
      exact (hfresh.disjoint p a hp).symm
    · exact h.disjoint p q a a' hp hq hne

/-- Blocks may go, and may be written without changing their sizes. -/
theorem Separate.shrink {m m' : Memory} {area : ℕ} (h : Separate area m)
    (hm' : ∀ p b, m'.block p = some b → ∃ a, m.block p = some a ∧ a.size = b.size) :
    Separate area m' := by
  constructor
  · intro p b hp
    obtain ⟨a, ha, hsize⟩ := hm' p b hp
    rw [← hsize]
    exact h.bounds p a ha
  · intro p q a b hp hq hne
    obtain ⟨a', ha, hsize⟩ := hm' p a hp
    obtain ⟨b', hb, hsize'⟩ := hm' q b hq
    rw [← hsize, ← hsize']
    exact h.disjoint p q a' b' ha hb hne

end DeltaX.BlobCache
