import DeltaX.BlobCache.Invariant
import Mathlib.Algebra.BigOperators.Group.Finset.Piecewise
/-!
# Eviction

An unpinned entry is taken out of its bucket chain and out of the list of its shard,
then it is freed.  The rest of the cache is represented as before.
-/

namespace DeltaX.BlobCache

open Support

theorem entryPtr_eq {m : Memory} {dp : ℕ} (h : m.block dp = some .entry) :
    m.entryPtr dp = some dp := by
  rw [Memory.entryPtr, h]

theorem bucketHead_eq {m : Memory} {bucketsDp idx : ℕ} {heads : ℕ → ℕ}
    (h : m.block bucketsDp = some (.buckets heads)) :
    m.bucketHead bucketsDp idx = some (heads idx) := by
  rw [Memory.bucketHead, h]

theorem bucketHeadStore_eq {m : Memory} {bucketsDp idx value : ℕ} {heads : ℕ → ℕ}
    (h : m.block bucketsDp = some (.buckets heads)) :
    m.bucketHeadStore bucketsDp idx value = some { m with
      block := Function.update m.block bucketsDp
        (some (.buckets (Function.update heads idx value))) } := by
  rw [Memory.bucketHeadStore, h]

/-! ## Out of the bucket chain -/

/-- The walk finds the entry before the target and links it past the target. -/
theorem unlinkWalk_eq {m : Memory} {us vs : List ℕ} {w x p fuel : ℕ}
    (h : Linked 0 m.bucketNext p (us ++ w :: x :: vs))
    (hentry : ∀ dp ∈ us ++ w :: x :: vs, m.block dp = some .entry) (hx : x ∉ us) (hw : w ≠ x)
    (hfuel : us.length < fuel) :
    unlinkWalk m x fuel p =
      some { m with bucketNext := Function.update m.bucketNext w (m.bucketNext x) } := by
  induction us generalizing p fuel with
  | nil =>
      obtain ⟨rfl, hp, hnext, -⟩ := h
      obtain ⟨fuel, rfl⟩ := Nat.exists_eq_add_of_lt hfuel
      rw [unlinkWalk, if_neg hp, entryPtr_eq (hentry p (by simp)), Option.bind_eq_bind,
        Option.bind_some, if_pos hnext, entryPtr_eq (hentry x (by simp))]
      rfl
  | cons u us ih =>
      obtain ⟨rfl, hp, hrest⟩ := h
      rw [List.length_cons] at hfuel
      cases fuel with
      | zero => exact absurd hfuel (Nat.not_lt_zero _)
      | succ fuel =>
          rw [List.mem_cons, not_or] at hx
          have hnext : m.bucketNext p ≠ x := by
            cases us with
            | nil => exact hrest.1.trans_ne hw
            | cons u us => exact hrest.1.trans_ne (List.ne_of_not_mem_cons hx.2).symm
          rw [unlinkWalk, if_neg hp, entryPtr_eq (hentry p (by simp)), Option.bind_eq_bind,
            Option.bind_some, if_neg hnext]
          have hentry' : ∀ dp ∈ us ++ w :: x :: vs, m.block dp = some .entry :=
            fun dp hdp => hentry dp (List.mem_cons_of_mem _ hdp)
          exact ih hrest hentry' hx.2 (by omega)

theorem chainOf_remove_other {m : Memory} {b dp : ℕ} {xs ys : List ℕ}
    (hb : bucketIdx (m.key dp) ≠ b) : chainOf m b (xs ++ dp :: ys) = chainOf m b (xs ++ ys) := by
  have hdrop : (bucketIdx (m.key dp) == b) = false := beq_false_of_ne hb
  rw [chainOf, chainOf, List.filter_append, List.filter_append, List.filter_cons, hdrop,
    if_neg Bool.false_ne_true]

theorem chainOf_append {m : Memory} {dp : ℕ} {xs ys : List ℕ} :
    chainOf m (bucketIdx (m.key dp)) (xs ++ dp :: ys) =
      chainOf m (bucketIdx (m.key dp)) xs ++ dp :: chainOf m (bucketIdx (m.key dp)) ys := by
  rw [chainOf, chainOf, chainOf, List.filter_append, List.filter_cons,
    if_pos (beq_self_eq_true _)]

/-- `unlink_from_bucket` takes an entry out of its chain and touches no other. -/
theorem unlinkFromBucket_spec {m : Memory} {bucketsDp dp : ℕ} {heads : ℕ → ℕ} {xs ys : List ℕ}
    (hblock : m.block bucketsDp = some (.buckets heads))
    (hchains : ∀ b < bucketsPerShard,
      Linked 0 m.bucketNext (heads b) (chainOf m b (xs ++ dp :: ys)))
    (hnodup : (xs ++ dp :: ys).Nodup) (hentry : ∀ p ∈ xs ++ dp :: ys, m.block p = some .entry)
    (hfuel : (xs ++ dp :: ys).length < loopFuel) :
    ∃ heads' next',
      unlinkFromBucket m bucketsDp (bucketIdx (m.key dp)) dp = some { m with
        block := Function.update m.block bucketsDp (some (.buckets heads')), bucketNext := next' } ∧
      (∀ b < bucketsPerShard, Linked 0 next' (heads' b) (chainOf m b (xs ++ ys))) ∧
      ∀ p ∉ xs ++ dp :: ys, next' p = m.bucketNext p := by
  have hown := hchains _ (bucketIdx_lt (m.key dp))
  rw [chainOf_append] at hown
  have hsub : (chainOf m (bucketIdx (m.key dp)) xs ++
      dp :: chainOf m (bucketIdx (m.key dp)) ys).Nodup := by
    rw [← chainOf_append]
    exact hnodup.filter _
  have hmem : ∀ p ∈ chainOf m (bucketIdx (m.key dp)) xs ++
      dp :: chainOf m (bucketIdx (m.key dp)) ys, p ∈ xs ++ dp :: ys := by
    rw [← chainOf_append]
    exact fun p hp => (mem_chainOf.mp hp).1
  have hjoin : chainOf m (bucketIdx (m.key dp)) (xs ++ ys) =
      chainOf m (bucketIdx (m.key dp)) xs ++ chainOf m (bucketIdx (m.key dp)) ys :=
    List.filter_append _ _
  generalize hus : chainOf m (bucketIdx (m.key dp)) xs = us at hown hsub hmem hjoin
  generalize chainOf m (bucketIdx (m.key dp)) ys = vs at hown hsub hmem hjoin
  have hdp : m.block dp = some .entry := hentry dp (by simp)
  have hlen : us.length < loopFuel := by
    have hle : us.length ≤ xs.length := hus ▸ List.length_filter_le _ _
    rw [List.length_append] at hfuel
    omega
  rw [unlinkFromBucket, bucketHead_eq hblock]
  rcases List.eq_nil_or_concat' us with rfl | ⟨us', w, rfl⟩
  · -- the entry is the first of its chain
    rw [List.nil_append] at hown hjoin
    obtain ⟨hhead, -, hrest⟩ := hown
    refine ⟨Function.update heads (bucketIdx (m.key dp)) (m.bucketNext dp), m.bucketNext, ?_, ?_,
      fun _ _ => rfl⟩
    · rw [Option.bind_eq_bind, Option.bind_some, if_pos hhead, entryPtr_eq hdp,
        Option.bind_some, bucketHeadStore_eq hblock]
    · intro b hb
      by_cases hsame : b = bucketIdx (m.key dp)
      · rw [hsame, Function.update_self, hjoin]
        exact hrest
      · rw [Function.update_of_ne hsame, ← chainOf_remove_other (Ne.symm hsame)]
        exact hchains b hb
  · -- the walk reaches the entry before it
    rw [List.append_assoc, List.singleton_append] at hown hsub hmem hjoin
    rw [List.nodup_append, List.nodup_cons, List.nodup_cons] at hsub
    obtain ⟨hus', ⟨hw, hdpvs, -⟩, hdisj⟩ := hsub
    have hne : heads (bucketIdx (m.key dp)) ≠ dp := by
      have hstart := hown.start_eq
      cases us' with
      | nil =>
          have hfirst : heads (bucketIdx (m.key dp)) = w := hstart
          rw [hfirst]
          exact fun heq => hw (heq ▸ List.mem_cons_self)
      | cons u us' =>
          have hfirst : heads (bucketIdx (m.key dp)) = u := hstart
          rw [hfirst]
          exact hdisj u List.mem_cons_self dp (by simp)
    have hdpus : dp ∉ us' := fun hin => hdisj dp hin dp (by simp) rfl
    have hwdp : w ≠ dp := fun heq => hw (heq ▸ List.mem_cons_self)
    have hshort : us'.length < loopFuel := by
      rw [List.length_append] at hlen
      omega
    have hwalk := unlinkWalk_eq hown (fun p hp => hentry p (hmem p hp)) hdpus hwdp hshort
    refine ⟨heads, Function.update m.bucketNext w (m.bucketNext dp), ?_, ?_, ?_⟩
    · rw [Option.bind_eq_bind, Option.bind_some, if_neg hne, hwalk, ← hblock,
        Function.update_eq_self]
    · intro b hb
      by_cases hsame : b = bucketIdx (m.key dp)
      · rw [hsame, hjoin]
        have hwus : w ∉ us' := fun hin => hdisj w hin w (by simp) rfl
        have hwvs : w ∉ vs := fun hin => hw (List.mem_cons_of_mem dp hin)
        exact hown.unlink hwus hwvs
      · rw [← chainOf_remove_other (Ne.symm hsame)]
        apply (hchains b hb).update_of_notMem
        intro hin
        have hwb : w ∈ chainOf m (bucketIdx (m.key dp)) xs := by
          rw [hus]
          simp
        exact hsame ((mem_chainOf.mp hin).2.symm.trans (mem_chainOf.mp hwb).2)
    · intro p hp
      have hpw : p ≠ w := fun heq => hp (hmem p (by simp [heq]))
      rw [Function.update_of_ne hpw]

/-! ## Out of the list of the shard -/

theorem unlinkFromLru_spec {sh : Shard} {m : Memory} {dp : ℕ} {xs ys : List ℕ}
    (h : DoublyLinked 0 m.lruNext m.lruPrev sh.lruHead sh.lruTail (xs ++ dp :: ys))
    (hnodup : (xs ++ dp :: ys).Nodup) (hentry : ∀ p ∈ xs ++ dp :: ys, m.block p = some .entry) :
    ∃ head' tail' next' prev',
      unlinkFromLru sh m dp = some ({ sh with lruHead := head', lruTail := tail' },
        { m with lruNext := next', lruPrev := prev' }) ∧
      DoublyLinked 0 next' prev' head' tail' (xs ++ ys) ∧
      ∀ p ∉ xs ++ dp :: ys, next' p = m.lruNext p ∧ prev' p = m.lruPrev p := by
  have hremoved := h.remove hnodup
  have hprev := h.prev_eq
  have hnext := h.next_eq
  have hprevMem : m.lruPrev dp ≠ 0 → m.lruPrev dp ∈ xs := by
    intro hne
    cases hlast : xs.getLast? with
    | none => exact absurd (hprev.trans (by rw [hlast]; rfl)) hne
    | some w =>
        rw [hprev, hlast]
        exact List.mem_of_getLast? hlast
  have hnextMem : m.lruNext dp ≠ 0 → m.lruNext dp ∈ ys := by
    intro hne
    cases hhead : ys.head? with
    | none => exact absurd (hnext.trans (by rw [hhead]; rfl)) hne
    | some w =>
        rw [hnext, hhead]
        exact List.mem_of_head? hhead
  have hdp : dp ∉ xs ++ ys := (List.nodup_middle.mp hnodup).notMem
  refine ⟨if m.lruPrev dp = 0 then m.lruNext dp else sh.lruHead,
    if m.lruNext dp = 0 then m.lruPrev dp else sh.lruTail,
    Function.update (if m.lruPrev dp = 0 then m.lruNext
      else Function.update m.lruNext (m.lruPrev dp) (m.lruNext dp)) dp 0,
    Function.update (if m.lruNext dp = 0 then m.lruPrev
      else Function.update m.lruPrev (m.lruNext dp) (m.lruPrev dp)) dp 0, ?_, ?_, ?_⟩
  · have hprevEntry : m.lruPrev dp ≠ 0 → m.entryPtr (m.lruPrev dp) = some (m.lruPrev dp) :=
      fun hne => entryPtr_eq (hentry _ (List.mem_append_left _ (hprevMem hne)))
    have hnextEntry : m.lruNext dp ≠ 0 → m.entryPtr (m.lruNext dp) = some (m.lruNext dp) :=
      fun hne => entryPtr_eq (hentry _ (List.mem_append_right _
        (List.mem_cons_of_mem dp (hnextMem hne))))
    have hframe : ∀ next, ({ m with lruNext := next } : Memory).entryPtr (m.lruNext dp) =
        m.entryPtr (m.lruNext dp) := fun _ => rfl
    by_cases hp : m.lruPrev dp = 0 <;> by_cases hn : m.lruNext dp = 0
    · simp [unlinkFromLru, unlinkNewer, unlinkOlder, hp, hn]
    · simp [unlinkFromLru, unlinkNewer, unlinkOlder, hp, hn, hnextEntry hn]
    · simp [unlinkFromLru, unlinkNewer, unlinkOlder, hp, hn, hprevEntry hp]
    · simp [unlinkFromLru, unlinkNewer, unlinkOlder, hp, hn, hprevEntry hp, hframe, hnextEntry hn]
  · exact hremoved.congr (fun p hp => Function.update_of_ne (ne_of_mem_of_not_mem hp hdp) _ _)
      fun p hp => Function.update_of_ne (ne_of_mem_of_not_mem hp hdp) _ _
  · intro p hp
    have hpdp : p ≠ dp := fun heq => hp (by simp [heq])
    rw [Function.update_of_ne hpdp, Function.update_of_ne hpdp]
    constructor
    · split_ifs with hzero
      · rfl
      · have hpne : p ≠ m.lruPrev dp :=
          (ne_of_mem_of_not_mem (List.mem_append_left _ (hprevMem hzero)) hp).symm
        exact Function.update_of_ne hpne _ _
    · split_ifs with hzero
      · rfl
      · have hmem : m.lruNext dp ∈ xs ++ dp :: ys :=
          List.mem_append_right _ (List.mem_cons_of_mem dp (hnextMem hzero))
        exact Function.update_of_ne (ne_of_mem_of_not_mem hmem hp).symm _ _

/-! ## The entry goes -/

theorem dsaFree_eq {m : Memory} {dp : ℕ} {b : Block} (h : m.block dp = some b) :
    m.dsaFree dp = some { m with block := Function.update m.block dp none } := by
  rw [Memory.dsaFree, h]
  rfl

theorem freeEntry_eq {m : Memory} {dp : ℕ} {bytes : List UInt8}
    (hentry : m.block dp = some .entry) (hptr : m.dataPtr dp ≠ 0)
    (hpayload : m.block (m.dataPtr dp) = some (.payload bytes)) :
    freeEntry m dp = some { m with
      block := Function.update (Function.update m.block (m.dataPtr dp) none) dp none } := by
  have hne : dp ≠ m.dataPtr dp := by
    intro heq
    rw [← heq, hentry] at hpayload
    cases hpayload
  have hafter : ({ m with block := Function.update m.block (m.dataPtr dp) none } : Memory).block dp =
      some .entry := (Function.update_of_ne hne _ _).trans hentry
  rw [freeEntry, if_pos hptr, dsaFree_eq hpayload]
  exact dsaFree_eq hafter

variable {cfg : Config} {pins : List Pin} {inserted : List (BlobCacheKey × List UInt8)}
  {c : Cache} {lru : ℕ → List ℕ}

theorem sum_update {n i : ℕ} (hi : i < n) (f : ℕ → ℕ) (v : ℕ) :
    (∑ j ∈ Finset.range n, Function.update f i v j) + f i =
      (∑ j ∈ Finset.range n, f j) + v := by
  have hmem : i ∈ Finset.range n := Finset.mem_range.mpr hi
  rw [Finset.sum_update_of_mem hmem, ← Finset.sum_sdiff (Finset.singleton_subset_iff.mpr hmem),
    Finset.sum_singleton]
  omega

theorem lengths_update (lru : ℕ → List ℕ) (i : ℕ) (zs : List ℕ) (j : ℕ) :
    (Function.update lru i zs j).length =
      Function.update (fun j => (lru j).length) i zs.length j := by
  rw [Function.update_apply, Function.update_apply]
  split_ifs <;> rfl

theorem payloadBytes_update (m : Memory) (lru : ℕ → List ℕ) (i : ℕ) (zs : List ℕ) (j : ℕ) :
    payloadBytes m (Function.update lru i zs j) =
      Function.update (fun j => payloadBytes m (lru j)) i (payloadBytes m zs) j := by
  rw [Function.update_apply, Function.update_apply]
  split_ifs <;> rfl

theorem payloadBytes_remove (m : Memory) (xs ys : List ℕ) (dp : ℕ) :
    payloadBytes m (xs ++ dp :: ys) = payloadBytes m (xs ++ ys) + (m.dataLen dp).toNat := by
  simp only [payloadBytes, List.map_append, List.map_cons, List.sum_append, List.sum_cons]
  omega

theorem toNat_sub_of_le {w : ℕ} {x y : BitVec w} {n : ℕ} (h : x.toNat = n + y.toNat) :
    (x - y).toNat = n := by
  rw [BitVec.toNat_sub_of_le (BitVec.le_def.mpr (by omega))]
  omega

theorem toNat_widened (len : BitVec 32) : (len.setWidth 64).toNat = len.toNat :=
  BitVec.toNat_setWidth_of_le (by decide)

/-- The memory without an entry: its shard's chains and list are new, its two blocks are gone. -/
def Memory.without (m : Memory) (dp bucketsDp : ℕ) (heads bucketNext lruNext lruPrev : ℕ → ℕ) :
    Memory :=
  { m with
    block := Function.update (Function.update
      (Function.update m.block bucketsDp (some (.buckets heads))) (m.dataPtr dp) none) dp none
    bucketNext := bucketNext
    lruNext := lruNext
    lruPrev := lruPrev }

/-- The cache without an entry of shard `i`. -/
def Cache.without (c : Cache) (i dp : ℕ) (m : Memory) (head tail : ℕ) : Cache :=
  { c with
    memory := m
    shards := Function.update c.shards i
      { c.shards i with
        lruHead := head
        lruTail := tail
        bytesUsed := (c.shards i).bytesUsed - (c.memory.dataLen dp).setWidth 64
        nEntries := (c.shards i).nEntries - 1 }
    totalBytes := c.totalBytes - (c.memory.dataLen dp).setWidth 64
    nEntries := c.nEntries - 1
    counters.evictionsTotal := c.counters.evictionsTotal + 1 }

section remove

variable {i dp : ℕ} {xs ys : List ℕ}

theorem Represents.mem_of_mem_update (h : Represents cfg pins inserted c lru)
    (hlru : lru i = xs ++ dp :: ys) {j p : ℕ} (hp : p ∈ Function.update lru i (xs ++ ys) j) :
    p ∈ lru j ∧ p ≠ dp := by
  have hnodup : (xs ++ dp :: ys).Nodup := hlru ▸ h.nodup i
  rw [Function.update_apply] at hp
  split_ifs at hp with hj
  · rw [hj, hlru]
    refine ⟨?_, ne_of_mem_of_not_mem hp (List.nodup_middle.mp hnodup).notMem⟩
    rw [List.mem_append] at hp ⊢
    exact hp.imp_right (List.mem_cons_of_mem dp)
  · refine ⟨hp, ?_⟩
    rintro rfl
    exact hj (h.shard_unique hp (by simp [hlru]))

/-- What is no part of the entry, nor the bucket array, stays. -/
theorem Memory.without_block {m : Memory} {bucketsDp p : ℕ} {heads bucketNext lruNext lruPrev : ℕ → ℕ}
    (hdp : p ≠ dp) (hptr : p ≠ m.dataPtr dp) (hbuckets : p ≠ bucketsDp) :
    (m.without dp bucketsDp heads bucketNext lruNext lruPrev).block p = m.block p := by
  show Function.update (Function.update (Function.update m.block bucketsDp _) _ none) dp none p = _
  rw [Function.update_of_ne hdp, Function.update_of_ne hptr, Function.update_of_ne hbuckets]

variable {bucketsDp head tail : ℕ} {heads heads' bucketNext' lruNext' lruPrev' : ℕ → ℕ}

/-- Entry `dp` of shard `i` goes: the chains and the list of the shard are relinked around it, and
its blocks are freed.  It had `xs` in front of it and `ys` behind. -/
structure Removal (cfg : Config) (pins : List Pin) (inserted : List (BlobCacheKey × List UInt8))
    (c : Cache) (lru : ℕ → List ℕ) (i dp : ℕ) (xs ys : List ℕ)
    (heads heads' bucketNext' lruNext' lruPrev' : ℕ → ℕ) (head tail : ℕ) (c' : Cache) : Prop where
  represents : Represents cfg pins inserted c lru
  lru_eq : lru i = xs ++ dp :: ys
  unpinned : c.memory.pinCount dp = 0
  bucketArray_ne : (c.shards i).bucketArray ≠ 0
  buckets : c.memory.block (c.shards i).bucketArray = some (.buckets heads)
  relinked : ∀ b < bucketsPerShard,
    Linked 0 bucketNext' (heads' b) (chainOf c.memory b (xs ++ ys))
  bucketNext_eq : ∀ p ∉ xs ++ dp :: ys, bucketNext' p = c.memory.bucketNext p
  list : DoublyLinked 0 lruNext' lruPrev' head tail (xs ++ ys)
  list_eq : ∀ p ∉ xs ++ dp :: ys,
    lruNext' p = c.memory.lruNext p ∧ lruPrev' p = c.memory.lruPrev p
  cache_eq : c' = c.without i dp
    (c.memory.without dp (c.shards i).bucketArray heads' bucketNext' lruNext' lruPrev') head tail

namespace Removal

variable {c' : Cache} (h : Removal cfg pins inserted c lru i dp xs ys heads heads' bucketNext'
  lruNext' lruPrev' head tail c')
include h

theorem mem : dp ∈ lru i := by simp [h.lru_eq]

theorem lt_nShards : i < cfg.nShards := h.represents.shard i dp h.mem ▸ shardIdx_lt cfg _

theorem kept {j p : ℕ} (hp : p ∈ Function.update lru i (xs ++ ys) j) : p ∈ lru j ∧ p ≠ dp :=
  h.represents.mem_of_mem_update h.lru_eq hp

theorem outside {j p : ℕ} (hj : j ≠ i) (hp : p ∈ lru j) : p ∉ xs ++ dp :: ys :=
  fun hin => hj (h.represents.shard_unique hp (h.lru_eq ▸ hin))

/-- The blocks of the entry are gone, the bucket array is new, and all other blocks stay. -/
theorem block_eq {p : ℕ} (hdp : p ≠ dp) (hptr : p ≠ c.memory.dataPtr dp)
    (hbuckets : p ≠ (c.shards i).bucketArray) : c'.memory.block p = c.memory.block p := by
  rw [h.cache_eq]
  exact Memory.without_block hdp hptr hbuckets

theorem ne_dp {p : ℕ} {b : Block} (hb : c.memory.block p = some b) (hne : b ≠ .entry) :
    p ≠ dp := by
  rintro rfl
  exact hne (Option.some.inj (hb.symm.trans (h.represents.entry i p h.mem)))

theorem ne_dataPtr {p : ℕ} {b : Block} (hb : c.memory.block p = some b)
    (hne : ∀ bytes, b ≠ .payload bytes) : p ≠ c.memory.dataPtr dp := by
  rintro rfl
  obtain ⟨bytes, hpayload, -⟩ := h.represents.payload i dp h.mem
  exact hne bytes (Option.some.inj (hb.symm.trans hpayload))

theorem ne_bucketArray {p : ℕ} {b : Block} (hb : c.memory.block p = some b)
    (hne : ∀ heads, b ≠ .buckets heads) : p ≠ (c.shards i).bucketArray := by
  rintro rfl
  exact hne heads (Option.some.inj (hb.symm.trans h.buckets))

theorem shards_eq (j : ℕ) : c'.shards j =
    if j = i then { c.shards i with
      lruHead := head
      lruTail := tail
      bytesUsed := (c.shards i).bytesUsed - (c.memory.dataLen dp).setWidth 64
      nEntries := (c.shards i).nEntries - 1 } else c.shards j := by
  rw [h.cache_eq]
  exact Function.update_apply _ _ _ _

theorem bucketArray_eq (j : ℕ) : (c'.shards j).bucketArray = (c.shards j).bucketArray := by
  rw [h.shards_eq]
  split_ifs with hj
  · rw [hj]
  · rfl

theorem key_eq : c'.memory.key = c.memory.key := by rw [h.cache_eq]; rfl

theorem dataPtr_eq : c'.memory.dataPtr = c.memory.dataPtr := by rw [h.cache_eq]; rfl

theorem dataLen_eq : c'.memory.dataLen = c.memory.dataLen := by rw [h.cache_eq]; rfl

theorem pinCount_eq : c'.memory.pinCount = c.memory.pinCount := by rw [h.cache_eq]; rfl

theorem payloadBytes_eq (zs : List ℕ) : payloadBytes c'.memory zs = payloadBytes c.memory zs := by
  rw [payloadBytes, h.dataLen_eq]
  rfl

/-! ### The lists -/

theorem list_of (j : ℕ) : DoublyLinked 0 c'.memory.lruNext c'.memory.lruPrev (c'.shards j).lruHead
    (c'.shards j).lruTail (Function.update lru i (xs ++ ys) j) := by
  have hnext : c'.memory.lruNext = lruNext' := by rw [h.cache_eq]; rfl
  have hprev : c'.memory.lruPrev = lruPrev' := by rw [h.cache_eq]; rfl
  rw [h.shards_eq, hnext, hprev]
  by_cases hj : j = i
  · rw [if_pos hj, hj, Function.update_self]
    exact h.list
  · rw [if_neg hj, Function.update_of_ne hj]
    exact (h.represents.list j).congr (fun p hp => (h.list_eq p (h.outside hj hp)).1)
      fun p hp => (h.list_eq p (h.outside hj hp)).2

theorem nodup (j : ℕ) : (Function.update lru i (xs ++ ys) j).Nodup := by
  by_cases hj : j = i
  · rw [hj, Function.update_self]
    have hnodup := h.represents.nodup i
    rw [h.lru_eq] at hnodup
    exact (List.nodup_middle.mp hnodup).of_cons
  · rw [Function.update_of_ne hj]
    exact h.represents.nodup j

theorem chains (j : ℕ) :
    Chains c'.memory (c'.shards j).bucketArray (Function.update lru i (xs ++ ys) j) := by
  have hnext : c'.memory.bucketNext = bucketNext' := by rw [h.cache_eq]; rfl
  rw [h.bucketArray_eq, Chains, hnext]
  by_cases hj : j = i
  · rw [hj, Function.update_self]
    refine .inr ⟨h.bucketArray_ne, heads', ?_, fun b hb => ?_⟩
    · rw [h.cache_eq]
      show Function.update (Function.update (Function.update c.memory.block _ _) _ none) dp none
        (c.shards i).bucketArray = _
      rw [Function.update_of_ne (h.ne_dp h.buckets (by simp)),
        Function.update_of_ne (h.ne_dataPtr h.buckets (by simp)), Function.update_self]
    · rw [chainOf_congr (m := c.memory) fun p _ => congrFun h.key_eq p]
      exact h.relinked b hb
  · rw [Function.update_of_ne hj]
    rcases h.represents.chains j with hnone | ⟨hjne, heads, hjblock, hlinked⟩
    · exact .inl hnone
    · refine .inr ⟨hjne, heads, ?_, fun b hb => ?_⟩
      · rw [h.block_eq (h.ne_dp hjblock (by simp)) (h.ne_dataPtr hjblock (by simp)), hjblock]
        exact fun heq => hj (h.represents.bucketArray_inj j i heq hjne)
      · rw [chainOf_congr (m := c.memory) fun p _ => congrFun h.key_eq p]
        exact (hlinked b hb).congr fun p hp =>
          h.bucketNext_eq p (h.outside hj (mem_chainOf.mp hp).1)

/-! ### The entries -/

theorem entry {j p : ℕ} (hp : p ∈ Function.update lru i (xs ++ ys) j) :
    c'.memory.block p = some .entry := by
  obtain ⟨hmem, hdp⟩ := h.kept hp
  have hentry := h.represents.entry j p hmem
  rw [h.block_eq hdp (h.ne_dataPtr hentry (by simp)) (h.ne_bucketArray hentry (by simp)), hentry]

theorem payload {j p : ℕ} (hp : p ∈ Function.update lru i (xs ++ ys) j) :
    ∃ bytes, c'.memory.block (c'.memory.dataPtr p) = some (.payload bytes) ∧
      bytes.length = (c'.memory.dataLen p).toNat ∧ bytes ≠ [] ∧
        (c'.memory.key p, bytes) ∈ inserted := by
  obtain ⟨hmem, hdp⟩ := h.kept hp
  obtain ⟨bytes, hblock, hrest⟩ := h.represents.payload j p hmem
  rw [h.dataPtr_eq, h.dataLen_eq, h.key_eq]
  refine ⟨bytes, ?_, hrest⟩
  have hptr : c.memory.dataPtr p ≠ c.memory.dataPtr dp :=
    fun heq => hdp (h.represents.dataPtr_inj j i p hmem dp h.mem heq)
  rw [h.block_eq (h.ne_dp hblock (by simp)) hptr (h.ne_bucketArray hblock (by simp)), hblock]

/-- The entry that goes has no pins. -/
theorem pinned {pin : Pin} (hpin : pin ∈ pins) :
    pin.entryDp ∈ Function.update lru i (xs ++ ys) (shardIdx cfg.nShards pin.key) := by
  obtain ⟨hin, -⟩ := h.represents.pinned pin hpin
  have hdp : pin.entryDp ≠ dp := by
    intro heq
    have hcount := h.represents.pinCount_eq i dp h.mem
    rw [h.unpinned] at hcount
    have hpos : 0 < pinsOn pins dp := List.countP_pos_iff.mpr ⟨pin, hpin, beq_iff_eq.mpr heq⟩
    exact hpos.ne hcount
  rw [Function.update_apply]
  split_ifs with hj
  · rw [hj, h.lru_eq, List.mem_append, List.mem_cons] at hin
    rw [List.mem_append]
    rcases hin with hin | hin | hin
    · exact .inl hin
    · exact absurd hin hdp
    · exact .inr hin
  · exact hin

/-! ### The counters -/

theorem length_eq : (lru i).length = (xs ++ ys).length + 1 := by
  rw [h.lru_eq, List.length_append, List.length_append, List.length_cons]
  omega

theorem bytes_eq : payloadBytes c.memory (lru i) =
    payloadBytes c.memory (xs ++ ys) + ((c.memory.dataLen dp).setWidth 64).toNat := by
  rw [h.lru_eq, payloadBytes_remove, toNat_widened]

theorem nEntries_eq (j : ℕ) :
    (c'.shards j).nEntries.toNat = (Function.update lru i (xs ++ ys) j).length := by
  rw [h.shards_eq]
  by_cases hj : j = i
  · rw [if_pos hj, hj, Function.update_self]
    exact toNat_sub_of_le ((h.represents.nEntries_eq i).trans h.length_eq)
  · rw [if_neg hj, Function.update_of_ne hj]
    exact h.represents.nEntries_eq j

theorem bytesUsed_eq (j : ℕ) : (c'.shards j).bytesUsed.toNat =
    payloadBytes c'.memory (Function.update lru i (xs ++ ys) j) := by
  rw [h.shards_eq, h.payloadBytes_eq]
  by_cases hj : j = i
  · rw [if_pos hj, hj, Function.update_self]
    exact toNat_sub_of_le ((h.represents.bytesUsed_eq i).trans h.bytes_eq)
  · rw [if_neg hj, Function.update_of_ne hj]
    exact h.represents.bytesUsed_eq j

theorem total_nEntries : c'.nEntries.toNat =
    ∑ j ∈ Finset.range cfg.nShards, (Function.update lru i (xs ++ ys) j).length := by
  have hsum := sum_update h.lt_nShards (fun j => (lru j).length) (xs ++ ys).length
  simp only [← lengths_update] at hsum
  have hlength := h.length_eq
  rw [h.cache_eq]
  apply toNat_sub_of_le
  have hone : (1 : BitVec 64).toNat = 1 := rfl
  rw [h.represents.total_nEntries, hone]
  omega

/-- The bytes of all entries, before and after. -/
theorem total_add : c.totalBytes.toNat =
    (∑ j ∈ Finset.range cfg.nShards, payloadBytes c.memory (Function.update lru i (xs ++ ys) j)) +
      ((c.memory.dataLen dp).setWidth 64).toNat := by
  have hsum := sum_update h.lt_nShards (fun j => payloadBytes c.memory (lru j))
    (payloadBytes c.memory (xs ++ ys))
  simp only [← payloadBytes_update] at hsum
  have hbytes := h.bytes_eq
  rw [h.represents.total_bytes]
  omega

theorem total_bytes : c'.totalBytes.toNat = ∑ j ∈ Finset.range cfg.nShards,
    payloadBytes c'.memory (Function.update lru i (xs ++ ys) j) := by
  simp only [h.payloadBytes_eq]
  rw [h.cache_eq]
  exact toNat_sub_of_le h.total_add

theorem separate : Separate cfg.maxBytes c'.memory := by
  apply h.represents.separate.shrink
  intro p b hp
  rw [h.cache_eq] at hp
  change Function.update (Function.update (Function.update c.memory.block _ _) _ none) dp none p =
    some b at hp
  rw [Function.update_apply, Function.update_apply, Function.update_apply] at hp
  split_ifs at hp with h1 h2 h3
  · rw [h3]
    obtain rfl := Option.some.inj hp
    exact ⟨_, h.buckets, rfl⟩
  · exact ⟨b, hp, rfl⟩

/-- The cache represents the lists without the entry. -/
theorem removed : Represents cfg pins inserted c' (Function.update lru i (xs ++ ys)) where
  list := h.list_of
  nodup := h.nodup
  chains := h.chains
  bucketArray_inj j k := by
    rw [h.bucketArray_eq, h.bucketArray_eq]
    exact h.represents.bucketArray_inj j k
  entry j p hp := h.entry hp
  shard j p hp := by
    rw [h.key_eq]
    exact h.represents.shard j p (h.kept hp).1
  key_inj j p hp q hq := by
    rw [h.key_eq]
    exact h.represents.key_inj j p (h.kept hp).1 q (h.kept hq).1
  payload j p hp := h.payload hp
  dataPtr_inj j k p hp q hq := by
    rw [h.dataPtr_eq]
    exact h.represents.dataPtr_inj j k p (h.kept hp).1 q (h.kept hq).1
  nEntries_eq := h.nEntries_eq
  bytesUsed_eq := h.bytesUsed_eq
  total_nEntries := h.total_nEntries
  total_bytes := h.total_bytes
  total_le := by
    have hle := h.represents.total_le
    have hadd := h.total_add
    have hbytes := h.total_bytes
    simp only [h.payloadBytes_eq] at hbytes
    omega
  separate := h.separate
  pinned pin hpin := by
    rw [h.key_eq]
    exact ⟨h.pinned hpin, (h.represents.pinned pin hpin).2⟩
  pinCount_eq j p hp := by
    rw [h.pinCount_eq]
    exact h.represents.pinCount_eq j p (h.kept hp).1

end Removal

end remove

theorem Represents.dataLen_le_total (h : Represents cfg pins inserted c lru) {i dp : ℕ}
    (hmem : dp ∈ lru i) : (c.memory.dataLen dp).toNat ≤ c.totalBytes.toNat := by
  have hi : i ∈ Finset.range cfg.nShards :=
    Finset.mem_range.mpr (h.shard i dp hmem ▸ shardIdx_lt cfg _)
  calc (c.memory.dataLen dp).toNat
      ≤ payloadBytes c.memory (lru i) :=
        List.single_le_sum (by simp) _ (List.mem_map_of_mem hmem)
    _ ≤ ∑ j ∈ Finset.range cfg.nShards, payloadBytes c.memory (lru j) :=
        Finset.single_le_sum (f := fun j => payloadBytes c.memory (lru j))
          (fun j _ => Nat.zero_le _) hi
    _ = c.totalBytes.toNat := h.total_bytes.symm

/-- An eviction succeeds, and leaves the cache without the entry. -/
theorem evictEntry_spec (h : Represents cfg pins inserted c lru) {i dp : ℕ} {xs ys : List ℕ}
    (hlru : lru i = xs ++ dp :: ys) (hpin : c.memory.pinCount dp = 0) :
    ∃ c', evictEntry c i dp = some c' ∧
      Represents cfg pins inserted c' (Function.update lru i (xs ++ ys)) ∧
      c'.totalBytes.toNat + (c.memory.dataLen dp).toNat = c.totalBytes.toNat ∧
      (c'.shards i).bucketArray = (c.shards i).bucketArray ∧ c'.memory.key = c.memory.key ∧
      c'.memory.block dp = none := by
  have hmem : dp ∈ lru i := by simp [hlru]
  have hentry : ∀ p ∈ xs ++ dp :: ys, c.memory.block p = some .entry :=
    fun p hp => h.entry i p (hlru ▸ hp)
  have hnodup : (xs ++ dp :: ys).Nodup := hlru ▸ h.nodup i
  have hbucketsNe : (c.shards i).bucketArray ≠ 0 := by
    rcases h.chains i with ⟨-, hnil⟩ | ⟨hne, -⟩
    · rw [hlru] at hnil
      simp at hnil
    · exact hne
  obtain ⟨heads, hblock, hchains⟩ := h.bucketArray_block hbucketsNe
  have hfuel : (xs ++ dp :: ys).length < loopFuel := by
    have hlt := h.length_lt_loopFuel i
    rw [hlru] at hlt
    omega
  rw [hlru] at hchains
  obtain ⟨heads', bucketNext', hbucket, hchains', hbucketFrame⟩ :=
    unlinkFromBucket_spec hblock hchains hnodup hentry hfuel
  have hentry' : ∀ p ∈ xs ++ dp :: ys, Function.update c.memory.block (c.shards i).bucketArray
      (some (.buckets heads')) p = some .entry := by
    intro p hp
    have hpb : p ≠ (c.shards i).bucketArray := by
      intro heq
      have hpEntry := hentry p hp
      rw [heq, hblock] at hpEntry
      cases hpEntry
    rw [Function.update_of_ne hpb]
    exact hentry p hp
  have hlinked := h.list i
  rw [hlru] at hlinked
  obtain ⟨head', tail', lruNext', lruPrev', hlist, hlist', hlruFrame⟩ :=
    @unlinkFromLru_spec (c.shards i) { c.memory with
      block := Function.update c.memory.block (c.shards i).bucketArray (some (.buckets heads'))
      bucketNext := bucketNext' } dp xs ys hlinked hnodup hentry'
  obtain ⟨bytes, hpayload, -⟩ := h.payload i dp hmem
  have hpayload' : Function.update c.memory.block (c.shards i).bucketArray
      (some (.buckets heads')) (c.memory.dataPtr dp) = some (.payload bytes) := by
    have hpb : c.memory.dataPtr dp ≠ (c.shards i).bucketArray := by
      intro heq
      rw [heq, hblock] at hpayload
      cases hpayload
    rw [Function.update_of_ne hpb]
    exact hpayload
  have hfree := @freeEntry_eq { c.memory with
      block := Function.update c.memory.block (c.shards i).bucketArray (some (.buckets heads'))
      bucketNext := bucketNext', lruNext := lruNext', lruPrev := lruPrev' } dp bytes
    (hentry' dp (by simp)) (h.dataPtr_ne_zero hmem) hpayload'
  have hremoval : Removal cfg pins inserted c lru i dp xs ys heads heads' bucketNext' lruNext'
      lruPrev' head' tail' (c.without i dp (c.memory.without dp (c.shards i).bucketArray heads'
        bucketNext' lruNext' lruPrev') head' tail') :=
    ⟨h, hlru, hpin, hbucketsNe, hblock, hchains', hbucketFrame, hlist', hlruFrame, rfl⟩
  refine ⟨_, ?_, hremoval.removed, ?_, ?_, rfl, Function.update_self _ _ _⟩
  · rw [evictEntry, hbucket, Option.bind_eq_bind, Option.bind_some, hlist, Option.bind_eq_bind,
      Option.bind_some]
    dsimp only
    rw [hfree]
    rfl
  · show (c.totalBytes - (c.memory.dataLen dp).setWidth 64).toNat + _ = _
    have htotal := h.dataLen_le_total hmem
    have hwide := toNat_widened (c.memory.dataLen dp)
    rw [BitVec.toNat_sub_of_le (BitVec.le_def.mpr (by omega)), hwide]
    omega
  · show (Function.update c.shards i _ i).bucketArray = _
    rw [Function.update_self]

/-! ## The loop -/

/-- What an eviction of any number of entries leaves, and that it freed nothing only where it
evicted nothing. -/
structure Evicted (cfg : Config) (pins : List Pin) (inserted : List (BlobCacheKey × List UInt8))
    (c : Cache) (lru : ℕ → List ℕ) (i : ℕ) (c' : Cache) (zs : List ℕ) : Prop where
  represents : Represents cfg pins inserted c' (Function.update lru i zs)
  sublist : zs.Sublist (lru i)
  bytes_le : c'.totalBytes.toNat ≤ c.totalBytes.toNat
  bucketArray : (c'.shards i).bucketArray = (c.shards i).bucketArray
  key : c'.memory.key = c.memory.key

theorem Evicted.refl (h : Represents cfg pins inserted c lru) (i : ℕ) :
    Evicted cfg pins inserted c lru i c (lru i) where
  represents := by rwa [Function.update_eq_self]
  sublist := List.Sublist.refl _
  bytes_le := Nat.le_refl _
  bucketArray := rfl
  key := rfl

theorem Evicted.trans {i : ℕ} {c₁ c₂ : Cache} {ys zs : List ℕ}
    (h₁ : Evicted cfg pins inserted c lru i c₁ ys)
    (h₂ : Evicted cfg pins inserted c₁ (Function.update lru i ys) i c₂ zs) :
    Evicted cfg pins inserted c lru i c₂ zs where
  represents := by
    have h := h₂.represents
    rwa [Function.update_idem] at h
  sublist := by
    have h := h₂.sublist
    rw [Function.update_self] at h
    exact h.trans h₁.sublist
  bytes_le := h₂.bytes_le.trans h₁.bytes_le
  bucketArray := h₂.bucketArray.trans h₁.bucketArray
  key := h₂.key.trans h₁.key

/-- The walk from `cur` towards newer entries, `xs` from `cur` on: the older ones stay. -/
theorem evictFrom_spec {i bytesNeeded fuel freed : ℕ} {xs ys : List ℕ}
    (h : Represents cfg pins inserted c lru) (hlru : lru i = xs ++ ys) (hfuel : xs.length < fuel) :
    ∃ c' zs freed',
      evictFrom i bytesNeeded fuel c (xs.getLast?.getD 0) freed = some (c', freed') ∧
      Evicted cfg pins inserted c lru i c' zs ∧ (freed' = freed ∨ zs.length < (lru i).length) := by
  induction xs using List.reverseRecOn generalizing c lru ys fuel freed with
  | nil =>
      cases fuel with
      | zero => exact absurd hfuel (Nat.not_lt_zero _)
      | succ fuel =>
          refine ⟨c, lru i, freed, ?_, Evicted.refl h i, .inl rfl⟩
          rw [evictFrom, if_neg fun hcond => hcond.2 rfl]
  | append_singleton xs dp ih =>
      cases fuel with
      | zero => exact absurd hfuel (Nat.not_lt_zero _)
      | succ fuel =>
          rw [List.length_append, List.length_singleton] at hfuel
          rw [List.append_assoc, List.singleton_append] at hlru
          have hmem : dp ∈ lru i := by simp [hlru]
          have hlist := h.list i
          rw [hlru] at hlist
          have hprev := hlist.prev_eq
          rw [List.getLast?_concat, Option.getD_some, evictFrom]
          by_cases hcond : freed < bytesNeeded ∧ dp ≠ 0
          · rw [if_pos hcond, entryPtr_eq (h.entry i dp hmem), Option.bind_eq_bind,
              Option.bind_some, hprev]
            by_cases hpin : c.memory.pinCount dp = 0
            · obtain ⟨c₁, hevict, hrep, hbytes, harray, hkey, -⟩ := evictEntry_spec h hlru hpin
              have hlru' : Function.update lru i (xs ++ ys) i = xs ++ ys := Function.update_self _ _ _
              obtain ⟨c₂, zs, freed', hloop, hevicted, -⟩ := @ih c₁
                (Function.update lru i (xs ++ ys)) fuel
                (satAdd freed (c.memory.dataLen dp).toNat) ys hrep hlru' (by omega)
              have hstep : Evicted cfg pins inserted c lru i c₁ (xs ++ ys) := {
                represents := hrep
                sublist := by
                  rw [hlru]
                  exact (List.sublist_cons_self dp ys).append_left xs
                bytes_le := by omega
                bucketArray := harray
                key := hkey }
              refine ⟨c₂, zs, freed', ?_, hstep.trans hevicted, .inr ?_⟩
              · rw [if_pos hpin, hevict]
                exact hloop
              · have hshorter := hevicted.sublist.length_le
                rw [hlru', List.length_append] at hshorter
                rw [hlru, List.length_append, List.length_cons]
                omega
            · rw [if_neg hpin]
              exact ih h hlru (by omega)
          · rw [if_neg hcond]
            exact ⟨c, lru i, freed, rfl, Evicted.refl h i, .inl rfl⟩

/-- `evict_in_shard`. -/
theorem evictInShard_spec (h : Represents cfg pins inserted c lru) (i bytesNeeded : ℕ) :
    ∃ c' zs freed, evictInShard c i bytesNeeded = some (c', freed) ∧
      Evicted cfg pins inserted c lru i c' zs ∧ (freed = 0 ∨ zs.length < (lru i).length) := by
  have hlast : (c.shards i).lruTail = (lru i).getLast?.getD 0 := by
    rw [(h.list i).backward.start_eq, List.head?_reverse]
  have hfuel := h.length_lt_loopFuel i
  rw [evictInShard, hlast]
  exact evictFrom_spec h (List.append_nil _).symm (by omega)

end DeltaX.BlobCache
