import DeltaX.BlobCache.Eviction
/-!
# Insertion

An insertion gets memory, evicting what it has to, and links the new entry in.  Whatever
the allocations come to, the cache is represented by the lists it had, less what was
evicted, and by the new entry where it was linked in.
-/

namespace DeltaX.BlobCache

open Support

variable {cfg : Config} {pins : List Pin} {inserted : List (BlobCacheKey × List UInt8)}
  {c : Cache} {lru : ℕ → List ℕ}

/-! ## Lookup in a chain -/

theorem findInBucket_eq {m : Memory} {key : BlobCacheKey} {us : List ℕ} {p fuel : ℕ}
    (h : Linked 0 m.bucketNext p us) (hentry : ∀ dp ∈ us, m.block dp = some .entry)
    (hfuel : us.length < fuel) :
    findInBucket m key fuel p = some (us.find? fun dp => decide (m.key dp = key)) := by
  induction us generalizing p fuel with
  | nil =>
      obtain ⟨fuel, rfl⟩ := Nat.exists_eq_add_of_lt hfuel
      have hzero : p = 0 := h
      rw [findInBucket, if_pos hzero]
      rfl
  | cons u us ih =>
      obtain ⟨rfl, hp, hrest⟩ := h
      rw [List.length_cons] at hfuel
      cases fuel with
      | zero => exact absurd hfuel (Nat.not_lt_zero _)
      | succ fuel =>
          rw [findInBucket, if_neg hp, entryPtr_eq (hentry p List.mem_cons_self),
            Option.bind_eq_bind, Option.bind_some, List.find?_cons]
          by_cases hkey : m.key p = key
          · rw [if_pos hkey, decide_eq_true hkey]
          · rw [if_neg hkey, decide_eq_false hkey]
            exact ih hrest (fun dp hdp => hentry dp (List.mem_cons_of_mem p hdp)) (by omega)

def entryOf (m : Memory) (lru : List ℕ) (key : BlobCacheKey) : Option ℕ :=
  (chainOf m (bucketIdx key) lru).find? fun dp => decide (m.key dp = key)

theorem entryOf_eq_some {m : Memory} {lru : List ℕ} {key : BlobCacheKey} {dp : ℕ}
    (h : entryOf m lru key = some dp) : dp ∈ lru ∧ m.key dp = key := by
  have hmem := List.mem_of_find?_eq_some h
  have hkey := List.find?_some h
  exact ⟨(mem_chainOf.mp hmem).1, of_decide_eq_true hkey⟩

theorem entryOf_eq_none {m : Memory} {lru : List ℕ} {key : BlobCacheKey}
    (h : entryOf m lru key = none) : ∀ dp ∈ lru, m.key dp ≠ key := by
  intro dp hdp hkey
  have hchain : dp ∈ chainOf m (bucketIdx key) lru := mem_chainOf.mpr ⟨hdp, by rw [hkey]⟩
  exact List.find?_eq_none.mp h dp hchain (decide_eq_true hkey)

/-- The walk along the chain of a key finds the entry with the key. -/
theorem find_spec (h : Represents cfg pins inserted c lru) {i : ℕ} (key : BlobCacheKey)
    (hne : (c.shards i).bucketArray ≠ 0) :
    ∃ head, c.memory.bucketHead (c.shards i).bucketArray (bucketIdx key) = some head ∧
      findInBucket c.memory key loopFuel head = some (entryOf c.memory (lru i) key) := by
  obtain ⟨heads, hblock, hchains⟩ := h.bucketArray_block hne
  refine ⟨heads (bucketIdx key), bucketHead_eq hblock, ?_⟩
  apply findInBucket_eq (hchains _ (bucketIdx_lt key))
  · exact fun dp hdp => h.entry i dp (mem_chainOf.mp hdp).1
  · have hlen := h.length_lt_loopFuel i
    have hle : (chainOf c.memory (bucketIdx key) (lru i)).length ≤ (lru i).length :=
      List.length_filter_le _ _
    omega

/-! ## The bucket array -/

theorem Memory.extends_of_none {m m' : Memory} {dp : ℕ} (hnone : m.block dp = none)
    (hblock : ∀ p, p ≠ dp → m'.block p = m.block p) (hkey : ∀ p, p ≠ dp → m'.key p = m.key p)
    (hdataPtr : ∀ p, p ≠ dp → m'.dataPtr p = m.dataPtr p)
    (hdataLen : ∀ p, p ≠ dp → m'.dataLen p = m.dataLen p)
    (hpinCount : ∀ p, p ≠ dp → m'.pinCount p = m.pinCount p)
    (hbucketNext : ∀ p, p ≠ dp → m'.bucketNext p = m.bucketNext p)
    (hlruPrev : ∀ p, p ≠ dp → m'.lruPrev p = m.lruPrev p)
    (hlruNext : ∀ p, p ≠ dp → m'.lruNext p = m.lruNext p) : m.Extends m' := by
  have hne : ∀ p, (m.block p).isSome → p ≠ dp := by
    rintro p hp rfl
    rw [hnone] at hp
    cases hp
  exact {
    block := fun p b hp => (hblock p (hne p (by rw [hp]; rfl))).trans hp
    key := fun p hp => hkey p (hne p hp)
    dataPtr := fun p hp => hdataPtr p (hne p hp)
    dataLen := fun p hp => hdataLen p (hne p hp)
    pinCount := fun p hp => hpinCount p (hne p hp)
    bucketNext := fun p hp => hbucketNext p (hne p hp)
    lruPrev := fun p hp => hlruPrev p (hne p hp)
    lruNext := fun p hp => hlruNext p (hne p hp) }

theorem extends_newBuckets {m : Memory} {dp : ℕ} (hnone : m.block dp = none) :
    m.Extends (m.newBuckets dp) :=
  Memory.extends_of_none hnone (fun _ hp => Function.update_of_ne hp _ _) (fun _ _ => rfl)
    (fun _ _ => rfl) (fun _ _ => rfl) (fun _ _ => rfl) (fun _ _ => rfl) (fun _ _ => rfl)
    fun _ _ => rfl

theorem extends_newEntry {m : Memory} {dp : ℕ} (hnone : m.block dp = none) :
    m.Extends (m.newEntry dp) := by
  apply Memory.extends_of_none hnone <;> intro p hp <;> exact Function.update_of_ne hp _ _

theorem extends_newPayload {m : Memory} {dp : ℕ} (hnone : m.block dp = none)
    (bytes : List UInt8) : m.Extends (m.newPayload dp bytes) :=
  Memory.extends_of_none hnone (fun _ hp => Function.update_of_ne hp _ _) (fun _ _ => rfl)
    (fun _ _ => rfl) (fun _ _ => rfl) (fun _ _ => rfl) (fun _ _ => rfl) (fun _ _ => rfl)
    fun _ _ => rfl

theorem Memory.Extends.trans {m m' m'' : Memory} (h : m.Extends m') (h' : m'.Extends m'') :
    m.Extends m'' := by
  have hsome : ∀ p, (m.block p).isSome → (m'.block p).isSome := by
    intro p hp
    obtain ⟨b, hb⟩ := Option.isSome_iff_exists.mp hp
    rw [h.block p b hb]
    rfl
  exact {
    block := fun p b hp => h'.block p b (h.block p b hp)
    key := fun p hp => (h'.key p (hsome p hp)).trans (h.key p hp)
    dataPtr := fun p hp => (h'.dataPtr p (hsome p hp)).trans (h.dataPtr p hp)
    dataLen := fun p hp => (h'.dataLen p (hsome p hp)).trans (h.dataLen p hp)
    pinCount := fun p hp => (h'.pinCount p (hsome p hp)).trans (h.pinCount p hp)
    bucketNext := fun p hp => (h'.bucketNext p (hsome p hp)).trans (h.bucketNext p hp)
    lruPrev := fun p hp => (h'.lruPrev p (hsome p hp)).trans (h.lruPrev p hp)
    lruNext := fun p hp => (h'.lruNext p (hsome p hp)).trans (h.lruNext p hp) }

def Cache.setBuckets (c : Cache) (i dp : ℕ) : Cache :=
  { c with shards := Function.update c.shards i { c.shards i with bucketArray := dp } }

theorem Cache.setBuckets_shards (c : Cache) (i dp j : ℕ) : (c.setBuckets i dp).shards j =
    if j = i then { c.shards i with bucketArray := dp } else c.shards j :=
  Function.update_apply _ _ _ _

/-- A shard without entries gets a bucket array. -/
theorem Represents.setBuckets (h : Represents cfg pins inserted c lru) {i dp : ℕ}
    (hzero : (c.shards i).bucketArray = 0) (hne : dp ≠ 0)
    (hblock : c.memory.block dp = some (.buckets fun _ => 0))
    (hunused : ∀ j, (c.shards j).bucketArray ≠ dp) :
    Represents cfg pins inserted (c.setBuckets i dp) lru := by
  have hnil : lru i = [] := by
    rcases h.chains i with ⟨-, hnil⟩ | ⟨hne, -⟩
    · exact hnil
    · exact absurd hzero hne
  have hshard := c.setBuckets_shards i dp
  refine { h with list := ?_, chains := ?_, bucketArray_inj := ?_, nEntries_eq := ?_,
                  bytesUsed_eq := ?_ }
  · intro j
    rw [hshard]
    split_ifs with hj
    · rw [hj]
      exact h.list i
    · exact h.list j
  · intro j
    rw [hshard]
    split_ifs with hj
    · refine .inr ⟨hne, _, hblock, fun b _ => ?_⟩
      rw [hj, hnil]
      rfl
    · exact h.chains j
  · intro j k
    rw [hshard, hshard]
    split_ifs with hj hk hk
    · exact fun _ _ => hj.trans hk.symm
    · exact fun heq _ => absurd heq.symm (hunused k)
    · exact fun heq _ => absurd heq (hunused j)
    · exact h.bucketArray_inj j k
  · intro j
    rw [hshard]
    split_ifs with hj
    · rw [hj]
      exact h.nEntries_eq i
    · exact h.nEntries_eq j
  · intro j
    rw [hshard]
    split_ifs with hj
    · rw [hj]
      exact h.bytesUsed_eq i
    · exact h.bytesUsed_eq j

theorem Represents.bucketArray_ne (h : Represents cfg pins inserted c lru) {dp : ℕ} (hne : dp ≠ 0)
    (hnone : c.memory.block dp = none) (j : ℕ) : (c.shards j).bucketArray ≠ dp := by
  rintro rfl
  obtain ⟨heads, hblock, -⟩ := h.bucketArray_block hne
  rw [hnone] at hblock
  cases hblock

theorem ensureBuckets_spec (h : Represents cfg pins inserted c lru) (dsa : Dsa cfg.maxBytes)
    (i : ℕ) :
    match ensureBuckets dsa c i with
    | .error c' => Represents cfg pins inserted c' lru
    | .ok c' => Represents cfg pins inserted c' lru ∧ (c'.shards i).bucketArray ≠ 0 := by
  unfold ensureBuckets
  by_cases hne : (c.shards i).bucketArray ≠ 0
  · rw [if_pos hne]
    exact ⟨h, hne⟩
  rw [if_neg hne]
  cases halloc : dsa.allocate 0 c.memory (8 * bucketsPerShard) with
  | invalid => exact h.insertFailed
  | error => exact h
  | ok dp =>
      have hfresh := dsa.fresh _ _ _ _ halloc
      have hsize : 0 < 8 * bucketsPerShard := by decide
      have hnone := h.separate.block_eq_none hfresh hsize
      have hext := h.extends (extends_newBuckets hnone)
        (h.separate.alloc hfresh hsize (b := .buckets fun _ => 0) rfl rfl)
      refine ⟨hext.setBuckets (not_not.mp hne) hfresh.pos.ne' (Function.update_self _ _ _)
        (h.bucketArray_ne hfresh.pos.ne' hnone), ?_⟩
      show (Function.update c.shards i _ i).bucketArray ≠ 0
      rw [Function.update_self]
      exact hfresh.pos.ne'

/-! ## The allocations -/

/-- The memory for a new entry of shard `i` is there, and the key is not in the shard. -/
structure Ready (cfg : Config) (pins : List Pin) (inserted : List (BlobCacheKey × List UInt8))
    (c : Cache) (lru : ℕ → List ℕ) (i : ℕ) (key : BlobCacheKey) (bytes : List UInt8)
    (entryDp dataDp : ℕ) : Prop where
  represents : Represents cfg pins inserted c lru
  entry : c.memory.block entryDp = some .entry
  payload : c.memory.block dataDp = some (.payload bytes)
  entryUnused : ∀ j, entryDp ∉ lru j
  payloadUnused : ∀ j, ∀ dp ∈ lru j, c.memory.dataPtr dp ≠ dataDp
  absent : ∀ dp ∈ lru i, c.memory.key dp ≠ key
  pinCount : c.memory.pinCount entryDp = 0
  fits : c.totalBytes.toNat + bytes.length ≤ cfg.maxBytes
  nonempty : bytes ≠ []
  short : bytes.length ≤ maxAllocSize
  bucketArray : (c.shards i).bucketArray ≠ 0

theorem Represents.not_mem_of_none (h : Represents cfg pins inserted c lru) {dp : ℕ}
    (hnone : c.memory.block dp = none) (j : ℕ) : dp ∉ lru j := by
  intro hmem
  have hentry := h.entry j dp hmem
  rw [hnone] at hentry
  cases hentry

theorem Represents.dataPtr_ne_of_none (h : Represents cfg pins inserted c lru) {dp : ℕ}
    (hnone : c.memory.block dp = none) (j : ℕ) : ∀ p ∈ lru j, c.memory.dataPtr p ≠ dp := by
  rintro p hp rfl
  obtain ⟨bytes, hblock, -⟩ := h.payload j p hp
  rw [hnone] at hblock
  cases hblock

/-- Both allocations have succeeded. -/
theorem ready_of_fresh (h : Represents cfg pins inserted c lru) {i : ℕ} {key : BlobCacheKey}
    {bytes : List UInt8} {entryDp dataDp : ℕ} (hbytes : bytes ≠ [])
    (habsent : ∀ dp ∈ lru i, c.memory.key dp ≠ key) (hne : (c.shards i).bucketArray ≠ 0)
    (hfits : c.totalBytes.toNat + bytes.length ≤ cfg.maxBytes)
    (hentry : Fresh cfg.maxBytes c.memory entryDp 80)
    (hdata : Fresh cfg.maxBytes (c.memory.newEntry entryDp) dataDp bytes.length) :
    Ready cfg pins inserted
      { c with memory := (c.memory.newEntry entryDp).newPayload dataDp bytes } lru i key bytes
      entryDp dataDp := by
  have hlength : 0 < bytes.length := List.length_pos_of_ne_nil hbytes
  have hentryNone := h.separate.block_eq_none hentry (by decide)
  have hseparate : Separate cfg.maxBytes (c.memory.newEntry entryDp) :=
    h.separate.alloc hentry (by decide) (b := .entry) rfl rfl
  have hdataNone := hseparate.block_eq_none hdata hlength
  have hentryBlock : (c.memory.newEntry entryDp).block entryDp = some .entry :=
    Function.update_self _ _ _
  have hdiffer : entryDp ≠ dataDp := by
    rintro rfl
    rw [hdataNone] at hentryBlock
    cases hentryBlock
  have hdataNone' : c.memory.block dataDp = none := by
    rw [← hdataNone]
    exact (Function.update_of_ne hdiffer.symm _ _).symm
  have hseparate' : Separate cfg.maxBytes ((c.memory.newEntry entryDp).newPayload dataDp bytes) :=
    hseparate.alloc hdata hlength (b := .payload bytes) rfl rfl
  have hext := (extends_newEntry hentryNone).trans (extends_newPayload hdataNone bytes)
  refine {
    represents := h.extends hext hseparate'
    entry := (Function.update_of_ne hdiffer _ _).trans hentryBlock
    payload := Function.update_self _ _ _
    entryUnused := h.not_mem_of_none hentryNone
    payloadUnused := ?_
    absent := ?_
    pinCount := Function.update_self _ _ _
    fits := hfits
    nonempty := hbytes
    short := hdata.size_le
    bucketArray := hne }
  · intro j dp hdp
    have hlive : (c.memory.block dp).isSome := by
      rw [h.entry j dp hdp]
      rfl
    rw [hext.dataPtr dp hlive]
    exact h.dataPtr_ne_of_none hdataNone' j dp hdp
  · intro dp hdp
    have hlive : (c.memory.block dp).isSome := by
      rw [h.entry i dp hdp]
      rfl
    rw [hext.key dp hlive]
    exact habsent dp hdp

theorem free_newEntry (h : Represents cfg pins inserted c lru) {entryDp : ℕ}
    (hentry : Fresh cfg.maxBytes c.memory entryDp 80) :
    ∃ m, (c.memory.newEntry entryDp).dsaFree entryDp = some m ∧
      Represents cfg pins inserted { c with memory := m } lru ∧
      ∀ dp, (c.memory.block dp).isSome → m.key dp = c.memory.key dp := by
  have hnone := h.separate.block_eq_none hentry (by decide)
  have hseparate : Separate cfg.maxBytes (c.memory.newEntry entryDp) :=
    h.separate.alloc hentry (by decide) (b := .entry) rfl rfl
  have hblock : (c.memory.newEntry entryDp).block entryDp = some .entry :=
    Function.update_self _ _ _
  have hne : ∀ p, (c.memory.block p).isSome → p ≠ entryDp := by
    rintro p hp rfl
    rw [hnone] at hp
    cases hp
  have hkept : ∀ p, p ≠ entryDp →
      Function.update (c.memory.newEntry entryDp).block entryDp none p = c.memory.block p := by
    intro p hp
    rw [Function.update_of_ne hp]
    exact Function.update_of_ne hp _ _
  refine ⟨_, dsaFree_eq hblock, h.extends ?_ (hseparate.shrink ?_), ?_⟩
  · apply Memory.extends_of_none hnone hkept <;> intro p hp <;> exact Function.update_of_ne hp _ _
  · intro p b hp
    change Function.update (c.memory.newEntry entryDp).block entryDp none p = some b at hp
    rw [Function.update_apply] at hp
    split_ifs at hp
    exact ⟨b, hp, rfl⟩
  · intro dp hdp
    exact Function.update_of_ne (hne dp hdp) _ _

/-- What the loop of `insert` comes to: the memory for the entry, or the end of the insertion. -/
def Allocated (cfg : Config) (pins : List Pin) (inserted : List (BlobCacheKey × List UInt8))
    (lru : ℕ → List ℕ) (i : ℕ) (key : BlobCacheKey) (bytes : List UInt8) :
    Except Cache (Cache × ℕ × ℕ) → Prop
  | .error c' => ∃ zs, zs.Sublist (lru i) ∧
      Represents cfg pins inserted c' (Function.update lru i zs)
  | .ok (c', entryDp, dataDp) => ∃ zs, zs.Sublist (lru i) ∧
      Ready cfg pins inserted c' (Function.update lru i zs) i key bytes entryDp dataDp

theorem Allocated.of_sublist {i : ℕ} {key : BlobCacheKey} {bytes : List UInt8} {ys : List ℕ}
    {out : Except Cache (Cache × ℕ × ℕ)} (hys : ys.Sublist (lru i))
    (h : Allocated cfg pins inserted (Function.update lru i ys) i key bytes out) :
    Allocated cfg pins inserted lru i key bytes out := by
  cases out with
  | error c' =>
      obtain ⟨zs, hzs, hrep⟩ := h
      rw [Function.update_self] at hzs
      rw [Function.update_idem] at hrep
      exact ⟨zs, hzs.trans hys, hrep⟩
  | ok out =>
      obtain ⟨c', entryDp, dataDp⟩ := out
      obtain ⟨zs, hzs, hready⟩ := h
      rw [Function.update_self] at hzs
      rw [Function.update_idem] at hready
      exact ⟨zs, hzs.trans hys, hready⟩

theorem evictAndRetry_spec (bytesNeeded : ℕ) (h : Represents cfg pins inserted c lru) {i fuel : ℕ}
    {key : BlobCacheKey} {bytes : List UInt8}
    {retry : Cache → Option (Except Cache (Cache × ℕ × ℕ))} (hfuel : (lru i).length ≤ fuel)
    (habsent : ∀ dp ∈ lru i, c.memory.key dp ≠ key) (hne : (c.shards i).bucketArray ≠ 0)
    (hretry : ∀ (c' : Cache) (lru' : ℕ → List ℕ), Represents cfg pins inserted c' lru' →
      (∀ dp ∈ lru' i, c'.memory.key dp ≠ key) → (c'.shards i).bucketArray ≠ 0 →
      (lru' i).length < fuel →
      ∃ out, retry c' = some out ∧ Allocated cfg pins inserted lru' i key bytes out) :
    ∃ out, evictAndRetry i bytesNeeded c retry = some out ∧
      Allocated cfg pins inserted lru i key bytes out := by
  obtain ⟨c', zs, freed, hevict, hevicted, hfreed⟩ := evictInShard_spec h i bytesNeeded
  rw [evictAndRetry, hevict, Option.bind_eq_bind, Option.bind_some]
  by_cases hzero : freed = 0
  · rw [if_pos hzero]
    exact ⟨_, rfl, zs, hevicted.sublist, hevicted.represents.insertFailed⟩
  · rw [if_neg hzero]
    have hshorter : zs.length < (lru i).length := hfreed.resolve_left hzero
    have hself : Function.update lru i zs i = zs := Function.update_self _ _ _
    obtain ⟨out, hout, hallocated⟩ := hretry c' (Function.update lru i zs) hevicted.represents
      (by
        rw [hself, hevicted.key]
        exact fun dp hdp => habsent dp (hevicted.sublist.subset hdp))
      (hevicted.bucketArray ▸ hne) (by rw [hself]; omega)
    exact ⟨out, hout, hallocated.of_sublist hevicted.sublist⟩

theorem allocateEntry_spec (dsa : Dsa cfg.maxBytes) {i : ℕ} {key : BlobCacheKey}
    {bytes : List UInt8} (hbytes : bytes ≠ []) {fuel : ℕ} (call : ℕ)
    (h : Represents cfg pins inserted c lru) (habsent : ∀ dp ∈ lru i, c.memory.key dp ≠ key)
    (hne : (c.shards i).bucketArray ≠ 0) (hfuel : (lru i).length < fuel) :
    ∃ out, allocateEntry dsa i bytes fuel call c = some out ∧
      Allocated cfg pins inserted lru i key bytes out := by
  induction fuel generalizing call c lru with
  | zero => exact absurd hfuel (Nat.not_lt_zero _)
  | succ fuel ih =>
      have hretry : ∀ call (c' : Cache) (lru' : ℕ → List ℕ), Represents cfg pins inserted c' lru' →
          (∀ dp ∈ lru' i, c'.memory.key dp ≠ key) → (c'.shards i).bucketArray ≠ 0 →
          (lru' i).length < fuel → ∃ out, allocateEntry dsa i bytes fuel call c' = some out ∧
            Allocated cfg pins inserted lru' i key bytes out :=
        fun call c' lru' h habsent hne hfuel => ih call h habsent hne hfuel
      have hle : (lru i).length ≤ fuel := by omega
      have hsame : Function.update lru i (lru i) = lru := Function.update_eq_self _ _
      rw [allocateEntry]
      by_cases hfull : cfg.maxBytes < satAdd c.totalBytes.toNat bytes.length
      · rw [if_pos hfull]
        exact evictAndRetry_spec _ h hle habsent hne (hretry call)
      · rw [if_neg hfull]
        have hfits : c.totalBytes.toNat + bytes.length ≤ cfg.maxBytes := by
          have harea := cfg.maxBytes_le
          unfold satAdd at hfull
          omega
        cases hentry : dsa.allocate call c.memory 80 with
        | error => exact ⟨_, rfl, lru i, List.Sublist.refl _, by rwa [hsame]⟩
        | invalid => exact evictAndRetry_spec _ h hle habsent hne (hretry (call + 1))
        | ok entryDp =>
            have hfresh := dsa.fresh _ _ _ _ hentry
            dsimp only
            cases hdata : dsa.allocate (call + 1) (c.memory.newEntry entryDp) bytes.length with
            | error =>
                have hnone := h.separate.block_eq_none hfresh (by decide)
                have hext := h.extends (extends_newEntry hnone)
                  (h.separate.alloc hfresh (by decide) (b := .entry) rfl rfl)
                exact ⟨_, rfl, lru i, List.Sublist.refl _, by rwa [hsame]⟩
            | invalid =>
                obtain ⟨m, hfree, hrep, hkey⟩ := free_newEntry h hfresh
                have habsent' : ∀ dp ∈ lru i, m.key dp ≠ key := by
                  intro dp hdp
                  rw [hkey dp (by rw [h.entry i dp hdp]; rfl)]
                  exact habsent dp hdp
                obtain ⟨out, hout, hallocated⟩ := evictAndRetry_spec bytes.length
                  hrep hle habsent' hne (hretry (call + 2))
                refine ⟨out, ?_, hallocated⟩
                rw [hfree]
                exact hout
            | ok dataDp =>
                have hready := ready_of_fresh h hbytes habsent hne hfits hfresh
                  (dsa.fresh _ _ _ _ hdata)
                exact ⟨_, rfl, lru i, List.Sublist.refl _, by rwa [hsame]⟩

/-! ## The new entry -/

/-- `lru_prepend`. -/
theorem lruPrepend_spec {sh : Shard} {m : Memory} {x : ℕ} {xs : List ℕ}
    (h : DoublyLinked 0 m.lruNext m.lruPrev sh.lruHead sh.lruTail xs) (hnodup : xs.Nodup)
    (hentry : ∀ p ∈ xs, m.block p = some .entry) (hnull : x ≠ 0) (hx : x ∉ xs) :
    ∃ tail' next' prev',
      lruPrepend sh m x = some ({ sh with lruHead := x, lruTail := tail' },
        { m with lruNext := next', lruPrev := prev' }) ∧
      DoublyLinked 0 next' prev' x tail' (x :: xs) ∧
      ∀ p ∉ x :: xs, next' p = m.lruNext p ∧ prev' p = m.lruPrev p := by
  refine ⟨if sh.lruHead = 0 then x else sh.lruTail, Function.update m.lruNext x sh.lruHead,
    if sh.lruHead = 0 then Function.update m.lruPrev x 0
      else Function.update (Function.update m.lruPrev x 0) sh.lruHead x, ?_,
    h.prepend hnodup hnull hx, ?_⟩
  · by_cases hhead : sh.lruHead = 0
    · simp [lruPrepend, hhead]
    · have hmem : sh.lruHead ∈ xs := by
        cases xs with
        | nil => exact absurd h.forward hhead
        | cons y ys => exact h.forward.1 ▸ List.mem_cons_self
      have hold : m.entryPtr sh.lruHead = some sh.lruHead := entryPtr_eq (hentry _ hmem)
      have hframe : ∀ next prev, ({ m with lruNext := next, lruPrev := prev } : Memory).entryPtr
          sh.lruHead = m.entryPtr sh.lruHead := fun _ _ => rfl
      simp [lruPrepend, hhead, hframe, hold]
  · intro p hp
    rw [List.mem_cons, not_or] at hp
    refine ⟨Function.update_of_ne hp.1 _ _, ?_⟩
    split_ifs with hhead
    · exact Function.update_of_ne hp.1 _ _
    · have hmem : sh.lruHead ∈ xs := by
        cases xs with
        | nil => exact absurd h.forward hhead
        | cons y ys => exact h.forward.1 ▸ List.mem_cons_self
      rw [Function.update_of_ne (ne_of_mem_of_not_mem hmem hp.2).symm, Function.update_of_ne hp.1]

def Memory.withEntry (m : Memory) (x bucketsDp : ℕ) (heads : ℕ → ℕ) (key : BlobCacheKey)
    (dataDp len : ℕ) (tick : BitVec 64) (lruNext lruPrev : ℕ → ℕ) : Memory where
  block := Function.update m.block bucketsDp
    (some (.buckets (Function.update heads (bucketIdx key) x)))
  key := Function.update m.key x key
  dataPtr := Function.update m.dataPtr x dataDp
  dataLen := Function.update m.dataLen x (BitVec.ofNat 32 len)
  pinCount := m.pinCount
  lastUsed := Function.update m.lastUsed x tick
  bucketNext := Function.update m.bucketNext x (heads (bucketIdx key))
  lruPrev := lruPrev
  lruNext := lruNext

/-- The cache with a new entry in shard `i`. -/
def Cache.withEntry (c : Cache) (i x : ℕ) (key : BlobCacheKey) (len tail : ℕ) (m : Memory) :
    Cache :=
  { c with
    memory := m
    shards := Function.update c.shards i
      { c.shards i with
        lruHead := x
        lruTail := tail
        nEntries := (c.shards i).nEntries + 1
        bytesUsed := (c.shards i).bytesUsed + BitVec.ofNat 64 len }
    nEntries := c.nEntries + 1
    totalBytes := c.totalBytes + BitVec.ofNat 64 len
    lastUsedCounter := c.lastUsedCounter + 1
    counters.condInsertsTotal :=
      if key.kind = keyKindCondition then c.counters.condInsertsTotal + 1
      else c.counters.condInsertsTotal }

theorem toNat_add_eq {w : ℕ} {x y : BitVec w} {a b : ℕ} (hx : x.toNat = a) (hy : y.toNat = b)
    (hlt : a + b < 2 ^ w) : (x + y).toNat = a + b := by
  rw [BitVec.toNat_add_of_lt (by rw [hx, hy]; exact hlt), hx, hy]

theorem Represents.sum_length_lt (h : Represents cfg pins inserted c lru) :
    (∑ j ∈ Finset.range cfg.nShards, (lru j).length) + 1 < 2 ^ 64 := by
  have hle : ∑ j ∈ Finset.range cfg.nShards, (lru j).length ≤ cfg.nShards * cfg.maxBytes := by
    calc ∑ j ∈ Finset.range cfg.nShards, (lru j).length
        ≤ ∑ _j ∈ Finset.range cfg.nShards, cfg.maxBytes := by
          apply Finset.sum_le_sum
          intro j _
          have := h.length_le j
          omega
      _ = cfg.nShards * cfg.maxBytes := by simp
  have harea := Nat.mul_le_mul cfg.nShards_le cfg.maxBytes_le
  omega

theorem Represents.bytes_le_total (h : Represents cfg pins inserted c lru) {i : ℕ}
    (hi : i < cfg.nShards) : payloadBytes c.memory (lru i) ≤ c.totalBytes.toNat := by
  rw [h.total_bytes]
  exact Finset.single_le_sum (f := fun j => payloadBytes c.memory (lru j))
    (fun j _ => Nat.zero_le _) (Finset.mem_range.mpr hi)

theorem chainOf_cons {m m' : Memory} {x : ℕ} {xs : List ℕ} {key : BlobCacheKey}
    (hkey : m'.key = Function.update m.key x key) (hx : x ∉ xs) (b : ℕ) :
    chainOf m' b (x :: xs) =
      if bucketIdx key = b then x :: chainOf m b xs else chainOf m b xs := by
  have hold : chainOf m' b xs = chainOf m b xs := by
    apply chainOf_congr
    intro dp hdp
    rw [hkey, Function.update_of_ne (ne_of_mem_of_not_mem hdp hx)]
  have hnew : m'.key x = key := by rw [hkey, Function.update_self]
  have hcons : chainOf m' b (x :: xs) =
      if (bucketIdx (m'.key x) == b) = true then x :: chainOf m' b xs else chainOf m' b xs :=
    List.filter_cons
  rw [hcons, hold, hnew]
  simp only [beq_iff_eq]

section link

variable {i x dataDp tail : ℕ} {key : BlobCacheKey} {bytes : List UInt8} {heads : ℕ → ℕ}
  {lruNext' lruPrev' : ℕ → ℕ}

theorem mem_update_cons {j p : ℕ} (hp : p ∈ Function.update lru i (x :: lru i) j) :
    p ∈ lru j ∨ j = i ∧ p = x := by
  rw [Function.update_apply] at hp
  split_ifs at hp with hj
  · rcases List.mem_cons.mp hp with hp | hp
    · exact .inr ⟨hj, hp⟩
    · exact .inl (hj ▸ hp)
  · exact .inl hp

/-- The new entry `x` goes to the front of shard `i`: it is put before the chain of its bucket, and
before the list. -/
structure Linking (cfg : Config) (pins : List Pin) (inserted : List (BlobCacheKey × List UInt8))
    (c : Cache) (lru : ℕ → List ℕ) (i : ℕ) (key : BlobCacheKey) (bytes : List UInt8)
    (x dataDp : ℕ) (heads lruNext' lruPrev' : ℕ → ℕ) (tail : ℕ) (c' : Cache) : Prop extends
    Ready cfg pins inserted c lru i key bytes x dataDp where
  shard_eq : shardIdx cfg.nShards key = i
  mem_inserted : (key, bytes) ∈ inserted
  buckets : c.memory.block (c.shards i).bucketArray = some (.buckets heads)
  linked : ∀ b < bucketsPerShard,
    Linked 0 c.memory.bucketNext (heads b) (chainOf c.memory b (lru i))
  list : DoublyLinked 0 lruNext' lruPrev' x tail (x :: lru i)
  list_eq : ∀ p ∉ x :: lru i,
    lruNext' p = c.memory.lruNext p ∧ lruPrev' p = c.memory.lruPrev p
  cache_eq : c' = c.withEntry i x key bytes.length tail
    (c.memory.withEntry x (c.shards i).bucketArray heads key dataDp bytes.length
      c.lastUsedCounter lruNext' lruPrev')

namespace Linking

variable {c' : Cache} (h : Linking cfg pins inserted c lru i key bytes x dataDp heads lruNext'
  lruPrev' tail c')
include h

theorem lt_nShards : i < cfg.nShards := h.shard_eq ▸ shardIdx_lt cfg key

theorem ne_entry {j p : ℕ} (hp : p ∈ lru j) : p ≠ x := fun heq => h.entryUnused j (heq ▸ hp)

theorem block_kept {p : ℕ} {b : Block} (hb : c.memory.block p = some b)
    (hne : ∀ heads, b ≠ .buckets heads) : c'.memory.block p = some b := by
  have hp : p ≠ (c.shards i).bucketArray := by
    rintro rfl
    exact hne heads (Option.some.inj (hb.symm.trans h.buckets))
  rw [h.cache_eq]
  exact (Function.update_of_ne hp _ _).trans hb

theorem key_new : c'.memory.key x = key := by
  rw [h.cache_eq]
  exact Function.update_self _ _ _

theorem key_old {j p : ℕ} (hp : p ∈ lru j) : c'.memory.key p = c.memory.key p := by
  rw [h.cache_eq]
  exact Function.update_of_ne (h.ne_entry hp) _ _

theorem dataPtr_new : c'.memory.dataPtr x = dataDp := by
  rw [h.cache_eq]
  exact Function.update_self _ _ _

theorem dataPtr_old {j p : ℕ} (hp : p ∈ lru j) : c'.memory.dataPtr p = c.memory.dataPtr p := by
  rw [h.cache_eq]
  exact Function.update_of_ne (h.ne_entry hp) _ _

theorem dataLen_new : (c'.memory.dataLen x).toNat = bytes.length := by
  have hself : c'.memory.dataLen x = BitVec.ofNat 32 bytes.length := by
    rw [h.cache_eq]
    exact Function.update_self _ _ _
  have hle := h.short
  rw [hself, BitVec.toNat_ofNat, Nat.mod_eq_of_lt]
  unfold maxAllocSize at hle
  omega

theorem dataLen_old {j p : ℕ} (hp : p ∈ lru j) : c'.memory.dataLen p = c.memory.dataLen p := by
  rw [h.cache_eq]
  exact Function.update_of_ne (h.ne_entry hp) _ _

theorem shards_eq (j : ℕ) : c'.shards j =
    if j = i then { c.shards i with
      lruHead := x
      lruTail := tail
      nEntries := (c.shards i).nEntries + 1
      bytesUsed := (c.shards i).bytesUsed + BitVec.ofNat 64 bytes.length } else c.shards j := by
  rw [h.cache_eq]
  exact Function.update_apply _ _ _ _

theorem bucketArray_eq (j : ℕ) : (c'.shards j).bucketArray = (c.shards j).bucketArray := by
  rw [h.shards_eq]
  split_ifs with hj
  · rw [hj]
  · rfl

/-! ### The lists -/

theorem list_of (j : ℕ) : DoublyLinked 0 c'.memory.lruNext c'.memory.lruPrev (c'.shards j).lruHead
    (c'.shards j).lruTail (Function.update lru i (x :: lru i) j) := by
  have hnext : c'.memory.lruNext = lruNext' := by rw [h.cache_eq]; rfl
  have hprev : c'.memory.lruPrev = lruPrev' := by rw [h.cache_eq]; rfl
  rw [h.shards_eq, Function.update_apply, hnext, hprev]
  split_ifs with hj
  · exact h.list
  · have hout : ∀ p ∈ lru j, p ∉ x :: lru i := by
      intro p hp hin
      rcases List.mem_cons.mp hin with hin | hin
      · exact h.ne_entry hp hin
      · exact hj (h.represents.shard_unique hp hin)
    exact (h.represents.list j).congr (fun p hp => (h.list_eq p (hout p hp)).1)
      fun p hp => (h.list_eq p (hout p hp)).2

theorem nodup (j : ℕ) : (Function.update lru i (x :: lru i) j).Nodup := by
  rw [Function.update_apply]
  split_ifs with hj
  · exact List.nodup_cons.mpr ⟨h.entryUnused i, h.represents.nodup i⟩
  · exact h.represents.nodup j

theorem chains (j : ℕ) :
    Chains c'.memory (c'.shards j).bucketArray (Function.update lru i (x :: lru i) j) := by
  have hxne : x ≠ 0 := (h.represents.separate.bounds x _ h.entry).1.ne'
  have hunused : ∀ {b j : ℕ}, x ∉ chainOf c.memory b (lru j) :=
    fun hin => h.entryUnused _ (mem_chainOf.mp hin).1
  have hkey : c'.memory.key = Function.update c.memory.key x key := by rw [h.cache_eq]; rfl
  have hnext : c'.memory.bucketNext =
      Function.update c.memory.bucketNext x (heads (bucketIdx key)) := by rw [h.cache_eq]; rfl
  rw [h.bucketArray_eq, Function.update_apply, Chains, hnext]
  split_ifs with hj
  · rw [hj]
    have harray : c'.memory.block (c.shards i).bucketArray =
        some (.buckets (Function.update heads (bucketIdx key) x)) := by
      rw [h.cache_eq]
      exact Function.update_self _ _ _
    refine .inr ⟨h.bucketArray, _, harray, fun b hb => ?_⟩
    rw [chainOf_cons hkey (h.entryUnused i)]
    by_cases hbucket : bucketIdx key = b
    · subst hbucket
      rw [if_pos rfl, Function.update_self]
      exact (h.linked _ hb).cons hxne hunused
    · rw [if_neg hbucket, Function.update_of_ne (Ne.symm hbucket)]
      exact (h.linked b hb).update_of_notMem hunused _
  · rcases h.represents.chains j with hnone | ⟨hjne, heads', hjblock, hlinked⟩
    · exact .inl hnone
    · have hne : (c.shards j).bucketArray ≠ (c.shards i).bucketArray :=
        fun heq => hj (h.represents.bucketArray_inj j i heq hjne)
      have harray : c'.memory.block (c.shards j).bucketArray = some (.buckets heads') := by
        rw [h.cache_eq]
        exact (Function.update_of_ne hne _ _).trans hjblock
      refine .inr ⟨hjne, heads', harray, fun b hb => ?_⟩
      rw [chainOf_congr (m := c.memory) fun p hp => h.key_old hp]
      exact (hlinked b hb).update_of_notMem hunused _

/-! ### The entries -/

theorem entry_of {j p : ℕ} (hp : p ∈ Function.update lru i (x :: lru i) j) :
    c'.memory.block p = some .entry := by
  have hentry : c.memory.block p = some .entry := by
    rcases mem_update_cons hp with hp | ⟨-, rfl⟩
    · exact h.represents.entry j p hp
    · exact h.entry
  exact h.block_kept hentry (by simp)

theorem shard_of {j p : ℕ} (hp : p ∈ Function.update lru i (x :: lru i) j) :
    shardIdx cfg.nShards (c'.memory.key p) = j := by
  rcases mem_update_cons hp with hp | ⟨rfl, rfl⟩
  · rw [h.key_old hp]
    exact h.represents.shard j p hp
  · rw [h.key_new]
    exact h.shard_eq

theorem key_inj {j p q : ℕ} (hp : p ∈ Function.update lru i (x :: lru i) j)
    (hq : q ∈ Function.update lru i (x :: lru i) j) (heq : c'.memory.key p = c'.memory.key q) :
    p = q := by
  rcases mem_update_cons hp with hpold | ⟨hj, hpx⟩
  · rcases mem_update_cons hq with hqold | ⟨hj, hqx⟩
    · rw [h.key_old hpold, h.key_old hqold] at heq
      exact h.represents.key_inj j p hpold q hqold heq
    · rw [h.key_old hpold, hqx, h.key_new] at heq
      exact absurd heq (h.absent p (hj ▸ hpold))
  · rcases mem_update_cons hq with hqold | ⟨-, hqx⟩
    · rw [h.key_old hqold, hpx, h.key_new] at heq
      exact absurd heq.symm (h.absent q (hj ▸ hqold))
    · exact hpx.trans hqx.symm

theorem payload_of {j p : ℕ} (hp : p ∈ Function.update lru i (x :: lru i) j) :
    ∃ stored, c'.memory.block (c'.memory.dataPtr p) = some (.payload stored) ∧
      stored.length = (c'.memory.dataLen p).toNat ∧ stored ≠ [] ∧
        (c'.memory.key p, stored) ∈ inserted := by
  rcases mem_update_cons hp with hp | ⟨rfl, rfl⟩
  · obtain ⟨stored, hblock, hrest⟩ := h.represents.payload j p hp
    rw [h.dataPtr_old hp, h.dataLen_old hp, h.key_old hp]
    exact ⟨stored, h.block_kept hblock (by simp), hrest⟩
  · rw [h.dataPtr_new, h.key_new]
    exact ⟨bytes, h.block_kept h.payload (by simp), h.dataLen_new.symm, h.nonempty,
      h.mem_inserted⟩

theorem dataPtr_inj {j k p q : ℕ} (hp : p ∈ Function.update lru i (x :: lru i) j)
    (hq : q ∈ Function.update lru i (x :: lru i) k)
    (heq : c'.memory.dataPtr p = c'.memory.dataPtr q) : p = q := by
  rcases mem_update_cons hp with hpold | ⟨-, hpx⟩
  · rcases mem_update_cons hq with hqold | ⟨-, hqx⟩
    · rw [h.dataPtr_old hpold, h.dataPtr_old hqold] at heq
      exact h.represents.dataPtr_inj j k p hpold q hqold heq
    · rw [h.dataPtr_old hpold, hqx, h.dataPtr_new] at heq
      exact absurd heq (h.payloadUnused j p hpold)
  · rcases mem_update_cons hq with hqold | ⟨-, hqx⟩
    · rw [h.dataPtr_old hqold, hpx, h.dataPtr_new] at heq
      exact absurd heq.symm (h.payloadUnused k q hqold)
    · exact hpx.trans hqx.symm

theorem pinCount_eq {j p : ℕ} (hp : p ∈ Function.update lru i (x :: lru i) j) :
    (c'.memory.pinCount p).toNat = pinsOn pins p := by
  have hsame : c'.memory.pinCount = c.memory.pinCount := by rw [h.cache_eq]; rfl
  rw [hsame]
  rcases mem_update_cons hp with hp | ⟨-, rfl⟩
  · exact h.represents.pinCount_eq j p hp
  · rw [h.pinCount, pinsOn, List.countP_eq_zero.mpr]
    · rfl
    · intro pin hpin heq
      exact h.entryUnused _ (beq_iff_eq.mp heq ▸ (h.represents.pinned pin hpin).1)

theorem pinned {pin : Pin} (hpin : pin ∈ pins) :
    pin.entryDp ∈ Function.update lru i (x :: lru i) (shardIdx cfg.nShards pin.key) ∧
      c'.memory.key pin.entryDp = pin.key := by
  obtain ⟨hin, hkey⟩ := h.represents.pinned pin hpin
  refine ⟨?_, (h.key_old hin).trans hkey⟩
  rw [Function.update_apply]
  split_ifs with hj
  · exact List.mem_cons_of_mem x (hj ▸ hin)
  · exact hin

/-! ### The counters -/

theorem toNat_length : (BitVec.ofNat 64 bytes.length).toNat = bytes.length := by
  have hle := h.short
  rw [BitVec.toNat_ofNat, Nat.mod_eq_of_lt]
  unfold maxAllocSize at hle
  omega

theorem payloadBytes_old (j : ℕ) :
    payloadBytes c'.memory (lru j) = payloadBytes c.memory (lru j) :=
  payloadBytes_congr fun _ hp => h.dataLen_old hp

theorem payloadBytes_new :
    payloadBytes c'.memory (x :: lru i) = payloadBytes c.memory (lru i) + bytes.length := by
  have hcons : payloadBytes c'.memory (x :: lru i) =
      (c'.memory.dataLen x).toNat + payloadBytes c'.memory (lru i) := rfl
  rw [hcons, h.dataLen_new, h.payloadBytes_old, Nat.add_comm]

theorem nEntries_eq (j : ℕ) :
    (c'.shards j).nEntries.toNat = (Function.update lru i (x :: lru i) j).length := by
  rw [h.shards_eq, Function.update_apply]
  split_ifs with hj
  · have hlen := h.represents.length_le i
    have harea := cfg.maxBytes_le
    rw [List.length_cons]
    exact toNat_add_eq (h.represents.nEntries_eq i) rfl (by omega)
  · exact h.represents.nEntries_eq j

theorem bytesUsed_eq (j : ℕ) : (c'.shards j).bytesUsed.toNat =
    payloadBytes c'.memory (Function.update lru i (x :: lru i) j) := by
  rw [h.shards_eq, Function.update_apply]
  split_ifs with hj
  · have hused := h.represents.bytes_le_total h.lt_nShards
    have hfits := h.fits
    have harea := cfg.maxBytes_le
    rw [h.payloadBytes_new]
    exact toNat_add_eq (h.represents.bytesUsed_eq i) h.toNat_length (by omega)
  · rw [h.payloadBytes_old]
    exact h.represents.bytesUsed_eq j

theorem total_nEntries : c'.nEntries.toNat =
    ∑ j ∈ Finset.range cfg.nShards, (Function.update lru i (x :: lru i) j).length := by
  have hsum := sum_update h.lt_nShards (fun j => (lru j).length) (x :: lru i).length
  simp only [← lengths_update] at hsum
  rw [List.length_cons] at hsum
  have hcount := h.represents.sum_length_lt
  rw [← h.represents.total_nEntries] at hcount hsum
  have hsame : c'.nEntries = c.nEntries + 1 := by rw [h.cache_eq]; rfl
  rw [hsame, toNat_add_eq (a := c.nEntries.toNat) rfl (b := 1) rfl hcount]
  omega

theorem toNat_totalBytes : c'.totalBytes.toNat = c.totalBytes.toNat + bytes.length := by
  have hfits := h.fits
  have harea := cfg.maxBytes_le
  rw [h.cache_eq]
  exact toNat_add_eq rfl h.toNat_length (by omega)

theorem total_bytes : c'.totalBytes.toNat = ∑ j ∈ Finset.range cfg.nShards,
    payloadBytes c'.memory (Function.update lru i (x :: lru i) j) := by
  have hsum := sum_update h.lt_nShards (fun j => payloadBytes c'.memory (lru j))
    (payloadBytes c'.memory (x :: lru i))
  simp only [← payloadBytes_update] at hsum
  simp only [h.payloadBytes_old] at hsum
  rw [h.payloadBytes_new, ← h.represents.total_bytes] at hsum
  rw [h.toNat_totalBytes]
  omega

theorem separate : Separate cfg.maxBytes c'.memory := by
  apply h.represents.separate.shrink
  intro p b hp
  rw [h.cache_eq] at hp
  change Function.update c.memory.block _ _ p = some b at hp
  rw [Function.update_apply] at hp
  split_ifs at hp with hpb
  · rw [hpb]
    obtain rfl := Option.some.inj hp
    exact ⟨_, h.buckets, rfl⟩
  · exact ⟨b, hp, rfl⟩

/-- The cache represents the lists with the new entry. -/
theorem done : Represents cfg pins inserted c' (Function.update lru i (x :: lru i)) where
  list := h.list_of
  nodup := h.nodup
  chains := h.chains
  bucketArray_inj j k := by
    rw [h.bucketArray_eq, h.bucketArray_eq]
    exact h.represents.bucketArray_inj j k
  entry _ _ hp := h.entry_of hp
  shard _ _ hp := h.shard_of hp
  key_inj _ _ hp _ hq := h.key_inj hp hq
  payload _ _ hp := h.payload_of hp
  dataPtr_inj _ _ _ hp _ hq := h.dataPtr_inj hp hq
  nEntries_eq := h.nEntries_eq
  bytesUsed_eq := h.bytesUsed_eq
  total_nEntries := h.total_nEntries
  total_bytes := h.total_bytes
  total_le := h.toNat_totalBytes.trans_le h.fits
  separate := h.separate
  pinned _ hpin := h.pinned hpin
  pinCount_eq _ _ hp := h.pinCount_eq hp

end Linking

theorem linkEntry_spec {i x dataDp : ℕ} {key : BlobCacheKey} {bytes : List UInt8}
    (h : Ready cfg pins inserted c lru i key bytes x dataDp)
    (hi : shardIdx cfg.nShards key = i) (hinserted : (key, bytes) ∈ inserted) :
    ∃ c', linkEntry cfg c key bytes.length x dataDp = some c' ∧
      Represents cfg pins inserted c' (Function.update lru i (x :: lru i)) := by
  have hrep := h.represents
  have hx : x ∉ lru i := h.entryUnused i
  have hxne : x ≠ 0 := (hrep.separate.bounds x _ h.entry).1.ne'
  obtain ⟨heads, hblock, hchains⟩ := hrep.bucketArray_block h.bucketArray
  have hkept : ∀ p ∈ lru i, Function.update c.memory.block (c.shards i).bucketArray
      (some (.buckets (Function.update heads (bucketIdx key) x))) p = some .entry := by
    intro p hp
    have hentry := hrep.entry i p hp
    rw [Function.update_of_ne, hentry]
    rintro rfl
    rw [hblock] at hentry
    cases hentry
  obtain ⟨tail, lruNext', lruPrev', hprepend, hlist, hframe⟩ := @lruPrepend_spec (c.shards i)
    { c.memory.initEntry x key dataDp bytes.length c.lastUsedCounter with
      bucketNext := Function.update c.memory.bucketNext x (heads (bucketIdx key))
      block := Function.update c.memory.block (c.shards i).bucketArray
        (some (.buckets (Function.update heads (bucketIdx key) x))) }
    x (lru i) (hrep.list i) (hrep.nodup i) hkept hxne hx
  have hlinking : Linking cfg pins inserted c lru i key bytes x dataDp heads lruNext' lruPrev' tail
      (c.withEntry i x key bytes.length tail
        (c.memory.withEntry x (c.shards i).bucketArray heads key dataDp bytes.length
          c.lastUsedCounter lruNext' lruPrev')) :=
    ⟨h, hi, hinserted, hblock, hchains, hlist, hframe, rfl⟩
  refine ⟨_, ?_, hlinking.done⟩
  have hhead : (c.memory.initEntry x key dataDp bytes.length c.lastUsedCounter).bucketHead
      (c.shards i).bucketArray (bucketIdx key) = some (heads (bucketIdx key)) :=
    bucketHead_eq hblock
  have hstore := @bucketHeadStore_eq
    { c.memory.initEntry x key dataDp bytes.length c.lastUsedCounter with
      bucketNext := Function.update c.memory.bucketNext x (heads (bucketIdx key)) }
    (c.shards i).bucketArray (bucketIdx key) x heads hblock
  rw [linkEntry]
  dsimp only
  rw [hi, hhead, Option.bind_eq_bind, Option.bind_some]
  erw [hstore]
  rw [Option.bind_eq_bind, Option.bind_some]
  erw [hprepend]
  rfl

/-- An insertion keeps the invariant, whatever its allocations come to. -/
theorem insert_spec (h : Represents cfg pins inserted c lru) (dsa : Dsa cfg.maxBytes)
    (key : BlobCacheKey) (bytes : List UInt8) :
    ∃ c' lru', insert dsa c key bytes = some c' ∧
      Represents cfg pins ((key, bytes) :: inserted) c' lru' := by
  have hmore := h.inserted_cons (key, bytes)
  rw [insert]
  cases bytes with
  | nil => exact ⟨c, lru, rfl, hmore⟩
  | cons b bytes =>
      have hbuckets := ensureBuckets_spec hmore dsa (shardIdx cfg.nShards key)
      rw [if_neg (by simp)]
      cases hensure : ensureBuckets dsa c (shardIdx cfg.nShards key) with
      | error c' =>
          rw [hensure] at hbuckets
          exact ⟨c', lru, rfl, hbuckets⟩
      | ok c' =>
          rw [hensure] at hbuckets
          obtain ⟨hrep, hne⟩ := hbuckets
          obtain ⟨head, hhead, hfind⟩ := find_spec hrep key hne
          dsimp only
          rw [hhead, Option.bind_eq_bind, Option.bind_some, hfind, Option.bind_eq_bind,
            Option.bind_some]
          cases hfound : entryOf c'.memory (lru (shardIdx cfg.nShards key)) key with
          | some dp => exact ⟨c', lru, rfl, hrep⟩
          | none =>
              obtain ⟨out, hout, hallocated⟩ := allocateEntry_spec dsa (List.cons_ne_nil b bytes)
                1 hrep (entryOf_eq_none hfound) hne
                (Nat.lt_of_succ_lt (hrep.length_lt_loopFuel (shardIdx cfg.nShards key)))
              dsimp only
              rw [hout, Option.bind_eq_bind, Option.bind_some]
              cases out with
              | error c'' =>
                  obtain ⟨zs, -, hrep'⟩ := hallocated
                  exact ⟨c'', _, rfl, hrep'⟩
              | ok out =>
                  obtain ⟨zs, -, hready⟩ := hallocated
                  obtain ⟨c₃, hlink, hrep'⟩ := linkEntry_spec hready rfl List.mem_cons_self
                  exact ⟨c₃, _, hlink, hrep'⟩

/-- An insertion of a new key that needs no eviction and gets its memory. -/
theorem insert_links (h : Represents cfg pins inserted c lru) (dsa : Dsa cfg.maxBytes)
    {c₁ : Cache} {key : BlobCacheKey} {bytes : List UInt8} {x dataDp : ℕ} (hbytes : bytes ≠ [])
    (hensure : ensureBuckets dsa c (shardIdx cfg.nShards key) = .ok c₁)
    (habsent : entryOf c₁.memory (lru (shardIdx cfg.nShards key)) key = none)
    (hroom : c₁.totalBytes.toNat + bytes.length ≤ cfg.maxBytes)
    (hentry : dsa.allocate 1 c₁.memory 80 = .ok x)
    (hdata : dsa.allocate 2 (c₁.memory.newEntry x) bytes.length = .ok dataDp) :
    ∃ c', insert dsa c key bytes = some c' ∧
      Represents cfg pins ((key, bytes) :: inserted) c'
        (Function.update lru (shardIdx cfg.nShards key)
          (x :: lru (shardIdx cfg.nShards key))) := by
  have hbuckets := ensureBuckets_spec (h.inserted_cons (key, bytes)) dsa
    (shardIdx cfg.nShards key)
  rw [hensure] at hbuckets
  obtain ⟨hrep, hne⟩ := hbuckets
  obtain ⟨head, hhead, hfind⟩ := find_spec hrep key hne
  have hready := ready_of_fresh hrep hbytes (entryOf_eq_none habsent) hne hroom
    (dsa.fresh _ _ _ _ hentry) (dsa.fresh _ _ _ _ hdata)
  obtain ⟨c', hlink, hrep'⟩ := linkEntry_spec hready rfl List.mem_cons_self
  have halloc : ∀ fuel, allocateEntry dsa (shardIdx cfg.nShards key) bytes (fuel + 1) 1 c₁ =
      some (.ok ({ c₁ with memory := (c₁.memory.newEntry x).newPayload dataDp bytes },
        x, dataDp)) := by
    intro fuel
    have hfits : ¬ cfg.maxBytes < satAdd c₁.totalBytes.toNat bytes.length := by
      unfold satAdd
      omega
    rw [allocateEntry, if_neg hfits, hentry]
    dsimp only
    rw [hdata]
  refine ⟨c', ?_, hrep'⟩
  have hisEmpty : bytes.isEmpty = false := by simpa using hbytes
  rw [insert, hisEmpty, hensure]
  dsimp only
  rw [if_neg Bool.false_ne_true, hhead, Option.bind_eq_bind, Option.bind_some, hfind, habsent,
    Option.bind_eq_bind, Option.bind_some]
  dsimp only
  have hfuel : loopFuel = (2 ^ 35 - 1) + 1 := rfl
  rw [hfuel, halloc]
  exact hlink

end link

end DeltaX.BlobCache
