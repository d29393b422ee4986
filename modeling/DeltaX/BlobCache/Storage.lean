import DeltaX.Support.Machine
import Mathlib.Algebra.Order.Ring.Nat
import Mathlib.Logic.Function.Basic
/-!
# The shared blob cache

A control block with shards, and entries in dynamic shared memory.  Each shard has an
array of buckets, whose chains go through its entries, and a list of its entries from
the most recently inserted one to the oldest.  A lookup, an insertion and the release
of a pin are one step each: the first two hold the lock of the shard.

An access to memory that does not hold what is expected there is a fault, and a loop
that makes no end of its chain in `loopFuel` turns is one too: the functions return
`none`.
-/

namespace DeltaX.BlobCache

/-! ## Keys -/

structure BlobCacheKey where
  companionOid : BitVec 32
  segmentId : BitVec 32
  colIdx : BitVec 16
  kind : BitVec 16
  qualFp : BitVec 64
deriving DecidableEq, Repr

def keyKindCondition : BitVec 16 := 1

def bucketsPerShard : ℕ := 256

def hashKey (k : BlobCacheKey) : BitVec 64 :=
  let h := k.companionOid.setWidth 64 * 0x9E3779B97F4A7C15#64
  let h := h ^^^ (k.segmentId.setWidth 64 * 0xBF58476D1CE4E5B9#64)
  let h := h ^^^ (k.colIdx.setWidth 64 * 0x94D049BB133111EB#64)
  let h := h ^^^ (k.kind.setWidth 64 * 0xD6E8FEB86659FD93#64)
  let h := h ^^^ (k.qualFp * 0xA24BAED4963EE407#64)
  h ^^^ (h >>> 32)

/-- The bucket part of `hash_to_shard_bucket`; eviction computes it again from the key of
the entry. -/
def bucketIdx (k : BlobCacheKey) : ℕ := ((hashKey k).setWidth 32).toNat &&& (bucketsPerShard - 1)

/-- The shard part of `hash_to_shard_bucket`. -/
def shardIdx (nShards : ℕ) (k : BlobCacheKey) : ℕ := (hashKey k >>> 8).toNat &&& (nShards - 1)

/-! ## Memory -/

/-- What is allocated at an address; the fields of an entry are kept apart. -/
inductive Block
  | entry
  | payload (bytes : List UInt8)
  | buckets (heads : ℕ → ℕ)

def Block.size : Block → ℕ
  | entry => 80
  | payload bytes => bytes.length
  | buckets _ => 8 * bucketsPerShard

/-- The dynamic shared memory: the allocations, and each field of the entries. -/
structure Memory where
  block : ℕ → Option Block
  key : ℕ → BlobCacheKey
  dataPtr : ℕ → ℕ
  dataLen : ℕ → BitVec 32
  pinCount : ℕ → BitVec 32
  lastUsed : ℕ → BitVec 64
  bucketNext : ℕ → ℕ
  lruPrev : ℕ → ℕ
  lruNext : ℕ → ℕ

namespace Memory

def entryPtr (m : Memory) (dp : ℕ) : Option ℕ :=
  match m.block dp with
  | some .entry => some dp
  | _ => none

def bucketHead (m : Memory) (bucketsDp idx : ℕ) : Option ℕ :=
  match m.block bucketsDp with
  | some (.buckets heads) => some (heads idx)
  | _ => none

def bucketHeadStore (m : Memory) (bucketsDp idx value : ℕ) : Option Memory :=
  match m.block bucketsDp with
  | some (.buckets heads) =>
      some { m with
        block := Function.update m.block bucketsDp
          (some (.buckets (Function.update heads idx value))) }
  | _ => none

def dsaFree (m : Memory) (dp : ℕ) : Option Memory :=
  if (m.block dp).isSome then some { m with block := Function.update m.block dp none } else none

/-- A zeroed bucket array at `dp`. -/
def newBuckets (m : Memory) (dp : ℕ) : Memory :=
  { m with block := Function.update m.block dp (some (.buckets fun _ => 0)) }

/-- A zeroed entry at `dp`. -/
def newEntry (m : Memory) (dp : ℕ) : Memory where
  block := Function.update m.block dp (some .entry)
  key := Function.update m.key dp ⟨0, 0, 0, 0, 0⟩
  dataPtr := Function.update m.dataPtr dp 0
  dataLen := Function.update m.dataLen dp 0
  pinCount := Function.update m.pinCount dp 0
  lastUsed := Function.update m.lastUsed dp 0
  bucketNext := Function.update m.bucketNext dp 0
  lruPrev := Function.update m.lruPrev dp 0
  lruNext := Function.update m.lruNext dp 0

/-- A payload at `dp`, with the bytes that are copied there. -/
def newPayload (m : Memory) (dp : ℕ) (bytes : List UInt8) : Memory :=
  { m with block := Function.update m.block dp (some (.payload bytes)) }

end Memory

/-! ## The allocator -/

/-- What `dsa_allocate_extended` comes to: an address, the invalid address, or an error
that ends the transaction. -/
inductive AllocOutcome
  | ok (dp : ℕ)
  | invalid
  | error
deriving DecidableEq, Repr

/-- `MaxAllocSize`, above which an allocation is an error. -/
def maxAllocSize : ℕ := 2 ^ 30 - 1

/-- `size` bytes at `dp` are free memory of the area. -/
structure Fresh (area : ℕ) (m : Memory) (dp size : ℕ) : Prop where
  pos : 0 < dp
  le_area : dp + size ≤ area
  size_le : size ≤ maxAllocSize
  disjoint : ∀ q b, m.block q = some b → dp + size ≤ q ∨ q + b.size ≤ dp

/-- The outcomes of the allocations of one step, call by call: whatever they are, memory
that is handed out is free. -/
structure Dsa (area : ℕ) where
  allocate : ℕ → Memory → ℕ → AllocOutcome
  fresh : ∀ call m size dp, allocate call m size = .ok dp → Fresh area m dp size

/-! ## The control block -/

/-- The settings: the area in shared memory has `max_bytes` bytes. -/
structure Config where
  nShards : ℕ
  maxBytes : ℕ
  nShards_pos : 0 < nShards
  nShards_le : nShards ≤ 1024
  maxBytes_le : maxBytes ≤ 32768 * 1024 * 1024

structure Shard where
  bucketArray : ℕ
  nEntries : BitVec 32
  bytesUsed : BitVec 64
  lruHead : ℕ
  lruTail : ℕ
deriving DecidableEq, Repr

structure Counters where
  hitsTotal : BitVec 64
  missesTotal : BitVec 64
  evictionsTotal : BitVec 64
  insertFailuresTotal : BitVec 64
  condHitsTotal : BitVec 64
  condMissesTotal : BitVec 64
  condInsertsTotal : BitVec 64
deriving DecidableEq, Repr

structure Cache where
  shards : ℕ → Shard
  memory : Memory
  totalBytes : BitVec 64
  nEntries : BitVec 64
  lastUsedCounter : BitVec 64
  counters : Counters

/-- More turns than a chain has entries. -/
def loopFuel : ℕ := 2 ^ 35

/-- `saturating_add` on `u64`. -/
def satAdd (a b : ℕ) : ℕ := min (a + b) (2 ^ 64 - 1)

namespace Cache

/-- `hit_counter(ctl, is_cond).fetch_add(1)`. -/
def hit (c : Cache) (key : BlobCacheKey) : Cache :=
  if key.kind = keyKindCondition then
    { c with counters.condHitsTotal := c.counters.condHitsTotal + 1 }
  else { c with counters.hitsTotal := c.counters.hitsTotal + 1 }

/-- `miss_counter(ctl, is_cond).fetch_add(1)`. -/
def miss (c : Cache) (key : BlobCacheKey) : Cache :=
  if key.kind = keyKindCondition then
    { c with counters.condMissesTotal := c.counters.condMissesTotal + 1 }
  else { c with counters.missesTotal := c.counters.missesTotal + 1 }

def insertFailed (c : Cache) : Cache :=
  { c with counters.insertFailuresTotal := c.counters.insertFailuresTotal + 1 }

end Cache

/-! ## Lookup -/

/-- The walk along a bucket chain from `entryDp`. -/
def findInBucket (m : Memory) (key : BlobCacheKey) : ℕ → ℕ → Option (Option ℕ)
  | 0, _ => none
  | fuel + 1, entryDp =>
      if entryDp = 0 then some none
      else do
        let entry ← m.entryPtr entryDp
        if m.key entry = key then some (some entry)
        else findInBucket m key fuel (m.bucketNext entry)

/-- The pin that a hit takes, and the tick of the entry. -/
def Cache.pin (c : Cache) (entry : ℕ) : Cache :=
  { c with
    memory.pinCount :=
      Function.update c.memory.pinCount entry (c.memory.pinCount entry + 1)
    memory.lastUsed := Function.update c.memory.lastUsed entry c.lastUsedCounter
    lastUsedCounter := c.lastUsedCounter + 1 }

def getPinned (cfg : Config) (c : Cache) (key : BlobCacheKey) : Option (Cache × Option ℕ) :=
  let bucketsDp := (c.shards (shardIdx cfg.nShards key)).bucketArray
  if bucketsDp = 0 then some (c.miss key, none)
  else do
    let head ← c.memory.bucketHead bucketsDp (bucketIdx key)
    let found ← findInBucket c.memory key loopFuel head
    match found with
    | some entry => some ((c.pin entry).hit key, some entry)
    | none => some (c.miss key, none)

/-- `PinInner::as_slice`. -/
def asSlice (m : Memory) (entryDp : ℕ) : Option (List UInt8) :=
  if entryDp = 0 then some []
  else do
    let entry ← m.entryPtr entryDp
    if m.dataPtr entry = 0 ∨ m.dataLen entry = 0 then some []
    else
      match m.block (m.dataPtr entry) with
      | some (.payload bytes) =>
          if (m.dataLen entry).toNat ≤ bytes.length then some (bytes.take (m.dataLen entry).toNat)
          else none
      | _ => none

/-- `PinInner::release`. -/
def releasePin (m : Memory) (entryDp : ℕ) : Option Memory :=
  if entryDp = 0 then some m
  else do
    let entry ← m.entryPtr entryDp
    some { m with pinCount := Function.update m.pinCount entry (m.pinCount entry - 1) }

/-! ## Unlinking and eviction -/

/-- The walk of `unlink_from_bucket` behind the head.  A target that is not in the chain
is left alone. -/
def unlinkWalk (m : Memory) (target : ℕ) : ℕ → ℕ → Option Memory
  | 0, _ => none
  | fuel + 1, cursorDp =>
      if cursorDp = 0 then some m
      else do
        let cursor ← m.entryPtr cursorDp
        if m.bucketNext cursor = target then do
          let entry ← m.entryPtr target
          some { m with bucketNext := Function.update m.bucketNext cursor (m.bucketNext entry) }
        else unlinkWalk m target fuel (m.bucketNext cursor)

def unlinkFromBucket (m : Memory) (bucketsDp idx target : ℕ) : Option Memory := do
  let head ← m.bucketHead bucketsDp idx
  if head = target then do
    let entry ← m.entryPtr target
    m.bucketHeadStore bucketsDp idx (m.bucketNext entry)
  else unlinkWalk m target loopFuel head

/-- `unlink_from_lru`, the link of the newer neighbour. -/
def unlinkNewer (sh : Shard) (m : Memory) (prevDp nextDp : ℕ) : Option (Shard × Memory) :=
  if prevDp ≠ 0 then do
    let prev ← m.entryPtr prevDp
    some (sh, { m with lruNext := Function.update m.lruNext prev nextDp })
  else some ({ sh with lruHead := nextDp }, m)

/-- `unlink_from_lru`, the link of the older neighbour. -/
def unlinkOlder (sh : Shard) (m : Memory) (prevDp nextDp : ℕ) : Option (Shard × Memory) :=
  if nextDp ≠ 0 then do
    let next ← m.entryPtr nextDp
    some (sh, { m with lruPrev := Function.update m.lruPrev next prevDp })
  else some ({ sh with lruTail := prevDp }, m)

def unlinkFromLru (sh : Shard) (m : Memory) (target : ℕ) : Option (Shard × Memory) := do
  let prevDp := m.lruPrev target
  let nextDp := m.lruNext target
  let (sh, m) ← unlinkNewer sh m prevDp nextDp
  let (sh, m) ← unlinkOlder sh m prevDp nextDp
  some (sh, { m with
    lruPrev := Function.update m.lruPrev target 0
    lruNext := Function.update m.lruNext target 0 })

def freeEntry (m : Memory) (entry : ℕ) : Option Memory := do
  let m ← if m.dataPtr entry ≠ 0 then m.dsaFree (m.dataPtr entry) else some m
  m.dsaFree entry

def evictEntry (c : Cache) (i entry : ℕ) : Option Cache := do
  let m ← unlinkFromBucket c.memory (c.shards i).bucketArray (bucketIdx (c.memory.key entry)) entry
  let (sh, m) ← unlinkFromLru (c.shards i) m entry
  let dlen := (m.dataLen entry).setWidth 64
  let m ← freeEntry m entry
  some { c with
    memory := m
    shards := Function.update c.shards i
      { sh with bytesUsed := sh.bytesUsed - dlen, nEntries := sh.nEntries - 1 }
    totalBytes := c.totalBytes - dlen
    nEntries := c.nEntries - 1
    counters.evictionsTotal := c.counters.evictionsTotal + 1 }

/-- The loop of `evict_in_shard` from `cur` towards newer entries; `freed` bytes are free
already.  Pinned entries are skipped. -/
def evictFrom (i bytesNeeded : ℕ) : ℕ → Cache → ℕ → ℕ → Option (Cache × ℕ)
  | 0, _, _, _ => none
  | fuel + 1, c, cur, freed =>
      if freed < bytesNeeded ∧ cur ≠ 0 then do
        let entry ← c.memory.entryPtr cur
        let prev := c.memory.lruPrev entry
        if c.memory.pinCount entry = 0 then do
          let c' ← evictEntry c i entry
          evictFrom i bytesNeeded fuel c' prev (satAdd freed (c.memory.dataLen entry).toNat)
        else evictFrom i bytesNeeded fuel c prev freed
      else some (c, freed)

/-- `evict_in_shard`: the cache and the freed bytes. -/
def evictInShard (c : Cache) (i bytesNeeded : ℕ) : Option (Cache × ℕ) :=
  evictFrom i bytesNeeded loopFuel c (c.shards i).lruTail 0

/-! ## Insertion

A part of `insert` that ends it gives the cache it leaves as an error. -/

variable {cfg : Config}

/-- The bucket array of the shard is allocated when there is none. -/
def ensureBuckets (dsa : Dsa cfg.maxBytes) (c : Cache) (i : ℕ) : Except Cache Cache :=
  if (c.shards i).bucketArray ≠ 0 then .ok c
  else
    match dsa.allocate 0 c.memory (8 * bucketsPerShard) with
    | .ok dp =>
        .ok { c with
          memory := c.memory.newBuckets dp
          shards := Function.update c.shards i { c.shards i with bucketArray := dp } }
    | .invalid => .error c.insertFailed
    | .error => .error c

/-- After an eviction the allocations are tried again, unless nothing was evicted. -/
def evictAndRetry {α : Type} (i bytesNeeded : ℕ) (c : Cache)
    (retry : Cache → Option (Except Cache α)) : Option (Except Cache α) := do
  let out ← evictInShard c i bytesNeeded
  if out.2 = 0 then some (.error out.1.insertFailed) else retry out.1

/-- The capacity and allocation loop: the cache with an entry and a payload for the bytes,
and their addresses. -/
def allocateEntry (dsa : Dsa cfg.maxBytes) (i : ℕ) (bytes : List UInt8) :
    ℕ → ℕ → Cache → Option (Except Cache (Cache × ℕ × ℕ))
  | 0, _, _ => none
  | fuel + 1, call, c =>
      let wanted := satAdd c.totalBytes.toNat bytes.length
      if cfg.maxBytes < wanted then
        evictAndRetry i (wanted - cfg.maxBytes) c (allocateEntry dsa i bytes fuel call)
      else
        match dsa.allocate call c.memory 80 with
        | .error => some (.error c)
        | .invalid =>
            evictAndRetry i (max 80 4096) c (allocateEntry dsa i bytes fuel (call + 1))
        | .ok entryDp =>
            match dsa.allocate (call + 1) (c.memory.newEntry entryDp) bytes.length with
            -- the error leaves the entry allocated
            | .error => some (.error { c with memory := c.memory.newEntry entryDp })
            | .invalid => do
                let m ← (c.memory.newEntry entryDp).dsaFree entryDp
                evictAndRetry i bytes.length { c with memory := m }
                  (allocateEntry dsa i bytes fuel (call + 2))
            | .ok dataDp =>
                some (.ok ({ c with
                  memory := (c.memory.newEntry entryDp).newPayload dataDp bytes },
                  entryDp, dataDp))

def lruPrepend (sh : Shard) (m : Memory) (newEntry : ℕ) : Option (Shard × Memory) :=
  let oldHead := sh.lruHead
  let m := { m with
    lruPrev := Function.update m.lruPrev newEntry 0
    lruNext := Function.update m.lruNext newEntry oldHead }
  if oldHead ≠ 0 then do
    let old ← m.entryPtr oldHead
    some ({ sh with lruHead := newEntry },
      { m with lruPrev := Function.update m.lruPrev old newEntry })
  else some ({ sh with lruTail := newEntry, lruHead := newEntry }, m)

def Memory.initEntry (m : Memory) (entry : ℕ) (key : BlobCacheKey) (dataDp len : ℕ)
    (tick : BitVec 64) : Memory :=
  { m with
    key := Function.update m.key entry key
    dataPtr := Function.update m.dataPtr entry dataDp
    dataLen := Function.update m.dataLen entry (BitVec.ofNat 32 len)
    lastUsed := Function.update m.lastUsed entry tick }

/-- The new entry joins its bucket chain, the list of the shard and the counters. -/
def linkEntry (cfg : Config) (c : Cache) (key : BlobCacheKey) (len entryDp dataDp : ℕ) :
    Option Cache := do
  let i := shardIdx cfg.nShards key
  let bucketsDp := (c.shards i).bucketArray
  let m := c.memory.initEntry entryDp key dataDp len c.lastUsedCounter
  let prevHead ← m.bucketHead bucketsDp (bucketIdx key)
  let m := { m with bucketNext := Function.update m.bucketNext entryDp prevHead }
  let m ← m.bucketHeadStore bucketsDp (bucketIdx key) entryDp
  let (sh, m) ← lruPrepend (c.shards i) m entryDp
  some { c with
    memory := m
    shards := Function.update c.shards i
      { sh with nEntries := sh.nEntries + 1, bytesUsed := sh.bytesUsed + BitVec.ofNat 64 len }
    nEntries := c.nEntries + 1
    totalBytes := c.totalBytes + BitVec.ofNat 64 len
    lastUsedCounter := c.lastUsedCounter + 1
    counters.condInsertsTotal :=
      if key.kind = keyKindCondition then c.counters.condInsertsTotal + 1
      else c.counters.condInsertsTotal }

def insert (dsa : Dsa cfg.maxBytes) (c : Cache) (key : BlobCacheKey) (bytes : List UInt8) :
    Option Cache :=
  if bytes.isEmpty then some c
  else
    match ensureBuckets dsa c (shardIdx cfg.nShards key) with
    | .error c => some c
    | .ok c => do
        let head ← c.memory.bucketHead (c.shards (shardIdx cfg.nShards key)).bucketArray
          (bucketIdx key)
        let found ← findInBucket c.memory key loopFuel head
        match found with
        | some _ => some c
        | none => do
            let out ← allocateEntry dsa (shardIdx cfg.nShards key) bytes loopFuel 1 c
            match out with
            | .error c => some c
            | .ok (c, entryDp, dataDp) => linkEntry cfg c key bytes.length entryDp dataDp

/-! ## Backends -/

/-- A pin that a backend holds, with the key it was asked for. -/
structure Pin where
  backend : ℕ
  entryDp : ℕ
  key : BlobCacheKey
deriving DecidableEq, Repr

/-- The cache, the pins of the backends, and what has been handed to `insert` so far. -/
structure Sys where
  cache : Cache
  pins : List Pin
  inserted : List (BlobCacheKey × List UInt8)

inductive Op (cfg : Config)
  | getPinned (backend : ℕ) (key : BlobCacheKey)
  | insert (key : BlobCacheKey) (bytes : List UInt8) (dsa : Dsa cfg.maxBytes)
  | release (pin : Pin)

inductive StepError
  /-- The backend holds no such pin. -/
  | notHeld
  /-- An access to memory that is not what it should be, or a loop without end. -/
  | fault
deriving DecidableEq, Repr

def takePin (pins : List Pin) (backend : ℕ) (key : BlobCacheKey) : Option ℕ → List Pin
  | some entryDp => ⟨backend, entryDp, key⟩ :: pins
  | none => pins

def step (s : Sys) : Op cfg → Except StepError Sys
  | .getPinned backend key =>
      match getPinned cfg s.cache key with
      | some (c, found) =>
          .ok { s with cache := c, pins := takePin s.pins backend key found }
      | none => .error .fault
  | .insert key bytes dsa =>
      match insert dsa s.cache key bytes with
      | some c => .ok { s with cache := c, inserted := (key, bytes) :: s.inserted }
      | none => .error .fault
  | .release pin =>
      if pin ∈ s.pins then
        match releasePin s.cache.memory pin.entryDp with
        | some m => .ok { s with cache.memory := m, pins := s.pins.erase pin }
        | none => .error .fault
      else .error .notHeld

/-- The zeroed control block, and memory in which nothing is allocated. -/
def Cache.init : Cache where
  shards := fun _ => ⟨0, 0, 0, 0, 0⟩
  memory := ⟨fun _ => none, fun _ => ⟨0, 0, 0, 0, 0⟩, fun _ => 0, fun _ => 0, fun _ => 0,
    fun _ => 0, fun _ => 0, fun _ => 0, fun _ => 0⟩
  totalBytes := 0
  nEntries := 0
  lastUsedCounter := 0
  counters := ⟨0, 0, 0, 0, 0, 0, 0⟩

def Sys.init : Sys := ⟨.init, [], []⟩

end DeltaX.BlobCache
