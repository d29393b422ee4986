import DeltaX.Agg.AccLayout
import DeltaX.Scan.AppendWire
/-!
# The wire of aggregate partials

A worker writes its groups, their accumulators and the strings behind them into its slab of
shared memory; the leader reads them back.  Sizes and offsets are 32-bit.  The distinct
values of a side car are not on the wire.
-/

namespace DeltaX.Agg.PartialWire

open Column (TypeOid)
open AccLayout Scan.AppendWire Support.LittleEndian Support.Memory Support.Placement

/-! ## Results of a worker -/

inductive CdKind
  | int | str | dictBitset
deriving DecidableEq

/-- `CdEntry`: the distinct values of each group for one aggregate.  A bitset is its words. -/
structure CdEntry where
  specIdx : ℕ
  kind : CdKind
  bitsetSize : BitVec 32
  setsInt : List (Finset (BitVec 64))
  setsStr : List (Finset (BitVec 128))
  bitsets : List (List (BitVec 64))
deriving DecidableEq

structure CountDistinctSideCar where
  entries : List CdEntry
deriving DecidableEq

/-- The kind of a side car entry that has no bitset. -/
def cdKind : TypeOid → CdKind
  | .text | .varchar | .bpchar => .str
  | _ => .int

def CountDistinctSideCar.new (specs : List AccSpec) : CountDistinctSideCar where
  entries := specs.zipIdx.filterMap fun e =>
    if e.1.aggType = .countDistinct then
      some { specIdx := e.2, kind := cdKind e.1.colTypeOid, bitsetSize := 0,
             setsInt := [], setsStr := [], bitsets := [] }
    else none

/-- The entries of a hash map, in the order it is iterated. -/
abbrev CompactGroupMap : Type := List (BitVec 128 × BitVec 32)

/-- `insert`. -/
def insertGroup (map : CompactGroupMap) (e : BitVec 128 × BitVec 32) : CompactGroupMap :=
  if map.any fun d => d.1 = e.1 then map.map fun d => if d.1 = e.1 then e else d else map ++ [e]

@[ext]
structure CompactAccStorage where
  buf : List UInt8
  layout : CompactAccLayout
  strArena : List UInt8
deriving DecidableEq

@[ext]
structure ParallelCompactResult where
  compactMap : CompactGroupMap
  compactStorage : CompactAccStorage
  cdSidecar : CountDistinctSideCar
  segmentsProcessed : BitVec 64
  rowsProcessed : BitVec 64
  decompressUs : BitVec 64
  topk : Option (List (BitVec 128) × BitVec 64)
  condStore : List (BitVec 32 × BitVec 32 × List UInt8)
deriving DecidableEq

structure WorkerResult (specs : List AccSpec) extends ParallelCompactResult where
  layout_eq : compactStorage.layout = .new specs
  buf_length : compactStorage.buf.length =
    compactMap.length * (CompactAccLayout.new specs).groupStride
  nodup_keys : (compactMap.map Prod.fst).Nodup

/-! ## The layout of a slab -/

def partialMagic : ℕ := 0x44585057

def partialVersion : ℕ := 1

def flagHasTopk : ℕ := 1

def headerSize : ℕ := 112

structure PartialLayout where
  slotsOff : ℕ
  slotsLen : ℕ
  groupMapOff : ℕ
  groupMapLen : ℕ
  storageOff : ℕ
  storageLen : ℕ
  strArenaOff : ℕ
  strArenaLen : ℕ
  topkOff : ℕ
  topkLen : ℕ
  totalSize : ℕ
  flags : ℕ
  topkNumKeys : ℕ
deriving DecidableEq

def layoutPartial (result : ParallelCompactResult) (specs : List AccSpec) : PartialLayout :=
  let numGroups := u32 result.compactMap.length
  let stride := u32 result.compactStorage.layout.groupStride
  let slotsOff := headerSize
  let slotsLen := u32 (u32 specs.length * 8)
  let groupMapOff := roundUp (u32 (slotsOff + slotsLen)) 4
  let groupMapLen := u32 (numGroups * 20)
  let storageOff := roundUp (u32 (groupMapOff + groupMapLen)) 16
  let storageLen := u32 (numGroups * stride)
  let strArenaOff := roundUp (u32 (storageOff + storageLen)) 4
  let strArenaLen := u32 result.compactStorage.strArena.length
  let topkNumKeys := result.topk.elim 0 fun topk => u32 topk.1.length
  let topkOff := if result.topk.isSome then roundUp (u32 (strArenaOff + strArenaLen)) 16 else 0
  let topkLen := u32 (topkNumKeys * 16)
  { slotsOff, slotsLen, groupMapOff, groupMapLen, storageOff, storageLen, strArenaOff,
    strArenaLen, topkOff, topkLen
    totalSize := if 0 < topkLen then u32 (topkOff + topkLen) else u32 (strArenaOff + strArenaLen)
    flags := if result.topk.isSome then flagHasTopk else 0
    topkNumKeys }

/-! ## Writing -/

/-- `PartialMeta`: what the layout says, and the counters. -/
structure PartialMeta extends PartialLayout where
  magic : ℕ
  version : ℕ
  numGroups : ℕ
  topkFloor : ℕ
  segmentsProcessed : ℕ
  rowsProcessed : ℕ
  decompressUs : ℕ
  numSlots : ℕ
  groupStride : ℕ

namespace PartialMeta

/-- The `u32` before the counters, padding included. -/
def head (h : PartialMeta) : List ℕ :=
  [h.magic, h.version, h.flags, h.numGroups, h.topkNumKeys, 0]

def counters (h : PartialMeta) : List ℕ :=
  [h.topkFloor, h.segmentsProcessed, h.rowsProcessed, h.decompressUs]

/-- The `u32` behind the counters, padding included. -/
def tail (h : PartialMeta) : List ℕ :=
  [h.numSlots, h.groupStride, h.slotsOff, h.slotsLen, h.groupMapOff, h.groupMapLen,
    h.storageOff, h.storageLen, h.strArenaOff, h.strArenaLen, h.topkOff, h.topkLen,
    h.totalSize, 0]

def bytes (h : PartialMeta) : List UInt8 :=
  h.head.flatMap (toLe 4) ++ (h.counters.flatMap (toLe 8) ++ h.tail.flatMap (toLe 4))

end PartialMeta

def metaOf (result : ParallelCompactResult) (specs : List AccSpec) (l : PartialLayout) :
    PartialMeta where
  toPartialLayout := l
  magic := partialMagic
  version := partialVersion
  numGroups := u32 result.compactMap.length
  topkFloor := result.topk.elim 0 fun topk => topk.2.toNat
  segmentsProcessed := result.segmentsProcessed.toNat
  rowsProcessed := result.rowsProcessed.toNat
  decompressUs := result.decompressUs.toNat
  numSlots := u32 specs.length
  groupStride := u32 result.compactStorage.layout.groupStride

def slotRecord (slot : ℕ × SlotKind) : List UInt8 := toLe 4 (u32 slot.1) ++ [slot.2.wireTag]

def groupEntry (e : BitVec 128 × BitVec 32) : List UInt8 := toLe 16 e.1.toNat ++ toLe 4 e.2.toNat

def topkKeys (result : ParallelCompactResult) : List (BitVec 128) := result.topk.elim [] Prod.fst

def writeKeys (slab : ℕ) (result : ParallelCompactResult) (l : PartialLayout) (m : Mem) : Mem :=
  if 0 < l.topkLen then
    writeStrided 16 (slab + l.topkOff) ((topkKeys result).map fun k => toLe 16 k.toNat) m
  else m

/-- The writes of `serialize_partial_into`. -/
def writePartial (slab : ℕ) (result : ParallelCompactResult) (specs : List AccSpec)
    (l : PartialLayout) (m : Mem) : Mem :=
  let m := write slab (List.replicate l.totalSize 0) m
  let m := write slab (metaOf result specs l).bytes m
  let m := writeStrided 8 (slab + l.slotsOff) (result.compactStorage.layout.slots.map slotRecord) m
  let m := writeStrided 20 (slab + l.groupMapOff) (result.compactMap.map groupEntry) m
  let m := write (slab + l.storageOff) (result.compactStorage.buf.take l.storageLen) m
  let m := write (slab + l.strArenaOff) (result.compactStorage.strArena.take l.strArenaLen) m
  writeKeys slab result l m

inductive SerError
  | overflow (needed have_ : ℕ)
deriving DecidableEq

def serializePartialInto (slab cap : ℕ) (result : ParallelCompactResult) (specs : List AccSpec)
    (m : Mem) : Except SerError (ℕ × Mem) :=
  let l := layoutPartial result specs
  if cap < l.totalSize then .error (.overflow l.totalSize cap)
  else .ok (l.totalSize, writePartial slab result specs l m)

/-! ## Reading -/

def readMeta (m : Mem) (slab : ℕ) : PartialMeta :=
  let head := fun k => u32At m (slab + 4 * k)
  let counter := fun k => u64At m (slab + 24 + 8 * k)
  let tail := fun k => u32At m (slab + 56 + 4 * k)
  { magic := head 0, version := head 1, flags := head 2, numGroups := head 3,
    topkNumKeys := head 4,
    topkFloor := counter 0, segmentsProcessed := counter 1, rowsProcessed := counter 2,
    decompressUs := counter 3,
    numSlots := tail 0, groupStride := tail 1, slotsOff := tail 2, slotsLen := tail 3,
    groupMapOff := tail 4, groupMapLen := tail 5, storageOff := tail 6, storageLen := tail 7,
    strArenaOff := tail 8, strArenaLen := tail 9, topkOff := tail 10, topkLen := tail 11,
    totalSize := tail 12 }

inductive DeError
  | truncated (needed have_ : ℕ)
  | magicMismatch
  | versionMismatch (got expected : ℕ)
  | layoutMismatch
deriving DecidableEq

/-- The sender's slot records are those of the layout. -/
def slotsMatch (m : Mem) (off : ℕ) (slots : List (ℕ × SlotKind)) : Bool :=
  slots.zipIdx.all fun e =>
    u32At m (off + 8 * e.2) = u32 e.1.1 ∧ m (off + 8 * e.2 + 4) = e.1.2.wireTag

def readGroup (m : Mem) (off i : ℕ) : BitVec 128 × BitVec 32 :=
  (BitVec.ofNat 128 (ofLe (read m (off + 20 * i) 16)),
    BitVec.ofNat 32 (u32At m (off + 20 * i + 16)))

def readGroups (m : Mem) (off numGroups : ℕ) : CompactGroupMap :=
  ((List.range numGroups).map (readGroup m off)).foldl insertGroup []

def readKeys (m : Mem) (off numKeys : ℕ) : List (BitVec 128) :=
  (List.range numKeys).map fun i => BitVec.ofNat 128 (ofLe (read m (off + 16 * i) 16))

def deserializePartial (slab len : ℕ) (specs : List AccSpec) (m : Mem) :
    Except DeError ParallelCompactResult :=
  if len < headerSize then .error (.truncated headerSize len)
  else
    let hdr := readMeta m slab
    let layout := CompactAccLayout.new specs
    if hdr.magic ≠ partialMagic then .error .magicMismatch
    else if hdr.version ≠ partialVersion then
      .error (.versionMismatch hdr.version partialVersion)
    else if len < hdr.totalSize then .error (.truncated hdr.totalSize len)
    else if hdr.numSlots ≠ specs.length then .error .layoutMismatch
    else if u32 layout.groupStride ≠ hdr.groupStride then .error .layoutMismatch
    else if slotsMatch m (slab + hdr.slotsOff) layout.slots = false then .error .layoutMismatch
    else .ok {
      compactMap := readGroups m (slab + hdr.groupMapOff) hdr.numGroups
      compactStorage :=
        { buf := read m (slab + hdr.storageOff) hdr.storageLen
          layout
          strArena := read m (slab + hdr.strArenaOff) hdr.strArenaLen }
      cdSidecar := .new specs
      segmentsProcessed := BitVec.ofNat 64 hdr.segmentsProcessed
      rowsProcessed := BitVec.ofNat 64 hdr.rowsProcessed
      decompressUs := BitVec.ofNat 64 hdr.decompressUs
      topk :=
        if hdr.flags &&& flagHasTopk ≠ 0 then
          some (readKeys m (slab + hdr.topkOff) hdr.topkNumKeys, BitVec.ofNat 64 hdr.topkFloor)
        else none
      condStore := [] }

/-! ## Sizes -/

section

variable {specs : List AccSpec} (r : ParallelCompactResult)

def groupMapStart (specs : List AccSpec) : ℕ := alignUp (headerSize + 8 * specs.length) 4

def storageStart (specs : List AccSpec) : ℕ :=
  alignUp (groupMapStart specs + 20 * r.compactMap.length) 16

def arenaStart (specs : List AccSpec) : ℕ :=
  alignUp (storageStart r specs + r.compactStorage.buf.length) 4

def arenaEnd (specs : List AccSpec) : ℕ := arenaStart r specs + r.compactStorage.strArena.length

/-- The bytes a result takes in a slab. -/
def encodedSize (specs : List AccSpec) : ℕ :=
  if topkKeys r = [] then arenaEnd r specs
  else alignUp (arenaEnd r specs) 16 + 16 * (topkKeys r).length

/-- A layout whose regions have the sizes of the data and lie one behind the other. -/
structure Fits (r : ParallelCompactResult) (specs : List AccSpec) (l : PartialLayout) : Prop where
  slotsOff : l.slotsOff = headerSize
  groupMapOff : headerSize + 8 * specs.length ≤ l.groupMapOff
  storageOff : l.groupMapOff + 20 * r.compactMap.length ≤ l.storageOff
  storageLen : l.storageLen = r.compactStorage.buf.length
  strArenaOff : l.storageOff + r.compactStorage.buf.length ≤ l.strArenaOff
  strArenaLen : l.strArenaLen = r.compactStorage.strArena.length
  strArenaEnd : l.strArenaOff + r.compactStorage.strArena.length ≤ l.totalSize
  topkOff : topkKeys r ≠ [] → l.strArenaOff + r.compactStorage.strArena.length ≤ l.topkOff
  topkLen : l.topkLen = 16 * (topkKeys r).length
  topkEnd : topkKeys r ≠ [] → l.topkOff + 16 * (topkKeys r).length = l.totalSize
  topkNumKeys : l.topkNumKeys = (topkKeys r).length
  flags : l.flags = if r.topk.isSome then flagHasTopk else 0
  tail : ∀ w ∈ [l.slotsOff, l.slotsLen, l.groupMapOff, l.groupMapLen, l.storageOff, l.storageLen,
    l.strArenaOff, l.strArenaLen, l.topkOff, l.topkLen, l.totalSize], w < 2 ^ 32

theorem u32_lt (n : ℕ) : u32 n < 2 ^ 32 := Nat.mod_lt n (by decide)

theorem u32_mul (a b : ℕ) : u32 (u32 a * u32 b) = u32 (a * b) := (Nat.mul_mod a b (2 ^ 32)).symm

theorem u32_mul_lt (a : ℕ) {b : ℕ} (hb : b < 2 ^ 32) : u32 (u32 a * b) = u32 (a * b) := by
  calc u32 (u32 a * b) = u32 (u32 a * u32 b) := by rw [u32_of_lt hb]
    _ = u32 (a * b) := u32_mul a b

/-- `round_up` is exact where the place it finds is a `u32`. -/
theorem roundUp_eq {n align : ℕ} (hpos : 0 < align) (hdvd : align ∣ 2 ^ 32)
    (h : alignUp n align < 2 ^ 32) : roundUp (u32 n) align = alignUp n align := by
  have hle := le_alignUp n hpos
  have hroom : alignUp n align + align ≤ 2 ^ 32 := by
    obtain ⟨c, hc⟩ := dvd_alignUp n align
    obtain ⟨d, hd⟩ := hdvd
    rw [hc, hd] at h
    have hcd : c + 1 ≤ d := Nat.lt_of_mul_lt_mul_left h
    calc alignUp n align + align = align * (c + 1) := by rw [hc, Nat.mul_succ]
      _ ≤ align * d := Nat.mul_le_mul_left align hcd
      _ = 2 ^ 32 := hd.symm
  rw [roundUp, u32_of_lt (n := n) (by omega), u32_of_lt (by omega)]
  have hsplit := Nat.div_add_mod' (n + align - 1) align
  unfold alignUp
  omega

theorem roundUp_lt (n align : ℕ) : roundUp n align < 2 ^ 32 :=
  lt_of_le_of_lt (Nat.sub_le _ _) (u32_lt _)

/-- Every place before the end of the arena is a `u32`. -/
theorem starts_lt {r : ParallelCompactResult} (h : encodedSize r specs < 2 ^ 32) :
    groupMapStart specs < 2 ^ 32 ∧ storageStart r specs < 2 ^ 32 ∧ arenaStart r specs < 2 ^ 32 ∧
      arenaEnd r specs < 2 ^ 32 := by
  have hend : arenaEnd r specs ≤ encodedSize r specs := by
    have hle := le_alignUp (arenaEnd r specs) (show 0 < 16 by decide)
    unfold encodedSize
    split_ifs <;> omega
  have harena : arenaStart r specs ≤ arenaEnd r specs := Nat.le_add_right _ _
  have hstorage : storageStart r specs + r.compactStorage.buf.length ≤ arenaStart r specs :=
    le_alignUp _ (by decide)
  have hmap : groupMapStart specs + 20 * r.compactMap.length ≤ storageStart r specs :=
    le_alignUp _ (by decide)
  omega

theorem length_topkKeys (r : ParallelCompactResult) :
    (r.topk.elim 0 fun topk => u32 topk.1.length) = u32 (topkKeys r).length := by
  unfold topkKeys
  cases r.topk <;> rfl

variable {r} (h : encodedSize r specs < 2 ^ 32)
include h

theorem groupMapOff_eq : (layoutPartial r specs).groupMapOff = groupMapStart specs := by
  have hle : headerSize + 8 * specs.length ≤ groupMapStart specs := le_alignUp _ (by decide)
  have hlt := (starts_lt h).1
  have hlen : u32 (u32 specs.length * 8) = 8 * specs.length := by
    rw [u32_mul_lt _ (by decide), u32_of_lt (by omega), Nat.mul_comm]
  calc (layoutPartial r specs).groupMapOff
      = roundUp (u32 (headerSize + u32 (u32 specs.length * 8))) 4 := rfl
    _ = roundUp (u32 (headerSize + 8 * specs.length)) 4 := by rw [hlen]
    _ = groupMapStart specs := roundUp_eq (by decide) (by decide) hlt

theorem storageOff_eq : (layoutPartial r specs).storageOff = storageStart r specs := by
  have hle : groupMapStart specs + 20 * r.compactMap.length ≤ storageStart r specs :=
    le_alignUp _ (by decide)
  have hlt := (starts_lt h).2.1
  have hlen : u32 (u32 r.compactMap.length * 20) = 20 * r.compactMap.length := by
    rw [u32_mul_lt _ (by decide), u32_of_lt (by omega), Nat.mul_comm]
  calc (layoutPartial r specs).storageOff
      = roundUp (u32 ((layoutPartial r specs).groupMapOff +
          u32 (u32 r.compactMap.length * 20))) 16 := rfl
    _ = roundUp (u32 (groupMapStart specs + 20 * r.compactMap.length)) 16 := by
        rw [groupMapOff_eq h, hlen]
    _ = storageStart r specs := roundUp_eq (by decide) (by decide) hlt

theorem strArenaLen_eq : (layoutPartial r specs).strArenaLen = r.compactStorage.strArena.length := by
  have hlt := (starts_lt h).2.2.2
  exact u32_of_lt (lt_of_le_of_lt (Nat.le_add_left _ _) hlt)

theorem topkLen_eq : (layoutPartial r specs).topkNumKeys = (topkKeys r).length ∧
    (layoutPartial r specs).topkLen = 16 * (topkKeys r).length := by
  have hlen : 16 * (topkKeys r).length < 2 ^ 32 := by
    unfold encodedSize at h
    split_ifs at h with hkeys
    · rw [hkeys]
      decide
    · omega
  have hnum : (layoutPartial r specs).topkNumKeys = (topkKeys r).length := by
    calc (layoutPartial r specs).topkNumKeys = u32 (topkKeys r).length := length_topkKeys r
      _ = (topkKeys r).length := u32_of_lt (by omega)
  refine ⟨hnum, ?_⟩
  calc (layoutPartial r specs).topkLen = u32 ((layoutPartial r specs).topkNumKeys * 16) := rfl
    _ = 16 * (topkKeys r).length := by rw [hnum, Nat.mul_comm, u32_of_lt hlen]

variable (hbuf : r.compactStorage.buf.length =
  r.compactMap.length * r.compactStorage.layout.groupStride)
include hbuf

theorem storageLen_eq : (layoutPartial r specs).storageLen = r.compactStorage.buf.length := by
  have hle : storageStart r specs + r.compactStorage.buf.length ≤ arenaStart r specs :=
    le_alignUp _ (by decide)
  have hlt := (starts_lt h).2.2.1
  calc (layoutPartial r specs).storageLen
      = u32 (u32 r.compactMap.length * u32 r.compactStorage.layout.groupStride) := rfl
    _ = u32 (r.compactMap.length * r.compactStorage.layout.groupStride) := u32_mul _ _
    _ = r.compactStorage.buf.length := by rw [← hbuf, u32_of_lt (by omega)]

theorem strArenaOff_eq : (layoutPartial r specs).strArenaOff = arenaStart r specs := by
  have hlt := (starts_lt h).2.2.1
  calc (layoutPartial r specs).strArenaOff
      = roundUp (u32 ((layoutPartial r specs).storageOff +
          (layoutPartial r specs).storageLen)) 4 := rfl
    _ = roundUp (u32 (storageStart r specs + r.compactStorage.buf.length)) 4 := by
        rw [storageOff_eq h, storageLen_eq h hbuf]
    _ = arenaStart r specs := roundUp_eq (by decide) (by decide) hlt

/-- The keys come behind the arena, where there are any. -/
theorem topkOff_eq (hkeys : topkKeys r ≠ []) :
    (layoutPartial r specs).topkOff = alignUp (arenaEnd r specs) 16 := by
  have hsome : r.topk.isSome = true := by
    rw [Option.isSome_iff_ne_none]
    intro hnone
    exact hkeys (by rw [topkKeys, hnone]; rfl)
  have hlt : alignUp (arenaEnd r specs) 16 < 2 ^ 32 := by
    rw [encodedSize, if_neg hkeys] at h
    omega
  calc (layoutPartial r specs).topkOff
      = roundUp (u32 ((layoutPartial r specs).strArenaOff +
          (layoutPartial r specs).strArenaLen)) 16 := if_pos hsome
    _ = roundUp (u32 (arenaEnd r specs)) 16 := by
        rw [strArenaOff_eq h hbuf, strArenaLen_eq h, arenaEnd]
    _ = alignUp (arenaEnd r specs) 16 := roundUp_eq (by decide) (by decide) hlt

theorem totalSize_eq : (layoutPartial r specs).totalSize = encodedSize r specs := by
  have hsize : (layoutPartial r specs).totalSize =
      if 0 < (layoutPartial r specs).topkLen then
        u32 ((layoutPartial r specs).topkOff + (layoutPartial r specs).topkLen)
      else u32 ((layoutPartial r specs).strArenaOff + (layoutPartial r specs).strArenaLen) := rfl
  rw [hsize, (topkLen_eq h).2, strArenaOff_eq h hbuf, strArenaLen_eq h]
  by_cases hkeys : topkKeys r = []
  · have hlt := (starts_lt h).2.2.2
    rw [encodedSize, if_pos hkeys, if_neg (by rw [hkeys]; decide)]
    exact u32_of_lt hlt
  · have hpos : 0 < (topkKeys r).length := List.length_pos_of_ne_nil hkeys
    rw [topkOff_eq h hbuf hkeys, if_pos (by omega)]
    rw [encodedSize, if_neg hkeys] at h ⊢
    exact u32_of_lt h

theorem fits_layoutPartial : Fits r specs (layoutPartial r specs) where
  slotsOff := rfl
  groupMapOff := by
    rw [groupMapOff_eq h]
    exact le_alignUp _ (by decide)
  storageOff := by
    rw [groupMapOff_eq h, storageOff_eq h]
    exact le_alignUp _ (by decide)
  storageLen := storageLen_eq h hbuf
  strArenaOff := by
    rw [storageOff_eq h, strArenaOff_eq h hbuf]
    exact le_alignUp _ (by decide)
  strArenaLen := strArenaLen_eq h
  strArenaEnd := by
    have hle := le_alignUp (arenaEnd r specs) (show 0 < 16 by decide)
    rw [strArenaOff_eq h hbuf, totalSize_eq h hbuf]
    show arenaEnd r specs ≤ encodedSize r specs
    unfold encodedSize
    split_ifs <;> omega
  topkOff hkeys := by
    rw [topkOff_eq h hbuf hkeys, strArenaOff_eq h hbuf]
    exact le_alignUp _ (by decide)
  topkLen := (topkLen_eq h).2
  topkEnd hkeys := by
    rw [topkOff_eq h hbuf hkeys, totalSize_eq h hbuf, encodedSize, if_neg hkeys]
  topkNumKeys := (topkLen_eq h).1
  flags := rfl
  tail := by
    have htopk : (layoutPartial r specs).topkOff < 2 ^ 32 := by
      show (if r.topk.isSome then roundUp _ 16 else 0) < 2 ^ 32
      split_ifs
      · exact roundUp_lt _ _
      · decide
    have htotal : (layoutPartial r specs).totalSize < 2 ^ 32 := by
      rw [totalSize_eq h hbuf]
      exact h
    intro w hw
    simp only [List.mem_cons, List.not_mem_nil, or_false] at hw
    rcases hw with rfl | rfl | rfl | rfl | rfl | rfl | rfl | rfl | rfl | rfl | rfl
    · show headerSize < 2 ^ 32
      decide
    · exact u32_lt _
    · exact roundUp_lt _ _
    · exact u32_lt _
    · exact roundUp_lt _ _
    · exact u32_lt _
    · exact roundUp_lt _ _
    · exact u32_lt _
    · exact htopk
    · exact u32_lt _
    · exact htotal

end

/-! ## What the writes leave -/

theorem length_bytes (h : PartialMeta) : h.bytes.length = headerSize := by
  rw [PartialMeta.bytes, List.length_append, List.length_append, length_flatMap_toLe,
    length_flatMap_toLe, length_flatMap_toLe]
  rfl

theorem length_slotRecord_le {slots : List (ℕ × SlotKind)} :
    ∀ entry ∈ slots.map slotRecord, entry.length ≤ 8 := by
  intro entry hentry
  obtain ⟨slot, -, rfl⟩ := List.mem_map.mp hentry
  rw [slotRecord, List.length_append, length_toLe, List.length_singleton]
  omega

theorem length_groupEntry_le {map : CompactGroupMap} :
    ∀ entry ∈ map.map groupEntry, entry.length ≤ 20 := by
  intro entry hentry
  obtain ⟨e, -, rfl⟩ := List.mem_map.mp hentry
  rw [groupEntry, List.length_append, length_toLe, length_toLe]

theorem length_keyEntry_le {keys : List (BitVec 128)} :
    ∀ entry ∈ keys.map fun k => toLe 16 k.toNat, entry.length ≤ 16 := by
  intro entry hentry
  obtain ⟨k, -, rfl⟩ := List.mem_map.mp hentry
  rw [length_toLe]

section

variable {specs : List AccSpec} {r : ParallelCompactResult} {l : PartialLayout} {slab : ℕ}
  (hfit : Fits r specs l) (hlayout : r.compactStorage.layout = .new specs)
include hfit

theorem Fits.limit : l.totalSize < 2 ^ 32 := hfit.tail _ (by simp)

theorem Fits.holds_writeKeys {m : Mem} {off : ℕ} {bytes : List UInt8} (h : Holds m off bytes)
    (hend : off + bytes.length ≤ slab + l.strArenaOff + r.compactStorage.strArena.length) :
    Holds (writeKeys slab r l m) off bytes := by
  unfold writeKeys
  split_ifs with hlen
  · have hkeys : topkKeys r ≠ [] := by
      intro hnil
      have hzero := hfit.topkLen
      rw [hnil, List.length_nil] at hzero
      omega
    have hoff := hfit.topkOff hkeys
    exact h.writeStrided length_keyEntry_le (by omega)
  · exact h

theorem Fits.writeKeys_frame {m : Mem} {a : ℕ} (ha : a < slab ∨ slab + l.totalSize ≤ a) :
    writeKeys slab r l m a = m a := by
  unfold writeKeys
  split_ifs with hlen
  · have hkeys : topkKeys r ≠ [] := by
      intro hnil
      have hzero := hfit.topkLen
      rw [hnil, List.length_nil] at hzero
      omega
    have hend := hfit.topkEnd hkeys
    apply writeStrided_frame m length_keyEntry_le
    rw [List.length_map]
    omega
  · rfl

/-- The accumulators and the strings are written whole. -/
theorem Fits.writePartial_eq (m : Mem) :
    writePartial slab r specs l m = writeKeys slab r l
      (write (slab + l.strArenaOff) r.compactStorage.strArena
        (write (slab + l.storageOff) r.compactStorage.buf
          (writeStrided 20 (slab + l.groupMapOff) (r.compactMap.map groupEntry)
            (writeStrided 8 (slab + l.slotsOff) (r.compactStorage.layout.slots.map slotRecord)
              (write slab (metaOf r specs l).bytes
                (write slab (List.replicate l.totalSize 0) m)))))) := by
  unfold writePartial
  rw [hfit.storageLen, hfit.strArenaLen, List.take_length, List.take_length]

include hlayout

theorem Fits.regions : l.slotsOff = 112 ∧
    l.slotsOff + 8 * (r.compactStorage.layout.slots.map slotRecord).length ≤ l.groupMapOff ∧
    l.groupMapOff + 20 * (r.compactMap.map groupEntry).length ≤ l.storageOff ∧
    l.storageOff + r.compactStorage.buf.length ≤ l.strArenaOff ∧
    l.strArenaOff + r.compactStorage.strArena.length ≤ l.totalSize := by
  have hslots : (r.compactStorage.layout.slots.map slotRecord).length = specs.length := by
    rw [List.length_map, hlayout, AccLayout.length_slots]
  rw [hslots, List.length_map, hfit.slotsOff]
  exact ⟨rfl, hfit.groupMapOff, hfit.storageOff, hfit.strArenaOff, hfit.strArenaEnd⟩

/-- Nothing outside the slab is written. -/
theorem Fits.frame (m : Mem) {a : ℕ} (ha : a < slab ∨ slab + l.totalSize ≤ a) :
    writePartial slab r specs l m a = m a := by
  obtain ⟨h1, h2, h3, h4, h5⟩ := hfit.regions hlayout
  rw [hfit.writePartial_eq, hfit.writeKeys_frame ha, write_frame _ (by omega),
    write_frame _ (by omega), writeStrided_frame _ length_groupEntry_le (by omega),
    writeStrided_frame _ length_slotRecord_le (by omega)]
  have hmeta : (metaOf r specs l).bytes.length = 112 := length_bytes _
  rw [write_frame _ (by omega), write_frame _ (by rw [List.length_replicate]; omega)]

theorem Fits.holds_meta (m : Mem) :
    Holds (writePartial slab r specs l m) slab (metaOf r specs l).bytes := by
  obtain ⟨h1, h2, h3, h4, h5⟩ := hfit.regions hlayout
  have hmeta : (metaOf r specs l).bytes.length = 112 := length_bytes _
  rw [hfit.writePartial_eq]
  apply hfit.holds_writeKeys _ (by omega)
  apply Holds.write _ (by omega)
  apply Holds.write _ (by omega)
  apply Holds.writeStrided _ length_groupEntry_le (by omega)
  apply Holds.writeStrided _ length_slotRecord_le (by omega)
  exact holds_write _ _ _

theorem Fits.holds_slot (m : Mem) {i : ℕ} {slot : ℕ × SlotKind}
    (hi : r.compactStorage.layout.slots[i]? = some slot) :
    Holds (writePartial slab r specs l m) (slab + l.slotsOff + 8 * i) (slotRecord slot) := by
  obtain ⟨h1, h2, h3, h4, h5⟩ := hfit.regions hlayout
  have hentry : (r.compactStorage.layout.slots.map slotRecord)[i]? = some (slotRecord slot) := by
    rw [List.getElem?_map, hi]
    rfl
  have hlt := (List.getElem?_eq_some_iff.mp hentry).1
  have hlen := length_slotRecord_le _ (List.mem_of_getElem? hentry)
  rw [hfit.writePartial_eq]
  apply hfit.holds_writeKeys _ (by omega)
  apply Holds.write _ (by omega)
  apply Holds.write _ (by omega)
  apply Holds.writeStrided _ length_groupEntry_le (by omega)
  exact holds_writeStrided _ length_slotRecord_le hentry

theorem Fits.holds_group (m : Mem) {i : ℕ} {e : BitVec 128 × BitVec 32}
    (hi : r.compactMap[i]? = some e) :
    Holds (writePartial slab r specs l m) (slab + l.groupMapOff + 20 * i) (groupEntry e) := by
  obtain ⟨h1, h2, h3, h4, h5⟩ := hfit.regions hlayout
  have hentry : (r.compactMap.map groupEntry)[i]? = some (groupEntry e) := by
    rw [List.getElem?_map, hi]
    rfl
  have hlt := (List.getElem?_eq_some_iff.mp hentry).1
  have hlen := length_groupEntry_le _ (List.mem_of_getElem? hentry)
  rw [hfit.writePartial_eq]
  apply hfit.holds_writeKeys _ (by omega)
  apply Holds.write _ (by omega)
  apply Holds.write _ (by omega)
  exact holds_writeStrided _ length_groupEntry_le hentry

theorem Fits.holds_storage (m : Mem) :
    Holds (writePartial slab r specs l m) (slab + l.storageOff) r.compactStorage.buf := by
  obtain ⟨h1, h2, h3, h4, h5⟩ := hfit.regions hlayout
  rw [hfit.writePartial_eq]
  apply hfit.holds_writeKeys _ (by omega)
  apply Holds.write _ (by omega)
  exact holds_write _ _ _

omit hlayout in
theorem Fits.holds_arena (m : Mem) :
    Holds (writePartial slab r specs l m) (slab + l.strArenaOff) r.compactStorage.strArena := by
  rw [hfit.writePartial_eq]
  apply hfit.holds_writeKeys _ (by omega)
  exact holds_write _ _ _

omit hlayout in
theorem Fits.holds_key (m : Mem) {i : ℕ} {k : BitVec 128} (hi : (topkKeys r)[i]? = some k) :
    Holds (writePartial slab r specs l m) (slab + l.topkOff + 16 * i) (toLe 16 k.toNat) := by
  have hentry : ((topkKeys r).map fun k => toLe 16 k.toNat)[i]? = some (toLe 16 k.toNat) := by
    rw [List.getElem?_map, hi]
    rfl
  have hlt : i < (topkKeys r).length := (List.getElem?_eq_some_iff.mp hi).1
  have hlen := hfit.topkLen
  rw [hfit.writePartial_eq, writeKeys, if_pos (by omega)]
  exact holds_writeStrided _ length_keyEntry_le hentry

end

/-! ## Reading back -/

theorem bitVec_ofLe_read {w n : ℕ} {m : Mem} {off : ℕ} {b : BitVec w}
    (h : Holds m off (toLe n b.toNat)) (hw : 2 ^ w ≤ 256 ^ n) :
    BitVec.ofNat w (ofLe (read m off n)) = b := by
  rw [h.ofLe_read (lt_of_lt_of_le b.isLt hw), BitVec.ofNat_toNat, BitVec.setWidth_eq]

theorem readMeta_of_holds {m : Mem} {slab : ℕ} {h : PartialMeta} (hm : Holds m slab h.bytes)
    (hhead : ∀ w ∈ h.head, w < 2 ^ 32) (hcounters : ∀ w ∈ h.counters, w < 2 ^ 64)
    (htail : ∀ w ∈ h.tail, w < 2 ^ 32) : readMeta m slab = h := by
  rw [PartialMeta.bytes, holds_append, holds_append, length_flatMap_toLe, length_flatMap_toLe] at hm
  obtain ⟨hm1, hm2, hm3⟩ := hm
  have hword : ∀ k w, h.head[k]? = some w → u32At m (slab + 4 * k) = w :=
    fun k w hk => hm1.word_read hk (hhead w (List.mem_of_getElem? hk))
  have hlong : ∀ k w, h.counters[k]? = some w → u64At m (slab + 24 + 8 * k) = w :=
    fun k w hk => hm2.word_read hk (hcounters w (List.mem_of_getElem? hk))
  have hlast : ∀ k w, h.tail[k]? = some w → u32At m (slab + 56 + 4 * k) = w :=
    fun k w hk => hm3.word_read hk (htail w (List.mem_of_getElem? hk))
  unfold readMeta
  simp only [hword 0 _ rfl, hword 1 _ rfl, hword 2 _ rfl, hword 3 _ rfl, hword 4 _ rfl,
    hlong 0 _ rfl, hlong 1 _ rfl, hlong 2 _ rfl, hlong 3 _ rfl, hlast 0 _ rfl, hlast 1 _ rfl,
    hlast 2 _ rfl, hlast 3 _ rfl, hlast 4 _ rfl, hlast 5 _ rfl, hlast 6 _ rfl, hlast 7 _ rfl,
    hlast 8 _ rfl, hlast 9 _ rfl, hlast 10 _ rfl, hlast 11 _ rfl, hlast 12 _ rfl]

theorem foldl_insertGroup {map entries : CompactGroupMap}
    (h : ((map ++ entries).map Prod.fst).Nodup) : entries.foldl insertGroup map = map ++ entries := by
  induction entries generalizing map with
  | nil => rw [List.foldl_nil, List.append_nil]
  | cons e entries ih =>
      have hnew : ¬ (map.any fun d => d.1 = e.1) = true := by
        rw [List.map_append, List.nodup_append] at h
        intro hany
        obtain ⟨d, hd, hkey⟩ := List.any_eq_true.mp hany
        exact h.2.2 _ (List.mem_map_of_mem hd) e.1 (by simp) (of_decide_eq_true hkey)
      rw [List.foldl_cons, insertGroup, if_neg hnew, ih (by simpa using h), List.append_assoc]
      rfl

/-- A list is read entry by entry. -/
theorem map_range_eq {α : Type*} {entries : List α} {f : ℕ → α}
    (h : ∀ i e, entries[i]? = some e → f i = e) : (List.range entries.length).map f = entries := by
  apply List.ext_getElem?
  intro i
  rw [List.getElem?_map]
  by_cases hi : i < entries.length
  · rw [List.getElem?_range hi, Option.map_some, List.getElem?_eq_getElem hi,
      h i _ (List.getElem?_eq_getElem hi)]
  · rw [List.getElem?_eq_none (by rw [List.length_range]; omega), List.getElem?_eq_none (by omega)]
    rfl

section

variable {specs : List AccSpec} {r : ParallelCompactResult} {l : PartialLayout} {slab : ℕ}
  (hfit : Fits r specs l) (hlayout : r.compactStorage.layout = .new specs) (m : Mem)
include hfit

theorem Fits.counts_lt : r.compactMap.length < 2 ^ 32 ∧ specs.length < 2 ^ 32 ∧
    (topkKeys r).length < 2 ^ 32 := by
  have hlimit := hfit.limit
  have h2 := hfit.groupMapOff
  have h3 := hfit.storageOff
  have h4 := hfit.strArenaOff
  have h5 := hfit.strArenaEnd
  have hkeys := hfit.topkNumKeys
  have hlen : l.topkLen < 2 ^ 32 := hfit.tail _ (by simp)
  have htopk := hfit.topkLen
  omega

include hlayout

theorem Fits.readMeta_eq : readMeta (writePartial slab r specs l m) slab = metaOf r specs l := by
  have hcounts := hfit.counts_lt
  apply readMeta_of_holds (hfit.holds_meta hlayout m)
  · have hflags : l.flags < 2 ^ 32 := by
      rw [hfit.flags]
      split_ifs <;> decide
    have hkeys := hfit.topkNumKeys
    simp only [PartialMeta.head, metaOf, List.mem_cons, List.not_mem_nil, or_false,
      forall_eq_or_imp, forall_eq, partialMagic, partialVersion]
    have hgroups := u32_lt r.compactMap.length
    omega
  · have hfloor : (r.topk.elim 0 fun topk => topk.2.toNat) < 2 ^ 64 := by
      cases r.topk with
      | none => decide
      | some topk => exact topk.2.isLt
    simp only [PartialMeta.counters, metaOf, List.mem_cons, List.not_mem_nil, or_false,
      forall_eq_or_imp, forall_eq]
    exact ⟨hfloor, r.segmentsProcessed.isLt, r.rowsProcessed.isLt, r.decompressUs.isLt⟩
  · have htail := hfit.tail
    have hslots := u32_lt specs.length
    have hstride := u32_lt r.compactStorage.layout.groupStride
    simp only [List.mem_cons, List.not_mem_nil, or_false, forall_eq_or_imp, forall_eq] at htail
    simp only [PartialMeta.tail, metaOf, List.mem_cons, List.not_mem_nil, or_false,
      forall_eq_or_imp, forall_eq]
    exact ⟨hslots, hstride, htail.1, htail.2.1, htail.2.2.1, htail.2.2.2.1, htail.2.2.2.2.1,
      htail.2.2.2.2.2.1, htail.2.2.2.2.2.2.1, htail.2.2.2.2.2.2.2.1, htail.2.2.2.2.2.2.2.2.1,
      htail.2.2.2.2.2.2.2.2.2.1, htail.2.2.2.2.2.2.2.2.2.2, by decide⟩

/-- The slot records are those of the reader's own layout. -/
theorem Fits.slotsMatch_eq :
    slotsMatch (writePartial slab r specs l m) (slab + l.slotsOff)
      (CompactAccLayout.new specs).slots = true := by
  rw [slotsMatch, List.all_eq_true]
  intro e he
  have hslot := List.mem_zipIdx_iff_getElem?.mp he
  rw [← hlayout] at hslot
  have hheld : Holds (writePartial slab r specs l m) (slab + l.slotsOff + 8 * e.2)
    (slotRecord e.1) := hfit.holds_slot hlayout m hslot
  rw [slotRecord, holds_append, length_toLe] at hheld
  have htag := hheld.2 0 _ rfl
  rw [Nat.add_zero] at htag
  exact decide_eq_true ⟨hheld.1.ofLe_read (u32_lt _), htag⟩

theorem Fits.readGroup_eq {i : ℕ} {e : BitVec 128 × BitVec 32} (hi : r.compactMap[i]? = some e) :
    readGroup (writePartial slab r specs l m) (slab + l.groupMapOff) i = e := by
  have hheld : Holds (writePartial slab r specs l m) (slab + l.groupMapOff + 20 * i)
    (groupEntry e) := hfit.holds_group hlayout m hi
  rw [groupEntry, holds_append, length_toLe] at hheld
  rw [readGroup, bitVec_ofLe_read hheld.1 (by decide), u32At, bitVec_ofLe_read hheld.2 (by decide)]

theorem Fits.readGroups_eq (hkeys : (r.compactMap.map Prod.fst).Nodup) :
    readGroups (writePartial slab r specs l m) (slab + l.groupMapOff) r.compactMap.length =
      r.compactMap := by
  rw [readGroups, map_range_eq fun i e hi => hfit.readGroup_eq hlayout m hi]
  exact foldl_insertGroup hkeys

omit hlayout

theorem Fits.readKeys_eq :
    readKeys (writePartial slab r specs l m) (slab + l.topkOff) (topkKeys r).length =
      topkKeys r := by
  apply map_range_eq
  intro i k hi
  exact bitVec_ofLe_read (hfit.holds_key m hi) (by decide)

/-- The candidates are read where there are any, without keys or with. -/
theorem Fits.topk_eq :
    (if l.flags &&& flagHasTopk ≠ 0 then
      some (readKeys (writePartial slab r specs l m) (slab + l.topkOff) l.topkNumKeys,
        BitVec.ofNat 64 (metaOf r specs l).topkFloor)
    else none) = r.topk := by
  have hkeys : readKeys (writePartial slab r specs l m) (slab + l.topkOff) l.topkNumKeys =
      topkKeys r := by
    rw [hfit.topkNumKeys, hfit.readKeys_eq]
  have hfloor : (metaOf r specs l).topkFloor = r.topk.elim 0 fun topk => topk.2.toNat := rfl
  rw [hkeys, hfloor, topkKeys, hfit.flags]
  cases r.topk with
  | none => rfl
  | some topk =>
      have hflag : flagHasTopk &&& flagHasTopk ≠ 0 := by decide
      rw [Option.isSome_some, if_pos rfl, if_pos hflag, Option.elim_some, Option.elim_some,
        BitVec.ofNat_toNat, BitVec.setWidth_eq]

end

/-! ## The round trip -/

/-- What the leader gets of a result: all of it but the distinct values and the payloads of
the condition cache. -/
def received (r : ParallelCompactResult) (specs : List AccSpec) : ParallelCompactResult :=
  { r with cdSidecar := .new specs, condStore := [] }

theorem deserializePartial_of_fits {specs : List AccSpec} (r : WorkerResult specs)
    {l : PartialLayout} (hfit : Fits r.toParallelCompactResult specs l) (slab : ℕ) (m : Mem)
    {len : ℕ} (hlen : l.totalSize ≤ len) :
    deserializePartial slab len specs (writePartial slab r.toParallelCompactResult specs l m) =
      .ok (received r.toParallelCompactResult specs) := by
  generalize hwritten : writePartial slab r.toParallelCompactResult specs l m = m'
  have hmeta : readMeta m' slab = metaOf r.toParallelCompactResult specs l := by
    rw [← hwritten, hfit.readMeta_eq r.layout_eq m]
  have hcounts := hfit.counts_lt
  have hregions := hfit.regions r.layout_eq
  have hheader : ¬ len < headerSize := by
    show ¬ len < 112
    omega
  have hslots : (metaOf r.toParallelCompactResult specs l).numSlots = specs.length :=
    u32_of_lt hcounts.2.1
  have hstride : u32 (CompactAccLayout.new specs).groupStride =
      (metaOf r.toParallelCompactResult specs l).groupStride := by
    rw [← r.layout_eq]
    rfl
  have hmatch : ¬ slotsMatch m' (slab + (metaOf r.toParallelCompactResult specs l).slotsOff)
      (CompactAccLayout.new specs).slots = false := by
    rw [← hwritten, Bool.not_eq_false]
    exact hfit.slotsMatch_eq r.layout_eq m
  have hmap : readGroups m' (slab + l.groupMapOff) (u32 r.compactMap.length) = r.compactMap := by
    rw [u32_of_lt hcounts.1, ← hwritten, hfit.readGroups_eq r.layout_eq m r.nodup_keys]
  have hbuf : read m' (slab + l.storageOff) l.storageLen = r.compactStorage.buf := by
    rw [← hwritten, (hfit.holds_storage r.layout_eq m).read_eq hfit.storageLen]
  have harena : read m' (slab + l.strArenaOff) l.strArenaLen = r.compactStorage.strArena := by
    rw [← hwritten, (hfit.holds_arena m).read_eq hfit.strArenaLen]
  have htopk : (if l.flags &&& flagHasTopk ≠ 0 then
      some (readKeys m' (slab + l.topkOff) l.topkNumKeys,
        BitVec.ofNat 64 (metaOf r.toParallelCompactResult specs l).topkFloor)
      else none) = r.topk := by
    rw [← hwritten, hfit.topk_eq m]
  have hmagic : ¬ (metaOf r.toParallelCompactResult specs l).magic ≠ partialMagic :=
    not_not_intro rfl
  have hversion : ¬ (metaOf r.toParallelCompactResult specs l).version ≠ partialVersion :=
    not_not_intro rfl
  have hsize : ¬ len < (metaOf r.toParallelCompactResult specs l).totalSize := not_lt.mpr hlen
  unfold deserializePartial
  rw [if_neg hheader, hmeta]
  dsimp only
  rw [if_neg hmagic, if_neg hversion, if_neg hsize, if_neg (not_not_intro hslots),
    if_neg (not_not_intro hstride), if_neg hmatch]
  apply congrArg Except.ok
  ext1
  · exact hmap
  · exact CompactAccStorage.ext hbuf r.layout_eq.symm harena
  · rfl
  · exact ofNat_toNat r.segmentsProcessed
  · exact ofNat_toNat r.rowsProcessed
  · exact ofNat_toNat r.decompressUs
  · exact htopk
  · rfl

/-- Slots are aligned, apart and inside their group.  A result whose size is a `u32` is
refused exactly where it does not fit the slab; elsewhere nothing outside its bytes is
written, and the leader reads back the groups, the accumulators, the strings and the top-K
candidates, with no distinct values. -/
theorem partial_roundTrip (specs : List AccSpec) :
    AccLayout.Laid specs (.new specs) ∧
    ∀ (r : WorkerResult specs) (slab cap : ℕ) (m : Mem),
      encodedSize r.toParallelCompactResult specs < 2 ^ 32 →
      if cap < encodedSize r.toParallelCompactResult specs then
        serializePartialInto slab cap r.toParallelCompactResult specs m =
          .error (.overflow (encodedSize r.toParallelCompactResult specs) cap)
      else
        ∃ m', serializePartialInto slab cap r.toParallelCompactResult specs m =
            .ok (encodedSize r.toParallelCompactResult specs, m') ∧
          (∀ a, a < slab ∨ slab + encodedSize r.toParallelCompactResult specs ≤ a →
            m' a = m a) ∧
          ∀ len, encodedSize r.toParallelCompactResult specs ≤ len →
            deserializePartial slab len specs m' =
              .ok (received r.toParallelCompactResult specs) := by
  refine ⟨AccLayout.laid_new specs, fun r slab cap m h => ?_⟩
  have hbuf : r.compactStorage.buf.length =
      r.compactMap.length * r.compactStorage.layout.groupStride := by
    rw [r.layout_eq]
    exact r.buf_length
  have hfit := fits_layoutPartial h hbuf
  have htotal := totalSize_eq h hbuf
  unfold serializePartialInto
  dsimp only
  rw [htotal]
  split_ifs with hcap
  · rfl
  · refine ⟨_, rfl, ?_, ?_⟩
    · intro a ha
      rw [← htotal] at ha
      exact hfit.frame r.layout_eq m ha
    · intro len hlen
      rw [← htotal] at hlen
      exact deserializePartial_of_fits r hfit slab m hlen

/-! ## A result with distinct values -/

/-- `COUNT(DISTINCT a)` of an `int4` column. -/
def distinctSpec : AccSpec where
  aggType := .countDistinct
  colIdx := 0
  colTypeOid := .int4
  exprKind := .column
  constOffset := 0
  outputTransform := .none
  kind := .countDistinctInt
  kind_eq := rfl

def oneDistinct : WorkerResult [distinctSpec] where
  compactMap := [(7, 0)]
  compactStorage := ⟨List.replicate 16 0, .new [distinctSpec], []⟩
  cdSidecar := ⟨[⟨0, .int, 0, [{5}], [], []⟩]⟩
  segmentsProcessed := 1
  rowsProcessed := 1
  decompressUs := 0
  topk := none
  condStore := []
  layout_eq := rfl
  buf_length := by decide
  nodup_keys := by decide

theorem partial_roundTrip_oneDistinct :
    serializePartialInto 0 100 oneDistinct.toParallelCompactResult [distinctSpec] (fun _ => 0) =
        .error (.overflow 160 100) ∧
      ∃ m', serializePartialInto 0 200 oneDistinct.toParallelCompactResult [distinctSpec]
          (fun _ => 0) = .ok (160, m') ∧
        deserializePartial 0 200 [distinctSpec] m' =
          .ok (received oneDistinct.toParallelCompactResult [distinctSpec]) := by
  have hsize : encodedSize oneDistinct.toParallelCompactResult [distinctSpec] = 160 := by decide
  have hsmall := (partial_roundTrip [distinctSpec]).2 oneDistinct 0 100 (fun _ => 0)
    (by rw [hsize]; decide)
  have hroom := (partial_roundTrip [distinctSpec]).2 oneDistinct 0 200 (fun _ => 0)
    (by rw [hsize]; decide)
  rw [hsize] at hsmall hroom
  rw [if_pos (by decide)] at hsmall
  rw [if_neg (by decide)] at hroom
  obtain ⟨m', hwrite, -, hread⟩ := hroom
  exact ⟨hsmall, m', hwrite, hread 200 (by decide)⟩

theorem cdSidecar_of_deserialize {slab len : ℕ} {specs : List AccSpec} {m : Mem}
    {back : ParallelCompactResult} (h : deserializePartial slab len specs m = .ok back) :
    back.cdSidecar = .new specs := by
  unfold deserializePartial at h
  dsimp only at h
  split_ifs at h <;> rw [← Except.ok.inj h]

/-- The slab takes the result, and whatever is read from it has no value for the group. -/
theorem distinct_values_lost :
    ∃ n m', serializePartialInto 0 200 oneDistinct.toParallelCompactResult [distinctSpec]
        (fun _ => 0) = .ok (n, m') ∧
      ∀ len back, deserializePartial 0 len [distinctSpec] m' = .ok back →
        back.cdSidecar ≠ oneDistinct.cdSidecar := by
  have hwrite : serializePartialInto 0 200 oneDistinct.toParallelCompactResult [distinctSpec]
      (fun _ => 0) = .ok (160, writePartial 0 oneDistinct.toParallelCompactResult [distinctSpec]
        (layoutPartial oneDistinct.toParallelCompactResult [distinctSpec]) fun _ => 0) := rfl
  refine ⟨_, _, hwrite, ?_⟩
  intro len back hback
  rw [cdSidecar_of_deserialize hback]
  decide

end DeltaX.Agg.PartialWire
