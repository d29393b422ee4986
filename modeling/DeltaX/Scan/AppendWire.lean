import DeltaX.Column.Typed
import DeltaX.Support.ListLookup
import DeltaX.Support.Memory
import DeltaX.Support.Utf8
import Mathlib.Algebra.Order.BigOperators.Group.List
/-!
# The append-scan wire

The leader of a parallel append scan writes its columns and segments into one region of
shared memory; a worker decodes them from there.  `layout` computes the offsets from the
sizes, `serialize_into` writes at these offsets.
-/

namespace DeltaX.Scan.AppendWire

open Column (Text)
open Support.ListLookup Support.Memory Support.LittleEndian Support.Utf8

def wireMagic : ℕ := 0x44584157

def wireVersion : ℕ := 1

def u32 (n : ℕ) : ℕ := n % 2 ^ 32

/-- `s.len()`. -/
def byteLen (s : Text) : ℕ := (utf8Bytes s).length

structure WireColumn where
  name : Text
  typoid : BitVec 32
  typmod : BitVec 32
deriving DecidableEq, Repr

/-- A segment as the wire carries it.  Its blobs stay in the `_blobs` table of the companion,
under the segment's id. -/
structure SegmentBorrow where
  companionOid : BitVec 32
  segmentId : BitVec 32
  rowCount : BitVec 32
  minTime : Option (BitVec 64)
  maxTime : Option (BitVec 64)
  segmentValues : List (Option Text)
deriving DecidableEq, Repr

structure WireInput where
  columns : List WireColumn
  segmentBy : List Text
  orderBy : List Text
  timeColumn : Text
  companionOids : List (BitVec 32)
  segments : List SegmentBorrow

def WireInput.colNames (input : WireInput) : List Text := input.columns.map WireColumn.name

/-! ## The layout -/

structure WireLayout where
  colInfoOff : ℕ
  segByIndicesOff : ℕ
  orderByIndicesOff : ℕ
  companionOidsOff : ℕ
  headerArenaOff : ℕ
  headerArenaLen : ℕ
  segmentsOff : ℕ
  segArenaOff : ℕ
  segArenaLen : ℕ
  totalSize : ℕ
deriving DecidableEq, Repr

/-- `round_up`, for an alignment that is a power of two. -/
def roundUp (n align : ℕ) : ℕ :=
  let m := u32 (n + align - 1)
  m - m % align

def encodeSegmentValuesLen (values : List (Option Text)) : ℕ :=
  values.foldl (fun total v =>
    match v with
    | some s => u32 (u32 (total + 5) + u32 (byteLen s))
    | none => u32 (total + 5)) 2

def u32Sum (ns : List ℕ) : ℕ := ns.foldl (fun acc n => u32 (acc + u32 n)) 0

def layout (input : WireInput) : WireLayout :=
  let headerSize := 76
  let colInfoOff := headerSize
  let segByIndicesOff := u32 (colInfoOff + u32 (input.columns.length * 16))
  let orderByIndicesOff := u32 (segByIndicesOff + u32 (input.segmentBy.length * 4))
  let companionOidsOff := u32 (orderByIndicesOff + u32 (input.orderBy.length * 4))
  let headerArenaOff := u32 (companionOidsOff + u32 (input.companionOids.length * 4))
  let headerArenaLen := u32Sum (input.colNames.map byteLen)
  let segmentsOff := roundUp (u32 (headerArenaOff + headerArenaLen)) 8
  let segArenaOff := u32 (segmentsOff + u32 (input.segments.length * 64))
  let segArenaLen := u32Sum (input.segments.map fun s => encodeSegmentValuesLen s.segmentValues)
  { colInfoOff, segByIndicesOff, orderByIndicesOff, companionOidsOff, headerArenaOff,
    headerArenaLen, segmentsOff, segArenaOff, segArenaLen,
    totalSize := u32 (segArenaOff + segArenaLen) }

/-! ## Writing -/

/-- `DeltaXAppendMeta`: nineteen `u32`. -/
structure Meta where
  magic : ℕ
  version : ℕ
  numColumns : ℕ
  numSegBy : ℕ
  numOrderBy : ℕ
  numCompanions : ℕ
  numSegments : ℕ
  timeColIdx : ℕ
  colInfoOff : ℕ
  segByIndicesOff : ℕ
  orderByIndicesOff : ℕ
  companionOidsOff : ℕ
  headerArenaOff : ℕ
  headerArenaLen : ℕ
  segmentsOff : ℕ
  segArenaOff : ℕ
  segArenaLen : ℕ
  flags : ℕ
  totalSize : ℕ

def Meta.words (h : Meta) : List ℕ :=
  [h.magic, h.version, h.numColumns, h.numSegBy, h.numOrderBy, h.numCompanions, h.numSegments,
    h.timeColIdx, h.colInfoOff, h.segByIndicesOff, h.orderByIndicesOff, h.companionOidsOff,
    h.headerArenaOff, h.headerArenaLen, h.segmentsOff, h.segArenaOff, h.segArenaLen, h.flags,
    h.totalSize]

/-- `col_names.iter().position(|c| c == name)`. -/
def position (names : List Text) (name : Text) : Option ℕ := names.findIdx? (· == name)

def metaOf (input : WireInput) (l : WireLayout) : Meta where
  magic := wireMagic
  version := wireVersion
  numColumns := input.columns.length
  numSegBy := input.segmentBy.length
  numOrderBy := input.orderBy.length
  numCompanions := input.companionOids.length
  numSegments := input.segments.length
  timeColIdx := (position input.colNames input.timeColumn).getD (2 ^ 32 - 1)
  colInfoOff := l.colInfoOff
  segByIndicesOff := l.segByIndicesOff
  orderByIndicesOff := l.orderByIndicesOff
  companionOidsOff := l.companionOidsOff
  headerArenaOff := l.headerArenaOff
  headerArenaLen := l.headerArenaLen
  segmentsOff := l.segmentsOff
  segArenaOff := l.segArenaOff
  segArenaLen := l.segArenaLen
  flags := 0
  totalSize := l.totalSize

/-- `ColInfo`, for a name at the cursor of the header arena. -/
def colInfo (l : WireLayout) (c : WireColumn) (cursor : ℕ) : List UInt8 :=
  toLe 4 c.typoid.toNat ++ (toLe 4 c.typmod.toNat ++
    (toLe 4 (l.headerArenaOff + cursor) ++ toLe 4 (byteLen c.name)))

/-- One value: whether it is null, its length, its bytes. -/
def encodeValue : Option Text → List UInt8
  | some s => [0] ++ (toLe 4 (byteLen s) ++ utf8Bytes s)
  | none => [1] ++ toLe 4 0

/-- The bytes written at `wp`: the count, cut to a `u16`, and the values. -/
def encodeValues (values : List (Option Text)) : List UInt8 :=
  toLe 2 values.length ++ values.flatMap encodeValue

def flag (present : Bool) : UInt8 := if present then 1 else 0

/-- `SegmentEntry`, for values at the cursor of the segment arena: the record's fields, the
reserved offsets and the padding. -/
def segmentEntry (l : WireLayout) (s : SegmentBorrow) (cursor : ℕ) : List UInt8 :=
  toLe 4 s.companionOid.toNat ++ (toLe 4 s.segmentId.toNat ++ (toLe 4 s.rowCount.toNat ++
    ([flag s.minTime.isSome] ++ ([flag s.maxTime.isSome] ++ ([0, 0] ++
    (toLe 8 (s.minTime.getD 0).toNat ++ (toLe 8 (s.maxTime.getD 0).toNat ++
    (toLe 4 (l.segArenaOff + cursor) ++ (toLe 4 (encodeSegmentValuesLen s.segmentValues) ++
    List.replicate 24 0)))))))))

def writeNameIndices (out : ℕ) (names colNames : List Text) (m : Mem) : Mem :=
  writeWords 4 out (names.map fun name => (position colNames name).getD 0) m

def headerStage (base : ℕ) (input : WireInput) (l : WireLayout) (m : Mem) : Mem :=
  writeWords 4 base (metaOf input l).words (write base (List.replicate l.totalSize 0) m)

/-- `ColInfo[]` and the header arena. -/
def columnStage (base : ℕ) (input : WireInput) (l : WireLayout) (m : Mem) : Mem :=
  (input.columns.foldl (writeRow (2 ^ 32) 16 (base + l.colInfoOff) (base + l.headerArenaOff)
    (colInfo l) (fun c => utf8Bytes c.name) fun c => u32 (byteLen c.name)) (m, 0, 0)).1

def segmentStage (base : ℕ) (input : WireInput) (l : WireLayout) (m : Mem) : Mem :=
  (input.segments.foldl (writeRow (2 ^ 32) 64 (base + l.segmentsOff) (base + l.segArenaOff)
    (segmentEntry l) (fun s => encodeValues s.segmentValues)
    fun s => encodeSegmentValuesLen s.segmentValues) (m, 0, 0)).1

def serializeInto (base : ℕ) (input : WireInput) (l : WireLayout) (m : Mem) : Mem :=
  let m := headerStage base input l m
  let m := columnStage base input l m
  let m := writeNameIndices (base + l.segByIndicesOff) input.segmentBy input.colNames m
  let m := writeNameIndices (base + l.orderByIndicesOff) input.orderBy input.colNames m
  let m := writeWords 4 (base + l.companionOidsOff) (input.companionOids.map BitVec.toNat) m
  segmentStage base input l m

/-! ## Reading -/

def u32At (m : Mem) (a : ℕ) : ℕ := ofLe (read m a 4)

def u64At (m : Mem) (a : ℕ) : ℕ := ofLe (read m a 8)

def readMeta (m : Mem) (base : ℕ) : Meta :=
  let word := fun k => u32At m (base + 4 * k)
  { magic := word 0, version := word 1, numColumns := word 2, numSegBy := word 3,
    numOrderBy := word 4, numCompanions := word 5, numSegments := word 6, timeColIdx := word 7,
    colInfoOff := word 8, segByIndicesOff := word 9, orderByIndicesOff := word 10,
    companionOidsOff := word 11, headerArenaOff := word 12, headerArenaLen := word 13,
    segmentsOff := word 14, segArenaOff := word 15, segArenaLen := word 16, flags := word 17,
    totalSize := word 18 }

/-- `DeltaXAppendView::attach`. -/
def attach (m : Mem) (base : ℕ) : Option ℕ :=
  let hdr := readMeta m base
  if hdr.magic ≠ wireMagic ∨ hdr.version ≠ wireVersion then none else some base

structure HeaderBorrow where
  columns : List WireColumn
  segmentBy : List Text
  orderBy : List Text
  timeColumn : Text
  companionOids : List (BitVec 32)
  numSegments : ℕ
deriving DecidableEq, Repr

def decodeColumn (m : Mem) (base : ℕ) (hdr : Meta) (i : ℕ) : Option WireColumn :=
  let ci := base + hdr.colInfoOff + 16 * i
  (fromUtf8 (read m (base + u32At m (ci + 8)) (u32At m (ci + 12)))).map fun name =>
    { name, typoid := BitVec.ofNat 32 (u32At m ci), typmod := BitVec.ofNat 32 (u32At m (ci + 4)) }

def decodeNames (m : Mem) (off n : ℕ) (colNames : List Text) : Option (List Text) :=
  (List.range n).mapM fun k => colNames[u32At m (off + 4 * k)]?

def decodeOids (m : Mem) (off n : ℕ) : List (BitVec 32) :=
  (List.range n).map fun k => BitVec.ofNat 32 (u32At m (off + 4 * k))

def decodeTimeColumn (hdr : Meta) (colNames : List Text) : Option Text :=
  if hdr.timeColIdx = 2 ^ 32 - 1 then some [] else colNames[hdr.timeColIdx]?

/-- The decoded header; nothing where the code indexes out of bounds or takes bytes that are
not UTF-8 for a string. -/
def decodeHeader (m : Mem) (base : ℕ) : Option HeaderBorrow := do
  let hdr := readMeta m base
  let columns ← (List.range hdr.numColumns).mapM (decodeColumn m base hdr)
  let colNames := columns.map WireColumn.name
  let segmentBy ← decodeNames m (base + hdr.segByIndicesOff) hdr.numSegBy colNames
  let orderBy ← decodeNames m (base + hdr.orderByIndicesOff) hdr.numOrderBy colNames
  let timeColumn ← decodeTimeColumn hdr colNames
  let companionOids := decodeOids m (base + hdr.companionOidsOff) hdr.numCompanions
  return { columns, segmentBy, orderBy, timeColumn, companionOids, numSegments := hdr.numSegments }

/-- The loop of `decode_segment` over the values, at `rp`. -/
def decodeValues (m : Mem) : ℕ → ℕ → Option (List (Option Text))
  | 0, _ => some []
  | count + 1, rp =>
    let len := u32At m (rp + 1)
    if m rp ≠ 0 then (decodeValues m count (rp + 5)).map (none :: ·)
    else do
      let s ← fromUtf8 (read m (rp + 5) len)
      let rest ← decodeValues m count (rp + 5 + len)
      return some s :: rest

def decodeSegmentValues (m : Mem) (off len : ℕ) : Option (List (Option Text)) :=
  if 0 < len then decodeValues m (ofLe (read m off 2)) (off + 2) else some []

def decodeSegment (m : Mem) (base idx : ℕ) : Option SegmentBorrow := do
  let hdr := readMeta m base
  let se := base + hdr.segmentsOff + 64 * idx
  let segmentValues ← decodeSegmentValues m (base + u32At m (se + 32)) (u32At m (se + 36))
  return {
    companionOid := BitVec.ofNat 32 (u32At m se)
    segmentId := BitVec.ofNat 32 (u32At m (se + 4))
    rowCount := BitVec.ofNat 32 (u32At m (se + 8))
    minTime := if m (se + 12) ≠ 0 then some (BitVec.ofNat 64 (u64At m (se + 16))) else none
    maxTime := if m (se + 13) ≠ 0 then some (BitVec.ofNat 64 (u64At m (se + 24))) else none
    segmentValues }

/-! ## Sizes -/

def valuesSize (values : List (Option Text)) : ℕ :=
  2 + (values.map fun v => 5 + v.elim 0 byteLen).sum

def namesSize (input : WireInput) : ℕ := (input.colNames.map byteLen).sum

def arenaSize (input : WireInput) : ℕ :=
  (input.segments.map fun s => valuesSize s.segmentValues).sum

/-- The bytes of the whole region, as a number without a limit. -/
def wireSize (input : WireInput) : ℕ :=
  (76 + 16 * input.columns.length + 4 * input.segmentBy.length + 4 * input.orderBy.length
    + 4 * input.companionOids.length + namesSize input + 7) / 8 * 8
    + 64 * input.segments.length + arenaSize input

theorem u32_of_lt {n : ℕ} (h : n < 2 ^ 32) : u32 n = n := Nat.mod_eq_of_lt h

theorem encodeSegmentValuesLen_eq {values : List (Option Text)} (h : valuesSize values < 2 ^ 32) :
    encodeSegmentValuesLen values = valuesSize values := by
  suffices hfold : ∀ (values : List (Option Text)) (total : ℕ),
      total + (values.map fun v => 5 + v.elim 0 byteLen).sum < 2 ^ 32 →
      values.foldl (fun total v =>
        match v with
        | some s => u32 (u32 (total + 5) + u32 (byteLen s))
        | none => u32 (total + 5)) total
      = total + (values.map fun v => 5 + v.elim 0 byteLen).sum from hfold values 2 h
  intro values
  induction values with
  | nil => intro total _; rfl
  | cons v values ih =>
      intro total hlt
      rw [List.map_cons, List.sum_cons] at hlt ⊢
      rw [List.foldl_cons]
      cases v with
      | none =>
          have hstep : u32 (total + 5) = total + 5 := u32_of_lt (by omega)
          show List.foldl _ (u32 (total + 5)) values = total + (5 + 0 + _)
          rw [Option.elim_none] at hlt
          rw [hstep, ih (total + 5) (by omega)]
          omega
      | some s =>
          rw [Option.elim_some] at hlt ⊢
          have hstep : u32 (u32 (total + 5) + u32 (byteLen s)) = total + 5 + byteLen s := by
            rw [u32_of_lt (n := total + 5) (by omega), u32_of_lt (n := byteLen s) (by omega),
              u32_of_lt (by omega)]
          show List.foldl _ (u32 (u32 (total + 5) + u32 (byteLen s))) values = _
          rw [hstep, ih (total + 5 + byteLen s) (by omega)]
          omega

theorem u32Sum_eq {ns : List ℕ} (h : ns.sum < 2 ^ 32) : u32Sum ns = ns.sum := by
  suffices hfold : ∀ (ns : List ℕ) (acc : ℕ), acc + ns.sum < 2 ^ 32 →
      ns.foldl (fun acc n => u32 (acc + u32 n)) acc = acc + ns.sum by
    rw [u32Sum, hfold ns 0 (by omega), Nat.zero_add]
  intro ns
  induction ns with
  | nil => intro acc _; rfl
  | cons n ns ih =>
      intro acc hlt
      rw [List.sum_cons] at hlt ⊢
      rw [List.foldl_cons, u32_of_lt (n := n) (by omega), u32_of_lt (by omega), ih _ (by omega)]
      omega

theorem valuesSize_le_arenaSize {input : WireInput} {s : SegmentBorrow} (hs : s ∈ input.segments) :
    valuesSize s.segmentValues ≤ arenaSize input :=
  List.single_le_sum (fun _ _ => Nat.zero_le _) _
    (List.mem_map_of_mem (f := fun s : SegmentBorrow => valuesSize s.segmentValues) hs)

theorem byteLen_le_namesSize {input : WireInput} {c : WireColumn} (hc : c ∈ input.columns) :
    byteLen c.name ≤ namesSize input :=
  List.single_le_sum (fun _ _ => Nat.zero_le _) _
    (List.mem_map_of_mem (List.mem_map_of_mem hc))

/-- What the layout gives below the limit: the regions one behind the other. -/
structure Laid (input : WireInput) (l : WireLayout) : Prop where
  colInfoOff : l.colInfoOff = 76
  segByIndicesOff : l.segByIndicesOff = l.colInfoOff + 16 * input.columns.length
  orderByIndicesOff : l.orderByIndicesOff = l.segByIndicesOff + 4 * input.segmentBy.length
  companionOidsOff : l.companionOidsOff = l.orderByIndicesOff + 4 * input.orderBy.length
  headerArenaOff : l.headerArenaOff = l.companionOidsOff + 4 * input.companionOids.length
  headerArenaLen : l.headerArenaLen = namesSize input
  segmentsOff : l.headerArenaOff + l.headerArenaLen ≤ l.segmentsOff
  aligned : l.segmentsOff % 8 = 0
  segArenaOff : l.segArenaOff = l.segmentsOff + 64 * input.segments.length
  segArenaLen : l.segArenaLen = arenaSize input
  totalSize : l.totalSize = l.segArenaOff + l.segArenaLen
  limit : l.totalSize < 2 ^ 32

theorem roundUp_eight {n : ℕ} (h : n + 7 < 2 ^ 32) : roundUp n 8 = (n + 7) / 8 * 8 := by
  rw [roundUp, show n + 8 - 1 = n + 7 from rfl, u32_of_lt h]
  show n + 7 - (n + 7) % 8 = (n + 7) / 8 * 8
  omega

theorem u32_place (off count size : ℕ) (h : off + size * count < 2 ^ 32) :
    u32 (off + u32 (count * size)) = off + size * count := by
  rw [Nat.mul_comm count size, u32_of_lt (n := size * count) (by omega), u32_of_lt h]

theorem layout_laid {input : WireInput} (h : wireSize input < 2 ^ 32) : Laid input (layout input) := by
  unfold wireSize at h
  have hnames : u32Sum (input.colNames.map byteLen) = namesSize input :=
    u32Sum_eq (show namesSize input < 2 ^ 32 by omega)
  have hsegs : input.segments.map (fun s => encodeSegmentValuesLen s.segmentValues) =
      input.segments.map fun s => valuesSize s.segmentValues := by
    apply List.map_congr_left
    intro s hs
    have hle := valuesSize_le_arenaSize hs
    exact encodeSegmentValuesLen_eq (by omega)
  have harena : u32Sum (input.segments.map fun s => encodeSegmentValuesLen s.segmentValues) =
      arenaSize input := by
    rw [hsegs]
    exact u32Sum_eq (show arenaSize input < 2 ^ 32 by omega)
  have hseg := u32_place 76 input.columns.length 16 (by omega)
  have hord := u32_place (76 + 16 * input.columns.length) input.segmentBy.length 4 (by omega)
  have hcomp := u32_place (76 + 16 * input.columns.length + 4 * input.segmentBy.length)
    input.orderBy.length 4 (by omega)
  have hhead := u32_place
    (76 + 16 * input.columns.length + 4 * input.segmentBy.length + 4 * input.orderBy.length)
    input.companionOids.length 4 (by omega)
  unfold layout
  simp only [hseg, hord, hcomp, hhead, hnames, harena]
  generalize hoff : 76 + 16 * input.columns.length + 4 * input.segmentBy.length +
    4 * input.orderBy.length + 4 * input.companionOids.length = off at h ⊢
  rw [u32_of_lt (n := off + namesSize input) (by omega), roundUp_eight (by omega)]
  generalize hsegments : (off + namesSize input + 7) / 8 * 8 = segs at h ⊢
  rw [u32_place _ _ 64 (by omega), u32_of_lt (by omega)]
  constructor <;> dsimp only <;> omega

def regions (input : WireInput) (l : WireLayout) : List (ℕ × ℕ) :=
  [(0, 76), (l.colInfoOff, 16 * input.columns.length),
    (l.segByIndicesOff, 4 * input.segmentBy.length),
    (l.orderByIndicesOff, 4 * input.orderBy.length),
    (l.companionOidsOff, 4 * input.companionOids.length), (l.headerArenaOff, l.headerArenaLen),
    (l.segmentsOff, 64 * input.segments.length), (l.segArenaOff, l.segArenaLen)]

theorem Laid.regions_disjoint {input : WireInput} {l : WireLayout} (h : Laid input l) :
    (regions input l).Pairwise fun r r' => r.1 + r.2 ≤ r'.1 := by
  obtain ⟨hcol, hseg, hord, hcomp, harena, -, hsegs, -, hvalues, -, -, -⟩ := h
  simp only [regions, List.pairwise_cons, List.mem_cons, List.not_mem_nil, or_false, forall_eq_or_imp,
    forall_eq, false_imp_iff, implies_true, List.Pairwise.nil, and_true]
  omega

theorem Laid.regions_fit {input : WireInput} {l : WireLayout} (h : Laid input l) :
    ∀ r ∈ regions input l, r.1 + r.2 ≤ l.totalSize := by
  obtain ⟨hcol, hseg, hord, hcomp, harena, -, hsegs, -, hvalues, -, htotal, -⟩ := h
  simp only [regions, List.mem_cons, List.not_mem_nil, or_false, forall_eq_or_imp, forall_eq]
  omega

/-! ## What the stages write -/

theorem length_colInfo (l : WireLayout) (c : WireColumn) (cursor : ℕ) :
    (colInfo l c cursor).length = 16 := by
  simp [colInfo]

theorem length_segmentEntry (l : WireLayout) (s : SegmentBorrow) (cursor : ℕ) :
    (segmentEntry l s cursor).length = 64 := by
  simp [segmentEntry]

theorem length_encodeValue (v : Option Text) : (encodeValue v).length = 5 + v.elim 0 byteLen := by
  cases v with
  | none => rfl
  | some s =>
      rw [encodeValue, List.length_append, List.length_append, length_toLe, Option.elim_some, byteLen,
        List.length_singleton]
      omega

theorem length_encodeValues (values : List (Option Text)) :
    (encodeValues values).length = valuesSize values := by
  rw [encodeValues, List.length_append, length_toLe, List.length_flatMap, valuesSize,
    List.map_congr_left fun v _ => length_encodeValue v]

theorem length_words (h : Meta) : h.words.length = 19 := rfl

variable {base : ℕ} {input : WireInput} {l : WireLayout} {m : Mem}

theorem headerStage_eq (base : ℕ) (input : WireInput) (l : WireLayout) (m : Mem) :
    headerStage base input l m = write base ((metaOf input l).words.flatMap (toLe 4))
      (write base (List.replicate l.totalSize 0) m) :=
  writeWords_eq 4 base _ _

theorem writeNameIndices_eq (out : ℕ) (names colNames : List Text) (m : Mem) :
    writeNameIndices out names colNames m =
      write out ((names.map fun name => (position colNames name).getD 0).flatMap (toLe 4)) m :=
  writeWords_eq 4 out _ m

theorem Laid.byteLen_lt (h : Laid input l) {c : WireColumn} (hc : c ∈ input.columns) :
    byteLen c.name < 2 ^ 32 := by
  have hle := byteLen_le_namesSize hc
  have hlen := h.headerArenaLen
  have hlimit := h.limit
  have htotal := h.totalSize
  have harena := h.segArenaOff
  have hsegs := h.segmentsOff
  omega

/-- The names fill the header arena. -/
theorem Laid.column_sizes (h : Laid input l) :
    (input.columns.map fun c => u32 (byteLen c.name)).sum = l.headerArenaLen := by
  have hmap : (input.columns.map fun c => u32 (byteLen c.name)) = input.colNames.map byteLen := by
    rw [WireInput.colNames, List.map_map]
    apply List.map_congr_left
    intro c hc
    exact u32_of_lt (h.byteLen_lt hc)
  rw [hmap, h.headerArenaLen, namesSize]

theorem Laid.encodeSegmentValuesLen_eq (h : Laid input l) {s : SegmentBorrow}
    (hs : s ∈ input.segments) :
    encodeSegmentValuesLen s.segmentValues = valuesSize s.segmentValues ∧
      valuesSize s.segmentValues < 2 ^ 32 := by
  have hle := valuesSize_le_arenaSize hs
  have hlen := h.segArenaLen
  have hlimit := h.limit
  have htotal := h.totalSize
  have hlt : valuesSize s.segmentValues < 2 ^ 32 := by omega
  exact ⟨AppendWire.encodeSegmentValuesLen_eq hlt, hlt⟩

theorem Laid.segment_sizes (h : Laid input l) :
    (input.segments.map fun s => encodeSegmentValuesLen s.segmentValues).sum = l.segArenaLen := by
  rw [h.segArenaLen, arenaSize]
  apply congrArg List.sum
  apply List.map_congr_left
  intro s hs
  exact (h.encodeSegmentValuesLen_eq hs).1

theorem columnStage_filled (base : ℕ) (h : Laid input l) (m : Mem) :
    Filled 16 (base + l.colInfoOff) (base + l.headerArenaOff) (colInfo l)
      (fun c => utf8Bytes c.name) (fun c => u32 (byteLen c.name)) m input.columns
      (input.columns.foldl (writeRow (2 ^ 32) 16 (base + l.colInfoOff) (base + l.headerArenaOff)
        (colInfo l) (fun c => utf8Bytes c.name) fun c => u32 (byteLen c.name)) (m, 0, 0)) := by
  have hsizes := h.column_sizes
  have hlen : ∀ c ∈ input.columns, u32 (byteLen c.name) = (utf8Bytes c.name).length :=
    fun c hc => u32_of_lt (h.byteLen_lt hc)
  obtain ⟨hcol, hseg, hord, hcomp, harena, -, hsegs, -, hvalues, -, htotal, hlimit⟩ := h
  exact filled_foldl m input.columns (length_colInfo l) hlen (by omega) (by omega)

theorem segmentStage_filled (h : Laid input l) (m : Mem) :
    Filled 64 (base + l.segmentsOff) (base + l.segArenaOff) (segmentEntry l)
      (fun s => encodeValues s.segmentValues) (fun s => encodeSegmentValuesLen s.segmentValues) m
      input.segments
      (input.segments.foldl (writeRow (2 ^ 32) 64 (base + l.segmentsOff) (base + l.segArenaOff)
        (segmentEntry l) (fun s => encodeValues s.segmentValues)
        fun s => encodeSegmentValuesLen s.segmentValues) (m, 0, 0)) := by
  have hsizes := h.segment_sizes
  have hlen : ∀ s ∈ input.segments,
      encodeSegmentValuesLen s.segmentValues = (encodeValues s.segmentValues).length := by
    intro s hs
    rw [length_encodeValues, (h.encodeSegmentValuesLen_eq hs).1]
  obtain ⟨-, -, -, -, -, -, -, -, hvalues, -, htotal, hlimit⟩ := h
  exact filled_foldl m input.segments (length_segmentEntry l) hlen (by omega) (by omega)

/-! ### Each stage leaves the other regions alone -/

theorem columnStage_frame (h : Laid input l) {a : ℕ}
    (hcols : a < base + l.colInfoOff ∨ base + l.segByIndicesOff ≤ a)
    (hnames : a < base + l.headerArenaOff ∨ base + l.segmentsOff ≤ a) :
    columnStage base input l m a = m a := by
  have hsizes := h.column_sizes
  have hseg := h.segByIndicesOff
  have hsegs := h.segmentsOff
  exact (columnStage_filled base h m).frame a (by omega) (by omega)

theorem segmentStage_frame (h : Laid input l) {a : ℕ}
    (ha : a < base + l.segmentsOff ∨ base + l.totalSize ≤ a) :
    segmentStage base input l m a = m a := by
  have hsizes := h.segment_sizes
  have hvalues := h.segArenaOff
  have htotal := h.totalSize
  exact (segmentStage_filled h m).frame a (by omega) (by omega)

theorem writeNameIndices_frame (out : ℕ) (names colNames : List Text) {a : ℕ}
    (ha : a < out ∨ out + 4 * names.length ≤ a) : writeNameIndices out names colNames m a = m a := by
  rw [writeNameIndices_eq]
  apply write_frame
  rwa [length_flatMap_toLe, List.length_map]

theorem writeOids_frame (off : ℕ) (oids : List (BitVec 32)) {a : ℕ}
    (ha : a < off ∨ off + 4 * oids.length ≤ a) :
    writeWords 4 off (oids.map BitVec.toNat) m a = m a := by
  rw [writeWords_eq]
  apply write_frame
  rwa [length_flatMap_toLe, List.length_map]

/-- Nothing outside the region is written. -/
theorem serializeInto_frame (h : Laid input l) {a : ℕ}
    (ha : a < base ∨ base + l.totalSize ≤ a) : serializeInto base input l m a = m a := by
  have hlen : ((metaOf input l).words.flatMap (toLe 4)).length = 76 := by
    rw [length_flatMap_toLe, length_words]
  have hzero : (List.replicate l.totalSize (0 : UInt8)).length = l.totalSize :=
    List.length_replicate
  have hwrites := h
  obtain ⟨hcol, hseg, hord, hcomp, harena, -, hsegs, -, hvalues, -, htotal, -⟩ := hwrites
  unfold serializeInto
  rw [segmentStage_frame h (by omega), writeOids_frame _ _ (by omega),
    writeNameIndices_frame _ _ _ (by omega), writeNameIndices_frame _ _ _ (by omega),
    columnStage_frame h (by omega) (by omega), headerStage_eq, write_frame _ (by omega),
    write_frame _ (by omega)]

/-! ### What the region holds -/

theorem serializeInto_header (h : Laid input l) (m : Mem) :
    Holds (serializeInto base input l m) base ((metaOf input l).words.flatMap (toLe 4)) := by
  have hlen : ((metaOf input l).words.flatMap (toLe 4)).length = 76 := by
    rw [length_flatMap_toLe, length_words]
  have hheader : Holds (headerStage base input l m) base
      ((metaOf input l).words.flatMap (toLe 4)) := by
    rw [headerStage_eq]
    exact holds_write _ _ _
  apply hheader.frame
  intro a hlo hhi
  have hwrites := h
  obtain ⟨hcol, hseg, hord, hcomp, harena, -, hsegs, -, -, -, -, -⟩ := hwrites
  unfold serializeInto
  rw [segmentStage_frame h (by omega), writeOids_frame _ _ (by omega),
    writeNameIndices_frame _ _ _ (by omega), writeNameIndices_frame _ _ _ (by omega),
    columnStage_frame h (by omega) (by omega)]

/-- Where the name of a column begins in the header arena. -/
def nameCursor (input : WireInput) (i : ℕ) : ℕ :=
  cursorAt (fun c : WireColumn => u32 (byteLen c.name)) input.columns i

theorem nameCursor_le (h : Laid input l) {i : ℕ} {c : WireColumn} (hc : input.columns[i]? = some c) :
    nameCursor input i + byteLen c.name ≤ l.headerArenaLen := by
  have hend := cursorAt_add_le_total (fun c : WireColumn => u32 (byteLen c.name)) hc
  rwa [h.column_sizes, u32_of_lt (h.byteLen_lt (List.mem_of_getElem? hc))] at hend

theorem serializeInto_column (base : ℕ) (h : Laid input l) (m : Mem) {i : ℕ} {c : WireColumn}
    (hc : input.columns[i]? = some c) :
    Holds (serializeInto base input l m) (base + l.colInfoOff + 16 * i)
        (colInfo l c (nameCursor input i)) ∧
      Holds (serializeInto base input l m) (base + l.headerArenaOff + nameCursor input i)
        (utf8Bytes c.name) := by
  have hrows := (columnStage_filled base h (headerStage base input l m)).rows i c hc
  have hend := nameCursor_le h hc
  have hi : i < input.columns.length := (List.getElem?_eq_some_iff.mp hc).1
  have hwrites := h
  obtain ⟨hcol, hseg, hord, hcomp, harena, -, hsegs, -, -, -, -, -⟩ := hwrites
  constructor
  · apply hrows.1.frame
    intro a hlo hhi
    rw [length_colInfo] at hhi
    unfold serializeInto
    rw [segmentStage_frame h (by omega), writeOids_frame _ _ (by omega),
      writeNameIndices_frame _ _ _ (by omega), writeNameIndices_frame _ _ _ (by omega)]
    rfl
  · apply hrows.2.frame
    intro a hlo hhi
    have hname : (utf8Bytes c.name).length = byteLen c.name := rfl
    change base + l.headerArenaOff + nameCursor input i ≤ a at hlo
    change a < base + l.headerArenaOff + nameCursor input i + _ at hhi
    unfold serializeInto
    rw [segmentStage_frame h (by omega), writeOids_frame _ _ (by omega),
      writeNameIndices_frame _ _ _ (by omega), writeNameIndices_frame _ _ _ (by omega)]
    rfl

theorem serializeInto_segmentBy (base : ℕ) (h : Laid input l) (m : Mem) :
    Holds (serializeInto base input l m) (base + l.segByIndicesOff)
      ((input.segmentBy.map fun name => (position input.colNames name).getD 0).flatMap (toLe 4)) := by
  have hwritten := holds_write (base + l.segByIndicesOff)
    ((input.segmentBy.map fun name => (position input.colNames name).getD 0).flatMap (toLe 4))
    (columnStage base input l (headerStage base input l m))
  rw [← writeNameIndices_eq] at hwritten
  apply hwritten.frame
  intro a hlo hhi
  rw [length_flatMap_toLe, List.length_map] at hhi
  have hwrites := h
  obtain ⟨hcol, hseg, hord, hcomp, harena, -, hsegs, -, -, -, -, -⟩ := hwrites
  unfold serializeInto
  rw [segmentStage_frame h (by omega), writeOids_frame _ _ (by omega),
    writeNameIndices_frame _ _ _ (by omega)]

theorem serializeInto_orderBy (base : ℕ) (h : Laid input l) (m : Mem) :
    Holds (serializeInto base input l m) (base + l.orderByIndicesOff)
      ((input.orderBy.map fun name => (position input.colNames name).getD 0).flatMap (toLe 4)) := by
  have hwritten := holds_write (base + l.orderByIndicesOff)
    ((input.orderBy.map fun name => (position input.colNames name).getD 0).flatMap (toLe 4))
    (writeNameIndices (base + l.segByIndicesOff) input.segmentBy input.colNames
      (columnStage base input l (headerStage base input l m)))
  rw [← writeNameIndices_eq] at hwritten
  apply hwritten.frame
  intro a hlo hhi
  rw [length_flatMap_toLe, List.length_map] at hhi
  have hwrites := h
  obtain ⟨hcol, hseg, hord, hcomp, harena, -, hsegs, -, -, -, -, -⟩ := hwrites
  unfold serializeInto
  rw [segmentStage_frame h (by omega), writeOids_frame _ _ (by omega)]

theorem serializeInto_companions (base : ℕ) (h : Laid input l) (m : Mem) :
    Holds (serializeInto base input l m) (base + l.companionOidsOff)
      ((input.companionOids.map BitVec.toNat).flatMap (toLe 4)) := by
  have hwritten := holds_write (base + l.companionOidsOff)
    ((input.companionOids.map BitVec.toNat).flatMap (toLe 4))
    (writeNameIndices (base + l.orderByIndicesOff) input.orderBy input.colNames
      (writeNameIndices (base + l.segByIndicesOff) input.segmentBy input.colNames
        (columnStage base input l (headerStage base input l m))))
  rw [← writeWords_eq] at hwritten
  apply hwritten.frame
  intro a hlo hhi
  rw [length_flatMap_toLe, List.length_map] at hhi
  have hwrites := h
  obtain ⟨hcol, hseg, hord, hcomp, harena, -, hsegs, -, -, -, -, -⟩ := hwrites
  unfold serializeInto
  rw [segmentStage_frame h (by omega)]

/-- Where the values of a segment begin in the segment arena. -/
def valuesCursor (input : WireInput) (i : ℕ) : ℕ :=
  cursorAt (fun s : SegmentBorrow => encodeSegmentValuesLen s.segmentValues) input.segments i

theorem serializeInto_segment (base : ℕ) (h : Laid input l) (m : Mem) {i : ℕ} {s : SegmentBorrow}
    (hs : input.segments[i]? = some s) :
    Holds (serializeInto base input l m) (base + l.segmentsOff + 64 * i)
        (segmentEntry l s (valuesCursor input i)) ∧
      Holds (serializeInto base input l m) (base + l.segArenaOff + valuesCursor input i)
        (encodeValues s.segmentValues) :=
  (segmentStage_filled h _).rows i s hs

theorem valuesCursor_le (h : Laid input l) {i : ℕ} {s : SegmentBorrow}
    (hs : input.segments[i]? = some s) :
    valuesCursor input i + valuesSize s.segmentValues ≤ l.segArenaLen := by
  have hend := cursorAt_add_le_total
    (fun s : SegmentBorrow => encodeSegmentValuesLen s.segmentValues) hs
  rwa [h.segment_sizes, (h.encodeSegmentValuesLen_eq (List.mem_of_getElem? hs)).1] at hend

/-! ## Decoding -/

theorem position_getElem? {names : List Text} {name : Text} {i : ℕ}
    (h : position names name = some i) : names[i]? = some name := by
  obtain ⟨hlt, heq, -⟩ := List.findIdx?_eq_some_iff_getElem.mp h
  rw [List.getElem?_eq_getElem hlt, eq_of_beq heq]

theorem position_of_mem {names : List Text} {name : Text} (h : name ∈ names) :
    ∃ i, position names name = some i := by
  apply Option.isSome_iff_exists.mp
  rw [position, List.findIdx?_isSome, List.any_eq_true]
  exact ⟨name, h, beq_self_eq_true name⟩

theorem position_of_not_mem {names : List Text} {name : Text} (h : name ∉ names) :
    position names name = none := by
  cases hp : position names name with
  | none => rfl
  | some i => exact (h (List.mem_of_getElem? (position_getElem? hp))).elim

theorem position_getD_lt {names : List Text} {name : Text} {i : ℕ}
    (h : position names name = some i) : i < names.length :=
  (List.getElem?_eq_some_iff.mp (position_getElem? h)).1

def aliasedName (colNames : List Text) (name : Text) : Text :=
  if name ∈ colNames then name else colNames.headD []

theorem getElem?_position {colNames : List Text} (hne : colNames ≠ []) (name : Text) :
    colNames[(position colNames name).getD 0]? = some (aliasedName colNames name) := by
  by_cases h : name ∈ colNames
  · obtain ⟨i, hi⟩ := position_of_mem h
    rw [hi, Option.getD_some, position_getElem? hi, aliasedName, if_pos h]
  · rw [position_of_not_mem h, Option.getD_none, aliasedName, if_neg h]
    cases colNames with
    | nil => exact (hne rfl).elim
    | cons c colNames => rfl

theorem Laid.colNames_lt (h : Laid input l) : input.colNames.length < 2 ^ 32 - 1 := by
  obtain ⟨hcol, hseg, hord, hcomp, harena, -, hsegs, -, hvalues, -, htotal, hlimit⟩ := h
  rw [WireInput.colNames, List.length_map]
  omega

theorem metaOf_words_lt (h : Laid input l) : ∀ w ∈ (metaOf input l).words, w < 2 ^ 32 := by
  have htime : (position input.colNames input.timeColumn).getD (2 ^ 32 - 1) < 2 ^ 32 := by
    cases hp : position input.colNames input.timeColumn with
    | none => decide
    | some i =>
        have hlt := position_getD_lt hp
        have hlen := h.colNames_lt
        rw [Option.getD_some]
        omega
  obtain ⟨hcol, hseg, hord, hcomp, harena, -, hsegs, -, hvalues, -, htotal, hlimit⟩ := h
  simp only [Meta.words, metaOf, List.mem_cons, List.not_mem_nil, or_false, forall_eq_or_imp,
    forall_eq, wireMagic, wireVersion]
  omega

theorem readMeta_of_holds {h : Meta} (hm : Holds m base (h.words.flatMap (toLe 4)))
    (hlt : ∀ w ∈ h.words, w < 2 ^ 32) : readMeta m base = h := by
  have hword : ∀ k w, h.words[k]? = some w → u32At m (base + 4 * k) = w :=
    fun k w hk => hm.word_read hk (hlt w (List.mem_of_getElem? hk))
  unfold readMeta
  simp only [hword 0 _ rfl, hword 1 _ rfl, hword 2 _ rfl, hword 3 _ rfl, hword 4 _ rfl,
    hword 5 _ rfl, hword 6 _ rfl, hword 7 _ rfl, hword 8 _ rfl, hword 9 _ rfl, hword 10 _ rfl,
    hword 11 _ rfl, hword 12 _ rfl, hword 13 _ rfl, hword 14 _ rfl, hword 15 _ rfl, hword 16 _ rfl,
    hword 17 _ rfl, hword 18 _ rfl]

theorem readMeta_serializeInto (h : Laid input l) (m : Mem) :
    readMeta (serializeInto base input l m) base = metaOf input l :=
  readMeta_of_holds (serializeInto_header h m) (metaOf_words_lt h)

theorem ofNat_toNat {w : ℕ} (b : BitVec w) : BitVec.ofNat w b.toNat = b := by
  rw [BitVec.ofNat_toNat, BitVec.setWidth_eq]

theorem decodeColumn_of_holds {hdr : Meta} {i cursor : ℕ} {c : WireColumn}
    (hinfo : Holds m (base + hdr.colInfoOff + 16 * i) (colInfo l c cursor))
    (hname : Holds m (base + l.headerArenaOff + cursor) (utf8Bytes c.name))
    (hoff : l.headerArenaOff + cursor < 2 ^ 32) (hlen : byteLen c.name < 2 ^ 32) :
    decodeColumn m base hdr i = some c := by
  rw [colInfo, holds_append, holds_append, holds_append, length_toLe, length_toLe, length_toLe,
    Nat.add_assoc _ 4 4, Nat.add_assoc _ 8 4] at hinfo
  obtain ⟨htypoid, htypmod, hnameOff, hnameLen⟩ := hinfo
  have h1 : u32At m (base + hdr.colInfoOff + 16 * i) = c.typoid.toNat :=
    htypoid.ofLe_read c.typoid.isLt
  have h2 : u32At m (base + hdr.colInfoOff + 16 * i + 4) = c.typmod.toNat :=
    htypmod.ofLe_read c.typmod.isLt
  have h3 : u32At m (base + hdr.colInfoOff + 16 * i + 8) = l.headerArenaOff + cursor :=
    hnameOff.ofLe_read hoff
  have h4 : u32At m (base + hdr.colInfoOff + 16 * i + 12) = byteLen c.name :=
    hnameLen.ofLe_read hlen
  have hread : read m (base + (l.headerArenaOff + cursor)) (byteLen c.name) = utf8Bytes c.name := by
    rw [← Nat.add_assoc]
    exact hname.read_eq rfl
  unfold decodeColumn
  simp only [h1, h2, h3, h4, hread, fromUtf8_utf8Bytes, Option.map_some, ofNat_toNat]

theorem decodeNames_of_holds {off : ℕ} {names colNames : List Text} (hne : colNames ≠ [])
    (hlt : colNames.length < 2 ^ 32)
    (h : Holds m off ((names.map fun name => (position colNames name).getD 0).flatMap (toLe 4))) :
    decodeNames m off names.length colNames = some (names.map (aliasedName colNames)) := by
  have hlen : names.length = (names.map (aliasedName colNames)).length := List.length_map _ |>.symm
  rw [decodeNames, hlen]
  apply mapM_range
  intro k resolved hk
  rw [List.getElem?_map] at hk
  obtain ⟨name, hname, rfl⟩ := Option.map_eq_some_iff.mp hk
  have hidx : (position colNames name).getD 0 < 2 ^ 32 := by
    cases hp : position colNames name with
    | none => decide
    | some i =>
        have hi := position_getD_lt hp
        rw [Option.getD_some]
        omega
  have hword : u32At m (off + 4 * k) = (position colNames name).getD 0 :=
    h.word_read (by rw [List.getElem?_map, hname, Option.map_some]) hidx
  rw [hword]
  exact getElem?_position hne name

theorem decodeOids_of_holds {off : ℕ} {oids : List (BitVec 32)}
    (h : Holds m off ((oids.map BitVec.toNat).flatMap (toLe 4))) :
    decodeOids m off oids.length = oids := by
  apply List.ext_getElem?
  intro k
  rw [decodeOids, List.getElem?_map]
  by_cases hk : k < oids.length
  · have hword : u32At m (off + 4 * k) = oids[k].toNat := by
      apply h.word_read
      · rw [List.getElem?_map, List.getElem?_eq_getElem hk, Option.map_some]
      · exact oids[k].isLt
    rw [List.getElem?_range hk, Option.map_some, hword, ofNat_toNat, List.getElem?_eq_getElem hk]
  · rw [List.getElem?_eq_none (by rw [List.length_range]; omega), List.getElem?_eq_none (by omega)]
    rfl

/-- The header of the leader, its names as the indices give them. -/
def headerOf (input : WireInput) : HeaderBorrow where
  columns := input.columns
  segmentBy := input.segmentBy.map (aliasedName input.colNames)
  orderBy := input.orderBy.map (aliasedName input.colNames)
  timeColumn := if input.timeColumn ∈ input.colNames then input.timeColumn else []
  companionOids := input.companionOids
  numSegments := input.segments.length

theorem decodeTimeColumn_metaOf (h : Laid input l) :
    decodeTimeColumn (metaOf input l) input.colNames =
      some (if input.timeColumn ∈ input.colNames then input.timeColumn else []) := by
  have hlen := h.colNames_lt
  unfold decodeTimeColumn
  by_cases hmem : input.timeColumn ∈ input.colNames
  · obtain ⟨i, hi⟩ := position_of_mem hmem
    have hidx : (metaOf input l).timeColIdx = i := by
      rw [metaOf, hi]
      rfl
    have hlt := position_getD_lt hi
    rw [hidx, if_neg (by omega), position_getElem? hi, if_pos hmem]
  · have hidx : (metaOf input l).timeColIdx = 2 ^ 32 - 1 := by
      rw [metaOf, position_of_not_mem hmem]
      rfl
    rw [if_pos hidx, if_neg hmem]

theorem decodeHeader_serializeInto (h : Laid input l) (hcols : input.columns ≠ []) (m : Mem) :
    decodeHeader (serializeInto base input l m) base = some (headerOf input) := by
  have hlen := h.colNames_lt
  have hne : input.colNames ≠ [] := by
    rw [WireInput.colNames]
    exact fun hnil => hcols (List.map_eq_nil_iff.mp hnil)
  have hcolumns : (List.range (metaOf input l).numColumns).mapM
      (decodeColumn (serializeInto base input l m) base (metaOf input l)) = some input.columns := by
    apply mapM_range
    intro i c hc
    obtain ⟨hinfo, hname⟩ := serializeInto_column base h m hc
    have hend := nameCursor_le h hc
    have hlt := h.byteLen_lt (List.mem_of_getElem? hc)
    have hwrites := h
    obtain ⟨hcol, hseg, hord, hcomp, harena, -, hsegs, -, hvalues, -, htotal, hlimit⟩ := hwrites
    exact decodeColumn_of_holds hinfo hname (by omega) hlt
  have hsegBy := decodeNames_of_holds hne (by omega) (serializeInto_segmentBy base h m)
  have hordBy := decodeNames_of_holds hne (by omega) (serializeInto_orderBy base h m)
  have hcomps := decodeOids_of_holds (serializeInto_companions base h m)
  unfold decodeHeader
  rw [readMeta_serializeInto h]
  show Option.bind ((List.range (metaOf input l).numColumns).mapM
    (decodeColumn (serializeInto base input l m) base (metaOf input l))) _ = _
  rw [hcolumns, Option.bind_some]
  show Option.bind (decodeNames _ (base + l.segByIndicesOff) input.segmentBy.length input.colNames)
    _ = _
  rw [hsegBy, Option.bind_some]
  show Option.bind (decodeNames _ (base + l.orderByIndicesOff) input.orderBy.length input.colNames)
    _ = _
  rw [hordBy, Option.bind_some]
  show Option.bind (decodeTimeColumn (metaOf input l) input.colNames) _ = _
  rw [decodeTimeColumn_metaOf h, Option.bind_some]
  show some (HeaderBorrow.mk _ _ _ _
    (decodeOids _ (base + l.companionOidsOff) input.companionOids.length) _) = _
  rw [hcomps]
  rfl

theorem decodeValues_of_holds {values : List (Option Text)} {rp : ℕ}
    (h : Holds m rp (values.flatMap encodeValue))
    (hlen : ∀ s, some s ∈ values → byteLen s < 2 ^ 32) :
    decodeValues m values.length rp = some values := by
  induction values generalizing rp with
  | nil => rfl
  | cons v values ih =>
      rw [List.flatMap_cons, holds_append, length_encodeValue] at h
      obtain ⟨hvalue, hrest⟩ := h
      have htail := fun s hs => hlen s (List.mem_cons_of_mem v hs)
      rw [List.length_cons, decodeValues]
      cases v with
      | none =>
          have hnull : m rp = 1 := hvalue 0 1 rfl
          rw [Option.elim_none] at hrest
          rw [if_pos (by rw [hnull]; decide), ih hrest htail]
          rfl
      | some s =>
          have hnull : m rp = 0 := hvalue 0 0 rfl
          rw [encodeValue, holds_append, holds_append, length_toLe, List.length_singleton] at hvalue
          obtain ⟨-, hlenBytes, hbytes⟩ := hvalue
          have hread : u32At m (rp + 1) = byteLen s :=
            hlenBytes.ofLe_read (hlen s List.mem_cons_self)
          have htext : read m (rp + 5) (byteLen s) = utf8Bytes s := hbytes.read_eq rfl
          rw [Option.elim_some, ← Nat.add_assoc] at hrest
          simp only [hread]
          rw [if_neg (by rw [hnull]; decide), htext, fromUtf8_utf8Bytes, ih hrest htail]
          rfl

theorem byteLen_le_valuesSize {values : List (Option Text)} {s : Text} (hs : some s ∈ values) :
    byteLen s ≤ valuesSize values := by
  have hle := List.single_le_sum (fun _ _ => Nat.zero_le _) _
    (List.mem_map_of_mem (f := fun v : Option Text => 5 + v.elim 0 byteLen) hs)
  rw [Option.elim_some] at hle
  unfold valuesSize
  omega

theorem decodeSegmentValues_of_holds {off : ℕ} {values : List (Option Text)}
    (h : Holds m off (encodeValues values)) (hcount : values.length < 2 ^ 16)
    (hsize : valuesSize values < 2 ^ 32) :
    decodeSegmentValues m off (valuesSize values) = some values := by
  rw [encodeValues, holds_append, length_toLe] at h
  have hread : ofLe (read m off 2) = values.length := h.1.ofLe_read hcount
  have hpos : 0 < valuesSize values := Nat.lt_of_lt_of_le Nat.two_pos (Nat.le_add_right 2 _)
  rw [decodeSegmentValues, if_pos hpos, hread]
  apply decodeValues_of_holds h.2
  intro s hs
  have hle := byteLen_le_valuesSize hs
  omega

/-- A bound of the time range is read back from its flag and its word. -/
theorem bound_of_holds {a b : ℕ} {bound : Option (BitVec 64)}
    (hflag : Holds m a [flag bound.isSome]) (hword : Holds m b (toLe 8 (bound.getD 0).toNat)) :
    (if m a ≠ 0 then some (BitVec.ofNat 64 (u64At m b)) else none) = bound := by
  have hbyte : m a = flag bound.isSome := hflag 0 _ rfl
  have hread : u64At m b = (bound.getD 0).toNat := hword.ofLe_read (bound.getD 0).isLt
  rw [hbyte, hread, ofNat_toNat]
  cases bound with
  | none => rfl
  | some t => rfl

theorem decodeSegment_serializeInto (h : Laid input l) (m : Mem) {i : ℕ} {s : SegmentBorrow}
    (hs : input.segments[i]? = some s) (hvalues : s.segmentValues.length < 2 ^ 16) :
    decodeSegment (serializeInto base input l m) base i = some s := by
  obtain ⟨hentry, harena⟩ := serializeInto_segment base h m hs
  have hcursor := valuesCursor_le h hs
  obtain ⟨hsize, hsizeLt⟩ := h.encodeSegmentValuesLen_eq (List.mem_of_getElem? hs)
  have htotal := h.totalSize
  have hlimit := h.limit
  unfold decodeSegment
  rw [readMeta_serializeInto h]
  generalize serializeInto base input l m = m' at hentry harena ⊢
  dsimp only
  rw [show (metaOf input l).segmentsOff = l.segmentsOff from rfl]
  generalize base + l.segmentsOff + 64 * i = se at hentry ⊢
  simp only [segmentEntry, holds_append, length_toLe, List.length_cons, List.length_nil, hsize,
    Nat.add_assoc, Nat.reduceAdd] at hentry
  obtain ⟨hoid, hid, hrows, hminFlag, hmaxFlag, -, hmin, hmax, hoff, hlen, -⟩ := hentry
  have h1 : u32At m' (se + 32) = l.segArenaOff + valuesCursor input i := hoff.ofLe_read (by omega)
  have h2 : u32At m' (se + 36) = valuesSize s.segmentValues := hlen.ofLe_read hsizeLt
  rw [Nat.add_assoc base, ← h1] at harena
  rw [h2, decodeSegmentValues_of_holds harena hvalues hsizeLt]
  have h3 : u32At m' se = s.companionOid.toNat := hoid.ofLe_read s.companionOid.isLt
  have h4 : u32At m' (se + 4) = s.segmentId.toNat := hid.ofLe_read s.segmentId.isLt
  have h5 : u32At m' (se + 8) = s.rowCount.toNat := hrows.ofLe_read s.rowCount.isLt
  show some (SegmentBorrow.mk (BitVec.ofNat 32 (u32At m' se)) (BitVec.ofNat 32 (u32At m' (se + 4)))
    (BitVec.ofNat 32 (u32At m' (se + 8)))
    (if m' (se + 12) ≠ 0 then some (BitVec.ofNat 64 (u64At m' (se + 16))) else none)
    (if m' (se + 13) ≠ 0 then some (BitVec.ofNat 64 (u64At m' (se + 24))) else none)
    s.segmentValues) = some s
  rw [h3, h4, h5, ofNat_toNat, ofNat_toNat, ofNat_toNat, bound_of_holds hminFlag hmin,
    bound_of_holds hmaxFlag hmax]

theorem attach_serializeInto (h : Laid input l) (m : Mem) :
    attach (serializeInto base input l m) base = some base := by
  unfold attach
  rw [readMeta_serializeInto h]
  rfl

/-- The state of an append scan survives the wire: the writes stay inside the region that the
layout sizes, its parts do not overlap, and a worker decodes the header and every segment. -/
theorem serializeInto_roundTrip (base : ℕ) (input : WireInput) (m : Mem)
    (hsize : wireSize input < 2 ^ 32)
    (hvalues : ∀ s ∈ input.segments, s.segmentValues.length < 2 ^ 16) :
    let l := layout input
    let m' := serializeInto base input l m
    (∀ a, a < base ∨ base + l.totalSize ≤ a → m' a = m a) ∧
      (regions input l).Pairwise (fun r r' => r.1 + r.2 ≤ r'.1) ∧
      (∀ r ∈ regions input l, r.1 + r.2 ≤ l.totalSize) ∧
      attach m' base = some base ∧
      (input.columns ≠ [] → decodeHeader m' base = some (headerOf input)) ∧
      ∀ i s, input.segments[i]? = some s → decodeSegment m' base i = some s := by
  have h := layout_laid hsize
  exact ⟨fun _ ha => serializeInto_frame h ha, h.regions_disjoint, h.regions_fit,
    attach_serializeInto h m, fun hcols => decodeHeader_serializeInto h hcols m,
    fun i s hs => decodeSegment_serializeInto h m hs (hvalues s (List.mem_of_getElem? hs))⟩

/-- Two segments of one companion, the second without a time range and with a null value. -/
def twoSegments : WireInput where
  columns := [{ name := ['t'], typoid := 1184, typmod := -1 },
    { name := ['d'], typoid := 25, typmod := -1 }]
  segmentBy := [['d']]
  orderBy := [['t']]
  timeColumn := ['t']
  companionOids := [7]
  segments := [
    { companionOid := 7, segmentId := 1, rowCount := 3, minTime := some 0, maxTime := some 5,
      segmentValues := [some ['a']] },
    { companionOid := 7, segmentId := 2, rowCount := 4, minTime := none, maxTime := none,
      segmentValues := [none] }]

theorem serializeInto_roundTrip_twoSegments :
    let m' := serializeInto 100 twoSegments (layout twoSegments) fun _ => 255
    m' 99 = 255 ∧ decodeHeader m' 100 = some (headerOf twoSegments) ∧
      decodeSegment m' 100 1 = some
        { companionOid := 7, segmentId := 2, rowCount := 4, minTime := none, maxTime := none,
          segmentValues := [none] } := by
  obtain ⟨hframe, -, -, -, hheader, hsegments⟩ :=
    serializeInto_roundTrip 100 twoSegments (fun _ => 255) (by decide) (by decide)
  exact ⟨hframe 99 (by decide), hheader (by decide), hsegments 1 _ rfl⟩

end DeltaX.Scan.AppendWire
