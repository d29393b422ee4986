import DeltaX.Partition.ValmapText
import DeltaX.Scan.MinMax
import DeltaX.Support.ByteBits
import DeltaX.Support.Machine
import DeltaX.Support.Numbering
import Mathlib.Data.Finset.Card
import Mathlib.Data.List.AList
/-!
# Value bitmaps

A text column with few distinct values has them listed in `column_valmap`, and
each segment has a bitmap over that list.  Compression writes both, compaction
extends the list at its end or gives the column up, decompose deletes the rows of
the segments it removes.  A scan with a qual `column = constant` skips the segments
whose bitmap lacks the constant.
-/

namespace DeltaX.Partition.Valbitmap

open Column Scan.MinMax Support.ByteBits Support.ListLookup Support.Machine Support.Numbering
  ValmapText

/-! ## Values of a segment -/

def valbitmapMaxDistinct : ℕ := 32

structure SegmentData (columns : List ColumnMeta) where
  id : ℤ
  typedCols : List TypedColumn
  segmentValues : List (Option Text)
  length_typedCols : typedCols.length = columns.length
deriving DecidableEq

def insertKey (keys : List Text) (v : Text) : List Text :=
  if v ∈ keys then keys else keys.orderedInsert (· ≤ ·) v

/-- Count values into an ordered map; a new value that finds the map full ends it. -/
def countValues : List Text → List Text → Option (List Text)
  | keys, [] => some keys
  | keys, v :: values =>
      if valbitmapMaxDistinct ≤ keys.length ∧ v ∉ keys then none
      else countValues (insertKey keys v) values

def computeSegmentValbitmapValues :
    ℕ → List (ColumnMeta × TypedColumn) → List (ℕ × List Text)
  | _, [] => []
  | colIdx, (col, data) :: rest =>
      if col.isSegmentBy then computeSegmentValbitmapValues colIdx rest
      else
        match data with
        | .text values =>
            match countValues [] values.reduceOption with
            | some keys => (colIdx, keys) :: computeSegmentValbitmapValues (colIdx + 1) rest
            | none => computeSegmentValbitmapValues (colIdx + 1) rest
        | _ => computeSegmentValbitmapValues (colIdx + 1) rest

/-- An element of `valbitmap_value_buffer`. -/
structure BufferEntry where
  colIdx : ℕ
  segmentId : ℤ
  values : List Text
deriving DecidableEq, Repr

variable {columns : List ColumnMeta}

def valueBuffer (segments : List (SegmentData columns)) : List BufferEntry :=
  segments.flatMap fun seg =>
    (computeSegmentValbitmapValues 0 (columns.zip seg.typedCols)).map fun e =>
      ⟨e.1, seg.id, e.2⟩

/-! ## Compression -/

/-- `column_valmap`. -/
abbrev ValueMap : Type := AList fun _ : Text => List Text

structure ValbitmapRow where
  colIdx : ℕ
  segmentId : ℤ
  bits : Bytes
deriving DecidableEq, Repr

/-- The aggregation over segments: the values of each column, and the columns with
too many of them. -/
structure Aggregate where
  countByCol : ℕ → Option (List Text)
  overflowCols : List ℕ

def Aggregate.add (agg : Aggregate) (e : BufferEntry) : Aggregate :=
  if e.colIdx ∈ agg.overflowCols then agg
  else
    match countValues ((agg.countByCol e.colIdx).getD []) e.values with
    | some keys => { agg with countByCol := Function.update agg.countByCol e.colIdx (some keys) }
    | none =>
        { countByCol := Function.update agg.countByCol e.colIdx none
          overflowCols := e.colIdx :: agg.overflowCols }

def aggregate (buffer : List BufferEntry) : Aggregate :=
  buffer.foldl Aggregate.add ⟨fun _ => none, []⟩

/-- The columns that have blobs, in `_col_idx` order. -/
def storedColumns (columns : List ColumnMeta) : List ColumnMeta :=
  columns.filter fun col => !col.isSegmentBy

/-- The bits of the listed values, by their position in the column's list. -/
def encodeBits (dict : List Text) (nBytes : ℕ) (values : List Text) : Bytes :=
  setBits (List.replicate nBytes 0#8) (values.filterMap fun v => dict.idxOf? v)

/-- Enter the columns that have a list of values; a later column replaces an earlier
one of the same name. -/
def insertEach (values : ColumnMeta × ℕ → Option (List Text)) (valmap : ValueMap)
    (cols : List (ColumnMeta × ℕ)) : ValueMap :=
  cols.foldl
    (fun valmap p =>
      match values p with
      | some vs => valmap.insert p.1.name vs
      | none => valmap) valmap

def finalizeAndInsertValbitmaps (columns : List ColumnMeta) (buffer : List BufferEntry) :
    ValueMap × List ValbitmapRow :=
  let finalized := (aggregate buffer).countByCol
  let valmap := insertEach (fun p => finalized p.2) ∅ (storedColumns columns).zipIdx
  let rows := buffer.filterMap fun e =>
    (finalized e.colIdx).map fun dict =>
      ⟨e.colIdx, e.segmentId, encodeBits dict ((dict.length + 7) / 8) e.values⟩
  (valmap, rows)

/-- The distinct values of a segment-by column, from the `_meta` rows. -/
def segmentByValues (segments : List (SegmentData columns)) (k : ℕ) : List Text :=
  (segments.filterMap fun seg => seg.segmentValues.getD k none).foldl insertKey []

/-- `augment_segment_by_stats`, the value map: text columns with few values. -/
def augmentSegmentByStats (segments : List (SegmentData columns)) (valmap : ValueMap) :
    ValueMap :=
  insertEach
    (fun p =>
      let values := segmentByValues segments p.2
      if !values.isEmpty ∧ p.1.dataType.isText ∧ values.length ≤ valbitmapMaxDistinct then
        some values
      else none)
    valmap (columns.filter ColumnMeta.isSegmentBy).zipIdx

/-! ## Compaction -/

/-- `name_to_idx`; a later column replaces an earlier one of the same name. -/
def nameToIdx (columns : List ColumnMeta) : Text → Option ℕ :=
  updateAll (fun p => p.1.name) Prod.snd (fun _ => none) (storedColumns columns).zipIdx

def appendColumn (columns : List ColumnMeta) (buffer : List BufferEntry) (newSegments : ℕ)
    (st : ValueMap × List ValbitmapRow) (name : Text) : ValueMap × List ValbitmapRow :=
  match nameToIdx columns name with
  | none => (st.1.erase name, st.2)
  | some ci =>
      let dropped := (st.1.erase name, st.2.filter fun r => r.colIdx ≠ ci)
      let entries := buffer.filter fun e => e.colIdx = ci
      if entries.length ≠ newSegments then dropped
      else
        let existing := (st.1.lookup name).getD []
        let novel :=
          ((entries.flatMap BufferEntry.values).filter fun v => v ∉ existing).foldl insertKey []
        if valbitmapMaxDistinct < existing.length + novel.length then dropped
        else
          let updated := existing ++ novel
          (if novel.isEmpty then st.1 else st.1.insert name updated,
            st.2 ++ entries.map fun e =>
              ⟨ci, e.segmentId, encodeBits updated (max ((updated.length + 7) / 8) 1) e.values⟩)

def appendValbitmapsForCompaction (columns : List ColumnMeta) (buffer : List BufferEntry)
    (newSegments : ℕ) (st : ValueMap × List ValbitmapRow) : ValueMap × List ValbitmapRow :=
  st.1.keys.foldl (appendColumn columns buffer newSegments) st

/-! ## Runs -/

/-- A partition: its live segments, `column_valmap` and the bitmap rows. -/
structure State (columns : List ColumnMeta) where
  isCompressed : Bool
  segments : List (SegmentData columns)
  valmap : ValueMap
  rows : List ValbitmapRow

def fresh (columns : List ColumnMeta) : State columns := ⟨false, [], ∅, []⟩

inductive Op (columns : List ColumnMeta)
  | compress (segments : List (SegmentData columns))
  | compact (segments : List (SegmentData columns))
  | removeSegments (ids : List ℤ)
  | decompress

inductive OpError
  | duplicateSegmentId
deriving DecidableEq, Repr

/-- One operation on the companions.  Decompression leaves the value map behind; the
next compression writes a new one. -/
def step (st : State columns) : Op columns → Except OpError (State columns)
  | .compress segments =>
      if st.isCompressed ∨ segments = [] then .ok st
      else if (segments.map SegmentData.id).Nodup then
        let out := finalizeAndInsertValbitmaps columns (valueBuffer segments)
        .ok ⟨true, segments, augmentSegmentByStats segments out.1, out.2⟩
      else .error .duplicateSegmentId
  | .compact segments =>
      if st.isCompressed = false ∨ segments = [] then .ok st
      else if ((st.segments ++ segments).map SegmentData.id).Nodup then
        let out := appendValbitmapsForCompaction columns (valueBuffer segments) segments.length
          (st.valmap, st.rows)
        .ok { st with segments := st.segments ++ segments, valmap := out.1, rows := out.2 }
      else .error .duplicateSegmentId
  | .removeSegments ids =>
      .ok { st with
        segments := st.segments.filter fun seg => seg.id ∉ ids
        rows := st.rows.filter fun r => r.segmentId ∉ ids }
  | .decompress => .ok { st with isCompressed := false, segments := [], rows := [] }

/-- The state after a run of operations on a partition that was never compressed. -/
def reached (columns : List ColumnMeta) (ops : List (Op columns)) : State columns :=
  run step (fresh columns) ops

/-! ## The scan -/

structure ValbitmapCheck where
  colIdx : ℕ
  wantedBits : List ℕ
deriving DecidableEq, Repr

/-- The check `load_segments_heap` builds from a qual.  A constant that is not in
the list wants no bit at all. -/
def valbitmapCheck (columns : List ColumnMeta) (valmap : Text → Option (List Text))
    (bq : BatchQual) : Option ValbitmapCheck :=
  if bq.op = .eq ∧ isTextType bq.typeOid then do
    let col ← columns[bq.colIdx]?
    let ci ← ((number (fun col : ColumnMeta => !col.isSegmentBy) 0 columns)[bq.colIdx]?).join
    let needle ← bq.textConst
    let values ← valmap col.name
    some ⟨ci, (values.idxOf? needle).toList⟩
  else none

/-- A row passes if any wanted bit is set. -/
def ValbitmapCheck.passes (check : ValbitmapCheck) (row : ValbitmapRow) : Bool :=
  check.wantedBits.any fun bi => testBit row.bits bi

/-- Segments that a check prunes; one without a row for the column is never pruned. -/
def ValbitmapCheck.prunedIds (check : ValbitmapCheck) (rows : List ValbitmapRow) : List ℤ :=
  (rows.filter fun r => r.colIdx = check.colIdx ∧ check.passes r = false).map
    ValbitmapRow.segmentId

def entriesOf (valmap : ValueMap) : Valmap := valmap.entries.map fun e => (e.1, e.2)

/-- The bitmap phase of `load_segments_heap`. -/
def survivingSegments (st : State columns) (batchQuals : List BatchQual) :
    List (SegmentData columns) :=
  let checks := batchQuals.filterMap
    (valbitmapCheck columns (getColumnValmap (entriesOf st.valmap)))
  let pruned := checks.flatMap fun check => check.prunedIds st.rows
  st.segments.filter fun seg => seg.id ∉ pruned

end DeltaX.Partition.Valbitmap
