import DeltaX.Column.Collect
import DeltaX.Partition.State
/-!
# Streaming a partition into segments

`compress_partition_streaming` reads the heap through a cursor in batches, collects
the rows column by column and writes a segment whenever the segment-by values
change or the segment is full.  Reading a vector past its end panics: the
functions return `none` then.
-/

namespace DeltaX.Partition.Streaming

open DeltaX.Column Support.Wrapping

/-! ## The plan and its rows -/

structure CompressPlan where
  forceTextFallback : Bool
  columns : List ColumnMeta
  segmentBy : List Text
  orderBy : List Text
  segmentSize : ℕ
  segmentSize_pos : 0 < segmentSize
  segmentSize_lt : segmentSize < 2 ^ 31

namespace CompressPlan

variable (plan : CompressPlan)

def kindOf (c : ColumnMeta) : ColumnKind :=
  classifyColumn plan.forceTextFallback c.dataType c.isSegmentBy

def orderColIndices : List ℕ :=
  plan.orderBy.filterMap fun name => plan.columns.findIdx? fun c => c.name == name

def segColIndices : List ℕ :=
  (plan.columns.zipIdx.filter fun p => p.1.isSegmentBy).map Prod.snd

def initTypedColumns : List TypedColumn :=
  plan.columns.map fun c => .new (plan.kindOf c)

end CompressPlan

/-- A row of the cursor: a value or NULL for each column, read as the kind of the column. -/
structure FetchedRow (plan : CompressPlan) where
  cells : List (Option Value)
  typed : List.Forall₂ (fun c cell => ∀ v ∈ cell, v.kind = plan.kindOf c) plan.columns cells

variable {plan : CompressPlan}

/-- `row_seg_values`. -/
def FetchedRow.segValues (r : FetchedRow plan) : List (Option Text) :=
  ((plan.columns.zip r.cells).filter fun p => p.1.isSegmentBy).map fun p => p.2.bind Value.asText

def FetchedRow.stored (r : FetchedRow plan) : List (Option Stored) :=
  r.cells.map (Option.map Value.store)

/-- `append_row_to_columns`.  Segment-by columns are skipped: theirs stay empty. -/
def appendRowToColumns (kindOf : ColumnMeta → ColumnKind) :
    List ColumnMeta → List (Option Value) → List TypedColumn → Option (List TypedColumn)
  | [], _, typedCols => some typedCols
  | c :: columns, cell :: cells, typedCol :: typedCols => do
      let rest ← appendRowToColumns kindOf columns cells typedCols
      if c.isSegmentBy then some (typedCol :: rest)
      else if typedCol.hasKind (kindOf c) then
        some (typedCol.push (cell.map Value.store) :: rest)
      else some (typedCol :: rest)
  | _ :: _, _, _ => none

/-! ## Sorting within a segment -/

/-- `cmp` on two values of one column.  Floats compare as unsigned bit patterns. -/
def compareStored : Stored → Stored → Ordering
  | .text v, .text w => compare v w
  | .bytes v, .bytes w => compare (v.map BitVec.toNat) (w.map BitVec.toNat)
  | .int16 v, .int16 w => compare v.toInt w.toInt
  | .int32 v, .int32 w => compare v.toInt w.toInt
  | .int64 v, .int64 w => compare v.toInt w.toInt
  | .float32 v, .float32 w => compare v.toNat w.toNat
  | .float64 v, .float64 w => compare v.toNat w.toNat
  | .bool v, .bool w => compare v w
  -- a column holds one representation
  | _, _ => .eq

/-- `cmp` on two entries of a column: NULL comes first. -/
def compareCells : Option Stored → Option Stored → Ordering
  | none, none => .eq
  | none, some _ => .lt
  | some _, none => .gt
  | some v, some w => compareStored v w

/-- The entry of row `row` in column `i`.  Past the end of a column there is none; the
permutation is applied to that column too and panics there. -/
def cellAt (typedCols : List TypedColumn) (i row : ℕ) : Option Stored :=
  (typedCols[i]?.bind fun typedCol => typedCol.cells[row]?).join

/-- The comparator of the sort: the order columns in turn, until two entries differ. -/
def compareBy {ρ : Type*} (entry : ℕ → ρ → Option Stored) (a b : ρ) : List ℕ → Ordering
  | [] => .eq
  | i :: orderColIndices =>
      (compareCells (entry i a) (entry i b)).then (compareBy entry a b orderColIndices)

/-- `perm`: the row numbers in sorted order. -/
def sortPerm (typedCols : List TypedColumn) (orderColIndices : List ℕ) (numRows : ℕ) : List ℕ :=
  (List.range numRows).mergeSort fun a b =>
    compareBy (cellAt typedCols) a b orderColIndices != .gt

def sortTypedColumns (typedCols : List TypedColumn) (orderColIndices : List ℕ) (numRows : ℕ) :
    Option (List TypedColumn) :=
  if orderColIndices.isEmpty || numRows ≤ 1 then some typedCols
  else
    typedCols.mapM (TypedColumn.applyPermutation (sortPerm typedCols orderColIndices numRows))

/-! ## Writing segments -/

/-- A row of the meta table and the blobs that go with it, each with its `_col_idx`. -/
structure StoredSegment where
  segmentId : ℤ
  segValues : List (Text × Option Text)
  rowCount : ℕ
  blobs : List (ℕ × TypedColumn)
deriving DecidableEq, Repr

/-- The typed columns that get a blob, in the order of their `_col_idx`. -/
def blobColumns (columns : List ColumnMeta) (typedCols : List TypedColumn) : List TypedColumn :=
  ((columns.zip typedCols).filter fun p => !p.1.isSegmentBy).map Prod.snd

/-- `flush_segment_metadata`: the columns are compressed one by one, the segment-by
values go to the meta row. -/
def flushSegmentMetadata (columns : List ColumnMeta) (typedCols : List TypedColumn)
    (segmentByValues : List (Option Text)) (rowCount : ℕ) (segmentId : ℤ) : StoredSegment where
  segmentId := segmentId
  segValues :=
    ((columns.filter ColumnMeta.isSegmentBy).map ColumnMeta.name).zip segmentByValues
  rowCount := rowCount % 2 ^ 32
  blobs := (blobColumns columns typedCols).zipIdx.map Prod.swap

def chunkColumns (typedCols : List TypedColumn) (totalRows offset chunkEnd : ℕ) :
    Option (List TypedColumn) :=
  if offset = 0 ∧ chunkEnd = totalRows then some typedCols
  else typedCols.mapM (TypedColumn.slice offset chunkEnd)

/-- `flush_with_splitting` from `offset` on, for at most `fuel` turns: the segments and
the next id. -/
def flushWithSplitting (plan : CompressPlan) (typedCols : List TypedColumn)
    (segValues : List (Option Text)) (totalRows : ℕ) :
    ℕ → ℕ → ℤ → Option (List StoredSegment × ℤ)
  | 0, _, nextSegmentId => some ([], nextSegmentId)
  | fuel + 1, offset, nextSegmentId =>
      if offset < totalRows then do
        let chunkEnd := min (offset + plan.segmentSize) totalRows
        let chunkCols ← chunkColumns typedCols totalRows offset chunkEnd
        let rest ← flushWithSplitting plan typedCols segValues totalRows fuel chunkEnd
          (wrapI32 (nextSegmentId + 1))
        some (flushSegmentMetadata plan.columns chunkCols segValues (chunkEnd - offset)
          nextSegmentId :: rest.1, rest.2)
      else some ([], nextSegmentId)

/-! ## The cursor loop -/

structure Stream where
  typedCols : List TypedColumn
  currentSegValues : List (Option Text)
  rowsInSegment : ℕ
  totalRows : ℕ
  nextSegmentId : ℤ
  segments : List StoredSegment
deriving DecidableEq, Repr

namespace Stream

/-- The start of `compress_partition_streaming`. -/
def init (plan : CompressPlan) : Stream where
  typedCols := plan.initTypedColumns
  currentSegValues := []
  rowsInSegment := 0
  totalRows := 0
  nextSegmentId := 1
  segments := []

/-- The columns to be written: without segment-by columns they are sorted here, else the
cursor has sorted them. -/
def sorted (plan : CompressPlan) (st : Stream) : Option (List TypedColumn) :=
  if plan.segColIndices.isEmpty then
    sortTypedColumns st.typedCols plan.orderColIndices st.rowsInSegment
  else some st.typedCols

/-- The collected rows are written in chunks and the columns start anew. -/
def flushChunks (plan : CompressPlan) (st : Stream) (typedCols : List TypedColumn) :
    Option Stream := do
  let out ← flushWithSplitting plan typedCols st.currentSegValues st.rowsInSegment
    st.rowsInSegment 0 st.nextSegmentId
  some { st with
    typedCols := plan.initTypedColumns
    rowsInSegment := 0
    nextSegmentId := out.2
    segments := st.segments ++ out.1 }

def flushFull (plan : CompressPlan) (st : Stream) : Option Stream := do
  let typedCols ← st.sorted plan
  some { st with
    typedCols := plan.initTypedColumns
    rowsInSegment := 0
    nextSegmentId := wrapI32 (st.nextSegmentId + 1)
    segments := st.segments ++ [flushSegmentMetadata plan.columns typedCols
      st.currentSegValues st.rowsInSegment st.nextSegmentId] }

/-- The rows of the previous segment-by values. -/
def flushGroup (plan : CompressPlan) (st : Stream) : Option Stream :=
  if 0 < st.rowsInSegment then st.flushChunks plan st.typedCols else some st

/-- The segment-by boundary check; no values yet is the empty list. -/
def boundary (st : Stream) (row : FetchedRow plan) : Option Stream :=
  if plan.segColIndices.isEmpty then some st
  else if st.currentSegValues.isEmpty then
    some { st with currentSegValues := row.segValues }
  else if row.segValues ≠ st.currentSegValues then do
    let st ← st.flushGroup plan
    some { st with currentSegValues := row.segValues }
  else some st

def collect (st : Stream) (row : FetchedRow plan) : Option Stream := do
  let typedCols ← appendRowToColumns plan.kindOf plan.columns row.cells st.typedCols
  some { st with
    typedCols := typedCols
    rowsInSegment := st.rowsInSegment + 1
    totalRows := st.totalRows + 1 }

def append (st : Stream) (row : FetchedRow plan) : Option Stream := do
  let st ← st.boundary row
  let st ← st.collect row
  if plan.segmentSize ≤ st.rowsInSegment then st.flushFull plan else some st

def finish (plan : CompressPlan) (st : Stream) : Option Stream :=
  if 0 < st.rowsInSegment then do
    let typedCols ← st.sorted plan
    st.flushChunks plan typedCols
  else some st

end Stream

/-- The fetch loop, for at most `fuel` batches.  A short batch is the last one. -/
def fetchLoop : ℕ → List (FetchedRow plan) → Stream → Option Stream
  | 0, _, st => some st
  | fuel + 1, cursor, st =>
      let batch := cursor.take plan.segmentSize
      if batch.isEmpty then some st
      else do
        let st ← batch.foldlM Stream.append st
        if batch.length < plan.segmentSize then some st
        else fetchLoop fuel (cursor.drop plan.segmentSize) st

/-- The cursor over the heap: it is ordered only for segment-by columns, by an order of
the database. -/
def cursorRows (cursorLe : FetchedRow plan → FetchedRow plan → Bool)
    (rows : List (FetchedRow plan)) : List (FetchedRow plan) :=
  if plan.segmentBy.isEmpty then rows else rows.mergeSort cursorLe

def compressPartitionStreaming (cursorLe : FetchedRow plan → FetchedRow plan → Bool)
    (rows : List (FetchedRow plan)) : Option (List StoredSegment × ℕ) := do
  let cursor := cursorRows cursorLe rows
  let st ← fetchLoop (cursor.length + 1) cursor (.init plan)
  let st ← st.finish plan
  some (st.segments, st.totalRows)

/-! ## Reading a segment back -/

/-- A row put together from the segment-by values and the blob entries, in the order of
the columns. -/
def assembleRow : List ColumnMeta → List (Option Text) → List (Option Stored) →
    List (Option Stored)
  | [], _, _ => []
  | c :: columns, segValues, entries =>
      if c.isSegmentBy then
        (segValues.head?.join.map Stored.text) :: assembleRow columns segValues.tail entries
      else entries.head?.join :: assembleRow columns segValues entries.tail

/-- The rows of a segment: row `j` takes entry `j` of each blob. -/
def StoredSegment.rows (columns : List ColumnMeta) (seg : StoredSegment) :
    List (List (Option Stored)) :=
  (List.range seg.rowCount).map fun j =>
    assembleRow columns (seg.segValues.map Prod.snd) (seg.blobs.map fun b => b.2.cells[j]?.join)

end DeltaX.Partition.Streaming
