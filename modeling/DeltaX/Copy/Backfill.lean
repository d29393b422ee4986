import DeltaX.Copy.Routing
import DeltaX.Partition.StreamingRows
/-!
# Buffers of the direct backfill

The backfill collects the rows of a partition in a buffer, compresses them segment by
segment and keeps the meta rows and blobs in further buffers, which are written to the
companion tables in batches.
-/

namespace DeltaX.Copy.Backfill

open Column DeltaX.Partition DeltaX.Partition.Streaming Support.Wrapping Routing

/-! ## Sorting -/

theorem sortColumns_spec {kinds : List ColumnKind} {n : ℕ} {cols : List TypedColumn}
    (h : Level kinds n cols) (order : List ℕ) :
    ∃ out, sortTypedColumns cols order n = some out ∧ Level kinds n out ∧
      ∃ perm : List ℕ, perm.Perm (List.range n) ∧
        ∀ j, j < n → rowAt out j = rowAt cols (perm.getD j 0) := by
  unfold sortTypedColumns
  split
  · refine ⟨cols, rfl, h, List.range n, .refl _, fun j hj => ?_⟩
    rw [List.getD_eq_getElem?_getD, List.getElem?_range hj, Option.getD_some]
  · have hperm := sortPerm_perm cols order n
    generalize sortPerm cols order n = perm at hperm
    have hlength : perm.length = n := hperm.length_eq.trans List.length_range
    obtain ⟨out, hout, hlevel, hrows⟩ := @mapM_spec kinds n cols
      (TypedColumn.applyPermutation perm) n (fun j => perm.getD j 0) h (by
        intro kind col hkind hcol
        have hlt : ∀ i ∈ perm, i < col.cells.length := by
          intro i hi
          rw [hcol]
          exact List.mem_range.mp (hperm.mem_iff.mp hi)
        obtain ⟨c, hc, hcells, hkind'⟩ := TypedColumn.applyPermutation_spec col hlt
        have hget : (perm.filterMap fun i => col.cells[i]?) =
            perm.map fun i => col.cells[i]?.getD none := by
          rw [← List.filterMap_eq_map]
          apply List.filterMap_congr
          intro i hi
          rw [Function.comp_apply, List.getElem?_eq_getElem (hlt i hi), Option.getD_some]
        refine ⟨c, hc, (hkind' kind).trans hkind, ?_, fun j hj => ?_⟩
        · rw [hcells, hget, List.length_map, hlength]
        · have hj' : j < perm.length := by rw [hlength]; exact hj
          rw [hcells, hget, List.getElem?_map, List.getElem?_eq_getElem hj', Option.map_some,
            List.getD_eq_getElem?_getD, List.getElem?_eq_getElem hj', Option.getD_some,
            List.getElem?_eq_getElem (hlt _ (List.getElem_mem hj')), Option.getD_some])
    exact ⟨out, hout, hlevel, perm, hperm, hrows⟩

/-- `sort_typed_columns`. -/
def sort {kinds : List ColumnKind} (c : Columns kinds) (order : List ℕ) : Columns kinds :=
  have h := get_spec (sortColumns_spec c.level order)
  ⟨(sortTypedColumns c.cols order c.numRows).get h.fst, c.numRows, h.snd.1⟩

@[simp] theorem numRows_sort {kinds : List ColumnKind} (c : Columns kinds) (order : List ℕ) :
    (sort c order).numRows = c.numRows := rfl

theorem rows_sort {kinds : List ColumnKind} (c : Columns kinds) (order : List ℕ) :
    (sort c order).rows.Perm c.rows := by
  obtain ⟨hsome, -, perm, hperm, hrows⟩ := get_spec (sortColumns_spec c.level order)
  have hlength : perm.length = c.numRows := hperm.length_eq.trans List.length_range
  have hsorted : (sort c order).rows = perm.map (rowAt c.cols) := by
    apply List.ext_getElem
    · rw [Columns.length_rows, List.length_map, hlength, numRows_sort]
    · intro j hj hj'
      rw [Columns.length_rows, numRows_sort] at hj
      rw [List.length_map] at hj'
      simp only [Columns.rows, List.getElem_map, List.getElem_range]
      refine (hrows j hj).trans ?_
      rw [List.getD_eq_getElem?_getD, List.getElem?_eq_getElem hj', Option.getD_some]
  rw [hsorted]
  exact hperm.map _

/-! ## Segments -/

variable {state : BackfillState}

structure SegItem (state : BackfillState) where
  batch : state.Batch
  segId : ℤ
  partitionIdx : ℕ

/-- `CompressedSegment`: the meta row and the blobs. -/
structure CompressedSegment where
  partitionIdx : ℕ
  rowCount : ℕ
  stored : StoredSegment
deriving DecidableEq, Repr

def segValues (columns : List ColumnMeta) (typedCols : List TypedColumn) : List (Option Text) :=
  ((columns.zip typedCols).filter fun p => p.1.isSegmentBy).map fun p =>
    match p.2 with
    | .text values => values.head?.join
    | _ => none

/-- The meta row and the blobs of sorted columns. -/
def storeSegment (sorted : state.Batch) (segId : ℤ) : StoredSegment :=
  flushSegmentMetadata state.plan.columns sorted.cols (segValues state.plan.columns sorted.cols)
    sorted.numRows segId

def compressSegment (item : SegItem state) : CompressedSegment :=
  ⟨item.partitionIdx, item.batch.numRows,
    storeSegment (sort item.batch state.plan.orderColIndices) item.segId⟩

/-! ## Reading a segment back -/

/-- A row with the segment-by values of another one. -/
def withSegmentBy : List ColumnMeta → List (Option Stored) → List (Option Stored) →
    List (Option Stored)
  | c :: columns, first :: firsts, entry :: entries =>
      (if c.isSegmentBy then first else entry) :: withSegmentBy columns firsts entries
  | _, _, _ => []

def SameSegment : List ColumnMeta → List (Option Stored) → List (Option Stored) → Prop
  | c :: columns, first :: firsts, entry :: entries =>
      (c.isSegmentBy = true → first = entry) ∧ SameSegment columns firsts entries
  | _, _, _ => True

theorem withSegmentBy_eq_iff {columns : List ColumnMeta} {first row : List (Option Stored)}
    (hfirst : first.length = columns.length) (hrow : row.length = columns.length) :
    withSegmentBy columns first row = row ↔ SameSegment columns first row := by
  induction columns generalizing first row with
  | nil =>
      rw [List.length_eq_zero_iff.mp hfirst, List.length_eq_zero_iff.mp hrow]
      exact ⟨fun _ => trivial, fun _ => rfl⟩
  | cons c columns ih =>
      cases first with
      | nil => cases hfirst
      | cons entry first =>
          cases row with
          | nil => cases hrow
          | cons entry' row =>
              rw [withSegmentBy, SameSegment, List.cons.injEq,
                ih (Nat.succ.inj hfirst) (Nat.succ.inj hrow)]
              by_cases hseg : c.isSegmentBy = true
              · simp [hseg]
              · simp [hseg]

theorem segValues_cons (c : ColumnMeta) (columns : List ColumnMeta) (col : TypedColumn)
    (cols : List TypedColumn) :
    segValues (c :: columns) (col :: cols) =
      if c.isSegmentBy then
        (match col with
          | .text values => values.head?.join
          | _ => none) :: segValues columns cols
      else segValues columns cols := by
  simp only [segValues, List.zip_cons_cons, List.filter_cons]
  split_ifs <;> rfl

theorem blobColumns_cons (c : ColumnMeta) (columns : List ColumnMeta) (col : TypedColumn)
    (cols : List TypedColumn) :
    blobColumns (c :: columns) (col :: cols) =
      if c.isSegmentBy then blobColumns columns cols else col :: blobColumns columns cols := by
  simp only [blobColumns, List.zip_cons_cons, List.filter_cons]
  cases c.isSegmentBy <;> rfl

/-- Entry `j` of each blob, and the segment-by values of the first row. -/
theorem assembleRow_rowAt {columns : List ColumnMeta} {kindOf : ColumnMeta → ColumnKind}
    (hkind : ∀ c, c.isSegmentBy = true → kindOf c = .text) {n : ℕ} {cols : List TypedColumn}
    (h : Level (columns.map kindOf) n cols) (j : ℕ) :
    assembleRow columns (segValues columns cols)
        ((blobColumns columns cols).map fun col => col.cells[j]?.join) =
      withSegmentBy columns (rowAt cols 0) (rowAt cols j) := by
  induction columns generalizing cols with
  | nil => rfl
  | cons c columns ih =>
      obtain ⟨col, cols, hcol, hcols, rfl⟩ := List.forall₂_cons_left_iff.mp h
      have hrest := ih hcols
      show _ = (if c.isSegmentBy then col.cells[0]?.join else col.cells[j]?.join) ::
        withSegmentBy columns (rowAt cols 0) (rowAt cols j)
      rw [assembleRow, segValues_cons, blobColumns_cons, ← hrest]
      by_cases hseg : c.isSegmentBy = true
      · simp only [if_pos hseg, List.head?_cons, List.tail_cons]
        congr 1
        have htext := hcol.1
        rw [hkind c hseg] at htext
        cases col with
        | text values =>
            cases values with
            | nil => rfl
            | cons v values => cases v <;> rfl
        | _ => cases htext
      · simp only [if_neg hseg, List.map_cons, List.head?_cons, List.tail_cons]
        rfl

theorem length_segValues {columns : List ColumnMeta} {cols : List TypedColumn}
    (h : columns.length = cols.length) :
    (segValues columns cols).length = (columns.filter ColumnMeta.isSegmentBy).length := by
  induction columns generalizing cols with
  | nil => rfl
  | cons c columns ih =>
      cases cols with
      | nil => cases h
      | cons col cols =>
          rw [segValues_cons, List.filter_cons]
          split_ifs
          · rw [List.length_cons, List.length_cons, ih (Nat.succ.inj h)]
          · exact ih (Nat.succ.inj h)

theorem length_cols (c : state.Batch) : c.cols.length = state.plan.columns.length := by
  rw [← c.level.length_eq, BackfillState.kinds, List.length_map]

theorem rows_storeSegment (c : state.Batch) (segId : ℤ) (hlt : c.numRows < 2 ^ 32) :
    (storeSegment c segId).rows state.plan.columns =
      c.rows.map (withSegmentBy state.plan.columns (rowAt c.cols 0)) := by
  have hcount : c.numRows % 2 ^ 32 = c.numRows := Nat.mod_eq_of_lt hlt
  have hvalues : (((state.plan.columns.filter ColumnMeta.isSegmentBy).map ColumnMeta.name).zip
      (segValues state.plan.columns c.cols)).map Prod.snd =
      segValues state.plan.columns c.cols := by
    apply List.map_snd_zip
    rw [List.length_map, length_segValues (length_cols c).symm]
  have hkind : ∀ column : ColumnMeta, column.isSegmentBy = true →
      state.plan.kindOf column = .text := by
    intro column hseg
    unfold CompressPlan.kindOf classifyColumn
    exact if_pos hseg
  unfold StoredSegment.rows storeSegment flushSegmentMetadata Columns.rows
  simp only [hcount, hvalues]
  rw [List.map_map]
  apply List.map_congr_left
  intro j _
  rw [map_zipIdx_swap (fun col : TypedColumn => col.cells[j]?.join)]
  exact assembleRow_rowAt hkind c.level j

theorem length_of_mem_rows {c : state.Batch} {row : List (Option Stored)} (h : row ∈ c.rows) :
    row.length = state.plan.columns.length := by
  obtain ⟨j, -, rfl⟩ := List.mem_map.mp h
  rw [rowAt, List.length_map, length_cols]

theorem sameSegment_withSegmentBy (columns : List ColumnMeta)
    (first row row' : List (Option Stored)) :
    SameSegment columns (withSegmentBy columns first row) (withSegmentBy columns first row') := by
  induction columns generalizing first row row' with
  | nil => simp [SameSegment]
  | cons c columns ih =>
      cases first with
      | nil => simp [withSegmentBy, SameSegment]
      | cons entry first =>
          cases row with
          | nil => simp [withSegmentBy, SameSegment]
          | cons e row =>
              cases row' with
              | nil => simp [withSegmentBy, SameSegment]
              | cons e' row' =>
                  rw [withSegmentBy, withSegmentBy, SameSegment]
                  exact ⟨fun hseg => by rw [if_pos hseg, if_pos hseg], ih first row row'⟩

theorem compressSegment_reads_iff (item : SegItem state) (hlt : item.batch.numRows < 2 ^ 32) :
    ((compressSegment item).stored.rows state.plan.columns).Perm item.batch.rows ↔
      ∀ row ∈ item.batch.rows, ∀ row' ∈ item.batch.rows,
        SameSegment state.plan.columns row row' := by
  have hperm := rows_sort item.batch state.plan.orderColIndices
  have hread := rows_storeSegment (sort item.batch state.plan.orderColIndices) item.segId hlt
  rw [compressSegment]
  dsimp only
  rw [hread]
  generalize sort item.batch state.plan.orderColIndices = sorted at hperm
  constructor
  · intro h row hrow row' hrow'
    obtain ⟨x, -, rfl⟩ := List.mem_map.mp (h.mem_iff.mpr hrow)
    obtain ⟨y, -, rfl⟩ := List.mem_map.mp (h.mem_iff.mpr hrow')
    exact sameSegment_withSegmentBy _ _ _ _
  · intro h
    have hsame : sorted.rows.map (withSegmentBy state.plan.columns (rowAt sorted.cols 0)) =
        sorted.rows := by
      refine (List.map_congr_left fun row hrow => ?_).trans (List.map_id _)
      have hpos : 0 < sorted.numRows := by
        rw [← Columns.length_rows]
        exact List.length_pos_of_mem hrow
      have hfirst : rowAt sorted.cols 0 ∈ sorted.rows :=
        List.mem_of_getElem? (Columns.getElem?_rows sorted hpos)
      rw [id_eq, withSegmentBy_eq_iff (length_of_mem_rows hfirst) (length_of_mem_rows hrow)]
      exact h _ (hperm.mem_iff.mp hfirst) _ (hperm.mem_iff.mp hrow)
    rw [hsame]
    exact hperm

/-! ## Buffers -/

structure MetaRow where
  segmentId : ℤ
  segValues : List (Text × Option Text)
  rowCount : ℕ
deriving DecidableEq, Repr

structure BlobRow where
  colIdx : ℕ
  segmentId : ℤ
  data : TypedColumn
deriving DecidableEq, Repr

def metaRow (seg : StoredSegment) : MetaRow := ⟨seg.segmentId, seg.segValues, seg.rowCount⟩

def blobRows (seg : StoredSegment) : List BlobRow :=
  seg.blobs.map fun b => ⟨b.1, seg.segmentId, b.2⟩

/-- `PartitionBuffer`, with the rows that its meta and blobs tables have so far. -/
structure PartitionBuffer (state : BackfillState) where
  batch : state.Batch
  nextSegmentId : ℤ
  totalRows : ℤ
  metaInsertRows : List MetaRow
  metaTable : List MetaRow
  blobBuffer : List BlobRow
  blobBufferSize : ℕ
  blobsTable : List BlobRow

def metaBatchSize : ℕ := 50

def blobBufferThreshold : ℕ := 256 * 1024 * 1024

/-- A new buffer in `handle_copy_from_inner`. -/
def PartitionBuffer.new (state : BackfillState) : PartitionBuffer state where
  batch := .empty state.kinds
  nextSegmentId := 1
  totalRows := 0
  metaInsertRows := []
  metaTable := []
  blobBuffer := []
  blobBufferSize := 0
  blobsTable := []

namespace PartitionBuffer

variable (buf : PartitionBuffer state)

def flushMetaBuffer : PartitionBuffer state :=
  { buf with
    metaTable := buf.metaTable ++ buf.metaInsertRows
    metaInsertRows := [] }

/-- The order of the sort in `flush_partition_blobs`. -/
def blobLe (a b : BlobRow) : Bool :=
  a.colIdx < b.colIdx || (a.colIdx == b.colIdx && a.segmentId ≤ b.segmentId)

def flushPartitionBlobs : PartitionBuffer state :=
  if buf.blobBuffer.isEmpty then buf
  else
    { buf with
      blobsTable := buf.blobsTable ++ buf.blobBuffer.mergeSort blobLe
      blobBuffer := []
      blobBufferSize := 0 }

/-- The meta row of a segment joins the batch, which is written when it is full. -/
def pushMeta (seg : StoredSegment) : PartitionBuffer state :=
  let buf := { buf with metaInsertRows := buf.metaInsertRows ++ [metaRow seg] }
  if metaBatchSize ≤ buf.metaInsertRows.length then buf.flushMetaBuffer else buf

/-- The blobs of a segment join the buffer, which is written at the threshold. -/
def pushBlobs (seg : StoredSegment) : PartitionBuffer state :=
  let buf := { buf with
    blobBufferSize := buf.blobBufferSize + (seg.blobs.map fun b => state.blobLen b.2).sum
    blobBuffer := buf.blobBuffer ++ blobRows seg }
  if blobBufferThreshold ≤ buf.blobBufferSize then buf.flushPartitionBlobs else buf

def flushSegment : PartitionBuffer state :=
  let seg := storeSegment (sort buf.batch state.plan.orderColIndices) buf.nextSegmentId
  let buf := { buf with nextSegmentId := wrapI32 (buf.nextSegmentId + 1) }
  let buf := buf.pushMeta seg
  let buf := { buf with totalRows := buf.totalRows + buf.batch.numRows }
  let buf := buf.pushBlobs seg
  { buf with batch := .empty state.kinds }

def writeCompressedSegment (cs : CompressedSegment) : PartitionBuffer state :=
  let buf := buf.pushMeta cs.stored
  let buf := { buf with totalRows := buf.totalRows + cs.rowCount }
  let buf :=
    if buf.nextSegmentId ≤ cs.stored.segmentId then
      { buf with nextSegmentId := wrapI32 (cs.stored.segmentId + 1) }
    else buf
  buf.pushBlobs cs.stored

end PartitionBuffer

/-! ## What a buffer has written -/

/-- The tables and buffers hold the meta rows and the blobs of these segments. -/
structure Wrote (buf : PartitionBuffer state) (segs : List StoredSegment) : Prop where
  metas : buf.metaTable ++ buf.metaInsertRows = segs.map metaRow
  blobs : (buf.blobsTable ++ buf.blobBuffer).Perm (segs.flatMap blobRows)

theorem wrote_new (state : BackfillState) : Wrote (PartitionBuffer.new state) [] :=
  ⟨rfl, .refl _⟩

section

variable (buf : PartitionBuffer state) (seg : StoredSegment)

theorem pushMeta_eq : ∃ table rows,
    buf.pushMeta seg = { buf with metaTable := table, metaInsertRows := rows } ∧
      table ++ rows = buf.metaTable ++ buf.metaInsertRows ++ [metaRow seg] := by
  rw [PartitionBuffer.pushMeta]
  split_ifs
  · exact ⟨_, _, rfl, by simp⟩
  · exact ⟨buf.metaTable, _, rfl, by simp⟩

theorem flushPartitionBlobs_eq : ∃ table rows size,
    buf.flushPartitionBlobs =
      { buf with blobsTable := table, blobBuffer := rows, blobBufferSize := size } ∧
      (table ++ rows).Perm (buf.blobsTable ++ buf.blobBuffer) := by
  rw [PartitionBuffer.flushPartitionBlobs]
  split_ifs
  · exact ⟨_, _, _, rfl, .refl _⟩
  · refine ⟨_, _, _, rfl, ?_⟩
    rw [List.append_nil]
    exact (List.mergeSort_perm _ _).append_left _

theorem pushBlobs_eq : ∃ table rows size,
    buf.pushBlobs seg =
      { buf with blobsTable := table, blobBuffer := rows, blobBufferSize := size } ∧
      (table ++ rows).Perm (buf.blobsTable ++ buf.blobBuffer ++ blobRows seg) := by
  rw [PartitionBuffer.pushBlobs, List.append_assoc]
  split_ifs
  · obtain ⟨table, rows, size, heq, hperm⟩ := flushPartitionBlobs_eq
      { buf with
        blobBufferSize := buf.blobBufferSize + (seg.blobs.map fun b => state.blobLen b.2).sum
        blobBuffer := buf.blobBuffer ++ blobRows seg }
    exact ⟨table, rows, size, heq, hperm⟩
  · exact ⟨_, _, _, rfl, .refl _⟩

end

variable {buf : PartitionBuffer state} {segs : List StoredSegment}

/-- A segment whose meta row and blobs have been pushed has been written. -/
theorem Wrote.push (h : Wrote buf segs) {buf' : PartitionBuffer state} {seg : StoredSegment}
    (hmetas : buf'.metaTable ++ buf'.metaInsertRows =
      buf.metaTable ++ buf.metaInsertRows ++ [metaRow seg])
    (hblobs : (buf'.blobsTable ++ buf'.blobBuffer).Perm
      (buf.blobsTable ++ buf.blobBuffer ++ blobRows seg)) : Wrote buf' (segs ++ [seg]) := by
  constructor
  · rw [hmetas, h.metas, List.map_append]
    rfl
  · rw [List.flatMap_append, List.flatMap_singleton]
    exact hblobs.trans (h.blobs.append_right _)

/-- `flush_segment` writes the rows that have been collected as one segment. -/
theorem flushSegment_spec (h : Wrote buf segs) :
    Wrote buf.flushSegment
        (segs ++ [storeSegment (sort buf.batch state.plan.orderColIndices) buf.nextSegmentId]) ∧
      buf.flushSegment.batch = .empty state.kinds ∧
      buf.flushSegment.nextSegmentId = wrapI32 (buf.nextSegmentId + 1) ∧
      buf.flushSegment.totalRows = buf.totalRows + buf.batch.numRows := by
  rw [PartitionBuffer.flushSegment]
  dsimp only
  generalize storeSegment (sort buf.batch state.plan.orderColIndices) buf.nextSegmentId = seg
  obtain ⟨table, rows, hpush, hmetas⟩ := pushMeta_eq
    { buf with nextSegmentId := wrapI32 (buf.nextSegmentId + 1) } seg
  rw [hpush]
  dsimp only at hmetas ⊢
  obtain ⟨table', rows', size, hpush', hblobs⟩ := pushBlobs_eq
    { buf with
      nextSegmentId := wrapI32 (buf.nextSegmentId + 1)
      metaTable := table
      metaInsertRows := rows
      totalRows := buf.totalRows + buf.batch.numRows } seg
  rw [hpush']
  exact ⟨h.push hmetas hblobs, rfl, rfl, rfl⟩

/-- `write_compressed_segment` leaves the rows that are collected alone. -/
theorem batch_writeCompressedSegment (buf : PartitionBuffer state) (cs : CompressedSegment) :
    (buf.writeCompressedSegment cs).batch = buf.batch := by
  rw [PartitionBuffer.writeCompressedSegment]
  obtain ⟨table, rows, hpush, -⟩ := pushMeta_eq buf cs.stored
  rw [hpush]
  dsimp only
  split_ifs
  all_goals
    obtain ⟨table', rows', size, hpush', -⟩ := pushBlobs_eq _ cs.stored
    rw [hpush']

theorem writeCompressedSegment_spec (h : Wrote buf segs) (cs : CompressedSegment) :
    Wrote (buf.writeCompressedSegment cs) (segs ++ [cs.stored]) ∧
      (buf.writeCompressedSegment cs).totalRows = buf.totalRows + cs.rowCount := by
  rw [PartitionBuffer.writeCompressedSegment]
  obtain ⟨table, rows, hpush, hmetas⟩ := pushMeta_eq buf cs.stored
  rw [hpush]
  dsimp only at hmetas ⊢
  split_ifs
  · obtain ⟨table', rows', size, hpush', hblobs⟩ := pushBlobs_eq
      { buf with
        metaTable := table
        metaInsertRows := rows
        totalRows := buf.totalRows + cs.rowCount
        nextSegmentId := wrapI32 (cs.stored.segmentId + 1) } cs.stored
    rw [hpush']
    exact ⟨h.push hmetas hblobs, rfl⟩
  · obtain ⟨table', rows', size, hpush', hblobs⟩ := pushBlobs_eq
      { buf with
        metaTable := table
        metaInsertRows := rows
        totalRows := buf.totalRows + cs.rowCount } cs.stored
    rw [hpush']
    exact ⟨h.push hmetas hblobs, rfl⟩

/-! ## The end of a COPY -/

structure Companions where
  metaTable : List MetaRow
  blobsTable : List BlobRow
  totalRows : ℤ
deriving DecidableEq, Repr

/-- `ALTER TABLE .. ADD PRIMARY KEY (_col_idx, _segment_id)`. -/
def primaryKeyHolds (blobsTable : List BlobRow) : Bool :=
  decide ((blobsTable.map fun b => (b.colIdx, b.segmentId)).Nodup)

def primaryKeyError : Text := "could not create unique index".toList

def finalizePartition (buf : PartitionBuffer state) : Except Text (Option Companions) :=
  if buf.totalRows = 0 then .ok none
  else if primaryKeyHolds buf.blobsTable then
    .ok (some ⟨buf.metaTable, buf.blobsTable, buf.totalRows⟩)
  else .error primaryKeyError

/-- The flush at the end of a COPY, for one partition; `none` when no row came in. -/
def endOfCopy (buf : PartitionBuffer state) : Except Text (Option Companions) :=
  if buf.batch.numRows = 0 ∧ buf.totalRows = 0 then .ok none
  else
    let buf := if 0 < buf.batch.numRows then buf.flushSegment else buf
    let buf := buf.flushMetaBuffer
    let buf := if buf.blobBuffer.isEmpty then buf else buf.flushPartitionBlobs
    finalizePartition buf

def readBlob (blobsTable : List BlobRow) (segmentId : ℤ) (colIdx : ℕ) : Option TypedColumn :=
  (blobsTable.find? fun b => b.colIdx == colIdx && b.segmentId == segmentId).map BlobRow.data

def readSegment (blobsTable : List BlobRow) (columns : List ColumnMeta) (row : MetaRow) :
    StoredSegment where
  segmentId := row.segmentId
  segValues := row.segValues
  rowCount := row.rowCount
  blobs := (List.range (columns.filter fun c => !c.isSegmentBy).length).filterMap fun i =>
    (readBlob blobsTable row.segmentId i).map fun data => (i, data)

def Companions.rows (t : Companions) (columns : List ColumnMeta) : List (List (Option Stored)) :=
  t.metaTable.flatMap fun row => (readSegment t.blobsTable columns row).rows columns

/-- The blobs of a segment are numbered by the columns that are not segment-by columns. -/
def Numbered (columns : List ColumnMeta) (seg : StoredSegment) : Prop :=
  seg.blobs.map Prod.fst = List.range (columns.filter fun c => !c.isSegmentBy).length

theorem length_blobColumns {columns : List ColumnMeta} {cols : List TypedColumn}
    (h : columns.length = cols.length) :
    (blobColumns columns cols).length = (columns.filter fun c => !c.isSegmentBy).length := by
  induction columns generalizing cols with
  | nil => rfl
  | cons c columns ih =>
      cases cols with
      | nil => cases h
      | cons col cols =>
          rw [blobColumns_cons, List.filter_cons]
          cases hseg : c.isSegmentBy with
          | true =>
              rw [if_pos rfl, if_neg (by simp)]
              exact ih (Nat.succ.inj h)
          | false =>
              rw [if_neg Bool.false_ne_true, if_pos (by simp), List.length_cons,
                List.length_cons, ih (Nat.succ.inj h)]

theorem numbered_storeSegment (c : state.Batch) (segId : ℤ) :
    Numbered state.plan.columns (storeSegment c segId) := by
  show ((blobColumns state.plan.columns c.cols).zipIdx.map Prod.swap).map Prod.fst = _
  rw [← length_blobColumns (length_cols c).symm, List.map_map, List.range_eq_range']
  exact List.zipIdx_map_snd 0 _

section

variable {columns : List ColumnMeta} {table : List BlobRow}

theorem nodup_keys (hnum : ∀ seg ∈ segs, Numbered columns seg)
    (hids : (segs.map StoredSegment.segmentId).Nodup) (htable : table.Perm (segs.flatMap blobRows)) :
    (table.map fun b => (b.colIdx, b.segmentId)).Nodup := by
  rw [(htable.map _).nodup_iff, List.map_flatMap, List.nodup_flatMap]
  constructor
  · intro seg hseg
    have hkeys : ((blobRows seg).map fun b => (b.colIdx, b.segmentId)) =
        (seg.blobs.map Prod.fst).map fun i => (i, seg.segmentId) := by
      rw [blobRows, List.map_map, List.map_map]
      rfl
    rw [hkeys, hnum seg hseg]
    apply List.Nodup.map _ List.nodup_range
    intro i j hij
    exact (Prod.mk.inj hij).1
  · rw [List.Nodup, List.pairwise_map] at hids
    apply hids.imp
    intro seg seg' hne key hkey hkey'
    obtain ⟨b, hb, rfl⟩ := List.mem_map.mp hkey
    obtain ⟨b', hb', heq⟩ := List.mem_map.mp hkey'
    obtain ⟨x, -, rfl⟩ := List.mem_map.mp hb
    obtain ⟨x', -, rfl⟩ := List.mem_map.mp hb'
    exact hne (Prod.mk.inj heq).2.symm

theorem readBlob_eq (hkeys : (table.map fun b => (b.colIdx, b.segmentId)).Nodup) {b : BlobRow}
    (hb : b ∈ table) : readBlob table b.segmentId b.colIdx = some b.data := by
  rw [readBlob]
  cases hfind : table.find? fun r => r.colIdx == b.colIdx && r.segmentId == b.segmentId with
  | none =>
      have hnone := List.find?_eq_none.mp hfind b hb
      rw [beq_self_eq_true, beq_self_eq_true] at hnone
      exact absurd rfl hnone
  | some b' =>
      have hmatch := List.find?_some hfind
      rw [Bool.and_eq_true, beq_iff_eq, beq_iff_eq] at hmatch
      have heq := List.inj_on_of_nodup_map hkeys (List.mem_of_find?_eq_some hfind) hb
        (Prod.ext hmatch.1 hmatch.2)
      rw [heq]
      rfl

/-- The tables give back the segments that were written to them. -/
theorem readSegment_eq (hnum : ∀ seg ∈ segs, Numbered columns seg)
    (hids : (segs.map StoredSegment.segmentId).Nodup) (htable : table.Perm (segs.flatMap blobRows))
    {seg : StoredSegment} (hseg : seg ∈ segs) : readSegment table columns (metaRow seg) = seg := by
  have hkeys := nodup_keys hnum hids htable
  have hblobs : (List.range (columns.filter fun c => !c.isSegmentBy).length).filterMap
      (fun i => (readBlob table seg.segmentId i).map fun data => (i, data)) = seg.blobs := by
    rw [← hnum seg hseg, List.filterMap_map]
    refine (List.filterMap_congr fun b hb => ?_).trans List.filterMap_some
    have hmem : (⟨b.1, seg.segmentId, b.2⟩ : BlobRow) ∈ table :=
      htable.mem_iff.mpr (List.mem_flatMap.mpr ⟨seg, hseg, List.mem_map.mpr ⟨b, hb, rfl⟩⟩)
    rw [Function.comp_apply, readBlob_eq hkeys hmem]
    rfl
  rw [readSegment, metaRow, hblobs]

end

/-- The segments that a buffer has written when the COPY ends. -/
def allSegments (buf : PartitionBuffer state) (segs : List StoredSegment) : List StoredSegment :=
  if 0 < buf.batch.numRows then
    segs ++ [storeSegment (sort buf.batch state.plan.orderColIndices) buf.nextSegmentId]
  else segs

/-- With segment ids that differ, the primary key can be added, and the tables give back every
segment. -/
theorem endOfCopy_spec (h : Wrote buf segs)
    (hnum : ∀ seg ∈ segs, Numbered state.plan.columns seg)
    (hids : ((allSegments buf segs).map StoredSegment.segmentId).Nodup)
    (hpos : 0 ≤ buf.totalRows) (hnone : buf.totalRows = 0 → segs = []) :
    (allSegments buf segs = [] ∧ endOfCopy buf = .ok none) ∨
      ∃ t, endOfCopy buf = .ok (some t) ∧ t.totalRows = buf.totalRows + buf.batch.numRows ∧
        t.metaTable.map (readSegment t.blobsTable state.plan.columns) = allSegments buf segs := by
  by_cases hskip : buf.batch.numRows = 0 ∧ buf.totalRows = 0
  · left
    rw [endOfCopy, if_pos hskip, allSegments, if_neg (by omega)]
    exact ⟨hnone hskip.2, rfl⟩
  · right
    have hlast : ∃ buf', Wrote buf' (allSegments buf segs) ∧
        buf'.totalRows = buf.totalRows + buf.batch.numRows ∧
        (if 0 < buf.batch.numRows then buf.flushSegment else buf) = buf' := by
      rw [allSegments]
      split_ifs with hrows
      · obtain ⟨hwrote, -, -, htotal⟩ := flushSegment_spec h
        exact ⟨_, hwrote, htotal, rfl⟩
      · exact ⟨buf, h, by omega, rfl⟩
    obtain ⟨buf', hwrote, htotal, heq⟩ := hlast
    have hnum' : ∀ seg ∈ allSegments buf segs, Numbered state.plan.columns seg := by
      intro seg hseg
      rw [allSegments] at hseg
      split_ifs at hseg
      · rcases List.mem_append.mp hseg with hseg | hseg
        · exact hnum seg hseg
        · rw [List.mem_singleton.mp hseg]
          exact numbered_storeSegment _ _
      · exact hnum seg hseg
    -- the buffers are empty then
    obtain ⟨table, hflush, htable⟩ : ∃ table : List BlobRow,
        (if buf'.flushMetaBuffer.blobBuffer.isEmpty then buf'.flushMetaBuffer
          else buf'.flushMetaBuffer.flushPartitionBlobs).blobsTable = table ∧
        table.Perm ((allSegments buf segs).flatMap blobRows) := by
      refine ⟨_, rfl, ?_⟩
      have hblobs := hwrote.blobs
      split_ifs with hempty
      · have hnil : buf'.blobBuffer = [] := List.isEmpty_iff.mp hempty
        rw [hnil, List.append_nil] at hblobs
        exact hblobs
      · rw [PartitionBuffer.flushPartitionBlobs, if_neg hempty]
        exact ((List.mergeSort_perm _ _).append_left _).trans hblobs
    have hkey : primaryKeyHolds table = true :=
      decide_eq_true (nodup_keys hnum' hids htable)
    refine ⟨⟨buf'.metaTable ++ buf'.metaInsertRows, table, buf'.totalRows⟩, ?_, htotal, ?_⟩
    · have hfields : ∀ b : PartitionBuffer state, (if b.blobBuffer.isEmpty then b
          else b.flushPartitionBlobs).totalRows = b.totalRows ∧
          (if b.blobBuffer.isEmpty then b else b.flushPartitionBlobs).metaTable = b.metaTable := by
        intro b
        rw [PartitionBuffer.flushPartitionBlobs]
        split_ifs <;> exact ⟨rfl, rfl⟩
      rw [endOfCopy, if_neg hskip, heq]
      dsimp only
      rw [finalizePartition, hflush, hkey, (hfields _).1, (hfields _).2, if_neg, if_pos rfl]
      · rfl
      · show ¬ buf'.totalRows = 0
        omega
    · show (buf'.metaTable ++ buf'.metaInsertRows).map _ = _
      rw [hwrote.metas, List.map_map]
      refine (List.map_congr_left fun seg hseg => ?_).trans (List.map_id _)
      exact readSegment_eq hnum' hids htable hseg

end DeltaX.Copy.Backfill
