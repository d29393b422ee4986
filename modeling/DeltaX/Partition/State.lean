import DeltaX.Support.Machine
import DeltaX.Support.Wrapping
import Mathlib.Algebra.BigOperators.Group.List.Basic
import Mathlib.Algebra.Order.Ring.Int
import Mathlib.Data.Finset.Card
/-!
# A compressed partition and its operations

The state of one partition: the live segments with their rows, the tombstones,
the loose rows in the heap, and the counters and flags of the catalog.  The
operations follow the source; an operation that fails aborts its transaction.
-/

namespace DeltaX.Partition

open Support.Wrapping

variable {ρ κ : Type*}

/-! ## State -/

/-- How rows are laid out in segments: the values of the segment-by columns, the
order of the cursor and the order within a segment.  `read` is the row a scan gives for
a row that was compressed, `restore` the row that its literals insert, if PostgreSQL
takes them all. -/
structure Layout (ρ κ : Type*) where
  hasSegmentBy : Bool
  segmentKey : ρ → κ
  cursorLe : ρ → ρ → Bool
  orderLe : ρ → ρ → Bool
  segmentSize : ℕ
  segmentSize_pos : 0 < segmentSize
  jsonExtract : Bool
  read : ρ → ρ
  restore : ρ → Option ρ

/-- A `_meta` row with the rows its blobs were written from. -/
structure Segment (ρ : Type*) where
  id : ℤ
  rows : List ρ
deriving DecidableEq, Repr

/-- A loose row.  `restored` tells whether decompose put it there. -/
structure HeapRow (ρ : Type*) where
  row : ρ
  restored : Bool
deriving DecidableEq, Repr

/-- A partition: its companion tables, its heap and its catalog row. -/
structure State (ρ : Type*) where
  isCompressed : Bool
  segments : List (Segment ρ)
  tombstones : Finset (ℤ × ℕ)
  heap : List (HeapRow ρ)
  rowCount : Option ℕ
  maxSegmentId : Option ℤ
  hasLooseRows : Bool
  hasTombstones : Bool

def fresh (rows : List ρ) : State ρ where
  isCompressed := false
  segments := []
  tombstones := ∅
  heap := rows.map fun r => ⟨r, false⟩
  rowCount := none
  maxSegmentId := none
  hasLooseRows := false
  hasTombstones := false

def State.segmentIds (st : State ρ) : List ℤ := st.segments.map Segment.id

def State.heapRows (st : State ρ) : List ρ := st.heap.map HeapRow.row

def liveRows (tombstones : Finset (ℤ × ℕ)) (seg : Segment ρ) : List ρ :=
  (seg.rows.zipIdx.filter fun p => decide ((seg.id, p.2) ∉ tombstones)).map Prod.fst

def tombCount (tombstones : Finset (ℤ × ℕ)) (id : ℤ) : ℕ :=
  (tombstones.filter fun p => p.1 = id).card

/-- `COALESCE(MAX(_segment_id), 0)`. -/
def maxMetaId (segments : List (Segment ρ)) : ℤ :=
  ((segments.map Segment.id).max?).getD 0

/-! ## Writing segments -/

/-- `flush_with_splitting`: chunks of `size` rows, each under the next id.  The
loop runs while rows are left, at most `fuel` times. -/
def flushWithSplitting (size : ℕ) : ℕ → ℤ → List ρ → List (Segment ρ) × ℤ
  | 0, next, _ => ([], next)
  | fuel + 1, next, rows =>
      if rows.isEmpty then ([], next)
      else
        let rest := flushWithSplitting size fuel (wrapI32 (next + 1)) (rows.drop size)
        (⟨next, rows.take size⟩ :: rest.1, rest.2)

structure Flush (ρ κ : Type*) where
  rows : List ρ
  currentSegValues : Option κ
  nextSegmentId : ℤ
  segments : List (Segment ρ)

/-- Write out the rows that have been collected; without segment-by columns they
are sorted first. -/
def Flush.flush (l : Layout ρ κ) (f : Flush ρ κ) : Flush ρ κ :=
  let rows := if l.hasSegmentBy then f.rows else f.rows.mergeSort l.orderLe
  let out := flushWithSplitting l.segmentSize rows.length f.nextSegmentId rows
  { f with rows := [], nextSegmentId := out.2, segments := f.segments ++ out.1 }

variable [DecidableEq κ]

/-- At a new segment-by value the collected rows are written out first. -/
def Flush.boundary (l : Layout ρ κ) (f : Flush ρ κ) (r : ρ) : Flush ρ κ :=
  if l.hasSegmentBy then
    match f.currentSegValues with
    | none => { f with currentSegValues := some (l.segmentKey r) }
    | some key =>
        if l.segmentKey r = key then f
        else
          let f := if f.rows.isEmpty then f else f.flush l
          { f with currentSegValues := some (l.segmentKey r) }
  else f

def Flush.append (l : Layout ρ κ) (f : Flush ρ κ) (r : ρ) : Flush ρ κ :=
  let f := f.boundary l r
  let f := { f with rows := f.rows ++ [r] }
  if l.segmentSize ≤ f.rows.length then f.flush l else f

/-- The segments that the heap rows are written to, the first under `next`. -/
def segmentRows (l : Layout ρ κ) (next : ℤ) (rows : List ρ) : List (Segment ρ) :=
  let cursor := if l.hasSegmentBy then rows.mergeSort l.cursorLe else rows
  let f := cursor.foldl (Flush.append l) ⟨[], none, next, []⟩
  (if f.rows.isEmpty then f else f.flush l).segments

/-! ## Operations -/

inductive OpError
  | shapeChanged
  | jsonExtract
  | duplicateSegmentId
  | rejectedLiteral
deriving DecidableEq, Repr

/-- `compress_partition_impl`. -/
def compressPartition (l : Layout ρ κ) (st : State ρ) : Except OpError (State ρ) :=
  if st.isCompressed ∨ st.heap.isEmpty then .ok st
  else
    let segments := segmentRows l 1 st.heapRows
    if (segments.map Segment.id).Nodup then
      .ok { st with
        isCompressed := true
        segments := segments
        tombstones := ∅
        heap := []
        rowCount := some st.heap.length
        hasLooseRows := false
        hasTombstones := false }
    else .error .duplicateSegmentId

def restoreSegmentRows (l : Layout ρ κ) (tombstones : Finset (ℤ × ℕ)) (segments : List (Segment ρ)) :
    Except OpError (List ρ) :=
  match (segments.flatMap (liveRows tombstones)).mapM l.restore with
  | some rows => .ok rows
  | none => .error .rejectedLiteral

/-- `decompress_partition_inner`. -/
def decompressPartition (l : Layout ρ κ) (st : State ρ) : Except OpError (State ρ) :=
  if st.isCompressed then do
    let rows ← restoreSegmentRows l st.tombstones st.segments
    pure { st with
      isCompressed := false
      segments := []
      tombstones := ∅
      heap := st.heap ++ rows.map fun r => ⟨r, false⟩
      rowCount := none
      maxSegmentId := none }
  else pure st

/-- An `INSERT`.  The trigger sets the flag unless the backend remembers having set
it in this transaction. -/
def insertRows (st : State ρ) (rows : List ρ) (memoized : Bool) : State ρ :=
  { st with
    heap := st.heap ++ rows.map fun r => ⟨r, false⟩
    hasLooseRows := st.hasLooseRows || (st.isCompressed && !rows.isEmpty && !memoized) }

def deleteLoose (st : State ρ) (p : ρ → Bool) : State ρ :=
  { st with heap := st.heap.filter fun h => !p h.row }

structure DmlDecomposeStats where
  restoredRows : ℕ
  decomposedSegments : ℕ
  droppedSegments : ℕ
  droppedRows : ℕ
deriving DecidableEq, Repr

def bumpPartitionDecompose (rowCount : Option ℕ) (removed : ℕ) : Option ℕ :=
  some (rowCount.getD 0 - removed)

def decomposeSegmentsForDml (l : Layout ρ κ) (shapeMatches : Bool) (decomposeIds dropIds : Finset ℤ)
    (st : State ρ) : Except OpError (State ρ × DmlDecomposeStats) :=
  if (decomposeIds = ∅ ∧ dropIds = ∅) ∨ st.isCompressed = false then .ok (st, ⟨0, 0, 0, 0⟩)
  else if shapeMatches = false then .error .shapeChanged
  else do
    -- the high-water mark is raised before anything is deleted
    let st := { st with
      maxSegmentId := some (max (st.maxSegmentId.getD 0) (maxMetaId st.segments)) }
    let dropped := st.segments.filter fun seg => decide (seg.id ∈ dropIds)
    let undropped := st.segments.filter fun seg => decide (seg.id ∉ dropIds)
    let claimed := undropped.filter fun seg => decide (seg.id ∈ decomposeIds)
    let restored ← restoreSegmentRows l st.tombstones claimed
    let stats : DmlDecomposeStats :=
      { restoredRows := restored.length
        decomposedSegments := claimed.length
        droppedSegments := dropped.length
        droppedRows :=
          (dropped.map fun seg => seg.rows.length - tombCount st.tombstones seg.id).sum }
    let removedIds := (dropped ++ claimed).map Segment.id
    if removedIds.isEmpty then pure (st, stats)
    else
      pure
        ({ st with
            segments := undropped.filter fun seg => decide (seg.id ∉ decomposeIds)
            tombstones := st.tombstones.filter fun p => p.1 ∉ removedIds
            heap := st.heap ++ restored.map fun r => ⟨r, true⟩
            rowCount :=
              bumpPartitionDecompose st.rowCount (stats.restoredRows + stats.droppedRows)
            hasLooseRows := st.hasLooseRows || decide (0 < stats.restoredRows) }, stats)

/-- The interceptor: `claim_segments_for_tombstone` keeps the targets that are still
there, `dml_matching_offsets` names rows of the segment. -/
def claimTargets (st : State ρ) (targets : List (ℤ × List ℕ)) : List (ℤ × List ℕ) :=
  targets.filterMap fun target =>
    (st.segments.find? fun seg => decide (seg.id = target.1)).map fun seg =>
      (target.1, target.2.filter fun off => decide (off < seg.rows.length))

/-- One `INSERT … ON CONFLICT DO NOTHING` of `insert_dml_tombstones`. -/
def insertOffsets (acc : Finset (ℤ × ℕ) × ℕ) (target : ℤ × List ℕ) : Finset (ℤ × ℕ) × ℕ :=
  let inserted := (target.2.map fun off => (target.1, off)).toFinset \ acc.1
  (acc.1 ∪ inserted, acc.2 + inserted.card)

def insertDmlTombstones (st : State ρ) (targets : List (ℤ × List ℕ)) : State ρ × ℕ :=
  if targets.isEmpty ∨ st.isCompressed = false then (st, 0)
  else
    let out := targets.foldl insertOffsets (st.tombstones, 0)
    if 0 < out.2 then
      ({ st with
          tombstones := out.1
          rowCount := bumpPartitionDecompose st.rowCount out.2
          hasTombstones := true }, out.2)
    else ({ st with tombstones := out.1 }, 0)

/-- The tombstone rewrite of `compact_partition_impl`. -/
def rewriteTombstoned (l : Layout ρ κ) (shapeMatches : Bool) (st : State ρ) :
    Except OpError (State ρ) := do
  let (st, _) ← decomposeSegmentsForDml l shapeMatches (st.tombstones.image Prod.fst) ∅ st
  pure (if st.tombstones = ∅ then { st with hasTombstones := false } else st)

/-- `compact_partition_impl`. -/
def compactPartition (l : Layout ρ κ) (shapeMatches : Bool) (st : State ρ) :
    Except OpError (State ρ) :=
  if st.isCompressed = false then .ok st
  else do
    let st ← rewriteTombstoned l shapeMatches st
    if st.heap.isEmpty then pure { st with hasLooseRows := false }
    else if shapeMatches = false then throw .shapeChanged
    else if l.jsonExtract then throw .jsonExtract
    else
      let maxSegmentId := max (maxMetaId st.segments) (st.maxSegmentId.getD 0)
      let segments := segmentRows l (wrapI32 (maxSegmentId + 1)) st.heapRows
      if ((st.segments ++ segments).map Segment.id).Nodup then
        pure { st with
          segments := st.segments ++ segments
          heap := []
          rowCount := some (st.rowCount.getD 0 + st.heap.length)
          hasLooseRows := false }
      else throw .duplicateSegmentId

/-! ## Runs -/

inductive Op (ρ : Type*)
  | compress
  | insert (rows : List ρ) (memoized : Bool)
  | deleteLoose (p : ρ → Bool)
  | tombstoneDelete (targets : List (ℤ × List ℕ))
  | decompose (shapeMatches : Bool) (decomposeIds dropIds : Finset ℤ)
  | compact (shapeMatches : Bool)
  | decompress

/-- One operation, with the number of rows a compressed `DELETE` reports. -/
def perform (l : Layout ρ κ) (st : State ρ) : Op ρ → Except OpError (State ρ × ℕ)
  | .compress => do pure (← compressPartition l st, 0)
  | .insert rows memoized => pure (insertRows st rows memoized, 0)
  | .deleteLoose p => pure (deleteLoose st p, 0)
  | .tombstoneDelete targets => pure (insertDmlTombstones st (claimTargets st targets))
  | .decompose shapeMatches decomposeIds dropIds => do
      let (st, stats) ← decomposeSegmentsForDml l shapeMatches decomposeIds dropIds st
      pure (st, stats.droppedRows)
  | .compact shapeMatches => do pure (← compactPartition l shapeMatches st, 0)
  | .decompress => do pure (← decompressPartition l st, 0)

def step (l : Layout ρ κ) (st : State ρ) (op : Op ρ) : Except OpError (State ρ) :=
  (perform l st op).map Prod.fst

/-- The state after a run of operations on a partition that starts with `rows`. -/
def reached (l : Layout ρ κ) (rows : List ρ) (ops : List (Op ρ)) : State ρ :=
  Support.Machine.run (step l) (fresh rows) ops

end DeltaX.Partition
