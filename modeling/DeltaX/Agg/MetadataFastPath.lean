import DeltaX.Agg.Accumulators
import DeltaX.Scan.BatchFilter
import DeltaX.Scan.FloatPruning
import DeltaX.Scan.IntClassify
import DeltaX.Support.Extremes
import Mathlib.Data.Int.ConditionallyCompleteOrder
/-!
# Aggregates from metadata

An aggregate without GROUP BY is answered from the counts, sums and bounds that are stored with
every segment.  Under a WHERE clause a segment is taken whole, skipped, counted by its zero
counts, or decompressed and filtered.  This module holds the path as it is written and the
aggregates of the rows, over segments of integer and float columns.
-/

namespace DeltaX.Agg.MetadataFastPath

open Column Stats.Encoding Stats.Colstats Scan Scan.MinMax Scan.IntClassify Scan.FloatPruning
open Support.KeySpan Support.IeeeOrder Support.Extremes

/-! ## Columns -/

inductive FloatType
  | float4 | float8
deriving DecidableEq, Repr

namespace FloatType

def column : FloatType → FloatColumn
  | float4 => FloatPruning.float4
  | float8 => FloatPruning.float8

abbrev Value (t : FloatType) : Type := Pattern t.column.format

/-- `decode_i64_to_f32` and `decode_i64_to_f64`: the encoding is undone bit by bit. -/
def decode : (t : FloatType) → ℤ → t.Value
  | float4, encoded => decodeFloatKey 31 encoded
  | float8, encoded => decodeFloatKey 63 encoded
where
  decodeFloatKey (w : ℕ) (encoded : ℤ) : BitVec (w + 1) :=
    let sign : BitVec (w + 1) := 1#(w + 1) <<< w
    let unsignedKey := BitVec.ofInt (w + 1) encoded ^^^ sign
    if unsignedKey &&& sign ≠ 0#(w + 1) then unsignedKey ^^^ sign else ~~~unsignedKey

/-- `v < cur` on `f32` or `f64` values. -/
def less (t : FloatType) (v cur : t.Value) : Bool := ieeeHolds t.column.format .lt v cur

end FloatType

inductive NumType
  | int (t : IntType)
  | float (t : FloatType)
deriving DecidableEq, Repr

namespace NumType

def typeOid : NumType → TypeOid
  | int t => t.typeOid
  | float t => t.column.typeOid

abbrev Value : NumType → Type
  | int t => BitVec t.width
  | float t => t.Value

abbrev Cells (t : NumType) : Type := List (Option t.Value)

def typed : (t : NumType) → t.Cells → TypedColumn
  | int t, cells => (IntColumn.mk t cells).typed
  | float .float4, cells => .float32 cells
  | float .float8, cells => .float64 cells

def stored : (t : NumType) → t.Cells → ColMinMax
  | int t, cells => (IntColumn.mk t cells).stored
  | float t, cells => t.column.stored cells

def intColumn : (t : NumType) → t.Cells → Option IntColumn
  | int t, cells => some ⟨t, cells⟩
  | float _, _ => none

def ints : (t : NumType) → t.Cells → List (Option ℤ)
  | int _, cells => cells.map (Option.map BitVec.toInt)
  | float _, _ => []

/-- The values of a float column, by their place in PostgreSQL's order. -/
def ranks : (t : NumType) → t.Cells → List (Option (WithTop ℤ))
  | int _, _ => []
  | float t, cells => cells.map (Option.map (rank t.column.format))

/-- The datums of the column; integers are sign-extended. -/
def datums : (t : NumType) → t.Cells → List (Option Datum)
  | int _, cells => cells.map (Option.map (BitVec.signExtend 64))
  | float _, cells => cells.map (Option.map (BitVec.setWidth 64))

end NumType

def typedSum : TypedColumn → Option ℤ
  | .int16 values => sumIntColumn (values.reduceOption.map BitVec.toInt)
  | .int32 values => sumIntColumn (values.reduceOption.map BitVec.toInt)
  | .int64 values => sumIntColumn (values.reduceOption.map BitVec.toInt)
  | _ => none
where
  sumIntColumn (values : List ℤ) : Option ℤ :=
    if 0 < values.length then some (values.foldl (· + ·) 0) else none

/-! ## Segments -/

/-- The metadata that the path reads.  `sumI128` is none where the stored sum is NULL. -/
structure SegmentMeta extends SegmentData where
  sumI128 : Text → Option ℤ
  blobsLoaded : Bool

/-- A segment: its rows, by columns, and the metadata the compressor computed of them.  A
column that was added after compression has its missing value in every row. -/
structure Segment (types : Text → NumType) extends SegmentMeta where
  rows : ℕ
  cells : (name : Text) → (types name).Cells
  cells_length : ∀ name, (cells name).length = rows
  rowCount_eq : rowCount = rows
  minmax_eq : ∀ name cm, colMinmax name = some cm → cm = (types name).stored (cells name)
  sums_eq : ∀ name cs, colSums name = some cs →
    cs = ⟨(computeTypedSum ((types name).typed (cells name))).1,
      (computeTypedSum ((types name).typed (cells name))).2⟩
  sumI128_eq : ∀ name, (colSums name).isSome = true →
    sumI128 name = typedSum ((types name).typed (cells name))

structure MetadataInfo where
  colNames : List Text
  timeColumn : Text
  segmentBy : List Text

/-- `col_names[i]`, for an index in range. -/
def MetadataInfo.colName (info : MetadataInfo) (colIdx : ℤ) : Text :=
  (info.colNames[colIdx.toNat]?).getD []

/-! ## Accumulators -/

/-- Variants of `AggAccumulator`: `MinInt` and `MaxInt` are `extremeInt`, `MinFloat` and
`MaxFloat` are `extremeFloat`. -/
inductive AccKind
  | count
  | sumInt
  | extremeInt (greater : Bool)
  | extremeFloat (greater : Bool) (t : FloatType)
deriving DecidableEq, Repr

/-- `AggAccumulator::new_for`, over integers and, for MIN and MAX, floats. -/
def newFor (aggType : AggType) (colType : TypeOid) : Option AccKind :=
  match aggType with
  | .count | .countStar => some .count
  | .sum | .avg =>
      match colType with
      | .int2 | .int4 | .int8 => some .sumInt
      | _ => none
  | .min => extremeKind false
  | .max => extremeKind true
  | .countDistinct => none
where
  extremeKind (greater : Bool) : Option AccKind :=
    match colType with
    | .int2 | .int4 | .int8 => some (.extremeInt greater)
    | .float4 => some (.extremeFloat greater .float4)
    | .float8 => some (.extremeFloat greater .float8)
    | _ => none

structure MetaSpec extends AggExecSpec where
  kind : AccKind
  kind_eq : newFor aggType colTypeOid = some kind

/-- The value of an accumulator.  A `real` is widened to `f64` and narrowed at the end, which
changes neither the value nor a comparison. -/
abbrev Acc : AccKind → Type
  | .count => ℤ
  | .sumInt => ℤ × ℤ
  | .extremeInt _ => Option ℤ
  | .extremeFloat _ t => Option t.Value

def empty : (k : AccKind) → Acc k
  | .count => (0 : ℤ)
  | .sumInt => ((0, 0) : ℤ × ℤ)
  | .extremeInt _ => (none : Option ℤ)
  | .extremeFloat _ _ => none

abbrev Accs (specs : List MetaSpec) : Type :=
  (slot : Fin specs.length) → Acc (specs.get slot).kind

/-- What is held after `v` was seen. -/
def improve {α : Type*} (better : α → α → Bool) (val : Option α) (v : α) : Option α :=
  some (match val with
    | none => v
    | some cur => if better v cur then v else cur)

/-- The bound that MIN or MAX reads, unless it is NULL. -/
def bound (greater : Bool) (cm : ColMinMax) : Option ℤ :=
  if greater then (if cm.maxNull then none else some cm.maxEncoded)
  else (if cm.minNull then none else some cm.minEncoded)

def addConst (spec : AggExecSpec) : ℤ := if spec.exprKind = .addConst then spec.constOffset else 0

/-- `accumulate_segment_metadata`, for one aggregate.  A stored integer is not converted. -/
def accumulateSegmentMetadata (info : MetadataInfo) (seg : SegmentMeta) (spec : AggExecSpec) :
    (k : AccKind) → Acc k → Acc k
  | .count, (count : ℤ) =>
      match spec.aggType with
      | .countStar => count + seg.rowCount
      | .count =>
          match seg.colSums (info.colName spec.colIdx) with
          | some cs => count + cs.nonnullCount
          | none => count
      | _ => count
  | .sumInt, ((sum, count) : ℤ × ℤ) =>
      match seg.colSums (info.colName spec.colIdx) with
      | none => (sum, count)
      | some cs =>
          match seg.sumI128 (info.colName spec.colIdx) with
          | none => (sum, count)
          | some v => (sum + (v + addConst spec * cs.nonnullCount), count + cs.nonnullCount)
  | .extremeInt greater, (val : Option ℤ) =>
      match (seg.colMinmax (info.colName spec.colIdx)).bind (bound greater) with
      | none => val
      | some v => improve (towards (fun a b => decide (a < b)) greater) val v
  | .extremeFloat greater t, (val : Option t.Value) =>
      match (seg.colMinmax (info.colName spec.colIdx)).bind (bound greater) with
      | none => val
      | some encoded => improve (towards t.less greater) val (t.decode encoded)

/-! ## Decompressed segments -/

variable {types : Text → NumType}

def Segment.decompressed (seg : Segment types) (info : MetadataInfo) (name : Text) :
    Option (List (Option Datum)) :=
  if name ∈ info.segmentBy then none else some ((types name).datums (seg.cells name))

/-- What the filters of one qual do to a selected row. -/
def keepsCell (bq : BatchQual) (cell : Option Datum) : Bool :=
  match bq.op.comparison with
  | some cmp => cell.any (applyBatchFilter bq.typeOid cmp bq.constDatum)
  | none =>
      match bq.inListI64 with
      | some values => cell.any (applyBatchFilterInList values bq.typeOid)
      | none => true

/-- Whether row `i` is selected by the quals. -/
def Segment.selects (seg : Segment types) (info : MetadataInfo) (quals : List BatchQual) (i : ℕ) :
    Bool :=
  quals.all fun bq =>
    match seg.decompressed info (info.colName bq.colIdx) with
    | none => true
    | some col => if col.isEmpty then true else keepsCell bq (col[i]?).join

def Segment.selection (seg : Segment types) (info : MetadataInfo) (quals : List BatchQual) : List ℕ :=
  (List.range seg.rows).filter (seg.selects info quals)

def countCell (count : ℤ) : Option Datum → ℤ
  | some _ => count + 1
  | none => count

def sumCell (c : ℤ) (acc : ℤ × ℤ) : Option Datum → ℤ × ℤ
  | some d => (acc.1 + (d.toInt + c), acc.2 + 1)
  | none => acc

def accumulateSegmentDecompressed (info : MetadataInfo) (seg : Segment types)
    (quals : List BatchQual) (spec : AggExecSpec) : (k : AccKind) → Acc k → Acc k
  | .count, (count : ℤ) =>
      match spec.aggType with
      | .countStar => count + (seg.selection info quals).length
      | .count =>
          match seg.decompressed info (info.colName spec.colIdx) with
          | none => count
          | some col =>
              (seg.selection info quals).foldl (fun count i => countCell count (col[i]?).join) count
      | _ => count
  | .sumInt, (acc : ℤ × ℤ) =>
      match seg.decompressed info (info.colName spec.colIdx) with
      | none => acc
      | some col =>
          (seg.selection info quals).foldl (fun acc i => sumCell (addConst spec) acc (col[i]?).join)
            acc
  -- MIN and MAX are not answered under a WHERE clause
  | .extremeInt _, val => val
  | .extremeFloat _ _, val => val

def mergeAccumulator : (k : AccKind) → Acc k → Acc k → Acc k
  | .count, (dst : ℤ), (src : ℤ) => dst + src
  | .sumInt, (dst : ℤ × ℤ), (src : ℤ × ℤ) => (dst.1 + src.1, dst.2 + src.2)
  | .extremeInt _, dst, _ => dst
  | .extremeFloat _ _, dst, _ => dst

/-! ## Results -/

inductive AggResult
  | value (v : SqlValue)
  | float (t : FloatType) (bits : t.Value)

/-- `finalize_accumulator`.  It does not look at the output transform. -/
def finalizeAccumulator (spec : AggExecSpec) : (k : AccKind) → Acc k → Option AggResult
  | .count, (count : ℤ) => some (.value (.word count))
  | .sumInt, (acc : ℤ × ℤ) =>
      if acc.2 = 0 then none
      else match spec.aggType with
        | .sum =>
            if spec.colTypeOid = .int8 then some (.value (.numeric acc.1))
            else some (.value (.word acc.1))
        | .avg => some (.value (.numeric ((acc.1 : ℚ) / acc.2)))
        | _ => some (.value (.word acc.1))
  | .extremeInt _, (val : Option ℤ) => val.map fun v => .value (.word v)
  | .extremeFloat _ t, (val : Option t.Value) => val.map fun v => .float t v

/-! ## The path -/

structure ParsedAggPlan where
  grouped : Bool
  having : Bool
  hasWhere : Bool
  aggSpecs : List MetaSpec

def isNumericType : TypeOid → Bool
  | .int2 | .int4 | .int8 | .float4 | .float8 | .timestamp | .timestamptz | .date => true
  | _ => false

def isSummable : TypeOid → Bool
  | .int2 | .int4 | .int8 | .float4 | .float8 => true
  | _ => false

def resolvable (hasWhere : Bool) (spec : AggExecSpec) : Bool :=
  match spec.aggType with
  | .countStar => true
  | .sum =>
      (decide (spec.exprKind = .column) || decide (spec.exprKind = .addConst)) &&
        decide (spec.colIdx ≥ 0) && isSummable spec.colTypeOid
  | .avg | .count =>
      decide (spec.exprKind = .column) && decide (spec.colIdx ≥ 0) && isSummable spec.colTypeOid
  | .min | .max => !hasWhere && decide (spec.exprKind = .column) && decide (spec.colIdx ≥ 0)
  | .countDistinct => false

/-- Whether a segment has the metadata that an aggregate needs. -/
def available (info : MetadataInfo) (spec : AggExecSpec) (seg : SegmentMeta) : Bool :=
  match spec.aggType with
  | .sum | .avg | .count => (seg.colSums (info.colName spec.colIdx)).isSome
  | .min | .max => (seg.colMinmax (info.colName spec.colIdx)).isSome
  | .countStar | .countDistinct => true

/-- The segments that are taken whole and those that are not settled. -/
def preClassify (info : MetadataInfo) (quals : List BatchQual) :
    List (Segment types) → Option (List (Segment types) × List (Segment types))
  | [] => some ([], [])
  | seg :: rest =>
      if seg.rowCount = 0 then preClassify info quals rest
      else do
        let result ← classifySegmentQuals seg.toSegmentData quals info.colNames info.timeColumn
        let (allpass, ambiguous) ← preClassify info quals rest
        match result with
        | .allPass => some (seg :: allpass, ambiguous)
        | .nonePass => some (allpass, ambiguous)
        | .ambiguous => some (allpass, seg :: ambiguous)

/-- The two lists; without a WHERE clause every segment with rows is taken whole. -/
def settled (info : MetadataInfo) (plan : ParsedAggPlan) (quals : List BatchQual)
    (segments : List (Segment types)) : Option (List (Segment types) × List (Segment types)) :=
  if plan.hasWhere then preClassify info quals segments
  else some (segments.filter fun seg => decide (seg.rowCount > 0), [])

/-- Whether the zero counts answer for the segments that are not settled: one qual `<> 0` or
`= 0`, nothing but `COUNT(*)`, and the counts loaded. -/
def zeroCounted (info : MetadataInfo) (specs : List MetaSpec) (quals : List BatchQual)
    (ambiguous : List (Segment types)) : Option BatchQual :=
  match quals with
  | [bq] =>
      if specs.all (fun spec => decide (spec.aggType = .countStar)) &&
          isZeroConst bq.constDatum bq.typeOid && (decide (bq.op = .ne) || decide (bq.op = .eq)) &&
          ambiguous.all fun seg => (seg.colSums (info.colName bq.colIdx)).any fun cs =>
            decide (cs.nonzeroCount ≥ 0)
      then some bq else none
  | _ => none

/-- The rows of a segment that pass `<> 0` or `= 0`, by the zero counts. -/
def passing (info : MetadataInfo) (bq : BatchQual) (seg : SegmentMeta) : ℤ :=
  match seg.colSums (info.colName bq.colIdx) with
  | some cs => if bq.op = .ne then cs.nonzeroCount else cs.nonnullCount - cs.nonzeroCount
  | none => 0

def addPassing (spec : AggExecSpec) (n : ℤ) : (k : AccKind) → Acc k → Acc k
  | .count, (count : ℤ) => if spec.aggType = .countStar then count + n else count
  | _, acc => acc

/-- `slice::chunks`, for a size that is not zero. -/
def chunks {α : Type*} (size : ℕ) (xs : List α) : List (List α) :=
  match xs with
  | [] => []
  | x :: xs => (x :: xs.take (size - 1)) :: chunks size (xs.drop (size - 1))
termination_by xs.length
decreasing_by
  rw [List.length_drop, List.length_cons]
  omega

/-- The segments that are not settled, filtered row by row, in one go or by workers. -/
def decompressAll (info : MetadataInfo) (specs : List MetaSpec) (quals : List BatchQual)
    (nWorkers : ℕ) (ambiguous : List (Segment types)) (accs : Accs specs) : Accs specs :=
  let scan (accs : Accs specs) (segs : List (Segment types)) : Accs specs :=
    segs.foldl (fun accs seg slot => accumulateSegmentDecompressed info seg quals
      (specs.get slot).toAggExecSpec _ (accs slot)) accs
  if nWorkers > 1 then
    let chunkSize := (ambiguous.length + nWorkers - 1) / nWorkers
    let results := (chunks chunkSize ambiguous).map (scan fun _ => empty _)
    results.foldl (fun accs localAcc slot => mergeAccumulator _ (accs slot) (localAcc slot)) accs
  else scan accs ambiguous

structure AggScanState where
  results : List (Option AggResult)
  totalSegments : ℕ
  segmentsMetadataResolved : ℕ
  segmentsDecompressed : ℕ

def finalizeAll {specs : List MetaSpec} (accs : Accs specs) : List (Option AggResult) :=
  List.ofFn fun slot => finalizeAccumulator (specs.get slot).toAggExecSpec _ (accs slot)

def tryMetadataFastPath (info : MetadataInfo) (plan : ParsedAggPlan) (quals : List BatchQual)
    (nWorkers : ℕ) (segments : List (Segment types)) : Option AggScanState :=
  if plan.grouped || plan.having then none
  else if plan.hasWhere && (quals.isEmpty || quals.any fun bq => !isNumericType bq.typeOid) then none
  else if !plan.aggSpecs.all fun spec => resolvable plan.hasWhere spec.toAggExecSpec then none
  else if !plan.aggSpecs.all fun spec =>
      segments.all fun seg => available info spec.toAggExecSpec seg.toSegmentMeta then none
  else do
    let (allpass, ambiguous) ← settled info plan quals segments
    let accs : Accs plan.aggSpecs := allpass.foldl (fun accs seg slot =>
      accumulateSegmentMetadata info seg.toSegmentMeta (plan.aggSpecs.get slot).toAggExecSpec _
        (accs slot)) fun _ => empty _
    match zeroCounted info plan.aggSpecs quals ambiguous with
    | some bq =>
        let accs : Accs plan.aggSpecs := ambiguous.foldl (fun accs seg slot =>
          addPassing (plan.aggSpecs.get slot).toAggExecSpec (passing info bq seg.toSegmentMeta) _
            (accs slot)) accs
        some ⟨finalizeAll accs, segments.length, allpass.length, 0⟩
    | none =>
        if ambiguous.any fun seg => !seg.blobsLoaded then none
        else
          some ⟨finalizeAll (decompressAll info plan.aggSpecs quals nWorkers ambiguous accs),
            segments.length, allpass.length, ambiguous.length⟩

end DeltaX.Agg.MetadataFastPath
