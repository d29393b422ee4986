import DeltaX.Agg.Accumulators
import DeltaX.Support.Extremes
import DeltaX.Support.IeeeSums
/-!
# Aggregate pushdown

What the planner recognizes of a grouped query, the specs it records for the
executor, and what the executor makes of them, against what the query means.
-/

namespace DeltaX.Agg

open Column Support.Extremes Support.IeeeOrder

/-! ## Rows -/

/-- A value of a by-reference type: where it lies, what it stands for, how many
bytes it has and how it prints. -/
structure RefValue where
  address : ℤ
  value : ℚ
  octets : ℕ
  rendering : Text
deriving DecidableEq, Repr

/-- A column value; a float is its bits. -/
inductive Cell
  | word (v : ℤ)
  | float4 (bits : Pattern binary32)
  | float8 (bits : Pattern binary64)
  | text (s : Text)
  | ref (r : RefValue)
deriving DecidableEq, Repr

def Cell.hasType : Cell → TypeOid → Bool
  | .float4 _, .float4 | .float8 _, .float8 => true
  | .text _, .text | .text _, .varchar | .text _, .bpchar => true
  | .ref _, .other _ => true
  | .word _, .int2 | .word _, .int4 | .word _, .int8 => true
  | .word _, .bool | .word _, .date | .word _, .time => true
  | .word _, .timestamp | .word _, .timestamptz => true
  | _, _ => false

structure Row (types : ℕ → TypeOid) where
  cell : ℕ → Option Cell
  typed : ∀ i c, cell i = some c → c.hasType (types i) = true

/-- A value of SQL, without an address.  A float is its value as `rank` has it, in which
the zeros are one and the NaNs are the greatest. -/
inductive AggValue
  | word (v : ℤ)
  | numeric (v : ℚ)
  | float4 (v : WithTop ℤ)
  | float8 (v : WithTop ℤ)
  | text (s : Text)
deriving DecidableEq, Repr

def Cell.value : Cell → AggValue
  | .word v => .word v
  | .float4 bits => .float4 (rank binary32 bits)
  | .float8 bits => .float8 (rank binary64 bits)
  | .text s => .text s
  | .ref r => .numeric r.value

/-- A collation: a strict order of texts in which different texts do not tie. -/
structure Collation where
  less : Text → Text → Bool
  irrefl : ∀ s, less s s = false
  trans : ∀ s t u, less s t = true → less t u = true → less s u = true
  total : ∀ s t, s ≠ t → less s t = true ∨ less t s = true

/-! ## The query -/

inductive AggName
  | sum | avg | count | min | max
  | other (name : Text)
deriving DecidableEq, Repr

structure IntConst where
  typeOid : TypeOid
  isNull : Bool
  value : ℤ
deriving DecidableEq, Repr

/-- The argument of an aggregate, with the position of its column: the column,
the column relabelled to another type of the same representation, `length` of it, the
column plus a constant in either order, or anything else. -/
inductive AggArg
  | var (col : ℕ)
  | relabel (col : ℕ)
  | length (col : ℕ)
  | plus (col : ℕ) (c : IntConst)
  | other
deriving DecidableEq, Repr

structure Aggref where
  name : AggName
  star : Bool
  distinct : Bool
  filter : Bool
  inputcollid : ℕ
  args : List AggArg
deriving DecidableEq, Repr

/-- What rows are grouped by: a column, or an expression over columns (which `key`
stands for). -/
inductive GroupKeySpec
  | column (col : ℕ)
  | expr (key : ℕ)
deriving DecidableEq, Repr

/-- A GROUP BY entry: a constant, a key the planner records, or an expression it has
no spec for. -/
inductive GroupItem
  | const
  | key (spec : GroupKeySpec)
  | unsupported
deriving DecidableEq, Repr

/-- The parts of the query the aggregate planning reads.  An entry of the target
list is given by the aggregates in it, or is one the planner has no place for;
grouping sets are lists of positions in the GROUP BY clause.  DISTINCT is applied
to the groups' rows by a node above. -/
structure UpperQuery where
  targetList : List (Option (List Aggref))
  groupClause : List GroupItem
  groupingSets : Option (List (List ℕ))
  distinctClause : Bool
deriving DecidableEq, Repr

/-! ## Classification -/

/-- Column, recorded type and shape of an argument. -/
structure ResolvedArg where
  col : ℕ
  typeOid : TypeOid
  exprKind : AggExpr
  constOffset : ℤ

/-- The argument of an aggregate as the planner resolves it; `none` where it
gives up.  The recorded type is the column's, but `integer` for `length`. -/
def resolveArg (types : ℕ → TypeOid) : AggArg → Option ResolvedArg
  | .var col => some ⟨col, types col, .column, 0⟩
  | .relabel col => some ⟨col, types col, .column, 0⟩
  | .length col => some ⟨col, .int4, .lengthOf, 0⟩
  | .plus col c =>
      if c.isNull then none
      else if c.typeOid ≠ .int2 ∧ c.typeOid ≠ .int4 ∧ c.typeOid ≠ .int8 then none
      else if c.value < -2147483648 ∨ c.value > 2147483647 then none
      else some ⟨col, types col, .addConst, c.value⟩
  | .other => none

/-- The aggregate the executor is told to compute. -/
def aggTypeOf (name : AggName) (distinct : Bool) : Option AggType :=
  match name with
  | .sum => some .sum
  | .avg => some .avg
  | .count => some (if distinct then .countDistinct else .count)
  | .min => some .min
  | .max => some .max
  | .other _ => none

/-- The spec of one aggregate; `none` where the planner gives up. -/
def classify (types : ℕ → TypeOid) (a : Aggref) : Option AggExecSpec :=
  if a.filter then none
  else if a.star then some ⟨.countStar, -1, .other 0, .column, 0, .none⟩
  else match a.args with
    | [arg] =>
        match resolveArg types arg, aggTypeOf a.name a.distinct with
        | some r, some aggType =>
            some ⟨aggType, r.col, r.typeOid, r.exprKind, r.constOffset, .none⟩
        | _, _ => none
    | _ => none

def UpperQuery.aggrefs (q : UpperQuery) : Option (List Aggref) :=
  (q.targetList.mapM fun entry => entry).map List.flatten

/-- What a GROUP BY entry adds to the keys: a constant adds none. -/
def GroupItem.specs : GroupItem → Option (List GroupKeySpec)
  | .const => some []
  | .key spec => some [spec]
  | .unsupported => none

def groupSpecs (items : List GroupItem) : Option (List GroupKeySpec) :=
  (items.mapM GroupItem.specs).map List.flatten

structure PlannerEnv where
  types : ℕ → TypeOid
  hasWhere : Bool
  hasHaving : Bool
  /-- Every WHERE clause can be answered from segment metadata. -/
  metaQuals : Bool
  metaFastpath : Bool
  tombstones : Bool
  /-- Column statistics of MIN and MAX columns are at hand. -/
  colstats : Bool
  /-- The gates of the general path on heap rows, WHERE, HAVING and estimates. -/
  aggGates : Bool

def isMinmaxMetaType : TypeOid → Bool
  | .int2 | .int4 | .int8 | .float4 | .float8 | .date | .timestamp | .timestamptz => true
  | _ => false

def metaAnswerable (spec : AggExecSpec) : Bool :=
  match spec.aggType with
  | .countStar => true
  | .sum =>
      (spec.colTypeOid == .int2 || spec.colTypeOid == .int4 || spec.colTypeOid == .float4 ||
        spec.colTypeOid == .float8) && (spec.exprKind == .column || spec.exprKind == .addConst)
  | .count => spec.exprKind == .column
  | .min | .max =>
      spec.exprKind == .column && isMinmaxMetaType spec.colTypeOid &&
        spec.outputTransform == .none
  | .avg | .countDistinct => false

/-- `all_minmax`: an aggregate of another kind clears it for good. -/
def allMinmax (specs : List AggExecSpec) : Bool :=
  specs.all fun spec => spec.aggType == .min || spec.aggType == .max

/-- Where `deltax_create_upper_paths` ends up: no path, the row-count path, the
metadata path, an argument read as the column reference it is not, or the
general path. -/
inductive Outcome
  | declined
  | countStar
  | minmax (specs : List AggExecSpec)
  | misread
  | agg (specs : List AggExecSpec) (groups : List GroupKeySpec)
deriving DecidableEq

def isPlainVar (a : Aggref) : Bool :=
  match a.args with
  | [.var _] => true
  | _ => false

def createUpperPaths (env : PlannerEnv) (q : UpperQuery) : Outcome :=
  let hasGroupBy := !q.groupClause.isEmpty
  match q.aggrefs with
  | none => .declined
  | some [] => .declined
  | some aggrefs =>
      if aggrefs.length == 1 && aggrefs.all (fun a => a.star && !a.filter) && !hasGroupBy &&
          !env.hasHaving && (!env.hasWhere || (env.metaFastpath && env.metaQuals)) then .countStar
      else match aggrefs.mapM (classify env.types) with
        | none => .declined
        | some specs =>
            if specs.all metaAnswerable && !hasGroupBy && !env.hasHaving && env.metaFastpath &&
                (!env.hasWhere || env.metaQuals) && !env.tombstones then .minmax specs
            else if allMinmax specs && !hasGroupBy && !env.hasWhere then
              if !aggrefs.all isPlainVar then .misread
              else if env.colstats && !env.tombstones then .minmax specs
              else .declined
            else if !env.aggGates then .declined
            else match groupSpecs q.groupClause with
              | none => .declined
              | some groups => .agg specs groups

/-! ## What a spec computes -/

section executor

variable {types : ℕ → TypeOid}

def columnCells (rows : List (Row types)) (col : ℕ) : List Cell :=
  rows.filterMap fun row => row.cell col

def Cell.datumWord : Cell → ℤ
  | .word v => v
  | .float4 bits => bits.toNat
  | .float8 bits => bits.toNat
  | .ref r => r.address
  | .text _ => 0

/-- IEEE `<`, false on NaN. -/
def floatLess : WithTop ℤ → WithTop ℤ → Bool
  | WithTop.some a, WithTop.some b => decide (a < b)
  | _, _ => false

def Cell.floatValue : Cell → WithTop ℤ
  | .float4 bits => rank binary32 bits
  | .float8 bits => rank binary64 bits
  | _ => 0

/-- The value of a float as an `f64`. -/
def Cell.toFloat : Cell → WithTop ℤ
  | .float4 bits => convertValue binary32 binary64 (rank binary32 bits)
  | .float8 bits => rank binary64 bits
  | _ => 0

def Cell.toText : Cell → Text
  | .text s => s
  | _ => []

/-- The characters of a text column's value, which for a by-reference type is its
rendering. -/
def Cell.charCount : Cell → ℤ
  | .text s => s.length
  | .ref r => r.rendering.length
  | _ => 0

/-- The integers a sum adds up: SUM and AVG know of `length` and of the constant. -/
def sumInputs (spec : AggExecSpec) (cells : List Cell) : List ℤ :=
  match spec.exprKind with
  | .lengthOf => cells.map Cell.charCount
  | .addConst => cells.map fun c => c.datumWord + spec.constOffset
  | .column => cells.map Cell.datumWord

/-- The floats a sum adds up, of either type as `f64`. -/
def floatInputs (spec : AggExecSpec) (cells : List Cell) : List (WithTop ℤ) :=
  match spec.exprKind with
  | .addConst => cells.map fun c =>
      addValues binary64 c.toFloat (spec.constOffset * binary64.one : ℤ)
  | _ => cells.map Cell.toFloat

/-- SUM; a sum of reals is one of doubles until the end, and integers of other columns
than bigint leave as words. -/
def specSum (spec : AggExecSpec) (cells : List Cell) : Option AggValue :=
  if cells.isEmpty then none
  else if spec.colTypeOid = .float4 then
    some (.float4 (convertValue binary64 binary32 (sumValues binary64 (floatInputs spec cells))))
  else if spec.colTypeOid = .float8 then
    some (.float8 (sumValues binary64 (floatInputs spec cells)))
  else if spec.colTypeOid = .int8 then some (.numeric ((sumInputs spec cells).sum : ℤ))
  else some (.word (sumInputs spec cells).sum)

def specAvg (spec : AggExecSpec) (cells : List Cell) : Option AggValue :=
  if cells.isEmpty then none
  else if isFloatType spec.colTypeOid then
    some (.float8 (divideValue binary64 (sumValues binary64 (floatInputs spec cells))
      cells.length))
  else some (.numeric (((sumInputs spec cells).sum : ℤ) / cells.length))

def AggValue.ofFloat (t : TypeOid) (v : WithTop ℤ) : AggValue :=
  if t = .float4 then .float4 v else .float8 v

/-- MIN, and MAX with `greater`, compare the column itself, and find no value in a
text column they take for one of integers.  Texts are compared in the
default collation, `collations 0`. -/
def specExtreme (collations : ℕ → Collation) (greater : Bool) (spec : AggExecSpec)
    (cells : List Cell) : Option AggValue :=
  if spec.exprKind = .lengthOf then none
  else if isTextType spec.colTypeOid then
    (fold1 (towards (collations 0).less greater) (cells.map Cell.toText)).map .text
  else if isFloatType spec.colTypeOid then
    (fold1 (towards floatLess greater) (cells.map Cell.floatValue)).map
      (AggValue.ofFloat spec.colTypeOid)
  else
    (fold1 (towards (fun a b => decide (a < b)) greater) (cells.map Cell.datumWord)).map .word

/-- COUNT(DISTINCT) counts texts, or words; the hashes of texts are taken to be
distinct. -/
def specCountDistinct (spec : AggExecSpec) (cells : List Cell) : ℕ :=
  if spec.exprKind = .lengthOf then 0
  else if isTextType spec.colTypeOid then (cells.map Cell.toText).dedup.length
  else (cells.map Cell.datumWord).dedup.length

/-- What the executor computes over the values of the spec's column. -/
def AggExecSpec.cellsValue (collations : ℕ → Collation) (spec : AggExecSpec)
    (cells : List Cell) : Option AggValue :=
  match spec.aggType with
  | .countStar | .count => some (.word cells.length)
  | .sum => specSum spec cells
  | .avg => specAvg spec cells
  | .countDistinct => some (.word (specCountDistinct spec cells))
  | .min => specExtreme collations false spec cells
  | .max => specExtreme collations true spec cells

/-- What the executor computes for a spec over the rows of a group. -/
def specValue (collations : ℕ → Collation) (spec : AggExecSpec)
    (rows : List (Row types)) : Option AggValue :=
  match spec.aggType with
  | .countStar => some (.word rows.length)
  | _ => spec.cellsValue collations (columnCells rows spec.colIdx.toNat)

end executor

/-! ## What an aggregate means -/

section meaning

variable {types : ℕ → TypeOid}

def AggArg.col : AggArg → ℕ
  | .var col | .relabel col | .length col | .plus col _ => col
  | .other => 0

def AggArg.eval (arg : AggArg) (c : Cell) : AggValue :=
  match arg, c with
  | .length _, .text s => .word s.length
  | .length _, .ref r => .word r.octets
  | .plus _ k, .word v => .word (v + k.value)
  | _, c => c.value

/-- The type of an argument; a sum of a smaller integer and a bigint is one. -/
def AggArg.typeOid (types : ℕ → TypeOid) : AggArg → TypeOid
  | .var col | .relabel col => types col
  | .length _ => .int4
  | .plus col c => if c.typeOid = .int8 then .int8 else types col
  | .other => .other 0

def AggValue.toInt : AggValue → ℤ
  | .word v => v
  | _ => 0

def AggValue.toRat : AggValue → ℚ
  | .word v => v
  | .numeric v => v
  | _ => 0

def AggValue.floatValue : AggValue → WithTop ℤ
  | .float4 v | .float8 v => v
  | _ => 0

def AggValue.toFloat : AggValue → WithTop ℤ
  | .float4 v => convertValue binary32 binary64 v
  | .float8 v => v
  | _ => 0

/-- The order of values: NaN is the greatest float. -/
def AggValue.less (collate : Collation) : AggValue → AggValue → Bool
  | .word a, .word b => decide (a < b)
  | .numeric a, .numeric b => decide (a < b)
  | .float4 a, .float4 b => lessValue a b
  | .float8 a, .float8 b => lessValue a b
  | .text a, .text b => collate.less a b
  | _, _ => false

/-- SUM: bigint over the smaller integers, numeric over bigint.  Floats are added in
their own format, to the first of them. -/
def sqlSum (t : TypeOid) (vs : List AggValue) : Option AggValue :=
  if vs.isEmpty then none
  else if t = .float4 then (sumFromFirst binary32 (vs.map AggValue.floatValue)).map .float4
  else if t = .float8 then (sumFromFirst binary64 (vs.map AggValue.floatValue)).map .float8
  else if t = .int2 ∨ t = .int4 then some (.word (vs.map AggValue.toInt).sum)
  else if t = .int8 then some (.numeric ((vs.map AggValue.toInt).sum : ℤ))
  else some (.numeric (vs.map AggValue.toRat).sum)

/-- AVG: of either type of floats in double precision, from zero on. -/
def sqlAvg (t : TypeOid) (vs : List AggValue) : Option AggValue :=
  if vs.isEmpty then none
  else if isFloatType t then
    some (.float8 (divideValue binary64 (sumValues binary64 (vs.map AggValue.toFloat)) vs.length))
  else if t = .int2 ∨ t = .int4 ∨ t = .int8 then
    some (.numeric (((vs.map AggValue.toInt).sum : ℤ) / vs.length))
  else some (.numeric ((vs.map AggValue.toRat).sum / vs.length))

def sqlAggregate (collate : Collation) (name : AggName) (t : TypeOid)
    (vs : List AggValue) : Option AggValue :=
  match name with
  | .count => some (.word vs.length)
  | .sum => sqlSum t vs
  | .avg => sqlAvg t vs
  | .min => fold1 (towards (AggValue.less collate) false) vs
  | .max => fold1 (towards (AggValue.less collate) true) vs
  | .other _ => none

def Aggref.cellsValue (collations : ℕ → Collation) (types : ℕ → TypeOid) (a : Aggref)
    (arg : AggArg) (cells : List Cell) : Option AggValue :=
  let vs := cells.map arg.eval
  sqlAggregate (collations a.inputcollid) a.name (arg.typeOid types)
    (if a.distinct then vs.dedup else vs)

def Aggref.value (collations : ℕ → Collation) (a : Aggref) (rows : List (Row types)) :
    Option AggValue :=
  if a.star then some (.word rows.length)
  else match a.args with
    | [arg] => a.cellsValue collations types arg (columnCells rows arg.col)
    | _ => none

def isRefOid : TypeOid → Bool
  | .other _ => true
  | _ => false

/-- Types SUM and AVG are defined for. -/
def isNumberOid (t : TypeOid) : Bool :=
  t == .int2 || t == .int4 || t == .int8 || isFloatType t || isRefOid t

/-- Types `+` with an integer constant is defined for. -/
def AddsInteger (t : TypeOid) : Prop := t = .int2 ∨ t = .int4 ∨ t = .int8 ∨ t = .date

def AggArg.Valid (types : ℕ → TypeOid) : AggArg → Prop
  | .relabel col => isTextType (types col) = true
  | .length col => isTextType (types col) = true ∨ isRefOid (types col) = true
  | .plus col _ => AddsInteger (types col)
  | _ => True

def Aggref.Valid (types : ℕ → TypeOid) (a : Aggref) : Prop :=
  (a.star = true → a.name = .count) ∧
    ∀ arg ∈ a.args, arg.Valid types ∧
      ((a.name = .sum ∨ a.name = .avg) → isNumberOid (arg.typeOid types) = true)

end meaning

/-! ## Groups -/

section groups

/-- The groups of `n` rows under a key, as lists of positions. -/
def groupsBy {κ : Type*} [DecidableEq κ] (key : ℕ → κ) (n : ℕ) : List (List ℕ) :=
  ((List.range n).map fun i => (List.range n).filter fun j => decide (key j = key i)).dedup

/-- A table's rows, and the values of the expressions over them. -/
structure GroupInput (types : ℕ → TypeOid) where
  row : ℕ → Row types
  exprValue : ℕ → ℕ → Option AggValue

variable {types : ℕ → TypeOid}

def Cell.groupValue : Cell → AggValue
  | .text s => .text s
  | c => .word c.datumWord

def GroupKeySpec.execValue (input : GroupInput types) (spec : GroupKeySpec) (i : ℕ) :
    Option AggValue :=
  match spec with
  | .column col => ((input.row i).cell col).map Cell.groupValue
  | .expr key => input.exprValue key i

def GroupKeySpec.value (input : GroupInput types) (spec : GroupKeySpec) (i : ℕ) :
    Option AggValue :=
  match spec with
  | .column col => ((input.row i).cell col).map Cell.value
  | .expr key => input.exprValue key i

/-- The groups the executor makes: without keys, one. -/
def producedGroups (input : GroupInput types) (groups : List GroupKeySpec) (n : ℕ) :
    List (List ℕ) :=
  if groups.isEmpty then [List.range n]
  else groupsBy (fun i => groups.map fun spec => spec.execValue input i) n

def GroupItem.value (input : GroupInput types) (item : GroupItem) (i : ℕ) : Option AggValue :=
  match item with
  | .key spec => spec.value input i
  | _ => none

/-- The groups of one grouping set: without an entry, one; else those that have rows. -/
def setGroups (input : GroupInput types) (items : List GroupItem) (n : ℕ) : List (List ℕ) :=
  if items.isEmpty then [List.range n]
  else groupsBy (fun i => items.map fun item => item.value input i) n

def UpperQuery.sqlGroups (q : UpperQuery) (input : GroupInput types) (n : ℕ) : List (List ℕ) :=
  match q.groupingSets with
  | none => setGroups input q.groupClause n
  | some sets => sets.flatMap fun set => setGroups input (set.filterMap (q.groupClause[·]?)) n

/-- Grouping sets as the parser makes them: there is one, and together they have
the entries of the GROUP BY clause. -/
def UpperQuery.Valid (q : UpperQuery) : Prop :=
  ∀ sets, q.groupingSets = some sets →
    sets ≠ [] ∧ (∀ set ∈ sets, ∀ i ∈ set, i < q.groupClause.length) ∧
      ∀ i < q.groupClause.length, ∃ set ∈ sets, i ∈ set

end groups

end DeltaX.Agg
