import Mathlib.Data.Char
import Mathlib.Data.List.Lex
import Mathlib.Data.List.ReduceOption
/-!
# Columns as the compressor holds them

The data types of a column, the native representation it is read into, and the
type predicates that decide which statistics a column gets.  Integers and
floats are kept as their bits; a row that is NULL is `none`.
-/

namespace DeltaX.Column

/-- PostgreSQL text, one Unicode scalar value at a time. -/
abbrev Text : Type := List Char

-- named here so that membership in a list of texts is decided by one term everywhere
instance : LawfulBEq Text := inferInstanceAs (LawfulBEq (List Char))

/-- A pass-by-value datum, or the pointer bits of a by-reference one. -/
abbrev Datum : Type := BitVec 64

inductive TypeOid
  | int2 | int4 | int8
  | float4 | float8
  | bool
  | date | time | timestamp | timestamptz
  | text | varchar | bpchar
  | other (oid : ℕ)
deriving DecidableEq, Repr

def isTextType : TypeOid → Bool
  | .text | .varchar | .bpchar => true
  | _ => false

def isDateTime : TypeOid → Bool
  | .date | .timestamp | .timestamptz => true
  | _ => false

def isFloatType : TypeOid → Bool
  | .float4 | .float8 => true
  | _ => false

theorem isFloatType_iff {t : TypeOid} : isFloatType t = true ↔ t = .float4 ∨ t = .float8 := by
  cases t <;> simp [isFloatType]

/-- The `data_type` names the compressor distinguishes; an alias stands with the
type it is an alias of. -/
inductive DataType
  | smallint | integer | bigint
  | real | doublePrecision
  | boolean
  | timestamp | timestamptz | date | time
  | text | varchar | char
  | numeric | jsonb | uuid | bytea | inet
  | other (name : Text)
deriving DecidableEq, Repr

namespace DataType

def typeOid : DataType → TypeOid
  | smallint => .int2
  | integer => .int4
  | bigint => .int8
  | real => .float4
  | doublePrecision => .float8
  | boolean => .bool
  | timestamp => .timestamp
  | timestamptz => .timestamptz
  | date => .date
  | time => .time
  | text => .text
  | varchar => .varchar
  | char => .bpchar
  | numeric => .other 1700
  | jsonb => .other 3802
  | uuid => .other 2950
  | bytea => .other 17
  | inet => .other 869
  | other _ => .other 0

/-- `is_text_data_type`. -/
def isText : DataType → Bool
  | text | varchar | char => true
  | _ => false

def supportsMinmax : DataType → Bool
  | timestamp | timestamptz | date | time => true
  | smallint | integer | bigint | real | doublePrecision => true
  | _ => false

def supportsSum : DataType → Bool
  | smallint | integer | bigint | real | doublePrecision => true
  | dt => dt.isText

end DataType

inductive ColumnKind
  | text
  | int16 | int32 | int64
  | float32 | float64
  | bool
  | timestamp | timestamptz | date | time
  | jsonb | uuid | bytea | inet
deriving DecidableEq, Repr

/-- `classify_column`; `forceTextFallback` is the testing switch of that name. -/
def classifyColumn (forceTextFallback : Bool) (dataType : DataType) (isSegmentBy : Bool) :
    ColumnKind :=
  if isSegmentBy then .text
  else match dataType with
    | .smallint => .int16
    | .integer => .int32
    | .bigint => .int64
    | .doublePrecision => .float64
    | .real => .float32
    | .boolean => .bool
    | .timestamptz => .timestamptz
    | .timestamp => .timestamp
    | .date => .date
    | .jsonb => .jsonb
    | .time => if forceTextFallback then .text else .time
    | .uuid => if forceTextFallback then .text else .uuid
    | .bytea => if forceTextFallback then .text else .bytea
    | .inet => if forceTextFallback then .text else .inet
    | _ => .text

/-- Column data in native types.  Floats are their bit patterns. -/
inductive TypedColumn
  | text (values : List (Option Text))
  | bytes (values : List (Option (List (BitVec 8))))
  | int16 (values : List (Option (BitVec 16)))
  | int32 (values : List (Option (BitVec 32)))
  | int64 (values : List (Option (BitVec 64)))
  | float32 (values : List (Option (BitVec 32)))
  | float64 (values : List (Option (BitVec 64)))
  | bool (values : List (Option Bool))
deriving DecidableEq, Repr

namespace TypedColumn

/-- Which rows of the column hold a value. -/
def present : TypedColumn → List Bool
  | text values => values.map Option.isSome
  | bytes values => values.map Option.isSome
  | int16 values => values.map Option.isSome
  | int32 values => values.map Option.isSome
  | int64 values => values.map Option.isSome
  | float32 values => values.map Option.isSome
  | float64 values => values.map Option.isSome
  | bool values => values.map Option.isSome

/-- The representation `new_typed_column` picks for a kind. -/
def hasKind : TypedColumn → ColumnKind → Bool
  | text _, .text => true
  | bytes _, .jsonb | bytes _, .uuid | bytes _, .bytea | bytes _, .inet => true
  | int16 _, .int16 => true
  | int32 _, .int32 => true
  | int64 _, .int64 => true
  | int64 _, .timestamp | int64 _, .timestamptz | int64 _, .date | int64 _, .time => true
  | float32 _, .float32 => true
  | float64 _, .float64 => true
  | bool _, .bool => true
  | _, _ => false

end TypedColumn

/-- The compressor's description of one column. -/
structure ColumnMeta where
  name : Text
  dataType : DataType
  isSegmentBy : Bool
  isTimeColumn : Bool
deriving DecidableEq, Repr

def pgEpochOffsetUsec : BitVec 64 := 946684800000000

def pgEpochOffsetDays : BitVec 64 := 10957

def usecPerDay : BitVec 64 := 86400000000

/-- The number of values a row list holds. -/
theorem length_reduceOption_eq_countP {α : Type*} (values : List (Option α)) :
    values.reduceOption.length = values.countP Option.isSome := by
  rw [List.reduceOption_length_eq, List.countP_eq_length_filter]

end DeltaX.Column
