import DeltaX.Column.Typed
import Mathlib.RingTheory.Coprime.Lemmas
import Mathlib.Tactic.NormNum
import Mathlib.Tactic.Ring
/-!
# Collecting rows into typed columns

A row of the cursor is read value by value into the typed columns; columns are
cut at a row range and reordered by a permutation.  A column is looked at through
`cells`, the list of what it holds, which every operation acts on in the same way
whatever the representation.
-/

namespace DeltaX.Column

/-! ## Values -/

/-- A value of a row as the cursor delivers it; floats are their bits. -/
inductive Value
  | int2 (v : BitVec 16)
  | int4 (v : BitVec 32)
  | int8 (v : BitVec 64)
  | float4 (bits : BitVec 32)
  | float8 (bits : BitVec 64)
  | bool (v : Bool)
  | timestamp (usec : BitVec 64)
  | timestamptz (usec : BitVec 64)
  | date (days : BitVec 32)
  | time (usec : BitVec 64)
  | text (v : Text)
  | jsonb (payload : List (BitVec 8))
  | uuid (bytes : List (BitVec 8))
  | bytea (payload : List (BitVec 8))
  | inet (payload : List (BitVec 8))
deriving DecidableEq, Repr

/-- The kind of the columns that deliver such values. -/
def Value.kind : Value → ColumnKind
  | int2 _ => .int16
  | int4 _ => .int32
  | int8 _ => .int64
  | float4 _ => .float32
  | float8 _ => .float64
  | bool _ => .bool
  | timestamp _ => .timestamp
  | timestamptz _ => .timestamptz
  | date _ => .date
  | time _ => .time
  | text _ => .text
  | jsonb _ => .jsonb
  | uuid _ => .uuid
  | bytea _ => .bytea
  | inet _ => .inet

/-- A value in the representation of a typed column. -/
inductive Stored
  | text (v : Text)
  | bytes (v : List (BitVec 8))
  | int16 (v : BitVec 16)
  | int32 (v : BitVec 32)
  | int64 (v : BitVec 64)
  | float32 (bits : BitVec 32)
  | float64 (bits : BitVec 64)
  | bool (v : Bool)
deriving DecidableEq, Repr

/-- What `append_row_to_columns` pushes for a value.  Times are counted from the Unix
epoch, dates in microseconds. -/
def Value.store : Value → Stored
  | int2 v => .int16 v
  | int4 v => .int32 v
  | int8 v => .int64 v
  | float4 bits => .float32 bits
  | float8 bits => .float64 bits
  | bool v => .bool v
  | timestamp usec => .int64 (usec + pgEpochOffsetUsec)
  | timestamptz usec => .int64 (usec + pgEpochOffsetUsec)
  | date days => .int64 ((days.signExtend 64 + pgEpochOffsetDays) * usecPerDay)
  | time usec => .int64 usec
  | text v => .text v
  | jsonb payload => .bytes payload
  | uuid bytes => .bytes bytes
  | bytea payload => .bytes payload
  | inet payload => .bytes payload

def Value.asText : Value → Option Text
  | text v => some v
  | _ => none

theorem toInt_unixDays (days : BitVec 32) :
    (days.signExtend 64 + pgEpochOffsetDays).toInt = days.toInt + 10957 := by
  have hlt := days.toInt_lt
  have hle := days.le_toInt
  norm_num at hlt hle
  rw [BitVec.toInt_add, BitVec.toInt_signExtend_of_le (by decide),
    show pgEpochOffsetDays.toInt = 10957 by decide]
  apply Int.bmod_eq_of_le
  · norm_num
    omega
  · norm_num
    omega

theorem toInt_usecPerDay : usecPerDay.toInt = 86400000000 := by
  decide

/-- The microseconds of a day are an odd multiple of `2 ^ 13`. -/
theorem dvd_of_dvd_mul_usecPerDay {n : ℤ} (h : (2 ^ 64 : ℤ) ∣ n * 86400000000) :
    (2 ^ 51 : ℤ) ∣ n := by
  have hodd : IsCoprime (2 ^ 51 : ℤ) 10546875 := by
    apply IsCoprime.pow_left
    exact ⟨-5273437, 1, by norm_num⟩
  have hsplit : (2 ^ 13 * 2 ^ 51 : ℤ) ∣ 2 ^ 13 * (10546875 * n) := by
    calc (2 ^ 13 * 2 ^ 51 : ℤ) = 2 ^ 64 := by norm_num
      _ ∣ n * 86400000000 := h
      _ = 2 ^ 13 * (10546875 * n) := by ring
  apply hodd.dvd_of_dvd_mul_left
  exact Int.dvd_of_mul_dvd_mul_left (by norm_num) hsplit

theorem dvd_sub_of_dateUsec_eq {a b : BitVec 32}
    (h : (a.signExtend 64 + pgEpochOffsetDays) * usecPerDay =
      (b.signExtend 64 + pgEpochOffsetDays) * usecPerDay) :
    (2 ^ 64 : ℤ) ∣ (a.toInt - b.toInt) * 86400000000 := by
  have hmod := congrArg BitVec.toInt h
  simp only [BitVec.toInt_mul, toInt_unixDays, toInt_usecPerDay] at hmod
  have hdvd := Int.dvd_iff_bmod_eq_zero.mpr (Int.bmod_eq_bmod_iff_bmod_sub_eq_zero.mp hmod)
  have hdays : (a.toInt + 10957) * 86400000000 - (b.toInt + 10957) * 86400000000 =
      (a.toInt - b.toInt) * 86400000000 := by ring
  rw [hdays] at hdvd
  exact_mod_cast hdvd

/-- Days go to microseconds without two dates meeting, although the product may wrap. -/
theorem dateUsec_injective {a b : BitVec 32}
    (h : (a.signExtend 64 + pgEpochOffsetDays) * usecPerDay =
      (b.signExtend 64 + pgEpochOffsetDays) * usecPerDay) : a = b := by
  have hsmall := dvd_of_dvd_mul_usecPerDay (dvd_sub_of_dateUsec_eq h)
  have ha := a.toInt_lt
  have ha' := a.le_toInt
  have hb := b.toInt_lt
  have hb' := b.le_toInt
  apply BitVec.eq_of_toInt_eq
  norm_num at ha ha' hb hb' hsmall
  omega

/-- What a column holds for a value tells the value apart from the others of its kind. -/
theorem Value.store_injective {v w : Value} (hkind : v.kind = w.kind)
    (hstore : v.store = w.store) : v = w := by
  cases v <;> cases w <;> simp_all [Value.kind, Value.store]
  exact dateUsec_injective hstore

/-! ## Columns -/

namespace TypedColumn

def cells : TypedColumn → List (Option Stored)
  | text values => values.map (Option.map .text)
  | bytes values => values.map (Option.map .bytes)
  | int16 values => values.map (Option.map .int16)
  | int32 values => values.map (Option.map .int32)
  | int64 values => values.map (Option.map .int64)
  | float32 values => values.map (Option.map .float32)
  | float64 values => values.map (Option.map .float64)
  | bool values => values.map (Option.map .bool)

/-- `push` on the vector of the column; a value of another representation is dropped. -/
def push : TypedColumn → Option Stored → TypedColumn
  | text values, none => text (values ++ [none])
  | text values, some (.text v) => text (values ++ [some v])
  | bytes values, none => bytes (values ++ [none])
  | bytes values, some (.bytes v) => bytes (values ++ [some v])
  | int16 values, none => int16 (values ++ [none])
  | int16 values, some (.int16 v) => int16 (values ++ [some v])
  | int32 values, none => int32 (values ++ [none])
  | int32 values, some (.int32 v) => int32 (values ++ [some v])
  | int64 values, none => int64 (values ++ [none])
  | int64 values, some (.int64 v) => int64 (values ++ [some v])
  | float32 values, none => float32 (values ++ [none])
  | float32 values, some (.float32 v) => float32 (values ++ [some v])
  | float64 values, none => float64 (values ++ [none])
  | float64 values, some (.float64 v) => float64 (values ++ [some v])
  | bool values, none => bool (values ++ [none])
  | bool values, some (.bool v) => bool (values ++ [some v])
  | column, _ => column

/-- One function on the vector of the column, whatever it is a vector of.  It fails where
the indexing of the vector panics. -/
def traverse (f : ∀ {α : Type}, List (Option α) → Option (List (Option α))) :
    TypedColumn → Option TypedColumn
  | text values => (f values).map text
  | bytes values => (f values).map bytes
  | int16 values => (f values).map int16
  | int32 values => (f values).map int32
  | int64 values => (f values).map int64
  | float32 values => (f values).map float32
  | float64 values => (f values).map float64
  | bool values => (f values).map bool

/-- `new_typed_column`. -/
def new : ColumnKind → TypedColumn
  | .text => text []
  | .jsonb | .uuid | .bytea | .inet => bytes []
  | .int16 => int16 []
  | .int32 => int32 []
  | .int64 | .timestamp | .timestamptz | .date | .time => int64 []
  | .float32 => float32 []
  | .float64 => float64 []
  | .bool => bool []

theorem cells_new (kind : ColumnKind) : (new kind).cells = [] := by
  cases kind <;> simp [new, cells]

theorem hasKind_new (kind : ColumnKind) : (new kind).hasKind kind = true := by
  cases kind <;> simp [new, hasKind]

theorem hasKind_push (column : TypedColumn) (cell : Option Stored) (kind : ColumnKind) :
    (column.push cell).hasKind kind = column.hasKind kind := by
  cases column <;> rcases cell with _ | v <;> try cases v
  all_goals cases kind <;> simp [push, hasKind]

/-- A value of the column's kind has the representation of the column. -/
theorem cells_push {column : TypedColumn} {kind : ColumnKind} {cell : Option Value}
    (hcolumn : column.hasKind kind = true) (hcell : ∀ v ∈ cell, v.kind = kind) :
    (column.push (cell.map Value.store)).cells = column.cells ++ [cell.map Value.store] := by
  cases cell with
  | none => cases column <;> simp [push, cells]
  | some v =>
      have hkind := hcell v rfl
      subst hkind
      cases column <;> cases v <;> simp_all [push, cells, hasKind, Value.kind, Value.store]

/-- A function of vectors that does not look at what they are vectors of. -/
def Natural (f : ∀ {α : Type}, List (Option α) → Option (List (Option α))) : Prop :=
  ∀ {α β : Type} (g : α → β) (values : List (Option α)),
    f (values.map (Option.map g)) = (f values).map (List.map (Option.map g))

theorem cells_traverse {f : ∀ {α : Type}, List (Option α) → Option (List (Option α))}
    (hf : Natural f) (column : TypedColumn) :
    (column.traverse f).map cells = f column.cells := by
  cases column <;> simp only [traverse, cells, Option.map_map] <;> exact (hf _ _).symm

theorem hasKind_traverse {f : ∀ {α : Type}, List (Option α) → Option (List (Option α))}
    {column column' : TypedColumn} (h : column.traverse f = some column') (kind : ColumnKind) :
    column'.hasKind kind = column.hasKind kind := by
  cases column <;> simp only [traverse, Option.map_eq_some_iff] at h <;>
    obtain ⟨values, _, rfl⟩ := h <;> cases kind <;> rfl

/-- The entries `start..end` of a vector; an empty vector stays empty. -/
def sliceValues {α : Type} (start stop : ℕ) (values : List (Option α)) :
    Option (List (Option α)) :=
  if values.isEmpty then some []
  else if start ≤ stop ∧ stop ≤ values.length then some ((values.take stop).drop start)
  else none

/-- `slice_typed_column`. -/
def slice (start stop : ℕ) (column : TypedColumn) : Option TypedColumn :=
  column.traverse (sliceValues start stop)

/-- The vector with the entry `perm[i]` at `i`. -/
def permuteValues {α : Type} (perm : List ℕ) (values : List (Option α)) :
    Option (List (Option α)) :=
  perm.mapM fun i => values[i]?

def applyPermutation (perm : List ℕ) (column : TypedColumn) : Option TypedColumn :=
  column.traverse (permuteValues perm)

theorem sliceValues_natural (start stop : ℕ) : Natural (sliceValues start stop) := by
  intro α β g values
  show sliceValues start stop (values.map (Option.map g)) =
    (sliceValues start stop values).map (List.map (Option.map g))
  rw [sliceValues, sliceValues, List.isEmpty_map, List.length_map, ← List.map_take,
    ← List.map_drop]
  split_ifs <;> rfl

theorem permuteValues_natural (perm : List ℕ) : Natural (permuteValues perm) := by
  intro α β g values
  show (perm.mapM fun i => (values.map (Option.map g))[i]?) =
    (perm.mapM fun i => values[i]?).map (List.map (Option.map g))
  induction perm with
  | nil => rfl
  | cons i perm ih =>
      rw [List.mapM_cons, List.mapM_cons, ih, List.getElem?_map]
      cases values[i]? with
      | none => rfl
      | some v =>
          cases List.mapM (fun i => values[i]?) perm with
          | none => rfl
          | some vs => rfl

/-- Reading a list at indices below its length. -/
theorem mapM_getElem? {α : Type*} (values : List α) {perm : List ℕ}
    (h : ∀ i ∈ perm, i < values.length) :
    (perm.mapM fun i => values[i]?) = some (perm.filterMap fun i => values[i]?) := by
  induction perm with
  | nil => rfl
  | cons i perm ih =>
      have hi := List.getElem?_eq_getElem (h i (by simp))
      rw [List.mapM_cons, ih fun j hj => h j (by simp [hj]), List.filterMap_cons, hi]
      rfl

theorem slice_spec (column : TypedColumn) {start stop : ℕ} (hle : start ≤ stop)
    (hstop : stop ≤ column.cells.length) :
    ∃ column', column.slice start stop = some column' ∧
      column'.cells = (column.cells.take stop).drop start ∧
      ∀ kind, column'.hasKind kind = column.hasKind kind := by
  have hcells :
      (column.slice start stop).map cells = some ((column.cells.take stop).drop start) := by
    rw [slice, cells_traverse (sliceValues_natural start stop), sliceValues]
    split_ifs with hempty hbounds
    · simp [List.isEmpty_iff.mp hempty]
    · rfl
    · exact absurd ⟨hle, hstop⟩ hbounds
  obtain ⟨column', hslice, hcells'⟩ := Option.map_eq_some_iff.mp hcells
  exact ⟨column', hslice, hcells', hasKind_traverse hslice⟩

theorem slice_of_empty {column : TypedColumn} (start stop : ℕ) (hempty : column.cells = []) :
    ∃ column', column.slice start stop = some column' ∧ column'.cells = [] := by
  have hcells : (column.slice start stop).map cells = some [] := by
    rw [slice, cells_traverse (sliceValues_natural start stop), hempty]
    rfl
  exact Option.map_eq_some_iff.mp hcells

/-- A permuted column holds at `i` what the column held at `perm[i]`. -/
theorem applyPermutation_spec (column : TypedColumn) {perm : List ℕ}
    (hperm : ∀ i ∈ perm, i < column.cells.length) :
    ∃ column', column.applyPermutation perm = some column' ∧
      column'.cells = perm.filterMap (fun i => column.cells[i]?) ∧
      ∀ kind, column'.hasKind kind = column.hasKind kind := by
  have hcells : (column.applyPermutation perm).map cells =
      some (perm.filterMap fun i => column.cells[i]?) := by
    rw [applyPermutation, cells_traverse (permuteValues_natural perm)]
    exact mapM_getElem? column.cells hperm
  obtain ⟨column', happly, hcells'⟩ := Option.map_eq_some_iff.mp hcells
  exact ⟨column', happly, hcells', hasKind_traverse happly⟩

end TypedColumn

end DeltaX.Column
