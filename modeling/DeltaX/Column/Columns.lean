import DeltaX.Partition.Streaming
/-!
# Columns of equal length

The loaders keep rows column by column.  `Columns` carries what the code relies on: every
column is of the representation of its kind and all of them are equally long.  Then no
operation on them panics, and each is an operation on the list of rows.
-/

namespace DeltaX.Column

/-! ## One column -/

namespace TypedColumn

/-- `extend`.  Mismatched variants panic. -/
def extend : TypedColumn → TypedColumn → Option TypedColumn
  | text a, text b => some (text (a ++ b))
  | bytes a, bytes b => some (bytes (a ++ b))
  | int16 a, int16 b => some (int16 (a ++ b))
  | int32 a, int32 b => some (int32 (a ++ b))
  | int64 a, int64 b => some (int64 (a ++ b))
  | float32 a, float32 b => some (float32 (a ++ b))
  | float64 a, float64 b => some (float64 (a ++ b))
  | bool a, bool b => some (bool (a ++ b))
  | _, _ => none

/-- `push_from`.  Mismatched variants and an index past the end panic. -/
def pushFrom : TypedColumn → TypedColumn → ℕ → Option TypedColumn
  | text dst, text s, idx => s[idx]?.map fun v => text (dst ++ [v])
  | bytes dst, bytes s, idx => s[idx]?.map fun v => bytes (dst ++ [v])
  | int16 dst, int16 s, idx => s[idx]?.map fun v => int16 (dst ++ [v])
  | int32 dst, int32 s, idx => s[idx]?.map fun v => int32 (dst ++ [v])
  | int64 dst, int64 s, idx => s[idx]?.map fun v => int64 (dst ++ [v])
  | float32 dst, float32 s, idx => s[idx]?.map fun v => float32 (dst ++ [v])
  | float64 dst, float64 s, idx => s[idx]?.map fun v => float64 (dst ++ [v])
  | bool dst, bool s, idx => s[idx]?.map fun v => bool (dst ++ [v])
  | _, _, _ => none

/-- What `split_off` keeps. -/
def keep (cut : ℕ) (column : TypedColumn) : Option TypedColumn :=
  column.traverse fun values => if cut ≤ values.length then some (values.take cut) else none

def splitOff (cut : ℕ) (column : TypedColumn) : Option TypedColumn :=
  column.traverse fun values => if cut ≤ values.length then some (values.drop cut) else none

variable {a b column : TypedColumn} {kind : ColumnKind}

theorem extend_spec (ha : a.hasKind kind = true) (hb : b.hasKind kind = true) :
    ∃ c, a.extend b = some c ∧ c.hasKind kind = true ∧ c.cells = a.cells ++ b.cells := by
  cases a <;> cases kind <;> cases ha <;> cases b <;> cases hb <;>
    exact ⟨_, rfl, rfl, List.map_append⟩

theorem pushFrom_spec (ha : a.hasKind kind = true) (hb : b.hasKind kind = true) {idx : ℕ}
    {cell : Option Stored} (hidx : b.cells[idx]? = some cell) :
    ∃ c, a.pushFrom b idx = some c ∧ c.hasKind kind = true ∧ c.cells = a.cells ++ [cell] := by
  cases a <;> cases kind <;> cases ha <;> cases b <;> cases hb <;>
    simp only [cells, List.getElem?_map, Option.map_eq_some_iff] at hidx <;>
    obtain ⟨v, hv, rfl⟩ := hidx <;>
    exact ⟨_, congrArg (Option.map _) hv, rfl, by simp [cells]⟩

theorem keep_spec (hkind : column.hasKind kind = true) {cut : ℕ}
    (hcut : cut ≤ column.cells.length) :
    ∃ c, column.keep cut = some c ∧ c.hasKind kind = true ∧ c.cells = column.cells.take cut := by
  have hnatural : Natural fun values => if cut ≤ values.length then some (values.take cut)
      else none := by
    intro α β g values
    dsimp only
    rw [List.length_map, ← List.map_take]
    split_ifs <;> rfl
  have hcells : (column.keep cut).map cells = some (column.cells.take cut) := by
    rw [keep, cells_traverse hnatural, if_pos hcut]
  obtain ⟨c, hkeep, hc⟩ := Option.map_eq_some_iff.mp hcells
  exact ⟨c, hkeep, (hasKind_traverse hkeep kind).trans hkind, hc⟩

theorem splitOff_spec (hkind : column.hasKind kind = true) {cut : ℕ}
    (hcut : cut ≤ column.cells.length) :
    ∃ c, column.splitOff cut = some c ∧ c.hasKind kind = true ∧
      c.cells = column.cells.drop cut := by
  have hnatural : Natural fun values => if cut ≤ values.length then some (values.drop cut)
      else none := by
    intro α β g values
    dsimp only
    rw [List.length_map, ← List.map_drop]
    split_ifs <;> rfl
  have hcells : (column.splitOff cut).map cells = some (column.cells.drop cut) := by
    rw [splitOff, cells_traverse hnatural, if_pos hcut]
  obtain ⟨c, hsplit, hc⟩ := Option.map_eq_some_iff.mp hcells
  exact ⟨c, hsplit, (hasKind_traverse hsplit kind).trans hkind, hc⟩

end TypedColumn

/-! ## All columns -/

/-- Column `i` of the batch is appended to column `i`, for each column of the batch. -/
def extendColumns : List TypedColumn → List TypedColumn → Option (List TypedColumn)
  | typedCols, [] => some typedCols
  | [], _ :: _ => none
  | typedCol :: typedCols, col :: batch => do
      let first ← typedCol.extend col
      let rest ← extendColumns typedCols batch
      some (first :: rest)

def pushRowFrom (row : ℕ) : List TypedColumn → List TypedColumn → Option (List TypedColumn)
  | typedCols, [] => some typedCols
  | [], _ :: _ => none
  | typedCol :: typedCols, src :: srcs => do
      let first ← typedCol.pushFrom src row
      let rest ← pushRowFrom row typedCols srcs
      some (first :: rest)

/-- The columns are of these kinds and hold `n` rows each. -/
def Level (kinds : List ColumnKind) (n : ℕ) (cols : List TypedColumn) : Prop :=
  List.Forall₂ (fun kind col => TypedColumn.hasKind col kind = true ∧ col.cells.length = n)
    kinds cols

/-- Row `j` of columns. -/
def rowAt (cols : List TypedColumn) (j : ℕ) : List (Option Stored) :=
  cols.map fun col => col.cells[j]?.join

section

variable {kinds : List ColumnKind} {m n : ℕ} {cols batch : List TypedColumn}

theorem level_new (kinds : List ColumnKind) : Level kinds 0 (kinds.map .new) := by
  rw [Level, List.forall₂_map_right_iff, List.forall₂_same]
  intro kind _
  exact ⟨TypedColumn.hasKind_new kind, by rw [TypedColumn.cells_new, List.length_nil]⟩

theorem extendColumns_spec (ha : Level kinds m cols) (hb : Level kinds n batch) :
    ∃ out, extendColumns cols batch = some out ∧ Level kinds (m + n) out ∧
      (∀ j, j < m → rowAt out j = rowAt cols j) ∧ ∀ j, rowAt out (m + j) = rowAt batch j := by
  induction ha generalizing batch with
  | nil =>
      cases hb
      exact ⟨[], rfl, .nil, fun _ _ => rfl, fun _ => rfl⟩
  | @cons kind col kinds cols hcol _ ih =>
      obtain ⟨other, batch, hother, hbatch, rfl⟩ := List.forall₂_cons_left_iff.mp hb
      obtain ⟨first, hfirst, hkind, hcells⟩ := TypedColumn.extend_spec hcol.1 hother.1
      obtain ⟨rest, hrest, hlevel, hold, hnew⟩ := ih hbatch
      refine ⟨first :: rest, ?_, ?_, fun j hj => ?_, fun j => ?_⟩
      · rw [extendColumns, hfirst, hrest]
        rfl
      · apply List.Forall₂.cons _ hlevel
        rw [hcells, List.length_append, hcol.2, hother.2]
        exact ⟨hkind, rfl⟩
      · show first.cells[j]?.join :: rowAt rest j = col.cells[j]?.join :: rowAt cols j
        rw [hold j hj, hcells, List.getElem?_append_left (by rw [hcol.2]; exact hj)]
      · show first.cells[m + j]?.join :: rowAt rest (m + j) = other.cells[j]?.join :: rowAt batch j
        rw [hnew j, hcells, List.getElem?_append_right (by rw [hcol.2]; omega), hcol.2,
          Nat.add_sub_cancel_left]

theorem pushRowFrom_spec (ha : Level kinds m cols) (hb : Level kinds n batch) {row : ℕ}
    (hrow : row < n) :
    ∃ out, pushRowFrom row cols batch = some out ∧ Level kinds (m + 1) out ∧
      (∀ j, j < m → rowAt out j = rowAt cols j) ∧ rowAt out m = rowAt batch row := by
  induction ha generalizing batch with
  | nil =>
      cases hb
      exact ⟨[], rfl, .nil, fun _ _ => rfl, rfl⟩
  | @cons kind col kinds cols hcol _ ih =>
      obtain ⟨other, batch, hother, hbatch, rfl⟩ := List.forall₂_cons_left_iff.mp hb
      have hcell : other.cells[row]? = some other.cells[row] := List.getElem?_eq_getElem _
      obtain ⟨first, hfirst, hkind, hcells⟩ := TypedColumn.pushFrom_spec hcol.1 hother.1 hcell
      obtain ⟨rest, hrest, hlevel, hold, hnew⟩ := ih hbatch
      refine ⟨first :: rest, ?_, ?_, fun j hj => ?_, ?_⟩
      · rw [pushRowFrom, hfirst, hrest]
        rfl
      · apply List.Forall₂.cons _ hlevel
        rw [hcells, List.length_append, hcol.2]
        exact ⟨hkind, rfl⟩
      · show first.cells[j]?.join :: rowAt rest j = col.cells[j]?.join :: rowAt cols j
        rw [hold j hj, hcells, List.getElem?_append_left (by rw [hcol.2]; exact hj)]
      · show first.cells[m]?.join :: rowAt rest m = other.cells[row]?.join :: rowAt batch row
        rw [hnew, hcells, List.getElem?_append_right (by rw [hcol.2]), hcol.2, Nat.sub_self,
          List.getElem?_cons_zero, hcell]

/-- The same part is taken of each column. -/
theorem mapM_spec {f : TypedColumn → Option TypedColumn} {k : ℕ} {index : ℕ → ℕ}
    (h : Level kinds n cols)
    (hf : ∀ kind col, TypedColumn.hasKind col kind = true → col.cells.length = n →
      ∃ c, f col = some c ∧ c.hasKind kind = true ∧ c.cells.length = k ∧
        ∀ j, j < k → c.cells[j]? = col.cells[index j]?) :
    ∃ out, cols.mapM f = some out ∧ Level kinds k out ∧
      ∀ j, j < k → rowAt out j = rowAt cols (index j) := by
  induction h with
  | nil => exact ⟨[], rfl, .nil, fun _ _ => rfl⟩
  | @cons kind col kinds cols hcol _ ih =>
      obtain ⟨first, hfirst, hkind, hlength, hcells⟩ := hf kind col hcol.1 hcol.2
      obtain ⟨rest, hrest, hlevel, hrows⟩ := ih
      refine ⟨first :: rest, by simp [hfirst, hrest], .cons ⟨hkind, hlength⟩ hlevel, ?_⟩
      intro j hj
      show first.cells[j]?.join :: rowAt rest j = col.cells[index j]?.join :: rowAt cols (index j)
      rw [hrows j hj, hcells j hj]

theorem keepColumns_spec {cut : ℕ} (h : Level kinds n cols) (hcut : cut ≤ n) :
    ∃ out, cols.mapM (TypedColumn.keep cut) = some out ∧ Level kinds cut out ∧
      ∀ j, j < cut → rowAt out j = rowAt cols j := by
  apply mapM_spec h
  intro kind col hkind hlength
  obtain ⟨c, hc, hkind', hcells⟩ := TypedColumn.keep_spec hkind (hlength.symm ▸ hcut)
  refine ⟨c, hc, hkind', by rw [hcells, List.length_take, hlength, Nat.min_eq_left hcut], ?_⟩
  intro j hj
  rw [hcells, List.getElem?_take_of_lt hj]

theorem splitOffColumns_spec {cut : ℕ} (h : Level kinds n cols) (hcut : cut ≤ n) :
    ∃ out, cols.mapM (TypedColumn.splitOff cut) = some out ∧ Level kinds (n - cut) out ∧
      ∀ j, j < n - cut → rowAt out j = rowAt cols (cut + j) := by
  apply mapM_spec h
  intro kind col hkind hlength
  obtain ⟨c, hc, hkind', hcells⟩ := TypedColumn.splitOff_spec hkind (hlength.symm ▸ hcut)
  refine ⟨c, hc, hkind', by rw [hcells, List.length_drop, hlength], ?_⟩
  intro j _
  rw [hcells, List.getElem?_drop]

end

/-! ## Columns with their number of rows -/

/-- `typed_cols` and `row_count`. -/
structure Columns (kinds : List ColumnKind) where
  cols : List TypedColumn
  numRows : ℕ
  level : Level kinds numRows cols

theorem get_spec {α : Type*} {o : Option α} {P : α → Prop} (h : ∃ a, o = some a ∧ P a) :
    ∃ hsome : o.isSome = true, P (o.get hsome) := by
  obtain ⟨a, rfl, ha⟩ := h
  exact ⟨rfl, ha⟩

namespace Columns

variable {kinds : List ColumnKind}

def rows (c : Columns kinds) : List (List (Option Stored)) :=
  (List.range c.numRows).map (rowAt c.cols)

@[simp] theorem length_rows (c : Columns kinds) : c.rows.length = c.numRows := by
  rw [rows, List.length_map, List.length_range]

theorem getElem?_rows (c : Columns kinds) {j : ℕ} (hj : j < c.numRows) :
    c.rows[j]? = some (rowAt c.cols j) := by
  rw [rows, List.getElem?_map, List.getElem?_range hj, Option.map_some]

/-- `init_typed_columns`. -/
def empty (kinds : List ColumnKind) : Columns kinds := ⟨kinds.map .new, 0, level_new kinds⟩

@[simp] theorem rows_empty : (empty kinds).rows = [] := rfl

@[simp] theorem numRows_empty : (empty kinds).numRows = 0 := rfl

def extend (c batch : Columns kinds) : Columns kinds :=
  have h := get_spec (extendColumns_spec c.level batch.level)
  ⟨(extendColumns c.cols batch.cols).get h.fst, c.numRows + batch.numRows, h.snd.1⟩

@[simp] theorem numRows_extend (c batch : Columns kinds) :
    (c.extend batch).numRows = c.numRows + batch.numRows := rfl

@[simp] theorem rows_extend (c batch : Columns kinds) :
    (c.extend batch).rows = c.rows ++ batch.rows := by
  obtain ⟨hsome, -, hold, hnew⟩ := get_spec (extendColumns_spec c.level batch.level)
  rw [rows, numRows_extend, List.range_add, List.map_append, List.map_map]
  congr 1
  · apply List.map_congr_left
    intro j hj
    exact hold j (List.mem_range.mp hj)
  · apply List.map_congr_left
    intro j _
    exact hnew j

/-- Row `j` of the batch is pushed. -/
def pushFrom (c batch : Columns kinds) (j : Fin batch.numRows) : Columns kinds :=
  have h := get_spec (pushRowFrom_spec c.level batch.level j.isLt)
  ⟨(pushRowFrom j c.cols batch.cols).get h.fst, c.numRows + 1, h.snd.1⟩

@[simp] theorem numRows_pushFrom (c batch : Columns kinds) (j : Fin batch.numRows) :
    (c.pushFrom batch j).numRows = c.numRows + 1 := rfl

@[simp] theorem rows_pushFrom (c batch : Columns kinds) (j : Fin batch.numRows) :
    (c.pushFrom batch j).rows = c.rows ++ [rowAt batch.cols j] := by
  obtain ⟨hsome, -, hold, hnew⟩ := get_spec (pushRowFrom_spec c.level batch.level j.isLt)
  rw [rows, numRows_pushFrom, List.range_succ, List.map_append, List.map_singleton]
  congr 1
  · apply List.map_congr_left
    intro j' hj'
    exact hold j' (List.mem_range.mp hj')
  · exact congrArg (fun row => [row]) hnew

/-- The first `cut` rows, which `split_off` keeps. -/
def keep (c : Columns kinds) (cut : Fin (c.numRows + 1)) : Columns kinds :=
  have h := get_spec (keepColumns_spec c.level (Nat.le_of_lt_succ cut.isLt))
  ⟨(c.cols.mapM (TypedColumn.keep cut)).get h.fst, cut, h.snd.1⟩

@[simp] theorem numRows_keep (c : Columns kinds) (cut : Fin (c.numRows + 1)) :
    (c.keep cut).numRows = cut := rfl

theorem rows_keep (c : Columns kinds) (cut : Fin (c.numRows + 1)) :
    (c.keep cut).rows = c.rows.take cut := by
  have hcut : (cut : ℕ) ≤ c.numRows := Nat.le_of_lt_succ cut.isLt
  obtain ⟨hsome, -, hrows⟩ := get_spec (keepColumns_spec c.level hcut)
  rw [rows, numRows_keep, rows, ← List.map_take, List.take_range, Nat.min_eq_left hcut]
  apply List.map_congr_left
  intro j hj
  exact hrows j (List.mem_range.mp hj)

/-- The rows from `cut` on, which `split_off` returns. -/
def splitOff (c : Columns kinds) (cut : Fin (c.numRows + 1)) : Columns kinds :=
  have h := get_spec (splitOffColumns_spec c.level (Nat.le_of_lt_succ cut.isLt))
  ⟨(c.cols.mapM (TypedColumn.splitOff cut)).get h.fst, c.numRows - cut, h.snd.1⟩

@[simp] theorem numRows_splitOff (c : Columns kinds) (cut : Fin (c.numRows + 1)) :
    (c.splitOff cut).numRows = c.numRows - cut := rfl

theorem rows_splitOff (c : Columns kinds) (cut : Fin (c.numRows + 1)) :
    (c.splitOff cut).rows = c.rows.drop cut := by
  have hcut : (cut : ℕ) ≤ c.numRows := Nat.le_of_lt_succ cut.isLt
  obtain ⟨hsome, -, hrows⟩ := get_spec (splitOffColumns_spec c.level hcut)
  apply List.ext_getElem
  · rw [length_rows, numRows_splitOff, List.length_drop, length_rows]
  · intro j hj _
    rw [length_rows, numRows_splitOff] at hj
    simp only [rows, List.getElem_drop, List.getElem_map, List.getElem_range]
    exact hrows j hj

end Columns

end DeltaX.Column
