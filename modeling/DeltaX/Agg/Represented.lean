import DeltaX.Agg.Pushdown
import Mathlib.Data.Set.List
import Mathlib.Tactic.NormNum
/-!
# Aggregates the specs represent

When the spec recorded for an aggregate computes it over the rows of every group.
-/

namespace DeltaX.Agg

open Column Support.Extremes Support.IeeeOrder

/-! ## Aggregates the specs represent -/

section represented

variable (collations : ℕ → Collation) (types : ℕ → TypeOid)

/-- Texts come in the same order in both collations. -/
def SameOrder (c c' : Collation) : Prop := ∀ s t, c.less s t = c'.less s t

/-- The spec of an aggregate with this argument stands for it.  SUM and AVG know
no DISTINCT, a sum of reals is not rounded to one at every step, COUNT(DISTINCT)
tells floats apart by their bits, MIN and MAX know neither the constant nor `length`
nor the place of NaN nor another collation, and no aggregate but COUNT can read a
by-reference type; a sum of bigints is recorded as one of the column's type. -/
def Aggref.RepresentedArg (a : Aggref) : AggArg → Prop
  | .var col | .relabel col =>
      match a.name with
      | .count => a.distinct = true → isRefOid (types col) = false ∧ isFloatType (types col) = false
      | .sum => a.distinct = false ∧ isRefOid (types col) = false ∧ types col ≠ .float4
      | .avg => a.distinct = false ∧ isRefOid (types col) = false
      | .min | .max =>
          isRefOid (types col) = false ∧ isFloatType (types col) = false ∧
            (isTextType (types col) = true → SameOrder (collations a.inputcollid) (collations 0))
      | .other _ => True
  | .length col =>
      match a.name with
      | .count => a.distinct = false
      | .sum | .avg => a.distinct = false ∧ isTextType (types col) = true
      | .min | .max => False
      | .other _ => True
  | .plus col c =>
      match a.name with
      | .count => True
      | .sum => a.distinct = false ∧ (c.typeOid = .int8 → types col = .int8)
      | .avg => a.distinct = false
      | .min | .max => c.value = 0
      | .other _ => True
  | .other => True

def Aggref.Represented (a : Aggref) : Prop :=
  a.star = true ∨ ∀ arg ∈ a.args, a.RepresentedArg collations types arg

end represented

/-! ### Columns of one type -/

section cells

theorem exists_map_of_forall {α β : Type*} {f : α → β} {l : List β} (h : ∀ b ∈ l, ∃ a, f a = b) :
    ∃ l' : List α, l = l'.map f := by
  obtain ⟨l', hl'⟩ : l ∈ Set.range (List.map f) := by
    rw [Set.range_list_map]
    exact h
  exact ⟨l', hl'.symm⟩

variable {t : TypeOid} {cells : List Cell} (htyped : ∀ c ∈ cells, c.hasType t = true)

include htyped in
theorem cells_of_text (ht : isTextType t = true) : ∃ ss : List Text, cells = ss.map Cell.text := by
  apply exists_map_of_forall
  intro c hc
  have h := htyped c hc
  cases c <;> cases t <;> simp_all [Cell.hasType, isTextType]

include htyped in
theorem cells_of_float4 (ht : t = .float4) :
    ∃ vs : List (Pattern binary32), cells = vs.map Cell.float4 := by
  apply exists_map_of_forall
  intro c hc
  have h := htyped c hc
  cases c <;> simp_all [Cell.hasType]

include htyped in
theorem cells_of_float8 (ht : t = .float8) :
    ∃ vs : List (Pattern binary64), cells = vs.map Cell.float8 := by
  apply exists_map_of_forall
  intro c hc
  have h := htyped c hc
  cases c <;> simp_all [Cell.hasType]

include htyped in
theorem cells_of_word (htext : isTextType t = false) (hfloat : isFloatType t = false)
    (href : isRefOid t = false) : ∃ vs : List ℤ, cells = vs.map Cell.word := by
  apply exists_map_of_forall
  intro c hc
  have h := htyped c hc
  cases c <;> cases t <;> simp_all [Cell.hasType, isTextType, isFloatType, isRefOid]

variable {types : ℕ → TypeOid}

theorem exists_columnCells {col : ℕ} (htyped : ∀ c ∈ cells, c.hasType (types col) = true) :
    ∃ rows : List (Row types), columnCells rows col = cells := by
  induction cells with
  | nil => exact ⟨[], rfl⟩
  | cons c cells ih =>
      obtain ⟨rows, hrows⟩ := ih fun c' hc' => htyped c' (List.mem_cons_of_mem c hc')
      let row : Row types := {
        cell := fun i => if i = col then some c else none
        typed := by
          intro i c' hc'
          split at hc'
          · rename_i hi
            rw [← Option.some.inj hc', hi]
            exact htyped c List.mem_cons_self
          · cases hc' }
      refine ⟨row :: rows, ?_⟩
      have hcell : row.cell col = some c := if_pos rfl
      simp only [columnCells, List.filterMap_cons, hcell]
      rw [← hrows]
      rfl

theorem typed_columnCells (rows : List (Row types)) (col : ℕ) :
    ∀ c ∈ columnCells rows col, c.hasType (types col) = true := by
  intro c hc
  obtain ⟨row, -, hrow⟩ := List.mem_filterMap.mp hc
  exact row.typed col c hrow

end cells

/-! ### Sums -/

section sums

variable {collations : ℕ → Collation} {types : ℕ → TypeOid} {a : Aggref} {cells : List Cell}

/-- The inputs of a sum are the argument's values. -/
structure SumsAgree (spec : AggExecSpec) (t : TypeOid) (cells : List Cell) (vs : List AggValue) :
    Prop where
  length_eq : vs.length = cells.length
  float_eq : isFloatType spec.colTypeOid = isFloatType t
  floats : isFloatType t = true → floatInputs spec cells = vs.map AggValue.toFloat
  doubles : t = .float8 → spec.colTypeOid = .float8 ∧
    ∃ bits : List (Pattern binary64), vs = bits.map fun b => .float8 (rank binary64 b)
  integer : isFloatType t = false → t = .int2 ∨ t = .int4 ∨ t = .int8
  integers : isFloatType t = false → sumInputs spec cells = vs.map AggValue.toInt

theorem SumsAgree.isEmpty_eq {spec : AggExecSpec} {t : TypeOid} {vs : List AggValue}
    (h : SumsAgree spec t cells vs) : cells.isEmpty = vs.isEmpty := by
  rw [Bool.eq_iff_iff, List.isEmpty_iff_length_eq_zero, List.isEmpty_iff_length_eq_zero,
    h.length_eq]

theorem float_cases {t : TypeOid} (hfloat : isFloatType t = true) : t = .float4 ∨ t = .float8 := by
  exact isFloatType_iff.mp hfloat

theorem sumFromFirst_doubles {bits : List (Pattern binary64)} (hbits : bits ≠ []) :
    sumFromFirst binary64
        ((bits.map fun b => AggValue.float8 (rank binary64 b)).map AggValue.floatValue) =
      some (sumValues binary64
        ((bits.map fun b => AggValue.float8 (rank binary64 b)).map AggValue.toFloat)) := by
  have hinfinite : binary64.infinite ≠ 0 := by decide +kernel
  rw [List.map_map, List.map_map]
  exact sumFromFirst_map_rank binary64 hinfinite hbits

theorem specSum_eq_sqlSum {spec : AggExecSpec} {t : TypeOid} {vs : List AggValue}
    (h : SumsAgree spec t cells vs) (htype : spec.colTypeOid = .int8 ↔ t = .int8)
    (hreal : t ≠ .float4) : specSum spec cells = sqlSum t vs := by
  unfold specSum sqlSum
  rw [h.isEmpty_eq]
  cases hfloat : isFloatType t with
  | true =>
      obtain rfl := (float_cases hfloat).resolve_left hreal
      obtain ⟨hspec, bits, hbits⟩ := h.doubles rfl
      rw [h.floats hfloat, hspec, hbits]
      by_cases hempty : bits = []
      · rw [hempty]
        rfl
      · rw [sumFromFirst_doubles hempty]
        rfl
  | false =>
      have hspec : spec.colTypeOid ≠ .float4 ∧ spec.colTypeOid ≠ .float8 := by
        rw [← h.float_eq] at hfloat
        exact not_or.mp fun hspec => absurd (isFloatType_iff.mpr hspec) (by simp [hfloat])
      rw [h.integers hfloat]
      rcases h.integer hfloat with rfl | rfl | rfl <;> simp [htype, hspec]

theorem specAvg_eq_sqlAvg {spec : AggExecSpec} {t : TypeOid} {vs : List AggValue}
    (h : SumsAgree spec t cells vs) : specAvg spec cells = sqlAvg t vs := by
  unfold specAvg sqlAvg
  rw [h.isEmpty_eq, h.float_eq, h.length_eq]
  cases hfloat : isFloatType t with
  | true =>
      rw [h.floats hfloat]
      rfl
  | false =>
      rw [h.integers hfloat]
      rcases h.integer hfloat with rfl | rfl | rfl <;> simp

theorem number_cases {t : TypeOid} (hnumber : isNumberOid t = true) (href : isRefOid t = false)
    (hfloat : isFloatType t = false) : t = .int2 ∨ t = .int4 ∨ t = .int8 := by
  simpa [isNumberOid, href, hfloat, or_assoc] using hnumber

theorem sumsAgree_column (aggType : AggType) {col : ℕ} {arg : AggArg}
    (harg : arg = .var col ∨ arg = .relabel col) (hnumber : isNumberOid (types col) = true)
    (href : isRefOid (types col) = false)
    (htyped : ∀ c ∈ cells, c.hasType (types col) = true) :
    SumsAgree ⟨aggType, col, types col, .column, 0, .none⟩ (types col) cells
      (cells.map arg.eval) := by
  have heval : arg.eval = Cell.value := by
    rcases harg with rfl | rfl <;> rfl
  rw [heval]
  refine ⟨List.length_map _, rfl, ?_, ?_, number_cases hnumber href, ?_⟩
  · intro hfloat
    rcases float_cases hfloat with ht | ht
    · obtain ⟨vs, rfl⟩ := cells_of_float4 htyped ht
      simp [floatInputs, Function.comp_def, Cell.toFloat, Cell.value, AggValue.toFloat]
    · obtain ⟨vs, rfl⟩ := cells_of_float8 htyped ht
      simp [floatInputs, Function.comp_def, Cell.toFloat, Cell.value, AggValue.toFloat]
  · intro ht
    obtain ⟨vs, rfl⟩ := cells_of_float8 htyped ht
    exact ⟨ht, vs, List.map_map⟩
  · intro hfloat
    have htext : isTextType (types col) = false := by
      rcases number_cases hnumber href hfloat with h | h | h <;> simp [isTextType, h]
    obtain ⟨vs, rfl⟩ := cells_of_word htyped htext hfloat href
    simp [sumInputs, Function.comp_def, Cell.datumWord, Cell.value, AggValue.toInt]

theorem sumsAgree_length (aggType : AggType) {col : ℕ} (htext : isTextType (types col) = true)
    (htyped : ∀ c ∈ cells, c.hasType (types col) = true) :
    SumsAgree ⟨aggType, col, .int4, .lengthOf, 0, .none⟩ .int4 cells
      (cells.map (AggArg.length col).eval) := by
  refine ⟨List.length_map _, rfl, ?_, ?_, fun _ => Or.inr (Or.inl rfl), ?_⟩
  · intro hfloat
    cases hfloat
  · intro ht
    cases ht
  · intro _
    obtain ⟨ss, rfl⟩ := cells_of_text htyped htext
    simp [sumInputs, Function.comp_def, Cell.charCount, AggArg.eval, AggValue.toInt]

theorem cells_of_addsInteger {t : TypeOid} (hadds : AddsInteger t)
    (htyped : ∀ c ∈ cells, c.hasType t = true) : ∃ vs : List ℤ, cells = vs.map Cell.word := by
  apply cells_of_word htyped <;>
    rcases hadds with rfl | rfl | rfl | rfl <;> rfl

theorem isFloatType_plus {col : ℕ} {c : IntConst} (hadds : AddsInteger (types col)) :
    isFloatType ((AggArg.plus col c).typeOid types) = false := by
  show isFloatType (if c.typeOid = .int8 then .int8 else types col) = false
  split
  · rfl
  · rcases hadds with h | h | h | h <;> simp [h, isFloatType]

theorem typeOid_plus_ne_float4 {col : ℕ} {c : IntConst} (hadds : AddsInteger (types col)) :
    (AggArg.plus col c).typeOid types ≠ .float4 := by
  intro ht
  have hfloat := isFloatType_plus (c := c) hadds
  rw [ht] at hfloat
  cases hfloat

theorem sumsAgree_plus (aggType : AggType) {col : ℕ} {c : IntConst}
    (hadds : AddsInteger (types col))
    (hnumber : isNumberOid ((AggArg.plus col c).typeOid types) = true)
    (htyped : ∀ c ∈ cells, c.hasType (types col) = true) :
    SumsAgree ⟨aggType, col, types col, .addConst, c.value, .none⟩
      ((AggArg.plus col c).typeOid types) cells (cells.map (AggArg.plus col c).eval) := by
  have hfloat : isFloatType (types col) = false := by
    rcases hadds with h | h | h | h <;> simp [h, isFloatType]
  have hargFloat := isFloatType_plus (c := c) hadds
  have href : isRefOid ((AggArg.plus col c).typeOid types) = false := by
    show isRefOid (if c.typeOid = .int8 then .int8 else types col) = false
    split
    · rfl
    · rcases hadds with h | h | h | h <;> simp [h, isRefOid]
  obtain ⟨vs, rfl⟩ := cells_of_addsInteger hadds htyped
  refine ⟨List.length_map _, by rw [hargFloat]; exact hfloat, ?_, ?_,
    number_cases hnumber href, ?_⟩
  · intro h
    rw [hargFloat] at h
    cases h
  · intro ht
    rw [ht] at hargFloat
    cases hargFloat
  · intro _
    simp [sumInputs, Function.comp_def, Cell.datumWord, AggArg.eval, AggValue.toInt]

/-- DISTINCT changes the sum and the average of 1, 1, 2. -/
theorem sql_ne_dedup {t : TypeOid} (ht : t = .int2 ∨ t = .int4 ∨ t = .int8) :
    sqlSum t [.word 1, .word 1, .word 2] ≠ sqlSum t [.word 1, .word 1, .word 2].dedup ∧
      sqlAvg t [.word 1, .word 1, .word 2] ≠ sqlAvg t [.word 1, .word 1, .word 2].dedup := by
  have hdedup : [AggValue.word 1, .word 1, .word 2].dedup = [.word 1, .word 2] := by decide
  rw [hdedup]
  rcases ht with rfl | rfl | rfl <;>
    simp [sqlSum, sqlAvg, isFloatType, AggValue.toInt] <;> norm_num

/-- One, one and two units of the least subnormal. -/
def repeatedReals : List (Pattern binary32) := [1#32, 1#32, 2#32]

def repeatedDoubles : List (Pattern binary64) := [1#64, 1#64, 2#64]

theorem sqlAvg_ne_dedup_reals :
    sqlAvg .float4 (repeatedReals.map fun b => .float4 (rank binary32 b)) ≠
      sqlAvg .float4 (repeatedReals.map fun b => AggValue.float4 (rank binary32 b)).dedup := by
  decide +kernel

theorem sql_ne_dedup_doubles :
    sqlSum .float8 (repeatedDoubles.map fun b => .float8 (rank binary64 b)) ≠
        sqlSum .float8 (repeatedDoubles.map fun b => AggValue.float8 (rank binary64 b)).dedup ∧
      sqlAvg .float8 (repeatedDoubles.map fun b => .float8 (rank binary64 b)) ≠
        sqlAvg .float8 (repeatedDoubles.map fun b => AggValue.float8 (rank binary64 b)).dedup := by
  decide +kernel

def absorbedReals : List (Pattern binary32) := [0x4B800000#32, 0x3F800000#32, 0x3F800000#32]

/-- Rounded to reals at every step the ones are lost, with or without DISTINCT. -/
theorem sqlSum_absorbed (distinct : Bool) :
    sqlSum .float4
        (if distinct then (absorbedReals.map fun b => AggValue.float4 (rank binary32 b)).dedup
        else absorbedReals.map fun b => .float4 (rank binary32 b)) ≠
      some (.float4 (convertValue binary64 binary32 (sumValues binary64
        (absorbedReals.map fun b => convertValue binary32 binary64 (rank binary32 b))))) := by
  revert distinct
  decide +kernel

end sums

/-! ### Extremes -/

section extremes

theorem fold1_text (c : Collation) (greater distinct : Bool) (ss : List Text) :
    fold1 (towards (AggValue.less c) greater)
        (if distinct then (ss.map AggValue.text).dedup else ss.map AggValue.text) =
      (fold1 (towards c.less greater) ss).map .text := by
  have hinj : Function.Injective AggValue.text := fun s t h => AggValue.text.inj h
  have hmap : ∀ l : List Text, fold1 (towards (AggValue.less c) greater) (l.map AggValue.text) =
      (fold1 (towards c.less greater) l).map .text := by
    intro l
    rw [fold1_map]
    rfl
  cases distinct with
  | false => exact hmap ss
  | true =>
      simp only [if_true]
      rw [List.dedup_map_of_injective hinj, hmap,
        fold1_towards_dedup c.irrefl c.trans c.total]

theorem fold1_word (c : Collation) (greater distinct : Bool) (vs : List ℤ) :
    fold1 (towards (AggValue.less c) greater)
        (if distinct then (vs.map AggValue.word).dedup else vs.map AggValue.word) =
      (fold1 (towards (fun a b => decide (a < b)) greater) vs).map .word := by
  have hinj : Function.Injective AggValue.word := fun s t h => AggValue.word.inj h
  have hmap : ∀ l : List ℤ, fold1 (towards (AggValue.less c) greater) (l.map AggValue.word) =
      (fold1 (towards (fun a b => decide (a < b)) greater) l).map .word := by
    intro l
    rw [fold1_map]
    rfl
  cases distinct with
  | false => exact hmap vs
  | true =>
      simp only [if_true]
      rw [List.dedup_map_of_injective hinj, hmap, fold1_towards_dedup]
      · simp
      · intro a b c hab hbc
        exact decide_eq_true ((of_decide_eq_true hab).trans (of_decide_eq_true hbc))
      · intro a b hne
        simpa using lt_or_gt_of_ne hne

end extremes

/-! ### One aggregate -/

section aggregate

variable {collations : ℕ → Collation} {types : ℕ → TypeOid} {a : Aggref} {cells : List Cell}

/-- The spec and the aggregate agree on all values the column may hold. -/
def CellsAgree (collations : ℕ → Collation) (types : ℕ → TypeOid) (a : Aggref) (arg : AggArg)
    (spec : AggExecSpec) : Prop :=
  ∀ cells : List Cell, (∀ c ∈ cells, c.hasType (types arg.col) = true) →
    spec.cellsValue collations cells = a.cellsValue collations types arg cells

theorem length_dedup_map_of_injective {α β : Type*} [DecidableEq α] [DecidableEq β] {f : α → β}
    (hf : Function.Injective f) (l : List α) : (l.map f).dedup.length = l.dedup.length := by
  rw [List.dedup_map_of_injective hf, List.length_map]

theorem specCountDistinct_column {col : ℕ} (href : isRefOid (types col) = false)
    (hfloat : isFloatType (types col) = false)
    (htyped : ∀ c ∈ cells, c.hasType (types col) = true) :
    specCountDistinct ⟨.countDistinct, col, types col, .column, 0, .none⟩ cells =
      (cells.map Cell.value).dedup.length := by
  cases htext : isTextType (types col) with
  | true =>
      obtain ⟨ss, rfl⟩ := cells_of_text htyped htext
      have hvalues : (ss.map Cell.text).map Cell.value = ss.map AggValue.text := by
        rw [List.map_map]
        rfl
      have htexts : (ss.map Cell.text).map Cell.toText = ss := by
        rw [List.map_map]
        exact List.map_id ss
      rw [hvalues, length_dedup_map_of_injective fun s t h => AggValue.text.inj h]
      simp only [specCountDistinct, htext, htexts, reduceCtorEq, if_false, if_true]
  | false =>
      obtain ⟨vs, rfl⟩ := cells_of_word htyped htext hfloat href
      have hvalues : (vs.map Cell.word).map Cell.value = vs.map AggValue.word := by
        rw [List.map_map]
        rfl
      have hwords : (vs.map Cell.word).map Cell.datumWord = vs := by
        rw [List.map_map]
        exact List.map_id vs
      rw [hvalues, length_dedup_map_of_injective fun s t h => AggValue.word.inj h]
      simp only [specCountDistinct, htext, hwords, reduceCtorEq, if_false, Bool.false_eq_true]

structure IsColumn (types : ℕ → TypeOid) (arg : AggArg) (col : ℕ) : Prop where
  col_eq : arg.col = col
  eval_eq : arg.eval = Cell.value
  type_eq : arg.typeOid types = types col

def blankRef : RefValue := ⟨1, 0, 0, ['a']⟩

theorem hasType_ref {t : TypeOid} (href : isRefOid t = true) (r : RefValue) :
    (Cell.ref r).hasType t = true := by
  cases t <;> simp_all [isRefOid, Cell.hasType]

/-- A column of floats may hold both zeros. -/
theorem exists_zeros {t : TypeOid} (hfloat : isFloatType t = true) :
    ∃ c c' : Cell, c.hasType t = true ∧ c'.hasType t = true ∧ c.value = c'.value ∧
      c.datumWord ≠ c'.datumWord ∧ c.groupValue ≠ c'.groupValue := by
  rcases float_cases hfloat with rfl | rfl
  · exact ⟨.float4 0#32, .float4 0x80000000#32, by decide +kernel⟩
  · exact ⟨.float8 0#64, .float8 0x8000000000000000#64, by decide +kernel⟩

theorem hasType_text {t : TypeOid} (htext : isTextType t = true) (s : Text) :
    (Cell.text s).hasType t = true := by
  cases t <;> simp_all [isTextType, Cell.hasType]

theorem not_float_of_ref {t : TypeOid} (href : isRefOid t = true) : isFloatType t = false := by
  cases t <;> simp_all [isRefOid, isFloatType]

theorem not_text_of_ref {t : TypeOid} (href : isRefOid t = true) : isTextType t = false := by
  cases t <;> simp_all [isRefOid, isTextType]

theorem not_text_of_float {t : TypeOid} (hfloat : isFloatType t = true) : isTextType t = false := by
  cases t <;> simp_all [isFloatType, isTextType]

section columnArg

variable {arg : AggArg} {col : ℕ} (harg : IsColumn types arg col)

include harg

theorem count_column_iff (hname : a.name = .count) (aggType : AggType)
    (htype : aggType = if a.distinct then .countDistinct else .count) :
    CellsAgree collations types a arg ⟨aggType, col, types col, .column, 0, .none⟩ ↔
      (a.distinct = true → isRefOid (types col) = false ∧ isFloatType (types col) = false) := by
  subst htype
  unfold CellsAgree
  rw [harg.col_eq]
  cases hdistinct : a.distinct with
  | false =>
      simp [AggExecSpec.cellsValue, Aggref.cellsValue, sqlAggregate, hname, hdistinct]
  | true =>
      have hsql : ∀ cells, a.cellsValue collations types arg cells =
          some (.word (cells.map Cell.value).dedup.length) := by
        intro cells
        simp only [Aggref.cellsValue, sqlAggregate, hname, hdistinct, harg.eval_eq, if_true]
      simp only [if_true, hsql, AggExecSpec.cellsValue, true_implies]
      constructor
      · intro h
        refine ⟨?_, ?_⟩
        · by_contra href
          rw [Bool.not_eq_false] at href
          -- Two places, one value.
          have htwo := h [.ref blankRef, .ref { blankRef with address := 2 }] (by
            intro c hc
            rcases List.mem_pair.mp hc with rfl | rfl <;> exact hasType_ref href _)
          simp only [specCountDistinct, not_text_of_ref href] at htwo
          revert htwo
          decide
        · by_contra hfloat
          rw [Bool.not_eq_false] at hfloat
          obtain ⟨c, c', hc, hc', hvalue, hword, -⟩ := exists_zeros hfloat
          have htwo := h [c, c'] (by simp [hc, hc'])
          simp [specCountDistinct, not_text_of_float hfloat, hvalue, hword] at htwo
      · rintro ⟨href, hfloat⟩ cells htyped
        rw [specCountDistinct_column href hfloat htyped]

end columnArg

def IsSum (a : Aggref) (aggType : AggType) : Prop :=
  a.name = .sum ∧ aggType = .sum ∨ a.name = .avg ∧ aggType = .avg

/-- A spec that computes the aggregate without DISTINCT stands for it when it has
none, as soon as DISTINCT makes a difference. -/
theorem cellsAgree_iff_not_distinct {arg : AggArg} {spec : AggExecSpec}
    (hspec : ∀ cells : List Cell, (∀ c ∈ cells, c.hasType (types arg.col) = true) →
      spec.cellsValue collations cells =
        sqlAggregate (collations a.inputcollid) a.name (arg.typeOid types) (cells.map arg.eval))
    (hne : ∃ cells : List Cell, (∀ c ∈ cells, c.hasType (types arg.col) = true) ∧
      sqlAggregate (collations a.inputcollid) a.name (arg.typeOid types) (cells.map arg.eval) ≠
        sqlAggregate (collations a.inputcollid) a.name (arg.typeOid types)
          (cells.map arg.eval).dedup) :
    CellsAgree collations types a arg spec ↔ a.distinct = false := by
  constructor
  · intro h
    by_contra hdistinct
    rw [Bool.not_eq_false] at hdistinct
    obtain ⟨cells, htyped, hcells⟩ := hne
    have heq := h cells htyped
    rw [hspec cells htyped] at heq
    simp only [Aggref.cellsValue, hdistinct, if_true] at heq
    exact hcells heq
  · intro hdistinct cells htyped
    rw [hspec cells htyped]
    simp only [Aggref.cellsValue, hdistinct, Bool.false_eq_true, if_false]

/-- Values on which DISTINCT makes a difference to SUM and AVG. -/
def Repeats (t : TypeOid) (vs : List AggValue) : Prop :=
  (t = .int2 ∨ t = .int4 ∨ t = .int8) ∧ vs = [.word 1, .word 1, .word 2] ∨
    t = .float4 ∧ vs = repeatedReals.map (fun b => .float4 (rank binary32 b)) ∨
    t = .float8 ∧ vs = repeatedDoubles.map fun b => .float8 (rank binary64 b)

theorem sqlAggregate_ne_dedup {aggType : AggType} {t : TypeOid} {vs : List AggValue}
    {collate : Collation} (hsum : IsSum a aggType) (hreal : a.name = .sum → t ≠ .float4)
    (hrepeats : Repeats t vs) :
    sqlAggregate collate a.name t vs ≠ sqlAggregate collate a.name t vs.dedup := by
  have hne : (t ≠ .float4 → sqlSum t vs ≠ sqlSum t vs.dedup) ∧ sqlAvg t vs ≠ sqlAvg t vs.dedup := by
    rcases hrepeats with ⟨ht, rfl⟩ | ⟨rfl, rfl⟩ | ⟨rfl, rfl⟩
    · exact ⟨fun _ => (sql_ne_dedup ht).1, (sql_ne_dedup ht).2⟩
    · exact ⟨fun h => absurd rfl h, sqlAvg_ne_dedup_reals⟩
    · exact ⟨fun _ => sql_ne_dedup_doubles.1, sql_ne_dedup_doubles.2⟩
  rcases hsum with ⟨hname, -⟩ | ⟨hname, -⟩
  · simpa only [sqlAggregate, hname] using hne.1 (hreal hname)
  · simpa only [sqlAggregate, hname] using hne.2

/-- SUM and AVG of an argument whose values the executor adds up. -/
theorem sums_iff {arg : AggArg} {spec : AggExecSpec} (hsum : IsSum a spec.aggType)
    (hagree : ∀ cells : List Cell, (∀ c ∈ cells, c.hasType (types arg.col) = true) →
      SumsAgree spec (arg.typeOid types) cells (cells.map arg.eval))
    (htype : a.name = .sum → (spec.colTypeOid = .int8 ↔ arg.typeOid types = .int8))
    (hreal : a.name = .sum → arg.typeOid types ≠ .float4)
    (hrepeats : ∃ cells : List Cell, (∀ c ∈ cells, c.hasType (types arg.col) = true) ∧
      Repeats (arg.typeOid types) (cells.map arg.eval)) :
    CellsAgree collations types a arg spec ↔ a.distinct = false := by
  apply cellsAgree_iff_not_distinct
  · intro cells htyped
    rcases hsum with ⟨hname, haggType⟩ | ⟨hname, haggType⟩
    · simp only [AggExecSpec.cellsValue, haggType, sqlAggregate, hname]
      exact specSum_eq_sqlSum (hagree cells htyped) (htype hname) (hreal hname)
    · simp only [AggExecSpec.cellsValue, haggType, sqlAggregate, hname]
      exact specAvg_eq_sqlAvg (hagree cells htyped)
  · obtain ⟨cells, htyped, h⟩ := hrepeats
    exact ⟨cells, htyped, sqlAggregate_ne_dedup hsum hreal h⟩

/-- A column of numbers may hold one of them twice. -/
theorem exists_repeats {t : TypeOid} (hnumber : isNumberOid t = true) (href : isRefOid t = false) :
    ∃ cells : List Cell, (∀ c ∈ cells, c.hasType t = true) ∧ Repeats t (cells.map Cell.value) := by
  cases hfloat : isFloatType t with
  | true =>
      rcases float_cases hfloat with rfl | rfl
      · refine ⟨repeatedReals.map Cell.float4, by simp [Cell.hasType], Or.inr (Or.inl ⟨rfl, ?_⟩)⟩
        exact List.map_map
      · refine ⟨repeatedDoubles.map Cell.float8, by simp [Cell.hasType], Or.inr (Or.inr ⟨rfl, ?_⟩)⟩
        exact List.map_map
  | false =>
      have hint := number_cases hnumber href hfloat
      refine ⟨[.word 1, .word 1, .word 2], ?_, Or.inl ⟨hint, rfl⟩⟩
      rcases hint with rfl | rfl | rfl <;> simp [Cell.hasType]

theorem sum_column_iff {arg : AggArg} {col : ℕ} (harg : arg = .var col ∨ arg = .relabel col)
    {aggType : AggType} (hsum : IsSum a aggType) (hnumber : isNumberOid (types col) = true) :
    CellsAgree collations types a arg ⟨aggType, col, types col, .column, 0, .none⟩ ↔
      a.distinct = false ∧ isRefOid (types col) = false ∧
        (a.name = .sum → types col ≠ .float4) := by
  have hcolumn : IsColumn types arg col := by
    rcases harg with rfl | rfl <;> exact ⟨rfl, rfl, rfl⟩
  by_cases hreal : a.name = .sum → types col ≠ .float4
  case neg =>
    rw [Classical.not_imp, not_not] at hreal
    obtain ⟨hname, ht⟩ := hreal
    apply iff_of_false
    · intro h
      rcases hsum with ⟨-, rfl⟩ | ⟨havg, -⟩
      · have hlost := h (absorbedReals.map Cell.float4) (by simp [hcolumn.col_eq, ht, Cell.hasType])
        simp only [AggExecSpec.cellsValue, Aggref.cellsValue, sqlAggregate, hname, ht,
          hcolumn.type_eq, hcolumn.eval_eq, List.map_map] at hlost
        exact sqlSum_absorbed a.distinct hlost.symm
      · rw [hname] at havg
        cases havg
    · exact fun h => h.2.2 hname ht
  case pos =>
  simp only [eq_true hreal, and_true]
  cases href : isRefOid (types col) with
  | true =>
      simp only [Bool.true_eq_false, and_false, iff_false]
      intro h
      -- The address is not the value.
      have hone := h [.ref blankRef] (by simpa [hcolumn.col_eq] using hasType_ref href _)
      have hint8 : types col ≠ .int8 := by
        intro ht
        rw [ht] at href
        cases href
      have hsmall : ¬ (types col = .int2 ∨ types col = .int4) := by
        rintro (ht | ht) <;> rw [ht] at href <;> cases href
      have hreals : types col ≠ .float4 ∧ types col ≠ .float8 := by
        constructor <;> intro ht <;> rw [ht] at href <;> cases href
      rcases hsum with ⟨hname, rfl⟩ | ⟨hname, rfl⟩ <;>
        simp [AggExecSpec.cellsValue, Aggref.cellsValue, sqlAggregate, hname, specSum, sqlSum,
          specAvg, sqlAvg, hcolumn.type_eq, hcolumn.eval_eq, not_float_of_ref href, hint8, hsmall,
          hreals, sumInputs, Cell.datumWord, Cell.value, AggValue.toRat, blankRef] at hone
  | false =>
      simp only [and_true]
      apply sums_iff hsum
      · rw [hcolumn.col_eq, hcolumn.type_eq]
        exact fun cells htyped => sumsAgree_column aggType harg hnumber href htyped
      · rw [hcolumn.type_eq]
        exact fun _ => Iff.rfl
      · rw [hcolumn.type_eq]
        exact hreal
      · rw [hcolumn.col_eq, hcolumn.type_eq, hcolumn.eval_eq]
        exact exists_repeats hnumber href

/-- MIN, or MAX with `greater`, and how it is recorded. -/
def IsExtreme (a : Aggref) (aggType : AggType) (greater : Bool) : Prop :=
  a.name = .min ∧ aggType = .min ∧ greater = false ∨
    a.name = .max ∧ aggType = .max ∧ greater = true

theorem cellsAgree_extreme {arg : AggArg} {spec : AggExecSpec} {greater : Bool}
    (hextreme : IsExtreme a spec.aggType greater) :
    CellsAgree collations types a arg spec ↔
      ∀ cells : List Cell, (∀ c ∈ cells, c.hasType (types arg.col) = true) →
        specExtreme collations greater spec cells =
          fold1 (towards (AggValue.less (collations a.inputcollid)) greater)
            (if a.distinct then (cells.map arg.eval).dedup else cells.map arg.eval) := by
  unfold CellsAgree
  rcases hextreme with ⟨hname, haggType, rfl⟩ | ⟨hname, haggType, rfl⟩ <;>
    simp only [AggExecSpec.cellsValue, haggType, Aggref.cellsValue, sqlAggregate, hname]

/-- Two different texts show how a collation orders them. -/
theorem less_eq_of_fold1_pair {c c' : Collation} {greater : Bool} {s t : Text} (hne : s ≠ t)
    (h : ∀ s t : Text,
      fold1 (towards c.less greater) [s, t] = fold1 (towards c'.less greater) [s, t]) :
    c.less s t = c'.less s t := by
  cases greater with
  | false =>
      have hts := h t s
      simp only [fold1, towards, Bool.false_eq_true, if_false, List.foldl_cons, List.foldl_nil,
        Option.some.injEq] at hts
      cases hc : c.less s t <;> cases hc' : c'.less s t <;> simp_all
  | true =>
      have hst := h s t
      simp only [fold1, towards, if_true, List.foldl_cons, List.foldl_nil,
        Option.some.injEq] at hst
      cases hc : c.less s t <;> cases hc' : c'.less s t <;> simp_all

theorem dedup_pair_of_ne {α : Type*} [DecidableEq α] {x y : α} (hne : x ≠ y) :
    [x, y].dedup = [x, y] := by
  apply List.dedup_eq_self.mpr
  simpa using hne

/-- Without an order for NaN it stays where it comes first, and is not found where it
comes last. -/
theorem fold1_nan_ne (c : Collation) (greater : Bool) {t : TypeOid} (hfloat : isFloatType t = true) :
    ∃ v w : Cell, v.hasType t = true ∧ w.hasType t = true ∧ v.value ≠ w.value ∧
      (fold1 (towards floatLess greater) [v.floatValue, w.floatValue]).map (AggValue.ofFloat t) ≠
        fold1 (towards (AggValue.less c) greater) [v.value, w.value] := by
  have hnan4 : rank binary32 0x7FC00000#32 = ⊤ := by decide +kernel
  have hzero4 : rank binary32 0#32 = 0 := by decide +kernel
  have hnan8 : rank binary64 0x7FF8000000000000#64 = ⊤ := by decide +kernel
  have hzero8 : rank binary64 0#64 = 0 := by decide +kernel
  have hless : floatLess ⊤ 0 = false ∧ floatLess 0 ⊤ = false := ⟨rfl, rfl⟩
  have hordered : lessValue ⊤ 0 = false ∧ lessValue 0 ⊤ = true := ⟨rfl, rfl⟩
  rcases float_cases hfloat with rfl | rfl
  · cases greater with
    | false =>
        refine ⟨.float4 0x7FC00000#32, .float4 0#32, rfl, rfl, ?_⟩
        simp [fold1, towards, Cell.value, Cell.floatValue, AggValue.less, hordered,
          AggValue.ofFloat, hless, hnan4, hzero4]
    | true =>
        refine ⟨.float4 0#32, .float4 0x7FC00000#32, rfl, rfl, ?_⟩
        simp [fold1, towards, Cell.value, Cell.floatValue, AggValue.less, hordered,
          AggValue.ofFloat, hless, hnan4, hzero4]
  · cases greater with
    | false =>
        refine ⟨.float8 0x7FF8000000000000#64, .float8 0#64, rfl, rfl, ?_⟩
        simp [fold1, towards, Cell.value, Cell.floatValue, AggValue.less, hordered,
          AggValue.ofFloat, hless, hnan8, hzero8]
    | true =>
        refine ⟨.float8 0#64, .float8 0x7FF8000000000000#64, rfl, rfl, ?_⟩
        simp [fold1, towards, Cell.value, Cell.floatValue, AggValue.less, hordered,
          AggValue.ofFloat, hless, hnan8, hzero8]

theorem extreme_column_iff {arg : AggArg} {col : ℕ} (harg : IsColumn types arg col)
    {aggType : AggType} {greater : Bool} (hextreme : IsExtreme a aggType greater) :
    CellsAgree collations types a arg ⟨aggType, col, types col, .column, 0, .none⟩ ↔
      isRefOid (types col) = false ∧ isFloatType (types col) = false ∧
        (isTextType (types col) = true →
          SameOrder (collations a.inputcollid) (collations 0)) := by
  refine (cellsAgree_extreme hextreme).trans ?_
  rw [harg.col_eq, harg.eval_eq]
  constructor
  · intro h
    refine ⟨?_, ?_, ?_⟩
    · by_contra href
      rw [Bool.not_eq_false] at href
      have hone := h [.ref blankRef] (by simpa using hasType_ref href _)
      simp [specExtreme, not_text_of_ref href, not_float_of_ref href, fold1, Cell.value] at hone
    · by_contra hfloat
      rw [Bool.not_eq_false] at hfloat
      obtain ⟨v, w, hv, hw, hne, hvw⟩ := fold1_nan_ne (collations a.inputcollid) greater hfloat
      have hpair := h [v, w] (by simp [hv, hw])
      simp only [specExtreme, not_text_of_float hfloat, hfloat, List.map_cons, List.map_nil,
        dedup_pair_of_ne hne, ite_self, reduceCtorEq, if_false, if_true,
        Bool.false_eq_true] at hpair
      exact hvw hpair
    · intro htext s t
      by_cases hst : s = t
      · rw [hst, Collation.irrefl, Collation.irrefl]
      · apply less_eq_of_fold1_pair hst
        intro s t
        have hpair := h [.text s, .text t] (by simp [hasType_text htext])
        have htexts := fold1_text (collations a.inputcollid) greater a.distinct [s, t]
        simp only [List.map_cons, List.map_nil, Cell.value] at hpair htexts
        rw [htexts] at hpair
        simp only [specExtreme, htext, List.map_cons, List.map_nil, Cell.toText, reduceCtorEq,
          if_false, if_true] at hpair
        exact (Option.map_injective (fun s t h => AggValue.text.inj h) hpair).symm
  · rintro ⟨href, hfloat, hcollate⟩ cells htyped
    cases htext : isTextType (types col) with
    | true =>
        obtain ⟨ss, rfl⟩ := cells_of_text htyped htext
        have hvalues : (ss.map Cell.text).map Cell.value = ss.map AggValue.text := by
          rw [List.map_map]
          rfl
        have htexts : (ss.map Cell.text).map Cell.toText = ss := by
          rw [List.map_map]
          exact List.map_id ss
        have hless : (collations a.inputcollid).less = (collations 0).less := by
          ext s t
          rw [hcollate htext s t]
        rw [hvalues, fold1_text, hless]
        simp only [specExtreme, htext, htexts, reduceCtorEq, if_false, if_true]
    | false =>
        obtain ⟨vs, rfl⟩ := cells_of_word htyped htext hfloat href
        have hvalues : (vs.map Cell.word).map Cell.value = vs.map AggValue.word := by
          rw [List.map_map]
          rfl
        have hwords : (vs.map Cell.word).map Cell.datumWord = vs := by
          rw [List.map_map]
          exact List.map_id vs
        rw [hvalues, fold1_word]
        simp only [specExtreme, htext, hfloat, hwords, reduceCtorEq, if_false,
          Bool.false_eq_true]

/-! `length` of a column -/

/-- A column `length` is defined for has a value. -/
theorem exists_cell_of_length {t : TypeOid} (ht : isTextType t = true ∨ isRefOid t = true) :
    ∃ c : Cell, c.hasType t = true := by
  rcases ht with ht | ht
  · exact ⟨.text [], hasType_text ht _⟩
  · exact ⟨.ref blankRef, hasType_ref ht _⟩

theorem count_length_iff {col : ℕ} (ht : isTextType (types col) = true ∨ isRefOid (types col) = true)
    (hname : a.name = .count) {aggType : AggType}
    (htype : aggType = if a.distinct then .countDistinct else .count) :
    CellsAgree collations types a (.length col) ⟨aggType, col, .int4, .lengthOf, 0, .none⟩ ↔
      a.distinct = false := by
  subst htype
  unfold CellsAgree
  cases hdistinct : a.distinct with
  | false =>
      simp [AggExecSpec.cellsValue, Aggref.cellsValue, sqlAggregate, hname, hdistinct]
  | true =>
      simp only [Bool.true_eq_false, iff_false]
      intro h
      obtain ⟨c, hc⟩ := exists_cell_of_length ht
      have hone := h [c] (by simpa [AggArg.col] using hc)
      simp [AggExecSpec.cellsValue, specCountDistinct, Aggref.cellsValue, sqlAggregate, hname,
        hdistinct] at hone

theorem sum_length_iff {col : ℕ} (ht : isTextType (types col) = true ∨ isRefOid (types col) = true)
    {aggType : AggType} (hsum : IsSum a aggType) :
    CellsAgree collations types a (.length col) ⟨aggType, col, .int4, .lengthOf, 0, .none⟩ ↔
      a.distinct = false ∧ isTextType (types col) = true := by
  cases htext : isTextType (types col) with
  | false =>
      simp only [Bool.false_eq_true, and_false, iff_false]
      intro h
      have href : isRefOid (types col) = true := by
        simpa [htext] using ht
      -- Characters of the rendering are not bytes of the value.
      have hone := h [.ref blankRef] (by simpa [AggArg.col] using hasType_ref href _)
      rcases hsum with ⟨hname, rfl⟩ | ⟨hname, rfl⟩ <;>
        simp [AggExecSpec.cellsValue, Aggref.cellsValue, sqlAggregate, hname, specSum, sqlSum,
          specAvg, sqlAvg, isFloatType, AggArg.typeOid, AggArg.eval, sumInputs, Cell.charCount,
          AggValue.toInt, blankRef] at hone
  | true =>
      simp only [and_true]
      apply sums_iff hsum
      · exact fun cells htyped => sumsAgree_length aggType htext htyped
      · exact fun _ => Iff.rfl
      · exact fun _ => by simp [AggArg.typeOid]
      · refine ⟨[.text ['a'], .text ['a'], .text ['a', 'a']], ?_, Or.inl ⟨?_, rfl⟩⟩
        · simp [AggArg.col, hasType_text htext]
        · exact Or.inr (Or.inl rfl)

theorem not_extreme_length {col : ℕ}
    (ht : isTextType (types col) = true ∨ isRefOid (types col) = true) {aggType : AggType}
    {greater : Bool} (hextreme : IsExtreme a aggType greater) :
    ¬ CellsAgree collations types a (.length col) ⟨aggType, col, .int4, .lengthOf, 0, .none⟩ := by
  intro h
  obtain ⟨c, hc⟩ := exists_cell_of_length ht
  have hone := (cellsAgree_extreme hextreme).mp h [c] (by simpa [AggArg.col] using hc)
  simp [specExtreme, fold1] at hone

/-! A column plus a constant -/

section plus

variable {col : ℕ} {c : IntConst} (hadds : AddsInteger (types col))

include hadds

theorem hasType_of_addsInteger (v : ℤ) : (Cell.word v).hasType (types col) = true := by
  rcases hadds with h | h | h | h <;> simp [h, Cell.hasType]

theorem not_text_float_of_addsInteger :
    isTextType (types col) = false ∧ isFloatType (types col) = false := by
  rcases hadds with h | h | h | h <;> simp [h, isTextType, isFloatType]

theorem cellsAgree_count_plus (hname : a.name = .count) {aggType : AggType}
    (htype : aggType = if a.distinct then .countDistinct else .count) :
    CellsAgree collations types a (.plus col c)
      ⟨aggType, col, types col, .addConst, c.value, .none⟩ := by
  subst htype
  intro cells htyped
  cases hdistinct : a.distinct with
  | false => simp [AggExecSpec.cellsValue, Aggref.cellsValue, sqlAggregate, hname, hdistinct]
  | true =>
      obtain ⟨htext, hfloat⟩ := not_text_float_of_addsInteger hadds
      obtain ⟨vs, rfl⟩ := cells_of_addsInteger hadds htyped
      have hwords : (vs.map Cell.word).map Cell.datumWord = vs := by
        rw [List.map_map]
        exact List.map_id vs
      have hvalues : (vs.map Cell.word).map (AggArg.plus col c).eval =
          vs.map fun v => AggValue.word (v + c.value) := by
        rw [List.map_map]
        rfl
      -- Adding the constant keeps different values different.
      have hinj : Function.Injective fun v : ℤ => AggValue.word (v + c.value) :=
        fun v w h => add_right_cancel (AggValue.word.inj h)
      simp only [AggExecSpec.cellsValue, Aggref.cellsValue, sqlAggregate, hname, hdistinct,
        if_true, hvalues, length_dedup_map_of_injective hinj, specCountDistinct, htext,
        hwords, reduceCtorEq, if_false, Bool.false_eq_true]

/-- Values that come to 1, 1, 2. -/
theorem exists_repeats_plus
    (hnumber : isNumberOid ((AggArg.plus col c).typeOid types) = true) :
    ∃ cells : List Cell, (∀ c ∈ cells, c.hasType (types col) = true) ∧
      Repeats ((AggArg.plus col c).typeOid types) (cells.map (AggArg.plus col c).eval) := by
  refine ⟨[.word (1 - c.value), .word (1 - c.value), .word (2 - c.value)], ?_, Or.inl ⟨?_, ?_⟩⟩
  · simp [hasType_of_addsInteger hadds]
  · have hagree : SumsAgree ⟨.sum, col, types col, .addConst, c.value, .none⟩
        ((AggArg.plus col c).typeOid types) [] ([].map (AggArg.plus col c).eval) :=
      sumsAgree_plus .sum hadds hnumber (by simp)
    apply hagree.integer
    rw [← hagree.float_eq]
    exact (not_text_float_of_addsInteger hadds).2
  · simp [AggArg.eval]

theorem sum_plus_iff (hname : a.name = .sum)
    (hnumber : isNumberOid ((AggArg.plus col c).typeOid types) = true) :
    CellsAgree collations types a (.plus col c)
        ⟨.sum, col, types col, .addConst, c.value, .none⟩ ↔
      a.distinct = false ∧ (c.typeOid = .int8 → types col = .int8) := by
  by_cases hwide : c.typeOid = .int8 → types col = .int8
  · rw [and_iff_left hwide]
    apply sums_iff (Or.inl ⟨hname, rfl⟩)
    · exact fun cells htyped => sumsAgree_plus .sum hadds hnumber htyped
    · intro _
      show types col = .int8 ↔ (if c.typeOid = .int8 then .int8 else types col) = .int8
      split
      · rename_i hc
        simp [hwide hc]
      · exact Iff.rfl
    · exact fun _ => typeOid_plus_ne_float4 hadds
    · exact exists_repeats_plus hadds hnumber
  · simp only [hwide, and_false, iff_false]
    intro h
    simp only [Classical.not_imp] at hwide
    have hone := h [.word 0] (by simpa [AggArg.col] using hasType_of_addsInteger hadds 0)
    have hreals : types col ≠ .float4 ∧ types col ≠ .float8 := by
      constructor <;> intro ht <;> rcases hadds with h | h | h | h <;> simp [ht] at h
    simp [AggExecSpec.cellsValue, Aggref.cellsValue, sqlAggregate, hname, specSum, sqlSum,
      hreals, hwide.1, hwide.2, AggArg.typeOid] at hone

theorem avg_plus_iff (hname : a.name = .avg)
    (hnumber : isNumberOid ((AggArg.plus col c).typeOid types) = true) :
    CellsAgree collations types a (.plus col c)
        ⟨.avg, col, types col, .addConst, c.value, .none⟩ ↔ a.distinct = false := by
  apply sums_iff (Or.inr ⟨hname, rfl⟩)
  · exact fun cells htyped => sumsAgree_plus .avg hadds hnumber htyped
  · intro hsum
    rw [hname] at hsum
    cases hsum
  · exact fun _ => typeOid_plus_ne_float4 hadds
  · exact exists_repeats_plus hadds hnumber

theorem extreme_plus_iff {aggType : AggType} {greater : Bool}
    (hextreme : IsExtreme a aggType greater) :
    CellsAgree collations types a (.plus col c)
        ⟨aggType, col, types col, .addConst, c.value, .none⟩ ↔ c.value = 0 := by
  obtain ⟨htext, hfloat⟩ := not_text_float_of_addsInteger hadds
  refine (cellsAgree_extreme hextreme).trans ?_
  constructor
  · intro h
    have hone := h [.word 0] (by simpa [AggArg.col] using hasType_of_addsInteger hadds 0)
    simp [specExtreme, htext, hfloat, fold1, Cell.datumWord, AggArg.eval] at hone
    omega
  · intro hzero cells htyped
    obtain ⟨vs, rfl⟩ := cells_of_addsInteger hadds htyped
    have hwords : (vs.map Cell.word).map Cell.datumWord = vs := by
      rw [List.map_map]
      exact List.map_id vs
    have hvalues : (vs.map Cell.word).map (AggArg.plus col c).eval = vs.map AggValue.word := by
      rw [List.map_map]
      apply List.map_congr_left
      intro v _
      show AggValue.word (v + c.value) = .word v
      rw [hzero, add_zero]
    rw [hvalues, fold1_word]
    simp only [specExtreme, htext, hfloat, hwords, reduceCtorEq, if_false, Bool.false_eq_true]

end plus

/-! Any argument -/

theorem aggTypeOf_count {aggType : AggType} (hname : a.name = .count)
    (haggType : aggTypeOf a.name a.distinct = some aggType) :
    aggType = if a.distinct then .countDistinct else .count := by
  simpa [aggTypeOf, hname] using haggType.symm

theorem aggTypeOf_sum {aggType : AggType} (hname : a.name = .sum ∨ a.name = .avg)
    (haggType : aggTypeOf a.name a.distinct = some aggType) : IsSum a aggType := by
  rcases hname with h | h
  · exact Or.inl ⟨h, by simpa [aggTypeOf, h] using haggType.symm⟩
  · exact Or.inr ⟨h, by simpa [aggTypeOf, h] using haggType.symm⟩

theorem aggTypeOf_extreme {aggType : AggType} (hname : a.name = .min ∨ a.name = .max)
    (haggType : aggTypeOf a.name a.distinct = some aggType) :
    ∃ greater, IsExtreme a aggType greater := by
  rcases hname with h | h
  · exact ⟨false, Or.inl ⟨h, by simpa [aggTypeOf, h] using haggType.symm, rfl⟩⟩
  · exact ⟨true, Or.inr ⟨h, by simpa [aggTypeOf, h] using haggType.symm, rfl⟩⟩

section anyAggregate

variable {aggType : AggType} (haggType : aggTypeOf a.name a.distinct = some aggType)

include haggType

theorem column_iff_represented {arg : AggArg} {col : ℕ}
    (harg : arg = .var col ∨ arg = .relabel col)
    (hnumber : (a.name = .sum ∨ a.name = .avg) → isNumberOid (types col) = true) :
    CellsAgree collations types a arg ⟨aggType, col, types col, .column, 0, .none⟩ ↔
      a.RepresentedArg collations types arg := by
  have hcolumn : IsColumn types arg col := by
    rcases harg with rfl | rfl <;> exact ⟨rfl, rfl, rfl⟩
  have hrepresented : a.RepresentedArg collations types arg =
      a.RepresentedArg collations types (.var col) := by
    rcases harg with rfl | rfl <;> rfl
  rw [hrepresented]
  unfold Aggref.RepresentedArg
  cases hname : a.name with
  | count => exact count_column_iff hcolumn hname aggType (aggTypeOf_count hname haggType)
  | sum =>
      have hsum := aggTypeOf_sum (Or.inl hname) haggType
      simpa [hname] using sum_column_iff harg hsum (hnumber (Or.inl hname))
  | avg =>
      have hsum := aggTypeOf_sum (Or.inr hname) haggType
      simpa [hname] using sum_column_iff harg hsum (hnumber (Or.inr hname))
  | min =>
      obtain ⟨greater, hextreme⟩ := aggTypeOf_extreme (Or.inl hname) haggType
      exact extreme_column_iff hcolumn hextreme
  | max =>
      obtain ⟨greater, hextreme⟩ := aggTypeOf_extreme (Or.inr hname) haggType
      exact extreme_column_iff hcolumn hextreme
  | other name =>
      rw [hname] at haggType
      cases haggType

theorem length_iff_represented {col : ℕ} (hvalid : (AggArg.length col).Valid types) :
    CellsAgree collations types a (.length col) ⟨aggType, col, .int4, .lengthOf, 0, .none⟩ ↔
      a.RepresentedArg collations types (.length col) := by
  unfold Aggref.RepresentedArg
  cases hname : a.name with
  | count => exact count_length_iff hvalid hname (aggTypeOf_count hname haggType)
  | sum => exact sum_length_iff hvalid (aggTypeOf_sum (Or.inl hname) haggType)
  | avg => exact sum_length_iff hvalid (aggTypeOf_sum (Or.inr hname) haggType)
  | min =>
      obtain ⟨greater, hextreme⟩ := aggTypeOf_extreme (Or.inl hname) haggType
      exact iff_false_intro (not_extreme_length hvalid hextreme)
  | max =>
      obtain ⟨greater, hextreme⟩ := aggTypeOf_extreme (Or.inr hname) haggType
      exact iff_false_intro (not_extreme_length hvalid hextreme)
  | other name =>
      rw [hname] at haggType
      cases haggType

theorem plus_iff_represented {col : ℕ} {c : IntConst} (hvalid : (AggArg.plus col c).Valid types)
    (hnumber : (a.name = .sum ∨ a.name = .avg) →
      isNumberOid ((AggArg.plus col c).typeOid types) = true) :
    CellsAgree collations types a (.plus col c)
        ⟨aggType, col, types col, .addConst, c.value, .none⟩ ↔
      a.RepresentedArg collations types (.plus col c) := by
  unfold Aggref.RepresentedArg
  cases hname : a.name with
  | count =>
      exact iff_true_intro
        (cellsAgree_count_plus hvalid hname (aggTypeOf_count hname haggType))
  | sum =>
      rw [hname] at haggType
      cases haggType
      exact sum_plus_iff hvalid hname (hnumber (Or.inl hname))
  | avg =>
      rw [hname] at haggType
      cases haggType
      exact avg_plus_iff hvalid hname (hnumber (Or.inr hname))
  | min =>
      obtain ⟨greater, hextreme⟩ := aggTypeOf_extreme (Or.inl hname) haggType
      exact extreme_plus_iff hvalid hextreme
  | max =>
      obtain ⟨greater, hextreme⟩ := aggTypeOf_extreme (Or.inr hname) haggType
      exact extreme_plus_iff hvalid hextreme
  | other name =>
      rw [hname] at haggType
      cases haggType

theorem cellsAgree_iff_represented {arg : AggArg} {r : ResolvedArg} (hvalid : arg.Valid types)
    (hnumber : (a.name = .sum ∨ a.name = .avg) → isNumberOid (arg.typeOid types) = true)
    (hresolve : resolveArg types arg = some r) :
    CellsAgree collations types a arg
        ⟨aggType, r.col, r.typeOid, r.exprKind, r.constOffset, .none⟩ ↔
      a.RepresentedArg collations types arg := by
  cases arg with
  | var col =>
      cases hresolve
      exact column_iff_represented haggType (Or.inl rfl) hnumber
  | relabel col =>
      cases hresolve
      exact column_iff_represented haggType (Or.inr rfl) hnumber
  | length col =>
      cases hresolve
      exact length_iff_represented haggType hvalid
  | plus col c =>
      have hr : r = ⟨col, types col, .addConst, c.value⟩ := by
        simp only [resolveArg] at hresolve
        grind
      rw [hr]
      exact plus_iff_represented haggType hvalid hnumber
  | other => cases hresolve

end anyAggregate

theorem resolveArg_col {arg : AggArg} {r : ResolvedArg} (hresolve : resolveArg types arg = some r) :
    r.col = arg.col := by
  cases arg <;> simp only [resolveArg] at hresolve <;> grind [AggArg.col]

/-- The aggregates of all columns a spec is recorded for. -/
theorem classify_cases {spec : AggExecSpec} (h : classify types a = some spec) :
    a.star = true ∧ spec.aggType = .countStar ∨
      a.star = false ∧ ∃ arg r aggType, a.args = [arg] ∧ resolveArg types arg = some r ∧
        aggTypeOf a.name a.distinct = some aggType ∧
        spec = ⟨aggType, r.col, r.typeOid, r.exprKind, r.constOffset, .none⟩ := by
  unfold classify at h
  split at h
  · cases h
  · split at h
    · rename_i hstar
      cases h
      exact Or.inl ⟨hstar, rfl⟩
    · rename_i hstar
      split at h
      · rename_i arg hargs
        split at h
        · rename_i r aggType hresolve haggType
          cases h
          exact Or.inr ⟨by simpa using hstar, arg, r, aggType, hargs, hresolve, haggType, rfl⟩
        · cases h
      · cases h

/-- The spec computes the aggregate over the rows of any group. -/
def Denotes (collations : ℕ → Collation) (types : ℕ → TypeOid) (spec : AggExecSpec)
    (a : Aggref) : Prop :=
  ∀ rows : List (Row types), specValue collations spec rows = a.value collations rows

theorem aggTypeOf_ne_countStar {name : AggName} {distinct : Bool} {aggType : AggType}
    (h : aggTypeOf name distinct = some aggType) : aggType ≠ .countStar := by
  cases name <;> cases distinct <;> cases h <;> decide

theorem denotes_iff_represented {spec : AggExecSpec} (hvalid : a.Valid types)
    (hclassify : classify types a = some spec) :
    Denotes collations types spec a ↔ a.Represented collations types := by
  rcases classify_cases hclassify with ⟨hstar, htype⟩ |
    ⟨hstar, arg, r, aggType, hargs, hresolve, haggType, rfl⟩
  · have hdenotes : Denotes collations types spec a := by
      intro rows
      simp only [specValue, htype, Aggref.value, hstar, if_true]
    exact iff_of_true hdenotes (Or.inl hstar)
  · obtain ⟨hargValid, hnumber⟩ := hvalid.2 arg (by simp [hargs])
    have hrepresented : a.Represented collations types ↔
        a.RepresentedArg collations types arg := by
      simp [Aggref.Represented, hstar, hargs]
    rw [hrepresented, ← cellsAgree_iff_represented haggType hargValid hnumber hresolve]
    have hspec : ∀ rows : List (Row types),
        specValue collations ⟨aggType, r.col, r.typeOid, r.exprKind, r.constOffset, .none⟩ rows =
          AggExecSpec.cellsValue collations
            ⟨aggType, r.col, r.typeOid, r.exprKind, r.constOffset, .none⟩
            (columnCells rows arg.col) := by
      intro rows
      have hne := aggTypeOf_ne_countStar haggType
      rw [← resolveArg_col hresolve]
      cases aggType <;> simp_all [specValue]
    have hvalue : ∀ rows : List (Row types), a.value collations rows =
        a.cellsValue collations types arg (columnCells rows arg.col) := by
      intro rows
      simp only [Aggref.value, hstar, hargs, Bool.false_eq_true, if_false]
    unfold Denotes CellsAgree
    constructor
    · intro h cells htyped
      obtain ⟨rows, rfl⟩ := exists_columnCells htyped
      rw [← hspec, ← hvalue]
      exact h rows
    · intro h rows
      rw [hspec, hvalue]
      exact h _ (typed_columnCells rows arg.col)

end aggregate

end DeltaX.Agg
