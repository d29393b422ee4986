import DeltaX.Agg.MetadataFastPath
import Mathlib.Algebra.BigOperators.Group.List.Basic
/-!
# Rows behind the metadata

The aggregates of the rows, to which the metadata path is compared: the integers a segment holds
are summed, counted and compared one by one, and the floats are put in PostgreSQL's order, where
NaN comes last.  For one segment the stored counts, sums and bounds are those of its rows.
-/

namespace DeltaX.Agg.MetadataFastPath

open Column Stats.Encoding Stats.Colstats Scan Scan.MinMax Scan.IntClassify Scan.FloatPruning
open Support.KeySpan Support.IeeeOrder Support.Extremes

variable {types : Text → NumType}

/-! ## The aggregates of the rows -/

/-- A qual on an integer; the constants are taken whole. -/
def holds (bq : BatchQual) (v : ℤ) : Bool :=
  match bq.op.comparison with
  | some cmp => decide (cmp.Holds v bq.constDatum.toInt)
  | none => (bq.inListI64.getD []).any fun c => decide (v = c.toInt)

/-- Row `i` satisfies a qual; NULL satisfies none. -/
def Segment.satisfies (seg : Segment types) (info : MetadataInfo) (bq : BatchQual) (i : ℕ) : Bool :=
  (((types (info.colName bq.colIdx)).ints (seg.cells (info.colName bq.colIdx)))[i]?).join.any
    (holds bq)

def Segment.qualifying (seg : Segment types) (info : MetadataInfo) (quals : List BatchQual) :
    List ℕ :=
  (List.range seg.rows).filter fun i => quals.all fun bq => seg.satisfies info bq i

/-- The values of the given rows, without NULLs. -/
def valuesAt {α : Type*} (cells : List (Option α)) (rows : List ℕ) : List α :=
  rows.filterMap fun i => (cells[i]?).join

/-- The integers of a column in the qualifying rows. -/
def Segment.intValues (seg : Segment types) (info : MetadataInfo) (quals : List BatchQual)
    (name : Text) : List ℤ :=
  valuesAt ((types name).ints (seg.cells name)) (seg.qualifying info quals)

/-- The floats of a column in the qualifying rows, by their place in the order. -/
def Segment.rankValues (seg : Segment types) (info : MetadataInfo) (quals : List BatchQual)
    (name : Text) : List (WithTop ℤ) :=
  valuesAt ((types name).ranks (seg.cells name)) (seg.qualifying info quals)

/-- What is compared of a result: a float is known by its place in the order. -/
abbrev Answer : Type := SqlValue ⊕ WithTop ℤ

def observe : AggResult → Answer
  | .value v => .inl v
  | .float t bits => .inr (rank t.column.format bits)

def rowResult (info : MetadataInfo) (quals : List BatchQual) (segments : List (Segment types))
    (spec : AggExecSpec) : Option Answer :=
  match spec.aggType with
  | .countStar =>
      some (.inl (.word (segments.map fun seg => ((seg.qualifying info quals).length : ℤ)).sum))
  | .count => some (.inl (.word values.length))
  | .sum =>
      if values = [] then none
      else if spec.colTypeOid = .int8 then
        some (.inl (.numeric (((values.map fun v => v + addConst spec).sum : ℤ) : ℚ)))
      else some (.inl (.word (values.map fun v => v + addConst spec).sum))
  | .avg =>
      if values = [] then none
      else some (.inl (.numeric (((values.map fun v => v + addConst spec).sum : ℤ) / values.length)))
  | .min => extremeResult false
  | .max => extremeResult true
  | .countDistinct => none
where
  name : Text := info.colName spec.colIdx
  values : List ℤ := segments.flatMap fun seg => seg.intValues info quals name
  extremeResult (greater : Bool) : Option Answer :=
    match types name with
    | .int _ => (extreme greater values).map fun m => .inl (.word (spec.outputTransform.apply m))
    | .float _ =>
        (extreme greater (segments.flatMap fun seg => seg.rankValues info quals name)).map .inr

/-! ## One column -/

theorem join_getElem?_map {α β : Type*} (f : α → β) (cells : List (Option α)) (i : ℕ) :
    ((cells.map (Option.map f))[i]?).join = (cells[i]?).join.map f := by
  rw [List.getElem?_map]
  cases cells[i]? <;> rfl

theorem valuesAt_map {α β : Type*} (f : α → β) (cells : List (Option α)) (rows : List ℕ) :
    valuesAt (cells.map (Option.map f)) rows = (valuesAt cells rows).map f := by
  unfold valuesAt
  rw [List.map_filterMap]
  apply List.filterMap_congr
  intro i _
  exact join_getElem?_map f cells i

theorem valuesAt_range {α : Type*} (cells : List (Option α)) :
    valuesAt cells (List.range cells.length) = cells.reduceOption := by
  unfold valuesAt
  induction cells using List.reverseRecOn with
  | nil => rfl
  | append_singleton cells cell ih =>
      rw [List.length_append, List.length_singleton, List.range_succ, List.filterMap_append,
        List.reduceOption_append]
      congr 1
      · rw [← ih]
        apply List.filterMap_congr
        intro i hi
        rw [List.getElem?_append_left (List.mem_range.mp hi)]
      · rw [List.filterMap_cons, List.getElem?_concat_length]
        cases cell <;> rfl

namespace NumType

variable {t : NumType} {u : IntType}

theorem typedSum_int (h : t = .int u) (cells : t.Cells) :
    typedSum (t.typed cells) =
      if (t.ints cells).reduceOption = [] then none else some (t.ints cells).reduceOption.sum := by
  subst h
  have hsum : ∀ values : List ℤ, typedSum.sumIntColumn values =
      if values = [] then none else some values.sum := by
    intro values
    unfold typedSum.sumIntColumn
    rw [List.sum_eq_foldl]
    cases values <;> simp
  have hcells : typedSum ((NumType.int u).typed cells) =
      typedSum.sumIntColumn (cells.reduceOption.map BitVec.toInt) := by
    cases u <;> rfl
  rw [hcells, hsum, ints, List.reduceOption_map]

theorem computeTypedSum_int (h : t = .int u) (cells : t.Cells) :
    computeTypedSum (t.typed cells) =
      (((t.ints cells).reduceOption.length : ℤ),
        (((t.ints cells).reduceOption.filter fun v => decide (v ≠ 0)).length : ℤ)) := by
  subst h
  show computeTypedSum (IntColumn.mk u cells).typed = _
  rw [IntColumn.computeTypedSum_typed, countValues_eq, ints, List.reduceOption_map]
  rw [List.length_map, List.filter_map, List.length_map]
  congr 3
  apply List.filter_congr
  intro v _
  rw [Function.comp_apply, decide_eq_decide, ne_eq, ne_eq, ← BitVec.toInt_inj]
  simp

/-- The bound MIN or MAX reads is the extreme of the column. -/
theorem bound_stored_int (h : t = .int u) (cells : t.Cells) (greater : Bool) :
    bound greater (t.stored cells) = extreme greater (t.ints cells).reduceOption := by
  subst h
  have hsummary := (IntColumn.mk u cells).summary_stored
  rw [ints, List.reduceOption_map]
  show bound greater (IntColumn.mk u cells).stored = extreme greater (cells.reduceOption.map BitVec.toInt)
  unfold IntColumn.stored
  generalize computeMinmaxEncodedI64 (IntColumn.mk u cells).typed u.dataType = bounds at *
  generalize cells.reduceOption.map BitVec.toInt = values at *
  cases hsummary with
  | empty hempty =>
      subst hempty
      cases greater <;> rfl
  | @span lo hi hspan =>
      apply Eq.symm
      cases greater
      · exact (extreme_eq_some_iff false values lo).mpr ⟨hspan.lo_mem, hspan.lo_le⟩
      · exact (extreme_eq_some_iff true values hi).mpr ⟨hspan.hi_mem, hspan.le_hi⟩

end NumType

theorem decodeFloatKey_encode {w : ℕ} (bits : BitVec (w + 1)) :
    FloatType.decode.decodeFloatKey w (encodeFloatKey bits) = bits := by
  unfold FloatType.decode.decodeFloatKey encodeFloatKey
  have hkey : ∀ k : BitVec (w + 1), (k ^^^ (1#(w + 1) <<< w)) ^^^ (1#(w + 1) <<< w) = k := by
    intro k
    rw [BitVec.xor_assoc, BitVec.xor_self, BitVec.xor_zero]
  dsimp only
  rw [BitVec.ofInt_toInt, hkey]
  cases hsign : bits.msb with
  | false =>
      have hand := (and_sign_eq_zero_iff bits).mpr hsign
      have hmsb : (bits ^^^ (1#(w + 1) <<< w)) &&& (1#(w + 1) <<< w) ≠ 0#(w + 1) := by
        rw [ne_eq, and_sign_eq_zero_iff, BitVec.msb_xor, msb_sign, hsign]
        decide
      rw [if_neg (not_not.mpr hand), if_pos hmsb, hkey]
  | true =>
      have hand : bits &&& (1#(w + 1) <<< w) ≠ 0#(w + 1) := by
        rw [ne_eq, and_sign_eq_zero_iff, hsign]
        decide
      have hmsb : (~~~bits) &&& (1#(w + 1) <<< w) = 0#(w + 1) := by
        rw [and_sign_eq_zero_iff, BitVec.msb_not, hsign]
        simp
      rw [if_pos hand, if_neg (not_not.mpr hmsb), BitVec.not_not]

theorem FloatType.decode_encode (u : FloatType) (v : u.Value) : u.decode (u.column.encode v) = v := by
  cases u
  · exact decodeFloatKey_encode (w := 31) v
  · exact decodeFloatKey_encode (w := 63) v

theorem isNan_iff_rank {f : Format} (v : Pattern f) : isNan f v = true ↔ rank f v = ⊤ := by
  cases h : isNan f v with
  | true => simp [rank_of_isNan h]
  | false =>
      rw [rank_of_not_isNan h]
      simp

theorem rank_le_of_totalKey_le {f : Format} {v c : Pattern f} (hv : isNan f v = false)
    (hc : isNan f c = false) (h : totalKey v ≤ totalKey c) : rank f v ≤ rank f c := by
  rw [rank_of_not_isNan hv, rank_of_not_isNan hc, WithTop.coe_le_coe]
  by_contra hlt
  exact absurd (totalKey_lt_of_signedScaled_lt (not_le.mp hlt)) (not_lt.mpr h)

/-- The bound that is read of a float column: the key of a value.  If it is a number, no number
of the column is further out. -/
theorem NumType.bound_stored_float {t : NumType} {u : FloatType} (h : t = .float u)
    (cells : t.Cells) (greater : Bool) :
    (bound greater (t.stored cells) = none ↔ (t.ranks cells).reduceOption = []) ∧
      ∀ e, bound greater (t.stored cells) = some e →
        rank u.column.format (u.decode e) ∈ (t.ranks cells).reduceOption ∧
          (isNan u.column.format (u.decode e) = false →
            ∀ r ∈ (t.ranks cells).reduceOption, r ≠ ⊤ →
              Bounds greater (rank u.column.format (u.decode e)) r) := by
  subst h
  have hsummary := summary_minmaxEncodedVia cells u.column.encode
  rw [ranks, List.reduceOption_map]
  -- A value whose key is the bound.
  have hspan : ∀ v : u.Value, v ∈ cells.reduceOption →
      (∀ w ∈ cells.reduceOption, Bounds greater (u.column.encode v) (u.column.encode w)) →
      rank u.column.format v ∈ cells.reduceOption.map (rank u.column.format) ∧
        (isNan u.column.format v = false →
          ∀ r ∈ cells.reduceOption.map (rank u.column.format), r ≠ ⊤ →
            Bounds greater (rank u.column.format v) r) := by
    intro v hv hbounds
    refine ⟨List.mem_map_of_mem hv, ?_⟩
    intro hnan r hr htop
    obtain ⟨w, hw, rfl⟩ := List.mem_map.mp hr
    have hwnan : isNan u.column.format w = false := by
      rw [← Bool.not_eq_true, isNan_iff_rank]
      exact htop
    have hkeys := hbounds w hw
    simp only [u.column.encode_eq] at hkeys
    cases greater
    · exact rank_le_of_totalKey_le hnan hwnan hkeys
    · exact rank_le_of_totalKey_le hwnan hnan hkeys
  show (bound greater (u.column.stored cells) = none ↔ _) ∧ ∀ e, bound greater (u.column.stored cells) = some e → _
  unfold FloatColumn.stored
  generalize minmaxEncodedVia cells u.column.encode = bounds at *
  cases hsummary with
  | empty hempty =>
      rw [List.map_eq_nil_iff.mp hempty]
      cases greater <;> simp [bound, ColMinMax.ofStored]
  | @span lo hi hkeys =>
      obtain ⟨vlo, hvlo, rfl⟩ := List.mem_map.mp hkeys.lo_mem
      obtain ⟨vhi, hvhi, rfl⟩ := List.mem_map.mp hkeys.hi_mem
      have hnonempty : cells.reduceOption.map (rank u.column.format) ≠ [] :=
        List.ne_nil_of_mem (List.mem_map_of_mem hvlo)
      constructor
      · cases greater <;> simpa [bound, ColMinMax.ofStored] using hnonempty
      · intro e he
        cases greater
        · have hkey : e = u.column.encode vlo := (Option.some.inj he).symm
          rw [hkey, u.decode_encode]
          exact hspan vlo hvlo fun w hw => hkeys.lo_le _ (List.mem_map_of_mem hw)
        · have hkey : e = u.column.encode vhi := (Option.some.inj he).symm
          rw [hkey, u.decode_encode]
          exact hspan vhi hvhi fun w hw => hkeys.le_hi _ (List.mem_map_of_mem hw)

/-! ## Quals -/

/-- A qual on an integer column that is stored in the segments. -/
structure QualOver (types : Text → NumType) (info : MetadataInfo) (bq : BatchQual) (u : IntType) :
    Prop where
  inRange : bq.colIdx < info.colNames.length
  notSegmentBy : info.colName bq.colIdx ∉ info.segmentBy
  type_eq : types (info.colName bq.colIdx) = .int u
  typeOid_eq : bq.typeOid = u.typeOid
  listed : bq.op.comparison = none → bq.op = .inList ∧ bq.inListI64.isSome = true

/-- A constant that is a value of the type, sign-extended. -/
def Fits (u : IntType) (d : Datum) : Prop := (d.setWidth u.width).toInt = d.toInt

def QualFits (u : IntType) (bq : BatchQual) : Prop :=
  match bq.op.comparison with
  | some _ => Fits u bq.constDatum
  | none => ∀ cs, bq.inListI64 = some cs → ∀ c ∈ cs, Fits u c

theorem NumType.of_intColumn {t : NumType} {cells : t.Cells} {col : IntColumn}
    (h : t.intColumn cells = some col) :
    t = .int col.type ∧ t.ints cells = col.values.map (Option.map BitVec.toInt) ∧
      col.values.length = cells.length ∧ t.stored cells = col.stored ∧
      t.typed cells = col.typed := by
  cases t with
  | int u =>
      cases h
      exact ⟨rfl, rfl, rfl, rfl, rfl⟩
  | float u => cases h

theorem NumType.exists_intColumn {t : NumType} {u : IntType} (h : t = .int u) (cells : t.Cells) :
    ∃ col, t.intColumn cells = some col := by
  subst h
  exact ⟨_, rfl⟩

def Segment.toInts (seg : Segment types) : IntSegment where
  rowCount := seg.rows
  columns := fun name => (types name).intColumn (seg.cells name)
  length_eq := by
    intro name col hcol
    obtain ⟨-, -, hlength, -⟩ := NumType.of_intColumn hcol
    rw [hlength, seg.cells_length]

theorem Segment.loaded (seg : Segment types) : Loaded seg.toInts seg.toSegmentData where
  rowCount_eq := seg.rowCount_eq
  minmax_eq := by
    intro name col cm hcol hcm
    obtain ⟨-, -, -, hstored, -⟩ := NumType.of_intColumn hcol
    rw [seg.minmax_eq name cm hcm, hstored]
    rfl
  sums_eq := by
    intro name col cs hcol hcs
    obtain ⟨-, -, -, -, htyped⟩ := NumType.of_intColumn hcol
    rw [seg.sums_eq name cs hcs, htyped]

section quals

variable {info : MetadataInfo} {bq : BatchQual} {u : IntType}

theorem QualOver.getElem? (h : QualOver types info bq u) :
    info.colNames[bq.colIdx]? = some (info.colName bq.colIdx) := by
  unfold MetadataInfo.colName
  rw [Int.toNat_natCast, List.getElem?_eq_getElem h.inRange, Option.getD_some]

theorem matches_iff_holds (hlisted : bq.op.comparison = none →
    bq.op = .inList ∧ bq.inListI64.isSome = true) {w : ℕ} (v : BitVec w) :
    Matches bq v ↔ holds bq v.toInt = true := by
  unfold Matches holds
  cases hop : bq.op.comparison with
  | some cmp =>
      rw [satisfies_comparison id hop]
      exact decide_eq_true_iff.symm
  | none =>
      obtain ⟨hin, hsome⟩ := hlisted hop
      obtain ⟨cs, hcs⟩ := Option.isSome_iff_exists.mp hsome
      rw [hin, hcs, Option.getD_some, List.any_eq_true]
      simp [Satisfies, @eq_comm ℤ v.toInt]

theorem rowMatches_iff (h : QualOver types info bq u) (seg : Segment types) (i : ℕ) :
    RowMatches seg.toInts info.colNames bq i ↔ seg.satisfies info bq i = true := by
  obtain ⟨col, hcol⟩ := NumType.exists_intColumn h.type_eq (seg.cells (info.colName bq.colIdx))
  obtain ⟨-, hints, -⟩ := NumType.of_intColumn hcol
  unfold Segment.satisfies
  rw [hints, join_getElem?_map, Option.any_map]
  have hhas : HasColumn seg.toInts info.colNames bq (info.colName bq.colIdx) col :=
    ⟨h.getElem?, hcol⟩
  constructor
  · rintro ⟨name, col', hcol', v, hv, hmatch⟩
    obtain ⟨rfl, rfl⟩ := hhas.unique hcol'
    rw [hv]
    exact (matches_iff_holds h.listed v).mp hmatch
  · intro hany
    cases hcell : col.values[i]? with
    | none => simp [hcell] at hany
    | some cell =>
        cases cell with
        | none => simp [hcell] at hany
        | some v =>
            refine ⟨_, col, hhas, v, hcell, (matches_iff_holds h.listed v).mpr ?_⟩
            simpa [hcell] using hany

theorem setWidth_signExtend (u : IntType) (v : BitVec u.width) :
    (v.signExtend 64).setWidth u.width = v := by
  have hle : u.width ≤ 64 := by cases u <;> decide
  apply BitVec.eq_of_getLsbD_eq
  intro i hi
  rw [BitVec.getLsbD_setWidth, BitVec.getLsbD_signExtend]
  have hlt : i < 64 := by omega
  simp [hi, hlt]

theorem toInt_signExtend (u : IntType) (v : BitVec u.width) : (v.signExtend 64).toInt = v.toInt := by
  have hle : u.width ≤ 64 := by cases u <;> decide
  exact BitVec.toInt_signExtend_of_le hle

theorem applyBatchFilter_int (cmp : Comparison) {c : Datum} (hfits : Fits u c) (v : BitVec u.width) :
    applyBatchFilter u.typeOid cmp c (v.signExtend 64) = decide (cmp.Holds v.toInt c.toInt) := by
  have hv := setWidth_signExtend u v
  unfold Fits at hfits
  rw [← hfits]
  cases u with
  | int2 =>
      show decide (cmp.Holds ((v.signExtend 64).setWidth 16).toInt (c.setWidth 16).toInt) = _
      rw [show (v.signExtend 64).setWidth 16 = v from hv]
      rfl
  | int4 =>
      show decide (cmp.Holds ((v.signExtend 64).setWidth 32).toInt (c.setWidth 32).toInt) = _
      rw [show (v.signExtend 64).setWidth 32 = v from hv]
      rfl
  | int8 =>
      show decide (cmp.Holds (v.signExtend 64).toInt c.toInt) = _
      rw [toInt_signExtend .int8 v, ← hfits]

theorem applyBatchFilterInList_int {cs : List Datum} (hfits : ∀ c ∈ cs, Fits u c)
    (v : BitVec u.width) :
    applyBatchFilterInList cs u.typeOid (v.signExtend 64) =
      cs.any fun c => decide (v.toInt = c.toInt) := by
  have hv := setWidth_signExtend u v
  have hmem : v ∈ (cs.map fun c => c.setWidth u.width) ↔ ∃ c ∈ cs, v.toInt = c.toInt := by
    rw [List.mem_map]
    apply exists_congr
    intro c
    apply and_congr_right
    intro hc
    rw [← hfits c hc, BitVec.toInt_inj]
    exact eq_comm
  rw [Bool.eq_iff_iff, List.any_eq_true]
  simp only [decide_eq_true_eq]
  cases u with
  | int2 =>
      show decide ((v.signExtend 64).setWidth 16 ∈ cs.map fun c => c.setWidth 16) = true ↔ _
      rw [← hmem, decide_eq_true_iff, show (v.signExtend 64).setWidth 16 = v from hv]
      rfl
  | int4 =>
      show decide ((v.signExtend 64).setWidth 32 ∈ cs.map fun c => c.setWidth 32) = true ↔ _
      rw [← hmem, decide_eq_true_iff, show (v.signExtend 64).setWidth 32 = v from hv]
      rfl
  | int8 =>
      show decide (v.signExtend 64 ∈ cs) = true ↔ _
      rw [decide_eq_true_iff]
      constructor
      · intro hc
        exact ⟨_, hc, (toInt_signExtend .int8 v).symm⟩
      · rintro ⟨c, hc, heq⟩
        have hdatum : v.signExtend 64 = c :=
          BitVec.eq_of_toInt_eq ((toInt_signExtend .int8 v).trans heq)
        rw [hdatum]
        exact hc

/-- The filters of a qual whose constants fit keep the values it holds of. -/
theorem keepsCell_int (htype : bq.typeOid = u.typeOid) (hlisted : bq.op.comparison = none →
    bq.op = .inList ∧ bq.inListI64.isSome = true) (hfits : QualFits u bq)
    (cell : Option (BitVec u.width)) :
    keepsCell bq (cell.map (BitVec.signExtend 64)) = (cell.map BitVec.toInt).any (holds bq) := by
  unfold keepsCell holds
  unfold QualFits at hfits
  rw [htype]
  cases hop : bq.op.comparison with
  | some cmp =>
      rw [hop] at hfits
      cases cell with
      | none => rfl
      | some v => exact applyBatchFilter_int cmp hfits v
  | none =>
      rw [hop] at hfits
      obtain ⟨-, hsome⟩ := hlisted hop
      obtain ⟨cs, hcs⟩ := Option.isSome_iff_exists.mp hsome
      rw [hcs]
      cases cell with
      | none => rfl
      | some v => exact applyBatchFilterInList_int (hfits cs hcs) v

end quals

/-! ## One segment -/

def QualsOver (types : Text → NumType) (info : MetadataInfo) (quals : List BatchQual) : Prop :=
  ∀ bq ∈ quals, ∃ u, QualOver types info bq u

def Segment.TimeNotNull (seg : Segment types) (info : MetadataInfo) : Prop :=
  ∀ cell ∈ seg.cells info.timeColumn, cell.isSome = true

section segment

variable {info : MetadataInfo} {quals : List BatchQual} {seg : Segment types}

theorem overIntColumns (hover : QualsOver types info quals) :
    OverIntColumns seg.toInts info.colNames quals := by
  intro bq hbq name hname
  obtain ⟨u, hqual⟩ := hover bq hbq
  have hcol : info.colName bq.colIdx = name :=
    Option.some.inj (hqual.getElem?.symm.trans hname)
  subst hcol
  obtain ⟨col, hcol⟩ := NumType.exists_intColumn hqual.type_eq (seg.cells (info.colName bq.colIdx))
  have htype := (NumType.of_intColumn hcol).1
  rw [hqual.type_eq, NumType.int.injEq] at htype
  exact ⟨col, hcol, by rw [hqual.typeOid_eq, htype]⟩

theorem decompressed_of_stored {name : Text} (h : name ∉ info.segmentBy) :
    seg.decompressed info name = some ((types name).datums (seg.cells name)) := by
  rw [Segment.decompressed, if_neg h]

theorem NumType.datums_int {t : NumType} {u : IntType} (h : t = .int u) (cells : t.Cells) :
    ∃ values : List (Option (BitVec u.width)),
      t.datums cells = values.map (Option.map (BitVec.signExtend 64)) ∧
        t.ints cells = values.map (Option.map BitVec.toInt) ∧ values.length = cells.length := by
  subst h
  exact ⟨cells, rfl, rfl, rfl⟩

/-- With constants that fit, the filters select the qualifying rows. -/
theorem selection_eq (hover : QualsOver types info quals)
    (hfits : ∀ bq ∈ quals, ∀ u, types (info.colName bq.colIdx) = .int u → QualFits u bq) :
    seg.selection info quals = seg.qualifying info quals := by
  unfold Segment.selection Segment.qualifying
  apply List.filter_congr
  intro i hi
  unfold Segment.selects
  rw [Bool.eq_iff_iff, List.all_eq_true, List.all_eq_true]
  apply forall₂_congr
  intro bq hbq
  obtain ⟨u, hqual⟩ := hover bq hbq
  rw [decompressed_of_stored hqual.notSegmentBy]
  obtain ⟨values, hdatums, hints, hlength⟩ :=
    NumType.datums_int hqual.type_eq (seg.cells (info.colName bq.colIdx))
  have hnonempty : (values.map (Option.map (BitVec.signExtend 64))).isEmpty = false := by
    rw [List.isEmpty_eq_false_iff, ← List.length_pos_iff, List.length_map, hlength, seg.cells_length]
    exact Nat.zero_lt_of_lt (List.mem_range.mp hi)
  dsimp only
  rw [hdatums, hnonempty, if_neg Bool.false_ne_true, join_getElem?_map,
    keepsCell_int hqual.typeOid_eq hqual.listed (hfits bq hbq u hqual.type_eq), Segment.satisfies,
    hints, join_getElem?_map]

theorem satisfies_all_iff (hover : QualsOver types info quals) (i : ℕ) :
    (quals.all fun bq => seg.satisfies info bq i) = true ↔
      ∀ bq ∈ quals, RowMatches seg.toInts info.colNames bq i := by
  rw [List.all_eq_true]
  apply forall₂_congr
  intro bq hbq
  obtain ⟨u, hqual⟩ := hover bq hbq
  exact (rowMatches_iff hqual seg i).symm

theorem qualifying_of_allPass (hover : QualsOver types info quals) (htime : seg.TimeNotNull info)
    (hclass : classifySegmentQuals seg.toSegmentData quals info.colNames info.timeColumn =
      some .allPass) :
    seg.qualifying info quals = List.range seg.rows := by
  have hvalues : ∀ col, seg.toInts.columns info.timeColumn = some col →
      ∀ v ∈ col.values, v.isSome = true := by
    intro col hcol v hv
    have hnotNull := htime
    unfold Segment.TimeNotNull at hnotNull
    have hcells : (types info.timeColumn).intColumn (seg.cells info.timeColumn) = some col := hcol
    generalize seg.cells info.timeColumn = cells at hcells hnotNull
    generalize types info.timeColumn = t at cells
    cases t with
    | int u =>
        cases hcells
        exact hnotNull v hv
    | float u => cases hcells
  apply List.filter_eq_self.mpr
  intro i hi
  rw [satisfies_all_iff hover]
  intro bq hbq
  exact rowMatches_of_allPass seg.loaded (overIntColumns hover) hvalues hclass
    (List.mem_range.mp hi) hbq

theorem qualifying_of_nonePass (hover : QualsOver types info quals)
    (hclass : classifySegmentQuals seg.toSegmentData quals info.colNames info.timeColumn =
      some .nonePass) :
    seg.qualifying info quals = [] := by
  apply List.filter_eq_nil_iff.mpr
  intro i _
  rw [satisfies_all_iff hover]
  exact not_rowMatches_of_nonePass seg.loaded (overIntColumns hover) hclass i

theorem qualifying_of_rowCount_zero (h : seg.rowCount = 0) : seg.qualifying info quals = [] := by
  have hrows : seg.rows = 0 := by
    have hcount := seg.rowCount_eq
    omega
  rw [Segment.qualifying, hrows]
  rfl

theorem qualifying_nil : seg.qualifying info [] = List.range seg.rows := by
  apply List.filter_eq_self.mpr
  intro i _
  rfl

theorem valuesAt_all {α : Type*} {cells : List (Option α)}
    (hlength : cells.length = seg.rows) (hall : seg.qualifying info quals = List.range seg.rows) :
    valuesAt cells (seg.qualifying info quals) = cells.reduceOption := by
  rw [hall, ← hlength, valuesAt_range]

end segment

/-! ## What a segment adds -/

/-- What the qualifying rows of a segment add to a count or a sum. -/
def addition (info : MetadataInfo) (quals : List BatchQual) (spec : AggExecSpec)
    (seg : Segment types) : (k : AccKind) → Acc k
  | .count =>
      match spec.aggType with
      | .countStar => ((seg.qualifying info quals).length : ℤ)
      | .count => ((seg.intValues info quals (info.colName spec.colIdx)).length : ℤ)
      | _ => (0 : ℤ)
  | .sumInt =>
      ((((seg.intValues info quals (info.colName spec.colIdx)).map fun v => v + addConst spec).sum,
        ((seg.intValues info quals (info.colName spec.colIdx)).length : ℤ)) : ℤ × ℤ)
  | .extremeInt _ => (none : Option ℤ)
  | .extremeFloat _ _ => none

/-- An aggregate over a stored column of the type it was planned for; COUNT, SUM and AVG are over
integers. -/
structure SpecOver (types : Text → NumType) (info : MetadataInfo) (spec : AggExecSpec) : Prop where
  notSegmentBy : info.colName spec.colIdx ∉ info.segmentBy
  typeOid_eq : spec.colTypeOid = (types (info.colName spec.colIdx)).typeOid
  transform : ∀ u, types (info.colName spec.colIdx) = .float u → spec.outputTransform = .none
  counted : spec.aggType = .count → ∃ u, types (info.colName spec.colIdx) = .int u

section additions

variable {info : MetadataInfo} {quals : List BatchQual} {seg : Segment types} {spec : AggExecSpec}

theorem sum_add_const (c : ℤ) (values : List ℤ) :
    (values.map fun v => v + c).sum = values.sum + c * values.length := by
  induction values with
  | nil => simp
  | cons v values ih =>
      rw [List.map_cons, List.sum_cons, List.sum_cons, List.length_cons, ih]
      push_cast
      ring

theorem NumType.int_of_sumInt {t : NumType} (hoid : spec.colTypeOid = t.typeOid)
    (h : newFor spec.aggType spec.colTypeOid = some .sumInt) :
    (spec.aggType = .sum ∨ spec.aggType = .avg) ∧ ∃ u, t = .int u := by
  rw [hoid] at h
  cases t with
  | int u =>
      refine ⟨?_, u, rfl⟩
      cases hagg : spec.aggType <;> cases u <;> simp_all [newFor, newFor.extremeKind, typeOid, IntType.typeOid]
  | float u =>
      cases hagg : spec.aggType <;> cases u <;>
        simp_all [newFor, newFor.extremeKind, typeOid, FloatType.column, FloatPruning.float4,
          FloatPruning.float8]

theorem count_of_newFor (h : newFor spec.aggType spec.colTypeOid = some .count) :
    spec.aggType = .countStar ∨ spec.aggType = .count := by
  cases hagg : spec.aggType <;> simp_all [newFor, newFor.extremeKind] <;> split at h <;> cases h

theorem accumulateSegmentMetadata_count (hagg : spec.aggType = .countStar ∨ spec.aggType = .count)
    (hspec : spec.aggType = .count → SpecOver types info spec)
    (havail : available info spec seg.toSegmentMeta = true)
    (hall : seg.qualifying info quals = List.range seg.rows) (count : ℤ) :
    accumulateSegmentMetadata info seg.toSegmentMeta spec .count count =
      count + (addition info quals spec seg .count : ℤ) := by
  rcases hagg with hagg | hagg
  · simp only [accumulateSegmentMetadata, addition, hagg, hall, List.length_range]
    rw [seg.rowCount_eq]
  · simp only [available, hagg] at havail
    obtain ⟨cs, hcs⟩ := Option.isSome_iff_exists.mp havail
    obtain ⟨u, hu⟩ := (hspec hagg).counted hagg
    simp only [accumulateSegmentMetadata, addition, hagg, hcs]
    rw [seg.sums_eq _ cs hcs, NumType.computeTypedSum_int hu, Segment.intValues,
      valuesAt_all _ hall]
    obtain ⟨values, -, hints, hlength⟩ := NumType.datums_int hu (seg.cells _)
    rw [hints, List.length_map, hlength, seg.cells_length]

theorem ints_length {name : Text} {u : IntType} (hu : types name = .int u) :
    ((types name).ints (seg.cells name)).length = seg.rows := by
  obtain ⟨values, -, hints, hlength⟩ := NumType.datums_int hu (seg.cells name)
  rw [hints, List.length_map, hlength, seg.cells_length]

theorem accumulateSegmentMetadata_sumInt (hkind : newFor spec.aggType spec.colTypeOid = some .sumInt)
    (hspec : SpecOver types info spec) (havail : available info spec seg.toSegmentMeta = true)
    (hall : seg.qualifying info quals = List.range seg.rows) (acc : ℤ × ℤ) :
    accumulateSegmentMetadata info seg.toSegmentMeta spec .sumInt acc =
      acc + (addition info quals spec seg .sumInt : ℤ × ℤ) := by
  obtain ⟨hagg, u, hu⟩ := NumType.int_of_sumInt hspec.typeOid_eq hkind
  have hsums : (seg.colSums (info.colName spec.colIdx)).isSome = true := by
    rcases hagg with hagg | hagg <;> simpa only [available, hagg] using havail
  obtain ⟨cs, hcs⟩ := Option.isSome_iff_exists.mp hsums
  have hvalues : seg.intValues info quals (info.colName spec.colIdx) =
      ((types (info.colName spec.colIdx)).ints (seg.cells _)).reduceOption := by
    rw [Segment.intValues, valuesAt_all (ints_length hu) hall]
  have hsum := seg.sumI128_eq _ hsums
  have hcounts := seg.sums_eq _ cs hcs
  rw [NumType.typedSum_int hu, ← hvalues] at hsum
  rw [NumType.computeTypedSum_int hu, ← hvalues] at hcounts
  obtain ⟨sum, count⟩ := acc
  simp only [accumulateSegmentMetadata, addition, hcs, hsum, hcounts]
  by_cases hnil : seg.intValues info quals (info.colName spec.colIdx) = []
  · simp [hnil]
  · rw [if_neg hnil, sum_add_const]
    rfl

theorem valuesAt_cons {α : Type*} (cells : List (Option α)) (i : ℕ) (rows : List ℕ) :
    valuesAt cells (i :: rows) =
      ((cells[i]?).join.elim (valuesAt cells rows) fun v => v :: valuesAt cells rows) := by
  rw [valuesAt, List.filterMap_cons]
  cases (cells[i]?).join <;> rfl

theorem foldl_countCell (col : List (Option Datum)) (rows : List ℕ) (count : ℤ) :
    rows.foldl (fun count i => countCell count (col[i]?).join) count =
      count + (valuesAt col rows).length := by
  induction rows generalizing count with
  | nil => simp [valuesAt]
  | cons i rows ih =>
      rw [List.foldl_cons, ih, valuesAt_cons]
      cases (col[i]?).join with
      | none => rfl
      | some d =>
          simp only [countCell, Option.elim_some, List.length_cons]
          push_cast
          ring

theorem foldl_sumCell (c : ℤ) (col : List (Option Datum)) (rows : List ℕ) (acc : ℤ × ℤ) :
    rows.foldl (fun acc i => sumCell c acc (col[i]?).join) acc =
      acc + (((valuesAt col rows).map fun d => d.toInt + c).sum, ((valuesAt col rows).length : ℤ)) := by
  induction rows generalizing acc with
  | nil => simp [valuesAt]
  | cons i rows ih =>
      rw [List.foldl_cons, ih, valuesAt_cons]
      cases (col[i]?).join with
      | none => rfl
      | some d =>
          simp only [sumCell, Option.elim_some, List.map_cons, List.sum_cons, List.length_cons]
          ext
          · show acc.1 + (d.toInt + c) + _ = acc.1 + (d.toInt + c + _)
            ring
          · show acc.2 + 1 + _ = acc.2 + _
            push_cast
            ring

theorem accumulateSegmentDecompressed_count
    (hagg : spec.aggType = .countStar ∨ spec.aggType = .count)
    (hspec : spec.aggType = .count → SpecOver types info spec)
    (hselection : seg.selection info quals = seg.qualifying info quals) (count : ℤ) :
    accumulateSegmentDecompressed info seg quals spec .count count =
      count + (addition info quals spec seg .count : ℤ) := by
  rcases hagg with hagg | hagg
  · simp only [accumulateSegmentDecompressed, addition, hagg, hselection]
  · obtain ⟨u, hu⟩ := (hspec hagg).counted hagg
    obtain ⟨values, hdatums, hints, -⟩ := NumType.datums_int hu (seg.cells _)
    simp only [accumulateSegmentDecompressed, addition, hagg, hselection,
      decompressed_of_stored (hspec hagg).notSegmentBy]
    rw [foldl_countCell, Segment.intValues, hdatums, hints, valuesAt_map, valuesAt_map, List.length_map,
      List.length_map]

theorem accumulateSegmentDecompressed_sumInt
    (hkind : newFor spec.aggType spec.colTypeOid = some .sumInt) (hspec : SpecOver types info spec)
    (hselection : seg.selection info quals = seg.qualifying info quals) (acc : ℤ × ℤ) :
    accumulateSegmentDecompressed info seg quals spec .sumInt acc =
      acc + (addition info quals spec seg .sumInt : ℤ × ℤ) := by
  obtain ⟨-, u, hu⟩ := NumType.int_of_sumInt hspec.typeOid_eq hkind
  obtain ⟨values, hdatums, hints, -⟩ := NumType.datums_int hu (seg.cells _)
  simp only [accumulateSegmentDecompressed, addition, hselection,
    decompressed_of_stored hspec.notSegmentBy]
  rw [foldl_sumCell, Segment.intValues, hdatums, hints, valuesAt_map, valuesAt_map, List.length_map,
    List.length_map, List.map_map, List.map_map]
  congr 4
  ext v
  simp only [Function.comp_apply, toInt_signExtend]

end additions

end DeltaX.Agg.MetadataFastPath
