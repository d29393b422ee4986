import DeltaX.Scan.MinMax
import DeltaX.Stats.Colstats
/-!
# Classifying a segment from its metadata

`classify_segment_quals` decides from stored bounds and counts alone whether all
rows of a segment pass a conjunction of quals, or none does.  The answers are
used to count, and to delete, whole segments unread.  Here they are proved
right for integer columns with any pattern of NULLs.
-/

namespace DeltaX.Scan.IntClassify

open Column Stats.Encoding Stats.Colstats Support.KeySpan Support.IeeeOrder MinMax

/-! ## The source's classification -/

/-- Per-column counts as the scan holds them. -/
structure ColSum where
  nonnullCount : ℤ
  nonzeroCount : ℤ
deriving DecidableEq, Repr

structure SegmentData where
  rowCount : ℤ
  colMinmax : Text → Option ColMinMax
  colSums : Text → Option ColSum

inductive SegmentQualResult
  | allPass
  | nonePass
  | ambiguous
deriving DecidableEq, Repr

def isZeroConst (datum : Datum) : TypeOid → Bool
  | .int2 => datum.setWidth 16 = 0
  | .int4 => datum.setWidth 32 = 0
  | .int8 => datum = 0
  | .float4 => magnitude (datum.setWidth 32 : Pattern binary32) = 0
  | .float8 => magnitude (datum : Pattern binary64) = 0
  | _ => false

/-- What one qual does in the first loop of `classify_segment_quals`. -/
inductive QualStep
  | pass
  | markNonePass
  | giveUp (result : SegmentQualResult)
deriving DecidableEq, Repr

/-- The zero counts settle `<> 0` and `= 0` when no row is NULL. -/
def zeroShortcut (seg : SegmentData) (colName : Text) (bq : BatchQual) : Bool :=
  match seg.colSums colName with
  | none => false
  | some cs =>
      isZeroConst bq.constDatum bq.typeOid && decide (cs.nonzeroCount ≥ 0) &&
        decide (cs.nonnullCount = seg.rowCount) &&
        match bq.op with
        | .ne => decide (cs.nonzeroCount = 0)
        | .eq => decide (cs.nonzeroCount = cs.nonnullCount)
        | _ => false

def qualStep (seg : SegmentData) (colName : Text) (bq : BatchQual) : QualStep :=
  match seg.colMinmax colName with
  | none => .giveUp .ambiguous
  | some cm =>
      match segmentAllRowsPass cm bq.op bq.constDatum with
      | some true => .pass
      | some false => .giveUp .nonePass
      | none => if zeroShortcut seg colName bq then .markNonePass else .giveUp .ambiguous

/-- The first loop: a result returned early, or whether some qual passes no row. -/
def minmaxLoop (seg : SegmentData) (colNames : List Text) (anyNonepass : Bool) :
    List BatchQual → Option (SegmentQualResult ⊕ Bool)
  | [] => some (.inr anyNonepass)
  | bq :: rest => do
      let colName ← colNames[bq.colIdx]?
      match qualStep seg colName bq with
      | .pass => minmaxLoop seg colNames anyNonepass rest
      | .markNonePass => minmaxLoop seg colNames true rest
      | .giveUp result => some (.inl result)

/-- The second loop: the bounds cover only values that are not NULL. -/
def nullLoop (seg : SegmentData) (colNames : List Text) (timeColumn : Text) :
    List BatchQual → Option SegmentQualResult
  | [] => some .allPass
  | bq :: rest => do
      let colName ← colNames[bq.colIdx]?
      if colName = timeColumn then nullLoop seg colNames timeColumn rest
      else
        match seg.colSums colName with
        | none => some .ambiguous
        | some cs =>
            if cs.nonnullCount < seg.rowCount then some .ambiguous
            else nullLoop seg colNames timeColumn rest

/-- `classify_segment_quals`; `none` is the panic on a column index out of range. -/
def classifySegmentQuals (seg : SegmentData) (quals : List BatchQual) (colNames : List Text)
    (timeColumn : Text) : Option SegmentQualResult := do
  match ← minmaxLoop seg colNames false quals with
  | .inl result => some result
  | .inr true => some .nonePass
  | .inr false => nullLoop seg colNames timeColumn quals

/-! ## Integer columns of a segment -/

inductive IntType
  | int2 | int4 | int8
deriving DecidableEq, Repr

namespace IntType

def width : IntType → ℕ
  | int2 => 16
  | int4 => 32
  | int8 => 64

def typeOid : IntType → TypeOid
  | int2 => .int2
  | int4 => .int4
  | int8 => .int8

def dataType : IntType → DataType
  | int2 => .smallint
  | int4 => .integer
  | int8 => .bigint

end IntType

/-- An integer column of a segment, one entry a row. -/
structure IntColumn where
  type : IntType
  values : List (Option (BitVec type.width))

def IntColumn.typed : IntColumn → TypedColumn
  | ⟨.int2, values⟩ => .int16 values
  | ⟨.int4, values⟩ => .int32 values
  | ⟨.int8, values⟩ => .int64 values

/-- A segment: its integer columns by name, all of one length. -/
structure IntSegment where
  rowCount : ℕ
  columns : Text → Option IntColumn
  length_eq : ∀ name col, columns name = some col → col.values.length = rowCount

/-- The metadata was computed by the compressor.  What was not loaded is absent. -/
structure Loaded (s : IntSegment) (seg : SegmentData) : Prop where
  rowCount_eq : seg.rowCount = s.rowCount
  minmax_eq : ∀ name col cm, s.columns name = some col → seg.colMinmax name = some cm →
    cm = .ofStored (computeMinmaxEncodedI64 col.typed col.type.dataType) col.type.typeOid
  sums_eq : ∀ name col cs, s.columns name = some col → seg.colSums name = some cs →
    cs = ⟨(computeTypedSum col.typed).1, (computeTypedSum col.typed).2⟩

/-- A value satisfies a qual.  Integer datums are sign-extended, so the constant
is the whole datum whatever integer type it has. -/
def Matches (bq : BatchQual) {w : ℕ} (v : BitVec w) : Prop :=
  Satisfies id bq.op bq.constDatum.toInt (bq.inListI64.map (List.map BitVec.toInt)) v.toInt

def HasColumn (s : IntSegment) (colNames : List Text) (bq : BatchQual) (name : Text)
    (col : IntColumn) : Prop :=
  colNames[bq.colIdx]? = some name ∧ s.columns name = some col

/-- Row `i` satisfies a qual; NULL satisfies none. -/
def RowMatches (s : IntSegment) (colNames : List Text) (bq : BatchQual) (i : ℕ) : Prop :=
  ∃ name col, HasColumn s colNames bq name col ∧
    ∃ v, col.values[i]? = some (some v) ∧ Matches bq v

def OverIntColumns (s : IntSegment) (colNames : List Text) (quals : List BatchQual) : Prop :=
  ∀ bq ∈ quals, ∀ name, colNames[bq.colIdx]? = some name →
    ∃ col, s.columns name = some col ∧ bq.typeOid = col.type.typeOid

/-! ## One column -/

namespace IntColumn

variable (col : IntColumn)

def stored : ColMinMax :=
  .ofStored (computeMinmaxEncodedI64 col.typed col.type.dataType) col.type.typeOid

theorem computeMinmax_typed :
    computeMinmaxEncodedI64 col.typed col.type.dataType =
      minmaxEncodedVia col.values BitVec.toInt := by
  obtain ⟨type, values⟩ := col
  cases type <;> rfl

theorem computeTypedSum_typed :
    computeTypedSum col.typed = countValues (fun v => v ≠ 0) col.values := by
  obtain ⟨type, values⟩ := col
  cases type <;> rfl

theorem encodeDatum_typeOid (d : Datum) :
    encodeDatumToI64 d col.type.typeOid = some d.toInt := by
  cases col.type <;> rfl

/-- The values of the column, as integers, have the stored bounds as their span. -/
theorem summary_stored :
    Summary (col.values.reduceOption.map BitVec.toInt)
      (computeMinmaxEncodedI64 col.typed col.type.dataType) := by
  rw [computeMinmax_typed]
  exact summary_minmaxEncodedVia col.values BitVec.toInt

theorem matches_of_settled {bq : BatchQual}
    (hsettled : segmentAllRowsPass col.stored bq.op bq.constDatum = some true) :
    ∀ v ∈ col.values.reduceOption, Matches bq v := by
  intro v hv
  have hsummary := col.summary_stored
  unfold stored at hsettled
  generalize computeMinmaxEncodedI64 col.typed col.type.dataType = bounds at *
  cases hsummary with
  | empty _ =>
      rw [segmentAllRowsPass_of_null] at hsettled
      cases hsettled
  | span hspan =>
      rw [segmentAllRowsPass_of_some (col.encodeDatum_typeOid bq.constDatum)] at hsettled
      cases hop : bq.op.comparison with
      | none =>
          cases hcase : bq.op <;> simp_all [BatchCompareOp.comparison, decideBySpan]
      | some cmp =>
          unfold Matches
          rw [satisfies_comparison id hop]
          have himpossible := (decideBySpan_iff hspan _ hop).1.mp hsettled
          by_contra hfails
          exact himpossible (Comparison.possible_of_holds _ _ _
            ⟨v.toInt, List.mem_map_of_mem hv, (Comparison.holds_complement cmp _ _).mpr hfails⟩)

theorem not_matches_of_settled {bq : BatchQual}
    (hsettled : segmentAllRowsPass col.stored bq.op bq.constDatum = some false) :
    ∀ v ∈ col.values.reduceOption, ¬ Matches bq v := by
  intro v hv hmatch
  have hsummary := col.summary_stored
  unfold stored at hsettled
  generalize computeMinmaxEncodedI64 col.typed col.type.dataType = bounds at *
  cases hsummary with
  | empty _ =>
      rw [segmentAllRowsPass_of_null] at hsettled
      cases hsettled
  | span hspan =>
      rw [segmentAllRowsPass_of_some (col.encodeDatum_typeOid bq.constDatum)] at hsettled
      cases hop : bq.op.comparison with
      | none =>
          cases hcase : bq.op <;> simp_all [BatchCompareOp.comparison, decideBySpan]
      | some cmp =>
          unfold Matches at hmatch
          rw [satisfies_comparison id hop] at hmatch
          exact (decideBySpan_iff hspan _ hop).2.mp hsettled (Comparison.possible_of_holds _ _ _
            ⟨v.toInt, List.mem_map_of_mem hv, hmatch⟩)

theorem toInt_range (v : BitVec col.type.width) :
    -(2 ^ (col.type.width - 1) : ℤ) ≤ v.toInt ∧ v.toInt < 2 ^ (col.type.width - 1) := by
  exact ⟨BitVec.le_toInt v, BitVec.toInt_lt⟩

/-- A constant that the zero test accepts and that lies between two values of
the column is zero, although the test looks at the low bits only. -/
theorem constDatum_eq_zero {d : Datum} (hzero : isZeroConst d col.type.typeOid = true)
    {lo hi : BitVec col.type.width} (hlo : lo.toInt ≤ d.toInt) (hhi : d.toInt ≤ hi.toInt) :
    d.toInt = 0 := by
  have hlow := (col.toInt_range lo).1
  have hhigh := (col.toInt_range hi).2
  have htoInt := BitVec.toInt_eq_toNat_cond d
  have hlt : d.toNat < 2 ^ 64 := d.isLt
  obtain ⟨type, values⟩ := col
  cases type with
  | int2 =>
      simp only [isZeroConst, IntType.typeOid, decide_eq_true_eq, IntType.width] at *
      have hlow16 : d.toNat % 2 ^ 16 = 0 := by simpa using congrArg BitVec.toNat hzero
      split at htoInt <;> omega
  | int4 =>
      simp only [isZeroConst, IntType.typeOid, decide_eq_true_eq, IntType.width] at *
      have hlow32 : d.toNat % 2 ^ 32 = 0 := by simpa using congrArg BitVec.toNat hzero
      split at htoInt <;> omega
  | int8 =>
      simp only [isZeroConst, IntType.typeOid, decide_eq_true_eq] at hzero
      rw [hzero]
      rfl

/-- An unsettled `=` or `<>` has its constant inside the bounds. -/
theorem covered_of_unsettled {op : BatchCompareOp} (hop : op = .eq ∨ op = .ne) {lo hi c : ℤ}
    (h : decideBySpan op lo hi c = none) : lo ≤ c ∧ c ≤ hi := by
  rcases hop with rfl | rfl
  · simp only [decideBySpan] at h
    split at h
    · cases h
    · split at h
      · cases h
      · omega
  · simp only [decideBySpan] at h
    split at h
    · cases h
    · omega

theorem not_matches_of_zeroShortcut {s : IntSegment} {seg : SegmentData} (hloaded : Loaded s seg)
    {name : Text} {bq : BatchQual} (hcol : s.columns name = some col)
    (htype : bq.typeOid = col.type.typeOid)
    (hunsettled : segmentAllRowsPass col.stored bq.op bq.constDatum = none)
    (hzero : zeroShortcut seg name bq = true) :
    ∀ v ∈ col.values.reduceOption, ¬ Matches bq v := by
  intro v hv
  unfold zeroShortcut at hzero
  cases hsums : seg.colSums name with
  | none => simp [hsums] at hzero
  | some cs =>
      simp only [hsums, Bool.and_eq_true, decide_eq_true_eq] at hzero
      obtain ⟨⟨⟨hconst, _⟩, _⟩, hcount⟩ := hzero
      have hcs := hloaded.sums_eq name col cs hcol hsums
      rw [col.computeTypedSum_typed] at hcs
      subst hcs
      have hop : bq.op = .eq ∨ bq.op = .ne := by
        cases hcase : bq.op <;> simp_all
      -- the constant is inside the bounds, so it is the zero the counts are about
      have hczero : bq.constDatum.toInt = 0 := by
        have hsummary := col.summary_stored
        unfold stored at hunsettled
        generalize computeMinmaxEncodedI64 col.typed col.type.dataType = bounds at *
        cases hsummary with
        | empty hempty =>
            rw [List.map_eq_nil_iff.mp hempty] at hv
            cases hv
        | span hspan =>
            rw [segmentAllRowsPass_of_some (col.encodeDatum_typeOid bq.constDatum)] at hunsettled
            obtain ⟨hlo, hhi⟩ := covered_of_unsettled hop hunsettled
            obtain ⟨vlo, _, rfl⟩ := List.mem_map.mp hspan.lo_mem
            obtain ⟨vhi, _, rfl⟩ := List.mem_map.mp hspan.hi_mem
            exact col.constDatum_eq_zero (htype ▸ hconst) hlo hhi
      rcases hop with hop | hop
      · simp only [hop, decide_eq_true_eq] at hcount
        have hnonzero := (countValues_snd_eq_fst_iff _ _).mp hcount v hv
        simp only [decide_eq_true_eq] at hnonzero
        simp only [Matches, hop, Satisfies, Comparison.Holds, hczero, id]
        intro hv0
        exact hnonzero (BitVec.eq_of_toInt_eq (by simpa using hv0))
      · simp only [hop, decide_eq_true_eq] at hcount
        have hallzero := (countValues_snd_eq_zero_iff _ _).mp hcount v hv
        simp only [decide_eq_false_iff_not, ne_eq, not_not] at hallzero
        simp [Matches, hop, Satisfies, Comparison.Holds, hczero, hallzero]

theorem rowPassesFilter_of_matches {bq : BatchQual} (htype : bq.typeOid = col.type.typeOid)
    (hmatch : ∃ v ∈ col.values.reduceOption, Matches bq v) {ci : ℕ} {f : MinMaxFilter}
    (hf : minmaxFilterOf ci bq = some f) : rowPassesFilter f col.stored = true := by
  obtain ⟨v, hv, hmatch⟩ := hmatch
  have hencode : ∀ d, encodeDatumToI64 d bq.typeOid = some d.toInt := by
    intro d
    rw [htype, col.encodeDatum_typeOid]
  have hfilter : f.op = bq.op ∧ f.constI64 = bq.constDatum.toInt ∧
      f.inListI64 = bq.inListI64.map (List.map BitVec.toInt) := by
    have hmap : ∀ ds : List Datum, ds.mapM (fun d => encodeDatumToI64 d bq.typeOid) =
        some (ds.map BitVec.toInt) := by
      intro ds
      simp only [hencode]
      exact List.mapM_pure
    unfold minmaxFilterOf at hf
    cases hlist : bq.inListI64 <;> cases hop : bq.op <;>
      simp_all <;> (subst hf; simp)
  obtain ⟨hfop, hfconst, hflist⟩ := hfilter
  have hsummary := col.summary_stored
  unfold stored
  generalize computeMinmaxEncodedI64 col.typed col.type.dataType = bounds at *
  cases hsummary with
  | empty _ => exact rowPassesFilter_of_null f _
  | span hspan =>
      rw [rowPassesFilter_of_some]
      have hmem : v.toInt ∈ col.values.reduceOption.map BitVec.toInt := List.mem_map_of_mem hv
      cases hop : bq.op.comparison with
      | some cmp =>
          unfold Matches at hmatch
          rw [satisfies_comparison id hop] at hmatch
          rw [segmentPassesMinmaxFilter_iff hspan f (hfop ▸ hop), hfconst]
          exact Comparison.possible_of_holds _ _ _ ⟨v.toInt, hmem, hmatch⟩
      | none =>
          cases hcase : bq.op <;> rw [hcase] at hop <;> cases hop <;>
            simp only [Matches, hcase, Satisfies] at hmatch
          obtain ⟨cs, hcs, c, hc, heq⟩ := hmatch
          rw [segmentPassesMinmaxFilter_inList_iff hspan f (hfop.trans hcase) (hflist.trans hcs)]
          refine ⟨c, hc, Comparison.possible_of_holds _ _ _ ⟨v.toInt, hmem, heq⟩⟩

end IntColumn

/-! ## The loops -/

/-- Every value of the qual's column matches. -/
def AllValues (s : IntSegment) (colNames : List Text) (bq : BatchQual) : Prop :=
  ∃ name col, HasColumn s colNames bq name col ∧ ∀ v ∈ col.values.reduceOption, Matches bq v

/-- No value of the qual's column matches. -/
def NoValue (s : IntSegment) (colNames : List Text) (bq : BatchQual) : Prop :=
  ∃ name col, HasColumn s colNames bq name col ∧ ∀ v ∈ col.values.reduceOption, ¬ Matches bq v

section Loops

variable {s : IntSegment} {seg : SegmentData} {colNames : List Text}

/-- What each outcome of a step proves about the values. -/
theorem qualStep_spec (hloaded : Loaded s seg) {bq : BatchQual} {name : Text} {col : IntColumn}
    (hcol : HasColumn s colNames bq name col) (htype : bq.typeOid = col.type.typeOid) :
    match qualStep seg name bq with
    | .pass => AllValues s colNames bq
    | .markNonePass => NoValue s colNames bq
    | .giveUp .nonePass => NoValue s colNames bq
    | .giveUp .ambiguous => True
    | .giveUp .allPass => False := by
  unfold qualStep
  cases hcm : seg.colMinmax name with
  | none => trivial
  | some cm =>
      have hstored : cm = col.stored := hloaded.minmax_eq name col cm hcol.2 hcm
      subst hstored
      dsimp only
      cases hsettled : segmentAllRowsPass col.stored bq.op bq.constDatum with
      | none =>
          dsimp only
          cases hzero : zeroShortcut seg name bq with
          | false => simp
          | true =>
              simp only [if_true]
              exact ⟨name, col, hcol, col.not_matches_of_zeroShortcut hloaded hcol.2 htype
                hsettled hzero⟩
      | some settled =>
          cases settled with
          | true => exact ⟨name, col, hcol, col.matches_of_settled hsettled⟩
          | false => exact ⟨name, col, hcol, col.not_matches_of_settled hsettled⟩

/-- The first loop, by induction over the quals with the flag generalised. -/
theorem minmaxLoop_spec (hloaded : Loaded s seg) (quals : List BatchQual)
    (hover : OverIntColumns s colNames quals) (anyNonepass : Bool) :
    match minmaxLoop seg colNames anyNonepass quals with
    | none => True
    | some (.inl .allPass) => False
    | some (.inl .nonePass) => ∃ bq ∈ quals, NoValue s colNames bq
    | some (.inl .ambiguous) => True
    | some (.inr true) => anyNonepass = true ∨ ∃ bq ∈ quals, NoValue s colNames bq
    | some (.inr false) => anyNonepass = false ∧ ∀ bq ∈ quals, AllValues s colNames bq := by
  induction quals generalizing anyNonepass with
  | nil => cases anyNonepass <;> simp [minmaxLoop]
  | cons bq rest ih =>
      have ih := ih fun bq' h => hover bq' (List.mem_cons_of_mem _ h)
      simp only [minmaxLoop, Option.bind_eq_bind]
      cases hname : colNames[bq.colIdx]? with
      | none => trivial
      | some name =>
          obtain ⟨col, hcolumn, htype⟩ := hover bq List.mem_cons_self name hname
          have hstep := qualStep_spec hloaded ⟨hname, hcolumn⟩ htype
          simp only [Option.bind_some]
          cases hcase : qualStep seg name bq with
          | pass =>
              rw [hcase] at hstep
              specialize ih anyNonepass
              revert ih
              generalize minmaxLoop seg colNames anyNonepass rest = result
              rcases result with _ | (_ | _ | _) | _ | _ <;>
                simp only [List.mem_cons, exists_eq_or_imp, forall_eq_or_imp, imp_self] <;> tauto
          | markNonePass =>
              rw [hcase] at hstep
              specialize ih true
              revert ih
              generalize minmaxLoop seg colNames true rest = result
              rcases result with _ | (_ | _ | _) | _ | _ <;>
                simp only [List.mem_cons, exists_eq_or_imp, forall_eq_or_imp] <;> tauto
          | giveUp result =>
              rw [hcase] at hstep
              cases result with
              | allPass => exact hstep
              | nonePass => exact ⟨bq, List.mem_cons_self, hstep⟩
              | ambiguous => trivial

/-- The second loop lets a qual through only on the time column or on full
counts. -/
theorem nullLoop_spec {timeColumn : Text} (quals : List BatchQual)
    (h : nullLoop seg colNames timeColumn quals = some .allPass) :
    ∀ bq ∈ quals, ∀ name, colNames[bq.colIdx]? = some name →
      name = timeColumn ∨ ∃ cs, seg.colSums name = some cs ∧ seg.rowCount ≤ cs.nonnullCount := by
  induction quals with
  | nil => simp
  | cons bq rest ih =>
      unfold nullLoop at h
      simp only [Option.bind_eq_bind] at h
      intro bq' hmem name hname
      rcases List.mem_cons.mp hmem with rfl | hmem
      · rw [hname, Option.bind_some] at h
        by_cases htime : name = timeColumn
        · exact .inl htime
        · rw [if_neg htime] at h
          cases hsums : seg.colSums name with
          | none => simp [hsums] at h
          | some cs =>
              simp only [hsums] at h
              split at h
              · cases h
              · exact .inr ⟨cs, rfl, by omega⟩
      · refine ih ?_ bq' hmem name hname
        cases hname' : colNames[bq.colIdx]? with
        | none => simp [hname'] at h
        | some name' =>
            rw [hname', Option.bind_some] at h
            split at h
            · exact h
            · split at h
              · cases h
              · split at h
                · cases h
                · exact h

theorem nullLoop_ne_nonePass {timeColumn : Text} (quals : List BatchQual) :
    nullLoop seg colNames timeColumn quals ≠ some .nonePass := by
  induction quals with
  | nil => simp [nullLoop]
  | cons bq rest ih =>
      unfold nullLoop
      simp only [Option.bind_eq_bind]
      cases colNames[bq.colIdx]? with
      | none => simp
      | some name =>
          rw [Option.bind_some]
          split
          · exact ih
          · split
            · simp
            · split
              · simp
              · exact ih

theorem allValues_of_allPass {timeColumn : Text} {quals : List BatchQual}
    (hloaded : Loaded s seg) (hover : OverIntColumns s colNames quals)
    (h : classifySegmentQuals seg quals colNames timeColumn = some .allPass) :
    (∀ bq ∈ quals, AllValues s colNames bq) ∧
      nullLoop seg colNames timeColumn quals = some .allPass := by
  have hloop := minmaxLoop_spec hloaded quals hover false
  unfold classifySegmentQuals at h
  cases hresult : minmaxLoop seg colNames false quals with
  | none => simp [hresult] at h
  | some result =>
      simp only [hresult, Option.bind_eq_bind, Option.bind_some] at h hloop
      cases result with
      | inl result =>
          cases h
          exact hloop.elim
      | inr anyNonepass =>
          cases anyNonepass with
          | true => cases h
          | false => exact ⟨hloop.2, h⟩

theorem noValue_of_nonePass {timeColumn : Text} {quals : List BatchQual}
    (hloaded : Loaded s seg) (hover : OverIntColumns s colNames quals)
    (h : classifySegmentQuals seg quals colNames timeColumn = some .nonePass) :
    ∃ bq ∈ quals, NoValue s colNames bq := by
  have hloop := minmaxLoop_spec hloaded quals hover false
  unfold classifySegmentQuals at h
  cases hresult : minmaxLoop seg colNames false quals with
  | none => simp [hresult] at h
  | some result =>
      simp only [hresult, Option.bind_eq_bind, Option.bind_some] at h hloop
      cases result with
      | inl result =>
          cases h
          exact hloop
      | inr anyNonepass =>
          cases anyNonepass with
          | true => exact hloop.resolve_left Bool.false_ne_true
          | false => exact absurd h (nullLoop_ne_nonePass quals)

theorem HasColumn.unique {bq : BatchQual} {name name' : Text} {col col' : IntColumn}
    (h : HasColumn s colNames bq name col) (h' : HasColumn s colNames bq name' col') :
    name' = name ∧ col' = col := by
  have hname : name' = name := Option.some.inj (h'.1.symm.trans h.1)
  subst hname
  exact ⟨rfl, Option.some.inj (h'.2.symm.trans h.2)⟩

end Loops

theorem exists_value_of_lt {col : IntColumn} (hfull : ∀ v ∈ col.values, v.isSome = true) {i : ℕ}
    (hi : i < col.values.length) :
    ∃ v, col.values[i]? = some (some v) ∧ v ∈ col.values.reduceOption := by
  obtain ⟨v, hv⟩ := Option.isSome_iff_exists.mp (hfull _ (List.getElem_mem hi))
  refine ⟨v, by rw [List.getElem?_eq_getElem hi, hv], ?_⟩
  rw [List.reduceOption_mem_iff, ← hv]
  exact List.getElem_mem hi

theorem mem_reduceOption_of_getElem? {α : Type*} {values : List (Option α)} {i : ℕ} {v : α}
    (h : values[i]? = some (some v)) : v ∈ values.reduceOption := by
  rw [List.reduceOption_mem_iff]
  exact List.mem_of_getElem? h

/-- `AllPass` only if every row satisfies every qual. -/
theorem rowMatches_of_allPass {s : IntSegment} {seg : SegmentData} {quals : List BatchQual}
    {colNames : List Text} {timeColumn : Text} (hloaded : Loaded s seg)
    (hover : OverIntColumns s colNames quals)
    (htime : ∀ col, s.columns timeColumn = some col → ∀ v ∈ col.values, v.isSome = true)
    (hclass : classifySegmentQuals seg quals colNames timeColumn = some .allPass) {i : ℕ}
    (hi : i < s.rowCount) {bq : BatchQual} (hbq : bq ∈ quals) : RowMatches s colNames bq i := by
  obtain ⟨hvalues, hnulls⟩ := allValues_of_allPass hloaded hover hclass
  obtain ⟨name, col, hcol, hall⟩ := hvalues bq hbq
  have hfull : ∀ v ∈ col.values, v.isSome = true := by
    rcases nullLoop_spec quals hnulls bq hbq name hcol.1 with rfl | ⟨cs, hsums, hle⟩
    · exact htime col hcol.2
    · have hcs := hloaded.sums_eq name col cs hcol.2 hsums
      rw [col.computeTypedSum_typed] at hcs
      rw [hcs, hloaded.rowCount_eq, ← s.length_eq name col hcol.2] at hle
      exact (countValues_eq_length_iff _ _).mp
        (le_antisymm (countValues_fst_le _ _) hle)
  obtain ⟨v, hget, hmem⟩ := exists_value_of_lt hfull ((s.length_eq name col hcol.2).symm ▸ hi)
  exact ⟨name, col, hcol, v, hget, hall v hmem⟩

/-- `NonePass` only if no row satisfies all quals. -/
theorem not_rowMatches_of_nonePass {s : IntSegment} {seg : SegmentData} {quals : List BatchQual}
    {colNames : List Text} {timeColumn : Text} (hloaded : Loaded s seg)
    (hover : OverIntColumns s colNames quals)
    (hclass : classifySegmentQuals seg quals colNames timeColumn = some .nonePass) (i : ℕ) :
    ¬ ∀ bq ∈ quals, RowMatches s colNames bq i := by
  intro hrow
  obtain ⟨bq, hbq, name, col, hcol, hno⟩ := noValue_of_nonePass hloaded hover hclass
  obtain ⟨name', col', hcol', v, hget, hmatch⟩ := hrow bq hbq
  obtain ⟨rfl, rfl⟩ := hcol.unique hcol'
  exact hno v (mem_reduceOption_of_getElem? hget) hmatch

/-- Metadata classification is sound for quals over integer columns: `AllPass`
only if every row satisfies every qual, `NonePass` only if no row satisfies all
of them, and no filter of the quals drops a segment with a row that does. -/
theorem classifySegmentQuals_sound (s : IntSegment) (seg : SegmentData) (quals : List BatchQual)
    (colNames : List Text) (timeColumn : Text) (hloaded : Loaded s seg)
    (hover : OverIntColumns s colNames quals)
    (htime : ∀ col, s.columns timeColumn = some col → ∀ v ∈ col.values, v.isSome = true) :
    (classifySegmentQuals seg quals colNames timeColumn = some .allPass →
        ∀ i < s.rowCount, ∀ bq ∈ quals, RowMatches s colNames bq i) ∧
      (classifySegmentQuals seg quals colNames timeColumn = some .nonePass →
        ∀ i < s.rowCount, ¬ ∀ bq ∈ quals, RowMatches s colNames bq i) ∧
      ∀ i < s.rowCount, (∀ bq ∈ quals, RowMatches s colNames bq i) →
        ∀ bq ∈ quals, ∀ name col, HasColumn s colNames bq name col →
          ∀ ci f, minmaxFilterOf ci bq = some f → rowPassesFilter f col.stored = true := by
  refine ⟨?_, ?_, ?_⟩
  · intro hclass i hi bq hbq
    exact rowMatches_of_allPass hloaded hover htime hclass hi hbq
  · intro hclass i hi
    exact not_rowMatches_of_nonePass hloaded hover hclass i
  · intro i hi hrow bq hbq name col hcol ci f hf
    obtain ⟨name', col', hcol', v, hget, hmatch⟩ := hrow bq hbq
    obtain ⟨rfl, rfl⟩ := hcol.unique hcol'
    obtain ⟨col, hcolumn, htype⟩ := hover bq hbq name' hcol.1
    obtain ⟨-, rfl⟩ := hcol.unique ⟨hcol.1, hcolumn⟩
    exact col.rowPassesFilter_of_matches htype
      ⟨v, mem_reduceOption_of_getElem? hget, hmatch⟩ hf

/-- A two-row segment with one integer column. -/
def sampleSegment : IntSegment where
  rowCount := 2
  columns := fun name => if name = ['v'] then some ⟨.int4, [some 5, some 7]⟩ else none
  length_eq := by
    intro name col h
    split at h
    · cases h
      rfl
    · cases h

def sampleData : SegmentData where
  rowCount := 2
  colMinmax := fun name => if name = ['v'] then some ⟨5, 7, false, false, .int4⟩ else none
  colSums := fun name => if name = ['v'] then some ⟨2, 2⟩ else none

/-- `v > 3 AND v <> 0`. -/
def sampleQuals : List BatchQual :=
  [⟨0, .gt, 3, .int4, none, none⟩, ⟨0, .ne, 0, .int4, none, none⟩]

theorem classifySegmentQuals_sound_sample :
    classifySegmentQuals sampleData sampleQuals [['v']] ['t'] = some .allPass ∧
      ∀ i < 2, ∀ bq ∈ sampleQuals, RowMatches sampleSegment [['v']] bq i := by
  have hloaded : Loaded sampleSegment sampleData := by
    refine ⟨rfl, ?_, ?_⟩
    · intro name col cm hcol hcm
      simp only [sampleSegment, sampleData] at hcol hcm
      split at hcol <;> simp_all
      subst hcol hcm
      rfl
    · intro name col cs hcol hcs
      simp only [sampleSegment, sampleData] at hcol hcs
      split at hcol <;> simp_all
      subst hcol hcs
      rfl
  have hover : OverIntColumns sampleSegment [['v']] sampleQuals := by
    have hquals : ∀ bq ∈ sampleQuals, bq.colIdx = 0 ∧ bq.typeOid = .int4 := by decide
    intro bq hbq name hname
    rw [(hquals bq hbq).1] at hname
    cases hname
    exact ⟨_, rfl, (hquals bq hbq).2⟩
  have hclass : classifySegmentQuals sampleData sampleQuals [['v']] ['t'] = some .allPass := by
    decide
  refine ⟨hclass, ?_⟩
  exact (classifySegmentQuals_sound sampleSegment sampleData sampleQuals [['v']] ['t'] hloaded
    hover (fun col hcol => by cases hcol)).1 hclass

end DeltaX.Scan.IntClassify
