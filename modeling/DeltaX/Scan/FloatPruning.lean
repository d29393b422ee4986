import DeltaX.Scan.MinMax
/-!
# Min/max pruning on float columns

PostgreSQL orders floats by value: the zeros are equal, and so are all NaNs,
above every number.  The stored keys order the bit patterns instead.  Pruning
is sound wherever the two orders agree about the constant, and this module
says exactly how far it stays sound where they do not.
-/

namespace DeltaX.Scan.FloatPruning

open Column Stats.Encoding Support.KeySpan Support.IeeeOrder MinMax

/-- A float type of the store, with its key function and its datums. -/
structure FloatColumn where
  format : Format
  typeOid : TypeOid
  encode : Pattern format → ℤ
  ofDatum : Datum → Pattern format
  encode_eq : ∀ v, encode v = totalKey v
  encodeDatum_eq : ∀ d, encodeDatumToI64 d typeOid = some (encode (ofDatum d))

/-- `float8`: the datum is the pattern. -/
def float8 : FloatColumn where
  format := binary64
  typeOid := .float8
  encode := encodeF64ToI64
  ofDatum := id
  encode_eq := encodeF64ToI64_eq_totalKey
  encodeDatum_eq := fun _ => rfl

/-- `float4`: the pattern is the low half of the datum. -/
def float4 : FloatColumn where
  format := binary32
  typeOid := .float4
  encode := encodeF32ToI64
  ofDatum := fun d => d.setWidth 32
  encode_eq := encodeF32ToI64_eq_totalKey
  encodeDatum_eq := fun _ => rfl

namespace FloatColumn

variable (t : FloatColumn)

/-- The qual `column op c`, or `column IN listed`. -/
def qual (op : BatchCompareOp) (c : Datum) (listed : Option (List Datum)) : BatchQual where
  colIdx := 0
  op := op
  constDatum := c
  typeOid := t.typeOid
  textConst := none
  inListI64 := listed

/-- The statistics the compressor stores for the rows of a segment. -/
def stored (rows : List (Option (Pattern t.format))) : ColMinMax :=
  .ofStored (minmaxEncodedVia rows t.encode) t.typeOid

/-- A value satisfies the qual under PostgreSQL's float ordering. -/
def Matches (op : BatchCompareOp) (c : Datum) (listed : Option (List Datum))
    (v : Pattern t.format) : Prop :=
  Satisfies (rank t.format) op (t.ofDatum c) (listed.map (List.map t.ofDatum)) v

/-- Neither decision loses a row: the filter keeps a segment with a matching row,
and a settled qual is settled as the rows have it. -/
structure PruningSound (rows : List (Option (Pattern t.format))) (op : BatchCompareOp)
    (c : Datum) (listed : Option (List Datum)) : Prop where
  keeps : (∃ v ∈ rows.reduceOption, t.Matches op c listed v) →
    ∀ ci f, minmaxFilterOf ci (t.qual op c listed) = some f →
      rowPassesFilter f (t.stored rows) = true
  allPass : segmentAllRowsPass (t.stored rows) op c = some true →
    ∀ v ∈ rows.reduceOption, t.Matches op c listed v
  nonePass : segmentAllRowsPass (t.stored rows) op c = some false →
    ∀ v ∈ rows.reduceOption, ¬ t.Matches op c listed v

/-- Some row lies on each side of the constant in the total order of patterns. -/
def Between (rows : List (Option (Pattern t.format))) (c : Pattern t.format) : Prop :=
  (∃ w ∈ rows.reduceOption, totalKey w ≤ totalKey c) ∧
    ∃ w ∈ rows.reduceOption, totalKey c ≤ totalKey w

/-- When a tied or clashing row does no harm: the other rows reach far enough
around the constant in the total order of patterns. -/
def PruningCondition (rows : List (Option (Pattern t.format))) (op : BatchCompareOp)
    (c : Pattern t.format) (listed : Option (List (Pattern t.format))) : Prop :=
  match op with
  | .eq | .ne => (∃ v ∈ rows.reduceOption, tied t.format v c) → t.Between rows c
  | .lt | .ge =>
      ((∃ v ∈ rows.reduceOption, tied t.format v c ∨ clashing t.format v c) →
          ∃ w ∈ rows.reduceOption, totalKey c ≤ totalKey w) ∧
        ((∃ v ∈ rows.reduceOption, clashing t.format v c) →
          ∃ w ∈ rows.reduceOption, totalKey w < totalKey c)
  | .gt | .le =>
      ((∃ v ∈ rows.reduceOption, tied t.format v c ∨ clashing t.format v c) →
          ∃ w ∈ rows.reduceOption, totalKey w ≤ totalKey c) ∧
        ((∃ v ∈ rows.reduceOption, clashing t.format v c) →
          ∃ w ∈ rows.reduceOption, totalKey c < totalKey w)
  | .inList =>
      ∀ cs, listed = some cs → (∃ c ∈ cs, ∃ v ∈ rows.reduceOption, tied t.format v c) →
        ∃ c ∈ cs, t.Between rows c
  | .like | .notLike => True

variable {t}

theorem encode_eq_totalKey : t.encode = totalKey := funext t.encode_eq

theorem encodeDatum_eq_totalKey (d : Datum) :
    encodeDatumToI64 d t.typeOid = some (totalKey (t.ofDatum d)) := by
  rw [t.encodeDatum_eq, t.encode_eq]

theorem mapM_encodeDatum (cs : List Datum) :
    cs.mapM (fun d => encodeDatumToI64 d t.typeOid) =
      some ((cs.map t.ofDatum).map totalKey) := by
  simp only [encodeDatum_eq_totalKey, List.map_map]
  exact List.mapM_pure

/-- The filter carries the total-order keys of the constants. -/
theorem minmaxFilterOf_qual {op : BatchCompareOp} (hlike : op ≠ .like) (hnot : op ≠ .notLike)
    (c : Datum) (listed : Option (List Datum)) (ci : ℕ) :
    minmaxFilterOf ci (t.qual op c listed) =
      some ⟨ci, op, totalKey (t.ofDatum c),
        (listed.map (List.map t.ofDatum)).map (List.map totalKey)⟩ := by
  unfold minmaxFilterOf qual
  dsimp only
  cases listed with
  | none => cases op <;> simp_all [encodeDatum_eq_totalKey]
  | some cs =>
      dsimp only
      rw [mapM_encodeDatum, encodeDatum_eq_totalKey]
      cases op <;> simp_all

theorem pruningCondition_iff_faithful (rows : List (Option (Pattern t.format)))
    {op : BatchCompareOp} {cmp : Comparison} (hop : op.comparison = some cmp)
    (c : Pattern t.format) (listed : Option (List (Pattern t.format))) :
    t.PruningCondition rows op c listed ↔
      Faithful totalKey (rank t.format) rows.reduceOption c cmp := by
  cases op <;> cases hop <;>
    simp only [PruningCondition, Faithful, Between, Covered, tied_iff, inverted_iff_clashing]

section Span

variable {rows : List (Option (Pattern t.format))} {lo hi : ℤ}

/-- On a segment with values, a comparison is sound when both the operator and
its complement leave their own rows possible. -/
theorem pruningSound_comparison_iff
    (hspan : IsSpan (rows.reduceOption.map totalKey) lo hi)
    (hstored : minmaxEncodedVia rows t.encode = (some lo, some hi))
    {op : BatchCompareOp} {cmp : Comparison} (hop : op.comparison = some cmp)
    (c : Datum) (listed : Option (List Datum)) :
    t.PruningSound rows op c listed ↔
      ((∃ v ∈ rows.reduceOption, cmp.Holds (rank t.format v) (rank t.format (t.ofDatum c))) →
          cmp.Possible (rows.reduceOption.map totalKey) (totalKey (t.ofDatum c))) ∧
        ((∃ v ∈ rows.reduceOption,
            cmp.complement.Holds (rank t.format v) (rank t.format (t.ofDatum c))) →
          cmp.complement.Possible (rows.reduceOption.map totalKey) (totalKey (t.ofDatum c))) := by
  have hlike : op ≠ .like := by
    rintro rfl
    cases hop
  have hnot : op ≠ .notLike := by
    rintro rfl
    cases hop
  obtain ⟨htrue, hfalse⟩ := decideBySpan_iff hspan (totalKey (t.ofDatum c)) hop
  have hpass : segmentAllRowsPass (t.stored rows) op c =
      decideBySpan op lo hi (totalKey (t.ofDatum c)) := by
    rw [stored, hstored, segmentAllRowsPass_of_some (encodeDatum_eq_totalKey c)]
  have hmatch : ∀ v, t.Matches op c listed v ↔
      cmp.Holds (rank t.format v) (rank t.format (t.ofDatum c)) :=
    satisfies_comparison (rank t.format) hop _ _
  have hkeeps : ∀ ci f, minmaxFilterOf ci (t.qual op c listed) = some f →
      (rowPassesFilter f (t.stored rows) = true ↔
        cmp.Possible (rows.reduceOption.map totalKey) (totalKey (t.ofDatum c))) := by
    intro ci f hf
    rw [minmaxFilterOf_qual hlike hnot] at hf
    cases hf
    rw [stored, hstored, rowPassesFilter_of_some]
    exact segmentPassesMinmaxFilter_iff hspan _ hop
  constructor
  · intro hsound
    refine ⟨?_, ?_⟩
    · intro hex
      have hex' : ∃ v ∈ rows.reduceOption, t.Matches op c listed v := by
        simpa only [hmatch] using hex
      exact (hkeeps 0 _ (minmaxFilterOf_qual hlike hnot c listed 0)).mp
        (hsound.keeps hex' 0 _ (minmaxFilterOf_qual hlike hnot c listed 0))
    · rintro ⟨v, hv, hcompl⟩
      by_contra hnone
      have hall := hsound.allPass (hpass.trans (htrue.mpr hnone)) v hv
      exact (Comparison.holds_complement cmp _ _).mp hcompl ((hmatch v).mp hall)
  · rintro ⟨hpossible, hcompl⟩
    refine ⟨?_, ?_, ?_⟩
    · intro hex ci f hf
      exact (hkeeps ci f hf).mpr (hpossible (by simpa only [hmatch] using hex))
    · intro hsettled v hv
      rw [hmatch]
      by_contra hfails
      exact htrue.mp (hpass.symm.trans hsettled)
        (hcompl ⟨v, hv, (Comparison.holds_complement cmp _ _).mpr hfails⟩)
    · intro hsettled v hv hholds
      exact hfalse.mp (hpass.symm.trans hsettled) (hpossible ⟨v, hv, (hmatch v).mp hholds⟩)

/-- An `IN` list is never settled; it is sound when a listed constant that some
row equals leaves some listed constant inside the span. -/
theorem pruningSound_inList_iff
    (hspan : IsSpan (rows.reduceOption.map totalKey) lo hi)
    (hstored : minmaxEncodedVia rows t.encode = (some lo, some hi))
    (c : Datum) (listed : Option (List Datum)) :
    t.PruningSound rows .inList c listed ↔
      ∀ cs, listed.map (List.map t.ofDatum) = some cs →
        (∃ c ∈ cs, ∃ v ∈ rows.reduceOption, rank t.format v = rank t.format c) →
          ∃ c ∈ cs, t.Between rows c := by
  have hpass : segmentAllRowsPass (t.stored rows) .inList c = none := by
    rw [stored, hstored, segmentAllRowsPass_of_some (encodeDatum_eq_totalKey c)]
    rfl
  have hpossible : ∀ c : Pattern t.format,
      Comparison.eq.Possible (rows.reduceOption.map totalKey) (totalKey c) ↔
        t.Between rows c := by
    intro c
    simp only [Comparison.Possible, Between, List.mem_map, exists_exists_and_eq_and]
  have hkeeps : ∀ cs, listed.map (List.map t.ofDatum) = some cs → ∀ ci f,
      minmaxFilterOf ci (t.qual .inList c listed) = some f →
        (rowPassesFilter f (t.stored rows) = true ↔ ∃ c ∈ cs, t.Between rows c) := by
    intro cs hcs ci f hf
    rw [minmaxFilterOf_qual (by decide) (by decide), hcs] at hf
    cases hf
    rw [stored, hstored, rowPassesFilter_of_some,
      segmentPassesMinmaxFilter_inList_iff hspan _ rfl rfl]
    simp only [List.mem_map, exists_exists_and_eq_and, hpossible]
  constructor
  · intro hsound cs hcs hex
    obtain ⟨c', hc', v, hv, heq⟩ := hex
    have hf : minmaxFilterOf 0 (t.qual .inList c listed) = some _ :=
      minmaxFilterOf_qual (by decide) (by decide) c listed 0
    exact (hkeeps cs hcs 0 _ hf).mp (hsound.keeps ⟨v, hv, cs, hcs, c', hc', heq⟩ 0 _ hf)
  · intro h
    refine ⟨?_, ?_, ?_⟩
    · rintro ⟨v, hv, cs, hcs, c', hc', heq⟩ ci f hf
      exact (hkeeps cs hcs ci f hf).mpr (h cs hcs ⟨c', hc', v, hv, heq⟩)
    · intro hsettled
      rw [hpass] at hsettled
      cases hsettled
    · intro hsettled
      rw [hpass] at hsettled
      cases hsettled

end Span

theorem pruningSound_of_empty {rows : List (Option (Pattern t.format))}
    (hrows : rows.reduceOption = []) (op : BatchCompareOp) (c : Datum)
    (listed : Option (List Datum)) : t.PruningSound rows op c listed := by
  refine ⟨?_, ?_, ?_⟩ <;> simp [hrows]

theorem pruningCondition_of_empty {rows : List (Option (Pattern t.format))}
    (hrows : rows.reduceOption = []) (op : BatchCompareOp) (c : Pattern t.format)
    (listed : Option (List (Pattern t.format))) : t.PruningCondition rows op c listed := by
  cases op <;> simp [PruningCondition, hrows]

theorem exists_listed_iff_tied (rows : List (Option (Pattern t.format)))
    (cs : List (Pattern t.format)) :
    ((∃ c ∈ cs, ∃ v ∈ rows.reduceOption, rank t.format v = rank t.format c) →
        ∃ c ∈ cs, t.Between rows c) ↔
      ((∃ c ∈ cs, ∃ v ∈ rows.reduceOption, tied t.format v c) →
        ∃ c ∈ cs, t.Between rows c) := by
  constructor
  · rintro h ⟨c, hc, v, hv, htied⟩
    exact h ⟨c, hc, v, hv, htied.1⟩
  · rintro h ⟨c, hc, v, hv, heq⟩
    by_cases hvc : v = c
    · subst hvc
      exact ⟨v, hc, ⟨v, hv, le_rfl⟩, ⟨v, hv, le_rfl⟩⟩
    · exact h ⟨c, hc, v, hv, heq, hvc⟩

/-- Pruning a float column is sound exactly under `PruningCondition`. -/
theorem pruningSound_iff (rows : List (Option (Pattern t.format))) (op : BatchCompareOp)
    (c : Datum) (listed : Option (List Datum)) :
    t.PruningSound rows op c listed ↔
      t.PruningCondition rows op (t.ofDatum c) (listed.map (List.map t.ofDatum)) := by
  have hsummary := summary_minmaxEncodedVia rows t.encode
  rw [encode_eq_totalKey] at hsummary
  generalize hstored : minmaxEncodedVia rows totalKey = stored at hsummary
  rw [← encode_eq_totalKey] at hstored
  cases hsummary with
  | empty hrows =>
      have hrows' := List.map_eq_nil_iff.mp hrows
      exact iff_of_true (pruningSound_of_empty hrows' op c listed)
        (pruningCondition_of_empty hrows' op _ _)
  | span hspan =>
      cases hop : op.comparison with
      | some cmp =>
          rw [pruningSound_comparison_iff hspan hstored hop,
            pruningCondition_iff_faithful rows hop,
            possible_sound_iff rank_eq_of_totalKey_eq]
      | none =>
          cases op <;> cases hop
          · exact iff_of_true ⟨by simp [Matches, Satisfies], by simp [segmentAllRowsPass,
              decideBySpan], by simp [Matches, Satisfies]⟩ trivial
          · exact iff_of_true ⟨by simp [Matches, Satisfies], by simp [segmentAllRowsPass,
              decideBySpan], by simp [Matches, Satisfies]⟩ trivial
          · rw [pruningSound_inList_iff hspan hstored]
            simp only [PruningCondition, exists_listed_iff_tied]

end FloatColumn

/-- Min/max pruning loses no row of a `float8` or a `float4` column exactly when
the rows reach far enough around every constant that a row ties or clashes
with. -/
theorem float_pruningSound_iff (op : BatchCompareOp) (c : Datum) (listed : Option (List Datum)) :
    (∀ rows, float8.PruningSound rows op c listed ↔
        float8.PruningCondition rows op (float8.ofDatum c)
          (listed.map (List.map float8.ofDatum))) ∧
      (∀ rows, float4.PruningSound rows op c listed ↔
        float4.PruningCondition rows op (float4.ofDatum c)
          (listed.map (List.map float4.ofDatum))) := by
  constructor
  · intro rows
    exact FloatColumn.pruningSound_iff rows op c listed
  · intro rows
    exact FloatColumn.pruningSound_iff rows op c listed

/-- A segment that holds only `-0` is dropped for `column = 0`. -/
theorem negativeZero_not_pruningSound :
    ¬ float8.PruningSound [some 0x8000000000000000#64] .eq 0#64 none := by
  intro h
  have hequal : rank binary64 0x8000000000000000#64 = rank binary64 0#64 := by decide
  have hkeeps := h.keeps ⟨0x8000000000000000#64, List.mem_singleton_self _, hequal⟩ 0 _ rfl
  revert hkeeps
  decide

end DeltaX.Scan.FloatPruning
