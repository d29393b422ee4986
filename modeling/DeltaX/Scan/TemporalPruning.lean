import DeltaX.Schema.TimestampLiterals
import DeltaX.Scan.MinMax
/-!
# Order of timestamps in the statistics

A timestamp is stored, and a constant is looked up, shifted by the seconds between the
epochs in plain 64-bit addition.  PostgreSQL's last years and its `infinity` lie so high
that the shift wraps around.
-/

namespace DeltaX.Scan.TemporalPruning

open Column Stats.Encoding MinMax Support.KeySpan Schema.TimestampLiterals

/-- The values of a timestamp column: its range of years, and both infinities. -/
def Admitted (v : Datum) : Prop :=
  (-211813488000000000 ≤ v.toInt ∧ v.toInt < 9223371331200000000) ∨
    v = BitVec.intMin 64 ∨ v = BitVec.intMax 64

def temporalType (withZone : Bool) : DataType := if withZone then .timestamptz else .timestamp

def decodeEncodedToPgI64 (encoded : BitVec 64) : BitVec 64 := encoded - pgEpochOffsetUsec

def stored (withZone : Bool) (rows : List (Option Datum)) : Option ℤ × Option ℤ :=
  computeMinmaxEncodedI64 (.int64 (appendTimestamps rows)) (temporalType withZone)

/-- The qual `column op c`, or `column IN listed`. -/
def qual (withZone : Bool) (op : BatchCompareOp) (c : Datum) (listed : Option (List Datum)) :
    BatchQual where
  colIdx := 0
  op := op
  constDatum := c
  typeOid := (temporalType withZone).typeOid
  textConst := none
  inListI64 := listed

def compared (rows : List (Option Datum)) (c : Datum) (listed : Option (List Datum)) : List Datum :=
  rows.reduceOption ++ c :: listed.getD []

structure KeepsOrder (withZone : Bool) (rows : List (Option Datum)) (op : BatchCompareOp)
    (c : Datum) (listed : Option (List Datum)) : Prop where
  noOverflow : ∀ v ∈ compared rows c listed,
    (encodeTimestamp v).toInt = v.toInt + pgEpochOffsetUsec.toInt
  monotone : ∀ a ∈ compared rows c listed, ∀ b ∈ compared rows c listed, a.toInt ≤ b.toInt →
    (encodeTimestamp a).toInt ≤ (encodeTimestamp b).toInt
  bounds : ∀ v ∈ rows.reduceOption, ∃ lo hi, stored withZone rows = (some lo, some hi) ∧
    (decodeEncodedToPgI64 (BitVec.ofInt 64 lo)).toInt ≤ v.toInt ∧
      v.toInt ≤ (decodeEncodedToPgI64 (BitVec.ofInt 64 hi)).toInt
  keeps : (∃ v ∈ rows.reduceOption, Satisfies BitVec.toInt op c listed v) →
    ∀ ci f, minmaxFilterOf ci (qual withZone op c listed) = some f →
      rowPassesFilter f (.ofStored (stored withZone rows) (temporalType withZone).typeOid) = true

/-! ## Values that do not wrap around -/

/-- The shift wraps around from the year 294247 on. -/
theorem encodeTimestamp_exact_iff (v : Datum) :
    (encodeTimestamp v).toInt = v.toInt + pgEpochOffsetUsec.toInt ↔
      v.toInt ≤ 9222425352054775807 := by
  have hoffset : pgEpochOffsetUsec.toInt = 946684800000000 := rfl
  rw [toInt_encodeTimestamp, hoffset]
  split_ifs with hfits
  · exact iff_of_true rfl hfits
  · exact iff_of_false (by omega) hfits

/-- The order of two timestamps is kept unless the later one alone wraps around. -/
theorem encodeTimestamp_le_iff {a b : Datum} (hab : a.toInt ≤ b.toInt) :
    (encodeTimestamp a).toInt ≤ (encodeTimestamp b).toInt ↔
      (b.toInt ≤ 9222425352054775807 ∨ 9222425352054775807 < a.toInt) := by
  have ha := BitVec.le_toInt (x := a)
  have hb := BitVec.toInt_lt (x := b)
  rw [toInt_encodeTimestamp, toInt_encodeTimestamp]
  split_ifs <;> omega

theorem decodeEncodedToPgI64_encodeTimestamp (v : Datum) :
    decodeEncodedToPgI64 (BitVec.ofInt 64 (encodeTimestamp v).toInt) = v := by
  rw [BitVec.ofInt_toInt, decodeEncodedToPgI64, encodeTimestamp, BitVec.add_sub_cancel]

theorem stored_eq (withZone : Bool) (rows : List (Option Datum)) :
    stored withZone rows = minmaxEncodedVia (appendTimestamps rows) BitVec.toInt := by
  cases withZone <;> rfl

theorem encodeDatumToI64_temporal (withZone : Bool) (d : Datum) :
    encodeDatumToI64 d (temporalType withZone).typeOid = some (encodeTimestamp d).toInt := by
  cases withZone <;> rfl

theorem minmaxFilterOf_qual (withZone : Bool) {op : BatchCompareOp} (hlike : op ≠ .like)
    (hnot : op ≠ .notLike) (c : Datum) (listed : Option (List Datum)) (ci : ℕ) :
    minmaxFilterOf ci (qual withZone op c listed) = some ⟨ci, op, (encodeTimestamp c).toInt,
      listed.map (List.map fun d => (encodeTimestamp d).toInt)⟩ := by
  have hlist : ∀ cs : List Datum, cs.mapM (fun d =>
      encodeDatumToI64 d (temporalType withZone).typeOid) =
        some (cs.map fun d => (encodeTimestamp d).toInt) := by
    intro cs
    simp only [encodeDatumToI64_temporal]
    exact List.mapM_pure
  unfold minmaxFilterOf qual
  dsimp only
  cases listed with
  | none => cases op <;> simp_all [encodeDatumToI64_temporal]
  | some cs =>
      dsimp only
      rw [hlist, encodeDatumToI64_temporal]
      cases op <;> simp_all

section fits

variable {withZone : Bool} {rows : List (Option Datum)} {op : BatchCompareOp} {c : Datum}
  {listed : Option (List Datum)}

theorem summary_stored (withZone : Bool) (rows : List (Option Datum)) :
    Summary ((rows.reduceOption.map encodeTimestamp).map BitVec.toInt) (stored withZone rows) := by
  have hsummary := summary_minmaxEncodedVia (appendTimestamps rows) BitVec.toInt
  rw [← stored_eq withZone, appendTimestamps, List.reduceOption_map] at hsummary
  exact hsummary

theorem exists_of_mem_keys {key : ℤ}
    (h : key ∈ (rows.reduceOption.map encodeTimestamp).map BitVec.toInt) :
    ∃ v ∈ rows.reduceOption, (encodeTimestamp v).toInt = key := by
  obtain ⟨word, hword, rfl⟩ := List.mem_map.mp h
  obtain ⟨v, hv, rfl⟩ := List.mem_map.mp hword
  exact ⟨v, hv, rfl⟩

/-- A row that satisfies the qual leaves its shifted value possible. -/
theorem segmentPasses_of_satisfies {lo hi : ℤ}
    (hspan : IsSpan ((rows.reduceOption.map encodeTimestamp).map BitVec.toInt) lo hi)
    (hfits : ∀ v ∈ compared rows c listed,
      (encodeTimestamp v).toInt = v.toInt + pgEpochOffsetUsec.toInt)
    {v : Datum} (hv : v ∈ rows.reduceOption) (hsat : Satisfies BitVec.toInt op c listed v)
    {f : MinMaxFilter} {ci : ℕ} (hf : minmaxFilterOf ci (qual withZone op c listed) = some f) :
    segmentPassesMinmaxFilter f lo hi = true := by
  have hkey : (encodeTimestamp v).toInt ∈ (rows.reduceOption.map encodeTimestamp).map BitVec.toInt :=
    List.mem_map_of_mem (List.mem_map_of_mem hv)
  have hvkey := hfits v (List.mem_append_left _ hv)
  by_cases hop : op.comparison.isSome
  · obtain ⟨cmp, hcmp⟩ := Option.isSome_iff_exists.mp hop
    have hholds := (satisfies_comparison BitVec.toInt hcmp c listed v).mp hsat
    have hckey := hfits c (List.mem_append_right _ List.mem_cons_self)
    rw [minmaxFilterOf_qual withZone (by rintro rfl; cases hcmp) (by rintro rfl; cases hcmp)] at hf
    cases hf
    rw [segmentPassesMinmaxFilter_iff hspan _ hcmp]
    apply Comparison.possible_of_holds _ _ cmp ⟨_, hkey, _⟩
    rw [hvkey, hckey]
    cases cmp <;> simpa [Comparison.Holds] using hholds
  · cases op with
    | inList =>
        obtain ⟨cs, rfl, d, hd, heq⟩ := hsat
        have hdkey := hfits d (List.mem_append_right _ (List.mem_cons_of_mem _ hd))
        rw [minmaxFilterOf_qual withZone (by decide) (by decide)] at hf
        cases hf
        rw [segmentPassesMinmaxFilter_inList_iff hspan _ rfl rfl]
        refine ⟨_, List.mem_map_of_mem hd, ?_⟩
        apply Comparison.possible_of_holds _ _ .eq ⟨_, hkey, _⟩
        show (encodeTimestamp v).toInt = (encodeTimestamp d).toInt
        rw [hvkey, hdkey, heq]
    | like | notLike => exact hsat.elim
    | eq | ne | lt | le | gt | ge => exact absurd rfl hop

end fits

/-- The order of a segment's timestamps and of the constants is kept exactly when none of
them wraps around. -/
theorem keepsOrder_iff (withZone : Bool) (rows : List (Option Datum)) (op : BatchCompareOp)
    (c : Datum) (listed : Option (List Datum)) :
    KeepsOrder withZone rows op c listed ↔
      ∀ v ∈ compared rows c listed, v.toInt ≤ 9222425352054775807 := by
  constructor
  · intro h v hv
    exact (encodeTimestamp_exact_iff v).mp (h.noOverflow v hv)
  · intro hfits
    have hexact : ∀ v ∈ compared rows c listed,
        (encodeTimestamp v).toInt = v.toInt + pgEpochOffsetUsec.toInt := fun v hv =>
      (encodeTimestamp_exact_iff v).mpr (hfits v hv)
    have hsummary := summary_stored withZone rows
    generalize hstored : stored withZone rows = pair at hsummary
    refine ⟨hexact, fun a ha b hb hab => ?_, fun v hv => ?_, ?_⟩
    · exact (encodeTimestamp_le_iff hab).mpr (Or.inl (hfits b hb))
    · cases hsummary with
      | empty hrows =>
          have hkeys := List.map_eq_nil_iff.mp (List.map_eq_nil_iff.mp hrows)
          rw [hkeys] at hv
          cases hv
      | span hspan =>
          have hkey := List.mem_map_of_mem (f := BitVec.toInt) (List.mem_map_of_mem (f := encodeTimestamp) hv)
          have hlo := hspan.lo_le _ hkey
          have hhi := hspan.le_hi _ hkey
          obtain ⟨a, ha, hloa⟩ := exists_of_mem_keys hspan.lo_mem
          obtain ⟨b, hb, hhib⟩ := exists_of_mem_keys hspan.hi_mem
          have hvkey := hexact v (List.mem_append_left _ hv)
          have hakey := hexact a (List.mem_append_left _ ha)
          have hbkey := hexact b (List.mem_append_left _ hb)
          refine ⟨_, _, hstored, ?_, ?_⟩
          · rw [← hloa, decodeEncodedToPgI64_encodeTimestamp]
            omega
          · rw [← hhib, decodeEncodedToPgI64_encodeTimestamp]
            omega
    · rintro ⟨v, hv, hsat⟩ ci f hf
      rw [hstored]
      cases hsummary with
      | empty _ => exact rowPassesFilter_of_null f _
      | span hspan =>
          rw [rowPassesFilter_of_some]
          exact segmentPasses_of_satisfies hspan hexact hv hsat hf

/-- 2024-01-01 and `infinity`, and the rows after 2024-06-01: the segment is dropped. -/
theorem infinity_not_keepsOrder :
    ¬ ∀ withZone rows op c listed, (∀ v ∈ compared rows c listed, Admitted v) →
      KeepsOrder withZone rows op c listed := by
  intro h
  have hadmitted : ∀ v ∈ compared [some 757382400000000, some (BitVec.intMax 64)]
      770515200000000 none, Admitted v := by
    intro v hv
    have hcases : v = 757382400000000 ∨ v = BitVec.intMax 64 ∨ v = 770515200000000 := by
      simpa [compared] using hv
    rcases hcases with rfl | rfl | rfl
    · exact Or.inl (by decide)
    · exact Or.inr (Or.inr rfl)
    · exact Or.inl (by decide)
  have hlater : (770515200000000 : Datum).toInt < (BitVec.intMax 64).toInt := by decide
  have hkeeps := (h false [some 757382400000000, some (BitVec.intMax 64)] .gt 770515200000000
    none hadmitted).keeps ⟨BitVec.intMax 64, by decide, hlater⟩ 0 _ rfl
  revert hkeeps
  decide

end DeltaX.Scan.TemporalPruning
