import DeltaX.Stats.Encoding
/-!
# Segment decisions from stored minima and maxima

A scan compares the constant of a qual with the `[_min, _max]` pair of a column
to drop a segment, or to settle a qual for all of its rows at once.  The two
decisions are translated here and restated over the keys the pair summarises:
each answers `Comparison.Possible`, one for the operator and one for its
complement.
-/

namespace DeltaX.Scan.MinMax

open Column Stats.Encoding Support.KeySpan

inductive BatchCompareOp
  | eq | ne | lt | le | gt | ge
  | like | notLike
  | inList
deriving DecidableEq, Repr

/-- The six operators that compare a value with one constant. -/
def BatchCompareOp.comparison : BatchCompareOp → Option Comparison
  | eq => some .eq
  | ne => some .ne
  | lt => some .lt
  | le => some .le
  | gt => some .gt
  | ge => some .ge
  | like | notLike | inList => none

def compareOp : Comparison → BatchCompareOp
  | .eq => .eq
  | .ne => .ne
  | .lt => .lt
  | .le => .le
  | .gt => .gt
  | .ge => .ge

theorem compareOp_comparison (cmp : Comparison) : (compareOp cmp).comparison = some cmp := by
  cases cmp <;> rfl

/-- A qual of the form `column op constant`.  Constants of an `IN` list are raw
datums, as is `constDatum`. -/
structure BatchQual where
  colIdx : ℕ
  op : BatchCompareOp
  constDatum : Datum
  typeOid : TypeOid
  textConst : Option Text
  inListI64 : Option (List Datum)
deriving DecidableEq, Repr

/-- The meaning of a qual on a value that is not NULL, for values compared
through `rank`.  Patterns are never built for such columns. -/
def Satisfies {ι β : Type*} [LinearOrder β] (rank : ι → β) (op : BatchCompareOp) (c : ι)
    (listed : Option (List ι)) (v : ι) : Prop :=
  match op with
  | .inList => ∃ cs, listed = some cs ∧ ∃ c ∈ cs, rank v = rank c
  | .like | .notLike => False
  | .eq => Comparison.eq.Holds (rank v) (rank c)
  | .ne => Comparison.ne.Holds (rank v) (rank c)
  | .lt => Comparison.lt.Holds (rank v) (rank c)
  | .le => Comparison.le.Holds (rank v) (rank c)
  | .gt => Comparison.gt.Holds (rank v) (rank c)
  | .ge => Comparison.ge.Holds (rank v) (rank c)

theorem satisfies_comparison {ι β : Type*} [LinearOrder β] (rank : ι → β)
    {op : BatchCompareOp} {cmp : Comparison} (hop : op.comparison = some cmp) (c : ι)
    (listed : Option (List ι)) (v : ι) :
    Satisfies rank op c listed v ↔ cmp.Holds (rank v) (rank c) := by
  cases op <;> cases hop <;> rfl

/-! ## The source's decisions -/

structure MinMaxFilter where
  colIdx : ℕ
  op : BatchCompareOp
  constI64 : ℤ
  inListI64 : Option (List ℤ)
deriving DecidableEq, Repr

/-- The filter `load_segments_heap` builds from a qual on the column stored under
`ci`; a qual with a constant it cannot encode prunes nothing. -/
def minmaxFilterOf (ci : ℕ) (bq : BatchQual) : Option MinMaxFilter :=
  match bq.op with
  | .like | .notLike => none
  | _ => do
      let constI64 ← encodeDatumToI64 bq.constDatum bq.typeOid
      match bq.inListI64 with
      | none => some ⟨ci, bq.op, constI64, none⟩
      | some vals =>
          let encoded ← vals.mapM fun v => encodeDatumToI64 v bq.typeOid
          some ⟨ci, bq.op, constI64, some encoded⟩

def segmentPassesMinmaxFilter (f : MinMaxFilter) (segMin segMax : ℤ) : Bool :=
  match f.op with
  | .inList =>
      match f.inListI64 with
      | some values => values.any fun v => decide (v ≥ segMin) && decide (v ≤ segMax)
      | none => true
  | .eq => decide (segMin ≤ f.constI64) && decide (segMax ≥ f.constI64)
  | .ne => !(decide (segMin = f.constI64) && decide (segMax = f.constI64))
  | .lt => decide (segMin < f.constI64)
  | .le => decide (segMin ≤ f.constI64)
  | .gt => decide (segMax > f.constI64)
  | .ge => decide (segMax ≥ f.constI64)
  | .like | .notLike => true

/-- Per-column minimum and maximum as the scan holds them. -/
structure ColMinMax where
  minEncoded : ℤ
  maxEncoded : ℤ
  minNull : Bool
  maxNull : Bool
  typeOid : TypeOid
deriving DecidableEq, Repr

/-- A stored `[_min, _max]` pair read back: NULL reads as 0 with the flag set. -/
def ColMinMax.ofStored (stored : Option ℤ × Option ℤ) (typeOid : TypeOid) : ColMinMax where
  minEncoded := stored.1.getD 0
  maxEncoded := stored.2.getD 0
  minNull := stored.1.isNone
  maxNull := stored.2.isNone
  typeOid := typeOid

/-- A colstats row survives one filter; a NULL bound never prunes. -/
def rowPassesFilter (f : MinMaxFilter) (cm : ColMinMax) : Bool :=
  cm.minNull || cm.maxNull || segmentPassesMinmaxFilter f cm.minEncoded cm.maxEncoded

/-- What a pair of bounds settles for every row: `some true` when all of them
pass, `some false` when none does, `none` when the pair does not tell. -/
def decideBySpan (op : BatchCompareOp) (segMin segMax c : ℤ) : Option Bool :=
  match op with
  | .eq =>
      if segMin = c ∧ segMax = c then some true
      else if segMax < c ∨ segMin > c then some false
      else none
  | .ne =>
      if segMin > c ∨ segMax < c then some true
      else if segMin = c ∧ segMax = c then some false
      else none
  | .gt => if segMin > c then some true else if segMax ≤ c then some false else none
  | .ge => if segMin ≥ c then some true else if segMax < c then some false else none
  | .lt => if segMax < c then some true else if segMin ≥ c then some false else none
  | .le => if segMax ≤ c then some true else if segMin > c then some false else none
  | .inList | .like | .notLike => none

def segmentAllRowsPass (cm : ColMinMax) (op : BatchCompareOp) (constDatum : Datum) :
    Option Bool :=
  if cm.minNull || cm.maxNull then none
  else do
    let c ← encodeDatumToI64 constDatum cm.typeOid
    decideBySpan op cm.minEncoded cm.maxEncoded c

/-! ## The decisions over the summarised keys -/

theorem IsSpan.possible_ne_iff {keys : List ℤ} {lo hi : ℤ} (h : IsSpan keys lo hi) (c : ℤ) :
    Comparison.ne.Possible keys c ↔ ¬(lo = c ∧ hi = c) := by
  rw [← h.forall_eq_iff c]
  simp [Comparison.Possible]

theorem segmentPassesMinmaxFilter_iff {keys : List ℤ} {lo hi : ℤ} (h : IsSpan keys lo hi)
    (f : MinMaxFilter) {cmp : Comparison} (hop : f.op.comparison = some cmp) :
    segmentPassesMinmaxFilter f lo hi = true ↔ cmp.Possible keys f.constI64 := by
  have hne := IsSpan.possible_ne_iff h f.constI64
  have hlt := h.exists_lt_iff f.constI64
  have hle := h.exists_le_iff f.constI64
  have hgt := h.exists_gt_iff f.constI64
  have hge := h.exists_ge_iff f.constI64
  simp only [Comparison.Possible] at hne
  unfold segmentPassesMinmaxFilter
  cases hcase : f.op <;> rw [hcase] at hop <;> cases hop <;>
    simp only [Comparison.Possible, hne, hlt, hle, hgt, hge, Bool.and_eq_true,
      Bool.not_eq_true', Bool.and_eq_false_iff, decide_eq_true_eq, decide_eq_false_iff_not]
  -- only `<>` is not yet in the form of the goal
  exact not_and_or.symm

theorem segmentPassesMinmaxFilter_inList_iff {keys : List ℤ} {lo hi : ℤ}
    (h : IsSpan keys lo hi) (f : MinMaxFilter) (hop : f.op = .inList) {values : List ℤ}
    (hlist : f.inListI64 = some values) :
    segmentPassesMinmaxFilter f lo hi = true ↔ ∃ c ∈ values, Comparison.eq.Possible keys c := by
  unfold segmentPassesMinmaxFilter
  simp only [hop, hlist, List.any_eq_true, Bool.and_eq_true, decide_eq_true_eq,
    Comparison.Possible, h.exists_le_iff, h.exists_ge_iff, ge_iff_le]

private theorem ite_eq_some_true_iff (p q : Prop) [Decidable p] [Decidable q] :
    (if p then some true else if q then some false else none) = some true ↔ p := by
  split <;> simp_all

private theorem ite_eq_some_false_iff (p q : Prop) [Decidable p] [Decidable q] :
    (if p then some true else if q then some false else none) = some false ↔ ¬p ∧ q := by
  split <;> simp_all

/-- `Some(false)` is given exactly where the filter would drop the segment, and
`Some(true)` exactly where the filter for the complement would. -/
theorem decideBySpan_iff {keys : List ℤ} {lo hi : ℤ} (h : IsSpan keys lo hi) (c : ℤ)
    {op : BatchCompareOp} {cmp : Comparison} (hop : op.comparison = some cmp) :
    (decideBySpan op lo hi c = some true ↔ ¬ cmp.complement.Possible keys c) ∧
      (decideBySpan op lo hi c = some false ↔ ¬ cmp.Possible keys c) := by
  have hlohi : lo ≤ hi := h.lo_le hi h.hi_mem
  have hne := IsSpan.possible_ne_iff h c
  have hlt := h.exists_lt_iff c
  have hle := h.exists_le_iff c
  have hgt := h.exists_gt_iff c
  have hge := h.exists_ge_iff c
  simp only [Comparison.Possible] at hne
  cases op <;> cases hop <;>
    simp only [decideBySpan, Comparison.complement, Comparison.Possible, hne, hlt, hle, hgt,
      hge, ite_eq_some_true_iff, ite_eq_some_false_iff] <;>
    (clear hne hlt hle hgt hge; omega)

theorem segmentAllRowsPass_of_some {typeOid : TypeOid} {constDatum : Datum} {c : ℤ}
    (hc : encodeDatumToI64 constDatum typeOid = some c) (lo hi : ℤ) (op : BatchCompareOp) :
    segmentAllRowsPass (.ofStored (some lo, some hi) typeOid) op constDatum =
      decideBySpan op lo hi c := by
  simp [segmentAllRowsPass, ColMinMax.ofStored, hc]

theorem segmentAllRowsPass_of_null (typeOid : TypeOid) (op : BatchCompareOp)
    (constDatum : Datum) :
    segmentAllRowsPass (.ofStored (none, none) typeOid) op constDatum = none := by
  simp [segmentAllRowsPass, ColMinMax.ofStored]

theorem rowPassesFilter_of_null (f : MinMaxFilter) (typeOid : TypeOid) :
    rowPassesFilter f (.ofStored (none, none) typeOid) = true := by
  simp [rowPassesFilter, ColMinMax.ofStored]

theorem rowPassesFilter_of_some (f : MinMaxFilter) (lo hi : ℤ) (typeOid : TypeOid) :
    rowPassesFilter f (.ofStored (some lo, some hi) typeOid) =
      segmentPassesMinmaxFilter f lo hi := by
  simp [rowPassesFilter, ColMinMax.ofStored]

end DeltaX.Scan.MinMax
