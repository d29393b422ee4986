import DeltaX.Scan.WhereGate
import DeltaX.Support.SameSide
import Mathlib.Data.Int.ConditionallyCompleteOrder
/-!
# Batch quals on a column

The filter of a batch qual as it runs over a column of words and NULLs, against the comparison
of SQL.  PostgreSQL compares a column with a constant of another type of its family through an
operator of their own; the filter reads the word of the constant as if it were of the column's
type.
-/

namespace DeltaX.Scan.BatchComparison

open Column MinMax Support.KeySpan Support.IeeeOrder

/-! ## What SQL compares -/

/-- Places in a family of types: NaN and `infinity` are the top one. -/
abbrev Place : Type := WithBot (WithTop ℤ)

def Place.of (n : ℤ) : Place := ((n : WithTop ℤ) : WithBot (WithTop ℤ))

/-- The order of the `float8` that a `float4` is converted to. -/
def widen (n : ℤ) : ℤ :=
  if (scaled 23 binary32.infinity : ℤ) ≤ n then scaled 52 binary64.infinity
  else if n ≤ -(scaled 23 binary32.infinity : ℤ) then -(scaled 52 binary64.infinity : ℤ)
  else n * 2 ^ 925

def usecPerDay : ℤ := 86400000000

/-- A date, a local time or an instant: microseconds, or an infinity. -/
def instant (least greatest unit n : ℤ) : Place :=
  if n = greatest then ⊤ else if n = least then ⊥ else Place.of (n * unit)

/-- The place of a word among the values of its family. -/
def place (ty : TypeOid) (d : Datum) : Place :=
  match ty with
  | .float4 => ((rank binary32 (d.setWidth 32)).map widen : WithTop ℤ)
  | .date => instant (-2 ^ 31) (2 ^ 31 - 1) usecPerDay (d.setWidth 32).toInt
  | .timestamp | .timestamptz => instant (-2 ^ 63) (2 ^ 63 - 1) 1 d.toInt
  | ty => sqlKey ty d

def isLocalTime : TypeOid → Bool
  | .date | .timestamp => true
  | _ => false

/-- A local time beside a `timestamptz` is one of the session's time zone. -/
def sqlPlace (zone : ℤ → ℤ) (other ty : TypeOid) (d : Datum) : Place :=
  if isLocalTime ty ∧ other = .timestamptz then (place ty d).map (WithTop.map zone) else place ty d

def comparable (ty cty : TypeOid) : Bool :=
  (isInteger ty && isInteger cty) || (isFloatType ty && isFloatType cty) ||
    (isDateTime ty && isDateTime cty) || (decide (ty = .bool) && decide (cty = .bool))

/-- A comparison of a column with constants, as it stands in a qual list. -/
inductive ColumnFilter
  | compare (cmp : Comparison) (varOnLeft : Bool) (cty : TypeOid) (word : Datum)
  | inList (ety : TypeOid) (words : List Datum)
deriving DecidableEq, Repr

def opName : Comparison → OpName
  | .eq => .eq
  | .ne => .ne
  | .lt => .lt
  | .le => .le
  | .gt => .gt
  | .ge => .ge

def ColumnFilter.node (attno : ℤ) (ty : TypeOid) : ColumnFilter → QualNode
  | .compare cmp varOnLeft cty word =>
      .opExpr (opName cmp)
        (if varOnLeft then [.var attno ty, .const ⟨cty, some (.datum word)⟩]
          else [.const ⟨cty, some (.datum word)⟩, .var attno ty])
  | .inList ety words =>
      .scalarArrayOp true .eq
        [.var attno ty, .const ⟨ety, some (.array 1 (words.map fun w => some (.datum w)))⟩]

def ColumnFilter.Paired (ty : TypeOid) : ColumnFilter → Prop
  | .compare _ _ cty _ => comparable ty cty = true
  | .inList ety words => isNumericIn ty = true ∧ comparable ty ety = true ∧ words ≠ []

/-- The comparison is true of a value that is not NULL. -/
def ColumnFilter.Holds (zone : ℤ → ℤ) (ty : TypeOid) (v : Datum) : ColumnFilter → Prop
  | .compare cmp true cty word => cmp.Holds (sqlPlace zone cty ty v) (sqlPlace zone ty cty word)
  | .compare cmp false cty word => cmp.Holds (sqlPlace zone ty cty word) (sqlPlace zone cty ty v)
  | .inList ety words => ∃ word ∈ words, sqlPlace zone ety ty v = sqlPlace zone ty ety word

instance (zone : ℤ → ℤ) (ty : TypeOid) (v : Datum) :
    (filter : ColumnFilter) → Decidable (filter.Holds zone ty v)
  | .compare _ true _ _ => inferInstanceAs (Decidable (Comparison.Holds _ _ _))
  | .compare _ false _ _ => inferInstanceAs (Decidable (Comparison.Holds _ _ _))
  | .inList _ _ => inferInstanceAs (Decidable (∃ _ ∈ _, _))

/-- The filter keeps exactly the rows of the column for which the comparison is true. -/
def FiltersAsSql (zone : ℤ → ℤ) (cols : ParentColumnLayout) (attno : ℤ) (ty : TypeOid)
    (filter : ColumnFilter) (currentSegment : List (List (Datum × Bool)))
    (col : List (Datum × Bool)) : Prop :=
  ∀ q, extractNode cols (filter.node attno ty) = some q → currentSegment[q.colIdx]? = some col →
    evaluateBatchQuals currentSegment col.length [q] [] =
      some (col.map fun cell => !cell.2 && decide (filter.Holds zone ty cell.1))

/-! ## When a row is judged right -/

/-- What the session's time zone adds to a local time. -/
def zoneOffset (zone : ℤ → ℤ) : Place → ℤ
  | ((n : ℤ) : WithTop ℤ) => zone n - n
  | _ => 0

/-- The constant where the column's values are: beside local times a `timestamptz` is the local
time with the offset of the value. -/
def constantPlace (zone : ℤ → ℤ) (ty cty : TypeOid) (v word : Datum) : Place :=
  if isLocalTime ty ∧ cty = .timestamptz then
    (place cty word).map (WithTop.map fun n => n - zoneOffset zone (place ty v))
  else sqlPlace zone ty cty word

def leftward (cmp : Comparison) (varOnLeft : Bool) : Comparison :=
  if varOnLeft then cmp else cmp.flip

/-- The value does not lie between the constant and the constant's word read at the column's type,
or the two differ in the same way as the comparison at that type differs from PostgreSQL's.  A list
has an element that is read as the value exactly when one is equal to it. -/
def RowExact (zone : ℤ → ℤ) (ty : TypeOid) (v : Datum) : ColumnFilter → Prop
  | .compare cmp varOnLeft cty word =>
      WordExact ty (leftward cmp varOnLeft) v word ↔
        (leftward cmp varOnLeft).SameSide (constantPlace zone ty cty v word) (place ty word)
          (place ty v)
  | .inList ety words =>
      (∃ word ∈ words, place ty word = place ty v) ↔
        ∃ word ∈ words, constantPlace zone ty ety v word = place ty v

/-! ## Places -/

theorem holds_coe_place (cmp : Comparison) (a b : WithTop ℤ) :
    cmp.Holds (a : Place) (b : Place) ↔ cmp.Holds a b :=
  Comparison.holds_congr WithBot.coe_lt_coe WithBot.coe_lt_coe cmp

theorem instant_lt {least greatest unit n m : ℤ} (hunit : 0 < unit) (hn : least ≤ n)
    (hm : m ≤ greatest) (hlt : n < m) :
    instant least greatest unit n < instant least greatest unit m := by
  have hmul : n * unit < m * unit := Int.mul_lt_mul_of_pos_right hlt hunit
  have hof : Place.of (n * unit) < Place.of (m * unit) :=
    WithBot.coe_lt_coe.mpr (WithTop.coe_lt_coe.mpr hmul)
  unfold instant
  rw [if_neg (show n ≠ greatest by omega), if_neg (show m ≠ least by omega)]
  by_cases hbot : n = least
  · rw [if_pos hbot]
    by_cases htop : m = greatest
    · rw [if_pos htop]
      exact bot_lt_top
    · rw [if_neg htop]
      exact WithBot.bot_lt_coe _
  · rw [if_neg hbot]
    by_cases htop : m = greatest
    · rw [if_pos htop]
      exact WithBot.coe_lt_coe.mpr (WithTop.coe_lt_top _)
    · rw [if_neg htop]
      exact hof

theorem instant_lt_iff {least greatest unit n m : ℤ} (hunit : 0 < unit) (hn : least ≤ n)
    (hn' : n ≤ greatest) (hm : least ≤ m) (hm' : m ≤ greatest) :
    instant least greatest unit n < instant least greatest unit m ↔ n < m := by
  apply lt_iff_lt_of_imp (instant_lt hunit hn hm') _ (instant_lt hunit hm hn')
  rintro rfl
  rfl

theorem holds_instant {least greatest unit n m : ℤ} (hunit : 0 < unit) (hn : least ≤ n)
    (hn' : n ≤ greatest) (hm : least ≤ m) (hm' : m ≤ greatest) (cmp : Comparison) :
    cmp.Holds (instant least greatest unit n) (instant least greatest unit m) ↔ cmp.Holds n m :=
  Comparison.holds_congr (instant_lt_iff hunit hn hn' hm hm') (instant_lt_iff hunit hm hm' hn hn') cmp

/-- The greatest order of a `float4` that is not a NaN. -/
def topOrder : ℤ := scaled 23 binary32.infinity

theorem topOrder_pos : 0 < topOrder := by decide

theorem widen_topOrder_le : topOrder * 2 ^ 925 ≤ (scaled 52 binary64.infinity : ℤ) := by
  decide +kernel

theorem widen_lt {n m : ℤ} (hn : -topOrder ≤ n) (hm : m ≤ topOrder) (hlt : n < m) :
    widen n < widen m := by
  have htop := widen_topOrder_le
  have hpos := topOrder_pos
  have hunit : (0 : ℤ) < 2 ^ 925 := by positivity
  have hscale : ∀ {a b : ℤ}, a < b → a * 2 ^ 925 < b * 2 ^ 925 := fun h =>
    Int.mul_lt_mul_of_pos_right h hunit
  unfold widen
  rw [show (scaled 23 binary32.infinity : ℤ) = topOrder from rfl]
  generalize (scaled 52 binary64.infinity : ℤ) = top at htop ⊢
  generalize (2 : ℤ) ^ 925 = unit at *
  rw [if_neg (show ¬ topOrder ≤ n by omega), if_neg (show ¬ m ≤ -topOrder by omega)]
  have hlow : -(topOrder * unit) = -topOrder * unit := by ring
  by_cases hbot : n ≤ -topOrder
  · rw [if_pos hbot]
    by_cases hmax : topOrder ≤ m
    · rw [if_pos hmax]
      have := hscale hpos
      omega
    · rw [if_neg hmax]
      have := hscale (show -topOrder < m by omega)
      omega
  · rw [if_neg hbot]
    by_cases hmax : topOrder ≤ m
    · rw [if_pos hmax]
      have := hscale (show n < topOrder by omega)
      omega
    · rw [if_neg hmax]
      exact hscale hlt

theorem rank_mem {v : Pattern binary32} (h : isNan binary32 v = false) :
    ∃ n : ℤ, rank binary32 v = (n : WithTop ℤ) ∧ -topOrder ≤ n ∧ n ≤ topOrder := by
  have hle : (scaled 23 (magnitude v) : ℤ) ≤ topOrder := by
    unfold topOrder
    exact_mod_cast (scaled_strictMono 23).monotone (magnitude_le_of_not_isNan h)
  have hpos : (0 : ℤ) ≤ scaled 23 (magnitude v) := Int.natCast_nonneg _
  refine ⟨signedScaled binary32 v, rank_of_not_isNan h, ?_⟩
  unfold signedScaled
  split
  · exact ⟨Int.neg_le_neg hle, by have := topOrder_pos; omega⟩
  · exact ⟨by have := topOrder_pos; omega, hle⟩

theorem widen_rank_lt {v c : Pattern binary32} (h : rank binary32 v < rank binary32 c) :
    (rank binary32 v).map widen < (rank binary32 c).map widen := by
  cases hv : isNan binary32 v with
  | true =>
      rw [rank_of_isNan hv] at h
      exact absurd h not_top_lt
  | false =>
      obtain ⟨n, hn, hlow, -⟩ := rank_mem hv
      rw [hn, WithTop.map_coe]
      cases hc : isNan binary32 c with
      | true =>
          rw [rank_of_isNan hc, WithTop.map_top]
          exact WithTop.coe_lt_top _
      | false =>
          obtain ⟨m, hm, -, hhigh⟩ := rank_mem hc
          rw [hn, hm, WithTop.coe_lt_coe] at h
          rw [hm, WithTop.map_coe, WithTop.coe_lt_coe]
          exact widen_lt hlow hhigh h

theorem widen_rank_lt_iff (v c : Pattern binary32) :
    (rank binary32 v).map widen < (rank binary32 c).map widen ↔
      rank binary32 v < rank binary32 c :=
  lt_iff_lt_of_imp widen_rank_lt (fun h => congrArg (WithTop.map widen) h) widen_rank_lt

/-! ## Constants of the column's type -/

theorem toInt_mem (w : ℕ) (x : BitVec (w + 1)) : -2 ^ w ≤ x.toInt ∧ x.toInt ≤ 2 ^ w - 1 := by
  have hlow := BitVec.le_toInt x
  have hhigh := BitVec.toInt_lt (x := x)
  rw [Nat.add_sub_cancel] at hlow hhigh
  exact ⟨hlow, Int.le_sub_one_of_lt hhigh⟩

/-- On integers, dates and times the filter compares places. -/
theorem applyBatchFilter_iff_place {ty : TypeOid} (hty : isNumericIn ty = true) (cmp : Comparison)
    (word v : Datum) :
    applyBatchFilter ty cmp word v = true ↔ cmp.Holds (place ty v) (place ty word) := by
  cases ty with
  | int2 | int4 | int8 =>
      simp only [applyBatchFilter, place, sqlKey, holds_coe_place, holds_coe, decide_eq_true_eq]
  | date =>
      have hv := toInt_mem 31 (v.setWidth 32)
      have hword := toInt_mem 31 (word.setWidth 32)
      simp only [applyBatchFilter, place, decide_eq_true_eq]
      exact (holds_instant (by decide) hv.1 hv.2 hword.1 hword.2 cmp).symm
  | timestamp | timestamptz =>
      have hv := toInt_mem 63 v
      have hword := toInt_mem 63 word
      simp only [applyBatchFilter, place, decide_eq_true_eq]
      exact (holds_instant (by decide) hv.1 hv.2 hword.1 hword.2 cmp).symm
  | float4 | float8 | bool | time | text | varchar | bpchar | other => cases hty

/-- With a constant of the column's type, what the filter gets right. -/
theorem applyBatchFilter_iff_wordExact {ty : TypeOid} (hty : isBatchComparableType ty = true)
    (cmp : Comparison) (word v : Datum) :
    (applyBatchFilter ty cmp word v = true ↔ cmp.Holds (place ty v) (place ty word)) ↔
      WordExact ty cmp v word := by
  cases ty with
  | int2 | int4 | int8 | date | timestamp | timestamptz =>
      exact iff_of_true (applyBatchFilter_iff_place rfl cmp word v) trivial
  | float4 =>
      have hplace : cmp.Holds (place .float4 v) (place .float4 word) ↔
          cmp.Holds (rank binary32 (v.setWidth 32)) (rank binary32 (word.setWidth 32)) :=
        (holds_coe_place cmp _ _).trans
          (Comparison.holds_congr (widen_rank_lt_iff _ _) (widen_rank_lt_iff _ _) cmp)
      exact (iff_congr Iff.rfl hplace).trans (ieeeHolds_iff_nanExact cmp _ _)
  | float8 =>
      have hplace : cmp.Holds (place .float8 v) (place .float8 word) ↔
          cmp.Holds (rank binary64 v) (rank binary64 word) := holds_coe_place cmp _ _
      exact (iff_congr Iff.rfl hplace).trans (ieeeHolds_iff_nanExact (f := binary64) cmp v word)
  | bool =>
      have hplace : cmp.Holds (place .bool v) (place .bool word) ↔
          cmp.Holds (sqlKey .bool v) (sqlKey .bool word) := holds_coe_place cmp _ _
      exact (iff_congr Iff.rfl hplace).trans (boolHolds_iff_boolExact cmp v word)
  | time | text | varchar | bpchar | other => cases hty

/-! ## Constants of other types -/

theorem of_lt_of {a b : ℤ} : Place.of a < Place.of b ↔ a < b := by simp [Place.of]

theorem map_top (f : ℤ → ℤ) : (⊤ : Place).map (WithTop.map f) = ⊤ := rfl

theorem map_bot (f : ℤ → ℤ) : (⊥ : Place).map (WithTop.map f) = ⊥ := rfl

theorem map_of (f : ℤ → ℤ) (n : ℤ) : (Place.of n).map (WithTop.map f) = Place.of (f n) := rfl

theorem of_lt_top (n : ℤ) : Place.of n < ⊤ := WithBot.coe_lt_coe.mpr (WithTop.coe_lt_top n)

theorem bot_lt_of (n : ℤ) : ⊥ < Place.of n := WithBot.bot_lt_coe _

theorem place_cases (x : Place) : x = ⊥ ∨ x = ⊤ ∨ ∃ n, x = Place.of n := by
  match x with
  | ⊥ => exact Or.inl rfl
  | ((⊤ : WithTop ℤ) : Place) => exact Or.inr (Or.inl rfl)
  | ((n : ℤ) : WithTop ℤ) => exact Or.inr (Or.inr ⟨n, rfl⟩)

/-- Adding to one side is taking away from the other; the ends stay. -/
theorem map_sub_lt_iff (zone : ℤ → ℤ) (x k : Place) :
    (x.map (WithTop.map zone) < k ↔ x < k.map (WithTop.map fun n => n - zoneOffset zone x)) ∧
      (k < x.map (WithTop.map zone) ↔ k.map (WithTop.map fun n => n - zoneOffset zone x) < x) := by
  rcases place_cases x with rfl | rfl | ⟨n, rfl⟩
  · rcases place_cases k with rfl | rfl | ⟨m, rfl⟩
    · exact ⟨Iff.rfl, Iff.rfl⟩
    · exact ⟨Iff.rfl, Iff.rfl⟩
    · rw [map_bot, map_of]
      exact ⟨iff_of_true (bot_lt_of _) (bot_lt_of _), iff_of_false not_lt_bot not_lt_bot⟩
  · rcases place_cases k with rfl | rfl | ⟨m, rfl⟩
    · exact ⟨Iff.rfl, Iff.rfl⟩
    · exact ⟨Iff.rfl, Iff.rfl⟩
    · rw [map_top, map_of]
      exact ⟨iff_of_false not_top_lt not_top_lt, iff_of_true (of_lt_top _) (of_lt_top _)⟩
  · have hoffset : zoneOffset zone (Place.of n) = zone n - n := rfl
    rw [map_of, hoffset]
    rcases place_cases k with rfl | rfl | ⟨m, rfl⟩
    · rw [map_bot]
      exact ⟨iff_of_false not_lt_bot not_lt_bot, iff_of_true (bot_lt_of _) (bot_lt_of _)⟩
    · rw [map_top]
      exact ⟨iff_of_true (of_lt_top _) (of_lt_top _), iff_of_false not_top_lt not_top_lt⟩
    · rw [map_of, of_lt_of, of_lt_of, of_lt_of, of_lt_of]
      omega

/-- PostgreSQL's comparison is one of the column's value with the place of the constant. -/
theorem holds_sqlPlace_iff (zone : ℤ → ℤ) (ty cty : TypeOid) (cmp : Comparison) (v word : Datum) :
    cmp.Holds (sqlPlace zone cty ty v) (sqlPlace zone ty cty word) ↔
      cmp.Holds (place ty v) (constantPlace zone ty cty v word) := by
  unfold constantPlace
  by_cases hlocal : isLocalTime ty = true ∧ cty = .timestamptz
  · have hword : sqlPlace zone ty cty word = place cty word := by
      unfold sqlPlace
      rw [hlocal.2]
      exact if_neg fun h => absurd h.1 (by decide)
    have hv : sqlPlace zone cty ty v = (place ty v).map (WithTop.map zone) := if_pos hlocal
    obtain ⟨hlt, hgt⟩ := map_sub_lt_iff zone (place ty v) (place cty word)
    rw [if_pos hlocal, hword, hv]
    exact Comparison.holds_congr hlt hgt cmp
  · have hv : sqlPlace zone cty ty v = place ty v := if_neg hlocal
    rw [if_neg hlocal, hv]

/-! ## Rows -/

section rows

variable {ty : TypeOid}

theorem applyBatchFilter_iff_sameSide (hty : isBatchComparableType ty = true) (zone : ℤ → ℤ)
    (cty : TypeOid) (cmp : Comparison) (word v : Datum) :
    (applyBatchFilter ty cmp word v = true ↔
        cmp.Holds (sqlPlace zone cty ty v) (sqlPlace zone ty cty word)) ↔
      (WordExact ty cmp v word ↔
        cmp.SameSide (constantPlace zone ty cty v word) (place ty word) (place ty v)) := by
  rw [holds_sqlPlace_iff, ← applyBatchFilter_iff_wordExact hty, ← Comparison.holds_iff_holds]
  constructor
  · intro h
    rw [h]
  · intro h
    by_cases hword : cmp.Holds (place ty v) (place ty word) <;>
      by_cases hsql : cmp.Holds (place ty v) (constantPlace zone ty cty v word) <;>
      simp_all

theorem sqlKey_eq_iff_place (hty : isNumericIn ty = true) (v word : Datum) :
    sqlKey ty v = sqlKey ty word ↔ place ty word = place ty v := by
  have hcomparable : isBatchComparableType ty = true := by
    cases ty with
    | int2 | int4 | int8 | date | timestamp | timestamptz => rfl
    | float4 | float8 | bool | time | text | varchar | bpchar | other => cases hty
  have hexact : ExactComparison ty .eq word := by
    cases ty with
    | int2 | int4 | int8 | date | timestamp | timestamptz => trivial
    | float4 | float8 | bool | time | text | varchar | bpchar | other => cases hty
  calc sqlKey ty v = sqlKey ty word
      ↔ applyBatchFilter ty .eq word v = true := (applyBatchFilter_iff hcomparable hexact v).symm
    _ ↔ place ty v = place ty word := applyBatchFilter_iff_place hty .eq word v
    _ ↔ place ty word = place ty v := eq_comm

theorem applyBatchFilterInList_iff_place (hty : isNumericIn ty = true) (words : List Datum)
    (v : Datum) :
    applyBatchFilterInList words ty v = true ↔ ∃ word ∈ words, place ty word = place ty v := by
  rw [applyBatchFilterInList_iff hty]
  simp only [sqlKey_eq_iff_place hty]

theorem eq_sqlPlace_iff (zone : ℤ → ℤ) (ty ety : TypeOid) (v word : Datum) :
    sqlPlace zone ety ty v = sqlPlace zone ty ety word ↔
      constantPlace zone ty ety v word = place ty v :=
  (holds_sqlPlace_iff zone ty ety .eq v word).trans eq_comm

def ColumnFilter.accepts (ty : TypeOid) (v : Datum) : ColumnFilter → Bool
  | .compare cmp varOnLeft _ word => applyBatchFilter ty (leftward cmp varOnLeft) word v
  | .inList _ words => applyBatchFilterInList words ty v

/-- A value is judged right exactly where the row is as said. -/
theorem accepts_iff_holds (hty : isBatchComparableType ty = true) {filter : ColumnFilter}
    (hpaired : filter.Paired ty) (zone : ℤ → ℤ) (v : Datum) :
    (filter.accepts ty v = true ↔ filter.Holds zone ty v) ↔ RowExact zone ty v filter := by
  cases filter with
  | compare cmp varOnLeft cty word =>
      have hflip : ColumnFilter.Holds zone ty v (.compare cmp varOnLeft cty word) ↔
          (leftward cmp varOnLeft).Holds (sqlPlace zone cty ty v) (sqlPlace zone ty cty word) := by
        cases varOnLeft with
        | true => exact Iff.rfl
        | false => exact (Comparison.holds_flip cmp _ _).symm
      rw [hflip]
      exact applyBatchFilter_iff_sameSide hty zone cty _ word v
  | inList ety words =>
      have hsql : ColumnFilter.Holds zone ty v (.inList ety words) ↔
          ∃ word ∈ words, constantPlace zone ty ety v word = place ty v := by
        simp only [ColumnFilter.Holds, eq_sqlPlace_iff]
      rw [hsql, ColumnFilter.accepts, applyBatchFilterInList_iff_place hpaired.1]
      exact Iff.rfl

end rows

/-! ## Columns -/

theorem evaluateBatchQuals_singleton {currentSegment : List (List (Datum × Bool))} {q : PlanQual}
    {col : List (Datum × Bool)} {accepts : Datum → Bool} (hcol : currentSegment[q.colIdx]? = some col)
    (hfilter : batchFilter q = some fun d => some (accepts d)) :
    evaluateBatchQuals currentSegment col.length [q] [] =
      some (col.map fun cell => !cell.2 && accepts cell.1) := by
  have hall : List.zipWith (fun s cell => s && (!cell.2 && accepts cell.1))
      (List.replicate col.length true) col = col.map fun cell => !cell.2 && accepts cell.1 := by
    rw [← List.map_const', List.zipWith_map_left, List.zipWith_self]
    rfl
  have hqual : applyQual currentSegment (List.replicate col.length true) q =
      some (col.map fun cell => !cell.2 && accepts cell.1) := by
    rw [applyQual, hcol]
    show (if col = [] then _ else _) = _
    by_cases hempty : col = []
    · rw [if_pos hempty, hempty]
      rfl
    · rw [if_neg hempty, hfilter, ← hall]
      exact applyBatchFilterTyped_eq accepts List.length_replicate.symm
  rw [evaluateBatchQuals, if_neg (by simp), if_pos rfl, List.foldlM_cons, hqual]
  rfl

section columns

variable {cols : ParentColumnLayout} {attno : ℤ} {ty : TypeOid} {ci : ℕ} {filter : ColumnFilter}

def ColumnFilter.qual (ci : ℕ) (ty : TypeOid) : ColumnFilter → PlanQual
  | .compare cmp varOnLeft _ word =>
      { PlanQual.ofColumn ci ty with op := compareOp (leftward cmp varOnLeft), constDatum := word }
  | .inList _ words =>
      { PlanQual.ofColumn ci ty with op := .inList, inListI64 := some words }

theorem comparisonQual_compareOp (hty : isBatchComparableType ty = true) (cmp : Comparison)
    (cty : TypeOid) (word : Datum) (varOnLeft : Bool) :
    comparisonQual ci ty (compareOp cmp) (.datum word) varOnLeft =
      some ((ColumnFilter.compare cmp varOnLeft cty word).qual ci ty) := by
  have htext : ¬ (ty = .text ∨ ty = .varchar) := by
    rintro (rfl | rfl) <;> cases hty
  have hlike : ¬ (compareOp cmp = .like ∨ compareOp cmp = .notLike) := by cases cmp <;> decide
  have hop : (if varOnLeft then compareOp cmp else flipCompareOp (compareOp cmp)) =
      compareOp (leftward cmp varOnLeft) := by
    cases varOnLeft <;> cases cmp <;> rfl
  rw [comparisonQual, if_neg hlike, if_neg fun h => htext h.1, if_pos hty, hop]
  rfl

theorem mapM_some_datum (words : List Datum) :
    (words.map fun w => some (ElemValue.datum w)).mapM (fun e => e.bind ElemValue.asDatum) =
      some words := by
  induction words with
  | nil => rfl
  | cons w words ih =>
      rw [List.map_cons, List.mapM_cons, ih]
      rfl

theorem extractNode_node (hpos : varPosition cols attno = some ci) (hci : cols.typeAt ci = ty)
    (hty : isBatchComparableType ty = true) (hpaired : filter.Paired ty) :
    extractNode cols (filter.node attno ty) = some (filter.qual ci ty) := by
  cases filter with
  | compare cmp varOnLeft cty word =>
      have hop : recognizedOp (opName cmp) = some (compareOp cmp) := by cases cmp <;> rfl
      have hqual : (varPosition cols attno).bind (fun ci =>
          comparisonQual ci (cols.typeAt ci) (compareOp cmp) (.datum word) varOnLeft) =
            some ((ColumnFilter.compare cmp varOnLeft cty word).qual ci ty) := by
        rw [hpos, Option.bind_some, hci]
        exact comparisonQual_compareOp hty cmp cty word varOnLeft
      cases varOnLeft with
      | true =>
          have hnode : (ColumnFilter.compare cmp true cty word).node attno ty =
              .opExpr (opName cmp) [.var attno ty, .const ⟨cty, some (.datum word)⟩] := rfl
          rw [hnode, extractNode, extractComparison, hop]
          exact hqual
      | false =>
          have hnode : (ColumnFilter.compare cmp false cty word).node attno ty =
              .opExpr (opName cmp) [.const ⟨cty, some (.datum word)⟩, .var attno ty] := rfl
          rw [hnode, extractNode, extractComparison, hop]
          exact hqual
  | inList ety words =>
      obtain ⟨hnumeric, -, hne⟩ := hpaired
      have helems : ¬ ((1 : ℕ) ≠ 1 ∨ (words.map fun w => some (ElemValue.datum w)) = []) := by
        simp [hne]
      show (varPosition cols attno).bind _ = _
      rw [hpos, Option.bind_some]
      show (if _ then _ else if isNumericIn (cols.typeAt ci) then _ else _) = _
      rw [hci, if_neg helems, if_pos hnumeric, mapM_some_datum]
      rfl

theorem batchFilter_qual (hty : isBatchComparableType ty = true) (hpaired : filter.Paired ty) :
    batchFilter (filter.qual ci ty) = some fun v => some (filter.accepts ty v) := by
  cases filter with
  | compare cmp varOnLeft cty word =>
      have hqual : ∀ c : Comparison, batchFilter { PlanQual.ofColumn ci ty with
            op := compareOp c, constDatum := word } =
          if isBatchComparableType ty then some fun v => some (applyBatchFilter ty c word v)
          else none := by
        intro c
        cases c <;> rfl
      exact (hqual _).trans (if_pos hty)
  | inList ety words =>
      show (if isNumericIn ty then _ else _) = _
      rw [if_pos hpaired.1]
      rfl

/-- Exactly the columns whose values are judged right are filtered as in SQL. -/
theorem filtersAsSql_iff (zone : ℤ → ℤ) (hpos : varPosition cols attno = some ci)
    (hci : cols.typeAt ci = ty) (hty : isBatchComparableType ty = true)
    (hpaired : filter.Paired ty) {currentSegment : List (List (Datum × Bool))}
    {col : List (Datum × Bool)} (hcol : currentSegment[ci]? = some col) :
    FiltersAsSql zone cols attno ty filter currentSegment col ↔
      ∀ v, (v, false) ∈ col → RowExact zone ty v filter := by
  have hq := extractNode_node hpos hci hty hpaired
  have hindex : (filter.qual ci ty).colIdx = ci := by cases filter <;> rfl
  rw [← hindex] at hcol
  have hrun := evaluateBatchQuals_singleton hcol (batchFilter_qual hty hpaired)
  have hrows : FiltersAsSql zone cols attno ty filter currentSegment col ↔
      ∀ cell ∈ col, (!cell.2 && filter.accepts ty cell.1) =
        (!cell.2 && decide (filter.Holds zone ty cell.1)) := by
    constructor
    · intro h
      have heq := h _ hq hcol
      rw [hrun, Option.some.injEq] at heq
      exact List.map_inj_left.mp heq
    · intro h q' hq' _
      obtain rfl : filter.qual ci ty = q' := Option.some.inj (hq.symm.trans hq')
      rw [hrun, List.map_inj_left.mpr h]
  rw [hrows]
  constructor
  · intro h v hv
    have hcell : filter.accepts ty v = decide (filter.Holds zone ty v) := h (v, false) hv
    rw [← accepts_iff_holds hty hpaired, hcell, decide_eq_true_iff]
  · rintro h ⟨v, isNull⟩ hcell
    cases isNull with
    | true => rfl
    | false =>
        have hv := (accepts_iff_holds hty hpaired zone v).mpr (h v hcell)
        show filter.accepts ty v = decide (filter.Holds zone ty v)
        rw [Bool.eq_iff_iff, hv, decide_eq_true_iff]

end columns

/-! ## A bigint constant beside an integer column -/

/-- `x < 5000000000`; as an `int4` the word of the constant is 705032704. -/
def belowFiveBillion : ColumnFilter := .compare .lt true .int8 5000000000

def eventLayout : ParentColumnLayout := ⟨["ts".toList, "x".toList], [.timestamptz, .int4]⟩

/-- Small numbers are filtered right. -/
theorem filtersAsSql_small_numbers :
    FiltersAsSql id eventLayout 2 .int4 belowFiveBillion [[], [(7, false), (0, true)]]
        [(7, false), (0, true)] ↔
      ∀ v, (v, false) ∈ [((7 : Datum), false), (0, true)] → RowExact id .int4 v belowFiveBillion :=
  filtersAsSql_iff id (show varPosition eventLayout 2 = some 1 by decide)
    (show eventLayout.typeAt 1 = .int4 by decide) rfl (show belowFiveBillion.Paired .int4 from rfl)
    rfl

/-- Two billion is below five billion, and its row is lost. -/
theorem batch_filter_loses_row :
    ¬ ∀ (zone : ℤ → ℤ) (cols : ParentColumnLayout) (attno : ℤ) (ty : TypeOid) (ci : ℕ)
      (filter : ColumnFilter) (currentSegment : List (List (Datum × Bool)))
      (col : List (Datum × Bool)), varPosition cols attno = some ci → cols.typeAt ci = ty →
      isBatchComparableType ty = true → filter.Paired ty → currentSegment[ci]? = some col →
      FiltersAsSql zone cols attno ty filter currentSegment col := by
  intro hall
  have hfilters := hall id eventLayout 2 .int4 1 belowFiveBillion [[], [(2000000000, false)]]
    [(2000000000, false)] (by decide) (by decide) rfl rfl rfl
  have hrun := hfilters (belowFiveBillion.qual 1 .int4) rfl rfl
  have hlost : evaluateBatchQuals [[], [(2000000000, false)]] 1
      [belowFiveBillion.qual 1 .int4] [] = some [false] := by decide
  have hkept : ([((2000000000 : Datum), false)].map fun cell =>
      !cell.2 && decide (belowFiveBillion.Holds id .int4 cell.1)) = [true] := by decide
  have heq : some [false] = some [true] := hlost.symm.trans (hrun.trans (congrArg some hkept))
  exact absurd heq (by decide)

end DeltaX.Scan.BatchComparison
