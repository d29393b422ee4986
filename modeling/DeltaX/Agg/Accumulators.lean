import DeltaX.Agg.GroupKeys
import DeltaX.Support.KeyedMerge
import Mathlib.Algebra.Group.Pi.Basic
import Mathlib.Algebra.Group.Prod
import Mathlib.Algebra.Order.Ring.Int
import Mathlib.Algebra.Ring.Rat
import Mathlib.Data.Finset.Card
import Mathlib.Data.Finset.Lattice.Lemmas
import Mathlib.Data.Fintype.Basic
/-!
# Compact accumulators

The accumulators a worker of the compact path keeps for one group, their merge
and their finalization.  A slot's value has the type its kind calls for, so
that the accumulators of a group are a commutative monoid under merge.  Counts,
sums and shifted instants do not overflow, and float sums are exact rationals.
-/

namespace DeltaX.Agg

open Column

/-! ## Aggregates -/

inductive AggType
  | sum | count | countStar | avg | countDistinct | min | max
deriving DecidableEq, Repr

/-- The argument of an aggregate: a column, its length, or the column plus a
constant. -/
inductive AggExpr
  | column | lengthOf | addConst
deriving DecidableEq, Repr

/-- What finalization does to a MIN or MAX: nothing, or the shift of
`min(timestamptz + interval)`. -/
inductive OutputTransform
  | none
  | pgUsShift (delta : ℤ)
deriving DecidableEq, Repr

/-- `AggExecSpec`; `colIdx` is -1 for `COUNT(*)`. -/
structure AggExecSpec where
  aggType : AggType
  colIdx : ℤ
  colTypeOid : TypeOid
  exprKind : AggExpr
  constOffset : ℤ
  outputTransform : OutputTransform
deriving DecidableEq, Repr

/-- Kinds of accumulator slots.  String slots never reach the compact workers:
the path is only taken when every needed column is numeric. -/
inductive CompactAccKind
  | count
  | sumInt | sumIntNarrow | sumFloat
  | minInt | maxInt
  | countDistinctInt
deriving DecidableEq, Repr

def compactAccKind (spec : AggExecSpec) : Option CompactAccKind :=
  match spec.aggType with
  | .countStar | .count => some .count
  | .sum | .avg =>
      match spec.colTypeOid with
      | .float4 | .float8 => some .sumFloat
      | .int2 | .int4 => some .sumIntNarrow
      | .int8 => some .sumInt
      | _ => none
  | .min =>
      match spec.colTypeOid with
      | .int2 | .int4 | .int8 | .date | .timestamp | .timestamptz => some .minInt
      | _ => none
  | .max =>
      match spec.colTypeOid with
      | .int2 | .int4 | .int8 | .date | .timestamp | .timestamptz => some .maxInt
      | _ => none
  | .countDistinct =>
      match spec.colTypeOid with
      | .int2 | .int4 | .int8 => some .countDistinctInt
      | _ => none

/-- The column type each kind of slot belongs to, with the aggregates that use it. -/
def CompactAccKind.Fits (spec : AggExecSpec) : CompactAccKind → Prop
  | .count => spec.aggType = .countStar ∨ spec.aggType = .count
  | .sumInt => (spec.aggType = .sum ∨ spec.aggType = .avg) ∧ spec.colTypeOid = .int8
  | .sumIntNarrow =>
      (spec.aggType = .sum ∨ spec.aggType = .avg) ∧
        (spec.colTypeOid = .int2 ∨ spec.colTypeOid = .int4)
  | .sumFloat =>
      (spec.aggType = .sum ∨ spec.aggType = .avg) ∧
        (spec.colTypeOid = .float4 ∨ spec.colTypeOid = .float8)
  | .minInt => spec.aggType = .min
  | .maxInt => spec.aggType = .max
  | .countDistinctInt => spec.aggType = .countDistinct

theorem fits_of_compactAccKind {spec : AggExecSpec} {k : CompactAccKind}
    (h : compactAccKind spec = some k) : k.Fits spec := by
  unfold compactAccKind at h
  split at h <;> (try split at h) <;> cases h <;> simp_all [CompactAccKind.Fits]

structure CompactSpec extends AggExecSpec where
  kind : CompactAccKind
  kind_eq : compactAccKind toAggExecSpec = some kind
deriving DecidableEq

/-- No slot adds floats, so sums do not depend on the order of the additions. -/
def ExactSums (specs : List CompactSpec) : Prop := ∀ spec ∈ specs, spec.kind ≠ .sumFloat

/-! ## Slots -/

/-- A `MinInt` slot: the value, once there is one. -/
structure MinAcc where
  val : Option ℤ
deriving DecidableEq, Repr

/-- A `MaxInt` slot. -/
structure MaxAcc where
  val : Option ℤ
deriving DecidableEq, Repr

/-- A group's values in the count-distinct side car. -/
structure DistinctAcc where
  seen : Finset ℤ
deriving DecidableEq

/-- The value of a slot; sums come with the number of values added. -/
abbrev Acc : CompactAccKind → Type
  | .count => ℕ
  | .sumInt | .sumIntNarrow => ℤ × ℕ
  | .sumFloat => ℚ × ℕ
  | .minInt => MinAcc
  | .maxInt => MaxAcc
  | .countDistinctInt => DistinctAcc

/-- `update_min_int` from a slot that may hold nothing. -/
def MinAcc.merge (dst src : MinAcc) : MinAcc :=
  match dst.val, src.val with
  | held, none => ⟨held⟩
  | none, some v => ⟨some v⟩
  | some held, some v => ⟨some (if v < held then v else held)⟩

/-- `update_max_int` from a slot that may hold nothing. -/
def MaxAcc.merge (dst src : MaxAcc) : MaxAcc :=
  match dst.val, src.val with
  | held, none => ⟨held⟩
  | none, some v => ⟨some v⟩
  | some held, some v => ⟨some (if v > held then v else held)⟩

instance : Add MinAcc := ⟨MinAcc.merge⟩

instance : Zero MinAcc := ⟨⟨none⟩⟩

instance : AddCommMonoid MinAcc where
  add_assoc := by
    rintro ⟨_ | a⟩ ⟨_ | b⟩ ⟨_ | c⟩ <;> try rfl
    show MinAcc.merge (MinAcc.merge _ _) _ = MinAcc.merge _ (MinAcc.merge _ _)
    simp only [MinAcc.merge, MinAcc.mk.injEq, Option.some.injEq]
    grind
  zero_add := by rintro ⟨_ | a⟩ <;> rfl
  add_zero := by rintro ⟨_ | a⟩ <;> rfl
  add_comm := by
    rintro ⟨_ | a⟩ ⟨_ | b⟩ <;> try rfl
    show MinAcc.merge _ _ = MinAcc.merge _ _
    simp only [MinAcc.merge, MinAcc.mk.injEq, Option.some.injEq]
    grind
  nsmul := nsmulRec

instance : Add MaxAcc := ⟨MaxAcc.merge⟩

instance : Zero MaxAcc := ⟨⟨none⟩⟩

instance : AddCommMonoid MaxAcc where
  add_assoc := by
    rintro ⟨_ | a⟩ ⟨_ | b⟩ ⟨_ | c⟩ <;> try rfl
    show MaxAcc.merge (MaxAcc.merge _ _) _ = MaxAcc.merge _ (MaxAcc.merge _ _)
    simp only [MaxAcc.merge, MaxAcc.mk.injEq, Option.some.injEq]
    grind
  zero_add := by rintro ⟨_ | a⟩ <;> rfl
  add_zero := by rintro ⟨_ | a⟩ <;> rfl
  add_comm := by
    rintro ⟨_ | a⟩ ⟨_ | b⟩ <;> try rfl
    show MaxAcc.merge _ _ = MaxAcc.merge _ _
    simp only [MaxAcc.merge, MaxAcc.mk.injEq, Option.some.injEq]
    grind
  nsmul := nsmulRec

/-- `union_from`. -/
instance : Add DistinctAcc := ⟨fun a b => ⟨a.seen ∪ b.seen⟩⟩

instance : Zero DistinctAcc := ⟨⟨∅⟩⟩

instance : AddCommMonoid DistinctAcc where
  add_assoc a b c := congrArg DistinctAcc.mk (Finset.union_assoc _ _ _)
  zero_add a := congrArg DistinctAcc.mk (Finset.empty_union _)
  add_zero a := congrArg DistinctAcc.mk (Finset.union_empty _)
  add_comm a b := congrArg DistinctAcc.mk (Finset.union_comm _ _)
  nsmul := nsmulRec

/-- The merge of one slot of `merge_compact_results`. -/
instance instAddCommMonoidAcc : (k : CompactAccKind) → AddCommMonoid (Acc k)
  | .count => inferInstanceAs (AddCommMonoid ℕ)
  | .sumInt => inferInstanceAs (AddCommMonoid (ℤ × ℕ))
  | .sumIntNarrow => inferInstanceAs (AddCommMonoid (ℤ × ℕ))
  | .sumFloat => inferInstanceAs (AddCommMonoid (ℚ × ℕ))
  | .minInt => inferInstanceAs (AddCommMonoid MinAcc)
  | .maxInt => inferInstanceAs (AddCommMonoid MaxAcc)
  | .countDistinctInt => inferInstanceAs (AddCommMonoid DistinctAcc)

instance instDecidableEqAcc : (k : CompactAccKind) → DecidableEq (Acc k)
  | .count => inferInstanceAs (DecidableEq ℕ)
  | .sumInt => inferInstanceAs (DecidableEq (ℤ × ℕ))
  | .sumIntNarrow => inferInstanceAs (DecidableEq (ℤ × ℕ))
  | .sumFloat => inferInstanceAs (DecidableEq (ℚ × ℕ))
  | .minInt => inferInstanceAs (DecidableEq MinAcc)
  | .maxInt => inferInstanceAs (DecidableEq MaxAcc)
  | .countDistinctInt => inferInstanceAs (DecidableEq DistinctAcc)

/-- The accumulators of one group, a slot for each aggregate. -/
abbrev Accs (specs : List CompactSpec) : Type := (slot : Fin specs.length) → Acc (specs.get slot).kind

/-! ## Finalization -/

def OutputTransform.apply (t : OutputTransform) (v : ℤ) : ℤ :=
  match t with
  | .none => v
  | .pgUsShift delta => v + delta

/-- `compact_finalize`: the value of an aggregate, `none` for NULL. -/
def compactFinalize (spec : AggExecSpec) : (k : CompactAccKind) → Acc k → Option SqlValue
  | .count, (n : ℕ) => some (.word n)
  | .sumInt, (acc : ℤ × ℕ) =>
      if acc.2 = 0 then none
      else match spec.aggType with
        | .avg => some (.numeric (acc.1 / acc.2))
        | _ => if spec.colTypeOid = .int8 then some (.numeric acc.1) else some (.word acc.1)
  | .sumIntNarrow, (acc : ℤ × ℕ) =>
      if acc.2 = 0 then none
      else match spec.aggType with
        | .avg => some (.numeric (acc.1 / acc.2))
        | _ => some (.word acc.1)
  | .sumFloat, (acc : ℚ × ℕ) =>
      if acc.2 = 0 then none
      else match spec.aggType with
        | .avg => some (.float (acc.1 / acc.2))
        | _ => some (.float acc.1)
  | .minInt, (acc : MinAcc) => acc.val.map fun v => .word (spec.outputTransform.apply v)
  | .maxInt, (acc : MaxAcc) => acc.val.map fun v => .word (spec.outputTransform.apply v)
  | .countDistinctInt, (acc : DistinctAcc) => some (.word acc.seen.card)

def finalizeAll {specs : List CompactSpec} (accs : Accs specs) : List (Option SqlValue) :=
  List.ofFn fun slot => compactFinalize (specs.get slot).toAggExecSpec _ (accs slot)

end DeltaX.Agg
