import DeltaX.Agg.AccLayout
import DeltaX.Agg.CompactTables
import DeltaX.Support.ListLookup
import DeltaX.Support.StrictFold
/-!
# Partial aggregates

In partial mode every process emits the transition state of each group it has rows of, and
PostgreSQL combines the states.  Strings are compared by `strcoll` in the processes and in the
aggregate's input collation by `text_smaller` and `text_larger`: two orders that need not agree.
-/

namespace DeltaX.Agg.PartialEmit

open Column AccLayout Support.StrictFold

/-! ## Slots -/

/-- What is done with floats: the additions round, so the order of them matters.  Nothing is
assumed of it. -/
structure FloatOps (F : Type) where
  zero : F
  ofInt : ℤ → F
  add : F → F → F
  div : F → ℕ → F
  /-- The cast to a `real`, and the addition of two of them. -/
  toReal : F → F
  addReal : F → F → F
  /-- The `real` that the low half of the bits is. -/
  lowHalf : F → F

/-- A datum as a slot reads it: as an integer, as a float, as a string. -/
structure PartialDatum (F T : Type) where
  int : ℤ
  float : F
  text : T

/-- The order of the aggregate's collation, beside that of `strcoll`. -/
structure Collation (T : Type) where
  order : LinearOrder T

abbrev PartialRow (F T : Type) : Type := ℤ → Option (PartialDatum F T)

section slots

variable {F T : Type}

def PartialRow.integers (row : PartialRow F T) : InputRow := fun ci =>
  (row ci).map fun d => ⟨d.int, 0⟩

/-- The value of a slot; a string slot holds nothing while its offset is `u32::MAX`. -/
abbrev Slot (F T : Type) : SlotKind → Type
  | .count => Acc .count
  | .sumInt => Acc .sumInt
  | .sumIntNarrow => Acc .sumIntNarrow
  | .sumFloat => F × ℕ
  | .minStr | .maxStr => Option T
  | .countDistinctInt => Finset ℤ
  | .countDistinctStr => Finset T
  | .minInt => Acc .minInt
  | .maxInt => Acc .maxInt

variable (ops : FloatOps F)

def emptySlot : (kind : SlotKind) → Slot F T kind
  | .count => (0 : ℕ)
  | .sumInt | .sumIntNarrow => ((0, 0) : ℤ × ℕ)
  | .sumFloat => ((ops.zero, 0) : F × ℕ)
  | .minStr | .maxStr => (none : Option T)
  | .countDistinctInt => (∅ : Finset ℤ)
  | .countDistinctStr => (∅ : Finset T)
  | .minInt => MinAcc.mk none
  | .maxInt => MaxAcc.mk none

def floatDelta (spec : AggExecSpec) (v : F) : F :=
  if spec.exprKind = .addConst then ops.add v (ops.ofInt spec.constOffset) else v

def updateStr (better : T → T → Bool) (cur : Option T) (d : Option (PartialDatum F T)) : Option T :=
  match d, cur with
  | none, _ => cur
  | some d, none => some d.text
  | some d, some held => some (if better d.text held then d.text else held)

variable [LinearOrder T]

/-- The update of a slot by a row; `strcoll` orders the strings. -/
def updateAny (spec : AggExecSpec) (row : PartialRow F T) :
    (kind : SlotKind) → Slot F T kind → Slot F T kind
  | .count, (acc : ℕ) => updateSlot spec row.integers .count acc
  | .sumInt, (acc : ℤ × ℕ) => updateSlot spec row.integers .sumInt acc
  | .sumIntNarrow, (acc : ℤ × ℕ) => updateSlot spec row.integers .sumIntNarrow acc
  | .sumFloat, (acc : F × ℕ) =>
      match row spec.colIdx with
      | some d => (ops.add acc.1 (floatDelta ops spec d.float), acc.2 + 1)
      | none => acc
  | .minStr, (cur : Option T) => updateStr (fun s held => decide (s < held)) cur (row spec.colIdx)
  | .maxStr, (cur : Option T) => updateStr (fun s held => decide (held < s)) cur (row spec.colIdx)
  | .countDistinctInt, (seen : Finset ℤ) =>
      match row spec.colIdx with
      | some d => insert d.int seen
      | none => seen
  | .countDistinctStr, (seen : Finset T) =>
      match row spec.colIdx with
      | some d => insert d.text seen
      | none => seen
  | .minInt, (acc : MinAcc) => updateSlot spec row.integers .minInt acc
  | .maxInt, (acc : MaxAcc) => updateSlot spec row.integers .maxInt acc

/-- The slot of a group after a process has seen these rows of it. -/
def slotOf (spec : AggExecSpec) (kind : SlotKind) (rows : List (PartialRow F T)) : Slot F T kind :=
  rows.foldl (fun acc row => updateAny ops spec row kind acc) (emptySlot ops kind)

inductive Value (F T : Type)
  | number (v : SqlValue)
  | float (v : F)
  | text (s : T)

/-- `compact_finalize`. -/
def finalize (spec : AggExecSpec) : (kind : SlotKind) → Slot F T kind → Option (Value F T)
  | .count, (acc : ℕ) => (compactFinalize spec .count acc).map .number
  | .sumInt, (acc : ℤ × ℕ) => (compactFinalize spec .sumInt acc).map .number
  | .sumIntNarrow, (acc : ℤ × ℕ) => (compactFinalize spec .sumIntNarrow acc).map .number
  | .sumFloat, (acc : F × ℕ) =>
      if acc.2 = 0 then none
      else match spec.aggType with
        | .avg => some (.float (ops.div acc.1 acc.2))
        | .sum => some (.float (if spec.colTypeOid = .float4 then ops.toReal acc.1 else acc.1))
        | _ => some (.float acc.1)
  | .minStr, (cur : Option T) => cur.map .text
  | .maxStr, (cur : Option T) => cur.map .text
  | .countDistinctInt, (seen : Finset ℤ) => some (.number (.word seen.card))
  | .countDistinctStr, (seen : Finset T) => some (.number (.word seen.card))
  | .minInt, (acc : MinAcc) => (compactFinalize spec .minInt acc).map .number
  | .maxInt, (acc : MaxAcc) => (compactFinalize spec .maxInt acc).map .number

/-! ## Transition states -/

/-- The transition states PostgreSQL has for a kind of slot; `SUM(int8)`, `AVG` and
`COUNT(DISTINCT)` have none that is emitted. -/
abbrev PgState (F T : Type) : SlotKind → Type
  | .count | .sumIntNarrow | .minInt | .maxInt => ℤ
  | .sumFloat => F
  | .sumInt | .countDistinctInt | .countDistinctStr => Empty
  | .minStr | .maxStr => T

/-- `compact_emit_partial`; the outer option is none where the code is unreachable. -/
def compactEmitPartial (spec : AggExecSpec) :
    (kind : SlotKind) → Slot F T kind → Option (Option (PgState F T kind))
  | .count, (n : ℕ) => some (some (n : ℤ))
  | .sumIntNarrow, (acc : ℤ × ℕ) =>
      -- the count is not looked at
      if spec.aggType ≠ .sum then none else some (some acc.1)
  | .sumFloat, (acc : F × ℕ) =>
      if spec.aggType ≠ .sum then none else some (if acc.2 = 0 then none else some acc.1)
  | .minStr, (cur : Option T) => some cur
  | .maxStr, (cur : Option T) => some cur
  | .minInt, (acc : MinAcc) => some (acc.val.map spec.outputTransform.apply)
  | .maxInt, (acc : MaxAcc) => some (acc.val.map spec.outputTransform.apply)
  | .sumInt, _ => none
  | .countDistinctInt, _ => none
  | .countDistinctStr, _ => none

/-- `agg_specs_partial_emittable`, for one aggregate. -/
def partialEmittable (spec : AggExecSpec) : Bool :=
  match spec.aggType with
  | .countStar | .count => true
  | .sum =>
      match spec.colTypeOid with
      | .int2 | .int4 | .float4 | .float8 => true
      | _ => false
  | .min | .max => isTextType spec.colTypeOid
  | _ => false

/-! ## PostgreSQL's side -/

/-- The state a datum is taken for: that of `sum(real)` is a `real`, read from the low half
of the datum. -/
def readState (spec : AggExecSpec) : (kind : SlotKind) → PgState F T kind → PgState F T kind
  | .sumFloat, (v : F) => if spec.colTypeOid = .float4 then ops.lowHalf v else v
  | _, state => state

/-- `aggcombinefn`: `int8pl`, `float8pl` or `float4pl`, and `_smaller` or `_larger` of the
column's type, for texts in the aggregate's collation. -/
def combineFn (collation : Collation T) (spec : AggExecSpec) :
    (kind : SlotKind) → PgState F T kind → PgState F T kind → PgState F T kind
  | .count, (a : ℤ), (b : ℤ) => a + b
  | .sumIntNarrow, (a : ℤ), (b : ℤ) => a + b
  | .sumFloat, (a : F), (b : F) => if spec.colTypeOid = .float4 then ops.addReal a b else ops.add a b
  | .minStr, (a : T), (b : T) => collation.order.min a b
  | .maxStr, (a : T), (b : T) => collation.order.max a b
  | .minInt, (a : ℤ), (b : ℤ) => min a b
  | .maxInt, (a : ℤ), (b : ℤ) => max a b
  | .sumInt, a, _ => a
  | .countDistinctInt, a, _ => a
  | .countDistinctStr, a, _ => a

/-- `agginitval`: a count starts at zero, the others at NULL. -/
def initState : (kind : SlotKind) → Option (PgState F T kind)
  | .count => some (0 : ℤ)
  | _ => none

/-- The combined state: a strict function skips NULL states and takes the first other one as
it is. -/
def combineStates (collation : Collation T) (spec : AggExecSpec) (kind : SlotKind)
    (states : List (Option (PgState F T kind))) : Option (PgState F T kind) :=
  (states.map (Option.map (readState ops spec kind))).foldl
    (Option.merge (combineFn ops collation spec kind)) (initState kind)

/-- The value of the combined state; these aggregates have no final function. -/
def stateValue : (kind : SlotKind) → PgState F T kind → Value F T
  | .count, (v : ℤ) => .number (.word v)
  | .sumIntNarrow, (v : ℤ) => .number (.word v)
  | .sumFloat, (v : F) => .float v
  | .minStr, (s : T) => .text s
  | .maxStr, (s : T) => .text s
  | .minInt, (v : ℤ) => .number (.word v)
  | .maxInt, (v : ℤ) => .number (.word v)
  | .sumInt, (v : Empty) => v.elim
  | .countDistinctInt, (v : Empty) => v.elim
  | .countDistinctStr, (v : Empty) => v.elim

/-- What the processes emit for a group: only those that have rows of it emit. -/
def emitted (spec : AggExecSpec) (kind : SlotKind) (processes : List (List (PartialRow F T))) :
    Option (List (Option (PgState F T kind))) :=
  (processes.filter fun rows => !rows.isEmpty).mapM fun rows =>
    compactEmitPartial spec kind (slotOf ops spec kind rows)

/-- The combination of what the processes emit is the value over all rows. -/
def CombinesAs (collation : Collation T) (spec : AggExecSpec) (kind : SlotKind)
    (processes : List (List (PartialRow F T))) (rows : List (PartialRow F T)) : Prop :=
  ∃ states, emitted ops spec kind processes = some states ∧
    (combineStates ops collation spec kind states).map (stateValue kind) =
      finalize ops spec kind (slotOf ops spec kind rows)

end slots

/-! ## Slots as folds -/

section folds

variable {F T : Type} [LinearOrder T] {ops : FloatOps F} (spec : AggExecSpec)

def HasValue (rows : List (PartialRow F T)) : Prop := ∃ row ∈ rows, row spec.colIdx ≠ none

def intInput (row : PartialRow F T) : Option ℤ :=
  (row spec.colIdx).map fun d => sumDelta spec d.int

def textInput (row : PartialRow F T) : Option T := (row spec.colIdx).map PartialDatum.text

def texts (rows : List (PartialRow F T)) : List T := rows.filterMap (textInput spec)

def countInput (row : PartialRow F T) : ℤ := (updateSlot spec row.integers .count (0 : ℕ) : ℕ)

theorem slotOf_count (rows : List (PartialRow F T)) :
    ((slotOf ops spec .count rows : ℕ) : ℤ) = (rows.map (countInput spec)).sum := by
  suffices hfold : ∀ acc : ℕ,
      ((rows.foldl (fun acc row => updateSlot spec row.integers .count acc) acc : ℕ) : ℤ) =
        acc + (rows.map (countInput spec)).sum by
    exact (hfold 0).trans (zero_add _)
  induction rows with
  | nil => intro acc; exact (add_zero _).symm
  | cons row rows ih =>
      intro acc
      have hstep : updateSlot spec row.integers .count acc =
          acc + updateSlot spec row.integers .count (0 : ℕ) :=
        updateSlot_eq_add spec row.integers .count acc
      rw [List.foldl_cons, ih, hstep, List.map_cons, List.sum_cons]
      show ((acc + (updateSlot spec row.integers .count (0 : ℕ) : ℕ) : ℕ) : ℤ) + _ = _
      rw [Nat.cast_add, add_assoc]
      rfl

theorem slotOf_sumIntNarrow (rows : List (PartialRow F T)) :
    slotOf ops spec .sumIntNarrow rows = (rows.map (intInput spec)).foldl addCounted (0, 0) := by
  rw [List.foldl_map]
  apply congrArg fun step => rows.foldl step _
  ext1 acc
  ext1 row
  show updateSlot spec row.integers .sumIntNarrow acc = addCounted acc (intInput spec row)
  unfold updateSlot PartialRow.integers intInput
  cases row spec.colIdx <;> rfl

theorem finalize_sumIntNarrow (hsum : spec.aggType = .sum) (rows : List (PartialRow F T)) :
    finalize ops spec .sumIntNarrow (slotOf ops spec .sumIntNarrow rows) =
      (strictFold (· + ·) (rows.map (intInput spec))).map fun v => Value.number (.word v) := by
  rw [slotOf_sumIntNarrow, ← foldl_addCounted_value]
  generalize (rows.map (intInput spec)).foldl addCounted (0, 0) = acc
  unfold finalize compactFinalize
  rw [hsum]
  dsimp only
  split_ifs <;> rfl

theorem slotOf_sumFloat {rows : List (PartialRow F T)} (h : ¬ HasValue spec rows) :
    slotOf ops spec .sumFloat rows = (ops.zero, 0) := by
  have hnull : ∀ row ∈ rows, row spec.colIdx = none := by
    intro row hrow
    by_contra hvalue
    exact h ⟨row, hrow, hvalue⟩
  apply List.foldlRecOn rows _ (motive := fun acc => acc = ((ops.zero, 0) : F × ℕ)) rfl
  intro acc hacc row hrow
  unfold updateAny
  rw [hnull row hrow]
  exact hacc

omit [LinearOrder T] in
/-- A string slot folds with the operation that its comparison picks by. -/
theorem foldl_updateStr (better : T → T → Bool) (pick : T → T → T)
    (hpick : ∀ s held, (if better s held then s else held) = pick held s)
    (rows : List (PartialRow F T)) :
    rows.foldl (fun cur row => updateStr better cur (row spec.colIdx)) none =
      strictFold pick (rows.map (textInput spec)) := by
  rw [strictFold, List.foldl_map]
  apply congrArg fun step => rows.foldl step none
  ext1 cur
  ext1 row
  unfold updateStr textInput
  cases row spec.colIdx with
  | none => exact Option.merge_none_right.symm
  | some d =>
      cases cur with
      | none => rfl
      | some held => exact congrArg some (hpick d.text held)

theorem slotOf_minStr (rows : List (PartialRow F T)) :
    slotOf ops spec .minStr rows = strictFold min (rows.map (textInput spec)) := by
  apply foldl_updateStr spec (fun s held => decide (s < held)) min
  intro s held
  by_cases h : s < held
  · rw [if_pos (decide_eq_true h), min_eq_right h.le]
  · rw [if_neg (by simpa using h), min_eq_left (not_lt.mp h)]

theorem slotOf_maxStr (rows : List (PartialRow F T)) :
    slotOf ops spec .maxStr rows = strictFold max (rows.map (textInput spec)) := by
  apply foldl_updateStr spec (fun s held => decide (held < s)) max
  intro s held
  by_cases h : held < s
  · rw [if_pos (decide_eq_true h), max_eq_right h.le]
  · rw [if_neg (by simpa using h), max_eq_left (not_lt.mp h)]

end folds

/-! ## Combining -/

section combining

variable {F T : Type}

def withRows (processes : List (List (PartialRow F T))) : List (List (PartialRow F T)) :=
  processes.filter fun rows => !rows.isEmpty

variable {spec : AggExecSpec} {processes : List (List (PartialRow F T))}
  {rows : List (PartialRow F T)}

theorem sum_withRows {M : Type*} [AddCommMonoid M] (input : PartialRow F T → M)
    (hperm : processes.flatten.Perm rows) :
    ((withRows processes).map fun part => (part.map input).sum).sum = (rows.map input).sum := by
  calc ((withRows processes).map fun part => (part.map input).sum).sum
      = ((withRows processes).flatten.map input).sum := by
        rw [List.map_flatten, List.sum_flatten, List.map_map]
        rfl
    _ = (processes.flatten.map input).sum := by rw [withRows, List.flatten_filter_not_isEmpty]
    _ = (rows.map input).sum := (hperm.map input).sum_eq

theorem withRows_eq_nil_iff (hperm : processes.flatten.Perm rows) :
    withRows processes = [] ↔ rows = [] := by
  have hflatten : (withRows processes).flatten = processes.flatten :=
    List.flatten_filter_not_isEmpty
  constructor
  · intro h
    rw [h, List.flatten_nil] at hflatten
    rw [← hflatten] at hperm
    exact hperm.nil_eq.symm
  · intro h
    subst h
    rw [hperm.eq_nil] at hflatten
    apply List.eq_nil_iff_forall_not_mem.mpr
    intro part hpart
    have hempty := List.flatten_eq_nil_iff.mp hflatten part hpart
    have hne := (List.mem_filter.mp hpart).2
    rw [hempty] at hne
    exact Bool.false_ne_true hne

theorem withRows_singletons (rows : List (PartialRow F T)) :
    withRows (rows.map fun row => [row]) = rows.map fun row => [row] := by
  rw [withRows, List.filter_eq_self]
  intro part hpart
  obtain ⟨row, -, rfl⟩ := List.mem_map.mp hpart
  rfl

theorem flatten_singletons (rows : List (PartialRow F T)) :
    (rows.map fun row => [row]).flatten = rows := by
  rw [← List.flatMap_def, List.flatMap_singleton']

theorem mem_texts_iff {s : T} : s ∈ texts spec rows ↔ some s ∈ rows.map (textInput spec) := by
  rw [texts, List.mem_filterMap, List.mem_map]

theorem strictFold_intInput_eq_none :
    strictFold (· + ·) (rows.map (intInput spec)) = none ↔ ¬ HasValue spec rows := by
  rw [strictFold_eq_none_iff, List.forall_mem_map]
  simp only [intInput, Option.map_eq_none_iff, HasValue, not_exists, not_and, not_not]

variable [LinearOrder T] {ops : FloatOps F} {collation : Collation T}

theorem combinesAs_iff {kind : SlotKind} (emit : List (PartialRow F T) → Option (PgState F T kind))
    (hemit : ∀ rows, compactEmitPartial spec kind (slotOf ops spec kind rows) = some (emit rows)) :
    CombinesAs ops collation spec kind processes rows ↔
      (combineStates ops collation spec kind ((withRows processes).map emit)).map
        (stateValue kind) = finalize ops spec kind (slotOf ops spec kind rows) := by
  have hemitted : emitted ops spec kind processes = some ((withRows processes).map emit) :=
    Support.ListLookup.mapM_eq_pure fun rows _ => hemit rows
  constructor
  · intro ⟨states, hstates, hvalue⟩
    obtain rfl := Option.some.inj (hemitted.symm.trans hstates)
    exact hvalue
  · intro hvalue
    exact ⟨_, hemitted, hvalue⟩

omit [LinearOrder T] in
theorem combineStates_eq {kind : SlotKind} {states : List (Option (PgState F T kind))}
    (hread : ∀ state ∈ states, state.map (readState ops spec kind) = state)
    (hinit : (initState kind : Option (PgState F T kind)) = none) :
    combineStates ops collation spec kind states =
      strictFold (combineFn ops collation spec kind) states := by
  rw [combineStates, List.map_congr_left hread, List.map_id', hinit]
  rfl

/-- A minimum of texts comes out of the processes' minima in the other order. -/
theorem minStr_combinesAs_iff :
    CombinesAs ops collation spec .minStr processes rows ↔
      strictFold collation.order.min ((withRows processes).map fun part =>
        strictFold min (part.map (textInput spec))) = strictFold min (rows.map (textInput spec)) := by
  rw [combinesAs_iff (fun rows => slotOf ops spec .minStr rows) fun _ => rfl,
    combineStates_eq (fun state _ => Option.map_id') rfl]
  simp only [slotOf_minStr]
  exact (Option.map_injective fun s t h => by cases h; rfl).eq_iff

theorem maxStr_combinesAs_iff :
    CombinesAs ops collation spec .maxStr processes rows ↔
      strictFold collation.order.max ((withRows processes).map fun part =>
        strictFold max (part.map (textInput spec))) = strictFold max (rows.map (textInput spec)) := by
  rw [combinesAs_iff (fun rows => slotOf ops spec .maxStr rows) fun _ => rfl,
    combineStates_eq (fun state _ => Option.map_id') rfl]
  simp only [slotOf_maxStr]
  exact (Option.map_injective fun s t h => by cases h; rfl).eq_iff

theorem count_combines (hperm : processes.flatten.Perm rows) :
    CombinesAs ops collation spec .count processes rows := by
  have hemit : ∀ part : List (PartialRow F T),
      compactEmitPartial spec .count (slotOf ops spec .count part) =
        some (some (part.map (countInput spec)).sum) :=
    fun part => congrArg (fun n : ℤ => some (some n)) (slotOf_count spec part)
  have hstates : combineStates (T := T) ops collation spec .count
      ((withRows processes).map fun part => some (part.map (countInput spec)).sum) =
      some (rows.map (countInput spec)).sum := by
    rw [← sum_withRows _ hperm, ← foldl_merge_some, combineStates, List.map_map, List.map_map]
    rfl
  rw [combinesAs_iff _ hemit, hstates]
  show some (Value.number (.word _)) = some (Value.number (.word _))
  rw [slotOf_count]

theorem sumFloat_combines (hperm : processes.flatten.Perm rows) (hsum : spec.aggType = .sum)
    (hnone : ¬ HasValue spec rows) : CombinesAs ops collation spec .sumFloat processes rows := by
  have hparts : ∀ part ∈ withRows processes,
      compactEmitPartial spec .sumFloat (slotOf ops spec .sumFloat part) = some none := by
    intro part hpart
    have hempty : ¬ HasValue spec part := by
      rintro ⟨row, hrow, hvalue⟩
      exact hnone ⟨row, hperm.subset
        (List.mem_flatten.mpr ⟨part, List.mem_of_mem_filter hpart, hrow⟩), hvalue⟩
    rw [slotOf_sumFloat spec hempty]
    exact if_neg (not_not_intro hsum)
  refine ⟨(withRows processes).map fun _ => none, Support.ListLookup.mapM_eq_pure hparts, ?_⟩
  have hread : ∀ state ∈ (withRows processes).map fun _ => (none : Option (PgState F T .sumFloat)),
      state.map (readState ops spec .sumFloat) = state := by
    intro state hstate
    obtain ⟨part, -, rfl⟩ := List.mem_map.mp hstate
    rfl
  rw [combineStates_eq hread rfl, slotOf_sumFloat spec hnone]
  have hnulls : ∀ states : List (List (PartialRow F T)),
      strictFold (combineFn ops collation spec .sumFloat)
        (states.map fun _ => (none : Option (PgState F T .sumFloat))) = none := by
    intro states
    rw [strictFold, List.foldl_map]
    induction states with
    | nil => rfl
    | cons state states ih => exact ih
  rw [hnulls]
  rfl

/-- A sum of narrow integers is emitted as zero where there is no value: the combination is
NULL only where no process emits. -/
theorem sumIntNarrow_combines_iff (hperm : processes.flatten.Perm rows)
    (hsum : spec.aggType = .sum) :
    CombinesAs ops collation spec .sumIntNarrow processes rows ↔
      (rows ≠ [] → HasValue spec rows) := by
  let input : PartialRow F T → ℤ := fun row => (intInput spec row).getD 0
  have hemit : ∀ part : List (PartialRow F T),
      compactEmitPartial spec .sumIntNarrow (slotOf ops spec .sumIntNarrow part) =
        some (some (part.map input).sum) := by
    intro part
    have hslot : (slotOf ops spec .sumIntNarrow part).1 = (part.map input).sum := by
      rw [slotOf_sumIntNarrow, (foldl_addCounted _).1, getD_strictFold_add, List.map_map]
      rfl
    rw [← hslot]
    exact if_neg (not_not_intro hsum)
  have hstates : combineStates (T := T) ops collation spec .sumIntNarrow
      ((withRows processes).map fun part => some (part.map input).sum) =
      if rows = [] then none else some (rows.map input).sum := by
    rw [combineStates_eq (fun state _ => Option.map_id') rfl, ← sum_withRows input hperm]
    show strictFold (· + ·) _ = _
    by_cases hrows : rows = []
    · rw [(withRows_eq_nil_iff hperm).mpr hrows, if_pos hrows]
      rfl
    · have hne : (withRows processes).map (fun part => (part.map input).sum) ≠ [] :=
        fun h => hrows ((withRows_eq_nil_iff hperm).mp (List.map_eq_nil_iff.mp h))
      rw [if_neg hrows, ← strictFold_map_some _ hne, List.map_map]
      rfl
  have htotal := getD_strictFold_add (rows.map (intInput spec))
  rw [List.map_map] at htotal
  rw [combinesAs_iff _ hemit, hstates, finalize_sumIntNarrow spec hsum]
  by_cases hrows : rows = []
  · subst hrows
    exact iff_of_true rfl fun h => (h rfl).elim
  · rw [if_neg hrows]
    cases hfold : strictFold (· + ·) (rows.map (intInput spec)) with
    | none =>
        have hnone := strictFold_intInput_eq_none.mp hfold
        exact iff_of_false (by simp) fun h => hnone (h hrows)
    | some v =>
        have hvalue : HasValue spec rows := by
          by_contra h
          rw [strictFold_intInput_eq_none.mpr h] at hfold
          cases hfold
        rw [hfold, Option.getD_some] at htotal
        apply iff_of_true _ fun _ => hvalue
        show some (Value.number (.word (rows.map input).sum)) = some (Value.number (.word v))
        rw [htotal]
        rfl

end combining

/-! ## Partial and complete aggregation -/

section complete

variable {F T : Type} [LinearOrder T]

def NarrowSum (spec : AggExecSpec) : Prop :=
  spec.aggType = .sum ∧ (spec.colTypeOid = .int2 ∨ spec.colTypeOid = .int4)

def FloatSum (spec : AggExecSpec) : Prop :=
  spec.aggType = .sum ∧ (spec.colTypeOid = .float4 ∨ spec.colTypeOid = .float8)

def FirstAgrees (collation : Collation T) (ts : List T) : Prop :=
  ∀ s ∈ ts, (∀ t ∈ ts, s ≤ t) → ∀ t ∈ ts, collation.order.le s t

def LastAgrees (collation : Collation T) (ts : List T) : Prop :=
  ∀ s ∈ ts, (∀ t ∈ ts, t ≤ s) → ∀ t ∈ ts, collation.order.le t s

/-- A narrow sum has a value to add, a sum of floats has none, and the first or last text is
the same in both orders. -/
structure Combinable (collation : Collation T) (spec : AggExecSpec)
    (rows : List (PartialRow F T)) : Prop where
  narrow : NarrowSum spec → rows ≠ [] → HasValue spec rows
  floats : FloatSum spec → ¬ HasValue spec rows
  first : spec.aggType = .min → FirstAgrees collation (texts spec rows)
  last : spec.aggType = .max → LastAgrees collation (texts spec rows)

theorem admitted_cases {spec : AggExecSpec} {kind : SlotKind} (hkind : slotKind spec = some kind)
    (hemit : partialEmittable spec = true) :
    (kind = .count ∧ (spec.aggType = .countStar ∨ spec.aggType = .count)) ∨
      (kind = .sumIntNarrow ∧ NarrowSum spec) ∨ (kind = .sumFloat ∧ FloatSum spec) ∨
      (kind = .minStr ∧ spec.aggType = .min) ∨ (kind = .maxStr ∧ spec.aggType = .max) := by
  unfold partialEmittable at hemit
  unfold slotKind extremeKind at hkind
  unfold NarrowSum FloatSum
  cases hagg : spec.aggType <;> cases htype : spec.colTypeOid <;>
    simp [hagg, htype, isTextType] at hemit hkind <;> subst hkind <;> simp

variable {ops : FloatOps F} {collation : Collation T} {spec : AggExecSpec}
  {processes : List (List (PartialRow F T))} {rows : List (PartialRow F T)}

theorem firstAgrees_iff : FirstAgrees collation (texts spec rows) ↔
    LeastAgrees inferInstance collation.order (rows.map (textInput spec)) := by
  simp only [FirstAgrees, mem_texts_iff]
  exact Iff.rfl

theorem lastAgrees_iff : LastAgrees collation (texts spec rows) ↔
    LeastAgrees (α := Tᵒᵈ) inferInstance (@OrderDual.instLinearOrder T collation.order)
      (rows.map (textInput spec)) := by
  simp only [LastAgrees, mem_texts_iff]
  exact Iff.rfl

/-- The minimum of texts is combined rightly however the rows are spread, where the first
text is the same in both orders. -/
theorem minStr_combines_iff :
    (∀ processes : List (List (PartialRow F T)), processes.flatten.Perm rows →
      CombinesAs ops collation spec .minStr processes rows) ↔
      FirstAgrees collation (texts spec rows) := by
  rw [firstAgrees_iff]
  constructor
  · intro h
    have hsingle := minStr_combinesAs_iff.mp
      (h (rows.map fun row => [row]) (List.Perm.of_eq (flatten_singletons rows)))
    rw [withRows_singletons, List.map_map] at hsingle
    apply (strictFold_min_eq_iff _ _ _).mp
    rw [← hsingle]
    congr 1
    apply List.map_congr_left
    intro row _
    exact (Option.merge_none_left).symm
  · intro h processes hperm
    exact minStr_combinesAs_iff.mpr (strictFold_parts_min _ _ hperm h)

theorem maxStr_combines_iff :
    (∀ processes : List (List (PartialRow F T)), processes.flatten.Perm rows →
      CombinesAs ops collation spec .maxStr processes rows) ↔
      LastAgrees collation (texts spec rows) := by
  rw [lastAgrees_iff]
  constructor
  · intro h
    have hsingle := maxStr_combinesAs_iff.mp
      (h (rows.map fun row => [row]) (List.Perm.of_eq (flatten_singletons rows)))
    rw [withRows_singletons, List.map_map] at hsingle
    apply (strictFold_min_eq_iff _ _ _).mp
    refine Eq.trans ?_ hsingle
    congr 1
    apply List.map_congr_left
    intro row _
    exact (Option.merge_none_left).symm
  · intro h processes hperm
    exact maxStr_combinesAs_iff.mpr (strictFold_parts_min (α := Tᵒᵈ) _ _ hperm h)

theorem combines_of_combinable {kind : SlotKind} (hkind : slotKind spec = some kind)
    (hemit : partialEmittable spec = true) (hperm : processes.flatten.Perm rows)
    (h : Combinable collation spec rows) : CombinesAs ops collation spec kind processes rows := by
  obtain ⟨rfl, -⟩ | ⟨rfl, hnarrow⟩ | ⟨rfl, hfloat⟩ | ⟨rfl, hmin⟩ | ⟨rfl, hmax⟩ :=
    admitted_cases hkind hemit
  · exact count_combines hperm
  · exact (sumIntNarrow_combines_iff hperm hnarrow.1).mpr (h.narrow hnarrow)
  · exact sumFloat_combines hperm hfloat.1 (h.floats hfloat)
  · exact minStr_combines_iff.mpr (h.first hmin) processes hperm
  · exact maxStr_combines_iff.mpr (h.last hmax) processes hperm

/-- What an aggregate other than a sum of floats needs to be combined however the rows are
spread. -/
theorem combinable_of_combines {kind : SlotKind} (hkind : slotKind spec = some kind)
    (hemit : partialEmittable spec = true) (hfloat : ¬ FloatSum spec)
    (h : ∀ processes : List (List (PartialRow F T)), processes.flatten.Perm rows →
      CombinesAs ops collation spec kind processes rows) : Combinable collation spec rows := by
  have hwhole := h (rows.map fun row => [row]) (List.Perm.of_eq (flatten_singletons rows))
  constructor
  · intro hnarrow
    obtain ⟨-, hagg | hagg⟩ | ⟨rfl, -⟩ | ⟨-, hsum⟩ | ⟨-, hagg⟩ | ⟨-, hagg⟩ :=
      admitted_cases hkind hemit
    · rw [hnarrow.1] at hagg
      cases hagg
    · rw [hnarrow.1] at hagg
      cases hagg
    · exact (sumIntNarrow_combines_iff (List.Perm.of_eq (flatten_singletons rows))
        hnarrow.1).mp hwhole
    · exact absurd hsum hfloat
    · rw [hnarrow.1] at hagg
      cases hagg
    · rw [hnarrow.1] at hagg
      cases hagg
  · exact fun hsum => absurd hsum hfloat
  · intro hmin
    obtain ⟨-, hagg | hagg⟩ | ⟨-, hsum, -⟩ | ⟨-, hsum, -⟩ | ⟨rfl, -⟩ | ⟨-, hagg⟩ :=
      admitted_cases hkind hemit
    · rw [hmin] at hagg
      cases hagg
    · rw [hmin] at hagg
      cases hagg
    · rw [hmin] at hsum
      cases hsum
    · rw [hmin] at hsum
      cases hsum
    · exact minStr_combines_iff.mp h
    · rw [hmin] at hagg
      cases hagg
  · intro hmax
    obtain ⟨-, hagg | hagg⟩ | ⟨-, hsum, -⟩ | ⟨-, hsum, -⟩ | ⟨-, hagg⟩ | ⟨rfl, -⟩ :=
      admitted_cases hkind hemit
    · rw [hmax] at hagg
      cases hagg
    · rw [hmax] at hagg
      cases hagg
    · rw [hmax] at hsum
      cases hsum
    · rw [hmax] at hsum
      cases hsum
    · rw [hmax] at hagg
      cases hagg
    · exact maxStr_combines_iff.mp h

/-- Partial aggregation and PostgreSQL's combination give what the aggregation of all rows in
one process gives, however the rows are spread, where a narrow sum has a value, a sum of floats
has none, and the first or last text is the same in both orders; and, but for sums of floats,
only there. -/
theorem partial_combines (ops : FloatOps F) (collation : Collation T) {spec : AggExecSpec}
    {kind : SlotKind} (hkind : slotKind spec = some kind) (hemit : partialEmittable spec = true)
    (rows : List (PartialRow F T)) :
    (Combinable collation spec rows → ∀ processes : List (List (PartialRow F T)),
      processes.flatten.Perm rows → CombinesAs ops collation spec kind processes rows) ∧
      (¬ FloatSum spec →
        (∀ processes : List (List (PartialRow F T)), processes.flatten.Perm rows →
          CombinesAs ops collation spec kind processes rows) → Combinable collation spec rows) :=
  ⟨fun h _ hperm => combines_of_combinable hkind hemit hperm h,
    combinable_of_combines hkind hemit⟩

end complete

def sumInt4 : AggExecSpec where
  aggType := .sum
  colIdx := 0
  colTypeOid := .int4
  exprKind := .column
  constOffset := 0
  outputTransform := .none

def smallFloats : FloatOps ℤ where
  zero := 0
  ofInt v := v
  add a b := a + b
  div a n := a / n
  toReal v := v
  addReal a b := a + b
  lowHalf v := v

/-- A collation that orders as `strcoll` does. -/
def sameCollation : Collation ℤ := ⟨inferInstance⟩

def valueRow : PartialRow ℤ ℤ := fun _ => some { int := 5, float := 5, text := 5 }

def nullRow : PartialRow ℤ ℤ := fun _ => none

/-- One process has a value, the other a NULL. -/
theorem partial_combines_share :
    CombinesAs smallFloats sameCollation sumInt4 .sumIntNarrow [[nullRow], [valueRow]]
      [valueRow, nullRow] := by
  have hperm : ([[nullRow], [valueRow]] : List (List (PartialRow ℤ ℤ))).flatten.Perm
      [valueRow, nullRow] := List.Perm.swap _ _ _
  apply (partial_combines smallFloats sameCollation rfl rfl [valueRow, nullRow]).1 _ _ hperm
  constructor
  · exact fun _ _ => ⟨valueRow, List.mem_cons_self, Option.some_ne_none _⟩
  · rintro ⟨-, h | h⟩ <;> cases h
  · exact fun h => by cases h
  · exact fun h => by cases h

/-- Where the one row has a NULL, the sum comes out as zero. -/
theorem not_forall_partial_combines :
    ¬ ∀ (ops : FloatOps ℤ) (collation : Collation ℤ) (spec : AggExecSpec) (kind : SlotKind)
      (processes : List (List (PartialRow ℤ ℤ))) (rows : List (PartialRow ℤ ℤ)),
      slotKind spec = some kind → partialEmittable spec = true → processes.flatten.Perm rows →
      CombinesAs ops collation spec kind processes rows := by
  intro h
  have hcombines := h smallFloats sameCollation sumInt4 .sumIntNarrow [[nullRow]] [nullRow] rfl rfl
    (List.Perm.refl _)
  obtain ⟨row, hrow, hvalue⟩ := (sumIntNarrow_combines_iff (List.Perm.refl _) rfl).mp hcombines
    (List.cons_ne_nil _ _)
  rw [List.mem_singleton.mp hrow] at hvalue
  exact hvalue rfl

end DeltaX.Agg.PartialEmit
