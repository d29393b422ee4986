import DeltaX.Agg.Workers
import DeltaX.Support.Selection
import Mathlib.Data.Prod.Lex
import Mathlib.Tactic.Linarith
/-!
# ORDER BY an aggregate with LIMIT

Groups are partitioned by a hash of their key, each partition is merged and
keeps its first groups in a bounded heap, and the winners are sorted.  The heap
compares one number per group that is read straight from an accumulator slot,
where a NULL aggregate reads as zero.
-/

namespace DeltaX.Agg

open Column Support.KeyedMerge Support.Selection

/-- The order in which a hash map iterates, or an unstable sort leaves equals. -/
structure HashOrder (α : Type*) where
  reorder : List α → List α
  perm : ∀ l, (reorder l).Perm l

def HashOrder.asIs (α : Type*) : HashOrder α := ⟨fun l => l, fun l => List.Perm.refl l⟩

/-! ## The query -/

/-- Sort aggregates the Top-N detection takes. -/
def sortAdmitted (spec : AggExecSpec) : Bool :=
  match spec.aggType with
  | .countStar | .count | .countDistinct => true
  | .sum =>
      match spec.colTypeOid with
      | .int2 | .int4 => true
      | _ => false
  | .avg =>
      match spec.colTypeOid with
      | .int2 | .int4 | .int8 | .float4 | .float8 => true
      | _ => false
  | .min | .max =>
      match spec.colTypeOid with
      | .int2 | .int4 | .int8 => true
      | _ => false

/-- `ORDER BY aggregate [ASC|DESC] [NULLS FIRST|LAST] LIMIT limit [WITH TIES]
OFFSET offset`, as the detection accepts it.  It never looks for DISTINCT or
DISTINCT ON, whose columns have the sort aggregate among them. -/
structure TopNQuery extends CompactQuery where
  sortSlot : Fin aggSpecs.length
  distinct : Option (List OutputEntry)
  distinct_sort : ∀ columns, distinct = some columns → OutputEntry.agg sortSlot.val ∈ columns
  admitted : sortAdmitted (aggSpecs.get sortSlot).toAggExecSpec = true
  ascending : Bool
  nullsFirst : Bool
  withTies : Bool
  limit : ℕ
  offset : ℕ
  limit_pos : 0 < limit
  capped : limit + offset ≤ 10000

theorem one_row_capped : 1 + 0 ≤ 10000 := by norm_num

theorem first_sorts_no_distinct :
    ∀ columns : List OutputEntry, none = some columns → OutputEntry.agg 0 ∈ columns := by
  intro columns h
  cases h

namespace TopNQuery

abbrev Group (q : TopNQuery) : Type := BitVec 128 × Accs q.aggSpecs

def topnLimit (q : TopNQuery) : ℕ := q.limit + q.offset

def sortSpec (q : TopNQuery) : CompactSpec := q.aggSpecs.get q.sortSlot

end TopNQuery

/-! ## The number a group is sorted by -/

/-- The word at the start of a slot, for the slot of a 128-bit sum. -/
def lowWord (v : ℤ) : ℤ := v.bmod 18446744073709551616

/-- An average over no value reads as zero. -/
def readAvg (sum : ℚ) (count : ℕ) : ℚ := if 0 < count then sum / count else 0

/-- `read_sort_val_from`; averages are exact.  SUM of a float or of a bigint is
not admitted. -/
def readSortVal (aggType : AggType) : (k : CompactAccKind) → Acc k → ℚ
  | .count, (n : ℕ) => n
  | .sumInt, (acc : ℤ × ℕ) => lowWord acc.1
  | .sumIntNarrow, (acc : ℤ × ℕ) => if aggType = .avg then readAvg acc.1 acc.2 else acc.1
  | .sumFloat, (acc : ℚ × ℕ) => if aggType = .avg then readAvg acc.1 acc.2 else 0
  | .minInt, (acc : MinAcc) => acc.val.getD 0
  | .maxInt, (acc : MaxAcc) => acc.val.getD 0
  | .countDistinctInt, (acc : DistinctAcc) => acc.seen.card

namespace TopNQuery

variable (q : TopNQuery)

def sortVal (g : q.Group) : ℚ := readSortVal q.sortSpec.aggType _ (g.2 q.sortSlot)

/-- The sort value, turned so that smaller comes first. -/
def valRank (g : q.Group) : ℚ := if q.ascending then q.sortVal g else -q.sortVal g

/-- The order of the heap's entries, value before key. -/
def heapRank (g : q.Group) : ℚ ×ₗ ℤ :=
  toLex (q.valRank g, if q.ascending then (g.1.toNat : ℤ) else -(g.1.toNat : ℤ))

end TopNQuery

/-! ## Partitioned merge -/

def mix64 (x : BitVec 64) : BitVec 64 :=
  let x := (x ^^^ (x >>> 30)) * 0xbf58476d1ce4e5b9#64
  let x := (x ^^^ (x >>> 27)) * 0x94d049bb133111eb#64
  x ^^^ (x >>> 31)

def partitionOf (np : ℕ) (key : BitVec 128) : ℕ :=
  (mix64 (key.setWidth 64 ^^^ (key >>> 64).setWidth 64)).toNat % np

section partition

variable {specs : List CompactSpec}

/-- `n_partitions`. -/
def numPartitions (nWorkers : ℕ) (workers : List (WorkerMap specs)) : ℕ :=
  max nWorkers (min ((workers.map WorkerMap.len).sum / 131072 + 1) 1024)

/-- The merged map of one partition: a key of one worker keeps that worker's
accumulators, a key of several is merged. -/
def partitionMap (np p : ℕ) (workers : List (WorkerMap specs)) : List (BitVec 128 × Accs specs) :=
  mergeAll [] (workers.map fun w => w.groups.filter fun g => decide (partitionOf np g.1 = p))

theorem numPartitions_pos (nWorkers : ℕ) (workers : List (WorkerMap specs)) :
    0 < numPartitions nWorkers workers := by
  unfold numPartitions
  omega

theorem nodup_keys_filter {m : List (BitVec 128 × Accs specs)} (h : (keys m).Nodup)
    (p : BitVec 128 × Accs specs → Bool) : (keys (m.filter p)).Nodup :=
  h.sublist (List.filter_sublist.map _)

theorem nodup_keys_partitionMap (np p : ℕ) (workers : List (WorkerMap specs)) :
    (keys (partitionMap np p workers)).Nodup :=
  nodup_keys_mergeAll (by simp) _

theorem valueAt_partitionMap (np p : ℕ) (workers : List (WorkerMap specs)) (k : BitVec 128) :
    valueAt k (partitionMap np p workers) =
      if partitionOf np k = p then valueAt k (compactFullMerge workers) else none := by
  rw [valueAt_compactFullMerge, partitionMap, valueAt_mergeAll, merged_nil_cons]
  · have hcontributions : contributions k (workers.map fun w =>
        w.groups.filter fun g => decide (partitionOf np g.1 = p)) =
        if partitionOf np k = p then contributions k (workers.map WorkerMap.groups) else [] := by
      induction workers with
      | nil => simp [contributions]
      | cons w workers ih =>
          rw [List.map_cons, List.map_cons, contributions_cons, contributions_cons, ih,
            valueAt_filter_key fun key => decide (partitionOf np key = p)]
          by_cases hp : partitionOf np k = p <;> simp [hp]
    unfold merged
    rw [hcontributions]
    by_cases hp : partitionOf np k = p <;> simp [hp]
  · intro m hm
    obtain ⟨w, -, rfl⟩ := List.mem_map.mp hm
    exact nodup_keys_filter w.nodup _

theorem flatMap_partitionMap_perm {np : ℕ} (hnp : 0 < np) (workers : List (WorkerMap specs)) :
    ((List.range np).flatMap fun p => partitionMap np p workers).Perm
      (compactFullMerge workers) := by
  have hmem : ∀ g : BitVec 128 × Accs specs, ∀ p, g ∈ partitionMap np p workers ↔
      partitionOf np g.1 = p ∧ g ∈ compactFullMerge workers := by
    intro g p
    rw [show g = (g.1, g.2) from rfl, mem_iff_valueAt (nodup_keys_partitionMap np p workers),
      mem_iff_valueAt (nodup_keys_compactFullMerge workers), valueAt_partitionMap]
    by_cases hp : partitionOf np g.1 = p <;> simp [hp]
  have hnodup : ((List.range np).flatMap fun p => partitionMap np p workers).Nodup := by
    rw [List.nodup_flatMap]
    constructor
    · intro p _
      exact (nodup_keys_partitionMap np p workers).of_map
    · apply (List.nodup_range).imp
      intro p p' hne g hg hg'
      exact hne (((hmem g p).mp hg).1.symm.trans ((hmem g p').mp hg').1)
  apply (List.perm_ext_iff_of_nodup hnodup (nodup_keys_compactFullMerge workers).of_map).mpr
  intro g
  rw [List.mem_flatMap]
  constructor
  · rintro ⟨p, -, hg⟩
    exact ((hmem g p).mp hg).2
  · intro hg
    refine ⟨partitionOf np g.1, ?_, (hmem g _).mpr ⟨rfl, hg⟩⟩
    exact List.mem_range.mpr (Nat.mod_lt _ hnp)

end partition

/-! ## Selection -/

section select

variable (q : TopNQuery)

/-- The heap of one partition, over the groups HAVING lets through. -/
def localWinners (passes : q.Group → Bool) (order : HashOrder q.Group) (map : List q.Group) :
    List q.Group :=
  ((order.reorder map).filter passes).foldl (offer q.valRank q.heapRank q.topnLimit) []

def sortByVal (order : HashOrder q.Group) (candidates : List q.Group) : List q.Group :=
  (order.reorder candidates).mergeSort fun g g' => decide (q.valRank g ≤ q.valRank g')

/-- The groups `compact_partitioned_topn` finalizes, in order. -/
def partitionedGroups (nWorkers : ℕ) (passes : q.Group → Bool) (order : HashOrder q.Group)
    (workers : List (WorkerMap q.aggSpecs)) : List q.Group :=
  let np := numPartitions nWorkers workers
  let allCandidates := (List.range np).flatMap fun p =>
    localWinners q passes order (partitionMap np p workers)
  (sortByVal q order allCandidates).take q.topnLimit

/-- `compact_topn_select` on one merged map: the heap evicts without looking first. -/
def compactTopnSelect (order : HashOrder q.Group) (map : List q.Group) : List q.Group :=
  sortByVal q order ((order.reorder map).foldl (push q.heapRank q.topnLimit) [])

variable {q}

theorem valRank_le_of_heapRank_le (g g' : q.Group) (h : q.heapRank g ≤ q.heapRank g') :
    q.valRank g ≤ q.valRank g' := by
  rcases Prod.Lex.toLex_le_toLex.mp h with hlt | heq
  · exact hlt.le
  · exact heq.1.le

theorem sortByVal_perm (order : HashOrder q.Group) (candidates : List q.Group) :
    (sortByVal q order candidates).Perm candidates :=
  (List.mergeSort_perm _ _).trans (order.perm candidates)

theorem pairwise_sortByVal (order : HashOrder q.Group) (candidates : List q.Group) :
    (sortByVal q order candidates).Pairwise fun g g' => q.valRank g ≤ q.valRank g' :=
  pairwise_mergeSort_rank q.valRank _

theorem isTopN_localWinners (passes : q.Group → Bool) (order : HashOrder q.Group)
    (map : List q.Group) :
    IsTopN q.valRank q.topnLimit (map.filter passes) (localWinners q passes order map) := by
  have hheap : IsTopN q.valRank q.topnLimit ((order.reorder map).filter passes)
      (localWinners q passes order map) := isTopN_foldl_offer valRank_le_of_heapRank_le _
  exact hheap.perm ((order.perm map).filter passes) (List.Perm.refl _)

/-- The partitioned merge produces first groups of the full merge, sorted. -/
theorem isTopN_partitionedGroups (nWorkers : ℕ) (passes : q.Group → Bool)
    (order : HashOrder q.Group) (workers : List (WorkerMap q.aggSpecs)) :
    IsTopN q.valRank q.topnLimit ((compactFullMerge workers).filter passes)
      (partitionedGroups q nWorkers passes order workers) := by
  have hcovers : Covers q.valRank q.topnLimit
      ((List.range (numPartitions nWorkers workers)).flatMap fun p =>
        (partitionMap (numPartitions nWorkers workers) p workers).filter passes)
      ((List.range (numPartitions nWorkers workers)).flatMap fun p =>
        localWinners q passes order (partitionMap (numPartitions nWorkers workers) p workers)) :=
    covers_flatMap _ fun p _ => (isTopN_localWinners passes order _).covers
  have hsorted : IsTopN q.valRank q.topnLimit _ (partitionedGroups q nWorkers passes order workers) :=
    isTopN_take (pairwise_sortByVal order _)
  have hcandidates := hsorted.perm (sortByVal_perm order _) (List.Perm.refl _)
  have hall := IsTopN.of_covers hcovers hcandidates
  rw [← List.filter_flatMap] at hall
  exact hall.perm ((flatMap_partitionMap_perm (numPartitions_pos _ _) workers).filter passes)
    (List.Perm.refl _)

theorem isTopN_compactTopnSelect (order : HashOrder q.Group) (map : List q.Group) :
    IsTopN q.valRank q.topnLimit map (compactTopnSelect q order map) := by
  have hheap : IsTopN q.valRank q.topnLimit (order.reorder map)
      ((order.reorder map).foldl (push q.heapRank q.topnLimit) []) :=
    isTopN_foldl_push valRank_le_of_heapRank_le _
  exact hheap.perm (order.perm map) (sortByVal_perm order _).symm

end select

/-! ## ORDER BY -/

def SqlValue.toRat : SqlValue → ℚ
  | .word v => v
  | .numeric v => v
  | .float v => v
  | .numericInfinity _ => 0

namespace TopNQuery

variable (q : TopNQuery)

def sortValue (g : q.Group) : Option ℚ :=
  (compactFinalize q.sortSpec.toAggExecSpec _ (g.2 q.sortSlot)).map SqlValue.toRat

/-- The place of a sort value in the query's order, NULLs before or after the rest. -/
def placeOf (v : Option ℚ) : ℤ ×ₗ ℚ :=
  match v with
  | none => toLex (if q.nullsFirst then -1 else 1, 0)
  | some v => toLex (0, if q.ascending then v else -v)

def sortRank (g : q.Group) : ℤ ×ₗ ℚ := q.placeOf (q.sortValue g)

/-- The values of a group in the columns of DISTINCT. -/
def distinctRow (columns : List OutputEntry) (g : q.Group) : List (Option SqlValue) :=
  columns.map (outputValue q.groupSpecs g.1 g.2)

/-- The place of such values, by the sort aggregate among them. -/
def distinctRank (columns : List OutputEntry) (row : List (Option SqlValue)) : ℤ ×ₗ ℚ :=
  q.placeOf ((row.getD (columns.idxOf (.agg q.sortSlot)) none).map SqlValue.toRat)

/-- What is left of some rows by the node above the path that removes duplicates.
Equal rows have one place, so it does not matter which of them stays. -/
def uniqueRows (columns : List OutputEntry) (groups : List q.Group) :
    List (List (Option SqlValue)) :=
  (groups.map (q.distinctRow columns)).dedup

/-- Rows for these groups are in order and give the query's answer over `all`. -/
def Answered (all rows : List q.Group) : Prop :=
  match q.distinct with
  | none => Answers q.sortRank q.limit q.offset q.withTies all rows
  | some columns =>
      (rows.Pairwise fun g g' => q.sortRank g ≤ q.sortRank g') ∧
        Answers (q.distinctRank columns) q.limit q.offset q.withTies
          (q.uniqueRows columns all) (q.uniqueRows columns rows)

/-- Both Top-N selections answer the query, whatever the hash order. -/
def TopNAnswered (nWorkers : ℕ) (passes : q.Group → Bool) (order : HashOrder q.Group)
    (workers : List (WorkerMap q.aggSpecs)) : Prop :=
  q.Answered ((compactFullMerge workers).filter passes)
      (partitionedGroups q nWorkers passes order workers) ∧
    q.Answered (compactFullMerge workers) (compactTopnSelect q order (compactFullMerge workers))

def CountSort : Prop :=
  q.sortSpec.aggType = .countStar ∨ q.sortSpec.aggType = .count ∨
    q.sortSpec.aggType = .countDistinct

/-- The sort aggregate is `AVG` of a bigint column. -/
def AvgBigint : Prop := q.sortSpec.aggType = .avg ∧ q.sortSpec.colTypeOid = .int8

/-- A key that is packed from the query's group columns: one column fills 64 bits. -/
def PackedKey (k : BitVec 128) : Prop := q.groupSpecs.length ≤ 1 → k.toNat < 18446744073709551616

/-- The workers' maps hold packed keys. -/
def Packed (workers : List (WorkerMap q.aggSpecs)) : Prop :=
  ∀ w ∈ workers, ∀ g ∈ w.groups, q.PackedKey g.1

/-- Groups with different keys differ in the columns. -/
def KeysShown (columns : List OutputEntry) : Prop :=
  ∀ g g' : q.Group, q.PackedKey g.1 → q.PackedKey g'.1 →
    q.distinctRow columns g = q.distinctRow columns g' → g.1 = g'.1

/-- The columns have nothing by which groups with one sort value differ. -/
def ValueOnly (columns : List OutputEntry) : Prop :=
  ∀ g g' : q.Group, q.PackedKey g.1 → q.PackedKey g'.1 → q.sortValue g = q.sortValue g' →
    q.distinctRow columns g = q.distinctRow columns g'

/-- The rows that are left out are not missed: ties are not asked for, and groups stay
apart in the columns of DISTINCT; or there is one row to produce, and if ties are asked
for, a duplicate of it is all that ties. -/
def NothingCut : Prop :=
  match q.distinct with
  | none => q.withTies = false
  | some columns =>
      (q.KeysShown columns ∧ q.withTies = false) ∨
        (q.topnLimit = 1 ∧ (q.withTies = false ∨ q.ValueOnly columns))

/-- No group has a NULL sort value, the value is not an average of bigints, and
no tie and no duplicate can reach past the rows produced. -/
structure Sortable (groups : List q.Group) : Prop where
  notNull : ∀ g ∈ groups, q.sortValue g ≠ none
  notAvgBigint : ¬ q.AvgBigint
  noTies : q.withTies = true → groups.length ≤ q.topnLimit
  noDuplicates : ∀ columns, q.distinct = some columns →
    (groups.map (q.distinctRow columns)).Nodup ∨ groups.length ≤ q.topnLimit

end TopNQuery

/-- What finalization adds to a slot's number. -/
def finalShift (spec : CompactSpec) : ℚ :=
  match spec.kind with
  | .minInt | .maxInt => spec.outputTransform.apply 0
  | _ => 0

theorem apply_eq_add (t : OutputTransform) (v : ℤ) : t.apply v = v + t.apply 0 := by
  cases t with
  | none => simp [OutputTransform.apply]
  | pgUsShift delta => simp [OutputTransform.apply]

theorem readAvg_of_ne_zero (sum : ℚ) {count : ℕ} (h : count ≠ 0) :
    readAvg sum count = sum / count := by
  rw [readAvg, if_pos (Nat.pos_of_ne_zero h)]

/-- The number read from a slot is the finalized value, up to a shift that is
the same for all groups. -/
theorem toRat_compactFinalize {spec : CompactSpec}
    (hadmitted : sortAdmitted spec.toAggExecSpec = true)
    (havg : ¬ (spec.aggType = .avg ∧ spec.colTypeOid = .int8)) {acc : Acc spec.kind}
    {v : SqlValue} (h : compactFinalize spec.toAggExecSpec _ acc = some v) :
    v.toRat = readSortVal spec.aggType _ acc + finalShift spec := by
  obtain ⟨⟨aggType, colIdx, colTypeOid, exprKind, constOffset, transform⟩, kind, hkind⟩ := spec
  simp only at hadmitted havg h ⊢
  cases kind with
  | count =>
      simp only [compactFinalize, Option.some.injEq] at h
      subst h
      simp [SqlValue.toRat, readSortVal, finalShift]
  | countDistinctInt =>
      simp only [compactFinalize, Option.some.injEq] at h
      subst h
      simp [SqlValue.toRat, readSortVal, finalShift]
  | minInt =>
      simp only [compactFinalize, Option.map_eq_some_iff] at h
      obtain ⟨w, hw, rfl⟩ := h
      simp only [SqlValue.toRat, readSortVal, finalShift, hw, Option.getD_some]
      rw [apply_eq_add]
      push_cast
      rfl
  | maxInt =>
      simp only [compactFinalize, Option.map_eq_some_iff] at h
      obtain ⟨w, hw, rfl⟩ := h
      simp only [SqlValue.toRat, readSortVal, finalShift, hw, Option.getD_some]
      rw [apply_eq_add]
      push_cast
      rfl
  | sumIntNarrow =>
      simp only [compactFinalize] at h
      split at h
      · cases h
      · rename_i hcount
        rcases (fits_of_compactAccKind hkind).1 with rfl | rfl
        · cases h
          simp [SqlValue.toRat, readSortVal, finalShift]
        · cases h
          simp [SqlValue.toRat, readSortVal, finalShift, readAvg_of_ne_zero _ hcount]
  | sumFloat =>
      simp only [compactFinalize] at h
      split at h
      · cases h
      · rename_i hcount
        obtain ⟨hagg, htype⟩ := fits_of_compactAccKind hkind
        rcases hagg with rfl | rfl
        · rcases htype with rfl | rfl <;> cases hadmitted
        · cases h
          simp [SqlValue.toRat, readSortVal, finalShift, readAvg_of_ne_zero _ hcount]
  | sumInt =>
      -- Only a bigint has this slot; its SUM is not admitted and its AVG is excluded.
      obtain ⟨hagg, htype⟩ := fits_of_compactAccKind hkind
      simp only at hagg htype
      rcases hagg with rfl | rfl
      · subst htype
        cases hadmitted
      · exact absurd ⟨rfl, htype⟩ havg

/-- A count is never NULL. -/
theorem compactFinalize_ne_none {spec : CompactSpec}
    (hcount : spec.aggType = .countStar ∨ spec.aggType = .count ∨ spec.aggType = .countDistinct)
    (acc : Acc spec.kind) : compactFinalize spec.toAggExecSpec _ acc ≠ none := by
  have hfits := fits_of_compactAccKind spec.kind_eq
  obtain ⟨agg, kind, hkind⟩ := spec
  simp only at hcount hfits acc ⊢
  cases kind with
  | count => simp [compactFinalize]
  | countDistinctInt => simp [compactFinalize]
  | sumInt => rcases hfits.1 with h | h <;> simp [h] at hcount
  | sumIntNarrow => rcases hfits.1 with h | h <;> simp [h] at hcount
  | sumFloat => rcases hfits.1 with h | h <;> simp [h] at hcount
  | minInt =>
      have hagg : agg.aggType = .min := hfits
      simp [hagg] at hcount
  | maxInt =>
      have hagg : agg.aggType = .max := hfits
      simp [hagg] at hcount

/-! ## Queries without NULL sort values -/

namespace TopNQuery

variable {q : TopNQuery}

/-- Where no sort value is NULL, the order of the numbers is the query's. -/
theorem sortRank_le_of_valRank_le {g g' : q.Group} (havg : ¬ q.AvgBigint)
    (hg : q.sortValue g ≠ none) (hg' : q.sortValue g' ≠ none) (h : q.valRank g ≤ q.valRank g') :
    q.sortRank g ≤ q.sortRank g' := by
  have hvalue : ∀ g : q.Group, q.sortValue g ≠ none →
      q.sortValue g = some (q.sortVal g + finalShift q.sortSpec) := by
    intro g hne
    obtain ⟨r, hr⟩ := Option.ne_none_iff_exists'.mp hne
    obtain ⟨v, hv, rfl⟩ := Option.map_eq_some_iff.mp hr
    rw [hr, toRat_compactFinalize q.admitted havg hv]
    rfl
  unfold sortRank
  rw [hvalue g hg, hvalue g' hg']
  apply Prod.Lex.toLex_le_toLex.mpr
  right
  refine ⟨rfl, ?_⟩
  unfold valRank at h
  cases hasc : q.ascending with
  | true =>
      simp only [hasc, if_true] at h ⊢
      linarith
  | false =>
      simp only [hasc, Bool.false_eq_true, if_false] at h ⊢
      linarith

theorem placeOf_injective : Function.Injective q.placeOf := by
  have hsign : (if q.nullsFirst = true then (-1 : ℤ) else 1) ≠ 0 := by
    split <;> decide
  rintro (- | v) (- | v') h
  · rfl
  · exact absurd (congrArg Prod.fst h) hsign
  · exact absurd (congrArg Prod.fst h).symm hsign
  · have hv : (if q.ascending then v else -v) = if q.ascending then v' else -v' :=
      congrArg Prod.snd h
    split at hv
    · rw [hv]
    · rw [neg_injective hv]

/-- The sort aggregate is read back from the columns of DISTINCT. -/
theorem distinctRank_distinctRow {columns : List OutputEntry} (h : q.distinct = some columns)
    (g : q.Group) : q.distinctRank columns (q.distinctRow columns g) = q.sortRank g := by
  have hidx := List.idxOf_lt_length_of_mem (q.distinct_sort columns h)
  have hlen : columns.idxOf (.agg q.sortSlot.val) < (q.distinctRow columns g).length := by
    rwa [distinctRow, List.length_map]
  have hentry : columns[columns.idxOf (OutputEntry.agg q.sortSlot.val)] = .agg q.sortSlot.val :=
    List.getElem_idxOf hidx
  have hvalue : (q.distinctRow columns g).getD (columns.idxOf (.agg q.sortSlot.val)) none =
      compactFinalize q.sortSpec.toAggExecSpec _ (g.2 q.sortSlot) := by
    rw [List.getD_eq_getElem _ _ hlen]
    simp only [distinctRow, List.getElem_map, hentry, outputValue, finalizeAll]
    rw [List.getD_eq_getElem _ _ (by simp)]
    simp [sortSpec]
  rw [distinctRank, hvalue]
  rfl

/-- Columns that never tell two groups of one sort value apart have one row for each value. -/
theorem nodup_ranks_uniqueRows {columns : List OutputEntry} (h : q.distinct = some columns)
    (hvalue : q.ValueOnly columns) {groups : List q.Group}
    (hpacked : ∀ g ∈ groups, q.PackedKey g.1) :
    ((q.uniqueRows columns groups).map (q.distinctRank columns)).Nodup := by
  apply (List.nodup_dedup _).map_on
  intro row hrow row' hrow' heq
  obtain ⟨g, hg, rfl⟩ := List.mem_map.mp (List.mem_dedup.mp hrow)
  obtain ⟨g', hg', rfl⟩ := List.mem_map.mp (List.mem_dedup.mp hrow')
  rw [distinctRank_distinctRow h, distinctRank_distinctRow h] at heq
  exact hvalue g g' (hpacked g hg) (hpacked g' hg') (placeOf_injective heq)

/-- First groups by number are first groups in the query's order. -/
theorem sortRank_mono {all : List q.Group} (havg : ¬ q.AvgBigint)
    (hnull : ∀ g ∈ all, q.sortValue g ≠ none) :
    ∀ g ∈ all, ∀ g' ∈ all, q.valRank g ≤ q.valRank g' → q.sortRank g ≤ q.sortRank g' :=
  fun g hg g' hg' => sortRank_le_of_valRank_le havg (hnull g hg) (hnull g' hg')

section answered

variable {all rows : List q.Group} (havg : ¬ q.AvgBigint)
  (hnull : ∀ g ∈ all, q.sortValue g ≠ none) (htop : IsTopN q.valRank q.topnLimit all rows)
  (hsorted : rows.Pairwise fun g g' => q.valRank g ≤ q.valRank g')

include havg hnull htop hsorted

theorem pairwise_sortRank : rows.Pairwise fun g g' => q.sortRank g ≤ q.sortRank g' := by
  apply hsorted.imp_of_mem
  intro g g' hg hg' hle
  exact sortRank_mono havg hnull g (htop.subset hg) g' (htop.subset hg') hle

theorem answered_of_notDistinct (h : q.distinct = none)
    (hties : q.withTies = true → all.length ≤ q.topnLimit) : q.Answered all rows := by
  rw [Answered, h]
  exact (htop.of_le (sortRank_mono havg hnull)).answers
    (pairwise_sortRank havg hnull htop hsorted) hties

/-- Selected groups stay selected without duplicates, when there are no duplicates,
when all groups are selected or when one is. -/
theorem answered_of_distinct {columns : List OutputEntry} (h : q.distinct = some columns)
    (hcut : (all.map (q.distinctRow columns)).Nodup ∨ all.length ≤ q.topnLimit ∨ q.topnLimit = 1)
    (hties : q.withTies = true → all.length ≤ q.topnLimit ∨
      (q.ValueOnly columns ∧ ∀ g ∈ all, q.PackedKey g.1)) : q.Answered all rows := by
  have hrank := pairwise_sortRank havg hnull htop hsorted
  have hselected := htop.of_le (sortRank_mono havg hnull)
  have hplace : ∀ g ∈ all, q.distinctRank columns (q.distinctRow columns g) = q.sortRank g :=
    fun g _ => distinctRank_distinctRow h g
  have hunique : IsTopN (q.distinctRank columns) q.topnLimit (q.uniqueRows columns all)
      (q.uniqueRows columns rows) := by
    rcases hcut with hnodup | hlen | hone
    · exact hselected.dedup_of_nodup _ hplace hnodup
    · exact hselected.dedup_of_length_le _ hlen
    · rw [hone] at hselected ⊢
      exact hselected.dedup_of_limit_one _ hplace
  have hpairwise : (q.uniqueRows columns rows).Pairwise fun row row' =>
      q.distinctRank columns row ≤ q.distinctRank columns row' := by
    apply List.Pairwise.sublist (List.dedup_sublist _)
    rw [List.pairwise_map]
    apply hrank.imp
    intro g g' hle
    rwa [distinctRank_distinctRow h, distinctRank_distinctRow h]
  rw [Answered, h]
  refine ⟨hrank, ?_⟩
  by_cases hasked : q.withTies = true
  · rcases hties hasked with hlen | ⟨hvalue, hpacked⟩
    · apply hunique.answers hpairwise
      intro _
      have hle := (List.dedup_sublist (all.map (q.distinctRow columns))).length_le
      rw [List.length_map] at hle
      exact hle.trans hlen
    · have hplain : Answers (q.distinctRank columns) q.limit q.offset false
          (q.uniqueRows columns all) (q.uniqueRows columns rows) :=
        hunique.answers hpairwise (by simp)
      exact hplain.of_nodup (nodup_ranks_uniqueRows h hvalue hpacked)
        (nodup_ranks_uniqueRows h hvalue fun g hg => hpacked g (htop.subset hg))
  · exact hunique.answers hpairwise fun htrue => absurd htrue hasked

theorem answered_of_isTopN (hsortable : q.Sortable all) : q.Answered all rows := by
  cases h : q.distinct with
  | none => exact answered_of_notDistinct havg hnull htop hsorted h hsortable.noTies
  | some columns =>
      apply answered_of_distinct havg hnull htop hsorted h
      · rcases hsortable.noDuplicates columns h with hnodup | hlen
        · exact Or.inl hnodup
        · exact Or.inr (Or.inl hlen)
      · exact fun hasked => Or.inl (hsortable.noTies hasked)

end answered

theorem pairwise_partitionedGroups (nWorkers : ℕ) (passes : q.Group → Bool)
    (order : HashOrder q.Group) (workers : List (WorkerMap q.aggSpecs)) :
    (partitionedGroups q nWorkers passes order workers).Pairwise fun g g' =>
      q.valRank g ≤ q.valRank g' :=
  (pairwise_sortByVal order _).sublist (List.take_sublist _ _)

theorem Sortable.filter {groups : List q.Group} (h : q.Sortable groups)
    (passes : q.Group → Bool) : q.Sortable (groups.filter passes) where
  notNull g hg := h.notNull g (List.mem_of_mem_filter hg)
  notAvgBigint := h.notAvgBigint
  noTies hties := (List.length_filter_le _ _).trans (h.noTies hties)
  noDuplicates columns hdistinct := by
    rcases h.noDuplicates columns hdistinct with hnodup | hlen
    · exact Or.inl (hnodup.sublist (List.filter_sublist.map _))
    · exact Or.inr ((List.length_filter_le _ _).trans hlen)

theorem topNAnswered_of_sortable {nWorkers : ℕ} {passes : q.Group → Bool}
    {order : HashOrder q.Group} {workers : List (WorkerMap q.aggSpecs)}
    (h : q.Sortable (compactFullMerge workers)) :
    q.TopNAnswered nWorkers passes order workers := by
  have hfilter := h.filter passes
  exact ⟨answered_of_isTopN hfilter.notAvgBigint hfilter.notNull
      (isTopN_partitionedGroups nWorkers passes order workers)
      (pairwise_partitionedGroups nWorkers passes order workers) hfilter,
    answered_of_isTopN h.notAvgBigint h.notNull (isTopN_compactTopnSelect order _)
      (pairwise_sortByVal order _) h⟩

theorem sortValue_ne_none_of_countSort (hcount : q.CountSort) (g : q.Group) :
    q.sortValue g ≠ none := by
  intro h
  exact compactFinalize_ne_none hcount (g.2 q.sortSlot) (Option.map_eq_none_iff.mp h)

end TopNQuery

end DeltaX.Agg
