import DeltaX.Agg.CompactTables
import DeltaX.Agg.CountingFilter
import DeltaX.Agg.Speculative
import Mathlib.Algebra.BigOperators.Fin
import Mathlib.Data.BitVec
/-!
# Top-N by COUNT(*) over a count floor

Pass 1 counts all keys in the counting filter, and a sample of them exactly.  The
sample gives a floor that as many groups reach as are asked for.  Pass 2 aggregates
the rows of the keys that the filter does not rule out.  With the floor 2 each worker
also takes some rows of other keys, so that there are enough groups when most have
one row only.
-/

namespace DeltaX.Agg

open Support Support.KeyedMerge Support.Selection Support.GuardedCounters CountingFilter

abbrev SegmentRows : Type := List (BitVec 128 × InputRow)

/-! ## The sample -/

/-- A worker's `sample`, with 32-bit counts. -/
def sampleMap (keys : List (BitVec 128)) : List (BitVec 128 × BitVec 32) :=
  mergeInto [] ((keys.filter fun key => isSampledHashed (keyHash key)).map fun key => (key, 1))

def sampleCounts (samples : List (List (BitVec 128 × BitVec 32))) : List ℕ :=
  (mergeAll [] samples).map fun g => g.2.toNat

/-! ## Pass 2 -/

/-- The rows `process_segments_compact_filtered` aggregates: those of keys above the floor,
and the first others as long as the filler budget lasts. -/
def admitRows {ρ : Type*} (above : BitVec 128 → Bool) :
    ℕ → List (BitVec 128 × ρ) → List (BitVec 128 × ρ)
  | _, [] => []
  | budget, row :: rows =>
      if above row.1 then row :: admitRows above budget rows
      else match budget with
        | 0 => admitRows above 0 rows
        | budget + 1 => row :: admitRows above budget rows

/-! ## A run -/

/-- `GROUP BY … ORDER BY COUNT(*) DESC LIMIT …` without HAVING. -/
structure CountFloorQuery extends TopNQuery where
  countStar : (aggSpecs.get sortSlot).aggType = .countStar
  descending : ascending = false

/-- Both passes over the segments: how these were spread over the workers, the filter
after pass 1, and what the workers of pass 2 leave. -/
structure CountFloorRun (q : CountFloorQuery) (workers : ℕ) (segments : List SegmentRows) where
  assigned1 : Fin workers → List SegmentRows
  assigned1_perm : (List.ofFn assigned1).flatten.Perm segments
  filter : State (CountingFilter.Slot segments.flatten.length) workers
  pass1 : Pass1 segments.flatten.length (fun i => (assigned1 i).flatten.map Prod.fst) filter
  done : filter.Done
  assigned2 : List (List SegmentRows)
  assigned2_perm : assigned2.flatten.Perm segments

namespace CountFloorRun

variable {q : CountFloorQuery} {workers : ℕ} {segments : List SegmentRows}
  (run : CountFloorRun q workers segments)

def floor : ℕ :=
  pickCountFloor
    (sampleCounts (List.ofFn fun i => sampleMap ((run.assigned1 i).flatten.map Prod.fst)))
    q.topnLimit

def fillerLimit : ℕ := if run.floor = 2 then q.topnLimit else 0

def above (key : BitVec 128) : Bool :=
  aboveFloor segments.flatten.length run.filter.cells run.floor key

def table (segs : List SegmentRows) : CompactTable q.aggSpecs :=
  accumulate (admitRows run.above run.fillerLimit segs.flatten)

/-- These are the maps the workers of pass 2 leave. -/
def Leaves (partials : List (PartialResult q.toTopNQuery)) : Prop :=
  partials.map (fun w => w.groups) = run.assigned2.map fun segs => (run.table segs).entries

end CountFloorRun

/-- The groups of the dispatch: what speculation returns, or else the partitioned merge. -/
def countFloorGroups (q : TopNQuery) (nWorkers : ℕ) (order : HashOrder q.Group)
    (ties : HashOrder (ℤ × BitVec 128)) (partials : List (PartialResult q)) : List q.Group :=
  match compactSpeculativeTopn q order partials ties with
  | some groups => groups
  | none => partitionedGroups q nWorkers (fun _ => true) order
      (partials.map PartialResult.toWorkerMap)

def trueGroups (q : TopNQuery) (segments : List SegmentRows) : List q.Group :=
  (accumulate segments.flatten : CompactTable q.aggSpecs).entries

/-! ## Admission -/

section admitRows

variable {ρ : Type*} {above : BitVec 128 → Bool}

/-- Admission keeps all rows above the floor, and of the others the first ones up to the
budget. -/
theorem filter_admitRows (budget : ℕ) (rows : List (BitVec 128 × ρ)) :
    (admitRows above budget rows).filter (fun row => above row.1) =
        rows.filter (fun row => above row.1) ∧
      (admitRows above budget rows).filter (fun row => !above row.1) =
        (rows.filter fun row => !above row.1).take budget := by
  induction rows generalizing budget with
  | nil => simp [admitRows]
  | cons row rows ih =>
      rw [admitRows.eq_def]
      by_cases habove : above row.1 = true
      · simp [habove, ih]
      · rcases budget with - | budget <;> simp [habove, ih]

theorem admit_sublist (budget : ℕ) (rows : List (BitVec 128 × ρ)) :
    (admitRows above budget rows).Sublist rows := by
  induction rows generalizing budget with
  | nil => simp [admitRows]
  | cons row rows ih =>
      rw [admitRows.eq_def]
      by_cases habove : above row.1 = true
      · simp only [habove, if_true]
        exact (ih budget).cons_cons row
      · rcases budget with - | budget
        · simp only [habove]
          exact (ih 0).cons row
        · simp only [habove]
          exact (ih budget).cons_cons row

end admitRows

/-! ## The floor -/

theorem valuesAt_map_one {β : Type*} [One β] (key : BitVec 128) (sample : List (BitVec 128)) :
    valuesAt key (sample.map fun k => (k, (1 : β))) = List.replicate (sample.count key) 1 := by
  induction sample with
  | nil => rfl
  | cons k sample ih =>
      rw [List.map_cons, valuesAt_cons, ih]
      by_cases hk : k = key
      · subst hk
        rw [if_pos rfl, List.count_cons_self]
        rfl
      · rw [if_neg hk, List.count_cons_of_ne hk]

theorem nodup_keys_sampleMap (sample : List (BitVec 128)) : (keys (sampleMap sample)).Nodup :=
  nodup_keys_mergeInto (by simp) _

/-- The count of a key in the sample is its count at most, whatever wraps around. -/
theorem sample_le {samples : List (List (BitVec 128))} {g : BitVec 128 × BitVec 32}
    (hg : g ∈ mergeAll [] (samples.map sampleMap)) :
    g.2.toNat ≤ (samples.map fun sample => sample.count g.1).sum := by
  have hones : ∀ sample : List (BitVec 128), valueAt g.1 (sampleMap sample) =
      gathered (List.replicate
        ((sample.filter fun key => isSampledHashed (keyHash key)).count g.1) (1 : BitVec 32)) := by
    intro sample
    rw [sampleMap, valueAt_mergeInto_eq_gathered, valuesAt_map_one]
    rfl
  have hmaps : ∀ m ∈ samples.map sampleMap, (keys m).Nodup := by
    intro m hm
    obtain ⟨sample, -, rfl⟩ := List.mem_map.mp hm
    exact nodup_keys_sampleMap sample
  have hvalue := valueAt_of_mem (nodup_keys_mergeAll (by simp) _) (show (g.1, g.2) ∈ _ from hg)
  rw [valueAt_mergeAll hmaps, merged_nil_cons, merged_eq_gathered, List.flatMap_map] at hvalue
  simp only [hones, gathered_flatMap] at hvalue
  -- the sum of ones, in 32 bits
  have hsum : ∀ lengths : List ℕ, (lengths.flatMap fun n => List.replicate n (1 : BitVec 32)).sum =
      ((lengths.sum : ℕ) : BitVec 32) := by
    intro lengths
    induction lengths with
    | nil => rfl
    | cons n lengths ih =>
        rw [List.flatMap_cons, List.sum_append, ih, List.sum_replicate, List.sum_cons, Nat.cast_add,
          nsmul_one]
  have hcount : g.2 = (((samples.map fun sample =>
      (sample.filter fun key => isSampledHashed (keyHash key)).count g.1).sum : ℕ) : BitVec 32) := by
    rw [← hsum, List.flatMap_map]
    unfold gathered at hvalue
    split_ifs at hvalue
    exact (Option.some.inj hvalue).symm
  calc
    g.2.toNat ≤ (samples.map fun sample =>
        (sample.filter fun key => isSampledHashed (keyHash key)).count g.1).sum := by
      rw [hcount]
      exact Nat.mod_le _ _
    _ ≤ (samples.map fun sample => sample.count g.1).sum :=
      List.sum_le_sum fun sample _ => List.Sublist.count_le _ List.filter_sublist

theorem le_countP_of_floor {counts : List ℕ} {limit : ℕ} (h : 2 < pickCountFloor counts limit) :
    limit ≤ counts.countP fun c => decide (pickCountFloor counts limit ≤ c) := by
  have hperm := List.mergeSort_perm counts fun a b => decide (b ≤ a)
  unfold pickCountFloor at h ⊢
  split_ifs at h ⊢ with hshort
  · omega
  · have hidx : limit - 1 < (counts.mergeSort fun a b => decide (b ≤ a)).length := by
      rw [hperm.length_eq]
      omega
    simp only [List.getD_eq_getElem _ _ hidx] at h ⊢
    generalize hfloor : max 2 (min saturate (counts.mergeSort fun a b => decide (b ≤ a))[limit - 1]) =
      floor at h ⊢
    let val : ℕ → ℤ := fun c => -(c : ℤ)
    have horder : (fun a b : ℕ => decide (b ≤ a)) = fun a b : ℕ => decide (val a ≤ val b) := by
      funext a b
      simp [val]
    have hsorted : (counts.mergeSort fun a b => decide (b ≤ a)).Pairwise
        fun a b : ℕ => val a ≤ val b := by
      rw [horder]
      exact pairwise_mergeSort_rank val counts
    have hreach : val (counts.mergeSort fun a b => decide (b ≤ a))[limit - 1] < 1 - floor := by
      simp only [val]
      omega
    have hmany := (getElem_lt_iff hsorted hidx (1 - (floor : ℤ))).mp hreach
    rw [hperm.countP_eq] at hmany
    have hsame : ∀ c : ℕ, decide (val c < 1 - floor) = decide (floor ≤ c) := by
      intro c
      simp only [val, decide_eq_decide]
      omega
    simp only [hsame] at hmany
    omega

/-! ## Counts of groups -/

namespace CountFloorQuery

variable (q : CountFloorQuery)

theorem kind_eq_count : q.sortSpec.kind = .count := by
  have hfits := fits_of_compactAccKind q.sortSpec.kind_eq
  have hstar : q.sortSpec.aggType = .countStar := q.countStar
  cases hkind : q.sortSpec.kind <;> rw [hkind] at hfits <;>
    simp [CompactAccKind.Fits, hstar] at hfits

theorem additive : q.Additive := Or.inl q.kind_eq_count

theorem speculates : q.speculates = true := by
  have hstar : q.sortSpec.aggType = .countStar := q.countStar
  rw [TopNQuery.speculates, hstar, q.kind_eq_count]
  rfl

theorem readWord_updateSlot {spec : AggExecSpec} (hstar : spec.aggType = .countStar) (row : InputRow)
    {k : CompactAccKind} (hk : k = .count) : readWord k (updateSlot spec row k 0) = 1 := by
  subst hk
  simp only [updateSlot, hstar]
  rfl

/-- A row counts one. -/
theorem sortWord_updateGroup (row : InputRow) : q.sortWord (updateGroup row 0) = 1 :=
  readWord_updateSlot q.countStar row q.kind_eq_count

theorem sortWord_of_gathered {rows : SegmentRows} {k : BitVec 128} {accs : Accs q.aggSpecs}
    (h : gathered (rowAccs k rows) = some accs) :
    q.sortWord accs = ((rows.map Prod.fst).count k : ℤ) := by
  have hones : (rowAccs k rows).map q.sortWord =
      List.replicate ((rows.map Prod.fst).count k) (1 : ℤ) := by
    clear h
    unfold rowAccs
    induction rows with
    | nil => rfl
    | cons row rows ih =>
        rw [List.map_cons, valuesAt_cons, List.map_cons]
        by_cases hk : row.1 = k
        · rw [if_pos hk, List.map_cons, ih, q.sortWord_updateGroup, hk, List.count_cons_self]
          rfl
        · rw [if_neg hk, ih, List.count_cons_of_ne hk]
  unfold gathered at h
  split_ifs at h
  rw [← Option.some.inj h, sortWord_sum q.additive, hones, List.sum_replicate]
  simp

theorem sortWord_nonneg (accs : Accs q.aggSpecs) : 0 ≤ q.sortWord accs := by
  have hword : ∀ {k : CompactAccKind} (_ : k = .count) (acc : Acc k), 0 ≤ readWord k acc := by
    rintro k rfl acc
    exact Int.natCast_nonneg acc
  exact hword q.kind_eq_count _

/-- No group has more rows than there are. -/
theorem sortWord_le_length {rows : SegmentRows} {g : q.Group}
    (hg : g ∈ (accumulate rows : CompactTable q.aggSpecs).entries) :
    q.sortWord g.2 ≤ (rows.length : ℤ) := by
  have hvalue := valueAt_of_mem (nodup_keys_entries _) (show (g.1, g.2) ∈ _ from hg)
  rw [valueAt_entries, get_accumulate] at hvalue
  have hcount : (rows.map Prod.fst).count g.1 ≤ (rows.map Prod.fst).length := List.count_le_length
  rw [List.length_map] at hcount
  rw [q.sortWord_of_gathered hvalue]
  exact_mod_cast hcount

/-- The place of a group in the answer. -/
theorem valRank_eq (g : q.Group) : q.valRank g = -(q.sortWord g.2 : ℚ) := by
  rw [valRank_eq_wordRank q.speculates, TopNQuery.wordRank, TopNQuery.turned, q.descending]
  simp

end CountFloorQuery

/-! ## Rows and the keys they have -/

def rowCount (segments : List SegmentRows) (k : BitVec 128) : ℕ :=
  (segments.flatten.map Prod.fst).count k

theorem rowAccs_eq {specs : List CompactSpec} (k : BitVec 128) (rows : SegmentRows) :
    (rowAccs k rows : List (Accs specs)) =
      (rows.filter fun row => decide (row.1 = k)).map fun row => updateGroup row.2 0 := by
  rw [rowAccs, valuesAt, List.filter_map, List.map_map]
  rfl

theorem length_filter_key (k : BitVec 128) (rows : SegmentRows) :
    (rows.filter fun row => decide (row.1 = k)).length = (rows.map Prod.fst).count k := by
  rw [← List.countP_eq_length_filter, List.count, List.countP_map]
  rfl

theorem count_flatten_flatten (parts : List (List SegmentRows)) (k : BitVec 128) :
    (parts.flatten.flatten.map Prod.fst).count k =
      (parts.map fun segs => (segs.flatten.map Prod.fst).count k).sum := by
  induction parts with
  | nil => rfl
  | cons segs parts ih =>
      rw [List.flatten_cons, List.flatten_append, List.map_append, List.count_append, ih,
        List.map_cons, List.sum_cons]

namespace CountFloorRun

variable {q : CountFloorQuery} {workers : ℕ} {segments : List SegmentRows}
  (run : CountFloorRun q workers segments)

/-- The workers of pass 1 see every row once. -/
theorem sum_assigned1 (k : BitVec 128) :
    ∑ i, ((run.assigned1 i).flatten.map Prod.fst).count k = rowCount segments k := by
  have hflat := run.assigned1_perm.flatMap_right id
  rw [List.flatMap_id, List.flatMap_id] at hflat
  calc
    ∑ i, ((run.assigned1 i).flatten.map Prod.fst).count k =
        ((List.ofFn run.assigned1).map fun segs => (segs.flatten.map Prod.fst).count k).sum := by
      rw [List.map_ofFn, List.sum_ofFn]
      rfl
    _ = ((List.ofFn run.assigned1).flatten.flatten.map Prod.fst).count k :=
      (count_flatten_flatten _ k).symm
    _ = rowCount segments k := (hflat.map Prod.fst).count_eq k

/-- A group that reaches the floor is never filtered out. -/
theorem above_of_le (hworkers : workers ≤ 21) {k : BitVec 128}
    (hk : run.floor ≤ rowCount segments k) : run.above k = true := by
  apply aboveFloor_of_done hworkers run.pass1 run.done (pickCountFloor_le _ _)
  rw [run.sum_assigned1]
  exact hk

theorem rowCount_lt_of_below (hworkers : workers ≤ 21) {k : BitVec 128}
    (hk : run.above k = false) : rowCount segments k < run.floor := by
  by_contra hle
  rw [run.above_of_le hworkers (not_lt.mp hle)] at hk
  cases hk

theorem two_le_floor : 2 ≤ run.floor := by
  unfold floor pickCountFloor
  split_ifs
  · exact le_refl 2
  · exact le_max_left _ _

/-- A key with a cell at zero is below any floor. -/
theorem above_eq_false {k : BitVec 128}
    (hcell : run.filter.cells (slotPair segments.flatten.length k).1 = 0) : run.above k = false := by
  have hfloor := run.two_le_floor
  have hbelow : ¬ run.floor ≤ run.filter.cells (slotPair segments.flatten.length k).1 := by omega
  rw [above, aboveFloor, decide_eq_false hbelow, Bool.false_and]

/-- The rows that are admitted by the workers of pass 2. -/
def admitted : SegmentRows :=
  run.assigned2.flatMap fun segs => admitRows run.above run.fillerLimit segs.flatten

theorem assigned2_rows_perm :
    (run.assigned2.flatMap fun segs => segs.flatten).Perm segments.flatten := by
  have hflat := run.assigned2_perm.flatMap_right id
  rwa [List.flatMap_id, List.flatMap_id, List.flatten_flatten] at hflat

theorem admitted_subperm : run.admitted.Subperm segments.flatten := by
  have hsub : ∀ parts : List (List SegmentRows),
      (parts.flatMap fun segs => admitRows run.above run.fillerLimit segs.flatten).Sublist
        (parts.flatMap fun segs => segs.flatten) := by
    intro parts
    induction parts with
    | nil => exact List.Sublist.refl _
    | cons segs parts ih =>
        rw [List.flatMap_cons, List.flatMap_cons]
        exact (admit_sublist _ _).append ih
  exact (hsub run.assigned2).subperm.trans run.assigned2_rows_perm.subperm

theorem rowAccs_admitted_of_above {k : BitVec 128} (hk : run.above k = true) :
    (rowAccs k run.admitted : List (Accs q.aggSpecs)).Perm (rowAccs k segments.flatten) := by
  have hkeep : ∀ rows : SegmentRows, (rows.filter fun row => decide (row.1 = k)) =
      (rows.filter fun row => run.above row.1).filter fun row => decide (row.1 = k) := by
    intro rows
    rw [List.filter_filter]
    apply List.filter_congr
    intro row _
    by_cases hrow : row.1 = k
    · simp [hrow, hk]
    · simp [hrow]
  have hfilter : (run.admitted.filter fun row => decide (row.1 = k)) =
      (run.assigned2.flatMap fun segs => segs.flatten).filter fun row => decide (row.1 = k) := by
    rw [admitted, List.filter_flatMap, List.filter_flatMap]
    congr 1
    funext segs
    rw [hkeep, (filter_admitRows _ _).1, ← hkeep]
  rw [rowAccs_eq, rowAccs_eq, hfilter]
  exact (run.assigned2_rows_perm.filter _).map _

/-- A key that was admitted without being above the floor has one row. -/
theorem rowCount_le_one (hworkers : workers ≤ 21) (hfloor : run.floor = 2) {k : BitVec 128}
    (hk : run.above k = false) : rowCount segments k ≤ 1 := by
  have hlt := run.rowCount_lt_of_below hworkers hk
  omega

/-- Without fillers nothing is admitted below the floor. -/
theorem rowAccs_admitted_of_noFiller (hfloor : run.floor ≠ 2) {k : BitVec 128}
    (hk : run.above k = false) : (rowAccs k run.admitted : List (Accs q.aggSpecs)) = [] := by
  rw [rowAccs_eq, List.map_eq_nil_iff, List.filter_eq_nil_iff]
  intro row hrow hkey
  rw [decide_eq_true_eq] at hkey
  obtain ⟨segs, -, hadmit⟩ := List.mem_flatMap.mp hrow
  have hnone : (admitRows run.above run.fillerLimit segs.flatten).filter _ = _ :=
    (filter_admitRows run.fillerLimit segs.flatten).2
  rw [fillerLimit, if_neg hfloor, List.take_zero, List.filter_eq_nil_iff] at hnone
  rw [fillerLimit, if_neg hfloor] at hadmit
  apply hnone row hadmit
  rw [hkey, hk]
  rfl

theorem gathered_admitted (hworkers : workers ≤ 21) (k : BitVec 128) :
    gathered (rowAccs k run.admitted : List (Accs q.aggSpecs)) = none ∨
      gathered (rowAccs k run.admitted : List (Accs q.aggSpecs)) =
        gathered (rowAccs k segments.flatten) := by
  by_cases habove : run.above k = true
  · exact Or.inr (gathered_perm (run.rowAccs_admitted_of_above habove))
  · rw [Bool.not_eq_true] at habove
    by_cases hfloor : run.floor = 2
    · have hone := run.rowCount_le_one hworkers hfloor habove
      have hsub := run.admitted_subperm.filter fun row => decide (row.1 = k)
      rw [rowAccs_eq, rowAccs_eq]
      rcases hadm : run.admitted.filter (fun row => decide (row.1 = k)) with - | ⟨row, rest⟩
      · rw [hadm]
        exact Or.inl rfl
      · right
        apply gathered_perm
        apply List.Perm.map
        apply hsub.perm_of_length_le
        rw [length_filter_key, hadm, List.length_cons]
        exact hone.trans (Nat.le_add_left 1 _)
    · rw [run.rowAccs_admitted_of_noFiller hfloor habove]
      exact Or.inl rfl

section partials

variable {run} {partials : List (PartialResult q.toTopNQuery)}

theorem valueAt_merged (h : run.Leaves partials) (k : BitVec 128) :
    valueAt k (compactFullMerge (partials.map PartialResult.toWorkerMap)) =
      gathered (rowAccs k run.admitted) := by
  have hmaps : (partials.map PartialResult.toWorkerMap).map WorkerMap.groups =
      run.assigned2.map fun segs => (run.table segs).entries := by
    rw [List.map_map]
    exact h
  rw [valueAt_compactFullMerge, hmaps, merged_eq_gathered, List.flatMap_map]
  simp only [valueAt_entries, table, get_accumulate]
  rw [gathered_flatMap]
  simp only [rowAccs, admitted, List.map_flatMap, valuesAt_flatMap]

theorem valueAt_trueGroups (k : BitVec 128) :
    valueAt k (trueGroups q.toTopNQuery segments) = gathered (rowAccs k segments.flatten) := by
  rw [trueGroups, valueAt_entries, get_accumulate]

theorem nodup_keys_trueGroups (q : TopNQuery) (segments : List SegmentRows) :
    (keys (trueGroups q segments)).Nodup := nodup_keys_entries _

theorem sortWord_trueGroups {g : q.Group} (hg : g ∈ trueGroups q.toTopNQuery segments) :
    q.sortWord g.2 = (rowCount segments g.1 : ℤ) := by
  apply q.sortWord_of_gathered
  rw [← valueAt_trueGroups]
  exact valueAt_of_mem (nodup_keys_trueGroups _ _) hg

theorem rowCount_pos {g : q.Group} (hg : g ∈ trueGroups q.toTopNQuery segments) :
    0 < rowCount segments g.1 := by
  have hvalue := valueAt_of_mem (nodup_keys_trueGroups q.toTopNQuery segments)
    (show (g.1, g.2) ∈ _ from hg)
  rw [valueAt_trueGroups, rowAccs_eq, gathered] at hvalue
  split_ifs at hvalue with hempty
  rw [rowCount, ← length_filter_key]
  apply List.length_pos_of_ne_nil
  intro hnil
  rw [hnil] at hempty
  exact hempty rfl

theorem mem_trueGroups (hworkers : workers ≤ 21) (h : run.Leaves partials) {g : q.Group}
    (hg : g ∈ compactFullMerge (partials.map PartialResult.toWorkerMap)) :
    g ∈ trueGroups q.toTopNQuery segments := by
  have hvalue := valueAt_of_mem (nodup_keys_compactFullMerge _) (show (g.1, g.2) ∈ _ from hg)
  rw [valueAt_merged h] at hvalue
  apply mem_of_valueAt
  rw [valueAt_trueGroups]
  rcases run.gathered_admitted hworkers g.1 with hnone | hsame
  · rw [hnone] at hvalue
    cases hvalue
  · rw [← hsame, hvalue]

theorem exists_merged_of_above (h : run.Leaves partials) {k : BitVec 128} (hk : run.above k = true)
    (hpos : 0 < rowCount segments k) :
    ∃ g ∈ compactFullMerge (partials.map PartialResult.toWorkerMap), g.1 = k := by
  have hvalue := valueAt_merged h k
  rw [gathered_perm (run.rowAccs_admitted_of_above hk), rowAccs_eq, gathered] at hvalue
  rw [rowCount, ← length_filter_key] at hpos
  rw [if_neg (by
    rw [List.isEmpty_iff, List.map_eq_nil_iff]
    exact List.ne_nil_of_length_pos hpos)] at hvalue
  exact ⟨_, mem_of_valueAt hvalue, rfl⟩

theorem le_countP_of_keys {α : Type*} {m : List (BitVec 128 × α)} {ks : List (BitVec 128)}
    (hks : ks.Nodup) {p : BitVec 128 × α → Bool} (h : ∀ k ∈ ks, ∃ g ∈ m, g.1 = k ∧ p g = true) :
    ks.length ≤ m.countP p := by
  have hsub : ks ⊆ keys (m.filter p) := by
    intro k hk
    obtain ⟨g, hg, rfl, hp⟩ := h k hk
    exact List.mem_map_of_mem (List.mem_filter.mpr ⟨hg, hp⟩)
  calc
    ks.length ≤ (keys (m.filter p)).length := (List.subperm_of_subset hks hsub).length_le
    _ = m.countP p := by rw [keys, List.length_map, List.countP_eq_length_filter]

/-- Enough groups that reach a floor above 2 are merged. -/
theorem le_countP_of_two_lt (hworkers : workers ≤ 21) (h : run.Leaves partials)
    (hfloor : 2 < run.floor) :
    q.topnLimit ≤ (compactFullMerge (partials.map PartialResult.toWorkerMap)).countP fun g =>
      decide (run.floor ≤ rowCount segments g.1) := by
  let samples := (List.ofFn run.assigned1).map fun segs => segs.flatten.map Prod.fst
  have hsamples : (List.ofFn fun i => sampleMap ((run.assigned1 i).flatten.map Prod.fst)) =
      samples.map sampleMap := by
    rw [List.map_map, List.map_ofFn]
    rfl
  have hmany := le_countP_of_floor hfloor
  rw [hsamples, sampleCounts, List.countP_map, List.countP_eq_length_filter] at hmany
  have hnodup : (keys (mergeAll [] (samples.map sampleMap))).Nodup :=
    nodup_keys_mergeAll (by simp) _
  have hks := hnodup.sublist (List.filter_sublist.map Prod.fst :
    (keys ((mergeAll [] (samples.map sampleMap)).filter fun g => decide (run.floor ≤ g.2.toNat))).Sublist _)
  calc
    q.topnLimit ≤ (keys ((mergeAll [] (samples.map sampleMap)).filter fun g =>
        decide (run.floor ≤ g.2.toNat))).length := by
      rw [keys, List.length_map]
      have hfloors : pickCountFloor (sampleCounts (samples.map sampleMap)) q.topnLimit =
          run.floor := by
        rw [floor, hsamples]
      rw [← hfloors]
      exact hmany
    _ ≤ _ := le_countP_of_keys hks ?_
  intro k hk
  obtain ⟨g, hg, rfl⟩ := List.mem_map.mp hk
  obtain ⟨hsample, hreach⟩ := List.mem_filter.mp hg
  have hcount : run.floor ≤ rowCount segments g.1 := by
    calc
      run.floor ≤ g.2.toNat := of_decide_eq_true hreach
      _ ≤ (samples.map fun sample => sample.count g.1).sum := sample_le hsample
      _ = ∑ i, ((run.assigned1 i).flatten.map Prod.fst).count g.1 := by
        rw [List.map_map, List.map_ofFn, List.sum_ofFn]
        rfl
      _ = rowCount segments g.1 := run.sum_assigned1 g.1
  obtain ⟨m, hm, hkey⟩ := exists_merged_of_above h (run.above_of_le hworkers hcount)
    (Nat.lt_of_lt_of_le (Nat.lt_of_lt_of_le Nat.two_pos run.two_le_floor) hcount)
  exact ⟨m, hm, hkey, by rw [hkey]; exact decide_eq_true hcount⟩

theorem exists_merged_of_admitted (h : run.Leaves partials) {row : BitVec 128 × InputRow}
    (hrow : row ∈ run.admitted) :
    ∃ g ∈ compactFullMerge (partials.map PartialResult.toWorkerMap), g.1 = row.1 := by
  have hvalue := valueAt_merged h row.1
  have hmem : row ∈ run.admitted.filter fun r => decide (r.1 = row.1) :=
    List.mem_filter.mpr ⟨hrow, decide_eq_true rfl⟩
  rw [rowAccs_eq, gathered, if_neg (by
    rw [List.isEmpty_iff, List.map_eq_nil_iff]
    exact List.ne_nil_of_mem hmem)] at hvalue
  exact ⟨_, mem_of_valueAt hvalue, rfl⟩

/-- Enough groups are merged when the fillers of a worker ran out. -/
theorem le_length_of_missing (hworkers : workers ≤ 21) (h : run.Leaves partials)
    (hfloor : run.floor = 2) {r : q.Group} (hr : r ∈ trueGroups q.toTopNQuery segments)
    (hmissing : r.1 ∉ keys (compactFullMerge (partials.map PartialResult.toWorkerMap))) :
    q.topnLimit ≤ (compactFullMerge (partials.map PartialResult.toWorkerMap)).length := by
  have hbelow : run.above r.1 = false := by
    by_contra habove
    rw [Bool.not_eq_false] at habove
    obtain ⟨g, hg, hkey⟩ := exists_merged_of_above h habove (rowCount_pos hr)
    exact hmissing (hkey ▸ List.mem_map_of_mem hg)
  -- a row of the missing group, and the worker that saw it
  have hrow : ∃ row ∈ segments.flatten, row.1 = r.1 := by
    have hpos := rowCount_pos hr
    rw [rowCount, List.count_pos_iff] at hpos
    obtain ⟨row, hrow, hkey⟩ := List.mem_map.mp hpos
    exact ⟨row, hrow, hkey⟩
  obtain ⟨row, hrow, hkey⟩ := hrow
  obtain ⟨segs, hsegs, hrow⟩ := List.mem_flatMap.mp (run.assigned2_rows_perm.mem_iff.mpr hrow)
  let others := segs.flatten.filter fun row => !run.above row.1
  have hfillers : (admitRows run.above run.fillerLimit segs.flatten).filter (fun row => !run.above row.1) =
      others.take q.topnLimit := by
    rw [(filter_admitRows _ _).2, fillerLimit, if_pos hfloor]
  have hadmitted : ∀ row ∈ others.take q.topnLimit, row ∈ run.admitted := by
    intro row hmem
    rw [← hfillers] at hmem
    exact List.mem_flatMap.mpr ⟨segs, hsegs, (List.mem_filter.mp hmem).1⟩
  have hspent : q.topnLimit ≤ others.length := by
    by_contra hshort
    have hmem : row ∈ others.take q.topnLimit := by
      rw [List.take_of_length_le (by omega)]
      exact List.mem_filter.mpr ⟨hrow, by rw [hkey, hbelow]; rfl⟩
    obtain ⟨g, hg, hgkey⟩ := exists_merged_of_admitted h (hadmitted row hmem)
    exact hmissing (hkey ▸ hgkey ▸ List.mem_map_of_mem hg)
  -- the fillers are single rows, so each of them is a group
  have hnodup : ((others.take q.topnLimit).map Prod.fst).Nodup := by
    rw [List.nodup_iff_count_le_one]
    intro k
    by_cases hk : k ∈ (others.take q.topnLimit).map Prod.fst
    · obtain ⟨row, hmem, rfl⟩ := List.mem_map.mp hk
      have hother := (List.mem_filter.mp (List.mem_of_mem_take hmem)).2
      rw [Bool.not_eq_true'] at hother
      have hpart : ((others.take q.topnLimit).map Prod.fst).Sublist
          ((run.assigned2.flatMap fun segs => segs.flatten).map Prod.fst) := by
        apply List.Sublist.map
        exact ((List.take_sublist _ _).trans List.filter_sublist).trans
          (List.sublist_flatten_of_mem (List.mem_map_of_mem hsegs))
      calc
        ((others.take q.topnLimit).map Prod.fst).count row.1 ≤
            ((run.assigned2.flatMap fun segs => segs.flatten).map Prod.fst).count row.1 :=
          hpart.count_le _
        _ = rowCount segments row.1 := (run.assigned2_rows_perm.map Prod.fst).count_eq _
        _ ≤ 1 := run.rowCount_le_one hworkers hfloor hother
    · rw [List.count_eq_zero_of_not_mem hk]
      exact Nat.zero_le 1
  have hlen : ((others.take q.topnLimit).map Prod.fst).length = q.topnLimit := by
    rw [List.length_map, List.length_take]
    omega
  have hgroups : ∀ k ∈ (others.take q.topnLimit).map Prod.fst,
      ∃ g ∈ compactFullMerge (partials.map PartialResult.toWorkerMap), g.1 = k ∧ true = true := by
    intro k hk
    obtain ⟨row, hmem, rfl⟩ := List.mem_map.mp hk
    obtain ⟨g, hg, hgkey⟩ := exists_merged_of_admitted h (hadmitted row hmem)
    exact ⟨g, hg, hgkey, rfl⟩
  calc
    q.topnLimit = ((others.take q.topnLimit).map Prod.fst).length := hlen.symm
    _ ≤ (compactFullMerge (partials.map PartialResult.toWorkerMap)).countP fun _ => true :=
      le_countP_of_keys hnodup hgroups
    _ = (compactFullMerge (partials.map PartialResult.toWorkerMap)).length := by
      rw [List.countP_true]

/-- The merge holds what the true Top-N is selected from. -/
theorem covers_merged (hworkers : workers ≤ 21) (h : run.Leaves partials) :
    Covers q.valRank q.topnLimit (trueGroups q.toTopNQuery segments)
      (compactFullMerge (partials.map PartialResult.toWorkerMap)) := by
  let merged := compactFullMerge (partials.map PartialResult.toWorkerMap)
  have hrank : ∀ g ∈ trueGroups q.toTopNQuery segments,
      q.valRank g = -(rowCount segments g.1 : ℚ) := by
    intro g hg
    rw [q.valRank_eq, sortWord_trueGroups hg]
    push_cast
    rfl
  refine ⟨(trueGroups q.toTopNQuery segments).filter fun g => decide (g.1 ∉ keys merged), ?_, ?_⟩
  · have hnodup : (merged ++ (trueGroups q.toTopNQuery segments).filter fun g =>
        decide (g.1 ∉ keys merged)).Nodup := by
      rw [List.nodup_append]
      refine ⟨(nodup_keys_compactFullMerge _).of_map, ?_, ?_⟩
      · exact (nodup_keys_trueGroups _ _).of_map.filter _
      · intro g hg g' hg' heq
        have hout := of_decide_eq_true (List.mem_filter.mp hg').2
        exact hout (heq ▸ List.mem_map_of_mem hg)
    apply (List.perm_ext_iff_of_nodup hnodup (nodup_keys_trueGroups _ _).of_map).mpr
    intro g
    rw [List.mem_append, List.mem_filter, decide_eq_true_eq]
    constructor
    · rintro (hg | ⟨hg, -⟩)
      · exact mem_trueGroups hworkers h hg
      · exact hg
    · intro hg
      by_cases hkey : g.1 ∈ keys merged
      · obtain ⟨m, hm, hmkey⟩ := List.mem_map.mp hkey
        have hvalue := valueAt_of_mem (nodup_keys_trueGroups q.toTopNQuery segments)
          (show (g.1, g.2) ∈ _ from hg)
        have hmvalue := valueAt_of_mem (nodup_keys_trueGroups q.toTopNQuery segments)
          (show (m.1, m.2) ∈ _ from mem_trueGroups hworkers h hm)
        rw [hmkey, hvalue] at hmvalue
        have hsame : m = g := Prod.ext hmkey (Option.some.inj hmvalue).symm
        exact Or.inl (hsame ▸ hm)
      · exact Or.inr ⟨hg, hkey⟩
  · intro r hr
    obtain ⟨hrtrue, hmissing⟩ := List.mem_filter.mp hr
    have hmissing : r.1 ∉ keys merged := of_decide_eq_true hmissing
    have hbelow : run.above r.1 = false := by
      by_contra habove
      rw [Bool.not_eq_false] at habove
      obtain ⟨g, hg, hkey⟩ := exists_merged_of_above h habove (rowCount_pos hrtrue)
      exact hmissing (hkey ▸ List.mem_map_of_mem hg)
    have hlt := run.rowCount_lt_of_below hworkers hbelow
    rcases Nat.lt_or_ge 2 run.floor with hfloor | hfloor
    · apply (le_countP_of_two_lt hworkers h hfloor).trans
      apply List.countP_mono_left
      intro g hg hreach
      rw [decide_eq_true_eq] at hreach ⊢
      rw [hrank g (mem_trueGroups hworkers h hg), hrank r hrtrue, neg_le_neg_iff]
      exact_mod_cast (hlt.le.trans hreach)
    · have hfloor : run.floor = 2 := le_antisymm hfloor run.two_le_floor
      have hall : merged.countP (fun g => decide (q.valRank g ≤ q.valRank r)) = merged.length := by
        rw [List.countP_eq_length]
        intro g hg
        have hgtrue := mem_trueGroups hworkers h hg
        have hpos := rowCount_pos hgtrue
        rw [decide_eq_true_eq, hrank g hgtrue, hrank r hrtrue, neg_le_neg_iff]
        have hle : rowCount segments r.1 ≤ rowCount segments g.1 := by omega
        exact_mod_cast hle
      rw [hall]
      exact le_length_of_missing hworkers h hfloor hrtrue hmissing

end partials

/-! ## Speculation over the partials -/

/-- Speculation is not tried, no key is with two workers, every key is listed, or the
answer of speculation does not rest on a tie beyond the floors. -/
def Settled (q : CountFloorQuery) (order : HashOrder q.Group)
    (partials : List (PartialResult q.toTopNQuery)) : Prop :=
  q.NotTried order partials ∨ q.Exclusive partials ∨ q.AllListed order partials ∨
    q.ReachFloors order partials ∨ q.Spread order partials

theorem floorsBound (q : CountFloorQuery) (order : HashOrder q.Group)
    (partials : List (PartialResult q.toTopNQuery)) : q.FloorsBound order partials := by
  intro w _ k _ _ w' _ _
  rw [TopNQuery.turned, q.descending]
  show -topkFloor q.toTopNQuery order w' ≤ 0
  rcases topkFloor_cases order w' with hzero | ⟨g, -, hfloor⟩
  · rw [hzero, neg_zero]
  · have hnonneg := q.sortWord_nonneg g.2
    rw [hfloor]
    omega

/-- Numbers of the workers that no group's count falls short of add up to the number of
rows at most. -/
theorem runningInWords {partials : List (PartialResult q.toTopNQuery)} (h : run.Leaves partials)
    (hrows : segments.flatten.length ≤ 9223372036854775807) {f : PartialResult q.toTopNQuery → ℤ}
    (hnonneg : ∀ w, 0 ≤ f w)
    (hle : ∀ w bound, 0 ≤ bound → (∀ g ∈ w.groups, q.sortWord g.2 ≤ bound) → f w ≤ bound) :
    RunningInWords (partials.map f) := by
  have hsum : ∀ (parts : List (List SegmentRows)) (partials : List (PartialResult q.toTopNQuery)),
      partials.map (fun w => w.groups) = (parts.map fun segs => (run.table segs).entries) →
      (partials.map f).sum ≤
        ((parts.flatMap fun segs => admitRows run.above run.fillerLimit segs.flatten).length : ℤ) := by
    intro parts
    induction parts with
    | nil =>
        intro partials heq
        rw [List.map_nil, List.map_eq_nil_iff] at heq
        rw [heq]
        exact le_refl 0
    | cons segs parts ih =>
        intro partials heq
        rw [List.map_cons] at heq
        obtain ⟨w, partials, rfl, hw, hrest⟩ := List.map_eq_cons_iff.mp heq
        rw [List.map_cons, List.sum_cons, List.flatMap_cons, List.length_append, Nat.cast_add]
        apply add_le_add _ (ih partials hrest)
        apply hle w _ (Int.natCast_nonneg _)
        intro g hg
        rw [hw] at hg
        exact q.sortWord_le_length hg
  apply runningInWords_of_nonneg
  · intro v hv
    obtain ⟨w, -, rfl⟩ := List.mem_map.mp hv
    exact hnonneg w
  · calc
      (partials.map f).sum ≤ (run.admitted.length : ℤ) := hsum run.assigned2 partials h
      _ ≤ (segments.flatten.length : ℤ) := by exact_mod_cast run.admitted_subperm.length_le
      _ ≤ 9223372036854775807 := by exact_mod_cast hrows

/-- Counts over all workers stay within 64 bits when the number of rows does. -/
theorem totalsInWords {partials : List (PartialResult q.toTopNQuery)} (h : run.Leaves partials)
    (hrows : segments.flatten.length ≤ 9223372036854775807) (order : HashOrder q.Group) :
    q.TotalsInWords order partials := by
  intro k _
  apply run.runningInWords h hrows
  · intro w
    unfold wordAt
    split
    · exact le_refl 0
    · exact q.sortWord_nonneg _
  · intro w bound hbound hwords
    unfold wordAt
    split
    · exact hbound
    · rename_i accs hvalue
      exact hwords (k, accs) (mem_of_valueAt hvalue)

theorem floorsInWords {partials : List (PartialResult q.toTopNQuery)} (h : run.Leaves partials)
    (hrows : segments.flatten.length ≤ 9223372036854775807) (order : HashOrder q.Group) :
    q.FloorsInWords order partials := by
  apply run.runningInWords h hrows
  · intro w
    show 0 ≤ topkFloor q.toTopNQuery order w
    rcases topkFloor_cases order w with hzero | ⟨g, -, hfloor⟩
    · exact hzero.ge
    · rw [hfloor]
      exact q.sortWord_nonneg _
  · intro w bound hbound hwords
    show topkFloor q.toTopNQuery order w ≤ bound
    rcases topkFloor_cases order w with hzero | ⟨g, hg, hfloor⟩
    · rw [hzero]
      exact hbound
    · rw [hfloor]
      exact hwords g ((isTopN_topkGroups w).subset hg)

/-- However the workers' steps fall and the segments are spread, with at most 21 workers
a group that reaches the floor is kept with all its rows, the partitioned merge returns
first groups by true count with their true aggregates, and so does the dispatch where
speculation is settled.  Float sums are left out: here they are rationals, while the
rounded ones of the source depend on how the rows are spread. -/
theorem isTopN_countFloor (_hexact : ExactSums q.aggSpecs) (hworkers : workers ≤ 21)
    {partials : List (PartialResult q.toTopNQuery)} (h : run.Leaves partials)
    (hrows : segments.flatten.length ≤ 9223372036854775807)
    (nWorkers : ℕ) (order : HashOrder q.Group) (ties : HashOrder (ℤ × BitVec 128)) :
    (∀ k, run.floor ≤ rowCount segments k → run.above k = true) ∧
      IsTopN q.valRank q.topnLimit (trueGroups q.toTopNQuery segments)
        (partitionedGroups q.toTopNQuery nWorkers (fun _ => true) order
          (partials.map PartialResult.toWorkerMap)) ∧
      (Settled q order partials →
        IsTopN q.valRank q.topnLimit (trueGroups q.toTopNQuery segments)
          (countFloorGroups q.toTopNQuery nWorkers order ties partials)) := by
  have hpartitioned : IsTopN q.valRank q.topnLimit (trueGroups q.toTopNQuery segments)
      (partitionedGroups q.toTopNQuery nWorkers (fun _ => true) order
        (partials.map PartialResult.toWorkerMap)) := by
    apply IsTopN.of_covers (covers_merged hworkers h)
    have hselect := isTopN_partitionedGroups nWorkers (fun _ => true) order
      (partials.map PartialResult.toWorkerMap)
    rwa [List.filter_true] at hselect
  refine ⟨fun k => run.above_of_le hworkers, hpartitioned, ?_⟩
  intro hsettled
  unfold countFloorGroups
  rcases hspec : compactSpeculativeTopn q.toTopNQuery order partials ties with - | groups
  · exact hpartitioned
  · have hbounded : q.Bounded order partials := by
      have htotals := run.totalsInWords h hrows order
      rcases hsettled with hnot | hexcl | hlisted | htest
      · rw [speculation_eq_none_of_notTried hnot] at hspec
        cases hspec
      · exact Or.inl hexcl
      · exact Or.inr ⟨q.additive, htotals, Or.inl hlisted⟩
      · exact Or.inr ⟨q.additive, htotals,
          Or.inr ⟨run.floorsInWords h hrows order, floorsBound q order partials, htest⟩⟩
    obtain ⟨hspeculates, -, htop⟩ := isTopN_of_speculation hspec hbounded
    apply IsTopN.of_covers (covers_merged hworkers h)
    apply htop.of_le
    intro g _ g' _ hle
    rw [valRank_eq_wordRank hspeculates, valRank_eq_wordRank hspeculates]
    exact_mod_cast hle

/-- The workers of pass 2 leave their maps. -/
theorem exists_leaves (hrows : segments.flatten.length ≤ 9223372036854775807) :
    ∃ partials, run.Leaves partials := by
  have hparts : ∀ parts : List (List SegmentRows),
      (∀ segs ∈ parts, (admitRows run.above run.fillerLimit segs.flatten).length ≤
        9223372036854775807) →
      ∃ partials : List (PartialResult q.toTopNQuery),
        partials.map (fun w => w.groups) = parts.map fun segs => (run.table segs).entries := by
    intro parts
    induction parts with
    | nil => exact fun _ => ⟨[], rfl⟩
    | cons segs parts ih =>
        intro hlen
        obtain ⟨partials, hpartials⟩ := ih fun s hs => hlen s (List.mem_cons_of_mem segs hs)
        have hfirst := hlen segs List.mem_cons_self
        let first : PartialResult q.toTopNQuery :=
          { groups := (run.table segs).entries
            nodup := nodup_keys_entries _
            words := fun g hg => by
              have hle := q.sortWord_le_length hg
              have hnonneg := q.sortWord_nonneg g.2
              omega }
        exact ⟨first :: partials, by rw [List.map_cons, List.map_cons, hpartials]⟩
  apply hparts
  intro segs hsegs
  have hpart : (admitRows run.above run.fillerLimit segs.flatten).Sublist run.admitted :=
    List.sublist_flatten_of_mem (List.mem_map_of_mem hsegs)
  exact (hpart.length_le.trans run.admitted_subperm.length_le).trans hrows

/-- Any segments have a run, here with all of them at the first worker. -/
theorem nonempty (q : CountFloorQuery) (hworkers : 0 < workers) (segments : List SegmentRows) :
    Nonempty (CountFloorRun q workers segments) := by
  let assigned1 : Fin workers → List SegmentRows := fun i => if i.val = 0 then segments else []
  have hperm : (List.ofFn assigned1).flatten.Perm segments := by
    rcases workers with - | workers
    · omega
    · have hrest : (List.ofFn fun i : Fin workers => assigned1 i.succ).flatten = [] := by
        rw [List.flatten_eq_nil_iff]
        intro segs hsegs
        obtain ⟨i, rfl⟩ := List.mem_ofFn.mp hsegs
        exact if_neg (Nat.succ_ne_zero _)
      rw [List.ofFn_succ, List.flatten_cons, hrest, List.append_nil]
      exact List.Perm.refl _
  have hend : ∃ filter : State (CountingFilter.Slot segments.flatten.length) workers,
      Pass1 segments.flatten.length (fun i => (assigned1 i).flatten.map Prod.fst) filter ∧
        filter.Done ∧ _ := exists_done _
  obtain ⟨filter, hpass1, hdone, -⟩ := hend
  exact ⟨⟨assigned1, hperm, filter, hpass1, hdone, [segments], by simp⟩⟩

end CountFloorRun

/-- `SELECT k, COUNT(*) … GROUP BY k ORDER BY COUNT(*) DESC LIMIT 1`. -/
def countFloorQuery : CountFloorQuery where
  toTopNQuery := countTopQuery
  countStar := rfl
  descending := rfl

def twoSegments : List SegmentRows :=
  [[(7, fun _ => none), (7, fun _ => none)], [(7, fun _ => none), (3, fun _ => none)]]

/-- Eight workers over two segments. -/
theorem isTopN_countFloor_8_workers :
    ∃ (run : CountFloorRun countFloorQuery 8 twoSegments)
      (partials : List (PartialResult countTopQuery)), run.Leaves partials ∧
        (∀ k, run.floor ≤ rowCount twoSegments k → run.above k = true) ∧
        ∀ nWorkers order, IsTopN countTopQuery.valRank 1 (trueGroups countTopQuery twoSegments)
          (partitionedGroups countTopQuery nWorkers (fun _ => true) order
            (partials.map PartialResult.toWorkerMap)) := by
  have hrun : Nonempty (CountFloorRun countFloorQuery 8 twoSegments) :=
    CountFloorRun.nonempty countFloorQuery (by decide) twoSegments
  obtain ⟨run⟩ := hrun
  obtain ⟨partials, hleaves⟩ := run.exists_leaves (by decide)
  have hexact := run.isTopN_countFloor exactSums_countStar (by decide) hleaves (by decide)
  refine ⟨run, partials, hleaves, (hexact 1 (HashOrder.asIs _) (HashOrder.asIs _)).1, ?_⟩
  intro nWorkers order
  exact (hexact nWorkers order (HashOrder.asIs _)).2.1

/-! ## Too many workers -/

/-- Every run keeps the groups that reach the floor, and returns first groups by true
count, each with the aggregates of all its rows. -/
def CountFloorExact (workers : ℕ) : Prop :=
  ∀ (q : CountFloorQuery) (segments : List SegmentRows) (run : CountFloorRun q workers segments),
    segments.flatten.length ≤ 9223372036854775807 →
      (∀ k, run.floor ≤ rowCount segments k → run.above k = true) ∧
      ∀ partials, run.Leaves partials → ∀ nWorkers order ties,
        IsTopN q.valRank q.topnLimit (trueGroups q.toTopNQuery segments)
          (countFloorGroups q.toTopNQuery nWorkers order ties partials)

/-- The rows of the crowded run, a segment for each worker: 235 rows of key 0 in the
first and one in each other. -/
def crowdedSegments : List SegmentRows :=
  List.ofFn fun i : Fin 22 => (crowdedKeys 22 0 i).map fun key => (key, fun _ => none)

theorem length_crowdedSegments : crowdedSegments.flatten.length = 256 := by
  have hlen : ∀ i : Fin 22, ((crowdedKeys 22 0 i).map fun key =>
      ((key, fun _ => none) : BitVec 128 × InputRow)).length = if i.val = 0 then 235 else 1 := by
    intro i
    rw [List.length_map, crowdedKeys]
    split_ifs
    · exact List.length_replicate
    · rfl
  rw [crowdedSegments, List.length_flatten, List.map_ofFn, List.sum_ofFn]
  simp only [Function.comp_apply, hlen]
  decide

theorem le_rowCount_crowdedSegments : saturate ≤ rowCount crowdedSegments 0 := by
  have hfirst : ((crowdedKeys 22 0 ⟨0, by decide⟩).map fun key =>
      ((key, fun _ => none) : BitVec 128 × InputRow)) ∈ crowdedSegments :=
    List.mem_ofFn.mpr ⟨_, rfl⟩
  calc
    saturate = (List.replicate saturate (0 : BitVec 128)).count 0 := List.count_replicate_self.symm
    _ ≤ rowCount crowdedSegments 0 := by
      apply List.Sublist.count_le
      have hsub := (List.sublist_flatten_of_mem hfirst).map Prod.fst
      rw [List.map_map] at hsub
      simpa [crowdedKeys, Function.comp_def] using hsub

theorem exists_crowded_run : ∃ run : CountFloorRun countFloorQuery 22 crowdedSegments,
    run.above 0 = false := by
  obtain ⟨filter, hpass1, hdone, hzero⟩ := exists_forgotten crowdedSegments.flatten.length 0
  let assigned1 : Fin 22 → List SegmentRows := fun i =>
    [(crowdedKeys 22 0 i).map fun key => (key, fun _ => none)]
  have hkeys : (fun i => (assigned1 i).flatten.map Prod.fst) = crowdedKeys 22 0 := by
    funext i
    simp [assigned1, Function.comp_def]
  let run : CountFloorRun countFloorQuery 22 crowdedSegments :=
    { assigned1 := assigned1
      assigned1_perm := List.Perm.of_eq rfl
      filter := filter
      pass1 := hkeys ▸ hpass1
      done := hdone
      assigned2 := [crowdedSegments]
      assigned2_perm := by simp }
  exact ⟨run, run.above_eq_false hzero⟩

/-- Twenty-two workers can drop the only group. -/
theorem not_countFloorExact_22_workers : ¬ CountFloorExact 22 := by
  intro hexact
  obtain ⟨run, hbelow⟩ := exists_crowded_run
  have hfloor : run.floor ≤ saturate := pickCountFloor_le _ _
  have hreach : run.floor ≤ rowCount crowdedSegments 0 := hfloor.trans le_rowCount_crowdedSegments
  have hrows : crowdedSegments.flatten.length ≤ 9223372036854775807 := by
    rw [length_crowdedSegments]
    decide
  have habove := (hexact countFloorQuery crowdedSegments run hrows).1 0 hreach
  rw [hbelow] at habove
  exact Bool.false_ne_true habove

end DeltaX.Agg
