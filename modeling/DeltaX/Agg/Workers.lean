import DeltaX.Agg.Accumulators
import Mathlib.Data.Finset.Dedup
import Mathlib.Data.List.GetD
import Mathlib.Data.List.Perm.Basic
/-!
# Worker partials

Each worker of the compact path leaves a map from packed keys to accumulators.
The full merge adopts the largest map and merges the others into it; a bare
LIMIT takes the first keys of the largest map and merges those alone.
-/

namespace DeltaX.Agg

open Support.KeyedMerge

/-! ## Partials and rows -/

inductive OutputEntry
  | agg (ai : ℕ)
  | group (gi : ℕ)
  | const (value : Option SqlValue)
  | derivedGroup (baseGi : ℕ) (delta : ℤ)
deriving DecidableEq, Repr

/-- The part of a query the merge paths read. -/
structure CompactQuery where
  aggSpecs : List CompactSpec
  groupSpecs : List GroupByColSpec
  outputMap : List OutputEntry
deriving DecidableEq

/-- A worker's `compact_map` with its storage, in the order the map iterates. -/
structure WorkerMap (specs : List CompactSpec) where
  groups : List (BitVec 128 × Accs specs)
  nodup : (keys groups).Nodup

def WorkerMap.len {specs : List CompactSpec} (w : WorkerMap specs) : ℕ := w.groups.length

def WorkerMap.empty (specs : List CompactSpec) : WorkerMap specs := ⟨[], List.nodup_nil⟩

def outputValue {specs : List CompactSpec} (groupSpecs : List GroupByColSpec)
    (packedKey : BitVec 128) (accs : Accs specs) : OutputEntry → Option SqlValue
  | .agg ai => (finalizeAll accs).getD ai none
  | .group gi =>
      some (groupOutput ((groupSpecs.map GroupByColSpec.expr).getD gi .column)
        (keyAt (unpackIntKeys packedKey groupSpecs.length) gi))
  | .derivedGroup baseGi delta =>
      some (.word (keyAt (unpackIntKeys packedKey groupSpecs.length) baseGi +
        BitVec.ofInt 64 delta).toInt)
  | .const value => value

def outputRow (q : CompactQuery) (packedKey : BitVec 128) (accs : Accs q.aggSpecs) :
    List (Option SqlValue) :=
  q.outputMap.map (outputValue q.groupSpecs packedKey accs)

/-! ## Full merge -/

section merge

variable {specs : List CompactSpec}

/-- The position of the last of the largest sizes, as `max_by_key` has it. -/
def largestIdx : List ℕ → ℕ
  | [] => 0
  | [_] => 0
  | n :: m :: ns =>
      if (m :: ns).getD (largestIdx (m :: ns)) 0 < n then 0 else largestIdx (m :: ns) + 1

/-- The worker with the most groups.  There is always a worker. -/
def largest (workers : List (WorkerMap specs)) : WorkerMap specs :=
  workers.getD (largestIdx (workers.map WorkerMap.len)) (WorkerMap.empty specs)

/-- `Vec::swap_remove`: the last element takes the place of the removed one. -/
def swapRemove {α : Type*} (l : List α) (i : ℕ) : List α :=
  match l.getLast? with
  | none => []
  | some last => (l.set i last).dropLast

def compactFullMerge (workers : List (WorkerMap specs)) : List (BitVec 128 × Accs specs) :=
  let others := swapRemove workers (largestIdx (workers.map WorkerMap.len))
  mergeAll (largest workers).groups (others.map WorkerMap.groups)

theorem largestIdx_lt {sizes : List ℕ} (h : sizes ≠ []) : largestIdx sizes < sizes.length := by
  induction sizes with
  | nil => exact absurd rfl h
  | cons n ns ih =>
      match ns, ih with
      | [], _ => simp [largestIdx]
      | m :: ns, ih =>
          have hlt := ih (List.cons_ne_nil _ _)
          rw [largestIdx]
          split
          · simp
          · simpa using hlt

theorem le_getD_largestIdx {sizes : List ℕ} {n : ℕ} (h : n ∈ sizes) :
    n ≤ sizes.getD (largestIdx sizes) 0 := by
  induction sizes with
  | nil => cases h
  | cons k ns ih =>
      match ns, ih with
      | [], _ =>
          rw [List.mem_singleton.mp h]
          exact le_refl k
      | m :: ns, ih =>
          rw [largestIdx]
          split
          · rename_i hlt
            rcases List.mem_cons.mp h with rfl | h
            · exact le_refl n
            · exact (ih h).trans hlt.le
          · rename_i hle
            rcases List.mem_cons.mp h with rfl | h
            · exact Nat.le_of_not_lt hle
            · exact ih h

theorem cons_swapRemove_perm {α : Type*} (l : List α) {i : ℕ} (hi : i < l.length) :
    (l[i] :: swapRemove l i).Perm l := by
  rcases List.eq_nil_or_concat' l with rfl | ⟨front, last, rfl⟩
  · simp at hi
  · simp only [swapRemove, List.getLast?_concat]
    by_cases hfront : i < front.length
    · rw [List.getElem_append_left hfront, List.set_append_left _ _ hfront, List.dropLast_concat]
      have hset : (front.set i last).Perm (last :: (front.take i ++ front.drop (i + 1))) := by
        rw [List.set_eq_take_append_cons_drop, if_pos hfront]
        exact List.perm_middle
      have hsplit : front.Perm (front[i] :: (front.take i ++ front.drop (i + 1))) := by
        have heq : front = front.take i ++ front[i] :: front.drop (i + 1) := by
          rw [← List.drop_eq_getElem_cons hfront, List.take_append_drop]
        have hmiddle : (front.take i ++ front[i] :: front.drop (i + 1)).Perm
            (front[i] :: (front.take i ++ front.drop (i + 1))) := List.perm_middle
        rwa [← heq] at hmiddle
      calc
        (front[i] :: front.set i last).Perm
            (front[i] :: last :: (front.take i ++ front.drop (i + 1))) := hset.cons _
        _ |>.Perm (last :: front[i] :: (front.take i ++ front.drop (i + 1))) :=
          List.Perm.swap _ _ _
        _ |>.Perm (last :: front) := hsplit.symm.cons _
        _ |>.Perm (front ++ [last]) := (List.perm_append_singleton last front).symm
    · have hlast : i = front.length := by
        simp at hi
        omega
      subst hlast
      simpa using (List.perm_append_singleton last front).symm

theorem len_le_largest {workers : List (WorkerMap specs)} {w : WorkerMap specs}
    (hw : w ∈ workers) : w.len ≤ (largest workers).len := by
  have hmem : w.len ∈ workers.map WorkerMap.len := List.mem_map_of_mem hw
  calc
    w.len ≤ (workers.map WorkerMap.len).getD (largestIdx (workers.map WorkerMap.len)) 0 :=
      le_getD_largestIdx hmem
    _ = (largest workers).len := List.getD_map workers (WorkerMap.empty specs) _

theorem largest_mem {workers : List (WorkerMap specs)} (h : workers ≠ []) :
    largest workers ∈ workers := by
  have hlt := largestIdx_lt (mt List.map_eq_nil_iff.mp h : workers.map WorkerMap.len ≠ [])
  rw [List.length_map] at hlt
  unfold largest
  rw [List.getD_eq_getElem _ _ hlt]
  exact List.getElem_mem hlt

theorem valueAt_compactFullMerge (workers : List (WorkerMap specs)) (k : BitVec 128) :
    valueAt k (compactFullMerge workers) = merged k (workers.map WorkerMap.groups) := by
  unfold compactFullMerge
  rw [valueAt_mergeAll fun m hm => by
    obtain ⟨w, -, rfl⟩ := List.mem_map.mp hm
    exact w.nodup]
  by_cases h : workers = []
  · subst h
    rfl
  · apply merged_perm
    have hlt := largestIdx_lt (mt List.map_eq_nil_iff.mp h : workers.map WorkerMap.len ≠ [])
    rw [List.length_map] at hlt
    have hperm := (cons_swapRemove_perm workers hlt).map WorkerMap.groups
    unfold largest
    rwa [List.getD_eq_getElem _ _ hlt]

theorem nodup_keys_compactFullMerge (workers : List (WorkerMap specs)) :
    (keys (compactFullMerge workers)).Nodup :=
  nodup_keys_mergeAll (largest workers).nodup _

end merge

/-! ## Bare LIMIT -/

section bareLimit

variable {specs : List CompactSpec}

/-- One key of `compact_bare_limit`, merged over the workers in order. -/
def mergeKey (packedKey : BitVec 128) (workers : List (WorkerMap specs)) : Accs specs :=
  workers.foldl
    (fun accs w =>
      match valueAt packedKey w.groups with
      | none => accs
      | some held => accs + held)
    0

def bareLimitGroups (n : ℕ) (workers : List (WorkerMap specs)) :
    List (BitVec 128 × Accs specs) :=
  ((keys (largest workers).groups).take n).map fun packedKey => (packedKey, mergeKey packedKey workers)

def compactBareLimit (q : CompactQuery) (n : ℕ) (workers : List (WorkerMap q.aggSpecs)) :
    List (List (Option SqlValue)) :=
  (bareLimitGroups n workers).map fun g => outputRow q g.1 g.2

def groupKeys (workers : List (WorkerMap specs)) : Finset (BitVec 128) :=
  (workers.flatMap fun w => keys w.groups).toFinset

theorem mergeKey_eq_sum (packedKey : BitVec 128) (workers : List (WorkerMap specs)) :
    mergeKey packedKey workers = (contributions packedKey (workers.map WorkerMap.groups)).sum := by
  -- Generalized over the accumulators merged so far.
  have hfold : ∀ accs : Accs specs,
      workers.foldl (fun accs w =>
        match valueAt packedKey w.groups with
        | none => accs
        | some held => accs + held) accs =
        accs + (contributions packedKey (workers.map WorkerMap.groups)).sum := by
    induction workers with
    | nil => simp [contributions]
    | cons w workers ih =>
        intro accs
        rw [List.foldl_cons, ih, List.map_cons, contributions_cons]
        cases valueAt packedKey w.groups <;> simp [add_assoc]
  rw [mergeKey, hfold, zero_add]

theorem keys_bareLimitGroups (n : ℕ) (workers : List (WorkerMap specs)) :
    keys (bareLimitGroups n workers) = (keys (largest workers).groups).take n := by
  simp [keys, bareLimitGroups, Function.comp_def]

theorem mem_groupKeys {workers : List (WorkerMap specs)} {k : BitVec 128} :
    k ∈ groupKeys workers ↔ ∃ w ∈ workers, k ∈ keys w.groups := by
  simp [groupKeys]

/-- The full merge has a group for each key of a worker, merged over all workers. -/
theorem mem_compactFullMerge {workers : List (WorkerMap specs)} {g : BitVec 128 × Accs specs} :
    g ∈ compactFullMerge workers ↔ g.1 ∈ groupKeys workers ∧ mergeKey g.1 workers = g.2 := by
  rw [show g = (g.1, g.2) from rfl, mem_iff_valueAt (nodup_keys_compactFullMerge workers),
    valueAt_compactFullMerge, merged_eq_some_iff, mem_groupKeys, mergeKey_eq_sum]
  simp

theorem valueAt_fullMerge_of_bareLimit {n : ℕ} {workers : List (WorkerMap specs)}
    {g : BitVec 128 × Accs specs} (hg : g ∈ bareLimitGroups n workers) :
    valueAt g.1 (compactFullMerge workers) = some g.2 := by
  obtain ⟨k, hk, rfl⟩ := List.mem_map.mp hg
  have hne : workers ≠ [] := by
    rintro rfl
    simp [largest, WorkerMap.empty] at hk
  rw [← mem_iff_valueAt (nodup_keys_compactFullMerge workers), mem_compactFullMerge]
  exact ⟨mem_groupKeys.mpr ⟨_, largest_mem hne, List.mem_of_mem_take hk⟩, rfl⟩

theorem keys_subset_groupKeys {workers : List (WorkerMap specs)} {w : WorkerMap specs}
    (hw : w ∈ workers) : (keys w.groups).toFinset ⊆ groupKeys workers := by
  intro k hk
  exact mem_groupKeys.mpr ⟨w, hw, List.mem_toFinset.mp hk⟩

theorem card_keys (w : WorkerMap specs) : (keys w.groups).toFinset.card = w.len := by
  rw [List.toFinset_card_of_nodup w.nodup, keys, List.length_map, WorkerMap.len]

theorem card_groupKeys_le_iff {workers : List (WorkerMap specs)} (hne : workers ≠ []) :
    (groupKeys workers).card ≤ (largest workers).len ↔
      ∃ w ∈ workers, ∀ w' ∈ workers, ∀ k ∈ keys w'.groups, k ∈ keys w.groups := by
  constructor
  · intro h
    refine ⟨largest workers, largest_mem hne, ?_⟩
    intro w' hw' k hk
    have heq : (keys (largest workers).groups).toFinset = groupKeys workers :=
      Finset.eq_of_subset_of_card_le (keys_subset_groupKeys (largest_mem hne))
        (by rw [card_keys]; exact h)
    have hmem : k ∈ groupKeys workers := mem_groupKeys.mpr ⟨w', hw', hk⟩
    rw [← heq] at hmem
    exact List.mem_toFinset.mp hmem
  · rintro ⟨w, hw, hall⟩
    have hsub : groupKeys workers ⊆ (keys w.groups).toFinset := by
      intro k hk
      obtain ⟨w', hw', hk'⟩ := mem_groupKeys.mp hk
      exact List.mem_toFinset.mpr (hall w' hw' k hk')
    calc
      (groupKeys workers).card ≤ (keys w.groups).toFinset.card := Finset.card_le_card hsub
      _ = w.len := card_keys w
      _ ≤ (largest workers).len := len_le_largest hw

end bareLimit

/-- A bare LIMIT is answered with as many groups as there are up to the limit,
each under its own key and with the aggregates of the full merge. -/
def AnswersBareLimit (q : CompactQuery) (n : ℕ) (workers : List (WorkerMap q.aggSpecs)) : Prop :=
  ∃ groups : List (BitVec 128 × Accs q.aggSpecs),
    compactBareLimit q n workers = groups.map (fun g => outputRow q g.1 g.2) ∧
    groups.length = min n (groupKeys workers).card ∧
    (keys groups).Nodup ∧
    ∀ g ∈ groups, valueAt g.1 (compactFullMerge workers) = some g.2

/-- The limit is met exactly when one worker alone has that many groups, or has
every group there is.  Float sums are left out: here they are rationals, while the
rounded ones of the source depend on which worker is merged first. -/
theorem answersBareLimit_iff (q : CompactQuery) (_hexact : ExactSums q.aggSpecs) (n : ℕ)
    (first : WorkerMap q.aggSpecs) (others : List (WorkerMap q.aggSpecs)) :
    AnswersBareLimit q n (first :: others) ↔
      (∃ w ∈ first :: others, n ≤ w.groups.length) ∨
        ∃ w ∈ first :: others, ∀ w' ∈ first :: others, ∀ k ∈ keys w'.groups, k ∈ keys w.groups := by
  have hne : first :: others ≠ [] := List.cons_ne_nil _ _
  generalize first :: others = workers at hne ⊢
  have hlen : (bareLimitGroups n workers).length = min n (largest workers).len := by
    simp [bareLimitGroups, keys, WorkerMap.len]
  have hsome : (∃ w ∈ workers, n ≤ w.groups.length) ↔ n ≤ (largest workers).len := by
    constructor
    · rintro ⟨w, hw, hn⟩
      exact hn.trans (len_le_largest hw)
    · intro hn
      exact ⟨largest workers, largest_mem hne, hn⟩
  have hle : (largest workers).len ≤ (groupKeys workers).card := by
    rw [← card_keys]
    exact Finset.card_le_card (keys_subset_groupKeys (largest_mem hne))
  rw [hsome, ← card_groupKeys_le_iff hne]
  clear hsome
  constructor
  · rintro ⟨groups, hrows, hcount, -, -⟩
    have hlengths := congrArg List.length hrows
    rw [compactBareLimit, List.length_map, List.length_map, hlen, hcount] at hlengths
    omega
  · intro h
    refine ⟨bareLimitGroups n workers, rfl, ?_, ?_, fun g => valueAt_fullMerge_of_bareLimit⟩
    · rw [hlen]
      omega
    · rw [keys_bareLimitGroups]
      exact (largest workers).nodup.sublist (List.take_sublist _ _)

/-- `COUNT(*)`. -/
def countStarSpec : CompactSpec :=
  ⟨⟨.countStar, -1, .other 0, .column, 0, .none⟩, .count, rfl⟩

/-- `SELECT k, COUNT(*) … GROUP BY k`. -/
def countQuery : CompactQuery :=
  ⟨[countStarSpec], [⟨0, .int8, .column⟩], [.group 0, .agg 0]⟩

def oneRowWorker (k : BitVec 128) : WorkerMap countQuery.aggSpecs where
  groups := [(k, fun | ⟨0, _⟩ => (1 : ℕ))]
  nodup := List.nodup_singleton k

theorem exactSums_countStar : ExactSums [countStarSpec] := by
  intro spec hspec
  rw [List.mem_singleton.mp hspec]
  decide

/-- Two workers with the same group: `LIMIT 2` gets the one row there is. -/
theorem answersBareLimit_same_group :
    AnswersBareLimit countQuery 2 [oneRowWorker 1, oneRowWorker 1] := by
  apply (answersBareLimit_iff countQuery exactSums_countStar 2 _ _).mpr
  right
  refine ⟨oneRowWorker 1, List.mem_cons_self, ?_⟩
  intro w hw k hk
  rcases List.mem_pair.mp hw with rfl | rfl <;> exact hk

/-- Two workers with a group each: `LIMIT 2` gets one row. -/
theorem not_answersBareLimit_two_workers :
    ¬ AnswersBareLimit countQuery 2 [oneRowWorker 1, oneRowWorker 2] := by
  rintro ⟨groups, hrows, hcount, -, -⟩
  have hone : (compactBareLimit countQuery 2 [oneRowWorker 1, oneRowWorker 2]).length = 1 := rfl
  have htwo : (groupKeys [oneRowWorker 1, oneRowWorker 2]).card = 2 := by decide
  rw [hrows, List.length_map, hcount, htwo] at hone
  omega

end DeltaX.Agg
