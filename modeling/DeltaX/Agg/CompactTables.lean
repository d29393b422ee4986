import DeltaX.Agg.TopN
import DeltaX.Support.IndexedStore
/-!
# Group tables of the compact path

A worker's table is a hash map from packed keys to group indices beside a storage of
accumulator slots.  The full merge folds whole tables into the largest one; the
partitioned merge routes group references by a hash of their key, and copies slots only
for keys that a second worker has too.  Both end with what one table over all rows
would hold.
-/

namespace DeltaX.Agg

open Support Support.KeyedMerge

/-! ## Rows into a table -/

/-- A datum as `datum_to_i128` and `datum_to_f64` read it. -/
structure RowValue where
  int : ℤ
  float : ℚ
deriving DecidableEq

/-- The columns of a row, `none` for NULL. -/
abbrev InputRow : Type := ℤ → Option RowValue

/-- What is added to a sum: the value, or the value plus the constant. -/
def sumDelta (spec : AggExecSpec) (v : ℤ) : ℤ :=
  if spec.exprKind = .addConst then v + spec.constOffset else v

def updateSlot (spec : AggExecSpec) (row : InputRow) : (k : CompactAccKind) → Acc k → Acc k
  | .count, (n : ℕ) =>
      match spec.aggType with
      | .countStar => n + 1
      | .count => if (row spec.colIdx).isSome then n + 1 else n
      | _ => n
  | .sumInt, (acc : ℤ × ℕ) =>
      match row spec.colIdx with
      | some d => (acc.1 + sumDelta spec d.int, acc.2 + 1)
      | none => acc
  | .sumIntNarrow, (acc : ℤ × ℕ) =>
      match row spec.colIdx with
      | some d => (acc.1 + sumDelta spec d.int, acc.2 + 1)
      | none => acc
  | .sumFloat, (acc : ℚ × ℕ) =>
      match row spec.colIdx with
      | some d => (acc.1 + (if spec.exprKind = .addConst then d.float + spec.constOffset
          else d.float), acc.2 + 1)
      | none => acc
  | .minInt, (acc : MinAcc) =>
      match row spec.colIdx with
      | some d => acc.merge ⟨some d.int⟩
      | none => acc
  | .maxInt, (acc : MaxAcc) =>
      match row spec.colIdx with
      | some d => acc.merge ⟨some d.int⟩
      | none => acc
  | .countDistinctInt, (acc : DistinctAcc) =>
      match row spec.colIdx with
      | some d => ⟨insert d.int acc.seen⟩
      | none => acc

variable {specs : List CompactSpec}

def updateGroup (row : InputRow) (accs : Accs specs) : Accs specs := fun slot =>
  updateSlot (specs.get slot).toAggExecSpec row _ (accs slot)

/-- `compact_map` with `compact_storage` and `cd_sidecar`. -/
abbrev CompactTable (specs : List CompactSpec) : Type := IndexedStore (BitVec 128) (Accs specs)

/-- The aggregation loop over rows with their packed keys. -/
def accumulate (rows : List (BitVec 128 × InputRow)) : CompactTable specs :=
  rows.foldl (fun table row => table.upsert row.1 (updateGroup row.2)) IndexedStore.empty

/-! ## Merging tables -/

def CompactTable.accs (table : CompactTable specs) (gidx : ℕ) : Accs specs :=
  table.storage.getD gidx 0

def mergeGroupInto (src dst : Accs specs) : Accs specs := fun slot => dst slot + src slot

/-- `merge_compact_results`; `order` is the order in which a map iterates. -/
def mergeCompactResults (order : HashOrder (BitVec 128 × ℕ)) (global worker : CompactTable specs) :
    CompactTable specs :=
  (order.reorder worker.map).foldl
    (fun table entry => table.upsert entry.1 (mergeGroupInto (worker.accs entry.2))) global

def fullMergeTable (order : HashOrder (BitVec 128 × ℕ)) (tables : List (CompactTable specs)) :
    CompactTable specs :=
  let idx := largestIdx (tables.map fun table => table.map.length)
  (swapRemove tables idx).foldl (mergeCompactResults order) (tables.getD idx IndexedStore.empty)

/-! ## The partitioned merge -/

/-- A reference to a group: one worker's, or one in `dup_storage`. -/
inductive GroupRef
  | single (worker gidx : ℕ)
  | dup (d : ℕ)
deriving DecidableEq, Repr

/-- An entry of a partition: the key, the worker and the group index. -/
structure PartEntry where
  key : BitVec 128
  worker : ℕ
  gidx : ℕ
deriving DecidableEq

/-- The entries a worker's table has for partition `p`. -/
def routed (order : HashOrder (BitVec 128 × ℕ)) (np p : ℕ) (worker : CompactTable specs × ℕ) :
    List PartEntry :=
  ((order.reorder worker.1.map).filter fun entry => decide (partitionOf np entry.1 = p)).map
    fun entry => ⟨entry.1, worker.2, entry.2⟩

/-- The vectors of a partition, one for each chunk of the workers. -/
def partVecs (order : HashOrder (BitVec 128 × ℕ)) (np p : ℕ)
    (chunks : List (List (CompactTable specs × ℕ))) : List (List PartEntry) :=
  chunks.map fun chunk => chunk.flatMap (routed order np p)

/-- `map` and `dup_storage` of a partition. -/
structure PartitionView (specs : List CompactSpec) where
  map : List (BitVec 128 × GroupRef)
  dupStorage : List (Accs specs)

def workerAccs (tables : List (CompactTable specs)) (worker gidx : ℕ) : Accs specs :=
  (tables.getD worker IndexedStore.empty).accs gidx

def resolve (tables : List (CompactTable specs)) (view : PartitionView specs) :
    GroupRef → Accs specs
  | .single worker gidx => workerAccs tables worker gidx
  | .dup d => view.dupStorage.getD d 0

/-- One entry into the partition's map; a key that is seen again moves to `dup_storage`. -/
def addEntry (tables : List (CompactTable specs)) (view : PartitionView specs) (e : PartEntry) :
    PartitionView specs :=
  let src := workerAccs tables e.worker e.gidx
  match valueAt e.key view.map with
  | none => { view with map := view.map ++ [(e.key, .single e.worker e.gidx)] }
  | some (.dup d) =>
      { view with dupStorage := view.dupStorage.modify d (mergeGroupInto src) }
  | some (.single w0 g0) =>
      let promoted := mergeGroupInto (workerAccs tables w0 g0) 0
      { map := KeyedMerge.upsert e.key (fun _ => .dup view.dupStorage.length) view.map
        dupStorage := view.dupStorage ++ [mergeGroupInto src promoted] }

/-- Phase B of `compact_partitioned_topn` up to the heap. -/
def partitionView (tables : List (CompactTable specs)) (vecs : List (List PartEntry)) :
    PartitionView specs :=
  vecs.foldl (fun view vec => vec.foldl (addEntry tables) view) ⟨[], []⟩

def PartitionView.get (tables : List (CompactTable specs)) (view : PartitionView specs)
    (k : BitVec 128) : Option (Accs specs) :=
  (valueAt k view.map).map (resolve tables view)

/-! ## What a table holds -/

theorem pair_eq_add {β : Type*} [AddCommMonoid β] (acc : β × ℕ) (v : β) :
    (acc.1 + v, acc.2 + 1) = acc + ((0 : β × ℕ).1 + v, (0 : β × ℕ).2 + 1) := by
  apply Prod.ext
  · show acc.1 + v = acc.1 + (0 + v)
    rw [zero_add]
  · show acc.2 + 1 = acc.2 + (0 + 1)
    rw [zero_add]

theorem updateSlot_eq_add (spec : AggExecSpec) (row : InputRow) (k : CompactAccKind) (acc : Acc k) :
    updateSlot spec row k acc = acc + updateSlot spec row k 0 := by
  rcases hv : row spec.colIdx with - | d
  · cases k with
    | count =>
        show (updateSlot spec row .count acc : ℕ) = (acc : ℕ) + updateSlot spec row .count (0 : ℕ)
        simp only [updateSlot, hv]
        split <;> simp
    | sumInt | sumIntNarrow | sumFloat | minInt | maxInt | countDistinctInt =>
        simp only [updateSlot, hv]
        exact (add_zero acc).symm
  · cases k with
    | count =>
        show (updateSlot spec row .count acc : ℕ) = (acc : ℕ) + updateSlot spec row .count (0 : ℕ)
        simp only [updateSlot, hv]
        split <;> simp
    | sumInt | sumIntNarrow | sumFloat =>
        simp only [updateSlot, hv]
        exact pair_eq_add acc _
    | minInt =>
        simp only [updateSlot, hv]
        show acc + ⟨some d.int⟩ = acc + ((0 : MinAcc) + ⟨some d.int⟩)
        rw [zero_add]
    | maxInt =>
        simp only [updateSlot, hv]
        show acc + ⟨some d.int⟩ = acc + ((0 : MaxAcc) + ⟨some d.int⟩)
        rw [zero_add]
    | countDistinctInt =>
        simp only [updateSlot, hv]
        show (⟨insert d.int acc.seen⟩ : DistinctAcc) = ⟨acc.seen ∪ insert d.int ∅⟩
        rw [Finset.insert_eq, Finset.insert_eq, Finset.union_empty, Finset.union_comm]

theorem updateGroup_eq_add (row : InputRow) (accs : Accs specs) :
    updateGroup row accs = accs + updateGroup row 0 := by
  funext slot
  exact updateSlot_eq_add _ row _ (accs slot)

/-- What the rows of a key make of a group, each on its own. -/
def rowAccs (k : BitVec 128) (rows : List (BitVec 128 × InputRow)) : List (Accs specs) :=
  valuesAt k (rows.map fun row => (row.1, updateGroup row.2 0))

/-- A table holds the sum over the rows of a key. -/
theorem get_accumulate (rows : List (BitVec 128 × InputRow)) (k : BitVec 128) :
    (accumulate rows : CompactTable specs).get k = gathered (rowAccs k rows) := by
  have hfold : (accumulate rows : CompactTable specs) =
      (rows.map fun row => (row.1, updateGroup row.2 0)).foldl
        (fun table e => table.upsert e.1 fun a => a + e.2) IndexedStore.empty := by
    rw [List.foldl_map]
    simp only [← updateGroup_eq_add]
    rfl
  rw [hfold, IndexedStore.get_foldl_add]
  rfl

def CompactTable.entries (table : CompactTable specs) : List (BitVec 128 × Accs specs) :=
  table.map.map fun entry => (entry.1, table.accs entry.2)

theorem keys_entries (table : CompactTable specs) : keys table.entries = keys table.map := by
  rw [CompactTable.entries, keys, keys, List.map_map]
  rfl

theorem nodup_keys_entries (table : CompactTable specs) : (keys table.entries).Nodup :=
  keys_entries table ▸ table.nodup

theorem valueAt_entries (table : CompactTable specs) (k : BitVec 128) :
    valueAt k table.entries = table.get k := by
  rw [CompactTable.entries, valueAt_map]
  rcases h : valueAt k table.map with - | i
  · simp only [IndexedStore.get, h]
    rfl
  · have hlt := table.lt k i h
    simp [IndexedStore.get, h, CompactTable.accs, hlt]

theorem valuesAt_entries (table : CompactTable specs) (k : BitVec 128) :
    valuesAt k table.entries = (table.get k).toList := by
  rw [valuesAt_of_nodup (nodup_keys_entries table), valueAt_entries]

theorem get_mergeCompactResults (order : HashOrder (BitVec 128 × ℕ))
    (global worker : CompactTable specs) (k : BitVec 128) :
    (mergeCompactResults order global worker).get k =
      gathered ((global.get k).toList ++ (worker.get k).toList) := by
  have hfold : mergeCompactResults order global worker =
      ((order.reorder worker.map).map fun entry => (entry.1, worker.accs entry.2)).foldl
        (fun table e => table.upsert e.1 fun a => a + e.2) global := by
    rw [List.foldl_map]
    rfl
  rw [hfold, IndexedStore.get_foldl_add, ← valuesAt_entries worker]
  apply gathered_perm
  apply List.Perm.append_left
  apply valuesAt_perm
  exact (order.perm worker.map).map _

theorem get_foldl_merge (order : HashOrder (BitVec 128 × ℕ)) (global : CompactTable specs)
    (tables : List (CompactTable specs)) (k : BitVec 128) :
    (tables.foldl (mergeCompactResults order) global).get k =
      gathered ((global.get k).toList ++ tables.flatMap fun table => (table.get k).toList) := by
  induction tables generalizing global with
  | nil => rcases h : global.get k with - | a <;> simp [gathered, h]
  | cons table tables ih =>
      rw [List.foldl_cons, ih, get_mergeCompactResults, gathered_toList_append,
        List.flatMap_cons, List.append_assoc]

theorem get_fullMergeTable (order : HashOrder (BitVec 128 × ℕ)) (tables : List (CompactTable specs))
    (k : BitVec 128) :
    (fullMergeTable order tables).get k =
      gathered (tables.flatMap fun table => (table.get k).toList) := by
  unfold fullMergeTable
  simp only [get_foldl_merge]
  rcases tables with - | ⟨first, rest⟩
  · rfl
  · have hidx : largestIdx ((first :: rest).map fun table => table.map.length) <
        (first :: rest).length := by
      have hne : ((first :: rest).map fun table => table.map.length) ≠ [] := by simp
      have hlt := largestIdx_lt hne
      rwa [List.length_map] at hlt
    have hperm := cons_swapRemove_perm (first :: rest) hidx
    rw [List.getD_eq_getElem _ _ hidx]
    have hall := hperm.flatMap_right fun table : CompactTable specs => (table.get k).toList
    rw [List.flatMap_cons] at hall
    exact gathered_perm hall

/-! ## What a partition holds -/

/-- The references into `dup_storage` are good, and no two keys share one. -/
structure PartitionView.WellFormed (view : PartitionView specs) : Prop where
  nodup : (keys view.map).Nodup
  lt : ∀ k d, valueAt k view.map = some (.dup d) → d < view.dupStorage.length
  inj : ∀ k k' d, valueAt k view.map = some (.dup d) → valueAt k' view.map = some (.dup d) → k = k'

section partition

variable {tables : List (CompactTable specs)} {view : PartitionView specs}

theorem addEntry_new {e : PartEntry} (h : valueAt e.key view.map = none) :
    addEntry tables view e =
      { view with map := view.map ++ [(e.key, .single e.worker e.gidx)] } := by
  simp only [addEntry, h]

theorem addEntry_single {e : PartEntry} {w0 g0 : ℕ}
    (h : valueAt e.key view.map = some (.single w0 g0)) :
    addEntry tables view e =
      { map := KeyedMerge.upsert e.key (fun _ => .dup view.dupStorage.length) view.map
        dupStorage := view.dupStorage ++
          [workerAccs tables w0 g0 + workerAccs tables e.worker e.gidx] } := by
  have hpromoted : mergeGroupInto (workerAccs tables w0 g0) 0 = workerAccs tables w0 g0 :=
    zero_add _
  simp only [addEntry, h, hpromoted]
  rfl

theorem addEntry_dup {e : PartEntry} {d : ℕ} (h : valueAt e.key view.map = some (.dup d)) :
    addEntry tables view e =
      { view with
          dupStorage := view.dupStorage.modify d fun a => a + workerAccs tables e.worker e.gidx } := by
  simp only [addEntry, h]
  rfl

theorem PartitionView.WellFormed.addEntry (h : view.WellFormed) (e : PartEntry) :
    (addEntry tables view e).WellFormed := by
  rcases hval : valueAt e.key view.map with - | (⟨w0, g0⟩ | d)
  · rw [addEntry_new hval]
    have hnew : e.key ∉ keys view.map := valueAt_eq_none_iff.mp hval
    have hold : ∀ k d, valueAt k (view.map ++ [(e.key, GroupRef.single e.worker e.gidx)]) =
        some (.dup d) → valueAt k view.map = some (.dup d) := by
      intro k d hk
      rw [valueAt_append_of_notMem hnew] at hk
      by_cases hek : k = e.key
      · rw [if_pos hek] at hk
        cases hk
      · rwa [if_neg hek] at hk
    constructor
    · rw [keys, List.map_append, List.nodup_append]
      refine ⟨h.nodup, by simp, ?_⟩
      intro a ha b hb heq
      rw [List.map_singleton, List.mem_singleton] at hb
      rw [heq, hb] at ha
      exact hnew ha
    · intro k d hk
      exact h.lt k d (hold k d hk)
    · intro k k' d hk hk'
      exact h.inj k k' d (hold k d hk) (hold k' d hk')
  · rw [addEntry_single hval]
    constructor
    · exact nodup_keys_upsert h.nodup
    · intro k d hk
      rw [valueAt_upsert] at hk
      rw [List.length_append, List.length_singleton]
      split_ifs at hk
      · cases hk
        omega
      · have := h.lt k d hk
        omega
    · intro k k' d hk hk'
      rw [valueAt_upsert] at hk hk'
      split_ifs at hk hk' with hek hek' hek'
      · exact hek.trans hek'.symm
      · cases hk
        exact absurd (h.lt k' _ hk') (Nat.lt_irrefl _)
      · cases hk'
        exact absurd (h.lt k _ hk) (Nat.lt_irrefl _)
      · exact h.inj k k' d hk hk'
  · rw [addEntry_dup hval]
    constructor
    · exact h.nodup
    · intro k d' hk
      rw [List.length_modify]
      exact h.lt k d' hk
    · exact h.inj

theorem get_addEntry (h : view.WellFormed) (e : PartEntry) (k : BitVec 128) :
    (addEntry tables view e).get tables k =
      if k = e.key then some ((view.get tables k).getD 0 + workerAccs tables e.worker e.gidx)
      else view.get tables k := by
  rcases hval : valueAt e.key view.map with - | (⟨w0, g0⟩ | d)
  · have hnew : e.key ∉ keys view.map := valueAt_eq_none_iff.mp hval
    rw [addEntry_new hval, PartitionView.get, PartitionView.get, valueAt_append_of_notMem hnew]
    by_cases hk : k = e.key
    · simp [hk, hval, resolve]
    · rw [if_neg hk, if_neg hk]
      rcases valueAt k view.map with - | (⟨w, g⟩ | d) <;> rfl
  · rw [addEntry_single hval, PartitionView.get, PartitionView.get, valueAt_upsert]
    by_cases hk : k = e.key
    · simp [hk, hval, resolve]
    · rw [if_neg hk, if_neg hk]
      rcases hother : valueAt k view.map with - | (⟨w, g⟩ | d)
      · rfl
      · rfl
      · have hlt := h.lt k d hother
        simp [resolve, List.getElem?_append_left hlt]
  · rw [addEntry_dup hval, PartitionView.get, PartitionView.get]
    by_cases hk : k = e.key
    · have hlt := h.lt e.key d hval
      simp [hk, hval, resolve, hlt]
    · rw [if_neg hk]
      rcases hother : valueAt k view.map with - | (⟨w, g⟩ | d')
      · rfl
      · rfl
      · have hne : d ≠ d' := fun hd => hk (h.inj k _ d' hother (hd ▸ hval))
        simp [resolve, hne]

/-- A partition's view holds the sum over the entries of a key. -/
theorem get_foldl_addEntry (h : view.WellFormed) (entries : List PartEntry) (k : BitVec 128) :
    (entries.foldl (addEntry tables) view).WellFormed ∧
      (entries.foldl (addEntry tables) view).get tables k =
        gathered ((view.get tables k).toList ++
          valuesAt k (entries.map fun e => (e.key, workerAccs tables e.worker e.gidx))) := by
  induction entries generalizing view with
  | nil =>
      refine ⟨h, ?_⟩
      rcases hget : view.get tables k with - | a <;> simp [gathered, valuesAt, hget]
  | cons e entries ih =>
      refine ⟨(ih (h.addEntry e)).1, ?_⟩
      rw [List.foldl_cons, (ih (h.addEntry e)).2, get_addEntry h, List.map_cons, valuesAt_cons]
      by_cases hk : k = e.key
      · rw [if_pos hk, if_pos hk.symm]
        rcases view.get tables k with - | a <;> simp [gathered, add_assoc]
      · rw [if_neg hk, if_neg (Ne.symm hk)]

/-- The entries of a partition are those of the keys it is for, from all workers. -/
theorem valuesAt_routed (order : HashOrder (BitVec 128 × ℕ)) (np p : ℕ) {worker : ℕ}
    {table : CompactTable specs} (hworker : tables[worker]? = some table) (k : BitVec 128) :
    (valuesAt k ((routed order np p (table, worker)).map fun e =>
        (e.key, workerAccs tables e.worker e.gidx))).Perm
      (if partitionOf np k = p then (table.get k).toList else []) := by
  have hmap : (routed order np p (table, worker)).map (fun e =>
      (e.key, workerAccs tables e.worker e.gidx)) =
        ((order.reorder table.map).map fun entry => (entry.1, table.accs entry.2)).filter
          fun entry => decide (partitionOf np entry.1 = p) := by
    have hplace : tables.getD worker IndexedStore.empty = table := by
      rw [List.getD_eq_getElem?_getD, hworker, Option.getD_some]
    simp only [routed, List.map_map, List.filter_map, Function.comp_def, workerAccs, hplace]
  have hfilter : valuesAt k (((order.reorder table.map).map fun entry =>
      (entry.1, table.accs entry.2)).filter fun entry => decide (partitionOf np entry.1 = p)) =
        if partitionOf np k = p then
          valuesAt k ((order.reorder table.map).map fun entry => (entry.1, table.accs entry.2))
        else [] := by
    unfold valuesAt
    rw [List.filter_filter]
    by_cases hp : partitionOf np k = p
    · rw [if_pos hp]
      congr 1
      apply List.filter_congr
      intro entry _
      by_cases hk : entry.1 = k
      · simp [hk, hp]
      · simp [hk]
    · rw [if_neg hp, List.map_eq_nil_iff, List.filter_eq_nil_iff]
      intro entry _ hentry
      simp only [Bool.and_eq_true, decide_eq_true_eq] at hentry
      exact hp (hentry.1 ▸ hentry.2)
  rw [hmap, hfilter]
  split_ifs
  · rw [← valuesAt_entries]
    exact valuesAt_perm ((order.perm table.map).map _) k
  · exact List.Perm.refl _

/-- A partition holds the sum of what the tables hold for its keys, and nothing else. -/
theorem get_partitionView (order : HashOrder (BitVec 128 × ℕ)) (np p : ℕ)
    {chunks : List (List (CompactTable specs × ℕ))} (hchunks : chunks.flatten = tables.zipIdx)
    (k : BitVec 128) :
    (partitionView tables (partVecs order np p chunks)).WellFormed ∧
      (partitionView tables (partVecs order np p chunks)).get tables k =
        if partitionOf np k = p then gathered (tables.flatMap fun table => (table.get k).toList)
        else none := by
  have hempty : (⟨[], []⟩ : PartitionView specs).WellFormed :=
    ⟨List.nodup_nil, by simp, by simp⟩
  have hentries : (partVecs order np p chunks).flatten = tables.zipIdx.flatMap (routed order np p) := by
    rw [← hchunks, partVecs, List.flatMap_def, List.map_flatten, List.flatten_flatten,
      List.map_map]
    rfl
  have hview : (partitionView tables (partVecs order np p chunks)) =
      (tables.zipIdx.flatMap (routed order np p)).foldl (addEntry tables) ⟨[], []⟩ := by
    rw [partitionView, ← List.foldl_flatten, hentries]
  obtain ⟨hwf, hget⟩ := get_foldl_addEntry hempty (tables.zipIdx.flatMap (routed order np p)) k
  rw [hview]
  refine ⟨hwf, hget.trans ?_⟩
  have hvalues : (valuesAt k ((tables.zipIdx.flatMap (routed order np p)).map fun e =>
      (e.key, workerAccs tables e.worker e.gidx))).Perm
        (tables.zipIdx.flatMap fun worker =>
          if partitionOf np k = p then (worker.1.get k).toList else []) := by
    rw [List.map_flatMap, valuesAt_flatMap]
    apply List.Perm.flatMap_left
    rintro ⟨table, worker⟩ hmem
    exact valuesAt_routed order np p (List.mem_zipIdx_iff_getElem?.mp hmem) k
  have hall : (tables.zipIdx.flatMap fun worker => (worker.1.get k).toList) =
      tables.flatMap fun table => (table.get k).toList := by
    conv_rhs => rw [← List.zipIdx_map_fst 0 tables, List.flatMap_map]
  rw [gathered_perm (hvalues.append_left _)]
  by_cases hp : partitionOf np k = p
  · simp only [if_pos hp, hall]
    rfl
  · simp only [if_neg hp]
    simp [gathered, PartitionView.get]

omit tables view in
theorem flatMap_range_ite {β : Type*} {np q : ℕ} (hq : q < np) (b : β) :
    ((List.range np).flatMap fun p => if q = p then [b] else []) = [b] := by
  have hfilter : ∀ ps : List ℕ, (ps.flatMap fun p => if q = p then [b] else []) =
      (ps.filter (· == q)).map fun _ => b := by
    intro ps
    induction ps with
    | nil => rfl
    | cons p ps ih =>
        rw [List.flatMap_cons, ih]
        by_cases hp : q = p
        · simp [hp]
        · simp [hp, Ne.symm hp]
  rw [hfilter, List.filter_beq, List.count_eq_one_of_mem List.nodup_range (List.mem_range.mpr hq)]
  rfl

theorem routed_perm (order : HashOrder (BitVec 128 × ℕ)) {np : ℕ} (hnp : 0 < np)
    (worker : CompactTable specs × ℕ) :
    ((List.range np).flatMap fun p => routed order np p worker).Perm
      (worker.1.map.map fun entry => ⟨entry.1, worker.2, entry.2⟩) := by
  have hroute : ∀ entries : List (BitVec 128 × ℕ),
      ((List.range np).flatMap fun p =>
        entries.filter fun entry => decide (partitionOf np entry.1 = p)).Perm entries := by
    intro entries
    induction entries with
    | nil => simp
    | cons e entries ih =>
        have hown : ((List.range np).flatMap fun p => if partitionOf np e.1 = p then [e] else []) =
            [e] := flatMap_range_ite (Nat.mod_lt _ hnp) e
        have hcons : ∀ p, (e :: entries).filter (fun entry => decide (partitionOf np entry.1 = p)) =
            (if partitionOf np e.1 = p then [e] else []) ++
              entries.filter fun entry => decide (partitionOf np entry.1 = p) := by
          intro p
          by_cases hp : partitionOf np e.1 = p <;> simp [hp]
        simp only [hcons]
        apply (List.flatMap_append_perm _ _ _).symm.trans
        rw [hown]
        exact ih.cons e
  unfold routed
  rw [← List.map_flatMap]
  exact ((hroute _).trans (order.perm _)).map _

end partition

/-! ## Workers together -/

/-- The workers' tables together hold what one table over all rows does. -/
theorem gathered_tables {segments : List (List (BitVec 128 × InputRow))}
    {assigned : List (List (List (BitVec 128 × InputRow)))} (hassigned : assigned.flatten.Perm segments)
    (k : BitVec 128) :
    gathered ((assigned.map fun segs => (accumulate segs.flatten : CompactTable specs)).flatMap
        fun table => (table.get k).toList) =
      (accumulate segments.flatten : CompactTable specs).get k := by
  have hrows : (assigned.flatMap fun segs => segs.flatten).Perm segments.flatten := by
    have hflat := hassigned.flatMap_right id
    rwa [List.flatMap_id, List.flatMap_id, List.flatten_flatten] at hflat
  calc
    gathered ((assigned.map fun segs => (accumulate segs.flatten : CompactTable specs)).flatMap
        fun table => (table.get k).toList) =
        gathered (assigned.flatMap fun segs => (gathered (rowAccs k segs.flatten)).toList) := by
      simp only [List.flatMap_map, get_accumulate]
    _ = gathered (assigned.flatMap fun segs => rowAccs k segs.flatten) := gathered_flatMap _ _
    _ = gathered (rowAccs k (assigned.flatMap fun segs => segs.flatten)) := by
      simp only [rowAccs, List.map_flatMap, valuesAt_flatMap]
    _ = gathered (rowAccs k segments.flatten) := gathered_perm (valuesAt_perm (hrows.map _) k)
    _ = (accumulate segments.flatten : CompactTable specs).get k := (get_accumulate _ k).symm

/-- However the segments are spread over workers, the full merge holds for each key what
one table over all rows holds.  In the partitioned merge each group of each worker goes to
one partition, and each partition holds the same for its keys and nothing for others. -/
theorem merge_eq_accumulate {segments : List (List (BitVec 128 × InputRow))}
    {assigned : List (List (List (BitVec 128 × InputRow)))} (hassigned : assigned.flatten.Perm segments)
    (order : HashOrder (BitVec 128 × ℕ)) {tables : List (CompactTable specs)}
    (htables : tables = assigned.map fun segs => accumulate segs.flatten) :
    (∀ k, (fullMergeTable order tables).get k =
      (accumulate segments.flatten : CompactTable specs).get k) ∧
    ∀ np, 0 < np → ∀ chunks : List (List (CompactTable specs × ℕ)), chunks.flatten = tables.zipIdx →
      (∀ worker ∈ tables.zipIdx, ((List.range np).flatMap fun p => routed order np p worker).Perm
        (worker.1.map.map fun entry => ⟨entry.1, worker.2, entry.2⟩)) ∧
      ∀ p, (partitionView tables (partVecs order np p chunks)).WellFormed ∧
        ∀ k, (partitionView tables (partVecs order np p chunks)).get tables k =
          if partitionOf np k = p then (accumulate segments.flatten : CompactTable specs).get k
          else none := by
  subst htables
  constructor
  · intro k
    rw [get_fullMergeTable, gathered_tables hassigned]
  · intro np hnp chunks hchunks
    constructor
    · intro worker _
      exact routed_perm order hnp worker
    · intro p
      refine ⟨(get_partitionView order np p hchunks 0).1, fun k => ?_⟩
      rw [(get_partitionView order np p hchunks k).2, gathered_tables hassigned]


/-- Keys 1 and 2 over two workers that share key 1, merged by the full merge and in four
partitions cut in one chunk. -/
theorem merge_eq_accumulate_two_workers :
    let row : InputRow := fun _ => some ⟨5, 5⟩
    let tables : List (CompactTable [countStarSpec]) :=
      [accumulate [(1, row), (2, row)], accumulate [(1, row)]]
    (fullMergeTable (HashOrder.asIs _) tables).get 1 =
        (accumulate [(1, row), (2, row), (1, row)] : CompactTable [countStarSpec]).get 1 ∧
      (partitionView tables (partVecs (HashOrder.asIs _) 4 (partitionOf 4 1)
          [tables.zipIdx])).get tables 1 =
        (accumulate [(1, row), (2, row), (1, row)] : CompactTable [countStarSpec]).get 1 := by
  intro row tables
  have hassigned : ([[[(1, row), (2, row)]], [[(1, row)]]] :
      List (List (List (BitVec 128 × InputRow)))).flatten.Perm [[(1, row), (2, row)], [(1, row)]] :=
    List.Perm.refl _
  have htables : tables = ([[[(1, row), (2, row)]], [[(1, row)]]] :
      List (List (List (BitVec 128 × InputRow)))).map fun segs => accumulate segs.flatten := rfl
  obtain ⟨hfull, hparts⟩ := merge_eq_accumulate hassigned (HashOrder.asIs _) htables
  refine ⟨hfull 1, ?_⟩
  have hpart := ((hparts 4 (by decide) [tables.zipIdx] (by simp)).2 (partitionOf 4 1)).2 1
  rwa [if_pos rfl] at hpart

end DeltaX.Agg
