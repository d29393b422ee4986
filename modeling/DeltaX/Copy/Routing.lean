import DeltaX.Column.Columns
/-!
# Routing rows to partitions

A loader sends every row to the partition whose time range it falls into.  The parquet
loaders look at the earliest and the latest time of a batch first: when both fall into one
partition the batch goes there as a whole.
-/

namespace DeltaX.Copy.Routing

open Column Partition.Streaming

/-! ## Ranges of partitions -/

def partitionPoint {α : Type*} (pred : α → Bool) (xs : List α) : ℕ := (xs.takeWhile pred).length

def findPartition (rangeStarts rangeEnds : List ℤ) (timeUsec : ℤ) : Option ℕ :=
  let pos := partitionPoint (· ≤ timeUsec) rangeStarts
  if pos = 0 then none
  else
    match rangeEnds[pos - 1]? with
    | some rangeEnd => if timeUsec < rangeEnd then some (pos - 1) else none
    | none => none

/-- The partitions of a table in the order of their starts; ranges do not overlap. -/
structure Ranges where
  bounds : List (ℤ × ℤ)
  nonempty : ∀ b ∈ bounds, b.1 < b.2
  disjoint : bounds.Pairwise fun a b => a.2 ≤ b.1

def Ranges.find (r : Ranges) (timeUsec : ℤ) : Option ℕ :=
  findPartition (r.bounds.map Prod.fst) (r.bounds.map Prod.snd) timeUsec

/-- How many of the ranges begin at or before a time. -/
theorem partitionPoint_cons (t start : ℤ) (starts : List ℤ) :
    partitionPoint (· ≤ t) (start :: starts) =
      if start ≤ t then partitionPoint (· ≤ t) starts + 1 else 0 := by
  rw [partitionPoint, List.takeWhile_cons]
  by_cases h : start ≤ t
  · rw [if_pos h, if_pos (decide_eq_true h)]
    rfl
  · rw [if_neg h, if_neg (by simpa using h)]
    rfl

theorem findPartition_cons {b : ℤ × ℤ} {bounds : List (ℤ × ℤ)} {t : ℤ} (hstart : b.1 ≤ t) :
    findPartition ((b :: bounds).map Prod.fst) ((b :: bounds).map Prod.snd) t =
      if partitionPoint (· ≤ t) (bounds.map Prod.fst) = 0 then
        if t < b.2 then some 0 else none
      else (findPartition (bounds.map Prod.fst) (bounds.map Prod.snd) t).map (· + 1) := by
  simp only [findPartition, List.map_cons, partitionPoint_cons, if_pos hstart,
    if_neg (Nat.succ_ne_zero _), Nat.add_sub_cancel]
  cases partitionPoint (· ≤ t) (bounds.map Prod.fst) with
  | zero => rfl
  | succ n =>
      simp only [if_neg (Nat.succ_ne_zero _), List.getElem?_cons_succ, Nat.add_sub_cancel]
      cases (bounds.map Prod.snd)[n]? with
      | none => rfl
      | some e =>
          dsimp only
          split_ifs <;> rfl

theorem partitionPoint_eq_zero {t : ℤ} {b : ℤ × ℤ} {bounds : List (ℤ × ℤ)}
    (h : partitionPoint (· ≤ t) ((b :: bounds).map Prod.fst) = 0) : t < b.1 := by
  rw [List.map_cons, partitionPoint_cons] at h
  split_ifs at h with hle
  exact not_le.mp hle

theorem exists_le_of_partitionPoint {t : ℤ} {bounds : List (ℤ × ℤ)}
    (h : partitionPoint (· ≤ t) (bounds.map Prod.fst) ≠ 0) : ∃ b ∈ bounds, b.1 ≤ t := by
  cases bounds with
  | nil => exact absurd rfl h
  | cons b bounds =>
      rw [List.map_cons, partitionPoint_cons] at h
      split_ifs at h with hle
      · exact ⟨b, List.mem_cons_self, hle⟩
      · exact absurd rfl h

/-- When the first range begins later, all of them do. -/
theorem lt_start_of_partitionPoint {t : ℤ} {bounds : List (ℤ × ℤ)}
    (hne : ∀ b ∈ bounds, b.1 < b.2) (hdisj : bounds.Pairwise fun a b => a.2 ≤ b.1)
    (h : partitionPoint (· ≤ t) (bounds.map Prod.fst) = 0) : ∀ b ∈ bounds, t < b.1 := by
  cases bounds with
  | nil => simp
  | cons b bounds =>
      have hfirst := partitionPoint_eq_zero h
      have hlt := hne b List.mem_cons_self
      rw [List.forall_mem_cons]
      refine ⟨hfirst, fun c hc => ?_⟩
      have hle := (List.pairwise_cons.mp hdisj).1 c hc
      omega

/-- A time is found in the partition whose range it lies in, and in no other one. -/
theorem Ranges.find_eq_some_iff (r : Ranges) {t : ℤ} {i : ℕ} :
    r.find t = some i ↔ ∃ b, r.bounds[i]? = some b ∧ b.1 ≤ t ∧ t < b.2 := by
  obtain ⟨bounds, hne, hdisj⟩ := r
  show findPartition (bounds.map Prod.fst) (bounds.map Prod.snd) t = some i ↔
    ∃ b, bounds[i]? = some b ∧ b.1 ≤ t ∧ t < b.2
  induction bounds generalizing i with
  | nil => simp [findPartition, partitionPoint]
  | cons b bounds ih =>
      obtain ⟨hbefore, htail⟩ := List.pairwise_cons.mp hdisj
      obtain ⟨-, hne'⟩ := List.forall_mem_cons.mp hne
      by_cases hstart : b.1 ≤ t
      · rw [findPartition_cons hstart]
        by_cases hzero : partitionPoint (· ≤ t) (bounds.map Prod.fst) = 0
        · have hlater := lt_start_of_partitionPoint hne' htail hzero
          rw [if_pos hzero]
          cases i with
          | zero => simp [hstart]
          | succ i =>
              constructor
              · intro h
                split_ifs at h
                cases h
              · rintro ⟨c, hc, hle, -⟩
                have := hlater c (List.mem_of_getElem? hc)
                omega
        · obtain ⟨c, hc, hle⟩ := exists_le_of_partitionPoint hzero
          have hpast : ¬ t < b.2 := by
            have := hbefore c hc
            omega
          rw [if_neg hzero]
          cases i with
          | zero => simp [hpast]
          | succ i =>
              rw [List.getElem?_cons_succ, ← ih hne' htail]
              simp
      · have hnone : findPartition ((b :: bounds).map Prod.fst) ((b :: bounds).map Prod.snd) t =
            none := by
          rw [findPartition, List.map_cons, partitionPoint_cons, if_neg hstart]
          rfl
        rw [hnone]
        constructor
        · intro h
          cases h
        · rintro ⟨c, hc, hle, -⟩
          cases i with
          | zero => exact absurd (Option.some.inj hc ▸ hle) hstart
          | succ i =>
              have hend := hbefore c (List.mem_of_getElem? hc)
              have hlt := hne b List.mem_cons_self
              omega

/-- A range holds whatever lies between two times that it holds. -/
theorem Ranges.find_between (r : Ranges) {lo t hi : ℤ} {i : ℕ} (hlo : r.find lo = some i)
    (hhi : r.find hi = some i) (hle : lo ≤ t) (hle' : t ≤ hi) : r.find t = some i := by
  obtain ⟨b, hb, hstart, -⟩ := r.find_eq_some_iff.mp hlo
  obtain ⟨b', hb', -, hend⟩ := r.find_eq_some_iff.mp hhi
  obtain rfl := Option.some.inj (hb.symm.trans hb')
  exact r.find_eq_some_iff.mpr ⟨b, hb, hstart.trans hle, by omega⟩

theorem Ranges.find_lt (r : Ranges) {t : ℤ} {i : ℕ} (h : r.find t = some i) :
    i < r.bounds.length := by
  obtain ⟨b, hb, -⟩ := r.find_eq_some_iff.mp h
  exact (List.getElem?_eq_some_iff.mp hb).1

/-! ## Batches -/

/-- `BackfillState`, with the ranges of the partitions and the length of the blob that a column
is compressed to. -/
structure BackfillState where
  plan : CompressPlan
  timeColIndex : ℕ
  ranges : Ranges
  blobLen : TypedColumn → ℕ

variable (state : BackfillState)

def BackfillState.kinds : List ColumnKind := state.plan.columns.map state.plan.kindOf

/-- The rows of one table, column by column. -/
abbrev BackfillState.Batch : Type := Columns state.kinds

variable {state}

/-- The values of the time column, `none` when it is not an `Int64`. -/
def timeVals (batch : state.Batch) : Option (List (Option (BitVec 64))) :=
  match batch.cols[state.timeColIndex]? with
  | some (.int64 values) => some values
  | _ => none

/-- `"pg_deltax: time column must be Int64 (timestamp)"`. -/
def timeColumnError : Text := "pg_deltax: time column must be Int64 (timestamp)".toList

/-- `ts_opt.unwrap_or(0)`. -/
def usecOf (ts : Option (BitVec 64)) : ℤ := (ts.getD 0).toInt

/-- The partition of row `j`. -/
def partOf (state : BackfillState) (times : List (Option (BitVec 64))) (j : ℕ) : Option ℕ :=
  state.ranges.find (usecOf times[j]?.join)

/-- The loop over the times: the earliest and the latest one. -/
def minMaxTs (times : List (Option (BitVec 64))) : ℤ × ℤ :=
  times.reduceOption.foldl
    (fun (minTs, maxTs) ts =>
      (if ts.toInt < minTs then ts.toInt else minTs, if maxTs < ts.toInt then ts.toInt else maxTs))
    (2 ^ 63 - 1, -2 ^ 63)

structure RoutedBatch (state : BackfillState) where
  partitionIdx : ℕ
  batch : state.Batch

/-- Row `j` is pushed to the columns of its partition, which are made at its first row. -/
def scatterRow (batch : state.Batch) (times : List (Option (BitVec 64)))
    (parts : ℕ → Option state.Batch) (j : Fin batch.numRows) : ℕ → Option state.Batch :=
  match partOf state times j with
  | some p => Function.update parts p (some (((parts p).getD (.empty _)).pushFrom batch j))
  | none => parts

/-- The slow path: row by row. -/
def scatter (batch : state.Batch) (times : List (Option (BitVec 64))) : ℕ → Option state.Batch :=
  (List.finRange batch.numRows).foldl (scatterRow batch times) fun _ => none

/-- A row group in `decode_and_route_parquet_file`: the batches that are sent. -/
def decodeAndRoute (batch : state.Batch) : Except Text (List (RoutedBatch state)) :=
  match timeVals batch with
  | none => .error timeColumnError
  | some times =>
      let (minTs, maxTs) := minMaxTs (times.take batch.numRows)
      let minPart := state.ranges.find minTs
      if minPart = state.ranges.find maxTs then
        match minPart with
        | some p => .ok [⟨p, batch⟩]
        | none => .ok []
      else
        .ok ((List.range state.ranges.bounds.length).filterMap fun p =>
          (scatter batch times p).map (RoutedBatch.mk p))

/-! ## What is sent where -/

def rowsTo (p : ℕ) (sent : List (RoutedBatch state)) : List (List (Option Stored)) :=
  (sent.filter fun b => b.partitionIdx == p).flatMap fun b => b.batch.rows

/-- The rows whose time lies in the range of a partition. -/
def rowsIn (batch : state.Batch) (times : List (Option (BitVec 64))) (p : ℕ) :
    List (List (Option Stored)) :=
  ((List.range batch.numRows).filter fun j => partOf state times j == some p).map (rowAt batch.cols)

theorem rowsTo_append (p : ℕ) (sent more : List (RoutedBatch state)) :
    rowsTo p (sent ++ more) = rowsTo p sent ++ rowsTo p more := by
  rw [rowsTo, List.filter_append, List.flatMap_append]
  rfl

theorem rowsTo_singleton (p : ℕ) (b : RoutedBatch state) :
    rowsTo p [b] = if b.partitionIdx = p then b.batch.rows else [] := by
  rw [rowsTo]
  split_ifs with h <;> simp [h]

/-- Every partition has its batch sent at most once. -/
theorem rowsTo_filterMap (parts : ℕ → Option state.Batch) (n p : ℕ) :
    rowsTo p ((List.range n).filterMap fun p => (parts p).map (RoutedBatch.mk p)) =
      if p < n then (((parts p).map Columns.rows).getD []) else [] := by
  induction n with
  | zero => rfl
  | succ n ih =>
      rw [List.range_succ, List.filterMap_append, rowsTo_append, ih]
      have hlast : rowsTo p ([n].filterMap fun p => (parts p).map (RoutedBatch.mk p)) =
          if p = n then (((parts p).map Columns.rows).getD []) else [] := by
        cases hparts : parts n with
        | none =>
            rw [List.filterMap_cons_none (by rw [hparts]; rfl)]
            split_ifs with h
            · rw [h, hparts]
              rfl
            · rfl
        | some batch =>
            rw [List.filterMap_cons_some (by rw [hparts]; rfl)]
            show rowsTo p [⟨n, batch⟩] = _
            rw [rowsTo_singleton]
            by_cases h : p = n
            · rw [if_pos h.symm, if_pos h, h, hparts]
              rfl
            · rw [if_neg (Ne.symm h), if_neg h]
      rw [hlast]
      by_cases h : p = n
      · rw [if_neg (by omega), if_pos h, if_pos (by omega), List.nil_append]
      · rw [if_neg h, List.append_nil]
        by_cases hlt : p < n
        · rw [if_pos hlt, if_pos (by omega)]
        · rw [if_neg hlt, if_neg (by omega)]

theorem scatterRow_rows (batch : state.Batch) (times : List (Option (BitVec 64)))
    (parts : ℕ → Option state.Batch) (j : Fin batch.numRows) (p : ℕ) :
    ((scatterRow batch times parts j p).map Columns.rows).getD [] =
      ((parts p).map Columns.rows).getD [] ++
        if partOf state times j = some p then [rowAt batch.cols j] else [] := by
  rw [scatterRow]
  cases partOf state times j with
  | none => simp
  | some q =>
      dsimp only
      rw [Function.update_apply]
      by_cases hq : p = q
      · subst hq
        rw [if_pos rfl, if_pos rfl]
        cases parts p <;> simp
      · rw [if_neg hq, if_neg fun h => hq (Option.some.inj h).symm, List.append_nil]

theorem foldl_scatterRow_rows (batch : state.Batch) (times : List (Option (BitVec 64))) (p : ℕ)
    (js : List (Fin batch.numRows)) (parts : ℕ → Option state.Batch) :
    ((js.foldl (scatterRow batch times) parts p).map Columns.rows).getD [] =
      ((parts p).map Columns.rows).getD [] ++
        ((js.map Fin.val).filter fun j => partOf state times j == some p).map
          (rowAt batch.cols) := by
  induction js generalizing parts with
  | nil => simp
  | cons j js ih =>
      rw [List.foldl_cons, ih, scatterRow_rows, List.append_assoc, List.map_cons, List.filter_cons]
      congr 1
      by_cases h : partOf state times j = some p
      · rw [if_pos h, if_pos (by simpa using h)]
        rfl
      · rw [if_neg h, if_neg (by simpa using h), List.nil_append]

/-- The slow path sends every row to the partition that its time lies in. -/
theorem scatter_rows (batch : state.Batch) (times : List (Option (BitVec 64))) (p : ℕ) :
    ((scatter batch times p).map Columns.rows).getD [] = rowsIn batch times p := by
  rw [scatter, foldl_scatterRow_rows, List.map_coe_finRange_eq_range]
  rfl

/-! ## The earliest and the latest time -/

theorem foldl_minMax (values : List (BitVec 64)) (lo hi : ℤ) :
    let out := values.foldl
      (fun (minTs, maxTs) ts =>
        (if ts.toInt < minTs then ts.toInt else minTs,
          if maxTs < ts.toInt then ts.toInt else maxTs)) (lo, hi)
    out.1 ≤ lo ∧ hi ≤ out.2 ∧ ∀ ts ∈ values, out.1 ≤ ts.toInt ∧ ts.toInt ≤ out.2 := by
  induction values generalizing lo hi with
  | nil => simp
  | cons ts values ih =>
      obtain ⟨hlo, hhi, hall⟩ :=
        ih (if ts.toInt < lo then ts.toInt else lo) (if hi < ts.toInt then ts.toInt else hi)
      dsimp only at hlo hhi hall
      have hmin : (if ts.toInt < lo then ts.toInt else lo) ≤ lo ∧
          (if ts.toInt < lo then ts.toInt else lo) ≤ ts.toInt := by
        split_ifs <;> omega
      have hmax : hi ≤ (if hi < ts.toInt then ts.toInt else hi) ∧
          ts.toInt ≤ (if hi < ts.toInt then ts.toInt else hi) := by
        split_ifs <;> omega
      rw [List.foldl_cons]
      exact ⟨hlo.trans hmin.1, hmax.1.trans hhi,
        List.forall_mem_cons.mpr ⟨⟨hlo.trans hmin.2, hmax.2.trans hhi⟩, hall⟩⟩

/-- Every time lies between the earliest and the latest one. -/
theorem minMaxTs_bounds {times : List (Option (BitVec 64))} {ts : BitVec 64}
    (h : some ts ∈ times) : (minMaxTs times).1 ≤ ts.toInt ∧ ts.toInt ≤ (minMaxTs times).2 :=
  (foldl_minMax times.reduceOption _ _).2.2 ts (List.reduceOption_mem_iff.mpr h)

theorem length_timeVals {batch : state.Batch} {times : List (Option (BitVec 64))}
    (h : timeVals batch = some times) : times.length = batch.numRows := by
  unfold timeVals at h
  cases hcol : batch.cols[state.timeColIndex]? with
  | none =>
      rw [hcol] at h
      cases h
  | some col =>
      rw [hcol] at h
      obtain ⟨i, hi, hget⟩ := List.mem_iff_getElem.mp (List.mem_of_getElem? hcol)
      have hlength : ∀ col ∈ batch.cols, col.cells.length = batch.numRows := by
        intro col hmem
        obtain ⟨j, hj, rfl⟩ := List.mem_iff_getElem.mp hmem
        have hkinds : j < state.kinds.length := by
          rw [batch.level.length_eq]
          exact hj
        exact ((List.forall₂_iff_get.mp batch.level).2 j hkinds hj).2
      cases col with
      | int64 values =>
          obtain rfl := Option.some.inj h
          have hcells := hlength _ (List.mem_of_getElem? hcol)
          rwa [TypedColumn.cells, List.length_map] at hcells
      | _ => cases h

/-! ## The whole batch -/

/-- What `decode_and_route_parquet_file` sends of a row group to a partition. -/
def sentTo (batch : state.Batch) (times : List (Option (BitVec 64))) (p : ℕ) :
    List (List (Option Stored)) :=
  if state.ranges.find (minMaxTs times).1 = state.ranges.find (minMaxTs times).2 then
    if state.ranges.find (minMaxTs times).1 = some p then batch.rows else []
  else rowsIn batch times p

theorem rowsIn_of_le {batch : state.Batch} {times : List (Option (BitVec 64))} {p : ℕ}
    (h : state.ranges.bounds.length ≤ p) : rowsIn batch times p = [] := by
  rw [rowsIn, List.map_eq_nil_iff, List.filter_eq_nil_iff]
  intro j _ hpart
  have hlt := state.ranges.find_lt (eq_of_beq hpart)
  omega

theorem decodeAndRoute_rows {batch : state.Batch} {times : List (Option (BitVec 64))}
    (htimes : timeVals batch = some times) :
    ∃ sent, decodeAndRoute batch = .ok sent ∧ ∀ p, rowsTo p sent = sentTo batch times p := by
  have htake : times.take batch.numRows = times :=
    List.take_of_length_le (length_timeVals htimes).le
  rw [decodeAndRoute, htimes]
  dsimp only
  rw [htake]
  by_cases hsame : state.ranges.find (minMaxTs times).1 = state.ranges.find (minMaxTs times).2
  · rw [if_pos hsame]
    cases hpart : state.ranges.find (minMaxTs times).1 with
    | none =>
        refine ⟨[], rfl, fun p => ?_⟩
        rw [sentTo, if_pos hsame, hpart, if_neg (by simp)]
        rfl
    | some q =>
        refine ⟨_, rfl, fun p => ?_⟩
        rw [rowsTo_singleton, sentTo, if_pos hsame, hpart]
        simp only [Option.some.injEq]
  · rw [if_neg hsame]
    refine ⟨_, rfl, fun p => ?_⟩
    rw [rowsTo_filterMap, sentTo, if_neg hsame, scatter_rows]
    split_ifs with hlt
    · rfl
    · exact (rowsIn_of_le (not_lt.mp hlt)).symm

/-- The time column holds a time for every row. -/
def Timed (batch : state.Batch) (times : List (Option (BitVec 64))) : Prop :=
  timeVals batch = some times ∧ none ∉ times

theorem Timed.exists_time {batch : state.Batch} {times : List (Option (BitVec 64))}
    (h : Timed batch times) {j : ℕ} (hj : j < batch.numRows) :
    ∃ ts, some ts ∈ times ∧ partOf state times j = state.ranges.find ts.toInt := by
  have hlt : j < times.length := by rw [length_timeVals h.1]; exact hj
  have hmem : times[j] ∈ times := List.getElem_mem hlt
  cases hts : times[j] with
  | none => exact absurd (hts ▸ hmem) h.2
  | some ts =>
      refine ⟨ts, hts ▸ hmem, ?_⟩
      rw [partOf, List.getElem?_eq_getElem hlt, hts]
      rfl

/-- In the fast path the whole batch lies in the range of the partition. -/
theorem Timed.partOf_of_same {batch : state.Batch} {times : List (Option (BitVec 64))}
    (h : Timed batch times) {q : ℕ} (hmin : state.ranges.find (minMaxTs times).1 = some q)
    (hmax : state.ranges.find (minMaxTs times).2 = some q) {j : ℕ} (hj : j < batch.numRows) :
    partOf state times j = some q := by
  obtain ⟨ts, hts, hpart⟩ := h.exists_time hj
  have hbounds := minMaxTs_bounds hts
  rw [hpart]
  exact state.ranges.find_between hmin hmax hbounds.1 hbounds.2

theorem Timed.rowsIn_of_same {batch : state.Batch} {times : List (Option (BitVec 64))}
    (h : Timed batch times) {q : ℕ} (hmin : state.ranges.find (minMaxTs times).1 = some q)
    (hmax : state.ranges.find (minMaxTs times).2 = some q) (p : ℕ) :
    rowsIn batch times p = if q = p then batch.rows else [] := by
  have hall : ∀ j ∈ List.range batch.numRows, partOf state times j = some q := fun j hj =>
    h.partOf_of_same hmin hmax (List.mem_range.mp hj)
  rw [rowsIn]
  split_ifs with hq
  · rw [List.filter_eq_self.mpr]
    · rfl
    · intro j hj
      rw [hall j hj, hq, beq_self_eq_true]
  · rw [List.filter_eq_nil_iff.mpr]
    · rfl
    · intro j hj
      rw [hall j hj]
      simpa using hq

/-- The earliest and the latest time lie outside of every partition, and a row does not. -/
def Straddles (batch : state.Batch) (times : List (Option (BitVec 64))) : Prop :=
  state.ranges.find (minMaxTs times).1 = none ∧ state.ranges.find (minMaxTs times).2 = none ∧
    ∃ j < batch.numRows, partOf state times j ≠ none

/-- The row group is sent row by row to where its rows belong, unless it straddles the
partitions: then nothing of it is sent. -/
theorem Timed.sentTo_eq_iff {batch : state.Batch} {times : List (Option (BitVec 64))}
    (h : Timed batch times) :
    (∀ p, sentTo batch times p = rowsIn batch times p) ↔ ¬ Straddles batch times := by
  constructor
  · rintro hall ⟨hmin, hmax, j, hj, hpart⟩
    obtain ⟨p, hp⟩ := Option.ne_none_iff_exists'.mp hpart
    have hsent := hall p
    rw [sentTo, hmin, hmax, if_pos rfl, if_neg (by simp), eq_comm, rowsIn, List.map_eq_nil_iff,
      List.filter_eq_nil_iff] at hsent
    apply hsent j (List.mem_range.mpr hj)
    rw [hp, beq_self_eq_true]
  · intro hnot p
    rw [sentTo]
    split_ifs with hsame hpart
    · rw [h.rowsIn_of_same hpart (hsame ▸ hpart), if_pos rfl]
    · cases hmin : state.ranges.find (minMaxTs times).1 with
      | some q =>
          rw [h.rowsIn_of_same hmin (hsame ▸ hmin), if_neg]
          rintro rfl
          exact hpart hmin
      | none =>
          rw [eq_comm, rowsIn, List.map_eq_nil_iff, List.filter_eq_nil_iff]
          intro j hj hpart'
          refine hnot ⟨hmin, hsame ▸ hmin, j, List.mem_range.mp hj, ?_⟩
          rw [eq_of_beq hpart']
          exact Option.some_ne_none p
    · rfl

end DeltaX.Copy.Routing
