import DeltaX.Column.Collect
import DeltaX.Partition.Content
import DeltaX.Schema.InsertLiterals
/-!
# Rows that travel as literals

The rows of a partition are lists of values.  Compression stores their cells, and every
way back into the heap is an `INSERT` of literals.  A run leaves the content to the user
as long as the dates it compresses fit and the literals it writes come back.
-/

namespace DeltaX.Partition

open Column Schema Stats.Encoding Support.Machine

/-! ## Rows -/

structure TableColumn where
  dataType : DataType
  isSegmentBy : Bool

abbrev ColumnRow : Type := List Schema.Value

/-- What a scan reads for a value that was compressed.  `_meta` holds a segment-by value
as it is. -/
def TableColumn.read (c : TableColumn) (value : Schema.Value) : Schema.Value :=
  if c.isSegmentBy then value else value.map fun v => v.encode.decode c.dataType

/-- The value that `restore_segment_rows` inserts for one that was compressed. -/
def TableColumn.restore (c : TableColumn) (pg : InsertInput) (value : Schema.Value) :
    Option Schema.Value :=
  insertText pg c.dataType (value.map fun v =>
    if c.isSegmentBy then pg.castText c.dataType v else v.encode.decompressed c.dataType)

def Layout.ofColumns {κ : Type*} (l : Layout ColumnRow κ) (pg : InsertInput)
    (columns : List TableColumn) : Layout ColumnRow κ :=
  { l with
    read := fun r => List.zipWith TableColumn.read columns r
    restore := fun r => (columns.zip r).mapM fun p => p.1.restore pg p.2 }

/-! ## Rows that come back -/

/-- A date whose microseconds fit into 64 bits; infinity does not. -/
def FitsDays (days : BitVec 32) : Prop :=
  -106762948 ≤ days.toInt ∧ days.toInt ≤ 106741034

/-- A value that a scan reads back once it is compressed. -/
def TableColumn.Fits (c : TableColumn) (value : Schema.Value) : Prop :=
  c.isSegmentBy = true ∨ match value with
    | some (.timestamp _) => c.dataType = .timestamp ∨ c.dataType = .timestamptz
    | some (.date days) => c.dataType = .date ∧ FitsDays days
    | _ => True

/-- A compressed value of the column's type whose literal comes back. -/
def TableColumn.ComesBack (pg : InsertInput) (c : TableColumn) (value : Schema.Value) : Prop :=
  ∀ v, value = some v →
    if c.isSegmentBy then SegmentValueComesBack pg c.dataType v
    else v.encode.OfType pg c.dataType ∧ v.encode.ComesBack pg c.dataType

/-- The dates that an operation compresses fit, and the literals it writes come back. -/
structure RowsComeBack (pg : InsertInput) (columns : List TableColumn) (st : State ColumnRow)
    (op : Op ColumnRow) : Prop where
  literals : ∀ r ∈ literalRows st op, List.Forall₂ (TableColumn.ComesBack pg) columns r
  dates : ∀ r ∈ compressedRows st op, List.Forall₂ TableColumn.Fits columns r

theorem toInt_encodeDate {days : BitVec 32} (h : FitsDays days) :
    (encodeDate days).toInt = (days.toInt + 10957) * 86400000000 := by
  obtain ⟨hlow, hhigh⟩ := h
  rw [encodeDate, BitVec.toInt_mul, toInt_unixDays, toInt_usecPerDay]
  exact Int.bmod_eq_of_le (by omega) (by omega)

theorem decode_encodeDate {days : BitVec 32} (h : FitsDays days) :
    Cell.decode .date (.usec (encodeDate days)) = .date days := by
  have hsum : days.toInt + 10957 - 10957 = days.toInt := by omega
  rw [Cell.decode, toInt_encodeDate h, Int.mul_tdiv_cancel _ (by decide)]
  congr 1
  calc BitVec.ofInt 32 (days.toInt + 10957) - 10957
      = BitVec.ofInt 32 (days.toInt + 10957 - 10957) := (ofInt_sub 32 _ 10957).symm
    _ = days := by rw [hsum, BitVec.ofInt_toInt]

theorem fitsDays_decode (word : BitVec 64) :
    FitsDays (BitVec.ofInt 32 (word.toInt.tdiv 86400000000) - 10957) := by
  have hlt := word.toInt_lt
  have hle := word.le_toInt
  have hday : -106751991 ≤ word.toInt.tdiv 86400000000 ∧
      word.toInt.tdiv 86400000000 ≤ 106751991 := by
    rcases Int.le_total 0 word.toInt with hpos | hneg
    · rw [Int.tdiv_eq_ediv_of_nonneg hpos]
      omega
    · have htdiv := Int.neg_tdiv (a := -word.toInt) (b := 86400000000)
      rw [neg_neg, Int.tdiv_eq_ediv_of_nonneg (a := -word.toInt) (by omega)] at htdiv
      omega
  generalize word.toInt.tdiv 86400000000 = day at hday
  have hsub : BitVec.ofInt 32 day - 10957 = BitVec.ofInt 32 (day - 10957) :=
    (ofInt_sub 32 day 10957).symm
  have htoInt : (BitVec.ofInt 32 (day - 10957)).toInt = day - 10957 := by
    rw [BitVec.toInt_ofInt]
    exact Int.bmod_eq_of_le (by omega) (by omega)
  rw [FitsDays, hsub, htoInt]
  omega

/-- A cell that was read and compressed again reads as before. -/
theorem decode_encode_decode {dt : DataType} (c : Cell) :
    (c.decode dt).encode.decode dt = c.decode dt := by
  cases c with
  | text t => cases dt <;> rfl
  | usec word =>
      have hclock : ∀ w : BitVec 64, encodeTimestamp (w - pgEpochOffsetUsec) - pgEpochOffsetUsec =
          w - pgEpochOffsetUsec := by
        intro w
        rw [encodeTimestamp, BitVec.sub_add_cancel]
      cases dt with
      | date => exact decode_encodeDate (fitsDays_decode word)
      | _ => exact congrArg PgValue.timestamp (hclock word)

theorem TableColumn.read_read (c : TableColumn) (value : Schema.Value) :
    c.read (c.read value) = c.read value := by
  unfold TableColumn.read
  split
  · rfl
  · cases value with
    | none => rfl
    | some v => exact congrArg some (decode_encode_decode v.encode)

theorem TableColumn.read_of_fits {c : TableColumn} {value : Schema.Value} (h : c.Fits value) :
    c.read value = value := by
  unfold TableColumn.read
  split
  · rfl
  · rename_i hsegment
    rcases h with hseg | hfits
    · exact absurd hseg hsegment
    · cases value with
      | none => rfl
      | some v =>
          apply congrArg some
          cases v with
          | timestamp usec =>
              have hclock : encodeTimestamp usec - pgEpochOffsetUsec = usec := by
                rw [encodeTimestamp, BitVec.add_sub_cancel]
              rcases hfits with hdt | hdt
              · rw [hdt]
                exact congrArg PgValue.timestamp hclock
              · rw [hdt]
                exact congrArg PgValue.timestamp hclock
          | date days =>
              obtain ⟨hdt, hdays⟩ := hfits
              rw [hdt]
              exact decode_encodeDate hdays
          | text t => cases c.dataType <;> rfl

theorem TableColumn.restore_of_comesBack {pg : InsertInput} {c : TableColumn} {value : Schema.Value}
    (h : c.ComesBack pg value) : c.restore pg value = some (c.read value) := by
  unfold TableColumn.restore TableColumn.read
  cases value with
  | none => cases c.isSegmentBy <;> rfl
  | some v =>
      have hv := h v rfl
      split at hv
      · rename_i hsegment
        simp only [hsegment, if_true, Option.map_some]
        exact insertText_segmentValue hv
      · rename_i hsegment
        simp only [if_neg hsegment, Option.map_some]
        exact insertText_decompressed hv.1 hv.2

/-! ## Runs -/

section Runs

variable {κ : Type*} (l : Layout ColumnRow κ) {pg : InsertInput} {columns : List TableColumn}

theorem zipWith_read {r : ColumnRow} (h : List.Forall₂ TableColumn.Fits columns r) :
    List.zipWith TableColumn.read columns r = r := by
  induction h with
  | nil => rfl
  | cons hfits _ ih => rw [List.zipWith_cons_cons, ih, TableColumn.read_of_fits hfits]

theorem restores_of_comesBack {r : ColumnRow}
    (h : List.Forall₂ (TableColumn.ComesBack pg) columns r) :
    (l.ofColumns pg columns).Restores r := by
  show ((columns.zip r).mapM fun p => p.1.restore pg p.2) =
    some (List.zipWith TableColumn.read columns r)
  induction h with
  | nil => rfl
  | cons hback _ ih =>
      rw [List.zip_cons_cons, List.mapM_cons, TableColumn.restore_of_comesBack hback, ih]
      rfl

theorem read_read (r : ColumnRow) :
    (l.ofColumns pg columns).read ((l.ofColumns pg columns).read r) =
      (l.ofColumns pg columns).read r := by
  show List.zipWith TableColumn.read columns (List.zipWith TableColumn.read columns r) =
    List.zipWith TableColumn.read columns r
  induction columns generalizing r with
  | nil => rfl
  | cons c columns ih =>
      cases r with
      | nil => rfl
      | cons value r => simp only [List.zipWith_cons_cons, TableColumn.read_read, ih]

theorem keepsRows_of_comeBack {st : State ColumnRow} {op : Op ColumnRow}
    (h : RowsComeBack pg columns st op) : KeepsRows (l.ofColumns pg columns) st op where
  restores r hr := restores_of_comesBack l (h.literals r hr)
  reads_again r _ := read_read l r
  reads r hr := zipWith_read (h.dates r hr)

variable [DecidableEq κ]

/-- In every run whose operations compress dates that fit and write literals that come
back, each operation changes the content by what the user inserted and deleted, and the
whole run by all of that. -/
theorem content_of_rowsComeBack (rows : List ColumnRow) {ops : List (Op ColumnRow)}
    (h : Along (step (l.ofColumns pg columns)) (RowsComeBack pg columns) (fresh rows) ops) :
    Along (step (l.ofColumns pg columns)) (ContentKept (l.ofColumns pg columns)) (fresh rows) ops ∧
      content (l.ofColumns pg columns) (reached (l.ofColumns pg columns) rows ops) +
          (runEffect (l.ofColumns pg columns) (fresh rows) ops).1 =
        ↑rows + (runEffect (l.ofColumns pg columns) (fresh rows) ops).2 := by
  have hkept := content_along (wellFormed_fresh rows)
    (along_mono (fun _ _ => keepsRows_of_comeBack l) h)
  refine ⟨hkept, ?_⟩
  have hrun := content_run hkept
  have hfresh : content (l.ofColumns pg columns) (fresh rows) = ↑rows := by
    simp [content, fresh, State.heapRows, Function.comp_def]
  rwa [hfresh] at hrun

end Runs

/-! ## A timestamp without a zone -/

/-- Tables of one `timestamp` column, a row a segment, in a session with a zone. -/
def clockLayout (zone : ℤ → ℤ) : Layout ColumnRow Unit :=
  Layout.ofColumns
    { hasSegmentBy := false
      segmentKey := fun _ => ()
      cursorLe := fun _ _ => true
      orderLe := fun _ _ => true
      segmentSize := 1
      segmentSize_pos := Nat.one_pos
      jsonExtract := false
      read := id
      restore := some }
    (sessionInput zone) [⟨.timestamp, false⟩]

theorem segmentRows_clock (zone : ℤ → ℤ) (next : ℤ) (r : ColumnRow) :
    segmentRows (clockLayout zone) next [r] = [⟨next, [r]⟩] := by
  simp [segmentRows, Flush.append, Flush.boundary, Flush.flush, flushWithSplitting, clockLayout,
    Layout.ofColumns]

def clockState (r : ColumnRow) : State ColumnRow :=
  ⟨true, [⟨1, [r]⟩], ∅, [], some 1, none, false, false⟩

theorem compress_clock (zone : ℤ → ℤ) (r : ColumnRow) :
    step (clockLayout zone) (fresh [r]) .compress = .ok (clockState r) := by
  simp [step, perform, compressPartition, fresh, State.heapRows, segmentRows_clock, clockState,
    Except.map, bind, Except.bind, pure, Except.pure]

theorem decompress_clock {zone : ℤ → ℤ} {r r' : ColumnRow}
    (h : (clockLayout zone).restore r = some r') :
    step (clockLayout zone) (clockState r) .decompress =
      .ok ⟨false, [], ∅, [⟨r', false⟩], none, none, false, false⟩ := by
  simp [step, perform, decompressPartition, restoreSegmentRows, liveRows, clockState, h,
    Except.map, bind, Except.bind, pure, Except.pure]

/-- 2000-01-01 00:00, compressed and restored in a session in UTC. -/
theorem content_of_rowsComeBack_utc :
    Along (step (clockLayout fun _ => 0)) (ContentKept (clockLayout fun _ => 0))
        (fresh [[some (.timestamp 0)]]) [.compress, .decompress] ∧
      content (clockLayout fun _ => 0)
            (reached (clockLayout fun _ => 0) [[some (.timestamp 0)]] [.compress, .decompress]) +
          (runEffect (clockLayout fun _ => 0) (fresh [[some (.timestamp 0)]])
            [.compress, .decompress]).1 =
        ↑[[some (PgValue.timestamp 0)]] +
          (runEffect (clockLayout fun _ => 0) (fresh [[some (.timestamp 0)]])
            [.compress, .decompress]).2 := by
  refine content_of_rowsComeBack _ [[some (.timestamp 0)]] ⟨⟨?_, ?_⟩, ⟨?_, ?_⟩, trivial⟩
  · intro r hr
    cases hr
  · intro r hr
    obtain rfl := List.mem_singleton.mp hr
    exact .cons (.inr (.inl rfl)) .nil
  · intro r hr
    change r ∈ literalRows (next (step (clockLayout fun _ => 0)) (fresh _) .compress) .decompress at hr
    rw [next_of_ok (compress_clock _ _)] at hr
    obtain rfl := List.mem_singleton.mp hr
    refine .cons ?_ .nil
    rintro v ⟨⟩
    exact ⟨rfl, by decide, rfl⟩
  · intro r hr
    cases hr

/-- 2000-01-01 00:00 in a session an hour east of Greenwich: the full decompression moves
the row to 01:00. -/
theorem not_contentKept_one_hour_east :
    ¬ Along (step (clockLayout fun _ => 3600000000)) (ContentKept (clockLayout fun _ => 3600000000))
      (fresh [[some (.timestamp 0)]]) [.compress, .decompress] := by
  rintro ⟨-, hkept, -⟩
  rw [next_of_ok (compress_clock _ _)] at hkept
  have hrestore : (clockLayout fun _ => 3600000000).restore [some (.timestamp 0)] =
      some [some (.timestamp 3600000000)] := by decide +kernel
  have hcontent := hkept _ (decompress_clock hrestore)
  simp only [deletedRows, insertedRows, add_zero] at hcontent
  have hbefore : content (clockLayout fun _ => 3600000000) (clockState [some (.timestamp 0)]) =
      {[some (.timestamp 0)]} := by
    rfl
  have hafter : content (clockLayout fun _ => 3600000000)
      ⟨false, [], ∅, [⟨[some (.timestamp 3600000000)], false⟩], none, none, false, false⟩ =
        {[some (.timestamp 3600000000)]} := by
    rfl
  rw [hbefore, hafter] at hcontent
  revert hcontent
  decide

end DeltaX.Partition
