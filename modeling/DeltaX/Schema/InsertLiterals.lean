import DeltaX.Column.TimestampRoundTrip
import DeltaX.Schema.TimestampLiterals
/-!
# Restored values

Every restore path writes the values of a segment as the literals of an `INSERT`, and
PostgreSQL assigns them to the columns.  A scan reads the same cells without going through
a text.  The two agree on a cell when its literal comes back.
-/

namespace DeltaX.Schema

open Column Column.Timeparse Column.TimestampParse Column.TimestampRoundTrip Stats.Encoding
open Support.Calendar TimestampLiterals

/-! ## Values and cells -/

/-- A value of a column: a timestamp in microseconds and a date in days, both from
2000-01-01 on, any other by its text. -/
inductive PgValue
  | timestamp (usec : BitVec 64)
  | date (days : BitVec 32)
  | text (t : Text)
deriving DecidableEq, Repr

/-- The value of a column in one row, `none` for NULL. -/
abbrev Value : Type := Option PgValue

/-- A value in a blob: Unix microseconds, or a text. -/
inductive Cell
  | usec (word : BitVec 64)
  | text (t : Text)
deriving DecidableEq, Repr

def PgValue.encode : PgValue → Cell
  | .timestamp usec => .usec (encodeTimestamp usec)
  | .date days => .usec (encodeDate days)
  | .text t => .text t

/-- What a scan makes of a cell.  The division of `i64` truncates. -/
def Cell.decode : DataType → Cell → PgValue
  | .date, .usec word => .date (BitVec.ofInt 32 (word.toInt.tdiv 86400000000) - 10957)
  | _, .usec word => .timestamp (word - pgEpochOffsetUsec)
  | _, .text t => .text t

/-- The text that `decompress_column_values` gives for a cell. -/
def Cell.decompressed : DataType → Cell → Text
  | .date, .usec word => usecToDateString word.toInt
  | _, .usec word => usecToTimestampString word.toInt
  | _, .text t => t

/-- Types whose blobs hold Unix microseconds, rendered as a date and time. -/
def isCalendarType : DataType → Bool
  | .timestamp | .timestamptz | .date => true
  | _ => false

/-! ## PostgreSQL -/

def dateLiteral (d : Date) : Text := quoted (dateText d) ++ "::date".toList

/-- What a session's PostgreSQL does with the literals of an `INSERT`.  `zone` gives the
offset of the session's zone at an instant, `wallClock` the local time to which a local
time comes when it is read in the zone: a change of offset may have skipped it. -/
structure InsertInput extends TimestamptzInput where
  zone : ℤ → ℤ
  wallClock : BitVec 64 → BitVec 64
  hasType : DataType → PgValue → Prop
  castText : DataType → PgValue → Text
  assign : DataType → Text → Option PgValue
  assign_timestamptz : ∀ t : Text,
    assign .timestamptz (formatValueForInsert t .timestamptz) =
      (eval (formatValueForInsert t .timestamptz)).map fun usec =>
        .timestamp (BitVec.ofInt 64 usec)
  assign_timestamp : ∀ t : Text,
    assign .timestamp (formatValueForInsert t .timestamp) =
      (toTimestamptzInput.assigned zone (formatValueForInsert t .timestamp)).map fun usec =>
        .timestamp (BitVec.ofInt 64 usec)
  assign_date : ∀ d : Date, d.Valid → 1 ≤ d.year → d.year ≤ 294276 →
    assign .date (dateLiteral d) = some (.date (BitVec.ofInt 32 (d.ordinal - 730119)))
  -- a type reads its own output
  assign_text : ∀ dt t, isCalendarType dt = false → hasType dt (.text t) →
    assign dt (formatValueForInsert t dt) = some (.text t)
  assign_castText : ∀ dt v, dt ≠ .timestamp → hasType dt v →
    assign dt (formatValueForInsert (castText dt v) dt) = some v
  -- the text of a local time, read as an instant of the session
  assign_castText_timestamp : ∀ usec, hasType .timestamp (.timestamp usec) →
    assign .timestamp (formatValueForInsert (castText .timestamp (.timestamp usec)) .timestamp) =
      some (.timestamp (wallClock usec))

section Insert

variable (pg : InsertInput)

/-- The value that the row of an `INSERT` gets for a text of `restore_segment_rows`. -/
def insertText (dt : DataType) : Option Text → Option Value
  | none => some none
  | some t => (pg.assign dt (formatValueForInsert t dt)).map some

def Cell.OfType (dt : DataType) : Cell → Prop
  | .usec _ => isCalendarType dt = true
  | .text t => isCalendarType dt = false ∧ pg.hasType dt (.text t)

/-- A timestamp or date from the year 1 on; a timestamp without a zone also needs a zone
that has no offset at its instant, a date one that its cell is not within a day before
the Unix epoch. -/
def Cell.ComesBack : DataType → Cell → Prop
  | .timestamp, .usec word =>
      -62135596800000000 ≤ word.toInt ∧ pg.zone (word.toInt - 946684800000000) = 0
  | .date, .usec word =>
      -62135596800000000 ≤ word.toInt ∧ (0 ≤ word.toInt ∨ 86400000000 ∣ word.toInt)
  | _, .usec word => -62135596800000000 ≤ word.toInt
  | _, .text _ => True

/-- A segment-by value is kept by PostgreSQL itself and restored from its text: only a
timestamp without a zone can change, at a time that the zone has skipped. -/
def SegmentValueComesBack (dt : DataType) (v : PgValue) : Prop :=
  pg.hasType dt v ∧ (dt = .timestamp → ∃ usec, v = .timestamp usec ∧ pg.wallClock usec = usec)

/-! ## Literals that come back -/

/-- The date of Unix microseconds comes back, rounded down to its day. -/
theorem assign_usecToDateString {usec : ℤ} (hfirst : -62135596800000000 ≤ usec)
    (hlast : usec ≤ 9223372036854775807) :
    pg.assign .date (formatValueForInsert (usecToDateString usec) .date) =
      some (.date (BitVec.ofInt 32 (usec / 86400000000 - 10957))) := by
  obtain ⟨hvalid, hordinal⟩ := epochDaysToDate_spec (usec / 86400000000)
  have hyear : 1 ≤ (epochDaysToDate (usec / 86400000000)).year := by
    rw [← daysBeforeYear_le_ordinal_iff hvalid, hordinal]
    show 0 ≤ usec / 86400000000 + 719162
    omega
  have hyear' : (epochDaysToDate (usec / 86400000000)).year < 294277 := by
    rw [← not_le, ← daysBeforeYear_le_ordinal_iff hvalid, hordinal]
    show ¬ 107482102 ≤ usec / 86400000000 + 719162
    omega
  have hdays : usec / 86400000000 + 719162 - 730119 = usec / 86400000000 - 10957 := by omega
  have hassign := pg.assign_date _ hvalid hyear (by omega)
  rw [hordinal, hdays] at hassign
  rw [usecToDateString_eq (by omega)]
  exact hassign

theorem ofInt_sub (w : ℕ) (x y : ℤ) :
    BitVec.ofInt w (x - y) = BitVec.ofInt w x - BitVec.ofInt w y := by
  rw [Int.sub_eq_add_neg, BitVec.ofInt_add, BitVec.ofInt_neg, BitVec.sub_eq_add_neg]

theorem ofInt_sub_epoch (word : BitVec 64) :
    BitVec.ofInt 64 (word.toInt - 946684800000000) = word - pgEpochOffsetUsec := by
  rw [ofInt_sub, BitVec.ofInt_toInt]
  rfl

variable {pg}

/-- A cell whose literal comes back is inserted with the value a scan gives. -/
theorem insertText_decompressed {dt : DataType} {c : Cell} (htype : c.OfType pg dt)
    (hback : c.ComesBack pg dt) :
    insertText pg dt (some (c.decompressed dt)) = some (some (c.decode dt)) := by
  cases c with
  | text t =>
      have hassign := pg.assign_text dt t htype.1 htype.2
      have htext : Cell.decompressed dt (.text t) = t := by cases dt <;> rfl
      have hvalue : Cell.decode dt (.text t) = .text t := by cases dt <;> rfl
      rw [insertText, htext, hvalue, hassign]
      rfl
  | usec word =>
      have hlast := BitVec.toInt_lt (x := word)
      have hliteral : ∀ t, formatValueForInsert (usecToTimestampString t) .timestamp =
          utcLiteral (usecToDateTime t) := fun t => quoted_timestampText _
      cases dt with
      | timestamp =>
          obtain ⟨hfirst, hzone⟩ := hback
          have hassign := assigned_utc pg.toTimestamptzInput pg.zone hfirst (by omega)
          rw [hzone, add_zero, ← hliteral] at hassign
          simp only [insertText, Cell.decompressed, Cell.decode, pg.assign_timestamp, hassign,
            Option.map_some, ofInt_sub_epoch]
      | timestamptz =>
          have hassign := assigned_utc pg.toTimestamptzInput (fun _ => 0) hback (by omega)
          rw [add_zero, ← hliteral, TimestamptzInput.assigned] at hassign
          simp only [add_zero, Option.map_id'] at hassign
          have heval : pg.eval (formatValueForInsert (usecToTimestampString word.toInt) .timestamptz) =
              some (word.toInt - 946684800000000) := hassign
          simp only [insertText, Cell.decompressed, Cell.decode, pg.assign_timestamptz, heval,
            Option.map_some, ofInt_sub_epoch]
      | date =>
          obtain ⟨hfirst, hday⟩ := hback
          have hdiv : word.toInt.tdiv 86400000000 = word.toInt / 86400000000 := by
            rcases hday with hpos | hdvd
            · exact Int.tdiv_eq_ediv_of_nonneg hpos
            · exact Int.tdiv_eq_ediv_of_dvd hdvd
          simp only [insertText, Cell.decompressed, Cell.decode,
            assign_usecToDateString pg hfirst (by omega), hdiv, Option.map_some, ofInt_sub]
          rfl
      | _ => cases htype

theorem insertText_segmentValue {dt : DataType} {v : PgValue} (hback : SegmentValueComesBack pg dt v) :
    insertText pg dt (some (pg.castText dt v)) = some (some v) := by
  obtain ⟨htype, hclock⟩ := hback
  by_cases hdt : dt = .timestamp
  · subst hdt
    obtain ⟨usec, rfl, husec⟩ := hclock rfl
    rw [insertText, pg.assign_castText_timestamp usec htype, husec]
    rfl
  · rw [insertText, pg.assign_castText dt v hdt htype]
    rfl

end Insert

/-! ## A session -/

def unquote : Text → Text
  | '\'' :: '\'' :: rest => '\'' :: unquote rest
  | '\'' :: _ => []
  | c :: rest => c :: unquote rest
  | [] => []

theorem unquote_quoted (t : Text) {rest : Text} (hrest : ∀ rest', rest ≠ '\'' :: rest') :
    unquote ((quoted t).tail ++ rest) = t := by
  rw [quoted, List.tail_cons, List.append_assoc, List.singleton_append]
  induction t with
  | nil => exact unquote.eq_2 rest hrest
  | cons c t ih =>
      rw [List.flatMap_cons]
      by_cases hc : c = '\''
      · subst hc
        exact congrArg (List.cons '\'') ih
      · rw [if_neg hc, List.singleton_append, List.cons_append,
          unquote.eq_3 c _ (fun _ h => absurd h hc) hc, ih]

def readDate (text : Text) : Option Date :=
  let year := number (text.takeWhile Char.isDigit)
  if year = 0 then none
  else match text.dropWhile Char.isDigit with
    | '-' :: m :: m' :: '-' :: d :: d' :: _ => some ⟨year, number [m, m'], number [d, d']⟩
    | _ => none

theorem readDate_dateText {d : Date} (hd : d.Valid) (hyear : 1 ≤ d.year) (rest : Text) :
    readDate (dateText d ++ rest) = some d := by
  have hday := hd.day_le.trans (daysInMonth_le _ _)
  have hmonth := hd.month_le
  obtain ⟨m, m', hm, hmn⟩ := exists_padded_two (show d.month < 100 by omega)
  obtain ⟨c, c', hc, hcn⟩ := exists_padded_two (show d.day < 100 by omega)
  obtain ⟨htake, hdrop⟩ := @takeWhile_isDigit_append (padded 4 d.year.toNat)
    (m :: m' :: '-' :: c :: c' :: rest) (fun c hc => isDigit_of_mem_padded hc) '-' rfl
  have hback : ((d.year.toNat : ℕ) : ℤ) = d.year := by omega
  have htext : dateText d ++ rest =
      padded 4 d.year.toNat ++ '-' :: m :: m' :: '-' :: c :: c' :: rest := by
    rw [dateText, hm, hc]
    simp
  rw [htext, readDate, htake, hdrop, number_padded, if_neg (by omega)]
  simp only [hmn, hcn, hback]

/-- The assignment of literals with instants as `utcInput` reads them. -/
def sessionAssign (zone : ℤ → ℤ) (dt : DataType) (literal : Text) : Option PgValue :=
  match dt with
  | .timestamptz => (utcInput.eval literal).map fun usec => .timestamp (BitVec.ofInt 64 usec)
  | .timestamp =>
      (utcInput.assigned zone literal).map fun usec => .timestamp (BitVec.ofInt 64 usec)
  | .date =>
      (readDate (unquote literal.tail)).map fun d => .date (BitVec.ofInt 32 (d.ordinal - 730119))
  | .boolean => some (.text (if literal = "true".toList then "t".toList else "f".toList))
  | .integer | .bigint | .smallint => some (.text literal)
  | .doublePrecision | .real => some (.text literal.tail.dropLast)
  | _ => some (.text (unquote literal.tail))

/-- The values of a column that is no timestamp and no date. -/
def IsTextValue (dt : DataType) (v : PgValue) : Prop :=
  isCalendarType dt = false ∧
    ∃ t, v = .text t ∧ (dt = .boolean → t = "t".toList ∨ t = "f".toList)

theorem sessionAssign_text {zone : ℤ → ℤ} (dt : DataType) (t : Text)
    (hdt : isCalendarType dt = false) (htype : IsTextValue dt (.text t)) :
    sessionAssign zone dt (formatValueForInsert t dt) = some (.text t) := by
  obtain ⟨-, t', heq, hbool⟩ := htype
  obtain rfl := PgValue.text.inj heq
  have hunquote := @unquote_quoted t [] (by rintro _ ⟨⟩)
  rw [List.append_nil] at hunquote
  cases dt with
  | timestamp | timestamptz | date => cases hdt
  | boolean =>
      rcases hbool rfl with rfl | rfl
      · rfl
      · rfl
  | integer | bigint | smallint => rfl
  | doublePrecision | real => simp [sessionAssign, formatValueForInsert]
  | _ => exact congrArg (fun t => some (PgValue.text t)) hunquote

/-- A session whose zone skips no local time, with segment-by columns of other types than
timestamps and dates. -/
def sessionInput (zone : ℤ → ℤ) : InsertInput where
  toTimestamptzInput := utcInput
  zone := zone
  wallClock := id
  hasType := IsTextValue
  castText _
    | .text t => t
    | _ => []
  assign := sessionAssign zone
  assign_timestamptz _ := rfl
  assign_timestamp _ := rfl
  assign_date d hd hyear _ := by
    have hunquote := @unquote_quoted (dateText d) "::date".toList (by rintro _ ⟨⟩)
    have htail : (dateLiteral d).tail = (quoted (dateText d)).tail ++ "::date".toList := rfl
    have hread := readDate_dateText hd hyear []
    rw [List.append_nil] at hread
    simp only [sessionAssign, htail, hunquote, hread, Option.map_some]
  assign_text := sessionAssign_text
  assign_castText dt v _ htype := by
    obtain ⟨hdt, t, rfl, hbool⟩ := htype
    exact sessionAssign_text dt t hdt ⟨hdt, t, rfl, hbool⟩
  assign_castText_timestamp usec htype := by
    cases htype.1

end DeltaX.Schema
