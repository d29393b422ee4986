import DeltaX.Column.Timeparse
import DeltaX.Stats.Encoding
/-!
# Timestamps in restored rows

Full decompression inserts a timestamp, with or without a zone, as a `timestamptz`
literal in UTC.  PostgreSQL then assigns it to the column.  For one without a zone this
adds the offset of the session's zone, which the literal does not take out.
-/

namespace DeltaX.Schema.TimestampLiterals

open Column Column.Timeparse Stats.Encoding Support.Calendar Support.KeySpan

/-! ## Literals -/

def quoted (value : Text) : Text :=
  '\'' :: (value.flatMap (fun c => if c = '\'' then ['\'', '\''] else [c]) ++ ['\''])

def formatValueForInsert (value : Text) : DataType → Text
  | .timestamp | .timestamptz => quoted value ++ "::timestamptz".toList
  | .date => quoted value ++ "::date".toList
  | .boolean =>
      if value = "t".toList ∨ value = "true".toList ∨ value = "1".toList then "true".toList
      else "false".toList
  | .integer | .bigint | .smallint => value
  -- a float stands between quotes as it is
  | .doublePrecision | .real => '\'' :: (value ++ ['\''])
  | _ => quoted value

def formatMinmaxForInsert (val : Text) : DataType → Text
  | .timestamp | .timestamptz => quoted val ++ "::timestamptz".toList
  | .date => quoted val ++ "::date".toList
  | _ => val

def computeTypedMinmaxInt64 (values : List (Option (BitVec 64))) (dataType : DataType) :
    Option Text × Option Text :=
  let bounds := minmaxEncodedVia values BitVec.toInt
  match dataType with
  | .timestamp | .timestamptz =>
      (bounds.1.map usecToTimestampString, bounds.2.map usecToTimestampString)
  | .date => (bounds.1.map usecToDateString, bounds.2.map usecToDateString)
  | _ => (bounds.1.map fun v => v.repr.toList, bounds.2.map fun v => v.repr.toList)

/-- What `append_row_to_columns` pushes for a `timestamp without time zone`. -/
def appendTimestamps (rows : List (Option (BitVec 64))) : List (Option (BitVec 64)) :=
  rows.map (Option.map encodeTimestamp)

/-- The literal of a value in `restore_segment_rows`, from the decoded word. -/
def restoredLiteral (word : BitVec 64) : Text :=
  formatValueForInsert (usecToTimestampString word.toInt) .timestamp

/-- The `_min` and `_max` literals of a segment, if it has bounds. -/
def boundLiterals (rows : List (Option (BitVec 64))) : Option (Text × Text) :=
  match computeTypedMinmaxInt64 (appendTimestamps rows) .timestamp with
  | (some minVal, some maxVal) =>
      some (formatMinmaxForInsert minVal .timestamp, formatMinmaxForInsert maxVal .timestamp)
  | _ => none

/-! ## PostgreSQL -/

def pgEpoch : ℤ := 63082281600000000

/-- A date and time at UTC as a `timestamptz` literal. -/
def utcLiteral (t : DateTime) : Text :=
  '\'' :: (timestampText t ++ '\'' :: "::timestamptz".toList)

/-- How PostgreSQL reads a `timestamptz` literal with an explicit `+00`: as that instant
in UTC, where a year counts from 1 on and one before it needs a suffix. -/
structure TimestamptzInput where
  eval : Text → Option ℤ
  eval_utc : ∀ t : DateTime, t.Valid → 1 ≤ t.date.year → t.date.year ≤ 294276 →
    eval (utcLiteral t) = some (t.usecs - pgEpoch)
  eval_before : ∀ t : DateTime, t.Valid → t.date.year < 1 → eval (utcLiteral t) = none

/-- The value in a `timestamp without time zone` column: the assignment adds the offset
of the session's zone at the instant. -/
def TimestamptzInput.assigned (pg : TimestamptzInput) (zone : ℤ → ℤ) (literal : Text) : Option ℤ :=
  (pg.eval literal).map fun instant => instant + zone instant

/-- Every value of a segment and both its bounds come back as they were. -/
def Restores (pg : TimestamptzInput) (zone : ℤ → ℤ) (rows : List (Option (BitVec 64))) : Prop :=
  (∀ v, some v ∈ rows → pg.assigned zone (restoredLiteral (encodeTimestamp v)) = some v.toInt) ∧
  ∀ lo hi, IsSpan (rows.reduceOption.map BitVec.toInt) lo hi →
    ∃ minLiteral maxLiteral, boundLiterals rows = some (minLiteral, maxLiteral) ∧
      pg.assigned zone minLiteral = some lo ∧ pg.assigned zone maxLiteral = some hi

/-- A value from the year 1 on, finite and within the 64 bits from the Unix epoch, at
whose instant the zone has no offset. -/
def Restorable (zone : ℤ → ℤ) (v : BitVec 64) : Prop :=
  -63082281600000000 ≤ v.toInt ∧ v.toInt ≤ 9222425352054775807 ∧ zone v.toInt = 0

/-! ## A reader -/

def readFraction : Text → ℕ
  | '.' :: rest => number ((rest.takeWhile Char.isDigit).rightpad 6 '0')
  | _ => 0

def readDateTime (text : Text) : Option DateTime :=
  let year := number (text.takeWhile Char.isDigit)
  if year = 0 then none
  else match text.dropWhile Char.isDigit with
    | '-' :: m :: m' :: '-' :: d :: d' :: ' ' :: h :: h' :: ':' :: n :: n' :: ':' :: s :: s' :: rest =>
        some ⟨⟨year, number [m, m'], number [d, d']⟩, number [h, h'], number [n, n'], number [s, s'],
          readFraction rest⟩
    | _ => none

theorem takeWhile_isDigit_append {digits rest : Text} (hdigits : ∀ c ∈ digits, c.isDigit = true)
    {c : Char} (hc : c.isDigit = false) :
    (digits ++ c :: rest).takeWhile Char.isDigit = digits ∧
      (digits ++ c :: rest).dropWhile Char.isDigit = c :: rest := by
  constructor
  · rw [List.takeWhile_append_of_pos hdigits, List.takeWhile_cons_of_neg (by simp [hc]),
      List.append_nil]
  · rw [List.dropWhile_append_of_pos hdigits, List.dropWhile_cons_of_neg (by simp [hc])]

theorem readFraction_append {usec : ℕ} (husec : usec < 1000000) (rest : Text) :
    readFraction ((if 0 < usec then '.' :: (padded 6 usec).rdropWhile (fun c => c = '0') else []) ++
      '+' :: rest) = usec := by
  split_ifs with hpos
  · have hdigits : ∀ c ∈ (padded 6 usec).rdropWhile (fun c => c = '0'), c.isDigit = true :=
      fun c hc => isDigit_of_mem_padded ((List.rdropWhile_prefix _ _).subset hc)
    have hlen : (padded 6 usec).length = 6 := length_padded (by decide) husec
    have hpad := rightpad_rdropWhile_zero (padded 6 usec)
    rw [hlen] at hpad
    show number (((_ ++ '+' :: rest).takeWhile Char.isDigit).rightpad 6 '0') = usec
    rw [(takeWhile_isDigit_append hdigits rfl).1, hpad, number_padded]
  · show 0 = usec
    omega

theorem readDateTime_fields {year month day hour minute second : ℕ} (hyear : 1 ≤ year)
    (hmonth : month < 100) (hday : day < 100) (hhour : hour < 100) (hminute : minute < 100)
    (hsecond : second < 100) (rest : Text) :
    readDateTime (padded 4 year ++ '-' :: (padded 2 month ++ '-' :: (padded 2 day ++
      ' ' :: (padded 2 hour ++ ':' :: (padded 2 minute ++ ':' :: (padded 2 second ++ rest)))))) =
      some ⟨⟨year, month, day⟩, hour, minute, second, readFraction rest⟩ := by
  obtain ⟨m, m', hm, hmn⟩ := exists_padded_two hmonth
  obtain ⟨d, d', hd, hdn⟩ := exists_padded_two hday
  obtain ⟨h, h', hh, hhn⟩ := exists_padded_two hhour
  obtain ⟨n, n', hn, hnn⟩ := exists_padded_two hminute
  obtain ⟨s, s', hs, hsn⟩ := exists_padded_two hsecond
  rw [hm, hd, hh, hn, hs]
  simp only [List.cons_append, List.nil_append]
  obtain ⟨htake, hdrop⟩ := takeWhile_isDigit_append
    (fun c hc => @isDigit_of_mem_padded 4 year c hc) (show '-'.isDigit = false from rfl)
  rw [readDateTime, htake, hdrop, number_padded]
  rw [if_neg (by omega)]
  simp only [hmn, hdn, hhn, hnn, hsn]

theorem readDateTime_timestampText {t : DateTime} (ht : t.Valid) (hyear : 1 ≤ t.date.year)
    (rest : Text) : readDateTime (timestampText t ++ rest) = some t := by
  obtain ⟨hdate, hhour, hminute, hsecond, husec⟩ := ht
  have hmonth := hdate.month_le
  have hday := hdate.day_le.trans (daysInMonth_le _ _)
  have hfields := @readDateTime_fields t.date.year.toNat t.date.month t.date.day t.hour t.minute
    t.second (by omega) (by omega) (by omega) (by omega) (by omega) (by omega)
    ((if 0 < t.usec then '.' :: (padded 6 t.usec).rdropWhile (fun c => c = '0') else []) ++
      '+' :: '0' :: '0' :: rest)
  have htext : timestampText t ++ rest = padded 4 t.date.year.toNat ++
      '-' :: (padded 2 t.date.month ++ '-' :: (padded 2 t.date.day ++ ' ' :: (padded 2 t.hour ++
        ':' :: (padded 2 t.minute ++ ':' :: (padded 2 t.second ++
          ((if 0 < t.usec then '.' :: (padded 6 t.usec).rdropWhile (fun c => c = '0') else []) ++
            '+' :: '0' :: '0' :: rest)))))) := by
    rw [timestampText, paddedInt, if_neg (by omega)]
    simp
  have hback : ((t.date.year.toNat : ℕ) : ℤ) = t.date.year := by omega
  rw [htext, hfields, readFraction_append husec, hback]

theorem readDateTime_before {t : DateTime} (hyear : t.date.year < 1) (rest : Text) :
    readDateTime (timestampText t ++ rest) = none := by
  have hzero : number ((timestampText t ++ rest).takeWhile Char.isDigit) = 0 := by
    rw [timestampText, paddedInt]
    by_cases hneg : t.date.year < 0
    · rw [if_pos hneg]
      rfl
    · rw [if_neg hneg, List.append_assoc, List.cons_append,
        (takeWhile_isDigit_append (fun c hc => isDigit_of_mem_padded hc) rfl).1, number_padded]
      omega
  rw [readDateTime, hzero]
  rfl

/-- The reader as PostgreSQL's, for literals at UTC. -/
def utcInput : TimestamptzInput where
  eval literal := (readDateTime literal.tail).map fun t => t.usecs - pgEpoch
  eval_utc t ht hyear _ := by
    rw [utcLiteral, List.tail_cons, readDateTime_timestampText ht hyear]
    rfl
  eval_before t _ hyear := by
    rw [utcLiteral, List.tail_cons, readDateTime_before hyear]
    rfl

/-! ## Restored values -/

theorem quote_notMem_timestampText {t : DateTime} : '\'' ∉ timestampText t := by
  have hpadded : ∀ width n, '\'' ∉ padded width n := by
    intro width n hmem
    exact absurd (isDigit_of_mem_padded hmem) (by decide)
  have hfraction : '\'' ∉ (padded 6 t.usec).rdropWhile (fun c => c = '0') := fun hmem =>
    hpadded 6 t.usec ((List.rdropWhile_prefix _ _).subset hmem)
  rw [timestampText, paddedInt]
  split_ifs <;> simp [hpadded, hfraction]

theorem quoted_timestampText (t : DateTime) :
    quoted (timestampText t) ++ "::timestamptz".toList = utcLiteral t := by
  have hsame : (timestampText t).flatMap (fun c => if c = '\'' then ['\'', '\''] else [c]) =
      (timestampText t).flatMap fun c => [c] := by
    apply List.flatMap_congr
    intro c hc
    rw [if_neg fun h => quote_notMem_timestampText (h ▸ hc)]
  rw [quoted, hsame, List.flatMap_singleton', utcLiteral]
  simp

theorem restoredLiteral_eq (word : BitVec 64) :
    restoredLiteral word = utcLiteral (usecToDateTime word.toInt) :=
  quoted_timestampText _

section assigned

variable (pg : TimestamptzInput) (zone : ℤ → ℤ)

/-- A literal of Unix microseconds before the year 1 is rejected. -/
theorem assigned_before {usec : ℤ} (h : usec < -62135596800000000) :
    pg.assigned zone (utcLiteral (usecToDateTime usec)) = none := by
  obtain ⟨hvalid, husecs⟩ := usecToDateTime_spec usec
  have hyear : (usecToDateTime usec).date.year < 1 := by
    rw [← not_le, ← DateTime.usecs_le_iff hvalid, husecs]
    show ¬ 0 ≤ usec + 62135596800000000
    omega
  rw [TimestamptzInput.assigned, pg.eval_before _ hvalid hyear]
  rfl

/-- From the year 1 on it comes back with the offset of the zone. -/
theorem assigned_utc {usec : ℤ} (hfirst : -62135596800000000 ≤ usec)
    (hlast : usec ≤ 9223372036854775807) :
    pg.assigned zone (utcLiteral (usecToDateTime usec)) =
      some (usec - 946684800000000 + zone (usec - 946684800000000)) := by
  obtain ⟨hvalid, husecs⟩ := usecToDateTime_spec usec
  have hyear : 1 ≤ (usecToDateTime usec).date.year := by
    rw [← DateTime.usecs_le_iff hvalid, husecs]
    show 0 ≤ usec + 62135596800000000
    omega
  have hyear' : (usecToDateTime usec).date.year < 294277 := by
    rw [← not_le, ← DateTime.usecs_le_iff hvalid, husecs]
    show ¬ 107482102 * 86400000000 ≤ usec + 62135596800000000
    omega
  have hinstant : usec + 62135596800000000 - pgEpoch = usec - 946684800000000 := by
    unfold pgEpoch
    omega
  rw [TimestamptzInput.assigned, pg.eval_utc _ hvalid hyear (by omega), husecs, hinstant]
  rfl

theorem toInt_encodeTimestamp (v : BitVec 64) :
    (encodeTimestamp v).toInt =
      if v.toInt ≤ 9222425352054775807 then v.toInt + 946684800000000
      else v.toInt + 946684800000000 - 18446744073709551616 := by
  have hbounds := BitVec.toInt_lt (x := v)
  have hbounds' := BitVec.le_toInt (x := v)
  have hoffset : pgEpochOffsetUsec.toInt = 946684800000000 := rfl
  rw [encodeTimestamp, BitVec.toInt_add, hoffset, Int.bmod_def]
  simp only [Nat.reducePow, Nat.cast_ofNat]
  split_ifs <;> omega

/-- A stored value comes back exactly when it is restorable. -/
theorem assigned_restoredLiteral_iff (v : BitVec 64) :
    pg.assigned zone (restoredLiteral (encodeTimestamp v)) = some v.toInt ↔ Restorable zone v := by
  have hlt := BitVec.toInt_lt (x := v)
  rw [restoredLiteral_eq, toInt_encodeTimestamp]
  by_cases hfits : v.toInt ≤ 9222425352054775807
  · rw [if_pos hfits]
    by_cases hfirst : -63082281600000000 ≤ v.toInt
    · rw [assigned_utc pg zone (by omega) (by omega), add_sub_cancel_right, Option.some.injEq]
      unfold Restorable
      omega
    · rw [assigned_before pg zone (by omega)]
      constructor
      · intro h
        cases h
      · intro h
        exact absurd h.1 hfirst
  · rw [if_neg hfits, assigned_before pg zone (by omega)]
    constructor
    · intro h
      cases h
    · intro h
      exact absurd h.2.1 hfits

theorem boundLiterals_eq {rows : List (Option (BitVec 64))} {lo hi : ℤ}
    (hspan : IsSpan (rows.reduceOption.map BitVec.toInt) lo hi)
    (hfits : ∀ v, some v ∈ rows → v.toInt ≤ 9222425352054775807) :
    boundLiterals rows = some (utcLiteral (usecToDateTime (lo + 946684800000000)),
      utcLiteral (usecToDateTime (hi + 946684800000000))) := by
  have hkeys : (appendTimestamps rows).reduceOption.map BitVec.toInt =
      (rows.reduceOption.map BitVec.toInt).map fun key => key + 946684800000000 := by
    rw [appendTimestamps, List.reduceOption_map, List.map_map, List.map_map]
    apply List.map_congr_left
    intro v hv
    rw [Function.comp_apply, Function.comp_apply, toInt_encodeTimestamp,
      if_pos (hfits v (List.reduceOption_mem_iff.mp hv))]
  have hsummary := summary_minmaxEncodedVia (appendTimestamps rows) BitVec.toInt
  rw [hkeys] at hsummary
  generalize hbounds : minmaxEncodedVia (appendTimestamps rows) BitVec.toInt = bounds at hsummary
  cases hsummary with
  | empty hnone =>
      rw [List.map_eq_nil_iff] at hnone
      rw [hnone] at hspan
      exact absurd hspan.lo_mem List.not_mem_nil
  | span hspan' =>
      have hmono : Monotone fun key : ℤ => key + 946684800000000 := by
        intro a b hab
        simp only
        omega
      obtain ⟨rfl, rfl⟩ := hspan'.unique (hspan.map hmono)
      rw [boundLiterals, computeTypedMinmaxInt64, hbounds]
      simp only [Option.map_some, formatMinmaxForInsert, usecToTimestampString,
        quoted_timestampText]

/-- The values of a segment and its bounds are restored exactly when every value is
restorable: with any offset of the session's zone none is. -/
theorem restores_iff (rows : List (Option (BitVec 64))) :
    Restores pg zone rows ↔ ∀ v, some v ∈ rows → Restorable zone v := by
  constructor
  · intro h v hv
    exact (assigned_restoredLiteral_iff pg zone v).mp (h.1 v hv)
  · intro h
    refine ⟨fun v hv => (assigned_restoredLiteral_iff pg zone v).mpr (h v hv), ?_⟩
    intro lo hi hspan
    refine ⟨_, _, boundLiterals_eq hspan fun v hv => (h v hv).2.1, ?_⟩
    have hbound : ∀ key ∈ rows.reduceOption.map BitVec.toInt,
        pg.assigned zone (utcLiteral (usecToDateTime (key + 946684800000000))) = some key := by
      intro key hkey
      obtain ⟨v, hv, rfl⟩ := List.mem_map.mp hkey
      obtain ⟨hfirst, hlast, hzone⟩ := h v (List.reduceOption_mem_iff.mp hv)
      rw [assigned_utc pg zone (by omega) (by omega), add_sub_cancel_right, hzone, Int.add_zero]
    exact ⟨hbound lo hspan.lo_mem, hbound hi hspan.hi_mem⟩

end assigned

example : restoredLiteral (encodeTimestamp 0) = "'2000-01-01 00:00:00+00'::timestamptz".toList := by
  decide +kernel

/-- 2000-01-01 00:00 in a session an hour east of Greenwich comes back an hour later. -/
theorem not_restores_one_hour_east :
    utcInput.assigned (fun _ => 3600000000) (restoredLiteral (encodeTimestamp 0)) =
        some 3600000000 ∧
      ¬ Restores utcInput (fun _ => 3600000000) [some 0] := by
  constructor
  · rw [restoredLiteral_eq, toInt_encodeTimestamp]
    exact assigned_utc utcInput (fun _ => 3600000000) (by decide) (by decide)
  · intro h
    have hback := h.1 0 List.mem_cons_self
    rw [assigned_restoredLiteral_iff] at hback
    exact absurd hback.2.2 (by decide)

end DeltaX.Schema.TimestampLiterals
