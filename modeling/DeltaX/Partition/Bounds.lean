import DeltaX.Partition.Intervals
import DeltaX.Schema.TimestampLiterals
/-!
# Partition names and bounds

A partition is named after its start, by the day or by the minute, and bounded by two
`timestamptz` literals, all in the local time of the session.  The literals are read in the
same session, where a wall clock may show one time twice and another not at all.
-/

namespace DeltaX.Partition.Bounds

open Column Column.Timeparse Schema.TimestampLiterals Support.Calendar Intervals

/-! ## The session -/

/-- The `TimeZone` of a session: the offset from UTC at an instant, in seconds, and the instant
that a local time is read as.  Reading takes away one of the zone's offsets, and finds an
instant with that local time if there is one. -/
structure SessionZone where
  offset : ℤ → ℤ
  fromLocal : ℤ → ℤ
  offset_lt : ∀ usec, |offset usec| < 86400
  fromLocal_offset : ∀ wall, ∃ usec, fromLocal wall = wall - offset usec * 1000000
  fromLocal_shown : ∀ usec wall, wall = usec + offset usec * 1000000 →
    fromLocal wall + offset (fromLocal wall) * 1000000 = wall

namespace SessionZone

variable (zone : SessionZone)

def toLocal (usec : ℤ) : ℤ := usec + zone.offset usec * 1000000

def localTime (usec : ℤ) : DateTime := usecToDateTime (zone.toLocal usec)

end SessionZone

def utcZone : SessionZone where
  offset _ := 0
  fromLocal wall := wall
  offset_lt _ := by decide
  fromLocal_offset wall := ⟨0, by omega⟩
  fromLocal_shown _ _ h := by omega

/-- `YYYY` has no era: years before 1 count upwards again. -/
def displayYear (year : ℤ) : ℕ := (if year ≤ 0 then 1 - year else year).toNat

def toCharDay (t : DateTime) : Text :=
  padded 4 (displayYear t.date.year) ++ (padded 2 t.date.month ++ padded 2 t.date.day)

/-- `to_char` with `'YYYYMMDD_HH24MI'`. -/
def toCharMinute (t : DateTime) : Text :=
  toCharDay t ++ '_' :: (padded 2 t.hour ++ padded 2 t.minute)

/-- `to_char` with `'YYYY-MM-DD HH24:MI:SS'`. -/
def toCharSecond (t : DateTime) : Text :=
  padded 4 (displayYear t.date.year) ++ '-' :: (padded 2 t.date.month ++ '-' ::
    (padded 2 t.date.day ++ ' ' :: (padded 2 t.hour ++ ':' :: (padded 2 t.minute ++
      ':' :: padded 2 t.second))))

instance (d : Date) : Decidable d.Valid :=
  decidable_of_iff (1 ≤ d.month ∧ d.month ≤ 12 ∧ 1 ≤ d.day ∧ d.day ≤ daysInMonth d.year d.month)
    ⟨fun ⟨h1, h2, h3, h4⟩ => ⟨h1, h2, h3, h4⟩, fun ⟨h1, h2, h3, h4⟩ => ⟨h1, h2, h3, h4⟩⟩

instance (t : DateTime) : Decidable t.Valid :=
  decidable_of_iff (t.date.Valid ∧ t.hour < 24 ∧ t.minute < 60 ∧ t.second < 60 ∧ t.usec < 1000000)
    ⟨fun ⟨h1, h2, h3, h4, h5⟩ => ⟨h1, h2, h3, h4, h5⟩,
      fun ⟨h1, h2, h3, h4, h5⟩ => ⟨h1, h2, h3, h4, h5⟩⟩

/-- A `timestamptz` literal without a zone or an era, as the session reads it. -/
def readTimestamptz (zone : SessionZone) (text : Text) : Option ℤ :=
  (readDateTime text).bind fun t =>
    if t.Valid then some (zone.fromLocal (t.usecs - 62135596800000000)) else none

/-! ## Partitions -/

def formatTs (zone : SessionZone) (usec : ℤ) : Text := toCharSecond (zone.localTime usec)

def partitionName (zone : SessionZone) (tableName : Text) (rangeStartUsec intervalUsec : ℤ) :
    Text :=
  let datePart :=
    if intervalUsec ≥ 86400000000 then toCharDay (zone.localTime rangeStartUsec)
    else toCharMinute (zone.localTime rangeStartUsec)
  tableName ++ "_p".toList ++ datePart

structure NewPartition where
  name : Text
  rangeStart : Text
  rangeEnd : Text
deriving DecidableEq, Repr

def newPartition (zone : SessionZone) (tableName : Text) (intervalUsec startUsec : ℤ) :
    NewPartition :=
  { name := partitionName zone tableName startUsec intervalUsec
    rangeStart := formatTs zone startUsec
    rangeEnd := formatTs zone (wrapI64 (startUsec + intervalUsec)) }

def createInitialPartitions (cast : NumericToInt) (zone : SessionZone) (tableName : Text)
    (interval : Interval) (nowUsec premake : ℤ) : Option (List NewPartition) := do
  let intervalUsec ← intervalToUsec cast interval
  let currentAligned ← alignToInterval nowUsec intervalUsec
  pure ((List.range (premake + 2).toNat).map fun k : ℕ =>
    newPartition zone tableName intervalUsec
      (wrapI64 (currentAligned + ((k : ℤ) - 1) * intervalUsec)))

/-- A round of the loop of `ensure_future_partitions`: the partition is made and registered
unless its name is in the catalog. -/
def ensurePartition (registered : List Text) (created : List NewPartition) (part : NewPartition) :
    List NewPartition :=
  if part.name ∈ registered ++ created.map NewPartition.name then created else created ++ [part]

def ensureFuturePartitions (cast : NumericToInt) (zone : SessionZone) (tableName : Text)
    (interval : Interval) (nowUsec premake : ℤ) (registered : List Text) :
    Option (List NewPartition) := do
  let intervalUsec ← intervalToUsec cast interval
  let currentAligned ← alignToInterval nowUsec intervalUsec
  pure (((List.range (premake + 1).toNat).map fun k : ℕ =>
    newPartition zone tableName intervalUsec
      (wrapI64 (currentAligned + k * intervalUsec))).foldl (ensurePartition registered) [])

/-! ## Names -/

theorem padded_injective (width : ℕ) : Function.Injective (padded width) := by
  intro n n' h
  have hnumber := congrArg number h
  rwa [number_padded, number_padded] at hnumber

theorem length_padded_two {n : ℕ} (h : n < 100) : (padded 2 n).length = 2 :=
  length_padded (by decide) h

theorem Date.month_day_lt {d : Date} (h : d.Valid) : d.month < 100 ∧ d.day < 100 := by
  have hmonth := h.month_le
  have hday := h.day_le.trans (daysInMonth_le d.year d.month)
  omega

section names

variable {t t' : DateTime}

theorem toCharDay_eq_iff (ht : t.Valid) (ht' : t'.Valid) :
    toCharDay t = toCharDay t' ↔ displayYear t.date.year = displayYear t'.date.year ∧
      t.date.month = t'.date.month ∧ t.date.day = t'.date.day := by
  obtain ⟨hmonth, hday⟩ := Date.month_day_lt ht.date_valid
  obtain ⟨hmonth', hday'⟩ := Date.month_day_lt ht'.date_valid
  constructor
  · intro h
    obtain ⟨hyear, hrest⟩ := List.append_inj' h (by
      rw [List.length_append, List.length_append, length_padded_two hmonth, length_padded_two hday,
        length_padded_two hmonth', length_padded_two hday'])
    obtain ⟨hm, hd⟩ := List.append_inj' hrest (by
      rw [length_padded_two hday, length_padded_two hday'])
    exact ⟨padded_injective 4 hyear, padded_injective 2 hm, padded_injective 2 hd⟩
  · rintro ⟨hyear, hm, hd⟩
    rw [toCharDay, toCharDay, hyear, hm, hd]

theorem toCharMinute_eq_iff (ht : t.Valid) (ht' : t'.Valid) :
    toCharMinute t = toCharMinute t' ↔ toCharDay t = toCharDay t' ∧
      t.hour = t'.hour ∧ t.minute = t'.minute := by
  have hhour := ht.hour_lt
  have hminute := ht.minute_lt
  have hhour' := ht'.hour_lt
  have hminute' := ht'.minute_lt
  constructor
  · intro h
    obtain ⟨hdate, hclock⟩ := List.append_inj' h (by
      rw [List.length_cons, List.length_cons, List.length_append, List.length_append,
        length_padded_two (show t.hour < 100 by omega),
        length_padded_two (show t.minute < 100 by omega),
        length_padded_two (show t'.hour < 100 by omega),
        length_padded_two (show t'.minute < 100 by omega)])
    obtain ⟨hh, hm⟩ := List.append_inj' (List.cons.inj hclock).2 (by
      rw [length_padded_two (show t.minute < 100 by omega),
        length_padded_two (show t'.minute < 100 by omega)])
    exact ⟨hdate, padded_injective 2 hh, padded_injective 2 hm⟩
  · rintro ⟨hdate, hh, hm⟩
    rw [toCharMinute, toCharMinute, hdate, hh, hm]

end names

/-- Two instants on one local day or, for intervals of less than a day, in one local minute.
The years are taken without their era. -/
def SameStamp (zone : SessionZone) (intervalUsec s s' : ℤ) : Prop :=
  let t := zone.localTime s
  let t' := zone.localTime s'
  (displayYear t.date.year = displayYear t'.date.year ∧ t.date.month = t'.date.month ∧
    t.date.day = t'.date.day) ∧
  (intervalUsec < 86400000000 → t.hour = t'.hour ∧ t.minute = t'.minute)

theorem localTime_valid (zone : SessionZone) (usec : ℤ) : (zone.localTime usec).Valid :=
  (usecToDateTime_spec _).1

theorem partitionName_eq_iff (zone : SessionZone) (tableName : Text) (intervalUsec s s' : ℤ) :
    partitionName zone tableName s intervalUsec = partitionName zone tableName s' intervalUsec ↔
      SameStamp zone intervalUsec s s' := by
  have ht := localTime_valid zone s
  have ht' := localTime_valid zone s'
  rw [partitionName, partitionName, List.append_right_inj, SameStamp]
  by_cases hday : intervalUsec ≥ 86400000000
  · rw [if_pos hday, if_pos hday, toCharDay_eq_iff ht ht']
    exact ⟨fun h => ⟨h, fun hlt => absurd hlt (by omega)⟩, And.left⟩
  · rw [if_neg hday, if_neg hday, toCharMinute_eq_iff ht ht', toCharDay_eq_iff ht ht']
    exact and_congr_right fun _ => ⟨fun h _ => h, fun h => h (by omega)⟩

/-! ## Bounds -/

/-- The wall-clock time of an instant is of the year 1 or later, and the session reads it as
that instant. -/
def ReadsItself (zone : SessionZone) (usec : ℤ) : Prop :=
  1 ≤ (zone.localTime usec).date.year ∧ zone.fromLocal (zone.toLocal usec) = usec

theorem readTimestamptz_toCharSecond (zone : SessionZone) {t : DateTime} (ht : t.Valid) :
    readTimestamptz zone (toCharSecond t) =
      let shown : DateTime := ⟨⟨displayYear t.date.year, t.date.month, t.date.day⟩,
        t.hour, t.minute, t.second, 0⟩
      if shown.Valid then some (zone.fromLocal (shown.usecs - 62135596800000000)) else none := by
  obtain ⟨hmonth, hday⟩ := Date.month_day_lt ht.date_valid
  have hhour := ht.hour_lt
  have hminute := ht.minute_lt
  have hsecond := ht.second_lt
  have hyear : 1 ≤ displayYear t.date.year := by
    unfold displayYear
    split_ifs <;> omega
  have hread := readDateTime_fields hyear hmonth hday (show t.hour < 100 by omega)
    (show t.minute < 100 by omega) (show t.second < 100 by omega) []
  rw [List.append_nil] at hread
  rw [readTimestamptz, toCharSecond, hread]
  rfl

/-- A date before the year 1 is shown as one that is almost a year later or more. -/
theorem ordinal_shown {d : Date} (hd : d.Valid) (hyear : d.year < 1) :
    d.ordinal + 364 ≤ (⟨displayYear d.year, d.month, d.day⟩ : Date).ordinal := by
  have hshown : ((displayYear d.year : ℕ) : ℤ) = 1 - d.year := by
    rw [displayYear, if_pos (by omega)]
    omega
  have hyears : daysBeforeYear d.year + 365 ≤ daysBeforeYear (1 - d.year) := by
    unfold daysBeforeYear
    omega
  rw [Date.ordinal, Date.ordinal, hshown]
  show daysBeforeYear d.year + daysBeforeMonth d.year d.month + (d.day - 1) + 364 ≤
    daysBeforeYear (1 - d.year) + daysBeforeMonth (1 - d.year) d.month + (d.day - 1)
  rw [daysBeforeMonth_eq d.year hd.month_pos hd.month_le,
    daysBeforeMonth_eq (1 - d.year) hd.month_pos hd.month_le]
  split_ifs <;> omega

/-- An instant of whole seconds comes back from its literal exactly if its wall-clock time is
read as it. -/
theorem readTimestamptz_formatTs_iff (zone : SessionZone) {usec : ℤ} (h : usec % 1000000 = 0) :
    readTimestamptz zone (formatTs zone usec) = some usec ↔ ReadsItself zone usec := by
  have ht := localTime_valid zone usec
  have husecs : (zone.localTime usec).usecs = zone.toLocal usec + 62135596800000000 :=
    (usecToDateTime_spec _).2
  have hlocal : zone.toLocal usec = usec + zone.offset usec * 1000000 := rfl
  rw [formatTs, readTimestamptz_toCharSecond zone ht, ReadsItself]
  generalize zone.localTime usec = t at ht husecs
  have hsub : t.usec = 0 := by
    have husec := ht.usec_lt
    rw [DateTime.usecs] at husecs
    omega
  by_cases hyear : 1 ≤ t.date.year
  · have hshown : (⟨⟨displayYear t.date.year, t.date.month, t.date.day⟩, t.hour, t.minute,
        t.second, 0⟩ : DateTime) = t := by
      have hsame : ((displayYear t.date.year : ℕ) : ℤ) = t.date.year := by
        rw [displayYear, if_neg (by omega)]
        omega
      rw [hsame, ← hsub]
    dsimp only
    rw [hshown, if_pos ht, husecs, add_sub_cancel_right, Option.some.injEq]
    exact ⟨fun hread => ⟨hyear, hread⟩, And.right⟩
  · have hlate := ordinal_shown ht.date_valid (by omega)
    constructor
    · intro hread
      exfalso
      dsimp only at hread
      split_ifs at hread with hvalid
      -- the literal is read almost a year later, and two offsets are less than that
      obtain ⟨instant, hfrom⟩ := zone.fromLocal_offset _
      have hoffset := zone.offset_lt instant
      have hoffset' := zone.offset_lt usec
      rw [Option.some.injEq, hfrom] at hread
      rw [abs_lt] at hoffset hoffset'
      rw [DateTime.usecs] at husecs hread
      dsimp only at hread
      omega
    · rintro ⟨hyear', -⟩
      exact absurd hyear' hyear

/-! ## The time line -/

/-- A start of a partition: an instant at a multiple of the interval. -/
def IsStart (intervalUsec usec : ℤ) : Prop := IsInstant usec ∧ intervalUsec ∣ usec

/-- Partitions of an interval that is accepted tile the time line: the interval is measured
exactly, an instant is aligned down to the start of its partition, two starts have two names,
and the bounds are read as the start and the end. -/
def Tiles (cast : NumericToInt) (zone : SessionZone) (tableName : Text) (interval : Interval)
    (ts s s' : ℤ) : Prop :=
  ∀ usec, intervalToUsec cast interval = some usec →
    (interval.length = some usec ∧ 0 < usec) ∧
    (IsInstant ts → ∃ start, alignToInterval ts usec = some start ∧
      IsGreatest {m | usec ∣ m ∧ m ≤ ts} start) ∧
    (IsStart usec s → IsStart usec s' → s ≠ s' →
      partitionName zone tableName s usec ≠ partitionName zone tableName s' usec) ∧
    (IsStart usec s → IsInstant (s + usec) →
      readTimestamptz zone (formatTs zone s) = some s ∧
      readTimestamptz zone (formatTs zone (s + usec)) = some (s + usec))

/-- Months that are no whole years, or an interval of days and whole seconds where the two
starts are not on one local day or in one local minute and where both bounds of the first
are read from the wall clock as what they are. -/
def Tileable (zone : SessionZone) (interval : Interval) (s s' : ℤ) : Prop :=
  interval.months % 12 ≠ 0 ∧ ¬ interval.IsInfinite ∨
    interval.Fixed ∧
      let usec := interval.days * 86400000000 + interval.micros
      (IsStart usec s → IsStart usec s' → s ≠ s' → ¬ SameStamp zone usec s s') ∧
      (IsStart usec s → IsInstant (s + usec) →
        ReadsItself zone s ∧ ReadsItself zone (s + usec))

theorem isStart_emod {interval : Interval} (h : interval.Fixed) {s : ℤ}
    (hstart : IsStart (interval.days * 86400000000 + interval.micros) s) : s % 1000000 = 0 :=
  Int.emod_eq_zero_of_dvd ((Int.dvd_of_emod_eq_zero h.usec_emod).trans hstart.2)

theorem intervalToUsec_infinite (cast : NumericToInt) {interval : Interval}
    (h : interval.IsInfinite) : intervalToUsec cast interval = some 0 := by
  rw [intervalToUsec, intPart_infinite cast 32 h, if_neg (by decide), intPart_infinite cast 64 h,
    intPart_infinite cast 64 h, intPart_infinite cast 64 h, intPart_infinite cast 64 h]
  rfl

/-- A year, a fraction of a second, and a bound that the wall clock shows twice are what the
partitions do not tile with. -/
theorem tiles_iff (cast : NumericToInt) (zone : SessionZone) (tableName : Text)
    (interval : Interval) (ts s s' : ℤ) :
    Tiles cast zone tableName interval ts s s' ↔ Tileable zone interval s s' := by
  constructor
  · intro h
    by_cases hyears : interval.months % 12 ≠ 0 ∧ ¬ interval.IsInfinite
    · exact Or.inl hyears
    · have hsome : ∃ usec, intervalToUsec cast interval = some usec := by
        by_cases hinf : interval.IsInfinite
        · exact ⟨0, intervalToUsec_infinite cast hinf⟩
        · rw [← Option.ne_none_iff_exists']
          exact fun hnone => hyears ⟨(intervalToUsec_eq_none_iff cast hinf).mp hnone, hinf⟩
      obtain ⟨usec, husec⟩ := hsome
      obtain ⟨hexact, -, hnames, hbounds⟩ := h usec husec
      obtain ⟨hfixed, rfl⟩ := (intervalToUsec_exact_iff cast husec).mp hexact
      refine Or.inr ⟨hfixed, ?_, ?_⟩
      · intro hs hs' hne hsame
        exact hnames hs hs' hne ((partitionName_eq_iff _ _ _ _ _).mpr hsame)
      · intro hs hend
        have hwhole := isStart_emod hfixed hs
        have hwidth := hfixed.usec_emod
        obtain ⟨hfirst, hlast⟩ := hbounds hs hend
        exact ⟨(readTimestamptz_formatTs_iff zone hwhole).mp hfirst,
          (readTimestamptz_formatTs_iff zone (by omega)).mp hlast⟩
  · rintro (⟨hyears, hinf⟩ | ⟨hfixed, hnames, hbounds⟩) usec husec
    · rw [(intervalToUsec_eq_none_iff cast hinf).mpr hyears] at husec
      cases husec
    · rw [intervalToUsec_fixed cast hfixed, Option.some.injEq] at husec
      subst husec
      have hpos := hfixed.pos
      refine ⟨⟨if_pos ⟨hfixed.months_eq, hfixed.finite⟩, hpos⟩, ?_, ?_, ?_⟩
      · intro hts
        exact ⟨_, alignToInterval_eq hts hpos hfixed.fits, isGreatest_ediv_mul ts hpos⟩
      · intro hs hs' hne hsame
        exact hnames hs hs' hne ((partitionName_eq_iff _ _ _ _ _).mp hsame)
      · intro hs hend
        have hwhole := isStart_emod hfixed hs
        have hwidth := hfixed.usec_emod
        obtain ⟨hfirst, hlast⟩ := hbounds hs hend
        exact ⟨(readTimestamptz_formatTs_iff zone hwhole).mpr hfirst,
          (readTimestamptz_formatTs_iff zone (by omega)).mpr hlast⟩

def exactCast : NumericToInt where
  tryInto bits
    | .finite q => if q = q.floor ∧ -2 ^ (bits - 1) ≤ q.floor ∧ q.floor < 2 ^ (bits - 1)
        then some q.floor else none
    | _ => none
  tryInto_int bits n hmin hmax := by
    have hfloor : ((n : ℚ)).floor = n := Rat.floor_intCast n
    simp [hfloor, hmin, hmax]
  tryInto_near bits q n h := by
    dsimp only at h
    split_ifs at h with hint
    obtain ⟨hint, -⟩ := hint
    rw [hint, Option.some.inj h, sub_self]
    decide
  tryInto_infinity bits := ⟨rfl, rfl⟩

/-- `interval '1 year'`. -/
def oneYear : Interval where
  months := 12
  days := 0
  micros := 0
  months_mem := by decide
  days_mem := by decide
  micros_mem := by decide

/-- A year is twelve months, which leave no month over: it is taken for no time at all. -/
theorem not_tiles_one_year :
    ¬ ∀ (cast : NumericToInt) (zone : SessionZone) (tableName : Text) (interval : Interval)
      (ts s s' : ℤ), Tiles cast zone tableName interval ts s s' := by
  intro h
  have hzero : intervalToUsec exactCast oneYear = some 0 := by decide +kernel
  exact absurd (h exactCast utcZone "events".toList oneYear 0 0 0 0 hzero).1.2 (by decide)

/-! ## Partitions made in advance -/

/-- No name is used twice or was in the catalog, and none is missing there now. -/
theorem foldl_ensurePartition (registered : List Text) (wanted : List NewPartition) :
    let created := wanted.foldl (ensurePartition registered) []
    (created.map NewPartition.name).Nodup ∧ (∀ part ∈ created, part.name ∉ registered) ∧
      ∀ part ∈ wanted, part.name ∈ registered ++ created.map NewPartition.name := by
  induction wanted using List.reverseRecOn with
  | nil => simp
  | append_singleton wanted part ih =>
      obtain ⟨hnodup, hfresh, hcovered⟩ := ih
      rw [List.foldl_append, List.foldl_cons, List.foldl_nil]
      generalize wanted.foldl (ensurePartition registered) [] = created at hnodup hfresh hcovered
      dsimp only
      unfold ensurePartition
      split_ifs with hmem
      · refine ⟨hnodup, hfresh, fun other hother => ?_⟩
        rcases List.mem_append.mp hother with hold | hnew
        · exact hcovered other hold
        · rw [List.mem_singleton.mp hnew]
          exact hmem
      · rw [List.mem_append, not_or] at hmem
        rw [List.map_append, List.map_singleton, ← List.append_assoc]
        refine ⟨?_, ?_, fun other hother => ?_⟩
        · rw [← List.concat_eq_append]
          exact hnodup.concat hmem.2
        · intro other hother
          rcases List.mem_append.mp hother with hold | hnew
          · exact hfresh other hold
          · rw [List.mem_singleton.mp hnew]
            exact hmem.1
        · rcases List.mem_append.mp hother with hold | hnew
          · exact List.mem_append_left _ (hcovered other hold)
          · rw [List.mem_singleton.mp hnew]
            exact List.mem_append_right _ (List.mem_singleton_self _)

section premade

variable (cast : NumericToInt) (zone : SessionZone) (tableName : Text) {interval : Interval}
  {nowUsec premake : ℤ}

def startAfter (interval : Interval) (nowUsec k : ℤ) : ℤ :=
  let usec := interval.days * 86400000000 + interval.micros
  nowUsec / usec * usec + k * usec

theorem startAfter_succ (interval : Interval) (nowUsec k : ℤ) :
    startAfter interval nowUsec k + (interval.days * 86400000000 + interval.micros) =
      startAfter interval nowUsec (k + 1) := by
  unfold startAfter
  ring

theorem startAfter_emod (h : interval.Fixed) (nowUsec k : ℤ) :
    startAfter interval nowUsec k % 1000000 = 0 := by
  apply Int.emod_eq_zero_of_dvd
  apply (Int.dvd_of_emod_eq_zero h.usec_emod).trans
  exact Int.dvd_add (Int.dvd_mul_left _ _) (Int.dvd_mul_left _ _)

theorem wrapI64_of_isInstant {usec : ℤ} (h : IsInstant usec) : wrapI64 usec = usec := by
  obtain ⟨hmin, hmax⟩ := h
  exact wrapI64_of_mem (by omega) hmax

theorem newPartition_bounds (h : interval.Fixed) {k : ℤ}
    (hend : IsInstant (startAfter interval nowUsec (k + 1)))
    (hread : ReadsItself zone (startAfter interval nowUsec k))
    (hread' : ReadsItself zone (startAfter interval nowUsec (k + 1))) :
    let part := newPartition zone tableName (interval.days * 86400000000 + interval.micros)
      (startAfter interval nowUsec k)
    readTimestamptz zone part.rangeStart = some (startAfter interval nowUsec k) ∧
      readTimestamptz zone part.rangeEnd = some (startAfter interval nowUsec (k + 1)) := by
  constructor
  · exact (readTimestamptz_formatTs_iff zone (startAfter_emod h _ _)).mpr hread
  · rw [newPartition, startAfter_succ, wrapI64_of_isInstant hend]
    exact (readTimestamptz_formatTs_iff zone (startAfter_emod h _ _)).mpr hread'

/-- The first partitions follow one another: each ends where the next one begins. -/
theorem createInitialPartitions_tile (h : interval.Fixed) (hnow : IsInstant nowUsec)
    (hinstant : ∀ k : ℤ, -1 ≤ k → k ≤ premake + 1 → IsInstant (startAfter interval nowUsec k))
    (hread : ∀ k : ℤ, -1 ≤ k → k ≤ premake + 1 → ReadsItself zone (startAfter interval nowUsec k)) :
    ∃ parts, createInitialPartitions cast zone tableName interval nowUsec premake = some parts ∧
      parts.map (fun part => (readTimestamptz zone part.rangeStart,
        readTimestamptz zone part.rangeEnd)) =
      (List.range (premake + 2).toNat).map fun i : ℕ =>
        (some (startAfter interval nowUsec (i - 1)), some (startAfter interval nowUsec i)) := by
  have haligned := alignToInterval_eq hnow h.pos h.fits
  refine ⟨_, by
    rw [createInitialPartitions, intervalToUsec_fixed cast h]
    simp only [Option.bind_eq_bind, Option.bind_some, haligned]
    rfl, ?_⟩
  rw [List.map_map]
  apply List.map_congr_left
  intro i hi
  rw [List.mem_range] at hi
  have hend : IsInstant (startAfter interval nowUsec ((i : ℤ) - 1 + 1)) :=
    hinstant _ (by omega) (by omega)
  have hbounds := newPartition_bounds zone tableName h hend (hread _ (by omega) (by omega))
    (hread _ (by omega) (by omega))
  rw [sub_add_cancel] at hbounds
  have hstart : wrapI64 (startAfter interval nowUsec ((i : ℤ) - 1)) =
      startAfter interval nowUsec ((i : ℤ) - 1) :=
    wrapI64_of_isInstant (hinstant _ (by omega) (by omega))
  show (readTimestamptz zone (newPartition zone tableName _
      (wrapI64 (startAfter interval nowUsec ((i : ℤ) - 1)))).rangeStart,
    readTimestamptz zone (newPartition zone tableName _
      (wrapI64 (startAfter interval nowUsec ((i : ℤ) - 1)))).rangeEnd) = _
  rw [hstart]
  exact Prod.ext hbounds.1 hbounds.2

/-- A partition is made for each of the starts whose name is not taken, and no name is used
twice. -/
theorem ensureFuturePartitions_spec {registered : List Text} {parts : List NewPartition}
    (h : interval.Fixed) (hnow : IsInstant nowUsec)
    (hparts : ensureFuturePartitions cast zone tableName interval nowUsec premake registered =
      some parts) :
    (parts.map NewPartition.name).Nodup ∧ (∀ part ∈ parts, part.name ∉ registered) ∧
      ∀ k : ℤ, 0 ≤ k → k ≤ premake → IsInstant (startAfter interval nowUsec k) →
        partitionName zone tableName (startAfter interval nowUsec k)
          (interval.days * 86400000000 + interval.micros) ∈
            registered ++ parts.map NewPartition.name := by
  rw [ensureFuturePartitions, intervalToUsec_fixed cast h] at hparts
  simp only [Option.bind_eq_bind, Option.bind_some, alignToInterval_eq hnow h.pos h.fits,
    Option.pure_def, Option.some.injEq] at hparts
  subst hparts
  obtain ⟨hnodup, hfresh, hcovered⟩ := foldl_ensurePartition registered
    ((List.range (premake + 1).toNat).map fun k : ℕ =>
      newPartition zone tableName (interval.days * 86400000000 + interval.micros)
        (wrapI64 (startAfter interval nowUsec k)))
  refine ⟨hnodup, hfresh, fun k hk hle hinstant => ?_⟩
  have hname := hcovered _ (List.mem_map.mpr ⟨k.toNat, List.mem_range.mpr (by omega), rfl⟩)
  rw [Int.toNat_of_nonneg hk, wrapI64_of_isInstant hinstant] at hname
  exact hname

end premade

end DeltaX.Partition.Bounds
