import DeltaX.Column.TimestampParse
import Mathlib.Order.Bounds.Basic
/-!
# Rendered timestamps, dates and times read back

What `usec_to_timestamp_string` and `usec_to_date_string` write has a documented form,
so the parser reads it as the instant it stands for.  `parse_time_to_usec` is a parser of
its own, with errors.
-/

namespace DeltaX.Column.TimestampRoundTrip

open Timeparse TimestampParse Support.Calendar Support.Utf8

/-! ## Times of day -/

/-- `str::parse::<i64>`. -/
def parseI64 (s : Text) : Option ℤ :=
  let (negative, digits) :=
    match s with
    | '-' :: rest => (true, rest)
    | '+' :: rest => (false, rest)
    | _ => (false, s)
  let n : ℤ := if negative then -(number digits : ℤ) else number digits
  if digits ≠ [] ∧ digits.all Char.isDigit ∧ -2 ^ 63 ≤ n ∧ n < 2 ^ 63 then some n else none

def splitOnce (c : Char) (s : Text) : Option (Text × Text) :=
  match s.dropWhile (fun d => d ≠ c) with
  | [] => none
  | _ :: rest => some (s.takeWhile (fun d => d ≠ c), rest)

/-- `splitn(n, c)`. -/
def splitn (c : Char) : ℕ → Text → List Text
  | 0, _ => []
  | 1, s => [s]
  | n + 2, s =>
      match splitOnce c s with
      | none => [s]
      | some (part, rest) => part :: splitn c (n + 1) rest

/-- One character of the fraction, over `(usec, digits)`.  From the seventh on it is only
checked to be a digit. -/
def pushFracDigit (acc : ℕ × ℕ) (c : Char) : Option (ℕ × ℕ) :=
  if c.isDigit then
    some (if acc.2 < 6 then (acc.1 * 10 + (c.toNat - 48), acc.2 + 1) else acc)
  else none

/-- The fraction of `parse_time_to_usec`, with zeros behind. -/
def fracToUsec (frac : Text) : Option ℕ :=
  (frac.foldlM pushFracDigit (0, 0)).map fun acc => acc.1 * 10 ^ (6 - acc.2)

/-- The seconds of `parse_time_to_usec`, with their fraction in microseconds. -/
def parseSeconds (secPart : Text) : Option (ℤ × ℕ) :=
  match splitOnce '.' secPart with
  | none => (parseI64 secPart).map fun sec => (sec, 0)
  | some (sec, frac) => do pure (← parseI64 sec, ← fracToUsec frac)

def parseTimeFields (s : Text) : Option (ℤ × ℤ × ℤ × ℕ) := do
  let parts := splitn ':' 3 s
  let hours ← parts[0]?.bind parseI64
  let minutes ← parts[1]?.bind parseI64
  let (seconds, fracUsec) ←
    match parts[2]? with
    | none => some (0, 0)
    | some secPart => parseSeconds secPart
  pure (hours, minutes, seconds, fracUsec)

def parseTimeToUsec (s : Text) : Except Text ℤ :=
  match parseTimeFields (trim s) with
  | none => .error ("invalid time: ".toList ++ trim s)
  | some (hours, minutes, seconds, fracUsec) =>
      if ¬ (0 ≤ hours ∧ hours ≤ 24) ∨ ¬ (0 ≤ minutes ∧ minutes < 60) ∨
          ¬ (0 ≤ seconds ∧ seconds < 61) ∨
          (hours = 24 ∧ (minutes ≠ 0 ∨ seconds ≠ 0 ∨ fracUsec ≠ 0)) then
        .error ("time out of range: ".toList ++ trim s)
      else .ok ((hours * 3600 + minutes * 60 + seconds) * 1000000 + fracUsec)

/-- A fraction without the zeros at its end, and nothing for zero. -/
def trimmedFraction (fracUsec : ℕ) : Option Text :=
  if 0 < fracUsec then some ((padded 6 fracUsec).rdropWhile fun c => c = '0') else none

def usecToTimeString (usec : ℤ) : Text :=
  let totalSecs := usec.tdiv 1000000
  let fracUsec := usec.tmod 1000000
  let hours := totalSecs.tdiv 3600
  let minutes := (totalSecs.tmod 3600).tdiv 60
  let seconds := totalSecs.tmod 60
  paddedInt 2 hours ++ ':' :: (paddedInt 2 minutes ++ ':' :: (paddedInt 2 seconds ++
    fractionText (trimmedFraction fracUsec.toNat)))

/-! ## Trimmed fractions -/

/-- What is left of a fraction are digits of it, and with zeros behind it is whole again. -/
theorem trimmedFraction_spec {usec : ℕ} (husec : usec < 1000000) {digits : Text}
    (h : trimmedFraction usec = some digits) :
    digits ≠ [] ∧ (∀ d ∈ digits, d.isDigit = true) ∧ digits.length ≤ 6 ∧
      number digits * 10 ^ (6 - digits.length) = usec := by
  unfold trimmedFraction at h
  split_ifs at h with hpos
  have hdigits := Option.some.inj h
  have hlen := @length_padded 6 usec (by decide) husec
  have hpad := rightpad_rdropWhile_zero (padded 6 usec)
  have hshorter : digits <+: padded 6 usec := hdigits ▸ List.rdropWhile_prefix _ _
  rw [hlen, hdigits, List.rightpad] at hpad
  have hvalue : number digits * 10 ^ (6 - digits.length) = usec := by
    calc number digits * 10 ^ (6 - digits.length)
        = number (digits ++ List.replicate (6 - digits.length) '0') := by
          rw [number_append, number_replicate_zero, List.length_replicate, Nat.add_zero]
      _ = usec := by rw [hpad, number_padded]
  refine ⟨?_, fun d hd => isDigit_of_mem_padded (hshorter.subset hd), hlen ▸ hshorter.length_le, hvalue⟩
  intro hnil
  rw [hnil, show number [] = 0 from rfl, Nat.zero_mul] at hvalue
  omega

theorem fraction_microseconds {usec : ℕ} (husec : usec < 1000000) {digits : Text}
    (h : trimmedFraction usec = some digits) :
    number digits * 1000000 = usec * 10 ^ digits.length := by
  obtain ⟨-, -, hlen, hvalue⟩ := trimmedFraction_spec husec h
  calc number digits * 1000000
      = number digits * (10 ^ (6 - digits.length) * 10 ^ digits.length) := by
        rw [← pow_add, Nat.sub_add_cancel hlen]
        rfl
    _ = usec * 10 ^ digits.length := by rw [← Nat.mul_assoc, hvalue]

/-! ## Trimmed texts -/

theorem not_isWhiteSpace_of_isDigit {c : Char} (h : c.isDigit = true) : isWhiteSpace c = false := by
  obtain ⟨hlo, hhi⟩ := toNat_mem_of_isDigit h
  unfold isWhiteSpace
  generalize c.toNat = n at hlo hhi
  interval_cases n <;> decide

def EndsInDigit (s : Text) : Prop := ∃ mid last, s = mid ++ [last] ∧ last.isDigit = true

theorem EndsInDigit.append {s : Text} (h : EndsInDigit s) (a : Text) : EndsInDigit (a ++ s) := by
  obtain ⟨mid, last, rfl, hlast⟩ := h
  exact ⟨a ++ mid, last, (List.append_assoc a mid [last]).symm, hlast⟩

theorem EndsInDigit.cons {s : Text} (h : EndsInDigit s) (c : Char) : EndsInDigit (c :: s) :=
  h.append [c]

theorem padded_ne_nil {width : ℕ} (hwidth : 0 < width) (n : ℕ) : padded width n ≠ [] := by
  intro hnil
  have hlen : (padded width n).length = max width (Nat.toDigits 10 n).length :=
    List.length_leftpad ..
  rw [hnil, List.length_nil] at hlen
  omega

theorem endsInDigit_padded {width : ℕ} (hwidth : 0 < width) (n : ℕ) :
    EndsInDigit (padded width n) := by
  have hne := padded_ne_nil hwidth n
  exact ⟨_, _, (List.dropLast_append_getLast hne).symm,
    isDigit_of_mem_padded (List.getLast_mem hne)⟩

/-- A text that begins and ends with a digit. -/
theorem trim_padded_append {width : ℕ} (hwidth : 0 < width) (n : ℕ) {rest : Text}
    (hrest : EndsInDigit rest) : trim (padded width n ++ rest) = padded width n ++ rest := by
  obtain ⟨mid, last, rfl, hlast⟩ := hrest
  obtain ⟨first, tail, hpadded⟩ := List.exists_cons_of_ne_nil (padded_ne_nil hwidth n)
  have hfirst : first.isDigit = true :=
    isDigit_of_mem_padded (hpadded ▸ List.mem_cons_self)
  rw [trim, hpadded, List.cons_append,
    List.dropWhile_cons_of_neg (by simp [not_isWhiteSpace_of_isDigit hfirst]), ← List.cons_append,
    ← List.append_assoc, List.rdropWhile_concat_neg _ _ _ (by simp [not_isWhiteSpace_of_isDigit hlast])]

/-! ## Timestamps and dates -/

/-- The fields that `usec_to_timestamp_string` writes. -/
def renderedClock (t : DateTime) : ClockFields :=
  { hour := t.hour
    minute := t.minute
    second := t.second
    fraction := trimmedFraction t.usec
    usec := t.usec
    zone := some ⟨false, 0, none⟩ }

theorem timestampText_eq {t : DateTime} (hyear : 0 ≤ t.date.year) :
    timestampText t = (TimestampFields.mk t.date (some (false, renderedClock t))).text := by
  have hfraction : (if 0 < t.usec then '.' :: (padded 6 t.usec).rdropWhile (fun c => c = '0') else []) =
      fractionText (trimmedFraction t.usec) := by
    unfold trimmedFraction
    split_ifs <;> rfl
  rw [timestampText, paddedInt, if_neg (by omega), hfraction, TimestampFields.text, dateText,
    List.append_assoc, List.cons_append, List.append_assoc, List.cons_append]
  rfl

theorem renderedClock_valid {t : DateTime} (ht : t.Valid) : (renderedClock t).Valid := by
  obtain ⟨-, hhour, hminute, hsecond, husec⟩ := ht
  refine ⟨hhour.le.trans (by decide), hminute, hsecond.le, ?_, ?_, ?_, ?_⟩
  · show (t.hour * 3600 + t.minute * 60 + t.second) * 1000000 + t.usec ≤ 86400000000
    omega
  · intro hnone
    by_contra hpos
    have hsome : (renderedClock t).fraction = some _ := if_pos (Nat.pos_of_ne_zero hpos)
    rw [hsome] at hnone
    cases hnone
  · intro digits hdigits
    obtain ⟨hne, hall, -, -⟩ := trimmedFraction_spec husec hdigits
    exact ⟨hne, hall, fraction_microseconds husec hdigits⟩
  · intro z hz
    have hutc := Option.some.inj hz
    subst hutc
    exact ⟨by decide, fun _ _ h => by cases h⟩

theorem trim_timestampText {t : DateTime} (hyear : 0 ≤ t.date.year) :
    trim (timestampText t) = timestampText t := by
  have hutc : EndsInDigit "+00".toList := ⟨['+', '0'], '0', rfl, rfl⟩
  rw [timestampText, paddedInt, if_neg (by omega)]
  exact trim_padded_append (by decide) _
    ((((((((((hutc.append _).append _).cons _).append _).cons _).append _).cons _).append _).cons
      _).append _ |>.cons _)

theorem trim_dateText (d : Date) : trim (dateText d) = dateText d :=
  trim_padded_append (by decide) _
    ((((endsInDigit_padded (by decide) d.day).cons _).append _).cons _)

/-- The day of an instant. -/
theorem ediv_usecs {t : DateTime} (ht : t.Valid) : t.usecs / 86400000000 = t.date.ordinal := by
  obtain ⟨-, hhour, hminute, hsecond, husec⟩ := ht
  rw [DateTime.usecs]
  omega

theorem parse_timestampText {t : DateTime} (ht : t.Valid) (hyear : 0 ≤ t.date.year)
    (hle : t.date.year ≤ 9999) :
    parseTimestampToUsec (timestampText t) = some (t.usecs - 62135596800000000) := by
  have hvalid : (TimestampFields.mk t.date (some (false, renderedClock t))).Valid :=
    ⟨ht.date_valid, hyear, hle, fun withT clock h => by cases h; exact renderedClock_valid ht⟩
  rw [parseTimestampToUsec, trim_timestampText hyear, timestampText_eq hyear, utf8Bytes_text hvalid,
    parseTimestampBytes_text hvalid]
  apply congrArg some
  show (t.date.ordinal - 719162) * 86400000000 +
    (((t.hour * 3600 + t.minute * 60 + t.second) * 1000000 + t.usec : ℕ) - 0) = _
  rw [DateTime.usecs]
  omega

theorem parse_dateText {d : Date} (hd : d.Valid) (hyear : 0 ≤ d.year) (hle : d.year ≤ 9999) :
    parseTimestampToUsec (dateText d) = some ((d.ordinal - 719162) * 86400000000) := by
  have hvalid : (TimestampFields.mk d none).Valid := ⟨hd, hyear, hle, fun _ _ h => by cases h⟩
  have htext : dateText d = (TimestampFields.mk d none).text := (List.append_nil _).symm
  rw [parseTimestampToUsec, trim_dateText d, htext, utf8Bytes_text hvalid,
    parseTimestampBytes_text hvalid]
  exact congrArg some (Int.add_zero _)

theorem tdiv_shifted (n : ℤ) {d : ℤ} (hd : 0 < d) :
    (if n ≥ 0 then n.tdiv d else (n - (d - 1)).tdiv d) = n / d := by
  split_ifs with hn
  · exact Int.tdiv_eq_ediv_of_nonneg hn
  · rw [show n - (d - 1) = -(d - 1 - n) by omega, Int.neg_tdiv,
      Int.tdiv_eq_ediv_of_nonneg (by omega)]
    obtain ⟨hlo, hhi⟩ := (Int.ediv_eq_iff_of_pos hd).mp (rfl : n / d = n / d)
    have hquot : (d - 1 - n) / d = -(n / d) := by
      rw [Int.ediv_eq_iff_of_pos hd, Int.neg_mul]
      omega
    rw [hquot, neg_neg]

theorem usecToDateString_eq {usec : ℤ} (hyear : 0 ≤ (epochDaysToDate (usec / 86400000000)).year) :
    usecToDateString usec = dateText (epochDaysToDate (usec / 86400000000)) := by
  obtain ⟨hvalid, hordinal⟩ := epochDaysToDate_spec (usec / 86400000000)
  have hfirst := (daysBeforeYear_le_ordinal_iff hvalid 0).mpr hyear
  have hstart : daysBeforeYear 0 = -366 := rfl
  have hwrap : usec < 0 → (usec - 999999).bmod (2 ^ 64) = usec - 999999 := fun hneg =>
    Int.bmod_eq_of_le (by omega) (by omega)
  have hsecs := tdiv_shifted usec (show (0 : ℤ) < 1000000 by decide)
  have hdays := tdiv_shifted (usec / 1000000) (show (0 : ℤ) < 86400 by decide)
  have hquot : usec / 1000000 / 86400 = usec / 86400000000 := by omega
  rw [hquot] at hdays
  have hsecs' : (if usec ≥ 0 then usec.tdiv 1000000
      else ((usec - 999999).bmod (2 ^ 64)).tdiv 1000000) = usec / 1000000 := by
    rw [← hsecs]
    split_ifs with hpos
    · rfl
    · rw [hwrap (by omega)]
      rfl
  have hdays' : (if usec / 1000000 ≥ 0 then (usec / 1000000).tdiv 86400
      else (usec / 1000000 - 86399).tdiv 86400) = usec / 86400000000 := hdays
  simp only [usecToDateString, hsecs', hdays']
  rw [paddedInt, if_neg (by omega)]
  rfl

/-! ## Times -/

theorem splitOnce_append {c : Char} {part : Text} (h : ∀ d ∈ part, d ≠ c) (rest : Text) :
    splitOnce c (part ++ c :: rest) = some (part, rest) := by
  have hpart : ∀ d ∈ part, decide (d ≠ c) = true := fun d hd => decide_eq_true (h d hd)
  unfold splitOnce
  rw [List.dropWhile_append_of_pos hpart, List.takeWhile_append_of_pos hpart,
    List.dropWhile_cons_of_neg (by simp), List.takeWhile_cons_of_neg (by simp), List.append_nil]

theorem splitOnce_eq_none {c : Char} {s : Text} (h : ∀ d ∈ s, d ≠ c) : splitOnce c s = none := by
  have hdrop : s.dropWhile (fun d => decide (d ≠ c)) = [] :=
    List.dropWhile_eq_nil_iff.mpr fun d hd => decide_eq_true (h d hd)
  rw [splitOnce, hdrop]

theorem ne_of_mem_padded {width n : ℕ} {c d : Char} (hc : c.isDigit = false)
    (hd : d ∈ padded width n) : d ≠ c := by
  rintro rfl
  rw [isDigit_of_mem_padded hd] at hc
  cases hc

theorem parseI64_padded {n : ℕ} (hn : n < 100) : parseI64 (padded 2 n) = some n := by
  obtain ⟨c, d, hcd, hnum⟩ := exists_padded_two hn
  have hminus : c ≠ '-' := ne_of_mem_padded rfl (hcd ▸ List.mem_cons_self : c ∈ padded 2 n)
  have hplus : c ≠ '+' := ne_of_mem_padded rfl (hcd ▸ List.mem_cons_self : c ∈ padded 2 n)
  have hdigits : ∀ e ∈ [c, d], e.isDigit = true := fun e he => isDigit_of_mem_padded (hcd ▸ he)
  rw [hcd]
  unfold parseI64
  split
  rename_i heq
  split at heq
  · simp_all
  · simp_all
  · cases heq
    rw [hnum]
    exact if_pos ⟨by simp, List.all_eq_true.mpr hdigits, by omega, by omega⟩

theorem foldlM_pushFracDigit {digits : Text} (h : ∀ d ∈ digits, d.isDigit = true) {acc count : ℕ}
    (hlen : count + digits.length ≤ 6) :
    digits.foldlM pushFracDigit (acc, count) =
      some (Nat.ofDigitChars 10 digits acc, count + digits.length) := by
  induction digits generalizing acc count with
  | nil => rfl
  | cons d digits ih =>
      rw [List.length_cons] at hlen
      have hd : pushFracDigit (acc, count) d = some (10 * acc + (d.toNat - 48), count + 1) := by
        rw [pushFracDigit, if_pos (h d List.mem_cons_self), if_pos (show count < 6 by omega),
          Nat.mul_comm]
      rw [List.foldlM_cons, hd, Nat.ofDigitChars_cons, List.length_cons]
      show digits.foldlM pushFracDigit _ = _
      rw [ih (fun e he => h e (List.mem_cons_of_mem d he)) (by omega),
        show count + 1 + digits.length = count + (digits.length + 1) by omega]
      rfl

theorem fracToUsec_trimmed {usec : ℕ} (husec : usec < 1000000) {digits : Text}
    (h : trimmedFraction usec = some digits) : fracToUsec digits = some usec := by
  obtain ⟨-, hdigits, hlen, hvalue⟩ := trimmedFraction_spec husec h
  rw [fracToUsec, foldlM_pushFracDigit hdigits (by omega), Option.map_some, Nat.zero_add]
  exact congrArg some hvalue

theorem parseSeconds_text {second usec : ℕ} (hsecond : second < 100) (husec : usec < 1000000) :
    parseSeconds (padded 2 second ++ fractionText (trimmedFraction usec)) =
      some ((second : ℤ), usec) := by
  have hpoint : ∀ d ∈ padded 2 second, d ≠ '.' := fun d hd => ne_of_mem_padded rfl hd
  cases hf : trimmedFraction usec with
  | none =>
      have hzero : usec = 0 := by
        by_contra hpos
        rw [trimmedFraction, if_pos (Nat.pos_of_ne_zero hpos)] at hf
        cases hf
      rw [fractionText, List.append_nil, parseSeconds, splitOnce_eq_none hpoint,
        parseI64_padded hsecond, hzero]
      rfl
  | some digits =>
      rw [fractionText, parseSeconds, splitOnce_append hpoint]
      show (parseI64 (padded 2 second)).bind (fun sec =>
        (fracToUsec digits).bind fun frac => some (sec, frac)) = _
      rw [parseI64_padded hsecond, fracToUsec_trimmed husec hf]
      rfl

theorem endsInDigit_seconds {second usec : ℕ} (husec : usec < 1000000) :
    EndsInDigit (padded 2 second ++ fractionText (trimmedFraction usec)) := by
  cases hf : trimmedFraction usec with
  | none =>
      rw [fractionText, List.append_nil]
      exact endsInDigit_padded (by decide) second
  | some digits =>
      obtain ⟨hne, hdigits, -, -⟩ := trimmedFraction_spec husec hf
      have hend : EndsInDigit digits :=
        ⟨_, _, (List.dropLast_append_getLast hne).symm, hdigits _ (List.getLast_mem hne)⟩
      exact (hend.cons '.').append _

theorem parseTimeToUsec_text {hour minute second usec : ℕ} (hminute : minute < 60)
    (hsecond : second < 60) (husec : usec < 1000000)
    (hday : (hour * 3600 + minute * 60 + second) * 1000000 + usec ≤ 86400000000) :
    parseTimeToUsec (padded 2 hour ++ ':' :: (padded 2 minute ++ ':' :: (padded 2 second ++
      fractionText (trimmedFraction usec)))) =
        .ok ((hour * 3600 + minute * 60 + second) * 1000000 + usec) := by
  have hend : EndsInDigit (padded 2 second ++ fractionText (trimmedFraction usec)) :=
    endsInDigit_seconds husec
  have hseconds := parseSeconds_text (show second < 100 by omega) husec
  generalize padded 2 second ++ fractionText (trimmedFraction usec) = secPart at hend hseconds
  have hcolon : ∀ n, ∀ d ∈ padded 2 n, d ≠ ':' := fun _ d hd => ne_of_mem_padded rfl hd
  have hparts : splitn ':' 3 (padded 2 hour ++ ':' :: (padded 2 minute ++ ':' :: secPart)) =
      [padded 2 hour, padded 2 minute, secPart] := by
    rw [splitn, splitOnce_append (hcolon hour)]
    show padded 2 hour :: splitn ':' 2 _ = _
    rw [splitn, splitOnce_append (hcolon minute)]
    rfl
  have hfields : parseTimeFields (padded 2 hour ++ ':' :: (padded 2 minute ++ ':' :: secPart)) =
      some ((hour : ℤ), (minute : ℤ), (second : ℤ), usec) := by
    rw [parseTimeFields, hparts]
    show (parseI64 (padded 2 hour)).bind (fun h => (parseI64 (padded 2 minute)).bind fun m =>
      (parseSeconds secPart).bind fun s => some (h, m, s.1, s.2)) = _
    rw [parseI64_padded (show hour < 100 by omega), parseI64_padded (show minute < 100 by omega),
      hseconds]
    rfl
  rw [parseTimeToUsec, trim_padded_append (by decide) hour
    ((((hend.cons ':').append (padded 2 minute)).cons ':')), hfields]
  exact if_neg (by omega)

theorem usecToTimeString_eq (usec : ℕ) :
    usecToTimeString usec = padded 2 (usec / 1000000 / 3600) ++ ':' ::
      (padded 2 (usec / 1000000 % 3600 / 60) ++ ':' :: (padded 2 (usec / 1000000 % 60) ++
        fractionText (trimmedFraction (usec % 1000000)))) := by
  have hfield : ∀ n : ℕ, paddedInt 2 (n : ℤ) = padded 2 n := fun n => if_neg (by omega)
  have hsecs : (usec : ℤ).tdiv 1000000 = (usec / 1000000 : ℕ) := rfl
  have hfrac : (usec : ℤ).tmod 1000000 = (usec % 1000000 : ℕ) := rfl
  unfold usecToTimeString
  rw [hsecs, hfrac, ← hfield, ← hfield, ← hfield]
  rfl

/-! ## Round trips -/

/-- Every instant of the years 0000 to 9999 is read back from its timestamp, its midnight
from its date, and every microsecond of a day from its time. -/
theorem renderings_read_back :
    (∀ (t : DateTime) (usec : ℤ), t.Valid → 0 ≤ t.date.year → t.date.year ≤ 9999 →
      t.usecs = usec + 62135596800000000 →
        parseTimestampToUsec (usecToTimestampString usec) = some usec ∧
        ∃ midnight, parseTimestampToUsec (usecToDateString usec) = some midnight ∧
          IsGreatest {m : ℤ | 86400000000 ∣ m ∧ m ≤ usec} midnight) ∧
      ∀ usec : ℤ, 0 ≤ usec → usec ≤ 86400000000 →
        parseTimeToUsec (usecToTimeString usec) = .ok usec := by
  constructor
  · intro t usec ht hyear hle husecs
    obtain ⟨hvalid, hspec⟩ := usecToDateTime_spec usec
    obtain ⟨hdate, hordinal⟩ := epochDaysToDate_spec (usec / 86400000000)
    have hday : t.date.ordinal = usec / 86400000000 + 719162 := by
      rw [← ediv_usecs ht, husecs]
      omega
    have hparts : (usecToDateTime usec).date = t.date := by
      apply eq_of_ordinal_eq hvalid.date_valid ht.date_valid
      rw [← ediv_usecs hvalid, ← ediv_usecs ht, hspec, husecs]
    have hdays : epochDaysToDate (usec / 86400000000) = t.date :=
      eq_of_ordinal_eq hdate ht.date_valid (hordinal.trans hday.symm)
    constructor
    · rw [usecToTimestampString,
        parse_timestampText hvalid (hparts.symm ▸ hyear) (hparts.symm ▸ hle), hspec,
        add_sub_cancel_right]
    · refine ⟨usec / 86400000000 * 86400000000, ?_, ⟨Dvd.intro_left _ rfl, by omega⟩, ?_⟩
      · rw [usecToDateString_eq (hdays.symm ▸ hyear), hdays, parse_dateText ht.date_valid hyear hle,
          hday, add_sub_cancel_right]
      · intro m hm
        obtain ⟨⟨k, rfl⟩, hk⟩ := hm
        omega
  · intro usec hpos hle
    lift usec to ℕ using hpos
    rw [usecToTimeString_eq, parseTimeToUsec_text (by omega) (by omega) (by omega) (by omega)]
    apply congrArg Except.ok
    omega

/-- The last microsecond before the Unix epoch. -/
theorem renderings_read_back_before_epoch :
    parseTimestampToUsec (usecToTimestampString (-1)) = some (-1) ∧
      parseTimeToUsec (usecToTimeString 86400000000) = .ok 86400000000 := by
  have hvalid : (DateTime.mk ⟨1969, 12, 31⟩ 23 59 59 999999).Valid :=
    ⟨⟨by decide, by decide, by decide, by decide⟩, by decide, by decide, by decide, by decide⟩
  constructor
  · exact (renderings_read_back.1 _ (-1) hvalid (by decide) (by decide) (by decide)).1
  · exact renderings_read_back.2 86400000000 (by decide) (by decide)

end DeltaX.Column.TimestampRoundTrip
