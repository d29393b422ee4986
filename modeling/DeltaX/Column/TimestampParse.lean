import DeltaX.Column.Timeparse
import DeltaX.Support.ByteSlices
import DeltaX.Support.Utf8
/-!
# Timestamps read from text

`parse_timestamp_to_usec` takes the fields of a timestamp from fixed byte positions.  It
fails only where a slice is out of range; a byte that is not a digit counts as one all
the same, and what follows the fields it knows is not looked at.
-/

namespace DeltaX.Column.TimestampParse

open Timeparse Support.ByteSlices Support.Calendar Support.Utf8

/-! ## The parser -/

/-- Unicode white space, which `str::trim` takes away. -/
def isWhiteSpace (c : Char) : Bool :=
  (9 ≤ c.toNat && c.toNat ≤ 13) || (0x2000 ≤ c.toNat && c.toNat ≤ 0x200A) ||
    decide (c.toNat ∈ [0x20, 0x85, 0xA0, 0x1680, 0x2028, 0x2029, 0x202F, 0x205F, 0x3000])

def trim (s : Text) : Text := (s.dropWhile isWhiteSpace).rdropWhile isWhiteSpace

/-- `(b - b'0')`, which wraps around below the digits. -/
def digitVal (b : UInt8) : ℕ := (b - 48).toNat

/-- `parse_int_fast`; of the six bytes it is given at most no number overflows. -/
def parseIntFast (bytes : List UInt8) : ℕ := bytes.foldl (fun result b => result * 10 + digitVal b) 0

def parseDatePart (bytes : List UInt8) : Option (ℤ × ℕ × ℕ) := do
  let year ← slice bytes 0 4
  let month ← slice bytes 5 7
  let day ← slice bytes 8 10
  pure ((parseIntFast year : ℤ), parseIntFast month, parseIntFast day)

def isAsciiDigit (b : UInt8) : Bool := 48 ≤ b && b ≤ 57

def findTzSplit (bytes : List UInt8) : List UInt8 × Option (List UInt8) :=
  let i := if bytes[8]? = some 46 then 9 + ((bytes.drop 9).takeWhile isAsciiDigit).length else 8
  if bytes[i]? = some 43 ∨ bytes[i]? = some 45 then (bytes.take i, some (bytes.drop i))
  else (bytes, none)

/-- `parse_fractional_usec`: the first six bytes, with zeros behind. -/
def parseFractionalUsec (digits : List UInt8) : ℕ := parseIntFast ((digits.take 6).rightpad 6 48)

def parseTimePart (bytes : List UInt8) : Option ℤ := do
  let hours ← slice bytes 0 2
  let minutes ← slice bytes 3 5
  let seconds ← slice bytes 6 8
  let fracUsec := if bytes[8]? = some 46 then parseFractionalUsec (bytes.drop 9) else 0
  pure (parseIntFast hours * 3600000000 + parseIntFast minutes * 60000000 +
    parseIntFast seconds * 1000000 + fracUsec : ℕ)

def parseTzMinutes (rest : List UInt8) : Option ℕ :=
  if 5 ≤ rest.length ∧ rest[2]? = some 58 then (slice rest 3 5).map parseIntFast
  else if 4 ≤ rest.length ∧ rest[2]? ≠ some 58 then (slice rest 2 4).map parseIntFast
  else some 0

def parseTzOffset (bytes : List UInt8) : Option ℤ := do
  let sign : ℤ := if bytes[0]? = some 45 then -1 else 1
  let rest := bytes.tail
  let hours ← slice rest 0 2
  let minutes ← parseTzMinutes rest
  pure (sign * (parseIntFast hours * 3600000000 + minutes * 60000000 : ℕ))

def parseTimeAndTz (bytes : List UInt8) : Option (ℤ × ℤ) := do
  let timeUsec ← parseTimePart (findTzSplit bytes).1
  let tzOffsetUsec ←
    match (findTzSplit bytes).2 with
    | some tz => parseTzOffset tz
    | none => some 0
  pure (timeUsec, tzOffsetUsec)

/-- Where the date ends: the first space, or a `T` right after ten bytes. -/
def splitPos (bytes : List UInt8) : Option ℕ :=
  match bytes.findIdx? (fun b => b = 32) with
  | some pos => some pos
  | none => if bytes[10]? = some 84 then some 10 else none

def parseTimestampBytes (bytes : List UInt8) : Option ℤ := do
  let (datePart, timeTz) :=
    match splitPos bytes with
    | some pos => (bytes.take pos, some (bytes.drop (pos + 1)))
    | none => (bytes, none)
  let (year, month, day) ← parseDatePart datePart
  let days := dateToEpochDays year month day
  let (timeUsec, tzOffsetUsec) ←
    match timeTz with
    | some t => parseTimeAndTz t
    | none => some (0, 0)
  pure (days * 86400 * 1000000 + timeUsec - tzOffsetUsec)

def parseTimestampToUsec (s : Text) : Option ℤ := parseTimestampBytes (utf8Bytes (trim s))

/-! ## The documented forms -/

/-- `(+|-)HH[[:]MM]`. -/
structure ZoneFields where
  negative : Bool
  hour : ℕ
  minute : Option (Bool × ℕ)
deriving DecidableEq, Repr

/-- `HH:MM:SS[.f+][zone]`, with the fraction also in microseconds. -/
structure ClockFields where
  hour : ℕ
  minute : ℕ
  second : ℕ
  fraction : Option Text
  usec : ℕ
  zone : Option ZoneFields
deriving DecidableEq, Repr

/-- `YYYY-MM-DD[( |T)clock]`. -/
structure TimestampFields where
  date : Date
  clock : Option (Bool × ClockFields)
deriving DecidableEq, Repr

/-- `[[:]MM]`. -/
def minuteText : Option (Bool × ℕ) → Text
  | none => []
  | some (true, minute) => ':' :: padded 2 minute
  | some (false, minute) => padded 2 minute

def ZoneFields.text (z : ZoneFields) : Text :=
  (if z.negative then '-' else '+') :: (padded 2 z.hour ++ minuteText z.minute)

/-- `[.f+]`. -/
def fractionText : Option Text → Text
  | none => []
  | some digits => '.' :: digits

def ClockFields.text (c : ClockFields) : Text :=
  padded 2 c.hour ++ ':' :: (padded 2 c.minute ++ ':' :: (padded 2 c.second ++
    (fractionText c.fraction ++ c.zone.elim [] ZoneFields.text)))

def dateText (d : Date) : Text :=
  padded 4 d.year.toNat ++ '-' :: (padded 2 d.month ++ '-' :: padded 2 d.day)

def TimestampFields.text (f : TimestampFields) : Text :=
  dateText f.date ++
    match f.clock with
    | none => []
    | some (withT, clock) => (if withT then 'T' else ' ') :: clock.text

structure ZoneFields.Valid (z : ZoneFields) : Prop where
  hour_le : z.hour ≤ 15
  minute_lt : ∀ colon minute, z.minute = some (colon, minute) → minute < 60

/-- A time of day up to 24:00, with a fraction of whole microseconds. -/
structure ClockFields.Valid (c : ClockFields) : Prop where
  hour_le : c.hour ≤ 24
  minute_lt : c.minute < 60
  second_le : c.second ≤ 60
  day_le : (c.hour * 3600 + c.minute * 60 + c.second) * 1000000 + c.usec ≤ 86400000000
  fraction_none : c.fraction = none → c.usec = 0
  fraction_some : ∀ digits, c.fraction = some digits → digits ≠ [] ∧
    (∀ d ∈ digits, d.isDigit = true) ∧ number digits * 1000000 = c.usec * 10 ^ digits.length
  zone : ∀ z, c.zone = some z → z.Valid

/-- A date of the calendar in the years 0000 to 9999, with a valid time of day if any. -/
structure TimestampFields.Valid (f : TimestampFields) : Prop where
  date : f.date.Valid
  year_nonneg : 0 ≤ f.date.year
  year_le : f.date.year ≤ 9999
  clock : ∀ withT clock, f.clock = some (withT, clock) → clock.Valid

def ZoneFields.offset (z : ZoneFields) : ℤ :=
  (if z.negative then -1 else 1) *
    (z.hour * 3600000000 + (z.minute.elim 0 Prod.snd) * 60000000 : ℕ)

/-- Microseconds since local midnight, less the offset of the zone. -/
def ClockFields.instant (c : ClockFields) : ℤ :=
  ((c.hour * 3600 + c.minute * 60 + c.second) * 1000000 + c.usec : ℕ) -
    c.zone.elim 0 ZoneFields.offset

def TimestampFields.instant (f : TimestampFields) : ℤ :=
  (f.date.ordinal - 719162) * 86400000000 + f.clock.elim 0 fun c => c.2.instant

/-- Some slice of the parser is out of range: the date has less than ten bytes, the time
less than eight, or the zone less than its sign and two more. -/
def TooShort (bytes : List UInt8) : Prop :=
  match splitPos bytes with
  | none => bytes.length < 10
  | some pos => pos < 10 ∨ (bytes.drop (pos + 1)).length < 8 ∨
      ∃ tz, (findTzSplit (bytes.drop (pos + 1))).2 = some tz ∧ tz.length < 3

/-- The parser fails, or the text has a documented form and the result is its instant. -/
def NeverInvents (s : Text) : Prop :=
  parseTimestampToUsec s = none ∨
    ∃ f : TimestampFields, f.Valid ∧ trim s = f.text ∧ parseTimestampToUsec s = some f.instant

/-! ## Where it fails -/

theorem parseDatePart_eq_none_iff (bytes : List UInt8) :
    parseDatePart bytes = none ↔ bytes.length < 10 := by
  by_cases hlen : bytes.length < 10
  · simp [parseDatePart, slice_eq_none_of_lt hlen, hlen]
  · have h4 := slice_of_le 0 (by omega) (show 4 ≤ bytes.length by omega)
    have h7 := slice_of_le 5 (by omega) (show 7 ≤ bytes.length by omega)
    have h10 := slice_of_le 8 (by omega) (show 10 ≤ bytes.length by omega)
    simp [parseDatePart, h4, h7, h10, hlen]

theorem parseTimePart_eq_none_iff (bytes : List UInt8) :
    parseTimePart bytes = none ↔ bytes.length < 8 := by
  by_cases hlen : bytes.length < 8
  · simp [parseTimePart, slice_eq_none_of_lt hlen, hlen]
  · have h2 := slice_of_le 0 (by omega) (show 2 ≤ bytes.length by omega)
    have h5 := slice_of_le 3 (by omega) (show 5 ≤ bytes.length by omega)
    have h8 := slice_of_le 6 (by omega) (show 8 ≤ bytes.length by omega)
    simp [parseTimePart, h2, h5, h8, hlen]

theorem parseTzMinutes_ne_none (rest : List UInt8) : parseTzMinutes rest ≠ none := by
  unfold parseTzMinutes
  split_ifs with h5 h4
  · simp [slice_of_le 3 (by omega) h5.1]
  · simp [slice_of_le 2 (by omega) h4.1]
  · simp

theorem parseTzOffset_eq_none_iff (bytes : List UInt8) :
    parseTzOffset bytes = none ↔ bytes.length < 3 := by
  have hrest : bytes.tail.length = bytes.length - 1 := List.length_tail
  obtain ⟨minutes, hminutes⟩ := Option.ne_none_iff_exists'.mp (parseTzMinutes_ne_none bytes.tail)
  by_cases hlen : bytes.length < 3
  · simp [parseTzOffset, slice_eq_none_of_lt (show bytes.tail.length < 2 by omega), hlen]
  · have h2 := slice_of_le 0 (by omega) (show 2 ≤ bytes.tail.length by omega)
    simp [parseTzOffset, h2, hminutes, hlen]

/-- The time before a zone keeps its eight bytes. -/
theorem length_findTzSplit_lt_iff (bytes : List UInt8) :
    (findTzSplit bytes).1.length < 8 ↔ bytes.length < 8 := by
  unfold findTzSplit
  simp only
  generalize hi : (if bytes[8]? = some 46 then 9 + ((bytes.drop 9).takeWhile isAsciiDigit).length
    else 8) = i
  have hle : 8 ≤ i := by
    rw [← hi]
    split_ifs <;> omega
  split_ifs with hsign
  · have hlt : i < bytes.length := by
      by_contra hout
      rw [List.getElem?_eq_none (Nat.le_of_not_lt hout)] at hsign
      simp at hsign
    rw [List.length_take]
    omega
  · exact Iff.rfl

theorem parseTimeAndTz_eq_none_iff (bytes : List UInt8) :
    parseTimeAndTz bytes = none ↔
      bytes.length < 8 ∨ ∃ tz, (findTzSplit bytes).2 = some tz ∧ tz.length < 3 := by
  unfold parseTimeAndTz
  rw [← length_findTzSplit_lt_iff, ← parseTimePart_eq_none_iff]
  cases parseTimePart (findTzSplit bytes).1 with
  | none => simp
  | some timeUsec =>
      cases htz : (findTzSplit bytes).2 with
      | none => simp
      | some tz =>
          have hzone := parseTzOffset_eq_none_iff tz
          cases hoffset : parseTzOffset tz <;> simp_all

theorem parseTimestampBytes_eq_none_iff (bytes : List UInt8) :
    parseTimestampBytes bytes = none ↔ TooShort bytes := by
  unfold parseTimestampBytes TooShort
  cases hsplit : splitPos bytes with
  | none =>
      have hdate := parseDatePart_eq_none_iff bytes
      cases hpart : parseDatePart bytes <;> simp_all
  | some pos =>
      have hdate := parseDatePart_eq_none_iff (bytes.take pos)
      have hclock := parseTimeAndTz_eq_none_iff (bytes.drop (pos + 1))
      have hpos : pos ≤ bytes.length := by
        unfold splitPos at hsplit
        split at hsplit
        · rename_i found
          have := List.findIdx?_eq_some_iff_findIdx_eq.mp found
          have := Option.some.inj hsplit
          omega
        · split_ifs at hsplit with hT
          have hlt : 10 < bytes.length := by
            by_contra hout
            rw [List.getElem?_eq_none (Nat.le_of_not_lt hout)] at hT
            cases hT
          have := Option.some.inj hsplit
          omega
      rw [List.length_take, min_eq_left hpos] at hdate
      cases hpart : parseDatePart (bytes.take pos) with
      | none => simp_all
      | some date =>
          have hlong : ¬ pos < 10 := fun h => by simp [hdate.mpr h] at hpart
          cases htime : parseTimeAndTz (bytes.drop (pos + 1)) <;> simp_all

/-! ## Digits as bytes -/

def asciiBytes (text : Text) : List UInt8 := text.map fun c => UInt8.ofNat c.toNat

@[simp] theorem asciiBytes_nil : asciiBytes [] = [] := rfl

@[simp] theorem asciiBytes_cons (c : Char) (text : Text) :
    asciiBytes (c :: text) = UInt8.ofNat c.toNat :: asciiBytes text := rfl

@[simp] theorem asciiBytes_append (a b : Text) : asciiBytes (a ++ b) = asciiBytes a ++ asciiBytes b :=
  List.map_append

@[simp] theorem length_asciiBytes (text : Text) : (asciiBytes text).length = text.length :=
  List.length_map _

theorem utf8Bytes_eq_asciiBytes {text : Text} (h : ∀ c ∈ text, c.toNat < 128) :
    utf8Bytes text = asciiBytes text := by
  induction text with
  | nil => rfl
  | cons c text ih =>
      rw [utf8Bytes_cons, utf8EncodeChar_of_lt (h c List.mem_cons_self),
        ih fun d hd => h d (List.mem_cons_of_mem c hd)]
      rfl

theorem toNat_mem_of_isDigit {c : Char} (h : c.isDigit = true) : 48 ≤ c.toNat ∧ c.toNat ≤ 57 := by
  rw [Char.isDigit, Bool.and_eq_true, decide_eq_true_eq, decide_eq_true_eq] at h
  exact ⟨h.1, h.2⟩

theorem digitByte {c : Char} (h : c.isDigit = true) :
    digitVal (UInt8.ofNat c.toNat) = c.toNat - 48 ∧ isAsciiDigit (UInt8.ofNat c.toNat) = true ∧
      UInt8.ofNat c.toNat ≠ 32 ∧ UInt8.ofNat c.toNat ≠ 58 := by
  obtain ⟨hlo, hhi⟩ := toNat_mem_of_isDigit h
  generalize c.toNat = n at hlo hhi
  interval_cases n <;> decide

theorem parseIntFast_asciiBytes {digits : Text} (h : ∀ d ∈ digits, d.isDigit = true) :
    parseIntFast (asciiBytes digits) = number digits := by
  have hfold : ∀ acc, (asciiBytes digits).foldl (fun result b => result * 10 + digitVal b) acc =
      Nat.ofDigitChars 10 digits acc := by
    induction digits with
    | nil => simp
    | cons d digits ih =>
        intro acc
        rw [asciiBytes_cons, List.foldl_cons, ih fun e he => h e (List.mem_cons_of_mem d he),
          (digitByte (h d List.mem_cons_self)).1, Nat.ofDigitChars_cons, Nat.mul_comm acc 10]
        rfl
  exact hfold 0

theorem isDigit_of_mem_rightpad {digits : Text} (h : ∀ d ∈ digits, d.isDigit = true) (n : ℕ) :
    ∀ d ∈ digits.rightpad n '0', d.isDigit = true := by
  intro d hd
  rcases List.mem_append.mp hd with hd | hd
  · exact h d hd
  · rw [List.eq_of_mem_replicate hd]
    rfl

theorem number_append (a b : Text) : number (a ++ b) = number a * 10 ^ b.length + number b := by
  rw [number, Nat.ofDigitChars_append, Nat.ofDigitChars_eq_ofDigitChars_zero, Nat.mul_comm]
  rfl

theorem number_replicate_zero (n : ℕ) : number (List.replicate n '0') = 0 := by
  rw [number, Nat.ofDigitChars_replicate_zero, Nat.mul_zero]

theorem number_lt {digits : Text} (h : ∀ d ∈ digits, d.isDigit = true) :
    number digits < 10 ^ digits.length := by
  induction digits using List.reverseRecOn with
  | nil => decide
  | append_singleton digits d ih =>
      have hrest := ih fun e he => h e (List.mem_append_left _ he)
      have hd := toNat_mem_of_isDigit (h d (List.mem_append_right _ (List.mem_singleton_self d)))
      have hlast : number [d] = d.toNat - 48 := by
        rw [number, Nat.ofDigitChars_cons, Nat.ofDigitChars_nil, Nat.mul_zero, Nat.zero_add]
        rfl
      rw [number_append, hlast, List.length_append, List.length_singleton, pow_one, pow_succ]
      omega

theorem parseFractionalUsec_asciiBytes {digits : Text} (h : ∀ d ∈ digits, d.isDigit = true)
    {usec : ℕ} (husec : number digits * 1000000 = usec * 10 ^ digits.length) :
    parseFractionalUsec (asciiBytes digits) = usec := by
  have hhead : ∀ d ∈ digits.take 6, d.isDigit = true := fun d hd => h d (List.mem_of_mem_take hd)
  have hbytes : ((asciiBytes digits).take 6).rightpad 6 48 =
      asciiBytes ((digits.take 6).rightpad 6 '0') := by
    rw [asciiBytes, ← List.map_take, List.rightpad, List.rightpad, asciiBytes, List.map_append,
      List.length_map, List.map_replicate]
    rfl
  rw [parseFractionalUsec, hbytes, parseIntFast_asciiBytes (isDigit_of_mem_rightpad hhead 6),
    List.rightpad, number_append, number_replicate_zero, List.length_replicate, Nat.add_zero]
  rcases Nat.le_total digits.length 6 with hshort | hlong
  · rw [List.take_of_length_le hshort]
    have hpow : (1000000 : ℕ) = 10 ^ (6 - digits.length) * 10 ^ digits.length := by
      rw [← pow_add, Nat.sub_add_cancel hshort]
      rfl
    rw [hpow, ← Nat.mul_assoc] at husec
    exact Nat.eq_of_mul_eq_mul_right (Nat.pow_pos (by decide)) husec
  · have hlen : (digits.take 6).length = 6 := List.length_take_of_le hlong
    have hrest := number_lt fun d hd => h d (List.mem_of_mem_drop (i := 6) hd)
    have hpow : 10 ^ digits.length = 10 ^ (digits.drop 6).length * 1000000 := by
      rw [show (1000000 : ℕ) = 10 ^ 6 from rfl, ← pow_add, List.length_drop,
        Nat.sub_add_cancel hlong]
    have hsplit : number digits =
        number (digits.take 6) * 10 ^ (digits.drop 6).length + number (digits.drop 6) := by
      rw [← number_append, List.take_append_drop]
    rw [hlen, Nat.sub_self, pow_zero, Nat.mul_one]
    rw [hpow, hsplit, ← Nat.mul_assoc] at husec
    have hcancel := Nat.eq_of_mul_eq_mul_right (by decide) husec
    generalize 10 ^ (digits.drop 6).length = p at hrest hcancel
    -- what is cut off is less than one microsecond, and whole
    have hdiv : (number (digits.take 6) * p + number (digits.drop 6)) / p = usec := by
      rw [hcancel, Nat.mul_div_cancel _ (by omega)]
    rw [Nat.mul_comm, Nat.mul_add_div (by omega), Nat.div_eq_of_lt hrest, Nat.add_zero] at hdiv
    exact hdiv

/-! ## The documented forms are read -/

theorem exists_two_bytes {n : ℕ} (hn : n < 100) :
    ∃ x y, asciiBytes (padded 2 n) = [x, y] ∧ parseIntFast [x, y] = n ∧
      x ≠ 32 ∧ y ≠ 32 ∧ x ≠ 58 := by
  obtain ⟨c, d, hcd, hnum⟩ := exists_padded_two hn
  have hdigits : ∀ e ∈ [c, d], e.isDigit = true := fun e he => isDigit_of_mem_padded (hcd ▸ he)
  obtain ⟨-, -, hc, hc'⟩ := digitByte (hdigits c List.mem_cons_self)
  obtain ⟨-, -, hd, -⟩ := digitByte (hdigits d (List.mem_cons_of_mem _ List.mem_cons_self))
  refine ⟨_, _, by rw [hcd]; rfl, ?_, hc, hd, hc'⟩
  exact (parseIntFast_asciiBytes hdigits).trans hnum

theorem exists_four_bytes {n : ℕ} (hn : n < 10000) :
    ∃ w x y z, asciiBytes (padded 4 n) = [w, x, y, z] ∧ parseIntFast [w, x, y, z] = n ∧
      w ≠ 32 ∧ x ≠ 32 ∧ y ≠ 32 ∧ z ≠ 32 := by
  have hlen := @length_padded 4 n (by decide) hn
  have hdigits : ∀ c ∈ padded 4 n, c.isDigit = true := fun c hc => isDigit_of_mem_padded hc
  have hnum := parseIntFast_asciiBytes hdigits
  rw [number_padded] at hnum
  generalize padded 4 n = text at hlen hdigits hnum
  rcases text with - | ⟨a, - | ⟨b, - | ⟨c, - | ⟨d, - | ⟨e, rest⟩⟩⟩⟩⟩ <;> simp at hlen
  simp only [List.forall_mem_cons] at hdigits
  obtain ⟨ha, hb, hc, hd, -⟩ := hdigits
  exact ⟨_, _, _, _, rfl, hnum, (digitByte ha).2.2.1, (digitByte hb).2.2.1, (digitByte hc).2.2.1,
    (digitByte hd).2.2.1⟩

theorem exists_date_bytes {d : Date} (hd : d.Valid) (hpos : 0 ≤ d.year) (hle : d.year ≤ 9999) :
    ∃ w x y z m m' e e', asciiBytes (dateText d) = [w, x, y, z, 45, m, m', 45, e, e'] ∧
      parseDatePart [w, x, y, z, 45, m, m', 45, e, e'] = some (d.year, d.month, d.day) ∧
        ∀ b ∈ [w, x, y, z, 45, m, m', 45, e, e'], b ≠ 32 := by
  have hday := hd.day_le.trans (daysInMonth_le _ _)
  have hmonth := hd.month_le
  obtain ⟨w, x, y, z, hyear, hyearn, hw, hx, hy, hz⟩ :=
    exists_four_bytes (show d.year.toNat < 10000 by omega)
  obtain ⟨m, m', hm, hmn, hm1, hm2, -⟩ := exists_two_bytes (show d.month < 100 by omega)
  obtain ⟨e, e', he, hen, he1, he2, -⟩ := exists_two_bytes (show d.day < 100 by omega)
  refine ⟨w, x, y, z, m, m', e, e', ?_, ?_, ?_⟩
  · rw [dateText, asciiBytes_append, hyear, asciiBytes_cons, asciiBytes_append, hm, asciiBytes_cons, he]
    rfl
  · have hback : (d.year.toNat : ℤ) = d.year := Int.toNat_of_nonneg hpos
    show some ((parseIntFast [w, x, y, z] : ℤ), parseIntFast [m, m'], parseIntFast [e, e']) = _
    rw [hyearn, hmn, hen, hback]
  · simp [hw, hx, hy, hz, hm1, hm2, he1, he2]

theorem parseTzMinutes_text {x y : UInt8} {minute : Option (Bool × ℕ)}
    (h : ∀ colon n, minute = some (colon, n) → n < 60) :
    parseTzMinutes ([x, y] ++ asciiBytes (minuteText minute)) = some (minute.elim 0 Prod.snd) := by
  rcases minute with - | ⟨colon, n⟩
  · rfl
  · have hn := h colon n rfl
    obtain ⟨u, v, huv, hnum, -, -, hu⟩ := exists_two_bytes (show n < 100 by omega)
    cases colon with
    | true =>
        rw [minuteText, asciiBytes_cons, huv]
        show some (parseIntFast [u, v]) = some n
        rw [hnum]
    | false =>
        rw [minuteText, huv]
        have hsign : ([x, y] ++ [u, v])[2]? ≠ some 58 := by simpa using hu
        unfold parseTzMinutes
        rw [if_neg (by simp), if_pos ⟨le_refl 4, hsign⟩]
        show some (parseIntFast [u, v]) = some n
        rw [hnum]

/-- A zone is read. -/
theorem parseTzOffset_text {z : ZoneFields} (hz : z.Valid) :
    parseTzOffset (asciiBytes z.text) = some z.offset := by
  obtain ⟨negative, hour, minute⟩ := z
  have hhour : hour ≤ 15 := hz.hour_le
  obtain ⟨x, y, hxy, hnum, -⟩ := exists_two_bytes (show hour < 100 by omega)
  have hminutes := parseTzMinutes_text (x := x) (y := y) hz.minute_lt
  rw [ZoneFields.text, asciiBytes_cons, asciiBytes_append, hxy, parseTzOffset, List.tail_cons,
    hminutes, slice_of_le 0 (by omega) (by simp)]
  show some (_ * (parseIntFast [x, y] * 3600000000 + _ : ℕ) : ℤ) = _
  rw [hnum]
  cases negative <;> rfl

/-- The fraction goes with the time, and the zone begins at its sign. -/
theorem findTzSplit_append {clock frac zone : List UInt8} (hclock : clock.length = 8)
    (hfrac : frac = [] ∨ ∃ digits, frac = 46 :: digits ∧ ∀ b ∈ digits, isAsciiDigit b = true)
    (hzone : zone = [] ∨ ∃ sign rest, zone = sign :: rest ∧ (sign = 43 ∨ sign = 45)) :
    findTzSplit (clock ++ (frac ++ zone)) =
      (clock ++ frac, if zone = [] then none else some zone) := by
  have hat : ∀ k, (clock ++ (frac ++ zone))[8 + k]? = (frac ++ zone)[k]? := by
    intro k
    rw [List.getElem?_append_right (by omega), hclock, Nat.add_sub_cancel_left]
  have hend : (if (clock ++ (frac ++ zone))[8]? = some 46 then
      9 + (((clock ++ (frac ++ zone)).drop 9).takeWhile isAsciiDigit).length else 8) =
        8 + frac.length := by
    have hhead := hat 0
    rcases hfrac with rfl | ⟨digits, rfl, hdigits⟩
    · have hno : (clock ++ ([] ++ zone))[8]? ≠ some 46 := by
        rw [hhead]
        rcases hzone with rfl | ⟨sign, rest, rfl, rfl | rfl⟩ <;> simp
      rw [if_neg hno]
      rfl
    · have hdrop : (clock ++ (46 :: digits ++ zone)).drop 9 = digits ++ zone := by
        rw [show 9 = clock.length + 1 by omega, List.drop_append,
          List.drop_of_length_le (by omega), Nat.add_sub_cancel_left]
        rfl
      have hstop : (digits ++ zone).takeWhile isAsciiDigit = digits := by
        rw [List.takeWhile_append_of_pos hdigits]
        rcases hzone with rfl | ⟨sign, rest, rfl, rfl | rfl⟩
        · simp
        · rw [List.takeWhile_cons_of_neg (by decide), List.append_nil]
        · rw [List.takeWhile_cons_of_neg (by decide), List.append_nil]
      have hpoint : (clock ++ (46 :: digits ++ zone))[8]? = some 46 := hhead
      rw [hdrop, hstop, if_pos hpoint, List.length_cons]
      omega
  have hlen : (clock ++ frac).length = 8 + frac.length := by
    rw [List.length_append, hclock]
  have hsign : (clock ++ (frac ++ zone))[8 + frac.length]? = zone[0]? := by
    rw [hat, List.getElem?_append_right (le_refl _), Nat.sub_self]
  unfold findTzSplit
  simp only [hend, hsign]
  rw [← hlen, ← List.append_assoc, List.take_left, List.drop_left]
  rcases hzone with rfl | ⟨sign, rest, rfl, rfl | rfl⟩ <;> simp

theorem parseTimePart_append (x x' a y y' b z z' : UInt8) (rest : List UInt8) :
    parseTimePart ([x, x', a, y, y', b, z, z'] ++ rest) =
      some ((parseIntFast [x, x'] * 3600000000 + parseIntFast [y, y'] * 60000000 +
        parseIntFast [z, z'] * 1000000 +
          if rest[0]? = some 46 then parseFractionalUsec rest.tail else 0 : ℕ) : ℤ) := by
  have hlen : ([x, x', a, y, y', b, z, z'] ++ rest).length = 8 + rest.length := List.length_append
  unfold parseTimePart
  rw [slice_of_le 0 (by omega) (show 2 ≤ _ by omega),
    slice_of_le 3 (by omega) (show 5 ≤ _ by omega),
    slice_of_le 6 (by omega) (show 8 ≤ _ by omega), List.getElem?_append_right (by simp)]
  cases rest <;> rfl

theorem fractionText_bytes {c : ClockFields} (hc : c.Valid) :
    (asciiBytes (fractionText c.fraction) = [] ∧ c.usec = 0) ∨
      ∃ digits, asciiBytes (fractionText c.fraction) = 46 :: digits ∧
        (∀ b ∈ digits, isAsciiDigit b = true) ∧ parseFractionalUsec digits = c.usec := by
  cases hf : c.fraction with
  | none => exact Or.inl ⟨rfl, hc.fraction_none hf⟩
  | some digits =>
      obtain ⟨-, hdigits, husec⟩ := hc.fraction_some digits hf
      refine Or.inr ⟨asciiBytes digits, rfl, fun b hb => ?_, parseFractionalUsec_asciiBytes hdigits husec⟩
      obtain ⟨d, hd, rfl⟩ := List.mem_map.mp hb
      exact (digitByte (hdigits d hd)).2.1

theorem parseTimeAndTz_text {c : ClockFields} (hc : c.Valid) :
    parseTimeAndTz (asciiBytes c.text) =
      some ((((c.hour * 3600 + c.minute * 60 + c.second) * 1000000 + c.usec : ℕ) : ℤ),
        c.zone.elim 0 ZoneFields.offset) := by
  have hhour := hc.hour_le
  have hminute := hc.minute_lt
  have hsecond := hc.second_le
  obtain ⟨x, x', hx, hxn, -⟩ := exists_two_bytes (show c.hour < 100 by omega)
  obtain ⟨y, y', hy, hyn, -⟩ := exists_two_bytes (show c.minute < 100 by omega)
  obtain ⟨z, z', hz, hzn, -⟩ := exists_two_bytes (show c.second < 100 by omega)
  have htext : asciiBytes c.text = [x, x', 58, y, y', 58, z, z'] ++
      (asciiBytes (fractionText c.fraction) ++ asciiBytes (c.zone.elim [] ZoneFields.text)) := by
    rw [ClockFields.text, asciiBytes_append, hx, asciiBytes_cons, asciiBytes_append, hy,
      asciiBytes_cons, asciiBytes_append, hz, asciiBytes_append]
    rfl
  have hfraction := fractionText_bytes hc
  generalize asciiBytes (fractionText c.fraction) = frac at htext hfraction
  have htime : parseTimePart ([x, x', 58, y, y', 58, z, z'] ++ frac) =
      some (((c.hour * 3600 + c.minute * 60 + c.second) * 1000000 + c.usec : ℕ) : ℤ) := by
    have hfrac : (if frac[0]? = some 46 then parseFractionalUsec frac.tail else 0) = c.usec := by
      rcases hfraction with ⟨rfl, husec⟩ | ⟨digits, rfl, -, husec⟩
      · exact husec.symm
      · exact husec
    have hsum : c.hour * 3600000000 + c.minute * 60000000 + c.second * 1000000 + c.usec =
        (c.hour * 3600 + c.minute * 60 + c.second) * 1000000 + c.usec := by omega
    rw [parseTimePart_append, hxn, hyn, hzn, hfrac, hsum]
  have hzone : asciiBytes (c.zone.elim [] ZoneFields.text) = [] ∨
      ∃ sign rest, asciiBytes (c.zone.elim [] ZoneFields.text) = sign :: rest ∧
        (sign = 43 ∨ sign = 45) := by
    cases c.zone with
    | none => exact Or.inl rfl
    | some zone =>
        refine Or.inr ⟨_, _, rfl, ?_⟩
        cases zone.negative
        · exact Or.inl rfl
        · exact Or.inr rfl
  have hsplit := findTzSplit_append (show [x, x', 58, y, y', 58, z, z'].length = 8 from rfl)
    (hfraction.imp And.left fun ⟨digits, h⟩ => ⟨digits, h.1, h.2.1⟩) hzone
  rw [htext, parseTimeAndTz, hsplit, htime]
  cases hz : c.zone with
  | none => rfl
  | some zone =>
      show (parseTzOffset (asciiBytes zone.text)).bind _ = _
      rw [parseTzOffset_text (hc.zone zone hz)]
      rfl

def IsClockChar (c : Char) : Prop := c.isDigit = true ∨ c ∈ [':', '.', '+', '-']

theorem IsClockChar.byte {c : Char} (h : IsClockChar c) :
    c.toNat < 128 ∧ UInt8.ofNat c.toNat ≠ 32 := by
  rcases h with h | h
  · exact ⟨by have := toNat_mem_of_isDigit h; omega, (digitByte h).2.2.1⟩
  · simp only [List.mem_cons, List.not_mem_nil, or_false] at h
    rcases h with rfl | rfl | rfl | rfl <;> decide

theorem isClockChar_padded {width n : ℕ} {c : Char} (h : c ∈ padded width n) : IsClockChar c :=
  Or.inl (isDigit_of_mem_padded h)

theorem isClockChar_zone {z : ZoneFields} {ch : Char} (h : ch ∈ z.text) : IsClockChar ch := by
  rcases List.mem_cons.mp h with rfl | h
  · cases z.negative <;> exact Or.inr (by decide)
  · rcases List.mem_append.mp h with h | h
    · exact isClockChar_padded h
    · rcases hm : z.minute with - | ⟨colon, n⟩
      · simp [hm, minuteText] at h
      · cases colon with
        | false => exact isClockChar_padded (hm ▸ h)
        | true =>
            rw [hm] at h
            rcases List.mem_cons.mp h with rfl | h
            · exact Or.inr (by decide)
            · exact isClockChar_padded h

theorem isClockChar_clock {c : ClockFields} (hc : c.Valid) {ch : Char} (h : ch ∈ c.text) :
    IsClockChar ch := by
  have hcolon : IsClockChar ':' := Or.inr (by decide)
  have hpoint : IsClockChar '.' := Or.inr (by decide)
  simp only [ClockFields.text, List.mem_append, List.mem_cons] at h
  rcases h with h | rfl | h | rfl | h | h | h
  · exact isClockChar_padded h
  · exact hcolon
  · exact isClockChar_padded h
  · exact hcolon
  · exact isClockChar_padded h
  · cases hf : c.fraction with
    | none => simp [hf, fractionText] at h
    | some digits =>
        rw [hf] at h
        rcases List.mem_cons.mp h with rfl | h
        · exact hpoint
        · exact Or.inl ((hc.fraction_some digits hf).2.1 ch h)
  · cases hz : c.zone with
    | none => simp [hz] at h
    | some zone => exact isClockChar_zone (hz ▸ h)

theorem isClockChar_date {d : Date} {ch : Char} (h : ch ∈ dateText d) : IsClockChar ch := by
  have hdash : IsClockChar '-' := Or.inr (by decide)
  simp only [dateText, List.mem_append, List.mem_cons] at h
  rcases h with h | rfl | h | rfl | h
  · exact isClockChar_padded h
  · exact hdash
  · exact isClockChar_padded h
  · exact hdash
  · exact isClockChar_padded h

theorem isClockChar_of_mem_text {f : TimestampFields} (hf : f.Valid) {ch : Char} (h : ch ∈ f.text) :
    IsClockChar ch ∨ ch = 'T' ∨ ch = ' ' := by
  rcases List.mem_append.mp h with h | h
  · exact Or.inl (isClockChar_date h)
  · rcases hclock : f.clock with - | ⟨withT, clock⟩
    · simp [hclock] at h
    · rw [hclock] at h
      rcases List.mem_cons.mp h with rfl | h
      · cases withT <;> simp
      · exact Or.inl (isClockChar_clock (hf.clock withT clock hclock) h)

/-- A documented form is ASCII. -/
theorem utf8Bytes_text {f : TimestampFields} (hf : f.Valid) : utf8Bytes f.text = asciiBytes f.text := by
  apply utf8Bytes_eq_asciiBytes
  intro ch h
  rcases isClockChar_of_mem_text hf h with h | rfl | rfl
  · exact h.byte.1
  · decide
  · decide

/-- The date ends at the space or the `T` after its ten bytes. -/
theorem splitPos_append {date clock : List UInt8} {sep : UInt8} (hlen : date.length = 10)
    (hdate : ∀ b ∈ date, b ≠ 32) (hsep : sep = 32 ∨ (sep = 84 ∧ ∀ b ∈ clock, b ≠ 32)) :
    splitPos (date ++ sep :: clock) = some 10 := by
  have hskip : date.findIdx? (fun b => decide (b = 32)) = none :=
    List.findIdx?_eq_none_iff.mpr (by simpa using hdate)
  unfold splitPos
  rw [List.findIdx?_append, hskip, Option.none_or, List.findIdx?_cons, hlen]
  rcases hsep with rfl | ⟨rfl, hclock⟩
  · rfl
  · have hnone : clock.findIdx? (fun b => decide (b = 32)) = none :=
      List.findIdx?_eq_none_iff.mpr (by simpa using hclock)
    have hT : (date ++ 84 :: clock)[10]? = some 84 := by
      rw [List.getElem?_append_right (by omega), hlen]
      rfl
    rw [hnone, hT]
    rfl

/-- A documented form is read as the instant it stands for. -/
theorem parseTimestampBytes_text {f : TimestampFields} (hf : f.Valid) :
    parseTimestampBytes (asciiBytes f.text) = some f.instant := by
  obtain ⟨w, x, y, z, m, m', e, e', hdate, hparts, hspace⟩ :=
    exists_date_bytes hf.date hf.year_nonneg hf.year_le
  have hdays := dateToEpochDays_eq hf.date.month_pos hf.date.month_le
  generalize hbytes : [w, x, y, z, 45, m, m', 45, e, e'] = date at hdate hparts hspace
  have hlen : date.length = 10 := by rw [← hbytes]; rfl
  rcases hclock : f.clock with - | ⟨withT, clock⟩
  · have hsplit : splitPos date = none := by
      unfold splitPos
      rw [List.findIdx?_eq_none_iff.mpr (by simpa using hspace),
        List.getElem?_eq_none (by omega)]
      rfl
    rw [TimestampFields.text, hclock, List.append_nil, hdate, parseTimestampBytes, hsplit]
    show (parseDatePart date).bind _ = _
    rw [hparts, TimestampFields.instant, hclock, ← hdays]
    show some (_ * 86400 * 1000000 + 0 - 0) = some (_ * 86400000000 + 0)
    apply congrArg some
    omega
  · have hclockBytes := hf.clock withT clock hclock
    have htext : asciiBytes f.text =
        date ++ (if withT then 84 else 32) :: asciiBytes clock.text := by
      rw [TimestampFields.text, hclock, asciiBytes_append, hdate, asciiBytes_cons]
      cases withT <;> rfl
    have hsep : (if withT then 84 else 32 : UInt8) = 32 ∨ ((if withT then 84 else 32 : UInt8) = 84 ∧
        ∀ b ∈ asciiBytes clock.text, b ≠ 32) := by
      cases withT with
      | false => exact Or.inl rfl
      | true =>
          refine Or.inr ⟨rfl, fun b hb => ?_⟩
          obtain ⟨ch, hch, rfl⟩ := List.mem_map.mp hb
          exact (isClockChar_clock hclockBytes hch).byte.2
    have hsplit := splitPos_append hlen hspace hsep
    rw [htext, parseTimestampBytes, hsplit]
    show (parseDatePart ((date ++ _).take 10)).bind _ = _
    rw [← hlen, List.take_left, hparts]
    show (parseTimeAndTz ((date ++ _).drop (date.length + 1))).bind _ = _
    rw [List.drop_append, List.drop_of_length_le (by omega), Nat.add_sub_cancel_left]
    show (parseTimeAndTz (asciiBytes clock.text)).bind _ = _
    rw [parseTimeAndTz_text hclockBytes, TimestampFields.instant, hclock, ← hdays]
    show some (_ * 86400 * 1000000 + _ - _) = some (_ * 86400000000 + clock.instant)
    rw [ClockFields.instant]
    apply congrArg some
    omega

/-- The parser fails or reads a documented form exactly where a slice is out of range or
the text has a documented form. -/
theorem neverInvents_iff (s : Text) :
    NeverInvents s ↔
      TooShort (utf8Bytes (trim s)) ∨ ∃ f : TimestampFields, f.Valid ∧ trim s = f.text := by
  have hread : ∀ f : TimestampFields, f.Valid → trim s = f.text →
      parseTimestampToUsec s = some f.instant := by
    intro f hf htext
    rw [parseTimestampToUsec, htext, utf8Bytes_text hf, parseTimestampBytes_text hf]
  apply or_congr
  · exact parseTimestampBytes_eq_none_iff _
  · constructor
    · rintro ⟨f, hf, htext, -⟩
      exact ⟨f, hf, htext⟩
    · rintro ⟨f, hf, htext⟩
      exact ⟨f, hf, htext, hread f hf htext⟩

/-- The era after a time is dropped: a date before Christ comes out after Christ. -/
theorem parse_bc_invents : ¬ ∀ s, NeverInvents s := by
  intro h
  have hread : parseTimestampToUsec "2013-07-15 10:23:45 BC".toList = some 1373883825000000 := by
    decide
  rcases h "2013-07-15 10:23:45 BC".toList with hnone | ⟨f, hf, htext, -⟩
  · rw [hread] at hnone
    cases hnone
  · have hmem : 'C' ∈ f.text := htext ▸ (by decide)
    rcases isClockChar_of_mem_text hf hmem with (hdigit | hsign) | hT | hspace
    · revert hdigit
      decide
    · revert hsign
      decide
    · revert hT
      decide
    · revert hspace
      decide

end DeltaX.Column.TimestampParse
