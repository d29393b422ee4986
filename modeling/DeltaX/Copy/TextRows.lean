import DeltaX.Copy.LineReader
import DeltaX.Support.Utf8
/-!
# Rows of COPY text

A line is cut into fields at its delimiters, a field is NULL when its bytes are the
null string, and every other field is unescaped.  Each of these scans skips behind a
backslash on its own.  They agree on every row written in PostgreSQL's text format.
-/

namespace DeltaX.Copy

open Support.Utf8

/-! ## Fields of a line -/

def splitFieldsFrom (delimiter : UInt8) (field : List UInt8) : List UInt8 → List (List UInt8)
  | [] => [field]
  | b :: line =>
      if b = 92 then
        match line with
        | [] => [field ++ [b]]
        | c :: line => splitFieldsFrom delimiter (field ++ [b, c]) line
      else if b = delimiter then field :: splitFieldsFrom delimiter [] line
      else splitFieldsFrom delimiter (field ++ [b]) line

/-- `split_fields_into`. -/
def splitFields (line : List UInt8) (delimiter : UInt8) : List (List UInt8) :=
  splitFieldsFrom delimiter [] line

def splitFieldOffsetsFrom (delimiter : UInt8) (fieldStart i : ℕ) : List UInt8 → List (ℕ × ℕ)
  | [] => [(fieldStart, i)]
  | b :: line =>
      if b = 92 then
        match line with
        -- the position runs past the end, the last offset does not
        | [] => [(fieldStart, i + 1)]
        | _ :: line => splitFieldOffsetsFrom delimiter fieldStart (i + 2) line
      else if b = delimiter then
        (fieldStart, i) :: splitFieldOffsetsFrom delimiter (i + 1) (i + 1) line
      else splitFieldOffsetsFrom delimiter fieldStart (i + 1) line

def splitFieldOffsets (line : List UInt8) (delimiter : UInt8) : List (ℕ × ℕ) :=
  splitFieldOffsetsFrom delimiter 0 0 line

/-- `&line[start..end]`. -/
def slice (line : List UInt8) (range : ℕ × ℕ) : List UInt8 :=
  (line.drop range.1).take (range.2 - range.1)

/-! ## Values of a field -/

def isHexDigit (b : UInt8) : Bool :=
  (48 ≤ b && b ≤ 57) || (97 ≤ b && b ≤ 102) || (65 ≤ b && b ≤ 70)

def hexVal (b : UInt8) : UInt8 :=
  if b ≤ 57 then b - 48 else if 97 ≤ b then b - 97 + 10 else b - 65 + 10

def isOctalDigit (b : UInt8) : Bool := 48 ≤ b && b ≤ 55

/-- `unescape_bytes` before the bytes are read as UTF-8.  An octal escape above 255
wraps around, as it does in a release build. -/
def unescapeBytes : List UInt8 → List UInt8
  | [] => []
  | b :: raw =>
      if b = 92 then
        match raw with
        | [] => [b]
        | c :: raw =>
            if c = 98 then 8 :: unescapeBytes raw
            else if c = 102 then 12 :: unescapeBytes raw
            else if c = 110 then 10 :: unescapeBytes raw
            else if c = 114 then 13 :: unescapeBytes raw
            else if c = 116 then 9 :: unescapeBytes raw
            else if c = 118 then 11 :: unescapeBytes raw
            else if c = 120 then
              match raw with
              | [] => [120]
              | d :: raw =>
                  if isHexDigit d then
                    match raw with
                    | [] => [hexVal d]
                    | e :: raw =>
                        if isHexDigit e then (hexVal d * 16 + hexVal e) :: unescapeBytes raw
                        else hexVal d :: unescapeBytes (e :: raw)
                  else 120 :: unescapeBytes (d :: raw)
            else if isOctalDigit c then
              match raw with
              | [] => [c - 48]
              | d :: raw =>
                  if isOctalDigit d then
                    match raw with
                    | [] => [(c - 48) * 8 + (d - 48)]
                    | e :: raw =>
                        if isOctalDigit e then
                          (((c - 48) * 8 + (d - 48)) * 8 + (e - 48)) :: unescapeBytes raw
                        else ((c - 48) * 8 + (d - 48)) :: unescapeBytes (e :: raw)
                  else (c - 48) :: unescapeBytes (d :: raw)
            else c :: unescapeBytes raw
      else b :: unescapeBytes raw

def unescapeFieldAlways (raw : List UInt8) : Option (List Char) :=
  fromUtf8 (if 92 ∈ raw then unescapeBytes raw else raw)

/-- The NULL test on the raw bytes, then `unescape_field_always`. -/
def readField (nullString raw : List UInt8) : Option (Option (List Char)) :=
  if raw = nullString then some none else (unescapeFieldAlways raw).map some

/-! ## PostgreSQL's text format -/

/-- `null_string` and `delimiter` of `CopyTextOptions::default`. -/
def nullString : List UInt8 := [92, 78]

def tab : UInt8 := 9

def escapeLetter (c : Char) : Option UInt8 :=
  if c.toNat = 92 then some 92
  else if c.toNat = 8 then some 98
  else if c.toNat = 9 then some 116
  else if c.toNat = 10 then some 110
  else if c.toNat = 11 then some 118
  else if c.toNat = 12 then some 102
  else if c.toNat = 13 then some 114
  else none

def escapeChar (c : Char) : List UInt8 :=
  match escapeLetter c with
  | some letter => [92, letter]
  | none => String.utf8EncodeChar c

def writeField : Option (List Char) → List UInt8
  | none => nullString
  | some text => text.flatMap escapeChar

/-- A row as PostgreSQL writes it, without the line feed. -/
def writeRow (fields : List (Option (List Char))) : List UInt8 :=
  List.intercalate [tab] (fields.map writeField)

theorem writeRow_singleton (field : Option (List Char)) : writeRow [field] = writeField field := by
  simp [writeRow]

theorem writeRow_cons_cons (field next : Option (List Char)) (fields : List (Option (List Char))) :
    writeRow (field :: next :: fields) = writeField field ++ tab :: writeRow (next :: fields) := by
  simp [writeRow, List.intercalate_cons_cons]

/-! ## The letters behind a backslash -/

theorem mem_of_escapeLetter {c : Char} {letter : UInt8} (h : escapeLetter c = some letter) :
    letter ∈ ([92, 98, 116, 110, 118, 102, 114] : List UInt8) := by
  unfold escapeLetter at h
  split_ifs at h <;> cases h <;> decide

/-- The bytes of a character that is not escaped mean nothing to any scan. -/
theorem plain_of_escapeLetter {c : Char} (h : escapeLetter c = none) {b : UInt8}
    (hb : b ∈ String.utf8EncodeChar c) : b ≠ 92 ∧ b ≠ tab ∧ b ≠ 10 ∧ b ≠ 13 := by
  have hcode : ∀ n : UInt8, n.toNat < 128 → b = n → c.toNat = n.toNat := by
    rintro n hn rfl
    exact toNat_eq_of_mem hb hn
  unfold escapeLetter at h
  split_ifs at h with h92 h8 h9 h10 h11 h12 h13
  refine ⟨fun hn => h92 ?_, fun hn => h9 ?_, fun hn => h10 ?_, fun hn => h13 ?_⟩
  · exact hcode 92 (by decide) hn
  · exact hcode 9 (by decide) hn
  · exact hcode 10 (by decide) hn
  · exact hcode 13 (by decide) hn

theorem Paired.of_plain {stop : UInt8 → Prop} {bytes : List UInt8}
    (h : ∀ b ∈ bytes, b ≠ 92 ∧ ¬ stop b) : Paired stop bytes := by
  induction bytes with
  | nil => exact .nil
  | cons b bytes ih =>
      obtain ⟨hesc, hstop⟩ := h b List.mem_cons_self
      exact .plain hesc hstop (ih fun d hd => h d (List.mem_cons_of_mem b hd))

/-- No field holds a delimiter or a line end that is not escaped. -/
theorem paired_writeField {stop : UInt8 → Prop} (hstop : ∀ b, stop b → b = tab ∨ b = 10 ∨ b = 13)
    (field : Option (List Char)) : Paired stop (writeField field) := by
  rcases field with - | text
  · exact .escaped 78 .nil
  · induction text with
    | nil => exact .nil
    | cons c text ih =>
        show Paired stop (escapeChar c ++ writeField (some text))
        apply Paired.append _ ih
        unfold escapeChar
        rcases hletter : escapeLetter c with - | letter
        · apply Paired.of_plain
          intro b hb
          have hplain := plain_of_escapeLetter hletter hb
          refine ⟨hplain.1, fun hs => ?_⟩
          have := hstop b hs
          tauto
        · exact .escaped letter .nil

theorem clean_writeRow (fields : List (Option (List Char))) : Clean (writeRow fields) := by
  have hfield : ∀ field, Clean (writeField field) := fun field => by
    apply paired_writeField
    intro b hb
    exact Or.inr hb
  induction fields with
  | nil => exact .nil
  | cons field fields ih =>
      rcases fields with - | ⟨next, fields⟩
      · rw [writeRow_singleton]
        exact hfield field
      · rw [writeRow_cons_cons]
        apply Paired.append (hfield field)
        exact .plain (by decide) (by decide) ih

/-! ## Splitting a row -/

theorem splitFieldsFrom_append {delimiter : UInt8} {bytes : List UInt8}
    (h : Paired (· = delimiter) bytes) (field rest : List UInt8) :
    splitFieldsFrom delimiter field (bytes ++ rest) =
      splitFieldsFrom delimiter (field ++ bytes) rest := by
  induction h generalizing field with
  | nil => rw [List.nil_append, List.append_nil]
  | escaped c _ ih =>
      simp only [List.cons_append, splitFieldsFrom, if_true, ih]
      rw [List.append_assoc]
      rfl
  | @plain b bytes hesc hstop _ ih =>
      rw [List.cons_append, splitFieldsFrom.eq_def]
      simp only [if_neg hesc, if_neg hstop, ih]
      rw [List.append_assoc]
      rfl

theorem splitFields_writeRow {fields : List (Option (List Char))} (hne : fields ≠ []) :
    splitFields (writeRow fields) tab = fields.map writeField := by
  have hpaired : ∀ field, Paired (· = tab) (writeField field) := fun field => by
    apply paired_writeField
    intro b hb
    exact Or.inl hb
  unfold splitFields
  induction fields with
  | nil => exact absurd rfl hne
  | cons field fields ih =>
      rcases fields with - | ⟨next, fields⟩
      · calc
          splitFieldsFrom tab [] (writeRow [field]) =
              splitFieldsFrom tab [] (writeField field ++ []) := by
            rw [writeRow_singleton, List.append_nil]
          _ = splitFieldsFrom tab ([] ++ writeField field) [] :=
            splitFieldsFrom_append (hpaired field) [] []
          _ = [writeField field] := rfl
      · rw [writeRow_cons_cons, splitFieldsFrom_append (hpaired field), splitFieldsFrom.eq_def]
        simp only [if_neg (show ¬ tab = 92 by decide), if_true]
        rw [ih (List.cons_ne_nil next fields), List.nil_append, ← List.map_cons]

theorem slice_splitFieldOffsetsFrom (delimiter : UInt8) (before field line : List UInt8) :
    (splitFieldOffsetsFrom delimiter before.length (before.length + field.length) line).map
        (slice (before ++ field ++ line)) =
      splitFieldsFrom delimiter field line := by
  have hslice : ∀ before field more : List UInt8,
      slice (before ++ field ++ more) (before.length, before.length + field.length) = field := by
    intro before field more
    unfold slice
    rw [List.append_assoc, List.drop_left, Nat.add_sub_cancel_left, List.take_left]
  induction field, line using splitFieldsFrom.induct delimiter generalizing before with
  | case1 field => simpa [splitFieldOffsetsFrom, splitFieldsFrom] using hslice before field []
  | case2 field =>
      have hlast := hslice before (field ++ [92]) []
      simp only [List.length_append, List.length_singleton, List.append_nil,
        ← Nat.add_assoc] at hlast
      simp [splitFieldOffsetsFrom, splitFieldsFrom, hlast]
  | case3 field c line ih =>
      have hnext := ih before
      simp only [List.length_append, List.length_cons, List.length_nil] at hnext
      simpa [splitFieldOffsetsFrom, splitFieldsFrom, Nat.add_assoc] using hnext
  | case4 field line hesc ih =>
      have hnext := ih (before ++ field ++ [delimiter])
      have hfirst := hslice before field (delimiter :: line)
      simp only [List.length_append, List.length_cons, List.length_nil] at hnext
      rw [splitFieldOffsetsFrom.eq_def, splitFieldsFrom.eq_def]
      simp only [if_neg hesc, if_true, List.map_cons, hfirst]
      simpa [Nat.add_assoc] using hnext
  | case5 field b line hesc hdelim ih =>
      have hnext := ih before
      simp only [List.length_append, List.length_cons, List.length_nil] at hnext
      rw [splitFieldOffsetsFrom.eq_def, splitFieldsFrom.eq_def]
      simp only [if_neg hesc, if_neg hdelim]
      simpa [Nat.add_assoc] using hnext

theorem slice_splitFieldOffsets (line : List UInt8) (delimiter : UInt8) :
    (splitFieldOffsets line delimiter).map (slice line) = splitFields line delimiter :=
  slice_splitFieldOffsetsFrom delimiter [] [] line

/-! ## Reading a field -/

theorem unescapeBytes_plain {bytes : List UInt8} (h : ∀ b ∈ bytes, b ≠ 92) (rest : List UInt8) :
    unescapeBytes (bytes ++ rest) = bytes ++ unescapeBytes rest := by
  induction bytes with
  | nil => rfl
  | cons b bytes ih =>
      rw [List.cons_append, unescapeBytes.eq_def]
      simp only [if_neg (h b List.mem_cons_self)]
      rw [ih fun d hd => h d (List.mem_cons_of_mem b hd)]
      rfl

theorem unescapeBytes_escapeChar (c : Char) (rest : List UInt8) :
    unescapeBytes (escapeChar c ++ rest) = String.utf8EncodeChar c ++ unescapeBytes rest := by
  unfold escapeChar
  rcases hletter : escapeLetter c with - | letter
  · apply unescapeBytes_plain
    intro b hb
    exact (plain_of_escapeLetter hletter hb).1
  · -- one escaped character after the other
    have hchar : c.toNat < 128 := by
      unfold escapeLetter at hletter
      split_ifs at hletter <;> omega
    rw [utf8EncodeChar_of_lt hchar]
    unfold escapeLetter at hletter
    split_ifs at hletter with hcode hcode hcode hcode hcode hcode hcode <;> cases hletter <;>
      rw [hcode] <;> exact unescapeBytes.eq_def _

theorem unescapeBytes_writeField (text : List Char) :
    unescapeBytes (writeField (some text)) = utf8Bytes text := by
  induction text with
  | nil => rfl
  | cons c text ih =>
      show unescapeBytes (escapeChar c ++ writeField (some text)) = _
      rw [unescapeBytes_escapeChar, ih]
      rfl

/-- What is escaped is never `N` or a full stop, whatever stands behind the text. -/
theorem ne_of_escaped {text : List Char} {behind rest : List UInt8} {letter : UInt8}
    (hbehind : behind.head? ≠ some 92)
    (h : writeField (some text) ++ behind = 92 :: letter :: rest) : letter ≠ 78 ∧ letter ≠ 46 := by
  rcases text with - | ⟨c, text⟩
  · rw [show writeField (some []) ++ behind = behind from rfl] at h
    exact absurd (by rw [h]; rfl) hbehind
  · rw [show writeField (some (c :: text)) = escapeChar c ++ writeField (some text) from rfl,
      escapeChar] at h
    rcases hletter : escapeLetter c with - | found
    · rw [hletter] at h
      obtain ⟨b, tail, hword⟩ := List.exists_cons_of_ne_nil (utf8EncodeChar_ne_nil c)
      have hplain := plain_of_escapeLetter hletter (hword ▸ List.mem_cons_self)
      rw [hword] at h
      exact absurd (List.cons.inj h).1 hplain.1
    · rw [hletter] at h
      have hmem := mem_of_escapeLetter hletter
      obtain rfl : found = letter := (List.cons.inj (List.cons.inj h).2).1
      constructor <;> rintro rfl <;> exact absurd hmem (by decide)

theorem writeField_ne_nullString (text : List Char) : writeField (some text) ≠ nullString := by
  intro h
  have hescaped : writeField (some text) ++ [] = 92 :: 78 :: [] := by
    rw [List.append_nil, h]
    rfl
  exact (ne_of_escaped (by simp) hescaped).1 rfl

theorem readField_writeField (field : Option (List Char)) :
    readField nullString (writeField field) = some field := by
  rcases field with - | text
  · rfl
  · rw [readField, if_neg (writeField_ne_nullString text), unescapeFieldAlways]
    have hbytes : (if 92 ∈ writeField (some text) then unescapeBytes (writeField (some text))
        else writeField (some text)) = utf8Bytes text := by
      rw [← unescapeBytes_writeField]
      split_ifs with hescape
      · rfl
      · -- without a backslash there is nothing to unescape
        have hplain := unescapeBytes_plain (fun b hb => ne_of_mem_of_not_mem hb hescape) []
        rw [List.append_nil] at hplain
        exact (hplain.trans (List.append_nil _)).symm
    rw [hbytes, fromUtf8_utf8Bytes]
    rfl

theorem writeRow_ne_eocMarker {fields : List (Option (List Char))} (hne : fields ≠ []) :
    writeRow fields ≠ eocMarker := by
  intro h
  -- the row is its first field, and a delimiter when there are more
  have hfirst : ∃ field behind, writeRow fields = writeField field ++ behind ∧
      behind.head? ≠ some 92 := by
    rcases fields with - | ⟨field, - | ⟨next, fields⟩⟩
    · exact absurd rfl hne
    · exact ⟨field, [], by rw [writeRow_singleton, List.append_nil], by decide⟩
    · exact ⟨field, _, writeRow_cons_cons field next fields, by simp [tab]⟩
  obtain ⟨field, behind, hrow, hbehind⟩ := hfirst
  rw [h] at hrow
  rcases field with - | text
  · exact absurd (List.cons.inj (List.cons.inj hrow).2).1 (by decide)
  · exact (ne_of_escaped hbehind hrow.symm).2 rfl

theorem nextLine_endOfCopy {eol : Option Eol} {data : List UInt8}
    (h : nextLine eol data = .endOfCopy) :
    ∃ b rest, (b = 10 ∨ b = 13) ∧ data = eocMarker ++ b :: rest := by
  unfold nextLine at h
  rcases hscan : scanLine data with - | ⟨line, b, rest⟩
  · rw [hscan] at h
    cases h
  · rw [hscan] at h
    have hline : line = eocMarker := by
      by_contra hmarker
      have hcheck : ∀ got next, checkEndOfCopy line got next ≠ .endOfCopy := by
        intro got next
        rw [checkEndOfCopy, if_neg hmarker]
        exact LineResult.noConfusion
      simp only [finishLine] at h
      split at h
      · exact hcheck _ _ h
      · split_ifs at h <;> exact hcheck _ _ h
    obtain ⟨-, hb, hdata⟩ := scanLine_eq_some_iff.mp hscan
    exact ⟨b, rest, hb, by rw [hdata, hline]⟩

/-- The line of a row is returned whole, and what stands behind its line feed is left. -/
theorem nextLine_writeRow {fields : List (Option (List Char))} (hne : fields ≠ [])
    {eol : Option Eol} (heol : eol = none ∨ eol = some .lf) (rest : List UInt8) :
    nextLine eol (writeRow fields ++ 10 :: rest) = .row (writeRow fields) .lf rest := by
  have hcheck : checkEndOfCopy (writeRow fields) .lf rest = .row (writeRow fields) .lf rest :=
    if_neg (writeRow_ne_eocMarker hne)
  rw [nextLine, scanLine_of_clean (clean_writeRow fields) (Or.inl rfl)]
  rcases heol with rfl | rfl <;> exact hcheck

/-- Every row written in the text format is read back: its line, its fields by value and
by offset, and each field's NULL or text.  Only the marker is read as the end. -/
theorem textRow_roundTrip {fields : List (Option (List Char))} (hne : fields ≠ [])
    {eol : Option Eol} (heol : eol = none ∨ eol = some .lf) (rest : List UInt8) :
    nextLine eol (writeRow fields ++ 10 :: rest) = .row (writeRow fields) .lf rest ∧
      splitFields (writeRow fields) tab = fields.map writeField ∧
      (splitFieldOffsets (writeRow fields) tab).map (slice (writeRow fields)) =
        splitFields (writeRow fields) tab ∧
      (splitFields (writeRow fields) tab).map (readField nullString) = fields.map some ∧
      (∀ text, writeField (some text) ≠ nullString) ∧
      ∀ eol data, nextLine eol data = .endOfCopy →
        ∃ b rest, (b = 10 ∨ b = 13) ∧ data = eocMarker ++ b :: rest := by
  have hfields := splitFields_writeRow hne
  refine ⟨nextLine_writeRow hne heol rest, hfields, slice_splitFieldOffsets _ tab, ?_,
    writeField_ne_nullString, fun _ _ => nextLine_endOfCopy⟩
  calc
    (splitFields (writeRow fields) tab).map (readField nullString) =
        (fields.map writeField).map (readField nullString) := by rw [hfields]
    _ = fields.map fun field => readField nullString (writeField field) := List.map_map
    _ = fields.map some := List.map_congr_left fun field _ => readField_writeField field

/-- NULL, `\N` as a text, a text with a tab, and an empty one. -/
theorem textRow_roundTrip_variants :
    nextLine none ([92, 78, 9, 92, 92, 78, 9, 97, 92, 116, 9] ++ 10 :: [98]) =
        .row [92, 78, 9, 92, 92, 78, 9, 97, 92, 116, 9] .lf [98] ∧
      (splitFields [92, 78, 9, 92, 92, 78, 9, 97, 92, 116, 9] tab).map (readField nullString) =
        [some none, some (some ['\\', 'N']), some (some ['a', '\t']), some (some [])] := by
  have hrow : writeRow [none, some ['\\', 'N'], some ['a', '\t'], some []] =
      [92, 78, 9, 92, 92, 78, 9, 97, 92, 116, 9] := by decide
  have hread := textRow_roundTrip (List.cons_ne_nil none [some ['\\', 'N'], some ['a', '\t'],
    some []]) (Or.inl rfl) [98]
  rw [hrow] at hread
  exact ⟨hread.1, hread.2.2.2.1⟩

end DeltaX.Copy
