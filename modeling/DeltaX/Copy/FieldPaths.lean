import DeltaX.Column.Collect
import DeltaX.Copy.FieldParsers
/-!
# The two paths of a COPY field

`parse_raw_field_and_append` reads a field from its escaped bytes, `parse_and_append`
from the text that `unescape_field_always` makes of them.
-/

namespace DeltaX.Copy.FieldPaths

open Column Column.TimestampParse Column.TimestampRoundTrip Support.Utf8 Support.IeeeOrder
  FieldParsers

/-! ## Errors -/

inductive Message
  | text (message : Text)
  /-- `invalid boolean: {:?}`, with the text before it is quoted. -/
  | invalidBoolean (s : Text)
deriving DecidableEq

structure ParseError where
  message : Message
  column : ℕ
  line : ℕ
deriving DecidableEq

/-- How an append ends that does not end well. -/
inductive Stop
  | parse (e : ParseError)
  | panic (message : Text)
  /-- `parse_timestamp_to_usec` leaves the text it slices. -/
  | timestamp (s : Text)
  /-- An error of `jsonb_in`. -/
  | jsonb (message : Text)
  /-- `from_utf8_unchecked` on bytes that are not UTF-8. -/
  | undefined
deriving DecidableEq

/-- The outcome of an append, and the column behind it. -/
abbrev Effect : Type := Except Stop Unit × TypedColumn

/-- An append that stops leaves the column alone. -/
def append (column : TypedColumn) : Except Stop Stored → Effect
  | .ok v => (.ok (), column.push (some v))
  | .error stop => (.error stop, column)

def pushNull (column : TypedColumn) : Effect := (.ok (), column.push none)

/-! ## Values -/

/-- `unescape_field_always`.  Bytes without an escape are not checked. -/
def unescapeAlways (raw : List UInt8) : Except Stop Text :=
  match unescapeFieldAlways raw with
  | some s => .ok s
  | none =>
      if 92 ∈ raw then
        .error (.panic "pg_deltax: invalid UTF-8 after unescaping COPY field".toList)
      else .error .undefined

section

variable (jsonbTextToBinary : Text → Except Text (List (BitVec 8))) (colIdx lineNumber : ℕ)

/-- `map_err`. -/
def orParseError {ε α : Type} (message : ε → Message) (parsed : Except ε α) : Except Stop α :=
  parsed.mapError fun e => .parse ⟨message e, colIdx, lineNumber⟩

/-- `format!("invalid {name}: {e}")`. -/
def invalid (name : String) (e : Text) : Message :=
  .text ("invalid ".toList ++ name.toList ++ ": ".toList ++ e)

def parseInteger (name : String) (w : ℕ) (s : Text) : Except Stop (BitVec w) :=
  (orParseError colIdx lineNumber (fun e => invalid name e.text) (parseSigned w s)).map
    (BitVec.ofInt w)

/-- The value of the text of a field.  Both functions convert the text of a kind alike. -/
def parseValue (kind : ColumnKind) (s : Text) : Except Stop Stored :=
  let orError {α : Type} : Except Text α → Except Stop α := orParseError colIdx lineNumber .text
  match kind with
  | .int16 => (parseInteger colIdx lineNumber "int2" 16 s).map .int16
  | .int32 => (parseInteger colIdx lineNumber "int4" 32 s).map .int32
  | .int64 => (parseInteger colIdx lineNumber "int8" 64 s).map .int64
  | .float32 =>
      (orParseError colIdx lineNumber (invalid "float4") (parseFloatField binary32 s)).map .float32
  | .float64 =>
      (orParseError colIdx lineNumber (invalid "float8") (parseFloatField binary64 s)).map .float64
  | .bool =>
      match parseBool s with
      | some v => .ok (.bool v)
      | none => .error (.parse ⟨.invalidBoolean s, colIdx, lineNumber⟩)
  | .timestamp | .timestamptz | .date =>
      match parseTimestampToUsec s with
      | some usec => .ok (.int64 (BitVec.ofInt 64 usec))
      | none => .error (.timestamp s)
  | .time => (orError (parseTimeToUsec s)).map fun usec => .int64 (BitVec.ofInt 64 usec)
  | .text => .ok (.text s)
  | .jsonb => ((jsonbTextToBinary s).mapError .jsonb).map .bytes
  | .uuid => (orError (parseUuidBytes s)).map .bytes
  | .bytea => (orError (parseByteaBytes s)).map .bytes
  | .inet => (orError (parseInetBytes s)).map .bytes

/-! ## The paths -/

/-- The `Jsonb` arm of the path from the bytes.  A worker thread keeps the text. -/
def appendJsonb (s : Text) (column : TypedColumn) : Effect :=
  match column with
  | .bytes _ => append column (parseValue jsonbTextToBinary colIdx lineNumber .jsonb s)
  | .text _ => append column (.ok (.text s))
  | _ => (.ok (), column)

def parseStrAndAppend (s : Text) (kind : ColumnKind) (column : TypedColumn) : Effect :=
  match kind with
  | .jsonb => appendJsonb jsonbTextToBinary colIdx lineNumber s column
  | _ => append column (parseValue jsonbTextToBinary colIdx lineNumber kind s)

def parseRawFieldAndAppend (raw nullString : List UInt8) (kind : ColumnKind)
    (column : TypedColumn) : Effect :=
  if raw = nullString then pushNull column
  else match kind with
    | .text => append column ((unescapeAlways raw).map .text)
    | .jsonb =>
        match unescapeAlways raw with
        | .ok s => appendJsonb jsonbTextToBinary colIdx lineNumber s column
        | .error stop => (.error stop, column)
    | _ =>
        if 92 ∈ raw then
          match unescapeAlways raw with
          | .ok s => parseStrAndAppend jsonbTextToBinary colIdx lineNumber s kind column
          | .error stop => (.error stop, column)
        else
          match fromUtf8 raw with
          | some s => parseStrAndAppend jsonbTextToBinary colIdx lineNumber s kind column
          | none =>
              (.error (.panic ("pg_deltax: invalid UTF-8 in COPY field at line ".toList ++
                (toString lineNumber).toList)), column)

def parseAndAppend (field : Option Text) (kind : ColumnKind) (column : TypedColumn) : Effect :=
  match field with
  | none => pushNull column
  | some s => append column (parseValue jsonbTextToBinary colIdx lineNumber kind s)

/-- The NULL test, `unescape_field_always` and `parse_and_append` in sequence. -/
def unescapeThenParse (raw nullString : List UInt8) (kind : ColumnKind) (column : TypedColumn) :
    Effect :=
  if raw = nullString then parseAndAppend jsonbTextToBinary colIdx lineNumber none kind column
  else
    match unescapeAlways raw with
    | .ok s => parseAndAppend jsonbTextToBinary colIdx lineNumber (some s) kind column
    | .error stop => (.error stop, column)

end

/-! ## Columns a field is appended to -/

/-- The kinds a stored value can be a value of. -/
def represents : Stored → ColumnKind → Bool
  | .text _, .text => true
  | .bytes _, .jsonb | .bytes _, .uuid | .bytes _, .bytea | .bytes _, .inet => true
  | .int16 _, .int16 => true
  | .int32 _, .int32 => true
  | .int64 _, .int64 => true
  | .int64 _, .timestamp | .int64 _, .timestamptz | .int64 _, .date | .int64 _, .time => true
  | .float32 _, .float32 => true
  | .float64 _, .float64 => true
  | .bool _, .bool => true
  | _, _ => false

/-- A column of `new_typed_column` or of `new_worker_typed_column`, with what was appended. -/
structure FieldColumn (kind : ColumnKind) where
  column : TypedColumn
  fits : column.hasKind kind = true ∨ (kind = .jsonb ∧ ∃ texts, column = .text texts)

theorem cells_pushNull (column : TypedColumn) :
    (column.push none).cells = column.cells ++ [none] := by
  cases column <;> simp [TypedColumn.push, TypedColumn.cells]

theorem cells_push_of_represents {column : TypedColumn} {kind : ColumnKind} {v : Stored}
    (hcolumn : column.hasKind kind = true) (hv : represents v kind = true) :
    (column.push (some v)).cells = column.cells ++ [some v] := by
  cases v <;> cases kind <;> cases hv <;> cases column <;> cases hcolumn <;>
    simp [TypedColumn.push, TypedColumn.cells]

theorem map_eq_ok {ε α β : Type} {f : α → β} {parsed : Except ε α} {b : β}
    (h : parsed.map f = .ok b) : ∃ a, parsed = .ok a ∧ f a = b := by
  cases parsed with
  | ok a => exact ⟨a, rfl, Except.ok.inj h⟩
  | error e => exact absurd h (by simp [Except.map])

section

variable {jsonbTextToBinary : Text → Except Text (List (BitVec 8))} {colIdx lineNumber : ℕ}

theorem represents_of_parseValue {kind : ColumnKind} {s : Text} {v : Stored}
    (h : parseValue jsonbTextToBinary colIdx lineNumber kind s = .ok v) :
    represents v kind = true := by
  cases kind
  case text =>
    rw [← Except.ok.inj h]
    rfl
  case bool =>
    simp only [parseValue] at h
    split at h
    · rw [← Except.ok.inj h]
      rfl
    · cases h
  case timestamp | timestamptz | date =>
    simp only [parseValue] at h
    split at h
    · rw [← Except.ok.inj h]
      rfl
    · cases h
  all_goals
    obtain ⟨a, -, rfl⟩ := map_eq_ok h
    rfl

/-- The text of a field is read with a defined outcome. -/
theorem parseValue_ne_undefined (kind : ColumnKind) (s : Text) :
    parseValue jsonbTextToBinary colIdx lineNumber kind s ≠ .error .undefined := by
  have hparse : ∀ {ε α β : Type} (message : ε → Message) (parsed : Except ε α) (f : α → β),
      (orParseError colIdx lineNumber message parsed).map f ≠ .error .undefined := by
    intro ε α β message parsed f
    cases parsed <;> simp [orParseError, Except.mapError, Except.map]
  cases kind
  case bool =>
    simp only [parseValue]
    split <;> simp
  case timestamp | timestamptz | date =>
    simp only [parseValue]
    split <;> simp
  case text => simp [parseValue]
  case jsonb =>
    simp only [parseValue]
    cases jsonbTextToBinary s <;> simp [Except.mapError, Except.map]
  case int16 | int32 | int64 =>
    simp only [parseValue, parseInteger]
    cases parseSigned _ s <;> simp [orParseError, Except.mapError, Except.map]
  all_goals exact hparse _ _ _

/-! ## What the paths do with a text -/

/-- On success the column has one value more, and an error leaves it as it was. -/
def AppendsOne (column : TypedColumn) : Effect → Prop
  | (.ok (), after) => ∃ cell, after = column.push cell ∧ after.cells = column.cells ++ [cell]
  | (.error stop, after) => stop ≠ .undefined ∧ after = column

theorem appendsOne_parseValue {kind : ColumnKind} {column : TypedColumn}
    (hkind : column.hasKind kind = true) (s : Text) :
    AppendsOne column
      (append column (parseValue jsonbTextToBinary colIdx lineNumber kind s)) := by
  have hdefined : parseValue jsonbTextToBinary colIdx lineNumber kind s ≠ .error .undefined :=
    parseValue_ne_undefined kind s
  cases hvalue : parseValue jsonbTextToBinary colIdx lineNumber kind s with
  | ok v =>
      have hrep := represents_of_parseValue hvalue
      exact ⟨some v, rfl, cells_push_of_represents hkind hrep⟩
  | error stop =>
      rw [hvalue] at hdefined
      exact ⟨fun hstop => hdefined (by rw [hstop]), rfl⟩

theorem appendsOne_pushNull (column : TypedColumn) : AppendsOne column (pushNull column) :=
  ⟨none, rfl, cells_pushNull column⟩

/-- A text goes through the same conversion on both paths, into a column of its kind. -/
theorem parseStrAndAppend_of_hasKind {kind : ColumnKind} {column : TypedColumn}
    (hkind : column.hasKind kind = true) (s : Text) :
    parseStrAndAppend jsonbTextToBinary colIdx lineNumber s kind column =
      append column (parseValue jsonbTextToBinary colIdx lineNumber kind s) := by
  cases kind <;> try rfl
  cases column <;> cases hkind
  rfl

/-! ## Reading the bytes -/

/-- The bytes of the field are UTF-8 once its escapes are read. -/
def Readable (raw : List UInt8) : Prop := (fromUtf8 (unescapeBytes raw)).isSome = true

theorem unescapeFieldAlways_eq (raw : List UInt8) :
    unescapeFieldAlways raw = fromUtf8 (unescapeBytes raw) := by
  unfold unescapeFieldAlways
  split_ifs with hescape
  · rfl
  · have hplain := unescapeBytes_plain (fun b hb => ne_of_mem_of_not_mem hb hescape) []
    rw [List.append_nil, unescapeBytes, List.append_nil] at hplain
    rw [hplain]

theorem readable_iff {raw : List UInt8} :
    Readable raw ↔ ∃ s, unescapeAlways raw = .ok s := by
  rw [Readable, ← unescapeFieldAlways_eq, Option.isSome_iff_exists, unescapeAlways]
  cases unescapeFieldAlways raw with
  | some s => simp
  | none => by_cases hescape : 92 ∈ raw <;> simp [hescape]

theorem unescapeAlways_of_not_readable {raw : List UInt8} (h : ¬ Readable raw) :
    unescapeAlways raw = .error (if 92 ∈ raw then
      .panic "pg_deltax: invalid UTF-8 after unescaping COPY field".toList else .undefined) := by
  rw [Readable, ← unescapeFieldAlways_eq, Bool.not_eq_true, Option.isSome_eq_false_iff,
    Option.isNone_iff_eq_none] at h
  rw [unescapeAlways, h]
  split_ifs <;> rfl

theorem parseRaw_of_readable {raw nullString : List UInt8} (hnull : raw ≠ nullString) {s : Text}
    (hread : unescapeAlways raw = .ok s) (kind : ColumnKind) (column : TypedColumn) :
    parseRawFieldAndAppend jsonbTextToBinary colIdx lineNumber raw nullString kind column =
      parseStrAndAppend jsonbTextToBinary colIdx lineNumber s kind column := by
  have hraw : 92 ∉ raw → fromUtf8 raw = some s := by
    intro hplain
    unfold unescapeAlways unescapeFieldAlways at hread
    rw [if_neg hplain, if_neg hplain] at hread
    cases hutf8 : fromUtf8 raw with
    | some t =>
        rw [hutf8] at hread
        rw [Except.ok.inj hread]
    | none => simp [hutf8] at hread
  unfold parseRawFieldAndAppend
  rw [if_neg hnull]
  by_cases hescape : 92 ∈ raw
  · cases kind <;> simp only [hread, if_pos hescape] <;> rfl
  · cases kind <;> simp only [hread, if_neg hescape, hraw hescape] <;> rfl

theorem unescapeThenParse_of_readable {raw nullString : List UInt8} (hnull : raw ≠ nullString)
    {s : Text} (hread : unescapeAlways raw = .ok s) (kind : ColumnKind) (column : TypedColumn) :
    unescapeThenParse jsonbTextToBinary colIdx lineNumber raw nullString kind column =
      append column (parseValue jsonbTextToBinary colIdx lineNumber kind s) := by
  rw [unescapeThenParse, if_neg hnull, hread]
  rfl

/-- An escaped field that is not UTF-8 panics on both paths. -/
theorem parseRaw_of_escaped {raw nullString : List UInt8} (hnull : raw ≠ nullString)
    (hescape : 92 ∈ raw) {stop : Stop} (hread : unescapeAlways raw = .error stop)
    (kind : ColumnKind) (column : TypedColumn) :
    parseRawFieldAndAppend jsonbTextToBinary colIdx lineNumber raw nullString kind column =
      (.error stop, column) := by
  unfold parseRawFieldAndAppend
  rw [if_neg hnull]
  cases kind
  case text =>
    simp only [hread]
    rfl
  all_goals simp only [hread, if_pos hescape]

theorem unescapeThenParse_of_error {raw nullString : List UInt8} (hnull : raw ≠ nullString)
    {stop : Stop} (hread : unescapeAlways raw = .error stop) (kind : ColumnKind)
    (column : TypedColumn) :
    unescapeThenParse jsonbTextToBinary colIdx lineNumber raw nullString kind column =
      (.error stop, column) := by
  rw [unescapeThenParse, if_neg hnull, hread]

/-! ## Agreement -/

/-- Both paths have the one effect, and it appends one value or none. -/
structure Agree (column : TypedColumn) (fast slow : Effect) : Prop where
  same : fast = slow
  fast_appends : AppendsOne column fast
  slow_appends : AppendsOne column slow

/-- A worker's column of JSON texts takes no value from `parse_and_append`. -/
theorem append_jsonb_text (texts : List (Option Text)) (s : Text) :
    (append (.text texts) (parseValue jsonbTextToBinary colIdx lineNumber .jsonb s)).2 =
      .text texts := by
  simp only [parseValue]
  cases jsonbTextToBinary s <;> rfl

end

/-- The paths agree on NULL, on the texts that go into a column of their kind, and on the
escaped fields that both refuse. -/
theorem agree_iff (jsonbTextToBinary : Text → Except Text (List (BitVec 8)))
    (raw nullString : List UInt8) (kind : ColumnKind) (target : FieldColumn kind)
    (colIdx lineNumber : ℕ) :
    Agree target.column
        (parseRawFieldAndAppend jsonbTextToBinary colIdx lineNumber raw nullString kind
          target.column)
        (unescapeThenParse jsonbTextToBinary colIdx lineNumber raw nullString kind
          target.column) ↔
      raw = nullString ∨ (Readable raw ∧ target.column.hasKind kind = true) ∨
        (¬ Readable raw ∧ 92 ∈ raw) := by
  obtain ⟨column, hfits⟩ := target
  show Agree column _ _ ↔ _ ∨ (_ ∧ column.hasKind kind = true) ∨ _
  by_cases hnull : raw = nullString
  · have hfast : parseRawFieldAndAppend jsonbTextToBinary colIdx lineNumber raw nullString kind
        column = pushNull column := if_pos hnull
    have hslow : unescapeThenParse jsonbTextToBinary colIdx lineNumber raw nullString kind
        column = pushNull column := if_pos hnull
    rw [hfast, hslow]
    have happ := appendsOne_pushNull column
    exact iff_of_true ⟨rfl, happ, happ⟩ (Or.inl hnull)
  by_cases hreadable : Readable raw
  · obtain ⟨s, hread⟩ := readable_iff.mp hreadable
    rw [parseRaw_of_readable hnull hread, unescapeThenParse_of_readable hnull hread]
    by_cases hkind : column.hasKind kind = true
    · rw [parseStrAndAppend_of_hasKind hkind]
      have happ : AppendsOne column
          (append column (parseValue jsonbTextToBinary colIdx lineNumber kind s)) :=
        appendsOne_parseValue hkind s
      exact iff_of_true ⟨rfl, happ, happ⟩ (Or.inr (Or.inl ⟨hreadable, hkind⟩))
    · -- the text of a worker's JSON column is kept by one path and dropped by the other
      have hworker := hfits.resolve_left hkind
      obtain ⟨rfl, texts, rfl⟩ := hworker
      apply iff_of_false
      · intro hagree
        have hcolumn : TypedColumn.text (texts ++ [some s]) = .text texts := by
          calc TypedColumn.text (texts ++ [some s])
              = (parseStrAndAppend jsonbTextToBinary colIdx lineNumber s .jsonb
                  (.text texts)).2 := rfl
            _ = _ := by rw [hagree.same]
            _ = .text texts := append_jsonb_text texts s
        have hlen := congrArg List.length (TypedColumn.text.inj hcolumn)
        simp at hlen
      · tauto
  · have hread := unescapeAlways_of_not_readable hreadable
    by_cases hescape : 92 ∈ raw
    · rw [if_pos hescape] at hread
      rw [parseRaw_of_escaped hnull hescape hread, unescapeThenParse_of_error hnull hread]
      have happ : AppendsOne column (.error (.panic
          "pg_deltax: invalid UTF-8 after unescaping COPY field".toList), column) :=
        ⟨by simp, rfl⟩
      exact iff_of_true ⟨rfl, happ, happ⟩ (Or.inr (Or.inr ⟨hreadable, hescape⟩))
    · rw [if_neg hescape] at hread
      rw [unescapeThenParse_of_error hnull hread]
      apply iff_of_false
      · intro hagree
        exact hagree.slow_appends.1 rfl
      · tauto

/-- The byte 255 as a `bytea` field: the path from the bytes panics, the other one takes
them for UTF-8. -/
theorem not_agree_byte_255 :
    ¬ Agree (.bytes [])
      (parseRawFieldAndAppend (fun _ => .error []) 0 1 [255] nullString .bytea (.bytes []))
      (unescapeThenParse (fun _ => .error []) 0 1 [255] nullString .bytea (.bytes [])) := by
  intro hagree
  have hread : unescapeAlways [255] = .error .undefined := by decide
  have hslow : unescapeThenParse (fun _ => .error []) 0 1 [255] nullString .bytea (.bytes []) =
      (.error .undefined, .bytes []) := unescapeThenParse_of_error (by decide) hread _ _
  have happends := hagree.slow_appends
  rw [hslow] at happends
  exact happends.1 rfl

end DeltaX.Copy.FieldPaths
