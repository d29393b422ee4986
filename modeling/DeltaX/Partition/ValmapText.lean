import DeltaX.Column.Typed
import DeltaX.Support.ListLookup
import Mathlib.Data.List.Sort
/-!
# The value map as text

`column_valmap` is a jsonb object.  The scan reads its text with a parser of its
own, byte by byte, and takes the byte after a backslash as it stands.  Printing and
parsing together give back a text whose characters are all printable ASCII; any
other character comes back as something else.
-/

namespace DeltaX.Partition.ValmapText

open Column Support.ListLookup

/-- A value map: for each column name the values, in bit order. -/
abbrev Valmap : Type := List (Text × List Text)

/-! ## Printing -/

def hexDigit (n : ℕ) : UInt8 := UInt8.ofNat (if n < 10 then 48 + n else 87 + n)

def shortEscape (c : Char) : Option UInt8 :=
  if c = '"' then some 34
  else if c = '\\' then some 92
  else if c = '\x08' then some 98
  else if c = '\x0c' then some 102
  else if c = '\n' then some 110
  else if c = '\r' then some 114
  else if c = '\t' then some 116
  else none

/-- One character inside a jsonb string. -/
def escapeChar (c : Char) : List UInt8 :=
  match shortEscape c with
  | some b => [92, b]
  | none =>
      if c.toNat < 32 then
        [92, 117, 48, 48, hexDigit (c.toNat / 16), hexDigit (c.toNat % 16)]
      else String.utf8EncodeChar c

def jsonbString (v : Text) : List UInt8 := 34 :: (v.flatMap escapeChar ++ [34])

/-- Items with a comma and a blank between them. -/
def separated : List (List UInt8) → List UInt8
  | [] => []
  | x :: xs => x ++ xs.flatMap fun y => 44 :: 32 :: y

def jsonbArray (values : List Text) : List UInt8 :=
  91 :: (separated (values.map jsonbString) ++ [93])

/-- A key, a colon, a blank and the array. -/
def jsonbEntry (entry : Text × List Text) : List UInt8 :=
  jsonbString entry.1 ++ 58 :: 32 :: jsonbArray entry.2

def utf8 (v : Text) : List UInt8 := v.flatMap String.utf8EncodeChar

/-- jsonb keeps its keys ordered by their length and then by their bytes. -/
def KeyLe (a b : Text × List Text) : Prop :=
  (utf8 a.1).length < (utf8 b.1).length ∨
    (utf8 a.1).length = (utf8 b.1).length ∧ utf8 a.1 ≤ utf8 b.1

instance : DecidableRel KeyLe := fun _ _ => inferInstanceAs (Decidable (_ ∨ _))

def columnValmapText (valmap : Valmap) : List UInt8 :=
  123 :: (separated ((valmap.insertionSort KeyLe).map jsonbEntry) ++ [125])

/-! ## Parsing -/

def isAsciiWhitespace (b : UInt8) : Bool :=
  b == 32 || b == 9 || b == 10 || b == 12 || b == 13

def skip (separator : UInt8) (bytes : List UInt8) : List UInt8 :=
  bytes.dropWhile fun b => isAsciiWhitespace b || b == separator

/-- The loop over a string: stops at the closing quote or at the end of the text. -/
def readString : List UInt8 → Text × List UInt8
  | [] => ([], [])
  | [b] => if b = 34 then ([], [b]) else ([Char.ofUInt8 b], [])
  | b :: c :: rest =>
      if b = 34 then ([], b :: c :: rest)
      else if b = 92 then
        let out := readString rest
        (Char.ofUInt8 c :: out.1, out.2)
      else
        let out := readString (c :: rest)
        (Char.ofUInt8 b :: out.1, out.2)

/-- The loop over an array; `none` when the parser gives up. -/
def parseValues : ℕ → List UInt8 → Option (List Text × List UInt8)
  | 0, _ => none
  | fuel + 1, bytes =>
      match skip 44 bytes with
      | [] => some ([], [])
      | b :: rest =>
          if b = 93 then some ([], b :: rest)
          else if b ≠ 34 then none
          else
            match readString rest with
            | (_, []) => none
            | (v, _ :: rest) => (parseValues fuel rest).map fun out => (v :: out.1, out.2)

/-- The loop over the object.  Every round takes at least one byte. -/
def parseEntries :
    ℕ → List UInt8 → (Text → Option (List Text)) → Text → Option (List Text)
  | 0, _, out => out
  | fuel + 1, bytes, out =>
      match skip 44 bytes with
      | [] => out
      | b :: rest =>
          if b ≠ 34 then out
          else
            match readString rest with
            | (_, []) => out
            | (key, _ :: rest) =>
                match skip 58 rest with
                | [] => out
                | b :: rest =>
                    if b ≠ 91 then out
                    else
                      match parseValues (rest.length + 1) rest with
                      | none => out
                      | some (values, rest) =>
                          parseEntries fuel (if rest.head? = some 93 then rest.tail else rest)
                            (Function.update out key (some values))

def parseValmapJson (text : List UInt8) : Text → Option (List Text) :=
  match text.dropWhile isAsciiWhitespace with
  | [] => fun _ => none
  | b :: rest =>
      if b ≠ 123 then fun _ => none else parseEntries (rest.length + 1) rest fun _ => none

def getColumnValmap (valmap : Valmap) : Text → Option (List Text) :=
  parseValmapJson (columnValmapText valmap)

/-! ## What the parser makes of a text -/

def rereadChar (c : Char) : Text := (readString (escapeChar c)).1

def reread (v : Text) : Text := v.flatMap rereadChar

/-- Characters that are read as they were written. -/
def PlainChar (c : Char) : Prop := 32 ≤ c.toNat ∧ c.toNat ≤ 127

instance : DecidablePred PlainChar := fun _ => inferInstanceAs (Decidable (_ ∧ _))

def Plain (v : Text) : Prop := ∀ c ∈ v, PlainChar c

instance : DecidablePred Plain := fun v => List.decidableBAll PlainChar v

theorem readString_cons {b : UInt8} (hquote : b ≠ 34) (hslash : b ≠ 92) (rest : List UInt8) :
    readString (b :: rest) = (Char.ofUInt8 b :: (readString rest).1, (readString rest).2) := by
  cases rest with
  | nil => simp [readString, hquote]
  | cons c rest => simp [readString, hquote, hslash]

theorem readString_escape (c : UInt8) (rest : List UInt8) :
    readString (92 :: c :: rest) = (Char.ofUInt8 c :: (readString rest).1, (readString rest).2) := by
  simp [readString]

theorem readString_quote (rest : List UInt8) : readString (34 :: rest) = ([], 34 :: rest) := by
  cases rest <;> simp [readString]

/-- Bytes that are neither a quote nor a backslash are read one by one. -/
theorem readString_append {bytes : List UInt8} (h : ∀ b ∈ bytes, b ≠ 34 ∧ b ≠ 92)
    (rest : List UInt8) :
    readString (bytes ++ rest) =
      (bytes.map Char.ofUInt8 ++ (readString rest).1, (readString rest).2) := by
  induction bytes with
  | nil => rfl
  | cons b bytes ih =>
      have hb := h b List.mem_cons_self
      have htail := ih fun c hc => h c (List.mem_cons_of_mem _ hc)
      rw [List.cons_append, readString_cons hb.1 hb.2, htail]
      simp

theorem ofNat_ne {n : ℕ} (hn : n < 256) (hquote : n ≠ 34) (hslash : n ≠ 92) :
    UInt8.ofNat n ≠ 34 ∧ UInt8.ofNat n ≠ 92 := by
  have htoNat : (UInt8.ofNat n).toNat = n := by
    rw [UInt8.toNat_ofNat', Nat.mod_eq_of_lt hn]
  constructor
  · intro h
    rw [h] at htoNat
    exact hquote htoNat.symm
  · intro h
    rw [h] at htoNat
    exact hslash htoNat.symm

theorem hexDigit_ne {n : ℕ} (hn : n < 16) : hexDigit n ≠ 34 ∧ hexDigit n ≠ 92 := by
  unfold hexDigit
  split <;> exact ofNat_ne (by omega) (by omega) (by omega)

theorem utf8EncodeChar_ne {c : Char} (hquote : c ≠ '"') (hslash : c ≠ '\\') :
    ∀ b ∈ String.utf8EncodeChar c, b ≠ 34 ∧ b ≠ 92 := by
  have hq : c.val.toNat ≠ 34 := by
    intro h
    exact hquote (Char.ext (UInt32.toNat_inj.mp h))
  have hs : c.val.toNat ≠ 92 := by
    intro h
    exact hslash (Char.ext (UInt32.toNat_inj.mp h))
  intro b hb
  simp only [String.utf8EncodeChar] at hb
  -- an ASCII character is its own byte; every other byte has its top bit set
  split_ifs at hb <;> simp only [List.mem_cons, List.not_mem_nil, or_false] at hb
  · rw [hb]
    exact ofNat_ne (by omega) hq hs
  · rcases hb with rfl | rfl <;> exact ofNat_ne (by omega) (by omega) (by omega)
  · rcases hb with rfl | rfl | rfl <;> exact ofNat_ne (by omega) (by omega) (by omega)
  · rcases hb with rfl | rfl | rfl | rfl <;> exact ofNat_ne (by omega) (by omega) (by omega)

theorem escapeChar_cases (c : Char) :
    (∃ x bytes, escapeChar c = 92 :: x :: bytes ∧ ∀ b ∈ bytes, b ≠ 34 ∧ b ≠ 92) ∨
      ∀ b ∈ escapeChar c, b ≠ 34 ∧ b ≠ 92 := by
  unfold escapeChar
  cases hshort : shortEscape c with
  | some b => exact .inl ⟨b, [], rfl, by simp⟩
  | none =>
      have hquote : c ≠ '"' := by
        rintro rfl
        exact absurd hshort (by decide)
      have hslash : c ≠ '\\' := by
        rintro rfl
        exact absurd hshort (by decide)
      by_cases hctl : c.toNat < 32
      · simp only [hctl, if_true]
        refine .inl ⟨117, _, rfl, ?_⟩
        have hhigh : c.toNat / 16 < 16 := by omega
        have hlow : c.toNat % 16 < 16 := by omega
        intro b hmem
        simp only [List.mem_cons, List.not_mem_nil, or_false] at hmem
        rcases hmem with rfl | rfl | rfl | rfl
        · decide
        · decide
        · exact hexDigit_ne hhigh
        · exact hexDigit_ne hlow
      · simp only [hctl, if_false]
        exact .inr (utf8EncodeChar_ne hquote hslash)

theorem readString_escapeChar (c : Char) (rest : List UInt8) :
    readString (escapeChar c ++ rest) =
      (rereadChar c ++ (readString rest).1, (readString rest).2) := by
  unfold rereadChar
  obtain ⟨x, bytes, heq, hne⟩ | hne := escapeChar_cases c
  · have hnil := readString_append hne []
    rw [List.append_nil] at hnil
    rw [heq, List.cons_append, List.cons_append, readString_escape, readString_escape,
      readString_append hne, hnil]
    simp [readString]
  · have hnil := readString_append hne []
    rw [List.append_nil] at hnil
    rw [readString_append hne, hnil]
    simp [readString]

/-- Reading a printed string gives what `reread` says, up to the closing quote. -/
theorem readString_flatMap (v : Text) (rest : List UInt8) :
    readString (v.flatMap escapeChar ++ 34 :: rest) = (reread v, 34 :: rest) := by
  induction v with
  | nil => exact readString_quote rest
  | cons c v ih =>
      rw [List.flatMap_cons, List.append_assoc, readString_escapeChar, ih]
      rfl

theorem utf8EncodeChar_of_plain {c : Char} (h : PlainChar c) :
    String.utf8EncodeChar c = [UInt8.ofNat c.toNat] := by
  have hle : c.val.toNat ≤ 127 := h.2
  simp only [String.utf8EncodeChar, hle, if_true]
  rfl

theorem rereadChar_of_plain {c : Char} (h : PlainChar c) : rereadChar c = [c] := by
  by_cases hquote : c = '"'
  · subst hquote
    decide
  by_cases hslash : c = '\\'
  · subst hslash
    decide
  have hctl : ∀ d : Char, d.toNat < 32 → c ≠ d := by
    rintro d hd rfl
    exact absurd h.1 (by omega)
  have hshort : shortEscape c = none := by
    rw [shortEscape, if_neg hquote, if_neg hslash, if_neg (hctl _ (by decide)),
      if_neg (hctl _ (by decide)), if_neg (hctl _ (by decide)), if_neg (hctl _ (by decide)),
      if_neg (hctl _ (by decide))]
  have hesc : escapeChar c = String.utf8EncodeChar c := by
    have hge := h.1
    rw [escapeChar, hshort]
    exact if_neg (by omega)
  have hread := readString_append (utf8EncodeChar_ne hquote hslash) []
  rw [List.append_nil, ← hesc] at hread
  rw [rereadChar, hread, hesc, utf8EncodeChar_of_plain h]
  have hlt : c.toNat < 2 ^ 8 := by
    have := h.2
    omega
  have hbyte : Char.ofUInt8 (UInt8.ofNat c.toNat) = c := by
    apply Char.ext
    apply UInt32.toNat_inj.mp
    change (UInt8.ofNat c.toNat).toUInt32.toNat = c.toNat
    rw [UInt8.toNat_toUInt32, UInt8.toNat_ofNat', Nat.mod_eq_of_lt hlt]
  simp [readString, hbyte]

theorem reread_of_plain {v : Text} (h : Plain v) : reread v = v := by
  induction v with
  | nil => rfl
  | cons c v ih =>
      have hc := rereadChar_of_plain (h c List.mem_cons_self)
      have hv := ih fun d hd => h d (List.mem_cons_of_mem _ hd)
      rw [reread, List.flatMap_cons, hc, ← reread, hv, List.singleton_append]

/-! ## Reading a printed map -/

theorem skip_separator (separator : UInt8) (rest : List UInt8) :
    skip separator (separator :: 32 :: rest) = skip separator rest := by
  simp [skip, isAsciiWhitespace]

theorem skip_quote {separator : UInt8} (h : separator ≠ 34) (rest : List UInt8) :
    skip separator (34 :: rest) = 34 :: rest := by
  have hne : (34 == separator) = false := by simpa using h.symm
  simp [skip, isAsciiWhitespace, hne]

theorem skip_separated {items : List (List UInt8)} {rest : List UInt8} :
    skip 44 (separated items ++ rest) =
      skip 44 ((items.flatMap fun y => 44 :: 32 :: y) ++ rest) := by
  cases items with
  | nil => rfl
  | cons x xs => simp [separated, skip_separator]

theorem jsonbString_append (v : Text) (rest : List UInt8) :
    jsonbString v ++ rest = 34 :: (v.flatMap escapeChar ++ 34 :: rest) := by
  simp [jsonbString]

theorem parseValues_congr (fuel : ℕ) {a b : List UInt8} (h : skip 44 a = skip 44 b) :
    parseValues fuel a = parseValues fuel b := by
  cases fuel with
  | zero => rfl
  | succ fuel => simp only [parseValues, h]

theorem parseValues_array (fuel : ℕ) (values : List Text) (rest : List UInt8)
    (hfuel : values.length < fuel) :
    parseValues fuel (separated (values.map jsonbString) ++ 93 :: rest) =
      some (values.map reread, 93 :: rest) := by
  rw [parseValues_congr fuel skip_separated]
  induction values generalizing fuel with
  | nil =>
      obtain ⟨fuel, rfl⟩ := Nat.exists_eq_succ_of_ne_zero (Nat.ne_of_gt hfuel)
      simp [parseValues, skip, isAsciiWhitespace]
  | cons v values ih =>
      obtain ⟨fuel, rfl⟩ := Nat.exists_eq_succ_of_ne_zero (Nat.ne_zero_of_lt hfuel)
      have htail := ih fuel (by simpa using hfuel)
      rw [List.map_cons, List.flatMap_cons, List.append_assoc, List.cons_append, List.cons_append,
        jsonbString_append, parseValues, skip_separator, skip_quote (by decide)]
      simp [readString_flatMap, htail]

/-- The map as the loop leaves it: a later entry replaces an earlier one. -/
def readEntries (out : Text → Option (List Text)) (entries : Valmap) :
    Text → Option (List Text) :=
  updateAll (fun e => reread e.1) (fun e => e.2.map reread) out entries

theorem parseEntries_congr (fuel : ℕ) {a b : List UInt8} (h : skip 44 a = skip 44 b)
    (out : Text → Option (List Text)) : parseEntries fuel a out = parseEntries fuel b out := by
  cases fuel with
  | zero => rfl
  | succ fuel => simp only [parseEntries, h]

theorem length_le_separated {items : List (List UInt8)} (h : ∀ x ∈ items, 0 < x.length) :
    items.length ≤ (separated items).length := by
  cases items with
  | nil => exact Nat.zero_le _
  | cons x xs =>
      have hx := h x List.mem_cons_self
      have hxs : xs.length ≤ (xs.flatMap fun y => (44 : UInt8) :: 32 :: y).length := by
        clear h
        induction xs with
        | nil => exact Nat.zero_le _
        | cons y ys ih =>
            simp only [List.flatMap_cons, List.length_append, List.length_cons]
            omega
      simp only [separated, List.length_append, List.length_cons]
      omega

theorem parseEntries_object (fuel : ℕ) (entries : Valmap) (out : Text → Option (List Text))
    (hfuel : entries.length < fuel) :
    parseEntries fuel (separated (entries.map jsonbEntry) ++ [125]) out =
      readEntries out entries := by
  rw [parseEntries_congr fuel skip_separated]
  induction entries generalizing fuel out with
  | nil =>
      obtain ⟨fuel, rfl⟩ := Nat.exists_eq_succ_of_ne_zero (Nat.ne_of_gt hfuel)
      simp [parseEntries, readEntries, updateAll, skip, isAsciiWhitespace]
  | cons e entries ih =>
      obtain ⟨fuel, rfl⟩ := Nat.exists_eq_succ_of_ne_zero (Nat.ne_zero_of_lt hfuel)
      have htail := ih fuel (Function.update out (reread e.1) (some (e.2.map reread)))
        (by simpa using hfuel)
      set tail := ((entries.map jsonbEntry).flatMap fun y => (44 : UInt8) :: 32 :: y) ++ [125]
        with hdef
      have hentry : jsonbEntry e ++ tail =
          34 :: (e.1.flatMap escapeChar ++ 34 :: 58 :: 32 :: 91 ::
            (separated (e.2.map jsonbString) ++ 93 :: tail)) := by
        simp [jsonbEntry, jsonbString, jsonbArray]
      have hcolon : ∀ rest : List UInt8, skip 58 (58 :: 32 :: 91 :: rest) = 91 :: rest := by
        intro rest
        simp [skip, isAsciiWhitespace]
      have hpos : ∀ x ∈ e.2.map jsonbString, 0 < x.length := by simp [jsonbString]
      have hvalues := parseValues_array
        ((separated (e.2.map jsonbString) ++ 93 :: tail).length + 1) e.2 tail
        (by
          have hlen := length_le_separated hpos
          simp only [List.length_append, List.length_map] at hlen ⊢
          omega)
      rw [List.map_cons, List.flatMap_cons, List.append_assoc, ← hdef, List.cons_append,
        List.cons_append, hentry, parseEntries, skip_separator, skip_quote (by decide)]
      simp only [ne_eq, not_true_eq_false, if_false, readString_flatMap, hcolon, hvalues,
        List.head?_cons, if_true, List.tail_cons, htail]
      rfl

theorem getColumnValmap_eq (valmap : Valmap) :
    getColumnValmap valmap = readEntries (fun _ => none) (valmap.insertionSort KeyLe) := by
  have hbrace : (columnValmapText valmap).dropWhile isAsciiWhitespace = columnValmapText valmap := by
    simp [columnValmapText, isAsciiWhitespace]
  rw [getColumnValmap, parseValmapJson, hbrace]
  simp only [columnValmapText, ne_eq, not_true_eq_false, if_false]
  apply parseEntries_object
  have hpos : ∀ x ∈ (valmap.insertionSort KeyLe).map jsonbEntry, 0 < x.length := by
    intro x hx
    obtain ⟨e, -, rfl⟩ := List.mem_map.mp hx
    simp [jsonbEntry, jsonbString]
  have hlen := length_le_separated hpos
  simp only [List.length_append, List.length_map] at hlen ⊢
  omega

/-- What is read for a name was written under a name that reads like it. -/
theorem exists_of_getColumnValmap {valmap : Valmap} {name : Text} {values : List Text}
    (h : getColumnValmap valmap name = some values) :
    ∃ e ∈ valmap, reread e.1 = name ∧ e.2.map reread = values := by
  rw [getColumnValmap_eq] at h
  obtain hnone | ⟨e, he, hread⟩ := exists_of_updateAll h
  · cases hnone
  · exact ⟨e, (List.mem_insertionSort KeyLe).mp he, hread⟩

/-- A map of printable ASCII names and values is read back as it was written. -/
theorem getColumnValmap_of_plain {valmap : Valmap} (hnodup : (valmap.map Prod.fst).Nodup)
    (hplain : ∀ e ∈ valmap, Plain e.1 ∧ ∀ v ∈ e.2, Plain v) {name : Text} {values : List Text}
    (h : (name, values) ∈ valmap) : getColumnValmap valmap name = some values := by
  have hperm := List.perm_insertionSort KeyLe valmap
  have hkeys : ((valmap.insertionSort KeyLe).map fun e => reread e.1).Nodup := by
    rw [(hperm.map _).nodup_iff, List.map_congr_left fun e he => reread_of_plain (hplain e he).1]
    exact hnodup
  have hread : getColumnValmap valmap (reread name) = some (values.map reread) := by
    rw [getColumnValmap_eq]
    exact updateAll_of_mem hkeys (hperm.mem_iff.mpr h)
  have hname : reread name = name := reread_of_plain (hplain _ h).1
  have hvalues : values.map reread = values := by
    rw [List.map_congr_left fun v hv => reread_of_plain ((hplain _ h).2 v hv), List.map_id']
  rwa [hname, hvalues] at hread

end DeltaX.Partition.ValmapText
