import DeltaX.Column.Timeparse
import DeltaX.Support.Utf8
/-!
# Replacement templates of `regexp_replace`

PostgreSQL writes a group reference `\1`, the regex crate `$1`.  The parallel scan converts a
template from the one notation to the other, byte by byte, and lets the crate expand it.
-/

namespace DeltaX.Agg.ReplacementTemplate

open Column Column.Timeparse Support.Utf8

/-! ## The conversion -/

/-- A byte read as the character with this number. -/
def latin1 (b : UInt8) : Char := Char.ofNat b.toNat

/-- `convert_pg_replacement` from a byte on. -/
def convertBytes : List UInt8 → Text
  | [] => []
  | [b] => [latin1 b]
  | 92 :: next :: rest =>
      if 48 ≤ next ∧ next ≤ 57 then '$' :: latin1 next :: convertBytes rest
      else if next = 38 then '$' :: '0' :: convertBytes rest
      else if next = 92 then '\\' :: convertBytes rest
      else '\\' :: convertBytes (next :: rest)
  | b :: next :: rest => latin1 b :: convertBytes (next :: rest)

def convertPgReplacement (replacement : Text) : Text := convertBytes (utf8Bytes replacement)

/-! ## The two expansions

`group` gives the text of each captured group; group `0` is the whole match.
-/

def pgExpand (group : ℕ → Option Text) : Text → Text
  | [] => []
  | [c] => [c]
  | '\\' :: c :: rest =>
      if '1' ≤ c ∧ c ≤ '9' then (group (c.toNat - 48)).getD [] ++ pgExpand group rest
      else if c = '&' then (group 0).getD [] ++ pgExpand group rest
      else if c = '\\' then '\\' :: pgExpand group rest
      else '\\' :: pgExpand group (c :: rest)
  | d :: c :: rest => d :: pgExpand group (c :: rest)

def isNameChar (c : Char) : Bool := c.isAlphanum || c = '_'

/-- The name that stands behind a `$`, and how many characters it takes there. -/
def capRef : Text → Option (Text × ℕ)
  | '{' :: rest =>
      if '}' ∈ rest then some (rest.takeWhile (· ≠ '}'), (rest.takeWhile (· ≠ '}')).length + 2)
      else none
  | rest =>
      if rest.takeWhile isNameChar = [] then none
      else some (rest.takeWhile isNameChar, (rest.takeWhile isNameChar).length)

/-- `str::parse::<usize>`. -/
def parseUsize (name : Text) : Option ℕ :=
  let digits := if name.head? = some '+' then name.tail else name
  if digits ≠ [] ∧ digits.all Char.isDigit ∧ number digits < 2 ^ 64 then some (number digits)
  else none

/-- The text of a group by its name; a pattern of PostgreSQL names its groups by numbers only. -/
def named (group : ℕ → Option Text) (name : Text) : Text := ((parseUsize name).bind group).getD []

/-- The expansion by the regex crate, with the next characters to pass over. -/
def expandFrom (group : ℕ → Option Text) : ℕ → Text → Text
  | _, [] => []
  | skip + 1, _ :: rest => expandFrom group skip rest
  | 0, '$' :: rest =>
      if rest.head? = some '$' then '$' :: expandFrom group 1 rest
      else match capRef rest with
        | some (name, taken) => named group name ++ expandFrom group taken rest
        | none => '$' :: expandFrom group 0 rest
  | 0, c :: rest => c :: expandFrom group 0 rest

/-- The expansion of a template by the regex crate. -/
def expand (group : ℕ → Option Text) (template : Text) : Text := expandFrom group 0 template

/-! ## The pieces of a template -/

/-- A piece of a template as PostgreSQL reads it.  `\0` is no reference there. -/
inductive Piece
  | char (c : Char)
  | group (k : Fin 10)
  | zero
deriving DecidableEq, Repr

def pieces : Text → List Piece
  | [] => []
  | [c] => [.char c]
  | '\\' :: c :: rest =>
      if c = '0' then .zero :: pieces rest
      else if '1' ≤ c ∧ c ≤ '9' then .group (Fin.ofNat 10 (c.toNat - 48)) :: pieces rest
      else if c = '&' then .group 0 :: pieces rest
      else if c = '\\' then .char '\\' :: pieces rest
      else .char '\\' :: pieces (c :: rest)
  | d :: c :: rest => .char d :: pieces (c :: rest)

def Piece.expanded (group : ℕ → Option Text) : Piece → Text
  | .char c => [c]
  | .group k => (group k).getD []
  | .zero => ['\\', '0']

def Piece.converted : Piece → Text
  | .char c => (String.utf8EncodeChar c).map latin1
  | .group k => ['$', Nat.digitChar k]
  | .zero => ['$', '0']

/-! A digit is the character of a number below ten. -/

theorem exists_digitChar {c : Char} (hlow : '0' ≤ c) (hhigh : c ≤ '9') :
    ∃ k : Fin 10, c = Nat.digitChar k := by
  have hlow' : 48 ≤ c.toNat := hlow
  have hhigh' : c.toNat ≤ 57 := hhigh
  refine ⟨⟨c.toNat - 48, by omega⟩, ?_⟩
  apply Char.toNat_inj.mp
  rw [Nat.toNat_digitChar_of_lt_ten (show c.toNat - 48 < 10 by omega)]
  omega

theorem ofNat_digitChar : ∀ k : Fin 10, Fin.ofNat 10 ((Nat.digitChar k).toNat - 48) = k := by
  decide

theorem utf8EncodeChar_digitChar :
    ∀ k : Fin 10, String.utf8EncodeChar (Nat.digitChar k) = [48 + UInt8.ofNat k] := by
  decide

theorem digit_byte : ∀ k : Fin 10, 48 ≤ 48 + UInt8.ofNat k ∧ 48 + UInt8.ofNat k ≤ 57 := by
  decide

theorem isDigit_digitChar : ∀ k : Fin 10, (Nat.digitChar k).isDigit = true := by
  decide

theorem isNameChar_digitChar : ∀ k : Fin 10, isNameChar (Nat.digitChar k) = true := by
  decide

theorem named_digitChar (group : ℕ → Option Text) :
    ∀ k : Fin 10, named group [Nat.digitChar k] = (group k).getD [] := by
  have hparse : ∀ k : Fin 10, parseUsize [Nat.digitChar k] = some (k : ℕ) := by decide
  intro k
  rw [named, hparse]
  rfl

theorem latin1_digit : ∀ k : Fin 10, latin1 (48 + UInt8.ofNat k) = Nat.digitChar k := by
  decide

theorem pgExpand_cons (group : ℕ → Option Text) {c : Char} (hc : c ≠ '\\') (rest : Text) :
    pgExpand group (c :: rest) = c :: pgExpand group rest := by
  cases rest with
  | nil => rfl
  | cons d rest =>
      rw [pgExpand]
      exact hc

theorem pgExpand_eq (group : ℕ → Option Text) (t : Text) :
    pgExpand group t = (pieces t).flatMap (Piece.expanded group) := by
  fun_induction pieces t with
  | case1 => rfl
  | case2 c => rfl
  | case3 rest ih =>
      have hzero : pgExpand group ('0' :: rest) = '0' :: pgExpand group rest :=
        pgExpand_cons group (by decide) rest
      rw [pgExpand, if_neg (by decide), if_neg (by decide), if_neg (by decide), hzero, ih]
      rfl
  | case4 c rest hzero hdigit ih =>
      have hvalue : c.toNat - 48 = (Fin.ofNat 10 (c.toNat - 48) : ℕ) := by
        have hhigh : c.toNat ≤ 57 := hdigit.2
        exact (Nat.mod_eq_of_lt (by omega)).symm
      rw [pgExpand, if_pos hdigit, ih, List.flatMap_cons, Piece.expanded, ← hvalue]
  | case5 rest hzero hdigit ih =>
      rw [pgExpand, if_neg hdigit, if_pos rfl, ih]
      rfl
  | case6 rest hzero hdigit hamp ih =>
      rw [pgExpand, if_neg hdigit, if_neg hamp, if_pos rfl, ih]
      rfl
  | case7 c rest hzero hdigit hamp hback ih =>
      rw [pgExpand, if_neg hdigit, if_neg hamp, if_neg hback, ih]
      rfl
  | case8 d c rest hd ih =>
      rw [pgExpand, ih]
      · rfl
      · exact hd

theorem convertBytes_append {word : List UInt8} (hword : 92 ∉ word) (rest : List UInt8) :
    convertBytes (word ++ rest) = word.map latin1 ++ convertBytes rest := by
  induction word with
  | nil => rfl
  | cons b word ih =>
      have hb : b ≠ 92 := fun h => hword (h ▸ List.mem_cons_self)
      have hone : ∀ x, convertBytes (b :: x) = latin1 b :: convertBytes x := by
        intro x
        cases x with
        | nil => rfl
        | cons next x =>
            rw [convertBytes]
            exact hb
      rw [List.cons_append, hone, ih fun h => hword (List.mem_cons_of_mem b h)]
      rfl

theorem not_mem_utf8EncodeChar {c d : Char} {b : UInt8} (hd : d.toNat = b.toNat)
    (hlt : b.toNat < 128) (hne : c ≠ d) : b ∉ String.utf8EncodeChar c := by
  intro hb
  have hcode : c.toNat = d.toNat := (toNat_eq_of_mem hb hlt).trans hd.symm
  exact hne (Char.toNat_inj.mp hcode)

theorem convertBytes_utf8EncodeChar {c : Char} (hc : c ≠ '\\') (rest : List UInt8) :
    convertBytes (String.utf8EncodeChar c ++ rest) =
      (String.utf8EncodeChar c).map latin1 ++ convertBytes rest :=
  convertBytes_append (not_mem_utf8EncodeChar (d := '\\') rfl (by decide) hc) rest

/-- A backslash before a character that it does not escape is kept. -/
theorem convertBytes_stray {c : Char} (hdigit : ¬ ('0' ≤ c ∧ c ≤ '9')) (hamp : c ≠ '&')
    (hback : c ≠ '\\') (rest : List UInt8) :
    convertBytes (92 :: (String.utf8EncodeChar c ++ rest)) =
      '\\' :: convertBytes (String.utf8EncodeChar c ++ rest) := by
  obtain ⟨b, tail, hword⟩ := List.exists_cons_of_ne_nil (utf8EncodeChar_ne_nil c)
  have hmem : b ∈ String.utf8EncodeChar c := by
    rw [hword]
    exact List.mem_cons_self
  have hnumber : ¬ (48 ≤ b ∧ b ≤ 57) := by
    rintro ⟨hlow, hhigh⟩
    have hlow' : 48 ≤ b.toNat := UInt8.le_iff_toNat_le.mp hlow
    have hhigh' : b.toNat ≤ 57 := UInt8.le_iff_toNat_le.mp hhigh
    have hcode : c.toNat = b.toNat := toNat_eq_of_mem hmem (by omega)
    apply hdigit
    constructor
    · show 48 ≤ c.toNat
      omega
    · show c.toNat ≤ 57
      omega
  have hb_amp : b ≠ 38 := fun h =>
    not_mem_utf8EncodeChar (d := '&') rfl (by decide) hamp (h ▸ hmem)
  have hb_back : b ≠ 92 := fun h =>
    not_mem_utf8EncodeChar (d := '\\') rfl (by decide) hback (h ▸ hmem)
  rw [hword, List.cons_append, convertBytes, if_neg hnumber, if_neg hb_amp, if_neg hb_back]

theorem convertPgReplacement_eq (t : Text) :
    convertPgReplacement t = (pieces t).flatMap Piece.converted := by
  unfold convertPgReplacement
  have hback : String.utf8EncodeChar '\\' = [92] := by decide
  fun_induction pieces t with
  | case1 => rfl
  | case2 c =>
      by_cases hc : c = '\\'
      · subst hc
        rw [utf8Bytes_cons, hback]
        rfl
      · rw [utf8Bytes_cons, convertBytes_utf8EncodeChar hc]
        rfl
  | case3 rest ih =>
      have hzero : String.utf8EncodeChar '0' = [48] := by decide
      rw [utf8Bytes_cons, utf8Bytes_cons, hback, hzero]
      show convertBytes (92 :: 48 :: utf8Bytes rest) = _
      rw [convertBytes, if_pos (by decide), ih]
      rfl
  | case4 c rest hzero hdigit ih =>
      obtain ⟨k, rfl⟩ := exists_digitChar (le_trans (by decide) hdigit.1) hdigit.2
      rw [utf8Bytes_cons, utf8Bytes_cons, hback, utf8EncodeChar_digitChar]
      show convertBytes (92 :: (48 + UInt8.ofNat k) :: utf8Bytes rest) = _
      rw [convertBytes, if_pos (digit_byte k), latin1_digit, ofNat_digitChar, ih]
      rfl
  | case5 rest hzero hdigit ih =>
      have hamp : String.utf8EncodeChar '&' = [38] := by decide
      rw [utf8Bytes_cons, utf8Bytes_cons, hback, hamp]
      show convertBytes (92 :: 38 :: utf8Bytes rest) = _
      rw [convertBytes, if_neg (by decide), if_pos rfl, ih]
      rfl
  | case6 rest hzero hdigit hamp ih =>
      rw [utf8Bytes_cons, utf8Bytes_cons, hback]
      show convertBytes (92 :: 92 :: utf8Bytes rest) = _
      rw [convertBytes, if_neg (by decide), if_neg (by decide), if_pos rfl, ih]
      rfl
  | case7 c rest hzero hdigit hamp hne ih =>
      have hnumber : ¬ ('0' ≤ c ∧ c ≤ '9') := by
        rintro ⟨hlow, hhigh⟩
        have hlow' : '1' ≤ c := Nat.lt_of_le_of_ne hlow fun h => hzero (Char.toNat_inj.mp h.symm)
        exact hdigit ⟨hlow', hhigh⟩
      rw [utf8Bytes_cons, utf8Bytes_cons, hback]
      show convertBytes (92 :: (String.utf8EncodeChar c ++ utf8Bytes rest)) = _
      rw [convertBytes_stray hnumber hamp hne, ← utf8Bytes_cons, ih]
      rfl
  | case8 d c rest hd ih =>
      have hne : d ≠ '\\' := hd
      rw [utf8Bytes_cons, convertBytes_utf8EncodeChar hne, ih]
      rfl

/-! ## Templates that keep their meaning -/

def nameFollows : List Piece → Bool
  | .char c :: _ => isNameChar c
  | _ => false

/-- What follows a `$` makes it more than a dollar sign. -/
def markFollows : List Piece → Bool
  | [] => false
  | .char c :: rest => c = '$' || isNameChar c || c = '{' && rest.contains (.char '}')
  | _ :: _ => true

/-- Every character is ASCII, no reference is followed by a character of a name, `\0` does not
occur, and every `$` is only a dollar sign. -/
def keepsMeaning : List Piece → Bool
  | [] => true
  | .char c :: rest => c.toNat < 128 && !(c = '$' && markFollows rest) && keepsMeaning rest
  | .group _ :: rest => !nameFollows rest && keepsMeaning rest
  | .zero :: _ => false

/-! ## Steps of the expansion -/

section Expand

variable (group : ℕ → Option Text)

theorem expandFrom_eq (skip : ℕ) (text : Text) :
    expandFrom group skip text = expand group (text.drop skip) := by
  induction skip generalizing text with
  | zero => rfl
  | succ skip ih =>
      cases text with
      | nil => rfl
      | cons c text => exact ih text

theorem expand_cons {c : Char} (hc : c ≠ '$') (rest : Text) :
    expand group (c :: rest) = c :: expand group rest := by
  rw [expand, expandFrom]
  · rfl
  · exact hc

theorem expand_append {word : Text} (hword : '$' ∉ word) (rest : Text) :
    expand group (word ++ rest) = word ++ expand group rest := by
  induction word with
  | nil => rfl
  | cons c word ih =>
      have hc : c ≠ '$' := fun h => hword (h ▸ List.mem_cons_self)
      rw [List.cons_append, expand_cons group hc, ih fun h => hword (List.mem_cons_of_mem c h)]
      rfl

theorem expand_dollar_dollar (rest : Text) :
    expand group ('$' :: '$' :: rest) = '$' :: expand group rest := by
  have hhead : ('$' :: rest).head? = some '$' := rfl
  rw [expand, expandFrom, if_pos hhead]
  exact congrArg ('$' :: ·) (expandFrom_eq group 1 ('$' :: rest))

theorem expand_capRef {rest name : Text} {taken : ℕ} (hdollar : rest.head? ≠ some '$')
    (href : capRef rest = some (name, taken)) :
    expand group ('$' :: rest) = named group name ++ expand group (rest.drop taken) := by
  rw [expand, expandFrom, if_neg hdollar, href]
  exact congrArg (named group name ++ ·) (expandFrom_eq group taken rest)

theorem expand_dollar {rest : Text} (hdollar : rest.head? ≠ some '$')
    (href : capRef rest = none) : expand group ('$' :: rest) = '$' :: expand group rest := by
  rw [expand, expandFrom, if_neg hdollar, href]
  rfl

end Expand

/-! ## Converted pieces -/

abbrev converted (ps : List Piece) : Text := ps.flatMap Piece.converted

theorem converted_char {c : Char} (hc : c.toNat < 128) : (Piece.char c).converted = [c] := by
  have hbyte : (UInt8.ofNat c.toNat).toNat = c.toNat := UInt8.toNat_ofNat_of_lt' (show c.toNat < 256 by omega)
  rw [Piece.converted, utf8EncodeChar_of_lt hc, List.map_singleton, latin1, hbyte,
    Char.ofNat_toNat]

theorem latin1_toNat (b : UInt8) : (latin1 b).toNat = b.toNat := by
  have hlt : b.toNat < 256 := b.toNat_lt
  have hvalid : b.toNat.isValidChar := Or.inl (by omega)
  rw [latin1, Char.ofNat, dif_pos hvalid]
  rfl

/-- The characters that the bytes of a wide character are read as are not ASCII either. -/
theorem wide_of_mem_converted {c d : Char} (hc : 128 ≤ c.toNat)
    (hd : d ∈ (Piece.char c).converted) : 128 ≤ d.toNat := by
  obtain ⟨b, hb, rfl⟩ := List.mem_map.mp hd
  rw [latin1_toNat]
  by_contra hlt
  have hcode := toNat_eq_of_mem hb (by omega)
  omega

theorem isNameChar_lt {c : Char} (h : isNameChar c = true) : c.toNat < 128 := by
  have hdef : isNameChar c = (((decide (65 ≤ c.val ∧ c.val ≤ 90) ||
      (decide (97 ≤ c.val) && decide (c.val ≤ 122))) ||
      (decide (48 ≤ c.val) && decide (c.val ≤ 57))) || decide (c = '_')) := rfl
  rw [hdef] at h
  simp only [Bool.or_eq_true, Bool.and_eq_true, decide_eq_true_eq, UInt32.le_iff_toNat_le] at h
  change ((((65 ≤ c.toNat ∧ c.toNat ≤ 90) ∨ (97 ≤ c.toNat ∧ c.toNat ≤ 122)) ∨
    (48 ≤ c.toNat ∧ c.toNat ≤ 57)) ∨ c = '_') at h
  rcases h with h | rfl
  · omega
  · decide

theorem converted_names {names : Text} (hnames : ∀ c ∈ names, isNameChar c = true) :
    converted (names.map .char) = names := by
  induction names with
  | nil => rfl
  | cons c names ih =>
      rw [converted, List.map_cons, List.flatMap_cons,
        converted_char (isNameChar_lt (hnames c List.mem_cons_self)),
        ← converted, ih fun d hd => hnames d (List.mem_cons_of_mem c hd)]
      rfl

theorem head_converted {ps : List Piece} {d : Char} {rest : Text}
    (h : converted ps = d :: rest) :
    (∃ ps', ps = .char d :: ps' ∧ rest = converted ps') ∨ 128 ≤ d.toNat ∨
      d = '$' ∧ markFollows ps = true ∧ nameFollows ps = false := by
  cases ps with
  | nil => cases h
  | cons p ps =>
      cases p with
      | char c =>
          by_cases hc : c.toNat < 128
          · rw [converted, List.flatMap_cons, converted_char hc] at h
            obtain ⟨rfl, rfl⟩ := List.cons.inj h
            exact Or.inl ⟨ps, rfl, rfl⟩
          · have hmem : d ∈ (Piece.char c).converted := by
              obtain ⟨b, tail, hword⟩ := List.exists_cons_of_ne_nil (utf8EncodeChar_ne_nil c)
              rw [converted, List.flatMap_cons, Piece.converted, hword] at h
              rw [Piece.converted, hword, ← (List.cons.inj h).1]
              exact List.mem_cons_self
            exact Or.inr (Or.inl (wide_of_mem_converted (by omega) hmem))
      | group k => exact Or.inr (Or.inr ⟨(List.cons.inj h).1.symm, rfl, rfl⟩)
      | zero => exact Or.inr (Or.inr ⟨(List.cons.inj h).1.symm, rfl, rfl⟩)

/-- Behind the name no character of it follows. -/
theorem takeWhile_names {names : Text} (hnames : ∀ c ∈ names, isNameChar c = true)
    {ps : List Piece} (hps : nameFollows ps = false) :
    (names ++ converted ps).takeWhile isNameChar = names := by
  rw [List.takeWhile_append_of_pos hnames]
  have hnone : (converted ps).takeWhile isNameChar = [] := by
    cases hconv : converted ps with
    | nil => rfl
    | cons d rest =>
        apply List.takeWhile_cons_of_neg
        intro hd
        rcases head_converted hconv with ⟨ps', rfl, _⟩ | hwide | ⟨rfl, _⟩
        · exact Bool.false_ne_true (hps.symm.trans hd)
        · exact absurd (isNameChar_lt hd) (by omega)
        · exact absurd hd (by decide)
  rw [hnone, List.append_nil]

theorem exists_names (ps : List Piece) :
    ∃ (names : Text) (rest : List Piece), ps = names.map .char ++ rest ∧
      (∀ c ∈ names, isNameChar c = true) ∧ nameFollows rest = false := by
  induction ps with
  | nil => exact ⟨[], [], rfl, by simp, rfl⟩
  | cons p ps ih =>
      by_cases hp : nameFollows (p :: ps) = true
      · cases p with
        | char c =>
            obtain ⟨names, rest, rfl, hnames, hrest⟩ := ih
            exact ⟨c :: names, rest, rfl, List.forall_mem_cons.mpr ⟨hp, hnames⟩, hrest⟩
        | group k => exact absurd hp (by simp [nameFollows])
        | zero => exact absurd hp (by simp [nameFollows])
      · exact ⟨[], p :: ps, rfl, by simp, by simpa using hp⟩

theorem capRef_eq {rest : Text} (hbrace : ∀ more, rest ≠ '{' :: more) :
    capRef rest = if rest.takeWhile isNameChar = [] then none
      else some (rest.takeWhile isNameChar, (rest.takeWhile isNameChar).length) := by
  rw [capRef]
  exact hbrace

theorem expand_name (group : ℕ → Option Text) {names : Text} (hne : names ≠ [])
    (hnames : ∀ c ∈ names, isNameChar c = true) {ps : List Piece} (hps : nameFollows ps = false) :
    expand group ('$' :: (names ++ converted ps)) =
      named group names ++ expand group (converted ps) := by
  obtain ⟨c, names, rfl⟩ := List.exists_cons_of_ne_nil hne
  have hc : isNameChar c = true := hnames c List.mem_cons_self
  have hrun : (c :: names ++ converted ps).takeWhile isNameChar = c :: names :=
    takeWhile_names hnames hps
  have hbrace : ∀ more, c :: names ++ converted ps ≠ '{' :: more := by
    intro more h
    rw [(List.cons.inj h).1] at hc
    exact absurd hc (by decide)
  have href : capRef (c :: names ++ converted ps) = some (c :: names, (c :: names).length) := by
    rw [capRef_eq hbrace, hrun, if_neg (List.cons_ne_nil c names)]
  rw [expand_capRef group _ href, List.drop_left]
  show some c ≠ some '$'
  intro h
  rw [Option.some.inj h] at hc
  exact absurd hc (by decide)

theorem char_mem_of_mem_converted {ps : List Piece} {d : Char} (hd : d ∈ converted ps)
    (hlt : d.toNat < 128) (hdollar : d ≠ '$') (hdigit : d.isDigit = false) : .char d ∈ ps := by
  obtain ⟨p, hp, hmem⟩ := List.mem_flatMap.mp hd
  cases p with
  | char c =>
      by_cases hc : c.toNat < 128
      · rw [converted_char hc, List.mem_singleton] at hmem
        rwa [hmem]
      · exact absurd (wide_of_mem_converted (by omega) hmem) (by omega)
  | group k =>
      rcases List.mem_cons.mp hmem with h | h
      · exact absurd h hdollar
      · rw [List.mem_singleton.mp h, isDigit_digitChar] at hdigit
        cases hdigit
  | zero =>
      rcases List.mem_cons.mp hmem with h | h
      · exact absurd h hdollar
      · rw [List.mem_singleton.mp h] at hdigit
        cases hdigit

/-- A `$` before a brace that is closed is expanded to the group of the name in between. -/
theorem expand_brace (group : ℕ → Option Text) {mid ps : List Piece} (hmid : .char '}' ∉ mid) :
    expand group (converted (.char '$' :: .char '{' :: (mid ++ .char '}' :: ps))) =
      named group (converted mid) ++ expand group (converted ps) := by
  have hnone : '}' ∉ converted mid := fun h =>
    hmid (char_mem_of_mem_converted h (by decide) (by decide) rfl)
  have hconv : converted (.char '$' :: .char '{' :: (mid ++ .char '}' :: ps)) =
      '$' :: '{' :: (converted mid ++ '}' :: converted ps) := by
    simp [converted, converted_char (show '$'.toNat < 128 by decide),
      converted_char (show '{'.toNat < 128 by decide),
      converted_char (show '}'.toNat < 128 by decide)]
  have hrun : (converted mid ++ '}' :: converted ps).takeWhile (· ≠ '}') = converted mid := by
    rw [List.takeWhile_append_of_pos]
    · simp
    · intro c hc
      exact decide_eq_true fun h => hnone (h ▸ hc)
  have href : capRef ('{' :: (converted mid ++ '}' :: converted ps)) =
      some (converted mid, (converted mid).length + 2) := by
    rw [capRef, if_pos (by simp), hrun]
  have hdrop : ('{' :: (converted mid ++ '}' :: converted ps)).drop ((converted mid).length + 2) =
      converted ps := by
    rw [List.drop_succ_cons, List.drop_length_add_append]
    rfl
  rw [hconv, expand_capRef group (by simp) href, hdrop]

/-- A `$` before anything else is a dollar sign. -/
theorem expand_sign (group : ℕ → Option Text) {ps : List Piece} (hps : markFollows ps = false) :
    expand group ('$' :: converted ps) = '$' :: expand group (converted ps) := by
  have hhead : ∀ d rest, converted ps = d :: rest → d ≠ '$' ∧ isNameChar d = false := by
    intro d rest hconv
    rcases head_converted hconv with ⟨ps', rfl, _⟩ | hwide | ⟨_, hmark, _⟩
    · simp only [markFollows, Bool.or_eq_false_iff, decide_eq_false_iff_not] at hps
      exact hps.1
    · constructor
      · rintro rfl
        exact absurd hwide (by decide)
      · by_contra hname
        exact absurd (isNameChar_lt (by simpa using hname)) (by omega)
    · exact absurd (hps.symm.trans hmark) Bool.false_ne_true
  have hdollar : (converted ps).head? ≠ some '$' := by
    intro h
    obtain ⟨rest, hconv⟩ := List.head?_eq_some_iff.mp h
    exact (hhead _ _ hconv).1 rfl
  apply expand_dollar group hdollar
  by_cases hbrace : ∃ more, converted ps = '{' :: more
  · obtain ⟨more, hconv⟩ := hbrace
    have hnone : '}' ∉ more := by
      rcases head_converted hconv with ⟨ps', rfl, rfl⟩ | hwide | ⟨h, _⟩
      · intro hmem
        have hchar := char_mem_of_mem_converted hmem (by decide) (by decide) rfl
        simp [markFollows, hchar] at hps
      · exact absurd hwide (by decide)
      · exact absurd h (by decide)
    rw [hconv, capRef, if_neg hnone]
  · rw [capRef_eq fun more h => hbrace ⟨more, h⟩, if_pos]
    cases hconv : converted ps with
    | nil => rfl
    | cons d rest =>
        apply List.takeWhile_cons_of_neg
        simp [(hhead d rest hconv).2]

theorem expand_converted (group : ℕ → Option Text) {ps : List Piece}
    (hps : keepsMeaning ps = true) :
    expand group (converted ps) = ps.flatMap (Piece.expanded group) := by
  induction ps with
  | nil => rfl
  | cons p ps ih =>
      cases p with
      | char c =>
          simp only [keepsMeaning, Bool.and_eq_true, decide_eq_true_eq, Bool.not_eq_true'] at hps
          obtain ⟨⟨hc, hsign⟩, hrest⟩ := hps
          rw [converted, List.flatMap_cons, converted_char hc, ← converted, List.flatMap_cons,
            ← ih hrest]
          by_cases hdollar : c = '$'
          · subst hdollar
            exact expand_sign group (by simpa using hsign)
          · exact expand_cons group hdollar (converted ps)
      | group k =>
          simp only [keepsMeaning, Bool.and_eq_true, Bool.not_eq_true'] at hps
          have hname := expand_name group (List.cons_ne_nil (Nat.digitChar k) [])
            (fun c hc => by rw [List.mem_singleton.mp hc, isNameChar_digitChar]) hps.1
          rw [ih hps.2, named_digitChar] at hname
          exact hname
      | zero => cases hps

/-! ## Templates that lose it

Every group has captured one ASCII letter.  A reading of the converted template that is not the
one PostgreSQL has of the template itself shows in the number of ASCII characters of the result,
in the number of the others, or in a digit where a group should be.
-/

def letterGroups (i : ℕ) : Option Text := if i < 10 then some ['x'] else none

abbrev letters (ps : List Piece) : Text := ps.flatMap (Piece.expanded letterGroups)

def isAscii (c : Char) : Bool := c.toNat < 128

/-- How many characters of a text are ASCII. -/
abbrev narrow (t : Text) : ℕ := t.countP isAscii

abbrev wide (t : Text) : ℕ := t.countP fun c => !isAscii c

/-- How the converted pieces come to be expanded. -/
inductive Reading : List Piece → Text → Prop
  | nil : Reading [] []
  | same {p : Piece} {ps : List Piece} {out : Text}
      (hascii : ∀ c ∈ p.expanded letterGroups, isAscii c = true)
      (hkeep : keepsMeaning ps = true → keepsMeaning (p :: ps) = true) (h : Reading ps out) :
      Reading (p :: ps) (p.expanded letterGroups ++ out)
  | widened {c : Char} {ps : List Piece} {out : Text} (hc : 128 ≤ c.toNat) (h : Reading ps out) :
      Reading (.char c :: ps) ((Piece.char c).converted ++ out)
  | swapped {k : Fin 10} {ps : List Piece} {out : Text} (h : Reading ps out) :
      Reading (.char '$' :: .group k :: ps) ('$' :: Nat.digitChar k :: out)
  | lost {ps ps' : List Piece} {lead out : Text}
      (hlt : lead.length + narrow (letters ps') < narrow (letters ps)) (h : Reading ps' out) :
      Reading ps (lead ++ out)

theorem length_named_letterGroups (name : Text) : (named letterGroups name).length ≤ 1 := by
  unfold named
  cases parseUsize name with
  | none => simp
  | some i =>
      show ((letterGroups i).getD []).length ≤ 1
      unfold letterGroups
      split
      · simp
      · simp

theorem narrow_char {c : Char} (hc : c.toNat < 128) (ps : List Piece) :
    narrow (letters (.char c :: ps)) = narrow (letters ps) + 1 :=
  List.countP_cons_of_pos (decide_eq_true hc)

theorem narrow_names {names : Text} (hnames : ∀ c ∈ names, isNameChar c = true)
    (ps : List Piece) :
    narrow (letters (names.map .char ++ ps)) = names.length + narrow (letters ps) := by
  induction names with
  | nil => simp
  | cons c names ih =>
      have hc := isNameChar_lt (hnames c List.mem_cons_self)
      have hrest := ih fun d hd => hnames d (List.mem_cons_of_mem c hd)
      have hcons := narrow_char hc (names.map .char ++ ps)
      rw [List.map_cons, List.cons_append, hcons, hrest, List.length_cons]
      omega

theorem letters_group (k : Fin 10) (ps : List Piece) :
    letters (.group k :: ps) = 'x' :: letters ps := by
  rw [letters, List.flatMap_cons, Piece.expanded, letterGroups, if_pos k.isLt]
  rfl

theorem narrow_group (k : Fin 10) (ps : List Piece) :
    narrow (letters (.group k :: ps)) = narrow (letters ps) + 1 := by
  rw [letters_group]
  exact List.countP_cons_of_pos (by decide)

theorem narrow_zero (ps : List Piece) :
    narrow (letters (.zero :: ps)) = narrow (letters ps) + 2 := by
  have hback := List.countP_cons_of_pos (p := isAscii) (l := '0' :: letters ps)
    (show isAscii '\\' = true by decide)
  have hzero := List.countP_cons_of_pos (p := isAscii) (l := letters ps)
    (show isAscii '0' = true by decide)
  show narrow ('\\' :: '0' :: letters ps) = _
  rw [narrow, hback, hzero]

theorem narrow_append (ps qs : List Piece) :
    narrow (letters (ps ++ qs)) = narrow (letters ps) + narrow (letters qs) := by
  rw [letters, List.flatMap_append, narrow, List.countP_append]

theorem wide_eq_zero {t : Text} (ht : ∀ c ∈ t, isAscii c = true) : wide t = 0 :=
  List.countP_eq_zero.mpr fun c hc => by simp [ht c hc]

theorem two_le_wide_converted {c : Char} (hc : 128 ≤ c.toNat) :
    narrow (Piece.char c).converted = 0 ∧ 2 ≤ wide (Piece.char c).converted := by
  have hall : ∀ d ∈ (Piece.char c).converted, isAscii d = false := by
    intro d hd
    have hwide := wide_of_mem_converted hc hd
    exact decide_eq_false (by omega)
  have hlen : 2 ≤ (Piece.char c).converted.length := by
    have hsize : ¬ c.utf8Size = 1 := by
      rw [Char.utf8Size_eq_one_iff]
      intro hle
      have hle' : c.toNat ≤ 127 := hle
      omega
    have hpos := c.utf8Size_pos
    rw [Piece.converted, List.length_map, String.length_utf8EncodeChar]
    omega
  constructor
  · exact List.countP_eq_zero.mpr fun d hd => by simp [hall d hd]
  · rw [wide, List.countP_eq_length.mpr fun d hd => by simp [hall d hd]]
    exact hlen

/-- The expansion never has more ASCII characters than it should, and where it has as many, all
wide characters of the template have become two or more. -/
theorem Reading.counts {ps : List Piece} {out : Text} (h : Reading ps out) :
    narrow out ≤ narrow (letters ps) ∧
      (narrow out = narrow (letters ps) → 2 * wide (letters ps) ≤ wide out) := by
  induction h with
  | nil => simp
  | @same p ps out hascii _ _ ih =>
      have hwide := wide_eq_zero hascii
      simp only [letters, List.flatMap_cons, narrow, wide, List.countP_append] at ih hwide ⊢
      omega
  | @widened c ps out hc _ ih =>
      obtain ⟨hnarrow, hwide⟩ := two_le_wide_converted hc
      have hascii : isAscii c = false := decide_eq_false (by omega)
      have hletters : letters (.char c :: ps) = c :: letters ps := rfl
      rw [hletters]
      simp only [narrow, wide, List.countP_append, List.countP_cons, hascii] at ih hnarrow hwide ⊢
      simp only [Bool.false_eq_true, if_false, Bool.not_false, if_true]
      omega
  | @swapped k ps out _ ih =>
      have hdigit : isAscii (Nat.digitChar k) = true :=
        decide_eq_true (isNameChar_lt (isNameChar_digitChar k))
      have hdollar : isAscii '$' = true := by decide
      have hletter : isAscii 'x' = true := by decide
      have hletters : letters (.char '$' :: .group k :: ps) = '$' :: 'x' :: letters ps :=
        congrArg ('$' :: ·) (letters_group k ps)
      rw [hletters]
      simp only [narrow, wide, List.countP_cons, hdigit, hdollar, hletter] at ih ⊢
      simp only [Bool.not_true, Bool.false_eq_true, if_false, if_true]
      omega
  | @lost ps ps' lead out hlt _ ih =>
      have hlead : narrow lead ≤ lead.length := List.countP_le_length
      simp only [narrow, wide, List.countP_append] at ih hlt hlead ⊢
      omega

theorem Reading.keepsMeaning {ps : List Piece} {out : Text} (h : Reading ps out)
    (heq : out = letters ps) : keepsMeaning ps = true := by
  induction h with
  | nil => rfl
  | @same p ps out _ hkeep _ ih =>
      exact hkeep (ih (List.append_cancel_left heq))
  | @widened c ps out hc h _ =>
      have hcounts := (Reading.widened hc h).counts.2 (congrArg narrow heq)
      have hone : wide (letters (.char c :: ps)) = wide (letters ps) + 1 :=
        List.countP_cons_of_pos (by simpa [isAscii] using hc)
      rw [heq] at hcounts
      omega
  | @swapped k ps out _ ih =>
      -- the reference has become a digit
      have hletters : letters (.char '$' :: .group k :: ps) = '$' :: 'x' :: letters ps :=
        congrArg ('$' :: ·) (letters_group k ps)
      rw [hletters] at heq
      have hdigit := isDigit_digitChar k
      rw [(List.cons.inj (List.cons.inj heq).2).1] at hdigit
      cases hdigit
  | @lost ps ps' lead out hlt h ih =>
      have hlead : narrow lead ≤ lead.length := List.countP_le_length
      have hcounts := h.counts.1
      have hsum : narrow lead + narrow out = narrow (letters ps) := by
        rw [← heq, narrow, narrow, narrow, List.countP_append]
      omega

/-- A group reference by a name. -/
theorem reading_named {names : Text} (hne : names ≠ [])
    (hnames : ∀ c ∈ names, isNameChar c = true) {ps ps' : List Piece} {n : ℕ}
    (hps : nameFollows ps' = false) (hn : narrow (letters ps) = n + narrow (letters ps'))
    (hlt : 1 < n) (h : Reading ps' (expand letterGroups (converted ps'))) :
    Reading ps (expand letterGroups ('$' :: (names ++ converted ps'))) := by
  have hlen := length_named_letterGroups names
  rw [expand_name letterGroups hne hnames hps]
  exact .lost (by omega) h

theorem converted_names_append {names : Text} (hnames : ∀ c ∈ names, isNameChar c = true)
    (ps : List Piece) : converted (names.map .char ++ ps) = names ++ converted ps := by
  rw [converted, List.flatMap_append]
  exact congrArg (· ++ converted ps) (converted_names hnames)

theorem converted_cons_char {c : Char} (hc : c.toNat < 128) (ps : List Piece) :
    converted (.char c :: ps) = c :: converted ps := by
  rw [converted, List.flatMap_cons, converted_char hc]
  rfl

theorem reading_mark {ps : List Piece} (hmark : markFollows ps = true)
    (ih : ∀ qs : List Piece, qs.length < ps.length →
      Reading qs (expand letterGroups (converted qs))) :
    Reading (.char '$' :: ps) (expand letterGroups ('$' :: converted ps)) := by
  have hdollar := narrow_char (show '$'.toNat < 128 by decide)
  cases ps with
  | nil => cases hmark
  | cons p ps =>
      have hrest : Reading ps (expand letterGroups (converted ps)) := ih ps (Nat.lt_succ_self _)
      cases p with
      | group k =>
          have hdigit : Nat.digitChar k ≠ '$' := by
            intro h
            have hname := isNameChar_digitChar k
            rw [h] at hname
            cases hname
          show Reading _ (expand letterGroups ('$' :: '$' :: Nat.digitChar k :: converted ps))
          rw [expand_dollar_dollar, expand_cons letterGroups hdigit]
          exact .swapped hrest
      | zero =>
          have hzero := narrow_zero ps
          show Reading _ (expand letterGroups ('$' :: '$' :: '0' :: converted ps))
          rw [expand_dollar_dollar, expand_cons letterGroups (by decide)]
          apply @Reading.lost _ _ ['$', '0'] _ _ hrest
          rw [hdollar, hzero, List.length_cons, List.length_singleton]
          omega
      | char d =>
          by_cases hd : d = '$'
          · subst hd
            rw [converted_cons_char (by decide), expand_dollar_dollar]
            apply @Reading.lost _ _ ['$'] _ _ hrest
            rw [hdollar, hdollar, List.length_singleton]
            omega
          by_cases hname : isNameChar d = true
          · obtain ⟨names, rest, rfl, hnames, hnext⟩ := exists_names ps
            have hall : ∀ c ∈ d :: names, isNameChar c = true :=
              List.forall_mem_cons.mpr ⟨hname, hnames⟩
            have hcount : narrow (letters (.char '$' :: ((d :: names).map .char ++ rest))) =
                (names.length + 2) + narrow (letters rest) := by
              rw [hdollar, narrow_names hall, List.length_cons]
              omega
            have hlen : rest.length < (.char d :: (names.map .char ++ rest)).length := by
              rw [List.length_cons, List.length_append]
              omega
            have hconv := converted_names_append hall rest
            rw [List.map_cons, List.cons_append] at hconv hcount
            rw [hconv]
            exact reading_named (List.cons_ne_nil _ _) hall hnext hcount (by omega)
              (ih rest hlen)
          · have hbrace : d = '{' ∧ .char '}' ∈ ps := by
              simpa [markFollows, hd, hname] using hmark
            obtain ⟨rfl, hclosed⟩ := hbrace
            obtain ⟨mid, rest, rfl, hmid⟩ := List.eq_append_cons_of_mem hclosed
            have hbrace := @expand_brace letterGroups mid rest hmid
            rw [converted_cons_char (by decide)] at hbrace
            rw [hbrace]
            have hlen : rest.length < (.char '{' :: (mid ++ .char '}' :: rest)).length := by
              rw [List.length_cons, List.length_append, List.length_cons]
              omega
            apply Reading.lost _ (ih rest hlen)
            have hname := length_named_letterGroups (converted mid)
            rw [hdollar, narrow_char (by decide), narrow_append, narrow_char (by decide)]
            omega

theorem reading_expand (ps : List Piece) : Reading ps (expand letterGroups (converted ps)) := by
  match ps with
  | [] => exact .nil
  | .zero :: ps =>
      obtain ⟨names, rest, rfl, hnames, hrest⟩ := exists_names ps
      have hall : ∀ c ∈ '0' :: names, isNameChar c = true :=
        List.forall_mem_cons.mpr ⟨by decide, hnames⟩
      have hcount : narrow (letters (.zero :: (names.map .char ++ rest))) =
          (names.length + 2) + narrow (letters rest) := by
        rw [narrow_zero, narrow_names hnames]
        omega
      have hconv : converted (.zero :: (names.map .char ++ rest)) =
          '$' :: (('0' :: names) ++ converted rest) :=
        congrArg (['$', '0'] ++ ·) (converted_names_append hnames rest)
      rw [hconv]
      exact reading_named (List.cons_ne_nil _ _) hall hrest hcount (by omega)
        (reading_expand rest)
  | .group k :: ps =>
      obtain ⟨names, rest, rfl, hnames, hrest⟩ := exists_names ps
      have hall : ∀ c ∈ Nat.digitChar k :: names, isNameChar c = true :=
        List.forall_mem_cons.mpr ⟨isNameChar_digitChar k, hnames⟩
      have hconv : converted (.group k :: (names.map .char ++ rest)) =
          '$' :: ((Nat.digitChar k :: names) ++ converted rest) :=
        congrArg (['$', Nat.digitChar k] ++ ·) (converted_names_append hnames rest)
      rw [hconv]
      cases names with
      | nil =>
          have hletter : (Piece.group k).expanded letterGroups = ['x'] :=
            List.append_cancel_right (letters_group k [])
          rw [expand_name letterGroups (List.cons_ne_nil _ _) hall hrest, named_digitChar]
          apply Reading.same
          · rw [hletter]
            simp [isAscii]
          · intro hkeep
            have hkeep' : keepsMeaning rest = true := hkeep
            simp [keepsMeaning, hrest, hkeep']
          · exact reading_expand rest
      | cons c names =>
          have hcount : narrow (letters (.group k :: ((c :: names).map .char ++ rest))) =
              (names.length + 2) + narrow (letters rest) := by
            rw [narrow_group, narrow_names hnames, List.length_cons]
            omega
          exact reading_named (List.cons_ne_nil _ _) hall hrest hcount (by omega)
            (reading_expand rest)
  | .char c :: ps =>
      by_cases hc : c.toNat < 128
      · by_cases hdollar : c = '$'
        · subst hdollar
          rw [converted_cons_char hc]
          by_cases hmark : markFollows ps = true
          · exact reading_mark hmark fun qs _ => reading_expand qs
          · rw [expand_sign letterGroups (by simpa using hmark)]
            apply Reading.same (p := .char '$')
            · simp [Piece.expanded, isAscii]
            · intro hkeep
              simp [keepsMeaning, hkeep, hmark]
            · exact reading_expand ps
        · rw [converted_cons_char hc, expand_cons letterGroups hdollar]
          apply Reading.same (p := .char c)
          · simpa [Piece.expanded, isAscii] using hc
          · intro hkeep
            simp [keepsMeaning, hc, hdollar, hkeep]
          · exact reading_expand ps
      · have hwide : '$' ∉ (Piece.char c).converted := fun h =>
          absurd (wide_of_mem_converted (by omega) h) (by decide)
        rw [converted, List.flatMap_cons, expand_append letterGroups hwide]
        exact .widened (by omega) (reading_expand ps)
termination_by ps.length

/-- A converted template means what the template means, whatever the groups have captured, just
where every character is ASCII, no reference is followed by a character of a name, `\0` does not
occur, and every `$` is only a dollar sign. -/
theorem convertPgReplacement_keeps_iff (template : Text) :
    (∀ group, expand group (convertPgReplacement template) = pgExpand group template) ↔
      keepsMeaning (pieces template) = true := by
  constructor
  · intro h
    apply (reading_expand (pieces template)).keepsMeaning
    rw [letters, ← pgExpand_eq, ← h letterGroups, convertPgReplacement_eq]
  · intro h group
    rw [convertPgReplacement_eq, pgExpand_eq, expand_converted group h]

/-- A reference with a letter behind it names a group that there is not. -/
theorem reference_before_letter_lost :
    ¬ ∀ (template : Text) (group : ℕ → Option Text),
      expand group (convertPgReplacement template) = pgExpand group template := by
  intro h
  have hlost := h "\\1st".toList fun _ => some ['a']
  revert hlost
  decide

end DeltaX.Agg.ReplacementTemplate
