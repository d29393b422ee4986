import DeltaX.Agg.ReplacementTemplate
import DeltaX.Support.OrderedRegex
/-!
# Regular expressions as PostgreSQL reads them

The part of PostgreSQL's advanced regular expressions without alternations, bounds,
constraints, back references, ranges and non-greedy quantifiers, with the replacement of the
first match.  Of the matches that begin at the leftmost place the one the manual prefers is
taken: every quantifier takes as much as it can, the earlier ones first.  The engine itself
takes the longest match of everything before the first capture.
-/

namespace DeltaX.Agg.RegexpReplace

open Column (Text)
open ReplacementTemplate Support.OrderedRegex

/-- The character classes of a database, of which some members are fixed. -/
structure Locale where
  digit : Char → Bool
  space : Char → Bool
  word : Char → Bool
  digit_zero : digit '0' = true
  digit_letter : digit 'a' = false
  space_blank : space ' ' = true
  space_letter : space 'a' = false
  word_letter : word 'a' = true
  word_blank : word ' ' = false

variable (locale : Locale)

def isAlnum (c : Char) : Bool :=
  decide (48 ≤ c.toNat ∧ c.toNat ≤ 57) || decide (65 ≤ c.toNat ∧ c.toNat ≤ 90) ||
    decide (97 ≤ c.toNat ∧ c.toNat ≤ 122)

/-- The characters an escape of one character stands for.  `none` for a constraint, a back
reference, an escape of more characters, and for what is no escape. -/
def escapeSet (e : Char) : Option (Char → Bool) :=
  if isAlnum e then
    match e with
    | 'd' => some locale.digit
    | 's' => some locale.space
    | 'w' => some locale.word
    | 'D' => some fun c => !locale.digit c
    | 'S' => some fun c => !locale.space c
    | 'W' => some fun c => !locale.word c
    | '0' => some (· = '\x00')
    | 'a' => some (· = '\x07')
    | 'b' => some (· = '\x08')
    | 'B' => some (· = '\\')
    | 'e' => some (· = '\x1b')
    | 'f' => some (· = '\x0c')
    | 'n' => some (· = '\n')
    | 'r' => some (· = '\r')
    | 't' => some (· = '\t')
    | 'v' => some (· = '\x0b')
    | _ => none
  else some (· = e)

/-- The elements of a bracket expression behind those of a set, up to its end. -/
def readBracketFrom (set : Char → Bool) : Text → Option ((Char → Bool) × Text)
  | [] => none
  | ']' :: rest => some (set, rest)
  | ['\\'] => none
  | '\\' :: e :: rest =>
      match escapeSet locale e with
      | some p => readBracketFrom (fun c => set c || p c) rest
      | none => none
  | '[' :: d :: rest =>
      if d = '.' ∨ d = '=' ∨ d = ':' then none
      else readBracketFrom (fun c => set c || c = '[') (d :: rest)
  | x :: rest => if x = '-' then none else readBracketFrom (fun c => set c || c = x) rest

/-- A bracket expression behind its `[` or `[^`; `]` and `-` stand for themselves there. -/
def readBracket : Text → Option ((Char → Bool) × Text)
  | x :: rest =>
      if x = ']' ∨ x = '-' then readBracketFrom locale (· = x) rest
      else readBracketFrom locale (fun _ => false) (x :: rest)
  | [] => none

def readQuantified (r : Re Char) : Text → Option (Re Char × Text)
  | '?' :: rest => if rest.head? = some '?' then none else some (.opt r, rest)
  | '*' :: rest => if rest.head? = some '?' then none else some (.star r, rest)
  | '+' :: rest => if rest.head? = some '?' then none else some (.plus r, rest)
  | rest => some (r, rest)

/-- The characters that are not themselves, parentheses and brackets apart. -/
def isMeta (c : Char) : Bool := ['*', '+', '?', '{', '|'].any (· = c)

/-- The quantified atoms and anchors up to a closing parenthesis or the end, in as many turns
as there are characters. -/
def readBranch : ℕ → Text → Option (List (Re Char) × Text)
  | 0, _ => none
  | _, [] => some ([], [])
  | fuel + 1, c :: rest =>
      let quantified (atom : Option (Re Char × Text)) : Option (List (Re Char) × Text) :=
        atom.bind fun x => (readQuantified x.1 x.2).bind fun x =>
          (readBranch fuel x.2).map fun y => (x.1 :: y.1, y.2)
      if c = ')' then some ([], c :: rest)
      else if c = '^' then (readBranch fuel rest).map fun x => (.bos :: x.1, x.2)
      else if c = '$' then (readBranch fuel rest).map fun x => (.eos :: x.1, x.2)
      else if c = '.' then quantified (some (.set fun _ => true, rest))
      else if c = '[' then
        match rest with
        | '^' :: rest => quantified ((readBracket locale rest).map fun x =>
            (.set fun c => !x.1 c, x.2))
        | rest => quantified ((readBracket locale rest).map fun x => (.set x.1, x.2))
      else if c = '(' then
        match rest with
        | '?' :: ':' :: rest =>
            match readBranch fuel rest with
            | some (rs, ')' :: rest) => quantified (some (branch rs, rest))
            | _ => none
        | '?' :: _ => none
        | rest =>
            match readBranch fuel rest with
            | some (rs, ')' :: rest) => quantified (some (.capture (branch rs), rest))
            | _ => none
      else if c = '\\' then
        match rest with
        | e :: rest => quantified ((escapeSet locale e).map fun p => (.set p, rest))
        | [] => none
      else if isMeta c then none
      else quantified (some (one c, rest))

def readAre (pattern : Text) : Option (Re Char) :=
  match readBranch locale (pattern.length + 1) pattern with
  | some (rs, []) => some (catAll rs)
  | _ => none

/-- The leftmost match: where it starts, and its preferred end. -/
def search (re : Re Char) (s : Text) : Option (ℕ × At Char) :=
  (List.range (s.length + 1)).findSome? fun k =>
    (runs re ⟨k, s.drop k, none⟩).head?.map fun st => (k, st)

def groups (whole : Text) (cap : Option Text) : ℕ → Option Text
  | 0 => some whole
  | 1 => cap
  | _ => none

/-- `regexp_replace` of the first match. -/
def replaceFirst (re : Re Char) (replacement s : Text) : Text :=
  match search re s with
  | none => s
  | some (k, st) =>
      s.take k ++
        (pgExpand (groups ((s.drop k).take (s.length - k - st.rest.length)) st.cap) replacement ++
          st.rest)

/-- `regexp_replace(s, pattern, replacement)`; `none` where the pattern is not read. -/
def pgRegexpReplace (pattern replacement s : Text) : Option Text :=
  (readAre locale pattern).map fun re => replaceFirst re replacement s

end DeltaX.Agg.RegexpReplace
