import DeltaX.Column.Typed
import DeltaX.Support.Utf8
/-!
# Simple patterns of `regexp_replace`

Patterns of one shape, literals around a single capture with a `.*$` tail, are executed by
comparing bytes.  `try_parse` reads the shape from the bytes of the pattern and refuses
everything else.
-/

namespace DeltaX.Agg.RegexpReplace

open Column (Text)
open Support.Utf8

inductive SimpleComp
  | lit (bytes : List UInt8)
  | optLit (bytes : List UInt8)
  | cap (stop : UInt8)
deriving DecidableEq, Repr

inductive TemplPart
  | lit (s : Text)
  | group1
  | group0
deriving DecidableEq, Repr

structure SimplePattern where
  comps : List SimpleComp
  templ : List TemplPart
deriving DecidableEq, Repr

/-! ## Patterns -/

def isPlain (c : UInt8) : Bool :=
  !([46, 63, 42, 43, 40, 41, 91, 93, 123, 125, 124, 94, 36, 92] : List UInt8).any (· = c)

def isAsciiAlphanumeric (b : UInt8) : Bool :=
  (48 ≤ b && b ≤ 57) || (65 ≤ b && b ≤ 90) || (97 ≤ b && b ≤ 122)

/-- The loop over `(?:lit)`, behind its colon: the literal, and what comes behind the
parenthesis. -/
def groupLit (lit : List UInt8) : List UInt8 → Option (List UInt8 × List UInt8)
  | [] => none
  | 41 :: rest => some (lit, rest)
  | [92] => none
  | 92 :: e :: rest => if isAsciiAlphanumeric e then none else groupLit (lit ++ [e]) rest
  | c :: rest => if isPlain c then groupLit (lit ++ [c]) rest else none

/-- The stop of `([^X]+)`, behind its `([^`, and what comes behind the parenthesis. -/
def captureStop (b : List UInt8) : Option (UInt8 × List UInt8) :=
  match if b.head? = some 92 then b.tail else b with
  | stop :: 93 :: 43 :: 41 :: rest => if 128 ≤ stop || stop = 93 then none else some (stop, rest)
  | _ => none

/-- The pending literal becomes a component. -/
def flush (comps : List SimpleComp) (cur : List UInt8) : List SimpleComp :=
  if cur = [] then comps else comps ++ [.lit cur]

/-- The last character of the pending literal, as its bytes, and the bytes before it. -/
def popChar (cur : List UInt8) : Option (List UInt8 × List UInt8) :=
  ((fromUtf8 cur).bind List.getLast?).map fun last =>
    let cut := cur.length - (String.utf8EncodeChar last).length
    (cur.take cut, cur.drop cut)

/-- The arm of `(`, behind it: an optional group of a literal, or the only capture.  The
component, whether there was a capture now, and what comes behind. -/
def readGroup (capSeen : Bool) : List UInt8 → Option (SimpleComp × Bool × List UInt8)
  | 63 :: 58 :: group =>
      match groupLit [] group with
      | some (lit, 63 :: rest) => if lit = [] then none else some (.optLit lit, capSeen, rest)
      | _ => none
  | 91 :: 94 :: bracket =>
      if capSeen then none
      else (captureStop bracket).map fun x => (.cap x.1, true, x.2)
  | _ => none

/-- The loop of `try_parse` over the bytes that are left.  Every turn takes a byte at least,
so as many turns as bytes are enough. -/
def parseLoop : ℕ → List SimpleComp → List UInt8 → Bool → List UInt8 →
    Option (List SimpleComp × Bool)
  | fuel + 1, comps, cur, capSeen, b :: rest =>
      if b = 46 then
        if rest = [42, 36] then some (flush comps cur, capSeen) else none
      else if b = 40 then
        (readGroup capSeen rest).bind fun x =>
          parseLoop fuel (flush comps cur ++ [x.1]) [] x.2.1 x.2.2
      else if b = 63 then
        (popChar cur).bind fun x =>
          parseLoop fuel (flush comps x.1 ++ [.optLit x.2]) [] capSeen rest
      else if b = 92 then
        rest.head?.bind fun e =>
          if isAsciiAlphanumeric e then none
          else parseLoop fuel comps (cur ++ [e]) capSeen rest.tail
      else if isPlain b then parseLoop fuel comps (cur ++ [b]) capSeen rest
      else none
  -- at the end the tail was not seen
  | _, _, _, _, _ => none

/-- The first capture is followed by a literal that begins with its stop. -/
def capFollowed : List SimpleComp → Bool
  | .cap stop :: .lit l :: _ => l.head? = some stop
  | .cap _ :: _ => false
  | _ :: comps => capFollowed comps
  | [] => false

def parsePattern (pattern : List UInt8) : Option (List SimpleComp) :=
  match pattern with
  | 94 :: b =>
      match parseLoop b.length [] [] false b with
      | some (comps, true) => if capFollowed comps then some comps else none
      | _ => none
  | _ => none

/-! ## Replacements -/

def flushText (parts : List TemplPart) (lit : Text) : List TemplPart :=
  if lit = [] then parts else parts ++ [.lit lit]

def parseReplacementFrom (parts : List TemplPart) (lit : Text) : Text → Option (List TemplPart)
  | [] => some (flushText parts lit)
  | ['\\'] => none
  | '\\' :: c :: rest =>
      if c = '1' then parseReplacementFrom (flushText parts lit ++ [.group1]) [] rest
      else if c = '&' then parseReplacementFrom (flushText parts lit ++ [.group0]) [] rest
      else if c = '\\' then parseReplacementFrom parts (lit ++ ['\\']) rest
      else if c.isDigit then none
      else parseReplacementFrom parts (lit ++ [c]) rest
  | c :: rest => parseReplacementFrom parts (lit ++ [c]) rest

def parseReplacement (replacement : Text) : Option (List TemplPart) :=
  parseReplacementFrom [] [] replacement

def tryParse (pattern replacement : Text) : Option SimplePattern :=
  match parsePattern (utf8Bytes pattern) with
  | some comps => (parseReplacement replacement).map fun templ => { comps, templ }
  | none => none

/-! ## Execution -/

/-- `rec`, with the bytes from `pos` on. -/
def execFrom : List SimpleComp → List UInt8 → ℕ → Option (ℕ × ℕ) → Option (ℕ × ℕ)
  | [], _, _, cap => cap
  | .lit l :: rest, s, pos, cap =>
      if l <+: s then execFrom rest (s.drop l.length) (pos + l.length) cap else none
  | .optLit l :: rest, s, pos, cap =>
      if l <+: s then
        match execFrom rest (s.drop l.length) (pos + l.length) cap with
        | some r => some r
        | none => execFrom rest s pos cap
      else execFrom rest s pos cap
  | .cap stop :: rest, s, pos, _ =>
      match s.findIdx? (· = stop) with
      | none => none
      | some 0 => none
      | some k => execFrom rest (s.drop k) (pos + k) (some (pos, pos + k))

def exec (comps : List SimpleComp) (s : List UInt8) : Option (ℕ × ℕ) := execFrom comps s 0 none

def isCharBoundary (bytes : List UInt8) (i : ℕ) : Bool :=
  match bytes[i]? with
  | some b => i = 0 || b < 128 || 192 ≤ b
  | none => i = bytes.length

/-- `&s[start..end]`, which panics off the boundaries. -/
def strSlice (s : Text) (start stop : ℕ) : Option Text :=
  if isCharBoundary (utf8Bytes s) start ∧ isCharBoundary (utf8Bytes s) stop then
    fromUtf8 (((utf8Bytes s).drop start).take (stop - start))
  else none

def TemplPart.render (s : Text) (range : ℕ × ℕ) : TemplPart → Option Text
  | .lit l => some l
  | .group1 => strSlice s range.1 range.2
  | .group0 => some s

def replace (p : SimplePattern) (s : Text) : Option Text :=
  match exec p.comps (utf8Bytes s) with
  | none => some s
  | some range =>
      if p.templ = [.group1] then strSlice s range.1 range.2
      else (p.templ.mapM (TemplPart.render s range)).map List.flatten

end DeltaX.Agg.RegexpReplace
