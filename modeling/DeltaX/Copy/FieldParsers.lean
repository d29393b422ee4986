import DeltaX.Column.FloatText
import DeltaX.Column.TimestampRoundTrip
import DeltaX.Copy.TextRows
/-!
# Values of COPY fields

What the text of a field is parsed as, for each kind of column, and the texts of the errors.
-/

namespace DeltaX.Copy.FieldParsers

open Column Column.TimestampParse Column.TimestampRoundTrip Support.Utf8 Support.IeeeOrder

/-! ## Numbers -/

inductive IntErrorKind
  | empty | invalidDigit | posOverflow | negOverflow
deriving DecidableEq, Repr

def IntErrorKind.text : IntErrorKind → Text
  | empty => "cannot parse integer from empty string".toList
  | invalidDigit => "invalid digit found in string".toList
  | posOverflow => "number too large to fit in target type".toList
  | negOverflow => "number too small to fit in target type".toList

/-- The digits of a signed number of `w` bits, from the value of those before. -/
def parseDigits (w : ℕ) (negative : Bool) : ℤ → Text → Except IntErrorKind ℤ
  | acc, [] => .ok acc
  | acc, c :: digits =>
      if c.isDigit then
        let digit : ℤ := (c.toNat - 48 : ℕ)
        let next := if negative then acc * 10 - digit else acc * 10 + digit
        if next < -2 ^ (w - 1) then .error .negOverflow
        else if 2 ^ (w - 1) ≤ next then .error .posOverflow
        else parseDigits w negative next digits
      else .error .invalidDigit

def parseSigned (w : ℕ) : Text → Except IntErrorKind ℤ
  | [] => .error .empty
  | ['+'] | ['-'] => .error .invalidDigit
  | '+' :: digits => parseDigits w false 0 digits
  | '-' :: digits => parseDigits w true 0 digits
  | digits => parseDigits w false 0 digits

def toAsciiLowercase (s : Text) : Text := s.map Char.toLower

def parseFloatField (f : Format) (s : Text) : Except Text (Pattern f) :=
  let lower := toAsciiLowercase s
  if lower = "nan".toList then .ok (BitVec.ofNat _ (FloatText.quietNan f))
  else if lower = "inf".toList ∨ lower = "infinity".toList then .ok (BitVec.ofNat _ f.infinity)
  else if lower = "-inf".toList ∨ lower = "-infinity".toList then
    .ok (BitVec.ofNat _ (2 ^ f.magnitudeBits + f.infinity))
  else
    match FloatText.parseFloat f s with
    | some v => .ok v
    | none =>
        .error (if s = [] then "cannot parse float from empty string".toList
          else "invalid float literal".toList)

def parseBool (s : Text) : Option Bool :=
  let lower := toAsciiLowercase s
  if lower ∈ ["t".toList, "true".toList, "yes".toList, "on".toList, "1".toList] then some true
  else if lower ∈ ["f".toList, "false".toList, "no".toList, "off".toList, "0".toList] then
    some false
  else none

/-! ## Bytes -/

/-- `to_digit(16)`. -/
def hexDigit (c : Char) : Option ℕ :=
  if c.isDigit then some (c.toNat - 48)
  else if 'a' ≤ c ∧ c ≤ 'f' then some (c.toNat - 87)
  else if 'A' ≤ c ∧ c ≤ 'F' then some (c.toNat - 55)
  else none

/-- Two hexadecimal digits to a byte. -/
def pairNibbles : List ℕ → List (BitVec 8)
  | hi :: lo :: nibbles => BitVec.ofNat 8 (hi * 16 + lo) :: pairNibbles nibbles
  | _ => []

/-- `parse_uuid_bytes`: 32 hexadecimal digits, with hyphens and braces anywhere. -/
def parseUuidBytes (s : Text) : Except Text (List (BitVec 8)) :=
  match (s.filter fun c => c ∉ ['-', '{', '}']).mapM hexDigit with
  | some nibbles =>
      if nibbles.length = 32 then .ok (pairNibbles nibbles)
      else .error ("invalid uuid: ".toList ++ s)
  | none => .error ("invalid uuid: ".toList ++ s)

/-- The escape format of `parse_bytea_bytes`: `\\`, and `\` with three digits. -/
def parseByteaEscape : List UInt8 → Option (List (BitVec 8))
  | [] => some []
  | 92 :: 92 :: rest => (parseByteaEscape rest).map ((92 : BitVec 8) :: ·)
  | 92 :: a :: b :: c :: rest =>
      let v := (a - 48).toNat * 64 + (b - 48).toNat * 8 + (c - 48).toNat
      if isAsciiDigit a && isAsciiDigit b && isAsciiDigit c && decide (v ≤ 255) then
        (parseByteaEscape rest).map (BitVec.ofNat 8 v :: ·)
      else none
  | 92 :: _ => none
  | b :: rest => (parseByteaEscape rest).map (b.toBitVec :: ·)

def parseByteaBytes (s : Text) : Except Text (List (BitVec 8)) :=
  match s with
  | '\\' :: x :: hex =>
      if x = 'x' ∨ x = 'X' then
        match if (utf8Bytes hex).length % 2 = 0 then hex.mapM hexDigit else none with
        | some nibbles => .ok (pairNibbles nibbles)
        | none => .error ("invalid bytea hex: ".toList ++ s)
      else
        match parseByteaEscape (utf8Bytes s) with
        | some bytes => .ok bytes
        | none => .error ("invalid bytea escape: ".toList ++ s)
  | _ =>
      match parseByteaEscape (utf8Bytes s) with
      | some bytes => .ok bytes
      | none => .error ("invalid bytea escape: ".toList ++ s)

/-! ## Addresses -/

/-- `read_number`: at most `maxDigits` digits, a number below `bound`. -/
def readNumber (radix maxDigits bound : ℕ) (allowZeroPrefix : Bool) (s : Text) :
    Option (ℕ × Text) :=
  let isDigit (c : Char) : Bool := (hexDigit c).any (· < radix)
  let digits := s.takeWhile isDigit
  let n := digits.foldl (fun result c => result * radix + (hexDigit c).getD 0) 0
  if digits = [] ∨ digits.length > maxDigits then none
  else if allowZeroPrefix = false ∧ digits.head? = some '0' ∧ 1 < digits.length then none
  else if n < bound then some (n, s.dropWhile isDigit) else none

def readSeparator {α : Type} (sep : Char) (index : ℕ) (read : Text → Option (α × Text)) (s : Text) :
    Option (α × Text) :=
  if index = 0 then read s
  else match s with
    | c :: rest => if c = sep then read rest else none
    | [] => none

def readIpv4Addr (s : Text) : Option (List ℕ × Text) := do
  let octet := readNumber 10 3 256 false
  let (a, s) ← readSeparator '.' 0 octet s
  let (b, s) ← readSeparator '.' 1 octet s
  let (c, s) ← readSeparator '.' 2 octet s
  let (d, s) ← readSeparator '.' 3 octet s
  return ([a, b, c, d], s)

/-- `read_groups` from the group `i` on: the groups, whether an IPv4 address ended them, and
the rest. -/
def readGroups (limit : ℕ) : ℕ → Text → List ℕ × Bool × Text
  | i, s =>
      if _ : i < limit then
        match if i + 1 < limit then readSeparator ':' i readIpv4Addr s else none with
        | some ([a, b, c, d], rest) => ([a * 256 + b, c * 256 + d], true, rest)
        | _ =>
            match readSeparator ':' i (readNumber 16 4 65536 true) s with
            | some (group, rest) =>
                let (groups, ipv4, rest) := readGroups limit (i + 1) rest
                (group :: groups, ipv4, rest)
            | none => ([], false, s)
      else ([], false, s)
termination_by i => limit - i

/-- `read_ipv6_addr`: eight groups, or fewer with a `::` for the missing ones. -/
def readIpv6Addr (s : Text) : Option (List ℕ × Text) :=
  match readGroups 8 0 s with
  | (head, headIpv4, rest) =>
      if head.length = 8 then some (head, rest)
      else if headIpv4 then none
      else match rest with
        | ':' :: ':' :: rest =>
            match readGroups (7 - head.length) 0 rest with
            | (tail, _, rest) =>
                some (head ++ List.replicate (8 - head.length - tail.length) 0 ++ tail, rest)
        | _ => none

/-- `str::parse::<u16>`. -/
def parseU16 (s : Text) : Option ℕ :=
  let digits := match s with
    | '+' :: digits => digits
    | digits => digits
  if digits ≠ [] ∧ digits.all Char.isDigit then
    some (Timeparse.number digits) |>.filter (· < 65536)
  else none

/-- The payload of an `inet`: the family, the prefix and the address. -/
def inetPayload (family maxBits : ℕ) (prefixBits : Option ℕ) (octets : List ℕ) (s : Text) :
    Except Text (List (BitVec 8)) :=
  let bits := prefixBits.getD maxBits
  if bits > maxBits then .error ("invalid inet prefix: ".toList ++ s)
  else .ok ((family :: bits :: octets).map (BitVec.ofNat 8))

/-- `parse_inet_bytes` behind the prefix. -/
def parseInetAddr (addrPart : Text) (prefixBits : Option ℕ) (s : Text) :
    Except Text (List (BitVec 8)) :=
  match readIpv4Addr addrPart with
  | some (octets, []) => inetPayload 2 32 prefixBits octets s
  | some (_, _ :: _) => .error ("invalid inet: ".toList ++ s)
  | none =>
      match readIpv6Addr addrPart with
      | some (groups, []) =>
          inetPayload 3 128 prefixBits (groups.flatMap fun g => [g / 256, g % 256]) s
      | _ => .error ("invalid inet: ".toList ++ s)

def parseInetBytes (s : Text) : Except Text (List (BitVec 8)) :=
  match splitOnce '/' s with
  | some (addrPart, p) =>
      match parseU16 p with
      | some bits => parseInetAddr addrPart (some bits) s
      | none => .error ("invalid inet prefix: ".toList ++ s)
  | none => parseInetAddr s none s

end DeltaX.Copy.FieldParsers
