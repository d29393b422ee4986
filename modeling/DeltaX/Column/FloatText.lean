import DeltaX.Codec.NumericScaled
import DeltaX.Support.IeeeRounding
/-!
# Floats as texts

Rust parses a decimal number to the nearest float.  PostgreSQL writes a float as a number that is
nearer to it than to any other one, so parsing gives the float back.
-/

namespace DeltaX.Column.FloatText

open Timeparse TimestampParse Codec.NumericScaled Support.IeeeOrder

/-! ## Parsing -/

def parseExponent : Text → Option ℤ
  | [] => some 0
  | c :: rest =>
      if (c = 'e' ∨ c = 'E') ∧ (splitSign rest).2 ≠ [] ∧ (splitSign rest).2.all Char.isDigit then
        some (if (splitSign rest).1 then -(number (splitSign rest).2 : ℤ)
          else number (splitSign rest).2)
      else none

def parseNumber (s : Text) : Option ℚ :=
  let int := s.takeWhile Char.isDigit
  let point := s.dropWhile Char.isDigit
  let frac := if point.head? = some '.' then point.tail.takeWhile Char.isDigit else []
  let rest := if point.head? = some '.' then point.tail.dropWhile Char.isDigit else point
  if int = [] ∧ frac = [] then none
  else (parseExponent rest).map fun e : ℤ => (number (int ++ frac) : ℚ) * 10 ^ (e - frac.length)

/-- The unit that `scaled` counts in. -/
def leastSubnormal (f : Format) : ℚ := 2 ^ (2 - 2 ^ (f.exponentBits - 1) - f.mantissaBits : ℤ)

def quietNan (f : Format) : ℕ := f.infinity + 2 ^ (f.mantissaBits - 1)

def parseMagnitude (f : Format) (s : Text) : Option ℕ :=
  let lower := s.map Char.toLower
  if lower = "inf".toList ∨ lower = "infinity".toList then some f.infinity
  else if lower = "nan".toList then some (quietNan f)
  else (parseNumber s).map fun q => roundMagnitude f (q / leastSubnormal f)

/-- `str::parse` of a float: the nearest value, of two the even one. -/
def parseFloat (f : Format) (s : Text) : Option (Pattern f) :=
  (parseMagnitude f (splitSign s).2).map fun m =>
    BitVec.ofNat _ ((if (splitSign s).1 then 2 ^ f.magnitudeBits else 0) + m)

/-! ## Texts -/

/-- A decimal number as the output functions of the floats write it. -/
structure Numeral where
  negative : Bool
  int : Text
  frac : Text
  exponent : Option (Bool × Text)
  int_ne_nil : int ≠ []
  isDigit_int : ∀ d ∈ int, d.isDigit = true
  isDigit_frac : ∀ d ∈ frac, d.isDigit = true
  exponent_digits : ∀ e ∈ exponent, e.2 ≠ [] ∧ ∀ d ∈ e.2, d.isDigit = true

namespace Numeral

def exponentText : Option (Bool × Text) → Text
  | none => []
  | some (negative, digits) => 'e' :: (if negative then '-' else '+') :: digits

def exponentValue : Option (Bool × Text) → ℤ
  | none => 0
  | some (negative, digits) => if negative then -(number digits : ℤ) else number digits

def body (n : Numeral) : Text :=
  n.int ++ (if n.frac = [] then [] else '.' :: n.frac) ++ exponentText n.exponent

def text (n : Numeral) : Text := if n.negative then '-' :: n.body else n.body

def value (n : Numeral) : ℚ :=
  number (n.int ++ n.frac) * 10 ^ (exponentValue n.exponent - n.frac.length)

end Numeral

/-- The shortest precise text of a float: it is nearer to the float than to any other one. -/
def IsTextOf (f : Format) (v : Pattern f) (s : Text) : Prop :=
  if isNan f v then s = "NaN".toList
  else if magnitude v = f.infinity then
    s = (if v.msb then "-Infinity" else "Infinity").toList
  else ∃ n : Numeral, s = n.text ∧ n.negative = v.msb ∧
    Nearest f (n.value / leastSubnormal f) (magnitude v)

def SameFloat {f : Format} (v c : Pattern f) : Prop :=
  v = c ∨ (isNan f v = true ∧ isNan f c = true)

/-! ## Reading back -/

theorem takeWhile_digits {digits : Text} (hdigits : ∀ d ∈ digits, d.isDigit = true) (rest : Text)
    (hrest : ∀ c ∈ rest.head?, c.isDigit = false) :
    (digits ++ rest).takeWhile Char.isDigit = digits ∧
      (digits ++ rest).dropWhile Char.isDigit = rest := by
  induction digits with
  | nil =>
      cases rest with
      | nil => exact ⟨rfl, rfl⟩
      | cons c rest =>
          have hc := hrest c rfl
          simp [hc]
  | cons d digits ih =>
      have hd := hdigits d List.mem_cons_self
      have hih := ih fun e he => hdigits e (List.mem_cons_of_mem d he)
      simp [hd, hih]

namespace Numeral

variable (n : Numeral)

theorem parseExponent_text :
    parseExponent (exponentText n.exponent) = some (exponentValue n.exponent) := by
  cases hexp : n.exponent with
  | none => rfl
  | some e =>
      obtain ⟨hne, hdigits⟩ := n.exponent_digits e hexp
      have hsplit : splitSign ((if e.1 then '-' else '+') :: e.2) = (e.1, e.2) := by
        cases e.1 <;> rfl
      rw [exponentText, parseExponent, hsplit]
      exact if_pos ⟨Or.inl rfl, hne, List.all_eq_true.mpr hdigits⟩

theorem head_exponentText : ∀ c ∈ (exponentText n.exponent).head?, c.isDigit = false ∧ c ≠ '.' := by
  intro c hc
  cases hexp : n.exponent with
  | none =>
      rw [hexp] at hc
      cases hc
  | some e =>
      rw [hexp] at hc
      obtain rfl : 'e' = c := Option.some.inj hc
      exact ⟨by decide, by decide⟩

theorem parseNumber_body : parseNumber n.body = some n.value := by
  have hexp := n.parseExponent_text
  have hhead := n.head_exponentText
  unfold parseNumber body
  by_cases hfrac : n.frac = []
  · obtain ⟨htake, hdrop⟩ := takeWhile_digits n.isDigit_int _ fun c hc => (hhead c hc).1
    have hpoint : (exponentText n.exponent).head? ≠ some '.' := fun h => (hhead '.' h).2 rfl
    simp only [hfrac, if_true, List.append_nil, htake, hdrop, if_neg hpoint, n.int_ne_nil,
      false_and, if_false, hexp, Option.map_some, value]
  · obtain ⟨htake, hdrop⟩ := takeWhile_digits n.isDigit_int
      ('.' :: (n.frac ++ exponentText n.exponent))
      (fun c hc => by
        obtain rfl : '.' = c := Option.some.inj hc
        decide)
    obtain ⟨htake', hdrop'⟩ := takeWhile_digits n.isDigit_frac _ fun c hc => (hhead c hc).1
    simp only [if_neg hfrac, List.append_assoc, List.cons_append, htake, hdrop, List.head?_cons,
      List.tail_cons, if_true, htake', hdrop', n.int_ne_nil, false_and, if_false, hexp,
      Option.map_some, value]

/-- The first character of the text behind the sign. -/
theorem exists_body_cons : ∃ d rest, n.body = d :: rest ∧ d.isDigit = true := by
  cases hint : n.int with
  | nil => exact absurd hint n.int_ne_nil
  | cons d int =>
      refine ⟨d, _, by rw [body, hint, List.append_assoc, List.cons_append], ?_⟩
      exact n.isDigit_int d (hint ▸ List.mem_cons_self)

theorem splitSign_text : splitSign n.text = (n.negative, n.body) := by
  obtain ⟨d, rest, hbody, hd⟩ := n.exists_body_cons
  unfold text
  cases n.negative with
  | true => rfl
  | false =>
      rw [if_neg (by decide), hbody]
      unfold splitSign
      split
      · rename_i heq
        rw [List.cons.injEq] at heq
        rw [heq.1] at hd
        exact absurd hd (by decide)
      · rename_i heq
        rw [List.cons.injEq] at heq
        rw [heq.1] at hd
        exact absurd hd (by decide)
      · rfl

theorem toLower_of_isDigit {d : Char} (h : d.isDigit = true) : d.toLower = d := by
  have hrange := toNat_mem_of_isDigit h
  unfold Char.toLower
  rw [dif_neg]
  rintro ⟨hupper, -⟩
  have : 65 ≤ d.toNat := hupper
  omega

theorem parseMagnitude_body (f : Format) :
    parseMagnitude f n.body = some (roundMagnitude f (n.value / leastSubnormal f)) := by
  obtain ⟨d, rest, hbody, hd⟩ := n.exists_body_cons
  have hrange := toNat_mem_of_isDigit hd
  -- a digit is no letter of a word
  have hword : ∀ w : Char, ∀ word : Text, 58 ≤ w.toNat → n.body.map Char.toLower ≠ w :: word := by
    intro w word hw heq
    rw [hbody, List.map_cons, List.cons.injEq] at heq
    rw [toLower_of_isDigit hd] at heq
    rw [heq.1] at hrange
    omega
  unfold parseMagnitude
  rw [n.parseNumber_body]
  have hinf : ¬ (n.body.map Char.toLower = "inf".toList ∨
      n.body.map Char.toLower = "infinity".toList) := by
    rintro (h | h)
    · exact hword 'i' _ (by decide) h
    · exact hword 'i' _ (by decide) h
  have hnan : n.body.map Char.toLower ≠ "nan".toList := hword 'n' _ (by decide)
  simp only [if_neg hinf, hnan, if_false, Option.map_some]

theorem value_nonneg (f : Format) : 0 ≤ n.value / leastSubnormal f := by
  have hten : (0 : ℚ) ≤ 10 := by norm_num
  have htwo : (0 : ℚ) ≤ 2 := by norm_num
  exact div_nonneg (mul_nonneg (Nat.cast_nonneg _) (zpow_nonneg hten _)) (zpow_nonneg htwo _)

end Numeral

theorem ofNat_sign_magnitude {f : Format} (v : Pattern f) :
    (BitVec.ofNat _ ((if v.msb then 2 ^ f.magnitudeBits else 0) + magnitude v) : Pattern f) = v := by
  rw [← toNat_eq_magnitude, BitVec.ofNat_toNat, BitVec.setWidth_eq]

theorem isNan_quietNan {f : Format} (hf : 0 < f.mantissaBits) :
    isNan f (BitVec.ofNat _ (quietNan f) : Pattern f) = true := by
  have hhalf : 2 ^ (f.mantissaBits - 1) < 2 ^ f.mantissaBits :=
    Nat.pow_lt_pow_right (by decide) (by omega)
  have hlt : quietNan f < 2 ^ f.magnitudeBits := by
    have hone : 1 ≤ 2 ^ f.exponentBits := Nat.one_le_two_pow
    calc quietNan f < (2 ^ f.exponentBits - 1) * 2 ^ f.mantissaBits + 2 ^ f.mantissaBits :=
          Nat.add_lt_add_left hhalf _
      _ = (2 ^ f.exponentBits - 1 + 1) * 2 ^ f.mantissaBits := by ring
      _ = 2 ^ f.magnitudeBits := by rw [Nat.sub_add_cancel hone, Format.magnitudeBits, Nat.pow_add]
  have hmagnitude : magnitude (BitVec.ofNat _ (quietNan f) : Pattern f) = quietNan f := by
    rw [magnitude, BitVec.toNat_ofNat, Nat.mod_mod_of_dvd _ (Nat.pow_dvd_pow 2 (Nat.le_succ _)),
      Nat.mod_eq_of_lt hlt]
  rw [isNan, hmagnitude, decide_eq_true_eq, quietNan]
  exact Nat.lt_add_of_pos_right (Nat.two_pow_pos _)

theorem parseFloat_text {f : Format} (hf : 0 < f.mantissaBits) {v : Pattern f} {s : Text}
    (h : IsTextOf f v s) : ∃ c, parseFloat f s = some c ∧ SameFloat c v := by
  unfold IsTextOf at h
  cases hnan : isNan f v with
  | true =>
      rw [hnan, if_pos rfl] at h
      refine ⟨BitVec.ofNat _ (quietNan f), ?_, Or.inr ⟨isNan_quietNan hf, hnan⟩⟩
      rw [h, show BitVec.ofNat _ (quietNan f) = BitVec.ofNat _ (0 + quietNan f) by rw [Nat.zero_add]]
      rfl
  | false =>
      rw [hnan, if_neg (by decide)] at h
      refine ⟨v, ?_, Or.inl rfl⟩
      by_cases hinf : magnitude v = f.infinity
      · rw [if_pos hinf] at h
        have hsplit : splitSign s = (v.msb, "Infinity".toList) := by
          rw [h]
          cases v.msb <;> rfl
        have hparsed : parseMagnitude f "Infinity".toList = some (magnitude v) := by
          rw [hinf]
          rfl
        rw [parseFloat, hsplit, hparsed, Option.map_some, ofNat_sign_magnitude]
      · rw [if_neg hinf] at h
        obtain ⟨n, rfl, hsign, hnearest⟩ := h
        have hlt : magnitude v < f.infinity :=
          lt_of_le_of_ne (magnitude_le_of_not_isNan hnan) hinf
        rw [parseFloat, n.splitSign_text, n.parseMagnitude_body, hsign,
          roundMagnitude_of_nearest (n.value_nonneg f) hlt hnearest, Option.map_some,
          ofNat_sign_magnitude]

theorem nearest_scaled {f : Format} (n : ℕ) : Nearest f (scaled f.mantissaBits n) n := by
  intro n' _ hne
  rw [sub_self, abs_zero, abs_pos, sub_ne_zero]
  exact_mod_cast (scaled_strictMono f.mantissaBits).injective.ne hne.symm

end DeltaX.Column.FloatText
