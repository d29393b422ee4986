import DeltaX.Column.TimestampParse
/-!
# Scaled numerics

A `numeric` whose text has `dscale` digits after the point is stored as a 64-bit mantissa.  The
digits of the text run on through the point, so the mantissa is the number they spell, and the
text comes back by putting the point where it was.
-/

namespace DeltaX.Codec.NumericScaled

open Column Column.Timeparse Column.TimestampParse

/-! ## The code -/

def maxDscale : ℕ := 18

/-- `i64::MAX`. -/
def maxMantissa : ℕ := 2 ^ 63 - 1

structure Scan where
  mantissa : ℕ
  dscale : ℕ
  seenDot : Bool
  seenDigit : Bool

/-- A digit.  The checked `i128` operations cannot fail on a mantissa that passed the check. -/
def scanDigit (st : Scan) (d : ℕ) : Option Scan :=
  if maxMantissa < st.mantissa * 10 + d then none
  else if st.seenDot then
    if maxDscale < st.dscale + 1 then none
    else some { st with mantissa := st.mantissa * 10 + d, dscale := st.dscale + 1, seenDigit := true }
  else some { st with mantissa := st.mantissa * 10 + d, seenDigit := true }

/-- One round.  A character beyond ASCII ends the loop at its first byte. -/
def scanChar (st : Scan) (c : Char) : Option Scan :=
  if c.isDigit then scanDigit st (c.toNat - 48)
  else if c = '.' ∧ st.seenDot = false then some { st with seenDot := true }
  else none

def splitSign : Text → Bool × Text
  | '-' :: rest => (true, rest)
  | '+' :: rest => (false, rest)
  | s => (false, s)

def scanStart : Scan := { mantissa := 0, dscale := 0, seenDot := false, seenDigit := false }

def parseNumericScaled (s : Text) : Option (BitVec 64 × ℕ) :=
  if (splitSign s).2 = [] then none
  else do
    let st ← (splitSign s).2.foldlM scanChar scanStart
    if st.seenDigit then
      some (if (splitSign s).1 then -BitVec.ofNat 64 st.mantissa else BitVec.ofNat 64 st.mantissa,
        st.dscale)
    else none

/-- `i64::to_string`. -/
def intText (n : ℤ) : Text :=
  if n < 0 then '-' :: Nat.toDigits 10 n.natAbs else Nat.toDigits 10 n.natAbs

/-- `int_part` and `frac_part`. -/
def splitDigits (abs : Text) (s : ℕ) : Text × Text :=
  if s < abs.length then (abs.take (abs.length - s), abs.drop (abs.length - s))
  else (['0'], abs.leftpad s '0')

def formatNumericScaled (mantissa : BitVec 64) (dscale : ℕ) : Text :=
  if dscale = 0 then intText mantissa.toInt
  else
    let parts := splitDigits (Nat.toDigits 10 mantissa.toInt.natAbs) dscale
    if mantissa.toInt < 0 then '-' :: (parts.1 ++ '.' :: parts.2) else parts.1 ++ '.' :: parts.2

/-- The loop over a segment, from a `dscale` on. -/
def scaleValues (dscale : Option ℕ) :
    List (Option Text) → Option (List (Option (BitVec 64)) × Option ℕ)
  | [] => some ([], dscale)
  | none :: values => (scaleValues dscale values).map fun rest => (none :: rest.1, rest.2)
  | some s :: values =>
      (parseNumericScaled s).bind fun parsed =>
        if ∃ prev ∈ dscale, prev ≠ parsed.2 then none
        else (scaleValues (some (dscale.getD parsed.2)) values).map fun rest =>
          (some parsed.1 :: rest.1, rest.2)

def toUniformScaled (values : List (Option Text)) : Option (List (Option (BitVec 64)) × ℕ) :=
  (scaleValues none values).map fun scaled => (scaled.1, scaled.2.getD 0)

/-! ## Decimal digits -/

theorem digitChar_toNat {c : Char} (h : c.isDigit = true) : Nat.digitChar (c.toNat - 48) = c := by
  have hrange := toNat_mem_of_isDigit h
  apply Char.toNat_inj.mp
  rw [Nat.toNat_digitChar_of_lt_ten (by omega)]
  omega

/-- Digits behind a number that is not zero are the digits of the longer number. -/
theorem toDigits_append {digits : Text} (h : ∀ d ∈ digits, d.isDigit = true) {n : ℕ}
    (hn : 0 < n) : Nat.toDigits 10 n ++ digits = Nat.toDigits 10 (Nat.ofDigitChars 10 digits n) := by
  induction digits generalizing n with
  | nil => rw [List.append_nil, Nat.ofDigitChars_nil]
  | cons d digits ih =>
      have hd := h d List.mem_cons_self
      have hrange := toNat_mem_of_isDigit hd
      have hlast : Nat.toDigits 10 (d.toNat - 48) = [d] := by
        rw [Nat.toDigits_of_lt_base (by omega), digitChar_toNat hd]
      have hstep := Nat.toDigits_append_toDigits (b := 10) (n := n) (d := d.toNat - 48) (by decide)
        hn (by omega)
      rw [hlast] at hstep
      calc
        Nat.toDigits 10 n ++ d :: digits = Nat.toDigits 10 n ++ [d] ++ digits := by
          rw [List.append_assoc, List.singleton_append]
        _ = Nat.toDigits 10 (10 * n + (d.toNat - 48)) ++ digits := by rw [hstep]
        _ = Nat.toDigits 10 (Nat.ofDigitChars 10 digits (10 * n + (d.toNat - 48))) :=
          ih (fun e he => h e (List.mem_cons_of_mem d he)) (by omega)
        _ = Nat.toDigits 10 (Nat.ofDigitChars 10 (d :: digits) n) := by
          rw [Nat.ofDigitChars_cons]
          rfl

theorem toDigits_number {digits : Text} (h : ∀ d ∈ digits, d.isDigit = true) (hne : digits ≠ [])
    (hlead : digits.head? ≠ some '0') : Nat.toDigits 10 (number digits) = digits := by
  cases digits with
  | nil => exact absurd rfl hne
  | cons d digits =>
      have hd := h d List.mem_cons_self
      have hrange := toNat_mem_of_isDigit hd
      have hpos : d.toNat ≠ 48 := by
        intro hzero
        apply hlead
        rw [List.head?_cons, Char.toNat_inj.mp (show d.toNat = '0'.toNat from hzero)]
      have hfirst : Nat.toDigits 10 (d.toNat - 48) = [d] := by
        rw [Nat.toDigits_of_lt_base (by omega), digitChar_toNat hd]
      have htail := toDigits_append (fun e he => h e (List.mem_cons_of_mem d he))
        (show 0 < d.toNat - 48 by omega)
      rw [hfirst] at htail
      rw [number, Nat.ofDigitChars_cons, Nat.mul_zero, Nat.zero_add]
      exact htail.symm

theorem number_zero_cons (digits : Text) : number ('0' :: digits) = number digits := by
  rw [number, Nat.ofDigitChars_cons]
  rfl

/-- Digits are their number with leading zeros up to their length. -/
theorem padded_number {digits : Text} (h : ∀ d ∈ digits, d.isDigit = true) (hne : digits ≠ []) :
    padded digits.length (number digits) = digits := by
  induction digits with
  | nil => exact absurd rfl hne
  | cons d digits ih =>
      by_cases hzero : d = '0'
      · subst hzero
        rw [number_zero_cons]
        by_cases hlast : digits = []
        · subst hlast
          rfl
        · have hrest : ∀ e ∈ digits, e.isDigit = true := fun e he =>
            h e (List.mem_cons_of_mem _ he)
          have hlen : (Nat.toDigits 10 (number digits)).length ≤ digits.length :=
            (Nat.length_toDigits_le_iff (by decide) (List.length_pos_of_ne_nil hlast)).mpr
              (number_lt hrest)
          have htail := ih hrest hlast
          rw [padded, List.leftpad] at htail ⊢
          rw [List.length_cons, Nat.succ_sub hlen, List.replicate_succ, List.cons_append, htail]
      · have hdigits := toDigits_number h hne
          (by rw [List.head?_cons]; exact fun heq => hzero (Option.some.inj heq))
        rw [padded, hdigits, List.leftpad, Nat.sub_self]
        rfl

theorem eq_zero_of_head {n : ℕ} (h : (Nat.toDigits 10 n).head? = some '0') : n = 0 := by
  cases hdigits : Nat.toDigits 10 n with
  | nil => exact absurd hdigits Nat.toDigits_ne_nil
  | cons c rest =>
      rw [hdigits, List.head?_cons, Option.some.injEq] at h
      have hvalue : number rest = n := by
        rw [← number_zero_cons, ← h, ← hdigits, number, Nat.ofDigitChars_ten_toDigits]
      by_cases hrest : rest = []
      · rw [← hvalue, hrest]
        rfl
      · have hlt : n < 10 ^ rest.length := by
          rw [← hvalue]
          apply number_lt
          intro d hd
          apply Nat.isDigit_of_mem_toDigits (b := 10) (n := n) (by decide) (by decide)
          rw [hdigits]
          exact List.mem_cons_of_mem c hd
        have hlen := (Nat.length_toDigits_le_iff (b := 10) (by decide)
          (List.length_pos_of_ne_nil hrest)).mpr hlt
        rw [hdigits, List.length_cons] at hlen
        omega

theorem le_ofDigitChars (digits : Text) (n : ℕ) : n ≤ Nat.ofDigitChars 10 digits n := by
  rw [Nat.ofDigitChars_eq_ofDigitChars_zero]
  calc
    n ≤ 10 ^ digits.length * n := Nat.le_mul_of_pos_left n (Nat.pow_pos (by decide))
    _ ≤ _ := Nat.le_add_right _ _

/-! ## Renderings -/

/-- What `numeric_out` writes: digits without a superfluous leading zero, a point when digits
follow it, and no sign on zero. -/
@[ext]
structure Rendering where
  negative : Bool
  int : Text
  frac : Text
  int_digits : ∀ c ∈ int, c.isDigit = true
  frac_digits : ∀ c ∈ frac, c.isDigit = true
  int_ne_nil : int ≠ []
  no_leading_zero : int.head? = some '0' → int = ['0']
  no_negative_zero : negative = true → number (int ++ frac) ≠ 0

namespace Rendering

variable (r : Rendering)

def body : Text := r.int ++ if r.frac = [] then [] else '.' :: r.frac

def text : Text := if r.negative then '-' :: r.body else r.body

def value : ℕ := number (r.int ++ r.frac)

def mantissa : BitVec 64 :=
  if r.negative then -BitVec.ofNat 64 r.value else BitVec.ofNat 64 r.value

theorem body_ne_nil : r.body ≠ [] := by
  rw [body]
  exact List.append_ne_nil_of_left_ne_nil r.int_ne_nil _

theorem splitSign_text : splitSign r.text = (r.negative, r.body) := by
  unfold text
  cases r.negative with
  | true => rfl
  | false =>
      cases hint : r.int with
      | nil => exact absurd hint r.int_ne_nil
      | cons c rest =>
          have hc : c.isDigit = true := r.int_digits c (hint ▸ List.mem_cons_self)
          rw [if_neg Bool.false_ne_true, body, hint, List.cons_append]
          unfold splitSign
          split
          · next heq =>
              rw [(List.cons.inj heq).1] at hc
              exact absurd hc (by decide)
          · next heq =>
              rw [(List.cons.inj heq).1] at hc
              exact absurd hc (by decide)
          · rfl

theorem digits : ∀ c ∈ r.int ++ r.frac, c.isDigit = true := by
  intro c hc
  cases List.mem_append.mp hc with
  | inl h => exact r.int_digits c h
  | inr h => exact r.frac_digits c h

end Rendering

/-! ## The parser on a rendering -/

/-- The loop over digits runs through exactly when the number and the scale stay in range. -/
theorem foldlM_scanChar {digits : Text} (h : ∀ d ∈ digits, d.isDigit = true) (st : Scan)
    (hmantissa : st.mantissa ≤ maxMantissa) (hdscale : st.dscale ≤ maxDscale) :
    digits.foldlM scanChar st =
      if Nat.ofDigitChars 10 digits st.mantissa ≤ maxMantissa ∧
          (st.seenDot = true → st.dscale + digits.length ≤ maxDscale) then
        some { mantissa := Nat.ofDigitChars 10 digits st.mantissa
               dscale := if st.seenDot then st.dscale + digits.length else st.dscale
               seenDot := st.seenDot
               seenDigit := st.seenDigit || !digits.isEmpty }
      else none := by
  induction digits generalizing st with
  | nil =>
      rw [Nat.ofDigitChars_nil, if_pos ⟨hmantissa, fun _ => hdscale⟩]
      simp
  | cons d digits ih =>
      have hrest : ∀ e ∈ digits, e.isDigit = true := fun e he => h e (List.mem_cons_of_mem d he)
      have hnext : Nat.ofDigitChars 10 (d :: digits) st.mantissa =
          Nat.ofDigitChars 10 digits (st.mantissa * 10 + (d.toNat - 48)) := by
        rw [Nat.ofDigitChars_cons, Nat.mul_comm]
        rfl
      have hgrow := le_ofDigitChars digits (st.mantissa * 10 + (d.toNat - 48))
      rw [List.foldlM_cons, scanChar, if_pos (h d List.mem_cons_self), hnext, List.length_cons]
      unfold scanDigit
      by_cases hover : maxMantissa < st.mantissa * 10 + (d.toNat - 48)
      · rw [if_pos hover, if_neg (by omega)]
        rfl
      · rw [if_neg hover]
        have hle : st.mantissa * 10 + (d.toNat - 48) ≤ maxMantissa := Nat.le_of_not_lt hover
        cases hdot : st.seenDot with
        | true =>
            rw [if_pos rfl]
            by_cases hscale : maxDscale < st.dscale + 1
            · rw [if_pos hscale, if_neg]
              · rfl
              · intro hboth
                have := hboth.2 rfl
                omega
            · rw [if_neg hscale]
              have hloop := ih hrest
                { mantissa := st.mantissa * 10 + (d.toNat - 48), dscale := st.dscale + 1,
                  seenDot := true, seenDigit := true } hle (Nat.le_of_not_lt hscale)
              simpa [Nat.add_assoc, Nat.add_comm 1] using hloop
        | false =>
            have hloop := ih hrest
              { mantissa := st.mantissa * 10 + (d.toNat - 48), dscale := st.dscale,
                seenDot := false, seenDigit := true } hle hdscale
            simpa using hloop

theorem scanChar_point (st : Scan) (h : st.seenDot = false) :
    scanChar st '.' = some { st with seenDot := true } := by
  rw [scanChar, if_neg (by decide), if_pos ⟨rfl, h⟩]

theorem foldlM_int (r : Rendering) :
    r.int.foldlM scanChar scanStart =
      if number r.int ≤ maxMantissa then
        some { mantissa := number r.int, dscale := 0, seenDot := false, seenDigit := true }
      else none := by
  have hnonempty : r.int.isEmpty = false := by
    rw [List.isEmpty_eq_false_iff]
    exact r.int_ne_nil
  have hloop := foldlM_scanChar r.int_digits scanStart (Nat.zero_le _) (Nat.zero_le _)
  simp [scanStart, hnonempty] at hloop ⊢
  exact hloop

theorem foldlM_body (r : Rendering) :
    r.body.foldlM scanChar scanStart =
      if r.value ≤ maxMantissa ∧ r.frac.length ≤ maxDscale then
        some { mantissa := r.value, dscale := r.frac.length, seenDot := !r.frac.isEmpty,
               seenDigit := true }
      else none := by
  have hvalue : r.value = Nat.ofDigitChars 10 r.frac (number r.int) :=
    Nat.ofDigitChars_append 0
  have hgrow := le_ofDigitChars r.frac (number r.int)
  rw [Rendering.body, List.foldlM_append, foldlM_int]
  by_cases hfits : number r.int ≤ maxMantissa
  · rw [if_pos hfits]
    by_cases hfrac : r.frac = []
    · have hsame : r.value = number r.int := by rw [hvalue, hfrac, Nat.ofDigitChars_nil]
      rw [if_pos hfrac, hsame, hfrac]
      simp [hfits]
    · have hsome : r.frac.isEmpty = false := by rwa [List.isEmpty_eq_false_iff]
      have hbehind := foldlM_scanChar r.frac_digits
        { mantissa := number r.int, dscale := 0, seenDot := true, seenDigit := true } hfits
        (Nat.zero_le _)
      rw [if_neg hfrac, hvalue, Option.bind_eq_bind, Option.bind_some, List.foldlM_cons,
        scanChar_point _ rfl, Option.bind_eq_bind, Option.bind_some]
      simpa [hsome] using hbehind
  · have hover : ¬ (r.value ≤ maxMantissa ∧ r.frac.length ≤ maxDscale) := by omega
    rw [if_neg hfits, if_neg hover]
    rfl

/-- A rendering is read as its digits exactly when they fit. -/
theorem parseNumericScaled_text (r : Rendering) :
    parseNumericScaled r.text =
      if r.value ≤ maxMantissa ∧ r.frac.length ≤ maxDscale then some (r.mantissa, r.frac.length)
      else none := by
  rw [parseNumericScaled, r.splitSign_text, if_neg r.body_ne_nil, foldlM_body]
  split
  · rfl
  · rfl

/-! ## The formatter -/

section Format

variable {digits : Text} {s : ℕ}

theorem number_splitDigits (n s : ℕ) :
    number ((splitDigits (Nat.toDigits 10 n) s).1 ++ (splitDigits (Nat.toDigits 10 n) s).2) =
      n := by
  unfold splitDigits
  split
  · rw [List.take_append_drop, number, Nat.ofDigitChars_ten_toDigits]
  · show number (['0'] ++ padded s n) = n
    rw [List.singleton_append, number_zero_cons, number_padded]

theorem length_splitDigits_snd (n s : ℕ) :
    (splitDigits (Nat.toDigits 10 n) s).2.length = s := by
  unfold splitDigits
  split
  · rw [List.length_drop]
    omega
  · rw [List.length_leftpad]
    omega

theorem splitDigits_digits (n s : ℕ) :
    ∀ c ∈ (splitDigits (Nat.toDigits 10 n) s).1 ++ (splitDigits (Nat.toDigits 10 n) s).2,
      c.isDigit = true := by
  intro c hc
  unfold splitDigits at hc
  split at hc
  · rw [List.take_append_drop] at hc
    exact Nat.isDigit_of_mem_toDigits (by decide) (by decide) hc
  · cases List.mem_append.mp hc with
    | inl hzero => rw [List.mem_singleton.mp hzero]; rfl
    | inr hpad => exact isDigit_of_mem_padded hpad

theorem splitDigits_fst_ne_nil (n s : ℕ) : (splitDigits (Nat.toDigits 10 n) s).1 ≠ [] := by
  unfold splitDigits
  split
  · apply List.ne_nil_of_length_pos
    rw [List.length_take]
    omega
  · exact List.cons_ne_nil _ _

theorem splitDigits_leading (n s : ℕ)
    (h : (splitDigits (Nat.toDigits 10 n) s).1.head? = some '0') :
    (splitDigits (Nat.toDigits 10 n) s).1 = ['0'] := by
  unfold splitDigits at h ⊢
  split
  · next hlt =>
      rw [if_pos hlt] at h
      have hhead : (Nat.toDigits 10 n).head? = some '0' := by
        rwa [List.head?_take, if_neg (by omega)] at h
      rw [eq_zero_of_head hhead]
      rw [eq_zero_of_head hhead] at hlt
      have hzero : s = 0 := Nat.lt_one_iff.mp hlt
      rw [hzero]
      rfl
  · rfl

end Format

def renderingOf (m : BitVec 64) (dscale : ℕ) : Rendering where
  negative := decide (m.toInt < 0)
  int := (splitDigits (Nat.toDigits 10 m.toInt.natAbs) dscale).1
  frac := (splitDigits (Nat.toDigits 10 m.toInt.natAbs) dscale).2
  int_digits c hc := splitDigits_digits _ dscale c (List.mem_append_left _ hc)
  frac_digits c hc := splitDigits_digits _ dscale c (List.mem_append_right _ hc)
  int_ne_nil := splitDigits_fst_ne_nil _ dscale
  no_leading_zero := splitDigits_leading _ dscale
  no_negative_zero h := by
    have hneg := of_decide_eq_true h
    rw [number_splitDigits]
    omega

theorem splitDigits_zero (n : ℕ) :
    splitDigits (Nat.toDigits 10 n) 0 = (Nat.toDigits 10 n, []) := by
  rw [splitDigits, if_pos Nat.length_toDigits_pos, Nat.sub_zero, List.take_length,
    List.drop_length]

theorem formatNumericScaled_eq (m : BitVec 64) (dscale : ℕ) :
    formatNumericScaled m dscale = (renderingOf m dscale).text := by
  by_cases hzero : dscale = 0
  · have hfrac : (renderingOf m dscale).frac = [] := by
      rw [hzero]
      exact congrArg Prod.snd (splitDigits_zero _)
    have hint : (renderingOf m dscale).int = Nat.toDigits 10 m.toInt.natAbs := by
      rw [hzero]
      exact congrArg Prod.fst (splitDigits_zero _)
    rw [formatNumericScaled, if_pos hzero, Rendering.text, Rendering.body, if_pos hfrac, hint,
      List.append_nil, intText]
    exact if_congr (by simp [renderingOf]) rfl rfl
  · have hfrac : (renderingOf m dscale).frac ≠ [] := by
      apply List.ne_nil_of_length_pos
      show 0 < (splitDigits _ dscale).2.length
      rw [length_splitDigits_snd]
      omega
    rw [formatNumericScaled, if_neg hzero, Rendering.text, Rendering.body, if_neg hfrac]
    exact if_congr (by simp [renderingOf]) rfl rfl

/-! ## Main results -/

theorem toInt_mantissa (r : Rendering) (h : r.value ≤ maxMantissa) :
    r.mantissa.toInt = if r.negative then -(r.value : ℤ) else r.value := by
  have hmax : r.value < 2 ^ 63 := by
    rw [maxMantissa] at h
    omega
  have hpos : (BitVec.ofNat 64 r.value).toInt = r.value := by
    rw [BitVec.toInt_ofNat', Int.bmod_eq_of_le] <;> omega
  unfold Rendering.mantissa
  split
  · rw [BitVec.toInt_neg, hpos, Int.bmod_eq_of_le] <;> omega
  · exact hpos

theorem natAbs_le {m : BitVec 64} (hm : m ≠ BitVec.intMin 64) :
    m.toInt.natAbs ≤ maxMantissa := by
  have hlo := m.le_toInt
  have hhi : m.toInt < 2 ^ 63 := m.toInt_lt
  have hne : m.toInt ≠ -2 ^ 63 := by
    intro hmin
    apply hm
    apply BitVec.eq_of_toInt_eq
    rw [hmin]
    rfl
  rw [maxMantissa]
  omega

/-- A mantissa other than the least `i64` is read back from its text. -/
theorem parse_format {m : BitVec 64} (hm : m ≠ BitVec.intMin 64) {dscale : ℕ}
    (hd : dscale ≤ maxDscale) :
    parseNumericScaled (formatNumericScaled m dscale) = some (m, dscale) := by
  have hvalue : (renderingOf m dscale).value = m.toInt.natAbs := number_splitDigits _ dscale
  have hlen : (renderingOf m dscale).frac.length = dscale := length_splitDigits_snd _ dscale
  have hrange := natAbs_le hm
  have hsame : (renderingOf m dscale).mantissa = m := by
    apply BitVec.eq_of_toInt_eq
    rw [toInt_mantissa _ (hvalue ▸ hrange), hvalue]
    show (if decide (m.toInt < 0) = true then -(m.toInt.natAbs : ℤ) else m.toInt.natAbs) = m.toInt
    by_cases hneg : m.toInt < 0
    · rw [if_pos (decide_eq_true hneg)]
      omega
    · rw [if_neg (by rwa [decide_eq_true_eq])]
      omega
  rw [formatNumericScaled_eq, parseNumericScaled_text, hvalue, hlen, hsame, if_pos ⟨hrange, hd⟩]

theorem splitDigits_rendering (r : Rendering) :
    splitDigits (Nat.toDigits 10 r.value) r.frac.length = (r.int, r.frac) := by
  by_cases hlead : r.int.head? = some '0'
  · have hint := r.no_leading_zero hlead
    have hvalue : r.value = number r.frac := by
      rw [Rendering.value, hint, List.singleton_append, number_zero_cons]
    by_cases hfrac : r.frac = []
    · rw [hvalue, hfrac, hint]
      rfl
    · have hlen : (Nat.toDigits 10 (number r.frac)).length ≤ r.frac.length :=
        (Nat.length_toDigits_le_iff (by decide) (List.length_pos_of_ne_nil hfrac)).mpr
          (number_lt r.frac_digits)
      rw [hvalue, hint, splitDigits, if_neg (by omega)]
      exact congrArg (Prod.mk _) (padded_number r.frac_digits hfrac)
  · have hne : r.int ++ r.frac ≠ [] := List.append_ne_nil_of_left_ne_nil r.int_ne_nil _
    have hhead : (r.int ++ r.frac).head? ≠ some '0' := by
      rwa [List.head?_append_of_ne_nil _ r.int_ne_nil]
    have hpos : 0 < r.int.length := List.length_pos_of_ne_nil r.int_ne_nil
    have hlen : (r.int ++ r.frac).length - r.frac.length = r.int.length := by
      rw [List.length_append]
      omega
    rw [Rendering.value, toDigits_number r.digits hne hhead, splitDigits, if_pos, hlen,
      List.take_left, List.drop_left]
    rw [List.length_append]
    omega

theorem format_parse {r : Rendering} {m : BitVec 64} {dscale : ℕ}
    (h : parseNumericScaled r.text = some (m, dscale)) :
    formatNumericScaled m dscale = r.text := by
  rw [parseNumericScaled_text] at h
  split at h
  · next hfits =>
      obtain ⟨hm, hd⟩ := Prod.mk.inj (Option.some.inj h)
      have hint := toInt_mantissa r hfits.1
      rw [hm] at hint
      have habs : m.toInt.natAbs = r.value := by
        rw [hint]
        split <;> omega
      have hneg : decide (m.toInt < 0) = r.negative := by
        rw [hint]
        cases hcase : r.negative with
        | true =>
            have hpos := r.no_negative_zero hcase
            rw [if_pos rfl, decide_eq_true_eq]
            rw [Rendering.value]
            omega
        | false =>
            rw [if_neg Bool.false_ne_true, decide_eq_false_iff_not]
            omega
      have hparts : renderingOf m dscale = r := by
        have hsplit := splitDigits_rendering r
        rw [hd, ← habs] at hsplit
        exact Rendering.ext hneg (congrArg Prod.fst hsplit) (congrArg Prod.snd hsplit)
      rw [formatNumericScaled_eq, hparts]
  · exact absurd h (by simp)

/-- Every value parses with the scale, into the mantissa in its place; NULL stays NULL. -/
def Uniform (dscale : ℕ) (values : List (Option Text)) (out : List (Option (BitVec 64))) : Prop :=
  values.map (Option.map parseNumericScaled) =
    out.map (Option.map fun m => some (m, dscale))

theorem uniform_nil {dscale : ℕ} {out : List (Option (BitVec 64))} :
    Uniform dscale [] out ↔ out = [] := by
  rw [Uniform, List.map_nil, eq_comm, List.map_eq_nil_iff]

theorem uniform_null {dscale : ℕ} {values : List (Option Text)}
    {out : List (Option (BitVec 64))} :
    Uniform dscale (none :: values) out ↔
      ∃ rest, out = none :: rest ∧ Uniform dscale values rest := by
  unfold Uniform
  cases out with
  | nil => simp
  | cons o rest => cases o <;> simp

theorem uniform_value {dscale : ℕ} {s : Text} {values : List (Option Text)}
    {out : List (Option (BitVec 64))} :
    Uniform dscale (some s :: values) out ↔ ∃ m rest, parseNumericScaled s = some (m, dscale) ∧
      out = some m :: rest ∧ Uniform dscale values rest := by
  unfold Uniform
  cases out with
  | nil => simp
  | cons o rest => cases o <;> simp

theorem scaleValues_some {dscale : ℕ} {values : List (Option Text)}
    {out : List (Option (BitVec 64))} {last : Option ℕ} :
    scaleValues (some dscale) values = some (out, last) ↔
      last = some dscale ∧ Uniform dscale values out := by
  induction values generalizing out last with
  | nil =>
      rw [uniform_nil, scaleValues, Option.some.injEq, Prod.mk.injEq, and_comm, eq_comm,
        @eq_comm _ [] out]
  | cons v values ih =>
      cases v with
      | none =>
          rw [uniform_null, scaleValues, Option.map_eq_some_iff]
          constructor
          · intro ⟨rest, hrest, hout⟩
            obtain ⟨hfirst, hlast⟩ := Prod.mk.inj hout
            rw [← hlast]
            obtain ⟨hsome, huniform⟩ := ih.mp hrest
            exact ⟨hsome, rest.1, hfirst.symm, huniform⟩
          · intro ⟨hlast, rest, hout, huniform⟩
            exact ⟨(rest, last), ih.mpr ⟨hlast, huniform⟩, by rw [hout]⟩
      | some s =>
          rw [uniform_value, scaleValues, Option.bind_eq_some_iff]
          constructor
          · intro ⟨parsed, hparsed, hstep⟩
            split at hstep
            · exact absurd hstep (by simp)
            · next hsame =>
                have hscale : dscale = parsed.2 := by
                  by_contra hne
                  exact hsame ⟨dscale, rfl, hne⟩
                obtain ⟨rest, hrest, hout⟩ := Option.map_eq_some_iff.mp hstep
                obtain ⟨hfirst, hlast⟩ := Prod.mk.inj hout
                obtain ⟨hsome, huniform⟩ := ih.mp hrest
                rw [← hlast, hscale]
                rw [hscale] at hsome huniform
                exact ⟨hsome, parsed.1, rest.1, hparsed, hfirst.symm, huniform⟩
          · intro ⟨hlast, m, rest, hparsed, hout, huniform⟩
            refine ⟨(m, dscale), hparsed, ?_⟩
            rw [if_neg (by simp), Option.getD_some, Option.map_eq_some_iff]
            exact ⟨(rest, last), ih.mpr ⟨hlast, huniform⟩, by rw [hout]⟩

/-- The loop from the start: the first value that is not NULL sets the scale. -/
theorem scaleValues_none {values : List (Option Text)} {out : List (Option (BitVec 64))}
    {last : Option ℕ} :
    scaleValues none values = some (out, last) ↔
      Uniform (last.getD 0) values out ∧ (last = none ↔ ∀ v ∈ values, v = none) := by
  induction values generalizing out last with
  | nil =>
      rw [uniform_nil, scaleValues, Option.some.injEq, Prod.mk.injEq]
      simp [eq_comm]
  | cons v values ih =>
      cases v with
      | none =>
          rw [uniform_null, scaleValues, Option.map_eq_some_iff]
          simp only [List.forall_mem_cons, true_and]
          constructor
          · intro ⟨rest, hrest, hout⟩
            obtain ⟨hfirst, hlast⟩ := Prod.mk.inj hout
            rw [← hlast]
            obtain ⟨huniform, hnull⟩ := ih.mp hrest
            exact ⟨⟨rest.1, hfirst.symm, huniform⟩, hnull⟩
          · intro ⟨⟨rest, hout, huniform⟩, hnull⟩
            exact ⟨(rest, last), ih.mpr ⟨huniform, hnull⟩, by rw [hout]⟩
      | some s =>
          have hnever : ¬ ∀ v ∈ some s :: values, v = none := by
            intro h
            exact absurd (h _ List.mem_cons_self) (by simp)
          rw [uniform_value, scaleValues, Option.bind_eq_some_iff]
          constructor
          · intro ⟨parsed, hparsed, hstep⟩
            rw [if_neg (by simp), Option.getD_none] at hstep
            obtain ⟨rest, hrest, hout⟩ := Option.map_eq_some_iff.mp hstep
            obtain ⟨hfirst, hlast⟩ := Prod.mk.inj hout
            obtain ⟨hsome, huniform⟩ := scaleValues_some.mp hrest
            rw [← hlast, hsome]
            exact ⟨⟨parsed.1, rest.1, hparsed, hfirst.symm, huniform⟩, by simp, fun h =>
              absurd h hnever⟩
          · intro ⟨⟨m, rest, hparsed, hout, huniform⟩, hnull⟩
            cases last with
            | none => exact absurd (hnull.mp rfl) hnever
            | some dscale =>
                refine ⟨(m, dscale), hparsed, ?_⟩
                rw [if_neg (by simp), Option.getD_none, Option.map_eq_some_iff]
                exact ⟨(rest, some dscale), scaleValues_some.mpr ⟨rfl, huniform⟩, by rw [hout]⟩

theorem uniform_of_null {values : List (Option Text)} (h : ∀ v ∈ values, v = none)
    {dscale dscale' : ℕ} {out : List (Option (BitVec 64))} (hu : Uniform dscale values out) :
    Uniform dscale' values out := by
  induction values generalizing out with
  | nil => rwa [uniform_nil] at hu ⊢
  | cons v values ih =>
      rw [h v List.mem_cons_self, uniform_null] at hu ⊢
      obtain ⟨rest, hout, hrest⟩ := hu
      exact ⟨rest, hout, ih (fun w hw => h w (List.mem_cons_of_mem v hw)) hrest⟩

/-- A segment is scaled when its values parse with one scale; without values it is 0. -/
theorem toUniformScaled_eq_some {values : List (Option Text)}
    {out : List (Option (BitVec 64))} {dscale : ℕ} :
    toUniformScaled values = some (out, dscale) ↔
      Uniform dscale values out ∧ ((∀ v ∈ values, v = none) → dscale = 0) := by
  rw [toUniformScaled, Option.map_eq_some_iff]
  constructor
  · intro ⟨scaled, hscaled, hpair⟩
    obtain ⟨hout, hscale⟩ := Prod.mk.inj hpair
    obtain ⟨huniform, hnull⟩ := scaleValues_none.mp hscaled
    rw [← hout, ← hscale]
    exact ⟨huniform, fun h => by rw [hnull.mpr h]; rfl⟩
  · intro ⟨huniform, hzero⟩
    by_cases hall : ∀ v ∈ values, v = none
    · refine ⟨(out, none), scaleValues_none.mpr ⟨?_, by simpa using hall⟩, ?_⟩
      · exact uniform_of_null hall huniform
      · rw [hzero hall]
        rfl
    · exact ⟨(out, some dscale), scaleValues_none.mpr ⟨huniform, by simpa using hall⟩, rfl⟩

/-- Values that parse with one scale have their mantissas. -/
theorem exists_uniform {dscale : ℕ} {values : List (Option Text)}
    (h : ∀ s, some s ∈ values → ∃ m, parseNumericScaled s = some (m, dscale)) :
    ∃ out, Uniform dscale values out := by
  induction values with
  | nil => exact ⟨[], rfl⟩
  | cons v values ih =>
      obtain ⟨rest, hrest⟩ := ih fun s hs => h s (List.mem_cons_of_mem v hs)
      cases v with
      | none => exact ⟨none :: rest, uniform_null.mpr ⟨rest, rfl, hrest⟩⟩
      | some s =>
          obtain ⟨m, hm⟩ := h s List.mem_cons_self
          exact ⟨some m :: rest, uniform_value.mpr ⟨m, rest, hm, rfl, hrest⟩⟩

theorem parses_of_uniform {dscale : ℕ} {values : List (Option Text)}
    {out : List (Option (BitVec 64))} (h : Uniform dscale values out) {s : Text}
    (hs : some s ∈ values) : ∃ m, parseNumericScaled s = some (m, dscale) := by
  have hmem : some (parseNumericScaled s) ∈ values.map (Option.map parseNumericScaled) :=
    List.mem_map.mpr ⟨some s, hs, rfl⟩
  rw [h, List.mem_map] at hmem
  obtain ⟨o, -, ho⟩ := hmem
  obtain ⟨m, -, hm⟩ := Option.map_eq_some_iff.mp ho
  exact ⟨m, hm.symm⟩

/-- Scaled numerics lose nothing: both round trips, and the gate of a segment. -/
theorem numericScaled_lossless :
    (∀ (m : BitVec 64) (dscale : ℕ), m ≠ BitVec.intMin 64 → dscale ≤ 18 →
      parseNumericScaled (formatNumericScaled m dscale) = some (m, dscale)) ∧
    (∀ (r : Rendering) (m : BitVec 64) (dscale : ℕ),
      parseNumericScaled r.text = some (m, dscale) → formatNumericScaled m dscale = r.text) ∧
    (∀ values : List (Option Text), (toUniformScaled values).isSome = true ↔
      ∃ dscale, ∀ s, some s ∈ values → ∃ m, parseNumericScaled s = some (m, dscale)) ∧
    ∀ (values : List (Option Text)) (out : List (Option (BitVec 64))) (dscale : ℕ),
      toUniformScaled values = some (out, dscale) →
        values.map (Option.map parseNumericScaled) =
          out.map (Option.map fun m => some (m, dscale)) := by
  refine ⟨fun m dscale hm hd => parse_format hm hd, fun r m dscale h => format_parse h, ?_,
    fun values out dscale h => (toUniformScaled_eq_some.mp h).1⟩
  intro values
  rw [Option.isSome_iff_exists]
  constructor
  · intro ⟨scaled, hscaled⟩
    exact ⟨scaled.2, fun s hs => parses_of_uniform (toUniformScaled_eq_some.mp hscaled).1 hs⟩
  · intro ⟨dscale, hparse⟩
    by_cases hall : ∀ v ∈ values, v = none
    · obtain ⟨out, hout⟩ := exists_uniform hparse
      exact ⟨(out, 0), toUniformScaled_eq_some.mpr ⟨uniform_of_null hall hout, fun _ => rfl⟩⟩
    · obtain ⟨out, hout⟩ := exists_uniform hparse
      exact ⟨(out, dscale), toUniformScaled_eq_some.mpr ⟨hout, fun h => absurd h hall⟩⟩

end DeltaX.Codec.NumericScaled
