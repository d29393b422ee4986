import DeltaX.Agg.AreReading
import DeltaX.Agg.SimplePattern
/-!
# Simple patterns by their characters

`try_parse` works on bytes, a regular expression is read by characters.  A pattern that is
taken has one reading by characters, and that is the reading PostgreSQL has of it, but for
the stop of a capture that is written as an escape.
-/

namespace DeltaX.Agg.RegexpReplace

open Column (Text)
open Support.Utf8 Support.OrderedRegex

/-! ## Readings by characters -/

/-- A component by its characters; a stop may be written with a backslash. -/
inductive CharComp
  | lit (t : Text)
  | optLit (t : Text)
  | cap (escaped : Bool) (stop : Char)

def asciiByte (c : Char) : UInt8 := UInt8.ofNat c.toNat

def CharComp.bytes : CharComp → SimpleComp
  | lit t => .lit (utf8Bytes t)
  | optLit t => .optLit (utf8Bytes t)
  | cap _ stop => .cap (asciiByte stop)

def flushChars (comps : List CharComp) (cur : Text) : List CharComp :=
  if cur = [] then comps else comps ++ [.lit cur]

def isPlainChar (c : Char) : Bool :=
  !(['.', '?', '*', '+', '(', ')', '[', ']', '{', '}', '|', '^', '$', '\\'] : Text).any (· = c)

/-- The text of an optional group, and the literal it stands for. -/
inductive LitText : Text → Text → Prop
  | nil : LitText [] []
  | plain {c : Char} {body lit : Text} (hc : isPlainChar c = true) (h : LitText body lit) :
      LitText (c :: body) (c :: lit)
  | escape {e : Char} {body lit : Text} (he : isAlnum e = false) (h : LitText body lit) :
      LitText ('\\' :: e :: body) (e :: lit)

/-- The turns of `try_parse`, character by character. -/
inductive Parses : List CharComp → Text → Bool → Text → List CharComp × Bool → Prop
  | tail {comps : List CharComp} {cur : Text} {seen : Bool} :
      Parses comps cur seen ['.', '*', '$'] (flushChars comps cur, seen)
  | group {comps : List CharComp} {cur : Text} {seen : Bool} {body lit rest : Text}
      {r : List CharComp × Bool} (hlit : LitText body lit) (hne : lit ≠ [])
      (h : Parses (flushChars comps cur ++ [.optLit lit]) [] seen rest r) :
      Parses comps cur seen ('(' :: '?' :: ':' :: (body ++ ')' :: '?' :: rest)) r
  | capture {comps : List CharComp} {cur : Text} {stop : Char} {rest : Text}
      {r : List CharComp × Bool} (hascii : stop.toNat < 128) (hclose : stop ≠ ']')
      (hplain : stop ≠ '\\') (h : Parses (flushChars comps cur ++ [.cap false stop]) [] true rest r) :
      Parses comps cur false ('(' :: '[' :: '^' :: stop :: ']' :: '+' :: ')' :: rest) r
  | captureEscaped {comps : List CharComp} {cur : Text} {stop : Char} {rest : Text}
      {r : List CharComp × Bool} (hascii : stop.toNat < 128) (hclose : stop ≠ ']')
      (h : Parses (flushChars comps cur ++ [.cap true stop]) [] true rest r) :
      Parses comps cur false ('(' :: '[' :: '^' :: '\\' :: stop :: ']' :: '+' :: ')' :: rest) r
  | opt {comps : List CharComp} {front : Text} {c : Char} {seen : Bool} {rest : Text}
      {r : List CharComp × Bool}
      (h : Parses (flushChars comps front ++ [.optLit [c]]) [] seen rest r) :
      Parses comps (front ++ [c]) seen ('?' :: rest) r
  | escape {comps : List CharComp} {cur : Text} {seen : Bool} {e : Char} {rest : Text}
      {r : List CharComp × Bool} (he : isAlnum e = false)
      (h : Parses comps (cur ++ [e]) seen rest r) :
      Parses comps cur seen ('\\' :: e :: rest) r
  | plain {comps : List CharComp} {cur : Text} {seen : Bool} {c : Char} {rest : Text}
      {r : List CharComp × Bool} (hc : isPlainChar c = true)
      (h : Parses comps (cur ++ [c]) seen rest r) :
      Parses comps cur seen (c :: rest) r

/-! ## Bytes and characters -/

theorem utf8Bytes_cons_ascii {c : Char} (hc : c.toNat < 128) (rest : Text) :
    utf8Bytes (c :: rest) = asciiByte c :: utf8Bytes rest := by
  rw [utf8Bytes_cons, utf8EncodeChar_of_lt hc]
  rfl

/-- A byte below 128 begins a character of its own. -/
theorem exists_of_utf8Bytes_cons {text : Text} {b : UInt8} {tail : List UInt8}
    (h : utf8Bytes text = b :: tail) (hb : b.toNat < 128) :
    ∃ c rest, text = c :: rest ∧ c.toNat = b.toNat ∧ tail = utf8Bytes rest := by
  cases text with
  | nil => cases h
  | cons c rest =>
      obtain ⟨d, word, hword⟩ := List.exists_cons_of_ne_nil (utf8EncodeChar_ne_nil c)
      rw [utf8Bytes_cons, hword, List.cons_append] at h
      obtain ⟨rfl, rfl⟩ := List.cons.inj h
      have hcode : c.toNat = d.toNat := toNat_eq_of_mem (by rw [hword]; simp) hb
      rw [utf8EncodeChar_of_lt (hcode ▸ hb)] at hword
      obtain ⟨-, rfl⟩ := List.cons.inj hword
      exact ⟨c, rest, rfl, hcode, rfl⟩

theorem char_eq {c : Char} {n : ℕ} (h : c.toNat = n) : c = Char.ofNat n := by
  rw [← h, Char.ofNat_toNat]

theorem byte_eq_iff {c : Char} (hc : c.toNat < 128) {n : ℕ} (hn : n < 128) :
    asciiByte c = UInt8.ofNat n ↔ c.toNat = n := by
  rw [asciiByte, ← UInt8.toNat_inj, UInt8.toNat_ofNat', UInt8.toNat_ofNat']
  omega

theorem high_of_mem {c : Char} (hc : 128 ≤ c.toNat) {b : UInt8}
    (hb : b ∈ String.utf8EncodeChar c) : 128 ≤ b.toNat := by
  by_contra hlt
  have hcode := toNat_eq_of_mem hb (by omega)
  omega

theorem isPlain_of_high {b : UInt8} (hb : 128 ≤ b.toNat) : isPlain b = true := by
  have hsmall : ([46, 63, 42, 43, 40, 41, 91, 93, 123, 125, 124, 94, 36, 92] : List UInt8).all
      (fun d => decide (d.toNat < 128)) = true := by decide
  rw [isPlain, Bool.not_eq_true', List.any_eq_false]
  intro d hd heq
  have hlt := of_decide_eq_true (List.all_eq_true.mp hsmall d hd)
  rw [of_decide_eq_true heq] at hlt
  omega

theorem ne_of_high {b : UInt8} (hb : 128 ≤ b.toNat) {d : UInt8} (hd : d.toNat < 128) : b ≠ d := by
  rintro rfl
  omega

theorem isAlphanumeric_high {b : UInt8} (hb : 128 ≤ b.toNat) : isAsciiAlphanumeric b = false := by
  simp only [isAsciiAlphanumeric, Bool.or_eq_false_iff, Bool.and_eq_false_iff, decide_eq_false_iff_not,
    UInt8.le_iff_toNat_le, UInt8.reduceToNat]
  omega

theorem isAlphanumeric_ascii {c : Char} (hc : c.toNat < 128) :
    isAsciiAlphanumeric (asciiByte c) = isAlnum c := by
  have hbyte : (asciiByte c).toNat = c.toNat := by
    rw [asciiByte, UInt8.toNat_ofNat']
    omega
  simp only [isAsciiAlphanumeric, isAlnum, UInt8.le_iff_toNat_le, UInt8.reduceToNat, hbyte,
    Bool.decide_and]

theorem isAlnum_high {c : Char} (hc : 128 ≤ c.toNat) : isAlnum c = false := by
  simp only [isAlnum, Bool.or_eq_false_iff, decide_eq_false_iff_not]
  omega

theorem isPlain_ascii {c : Char} (hc : c.toNat < 128) : isPlain (asciiByte c) = isPlainChar c := by
  have hall : (List.range 128).all
      (fun n => isPlain (UInt8.ofNat n) == isPlainChar (Char.ofNat n)) = true := by decide
  have hcode := List.all_eq_true.mp hall c.toNat (List.mem_range.mpr hc)
  rw [Char.ofNat_toNat] at hcode
  exact eq_of_beq hcode

theorem isPlainChar_high {c : Char} (hc : 128 ≤ c.toNat) : isPlainChar c = true := by
  have hsmall : ['.', '?', '*', '+', '(', ')', '[', ']', '{', '}', '|', '^', '$', '\\'].all
      (fun d => decide (d.toNat < 128)) = true := by decide
  rw [isPlainChar, Bool.not_eq_true', List.any_eq_false]
  intro d hd heq
  have hlt := of_decide_eq_true (List.all_eq_true.mp hsmall d hd)
  rw [of_decide_eq_true heq] at hlt
  omega

/-! ## The literal of a group -/

theorem groupLit_escape (lit : List UInt8) (e : UInt8) (rest : List UInt8) :
    groupLit lit (92 :: e :: rest) =
      if isAsciiAlphanumeric e then none else groupLit (lit ++ [e]) rest := by
  rw [groupLit]

theorem groupLit_other {b : UInt8} (hclose : b ≠ 41) (hescape : b ≠ 92) (lit rest : List UInt8) :
    groupLit lit (b :: rest) = if isPlain b then groupLit (lit ++ [b]) rest else none := by
  rw [groupLit.eq_def]
  split
  · exact absurd ‹_› (List.cons_ne_nil _ _)
  · exact absurd (List.cons.inj ‹_›).1 hclose
  · exact absurd (List.cons.inj ‹_›).1 hescape
  · exact absurd (List.cons.inj ‹_›).1 hescape
  · rename_i h
    obtain ⟨rfl, rfl⟩ := List.cons.inj h
    rfl

theorem groupLit_high {word : List UInt8} (hword : ∀ b ∈ word, 128 ≤ b.toNat)
    (lit rest : List UInt8) : groupLit lit (word ++ rest) = groupLit (lit ++ word) rest := by
  induction word generalizing lit with
  | nil => rw [List.nil_append, List.append_nil]
  | cons b word ih =>
      have hb := hword b List.mem_cons_self
      rw [List.cons_append, groupLit_other (ne_of_high hb (by decide)) (ne_of_high hb (by decide)),
        if_pos (isPlain_of_high hb), ih (fun d hd => hword d (List.mem_cons_of_mem b hd)),
        List.append_assoc]
      rfl

theorem groupLit_wide {c : Char} (hc : 128 ≤ c.toNat) (lit : List UInt8) (text : Text) :
    groupLit lit (utf8Bytes (c :: text)) = groupLit (lit ++ utf8Bytes [c]) (utf8Bytes text) := by
  rw [utf8Bytes_cons, groupLit_high fun b hb => high_of_mem hc hb, utf8Bytes_cons, utf8Bytes_nil,
    List.append_nil]

theorem groupLit_escaped (lit : List UInt8) (e : Char) (text : Text) :
    groupLit lit (92 :: utf8Bytes (e :: text)) =
      if isAlnum e then none else groupLit (lit ++ utf8Bytes [e]) (utf8Bytes text) := by
  by_cases he : e.toNat < 128
  · rw [utf8Bytes_cons_ascii he, groupLit_escape, isAlphanumeric_ascii he,
      utf8Bytes_cons_ascii he, utf8Bytes_nil]
  · have hwide : 128 ≤ e.toNat := Nat.le_of_not_lt he
    obtain ⟨b, word, hword⟩ := List.exists_cons_of_ne_nil (utf8EncodeChar_ne_nil e)
    have hhigh : ∀ d ∈ b :: word, 128 ≤ d.toNat := fun d hd => high_of_mem hwide (hword ▸ hd)
    rw [utf8Bytes_cons, utf8Bytes_cons, utf8Bytes_nil, hword, List.cons_append, groupLit_escape,
      isAlphanumeric_high (hhigh b List.mem_cons_self), isAlnum_high hwide, if_neg (by decide),
      if_neg (by decide), groupLit_high fun d hd => hhigh d (List.mem_cons_of_mem b hd)]
    simp

theorem litText_of_groupLit {text : Text} {acc l tail : List UInt8}
    (h : groupLit acc (utf8Bytes text) = some (l, tail)) :
    ∃ body lit rest, text = body ++ ')' :: rest ∧ LitText body lit ∧ l = acc ++ utf8Bytes lit ∧
      tail = utf8Bytes rest := by
  induction hn : text.length using Nat.strong_induction_on generalizing text acc with
  | _ n ih =>
    have hnext : ∀ {c : Char} {rest : Text}, rest.length < n →
        groupLit (acc ++ utf8Bytes [c]) (utf8Bytes rest) = some (l, tail) →
        ∃ body lit rest', rest = body ++ ')' :: rest' ∧ LitText body lit ∧
          l = acc ++ utf8Bytes (c :: lit) ∧ tail = utf8Bytes rest' := by
      intro c rest hlen hrest
      obtain ⟨body, lit, rest', htext, hlit, hl, htail⟩ := ih _ hlen hrest rfl
      refine ⟨body, lit, rest', htext, hlit, ?_, htail⟩
      rw [hl, List.append_assoc, ← utf8Bytes_append]
      rfl
    cases text with
    | nil => cases h
    | cons c text =>
        rw [List.length_cons] at hn
        by_cases hc : c.toNat < 128
        · by_cases hclose : c = ')'
          · subst hclose
            rw [utf8Bytes_cons_ascii hc] at h
            obtain ⟨rfl, rfl⟩ := Prod.mk.inj (Option.some.inj h)
            exact ⟨[], [], text, rfl, .nil, by rw [utf8Bytes_nil, List.append_nil], rfl⟩
          by_cases hescape : c = '\\'
          · subst hescape
            rw [utf8Bytes_cons_ascii hc] at h
            cases text with
            | nil => cases h
            | cons e text =>
                have hescaped := groupLit_escaped acc e text
                rw [show asciiByte '\\' = 92 by decide, hescaped] at h
                split_ifs at h with halnum
                rw [List.length_cons] at hn
                obtain ⟨body, lit, rest, rfl, hlit, hl, htail⟩ := hnext (by omega) h
                exact ⟨'\\' :: e :: body, e :: lit, rest, rfl,
                  .escape (by simpa using halnum) hlit, hl, htail⟩
          · have hb : asciiByte c ≠ 41 := fun hb =>
              hclose (char_eq ((byte_eq_iff hc (by decide)).mp hb))
            have hb' : asciiByte c ≠ 92 := fun hb =>
              hescape (char_eq ((byte_eq_iff hc (by decide)).mp hb))
            rw [utf8Bytes_cons_ascii hc, groupLit_other hb hb', isPlain_ascii hc] at h
            split_ifs at h with hplain
            have hone : utf8Bytes [c] = [asciiByte c] := utf8Bytes_cons_ascii hc []
            rw [← hone] at h
            obtain ⟨body, lit, rest, rfl, hlit, hl, htail⟩ := hnext (by omega) h
            exact ⟨c :: body, c :: lit, rest, rfl, .plain hplain hlit, hl, htail⟩
        · have hwide : 128 ≤ c.toNat := Nat.le_of_not_lt hc
          rw [groupLit_wide hwide] at h
          obtain ⟨body, lit, rest, rfl, hlit, hl, htail⟩ := hnext (by omega) h
          exact ⟨c :: body, c :: lit, rest, rfl, .plain (isPlainChar_high hwide) hlit, hl, htail⟩

/-! ## The stop of a capture -/

theorem exists_of_utf8Bytes_append (word : Text) {text : Text} {tail : List UInt8}
    (hword : word.all (fun c => decide (c.toNat < 128)) = true)
    (h : utf8Bytes text = word.map asciiByte ++ tail) :
    ∃ rest, text = word ++ rest ∧ tail = utf8Bytes rest := by
  induction word generalizing text with
  | nil => exact ⟨text, rfl, h.symm⟩
  | cons c word ih =>
      rw [List.all_cons, Bool.and_eq_true, decide_eq_true_eq] at hword
      have hbyte : (asciiByte c).toNat = c.toNat := by
        rw [asciiByte, UInt8.toNat_ofNat']
        omega
      obtain ⟨d, text', rfl, hd, htail⟩ := exists_of_utf8Bytes_cons h (by omega)
      obtain ⟨rest, rfl, hrest⟩ := ih hword.2 htail.symm
      have hsame : d = c := by
        rw [char_eq (hd.trans hbyte), Char.ofNat_toNat]
      exact ⟨rest, by rw [hsame]; rfl, hrest⟩

/-- A stop, and the end of its bracket and its group. -/
theorem exists_of_closed {text : Text} {stop : UInt8} {tail : List UInt8}
    (h : utf8Bytes text = stop :: 93 :: 43 :: 41 :: tail) (hstop : stop.toNat < 128) :
    ∃ s rest, stop = asciiByte s ∧ s.toNat < 128 ∧ text = s :: ']' :: '+' :: ')' :: rest ∧
      tail = utf8Bytes rest := by
  obtain ⟨s, text', rfl, hs, htail⟩ := exists_of_utf8Bytes_cons h hstop
  obtain ⟨rest, rfl, hrest⟩ :=
    exists_of_utf8Bytes_append [']', '+', ')'] (by decide) htail.symm
  have hbyte : stop = asciiByte s := by
    rw [asciiByte, hs, UInt8.ofNat_toNat]
  exact ⟨s, rest, hbyte, by omega, rfl, hrest⟩

theorem exists_of_captureStop {text : Text} {stop : UInt8} {tail : List UInt8}
    (h : captureStop (utf8Bytes text) = some (stop, tail)) :
    ∃ s rest, stop = asciiByte s ∧ s.toNat < 128 ∧ s ≠ ']' ∧ tail = utf8Bytes rest ∧
      ((s ≠ '\\' ∧ text = s :: ']' :: '+' :: ')' :: rest) ∨
        text = '\\' :: s :: ']' :: '+' :: ')' :: rest) := by
  unfold captureStop at h
  split at h
  case h_2 => cases h
  case h_1 d after heq =>
    split_ifs at h with hd
    obtain ⟨rfl, rfl⟩ := Prod.mk.inj (Option.some.inj h)
    rw [Bool.or_eq_true, not_or, decide_eq_true_eq, decide_eq_true_eq, UInt8.le_iff_toNat_le] at hd
    have hascii : d.toNat < 128 := Nat.lt_of_not_le hd.1
    have hclose : ∀ s, d = asciiByte s → s ≠ ']' := by
      rintro s rfl rfl
      exact hd.2 (by decide)
    split_ifs at heq with hescape
    · have hbytes : utf8Bytes text = 92 :: (utf8Bytes text).tail :=
        (List.cons_head?_tail hescape).symm
      obtain ⟨c, text', rfl, hc, htail⟩ := exists_of_utf8Bytes_cons hbytes (by decide)
      rw [htail] at heq
      obtain ⟨s, rest, hs, hlt, rfl, hrest⟩ := exists_of_closed heq hascii
      have hslash : c = '\\' := char_eq hc
      exact ⟨s, rest, hs, hlt, hclose s hs, hrest, .inr (by rw [hslash])⟩
    · obtain ⟨s, rest, hs, hlt, rfl, hrest⟩ := exists_of_closed heq hascii
      refine ⟨s, rest, hs, hlt, hclose s hs, hrest, .inl ⟨?_, rfl⟩⟩
      rintro rfl
      apply hescape
      rw [heq, hs]
      rfl

/-! ## The turns -/

theorem flush_bytes (comps : List CharComp) (cur : Text) :
    flush (comps.map CharComp.bytes) (utf8Bytes cur) =
      (flushChars comps cur).map CharComp.bytes := by
  cases cur with
  | nil => rfl
  | cons c cur =>
      have hne : utf8Bytes (c :: cur) ≠ [] := by
        rw [utf8Bytes_cons]
        exact List.append_ne_nil_of_left_ne_nil (utf8EncodeChar_ne_nil c) _
      rw [flush, if_neg hne, flushChars, if_neg (List.cons_ne_nil c cur), List.map_append]
      rfl

theorem popChar_utf8Bytes {cur : Text} {front last : List UInt8}
    (h : popChar (utf8Bytes cur) = some (front, last)) :
    ∃ init c, cur = init ++ [c] ∧ front = utf8Bytes init ∧ last = utf8Bytes [c] := by
  rw [popChar, fromUtf8_utf8Bytes, Option.bind_some, Option.map_eq_some_iff] at h
  obtain ⟨c, hc, h⟩ := h
  have hcur : cur = cur.dropLast ++ [c] := (List.dropLast_append_getLast? c hc).symm
  have hone : utf8Bytes [c] = String.utf8EncodeChar c := by
    rw [utf8Bytes_cons, utf8Bytes_nil, List.append_nil]
  have hbytes : utf8Bytes cur = utf8Bytes cur.dropLast ++ utf8Bytes [c] := by
    rw [← utf8Bytes_append, ← hcur]
  have hcut : (utf8Bytes cur).length - (String.utf8EncodeChar c).length =
      (utf8Bytes cur.dropLast).length := by
    rw [hbytes, List.length_append, hone, Nat.add_sub_cancel]
  obtain ⟨hfront, hlast⟩ := Prod.mk.inj h
  rw [hcut, hbytes, List.take_left] at hfront
  rw [hcut, hbytes, List.drop_left] at hlast
  exact ⟨cur.dropLast, c, hcur, hfront.symm, hlast.symm⟩

/-- The bytes of a wide character are taken one by one. -/
theorem parseLoop_high {word : List UInt8} (hword : ∀ b ∈ word, 128 ≤ b.toNat) {fuel : ℕ}
    {comps : List SimpleComp} {cur rest : List UInt8} {seen : Bool} {r : List SimpleComp × Bool}
    (h : parseLoop fuel comps cur seen (word ++ rest) = some r) :
    ∃ fuel', parseLoop fuel' comps (cur ++ word) seen rest = some r := by
  induction word generalizing fuel cur with
  | nil => exact ⟨fuel, by rwa [List.append_nil]⟩
  | cons b word ih =>
      have hb := hword b List.mem_cons_self
      have hne : ∀ {d : UInt8}, d.toNat < 128 → b ≠ d := fun hd => ne_of_high hb hd
      cases fuel with
      | zero => cases h
      | succ fuel =>
          rw [List.cons_append, parseLoop, if_neg (hne (by decide)), if_neg (hne (by decide)),
            if_neg (hne (by decide)), if_neg (hne (by decide)), if_pos (isPlain_of_high hb)] at h
          obtain ⟨fuel', hfuel⟩ := ih (fun d hd => hword d (List.mem_cons_of_mem b hd)) h
          exact ⟨fuel', by rwa [List.append_assoc] at hfuel⟩

/-- An escaped character is taken as it is, however many bytes it has. -/
theorem parseLoop_escaped {fuel : ℕ} {comps : List SimpleComp} {cur : List UInt8} {seen : Bool}
    {e : Char} {text : Text} {r : List SimpleComp × Bool}
    (h : parseLoop fuel comps cur seen (92 :: utf8Bytes (e :: text)) = some r) :
    isAlnum e = false ∧
      ∃ fuel', parseLoop fuel' comps (cur ++ utf8Bytes [e]) seen (utf8Bytes text) = some r := by
  cases fuel with
  | zero => cases h
  | succ fuel =>
      by_cases he : e.toNat < 128
      · rw [utf8Bytes_cons_ascii he, parseLoop, if_neg (by decide), if_neg (by decide),
          if_neg (by decide), if_pos rfl, List.head?_cons, Option.bind_some,
          isAlphanumeric_ascii he] at h
        have hone : utf8Bytes [e] = [asciiByte e] := utf8Bytes_cons_ascii he []
        split_ifs at h with halnum
        rw [hone]
        exact ⟨by simpa using halnum, fuel, h⟩
      · have hwide : 128 ≤ e.toNat := Nat.le_of_not_lt he
        obtain ⟨b, word, hword⟩ := List.exists_cons_of_ne_nil (utf8EncodeChar_ne_nil e)
        have hhigh : ∀ d ∈ b :: word, 128 ≤ d.toNat := fun d hd => high_of_mem hwide (hword ▸ hd)
        have hb := isAlphanumeric_high (hhigh b List.mem_cons_self)
        rw [utf8Bytes_cons, hword, List.cons_append, parseLoop, if_neg (by decide),
          if_neg (by decide), if_neg (by decide), if_pos rfl, List.head?_cons, Option.bind_some,
          hb, if_neg Bool.false_ne_true] at h
        obtain ⟨fuel', hfuel⟩ := parseLoop_high (fun d hd => hhigh d (List.mem_cons_of_mem b hd)) h
        have hone : utf8Bytes [e] = b :: word := by
          rw [utf8Bytes_cons, utf8Bytes_nil, List.append_nil, hword]
        rw [hone]
        exact ⟨isAlnum_high hwide, fuel', by rwa [List.append_assoc] at hfuel⟩

theorem group_of_readGroup {seen seen' : Bool} {text : Text} {comp : SimpleComp}
    {tail : List UInt8} (h : readGroup seen (utf8Bytes text) = some (comp, seen', tail)) :
    (∃ body lit rest, text = '?' :: ':' :: (body ++ ')' :: '?' :: rest) ∧ LitText body lit ∧
      lit ≠ [] ∧ comp = .optLit (utf8Bytes lit) ∧ seen' = seen ∧ tail = utf8Bytes rest) ∨
    seen = false ∧ ∃ escaped stop rest, stop.toNat < 128 ∧ stop ≠ ']' ∧
      (escaped = false ∧ stop ≠ '\\' ∧
          text = '[' :: '^' :: stop :: ']' :: '+' :: ')' :: rest ∨
        escaped = true ∧ text = '[' :: '^' :: '\\' :: stop :: ']' :: '+' :: ')' :: rest) ∧
      comp = (CharComp.cap escaped stop).bytes ∧ seen' = true ∧ tail = utf8Bytes rest := by
  unfold readGroup at h
  split at h
  case h_1 group heq =>
    left
    obtain ⟨text, rfl, rfl⟩ :=
      exists_of_utf8Bytes_append ['?', ':'] (by decide) heq
    split at h
    case h_2 => cases h
    case h_1 lit rest hgroup =>
      split_ifs at h with hlit
      obtain ⟨rfl, rfl, rfl⟩ : comp = .optLit lit ∧ seen' = seen ∧ tail = rest := by
        simpa [eq_comm] using h
      obtain ⟨body, lit', rest', rfl, hbody, rfl, hrest⟩ := litText_of_groupLit hgroup
      obtain ⟨text, rfl, htext⟩ :=
        exists_of_utf8Bytes_append ['?'] (by decide) hrest.symm
      refine ⟨body, lit', text, rfl, hbody, ?_, rfl, rfl, htext⟩
      rintro rfl
      exact hlit rfl
  case h_2 bracket heq =>
    right
    obtain ⟨text, rfl, rfl⟩ :=
      exists_of_utf8Bytes_append ['[', '^'] (by decide) heq
    split_ifs at h with hseen
    obtain ⟨⟨stop, rest⟩, hcapture, h⟩ := Option.map_eq_some_iff.mp h
    obtain ⟨rfl, rfl, rfl⟩ : comp = .cap stop ∧ seen' = true ∧ tail = rest := by
      simpa [eq_comm] using h
    obtain ⟨s, rest', rfl, hascii, hclose, hrest, htext⟩ := exists_of_captureStop hcapture
    refine ⟨by simpa using hseen, ?_⟩
    rcases htext with ⟨hplain, rfl⟩ | rfl
    · exact ⟨false, s, rest', hascii, hclose, .inl ⟨rfl, hplain, rfl⟩, rfl, rfl, hrest⟩
    · exact ⟨true, s, rest', hascii, hclose, .inr ⟨rfl, rfl⟩, rfl, rfl, hrest⟩
  case h_3 => cases h

/-- A pattern that is taken is taken by its characters. -/
theorem parses_of_parseLoop {fuel : ℕ} {comps : List CharComp} {cur : Text} {seen : Bool}
    {text : Text} {r : List SimpleComp × Bool}
    (h : parseLoop fuel (comps.map CharComp.bytes) (utf8Bytes cur) seen (utf8Bytes text) =
      some r) :
    ∃ cr : List CharComp × Bool,
      Parses comps cur seen text cr ∧ r = (cr.1.map CharComp.bytes, cr.2) := by
  induction hn : text.length using Nat.strong_induction_on
    generalizing fuel comps cur seen text with
  | _ n ih =>
  cases text with
  | nil => cases fuel <;> cases h
  | cons c text =>
  rw [List.length_cons] at hn
  by_cases hc : c.toNat < 128
  case neg =>
    have hwide : 128 ≤ c.toNat := Nat.le_of_not_lt hc
    have hone : utf8Bytes [c] = String.utf8EncodeChar c := by
      rw [utf8Bytes_cons, utf8Bytes_nil, List.append_nil]
    rw [utf8Bytes_cons] at h
    obtain ⟨fuel', h⟩ := parseLoop_high (fun b hb => high_of_mem hwide hb) h
    rw [← hone, ← utf8Bytes_append] at h
    obtain ⟨cr, hparses, hr⟩ := ih _ (by omega) h rfl
    exact ⟨cr, .plain (isPlainChar_high hwide) hparses, hr⟩
  have hcode : ∀ {k : ℕ}, k < 128 → asciiByte c = UInt8.ofNat k → c = Char.ofNat k :=
    fun hk hbyte => char_eq ((byte_eq_iff hc hk).mp hbyte)
  cases fuel with
  | zero => cases h
  | succ fuel =>
  rw [utf8Bytes_cons_ascii hc] at h
  by_cases hescape : asciiByte c = 92
  · obtain rfl : c = '\\' := hcode (by decide) hescape
    cases text with
    | nil => cases h
    | cons e text =>
        rw [List.length_cons] at hn
        rw [hescape] at h
        obtain ⟨he, fuel', h⟩ := parseLoop_escaped h
        rw [← utf8Bytes_append] at h
        obtain ⟨cr, hparses, hr⟩ := ih _ (by omega) h rfl
        exact ⟨cr, .escape he hparses, hr⟩
  rw [parseLoop] at h
  split_ifs at h with hdot htail hopen hquestion hplain
  -- the tail
  · obtain rfl : c = '.' := hcode (by decide) hdot
    obtain ⟨rest, rfl, hrest⟩ := exists_of_utf8Bytes_append ['*', '$'] (by decide)
      (htail.trans (List.append_nil _).symm)
    obtain rfl : rest = [] := utf8Bytes_injective hrest.symm
    rw [flush_bytes] at h
    exact ⟨_, .tail, (Option.some.inj h).symm⟩
  -- a group
  · obtain rfl : c = '(' := hcode (by decide) hopen
    obtain ⟨⟨comp, seen', rest⟩, hgroup, hloop⟩ := Option.bind_eq_some_iff.mp h
    rw [flush_bytes] at hloop
    have hpush : ∀ comp : CharComp, (flushChars comps cur).map CharComp.bytes ++ [comp.bytes] =
        (flushChars comps cur ++ [comp]).map CharComp.bytes := by
      intro comp
      rw [List.map_append]
      rfl
    rcases group_of_readGroup hgroup with ⟨body, lit, rest, rfl, hlit, hne, rfl, rfl, rfl⟩ |
      ⟨rfl, escaped, stop, rest, hascii, hclose, hescaped, rfl, rfl, rfl⟩
    · rw [show SimpleComp.optLit (utf8Bytes lit) = (CharComp.optLit lit).bytes from rfl, hpush,
        ← utf8Bytes_nil] at hloop
      simp only [List.length_cons, List.length_append] at hn
      obtain ⟨cr, hparses, hr⟩ := ih _ (by omega) hloop rfl
      exact ⟨cr, .group hlit hne hparses, hr⟩
    · rw [hpush, ← utf8Bytes_nil] at hloop
      rcases hescaped with ⟨rfl, hplain, rfl⟩ | ⟨rfl, rfl⟩
      · simp only [List.length_cons] at hn
        obtain ⟨cr, hparses, hr⟩ := ih _ (by omega) hloop rfl
        exact ⟨cr, .capture hascii hclose hplain hparses, hr⟩
      · simp only [List.length_cons] at hn
        obtain ⟨cr, hparses, hr⟩ := ih _ (by omega) hloop rfl
        exact ⟨cr, .captureEscaped hascii hclose hparses, hr⟩
  -- an optional character
  · obtain rfl : c = '?' := hcode (by decide) hquestion
    obtain ⟨⟨front, last⟩, hpop, h⟩ := Option.bind_eq_some_iff.mp h
    obtain ⟨init, d, rfl, rfl, rfl⟩ := popChar_utf8Bytes hpop
    rw [flush_bytes] at h
    have hcomps : (flushChars comps init).map CharComp.bytes ++
          [SimpleComp.optLit (utf8Bytes [d])] =
        (flushChars comps init ++ [CharComp.optLit [d]]).map CharComp.bytes := by
      rw [List.map_append]
      rfl
    rw [hcomps, ← utf8Bytes_nil] at h
    obtain ⟨cr, hparses, hr⟩ := ih _ (by omega) h rfl
    exact ⟨cr, .opt hparses, hr⟩
  -- a character that stands for itself
  · have hone : utf8Bytes [c] = [asciiByte c] := utf8Bytes_cons_ascii hc []
    rw [← hone, ← utf8Bytes_append] at h
    obtain ⟨cr, hparses, hr⟩ := ih _ (by omega) h rfl
    exact ⟨cr, .plain ((isPlain_ascii hc).symm.trans hplain) hparses, hr⟩

end DeltaX.Agg.RegexpReplace
