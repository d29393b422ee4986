import DeltaX.Agg.PatternReading
/-!
# What a simple pattern means

PostgreSQL reads a pattern that is taken as the expressions of its components, with an anchor
in front and `.*$` behind.  Only the stop of a capture that is written as an escape of an
ASCII letter or digit is another one for PostgreSQL than for `try_parse`.
-/

namespace DeltaX.Agg.RegexpReplace

open Column (Text)
open Support.Utf8 Support.OrderedRegex

variable (locale : Locale)

/-! ## The expressions of components -/

def captureBut (p : Char → Bool) : Re Char := .capture (.plus (.set fun c => !p c))

def optText (t : Text) : Re Char := .opt (branch (t.map one))

/-- `.*$`. -/
def tailItems : List (Re Char) := [.star (.set fun _ => true), .eos]

/-- The expressions of a component as PostgreSQL reads it. -/
def CharComp.items : CharComp → Option (List (Re Char))
  | lit t => some (t.map one)
  | optLit t => some [optText t]
  | cap false stop => some [captureBut (· = stop)]
  | cap true e => (escapeSet locale e).map fun p => [captureBut p]

def itemsOf : List CharComp → Option (List (Re Char))
  | [] => some []
  | comp :: comps => (comp.items locale).bind fun a => (itemsOf comps).map (a ++ ·)

theorem itemsOf_append (xs ys : List CharComp) :
    itemsOf locale (xs ++ ys) =
      (itemsOf locale xs).bind fun a => (itemsOf locale ys).map (a ++ ·) := by
  induction xs with
  | nil =>
      show _ = (itemsOf locale ys).map ([] ++ ·)
      simp
  | cons x xs ih =>
      rw [List.cons_append, itemsOf, itemsOf, ih]
      cases x.items locale <;> cases itemsOf locale xs <;> cases itemsOf locale ys <;> simp

theorem itemsOf_flush (comps : List CharComp) (cur : Text) :
    itemsOf locale (flushChars comps cur) = (itemsOf locale comps).map (· ++ cur.map one) := by
  unfold flushChars
  split
  · rename_i h
    subst h
    simp
  · rw [itemsOf_append]
    cases itemsOf locale comps <;> simp [itemsOf, CharComp.items]

/-! ## Atoms -/

def readBehind (fuel : ℕ) (r : Re Char) (rest : Text) : Option (List (Re Char) × Text) :=
  (readQuantified r rest).bind fun x =>
    (readBranch locale fuel x.2).map fun y => (x.1 :: y.1, y.2)

theorem ne_of_plain {c : Char} (hc : isPlainChar c = true) {d : Char} (hd : isPlainChar d = false) :
    c ≠ d := by
  rintro rfl
  rw [hc] at hd
  cases hd

theorem isMeta_of_plain {c : Char} (hc : isPlainChar c = true) : isMeta c = false := by
  simp only [isPlainChar, Bool.not_eq_true', List.any_cons, Bool.or_eq_false_iff] at hc
  simp only [isMeta, List.any_cons, List.any_nil, Bool.or_eq_false_iff]
  obtain ⟨-, hquestion, hstar, hplus, -, -, -, -, hbrace, -, hbar, -⟩ := hc
  exact ⟨hstar, hplus, hquestion, hbrace, hbar, trivial⟩

theorem readBranch_plain (fuel : ℕ) {c : Char} (hc : isPlainChar c = true) (rest : Text) :
    readBranch locale (fuel + 1) (c :: rest) = readBehind locale fuel (one c) rest := by
  rw [readBranch.eq_def]
  dsimp only
  rw [if_neg (ne_of_plain hc (by decide)), if_neg (ne_of_plain hc (by decide)),
    if_neg (ne_of_plain hc (by decide)), if_neg (ne_of_plain hc (by decide)),
    if_neg (ne_of_plain hc (by decide)), if_neg (ne_of_plain hc (by decide)),
    if_neg (ne_of_plain hc (by decide)), if_neg (by rw [isMeta_of_plain hc]; decide)]
  rfl

/-- What is no letter or digit stands for itself behind a backslash. -/
theorem escapeSet_other {e : Char} (he : isAlnum e = false) :
    escapeSet locale e = some fun c => decide (c = e) := by
  rw [escapeSet.eq_def, he, if_neg Bool.false_ne_true]

theorem readBranch_escape (fuel : ℕ) {e : Char} (he : isAlnum e = false) (rest : Text) :
    readBranch locale (fuel + 1) ('\\' :: e :: rest) = readBehind locale fuel (one e) rest := by
  rw [readBranch.eq_def]
  simp [escapeSet_other locale he]
  rfl

theorem readBranch_group (fuel : ℕ) {text rest : Text} {rs : List (Re Char)}
    (h : readBranch locale fuel text = some (rs, ')' :: rest)) :
    readBranch locale (fuel + 1) ('(' :: '?' :: ':' :: text) =
      readBehind locale fuel (branch rs) rest := by
  rw [readBranch.eq_def]
  simp [h]
  rfl

/-- A quantifier behind an atom of one character would be its own. -/
theorem readQuantified_other (r : Re Char) {rest : Text}
    (h : ∀ q ∈ rest.head?, q ≠ '?' ∧ q ≠ '*' ∧ q ≠ '+') :
    readQuantified r rest = some (r, rest) := by
  unfold readQuantified
  split
  · exact absurd rfl (h '?' rfl).1
  · exact absurd rfl (h '*' rfl).2.1
  · exact absurd rfl (h '+' rfl).2.2
  · rfl

theorem readBehind_other (fuel : ℕ) (r : Re Char) {rest : Text}
    (h : ∀ q ∈ rest.head?, q ≠ '?' ∧ q ≠ '*' ∧ q ≠ '+') :
    readBehind locale fuel r rest = (readBranch locale fuel rest).map fun y => (r :: y.1, y.2) := by
  rw [readBehind, readQuantified_other r h, Option.bind_some]

theorem readBehind_opt (fuel : ℕ) (r : Re Char) {rest : Text} (h : rest.head? ≠ some '?') :
    readBehind locale fuel r ('?' :: rest) =
      (readBranch locale fuel rest).map fun y => (.opt r :: y.1, y.2) := by
  rw [readBehind, readQuantified, if_neg h, Option.bind_some]

theorem not_quantifier_of_plain {c : Char} (hc : isPlainChar c = true) :
    c ≠ '?' ∧ c ≠ '*' ∧ c ≠ '+' :=
  ⟨ne_of_plain hc (by decide), ne_of_plain hc (by decide), ne_of_plain hc (by decide)⟩

theorem LitText.head_not_quantifier {body lit : Text} (h : LitText body lit) (rest : Text) :
    ∀ q ∈ (body ++ ')' :: rest).head?, q ≠ '?' ∧ q ≠ '*' ∧ q ≠ '+' := by
  intro q hq
  cases h with
  | nil =>
      obtain rfl : ')' = q := by simpa using hq
      decide
  | plain hc h =>
      rw [List.cons_append, List.head?_cons, Option.mem_some_iff] at hq
      exact hq ▸ not_quantifier_of_plain hc
  | escape he h =>
      obtain rfl : '\\' = q := by simpa using hq
      decide

theorem readBranch_litText {body lit : Text} (h : LitText body lit) {fuel : ℕ}
    (hfuel : body.length < fuel) (rest : Text) :
    readBranch locale fuel (body ++ ')' :: rest) = some (lit.map one, ')' :: rest) := by
  induction h generalizing fuel with
  | nil =>
      obtain ⟨fuel, rfl⟩ := Nat.exists_eq_add_of_lt hfuel
      rfl
  | plain hc h ih =>
      obtain ⟨fuel, rfl⟩ := Nat.exists_eq_add_of_lt hfuel
      rw [List.cons_append, readBranch_plain locale _ hc,
        readBehind_other locale _ _ (h.head_not_quantifier rest),
        ih (by simp only [List.length_cons]; omega)]
      rfl
  | escape he h ih =>
      obtain ⟨fuel, rfl⟩ := Nat.exists_eq_add_of_lt hfuel
      rw [List.cons_append, List.cons_append, readBranch_escape locale _ he,
        readBehind_other locale _ _ (h.head_not_quantifier rest),
        ih (by simp only [List.length_cons]; omega)]
      rfl

theorem readBracket_stop {stop : Char} (hclose : stop ≠ ']') (hplain : stop ≠ '\\') (rest : Text) :
    readBracket locale (stop :: ']' :: rest) = some ((fun c => decide (c = stop)), rest) := by
  by_cases hdash : stop = '-'
  · subst hdash
    rfl
  have hfirst : ¬(stop = ']' ∨ stop = '-') := not_or.mpr ⟨hclose, hdash⟩
  rw [readBracket, if_neg hfirst]
  by_cases hopen : stop = '['
  · subst hopen
    rfl
  rw [readBracketFrom.eq_def]
  split
  · exact absurd ‹_› (List.cons_ne_nil _ _)
  · exact absurd (List.cons.inj ‹_›).1 hclose
  · exact absurd (List.cons.inj ‹_›).1 hplain
  · exact absurd (List.cons.inj ‹_›).1 hplain
  · exact absurd (List.cons.inj ‹_›).1 hopen
  · rename_i h
    obtain ⟨rfl, rfl⟩ := List.cons.inj h
    rw [if_neg hdash]
    rfl

theorem readBracket_escaped (e : Char) (rest : Text) :
    readBracket locale ('\\' :: e :: ']' :: rest) =
      (escapeSet locale e).map fun p => (p, rest) := by
  rw [readBracket, if_neg (by decide), readBracketFrom]
  cases escapeSet locale e <;> rfl

theorem readBranch_capture (fuel : ℕ) {text rest : Text} {p : Char → Bool}
    (h : readBracket locale text = some (p, '+' :: ')' :: rest)) :
    readBranch locale (fuel + 3) ('(' :: '[' :: '^' :: text) =
      readBehind locale (fuel + 2) (captureBut p) rest := by
  have hbracket : readBranch locale (fuel + 2) ('[' :: '^' :: text) =
      some ([.plus (.set fun c => !p c)], ')' :: rest) := by
    rw [readBranch.eq_def]
    simp [h]
    rfl
  rw [readBranch.eq_def]
  simp [hbracket]
  rfl

theorem readBranch_capture_none (fuel : ℕ) {text : Text} (h : readBracket locale text = none) :
    readBranch locale (fuel + 2) ('(' :: '[' :: '^' :: text) = none := by
  have hbracket : readBranch locale (fuel + 1) ('[' :: '^' :: text) = none := by
    rw [readBranch.eq_def]
    simp [h]
  rw [readBranch.eq_def]
  simp [hbracket]

/-! ## The reading of a pattern -/

/-- What is read with the pending literal in front, whose last character a quantifier takes. -/
def readPending (fuel : ℕ) (cur rest : Text) : Option (List (Re Char) × Text) :=
  match cur.getLast? with
  | none => readBranch locale fuel rest
  | some c =>
      (readBehind locale fuel (one c) rest).map fun y => (cur.dropLast.map one ++ y.1, y.2)

theorem readPending_snoc (fuel : ℕ) (front : Text) (c : Char) (rest : Text) :
    readPending locale fuel (front ++ [c]) rest =
      (readBehind locale fuel (one c) rest).map fun y => (front.map one ++ y.1, y.2) := by
  rw [readPending, List.getLast?_concat, List.dropLast_concat]

theorem readPending_other (fuel : ℕ) (cur : Text) {rest : Text}
    (h : ∀ q ∈ rest.head?, q ≠ '?' ∧ q ≠ '*' ∧ q ≠ '+') :
    readPending locale fuel cur rest =
      (readBranch locale fuel rest).map fun y => (cur.map one ++ y.1, y.2) := by
  rcases List.eq_nil_or_concat cur with rfl | ⟨front, c, rfl⟩
  · show readBranch locale fuel rest = (readBranch locale fuel rest).map id
    rw [Option.map_id]
    rfl
  · rw [List.concat_eq_append, readPending_snoc, readBehind_other locale fuel _ h, Option.map_map]
    congr 1
    funext y
    simp

/-- A character that stands for itself becomes part of the pending literal. -/
theorem readPending_take {fuel : ℕ} (cur : Text) {c q : Char} {text rest : Text}
    (hread : readBranch locale (fuel + 1) (q :: text) = readBehind locale fuel (one c) rest)
    (hq : q ≠ '?' ∧ q ≠ '*' ∧ q ≠ '+') :
    readPending locale (fuel + 1) cur (q :: text) = readPending locale fuel (cur ++ [c]) rest := by
  have hhead : ∀ d ∈ (q :: text).head?, d ≠ '?' ∧ d ≠ '*' ∧ d ≠ '+' := by
    intro d hd
    obtain rfl : q = d := by simpa using hd
    exact hq
  rw [readPending_other locale (fuel + 1) cur hhead, hread, readPending_snoc]

theorem Parses.head_not_quantifier {comps : List CharComp} {seen : Bool} {rest : Text}
    {r : List CharComp × Bool} (h : Parses comps [] seen rest r) :
    ∀ q ∈ rest.head?, q ≠ '?' ∧ q ≠ '*' ∧ q ≠ '+' := by
  intro q hq
  generalize hcur : ([] : Text) = cur at h
  cases h with
  | opt h => exact absurd hcur.symm (by simp)
  | plain hc h =>
      rw [List.head?_cons, Option.mem_some_iff] at hq
      exact hq ▸ not_quantifier_of_plain hc
  | _ =>
      rw [List.head?_cons, Option.mem_some_iff] at hq
      rw [← hq]
      decide

def readAll (fuel : ℕ) (comps : List CharComp) (cur rest : Text) :
    Option (List (Re Char) × Text) :=
  (itemsOf locale comps).bind fun a =>
    (readPending locale fuel cur rest).map fun y => (a ++ y.1, y.2)

/-- A component of one expression behind a literal. -/
theorem readAll_push {fuel fuel' : ℕ} (comps : List CharComp) {front cur text rest : Text}
    {comp : CharComp} {e : Re Char} (hcomp : comp.items locale = some [e])
    (h : readPending locale fuel cur text =
      (readBranch locale fuel' rest).map fun y => (front.map one ++ e :: y.1, y.2)) :
    readAll locale fuel comps cur text =
      readAll locale fuel' (flushChars comps front ++ [comp]) [] rest := by
  have hitems : itemsOf locale (flushChars comps front ++ [comp]) =
      (itemsOf locale comps).map (· ++ (front.map one ++ [e])) := by
    rw [itemsOf_append, itemsOf_flush]
    cases itemsOf locale comps <;> simp [itemsOf, hcomp]
  have hpending : readPending locale fuel' [] rest = readBranch locale fuel' rest := rfl
  rw [readAll, readAll, hitems, h, hpending]
  cases itemsOf locale comps <;> cases readBranch locale fuel' rest <;> simp

theorem readAll_of_parses {comps : List CharComp} {cur : Text} {seen : Bool} {rest : Text}
    {r : List CharComp × Bool} (h : Parses comps cur seen rest r) {fuel : ℕ}
    (hfuel : rest.length < fuel) :
    readAll locale fuel comps cur rest =
      (itemsOf locale r.1).map fun rs => (rs ++ tailItems, []) := by
  induction h generalizing fuel with
  | @tail comps cur seen =>
      obtain ⟨fuel, rfl⟩ : ∃ n, fuel = n + 4 := ⟨fuel - 4, by simp at hfuel; omega⟩
      have htail : readBranch locale (fuel + 4) ['.', '*', '$'] = some (tailItems, []) := rfl
      rw [readAll, readPending_other locale _ cur (by simp), htail, itemsOf_flush]
      cases itemsOf locale comps <;> simp
  | @group comps cur seen body lit rest r hlit hne h ih =>
      simp only [List.length_cons, List.length_append] at hfuel
      obtain ⟨fuel, rfl⟩ : ∃ n, fuel = n + 1 := ⟨fuel - 1, by omega⟩
      have hlazy : rest.head? ≠ some '?' := fun hq => (h.head_not_quantifier '?' hq).1 rfl
      have hinner := readBranch_litText locale hlit (show body.length < fuel by omega) ('?' :: rest)
      have hread := (readBranch_group locale fuel hinner).trans
        (readBehind_opt locale fuel (branch (lit.map one)) hlazy)
      have hpending : readPending locale (fuel + 1) cur
          ('(' :: '?' :: ':' :: (body ++ ')' :: '?' :: rest)) =
          (readBranch locale fuel rest).map fun y => (cur.map one ++ optText lit :: y.1, y.2) := by
        rw [readPending_other locale _ cur (by simp), hread, Option.map_map]
        rfl
      have hcomp : (CharComp.optLit lit).items locale = some [optText lit] := rfl
      rw [readAll_push locale comps hcomp hpending]
      exact ih (by omega)
  | @capture comps cur stop rest r hascii hclose hplain h ih =>
      simp only [List.length_cons] at hfuel
      obtain ⟨fuel, rfl⟩ : ∃ n, fuel = n + 3 := ⟨fuel - 3, by omega⟩
      have hbracket := readBracket_stop locale hclose hplain ('+' :: ')' :: rest)
      have hread := (readBranch_capture locale fuel hbracket).trans
        (readBehind_other locale (fuel + 2) _ h.head_not_quantifier)
      have hpending : readPending locale (fuel + 3) cur
          ('(' :: '[' :: '^' :: stop :: ']' :: '+' :: ')' :: rest) =
          (readBranch locale (fuel + 2) rest).map fun y =>
            (cur.map one ++ captureBut (fun c => decide (c = stop)) :: y.1, y.2) := by
        rw [readPending_other locale _ cur (by simp), hread, Option.map_map]
        rfl
      have hcomp : (CharComp.cap false stop).items locale =
          some [captureBut fun c => decide (c = stop)] := rfl
      rw [readAll_push locale comps hcomp hpending]
      exact ih (by omega)
  | @captureEscaped comps cur stop rest r hascii hclose h ih =>
      simp only [List.length_cons] at hfuel
      obtain ⟨fuel, rfl⟩ : ∃ n, fuel = n + 3 := ⟨fuel - 3, by omega⟩
      have hbracket := readBracket_escaped locale stop ('+' :: ')' :: rest)
      cases hset : escapeSet locale stop with
      | none =>
          -- the component has no expressions, and neither has what comes of it
          have hcomps : itemsOf locale (flushChars comps cur ++ [.cap true stop]) = none := by
            rw [itemsOf_append, itemsOf, CharComp.items, hset]
            cases itemsOf locale (flushChars comps cur) <;> rfl
          have hrest := ih (Nat.lt_succ_self rest.length)
          rw [readAll, hcomps, Option.bind_none] at hrest
          rw [hset, Option.map_none] at hbracket
          rw [← hrest, readAll, readPending_other locale _ cur (by simp),
            readBranch_capture_none locale (fuel + 1) hbracket, Option.map_none]
          cases itemsOf locale comps <;> rfl
      | some p =>
          rw [hset, Option.map_some] at hbracket
          have hread := (readBranch_capture locale fuel hbracket).trans
            (readBehind_other locale (fuel + 2) _ h.head_not_quantifier)
          have hpending : readPending locale (fuel + 3) cur
              ('(' :: '[' :: '^' :: '\\' :: stop :: ']' :: '+' :: ')' :: rest) =
              (readBranch locale (fuel + 2) rest).map fun y =>
                (cur.map one ++ captureBut p :: y.1, y.2) := by
            rw [readPending_other locale _ cur (by simp), hread, Option.map_map]
            rfl
          have hcomp : (CharComp.cap true stop).items locale = some [captureBut p] := by
            rw [CharComp.items, hset]
            rfl
          rw [readAll_push locale comps hcomp hpending]
          exact ih (by omega)
  | @opt comps front c seen rest r h ih =>
      have hpending : readPending locale fuel (front ++ [c]) ('?' :: rest) =
          (readBranch locale fuel rest).map fun y => (front.map one ++ optText [c] :: y.1, y.2) := by
        have hlazy : rest.head? ≠ some '?' := fun hq => (h.head_not_quantifier '?' hq).1 rfl
        rw [readPending_snoc, readBehind_opt locale fuel _ hlazy, Option.map_map]
        rfl
      have hcomp : (CharComp.optLit [c]).items locale = some [optText [c]] := rfl
      rw [readAll_push locale comps hcomp hpending]
      exact ih (by rw [List.length_cons] at hfuel; omega)
  | @escape comps cur seen e rest r he h ih =>
      simp only [List.length_cons] at hfuel
      obtain ⟨fuel, rfl⟩ : ∃ n, fuel = n + 1 := ⟨fuel - 1, by omega⟩
      have hrest : rest.length < fuel := by omega
      rw [← ih hrest, readAll,
        readPending_take locale cur (readBranch_escape locale fuel he rest) (by decide)]
      rfl
  | @plain comps cur seen c rest r hc h ih =>
      rw [List.length_cons] at hfuel
      obtain ⟨fuel, rfl⟩ : ∃ n, fuel = n + 1 := ⟨fuel - 1, by omega⟩
      have hrest : rest.length < fuel := by omega
      rw [← ih hrest, readAll, readPending_take locale cur
        (readBranch_plain locale fuel hc rest) (not_quantifier_of_plain hc)]
      rfl

/-! ## Stops written as escapes -/

/-- The characters behind a backslash that opens the bracket of a capture. -/
def escapedStops : Text → List Char
  | '\\' :: _ :: rest => escapedStops rest
  | '(' :: '[' :: '^' :: '\\' :: e :: rest => e :: escapedStops rest
  | _ :: rest => escapedStops rest
  | [] => []

/-- The stops of captures that were written as escapes. -/
def escapesOf (comps : List CharComp) : List Char :=
  comps.filterMap fun comp => match comp with
    | .cap true e => some e
    | _ => none

def isCap : CharComp → Bool
  | .cap _ _ => true
  | _ => false

def CharComp.Ok : CharComp → Prop
  | lit t => t ≠ []
  | optLit t => t ≠ []
  | cap _ stop => stop.toNat < 128

theorem escapedStops_other {c : Char} (hslash : c ≠ '\\') (hopen : c ≠ '(') (rest : Text) :
    escapedStops (c :: rest) = escapedStops rest := by
  rw [escapedStops]
  · exact fun _ _ h => absurd h hslash
  · exact fun _ _ h => absurd h hopen

theorem escapedStops_litText {body lit : Text} (h : LitText body lit) (rest : Text) :
    escapedStops (body ++ rest) = escapedStops rest := by
  induction h with
  | nil => rfl
  | plain hc h ih =>
      rw [List.cons_append,
        escapedStops_other (ne_of_plain hc (by decide)) (ne_of_plain hc (by decide)), ih]
  | escape he h ih => exact ih

/-- What a parse adds to the components it starts from: their escaped stops, and how many
captures there are. -/
structure Added (comps : List CharComp) (stops : List Char) (seen : Bool)
    (r : List CharComp × Bool) (more : List CharComp) : Prop where
  eq : r.1 = comps ++ more
  ok : ∀ comp ∈ more, comp.Ok
  stops : escapesOf more = stops
  count : more.countP isCap + seen.toNat = r.2.toNat

theorem added_flush (comps : List CharComp) (cur : Text) (seen : Bool) :
    ∃ more, Added comps [] seen (flushChars comps cur, seen) more := by
  by_cases hcur : cur = []
  · exact ⟨[], by simp [flushChars, hcur], by simp, rfl, Nat.zero_add _⟩
  · have hok : ∀ comp ∈ [CharComp.lit cur], comp.Ok := by
      intro comp hcomp
      rw [List.mem_singleton.mp hcomp]
      exact hcur
    exact ⟨[.lit cur], by simp [flushChars, hcur], hok, rfl, Nat.zero_add _⟩

/-- A component behind the pending literal. -/
theorem Added.push {comps : List CharComp} {cur : Text} {comp : CharComp} {stops : List Char}
    {seen seen' : Bool} {r : List CharComp × Bool}
    (h : ∃ more, Added (flushChars comps cur ++ [comp]) stops seen' r more) (hok : comp.Ok)
    (hseen : seen'.toNat = seen.toNat + [comp].countP isCap) :
    ∃ more, Added comps (escapesOf [comp] ++ stops) seen r more := by
  obtain ⟨more, h⟩ := h
  obtain ⟨front, hfront⟩ := added_flush comps cur seen
  refine ⟨front ++ ([comp] ++ more), ?_, ?_, ?_, ?_⟩
  · have hflush : flushChars comps cur = comps ++ front := hfront.eq
    rw [h.eq, hflush, List.append_assoc, List.append_assoc]
  · intro d hd
    rw [List.mem_append, List.mem_append, List.mem_singleton] at hd
    rcases hd with hd | rfl | hd
    · exact hfront.ok d hd
    · exact hok
    · exact h.ok d hd
  · have hstops := hfront.stops
    have hmore := h.stops
    unfold escapesOf at hstops hmore ⊢
    rw [List.filterMap_append, List.filterMap_append, hstops, hmore, List.nil_append]
  · have hcount : front.countP isCap + seen.toNat = seen.toNat := hfront.count
    have hmore := h.count
    rw [List.countP_append, List.countP_append]
    omega

theorem Parses.added {comps : List CharComp} {cur : Text} {seen : Bool} {rest : Text}
    {r : List CharComp × Bool} (h : Parses comps cur seen rest r) :
    ∃ more, Added comps (escapedStops rest) seen r more := by
  induction h with
  | @tail comps cur seen => exact added_flush comps cur seen
  | @group comps cur seen body lit rest r hlit hne h ih =>
      have hstops : escapedStops ('(' :: '?' :: ':' :: (body ++ ')' :: '?' :: rest)) =
          escapedStops rest := by
        have hopen : escapedStops ('(' :: '?' :: ':' :: (body ++ ')' :: '?' :: rest)) =
            escapedStops (body ++ ')' :: '?' :: rest) := rfl
        rw [hopen, escapedStops_litText hlit]
        rfl
      rw [hstops]
      exact Added.push ih hne rfl
  | @capture comps cur stop rest r hascii hclose hplain h ih =>
      have hstops : escapedStops ('(' :: '[' :: '^' :: stop :: ']' :: '+' :: ')' :: rest) =
          escapedStops rest := by
        rw [escapedStops]
        · show escapedStops ('^' :: stop :: ']' :: '+' :: ')' :: rest) = _
          rw [escapedStops_other (by decide) (by decide)]
          by_cases hopen : stop = '('
          · subst hopen
            rfl
          · rw [escapedStops_other hplain hopen]
            rfl
        · exact fun _ _ h => absurd h (by decide)
        · intro e rest' _ heq
          have hcaret := (List.cons.inj heq).2
          exact hplain (List.cons.inj (List.cons.inj hcaret).2).1
      rw [hstops]
      exact Added.push ih hascii rfl
  | @captureEscaped comps cur stop rest r hascii hclose h ih =>
      exact Added.push ih hascii rfl
  | @opt comps front c seen rest r h ih =>
      exact Added.push ih (List.cons_ne_nil c []) rfl
  | @escape comps cur seen e rest r he h ih => exact ih
  | @plain comps cur seen c rest r hc h ih =>
      rwa [escapedStops_other (ne_of_plain hc (by decide)) (ne_of_plain hc (by decide))]

/-! ## The pattern PostgreSQL sees -/

/-- The expressions of a component as `try_parse` means it. -/
def SimpleComp.items : SimpleComp → List (Re Char)
  | lit l => ((fromUtf8 l).getD []).map one
  | optLit l => [optText ((fromUtf8 l).getD [])]
  | cap stop => [captureBut fun c => decide (c = Char.ofNat stop.toNat)]

def patternRe (comps : List SimpleComp) : Re Char :=
  catAll (.bos :: (comps.flatMap SimpleComp.items ++ tailItems))

/-- The expressions of a component whose stop is the character that stands there. -/
def CharComp.plainItems : CharComp → List (Re Char)
  | lit t => t.map one
  | optLit t => [optText t]
  | cap _ stop => [captureBut fun c => decide (c = stop)]

theorem bytes_items {comp : CharComp} (hok : comp.Ok) : comp.bytes.items = comp.plainItems := by
  cases comp with
  | lit t =>
      rw [CharComp.bytes, SimpleComp.items, fromUtf8_utf8Bytes]
      rfl
  | optLit t =>
      rw [CharComp.bytes, SimpleComp.items, fromUtf8_utf8Bytes]
      rfl
  | cap escaped stop =>
      have hbyte : (asciiByte stop).toNat = stop.toNat := by
        have hlt : stop.toNat < 128 := hok
        rw [asciiByte, UInt8.toNat_ofNat']
        omega
      rw [CharComp.bytes, SimpleComp.items, hbyte, Char.ofNat_toNat]
      rfl

def plainItemsOf (comps : List CharComp) : List (Re Char) := comps.flatMap CharComp.plainItems

theorem patternRe_bytes {comps : List CharComp} (hok : ∀ comp ∈ comps, comp.Ok) :
    patternRe (comps.map CharComp.bytes) = catAll (.bos :: (plainItemsOf comps ++ tailItems)) := by
  have hitems : (comps.map CharComp.bytes).flatMap SimpleComp.items = plainItemsOf comps := by
    rw [List.flatMap_map]
    exact List.flatMap_congr fun comp hcomp => bytes_items (hok comp hcomp)
  rw [patternRe, hitems]

/-- Where no stop was an escape of a letter or digit, the two readings are the same. -/
theorem itemsOf_plain {comps : List CharComp}
    (hstops : ∀ e ∈ escapesOf comps, isAlnum e = false) :
    itemsOf locale comps = some (plainItemsOf comps) := by
  induction comps with
  | nil => rfl
  | cons comp comps ih =>
      have hsplit : escapesOf (comp :: comps) = escapesOf [comp] ++ escapesOf comps :=
        @List.filterMap_append _ _ [comp] comps _
      rw [hsplit] at hstops
      have hhead : comp.items locale = some comp.plainItems := by
        cases comp with
        | lit t => rfl
        | optLit t => rfl
        | cap escaped stop =>
            cases escaped with
            | false => rfl
            | true =>
                have hstop := hstops stop (List.mem_append_left _ List.mem_cons_self)
                rw [CharComp.items, escapeSet_other locale hstop]
                rfl
      have htail := ih fun e he => hstops e (List.mem_append_right _ he)
      rw [itemsOf, hhead, htail]
      rfl

/-- A pattern is read as its components, an anchor in front and the tail behind. -/
theorem readAre_of_parses {rest : Text} {r : List CharComp × Bool}
    (h : Parses [] [] false rest r) :
    readAre locale ('^' :: rest) =
      (itemsOf locale r.1).map fun rs => catAll (.bos :: (rs ++ tailItems)) := by
  have hrest := readAll_of_parses locale h (Nat.lt_succ_self rest.length)
  have hread : readBranch locale (('^' :: rest).length + 1) ('^' :: rest) =
      (readBranch locale (rest.length + 1) rest).map fun x => (.bos :: x.1, x.2) := rfl
  have hall : readAll locale (rest.length + 1) [] [] rest =
      readBranch locale (rest.length + 1) rest := by
    show (readBranch locale (rest.length + 1) rest).map id = _
    rw [Option.map_id]
    rfl
  rw [readAre, hread, ← hall, hrest]
  cases itemsOf locale r.1 <;> rfl

/-- What is known of a pattern and a replacement that are taken. -/
structure Taken (pattern replacement : Text) (p : SimplePattern) (comps : List CharComp) : Prop where
  comps_eq : p.comps = comps.map CharComp.bytes
  ok : ∀ comp ∈ comps, comp.Ok
  stops : escapesOf comps = escapedStops pattern
  oneCap : comps.countP isCap = 1
  followed : capFollowed p.comps = true
  templ : parseReplacement replacement = some p.templ
  read : readAre locale pattern =
    (itemsOf locale comps).map fun rs => catAll (.bos :: (rs ++ tailItems))

theorem exists_taken {pattern replacement : Text} {p : SimplePattern}
    (h : tryParse pattern replacement = some p) :
    ∃ comps, Taken locale pattern replacement p comps := by
  unfold tryParse at h
  split at h
  case h_2 => cases h
  case h_1 bytes hparse =>
    obtain ⟨templ, htempl, rfl⟩ := Option.map_eq_some_iff.mp h
    unfold parsePattern at hparse
    split at hparse
    case h_2 => cases hparse
    case h_1 b heq =>
      split at hparse
      case h_2 => cases hparse
      case h_1 comps hloop =>
        split_ifs at hparse with hfollowed
        obtain rfl := Option.some.inj hparse
        obtain ⟨rest, rfl, rfl⟩ := exists_of_utf8Bytes_append ['^'] (by decide) heq
        obtain ⟨cr, hparses, hr⟩ := @parses_of_parseLoop _ [] [] _ _ _ hloop
        obtain ⟨hcomps, hseen⟩ := Prod.mk.inj hr
        obtain ⟨more, hadded⟩ := hparses.added
        obtain rfl : cr.1 = more := hadded.eq
        have hcount : cr.1.countP isCap + 0 = cr.2.toNat := hadded.count
        exact ⟨cr.1, hcomps, hadded.ok, hadded.stops, by rw [← hseen] at hcount; exact hcount,
          hfollowed, htempl, readAre_of_parses locale hparses⟩

end DeltaX.Agg.RegexpReplace
