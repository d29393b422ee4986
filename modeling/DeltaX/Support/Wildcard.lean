import Mathlib.Data.List.Infix
import Mathlib.Data.List.Forall2
/-!
# Wildcard patterns

Patterns of literals, of a wildcard for one letter and of one for any number of
letters, what they match, and the matcher that scans with one point of return:
on a mismatch it goes back to the last long wildcard and lets it take one letter
more.  A text spelled in a code whose words can be told apart by their first
letters is matched by the spelled pattern as the text itself is by the pattern.
-/

namespace DeltaX.Support.Wildcard

variable {α β : Type*}

/-- A piece of a pattern; `never` matches nothing. -/
inductive Tok (α : Type*)
  | lit (a : α)
  | any
  | many
  | never
deriving DecidableEq, Repr

/-- The text is of the form the pattern describes. -/
def Matches : List (Tok α) → List α → Prop
  | [], text => text = []
  | .lit a :: p, text => ∃ rest, text = a :: rest ∧ Matches p rest
  | .any :: p, text => ∃ a rest, text = a :: rest ∧ Matches p rest
  | .many :: p, text => ∃ rest, rest <:+ text ∧ Matches p rest
  | .never :: _, _ => False

/-! ## Literals -/

theorem matches_lits_append (s : List α) (p : List (Tok α)) (text : List α) :
    Matches (s.map .lit ++ p) text ↔ ∃ rest, text = s ++ rest ∧ Matches p rest := by
  induction s generalizing text with
  | nil => simp
  | cons a s ih =>
      simp only [List.map_cons, List.cons_append, Matches, ih]
      constructor
      · rintro ⟨_, rfl, rest, rfl, h⟩
        exact ⟨rest, rfl, h⟩
      · rintro ⟨rest, rfl, h⟩
        exact ⟨s ++ rest, rfl, rest, rfl, h⟩

theorem matches_lits (s text : List α) : Matches (s.map .lit) text ↔ text = s := by
  have h := matches_lits_append s [] text
  rw [List.append_nil] at h
  simpa [Matches] using h

theorem matches_many_nil (text : List α) : Matches [.many] text :=
  ⟨[], List.nil_suffix, rfl⟩

theorem matches_many_of_suffix {p : List (Tok α)} {rest text : List α} (hrest : rest <:+ text)
    (h : Matches (.many :: p) rest) : Matches (.many :: p) text := by
  obtain ⟨r, hr, hp⟩ := h
  exact ⟨r, hr.trans hrest, hp⟩

/-! ## The matcher -/

def Tok.isMany : Tok α → Bool
  | .many => true
  | _ => false

def starLength (star : Option (List (Tok α) × List α)) : ℕ := (star.map fun s => s.1.length).getD 0

def starText (star : Option (List (Tok α) × List α)) : ℕ := (star.map fun s => s.2.length).getD 0

/-- Match `text` against `pat`; `star` is the pattern behind the last long wildcard
and the text at which it was last tried. -/
def backtrack [DecidableEq α] (text : List α) (pat : List (Tok α))
    (star : Option (List (Tok α) × List α)) : Bool :=
  match text, pat with
  | [], pat => pat.all Tok.isMany
  | t :: ts, .many :: p => backtrack (t :: ts) p (some (p, t :: ts))
  | _ :: ts, .any :: p => backtrack ts p star
  | t :: ts, .lit a :: p =>
      if t = a then backtrack ts p star
      else match star with
        | some (sp, _ :: st) => backtrack st sp (some (sp, st))
        | _ => false
  | _ :: _, _ =>
      match star with
      | some (sp, _ :: st) => backtrack st sp (some (sp, st))
      | _ => false
termination_by (max pat.length (starLength star), starText star, pat.length)
decreasing_by
  all_goals simp_wf; simp [starLength, starText, Prod.lex_def]; try omega

def Tok.Fits (tok : Tok α) (a : α) : Prop := tok = .any ∨ tok = .lit a

theorem matches_fits_cons {tok : Tok α} {a : α} (h : tok.Fits a) (p : List (Tok α))
    (text : List α) : Matches (tok :: p) (a :: text) ↔ Matches p text := by
  rcases h with rfl | rfl
  · constructor
    · rintro ⟨_, _, heq, hp⟩
      rwa [(List.cons.inj heq).2]
    · exact fun hp => ⟨a, text, rfl, hp⟩
  · constructor
    · rintro ⟨_, heq, hp⟩
      rwa [(List.cons.inj heq).2]
    · exact fun hp => ⟨text, rfl, hp⟩

theorem exists_of_matches_append {u : List (Tok α)} (hu : ∀ tok ∈ u, ∃ a, tok.Fits a)
    {p : List (Tok α)} {text : List α} (h : Matches (u ++ p) text) :
    ∃ w rest, text = w ++ rest ∧ w.length = u.length ∧ Matches p rest := by
  induction u generalizing text with
  | nil => exact ⟨[], text, rfl, rfl, h⟩
  | cons tok u ih =>
      have htail : ∀ tok' ∈ u, ∃ a, tok'.Fits a := fun tok' h' => hu tok' (List.mem_cons_of_mem _ h')
      obtain ⟨a, ha⟩ := hu tok List.mem_cons_self
      obtain ⟨b, text', rfl, hmatch⟩ : ∃ b text', text = b :: text' ∧ Matches (u ++ p) text' := by
        rcases ha with rfl | rfl
        · exact h
        · obtain ⟨text', rfl, h⟩ := h
          exact ⟨a, text', rfl, h⟩
      obtain ⟨w, rest, rfl, hlen, hp⟩ := ih htail hmatch
      exact ⟨b :: w, rest, rfl, by simp [hlen], hp⟩

/-- Between the point of return and here, tokens and letters went in step. -/
def InStep (text : List α) (pat : List (Tok α)) (star : Option (List (Tok α) × List α)) : Prop :=
  ∀ sp st, star = some (sp, st) →
    ∃ u w, sp = u ++ pat ∧ st = w ++ text ∧ List.Forall₂ Tok.Fits u w

/-- The long wildcard takes at least one letter more, and the pattern behind it matches. -/
def Returns (star : Option (List (Tok α) × List α)) : Prop :=
  ∃ sp s st, star = some (sp, s :: st) ∧ Matches (.many :: sp) st

theorem InStep.some_self (text : List α) (pat : List (Tok α)) :
    InStep text pat (some (pat, text)) := by
  rintro sp st heq
  cases heq
  exact ⟨[], [], rfl, rfl, .nil⟩

theorem InStep.step {text : List α} {pat : List (Tok α)} {star : Option (List (Tok α) × List α)}
    {tok : Tok α} {a : α} (h : InStep (a :: text) (tok :: pat) star) (hfits : tok.Fits a) :
    InStep text pat star := by
  intro sp st heq
  obtain ⟨u, w, rfl, rfl, hall⟩ := h sp st heq
  exact ⟨u ++ [tok], w ++ [a], by simp, by simp, List.rel_append hall (.cons hfits .nil)⟩

theorem exists_fits_of_forall₂ {u : List (Tok α)} {w : List α} (h : List.Forall₂ Tok.Fits u w) :
    ∀ tok ∈ u, ∃ a, tok.Fits a := by
  induction h with
  | nil => simp
  | cons hfits _ ih => exact List.forall_mem_cons.mpr ⟨⟨_, hfits⟩, ih⟩

/-- What returning could still match is matched from here as well, once a long
wildcard is next or the text has ended. -/
theorem matches_of_returns {text : List α} {p : List (Tok α)}
    {star : Option (List (Tok α) × List α)} (hstep : InStep text p star) (hreturns : Returns star) :
    ∃ rest, rest <:+ text ∧ rest.length < text.length ∧ Matches p rest := by
  obtain ⟨sp, s, st, rfl, r, hr, hmatch⟩ := hreturns
  obtain ⟨u, w, rfl, hst, hall⟩ := hstep _ _ rfl
  obtain ⟨w', rest, rfl, hlen, hp⟩ := exists_of_matches_append (exists_fits_of_forall₂ hall) hmatch
  have hlenw := hall.length_eq
  have hlens := congrArg List.length hst
  have hle := hr.length_le
  simp only [List.length_cons, List.length_append] at hlens hle
  have hsuffix : rest <:+ w ++ text := by
    rw [← hst]
    exact ((List.suffix_append w' rest).trans hr).trans (List.suffix_cons s st)
  refine ⟨rest, ?_, by omega, hp⟩
  exact List.suffix_of_suffix_length_le hsuffix (List.suffix_append w text) (by omega)

theorem all_isMany_iff {pat : List (Tok α)} : pat.all Tok.isMany = true ↔ Matches pat [] := by
  induction pat with
  | nil => simp [Matches]
  | cons tok pat ih =>
      cases tok with
      | many =>
          rw [List.all_cons, Tok.isMany, Bool.true_and, ih]
          constructor
          · exact fun h => ⟨[], List.suffix_rfl, h⟩
          · rintro ⟨rest, hrest, h⟩
            rwa [List.suffix_nil.mp hrest] at h
      | lit a => simp [Tok.isMany, Matches]
      | any => simp [Tok.isMany, Matches]
      | never => simp [Tok.isMany, Matches]

/-- A long wildcard takes nothing, or takes one letter and goes on. -/
theorem matches_or_returns_self (pat : List (Tok α)) (text : List α) :
    Matches pat text ∨ Returns (some (pat, text)) ↔ Matches (.many :: pat) text := by
  constructor
  · rintro (h | ⟨_, _, _, heq, h⟩)
    · exact ⟨text, List.suffix_rfl, h⟩
    · cases heq
      exact matches_many_of_suffix (List.suffix_cons _ _) h
  · rintro ⟨rest, hrest, h⟩
    rcases text with - | ⟨a, text⟩
    · exact Or.inl (List.suffix_nil.mp hrest ▸ h)
    · rcases List.suffix_cons_iff.mp hrest with rfl | hrest
      · exact Or.inl h
      · exact Or.inr ⟨pat, a, text, rfl, rest, hrest, h⟩

theorem returns_cons_iff (sp : List (Tok α)) (s : α) (st : List α) :
    Returns (some (sp, s :: st)) ↔ Matches (.many :: sp) st := by
  constructor
  · rintro ⟨_, _, _, heq, h⟩
    cases heq
    exact h
  · exact fun h => ⟨sp, s, st, rfl, h⟩

theorem not_returns {star : Option (List (Tok α) × List α)}
    (h : ∀ sp s st, star = some (sp, s :: st) → False) : ¬ Returns star := by
  rintro ⟨sp, s, st, heq, -⟩
  exact h sp s st heq

theorem not_matches_lit_of_ne {t a : α} {p : List (Tok α)} {text : List α} (h : t ≠ a) :
    ¬ Matches (.lit a :: p) (t :: text) := by
  rintro ⟨_, heq, -⟩
  exact h (List.cons.inj heq).1

theorem not_matches_of_ne {pat : List (Tok α)} {t : α} {text : List α}
    (hmany : ∀ p, pat = .many :: p → False) (hany : ∀ p, pat = .any :: p → False)
    (hlit : ∀ a p, pat = .lit a :: p → False) : ¬ Matches pat (t :: text) := by
  match pat with
  | [] => exact List.cons_ne_nil t text
  | .many :: p => exact (hmany p rfl).elim
  | .any :: p => exact (hany p rfl).elim
  | .lit a :: p => exact (hlit a p rfl).elim
  | .never :: p => exact id

/-- The matcher finds a match from here or from the point of return. -/
theorem backtrack_iff [DecidableEq α] (text : List α) (pat : List (Tok α))
    (star : Option (List (Tok α) × List α)) (hstep : InStep text pat star) :
    backtrack text pat star = true ↔ Matches pat text ∨ Returns star := by
  induction text, pat, star using backtrack.induct with
  | case1 star pat =>
      rw [backtrack, all_isMany_iff]
      refine ⟨Or.inl, ?_⟩
      rintro (h | h)
      · exact h
      · obtain ⟨rest, -, hlt, -⟩ := matches_of_returns hstep h
        simp at hlt
  | case2 star t ts p ih =>
      rw [backtrack, ih (InStep.some_self _ _), matches_or_returns_self]
      refine ⟨Or.inl, ?_⟩
      rintro (h | h)
      · exact h
      · obtain ⟨rest, hrest, -, hp⟩ := matches_of_returns hstep h
        exact matches_many_of_suffix hrest hp
  | case3 star t ts p ih =>
      have hfits : (Tok.any : Tok α).Fits t := Or.inl rfl
      rw [backtrack, ih (hstep.step hfits), matches_fits_cons hfits]
  | case4 star ts a p ih =>
      have hfits : (Tok.lit a).Fits a := Or.inr rfl
      unfold backtrack
      rw [if_pos rfl, ih (hstep.step hfits), matches_fits_cons hfits]
  | case5 t ts a p hne sp s st ih =>
      unfold backtrack
      rw [if_neg hne]
      show backtrack st sp (some (sp, st)) = true ↔ _
      rw [ih (InStep.some_self _ _), matches_or_returns_self, returns_cons_iff,
        or_iff_right (not_matches_lit_of_ne hne)]
  | case6 star t ts a p hne hstar =>
      rw [or_iff_right (not_matches_lit_of_ne hne)]
      refine iff_of_false ?_ (not_returns hstar)
      rw [backtrack, if_neg hne]
      · exact Bool.false_ne_true
      · exact hstar
  | case7 pat t ts sp s st hmany hany hlit ih =>
      rw [backtrack, ih (InStep.some_self _ _), matches_or_returns_self, returns_cons_iff,
        or_iff_right (not_matches_of_ne hmany hany hlit)]
      · exact hmany
      · exact hany
      · exact hlit
  | case8 pat star t ts hmany hany hlit hstar =>
      rw [or_iff_right (not_matches_of_ne hmany hany hlit)]
      refine iff_of_false ?_ (not_returns hstar)
      rw [backtrack]
      · exact Bool.false_ne_true
      · exact hmany
      · exact hany
      · exact hlit
      · exact hstar

/-- A match from the start, with no point of return yet. -/
theorem backtrack_none_iff [DecidableEq α] (text : List α) (pat : List (Tok α)) :
    backtrack text pat none = true ↔ Matches pat text := by
  have hstep : InStep text pat none := by
    intro sp st heq
    cases heq
  rw [backtrack_iff text pat none hstep, or_iff_left (not_returns (by simp))]

/-! ## Patterns with long wildcards at the ends only -/

theorem matches_lits_many (s text : List α) :
    Matches (s.map .lit ++ [.many]) text ↔ s <+: text := by
  rw [matches_lits_append]
  constructor
  · rintro ⟨rest, rfl, -⟩
    exact List.prefix_append s rest
  · rintro ⟨rest, rfl⟩
    exact ⟨rest, rfl, matches_many_nil rest⟩

theorem matches_many_lits (s text : List α) :
    Matches (.many :: s.map .lit) text ↔ s <:+ text := by
  simp only [Matches, matches_lits, exists_eq_right]

theorem matches_many_lits_many (s text : List α) :
    Matches (.many :: (s.map .lit ++ [.many])) text ↔ s <:+: text := by
  simp only [Matches, matches_lits_many]
  constructor
  · rintro ⟨rest, hrest, hs⟩
    exact hs.isInfix.trans hrest.isInfix
  · intro h
    obtain ⟨rest, hs, hrest⟩ := List.infix_iff_prefix_suffix.mp h
    exact ⟨rest, hrest, hs⟩

/-! ## Written patterns -/

/-- The letters with a meaning in a written pattern. -/
structure Signs (α : Type*) where
  escape : α
  one : α
  long : α
deriving DecidableEq, Repr

def Signs.Plain (s : Signs α) (a : α) : Prop := a ≠ s.escape ∧ a ≠ s.one ∧ a ≠ s.long

/-- The tokens of a written pattern: the escape takes the next letter as it is, and
at the end it matches nothing. -/
def parse [DecidableEq α] (s : Signs α) : List α → List (Tok α)
  | [] => []
  | c :: p =>
      if c = s.escape then
        match p with
        | [] => [.never]
        | d :: p => .lit d :: parse s p
      else if c = s.one then .any :: parse s p
      else if c = s.long then .many :: parse s p
      else .lit c :: parse s p

theorem parse_escape [DecidableEq α] (s : Signs α) (d : α) (p : List α) :
    parse s (s.escape :: d :: p) = .lit d :: parse s p := by
  rw [parse.eq_def]
  exact if_pos rfl

theorem parse_one [DecidableEq α] {s : Signs α} (hne : s.one ≠ s.escape) (p : List α) :
    parse s (s.one :: p) = .any :: parse s p := by
  rw [parse.eq_def]
  exact (if_neg hne).trans (if_pos rfl)

theorem parse_long [DecidableEq α] {s : Signs α} (hne : s.long ≠ s.escape) (hone : s.long ≠ s.one)
    (p : List α) : parse s (s.long :: p) = .many :: parse s p := by
  rw [parse.eq_def]
  exact (if_neg hne).trans ((if_neg hone).trans (if_pos rfl))

theorem parse_plain [DecidableEq α] {s : Signs α} {a : α} (h : s.Plain a) (p : List α) :
    parse s (a :: p) = .lit a :: parse s p := by
  rw [parse.eq_def]
  exact (if_neg h.1).trans ((if_neg h.2.1).trans (if_neg h.2.2))

theorem parse_plain_append [DecidableEq α] {s : Signs α} {w : List α}
    (hw : ∀ a ∈ w, s.Plain a) (p : List α) : parse s (w ++ p) = w.map .lit ++ parse s p := by
  induction w with
  | nil => simp
  | cons a w ih =>
      obtain ⟨ha, hw⟩ := List.forall_mem_cons.mp hw
      rw [List.cons_append, parse_plain ha, ih hw, List.map_cons, List.cons_append]

/-! ## Spelled texts -/

section spelling

variable (enc : α → List β)

/-- Words that start with a letter no word has further inside, and of which none
starts another. -/
structure Spelling (lead : β → Prop) : Prop where
  word : ∀ a, ∃ b tail, enc a = b :: tail ∧ lead b ∧ ∀ c ∈ tail, ¬ lead c
  cancel : ∀ a b x y, enc a ++ x = enc b ++ y → a = b

/-- A token spelled out; the wildcard for one letter stays one for one letter. -/
def Tok.spell : Tok α → List (Tok β)
  | .lit a => (enc a).map .lit
  | .any => [.any]
  | .many => [.many]
  | .never => [.never]

variable {enc} {lead : β → Prop}

theorem suffix_append_cases {rest x y : List β} (h : rest <:+ x ++ y) :
    rest <:+ y ∨ ∃ x', x' <:+ x ∧ rest = x' ++ y := by
  obtain ⟨u, hu⟩ := h
  rcases List.append_eq_append_iff.mp hu with ⟨x', hx, hrest⟩ | ⟨y', hx, hy⟩
  · exact Or.inr ⟨x', ⟨u, hx.symm⟩, hrest⟩
  · exact Or.inl ⟨y', hy.symm⟩

/-- What ends a spelled text is the end of a word and then whole words. -/
theorem Spelling.suffix_cases (hspell : Spelling enc lead) {text : List α} {junk rest : List β}
    (hjunk : ∀ c ∈ junk, ¬ lead c) (h : rest <:+ junk ++ text.flatMap enc) :
    ∃ junk' text', rest = junk' ++ text'.flatMap enc ∧ (∀ c ∈ junk', ¬ lead c) ∧
      text' <:+ text := by
  induction text generalizing junk with
  | nil =>
      rw [List.flatMap_nil, List.append_nil] at h
      exact ⟨rest, [], by simp, fun c hc => hjunk c (h.subset hc), List.suffix_rfl⟩
  | cons a text ih =>
      rcases suffix_append_cases h with h | ⟨junk', hsub, rfl⟩
      · obtain ⟨b, tail, hword, -, htail⟩ := hspell.word a
        rw [List.flatMap_cons, hword, List.cons_append] at h
        rcases List.suffix_cons_iff.mp h with rfl | h
        · exact ⟨[], a :: text, by simp [hword], by simp, List.suffix_rfl⟩
        · obtain ⟨junk', text', heq, hjunk', hsuffix⟩ := ih htail h
          exact ⟨junk', text', heq, hjunk', hsuffix.trans (List.suffix_cons a text)⟩
      · exact ⟨junk', a :: text, rfl, fun c hc => hjunk c (hsub.subset hc), List.suffix_rfl⟩

theorem Spelling.flatMap_eq_nil (hspell : Spelling enc lead) {text : List α} :
    text.flatMap enc = [] ↔ text = [] := by
  rw [List.flatMap_eq_nil_iff]
  constructor
  · intro h
    apply List.eq_nil_iff_forall_not_mem.mpr
    intro a ha
    obtain ⟨b, tail, hword, -⟩ := hspell.word a
    rw [h a ha] at hword
    cases hword
  · rintro rfl
    simp

/-- A word at the front of a spelled text is its first letter's. -/
theorem Spelling.exists_of_append_eq (hspell : Spelling enc lead) {text : List α} {a : α}
    {junk rest : List β} (hjunk : ∀ c ∈ junk, ¬ lead c)
    (h : junk ++ text.flatMap enc = enc a ++ rest) :
    ∃ text', text = a :: text' ∧ rest = text'.flatMap enc := by
  obtain ⟨b, tail, hword, hlead, -⟩ := hspell.word a
  rcases junk with - | ⟨c, junk⟩
  · rcases text with - | ⟨a', text⟩
    · rw [hword] at h
      cases h
    · rw [List.nil_append, List.flatMap_cons] at h
      obtain rfl := hspell.cancel _ _ _ _ h
      exact ⟨text, rfl, (List.append_cancel_left h).symm⟩
  · rw [hword, List.cons_append, List.cons_append] at h
    have hc := hjunk c List.mem_cons_self
    rw [(List.cons.inj h).1] at hc
    exact (hc hlead).elim

theorem Spelling.matches_of_spell (hspell : Spelling enc lead) {pat : List (Tok α)}
    (hpat : .any ∉ pat) (junk : List β) (hjunk : ∀ c ∈ junk, ¬ lead c) {text : List α}
    (h : Matches (pat.flatMap (Tok.spell enc)) (junk ++ text.flatMap enc)) :
    Matches pat text := by
  induction pat generalizing junk text with
  | nil => exact hspell.flatMap_eq_nil.mp (List.append_eq_nil_iff.mp h).2
  | cons tok pat ih =>
      have htail : .any ∉ pat := fun hmem => hpat (List.mem_cons_of_mem _ hmem)
      rw [List.flatMap_cons] at h
      cases tok with
      | lit a =>
          obtain ⟨rest, heq, hmatch⟩ := (matches_lits_append _ _ _).mp h
          obtain ⟨text', rfl, rfl⟩ := hspell.exists_of_append_eq hjunk heq
          exact ⟨text', rfl, ih htail [] (by simp) hmatch⟩
      | any => exact (hpat List.mem_cons_self).elim
      | many =>
          obtain ⟨rest, hrest, hmatch⟩ := h
          obtain ⟨junk', text', rfl, hjunk', hsuffix⟩ := hspell.suffix_cases hjunk hrest
          exact ⟨text', hsuffix, ih htail junk' hjunk' hmatch⟩
      | never => exact h

theorem spell_of_matches {pat : List (Tok α)} (hpat : .any ∉ pat) {text : List α}
    (h : Matches pat text) : Matches (pat.flatMap (Tok.spell enc)) (text.flatMap enc) := by
  induction pat generalizing text with
  | nil =>
      rw [show text = [] from h]
      rfl
  | cons tok pat ih =>
      have htail : .any ∉ pat := fun hmem => hpat (List.mem_cons_of_mem _ hmem)
      rw [List.flatMap_cons]
      cases tok with
      | lit a =>
          obtain ⟨rest, rfl, hmatch⟩ := h
          exact (matches_lits_append _ _ _).mpr ⟨rest.flatMap enc, rfl, ih htail hmatch⟩
      | any => exact (hpat List.mem_cons_self).elim
      | many =>
          obtain ⟨rest, ⟨u, rfl⟩, hmatch⟩ := h
          rw [List.flatMap_append]
          exact ⟨rest.flatMap enc, List.suffix_append _ _, ih htail hmatch⟩
      | never => exact h

/-- Spelling out text and pattern changes no match, wildcards for one letter apart. -/
theorem Spelling.matches_spell_iff (hspell : Spelling enc lead) {pat : List (Tok α)}
    (hpat : .any ∉ pat) (text : List α) :
    Matches (pat.flatMap (Tok.spell enc)) (text.flatMap enc) ↔ Matches pat text :=
  ⟨hspell.matches_of_spell hpat [] (by simp), spell_of_matches hpat⟩

theorem Spelling.sign_ne (hspell : Spelling enc lead) {a b : α} {c d : β} (ha : enc a = [c])
    (hb : enc b = [d]) (hne : a ≠ b) : c ≠ d := by
  rintro rfl
  exact hne (hspell.cancel a b [] [] (by rw [ha, hb]))

/-- The signs are words of one letter, which no other word has. -/
structure SpellsSigns (enc : α → List β) (s : Signs α) (s' : Signs β) : Prop where
  escape : enc s.escape = [s'.escape]
  one : enc s.one = [s'.one]
  long : enc s.long = [s'.long]
  plain : ∀ a, s.Plain a → ∀ b ∈ enc a, s'.Plain b

variable [DecidableEq α] [DecidableEq β] {s : Signs α} {s' : Signs β}

theorem parse_escape_word (hspell : Spelling enc lead) (hsigns : SpellsSigns enc s s') (a : α)
    (p : List β) :
    parse s' (s'.escape :: (enc a ++ p)) = (enc a).map .lit ++ parse s' p := by
  obtain ⟨b, tail, hword, -⟩ := hspell.word a
  have htail : ∀ c ∈ tail, s'.Plain c := by
    by_cases hplain : s.Plain a
    · intro c hc
      exact hsigns.plain a hplain c (hword ▸ List.mem_cons_of_mem b hc)
    · -- a sign is one letter long
      have hnil : tail = [] := by
        unfold Signs.Plain at hplain
        have hcases : a = s.escape ∨ a = s.one ∨ a = s.long := by tauto
        rcases hcases with rfl | rfl | rfl
        · exact (List.cons.inj (hword.symm.trans hsigns.escape)).2
        · exact (List.cons.inj (hword.symm.trans hsigns.one)).2
        · exact (List.cons.inj (hword.symm.trans hsigns.long)).2
      simp [hnil]
  rw [hword, List.cons_append, parse_escape, parse_plain_append htail, List.map_cons,
    List.cons_append]

/-- A spelled pattern has the tokens of the pattern, spelled. -/
theorem parse_flatMap (hspell : Spelling enc lead) (hsigns : SpellsSigns enc s s')
    (p : List α) : parse s' (p.flatMap enc) = (parse s p).flatMap (Tok.spell enc) := by
  induction p using parse.induct s with
  | case1 => rfl
  | case2 =>
      rw [List.flatMap_singleton, hsigns.escape, parse.eq_def s, parse.eq_def s']
      simp [Tok.spell]
  | case3 d p ih =>
      rw [List.flatMap_cons, hsigns.escape, List.flatMap_cons, List.singleton_append,
        parse_escape_word hspell hsigns, ih, parse_escape, List.flatMap_cons, Tok.spell]
  | case4 p hesc ih =>
      have hesc' : s'.one ≠ s'.escape := hspell.sign_ne hsigns.one hsigns.escape hesc
      rw [List.flatMap_cons, hsigns.one, List.singleton_append, parse_one hesc', ih,
        parse_one hesc, List.flatMap_cons, Tok.spell, List.singleton_append]
  | case5 p hesc hone ih =>
      have hesc' : s'.long ≠ s'.escape := hspell.sign_ne hsigns.long hsigns.escape hesc
      have hone' : s'.long ≠ s'.one := hspell.sign_ne hsigns.long hsigns.one hone
      rw [List.flatMap_cons, hsigns.long, List.singleton_append, parse_long hesc' hone', ih,
        parse_long hesc hone, List.flatMap_cons, Tok.spell, List.singleton_append]
  | case6 a p hesc hone hlong ih =>
      have hplain : s.Plain a := ⟨hesc, hone, hlong⟩
      rw [List.flatMap_cons, parse_plain_append (hsigns.plain a hplain), ih, parse_plain hplain,
        List.flatMap_cons, Tok.spell]

end spelling

end DeltaX.Support.Wildcard
