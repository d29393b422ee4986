import DeltaX.Support.Wildcard
import Mathlib.Algebra.BigOperators.Group.List.Basic
import Mathlib.Algebra.Order.Ring.Nat
/-!
# The gaps of a wildcard pattern

Between two literals of a pattern, and at its ends, is a gap: so many wildcards for one letter,
and possibly a wildcard for any number of them.  A pattern is matched by what stands in its
gaps.  In a spelled text a wildcard for one letter takes one letter of the spelling, so a letter
fills as many of them as its word is long.  Only in some gaps this makes no difference.
-/

namespace DeltaX.Support.Wildcard

variable {α β : Type*}

/-! ## Gaps -/

/-- What may stand in a gap of `n` wildcards for one letter, where a letter counts as `size`
says. -/
def FitsGap (size : α → ℕ) (n : ℕ) (long : Bool) (s : List α) : Prop :=
  if long then n ≤ (s.map size).sum else (s.map size).sum = n

/-- The text is of the form the pattern describes, where its first gap has `n` wildcards more. -/
def GapMatches (size : α → ℕ) : ℕ → Bool → List (Tok α) → List α → Prop
  | n, long, [], text => FitsGap size n long text
  | n, long, .lit a :: p, text =>
      ∃ s rest, text = s ++ a :: rest ∧ FitsGap size n long s ∧ GapMatches size 0 false p rest
  | n, long, .any :: p, text => GapMatches size (n + 1) long p text
  | n, _, .many :: p, text => GapMatches size n true p text
  | _, _, .never :: _, _ => False

def AllGaps (P : ℕ → Bool → Prop) : ℕ → Bool → List (Tok α) → Prop
  | n, long, [] => P n long
  | n, long, .lit _ :: p => P n long ∧ AllGaps P 0 false p
  | n, long, .any :: p => AllGaps P (n + 1) long p
  | n, _, .many :: p => AllGaps P n true p
  | _, _, .never :: _ => True

/-- The gap takes the same texts whatever the sizes of the letters are. -/
def UniformGap (n : ℕ) (long : Bool) : Prop := n = 0 ∨ (n = 1 ∧ long = true)

instance (n : ℕ) (long : Bool) : Decidable (UniformGap n long) :=
  inferInstanceAs (Decidable (_ ∨ _))

instance decidableAllGaps (P : ℕ → Bool → Prop) [∀ n long, Decidable (P n long)] :
    ∀ (n : ℕ) (long : Bool) (p : List (Tok α)), Decidable (AllGaps P n long p)
  | n, long, [] => inferInstanceAs (Decidable (P n long))
  | n, long, .lit _ :: p =>
      have := decidableAllGaps P 0 false p
      inferInstanceAs (Decidable (P n long ∧ AllGaps P 0 false p))
  | n, long, .any :: p => decidableAllGaps P (n + 1) long p
  | n, _, .many :: p => decidableAllGaps P n true p
  | _, _, .never :: _ => inferInstanceAs (Decidable True)

variable {P Q : ℕ → Bool → Prop} {size size' : α → ℕ} {n : ℕ} {long : Bool} {p : List (Tok α)}
  {text : List α}

theorem AllGaps.mono (h : ∀ n long, P n long → Q n long) (hp : AllGaps P n long p) :
    AllGaps Q n long p := by
  induction p generalizing n long with
  | nil => exact h n long hp
  | cons tok p ih =>
      cases tok with
      | lit a => exact ⟨h n long hp.1, ih hp.2⟩
      | any => exact ih (n := n + 1) hp
      | many => exact ih (show AllGaps P n true p from hp)
      | never => exact hp

theorem AllGaps.and (hp : AllGaps P n long p) (hq : AllGaps Q n long p) :
    AllGaps (fun n long => P n long ∧ Q n long) n long p := by
  induction p generalizing n long with
  | nil => exact ⟨hp, hq⟩
  | cons tok p ih =>
      cases tok with
      | lit a => exact ⟨⟨hp.1, hq.1⟩, ih hp.2 hq.2⟩
      | any => exact ih (n := n + 1) hp hq
      | many => exact ih (show AllGaps P n true p from hp) hq
      | never => exact hp

theorem allGaps_of_forall (h : ∀ n long, P n long) (n : ℕ) (long : Bool) (p : List (Tok α)) :
    AllGaps P n long p := by
  induction p generalizing n long with
  | nil => exact h n long
  | cons tok p ih =>
      cases tok with
      | lit a => exact ⟨h n long, ih 0 false⟩
      | any => exact ih (n + 1) long
      | many => exact ih n true
      | never => exact trivial

theorem gapMatches_congr
    (h : AllGaps (fun n long => ∀ s, FitsGap size n long s ↔ FitsGap size' n long s) n long p)
    (text : List α) : GapMatches size n long p text ↔ GapMatches size' n long p text := by
  induction p generalizing n long text with
  | nil => exact h text
  | cons tok p ih =>
      cases tok with
      | lit a => simp only [GapMatches, h.1, ih h.2]
      | any => exact ih (n := n + 1) h text
      | many => exact ih (show AllGaps _ n true p from h) text
      | never => exact Iff.rfl

theorem gapMatches_congr_text (h : ∀ a ∈ text, size a = size' a) :
    GapMatches size n long p text ↔ GapMatches size' n long p text := by
  have hfits : ∀ {n long s}, (∀ a ∈ s, size a = size' a) →
      (FitsGap size n long s ↔ FitsGap size' n long s) := by
    intro n long s hs
    unfold FitsGap
    rw [List.map_congr_left hs]
  induction p generalizing n long text with
  | nil => exact hfits h
  | cons tok p ih =>
      cases tok with
      | lit a =>
          constructor
          · rintro ⟨s, rest, rfl, hs, hrest⟩
            exact ⟨s, rest, rfl, (hfits fun b hb => h b (by simp [hb])).mp hs,
              (ih fun b hb => h b (by simp [hb])).mp hrest⟩
          · rintro ⟨s, rest, rfl, hs, hrest⟩
            exact ⟨s, rest, rfl, (hfits fun b hb => h b (by simp [hb])).mpr hs,
              (ih fun b hb => h b (by simp [hb])).mpr hrest⟩
      | any => exact ih (n := n + 1) h
      | many =>
          exact show GapMatches size n true p text ↔ GapMatches size' n true p text from ih h
      | never => exact Iff.rfl

/-! ## Matching by gaps -/

section spelling

variable {enc : α → List β} {lead : β → Prop}

theorem Spelling.exists_of_append_word (hspell : Spelling enc lead) {a : α} {b rest : List β}
    (h : text.flatMap enc = b ++ (enc a ++ rest)) :
    ∃ s text', text = s ++ a :: text' ∧ b = s.flatMap enc ∧ rest = text'.flatMap enc := by
  have hsuffix : enc a ++ rest <:+ [] ++ text.flatMap enc := ⟨b, by rw [List.nil_append, h]⟩
  obtain ⟨junk, tail, heq, hjunk, s, hs⟩ := hspell.suffix_cases (by simp) hsuffix
  obtain ⟨text', rfl, rfl⟩ := hspell.exists_of_append_eq hjunk heq.symm
  refine ⟨s, text', hs.symm, ?_, rfl⟩
  rw [← hs, List.flatMap_append, List.flatMap_cons] at h
  exact (List.append_cancel_right h).symm

theorem exists_append_of_length {b : List β} (h : n ≤ b.length) (rest : List β) :
    ∃ b' rest', b ++ rest = b' ++ rest' ∧ b'.length = n ∧ rest <:+ rest' :=
  ⟨b.take n, b.drop n ++ rest, by rw [← List.append_assoc, List.take_append_drop],
    List.length_take_of_le h, List.suffix_append _ _⟩

def MatchesBehind (n : ℕ) (long : Bool) (p : List (Tok β)) (text : List β) : Prop :=
  ∃ b rest, text = b ++ rest ∧ (if long then n ≤ b.length else b.length = n) ∧ Matches p rest

theorem matchesBehind_any (n : ℕ) (long : Bool) (p : List (Tok β)) (text : List β) :
    MatchesBehind (n + 1) long p text ↔ MatchesBehind n long (.any :: p) text := by
  constructor
  · rintro ⟨b, rest, rfl, hlen, hmatch⟩
    have hne : b ≠ [] := by
      rintro rfl
      cases long <;> simp at hlen
    refine ⟨b.dropLast, b.getLast hne :: rest, ?_, ?_, b.getLast hne, rest, rfl, hmatch⟩
    · rw [List.append_cons, List.dropLast_append_getLast]
    · rw [List.length_dropLast]
      cases long with
      | true => exact Nat.le_sub_one_of_lt hlen
      | false => exact Nat.sub_eq_of_eq_add hlen
  · rintro ⟨b, rest, rfl, hlen, a, rest, rfl, hmatch⟩
    refine ⟨b ++ [a], rest, by simp, ?_, hmatch⟩
    rw [List.length_append, List.length_singleton]
    cases long with
    | true => exact Nat.succ_le_succ hlen
    | false => exact congrArg Nat.succ hlen

theorem matchesBehind_many (n : ℕ) (long : Bool) (p : List (Tok β)) (text : List β) :
    MatchesBehind n true p text ↔ MatchesBehind n long (.many :: p) text := by
  constructor
  · rintro ⟨b, rest, rfl, hlen, hmatch⟩
    cases long with
    | true => exact ⟨b, rest, rfl, hlen, rest, List.suffix_rfl, hmatch⟩
    | false =>
        obtain ⟨b', rest', heq, hlen', hsuffix⟩ := exists_append_of_length hlen rest
        exact ⟨b', rest', heq, hlen', rest, hsuffix, hmatch⟩
  · rintro ⟨b, rest, rfl, hlen, rest', ⟨u, rfl⟩, hmatch⟩
    refine ⟨b ++ u, rest', (List.append_assoc b u rest').symm, ?_, hmatch⟩
    show n ≤ (b ++ u).length
    rw [List.length_append]
    cases long with
    | true => exact Nat.le_add_right_of_le hlen
    | false => exact hlen ▸ Nat.le_add_right b.length u.length

theorem matchesBehind_zero (p : List (Tok β)) (text : List β) :
    MatchesBehind 0 false p text ↔ Matches p text := by
  constructor
  · rintro ⟨b, rest, rfl, hlen, hmatch⟩
    rw [List.length_eq_zero_iff.mp hlen]
    exact hmatch
  · exact fun h => ⟨[], text, rfl, rfl, h⟩

theorem Spelling.gapMatches_iff (hspell : Spelling enc lead) (n : ℕ) (long : Bool)
    (p : List (Tok α)) (text : List α) :
    GapMatches (fun a => (enc a).length) n long p text ↔
      MatchesBehind n long (p.flatMap (Tok.spell enc)) (text.flatMap enc) := by
  induction p generalizing n long text with
  | nil =>
      have hlength : (text.flatMap enc).length = (text.map fun a => (enc a).length).sum :=
        List.length_flatMap
      constructor
      · intro h
        refine ⟨text.flatMap enc, [], (List.append_nil _).symm, ?_, rfl⟩
        rw [hlength]
        exact h
      · rintro ⟨b, rest, heq, hlen, hmatch⟩
        rw [show rest = [] from hmatch, List.append_nil] at heq
        rw [← heq, hlength] at hlen
        exact hlen
  | cons tok p ih =>
      rw [List.flatMap_cons]
      cases tok with
      | lit a =>
          constructor
          · rintro ⟨s, rest, rfl, hfits, hrest⟩
            rw [ih, matchesBehind_zero] at hrest
            refine ⟨s.flatMap enc, (a :: rest).flatMap enc, List.flatMap_append, ?_, ?_⟩
            · rw [List.length_flatMap]
              exact hfits
            · exact (matches_lits_append _ _ _).mpr ⟨_, List.flatMap_cons, hrest⟩
          · rintro ⟨b, rest, heq, hlen, hmatch⟩
            obtain ⟨rest', rfl, hrest⟩ := (matches_lits_append _ _ _).mp hmatch
            obtain ⟨s, text', rfl, rfl, rfl⟩ := hspell.exists_of_append_word heq
            refine ⟨s, text', rfl, ?_, (ih 0 false text').mpr ((matchesBehind_zero _ _).mpr hrest)⟩
            rw [List.length_flatMap] at hlen
            exact hlen
      | any => exact (ih (n + 1) long text).trans (matchesBehind_any _ _ _ _)
      | many => exact (ih n true text).trans (matchesBehind_many _ _ _ _)
      | never =>
          refine iff_of_false id ?_
          rintro ⟨_, _, _, _, h⟩
          exact h

theorem Spelling.matches_spell_iff_gapMatches (hspell : Spelling enc lead) (p : List (Tok α))
    (text : List α) :
    Matches (p.flatMap (Tok.spell enc)) (text.flatMap enc) ↔
      GapMatches (fun a => (enc a).length) 0 false p text := by
  rw [hspell.gapMatches_iff, matchesBehind_zero]

theorem spelling_singleton : Spelling (fun a : α => [a]) fun _ => True where
  word a := ⟨a, [], rfl, trivial, by simp⟩
  cancel _ _ _ _ h := (List.cons.inj h).1

theorem flatMap_spell_singleton (p : List (Tok α)) :
    p.flatMap (Tok.spell fun a => [a]) = p := by
  induction p with
  | nil => rfl
  | cons tok p ih =>
      rw [List.flatMap_cons, ih]
      cases tok <;> rfl

theorem matches_iff_gapMatches (p : List (Tok α)) (text : List α) :
    Matches p text ↔ GapMatches (fun _ => 1) 0 false p text := by
  have h := spelling_singleton.matches_spell_iff_gapMatches p text
  rwa [flatMap_spell_singleton, List.flatMap_singleton'] at h

end spelling

/-! ## Filling the gaps -/

def letters : List (Tok α) → ℕ
  | [] => 0
  | .lit _ :: p | .any :: p => letters p + 1
  | .many :: p | .never :: p => letters p

/-- A text of the form of the pattern, with a chosen text in a gap of each width. -/
def fill (g : ℕ → List α) : ℕ → List (Tok α) → List α
  | n, [] => g n
  | n, .lit a :: p => g n ++ a :: fill g 0 p
  | n, .any :: p => fill g (n + 1) p
  | n, .many :: p => fill g n p
  | _, .never :: _ => []

variable {g : ℕ → List α}

theorem gapMatches_fill (hnever : .never ∉ p) (hg : ∀ n, ((g n).map size).sum = n) :
    GapMatches size n long p (fill g n p) := by
  have hfits : ∀ n long, FitsGap size n long (g n) := by
    intro n long
    rw [FitsGap, hg]
    cases long with
    | true => exact le_refl n
    | false => rfl
  induction p generalizing n long with
  | nil => exact hfits n long
  | cons tok p ih =>
      have htail : .never ∉ p := fun hmem => hnever (List.mem_cons_of_mem _ hmem)
      cases tok with
      | lit a => exact ⟨g n, fill g 0 p, rfl, hfits n long, ih htail⟩
      | any => exact ih htail (n := n + 1)
      | many => exact show GapMatches size n true p (fill g n p) from ih htail
      | never => exact (hnever List.mem_cons_self).elim

/-- Where no gap takes a shorter text, the text is as long as the pattern asks. -/
theorem le_length_of_gapMatches
    (h : AllGaps (fun n long => ∀ s, FitsGap size n long s → n ≤ s.length) n long p)
    (hmatch : GapMatches size n long p text) : n + letters p ≤ text.length := by
  induction p generalizing n long text with
  | nil => exact h text hmatch
  | cons tok p ih =>
      cases tok with
      | lit a =>
          obtain ⟨s, rest, rfl, hfits, hrest⟩ := hmatch
          have hs := h.1 s hfits
          have hlength := ih h.2 hrest
          simp only [letters, List.length_append, List.length_cons]
          omega
      | any =>
          have hlength := ih (n := n + 1) h hmatch
          simp only [letters]
          omega
      | many => exact ih (show AllGaps _ n true p from h) hmatch
      | never => exact hmatch.elim

theorem length_fill_le (hg : ∀ n, (g n).length ≤ n) (n : ℕ) (p : List (Tok α)) :
    (fill g n p).length ≤ n + letters p := by
  induction p generalizing n with
  | nil => exact hg n
  | cons tok p ih =>
      cases tok with
      | lit a =>
          have hn := hg n
          have hrest := ih 0
          simp only [fill, letters, List.length_append, List.length_cons]
          omega
      | any =>
          have hrest := ih (n + 1)
          simp only [fill, letters]
          omega
      | many => exact ih n
      | never => exact Nat.zero_le _

theorem length_fill_lt (hg : ∀ n, (g n).length ≤ n)
    (h : ¬ AllGaps (fun n _ => n ≤ (g n).length) n long p) :
    (fill g n p).length < n + letters p := by
  induction p generalizing n long with
  | nil => exact Nat.lt_of_not_le h
  | cons tok p ih =>
      cases tok with
      | lit a =>
          have hn := hg n
          have hrest := length_fill_le hg 0 p
          simp only [fill, letters, List.length_append, List.length_cons]
          by_cases hgap : n ≤ (g n).length
          · have hlt := ih fun hall => h ⟨hgap, hall⟩
            omega
          · omega
      | any =>
          have hlt := ih (n := n + 1) h
          simp only [fill, letters]
          omega
      | many => exact ih (show ¬ AllGaps _ n true p from h)
      | never => exact (h trivial).elim

/-- With exactly the letters the pattern asks for, each gap takes what it was filled with. -/
theorem allGaps_of_gapMatches_fill (hnever : .never ∉ p) (hg : ∀ n, (g n).length = n)
    (h : AllGaps (fun n long => ∀ s, FitsGap size n long s → n ≤ s.length) n long p)
    (hmatch : GapMatches size n long p (fill g n p)) :
    AllGaps (fun n long => FitsGap size n long (g n)) n long p := by
  induction p generalizing n long with
  | nil => exact hmatch
  | cons tok p ih =>
      have htail : .never ∉ p := fun hmem => hnever (List.mem_cons_of_mem _ hmem)
      cases tok with
      | lit a =>
          obtain ⟨s, rest, heq, hfits, hrest⟩ := hmatch
          have hs := h.1 s hfits
          have hlow := le_length_of_gapMatches h.2 hrest
          have hhigh := length_fill_le (fun n => (hg n).le) 0 p
          have hlength := congrArg List.length heq
          simp only [fill, List.length_append, List.length_cons, hg] at hlength
          obtain ⟨rfl, hrest'⟩ := List.append_inj heq (by rw [hg]; omega)
          rw [← (List.cons.inj hrest').2] at hrest
          exact ⟨hfits, ih htail h.2 hrest⟩
      | any => exact ih htail (n := n + 1) h hmatch
      | many => exact ih htail (show AllGaps _ n true p from h) hmatch
      | never => exact (hnever List.mem_cons_self).elim

/-! ## Patterns that see no sizes -/

section sizes

variable (hsize : ∀ a, 1 ≤ size a)

include hsize in
theorem length_le_sum (s : List α) : s.length ≤ (s.map size).sum := by
  induction s with
  | nil => exact le_refl 0
  | cons a s ih =>
      have ha := hsize a
      rw [List.map_cons, List.sum_cons, List.length_cons]
      omega

theorem sum_map_one (s : List α) : (s.map fun _ => 1).sum = s.length := by simp

theorem fitsGap_nil_iff : FitsGap size n long [] ↔ n = 0 := by
  unfold FitsGap
  cases long with
  | true => exact Nat.le_zero
  | false => exact eq_comm

include hsize in
theorem fitsGap_iff_of_uniform (h : UniformGap n long) (s : List α) :
    FitsGap size n long s ↔ FitsGap (fun _ => 1) n long s := by
  have hle := length_le_sum hsize s
  unfold FitsGap
  rw [sum_map_one]
  rcases h with rfl | ⟨rfl, rfl⟩
  · cases long with
    | true => simp
    | false =>
        cases s with
        | nil => simp
        | cons a s =>
            rw [List.length_cons] at hle ⊢
            simp only [Bool.false_eq_true, if_false]
            omega
  · cases s with
    | nil => simp
    | cons a s =>
        rw [List.length_cons] at hle ⊢
        simp only [if_true]
        omega

include hsize in
theorem gapMatches_iff_of_uniform (h : AllGaps UniformGap n long p) (text : List α) :
    GapMatches size n long p text ↔ GapMatches (fun _ => 1) n long p text :=
  gapMatches_congr (h.mono fun _ _ hgap => fitsGap_iff_of_uniform hsize hgap) text

include hsize in
/-- With letters of size 1 and of size 2, exactly the patterns whose gaps are uniform match the
same texts whether sizes count or not. -/
theorem forall_gapMatches_iff (hnever : .never ∉ p) {one two : α} (hone : size one = 1)
    (htwo : size two = 2) :
    (∀ text, GapMatches size 0 false p text ↔ GapMatches (fun _ => 1) 0 false p text) ↔
      AllGaps UniformGap 0 false p := by
  constructor
  · intro hall
    by_cases hnarrow : AllGaps (fun n _ => n ≤ 1) 0 false p
    · -- every wildcard stands for the wide letter
      have hmatch : GapMatches size 0 false p (fill (fun n => List.replicate n two) 0 p) :=
        (hall _).mpr (gapMatches_fill hnever (by simp))
      have hlow : AllGaps (fun n long => ∀ s, FitsGap size n long s → n ≤ s.length) 0 false p := by
        apply hnarrow.mono
        intro n long hn s hfits
        cases s with
        | nil => exact (fitsGap_nil_iff.mp hfits).le
        | cons a s => exact hn.trans (Nat.le_add_left 1 s.length)
      have hfits := allGaps_of_gapMatches_fill hnever (by simp) hlow hmatch
      refine (hnarrow.and hfits).mono ?_
      intro n long hgap
      have hn : n ≤ 1 := hgap.1
      have hwords : FitsGap size n long (List.replicate n two) := hgap.2
      unfold FitsGap at hwords
      unfold UniformGap
      cases long with
      | true => simpa using Nat.le_one_iff_eq_zero_or_eq_one.mp hn
      | false =>
          have hdouble : n * 2 = n := by simpa [htwo] using hwords
          omega
    · -- two wildcards in a row stand for the wide letter together
      let g : ℕ → List α := fun n =>
        if 2 ≤ n then two :: List.replicate (n - 2) one else List.replicate n one
      have hsum : ∀ n, ((g n).map size).sum = n := by
        intro n
        by_cases hn : 2 ≤ n
        · simp [g, hn, hone, htwo]
        · simp [g, hn, hone]
      have hlength : ∀ n, (g n).length ≤ n := by
        intro n
        by_cases hn : 2 ≤ n
        · simp only [g, hn, if_true, List.length_cons, List.length_replicate]
          omega
        · simp [g, hn]
      have hmatch : GapMatches (fun _ => 1) 0 false p (fill g 0 p) :=
        (hall _).mp (gapMatches_fill hnever hsum)
      have hlow := le_length_of_gapMatches
        (allGaps_of_forall (fun n long s hfits => by
          unfold FitsGap at hfits
          rw [sum_map_one] at hfits
          cases long with
          | true => exact hfits
          | false => exact hfits.ge) 0 false p) hmatch
      have hwide : ¬ AllGaps (fun n _ => n ≤ (g n).length) 0 false p := by
        intro hwide
        apply hnarrow
        apply hwide.mono
        intro n _ hn
        by_contra hgap
        have hle : 2 ≤ n := by omega
        simp only [g, hle, if_true, List.length_cons, List.length_replicate] at hn
        omega
      have hshort := length_fill_lt hlength hwide
      omega
  · intro h text
    exact gapMatches_iff_of_uniform hsize h text

end sizes

end DeltaX.Support.Wildcard
