import DeltaX.Scan.LikeMatch
import DeltaX.Support.WildcardGaps
/-!
# When LIKE is SQL's

`_` stands for one character in SQL, and for one byte in the matcher.  In a gap of a pattern
without `_`, or with one `_` and a `%`, this makes no difference; any other gap has a text that
SQL and the matcher tell apart.
-/

namespace DeltaX.Scan

open Column Support.Wildcard Support.Utf8

/-- PostgreSQL accepts a pattern that does not end in the escape. -/
def Accepted (pattern : Text) : Prop := .never ∉ likeTokens pattern

/-- On every text the matcher finds what SQL finds, and so does the compiled strategy. -/
def LikeExact (pattern : Text) : Prop :=
  ∀ text, (sqlLikeMatch text pattern = true ↔ SqlLike text pattern) ∧
    likeStrategyMatches (compileLikePattern pattern) text = sqlLikeMatch text pattern

/-! ## Bytes -/

def utf8Length (c : Char) : ℕ := (String.utf8EncodeChar c).length

theorem one_le_utf8Length (c : Char) : 1 ≤ utf8Length c :=
  List.length_pos_iff.mpr (utf8EncodeChar_ne_nil c)

theorem utf8Length_of_lt {c : Char} (h : c.toNat < 128) : utf8Length c = 1 := by
  rw [utf8Length, utf8EncodeChar_of_lt h]
  rfl

theorem sqlLikeMatch_iff_gapMatches (text pattern : Text) :
    sqlLikeMatch text pattern = true ↔
      GapMatches utf8Length 0 false (likeTokens pattern) text := by
  calc sqlLikeMatch text pattern = true
      ↔ backtrack (utf8Bytes text) (parse byteSigns (utf8Bytes pattern)) none = true := by
        rw [sqlLikeMatch, sqlLikeMatchInner, likeLoop_eq_backtrack]
        rfl
    _ ↔ Matches (parse byteSigns (utf8Bytes pattern)) (utf8Bytes text) :=
        backtrack_none_iff _ _
    _ ↔ Matches ((likeTokens pattern).flatMap (Tok.spell String.utf8EncodeChar))
          (utf8Bytes text) := by
        rw [utf8Bytes, parse_flatMap spelling spellsSigns]
        rfl
    _ ↔ GapMatches utf8Length 0 false (likeTokens pattern) text :=
        spelling.matches_spell_iff_gapMatches _ _

theorem sqlLike_iff_gapMatches (text pattern : Text) :
    SqlLike text pattern ↔ GapMatches (fun _ => 1) 0 false (likeTokens pattern) text :=
  matches_iff_gapMatches _ _

theorem sqlLikeMatch_iff_of_ascii {text : Text} (h : ∀ c ∈ text, c.toNat < 128) (pattern : Text) :
    sqlLikeMatch text pattern = true ↔ SqlLike text pattern := by
  rw [sqlLikeMatch_iff_gapMatches, sqlLike_iff_gapMatches]
  exact gapMatches_congr_text fun c hc => utf8Length_of_lt (h c hc)

theorem sqlLikeMatch_iff_of_uniform {pattern : Text}
    (h : AllGaps UniformGap 0 false (likeTokens pattern)) (text : Text) :
    sqlLikeMatch text pattern = true ↔ SqlLike text pattern := by
  rw [sqlLikeMatch_iff_gapMatches, sqlLike_iff_gapMatches]
  exact gapMatches_iff_of_uniform one_le_utf8Length h text

/-! ## Strategies -/

theorem any_not_mem_likeTokens {pattern : Text} (h : '_' ∉ pattern) : .any ∉ likeTokens pattern := by
  unfold likeTokens
  induction pattern using parse.induct charSigns with
  | case1 => exact List.not_mem_nil
  | case2 => decide
  | case3 d p ih =>
      rw [parse_escape]
      have htail : '_' ∉ p := fun hmem => h (List.mem_cons_of_mem _ (List.mem_cons_of_mem _ hmem))
      simpa using ih htail
  | case4 p hesc ih => exact (h List.mem_cons_self).elim
  | case5 p hesc hone ih =>
      rw [parse_long hesc hone]
      simpa using ih fun hmem => h (List.mem_cons_of_mem _ hmem)
  | case6 a p hesc hone hlong ih =>
      rw [parse_plain ⟨hesc, hone, hlong⟩]
      simpa using ih fun hmem => h (List.mem_cons_of_mem _ hmem)

theorem likeStrategyMatches_eq (pattern text : Text) :
    likeStrategyMatches (compileLikePattern pattern) text = sqlLikeMatch text pattern := by
  by_cases hone : '_' ∈ pattern
  · have hcompiled : compileLikePattern pattern = .general pattern := by
      unfold compileLikePattern
      exact if_pos (Or.inl hone)
    rw [hcompiled]
    rfl
  · have hany := any_not_mem_likeTokens hone
    rw [Bool.eq_iff_iff, likeStrategyMatches_iff hany, sqlLikeMatch_iff hany]

/-! ## Patterns -/

/-- Exactly the patterns in whose gaps bytes and characters make no difference are matched as in
SQL on every text. -/
theorem likeExact_iff {pattern : Text} (h : Accepted pattern) :
    LikeExact pattern ↔ AllGaps UniformGap 0 false (likeTokens pattern) := by
  rw [← forall_gapMatches_iff one_le_utf8Length h (show utf8Length 'a' = 1 by decide)
    (show utf8Length 'é' = 2 by decide)]
  constructor
  · intro hexact text
    rw [← sqlLikeMatch_iff_gapMatches, ← sqlLike_iff_gapMatches]
    exact (hexact text).1
  · intro hgaps text
    refine ⟨?_, likeStrategyMatches_eq pattern text⟩
    rw [sqlLikeMatch_iff_gapMatches, sqlLike_iff_gapMatches]
    exact hgaps text

/-- `LIKE 'a_%b%'` is right on every text, and `LIKE 'a_b'` is not. -/
theorem likeExact_underscore :
    (LikeExact "a_%b%".toList ↔ AllGaps UniformGap 0 false (likeTokens "a_%b%".toList)) ∧
      (LikeExact "a_b".toList ↔ AllGaps UniformGap 0 false (likeTokens "a_b".toList)) ∧
      AllGaps UniformGap 0 false (likeTokens "a_%b%".toList) ∧
      ¬ AllGaps UniformGap 0 false (likeTokens "a_b".toList) :=
  ⟨likeExact_iff (by unfold Accepted; decide), likeExact_iff (by unfold Accepted; decide),
    by decide, by decide⟩

/-- `'é' LIKE '_'` is true in SQL, and the matcher says it is not. -/
theorem like_underscore_byte :
    ¬ ∀ text pattern, Accepted pattern →
      ((sqlLikeMatch text pattern = true ↔ SqlLike text pattern) ∧
        likeStrategyMatches (compileLikePattern pattern) text = sqlLikeMatch text pattern) := by
  intro hall
  have hiff := (hall ['é'] ['_'] (by unfold Accepted; decide)).1
  have hsql : SqlLike ['é'] ['_'] := ⟨'é', [], rfl, rfl⟩
  have hbytes := (sqlLikeMatch_iff_gapMatches _ _).mp (hiff.mpr hsql)
  have htwo : (2 : ℕ) = 1 := hbytes
  exact absurd htwo (by decide)

end DeltaX.Scan
