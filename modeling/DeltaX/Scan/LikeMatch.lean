import DeltaX.Scan.QualNodes
import DeltaX.Support.Utf8
/-!
# Matching a LIKE pattern

A pattern is compiled to one of four searches, or is left to a matcher that works
on the bytes of text and pattern.  SQL reads both as characters.  The two readings
agree on every text as soon as the pattern has no `_` that is not escaped: the
matcher lets that sign stand for one byte.
-/

namespace DeltaX.Scan

open Column Support.Wildcard Support.Utf8

/-! ## The matcher -/

def byteSigns : Signs UInt8 := ⟨92, 95, 37⟩

/-- The loop of `sql_like_match_inner`: what is left of text and pattern, and for
the last `%` the pattern behind it and the text it was last tried at. -/
def likeLoop (text pattern : List UInt8) (star : Option (List UInt8 × List UInt8)) : Bool :=
  match text, pattern with
  | [], pattern => pattern.all fun b => b == byteSigns.long
  | t :: ts, c :: p =>
      if c = byteSigns.escape then
        -- the byte after the escape is compared as it is
        match p with
        | d :: p =>
            if t = d then likeLoop ts p star
            else match star with
              | some (sp, _ :: st) => likeLoop st sp (some (sp, st))
              | _ => false
        | [] =>
            match star with
            | some (sp, _ :: st) => likeLoop st sp (some (sp, st))
            | _ => false
      else if c = byteSigns.one then likeLoop ts p star
      else if c = byteSigns.long then likeLoop (t :: ts) p (some (p, t :: ts))
      else if t = c then likeLoop ts p star
      else match star with
        | some (sp, _ :: st) => likeLoop st sp (some (sp, st))
        | _ => false
  | _ :: _, [] =>
      match star with
      | some (sp, _ :: st) => likeLoop st sp (some (sp, st))
      | _ => false
termination_by (max pattern.length ((star.map fun s => s.1.length).getD 0),
  (star.map fun s => s.2.length).getD 0, pattern.length)
decreasing_by
  all_goals simp_wf; simp only [Prod.lex_def]; simp; try omega
  · exact (Nat.eq_zero_or_pos _).imp List.length_eq_zero_iff.mp id

def sqlLikeMatchInner (text pattern : List UInt8) : Bool := likeLoop text pattern none

def sqlLikeMatch (text pattern : Text) : Bool :=
  sqlLikeMatchInner (utf8Bytes text) (utf8Bytes pattern)

/-- `like_strategy_matches`; `str::contains` and its kin search bytes, which for
texts is the same as searching characters. -/
def likeStrategyMatches (strategy : LikeStrategy) (s : Text) : Bool :=
  match strategy with
  | .contains c => decide (c <:+: s)
  | .startsWith c => decide (c <+: s)
  | .endsWith c => decide (c <:+ s)
  | .exact c => decide (s = c)
  | .general p => sqlLikeMatch s p

/-! ## The matcher reads tokens -/

/-- A point of return with its pattern read. -/
def parsedStar (star : Option (List UInt8 × List UInt8)) :
    Option (List (Tok UInt8) × List UInt8) :=
  star.map fun s => (parse byteSigns s.1, s.2)

theorem parse_all_isMany (p : List UInt8) :
    (parse byteSigns p).all Tok.isMany = p.all fun b => b == byteSigns.long := by
  induction p using parse.induct byteSigns with
  | case1 => rfl
  | case2 => decide
  | case3 d p ih => 
      rw [parse_escape, List.all_cons, List.all_cons]
      rfl
  | case4 p hesc ih => 
      rw [parse_one hesc, List.all_cons, List.all_cons]
      rfl
  | case5 p hesc hone ih => 
      rw [parse_long hesc hone, List.all_cons, List.all_cons, ih]
      rfl
  | case6 a p hesc hone hlong ih => 
      rw [parse_plain ⟨hesc, hone, hlong⟩, List.all_cons, List.all_cons, beq_false_of_ne hlong]
      rfl

theorem parse_escape_end : parse byteSigns [byteSigns.escape] = [.never] := by decide

theorem star_cases {star : Option (List UInt8 × List UInt8)}
    (h : ∀ sp s st, star = some (sp, s :: st) → False) : star = none ∨ ∃ sp, star = some (sp, []) := by
  match star with
  | none => exact Or.inl rfl
  | some (sp, []) => exact Or.inr ⟨sp, rfl⟩
  | some (sp, s :: st) => exact (h sp s st rfl).elim

/-- Byte for byte, the loop is the matcher with one point of return. -/
theorem likeLoop_eq_backtrack (text pattern : List UInt8)
    (star : Option (List UInt8 × List UInt8)) :
    likeLoop text pattern star = backtrack text (parse byteSigns pattern) (parsedStar star) := by
  induction text, pattern, star using likeLoop.induct with
  | case1 star p => rw [likeLoop, backtrack, parse_all_isMany]
  | case2 star ts d p ih =>
      rw [parse_escape, likeLoop.eq_def, backtrack.eq_def]
      simpa using ih
  | case3 t ts d p hne sp s st ih =>
      rw [parse_escape, likeLoop.eq_def, backtrack.eq_def]
      simpa [hne, parsedStar] using ih
  | case4 star t ts d p hne hstar =>
      rw [parse_escape, likeLoop.eq_def, backtrack.eq_def]
      rcases star_cases hstar with rfl | ⟨sp, rfl⟩ <;> simp [hne, parsedStar]
  | case5 t ts sp s st ih =>
      rw [likeLoop.eq_def, parse_escape_end, backtrack.eq_def]
      simpa [parsedStar] using ih
  | case6 star t ts hstar =>
      rw [likeLoop.eq_def, parse_escape_end, backtrack.eq_def]
      rcases star_cases hstar with rfl | ⟨sp, rfl⟩ <;> simp [parsedStar]
  | case7 star t ts p hesc ih =>
      rw [parse_one hesc, likeLoop.eq_def, backtrack.eq_def]
      simpa [hesc] using ih
  | case8 star t ts p hesc hone ih =>
      rw [parse_long hesc hone, likeLoop.eq_def, backtrack.eq_def]
      simpa [hesc, hone, parsedStar] using ih
  | case9 star ts c p hesc hone hlong ih =>
      rw [parse_plain ⟨hesc, hone, hlong⟩, likeLoop.eq_def, backtrack.eq_def]
      simpa [hesc, hone, hlong] using ih
  | case10 t ts c p hesc hone hlong hne sp s st ih =>
      rw [parse_plain ⟨hesc, hone, hlong⟩, likeLoop.eq_def, backtrack.eq_def]
      simpa [hesc, hone, hlong, hne, parsedStar] using ih
  | case11 star t ts c p hesc hone hlong hne hstar =>
      rw [parse_plain ⟨hesc, hone, hlong⟩, likeLoop.eq_def, backtrack.eq_def]
      rcases star_cases hstar with rfl | ⟨sp, rfl⟩ <;> simp [hesc, hone, hlong, hne, parsedStar]
  | case12 t ts sp s st ih =>
      rw [likeLoop.eq_def, parse, backtrack.eq_def]
      simpa [parsedStar] using ih
  | case13 star t ts hstar =>
      rw [likeLoop.eq_def, parse, backtrack.eq_def]
      rcases star_cases hstar with rfl | ⟨sp, rfl⟩ <;> simp [parsedStar]

/-! ## Characters -/

def charSigns : Signs Char := ⟨'\\', '_', '%'⟩

def likeTokens (pattern : Text) : List (Tok Char) := parse charSigns pattern

def SqlLike (text pattern : Text) : Prop := Matches (likeTokens pattern) text

theorem char_eq_of_mem {c d : Char} {b : UInt8} (hd : d.toNat = b.toNat) (hlt : b.toNat < 128)
    (hb : b ∈ String.utf8EncodeChar c) : c = d := by
  apply Char.ext
  apply UInt32.toNat_inj.mp
  exact (toNat_eq_of_mem hb hlt).trans hd.symm

theorem spellsSigns : SpellsSigns String.utf8EncodeChar charSigns byteSigns where
  escape := by decide
  one := by decide
  long := by decide
  plain c hc b hb := by
    refine ⟨?_, ?_, ?_⟩
    · rintro rfl
      exact hc.1 (char_eq_of_mem (d := '\\') (by decide) (by decide) hb)
    · rintro rfl
      exact hc.2.1 (char_eq_of_mem (d := '_') (by decide) (by decide) hb)
    · rintro rfl
      exact hc.2.2 (char_eq_of_mem (d := '%') (by decide) (by decide) hb)

/-- On bytes the matcher finds what SQL finds on characters, `_` apart. -/
theorem sqlLikeMatch_iff {pattern : Text} (hany : .any ∉ likeTokens pattern) (text : Text) :
    sqlLikeMatch text pattern = true ↔ SqlLike text pattern := by
  calc sqlLikeMatch text pattern = true
      ↔ backtrack (utf8Bytes text) (parse byteSigns (utf8Bytes pattern)) none = true := by
        rw [sqlLikeMatch, sqlLikeMatchInner, likeLoop_eq_backtrack]
        rfl
    _ ↔ Matches (parse byteSigns (utf8Bytes pattern)) (utf8Bytes text) :=
        backtrack_none_iff _ _
    _ ↔ Matches ((likeTokens pattern).flatMap (Tok.spell String.utf8EncodeChar))
          (utf8Bytes text) := by
        rw [utf8Bytes, parse_flatMap spelling spellsSigns]
        rfl
    _ ↔ SqlLike text pattern := spelling.matches_spell_iff hany text

/-! ## Strategies -/

/-- Nothing but literals. -/
theorem likeTokens_append {s : Text} (hone : '_' ∉ s) (hesc : '\\' ∉ s) (hlong : '%' ∉ s)
    (p : Text) : likeTokens (s ++ p) = s.map .lit ++ likeTokens p := by
  apply parse_plain_append
  intro a ha
  exact ⟨ne_of_mem_of_not_mem ha hesc, ne_of_mem_of_not_mem ha hone,
    ne_of_mem_of_not_mem ha hlong⟩

theorem likeTokens_long (p : Text) : likeTokens ('%' :: p) = .many :: likeTokens p :=
  parse_long (s := charSigns) (by decide) (by decide) p

theorem likeTokens_of_plain {s : Text} (hone : '_' ∉ s) (hesc : '\\' ∉ s) (hlong : '%' ∉ s) :
    likeTokens s = s.map .lit := by
  have h := likeTokens_append hone hesc hlong []
  rwa [List.append_nil, show likeTokens [] = [] from rfl, List.append_nil] at h

theorem sqlLike_endsWith {s : Text} (hone : '_' ∉ s) (hesc : '\\' ∉ s) (hlong : '%' ∉ s)
    (text : Text) : SqlLike text ('%' :: s) ↔ s <:+ text := by
  rw [SqlLike, likeTokens_long, likeTokens_of_plain hone hesc hlong, matches_many_lits]

theorem sqlLike_startsWith {s : Text} (hone : '_' ∉ s) (hesc : '\\' ∉ s) (hlong : '%' ∉ s)
    (text : Text) : SqlLike text (s ++ ['%']) ↔ s <+: text := by
  rw [SqlLike, likeTokens_append hone hesc hlong]
  exact matches_lits_many s text

theorem sqlLike_contains {s : Text} (hone : '_' ∉ s) (hesc : '\\' ∉ s) (hlong : '%' ∉ s)
    (text : Text) : SqlLike text ('%' :: (s ++ ['%'])) ↔ s <:+: text := by
  rw [SqlLike, likeTokens_long, likeTokens_append hone hesc hlong]
  exact matches_many_lits_many s text

/-- Every search a pattern is compiled to is the pattern's. -/
theorem likeStrategyMatches_iff {pattern : Text} (hany : .any ∉ likeTokens pattern)
    (text : Text) :
    likeStrategyMatches (compileLikePattern pattern) text = true ↔ SqlLike text pattern := by
  unfold compileLikePattern
  by_cases hsign : '_' ∈ pattern ∨ '\\' ∈ pattern
  · rw [if_pos hsign]
    exact sqlLikeMatch_iff hany text
  · rw [if_neg hsign]
    obtain ⟨hone, hesc⟩ := not_or.mp hsign
    split
    · rename_i hcount
      have hlong : '%' ∉ pattern := List.count_eq_zero.mp hcount
      rw [SqlLike, likeTokens_of_plain hone hesc hlong, matches_lits]
      exact decide_eq_true_iff
    · -- one `%`: alone, in front, behind, or inside
      rename_i hcount
      split
      · rename_i heq
        rw [heq]
        exact iff_of_true (decide_eq_true (List.nil_infix)) (matches_many_nil text)
      · split
        · rename_i hhead
          obtain ⟨s, rfl⟩ := List.head?_eq_some_iff.mp hhead
          have hlong : '%' ∉ s := List.count_eq_zero.mp (by simpa using hcount)
          rw [sqlLike_endsWith (fun h => hone (List.mem_cons_of_mem _ h))
            (fun h => hesc (List.mem_cons_of_mem _ h)) hlong]
          exact decide_eq_true_iff
        · split
          · rename_i hlast
            obtain ⟨s, rfl⟩ := List.getLast?_eq_some_iff.mp hlast
            have hlong : '%' ∉ s := List.count_eq_zero.mp (by simpa using hcount)
            rw [List.dropLast_concat, sqlLike_startsWith (fun h => hone (List.mem_append_left _ h))
              (fun h => hesc (List.mem_append_left _ h)) hlong]
            exact decide_eq_true_iff
          · exact sqlLikeMatch_iff hany text
    · rename_i hcount
      split
      · rename_i hends
        obtain ⟨s, rfl⟩ := List.head?_eq_some_iff.mp hends.1
        have hne : s ≠ [] := by
          rintro rfl
          exact absurd hcount (by decide)
        have hlast : s.getLast? = some '%' := by
          rw [← List.getLast?_cons_of_ne_nil hne]
          exact hends.2
        obtain ⟨m, rfl⟩ := List.getLast?_eq_some_iff.mp hlast
        have hlong : '%' ∉ m := List.count_eq_zero.mp (by simpa using hcount)
        rw [List.tail_cons, List.dropLast_concat,
          sqlLike_contains (fun h => hone (List.mem_cons_of_mem _ (List.mem_append_left _ h)))
            (fun h => hesc (List.mem_cons_of_mem _ (List.mem_append_left _ h))) hlong]
        exact decide_eq_true_iff
      · exact sqlLikeMatch_iff hany text
    · exact sqlLikeMatch_iff hany text

end DeltaX.Scan
