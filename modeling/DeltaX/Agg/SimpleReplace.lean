import DeltaX.Agg.PatternMeaning
/-!
# Execution of simple patterns

The matcher of bytes takes what the regular expression of the components takes, at character
boundaries, and `replace` agrees with `regexp_replace` but for the stops and the replacements
that are read otherwise.
-/

namespace DeltaX.Agg.RegexpReplace

open Column (Text)
open ReplacementTemplate Support.Utf8 Support.OrderedRegex

/-! ## Bytes and characters -/

theorem prefix_utf8Bytes {t s : Text} : utf8Bytes t <+: utf8Bytes s ↔ t <+: s := by
  constructor
  · rintro ⟨tail, h⟩
    induction t generalizing s with
    | nil => exact List.nil_prefix
    | cons c t ih =>
        rw [utf8Bytes_cons, List.append_assoc] at h
        have hnone : ∀ b ∈ ([] : List UInt8), ¬ b.IsUTF8FirstByte := by simp
        obtain ⟨s', rfl, hrest⟩ := spelling.exists_of_append_eq hnone h.symm
        exact (List.cons_prefix_cons).mpr ⟨rfl, ih hrest⟩
  · rintro ⟨tail, rfl⟩
    rw [utf8Bytes_append]
    exact List.prefix_append _ _

theorem drop_utf8Bytes {t s : Text} (h : t <+: s) :
    (utf8Bytes s).drop (utf8Bytes t).length = utf8Bytes (s.drop t.length) := by
  obtain ⟨tail, rfl⟩ := h
  rw [utf8Bytes_append, List.drop_left, List.drop_left]

theorem not_mem_word {c stop : Char} (hstop : stop.toNat < 128) (hne : c ≠ stop) :
    ∀ b ∈ String.utf8EncodeChar c, ¬ decide (b = asciiByte stop) = true := by
  intro b hb heq
  have hbyte : (asciiByte stop).toNat = stop.toNat := by
    rw [asciiByte, UInt8.toNat_ofNat']
    omega
  rw [of_decide_eq_true heq] at hb
  have hcode := toNat_eq_of_mem hb (by omega)
  exact hne (Char.toNat_inj.mp (hcode.trans hbyte))

/-- The first byte of a stop is that of the first character that is the stop. -/
theorem findIdx?_utf8Bytes {stop : Char} (hstop : stop.toNat < 128) (s : Text) :
    (utf8Bytes s).findIdx? (fun b => decide (b = asciiByte stop)) =
      if s.any (fun c => decide (c = stop)) then
        some (utf8Bytes (s.takeWhile fun c => !decide (c = stop))).length
      else none := by
  induction s with
  | nil => rfl
  | cons c s ih =>
      by_cases hc : c = stop
      · subst hc
        rw [utf8Bytes_cons_ascii hstop, List.findIdx?_cons, if_pos (decide_eq_true rfl)]
        simp
      · have hword : (String.utf8EncodeChar c).findIdx? (fun b => decide (b = asciiByte stop)) =
            none := by
          rw [List.findIdx?_eq_none_iff]
          intro b hb
          exact Bool.eq_false_iff.mpr (not_mem_word hstop hc b hb)
        rw [utf8Bytes_cons, List.findIdx?_append, hword, ih]
        simp [hc, Nat.add_comm]

/-! ## The matcher by characters -/

/-- `rec` by characters: what stands before the capture, and the capture. -/
def execChars : List CharComp → Text → Text → Option (Text × Text) → Option (Text × Text)
  | [], _, _, cap => cap
  | .lit t :: comps, before, rest, cap =>
      if t <+: rest then execChars comps (before ++ t) (rest.drop t.length) cap else none
  | .optLit t :: comps, before, rest, cap =>
      (if t <+: rest then execChars comps (before ++ t) (rest.drop t.length) cap else none).or
        (execChars comps before rest cap)
  | .cap _ stop :: comps, before, rest, _ =>
      let run := rest.takeWhile fun c => !decide (c = stop)
      if rest.any (fun c => decide (c = stop)) ∧ run ≠ [] then
        execChars comps (before ++ run) (rest.drop run.length) (some (before, run))
      else none

def byteRange (cap : Text × Text) : ℕ × ℕ :=
  ((utf8Bytes cap.1).length, (utf8Bytes cap.1).length + (utf8Bytes cap.2).length)

theorem execFrom_bytes {comps : List CharComp} (hok : ∀ comp ∈ comps, comp.Ok)
    (before rest : Text) (cap : Option (Text × Text)) :
    execFrom (comps.map CharComp.bytes) (utf8Bytes rest) (utf8Bytes before).length
        (cap.map byteRange) = (execChars comps before rest cap).map byteRange := by
  induction comps generalizing before rest cap with
  | nil => rfl
  | cons comp comps ih =>
      have hrest : ∀ d ∈ comps, d.Ok := fun d hd => hok d (List.mem_cons_of_mem comp hd)
      have hlit : ∀ t : Text, (if utf8Bytes t <+: utf8Bytes rest then
          execFrom (comps.map CharComp.bytes) ((utf8Bytes rest).drop (utf8Bytes t).length)
            ((utf8Bytes before).length + (utf8Bytes t).length) (cap.map byteRange) else none) =
          (if t <+: rest then execChars comps (before ++ t) (rest.drop t.length) cap
            else none).map byteRange := by
        intro t
        by_cases ht : t <+: rest
        · rw [if_pos (prefix_utf8Bytes.mpr ht), if_pos ht, drop_utf8Bytes ht,
            ← List.length_append, ← utf8Bytes_append, ih hrest]
        · rw [if_neg (mt prefix_utf8Bytes.mp ht), if_neg ht]
          rfl
      cases comp with
      | lit t => exact hlit t
      | optLit t =>
          have htaken := hlit t
          rw [List.map_cons, CharComp.bytes, execFrom, execChars, Option.map_or, ← htaken,
            ← ih hrest before rest cap]
          split_ifs
          · cases execFrom (comps.map CharComp.bytes)
              ((utf8Bytes rest).drop (utf8Bytes t).length)
              ((utf8Bytes before).length + (utf8Bytes t).length) (cap.map byteRange) <;> rfl
          · rfl
      | cap escaped stop =>
          have hstop : stop.toNat < 128 := hok _ List.mem_cons_self
          have hrun := List.takeWhile_prefix (fun c => !decide (c = stop)) (l := rest)
          rw [List.map_cons, CharComp.bytes, execFrom, execChars, findIdx?_utf8Bytes hstop]
          by_cases hany : rest.any (fun c => decide (c = stop)) = true
          · rw [if_pos hany]
            by_cases hnil : rest.takeWhile (fun c => !decide (c = stop)) = []
            · rw [if_neg fun h => h.2 hnil, hnil]
              rfl
            · have hpos : (utf8Bytes (rest.takeWhile fun c => !decide (c = stop))).length ≠ 0 := by
                rw [Ne, List.length_eq_zero_iff]
                exact fun h => hnil (utf8Bytes_injective h)
              rw [if_pos ⟨hany, hnil⟩, ← ih hrest, utf8Bytes_append, List.length_append,
                ← drop_utf8Bytes hrun]
              split
              · cases ‹_›
              · exact absurd (Option.some.inj ‹_›) hpos
              · rename_i heq
                obtain rfl := Option.some.inj heq
                rfl
          · rw [if_neg hany, if_neg fun h => hany h.1]
            rfl

/-! ## The matcher and the expression -/

/-- Every capture is followed by a literal that begins with its stop. -/
def Followed : List CharComp → Prop
  | .cap _ stop :: comps => (∃ t more, comps = .lit (stop :: t) :: more) ∧ Followed comps
  | .lit _ :: comps => Followed comps
  | .optLit _ :: comps => Followed comps
  | [] => True

theorem followed_of_noCap {comps : List CharComp} (h : comps.countP isCap = 0) :
    Followed comps := by
  induction comps with
  | nil => trivial
  | cons comp comps ih =>
      rw [List.countP_cons] at h
      have hrest := ih (by omega)
      cases comp with
      | lit t => exact hrest
      | optLit t => exact hrest
      | cap escaped stop =>
          rw [isCap, if_pos rfl] at h
          omega

theorem followed_of_capFollowed {comps : List CharComp} (hok : ∀ comp ∈ comps, comp.Ok)
    (hone : comps.countP isCap = 1) (h : capFollowed (comps.map CharComp.bytes) = true) :
    Followed comps := by
  induction comps with
  | nil => trivial
  | cons comp comps ih =>
      have hrest : ∀ d ∈ comps, d.Ok := fun d hd => hok d (List.mem_cons_of_mem comp hd)
      cases comp with
      | lit t => exact ih hrest hone h
      | optLit t => exact ih hrest hone h
      | cap escaped stop =>
          have hstop : stop.toNat < 128 := hok _ List.mem_cons_self
          rw [List.countP_cons, isCap, if_pos rfl] at hone
          refine ⟨?_, followed_of_noCap (by omega)⟩
          rcases comps with - | ⟨next, comps⟩
          · cases h
          cases next with
          | optLit t => cases h
          | cap escaped' stop' => cases h
          | lit t =>
              have hhead : (utf8Bytes t).head? = some (asciiByte stop) := of_decide_eq_true h
              have hbytes := (List.cons_head?_tail hhead).symm
              have hbyte : (asciiByte stop).toNat = stop.toNat := by
                rw [asciiByte, UInt8.toNat_ofNat']
                omega
              obtain ⟨c, t', rfl, hc, -⟩ := exists_of_utf8Bytes_cons hbytes (by omega)
              have hsame : c = stop := Char.toNat_inj.mp (hc.trans hbyte)
              exact ⟨t', comps, by rw [hsame]⟩

theorem runs_tailItems (st : At Char) :
    (runs (catAll tailItems) st).head? = some (st.advance st.rest.length) := by
  have hcat : runs (catAll tailItems) st =
      runs (.cat (.star (.set fun _ => true)) .eos) st := by
    rw [tailItems, runs_catAll_cons, runs_cat]
    congr 1
    exact funext (runs_catAll_single .eos)
  rw [hcat, head?_star_eos]

/-- A literal is not found where another character comes next. -/
theorem runs_one_append (stop : Char) (rs : List (Re Char)) {st : At Char}
    (h : st.rest.head? ≠ some stop) : runs (catAll (one stop :: rs)) st = [] := by
  rw [runs_catAll_cons, one]
  cases hrest : st.rest with
  | nil => rw [runs_set_nil _ hrest, List.flatMap_nil]
  | cons y rest =>
      have hne : y ≠ stop := by
        rintro rfl
        exact h (by rw [hrest]; rfl)
      rw [runs_set_cons _ hrest, if_neg (by simpa using hne), List.flatMap_nil]

/-- What the matcher finds is the preferred match of the expression. -/
theorem head?_runs_eq {comps : List CharComp} (hfollowed : Followed comps) (before rest : Text)
    (cap : Option (Text × Text)) (hcap : cap.isSome = true ∨ comps.any isCap = true) :
    (runs (catAll (plainItemsOf comps ++ tailItems))
        ⟨before.length, rest, cap.map Prod.snd⟩).head? =
      (execChars comps before rest cap).map fun r =>
        ⟨before.length + rest.length, [], some r.2⟩ := by
  induction comps generalizing before rest cap with
  | nil =>
      show (runs (catAll tailItems) _).head? = _
      rw [runs_tailItems, execChars]
      rcases hcap with hcap | hcap
      · obtain ⟨r, rfl⟩ := Option.isSome_iff_exists.mp hcap
        simp [At.advance]
      · cases hcap
  | cons comp comps ih =>
      have hitems : plainItemsOf (comp :: comps) ++ tailItems =
          comp.plainItems ++ (plainItemsOf comps ++ tailItems) := by
        rw [plainItemsOf, List.flatMap_cons, List.append_assoc]
        rfl
      have hlit : ∀ t : Text, Followed comps → (cap.isSome = true ∨ comps.any isCap = true) →
          ((runs (catAll (t.map one)) ⟨before.length, rest, cap.map Prod.snd⟩).findSome? fun st =>
            (runs (catAll (plainItemsOf comps ++ tailItems)) st).head?) =
          (if t <+: rest then execChars comps (before ++ t) (rest.drop t.length) cap
            else none).map fun r => ⟨before.length + rest.length, [], some r.2⟩ := by
        intro t hfollowed hcap
        rw [runs_literal]
        by_cases ht : t <+: rest
        · have hlen := ht.length_le
          have hnext := ih hfollowed (before ++ t) (rest.drop t.length) cap hcap
          rw [List.length_append, List.length_drop,
            show before.length + t.length + (rest.length - t.length) =
              before.length + rest.length by omega] at hnext
          rw [if_pos ht, if_pos ht, List.findSome?_singleton, ← hnext]
          rfl
        · rw [if_neg ht, if_neg ht]
          rfl
      rw [hitems]
      cases comp with
      | lit t =>
          rw [runs_catAll_append, List.head?_flatMap]
          exact hlit t hfollowed hcap
      | optLit t =>
          have htaken := hlit t hfollowed hcap
          have hskipped := ih hfollowed before rest cap hcap
          have hopt : runs (optText t) ⟨before.length, rest, cap.map Prod.snd⟩ =
              runs (catAll (t.map one)) ⟨before.length, rest, cap.map Prod.snd⟩ ++
                [⟨before.length, rest, cap.map Prod.snd⟩] := by
            rw [← runs_branch]
            rfl
          rw [CharComp.plainItems, List.singleton_append, runs_catAll_cons, List.head?_flatMap, hopt,
            List.findSome?_append, htaken, List.findSome?_singleton, hskipped, execChars,
            Option.map_or]
      | cap escaped stop =>
          obtain ⟨⟨t, more, rfl⟩, hfollowed⟩ := hfollowed
          have hliteral : plainItemsOf (.lit (stop :: t) :: more) ++ tailItems =
              one stop :: (t.map one ++ plainItemsOf more ++ tailItems) := rfl
          have hrun := List.takeWhile_prefix (fun c => !decide (c = stop)) (l := rest)
          have hlen := hrun.length_le
          -- a shorter capture is not followed by the stop
          have hshort : ∀ k, k + 1 < (rest.takeWhile fun c => !decide (c = stop)).length →
              runs (catAll (plainItemsOf (.lit (stop :: t) :: more) ++ tailItems))
                ((At.mk before.length rest (cap.map Prod.snd)).captured (k + 1)) = [] := by
            intro k hk
            rw [hliteral]
            apply runs_one_append
            rw [At.captured, List.head?_drop]
            have hinside := hrun.getElem hk
            have hpass := List.mem_takeWhile_imp (List.getElem_mem hk)
            rw [hinside] at hpass
            rw [List.getElem?_eq_getElem (Nat.lt_of_lt_of_le hk hlen)]
            intro heq
            rw [Option.some.inj heq] at hpass
            simp at hpass
          have hhead := head?_capture_plus_set (fun c => !decide (c = stop))
            (catAll (plainItemsOf (.lit (stop :: t) :: more) ++ tailItems))
            ⟨before.length, rest, cap.map Prod.snd⟩ hshort
          rw [CharComp.plainItems, List.singleton_append, runs_catAll_cons, ← runs_cat]
          refine hhead.trans ?_
          rw [execChars]
          by_cases hnil : rest.takeWhile (fun c => !decide (c = stop)) = []
          · rw [if_pos hnil, if_neg fun h => h.2 hnil]
            rfl
          have htake : rest.take (rest.takeWhile fun c => !decide (c = stop)).length =
              rest.takeWhile fun c => !decide (c = stop) :=
            (List.prefix_iff_eq_take.mp hrun).symm
          rw [if_neg hnil]
          by_cases hany : rest.any (fun c => decide (c = stop)) = true
          · have hnext := ih hfollowed (before ++ rest.takeWhile fun c => !decide (c = stop))
              (rest.drop (rest.takeWhile fun c => !decide (c = stop)).length)
              (some (before, rest.takeWhile fun c => !decide (c = stop))) (.inl rfl)
            rw [List.length_append, List.length_drop,
              show ∀ n m k : ℕ, n ≤ k → m + n + (k - n) = m + k by omega] at hnext
            · rw [if_pos ⟨hany, hnil⟩, ← hnext, At.captured, htake]
              rfl
            · exact hlen
          · -- the stop does not occur
            have hall : rest.takeWhile (fun c => !decide (c = stop)) = rest := by
              rw [List.takeWhile_eq_self_iff]
              intro c hc
              rw [Bool.not_eq_true, List.any_eq_false] at hany
              simpa using hany c hc
            have hend : ((At.mk before.length rest (cap.map Prod.snd)).captured
                rest.length).rest.head? ≠ some stop := by
              rw [At.captured, List.drop_length]
              simp
            rw [if_neg fun h => hany h.1, hall, hliteral, runs_one_append _ _ hend]
            rfl

/-! ## The captured slice -/

def StandsIn (s : Text) (cap : Text × Text) : Prop := ∃ tail, s = cap.1 ++ cap.2 ++ tail

theorem standsIn_of_execChars {comps : List CharComp} {before rest : Text}
    {cap : Option (Text × Text)} {r : Text × Text}
    (hcap : ∀ c ∈ cap, StandsIn (before ++ rest) c)
    (h : execChars comps before rest cap = some r) : StandsIn (before ++ rest) r := by
  induction comps generalizing before rest cap with
  | nil => exact hcap r h
  | cons comp comps ih =>
      have hmove : ∀ {t : Text} {cap : Option (Text × Text)},
          (∀ c ∈ cap, StandsIn (before ++ rest) c) → t <+: rest →
          execChars comps (before ++ t) (rest.drop t.length) cap = some r →
          StandsIn (before ++ rest) r := by
        intro t cap hcap ht h
        obtain ⟨tail, rfl⟩ := ht
        rw [List.drop_left] at h
        have hsame : before ++ (t ++ tail) = before ++ t ++ tail := (List.append_assoc _ _ _).symm
        rw [hsame] at hcap ⊢
        exact ih hcap h
      cases comp with
      | lit t =>
          rw [execChars] at h
          split_ifs at h with ht
          exact hmove hcap ht h
      | optLit t =>
          rw [execChars, Option.or_eq_some_iff] at h
          rcases h with h | ⟨-, h⟩
          · split_ifs at h with ht
            exact hmove hcap ht h
          · exact ih hcap h
      | cap escaped stop =>
          rw [execChars] at h
          split_ifs at h with hfound
          refine hmove ?_ (List.takeWhile_prefix _) h
          intro c hc
          rw [← Option.some.inj hc]
          obtain ⟨tail, htail⟩ := List.takeWhile_prefix (fun c => !decide (c = stop)) (l := rest)
          exact ⟨tail, by rw [List.append_assoc, htail]⟩

/-- The first byte of a character is below 128 or from 192 on. -/
theorem lead_of_head? {c : Char} {b : UInt8} (h : (String.utf8EncodeChar c).head? = some b) :
    b.toNat < 128 ∨ 192 ≤ b.toNat := by
  simp only [String.utf8EncodeChar] at h
  split_ifs at h <;> rw [List.head?_cons] at h <;> rw [← Option.some.inj h, UInt8.toNat_ofNat'] <;>
    omega

theorem isCharBoundary_append (x y : Text) :
    isCharBoundary (utf8Bytes (x ++ y)) (utf8Bytes x).length = true := by
  rw [utf8Bytes_append, isCharBoundary, List.getElem?_append_right (Nat.le_refl _), Nat.sub_self]
  cases y with
  | nil =>
      rw [utf8Bytes_nil, List.append_nil]
      exact decide_eq_true rfl
  | cons c y =>
      obtain ⟨b, word, hword⟩ := List.exists_cons_of_ne_nil (utf8EncodeChar_ne_nil c)
      have hlead := lead_of_head? (c := c) (b := b) (by rw [hword]; rfl)
      rw [utf8Bytes_cons, hword]
      show (_ || decide (b < 128) || decide (192 ≤ b)) = true
      rcases hlead with hlead | hlead
      · rw [decide_eq_true (UInt8.lt_iff_toNat_lt.mpr hlead), Bool.or_true]
        rfl
      · have hle : (192 : UInt8) ≤ b := UInt8.le_iff_toNat_le.mpr hlead
        rw [decide_eq_true hle, Bool.or_true]

theorem StandsIn.boundaries {s : Text} {cap : Text × Text} (h : StandsIn s cap) :
    isCharBoundary (utf8Bytes s) (byteRange cap).1 = true ∧
      isCharBoundary (utf8Bytes s) (byteRange cap).2 = true := by
  obtain ⟨tail, rfl⟩ := h
  have hstart := isCharBoundary_append cap.1 (cap.2 ++ tail)
  have hstop := isCharBoundary_append (cap.1 ++ cap.2) tail
  rw [utf8Bytes_append cap.1 cap.2, List.length_append] at hstop
  rw [← List.append_assoc] at hstart
  exact ⟨hstart, hstop⟩

theorem strSlice_of_standsIn {s : Text} {cap : Text × Text} (h : StandsIn s cap) :
    strSlice s (byteRange cap).1 (byteRange cap).2 = some cap.2 := by
  have hbounds := h.boundaries
  obtain ⟨tail, rfl⟩ := h
  have hslice : ((utf8Bytes (cap.1 ++ cap.2 ++ tail)).drop (byteRange cap).1).take
      ((byteRange cap).2 - (byteRange cap).1) = utf8Bytes cap.2 := by
    rw [byteRange, utf8Bytes_append, utf8Bytes_append, List.append_assoc, List.drop_left,
      Nat.add_sub_cancel_left, List.take_left]
  rw [strSlice, if_pos hbounds, hslice, fromUtf8_utf8Bytes]

/-! ## Replacements -/

def TemplPart.text (whole cap : Text) : TemplPart → Text
  | .lit l => l
  | .group1 => cap
  | .group0 => whole

/-- What a template of `parse_replacement` stands for, for a match that captures. -/
def templText (whole cap : Text) (templ : List TemplPart) : Text :=
  templ.flatMap (TemplPart.text whole cap)

theorem mapM_render {s : Text} {cap : Text × Text} (h : StandsIn s cap) (templ : List TemplPart) :
    (templ.mapM (TemplPart.render s (byteRange cap))).map List.flatten =
      some (templText s cap.2 templ) := by
  have hrender : TemplPart.render s (byteRange cap) = fun part => some (part.text s cap.2) := by
    funext part
    cases part with
    | lit l => rfl
    | group1 => exact strSlice_of_standsIn h
    | group0 => rfl
  have hmap : templ.mapM (fun part => some (part.text s cap.2)) =
      some (templ.map (TemplPart.text s cap.2)) := List.mapM_pure
  rw [hrender, hmap, Option.map_some, templText, List.flatMap_def]

theorem replace_of_exec {p : SimplePattern} {s : Text} {cap : Text × Text} (h : StandsIn s cap)
    (hexec : exec p.comps (utf8Bytes s) = some (byteRange cap)) :
    replace p s = some (templText s cap.2 p.templ) := by
  rw [replace, hexec]
  dsimp only
  split_ifs with hsingle
  · rw [hsingle, strSlice_of_standsIn h]
    simp [templText, TemplPart.text]
  · exact mapM_render h p.templ

end DeltaX.Agg.RegexpReplace
