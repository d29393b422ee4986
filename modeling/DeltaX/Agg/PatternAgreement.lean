import DeltaX.Agg.SimpleReplace
/-!
# Where simple patterns agree with `regexp_replace`

A pattern that is taken means what PostgreSQL reads exactly where the stop of its capture is
not written as a class escape, and its replacement exactly where every backslash belongs to
`\1`, `\&` or `\\`.
-/

namespace DeltaX.Agg.RegexpReplace

open Column (Text)
open ReplacementTemplate Support.Utf8 Support.OrderedRegex

variable (locale : Locale)

/-! ## Replacements -/

/-- Every backslash is one of `\1`, `\&` or `\\`. -/
def plainEscapes : Text → Bool
  | '\\' :: c :: rest => (c = '1' || c = '&' || c = '\\') && plainEscapes rest
  | _ :: rest => plainEscapes rest
  | [] => true

/-- A replacement as `parse_replacement` means it. -/
def unescaped (whole cap : Text) : Text → Text
  | '\\' :: c :: rest =>
      if c = '1' then cap ++ unescaped whole cap rest
      else if c = '&' then whole ++ unescaped whole cap rest
      else c :: unescaped whole cap rest
  | c :: rest => c :: unescaped whole cap rest
  | [] => []

theorem templText_flush (whole cap : Text) (parts : List TemplPart) (lit : Text) :
    templText whole cap (flushText parts lit) = templText whole cap parts ++ lit := by
  unfold flushText
  split_ifs with h
  · rw [h, List.append_nil]
  · rw [templText, List.flatMap_append]
    simp [templText, TemplPart.text]

theorem templText_push (whole cap : Text) (parts : List TemplPart) (lit : Text)
    (part : TemplPart) : templText whole cap (flushText parts lit ++ [part]) =
      templText whole cap parts ++ lit ++ part.text whole cap := by
  rw [← templText_flush, templText, templText, List.flatMap_append, List.flatMap_singleton]

theorem templText_of_parse (whole cap : Text) {parts templ : List TemplPart} {lit text : Text}
    (h : parseReplacementFrom parts lit text = some templ) :
    templText whole cap templ = templText whole cap parts ++ lit ++ unescaped whole cap text := by
  fun_induction parseReplacementFrom parts lit text with
  | case1 parts lit =>
      rw [← Option.some.inj h, templText_flush, unescaped, List.append_nil]
  | case2 => cases h
  | case3 parts lit rest ih =>
      rw [ih h, templText_push, unescaped, if_pos rfl]
      simp [TemplPart.text]
  | case4 parts lit rest hone ih =>
      rw [ih h, templText_push, unescaped, if_neg (by decide), if_pos rfl]
      simp [TemplPart.text]
  | case5 parts lit rest hone hamp ih =>
      rw [ih h, unescaped, if_neg (by decide), if_neg (by decide)]
      simp
  | case6 => cases h
  | case7 parts lit c rest hone hamp hslash hdigit ih =>
      rw [ih h, unescaped, if_neg hone, if_neg hamp]
      simp
  | case8 parts lit c rest hc hlast ih =>
      rw [ih h, unescaped]
      · simp
      · exact hlast

def ExpandsTo (whole cap text : Text) : Prop :=
  if plainEscapes text then pgExpand (groups whole (some cap)) text = unescaped whole cap text
  else (unescaped whole cap text).length < (pgExpand (groups whole (some cap)) text).length

theorem ExpandsTo.step {whole cap text rest x : Text} (h : ExpandsTo whole cap rest)
    (hplain : plainEscapes text = plainEscapes rest)
    (hpg : pgExpand (groups whole (some cap)) text = x ++ pgExpand (groups whole (some cap)) rest)
    (hun : unescaped whole cap text = x ++ unescaped whole cap rest) :
    ExpandsTo whole cap text := by
  unfold ExpandsTo at h ⊢
  rw [hplain, hpg, hun]
  split_ifs at h ⊢
  · rw [h]
  · rw [List.length_append, List.length_append]
    omega

/-- A backslash in front of another character is dropped, and PostgreSQL keeps it. -/
theorem expandsTo_dropped {whole cap rest : Text} {c : Char} (hone : c ≠ '1') (hamp : c ≠ '&')
    (hslash : c ≠ '\\') (hdigit : c.isDigit = false) (h : ExpandsTo whole cap rest) :
    ExpandsTo whole cap ('\\' :: c :: rest) := by
  have hrange : ¬('1' ≤ c ∧ c ≤ '9') := by
    rintro ⟨hlow, hhigh⟩
    have hclass : c.isDigit = (decide ('0'.val ≤ c.val) && decide (c.val ≤ '9'.val)) := rfl
    have hzero : '0'.val ≤ c.val := UInt32.le_trans (by decide) hlow
    have hnine : c.val ≤ '9'.val := hhigh
    rw [hclass, decide_eq_true hzero, decide_eq_true hnine] at hdigit
    cases hdigit
  have hplain : plainEscapes ('\\' :: c :: rest) = false := by
    rw [plainEscapes, decide_eq_false hone, decide_eq_false hamp, decide_eq_false hslash]
    rfl
  have hpg : pgExpand (groups whole (some cap)) ('\\' :: c :: rest) =
      '\\' :: c :: pgExpand (groups whole (some cap)) rest := by
    rw [pgExpand, if_neg hrange, if_neg hamp, if_neg hslash, pgExpand_cons _ hslash]
  have hun : unescaped whole cap ('\\' :: c :: rest) = c :: unescaped whole cap rest := by
    rw [unescaped, if_neg hone, if_neg hamp]
  have hle : (unescaped whole cap rest).length ≤
      (pgExpand (groups whole (some cap)) rest).length := by
    unfold ExpandsTo at h
    split_ifs at h
    · exact Nat.le_of_eq (congrArg List.length h.symm)
    · exact Nat.le_of_lt h
  rw [ExpandsTo, hplain, if_neg Bool.false_ne_true, hpg, hun, List.length_cons, List.length_cons,
    List.length_cons]
  omega

theorem expandsTo_of_parse (whole cap : Text) {parts templ : List TemplPart} {lit text : Text}
    (h : parseReplacementFrom parts lit text = some templ) : ExpandsTo whole cap text := by
  fun_induction parseReplacementFrom parts lit text with
  | case1 parts lit => rfl
  | case2 => cases h
  | case3 parts lit rest ih => exact (ih h).step rfl rfl rfl
  | case4 parts lit rest hone ih => exact (ih h).step rfl rfl rfl
  | case5 parts lit rest hone hamp ih => exact @ExpandsTo.step _ _ _ _ ['\\'] (ih h) rfl rfl rfl
  | case6 => cases h
  | case7 parts lit c rest hone hamp hslash hdigit ih =>
      exact expandsTo_dropped hone hamp hslash (by simpa using hdigit) (ih h)
  | case8 parts lit c rest hlast hpair ih =>
      -- a backslash would be the last character, or would have one behind it
      have hc : c ≠ '\\' := by
        rintro rfl
        rcases rest with - | ⟨d, rest⟩
        · exact hlast rfl rfl
        · exact hpair d rest rfl rfl
      apply (ih h).step (x := [c])
      · rw [plainEscapes]
        exact fun d rest' hslash => absurd hslash hc
      · exact pgExpand_cons _ hc rest
      · rw [unescaped]
        · rfl
        · exact fun d rest' hslash => absurd hslash hc

/-! ## Shortest matches -/

/-- The literals of a pattern, and a character for its capture. -/
def sample (x : Char) : List CharComp → Text
  | .lit t :: comps => t ++ sample x comps
  | .optLit _ :: comps => sample x comps
  | .cap _ _ :: comps => x :: sample x comps
  | [] => []

/-- A component that captures the sample's character, and one that does not. -/
def Admits (x : Char) : CharComp → Prop
  | .cap _ stop => x ≠ stop
  | _ => True

def Refuses (x : Char) : CharComp → Prop
  | .cap escaped stop =>
      ∃ p, (CharComp.cap escaped stop).items locale = some [captureBut p] ∧ p x = true
  | .optLit t => t ≠ []
  | _ => True

theorem plainItemsOf_cons (comp : CharComp) (comps : List CharComp) :
    plainItemsOf (comp :: comps) ++ tailItems =
      comp.plainItems ++ (plainItemsOf comps ++ tailItems) := by
  rw [plainItemsOf, List.flatMap_cons, List.append_assoc]
  rfl

/-- The sample is matched by what `try_parse` means. -/
theorem runs_sample_ne_nil {x : Char} {comps : List CharComp} (h : ∀ comp ∈ comps, Admits x comp)
    (pos : ℕ) (cap : Option Text) :
    runs (catAll (plainItemsOf comps ++ tailItems)) ⟨pos, sample x comps, cap⟩ ≠ [] := by
  induction comps generalizing pos cap with
  | nil =>
      intro hnil
      have hhead := runs_tailItems ⟨pos, [], cap⟩
      rw [show runs (catAll tailItems) ⟨pos, [], cap⟩ = [] from hnil] at hhead
      cases hhead
  | cons comp comps ih =>
      have hrest := ih fun d hd => h d (List.mem_cons_of_mem comp hd)
      rw [plainItemsOf_cons]
      cases comp with
      | lit t =>
          rw [runs_catAll_append, CharComp.plainItems, runs_literal, if_pos ⟨_, rfl⟩,
            List.flatMap_singleton]
          have hdrop : (At.mk pos (sample x (.lit t :: comps)) cap).advance t.length =
              ⟨pos + t.length, sample x comps, cap⟩ := by
            rw [At.advance, sample, List.drop_left]
          rw [hdrop]
          exact hrest _ _
      | optLit t =>
          have hopt : runs (optText t) ⟨pos, sample x comps, cap⟩ =
              runs (branch (t.map one)) ⟨pos, sample x comps, cap⟩ ++
                [⟨pos, sample x comps, cap⟩] := rfl
          rw [CharComp.plainItems, List.singleton_append, runs_catAll_cons, sample, hopt,
            List.flatMap_append, List.flatMap_singleton]
          exact List.append_ne_nil_of_right_ne_nil _ (hrest _ _)
      | cap escaped stop =>
          have hx : x ≠ stop := h _ List.mem_cons_self
          have hfirst : (At.mk pos (x :: sample x comps) cap).captured 1 ∈
              runs (captureBut fun c => decide (c = stop)) ⟨pos, x :: sample x comps, cap⟩ := by
            rw [captureBut, runs_capture_plus_set, List.mem_reverse, List.mem_map]
            refine ⟨0, ?_, rfl⟩
            rw [List.mem_range, List.takeWhile_cons_of_pos (by simpa using hx), List.length_cons]
            exact Nat.succ_pos _
          rw [CharComp.plainItems, List.singleton_append, runs_catAll_cons, sample]
          intro hnil
          exact hrest _ _ (List.flatMap_eq_nil_iff.mp hnil _ hfirst)

/-- A match takes at least as much as the sample has. -/
theorem minLength_items {x : Char} {comps : List CharComp} {rs : List (Re Char)}
    (h : itemsOf locale comps = some rs) :
    minLength (catAll (rs ++ tailItems)) = (sample x comps).length := by
  have hlit : ∀ t : Text, ((t.map one).map minLength).sum = t.length := by
    intro t
    induction t with
    | nil => rfl
    | cons c t ih =>
        rw [List.map_cons, List.map_cons, List.sum_cons, ih, List.length_cons, Nat.add_comm]
        rfl
  induction comps generalizing rs with
  | nil =>
      rw [← Option.some.inj h]
      rfl
  | cons comp comps ih =>
      obtain ⟨a, ha, h⟩ := Option.bind_eq_some_iff.mp h
      obtain ⟨b, hb, rfl⟩ := Option.map_eq_some_iff.mp h
      have hrest := ih hb
      rw [minLength_catAll] at hrest ⊢
      rw [List.append_assoc, List.map_append, List.sum_append, hrest]
      cases comp with
      | lit t =>
          rw [← Option.some.inj ha, hlit, sample, List.length_append]
      | optLit t =>
          rw [← Option.some.inj ha, sample]
          exact Nat.zero_add _
      | cap escaped stop =>
          have hone : (a.map minLength).sum = 1 := by
            cases escaped with
            | false =>
                rw [← Option.some.inj ha]
                rfl
            | true =>
                obtain ⟨p, -, rfl⟩ := Option.map_eq_some_iff.mp ha
                rfl
          rw [hone, sample, List.length_cons, Nat.add_comm]

theorem runs_sample_eq_nil {x : Char} {comps : List CharComp} {rs : List (Re Char)}
    (h : ∀ comp ∈ comps, Refuses locale x comp) (hcap : comps.any isCap = true)
    (hitems : itemsOf locale comps = some rs) (pos : ℕ) (cap : Option Text) :
    runs (catAll (rs ++ tailItems)) ⟨pos, sample x comps, cap⟩ = [] := by
  induction comps generalizing rs pos cap with
  | nil => cases hcap
  | cons comp comps ih =>
      obtain ⟨a, ha, hitems⟩ := Option.bind_eq_some_iff.mp hitems
      obtain ⟨b, hb, rfl⟩ := Option.map_eq_some_iff.mp hitems
      have hrest : ∀ d ∈ comps, Refuses locale x d := fun d hd => h d (List.mem_cons_of_mem comp hd)
      rw [List.append_assoc]
      cases comp with
      | lit t =>
          have hdrop : (At.mk pos (sample x (.lit t :: comps)) cap).advance t.length =
              ⟨pos + t.length, sample x comps, cap⟩ := by
            rw [At.advance, sample, List.drop_left]
          rw [← Option.some.inj ha, runs_catAll_append, runs_literal, if_pos ⟨_, rfl⟩,
            List.flatMap_singleton, hdrop]
          exact ih hrest hcap hb _ _
      | optLit t =>
          have ht : t ≠ [] := h _ List.mem_cons_self
          have hskipped := ih hrest hcap hb pos cap
          -- with the optional literal too little is left
          have htaken : (runs (branch (t.map one)) ⟨pos, sample x comps, cap⟩).flatMap
              (runs (catAll (b ++ tailItems))) = [] := by
            rw [runs_branch, runs_literal]
            split_ifs with hprefix
            · rw [List.flatMap_singleton]
              apply runs_eq_nil
              have hlen := hprefix.length_le
              have hpos := List.length_pos_of_ne_nil ht
              rw [minLength_items locale (x := x) hb, At.advance, List.length_drop]
              dsimp only at hlen ⊢
              omega
            · rfl
          have hopt : runs (optText t) ⟨pos, sample x comps, cap⟩ =
              runs (branch (t.map one)) ⟨pos, sample x comps, cap⟩ ++
                [⟨pos, sample x comps, cap⟩] := rfl
          rw [← Option.some.inj ha, List.singleton_append, runs_catAll_cons, sample, hopt,
            List.flatMap_append, htaken, List.flatMap_singleton, hskipped]
          rfl
      | cap escaped stop =>
          obtain ⟨p, hp, hx⟩ := h _ List.mem_cons_self
          rw [hp] at ha
          have hnone : runs (captureBut p) ⟨pos, x :: sample x comps, cap⟩ = [] := by
            rw [captureBut, runs_capture_plus_set, List.takeWhile_cons_of_neg (by simp [hx])]
            rfl
          rw [← Option.some.inj ha, List.singleton_append, runs_catAll_cons, sample, hnone]
          rfl

/-- An escape of a letter or digit stands for a character that is not the letter or digit. -/
theorem exists_of_classEscape {e : Char} {p : Char → Bool} (halnum : isAlnum e = true)
    (h : escapeSet locale e = some p) : ∃ x, p x = true ∧ x ≠ e := by
  unfold escapeSet at h
  rw [if_pos halnum] at h
  split at h <;> simp only [Option.some.injEq, reduceCtorEq] at h <;> subst h
  · exact ⟨'0', locale.digit_zero, by decide⟩
  · exact ⟨' ', locale.space_blank, by decide⟩
  · exact ⟨'a', locale.word_letter, by decide⟩
  · exact ⟨'a', by simp [locale.digit_letter], by decide⟩
  · exact ⟨'a', by simp [locale.space_letter], by decide⟩
  · exact ⟨' ', by simp [locale.word_blank], by decide⟩
  all_goals exact ⟨_, decide_eq_true rfl, by decide⟩

/-! ## Agreement -/

/-- What a pattern that is taken owes to `regexp_replace`: it means its components, it is
replaced alike, and the captured slice is one of whole characters. -/
structure Agrees (pattern replacement : Text) (p : SimplePattern) : Prop where
  meaning : ∃ re, readAre locale pattern = some re ∧ runs re = runs (patternRe p.comps)
  replaced : ∀ s, replace p s = pgRegexpReplace locale pattern replacement s
  boundaries : ∀ s range, exec p.comps (utf8Bytes s) = some range →
    isCharBoundary (utf8Bytes s) range.1 = true ∧ isCharBoundary (utf8Bytes s) range.2 = true

theorem search_anchored (rs : List (Re Char)) (s : Text) :
    search (catAll (.bos :: rs)) s =
      (runs (catAll rs) ⟨0, s, none⟩).head?.map fun st => (0, st) := by
  have hfirst : runs (catAll (.bos :: rs)) ⟨0, s, none⟩ = runs (catAll rs) ⟨0, s, none⟩ :=
    List.flatMap_singleton _ _
  have hlater : ∀ k, runs (catAll (.bos :: rs)) ⟨k + 1, s.drop (k + 1), none⟩ = [] :=
    fun _ => rfl
  rw [search, List.range_succ_eq_map, List.findSome?_cons, List.drop_zero, hfirst]
  cases (runs (catAll rs) ⟨0, s, none⟩).head? with
  | some st => rfl
  | none =>
      rw [Option.map_none, List.findSome?_eq_none_iff]
      intro k hk
      obtain ⟨j, -, rfl⟩ := List.mem_map.mp hk
      rw [hlater]
      rfl

section Taken

variable {pattern replacement : Text} {p : SimplePattern} {comps : List CharComp}

theorem Taken.followedChars (h : Taken locale pattern replacement p comps) : Followed comps :=
  followed_of_capFollowed h.ok h.oneCap (h.comps_eq ▸ h.followed)

theorem Taken.anyCap (h : Taken locale pattern replacement p comps) :
    comps.any isCap = true := by
  have hpos : 0 < comps.countP isCap := by
    rw [h.oneCap]
    exact Nat.one_pos
  obtain ⟨comp, hmem, hcomp⟩ := List.countP_pos_iff.mp hpos
  exact List.any_eq_true.mpr ⟨comp, hmem, hcomp⟩

/-- The matcher of bytes is the matcher of characters. -/
theorem Taken.exec_eq (h : Taken locale pattern replacement p comps) (s : Text) :
    exec p.comps (utf8Bytes s) = (execChars comps [] s none).map byteRange := by
  rw [h.comps_eq]
  exact execFrom_bytes h.ok [] s none

theorem Taken.standsIn {s : Text} {cap : Text × Text}
    (h : execChars comps [] s none = some cap) : StandsIn s cap :=
  @standsIn_of_execChars comps [] s none cap nofun h

theorem Taken.replace_eq (h : Taken locale pattern replacement p comps) (s : Text) :
    replace p s = some (match execChars comps [] s none with
      | none => s
      | some cap => unescaped s cap.2 replacement) := by
  have hexec := h.exec_eq locale s
  cases hmatch : execChars comps [] s none with
  | none =>
      rw [hmatch] at hexec
      rw [replace, hexec]
      rfl
  | some cap =>
      rw [hmatch] at hexec
      rw [replace_of_exec (Taken.standsIn hmatch) hexec]
      have htempl := templText_of_parse s cap.2 h.templ
      rw [htempl]
      rfl

/-- The preferred match of what the components stand for. -/
theorem Taken.search_eq (h : Taken locale pattern replacement p comps) (s : Text) :
    search (patternRe p.comps) s =
      (execChars comps [] s none).map fun cap => (0, ⟨s.length, [], some cap.2⟩) := by
  have hhead := head?_runs_eq (h.followedChars locale) [] s none (.inr (h.anyCap locale))
  rw [h.comps_eq, patternRe_bytes h.ok, search_anchored]
  have hstart : (⟨([] : Text).length, s, (none : Option (Text × Text)).map Prod.snd⟩ : At Char) =
      ⟨0, s, none⟩ := rfl
  rw [hstart] at hhead
  rw [hhead, Option.map_map]
  simp [Function.comp_def]

theorem Taken.replaceFirst_eq (h : Taken locale pattern replacement p comps) (s : Text) :
    replaceFirst (patternRe p.comps) replacement s =
      match execChars comps [] s none with
      | none => s
      | some cap => pgExpand (groups s (some cap.2)) replacement := by
  rw [replaceFirst, h.search_eq locale]
  cases execChars comps [] s none with
  | none => rfl
  | some cap => simp

theorem search_congr {r r' : Re Char} (h : runs r = runs r') (s : Text) :
    search r s = search r' s := by
  rw [search, search, h]

theorem Taken.execChars_sample (h : Taken locale pattern replacement p comps) {x : Char}
    (hx : ∀ comp ∈ comps, Admits x comp) : ∃ cap, execChars comps [] (sample x comps) none = some cap := by
  have hhead := head?_runs_eq (h.followedChars locale) [] (sample x comps) none
    (.inr (h.anyCap locale))
  have hne := runs_sample_ne_nil hx 0 none
  cases hmatch : execChars comps [] (sample x comps) none with
  | some cap => exact ⟨cap, rfl⟩
  | none =>
      rw [hmatch] at hhead
      exact absurd (List.head?_eq_none_iff.mp hhead) hne

/-- There is one capture. -/
theorem Taken.cap_unique (h : Taken locale pattern replacement p comps) {c d : CharComp}
    (hc : c ∈ comps) (hcap : isCap c = true) (hd : d ∈ comps) (hdcap : isCap d = true) : c = d := by
  have hone := h.oneCap
  rw [List.countP_eq_length_filter, List.length_eq_one_iff] at hone
  obtain ⟨only, honly⟩ := hone
  have hcmem : c ∈ comps.filter isCap := List.mem_filter.mpr ⟨hc, hcap⟩
  have hdmem : d ∈ comps.filter isCap := List.mem_filter.mpr ⟨hd, hdcap⟩
  rw [honly, List.mem_singleton] at hcmem hdmem
  rw [hcmem, hdmem]

theorem Taken.exists_admits (h : Taken locale pattern replacement p comps) :
    ∃ x, ∀ comp ∈ comps, Admits x comp := by
  obtain ⟨c, hc, hcap⟩ := List.any_eq_true.mp (h.anyCap locale)
  cases c with
  | lit t => cases hcap
  | optLit t => cases hcap
  | cap escaped stop =>
      have hadmits : ∀ {x : Char}, x ≠ stop → ∀ comp ∈ comps, Admits x comp := by
        intro x hx comp hcomp
        cases comp with
        | lit t => trivial
        | optLit t => trivial
        | cap escaped' stop' =>
            obtain ⟨-, rfl⟩ := CharComp.cap.inj (h.cap_unique locale hc rfl hcomp rfl)
            exact hx
      by_cases hstop : stop = 'a'
      · exact ⟨'b', hadmits (by rw [hstop]; decide)⟩
      · exact ⟨'a', hadmits (Ne.symm hstop)⟩

/-- A stop written as a class escape has another meaning. -/
theorem Taken.runs_ne (h : Taken locale pattern replacement p comps) {e : Char}
    (he : e ∈ escapedStops pattern) (halnum : isAlnum e = true) {rs : List (Re Char)}
    (hitems : itemsOf locale comps = some rs) :
    runs (catAll (.bos :: (rs ++ tailItems))) ≠ runs (patternRe p.comps) := by
  rw [← h.stops, escapesOf, List.mem_filterMap] at he
  obtain ⟨comp, hmem, hcomp⟩ := he
  obtain rfl : comp = .cap true e := by
    split at hcomp
    · rw [Option.some.inj hcomp]
    · cases hcomp
  have hset : ∃ p, escapeSet locale e = some p := by
    cases hset : escapeSet locale e with
    | some p => exact ⟨p, rfl⟩
    | none =>
        obtain ⟨front, back, hsplit⟩ := List.append_of_mem hmem
        rw [hsplit, itemsOf_append, itemsOf, CharComp.items, hset] at hitems
        cases hfront : itemsOf locale front <;> rw [hfront] at hitems <;> cases hitems
  obtain ⟨set, hset⟩ := hset
  obtain ⟨x, hx, hne⟩ := exists_of_classEscape locale halnum hset
  have honly : ∀ {escaped : Bool} {stop : Char}, CharComp.cap escaped stop ∈ comps →
      escaped = true ∧ stop = e := by
    intro escaped stop hstop
    obtain ⟨rfl, rfl⟩ := CharComp.cap.inj (h.cap_unique locale hstop rfl hmem rfl)
    exact ⟨rfl, rfl⟩
  have hadmits : ∀ comp ∈ comps, Admits x comp := by
    intro comp hcomp
    cases comp with
    | lit t => trivial
    | optLit t => trivial
    | cap escaped stop =>
        obtain ⟨-, rfl⟩ := honly hcomp
        exact hne
  have hrefuses : ∀ comp ∈ comps, Refuses locale x comp := by
    intro comp hcomp
    cases comp with
    | lit t => trivial
    | optLit t => exact h.ok _ hcomp
    | cap escaped stop =>
        obtain ⟨rfl, rfl⟩ := honly hcomp
        exact ⟨set, by rw [CharComp.items, hset]; rfl, hx⟩
  have hbos : ∀ rs : List (Re Char), runs (catAll (.bos :: rs)) ⟨0, sample x comps, none⟩ =
      runs (catAll rs) ⟨0, sample x comps, none⟩ := fun rs => List.flatMap_singleton _ _
  intro hsame
  have hnil := runs_sample_eq_nil locale hrefuses (h.anyCap locale) hitems 0 none
  rw [← hbos, hsame, h.comps_eq, patternRe_bytes h.ok, hbos] at hnil
  exact runs_sample_ne_nil hadmits 0 none hnil

end Taken

/-- A pattern and a replacement that are taken agree with `regexp_replace` exactly where the
stop of the capture is not written as a backslash and a letter or digit, and where every
backslash of the replacement is one of `\1`, `\&` and `\\`. -/
theorem agrees_iff {pattern replacement : Text} {p : SimplePattern}
    (h : tryParse pattern replacement = some p) :
    Agrees locale pattern replacement p ↔
      (∀ e ∈ escapedStops pattern, isAlnum e = false) ∧ plainEscapes replacement = true := by
  obtain ⟨comps, htaken⟩ := exists_taken locale h
  have hpg : ∀ {re : Re Char} (s : Text), readAre locale pattern = some re →
      runs re = runs (patternRe p.comps) →
      pgRegexpReplace locale pattern replacement s =
        some (match execChars comps [] s none with
          | none => s
          | some cap => pgExpand (groups s (some cap.2)) replacement) := by
    intro re s hre hruns
    rw [pgRegexpReplace, hre, Option.map_some, replaceFirst, search_congr hruns,
      ← htaken.replaceFirst_eq locale s]
    rfl
  constructor
  · intro hagrees
    obtain ⟨re, hre, hruns⟩ := hagrees.meaning
    constructor
    · intro e he
      rw [htaken.read] at hre
      obtain ⟨rs, hitems, rfl⟩ := Option.map_eq_some_iff.mp hre
      by_contra halnum
      exact htaken.runs_ne locale he (by simpa using halnum) hitems hruns
    · obtain ⟨x, hx⟩ := htaken.exists_admits locale
      obtain ⟨cap, hcap⟩ := htaken.execChars_sample locale hx
      have hsame := hagrees.replaced (sample x comps)
      rw [htaken.replace_eq locale, hpg _ hre hruns, hcap] at hsame
      have hexpand := expandsTo_of_parse (sample x comps) cap.2 htaken.templ
      unfold ExpandsTo at hexpand
      split_ifs at hexpand with hplain
      · exact hplain
      · have heq : unescaped (sample x comps) cap.2 replacement =
            pgExpand (groups (sample x comps) (some cap.2)) replacement := Option.some.inj hsame
        rw [heq] at hexpand
        exact absurd hexpand (Nat.lt_irrefl _)
  · rintro ⟨hstops, hplain⟩
    have hitems := itemsOf_plain locale (htaken.stops ▸ hstops)
    have hread : readAre locale pattern = some (patternRe p.comps) := by
      rw [htaken.read, hitems, htaken.comps_eq, patternRe_bytes htaken.ok]
      rfl
    refine ⟨⟨_, hread, rfl⟩, ?_, ?_⟩
    · intro s
      rw [htaken.replace_eq locale, hpg s hread rfl]
      cases execChars comps [] s none with
      | none => rfl
      | some cap =>
          have hexpand := expandsTo_of_parse s cap.2 htaken.templ
          rw [ExpandsTo, if_pos hplain] at hexpand
          exact congrArg some hexpand.symm
    · intro s range hexec
      rw [htaken.exec_eq locale, Option.map_eq_some_iff] at hexec
      obtain ⟨cap, hcap, rfl⟩ := hexec
      exact (Taken.standsIn hcap).boundaries

def asciiLocale : Locale where
  digit c := decide (48 ≤ c.toNat ∧ c.toNat ≤ 57)
  space c := decide (c.toNat = 32) || decide (9 ≤ c.toNat ∧ c.toNat ≤ 13)
  word c := isAlnum c || decide (c = '_')
  digit_zero := by decide
  digit_letter := by decide
  space_blank := by decide
  space_letter := by decide
  word_letter := by decide
  word_blank := by decide

theorem agrees_host : Agrees asciiLocale "^(?:www\\.)?([^/]+)/.*$".toList "\\1".toList
    ⟨[.optLit [119, 119, 119, 46], .cap 47, .lit [47]], [.group1]⟩ := by
  have htaken : tryParse "^(?:www\\.)?([^/]+)/.*$".toList "\\1".toList =
      some ⟨[.optLit [119, 119, 119, 46], .cap 47, .lit [47]], [.group1]⟩ := by decide
  have hnone : escapedStops "^(?:www\\.)?([^/]+)/.*$".toList = [] := by decide
  have hstops : ∀ e ∈ escapedStops "^(?:www\\.)?([^/]+)/.*$".toList, isAlnum e = false := by
    rw [hnone]
    exact nofun
  exact (agrees_iff asciiLocale htaken).mpr ⟨hstops, by decide⟩

/-- `[^\d]` is taken for a `d` that ends the capture: `a0d` is replaced by `0`, and by PostgreSQL
not at all. -/
theorem digitClass_taken : ¬ ∀ (locale : Locale) (pattern replacement : Text) (p : SimplePattern),
    tryParse pattern replacement = some p → Agrees locale pattern replacement p := by
  intro h
  have htaken : tryParse "^a([^\\d]+)d.*$".toList "\\1".toList =
      some ⟨[.lit [97], .cap 100, .lit [100]], [.group1]⟩ := by decide
  have hsame := (h asciiLocale _ _ _ htaken).replaced "a0d".toList
  have hreplaced : replace ⟨[.lit [97], .cap 100, .lit [100]], [.group1]⟩ "a0d".toList =
      some ['0'] := by
    have hstands : StandsIn "a0d".toList (['a'], ['0']) := ⟨['d'], by decide⟩
    exact replace_of_exec hstands (by decide)
  have hkept : pgRegexpReplace asciiLocale "^a([^\\d]+)d.*$".toList "\\1".toList "a0d".toList =
      some ['a', '0', 'd'] := by decide
  rw [hreplaced, hkept] at hsame
  revert hsame
  decide

end DeltaX.Agg.RegexpReplace
