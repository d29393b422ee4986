import Mathlib.Data.List.Dedup
import Mathlib.Data.List.MinMax
import Mathlib.Data.List.Sort
import Mathlib.Data.List.TakeWhile
/-!
# Selecting the first few

Which elements of a list may be taken when only the first `limit` in an order
are wanted, how a bounded heap arrives at such a selection, and how selections
of the parts of a list combine to one of the whole.
-/

namespace DeltaX.Support.Selection

variable {α β γ : Type*} [LinearOrder β] [LinearOrder γ]

/-- `ys` are `limit` elements of `xs`, or all, and none left out ranks strictly
before one of them. -/
def IsTopN (val : α → β) (limit : ℕ) (xs ys : List α) : Prop :=
  ∃ rest, (ys ++ rest).Perm xs ∧ ys.length = min limit xs.length ∧
    ∀ y ∈ ys, ∀ r ∈ rest, val y ≤ val r

section basic

variable {val : α → β} {limit : ℕ} {xs ys : List α}

theorem IsTopN.length_eq (h : IsTopN val limit xs ys) : ys.length = min limit xs.length := by
  obtain ⟨rest, -, hlen, -⟩ := h
  exact hlen

theorem IsTopN.subset (h : IsTopN val limit xs ys) : ys ⊆ xs := by
  obtain ⟨rest, hperm, -, -⟩ := h
  intro y hy
  exact hperm.subset (List.mem_append_left rest hy)

theorem isTopN_nil : IsTopN val limit ([] : List α) [] := ⟨[], by simp, by simp, by simp⟩

theorem IsTopN.perm (h : IsTopN val limit xs ys) {xs' ys' : List α} (hxs : xs.Perm xs')
    (hys : ys.Perm ys') : IsTopN val limit xs' ys' := by
  obtain ⟨rest, hperm, hlen, hle⟩ := h
  refine ⟨rest, ?_, ?_, ?_⟩
  · exact ((hys.append_right rest).symm.trans hperm).trans hxs
  · rw [← hys.length_eq, ← hxs.length_eq, hlen]
  · intro y hy
    exact hle y (hys.mem_iff.mpr hy)

/-- An element is selected when those that come no later than it fit the limit. -/
theorem IsTopN.mem_of_countP_le (h : IsTopN val limit xs ys) {x : α} (hx : x ∈ xs)
    (hfew : xs.countP (fun y => decide (val y ≤ val x)) ≤ limit) : x ∈ ys := by
  obtain ⟨rest, hperm, hlen, hle⟩ := h
  rcases List.mem_append.mp (hperm.mem_iff.mpr hx) with hys | hrest
  · exact hys
  · have hall : ys.countP (fun y => decide (val y ≤ val x)) = ys.length := by
      rw [List.countP_eq_length]
      intro y hy
      exact decide_eq_true (hle y hy x hrest)
    have hself : 0 < rest.countP fun y => decide (val y ≤ val x) :=
      List.countP_pos_iff.mpr ⟨x, hrest, decide_eq_true (le_refl _)⟩
    have htotal := hperm.length_eq
    have hpos := List.length_pos_of_mem hrest
    rw [← hperm.countP_eq, List.countP_append, hall] at hfew
    rw [List.length_append] at htotal
    omega

/-- A selection is one of the images that keep their places. -/
theorem IsTopN.map {δ : Type*} {val' : δ → β} (h : IsTopN val limit xs ys) (f : α → δ)
    (hval : ∀ x ∈ xs, val' (f x) = val x) : IsTopN val' limit (xs.map f) (ys.map f) := by
  obtain ⟨rest, hperm, hlen, hle⟩ := h
  refine ⟨rest.map f, ?_, ?_, ?_⟩
  · rw [← List.map_append]
    exact hperm.map f
  · rw [List.length_map, List.length_map, hlen]
  · intro y' hy' r' hr'
    obtain ⟨y, hy, rfl⟩ := List.mem_map.mp hy'
    obtain ⟨r, hr, rfl⟩ := List.mem_map.mp hr'
    rw [hval y (hperm.subset (List.mem_append_left rest hy)),
      hval r (hperm.subset (List.mem_append_right ys hr))]
    exact hle y hy r hr

theorem IsTopN.nodup_map (h : IsTopN val limit xs ys) {δ : Type*} {f : α → δ}
    (hnodup : (xs.map f).Nodup) : (ys.map f).Nodup := by
  obtain ⟨rest, hperm, -, -⟩ := h
  have hall := (hperm.map f).nodup_iff.mpr hnodup
  rw [List.map_append] at hall
  exact hall.of_append_left

/-- A sorted list starts with a selection. -/
theorem isTopN_take (hsorted : xs.Pairwise fun x y => val x ≤ val y) :
    IsTopN val limit xs (xs.take limit) := by
  refine ⟨xs.drop limit, ?_, ?_, ?_⟩
  · rw [List.take_append_drop]
  · exact List.length_take
  · intro y hy r hr
    have hsplit := hsorted
    rw [← List.take_append_drop limit xs, List.pairwise_append] at hsplit
    exact hsplit.2.2 y hy r hr

theorem pairwise_mergeSort_rank (val : α → β) (xs : List α) :
    (xs.mergeSort fun x y => decide (val x ≤ val y)).Pairwise fun x y => val x ≤ val y := by
  have htrans : ∀ a b c : α, decide (val a ≤ val b) = true → decide (val b ≤ val c) = true →
      decide (val a ≤ val c) = true := by
    intro a b c hab hbc
    rw [decide_eq_true_eq] at *
    exact hab.trans hbc
  have htotal : ∀ a b : α, (decide (val a ≤ val b) || decide (val b ≤ val a)) = true := by
    intro a b
    simpa using le_total (val a) (val b)
  exact (List.pairwise_mergeSort htrans htotal xs).imp of_decide_eq_true

/-- In a sorted list the elements before a bound are the first ones. -/
theorem getElem_lt_iff (hsorted : xs.Pairwise fun x y => val x ≤ val y) {i : ℕ}
    (hi : i < xs.length) (bound : β) :
    val xs[i] < bound ↔ i < xs.countP fun x => decide (val x < bound) := by
  induction xs generalizing i with
  | nil => simp at hi
  | cons x xs ih =>
      rw [List.pairwise_cons] at hsorted
      by_cases hx : val x < bound
      · rw [List.countP_cons_of_pos (by simpa using hx)]
        cases i with
        | zero => simpa using hx
        | succ i =>
            rw [List.getElem_cons_succ, ih hsorted.2]
            omega
      · have hzero : xs.countP (fun x => decide (val x < bound)) = 0 := by
          rw [List.countP_eq_zero]
          intro y hy
          simpa using (not_lt.mp hx).trans (hsorted.1 y hy)
        rw [List.countP_cons_of_neg (by simpa using hx), hzero]
        have hmem : val x ≤ val (x :: xs)[i] := by
          rcases List.mem_cons.mp (List.getElem_mem hi) with heq | hmem
          · exact (congrArg val heq).ge
          · exact hsorted.1 _ hmem
        constructor
        · intro hlt
          exact absurd (hmem.trans_lt hlt) hx
        · intro hlt
          exact absurd hlt (Nat.not_lt_zero i)

/-- Selecting by a finer order is selecting by the coarser one. -/
theorem IsTopN.of_le {val' : α → γ} (h : IsTopN val limit xs ys)
    (hmono : ∀ x ∈ xs, ∀ y ∈ xs, val x ≤ val y → val' x ≤ val' y) :
    IsTopN val' limit xs ys := by
  obtain ⟨rest, hperm, hlen, hle⟩ := h
  refine ⟨rest, hperm, hlen, ?_⟩
  intro y hy r hr
  exact hmono y (hperm.subset (List.mem_append_left rest hy)) r
    (hperm.subset (List.mem_append_right ys hr)) (hle y hy r hr)

end basic

/-! ## A bounded heap -/

section heap

variable [DecidableEq α] (val : α → β) (full : α → γ) (limit : ℕ)

/-- Add an element and, past the limit, evict a greatest one. -/
def push (held : List α) (x : α) : List α :=
  if limit < (x :: held).length then
    match (x :: held).argmax full with
    | some worst => (x :: held).erase worst
    | none => x :: held
  else x :: held

/-- Add an element unless the heap is full and the element does not come before
its greatest one. -/
def offer (held : List α) (x : α) : List α :=
  match held.argmax full with
  | some worst => if held.length = limit ∧ val worst ≤ val x then held else push full limit held x
  | none => push full limit held x

variable {val full limit}

theorem IsTopN.push {xs held : List α} (h : IsTopN val limit xs held)
    (hmono : ∀ a b, full a ≤ full b → val a ≤ val b) (x : α) :
    IsTopN val limit (xs ++ [x]) (push full limit held x) := by
  obtain ⟨rest, hperm, hlen, hle⟩ := h
  have hcons : (x :: held ++ rest).Perm (xs ++ [x]) :=
    (hperm.cons x).trans (List.perm_append_singleton x xs).symm
  have htotal := hperm.length_eq
  rw [List.length_append] at htotal
  unfold Selection.push
  split
  · rename_i hfull
    cases hworst : (x :: held).argmax full with
    | none => simp at hworst
    | some worst =>
        show IsTopN val limit (xs ++ [x]) ((x :: held).erase worst)
        have hmem : worst ∈ x :: held := List.argmax_mem hworst
        have hmax : ∀ y ∈ x :: held, val y ≤ val worst :=
          fun y hy => hmono y worst (List.le_of_mem_argmax hy hworst)
        have herase : (worst :: (x :: held).erase worst).Perm (x :: held) :=
          (List.perm_cons_erase hmem).symm
        refine ⟨worst :: rest, ?_, ?_, ?_⟩
        · calc
            ((x :: held).erase worst ++ worst :: rest).Perm
                (worst :: (x :: held).erase worst ++ rest) := List.perm_middle
            _ |>.Perm (x :: held ++ rest) := herase.append_right rest
            _ |>.Perm (xs ++ [x]) := hcons
        · rw [List.length_erase_of_mem hmem, List.length_append]
          simp only [List.length_cons, List.length_nil] at hfull ⊢
          omega
        · intro y hy r hr
          have hy' : y ∈ x :: held := List.mem_of_mem_erase hy
          rcases List.mem_cons.mp hr with rfl | hr
          · exact hmax y hy'
          · rcases List.mem_cons.mp hmem with rfl | hheld
            -- The new element itself was evicted, so nothing changed.
            · rw [List.erase_cons_head] at hy
              exact hle y hy r hr
            · rcases List.mem_cons.mp hy' with rfl | hyheld
              · exact (hmax y hy').trans (hle worst hheld r hr)
              · exact hle y hyheld r hr
  · rename_i hroom
    have hrest : rest = [] := by
      apply List.eq_nil_of_length_eq_zero
      simp only [List.length_cons] at hroom
      omega
    subst hrest
    refine ⟨[], hcons, ?_, by simp⟩
    simp only [List.length_cons, List.length_append, List.length_nil] at hroom ⊢
    omega

theorem IsTopN.offer {xs held : List α} (h : IsTopN val limit xs held)
    (hmono : ∀ a b, full a ≤ full b → val a ≤ val b) (x : α) :
    IsTopN val limit (xs ++ [x]) (offer val full limit held x) := by
  unfold Selection.offer
  cases hworst : held.argmax full with
  | none => exact h.push hmono x
  | some worst =>
      by_cases hskip : held.length = limit ∧ val worst ≤ val x
      · simp only [hskip, and_self, if_true]
        obtain ⟨rest, hperm, hlen, hle⟩ := h
        refine ⟨x :: rest, ?_, ?_, ?_⟩
        · exact (List.perm_middle.trans (hperm.cons x)).trans
            (List.perm_append_singleton x xs).symm
        · rw [List.length_append]
          omega
        · intro y hy r hr
          rcases List.mem_cons.mp hr with rfl | hr
          · exact (hmono y worst (List.le_of_mem_argmax hy hworst)).trans hskip.2
          · exact hle y hy r hr
      · simp only [hskip, if_false]
        exact h.push hmono x

theorem isTopN_foldl_offer (hmono : ∀ a b, full a ≤ full b → val a ≤ val b) (xs : List α) :
    IsTopN val limit xs (xs.foldl (Selection.offer val full limit) []) := by
  -- Over the elements already offered.
  have hrun : ∀ seen held, IsTopN val limit seen held →
      IsTopN val limit (seen ++ xs) (xs.foldl (Selection.offer val full limit) held) := by
    induction xs with
    | nil =>
        intro seen held h
        simpa using h
    | cons x xs ih =>
        intro seen held h
        have hnext := ih (seen ++ [x]) _ (h.offer hmono x)
        simpa using hnext
  simpa using hrun [] [] isTopN_nil

theorem isTopN_foldl_push (hmono : ∀ a b, full a ≤ full b → val a ≤ val b) (xs : List α) :
    IsTopN val limit xs (xs.foldl (Selection.push full limit) []) := by
  have hrun : ∀ seen held, IsTopN val limit seen held →
      IsTopN val limit (seen ++ xs) (xs.foldl (Selection.push full limit) held) := by
    induction xs with
    | nil =>
        intro seen held h
        simpa using h
    | cons x xs ih =>
        intro seen held h
        have hnext := ih (seen ++ [x]) _ (h.push hmono x)
        simpa using hnext
  simpa using hrun [] [] isTopN_nil

end heap

/-! ## Parts and the whole -/

section parts

/-- `ys` are elements of `xs` that a selection can be made from: what is missing
comes after `limit` of them. -/
def Covers (val : α → β) (limit : ℕ) (xs ys : List α) : Prop :=
  ∃ rest, (ys ++ rest).Perm xs ∧
    ∀ r ∈ rest, limit ≤ ys.countP fun y => decide (val y ≤ val r)

variable {val : α → β} {limit : ℕ}

theorem IsTopN.covers {xs ys : List α} (h : IsTopN val limit xs ys) : Covers val limit xs ys := by
  obtain ⟨rest, hperm, hlen, hle⟩ := h
  refine ⟨rest, hperm, ?_⟩
  intro r hr
  have hall : ys.countP (fun y => decide (val y ≤ val r)) = ys.length := by
    rw [List.countP_eq_length]
    intro y hy
    exact decide_eq_true (hle y hy r hr)
  have htotal := hperm.length_eq
  have hpos := List.length_pos_of_mem hr
  rw [List.length_append] at htotal
  rw [hall]
  omega

theorem Covers.append {xs xs' ys ys' : List α} (h : Covers val limit xs ys)
    (h' : Covers val limit xs' ys') : Covers val limit (xs ++ xs') (ys ++ ys') := by
  obtain ⟨rest, hperm, hcount⟩ := h
  obtain ⟨rest', hperm', hcount'⟩ := h'
  refine ⟨rest ++ rest', ?_, ?_⟩
  · calc
      ((ys ++ ys') ++ (rest ++ rest')).Perm ((ys ++ rest) ++ (ys' ++ rest')) := by
        rw [List.append_assoc, List.append_assoc]
        apply List.Perm.append_left
        rw [← List.append_assoc, ← List.append_assoc]
        exact List.perm_append_comm.append_right _
      _ |>.Perm (xs ++ xs') := hperm.append hperm'
  · intro r hr
    rw [List.countP_append]
    rcases List.mem_append.mp hr with hr | hr
    · exact (hcount r hr).trans (Nat.le_add_right _ _)
    · exact (hcount' r hr).trans (Nat.le_add_left _ _)

theorem covers_flatMap {ι : Type*} {xs ys : ι → List α} (ps : List ι)
    (h : ∀ p ∈ ps, Covers val limit (xs p) (ys p)) :
    Covers val limit (ps.flatMap xs) (ps.flatMap ys) := by
  induction ps with
  | nil => exact ⟨[], by simp, by simp⟩
  | cons p ps ih =>
      rw [List.flatMap_cons, List.flatMap_cons]
      apply (h p List.mem_cons_self).append
      exact ih fun p' hp' => h p' (List.mem_cons_of_mem p hp')

theorem IsTopN.of_covers {xs ys zs : List α} (h : Covers val limit xs ys)
    (hz : IsTopN val limit ys zs) : IsTopN val limit xs zs := by
  obtain ⟨rest, hperm, hcount⟩ := h
  obtain ⟨restz, hpermz, hlenz, hlez⟩ := hz
  have htotal := hperm.length_eq
  rw [List.length_append] at htotal
  have hrest : ∀ z ∈ zs, ∀ r ∈ rest, val z ≤ val r := by
    intro z hzmem r hr
    by_contra hlt
    rw [not_le] at hlt
    -- `limit` elements come strictly before `z`, so all of them are in `zs` beside `z`.
    have hbefore : limit ≤ ys.countP fun y => decide (val y < val z) := by
      apply (hcount r hr).trans
      apply List.countP_mono_left
      intro y _ hy
      exact decide_eq_true ((of_decide_eq_true hy).trans_lt hlt)
    have hrestz : restz.countP (fun y => decide (val y < val z)) = 0 := by
      rw [List.countP_eq_zero]
      intro y hy
      simpa using hlez z hzmem y hy
    have hall := hpermz.countP_eq fun y => decide (val y < val z)
    rw [List.countP_append, hrestz] at hall
    have hlast : zs.countP (fun y => decide (val y < val z)) < zs.length := by
      apply lt_of_le_of_ne List.countP_le_length
      intro heq
      simpa using List.countP_eq_length.mp heq z hzmem
    omega
  refine ⟨restz ++ rest, ?_, ?_, ?_⟩
  · rw [← List.append_assoc]
    exact (hpermz.append_right rest).trans hperm
  · by_cases hnil : rest = []
    · subst hnil
      rw [hlenz, ← htotal]
      rfl
    · obtain ⟨r, hr⟩ := List.exists_mem_of_ne_nil rest hnil
      have hlimit : limit ≤ ys.length := (hcount r hr).trans List.countP_le_length
      omega
  · intro z hzmem r hr
    rcases List.mem_append.mp hr with hr | hr
    · exact hlez z hzmem r hr
    · exact hrest z hzmem r hr

/-- A full selection from a part is one from the whole when what is missing does
not come before it. -/
theorem IsTopN.of_rest {xs ys zs rest : List α} (hz : IsTopN val limit ys zs)
    (hlen : zs.length = limit) (hperm : (ys ++ rest).Perm xs)
    (hle : ∀ z ∈ zs, ∀ r ∈ rest, val z ≤ val r) : IsTopN val limit xs zs := by
  obtain ⟨restz, hpermz, -, hlez⟩ := hz
  have hwhole : (zs ++ (restz ++ rest)).Perm xs := by
    rw [← List.append_assoc]
    exact (hpermz.append_right rest).trans hperm
  refine ⟨restz ++ rest, hwhole, ?_, ?_⟩
  · have htotal := hwhole.length_eq
    rw [List.length_append] at htotal
    omega
  · intro z hzmem r hr
    rcases List.mem_append.mp hr with hr | hr
    · exact hlez z hzmem r hr
    · exact hle z hzmem r hr

theorem Covers.of_le {xs ys : List α} (h : Covers val limit xs ys) {fewer : ℕ}
    (hle : fewer ≤ limit) : Covers val fewer xs ys := by
  obtain ⟨rest, hperm, hcount⟩ := h
  exact ⟨rest, hperm, fun r hr => hle.trans (hcount r hr)⟩

theorem isTopN_self_of_length_le {xs : List α} (h : xs.length ≤ limit) :
    IsTopN val limit xs xs := ⟨[], by simp, by simpa using h, by simp⟩

end parts

/-! ## DISTINCT -/

section distinct

variable {δ : Type*} [DecidableEq δ] {val : α → β} {rank : δ → β} {limit : ℕ} {xs ys : List α}

/-- Images that differ are all distinct. -/
theorem IsTopN.dedup_of_nodup (h : IsTopN val limit xs ys) (f : α → δ)
    (hrank : ∀ x ∈ xs, rank (f x) = val x) (hnodup : (xs.map f).Nodup) :
    IsTopN rank limit (xs.map f).dedup (ys.map f).dedup := by
  rw [List.dedup_eq_self.mpr hnodup, List.dedup_eq_self.mpr (h.nodup_map hnodup)]
  exact h.map f hrank

/-- Two elements with one image are one fewer. -/
theorem length_dedup_map_lt {f : α → δ} {x y : α} (hx : x ∈ ys) (hy : y ∈ ys) (hne : x ≠ y)
    (heq : f x = f y) : (ys.map f).dedup.length < ys.length := by
  have hsub := List.dedup_sublist (ys.map f)
  have hle := hsub.length_le
  rw [List.length_map] at hle
  apply lt_of_le_of_ne hle
  intro hlen
  have hself := hsub.eq_of_length (by rw [List.length_map, hlen])
  exact hne (List.inj_on_of_nodup_map (List.dedup_eq_self.mp hself) hx hy heq)

/-- Where nothing was left out, no image was. -/
theorem IsTopN.dedup_of_length_le (h : IsTopN val limit xs ys) (f : α → δ)
    (hlen : xs.length ≤ limit) : IsTopN rank limit (xs.map f).dedup (ys.map f).dedup := by
  obtain ⟨rest, hperm, hlength, -⟩ := h
  have htotal := hperm.length_eq
  rw [List.length_append] at htotal
  have hnil : rest = [] := List.eq_nil_of_length_eq_zero (by omega)
  rw [hnil, List.append_nil] at hperm
  have hdedup : (xs.map f).dedup.length ≤ limit := by
    have hle := (List.dedup_sublist (xs.map f)).length_le
    rw [List.length_map] at hle
    omega
  exact (isTopN_self_of_length_le hdedup).perm (List.Perm.refl _) (hperm.map f).dedup.symm

/-- One element has one image. -/
theorem IsTopN.dedup_of_limit_one (h : IsTopN val 1 xs ys) (f : α → δ)
    (hrank : ∀ x ∈ xs, rank (f x) = val x) :
    IsTopN rank 1 (xs.map f).dedup (ys.map f).dedup := by
  rcases Nat.lt_or_ge 1 xs.length with hmany | hfew
  · obtain ⟨rest, hperm, hlen, hle⟩ := h
    obtain ⟨y, rfl⟩ := List.length_eq_one_iff.mp (show ys.length = 1 by omega)
    have hmem : f y ∈ (xs.map f).dedup :=
      List.mem_dedup.mpr (List.mem_map_of_mem (hperm.subset List.mem_cons_self))
    refine ⟨(xs.map f).dedup.erase (f y), ?_, ?_, ?_⟩
    · exact (List.perm_cons_erase hmem).symm
    · have hpos := List.length_pos_of_mem hmem
      have hone : ([f y].dedup).length = 1 := rfl
      rw [List.map_singleton, hone]
      omega
    · intro z hz r hr
      have hz : z = f y := by simpa using hz
      obtain ⟨x, hx, rfl⟩ := List.mem_map.mp (List.mem_dedup.mp (List.mem_of_mem_erase hr))
      rw [hz, hrank y (hperm.subset List.mem_cons_self), hrank x hx]
      rcases List.mem_append.mp (hperm.mem_iff.mpr hx) with hxy | hxrest
      · rw [List.mem_singleton.mp hxy]
      · exact hle y List.mem_cons_self x hxrest
  · exact h.dedup_of_length_le f hfew

end distinct

/-! ## LIMIT -/

section limit

variable (rank : α → β) (limit offset : ℕ) (withTies : Bool)

/-- What a Limit node passes on: `limit` rows after the first `offset`, and with
ties the rows that follow with the rank of the last one. -/
def limitRows (rows : List α) : List α :=
  let after := rows.drop offset
  let taken := after.take limit
  if withTies then
    match taken.getLast? with
    | none => taken
    | some last => taken ++ (after.drop limit).takeWhile fun r => decide (rank r = rank last)
  else taken

/-- Rows that are in order, and that a Limit node makes an answer over `all` of. -/
structure Answers (all rows : List α) : Prop where
  sorted : rows.Pairwise fun x y => rank x ≤ rank y
  answer : ∃ arrangement : List α, arrangement.Perm all ∧
    (arrangement.Pairwise fun x y => rank x ≤ rank y) ∧
    limitRows rank limit offset withTies rows = limitRows rank limit offset withTies arrangement

variable {rank limit offset withTies}

theorem exists_sorted_perm (rank : α → β) (xs : List α) :
    ∃ ys : List α, ys.Perm xs ∧ ys.Pairwise fun x y => rank x ≤ rank y :=
  ⟨_, List.mergeSort_perm xs _, pairwise_mergeSort_rank rank xs⟩

/-- The first `limit + offset` rows are enough, unless a tie reaches past them. -/
theorem IsTopN.answers {all rows : List α} (h : IsTopN rank (limit + offset) all rows)
    (hsorted : rows.Pairwise fun x y => rank x ≤ rank y)
    (hties : withTies = true → all.length ≤ limit + offset) :
    Answers rank limit offset withTies all rows := by
  obtain ⟨rest, hperm, hlen, hle⟩ := h
  obtain ⟨rest', hperm', hsorted'⟩ := exists_sorted_perm rank rest
  have htotal := hperm.length_eq
  rw [List.length_append] at htotal
  refine ⟨hsorted, rows ++ rest', (hperm'.append_left rows).trans hperm, ?_, ?_⟩
  · rw [List.pairwise_append]
    exact ⟨hsorted, hsorted', fun x hx y hy => hle x hx y (hperm'.subset hy)⟩
  · have hnil : rest = [] → rest' = [] := fun h => (h ▸ hperm').eq_nil
    cases hcase : withTies with
    | true =>
        have hrest : rest = [] := List.eq_nil_of_length_eq_zero (by have := hties hcase; omega)
        rw [hnil hrest, List.append_nil]
    | false =>
        simp only [limitRows, Bool.false_eq_true, if_false]
        by_cases hrest : rest = []
        · rw [hnil hrest, List.append_nil]
        · have hpos := List.length_pos_of_ne_nil hrest
          have hrows : rows.length = limit + offset := by omega
          rw [List.drop_append_of_le_length (by omega), List.take_append_of_le_length]
          rw [List.length_drop]
          omega

theorem perm_pair_cases {xs : List α} {b w : α} (h : xs.Perm [b, w]) : xs = [b, w] ∨ xs = [w, b] := by
  match xs, h.length_eq with
  | [x, y], _ =>
      have hx : x = b ∨ x = w := by simpa using h.subset List.mem_cons_self
      rcases hx with rfl | rfl
      · have hy : [y].Perm [w] := (List.perm_cons x).mp h
        rw [List.perm_singleton.mp hy]
        exact Or.inl rfl
      · have hy : [y].Perm [b] := (List.perm_cons x).mp (h.trans (List.Perm.swap x b []))
        rw [List.perm_singleton.mp hy]
        exact Or.inr rfl

/-- Two elements that are selected by the wrong order give no answer. -/
theorem not_answers_of_swapped {val : α → γ} {b w : α} {all rows : List α}
    (hval : val b < val w) (hrank : rank w < rank b) (hlimit : 0 < limit)
    (hall : all.Perm [b, w]) (htop : IsTopN val (limit + offset) all rows)
    (hsorted : rows.Pairwise fun x y => val x ≤ val y) :
    ¬ Answers rank limit offset withTies all rows := by
  intro h
  obtain ⟨rest, hperm, hlen, hle⟩ := htop
  have htwo : all.length = 2 := hall.length_eq
  by_cases hone : limit + offset = 1
  · -- One row is produced, and it is `b`.
    obtain ⟨x, rfl⟩ := List.length_eq_one_iff.mp (show rows.length = 1 by omega)
    have hb : x = b := by
      rcases perm_pair_cases (hperm.trans hall) with heq | heq
      · exact (List.cons.inj heq).1
      · obtain ⟨rfl, rfl⟩ := List.cons.inj heq
        exact absurd (hle x List.mem_cons_self b List.mem_cons_self) (not_le.mpr hval)
    subst hb
    obtain ⟨arrangement, hperm', hsorted', heq⟩ := h.answer
    obtain ⟨rfl, rfl⟩ : limit = 1 ∧ offset = 0 := by omega
    rcases perm_pair_cases (hperm'.trans hall) with rfl | rfl
    · simp only [List.pairwise_cons] at hsorted'
      exact absurd (hsorted'.1 w List.mem_cons_self) (not_le.mpr hrank)
    · have hne : x ≠ w := fun heq => lt_irrefl _ (heq ▸ hval)
      have hties : rank x ≠ rank w := hrank.ne'
      cases withTies <;> simp [limitRows, hne, hties] at heq
  · have hnil : rest = [] := by
      have htotal := hperm.length_eq
      rw [List.length_append] at htotal
      exact List.eq_nil_of_length_eq_zero (by omega)
    rw [hnil, List.append_nil] at hperm
    rcases perm_pair_cases (hperm.trans hall) with rfl | rfl
    · have hrankle := h.sorted
      simp only [List.pairwise_cons] at hrankle
      exact absurd (hrankle.1 w List.mem_cons_self) (not_le.mpr hrank)
    · simp only [List.pairwise_cons] at hsorted
      exact absurd (hsorted.1 b List.mem_cons_self) (not_le.mpr hval)

theorem length_limitRows_le (rows : List α) :
    (limitRows rank limit offset withTies rows).length ≤ rows.length - offset := by
  have hsplit := congrArg List.length (List.take_append_drop limit (rows.drop offset))
  rw [List.length_append] at hsplit
  have hdrop : (rows.drop offset).length = rows.length - offset := List.length_drop
  unfold limitRows
  cases withTies with
  | false =>
      simp only [Bool.false_eq_true, if_false]
      omega
  | true =>
      simp only [if_true]
      split
      · omega
      · rename_i last _
        have hle := (List.takeWhile_sublist (l := (rows.drop offset).drop limit)
          fun r => decide (rank r = rank last)).length_le
        rw [List.length_append]
        omega

theorem length_limitRows_of_tied {rows : List α} (hlimit : 0 < limit)
    (hlen : limit + offset ≤ rows.length) (htied : ∀ x ∈ rows, ∀ y ∈ rows, rank x = rank y) :
    (limitRows rank limit offset true rows).length = rows.length - offset := by
  have htaken : ((rows.drop offset).take limit).length = limit := by
    rw [List.length_take, List.length_drop]
    omega
  simp only [limitRows, if_true]
  cases hlast : ((rows.drop offset).take limit).getLast? with
  | none =>
      rw [List.getLast?_eq_none_iff] at hlast
      rw [hlast] at htaken
      exact absurd htaken hlimit.ne
  | some last =>
      have hmem : last ∈ rows :=
        List.mem_of_mem_drop (List.mem_of_mem_take (List.mem_of_getLast? hlast))
      have hall : ((rows.drop offset).drop limit).takeWhile
          (fun r => decide (rank r = rank last)) = (rows.drop offset).drop limit := by
        rw [List.takeWhile_eq_self_iff]
        intro r hr
        exact decide_eq_true (htied r (List.mem_of_mem_drop (List.mem_of_mem_drop hr)) last hmem)
      simp only [hall]
      rw [List.length_append, htaken, List.length_drop, List.length_drop]
      omega

/-- One row too few when all of them tie. -/
theorem not_answers_of_tied {all rows : List α} (hlimit : 0 < limit)
    (hlen : all.length = limit + offset + 1) (htied : ∀ x ∈ all, ∀ y ∈ all, rank x = rank y)
    (hrows : rows.length = limit + offset) : ¬ Answers rank limit offset true all rows := by
  intro h
  obtain ⟨arrangement, hperm, -, heq⟩ := h.answer
  have hle : (limitRows rank limit offset true rows).length ≤ rows.length - offset :=
    length_limitRows_le rows
  have htied' : ∀ x ∈ arrangement, ∀ y ∈ arrangement, rank x = rank y :=
    fun x hx y hy => htied x (hperm.subset hx) y (hperm.subset hy)
  rw [heq, length_limitRows_of_tied hlimit (by rw [hperm.length_eq]; omega) htied',
    hperm.length_eq] at hle
  omega

/-- Ties make no difference to a list whose ranks differ. -/
theorem limitRows_of_nodup {rows : List α} (hnodup : (rows.map rank).Nodup) :
    limitRows rank limit offset withTies rows = limitRows rank limit offset false rows := by
  cases withTies with
  | false => rfl
  | true =>
      simp only [limitRows, if_true, Bool.false_eq_true, if_false]
      cases hlast : ((rows.drop offset).take limit).getLast? with
      | none => rfl
      | some last =>
          have hmem := List.mem_of_getLast? hlast
          have hafter := hnodup.sublist ((List.drop_sublist offset rows).map rank)
          rw [← List.take_append_drop limit (rows.drop offset), List.map_append,
            List.nodup_append] at hafter
          have hnone : ((rows.drop offset).drop limit).takeWhile
              (fun r => decide (rank r = rank last)) = [] := by
            rw [List.takeWhile_eq_nil_iff]
            intro hpos heq
            have hne := hafter.2.2 (rank last) (List.mem_map_of_mem hmem) _
              (List.mem_map_of_mem (List.getElem_mem hpos))
            exact hne (of_decide_eq_true heq).symm
          simp only [hnone, List.append_nil]

theorem Answers.of_nodup {all rows : List α} (h : Answers rank limit offset false all rows)
    (hall : (all.map rank).Nodup) (hrows : (rows.map rank).Nodup) :
    Answers rank limit offset withTies all rows := by
  obtain ⟨arrangement, hperm, hsorted, heq⟩ := h.answer
  refine ⟨h.sorted, arrangement, hperm, hsorted, ?_⟩
  calc
    limitRows rank limit offset withTies rows = limitRows rank limit offset false rows :=
      limitRows_of_nodup hrows
    _ = limitRows rank limit offset false arrangement := heq
    _ = limitRows rank limit offset withTies arrangement :=
      (limitRows_of_nodup ((hperm.map rank).nodup_iff.mpr hall)).symm

theorem le_length_limitRows {rows : List α} (hlen : limit + offset ≤ rows.length) :
    limit ≤ (limitRows rank limit offset withTies rows).length := by
  have htaken : ((rows.drop offset).take limit).length = limit := by
    rw [List.length_take, List.length_drop]
    omega
  unfold limitRows
  cases withTies with
  | false =>
      simp only [Bool.false_eq_true, if_false]
      exact htaken.ge
  | true =>
      simp only [if_true]
      split
      · exact htaken.ge
      · rw [List.length_append]
        omega

theorem not_answers_of_few {all rows : List α} (hall : limit + offset ≤ all.length)
    (hlimit : 0 < limit) (hrows : rows.length < limit + offset) :
    ¬ Answers rank limit offset withTies all rows := by
  intro h
  obtain ⟨arrangement, hperm, -, heq⟩ := h.answer
  have hmany : limit ≤ (limitRows rank limit offset withTies arrangement).length :=
    le_length_limitRows (hall.trans hperm.length_eq.ge)
  have hfew : (limitRows rank limit offset withTies rows).length ≤ rows.length - offset :=
    length_limitRows_le rows
  rw [heq] at hfew
  omega

end limit

end DeltaX.Support.Selection
