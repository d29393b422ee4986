import Mathlib.Data.List.Dedup
import Mathlib.Order.Lattice
/-!
# Extremes

The value a scan of a list is left with when later values may replace the one
kept so far: its first value in a strict order, whatever repeats.
-/

namespace DeltaX.Support.Extremes

/-- The first of the values, where a later one replaces it when `better` says so. -/
def fold1 {α : Type*} (better : α → α → Bool) : List α → Option α
  | [] => none
  | v :: vs => some (vs.foldl (fun cur v => if better v cur then v else cur) v)

/-- `v` replaces `cur` on the way to a minimum, or to a maximum. -/
def towards {α : Type*} (less : α → α → Bool) (greater : Bool) (v cur : α) : Bool :=
  if greater then less cur v else less v cur

variable {α β : Type*} {better : α → α → Bool}

theorem fold1_map (better : β → β → Bool) (f : α → β) (vs : List α) :
    fold1 better (vs.map f) = (fold1 (fun a b => better (f a) (f b)) vs).map f := by
  cases vs with
  | nil => rfl
  | cons v vs =>
      simp only [List.map_cons, fold1, Option.map_some, Option.some.injEq]
      induction vs generalizing v with
      | nil => rfl
      | cons w vs ih =>
          simp only [List.map_cons, List.foldl_cons]
          by_cases hb : better (f w) (f v) = true
          · simp only [hb, if_true]
            exact ih w
          · simp only [hb]
            exact ih v

variable (hirrefl : ∀ a, better a a = false)
  (htrans : ∀ a b c, better a b = true → better b c = true → better a c = true)
  (htotal : ∀ a b, a ≠ b → better a b = true ∨ better b a = true)

include hirrefl htrans htotal in
/-- Under a strict order the fold ends with the one value that none comes before. -/
theorem fold1_eq_some_iff (vs : List α) (m : α) :
    fold1 better vs = some m ↔ m ∈ vs ∧ ∀ v ∈ vs, better v m = false := by
  cases vs with
  | nil => simp [fold1]
  | cons v vs =>
      simp only [fold1, Option.some.injEq]
      induction vs generalizing v with
      | nil =>
          simp only [List.foldl_nil, List.mem_singleton, forall_eq]
          constructor
          · rintro rfl
            exact ⟨rfl, hirrefl v⟩
          · exact fun h => h.1.symm
      | cons w vs ih =>
          rw [List.foldl_cons]
          refine (ih _).trans ?_
          simp only [List.mem_cons, forall_eq_or_imp]
          -- Either `w` replaces `v`, or `v` stays; the other one is not before the result.
          by_cases hb : better w v = true
          · simp only [hb, if_true]
            constructor
            · rintro ⟨hm, hw, hvs⟩
              refine ⟨Or.inr hm, ?_, hw, hvs⟩
              by_contra hv
              have h := htrans w v m hb (by simpa using hv)
              rw [hw] at h
              cases h
            · rintro ⟨hm, hv, hw, hvs⟩
              refine ⟨?_, hw, hvs⟩
              rcases hm with rfl | hm
              · rw [hb] at hw
                cases hw
              · exact hm
          · simp only [if_neg hb]
            constructor
            · rintro ⟨hm, hv, hvs⟩
              refine ⟨?_, hv, ?_, hvs⟩
              · rcases hm with rfl | hm
                · exact Or.inl rfl
                · exact Or.inr (Or.inr hm)
              · by_contra hw
                by_cases hwv : w = v
                · subst hwv
                  exact hw hv
                · have hvw := (htotal w v hwv).resolve_left hb
                  have h := htrans v w m hvw (by simpa using hw)
                  rw [hv] at h
                  cases h
            · rintro ⟨hm, hv, hw, hvs⟩
              refine ⟨?_, hv, hvs⟩
              rcases hm with rfl | rfl | hm
              · exact Or.inl rfl
              · by_cases hmv : m = v
                · exact Or.inl hmv
                · have h := (htotal m v hmv).resolve_left hb
                  rw [hv] at h
                  cases h
              · exact Or.inr hm

include hirrefl htrans htotal in
theorem fold1_dedup [DecidableEq α] (vs : List α) : fold1 better vs.dedup = fold1 better vs := by
  apply Option.ext
  intro m
  show fold1 better vs.dedup = some m ↔ fold1 better vs = some m
  rw [fold1_eq_some_iff hirrefl htrans htotal, fold1_eq_some_iff hirrefl htrans htotal]
  simp only [List.mem_dedup]

theorem fold1_towards_dedup {α : Type*} [DecidableEq α] {less : α → α → Bool}
    (hirrefl : ∀ a, less a a = false)
    (htrans : ∀ a b c, less a b = true → less b c = true → less a c = true)
    (htotal : ∀ a b, a ≠ b → less a b = true ∨ less b a = true) (greater : Bool) (vs : List α) :
    fold1 (towards less greater) vs.dedup = fold1 (towards less greater) vs := by
  cases greater with
  | false => exact fold1_dedup hirrefl htrans htotal vs
  | true =>
      apply fold1_dedup
      · exact hirrefl
      · exact fun a b c hab hbc => htrans c b a hbc hab
      · exact fun a b hne => (htotal a b hne).symm

theorem fold1_eq_none_iff (vs : List α) : fold1 better vs = none ↔ vs = [] := by
  cases vs with
  | nil => simp [fold1]
  | cons v vs => simp [fold1]

/-! ## Linear orders -/

section linear

variable [LinearOrder β]

def extreme (greater : Bool) (vs : List β) : Option β :=
  fold1 (towards (fun a b => decide (a < b)) greater) vs

/-- `m` is as far out as `v`. -/
def Bounds (greater : Bool) (m v : β) : Prop := if greater then v ≤ m else m ≤ v

theorem Bounds.trans {greater : Bool} {a b c : β} (hab : Bounds greater a b)
    (hbc : Bounds greater b c) : Bounds greater a c := by
  unfold Bounds at *
  split_ifs at *
  · exact hbc.trans hab
  · exact hab.trans hbc

theorem extreme_eq_some_iff (greater : Bool) (vs : List β) (m : β) :
    extreme greater vs = some m ↔ m ∈ vs ∧ ∀ v ∈ vs, Bounds greater m v := by
  unfold extreme
  rw [fold1_eq_some_iff]
  · cases greater <;> simp [towards, Bounds]
  · cases greater <;> simp [towards]
  · intro a b c hab hbc
    cases greater <;>
      simp only [towards, decide_eq_true_eq, if_true, Bool.false_eq_true, if_false] at *
    · exact hab.trans hbc
    · exact hbc.trans hab
  · intro a b hne
    cases greater <;>
      simp only [towards, decide_eq_true_eq, if_true, Bool.false_eq_true, if_false]
    · exact lt_or_gt_of_ne hne
    · exact (lt_or_gt_of_ne hne).symm

theorem extreme_eq_none_iff (greater : Bool) (vs : List β) :
    extreme greater vs = none ↔ vs = [] := fold1_eq_none_iff vs

theorem extreme_parts (greater : Bool) (parts : List (List β)) :
    extreme greater (parts.filterMap (extreme greater)) = extreme greater parts.flatten := by
  apply Option.ext
  intro m
  show extreme greater (parts.filterMap (extreme greater)) = some m ↔
    extreme greater parts.flatten = some m
  simp only [extreme_eq_some_iff, List.mem_filterMap, List.mem_flatten]
  constructor
  · rintro ⟨⟨part, hpart, hm, -⟩, hall⟩
    refine ⟨⟨part, hpart, hm⟩, ?_⟩
    rintro v ⟨part', hpart', hv⟩
    -- The part of `v` has an extreme, which is between the two.
    obtain ⟨e, he⟩ : ∃ e, extreme greater part' = some e := by
      rw [← Option.ne_none_iff_exists', ne_eq, extreme_eq_none_iff]
      exact List.ne_nil_of_mem hv
    have hspan := (extreme_eq_some_iff greater part' e).mp he
    exact (hall e ⟨part', hpart', hspan⟩).trans (hspan.2 v hv)
  · rintro ⟨⟨part, hpart, hm⟩, hall⟩
    refine ⟨⟨part, hpart, hm, fun v hv => hall v ⟨part, hpart, hv⟩⟩, ?_⟩
    rintro v ⟨part', hpart', hv, -⟩
    exact hall v ⟨part', hpart', hv⟩

theorem extreme_perm (greater : Bool) {vs ws : List β} (h : vs.Perm ws) :
    extreme greater vs = extreme greater ws := by
  apply Option.ext
  intro m
  show extreme greater vs = some m ↔ extreme greater ws = some m
  simp only [extreme_eq_some_iff, h.mem_iff]

/-! ## Values that compare with nothing -/

variable {good : α → Bool} {rank : α → β} {less : α → α → Bool}
  (hless : ∀ a b, less a b = true ↔ good a = true ∧ good b = true ∧ rank a < rank b)

include hless in
/-- A first value that compares with nothing is never replaced. -/
theorem fold1_cons_of_bad (greater : Bool) {v : α} (hv : good v = false) (vs : List α) :
    fold1 (towards less greater) (v :: vs) = some v := by
  have hkeep : ∀ w, towards less greater w v = false := by
    intro w
    rw [← Bool.not_eq_true]
    intro h
    cases greater <;> simp_all [towards]
  rw [fold1, Option.some.injEq]
  induction vs with
  | nil => rfl
  | cons w vs ih =>
      rw [List.foldl_cons, hkeep w]
      exact ih

include hless in
/-- After a first value that compares, those that do not are passed over. -/
theorem fold1_cons_of_good (greater : Bool) {v : α} (hv : good v = true) (vs : List α) :
    ∃ m ∈ v :: vs, good m = true ∧ fold1 (towards less greater) (v :: vs) = some m ∧
      ∀ w ∈ v :: vs, good w = true → Bounds greater (rank m) (rank w) := by
  have hiff : ∀ a b, good b = true →
      (towards less greater a b = true ↔ good a = true ∧ ¬Bounds greater (rank b) (rank a)) := by
    intro a b hb
    cases greater <;> simp [towards, Bounds, hless, hb]
  simp only [fold1, Option.some.injEq]
  induction vs generalizing v with
  | nil =>
      refine ⟨v, List.mem_cons_self, hv, rfl, ?_⟩
      intro w hw _
      rw [List.mem_singleton.mp hw]
      cases greater <;> exact le_refl _
  | cons w vs ih =>
      rw [List.foldl_cons]
      by_cases hb : towards less greater w v = true
      · rw [if_pos hb]
        obtain ⟨hw, hout⟩ := (hiff w v hv).mp hb
        obtain ⟨m, hm, hgood, hfold, hall⟩ := ih hw
        refine ⟨m, List.mem_cons_of_mem _ hm, hgood, hfold, ?_⟩
        intro u hu hgoodu
        rcases List.mem_cons.mp hu with rfl | hu
        · have hwu : Bounds greater (rank w) (rank u) := by
            cases greater <;> simp_all [Bounds, le_of_lt]
          exact (hall w List.mem_cons_self hw).trans hwu
        · exact hall u hu hgoodu
      · rw [if_neg hb]
        obtain ⟨m, hm, hgood, hfold, hall⟩ := ih hv
        have hmem : ∀ u, u ∈ v :: vs → u ∈ v :: w :: vs := fun u hu => by
          rw [List.mem_cons] at hu ⊢
          exact hu.imp_right (List.mem_cons_of_mem _)
        refine ⟨m, hmem m hm, hgood, hfold, ?_⟩
        intro u hu hgoodu
        rcases List.mem_cons.mp hu with rfl | hu
        · exact hall u List.mem_cons_self hgoodu
        · rcases List.mem_cons.mp hu with rfl | hu
          · have hvu : Bounds greater (rank v) (rank u) := by
              by_contra hout
              exact hb ((hiff u v hv).mpr ⟨hgoodu, hout⟩)
            exact (hall v List.mem_cons_self hv).trans hvu
          · exact hall u (List.mem_cons_of_mem _ hu) hgoodu

end linear

end DeltaX.Support.Extremes
