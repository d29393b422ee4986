import Mathlib.Algebra.Order.Ring.Nat
import Mathlib.Data.List.Basic
import Mathlib.Data.List.TakeWhile
/-!
# Regular expressions with ordered results

An expression read at a place of the input gives the places where it can end, in the order
in which it prefers them: a quantifier prefers more to less, and what comes earlier decides
first.  What an expression matches is the first of its results.
-/

namespace DeltaX.Support.OrderedRegex

inductive Re (α : Type*)
  | set (p : α → Bool)
  | bos
  | eos
  | empty
  | cat (r s : Re α)
  | opt (r : Re α)
  | star (r : Re α)
  | plus (r : Re α)
  | capture (r : Re α)

/-- A place of the input: the elements before it, those behind it, and what was captured. -/
@[ext]
structure At (α : Type*) where
  pos : ℕ
  rest : List α
  cap : Option (List α)

variable {α : Type*}

/-- Repetitions of a step, each of which must make progress. -/
def again (step : At α → List (At α)) : ℕ → At α → List (At α)
  | 0, st => [st]
  | fuel + 1, st =>
      ((step st).filter fun st' => st'.rest.length < st.rest.length).flatMap (again step fuel) ++
        [st]

/-- The places where an expression can end, from a place on. -/
def runs : Re α → At α → List (At α)
  | .set p, st =>
      match st.rest with
      | x :: rest => if p x then [⟨st.pos + 1, rest, st.cap⟩] else []
      | [] => []
  | .bos, st => if st.pos = 0 then [st] else []
  | .eos, st => if st.rest.isEmpty then [st] else []
  | .empty, st => [st]
  | .cat r s, st => (runs r st).flatMap (runs s)
  | .opt r, st => runs r st ++ [st]
  | .star r, st => again (runs r) st.rest.length st
  | .plus r, st => (runs r st).flatMap fun st' => again (runs r) st'.rest.length st'
  | .capture r, st =>
      (runs r st).map fun st' =>
        { st' with cap := some (st.rest.take (st.rest.length - st'.rest.length)) }

def catAll (rs : List (Re α)) : Re α := rs.foldr .cat .empty

def branch : List (Re α) → Re α
  | [r] => r
  | rs => catAll rs

def one [DecidableEq α] (x : α) : Re α := .set (· = x)

def At.advance (st : At α) (k : ℕ) : At α := ⟨st.pos + k, st.rest.drop k, st.cap⟩

/-- A place some elements further on, where these were captured. -/
def At.captured (st : At α) (k : ℕ) : At α :=
  ⟨st.pos + k, st.rest.drop k, some (st.rest.take k)⟩

@[simp] theorem At.advance_zero (st : At α) : st.advance 0 = st := rfl

theorem At.advance_advance (st : At α) (j k : ℕ) : (st.advance j).advance k = st.advance (j + k) := by
  ext1
  · exact Nat.add_assoc _ _ _
  · exact List.drop_drop
  · rfl

/-! ## Rules -/

theorem runs_cat (r s : Re α) (st : At α) : runs (.cat r s) st = (runs r st).flatMap (runs s) := rfl

theorem runs_catAll_cons (r : Re α) (rs : List (Re α)) (st : At α) :
    runs (catAll (r :: rs)) st = (runs r st).flatMap (runs (catAll rs)) := rfl

theorem runs_catAll_append (rs ss : List (Re α)) (st : At α) :
    runs (catAll (rs ++ ss)) st = (runs (catAll rs) st).flatMap (runs (catAll ss)) := by
  induction rs generalizing st with
  | nil => exact (List.flatMap_singleton _ _).symm
  | cons r rs ih =>
      have hrest : runs (catAll (rs ++ ss)) = fun st => (runs (catAll rs) st).flatMap
          (runs (catAll ss)) := funext ih
      rw [List.cons_append, runs_catAll_cons, runs_catAll_cons, hrest, List.flatMap_assoc]

theorem runs_catAll_single (r : Re α) (st : At α) : runs (catAll [r]) st = runs r st :=
  List.flatMap_singleton' _

/-- The first result of two expressions one behind the other. -/
theorem head?_runs_cat (r s : Re α) (st : At α) :
    (runs (.cat r s) st).head? = (runs r st).findSome? fun st' => (runs s st').head? := by
  rw [runs_cat, List.head?_flatMap]

theorem runs_set_cons (p : α → Bool) {st : At α} {x : α} {rest : List α} (h : st.rest = x :: rest) :
    runs (.set p) st = if p x then [st.advance 1] else [] := by
  obtain ⟨pos, input, cap⟩ := st
  subst h
  rfl

theorem runs_set_nil (p : α → Bool) {st : At α} (h : st.rest = []) : runs (.set p) st = [] := by
  obtain ⟨pos, input, cap⟩ := st
  subst h
  rfl

theorem runs_branch (rs : List (Re α)) (st : At α) : runs (branch rs) st = runs (catAll rs) st := by
  unfold branch
  split
  · exact (List.flatMap_singleton' _).symm
  · rfl

/-- Elements are matched where they are what comes next. -/
theorem runs_literal [DecidableEq α] (xs : List α) (st : At α) :
    runs (catAll (xs.map one)) st = if xs <+: st.rest then [st.advance xs.length] else [] := by
  induction xs generalizing st with
  | nil => rfl
  | cons x xs ih =>
      rw [List.map_cons, runs_catAll_cons, one]
      obtain ⟨pos, rest, cap⟩ := st
      cases rest with
      | nil => simp [runs]
      | cons y rest =>
          rw [runs_set_cons _ rfl]
          by_cases hx : y = x
          · subst hx
            have hadvance : ((At.mk pos (y :: rest) cap).advance 1).advance xs.length =
                (At.mk pos (y :: rest) cap).advance (y :: xs).length := by
              rw [At.advance_advance, List.length_cons, Nat.add_comm]
            rw [if_pos (by simp), List.flatMap_singleton, ih, hadvance]
            simp [At.advance, List.cons_prefix_cons]
          · rw [if_neg (by simpa using hx), List.flatMap_nil, if_neg]
            rw [List.cons_prefix_cons]
            exact fun h => hx h.1.symm

/-- Greedy repetitions of one element, the longest first. -/
theorem again_set (p : α → Bool) {fuel : ℕ} {st : At α} (hfuel : st.rest.length ≤ fuel) :
    again (runs (.set p)) fuel st =
      ((List.range ((st.rest.takeWhile p).length + 1)).map st.advance).reverse := by
  induction fuel generalizing st with
  | zero =>
      have hnil : st.rest = [] := List.length_eq_zero_iff.mp (Nat.le_zero.mp hfuel)
      rw [hnil]
      rfl
  | succ fuel ih =>
      obtain ⟨pos, rest, cap⟩ := st
      cases rest with
      | nil => rfl
      | cons x rest =>
          rw [again, runs_set_cons p rfl]
          by_cases hx : p x = true
          · have hnext : ((At.mk pos (x :: rest) cap).advance 1).rest.length ≤ fuel := by
              simpa [At.advance] using hfuel
            have hprogress : [(At.mk pos (x :: rest) cap).advance 1].filter
                (fun st' => decide (st'.rest.length < (At.mk pos (x :: rest) cap).rest.length)) =
                [(At.mk pos (x :: rest) cap).advance 1] := by
              simp [At.advance]
            rw [if_pos hx, hprogress, List.flatMap_singleton, ih hnext]
            have hrest : ((At.mk pos (x :: rest) cap).advance 1).rest = rest := rfl
            rw [hrest, List.takeWhile_cons_of_pos hx, List.length_cons,
              List.range_succ_eq_map (n := (rest.takeWhile p).length + 1), List.map_cons,
              List.reverse_cons, List.map_map]
            have hshift : (At.mk pos (x :: rest) cap).advance ∘ Nat.succ =
                ((At.mk pos (x :: rest) cap).advance 1).advance := by
              funext k
              rw [At.advance_advance, Function.comp_apply, Nat.succ_eq_one_add]
            rw [hshift]
            rfl
          · rw [if_neg hx, List.takeWhile_cons_of_neg hx]
            rfl

theorem runs_plus_set (p : α → Bool) (st : At α) :
    runs (.plus (.set p)) st =
      ((List.range (st.rest.takeWhile p).length).map fun k => st.advance (k + 1)).reverse := by
  show (runs (.set p) st).flatMap (fun st' => again (runs (.set p)) st'.rest.length st') = _
  cases hrest : st.rest with
  | nil =>
      rw [runs_set_nil p hrest]
      rfl
  | cons x rest =>
      rw [runs_set_cons p hrest]
      by_cases hx : p x = true
      · have hnext : (st.advance 1).rest = rest := by
          rw [At.advance, hrest]
          rfl
        rw [if_pos hx, List.flatMap_singleton, again_set p (Nat.le_refl _), hnext,
          List.takeWhile_cons_of_pos hx, List.length_cons]
        congr 2
        funext k
        rw [At.advance_advance, Nat.add_comm]
      · rw [if_neg hx, List.takeWhile_cons_of_neg hx]
        rfl

theorem runs_capture_plus_set (p : α → Bool) (st : At α) :
    runs (.capture (.plus (.set p))) st =
      ((List.range (st.rest.takeWhile p).length).map fun k => st.captured (k + 1)).reverse := by
  have htake := List.takeWhile_prefix (p := p) (l := st.rest)
  rw [runs, runs_plus_set, List.map_reverse, List.map_map]
  congr 1
  apply List.map_congr_left
  intro k hk
  have hlt : k < (st.rest.takeWhile p).length := List.mem_range.mp hk
  have hle := htake.length_le
  show At.mk _ _ (some (st.rest.take (st.rest.length - (st.rest.drop (k + 1)).length))) = _
  rw [List.length_drop, show st.rest.length - (st.rest.length - (k + 1)) = k + 1 by omega]
  rfl

theorem head?_capture_plus_set (p : α → Bool) (s : Re α) (st : At α)
    (h : ∀ k, k + 1 < (st.rest.takeWhile p).length → runs s (st.captured (k + 1)) = []) :
    (runs (.cat (.capture (.plus (.set p))) s) st).head? =
      if st.rest.takeWhile p = [] then none
      else (runs s (st.captured (st.rest.takeWhile p).length)).head? := by
  rw [head?_runs_cat, runs_capture_plus_set]
  rcases hn : (st.rest.takeWhile p).length with _ | n
  · rw [if_pos (List.length_eq_zero_iff.mp hn)]
    rfl
  · have hne : st.rest.takeWhile p ≠ [] := by
      intro hnil
      rw [hnil] at hn
      cases hn
    rw [if_neg hne, List.range_succ, List.map_append, List.reverse_append, List.map_singleton,
      List.reverse_singleton, List.singleton_append, List.findSome?_cons]
    cases hlast : (runs s (st.captured (n + 1))).head? with
    | some st' => rfl
    | none =>
        rw [List.findSome?_eq_none_iff]
        intro st' hst'
        rw [List.mem_reverse, List.mem_map] at hst'
        obtain ⟨k, hk, rfl⟩ := hst'
        have hlt := List.mem_range.mp hk
        rw [h k (by omega)]
        rfl

/-- `.*$` takes all that is left. -/
theorem head?_star_eos (st : At α) :
    (runs (.cat (.star (.set fun _ => true)) .eos) st).head? =
      some (st.advance st.rest.length) := by
  have hall : st.rest.takeWhile (fun _ => true) = st.rest := by
    rw [List.takeWhile_eq_self_iff]
    exact fun _ _ => rfl
  have hstar : runs (.star (.set fun _ => true)) st =
      ((List.range (st.rest.length + 1)).map st.advance).reverse := by
    rw [runs, again_set _ (Nat.le_refl _), hall]
  rw [head?_runs_cat, hstar, List.range_succ, List.map_append, List.reverse_append,
    List.map_singleton, List.reverse_singleton, List.singleton_append]
  have hend : runs .eos (st.advance st.rest.length) = [st.advance st.rest.length] := by
    rw [runs, At.advance, List.drop_length]
    rfl
  rw [List.findSome?_cons, hend]
  rfl

/-! ## The least length -/

/-- The least number of elements that an expression takes. -/
def minLength : Re α → ℕ
  | .set _ => 1
  | .bos => 0
  | .eos => 0
  | .empty => 0
  | .cat r s => minLength r + minLength s
  | .opt _ => 0
  | .star _ => 0
  | .plus r => minLength r
  | .capture r => minLength r

theorem minLength_catAll (rs : List (Re α)) : minLength (catAll rs) = (rs.map minLength).sum := by
  induction rs with
  | nil => rfl
  | cons r rs ih => exact congrArg (minLength r + ·) ih

theorem length_le_of_again {step : At α → List (At α)} {fuel : ℕ} {st st' : At α}
    (h : st' ∈ again step fuel st) : st'.rest.length ≤ st.rest.length := by
  induction fuel generalizing st with
  | zero => rw [List.mem_singleton.mp h]
  | succ fuel ih =>
      rw [again, List.mem_append, List.mem_singleton, List.mem_flatMap] at h
      rcases h with ⟨mid, hmid, h⟩ | rfl
      · have hshorter := of_decide_eq_true (List.mem_filter.mp hmid).2
        exact Nat.le_trans (ih h) (Nat.le_of_lt hshorter)
      · exact Nat.le_refl _

theorem minLength_le {r : Re α} {st st' : At α} (h : st' ∈ runs r st) :
    st'.rest.length + minLength r ≤ st.rest.length := by
  induction r generalizing st st' with
  | set p =>
      obtain ⟨pos, rest, cap⟩ := st
      cases rest with
      | nil => cases h
      | cons x rest =>
          rw [runs_set_cons p rfl] at h
          split_ifs at h
          · rw [List.mem_singleton.mp h]
            exact Nat.le_refl _
          · cases h
  | bos =>
      rw [runs] at h
      split_ifs at h
      · rw [List.mem_singleton.mp h]
        exact Nat.le_refl _
      · cases h
  | eos =>
      rw [runs] at h
      split_ifs at h
      · rw [List.mem_singleton.mp h]
        exact Nat.le_refl _
      · cases h
  | empty =>
      rw [List.mem_singleton.mp h]
      exact Nat.le_refl _
  | cat r s ihr ihs =>
      obtain ⟨mid, hmid, h⟩ := List.mem_flatMap.mp h
      have hr := ihr hmid
      have hs := ihs h
      rw [minLength]
      omega
  | opt r ih =>
      rcases List.mem_append.mp h with h | h
      · exact Nat.le_trans (Nat.le_add_right _ _) (ih h)
      · rw [List.mem_singleton.mp h]
        exact Nat.le_refl _
  | star r ih => exact length_le_of_again h
  | plus r ih =>
      obtain ⟨mid, hmid, h⟩ := List.mem_flatMap.mp h
      have hr := ih hmid
      have hagain := length_le_of_again h
      rw [minLength]
      omega
  | capture r ih =>
      obtain ⟨mid, hmid, rfl⟩ := List.mem_map.mp h
      have hr := ih hmid
      exact hr

/-- An expression does not match where there is too little left. -/
theorem runs_eq_nil {r : Re α} {st : At α} (h : st.rest.length < minLength r) : runs r st = [] := by
  rw [List.eq_nil_iff_forall_not_mem]
  intro st' hst'
  have := minLength_le hst'
  omega

end DeltaX.Support.OrderedRegex
