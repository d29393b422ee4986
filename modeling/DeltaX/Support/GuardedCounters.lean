import Mathlib.Algebra.Order.BigOperators.Group.Finset
import Mathlib.Data.Fintype.BigOperators
import Mathlib.Logic.Relation
/-!
# Counters behind a stale check

Workers bump shared cells.  A bump loads the cell, and adds one to it in a step of
its own if what was loaded is below a limit.  Between the two steps any other worker
may move, so a cell can pass the limit by as many as there are workers.  A cell holds
the values below a modulus and wraps around at it.
-/

namespace DeltaX.Support.GuardedCounters

open Relation

variable {γ : Type*} {n : ℕ}

/-- A worker: the cell it has loaded and has to add to, and the cells to bump next. -/
structure Worker (γ : Type*) where
  pending : Option γ
  todo : List γ

@[ext]
structure State (γ : Type*) (n : ℕ) where
  cells : γ → ℕ
  workers : Fin n → Worker γ

namespace State

/-- All cells zero, nothing done. -/
def start (programs : Fin n → List γ) : State γ n := ⟨fun _ => 0, fun i => ⟨none, programs i⟩⟩

def Done (st : State γ n) : Prop := ∀ i, st.workers i = ⟨none, []⟩

end State

variable [DecidableEq γ] (limit modulus : ℕ)

def step (st : State γ n) (i : Fin n) : Option (State γ n) :=
  match st.workers i with
  | ⟨some c, todo⟩ => some
      { cells := Function.update st.cells c ((st.cells c + 1) % modulus)
        workers := Function.update st.workers i ⟨none, todo⟩ }
  | ⟨none, c :: todo⟩ => some
      { st with workers := Function.update st.workers i
                  ⟨if st.cells c < limit then some c else none, todo⟩ }
  | ⟨none, []⟩ => none

def Steps : State γ n → State γ n → Prop :=
  ReflTransGen fun st st' => ∃ i, step limit modulus st i = some st'

variable {limit modulus} {st st' : State γ n} {i : Fin n} {c : γ} {todo : List γ}

theorem step_pending (h : st.workers i = ⟨some c, todo⟩) :
    step limit modulus st i = some
      { cells := Function.update st.cells c ((st.cells c + 1) % modulus)
        workers := Function.update st.workers i ⟨none, todo⟩ } := by
  rw [step, h]

theorem step_load (h : st.workers i = ⟨none, c :: todo⟩) :
    step limit modulus st i = some
      { st with workers := Function.update st.workers i
                  ⟨if st.cells c < limit then some c else none, todo⟩ } := by
  rw [step, h]

/-- What a step can do: add, or load a cell that is below the limit or not. -/
theorem step_cases (h : step limit modulus st i = some st') :
    (∃ c todo, st.workers i = ⟨some c, todo⟩ ∧
      st' = { cells := Function.update st.cells c ((st.cells c + 1) % modulus)
              workers := Function.update st.workers i ⟨none, todo⟩ }) ∨
    (∃ c todo, st.workers i = ⟨none, c :: todo⟩ ∧ st.cells c < limit ∧
      st' = { st with workers := Function.update st.workers i ⟨some c, todo⟩ }) ∨
    (∃ c todo, st.workers i = ⟨none, c :: todo⟩ ∧ limit ≤ st.cells c ∧
      st' = { st with workers := Function.update st.workers i ⟨none, todo⟩ }) := by
  rcases hi : st.workers i with ⟨- | c, todo⟩
  · rcases todo with - | ⟨c, todo⟩
    · rw [step, hi] at h
      cases h
    · rw [step_load hi, Option.some.injEq] at h
      by_cases hc : st.cells c < limit
      · rw [if_pos hc] at h
        exact Or.inr (Or.inl ⟨c, todo, rfl, hc, h.symm⟩)
      · rw [if_neg hc] at h
        exact Or.inr (Or.inr ⟨c, todo, rfl, Nat.le_of_not_lt hc, h.symm⟩)
  · rw [step_pending hi, Option.some.injEq] at h
    exact Or.inl ⟨c, todo, rfl, h.symm⟩

/-! ## What the workers hold -/

/-- How many adds to a cell are due. -/
def State.pendingAt (st : State γ n) (c : γ) : ℕ :=
  ∑ i, if (st.workers i).pending = some c then 1 else 0

/-- How many bumps of a cell are still to come. -/
def State.todoAt (st : State γ n) (c : γ) : ℕ := ∑ i, (st.workers i).todo.count c

omit [DecidableEq γ] in
theorem sum_update (f : Worker γ → ℕ) (workers : Fin n → Worker γ) (i : Fin n) (w : Worker γ) :
    ∑ j, f (Function.update workers i w j) + f (workers i) = ∑ j, f (workers j) + f w := by
  have hrest : ∑ j ∈ Finset.univ.erase i, f (Function.update workers i w j) =
      ∑ j ∈ Finset.univ.erase i, f (workers j) := by
    apply Finset.sum_congr rfl
    intro j hj
    rw [Function.update_of_ne (Finset.ne_of_mem_erase hj)]
  rw [← Finset.add_sum_erase Finset.univ _ (Finset.mem_univ i),
    ← Finset.add_sum_erase Finset.univ (fun j => f (workers j)) (Finset.mem_univ i), hrest,
    Function.update_self]
  omega

theorem pendingAt_update (cells : γ → ℕ) (st : State γ n) (i : Fin n) (w : Worker γ) (c : γ) :
    State.pendingAt ⟨cells, Function.update st.workers i w⟩ c +
        (if (st.workers i).pending = some c then 1 else 0) =
      st.pendingAt c + if w.pending = some c then 1 else 0 :=
  sum_update (fun w => if w.pending = some c then 1 else 0) st.workers i w

theorem todoAt_update (cells : γ → ℕ) (st : State γ n) (i : Fin n) (w : Worker γ) (c : γ) :
    State.todoAt ⟨cells, Function.update st.workers i w⟩ c + (st.workers i).todo.count c =
      st.todoAt c + w.todo.count c :=
  sum_update (fun w => w.todo.count c) st.workers i w

/-- A worker that has nothing pending leaves room for one more. -/
theorem pendingAt_lt (h : (st.workers i).pending = none) (c : γ) : st.pendingAt c < n := by
  have hlt : st.pendingAt c < ∑ _j : Fin n, 1 := by
    apply Finset.sum_lt_sum
    · intro j _
      split_ifs <;> omega
    · exact ⟨i, Finset.mem_univ i, by rw [h]; simp⟩
  simpa using hlt

theorem pendingAt_pos (h : (st.workers i).pending = some c) : 0 < st.pendingAt c := by
  have hle : (if (st.workers i).pending = some c then 1 else 0) ≤ st.pendingAt c :=
    Finset.single_le_sum (f := fun j => if (st.workers j).pending = some c then 1 else 0)
      (fun _ _ => Nat.zero_le _) (Finset.mem_univ i)
  rw [if_pos h] at hle
  omega

/-! ## Counting -/

/-- Every cell has room for the adds that are due, and has reached the limit unless it
counts, with what is due and to come, all the bumps of a cell. -/
structure Counted (limit : ℕ) (bumps : γ → ℕ) (st : State γ n) : Prop where
  headroom : ∀ c, st.cells c + st.pendingAt c ≤ limit - 1 + n
  counted : ∀ c, limit ≤ st.cells c ∨ bumps c ≤ st.cells c + st.pendingAt c + st.todoAt c

theorem counted_start (programs : Fin n → List γ) :
    Counted limit (fun c => ∑ i, (programs i).count c) (State.start programs) where
  headroom c := by simp [State.start, State.pendingAt]
  counted c := Or.inr (by simp [State.start, State.todoAt])

/-- An add that is due finds its cell below the modulus. -/
theorem Counted.no_wrap {bumps : γ → ℕ} (h : Counted limit bumps st) (hpos : 0 < limit)
    (hroom : limit + n ≤ modulus) (hi : (st.workers i).pending = some c) :
    st.cells c + 1 < modulus := by
  have hhead := h.headroom c
  have hpend := pendingAt_pos hi
  omega

theorem Counted.step {bumps : γ → ℕ} (h : Counted limit bumps st) (hpos : 0 < limit)
    (hroom : limit + n ≤ modulus) (hstep : step limit modulus st i = some st') :
    Counted limit bumps st' := by
  rcases step_cases hstep with ⟨c, todo, hi, rfl⟩ | ⟨c, todo, hi, hlow, rfl⟩ |
    ⟨c, todo, hi, hhigh, rfl⟩
  · have hwrap : (st.cells c + 1) % modulus = st.cells c + 1 :=
      Nat.mod_eq_of_lt (h.no_wrap hpos hroom (congrArg Worker.pending hi))
    rw [hwrap]
    have hmove : ∀ c', State.pendingAt ⟨Function.update st.cells c (st.cells c + 1),
        Function.update st.workers i ⟨none, todo⟩⟩ c' + (if c = c' then 1 else 0) =
          st.pendingAt c' := by
      intro c'
      simpa [hi] using pendingAt_update _ st i ⟨none, todo⟩ c'
    have hkeep : ∀ c', State.todoAt ⟨Function.update st.cells c (st.cells c + 1),
        Function.update st.workers i ⟨none, todo⟩⟩ c' = st.todoAt c' := by
      intro c'
      simpa [hi] using todoAt_update _ st i ⟨none, todo⟩ c'
    constructor
    · intro c'
      have hhead := h.headroom c'
      have hpend := hmove c'
      by_cases hc : c = c'
      · subst hc
        rw [if_pos rfl] at hpend
        simp only [Function.update_self]
        omega
      · rw [if_neg hc] at hpend
        simp only [Function.update_of_ne (Ne.symm hc)]
        omega
    · intro c'
      have hcount := h.counted c'
      have hpend := hmove c'
      rw [hkeep]
      by_cases hc : c = c'
      · subst hc
        rw [if_pos rfl] at hpend
        simp only [Function.update_self]
        omega
      · rw [if_neg hc] at hpend
        simp only [Function.update_of_ne (Ne.symm hc)]
        omega
  · have hmove : ∀ c', State.pendingAt ⟨st.cells, Function.update st.workers i ⟨some c, todo⟩⟩ c' =
        st.pendingAt c' + if c = c' then 1 else 0 := by
      intro c'
      simpa [hi] using pendingAt_update st.cells st i ⟨some c, todo⟩ c'
    have htodo : ∀ c', State.todoAt ⟨st.cells, Function.update st.workers i ⟨some c, todo⟩⟩ c' +
        (if c = c' then 1 else 0) = st.todoAt c' := by
      intro c'
      have hsum := todoAt_update st.cells st i ⟨some c, todo⟩ c'
      simp only [hi, List.count_cons, beq_iff_eq] at hsum
      omega
    constructor
    · intro c'
      rw [hmove]
      by_cases hc : c = c'
      · subst hc
        have hothers := pendingAt_lt (congrArg Worker.pending hi) c
        rw [if_pos rfl]
        show st.cells c + (st.pendingAt c + 1) ≤ limit - 1 + n
        omega
      · rw [if_neg hc]
        exact h.headroom c'
    · intro c'
      have hcount := h.counted c'
      have hleft := htodo c'
      rw [hmove]
      show limit ≤ st.cells c' ∨ bumps c' ≤ st.cells c' + _ + _
      omega
  · have hmove : ∀ c', State.pendingAt ⟨st.cells, Function.update st.workers i ⟨none, todo⟩⟩ c' =
        st.pendingAt c' := by
      intro c'
      simpa [hi] using pendingAt_update st.cells st i ⟨none, todo⟩ c'
    have htodo : ∀ c', State.todoAt ⟨st.cells, Function.update st.workers i ⟨none, todo⟩⟩ c' +
        (if c = c' then 1 else 0) = st.todoAt c' := by
      intro c'
      have hsum := todoAt_update st.cells st i ⟨none, todo⟩ c'
      simp only [hi, List.count_cons, beq_iff_eq] at hsum
      omega
    constructor
    · intro c'
      rw [hmove]
      exact h.headroom c'
    · intro c'
      have hcount := h.counted c'
      have hleft := htodo c'
      rw [hmove]
      show limit ≤ st.cells c' ∨ bumps c' ≤ st.cells c' + _ + _
      by_cases hc : c = c'
      · subst hc
        exact Or.inl hhigh
      · rw [if_neg hc] at hleft
        omega

theorem Counted.steps {bumps : γ → ℕ} (h : Counted limit bumps st) (hpos : 0 < limit)
    (hroom : limit + n ≤ modulus) (hsteps : Steps limit modulus st st') :
    Counted limit bumps st' := by
  induction hsteps with
  | refl => exact h
  | tail _ hstep ih =>
      obtain ⟨i, hi⟩ := hstep
      exact ih.step hpos hroom hi

theorem Counted.le_of_done {bumps : γ → ℕ} (h : Counted limit bumps st) (hdone : st.Done) (c : γ) :
    min limit (bumps c) ≤ st.cells c := by
  have hpend : st.pendingAt c = 0 := by
    apply Finset.sum_eq_zero
    intro i _
    simp [hdone i]
  have htodo : st.todoAt c = 0 := by
    apply Finset.sum_eq_zero
    intro i _
    simp [hdone i]
  have hcount := h.counted c
  omega

/-! ## Particular runs -/

/-- A worker alone bumps a cell that is below the limit. -/
theorem steps_bump (hi : st.workers i = ⟨none, c :: todo⟩) (hlow : st.cells c < limit)
    (hroom : limit < modulus) :
    Steps limit modulus st
      { cells := Function.update st.cells c (st.cells c + 1)
        workers := Function.update st.workers i ⟨none, todo⟩ } := by
  have hload : step limit modulus st i = some
      { st with workers := Function.update st.workers i ⟨some c, todo⟩ } := by
    rw [step_load hi, if_pos hlow]
  apply ReflTransGen.head ⟨i, hload⟩
  apply ReflTransGen.single
  refine ⟨i, ?_⟩
  rw [step_pending (Function.update_self i _ _), Function.update_idem,
    Nat.mod_eq_of_lt (by omega : st.cells c + 1 < modulus)]

/-- A worker alone bumps cells that stay within the limit. -/
theorem steps_bumps {program : List γ} (hi : st.workers i = ⟨none, program ++ todo⟩)
    (hlow : ∀ c, st.cells c + program.count c ≤ limit) (hroom : limit < modulus) :
    Steps limit modulus st
      { cells := fun c => st.cells c + program.count c
        workers := Function.update st.workers i ⟨none, todo⟩ } := by
  induction program generalizing st with
  | nil =>
      have hsame : { cells := fun c => st.cells c + ([] : List γ).count c
                     workers := Function.update st.workers i ⟨none, todo⟩ } = st := by
        apply State.ext
        · rfl
        · exact Function.update_eq_self_iff.mpr hi.symm
      rw [hsame]
      exact ReflTransGen.refl
  | cons c program ih =>
      have hcell : ∀ c', Function.update st.cells c (st.cells c + 1) c' + program.count c' =
          st.cells c' + (c :: program).count c' := by
        intro c'
        by_cases hc : c' = c
        · subst hc
          rw [Function.update_self, List.count_cons_self]
          omega
        · rw [Function.update_of_ne hc, List.count_cons_of_ne (Ne.symm hc)]
      have hfirst := hlow c
      rw [List.count_cons_self] at hfirst
      apply (steps_bump hi (by omega) hroom).trans
      have hrest : Steps limit modulus ⟨Function.update st.cells c (st.cells c + 1),
          Function.update st.workers i ⟨none, program ++ todo⟩⟩ _ :=
        ih (Function.update_self i _ _) fun c' => (hcell c').trans_le (hlow c')
      simp only [Function.update_idem, hcell] at hrest
      exact hrest

theorem steps_loads {todo : Fin n → List γ} (h : ∀ i, st.workers i = ⟨none, c :: todo i⟩)
    (hlow : st.cells c < limit) (s : Finset (Fin n)) :
    Steps limit modulus st
      { st with workers := fun i => if i ∈ s then ⟨some c, todo i⟩ else st.workers i } := by
  induction s using Finset.induction_on with
  | empty => exact ReflTransGen.refl
  | insert i s hi ih =>
      apply ih.tail
      refine ⟨i, ?_⟩
      have hworker : (if i ∈ s then ⟨some c, todo i⟩ else st.workers i) = ⟨none, c :: todo i⟩ := by
        rw [if_neg hi, h]
      rw [step_load hworker, if_pos hlow]
      congr 2
      funext j
      by_cases hj : j = i
      · subst hj
        simp
      · simp [Finset.mem_insert, hj]

theorem steps_adds {todo : Fin n → List γ} (h : ∀ i, st.workers i = ⟨some c, todo i⟩)
    (hcell : st.cells c < modulus) (s : Finset (Fin n)) :
    Steps limit modulus st
      { cells := Function.update st.cells c ((st.cells c + s.card) % modulus)
        workers := fun i => if i ∈ s then ⟨none, todo i⟩ else st.workers i } := by
  induction s using Finset.induction_on with
  | empty =>
      have hsame : { cells := Function.update st.cells c ((st.cells c + (∅ : Finset (Fin n)).card) % modulus)
                     workers := fun i => if i ∈ (∅ : Finset (Fin n)) then ⟨none, todo i⟩
                       else st.workers i } = st := by
        apply State.ext
        · simp [Nat.mod_eq_of_lt hcell]
        · rfl
      rw [hsame]
      exact ReflTransGen.refl
  | insert i s hi ih =>
      apply ih.tail
      refine ⟨i, ?_⟩
      have hworker : (if i ∈ s then ⟨none, todo i⟩ else st.workers i) = ⟨some c, todo i⟩ := by
        rw [if_neg hi, h]
      rw [step_pending hworker, Option.some.injEq]
      apply State.ext
      · rw [Finset.card_insert_of_notMem hi]
        simp only [Function.update_self, Function.update_idem, Nat.mod_add_mod, Nat.add_assoc]
      · funext j
        by_cases hj : j = i
        · subst hj
          simp
        · simp [Finset.mem_insert, hj]

/-- One worker brings a cell right below the limit, and then all of them load it. -/
theorem steps_crowd {programs todo : Fin n → List γ} {program : List γ}
    (hfirst : programs i = program ++ c :: todo i) (hothers : ∀ j, j ≠ i → programs j = c :: todo j)
    (hcount : program.count c + 1 = limit) (hlow : ∀ c', program.count c' ≤ limit)
    (hroom : limit < modulus) :
    Steps limit modulus (State.start programs)
      { cells := fun c' => program.count c', workers := fun j => ⟨some c, todo j⟩ } := by
  have hprogram : (State.start programs).workers i = ⟨none, program ++ c :: todo i⟩ := by
    rw [← hfirst]
    rfl
  have hcells : ∀ c', (State.start programs).cells c' + program.count c' = program.count c' :=
    fun c' => Nat.zero_add _
  have hbumps := steps_bumps hprogram (fun c' => (hcells c').trans_le (hlow c')) hroom
  simp only [hcells] at hbumps
  apply hbumps.trans
  have hworkers : ∀ j, Function.update (State.start programs).workers i ⟨none, c :: todo i⟩ j =
      ⟨none, c :: todo j⟩ := by
    intro j
    by_cases hj : j = i
    · subst hj
      exact Function.update_self j _ _
    · rw [Function.update_of_ne hj, ← hothers j hj]
      rfl
  have hbelow : program.count c < limit := by omega
  have hloads : Steps limit modulus ⟨fun c' => program.count c',
      Function.update (State.start programs).workers i ⟨none, c :: todo i⟩⟩ _ :=
    steps_loads hworkers hbelow Finset.univ
  simp only [Finset.mem_univ, if_true] at hloads
  exact hloads

/-- How many steps are left at most. -/
def State.work (st : State γ n) : ℕ :=
  ∑ i, (2 * (st.workers i).todo.length + if (st.workers i).pending.isSome then 1 else 0)

omit [DecidableEq γ] in
theorem work_update (cells : γ → ℕ) (st : State γ n) (i : Fin n) (w : Worker γ) :
    State.work ⟨cells, Function.update st.workers i w⟩ +
        (2 * (st.workers i).todo.length + if (st.workers i).pending.isSome then 1 else 0) =
      st.work + (2 * w.todo.length + if w.pending.isSome then 1 else 0) :=
  sum_update (fun w => 2 * w.todo.length + if w.pending.isSome then 1 else 0) st.workers i w

theorem work_lt_of_step (h : step limit modulus st i = some st') : st'.work < st.work := by
  rcases step_cases h with ⟨c, todo, hi, rfl⟩ | ⟨c, todo, hi, -, rfl⟩ | ⟨c, todo, hi, -, rfl⟩
  · have hsum := work_update (Function.update st.cells c ((st.cells c + 1) % modulus)) st i
      ⟨none, todo⟩
    simp only [hi, Option.isSome_some, Option.isSome_none, if_true] at hsum
    simp only [Bool.false_eq_true, if_false] at hsum
    omega
  · have hsum := work_update st.cells st i ⟨some c, todo⟩
    simp only [hi, Option.isSome_some, Option.isSome_none, if_true, List.length_cons] at hsum
    simp only [Bool.false_eq_true, if_false] at hsum
    omega
  · have hsum := work_update st.cells st i ⟨none, todo⟩
    simp only [hi, Option.isSome_none, List.length_cons] at hsum
    simp only [Bool.false_eq_true, if_false] at hsum
    omega

/-- Nobody has to bump the cell any more. -/
def State.Left (st : State γ n) (c : γ) : Prop :=
  ∀ i, (st.workers i).pending ≠ some c ∧ c ∉ (st.workers i).todo

theorem State.Left.step (hleft : st.Left c) (h : step limit modulus st i = some st') :
    st'.Left c ∧ st'.cells c = st.cells c := by
  rcases step_cases h with ⟨d, todo, hi, rfl⟩ | ⟨d, todo, hi, -, rfl⟩ | ⟨d, todo, hi, -, rfl⟩
  all_goals
    have hown := hleft i
    rw [hi] at hown
    simp only [List.mem_cons, not_or, ne_eq, Option.some.injEq] at hown
    refine ⟨fun j => ?_, ?_⟩
    · by_cases hj : j = i
      · subst hj
        simp only [Function.update_self]
        grind
      · simp only [Function.update_of_ne hj]
        exact hleft j
    · grind

/-- Every state can be run to the end, and a cell that nobody has to bump stays. -/
theorem exists_done (st : State γ n) :
    ∃ st', Steps limit modulus st st' ∧ st'.Done ∧ ∀ c, st.Left c → st'.cells c = st.cells c := by
  induction hwork : st.work using Nat.strong_induction_on generalizing st with
  | _ k ih =>
      by_cases hdone : st.Done
      · exact ⟨st, ReflTransGen.refl, hdone, fun _ _ => rfl⟩
      · obtain ⟨i, hi⟩ := not_forall.mp hdone
        have hstep : ∃ next, step limit modulus st i = some next := by
          rcases hworker : st.workers i with ⟨- | c, todo⟩
          · rcases todo with - | ⟨c, todo⟩
            · exact absurd hworker hi
            · exact ⟨_, step_load hworker⟩
          · exact ⟨_, step_pending hworker⟩
        obtain ⟨next, hnext⟩ := hstep
        obtain ⟨st', hsteps, hend, hcells⟩ := ih next.work (hwork ▸ work_lt_of_step hnext) next rfl
        refine ⟨st', ReflTransGen.head ⟨i, hnext⟩ hsteps, hend, fun c hleft => ?_⟩
        obtain ⟨hleft', hcell⟩ := hleft.step hnext
        rw [hcells c hleft', hcell]

end DeltaX.Support.GuardedCounters
