import Mathlib.Data.List.Basic
/-!
# Machines whose steps may fail

A step that fails leaves the state as it was, as an aborted transaction does.
Invariants are carried along runs whose steps meet a guard.
-/

namespace DeltaX.Support.Machine

theorem ok_of_bind {ε : Type u} {α β : Type v} {x : Except ε α} {f : α → Except ε β} {b : β}
    (h : x >>= f = .ok b) : ∃ a, x = .ok a ∧ f a = .ok b := by
  cases x with
  | error e => cases h
  | ok a => exact ⟨a, rfl, h⟩

variable {σ ω ε : Type*} (step : σ → ω → Except ε σ)

def next (st : σ) (op : ω) : σ :=
  match step st op with
  | .ok st' => st'
  | .error _ => st

def run (st : σ) (ops : List ω) : σ := ops.foldl (next step) st

/-- Every step of a run starts from a state in which `guard` holds of it. -/
def Along (guard : σ → ω → Prop) (st : σ) : List ω → Prop
  | [] => True
  | op :: ops => guard st op ∧ Along guard (next step st op) ops

variable {step} {guard : σ → ω → Prop} {I : σ → Prop}

theorem next_of_ok {st st' : σ} {op : ω} (h : step st op = .ok st') : next step st op = st' := by
  rw [next, h]

theorem next_of_error {st : σ} {op : ω} {e : ε} (h : step st op = .error e) :
    next step st op = st := by
  rw [next, h]

theorem invariant_next (hstep : ∀ st op st', I st → guard st op → step st op = .ok st' → I st')
    {st : σ} {op : ω} (hst : I st) (hguard : guard st op) : I (next step st op) := by
  cases h : step st op with
  | error e =>
      rw [next_of_error h]
      exact hst
  | ok st' =>
      rw [next_of_ok h]
      exact hstep st op st' hst hguard h

theorem invariant_run (hstep : ∀ st op st', I st → guard st op → step st op = .ok st' → I st')
    {st : σ} {ops : List ω} (hst : I st) (hguard : Along step guard st ops) :
    I (run step st ops) := by
  induction ops generalizing st with
  | nil => exact hst
  | cons op ops ih => exact ih (invariant_next hstep hst hguard.1) hguard.2

/-- What an invariant and the guard give at each step holds along the run. -/
theorem along_of_invariant {Q : σ → ω → Prop}
    (hstep : ∀ st op st', I st → guard st op → step st op = .ok st' → I st')
    (hQ : ∀ st op, I st → guard st op → Q st op) {st : σ} {ops : List ω} (hst : I st)
    (hguard : Along step guard st ops) : Along step Q st ops := by
  induction ops generalizing st with
  | nil => trivial
  | cons op ops ih =>
      exact ⟨hQ st op hst hguard.1, ih (invariant_next hstep hst hguard.1) hguard.2⟩

theorem along_mono {guard' : σ → ω → Prop} (himp : ∀ st op, guard st op → guard' st op) {st : σ}
    {ops : List ω} (h : Along step guard st ops) : Along step guard' st ops := by
  induction ops generalizing st with
  | nil => trivial
  | cons op ops ih => exact ⟨himp st op h.1, ih h.2⟩

theorem along_true (st : σ) (ops : List ω) : Along step (fun _ _ => True) st ops := by
  induction ops generalizing st with
  | nil => trivial
  | cons op ops ih => exact ⟨trivial, ih _⟩

end DeltaX.Support.Machine
