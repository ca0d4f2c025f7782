import Mathlib.Tactic.TypeStar

/-!
# Runs of a machine with outputs

A step takes an input and puts out a list. A condition on states and inputs can hold all
along a run; what it says of a step's outputs then holds of all outputs of the run.
-/

namespace Ambix.Lib

section

variable {σ ι ω : Type*} (step : σ → ι → σ × List ω)

/-- The outputs of a run, in order. -/
def outputs : σ → List ι → List ω
  | _, [] => []
  | s, x :: xs => (step s x).2 ++ outputs (step s x).1 xs

/-- A condition that holds of every input of a run, in the state that it meets. -/
def Along (C : σ → ι → Prop) : σ → List ι → Prop
  | _, [] => True
  | s, x :: xs => C s x ∧ Along C (step s x).1 xs

variable {step} {C D : σ → ι → Prop} {s : σ} {xs : List ι}

theorem along_of_forall {D : ι → Prop} (h : ∀ x ∈ xs, D x) : Along step (fun _ x => D x) s xs := by
  induction xs generalizing s with
  | nil => trivial
  | cons x xs ih =>
    exact ⟨h x List.mem_cons_self, ih fun y hy => h y (List.mem_cons_of_mem _ hy)⟩

theorem Along.and (h : Along step C s xs) (h' : Along step D s xs) :
    Along step (fun s x => C s x ∧ D s x) s xs := by
  induction xs generalizing s with
  | nil => trivial
  | cons x xs ih => exact ⟨⟨h.1, h'.1⟩, ih h.2 h'.2⟩

/-- **All along a run** the outputs of the steps are as the condition has them. -/
theorem Along.outputs {Q : ω → Prop} (h : Along step C s xs)
    (hstep : ∀ s x, C s x → ∀ o ∈ (step s x).2, Q o) : ∀ o ∈ outputs step s xs, Q o := by
  induction xs generalizing s with
  | nil => simp [Lib.outputs]
  | cons x xs ih =>
    intro o ho
    rcases List.mem_append.mp ho with hnow | hlater
    · exact hstep s x h.1 o hnow
    · exact ih h.2 o hlater

end

end Ambix.Lib
