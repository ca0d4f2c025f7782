import Ambix.Lib.TSys

/-!
# History variables

A transition system with a record of its past beside the state: some steps add to it, and none
reads it. It reaches the states that the system reaches, so that what holds of a state and its
past holds in every run.
-/

namespace Ambix.Lib.TSys

variable {State α : Type*} (S : TSys State) (note : State → State → Option α)

/-- With what the steps note, latest first. -/
def recorded : TSys (State × List α) where
  init p := S.init p.1 ∧ p.2 = []
  step p q := S.step p.1 q.1 ∧ q.2 = (note p.1 q.1).toList ++ p.2

variable {S note}

/-- The record changes nothing, -/
theorem Reachable.state {p : State × List α} (h : (S.recorded note).Reachable p) :
    S.Reachable p.1 := by
  induction h with
  | init hinit => exact .init hinit.1
  | step _ hstep ih => exact .step ih hstep.1

/-- and there always is one. -/
theorem Reachable.exists_record {σ : State} (h : S.Reachable σ) (note : State → State → Option α) :
    ∃ past, (S.recorded note).Reachable (σ, past) := by
  induction h with
  | init hinit => exact ⟨[], .init ⟨hinit, rfl⟩⟩
  | @step σ σ' _ hstep ih =>
    obtain ⟨past, hpast⟩ := ih
    have hboth : (S.recorded note).step (σ, past) (σ', (note σ σ').toList ++ past) := ⟨hstep, rfl⟩
    exact ⟨_, hpast.step hboth⟩

/-- **The rule of records.** A property of states and their records may be shown with what is
known of the states, and a step that notes nothing keeps the record. -/
theorem Invariant.recorded {Q : State → Prop} {R : State → List α → Prop} (hQ : S.Invariant Q)
    (hinit : ∀ σ, S.init σ → R σ [])
    (hstep : ∀ σ σ' past, Q σ → R σ past → S.step σ σ' → R σ' ((note σ σ').toList ++ past)) :
    (S.recorded note).Invariant fun p => R p.1 p.2 := by
  refine Invariant.strengthen (Q := fun p => Q p.1) (fun p hp => hQ _ hp.state) ?_ ?_
  · rintro ⟨σ, past⟩ ⟨hσ, rfl⟩
    exact hinit σ hσ
  · rintro ⟨σ, past⟩ ⟨σ', past'⟩ hσ hR ⟨hs, hpast⟩
    simp only at hpast
    subst hpast
    exact hstep σ σ' past hσ hR hs

end Ambix.Lib.TSys
