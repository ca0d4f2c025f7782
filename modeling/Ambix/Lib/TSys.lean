import Mathlib.Tactic.TypeStar

/-!
# Transition systems

States, initial states and a step relation; reachability, invariants and the
one induction that every safety result of the development goes through.
-/

namespace Ambix.Lib

/-- A transition system over `State`. -/
structure TSys (State : Type*) where
  init : State → Prop
  step : State → State → Prop

namespace TSys

variable {State : Type*} (S : TSys State)

/-- The states reached from an initial one by finitely many steps. -/
inductive Reachable : State → Prop
  | init {σ : State} : S.init σ → Reachable σ
  | step {σ σ' : State} : Reachable σ → S.step σ σ' → Reachable σ'

/-- `P` holds in every reachable state. -/
def Invariant (P : State → Prop) : Prop := ∀ σ, S.Reachable σ → P σ

/-- `P` holds initially and every step preserves it. -/
structure Inductive (P : State → Prop) : Prop where
  init : ∀ σ, S.init σ → P σ
  step : ∀ σ σ', P σ → S.step σ σ' → P σ'

variable {S}

/-- An inductive property is an invariant. -/
theorem Inductive.invariant {P : State → Prop} (h : S.Inductive P) :
    S.Invariant P := by
  intro σ hreach
  induction hreach with
  | init hinit => exact h.init _ hinit
  | step _ hstep ih => exact h.step _ _ ih hstep

/-- Preservation may assume an invariant that is already established. -/
theorem Invariant.strengthen {P Q : State → Prop} (hQ : S.Invariant Q)
    (hinit : ∀ σ, S.init σ → P σ)
    (hstep : ∀ σ σ', Q σ → P σ → S.step σ σ' → P σ') : S.Invariant P := by
  intro σ hreach
  induction hreach with
  | init h => exact hinit _ h
  | step hprev h ih => exact hstep _ _ (hQ _ hprev) ih h

/-- A system with fewer initial states and fewer steps reaches less. -/
theorem Reachable.mono {T : TSys State} {σ : State} (h : S.Reachable σ)
    (hinit : ∀ σ, S.init σ → T.init σ)
    (hstep : ∀ σ σ', S.step σ σ' → T.step σ σ') : T.Reachable σ := by
  induction h with
  | init hi => exact .init (hinit _ hi)
  | step _ hs ih => exact .step ih (hstep _ _ hs)

end TSys
end Ambix.Lib
