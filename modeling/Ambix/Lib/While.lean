import Mathlib.Tactic.TypeStar

/-!
# Loops with a bound on their rounds

`while go do step`, for a number of rounds at most: an invariant rule, a rule for two loops
that go in step, a rule for a measure, and that rounds which are not needed change nothing.
-/

namespace Ambix.Lib

section

variable {σ τ : Type*} (go : σ → Prop) [DecidablePred go] (step : σ → σ)

/-- The state after so many rounds, or when the loop is over. -/
def repeatWhile : Nat → σ → σ
  | 0, s => s
  | rounds + 1, s => if go s then repeatWhile rounds (step s) else s

variable {go step}

theorem repeatWhile_of_not {s : σ} (h : ¬ go s) (rounds : Nat) :
    repeatWhile go step rounds s = s := by
  cases rounds with
  | zero => rfl
  | succ rounds => exact if_neg h

/-- Rounds after the end are not taken. -/
theorem repeatWhile_more {rounds : Nat} {s : σ} (h : ¬ go (repeatWhile go step rounds s))
    (more : Nat) : repeatWhile go step (rounds + more) s = repeatWhile go step rounds s := by
  induction rounds generalizing s with
  | zero => exact repeatWhile_of_not h _
  | succ rounds ih =>
    rw [Nat.succ_add]
    unfold repeatWhile at h ⊢
    split
    · rename_i hgo
      rw [if_pos hgo] at h
      exact ih h
    · rfl

/-- What a round keeps, the loop keeps. -/
theorem repeatWhile_inv {I : σ → Prop} (hstep : ∀ s, I s → go s → I (step s)) (rounds : Nat)
    {s : σ} (h : I s) : I (repeatWhile go step rounds s) := by
  induction rounds generalizing s with
  | zero => exact h
  | succ rounds ih =>
    unfold repeatWhile
    split
    · rename_i hgo
      exact ih (hstep s h hgo)
    · exact h

/-- Two loops whose rounds keep a relation, under which both or none goes on. -/
theorem repeatWhile_rel {go' : τ → Prop} [DecidablePred go'] {step' : τ → τ} {R : σ → τ → Prop}
    (hgo : ∀ s t, R s t → (go s ↔ go' t)) (hstep : ∀ s t, R s t → R (step s) (step' t))
    (rounds : Nat) {s : σ} {t : τ} (h : R s t) :
    R (repeatWhile go step rounds s) (repeatWhile go' step' rounds t) := by
  induction rounds generalizing s t with
  | zero => exact h
  | succ rounds ih =>
    unfold repeatWhile
    by_cases hs : go s
    · rw [if_pos hs, if_pos ((hgo s t h).mp hs)]
      exact ih (hstep s t h)
    · rw [if_neg hs, if_neg fun ht => hs ((hgo s t h).mpr ht)]
      exact h

/-- A bounded measure that every round but the last one raises. -/
theorem repeatWhile_stops {I : σ → Prop} (m : σ → Nat) (bound : Nat)
    (hinv : ∀ s, I s → go s → I (step s)) (hbound : ∀ s, I s → go s → m s < bound)
    (hgrow : ∀ s, I s → go s → m s < m (step s) ∨ ¬ go (step s)) {rounds : Nat} {s : σ} (h : I s)
    (henough : bound ≤ rounds + m s) : ¬ go (repeatWhile go step rounds s) := by
  induction rounds generalizing s with
  | zero =>
    intro hgo
    have hlt := hbound s h hgo
    omega
  | succ rounds ih =>
    unfold repeatWhile
    split
    · rename_i hgo
      rcases hgrow s h hgo with hlt | hstop
      · exact ih (hinv s h hgo) (by omega)
      · rw [repeatWhile_of_not hstop]
        exact hstop
    · rename_i hstop
      exact hstop

end

end Ambix.Lib
