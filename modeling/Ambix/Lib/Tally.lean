import Mathlib.Algebra.BigOperators.Group.List.Basic
import Mathlib.Algebra.Order.Field.Basic
import Mathlib.Algebra.Order.Ring.Abs
import Mathlib.Data.Nat.ModEq
import Mathlib.Tactic.Linarith

/-!
# Tallies of whole units

A counter to which each step of a loop adds, modulo the size of its word. What is added are
whole units, rounded down one amount at a time, and the rests are lost: the tally drifts from
the amounts by exactly what is lost.
-/

namespace Ambix.Lib

/-! ## Loops that add -/

section

variable {σ ι ρ : Type*} {M : Nat} {tally : σ → Nat} {step : σ → ι → σ} {items : ι → List ρ}
  {add : ρ → Nat}

/-- **A loop adds what its steps add**: each input has a list of items. -/
theorem foldl_tally
    (h : ∀ s x, tally (step s x) ≡ tally s + ((items x).map add).sum [MOD M]) (s : σ)
    (xs : List ι) :
    tally (xs.foldl step s) ≡ tally s + ((xs.flatMap items).map add).sum [MOD M] := by
  induction xs generalizing s with
  | nil => exact Nat.ModEq.refl _
  | cons x xs ih =>
    rw [List.foldl_cons, List.flatMap_cons, List.map_append, List.sum_append, ← Nat.add_assoc]
    exact (ih (step s x)).trans ((h s x).add_right _)

end

section

variable {σ ι ρ K : Type*} [AddMonoid K] {step : σ → ι → σ} {items : ι → List ρ} {add : ρ → K}
  {R : σ → K → Prop}

/-- **A loop adds what its steps add**, to a value that the state need not have. -/
theorem foldl_adds (h : ∀ s b x, R s b → R (step s x) (b + ((items x).map add).sum)) {s : σ}
    {b : K} (hs : R s b) (xs : List ι) :
    R (xs.foldl step s) (b + ((xs.flatMap items).map add).sum) := by
  induction xs generalizing s b with
  | nil =>
    rw [List.flatMap_nil, List.map_nil, List.sum_nil, add_zero]
    exact hs
  | cons x xs ih =>
    rw [List.foldl_cons, List.flatMap_cons, List.map_append, List.sum_append, ← add_assoc]
    exact ih (h s b x hs)

end

/-! ## Whole units and what is lost -/

section

variable {ρ : Type*} {unit : Nat} {whole lost amount : ρ → Nat}

/-- What is taken in whole units and what is lost make up the amounts. -/
theorem sum_whole_lost {xs : List ρ} (h : ∀ x ∈ xs, unit * whole x + lost x = amount x) :
    unit * (xs.map whole).sum + (xs.map lost).sum = (xs.map amount).sum := by
  induction xs with
  | nil => rfl
  | cons x xs ih =>
    have hx := h x List.mem_cons_self
    have hxs := ih fun y hy => h y (List.mem_cons_of_mem _ hy)
    simp only [List.map_cons, List.sum_cons, Nat.mul_add]
    omega

end

section

variable {ρ : Type*} {part amount : ρ → Nat}

theorem sum_le (xs : List ρ) (hle : ∀ x, part x ≤ amount x) :
    (xs.map part).sum ≤ (xs.map amount).sum := by
  induction xs with
  | nil => exact Nat.le_refl _
  | cons x xs ih => exact Nat.add_le_add (hle x) ih

/-- **The parts add up to the amounts** exactly when every part is the whole amount. -/
theorem sum_eq_iff {xs : List ρ} (hle : ∀ x, part x ≤ amount x) :
    (xs.map part).sum = (xs.map amount).sum ↔ ∀ x ∈ xs, part x = amount x := by
  induction xs with
  | nil => simp
  | cons x xs ih =>
    have hx := hle x
    have hxs := sum_le xs hle
    rw [List.forall_mem_cons, ← ih]
    simp only [List.map_cons, List.sum_cons]
    omega

end

section

variable {K : Type*} [Field K] [LinearOrder K] [IsStrictOrderedRing K]
  {unit whole lost amount : Nat}

/-- The drift is what is lost. -/
theorem drift_eq (hunit : 0 < unit) (h : unit * whole + lost = amount) :
    (amount : K) / unit - whole = lost / unit := by
  have hne : (unit : K) ≠ 0 := Nat.cast_ne_zero.mpr hunit.ne'
  rw [← h, Nat.cast_add, Nat.cast_mul, add_div, mul_div_cancel_left₀ _ hne, add_sub_cancel_left]

/-- **The drift is less than a unit** if less than a unit is lost. -/
theorem abs_drift_lt_one_iff (hunit : 0 < unit) (h : unit * whole + lost = amount) :
    |(whole : K) - amount / unit| < 1 ↔ lost < unit := by
  have hpos : (0 : K) < unit := Nat.cast_pos.mpr hunit
  have hnonneg : (0 : K) ≤ lost / unit := div_nonneg (Nat.cast_nonneg _) hpos.le
  rw [abs_sub_comm, drift_eq hunit h, abs_of_nonneg hnonneg, div_lt_one hpos, Nat.cast_lt]

end

end Ambix.Lib
