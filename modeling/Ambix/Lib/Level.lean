import Mathlib.Algebra.Order.Field.Basic
import Mathlib.Algebra.Order.Floor.Ring
import Mathlib.Tactic.Linarith

/-!
# Levels and whole pieces

How full containers are when an amount is moved between them: a bound on a level is a bound
on the amount. An amount is moved in whole pieces.
-/

namespace Ambix.Lib

section

variable {K : Type*} [Field K]

/-- How full a container of this size is. -/
def level (size used : K) : K := used / size

theorem level_sub (size used x : K) : level size (used - x) = level size used - x / size := by
  unfold level
  rw [sub_div]

theorem level_add (size used x : K) : level size (used + x) = level size used + x / size := by
  unfold level
  rw [add_div]

variable {size used limit x : K}

/-- What is above a limit, as an amount. -/
theorem above_eq (h : size ≠ 0) (used limit : K) :
    (level size used - limit) * size = used - limit * size := by
  rw [level, sub_mul, div_mul_cancel₀ _ h]

/-- The room below a limit, as an amount. -/
theorem below_eq (h : size ≠ 0) (used limit : K) :
    (limit - level size used) * size = limit * size - used := by
  rw [level, sub_mul, div_mul_cancel₀ _ h]

variable [LinearOrder K] [IsStrictOrderedRing K]

/-- The level stays over a limit as long as no more leaves than there is above it. -/
theorem le_level_sub (h : 0 < size) :
    limit ≤ level size (used - x) ↔ x ≤ (level size used - limit) * size := by
  rw [level_sub, ← div_le_iff₀ h]
  constructor <;> intro hle <;> linarith

/-- The level stays under a limit as long as no more comes in than there is room for. -/
theorem level_add_le (h : 0 < size) :
    level size (used + x) ≤ limit ↔ x ≤ (limit - level size used) * size := by
  rw [level_add, ← div_le_iff₀ h]
  constructor <;> intro hle <;> linarith

end

/-! ## Whole pieces -/

section

variable {K : Type*} [Field K] [LinearOrder K] [FloorRing K]

/-- The integer part, towards zero. -/
def trunc (x : K) : Int := if 0 ≤ x then ⌊x⌋ else ⌈x⌉

/-- How many whole pieces an amount has. -/
def pieces (piece : Int) (x : K) : Int := (trunc x).tdiv piece

variable {piece : Int} {x : K}

theorem trunc_of_nonneg (h : 0 ≤ x) : trunc x = ⌊x⌋ := if_pos h

theorem trunc_nonneg (h : 0 ≤ x) : 0 ≤ trunc x := by
  rw [trunc_of_nonneg h]
  exact Int.floor_nonneg.mpr h

theorem pieces_of_nonneg (h : 0 ≤ x) : pieces piece x = ⌊x⌋ / piece := by
  rw [pieces, trunc_of_nonneg h]
  exact Int.tdiv_eq_ediv_of_nonneg (Int.floor_nonneg.mpr h)

theorem trunc_neg [IsStrictOrderedRing K] (x : K) : trunc (-x) = -trunc x := by
  unfold trunc
  rcases lt_trichotomy x 0 with hneg | rfl | hpos
  · rw [if_pos (by linarith), if_neg (by linarith), Int.floor_neg]
  · simp
  · rw [if_neg (by linarith), if_pos hpos.le, Int.ceil_neg]

theorem pieces_neg [IsStrictOrderedRing K] (x : K) : pieces piece (-x) = -pieces piece x := by
  rw [pieces, trunc_neg, Int.neg_tdiv, pieces]

theorem pieces_nonneg (h : 0 ≤ x) (hpiece : 0 ≤ piece) : 0 ≤ pieces piece x :=
  Int.tdiv_nonneg (trunc_nonneg h) hpiece

/-- Less than `n` pieces' worth is less than `n` pieces. -/
theorem pieces_lt {n : Int} (h : 0 ≤ x) (hpiece : 0 < piece) (hlt : x < (n * piece : Int)) :
    pieces piece x < n := by
  rw [pieces_of_nonneg h]
  exact Int.ediv_lt_of_lt_mul hpiece (Int.floor_lt.mpr hlt)

/-- At least `n` pieces' worth is at least `n` pieces. -/
theorem le_pieces {n : Int} (h : 0 ≤ x) (hpiece : 0 < piece) (hle : (n * piece : Int) ≤ x) :
    n ≤ pieces piece x := by
  rw [pieces_of_nonneg h]
  exact Int.le_ediv_of_mul_le hpiece (Int.le_floor.mpr hle)

variable [IsStrictOrderedRing K]

/-- The whole pieces do not exceed the amount. -/
theorem pieces_mul_le (h : 0 ≤ x) (hpiece : 0 < piece) :
    ((pieces piece x * piece : Int) : K) ≤ x := by
  rw [pieces_of_nonneg h]
  have hle : ⌊x⌋ / piece * piece ≤ ⌊x⌋ := Int.ediv_mul_le _ hpiece.ne'
  calc ((⌊x⌋ / piece * piece : Int) : K) ≤ (⌊x⌋ : K) := Int.cast_le.mpr hle
    _ ≤ x := Int.floor_le x

end

end Ambix.Lib
