import Mathlib.Data.Finset.Card

/-!
# Objects that go from place to place

How many of finitely many objects are at the places of a class, and what a move does to that
number when all that it moves leaves the class, or comes into it.
-/

namespace Ambix.Lib

variable {ι ν α : Type*} [DecidableEq ν]

/-- How many of the objects are at a place of a class. -/
def census (objects : Finset ι) (A : ν → Bool) (place : ι → ν) : Nat :=
  (objects.filter fun x => A (place x) = true).card

/-- The objects that are at another place than before. -/
def moved (objects : Finset ι) (place place' : ι → ν) : Finset ι :=
  objects.filter fun x => place' x ≠ place x

section

variable {objects : Finset ι} {A : ν → Bool} {place place' : ι → ν}

end

end Ambix.Lib
