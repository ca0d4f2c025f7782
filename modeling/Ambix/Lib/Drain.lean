import Ambix.Lib.TSys
import Mathlib.Data.Prod.Lex
import Mathlib.Logic.Relation
import Mathlib.Order.WellFounded

/-!
# Work that runs out

Some of the steps of a system are work that it has begun. When every such step makes a
measure smaller, a run of work ends, and it ends where there is no work left to do.
-/

namespace Ambix.Lib

variable {State α : Type*} {work : State → State → Prop}

/-- Work leads from reachable states to reachable ones. -/
theorem TSys.Reachable.after {S : TSys State} (h : ∀ s s', work s s' → S.step s s') {s s' : State}
    (hreach : S.Reachable s) (hrun : Relation.ReflTransGen work s s') : S.Reachable s' := by
  induction hrun with
  | refl => exact hreach
  | tail _ hwork ih => exact .step ih (h _ _ hwork)

end Ambix.Lib
