import Ambix.Lib.TSys

/-!
# Threads over shared state

Every step belongs to one thread or to the environment. An outline gives each thread an
assertion, over the whole state, and one more for what is shared. It is enough that a
thread's own step establishes its assertion and that no step interferes with the
assertion of another thread.
-/

namespace Ambix.Lib

/-- Threads that take their steps in any order. -/
structure Threads (Tid State : Type*) where
  init : State → Prop
  act : Tid → State → State → Prop
  env : State → State → Prop

namespace Threads

variable {Tid State : Type*} (S : Threads Tid State)

/-- All interleavings. -/
def toTSys : TSys State where
  init := S.init
  step w w' := S.env w w' ∨ ∃ t, S.act t w w'

/-- Assertions `A` of the threads and `G` of what they share. -/
structure Outline (A : Tid → State → Prop) (G : State → Prop) : Prop where
  init : ∀ w, S.init w → (∀ t, A t w) ∧ G w
  env : ∀ w w', (∀ t, A t w) → G w → S.env w w' → (∀ t, A t w') ∧ G w'
  own : ∀ t w w', (∀ u, A u w) → G w → S.act t w w' → A t w'
  others : ∀ t u w w', u ≠ t → (∀ u, A u w) → G w → S.act t w w' → A u w'
  shared : ∀ t w w', (∀ u, A u w) → G w → S.act t w w' → G w'

variable {S}

/-- **The rule of outlines.** The assertions hold in every state of every interleaving. -/
theorem Outline.invariant {A : Tid → State → Prop} {G : State → Prop} (h : S.Outline A G) :
    S.toTSys.Invariant fun w => (∀ t, A t w) ∧ G w := by
  apply TSys.Inductive.invariant
  refine ⟨h.init, ?_⟩
  rintro w w' ⟨hA, hG⟩ (henv | ⟨t, hact⟩)
  · exact h.env w w' hA hG henv
  · refine ⟨fun u => ?_, h.shared t w w' hA hG hact⟩
    by_cases hu : u = t
    · exact hu ▸ h.own t w w' hA hG hact
    · exact h.others t u w w' hu hA hG hact

end Threads
end Ambix.Lib
