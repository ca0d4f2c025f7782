import Mathlib.Tactic.TypeStar

/-!
# Computations that may fault

`Except ε` as a computation that ends in a fault: when a sequence of two faults, when it
comes back, and a rule for what holds however it ends.
-/

namespace Ambix.Lib

section

variable {ε : Type*} {α β : Type*} {x : Except ε α} {f : α → Except ε β}

/-- The computation does not come back. -/
def Faults (x : Except ε α) : Prop := ∃ e, x = .error e

@[simp] theorem faults_error (e : ε) : Faults (.error e : Except ε α) := ⟨e, rfl⟩

@[simp] theorem not_faults_ok (a : α) : ¬Faults (.ok a : Except ε α) := by
  rintro ⟨e, h⟩
  simp at h

theorem not_faults_iff : ¬Faults x ↔ ∃ a, x = .ok a := by
  cases x with
  | error e => simp
  | ok a => simp

@[simp] theorem ok_bind (a : α) : ((.ok a : Except ε α).bind f) = f a := rfl

@[simp] theorem error_bind (e : ε) : ((.error e : Except ε α).bind f) = .error e := rfl

theorem bind_eq_ok {b : β} : x.bind f = .ok b ↔ ∃ a, x = .ok a ∧ f a = .ok b := by
  cases x with
  | error e => simp
  | ok a => simp

theorem map_eq_ok {g : α → β} {b : β} : x.map g = .ok b ↔ ∃ a, x = .ok a ∧ g a = b := by
  cases x with
  | error e => simp [Except.map]
  | ok a => simp [Except.map]

theorem faults_bind : Faults (x.bind f) ↔ Faults x ∨ ∃ a, x = .ok a ∧ Faults (f a) := by
  cases x with
  | error e => simp
  | ok a => simp

@[simp] theorem faults_map {g : α → β} : Faults (x.map g) ↔ Faults x := by
  cases x with
  | error e => simp [Except.map]
  | ok a => simp [Except.map]

/-- However the computation ends, its postcondition holds: `E` of a fault, `Q` of a
result. -/
def Ends (E : ε → Prop) (Q : α → Prop) : Except ε α → Prop
  | .error e => E e
  | .ok a => Q a

theorem Ends.bind {E : ε → Prop} {Q : α → Prop} {R : β → Prop} (h : Ends E Q x)
    (hf : ∀ a, Q a → Ends E R (f a)) : Ends E R (x.bind f) := by
  cases x with
  | error e => exact h
  | ok a => exact hf a h

theorem Ends.mono {E E' : ε → Prop} {Q Q' : α → Prop} (h : Ends E Q x) (hE : ∀ e, E e → E' e)
    (hQ : ∀ a, Q a → Q' a) : Ends E' Q' x := by
  cases x with
  | error e => exact hE e h
  | ok a => exact hQ a h

theorem Ends.map {E : ε → Prop} {Q : α → Prop} {R : β → Prop} (h : Ends E Q x) {g : α → β}
    (hg : ∀ a, Q a → R (g a)) : Ends E R (x.map g) := by
  cases x with
  | error e => exact h
  | ok a => exact hg a h

end

end Ambix.Lib
