import Mathlib.Data.List.Perm.Subperm

/-!
# Budgets

A computation that logs what it touches stays within a budget when what it adds to the log is
part of a given list, each item as often as the list has it, in any order.
-/

namespace Ambix.Lib

variable {σ κ : Type*} {log : σ → List κ} {s s' s'' : σ} {b b' : List κ}

/-- What is logged between `s` and `s'` is part of the budget. -/
def Spends (log : σ → List κ) (b : List κ) (s s' : σ) : Prop :=
  ∃ w, log s' = w ++ log s ∧ w.Subperm b

namespace Spends

theorem refl (log : σ → List κ) (s : σ) : Spends log [] s s := ⟨[], rfl, .refl _⟩

/-- Steps that log nothing cost nothing. -/
theorem silent (h : log s' = log s) : Spends log [] s s' := ⟨[], h, .refl _⟩

theorem mono (h : Spends log b s s') (hle : b.Subperm b') : Spends log b' s s' := by
  obtain ⟨w, hlog, hw⟩ := h
  exact ⟨w, hlog, hw.trans hle⟩

/-- **Budgets add up.** -/
theorem trans (h : Spends log b s s') (h' : Spends log b' s' s'') : Spends log (b ++ b') s s'' := by
  obtain ⟨w, hlog, hw⟩ := h
  obtain ⟨w', hlog', hw'⟩ := h'
  refine ⟨w' ++ w, by rw [hlog', hlog, List.append_assoc], ?_⟩
  exact (hw'.append hw).trans List.perm_append_comm.subperm

/-- A step that logs nothing, before or after. -/
theorem after (h : Spends log b s s') (hlog : log s'' = log s') : Spends log b s s'' :=
  List.append_nil b ▸ h.trans (silent hlog)

theorem before (hlog : log s' = log s) (h : Spends log b s' s'') : Spends log b s s'' :=
  (silent hlog).trans h

theorem left (h : Spends log b s s') : Spends log (b ++ b') s s' :=
  h.mono (List.sublist_append_left ..).subperm

/-- From an empty log, the log itself is part of the budget. -/
theorem subperm (h : Spends log b s s') (hempty : log s = []) : (log s').Subperm b := by
  obtain ⟨w, hlog, hw⟩ := h
  rwa [hlog, hempty, List.append_nil]

end Spends

end Ambix.Lib
