import Ambix.Logic.Invariant
import Ambix.Logic.SwitchWalk

/-!
# How many pages a mode takes

Counted over the pages of the registry, each once, and over the visits of a walk
with no quota, where the page at the hand counts twice.
-/

namespace Ambix.Hyb

open Ambix.Lib Ambix.Lib.QuotaScan

/-- How many pages of the registry a mode selects at once, and how many it puts
aside, each page counted once. -/
def Sys.nPrimary {P : Platform} (π : Policy P) (σ : Sys) : Nat :=
  (primaries π.classOf σ.pages).length

def Sys.nEligible {P : Platform} (π : Policy P) (σ : Sys) : Nat :=
  (backups π.classOf σ.pages).length

section

variable {P : Platform} {σ : Sys} (π : Policy P)

theorem Sys.length_primaries_round (h : Registered σ) (hpos : 0 < σ.mod.nPids) :
    (primaries π.classOf (σ.round π.tier)).length = σ.nPrimary π :=
  ((Sys.round_perm (h.lastPid_lt hpos π.tier)).filter _).length_eq

theorem Sys.length_backups_round (h : Registered σ) (hpos : 0 < σ.mod.nPids) :
    (backups π.classOf (σ.round π.tier)).length = σ.nEligible π :=
  ((Sys.round_perm (h.lastPid_lt hpos π.tier)).filter _).length_eq

/-- Pages with the same number and address are the same. -/
theorem Sys.round_inj (h : Registered σ) (hpos : 0 < σ.mod.nPids) {x y : Exam}
    (hx : x ∈ σ.round π.tier) (hy : y ∈ σ.round π.tier) (heq : x.info = y.info) : x = y :=
  List.inj_on_of_nodup_map (Sys.round_nodup h.distinct (h.lastPid_lt hpos π.tier)) hx hy heq

/-- How many of the visits a mode selects at once, and how many it puts aside: the
page at the hand counts twice. -/
def Sys.visitsPrimary (σ : Sys) : Nat := (primaries π.classOf (tierVisits π σ)).length

def Sys.visitsEligible (σ : Sys) : Nat := (backups π.classOf (tierVisits π σ)).length

theorem switchCount_eq (P : Platform) (n : Nat) (σ : Sys) :
    switchCount P n σ = pairCount n (σ.visitsPrimary (nvramSwitchPolicy P))
      (σ.visitsEligible (nvramSwitchPolicy P)) (σ.visitsPrimary (memPolicy P))
      (σ.visitsEligible (memPolicy P)) := rfl

/-- What the second visit of the page at the hand adds to the counts. -/
theorem Sys.visits_counts (h : Registered σ) (hpos : 0 < σ.mod.nPids) {x : Exam}
    (hx : x ∈ σ.handPage π.tier) :
    (π.classOf (x.again π) = .primary → σ.visitsPrimary π = σ.nPrimary π + 1 ∧
        σ.visitsEligible π = σ.nEligible π) ∧
      (π.classOf (x.again π) = .backup → σ.visitsPrimary π = σ.nPrimary π ∧
        σ.visitsEligible π = σ.nEligible π + 1) := by
  have hlast := h.lastPid_lt hpos π.tier
  have hone : σ.handPage π.tier = [x] := by
    rcases Sys.handPage_cases (σ := σ) π.tier with hnone | ⟨y, hy, _⟩
    · rw [hnone] at hx
      simp at hx
    · rw [hy, List.mem_singleton] at hx
      rw [hy, hx]
  rw [visitsPrimary, visitsEligible, tierVisits_eq π h.distinct hlast, hone,
    ← Sys.length_primaries_round π h hpos, ← Sys.length_backups_round π h hpos]
  constructor
  · intro hv
    simp [primaries_singleton, backups_singleton, hv]
  · intro hv
    simp [primaries_singleton, backups_singleton, hv]

end

end Ambix.Hyb
