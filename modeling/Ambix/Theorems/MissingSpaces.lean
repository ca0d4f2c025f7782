import Ambix.Logic.MixMInvariant
import Ambix.Theorems.ReplyGrammar

/-!
# Processes that have exited and are not reaped

`refresh_pids` keeps them listed, with a `NULL` `mm`. In the hyb module `do_page_walk` skips
them and `clear_walk` does not; in the MixM module neither does. A request comes back
exactly when its walks come to no such process.
-/

namespace Ambix.Hyb

section

variable {P : Platform} {σ : Sys} {req : Req}

/-- Only an `NVRAM_CLEAR` faults. -/
theorem find_replied_iff :
    (processReq P (some req) σ).Replied ↔ ¬ClearsMissing req σ.refreshed := by
  by_cases hclear : IsFind req .nvramClear ∧ 0 < σ.refreshed.mod.nPids
  · obtain ⟨hreq, hpos⟩ := hclear
    rw [clear_replied_iff hreq hpos]
    unfold ClearsMissing
    simp only [hreq, true_and, not_exists, not_and]
    rfl
  · -- every other request comes back: `do_page_walk` tests `mm`
    have hnot : ¬ClearsMissing req σ.refreshed := by
      rintro ⟨hreq, t, ht, -⟩
      refine hclear ⟨hreq, ?_⟩
      rw [← Mod.length_tasks]
      exact List.length_pos_of_mem ht
    refine iff_of_true (replied_iff_back.mpr ?_) hnot
    cases hop : OpCode.ofCode req.opCode with
    | none => simp only [processBody, hop]
    | some op =>
      cases op with
      | bind => simp only [processBody, hop]
      | unbind => simp only [processBody, hop]
      | find =>
        rw [processReq_find hop]
        by_cases hpos : 0 < σ.refreshed.mod.nPids
        · cases hmode : FindMode.ofCode req.mode with
          | none => rw [processFind_default hmode]
          | some mode =>
            rcases memWalkPolicy_cases P mode with ⟨π, hπ⟩ | rfl | rfl
            · rw [processFind_plain hπ hmode hpos]
            · rw [processFind_switch hmode hpos]
            · exact absurd ⟨⟨hop, hmode⟩, hpos⟩ hclear
        · rw [processFind_empty req hpos]

end

end Ambix.Hyb

namespace Ambix.MixM

open Ambix.Lib Ambix.Hyb

/-- The tier whose hand a plain mode starts from. -/
def walkedTier : FindMode → Tier
  | .dram => .dram
  | _ => .nvram

/-- The walks of a FIND come to a process whose `mm` is `NULL`. -/
def MeetsMissing (P : Platform) (req : Req) (σ : Sys) : Prop :=
  OpCode.ofCode req.opCode = some .find ∧ 0 < σ.mod.nPids ∧
    match FindMode.ofCode req.mode with
    | none => False
    | some .nvramClear => ∃ t ∈ σ.mod.tasks, σ.mm t = none
    | some .switch =>
      WalkMeets P .switch .nvram (intMin maxNSwitch req.pidN.toInt) σ ∨
        (PairsSome P (intMin maxNSwitch req.pidN.toInt) σ ∧
          WalkMeets P .dram .dram (intMin maxNSwitch req.pidN.toInt) σ)
    | some mode => WalkMeets P mode (walkedTier mode) (intMin maxNFind req.pidN.toInt) σ

section

variable {P : Platform} {s : State} {req : Req}

/-- The FIND of a list that is not empty. -/
theorem processFind_faults_iff (h : Listed s.sys) (hfound : s.sys.mod.nFound = 0)
    (hop : OpCode.ofCode req.opCode = some .find) :
    Faults (processFind P req s) ↔ MeetsMissing P req s.sys := by
  unfold processFind MeetsMissing
  by_cases hpos : 0 < s.sys.mod.nPids
  · have hlast := h.lastPid_lt hpos
    have hplain (mode : FindMode) (hops : (memWalkOps P mode).isSome) :
        Faults (memWalk P (intMin maxNFind req.pidN.toInt) mode s) ↔
          WalkMeets P mode (walkedTier mode) (intMin maxNFind req.pidN.toInt) s.sys := by
      obtain ⟨⟨cb, tier⟩, hops⟩ := Option.isSome_iff_exists.mp hops
      rw [memWalk_faults_iff hops h.anchored (hlast tier) hfound]
      have htier : walkedTier mode = tier := by
        cases mode <;> simp only [memWalkOps, Option.some.injEq, Prod.mk.injEq, reduceCtorEq] at hops
          <;> exact hops.2
      rw [htier]
    rw [if_pos hpos]
    simp only [hop, hpos, true_and]
    cases FindMode.ofCode req.mode with
    | none => exact iff_of_false (not_faults_ok _) id
    | some mode =>
      cases mode with
      | nvramClear =>
        -- no count stops `clear_walk`
        simp only [faults_map]
        refine (clearTasks_faults_iff _).trans ?_
        simp only [List.mem_range, Mod.mem_tasks]
        constructor
        · rintro ⟨i, hi, hmm⟩
          exact ⟨_, ⟨i, hi, rfl⟩, hmm⟩
        · rintro ⟨_, ⟨i, hi, rfl⟩, hmm⟩
          exact ⟨i, hi, hmm⟩
      | switch =>
        refine switchWalk_faults_iff h.anchored hlast hfound ?_
        have hlow : -2147483648 ≤ req.pidN.toInt := Int32.le_toInt req.pidN
        rw [intMin_eq_min]
        omega
      | dram => exact hplain .dram rfl
      | nvram => exact hplain .nvram rfl
      | nvramIntensive => exact hplain .nvramIntensive rfl
      | nvramWrite => exact hplain .nvramWrite rfl
  · rw [if_neg hpos]
    exact iff_of_false (not_faults_ok _) fun hc => hpos hc.2.1

/-- A request that does not walk comes back. -/
theorem processReq_faults_iff (h : Listed s.sys) :
    Faults (processReq P (some req) s) ↔ MeetsMissing P req s.sys.refreshed := by
  unfold processReq
  rw [faults_map]
  cases hop : OpCode.ofCode req.opCode with
  | none =>
    simp only [processBody, hop]
    refine iff_of_false (not_faults_ok _) fun hc => ?_
    rw [MeetsMissing, hop] at hc
    simp at hc
  | some op =>
    cases op with
    | find =>
      simp only [processBody, hop]
      have hrefresh : Listed s.refreshed.sys := by
        rw [refreshed_sys]
        exact Listed.refreshed h
      have hfound : s.refreshed.sys.mod.nFound = 0 := by
        rw [refreshed_sys]
        exact Sys.refreshed_nFound s.sys
      rw [← refreshed_sys]
      exact processFind_faults_iff hrefresh hfound hop
    | bind =>
      simp only [processBody, hop]
      refine iff_of_false (not_faults_ok _) fun hc => ?_
      rw [MeetsMissing, hop] at hc
      simp at hc
    | unbind =>
      simp only [processBody, hop]
      refine iff_of_false (not_faults_ok _) fun hc => ?_
      rw [MeetsMissing, hop] at hc
      simp at hc

end

/-- **No missing address space is walked**, in either module, exactly when the walks of the
request come to none. -/
theorem find_locks_present_iff (P : Platform) :
    (∀ σ, (hyb P).Reachable σ → ∀ req,
      ((Hyb.processReq P (some req) σ).Replied ↔ ¬ClearsMissing req σ.refreshed)) ∧
    ∀ s, (mixm P).Reachable s → ∀ req,
      ((∃ s', processReq P (some req) s = .ok s') ↔ ¬MeetsMissing P req s.sys.refreshed) := by
  refine ⟨fun σ _ req => find_replied_iff, fun s hreach req => ?_⟩
  rw [← not_faults_iff, processReq_faults_iff (listed_invariant P s hreach)]

/-! ## A bound process that has exited -/

/-- The same machine and the same BIND as `exitedProcess`. -/
def exitedTask : State :=
  leaves (processReq smallMachine (some (.of .bind 1 .dram)) ⟨Sys.fresh [none], []⟩)

theorem exitedTask_reachable : (mixm smallMachine).Reachable exitedTask :=
  .step (.init ⟨⟨_, _, _, _, _, rfl⟩, rfl⟩) (.inr ⟨_, rfl⟩)

theorem clear_locks_missing :
    (hyb smallMachine).Reachable exitedProcess ∧ (mixm smallMachine).Reachable exitedTask ∧
      ¬(Hyb.processReq smallMachine (some (.of .find 0 .nvramClear)) exitedProcess).Replied ∧
      ¬∃ s', processReq smallMachine (some (.of .find 1 .dram)) exitedTask = .ok s' := by
  refine ⟨Sys.fresh_reachable _ _ _, exitedTask_reachable, ?_, ?_⟩
  · rw [find_replied_iff, not_not]
    exact ⟨⟨rfl, rfl⟩, 1, by decide, rfl⟩
  · rw [← not_faults_iff, not_not,
      processReq_faults_iff (listed_invariant _ _ exitedTask_reachable)]
    refine ⟨rfl, by decide, 0, ⟨0, 0, maxAddress⟩, rfl, rfl, .inl rfl⟩

theorem find_locks_present_iff_exitedTask :
    (Hyb.processReq smallMachine (some (.of .find 3 .switch)) exitedProcess).Replied ∧
      ¬∃ s', processReq smallMachine (some (.of .find 0 .nvramClear)) exitedTask = .ok s' := by
  obtain ⟨hhyb, hmixm⟩ := find_locks_present_iff smallMachine
  constructor
  · refine (hhyb exitedProcess (Sys.fresh_reachable _ _ _) (.of .find 3 .switch)).mpr ?_
    rintro ⟨hreq, -⟩
    exact absurd hreq.mode (by decide)
  · rw [hmixm exitedTask exitedTask_reachable, not_not]
    exact ⟨rfl, by decide, 1, by decide, rfl⟩

end Ambix.MixM
