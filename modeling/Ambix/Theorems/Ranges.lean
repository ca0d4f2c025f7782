import Ambix.Hyb.Machine
import Ambix.Logic.HandOwner
import Ambix.Logic.References
import Ambix.Logic.Tables

/-!
# Counters and indices in range

A FIND with a non-negative count keeps every index inside its array, `n_found` below the
quota, the quota below `MAX_N_FIND`, and each backup counter a walk fills below the
capacity of its array. Two things may still be found out of range, and neither is used
then: the backup counter the walk does not fill, and all counters in `clear_walk`. They
hold what an earlier request left, which is in range in every run that has not written
outside an array.
-/

namespace Ambix.Hyb

open Ambix.Lib Ambix.Lib.QuotaScan

section

variable {P : Platform} {σ : Sys} {req : Req}

theorem SameWork.nSpare {m m' : Mod} (h : SameWork m m') (s : Spare) :
    m'.nSpare s = m.nSpare s := by
  cases s
  · exact h.nBackup
  · exact h.nSwitchBackup

theorem SameWork.counted {m m' : Mod} (h : SameWork m m') (hm : Counted m) : Counted m' :=
  ⟨h.nToFind ▸ hm.1, fun s => (h.nSpare s).symm ▸ hm.2 s⟩

/-- What a request starts from: only `n_found` differs. -/
theorem Sys.refreshed_counters (σ : Sys) :
    σ.refreshed.mod.counters = { σ.mod.counters with nFound := 0 } := by
  have h := refreshPids_work σ.kernel σ.begun.mod
  show (⟨_, _, _, _⟩ : Counters) = ⟨_, _, _, _⟩
  congr 1
  · exact h.nFound
  · exact h.nToFind
  · exact h.nBackup
  · exact h.nSwitchBackup

theorem Sys.refreshed_nSpare (σ : Sys) (s : Spare) : σ.refreshed.mod.nSpare s = σ.mod.nSpare s := by
  rw [Sys.refreshed, (refreshPids_work σ.kernel σ.begun.mod).nSpare]
  cases s <;> rfl

theorem Sys.refreshed_room (σ : Sys) (own : Spare) : σ.refreshed.mod.room own = σ.mod.room own := by
  funext s
  rw [Mod.room, Mod.room, Sys.refreshed_nSpare]

/-- A plain find. -/
theorem processFind_plain_within (h : Registered σ) (hfound : σ.mod.nFound = 0)
    (htrace : σ.mod.trace = []) (hn : 0 ≤ req.pidN.toInt) {mode : FindMode} {π : Policy P}
    (hmode : FindMode.ofCode req.mode = some mode) (hπ : memWalkPolicy P mode = some π) :
    ∀ ev ∈ (processFind P req σ).1.mod.trace, ev.Within (σ.mod.room .backup) := by
  by_cases hpos : 0 < σ.mod.nPids
  · rw [processFind_plain hπ hmode hpos]
    exact (memWalk_inRange hπ (by rw [intMin_eq_min]; omega) (by rw [intMin_eq_min]; omega) hfound
      htrace (h.lastPid_lt hpos)).trace.all
  · rw [processFind_empty req hpos, htrace]
    simp

/-- Both walks of a switch. -/
theorem processFind_switch_within (h : Registered σ) (hfound : σ.mod.nFound = 0)
    (htrace : σ.mod.trace = []) (hn : 0 ≤ req.pidN.toInt)
    (hmode : FindMode.ofCode req.mode = some .switch) :
    ∃ first later, (processFind P req σ).1.mod.trace = later ++ first ∧
      (0 < σ.mod.nPids →
        first = (σ.nvramPhase P (intMin maxNSwitch req.pidN.toInt)).mod.trace) ∧
      (∀ ev ∈ first, ev.Within (σ.mod.room .switchBackup)) ∧ ∀ ev ∈ later, ev.Within spareRoom := by
  by_cases hpos : 0 < σ.mod.nPids
  · have hcount : 0 ≤ intMin maxNSwitch req.pidN.toInt := by
      rw [intMin_eq_min]
      omega
    have hmax : intMin maxNSwitch req.pidN.toInt ≤ maxNSwitch := by
      rw [intMin_eq_min]
      omega
    have hlast := h.lastPid_lt hpos
    obtain ⟨later, heq, hlater⟩ :=
      (switchWalk_inRange (P := P) hcount hmax hfound htrace hlast).1
    rw [processFind_switch hmode hpos]
    exact ⟨_, later, heq, fun _ => rfl,
      (nvramPhase_ranged hcount hmax hfound htrace hlast).trace.all, hlater⟩
  · rw [processFind_empty req hpos, htrace]
    exact ⟨[], [], rfl, fun hc => absurd hc hpos, by simp, by simp⟩

theorem processFind_idle (hfound : σ.mod.nFound = 0) (htrace : σ.mod.trace = [])
    (hclear : FindMode.ofCode req.mode = some .nvramClear) :
    ∀ ev ∈ (processFind P req σ).1.mod.trace, ev.Idle σ.mod := by
  by_cases hpos : 0 < σ.mod.nPids
  · rw [processFind_clear hclear hpos]
    exact (clearWalk_idle hfound htrace).2
  · rw [processFind_empty req hpos, htrace]
    simp

/-- Every write of a FIND is inside its array. -/
theorem processFind_stored (h : Registered σ) (hfound : σ.mod.nFound = 0)
    (htrace : σ.mod.trace = []) (hn : 0 ≤ req.pidN.toInt) :
    ∀ ev ∈ (processFind P req σ).1.mod.trace, ev.Stored := by
  cases hmode : FindMode.ofCode req.mode with
  | none =>
    have hstill : processFind P req σ = (σ, -1, true) := processFind_default hmode
    rw [hstill, htrace]
    simp
  | some mode =>
    intro ev hev
    rcases memWalkPolicy_cases P mode with ⟨π, hπ⟩ | rfl | rfl
    · exact (processFind_plain_within h hfound htrace hn hmode hπ ev hev).stored
    · obtain ⟨first, later, heq, -, hfirst, hlater⟩ :=
        processFind_switch_within h hfound htrace hn hmode
      rw [heq] at hev
      rcases List.mem_append.mp hev with hev | hev
      · exact (hlater ev hev).stored
      · exact (hfirst ev hev).stored
    · have hidle := processFind_idle hfound htrace hmode ev hev
      cases ev with
      | store buf i => exact hidle.elim
      | visit | commit | retval => trivial

/-- **Whatever the count, the counters stay in range until a write is outside.** -/
theorem processFind_settled (h : Registered σ) (hfound : σ.mod.nFound = 0)
    (htrace : σ.mod.trace = []) (hm : Counted σ.mod) : Settled (processFind P req σ).1.mod := by
  have hmax := maxNFind_eq
  have hsame : Settled σ.mod := fun _ => hm
  by_cases hpos : 0 < σ.mod.nPids
  · have hlast := h.lastPid_lt hpos
    cases hmode : FindMode.ofCode req.mode with
    | none =>
      rw [processFind_default hmode]
      exact hsame
    | some mode =>
      rcases memWalkPolicy_cases P mode with ⟨π, hπ⟩ | rfl | rfl
      · rw [processFind_plain hπ hmode hpos]
        exact memWalk_settled hπ (by rw [intMin_eq_min]; omega) hfound hm.2 hlast
      · rw [processFind_switch hmode hpos]
        rcases Int.lt_or_le req.pidN.toInt 0 with hneg | hn
        · exact switchWalk_settled (by rw [intMin_eq_min]; omega) hfound hm.2 hlast
        · have hrange := switchWalk_inRange (P := P) (n := intMin maxNSwitch req.pidN.toInt)
            (by rw [intMin_eq_min]; omega) (by rw [intMin_eq_min]; omega) hfound htrace hlast
          exact fun _ => hrange.2 hm.2
      · rw [processFind_clear hmode hpos]
        have hcount := (clearWalk_idle (P := P) hfound htrace).1
        refine fun _ => ⟨?_, fun s => ?_⟩
        · have := congrArg Counters.nToFind hcount
          exact this.trans_le hm.1
        · have := congrArg (fun c => c.nSpare s) hcount
          have hs := hm.2 s
          cases s <;> exact Nat.le_trans (Nat.le_of_eq this) hs
  · rw [processFind_empty req hpos]
    exact hsame

/-! ## Requests -/

/-- A request leaves its counters in range, or has written outside an array. -/
theorem processReq_settled (h : Registered σ) (hm : Counted σ.mod) (req : Option Req) :
    Settled (processReq P req σ).sys.mod := by
  have hbegun : Counted σ.begun.mod := ⟨hm.1, fun s => by have := hm.2 s; cases s <;> exact this⟩
  have hrefreshed : Counted σ.refreshed.mod := (refreshPids_work σ.kernel σ.begun.mod).counted hbegun
  have hbody : Settled (processBody P req σ).1.mod := by
    cases req with
    | none => exact fun _ => hbegun
    | some req =>
      simp only [processBody]
      split
      · exact fun _ => hbegun
      · exact processFind_settled h.refreshed (Sys.refreshed_nFound σ) (Sys.refreshed_trace σ)
          hrefreshed
      · exact fun _ => (bindPid_work _ _ _).counted hrefreshed
      · exact fun _ => ((unbindPid_work _ _ _).trans (refreshPids_work _ _)).counted hbegun
  obtain ⟨evs, htrace, _⟩ := processReq_trace (P := P) req σ
  intro hstored
  have hcount := hbody fun ev hev => hstored ev (htrace ▸ List.mem_append_right _ hev)
  unfold processReq
  simp only
  split
  · exact ⟨hcount.1, fun s => by have := hcount.2 s; cases s <;> exact this⟩
  · exact hcount

/-! ## Runs -/

/-- The runs in which no request writes outside an array. -/
def inBounds (P : Platform) : TSys Sys where
  init := Loaded
  step σ σ' := EnvStep σ σ' ∨
    ∃ req, (∀ ev ∈ (processReq P req σ).sys.mod.trace, ev.Stored) ∧ (processReq P req σ).sys = σ'

theorem inBounds_reachable (h : (inBounds P).Reachable σ) : (hyb P).Reachable σ :=
  h.mono (fun _ hi => hi) fun _ _ hs => hs.imp_right fun ⟨req, _, heq⟩ => ⟨req, heq⟩

theorem inBounds_counted (P : Platform) : (inBounds P).Invariant fun σ => Counted σ.mod := by
  have hreg : (inBounds P).Invariant Registered := fun σ hσ =>
    registered_invariant P σ (inBounds_reachable hσ)
  refine hreg.strengthen ?_ ?_
  · rintro σ ⟨found, backup, switchBackup, tasks, owner, hmod⟩
    rw [hmod]
    exact ⟨Int.natCast_nonneg _, fun s => by cases s <;> exact Nat.zero_le _⟩
  · rintro σ σ' h hm (⟨hmod, _⟩ | ⟨req, hstored, rfl⟩)
    · exact hmod ▸ hm
    · exact processReq_settled h hm req hstored

/-- **Counters and indices of a FIND.** Every write of a walk is inside its array, every
callback finds `n_found` within the quota and the quota within `MAX_N_FIND`, and the
backup counter its walk fills within the capacity: `n_backup` in a plain find,
`n_switch_backup` in the first walk of a switch and both in the second. The other counter
shows what was left there. The clear callback finds all counters as they were left and
writes nothing. In a run that has not written outside an array what was left is in
range. -/
theorem find_in_range (hreach : (hyb P).Reachable σ)
    (hop : OpCode.ofCode req.opCode = some .find) (hn : 0 ≤ req.pidN.toInt) :
    (∀ mode π, FindMode.ofCode req.mode = some mode → memWalkPolicy P mode = some π →
        (∀ ev ∈ (processReq P (some req) σ).sys.mod.trace, ev.Within (σ.mod.room .backup)) ∧
          ((processReq P (some req) σ).candidates.length : Int) ≤ min req.pidN.toInt maxNFind) ∧
      (FindMode.ofCode req.mode = some .switch → ∃ first later,
        (processReq P (some req) σ).sys.mod.trace = later ++ first ∧
          (0 < σ.refreshed.mod.nPids → first =
            (σ.refreshed.nvramPhase P (intMin maxNSwitch req.pidN.toInt)).mod.trace) ∧
          (∀ ev ∈ first, ev.Within (σ.mod.room .switchBackup)) ∧
          ∀ ev ∈ later, ev.Within spareRoom) ∧
      (FindMode.ofCode req.mode = some .nvramClear →
        ∀ ev ∈ (processReq P (some req) σ).sys.mod.trace, ev.Idle σ.mod) ∧
      (FindMode.ofCode req.mode = none →
        ∀ ev ∈ (processReq P (some req) σ).sys.mod.trace, ∃ i, ev = .retval i) ∧
      ((inBounds P).Reachable σ →
        Counted σ.mod ∧ ∀ own s, σ.mod.room own s ≤ spareRoom s) := by
  have h := registered_invariant P σ hreach
  have hbody := processReq_find (P := P) (σ := σ) hop
  have hfound := Sys.refreshed_nFound σ
  have htrace := Sys.refreshed_trace σ
  refine ⟨fun mode π hmode hπ => ⟨fun ev hev => ?_, ?_⟩, fun hmode => ?_, fun hclear ev hev => ?_,
    fun hnone ev hev => ?_, fun hin => ?_⟩
  · rcases processReq_mem hev with ⟨i, rfl⟩ | hev
    · trivial
    · rw [hbody] at hev
      rw [← Sys.refreshed_room]
      exact processFind_plain_within h.refreshed hfound htrace hn hmode hπ ev hev
  · rw [find_plain_candidates hπ h ⟨hop, hmode⟩ hn, plainPicks]
    split
    · rw [List.length_map, length_select, count]
      omega
    · rw [List.length_nil]
      omega
  · obtain ⟨first, later, heq, hphase, hfirst, hlater⟩ :=
      processFind_switch_within h.refreshed hfound htrace hn hmode
    obtain ⟨evs, hadd, hevs⟩ := processReq_trace (P := P) (some req) σ
    rw [hbody, heq, ← List.append_assoc] at hadd
    rw [Sys.refreshed_room] at hfirst
    refine ⟨first, evs ++ later, hadd, hphase, hfirst, fun ev hev => ?_⟩
    rcases List.mem_append.mp hev with hev | hev
    · obtain ⟨i, rfl⟩ := hevs ev hev
      trivial
    · exact hlater ev hev
  · rcases processReq_mem hev with ⟨i, rfl⟩ | hev
    · trivial
    · rw [hbody] at hev
      have hidle := processFind_idle hfound htrace hclear ev hev
      cases ev with
      | visit t addr pte c =>
        show c = { σ.mod.counters with nFound := 0 }
        rw [show c = { σ.refreshed.mod.counters with nFound := 0 } from hidle,
          Sys.refreshed_counters]
      | store buf i => exact hidle
      | commit t addr old new => trivial
      | retval i => trivial
  · rcases processReq_mem hev with hret | hev
    · exact hret
    · rw [hbody, processFind_default hnone, htrace] at hev
      exact absurd hev (by simp)
  · have hm := inBounds_counted P σ hin
    exact ⟨hm, Mod.room_le hm.2⟩

end

/-- One NVRAM page, and a DRAM find with count -5 before it: the quota of that find
is still there. -/
def staleQuota : Sys :=
  (Sys.fresh [some [.of 4096 2000 true true]]).after smallMachine
    [.of .bind 1 .dram, .of .find (-5) .dram]

theorem find_in_range_staleQuota :
    (∀ ev ∈ (processReq smallMachine (some (.of .find 3 .nvram)) staleQuota).sys.mod.trace,
        ev.Within (staleQuota.mod.room .backup)) ∧
      ((processReq smallMachine (some (.of .find 3 .nvram)) staleQuota).candidates.length : Int) ≤
        min (Req.of .find 3 .nvram).pidN.toInt maxNFind ∧
      (∃ first later,
        (processReq smallMachine (some (.of .find 3 .switch)) staleQuota).sys.mod.trace =
            later ++ first ∧
          (0 < staleQuota.refreshed.mod.nPids → first = (staleQuota.refreshed.nvramPhase smallMachine
            (intMin maxNSwitch (Req.of .find 3 .switch).pidN.toInt)).mod.trace) ∧
          (∀ ev ∈ first, ev.Within (staleQuota.mod.room .switchBackup)) ∧
          ∀ ev ∈ later, ev.Within spareRoom) ∧
      Event.store .found 0 ∈
        (processReq smallMachine (some (.of .find 3 .nvram)) staleQuota).sys.mod.trace := by
  have hreach : (hyb smallMachine).Reachable staleQuota := Sys.fresh_reachable _ _ _
  have hplain := (find_in_range hreach (isFind_of 3 .nvram).op (by decide)).1 .nvram _ (by decide) rfl
  have hswitch := (find_in_range hreach (isFind_of 3 .switch).op (by decide)).2.1 (by decide)
  exact ⟨hplain.1, hplain.2, hswitch, by decide⟩

/-! ## Counters found out of range

A count of `INT_MIN` lets `n_to_find - n_found` wrap after the first page, and from then on
the walk takes every backup page, beyond the end of the array. The counter stays where it
was until a walk that fills it clears it, and other walks run with it. -/

section

variable {P : Platform} {π : Policy P}

/-- With the quota met the callback sees the first page in range, and stops. -/
theorem walkPtes_full {m : Mod} (hfull : (m.nFound : Int) = m.nToFind) (t : TaskPtr)
    {start stop : Nat} {es : List PageEntry} (hin : ∃ e ∈ es, start ≤ e.addr ∧ e.addr < stop) :
    (∃ addr pte, Event.visit t addr pte m.counters ∈
        (walkPtes π.callback t start stop es m).1.trace) ∧
      (walkPtes π.callback t start stop es m).1.quotaMet := by
  induction es with
  | nil =>
    obtain ⟨e, he, _⟩ := hin
    exact absurd he List.not_mem_nil
  | cons e es ih =>
    unfold walkPtes
    split
    · have hcall : invoke π.callback t e m =
          .full π.tier e.addr (m.log (.visit t e.addr e.pte m.counters)) := by
        have hlog : ((m.log (.visit t e.addr e.pte m.counters)).nFound : Int) =
            (m.log (.visit t e.addr e.pte m.counters)).nToFind := hfull
        unfold invoke Policy.callback
        simp only [if_pos hlog, CbResult.full]
      simp only [hcall, CbResult.full]
      rw [if_pos (by decide)]
      refine ⟨⟨e.addr, e.pte, ?_⟩, ?_⟩
      · cases π.tier <;> exact List.mem_cons_self
      · have hmet : m.nToFind ≤ (m.nFound : Int) := Int.le_of_eq hfull.symm
        cases π.tier <;> exact hmet
    · rename_i hout
      obtain ⟨e', he', hin'⟩ := hin
      rcases List.mem_cons.mp he' with rfl | he'
      · exact absurd hin' hout
      · exact ih ⟨e', he', hin'⟩

/-- A walk that starts with its quota met. -/
theorem walkTier_full {σ : Sys} (hfull : (σ.mod.nFound : Int) = σ.mod.nToFind) {mm : MmStruct}
    (hmm : σ.mm (σ.mod.taskItems (σ.mod.lastPid π.tier)) = some mm)
    (hin : ∃ e ∈ mm.ptes, σ.mod.lastAddr π.tier ≤ e.addr) :
    ∃ t addr pte, Event.visit t addr pte σ.mod.counters ∈
      (walkTier π.callback π.tier σ).mod.trace := by
  obtain ⟨e, he, hle⟩ := hin
  have hlt := mm.user e.addr (List.mem_map_of_mem he)
  generalize hi : σ.mod.lastPid π.tier = i at hmm
  generalize hm : σ.mod.setCurrPid (σ.kernel.pidOf (σ.mod.taskItems i)) = m
  have hcount : m.counters = σ.mod.counters := by rw [← hm]; rfl
  obtain ⟨⟨addr, pte, hmem⟩, hmet⟩ := walkPtes_full (π := π) (m := m) (by rw [← hm]; exact hfull)
    (σ.mod.taskItems i) ⟨e, he, hle, hlt⟩
  have hwalk : (walkTask π.callback i (σ.mod.lastAddr π.tier) maxAddress σ).mod =
      (walkPtes π.callback (σ.mod.taskItems i) (σ.mod.lastAddr π.tier) maxAddress mm.ptes m).1 := by
    unfold walkTask
    simp only [hmm, walkPageRange, hm]
  rw [← hwalk] at hmem hmet
  rw [hcount] at hmem
  refine ⟨σ.mod.taskItems i, addr, pte, ?_⟩
  unfold walkTier doPageWalk
  rw [hi]
  simp only [if_pos hmet]
  revert hmem
  cases π.tier <;> exact id

variable {σ : Sys} {req : Req}

/-- A walk for 0 pages that its request starts. -/
theorem walkTier_none (s : Spare) {mm : MmStruct}
    (hmm : σ.mm (σ.refreshed.mod.taskItems (σ.refreshed.mod.lastPid π.tier)) = some mm)
    (hin : ∃ e ∈ mm.ptes, σ.refreshed.mod.lastAddr π.tier ≤ e.addr) :
    ∃ t addr pte, Event.visit t addr pte (σ.refreshed.mod.setQuota s 0).counters ∈
      (walkTier π.callback π.tier
        { σ.refreshed with mod := σ.refreshed.mod.setQuota s 0 }).mod.trace := by
  have hs : SameHands σ.refreshed.mod (σ.refreshed.mod.setQuota s 0) := .setQuota _ _ _
  apply walkTier_full
  · have hfound : (σ.refreshed.mod.setQuota s 0).nFound = 0 := by
      cases s <;> exact Sys.refreshed_nFound σ
    have hquota : (σ.refreshed.mod.setQuota s 0).nToFind = 0 := by cases s <;> rfl
    rw [hfound, hquota]
    rfl
  · show σ.mm _ = some mm
    rw [hs.taskItems, hs.lastPid]
    exact hmm
  · rw [hs.lastAddr]
    exact hin

/-- A plain find of 0 pages: the callback sees `n_switch_backup` as it was left. -/
theorem find_sees_switchBackup {mode : FindMode} (hreq : IsFind req mode)
    (hπ : memWalkPolicy P mode = some π) (hzero : req.pidN.toInt = 0)
    (hpos : 0 < σ.refreshed.mod.nPids) {mm : MmStruct}
    (hmm : σ.mm (σ.refreshed.mod.taskItems (σ.refreshed.mod.lastPid π.tier)) = some mm)
    (hin : ∃ e ∈ mm.ptes, σ.refreshed.mod.lastAddr π.tier ≤ e.addr) :
    ∃ t addr pte c, Event.visit t addr pte c ∈ (processReq P (some req) σ).sys.mod.trace ∧
      c.nSwitchBackup = σ.mod.nSwitchBackup := by
  have hquota : intMin maxNFind req.pidN.toInt = 0 := by
    rw [intMin_eq_min, hzero]
    omega
  obtain ⟨t, addr, pte, hmem⟩ := walkTier_none .backup hmm hin
  obtain ⟨c, _, hwalk⟩ := memWalk_walk hπ 0 σ.refreshed
  obtain ⟨added, hgrown, _⟩ := (Wrote.appendFound (s := .backup) (c := c)
    (m := (walkTier π.callback π.tier { σ.refreshed with
      mod := σ.refreshed.mod.setQuota .backup 0 }).mod) (Nat.le_refl _)).trace
  obtain ⟨evs, htrace, _⟩ := processReq_trace (P := P) (some req) σ
  refine ⟨t, addr, pte, (σ.refreshed.mod.setQuota .backup 0).counters, ?_,
    Sys.refreshed_nSpare σ .switchBackup⟩
  rw [htrace, processReq_find hreq.op, processFind_plain hπ hreq.mode hpos, hquota, hwalk, hgrown]
  exact List.mem_append_right _ (List.mem_append_right _ hmem)

/-- A switch of 0 pages: the NVRAM callback sees `n_backup` as it was left. -/
theorem switch_sees_backup (h : Registered σ) (hreq : IsFind req .switch)
    (hzero : req.pidN.toInt = 0) (hpos : 0 < σ.refreshed.mod.nPids) {mm : MmStruct}
    (hmm : σ.mm (σ.refreshed.mod.taskItems (σ.refreshed.mod.lastPid .nvram)) = some mm)
    (hin : ∃ e ∈ mm.ptes, σ.refreshed.mod.lastAddr .nvram ≤ e.addr) :
    ∃ t addr pte c, Event.visit t addr pte c ∈ (processReq P (some req) σ).sys.mod.trace ∧
      c.nBackup = σ.mod.nBackup := by
  have hquota : intMin maxNSwitch req.pidN.toInt = 0 := by
    rw [intMin_eq_min, hzero]
    omega
  obtain ⟨t, addr, pte, hmem⟩ := walkTier_none (π := nvramSwitchPolicy P) .switchBackup hmm hin
  obtain ⟨first, later, heq, hfirst, _⟩ := processFind_switch_within (P := P) h.refreshed
    (Sys.refreshed_nFound σ) (Sys.refreshed_trace σ) (Int.le_of_eq hzero.symm) hreq.mode
  obtain ⟨evs, htrace, _⟩ := processReq_trace (P := P) (some req) σ
  refine ⟨t, addr, pte, (σ.refreshed.mod.setQuota .switchBackup 0).counters, ?_,
    Sys.refreshed_nSpare σ .backup⟩
  rw [htrace, processReq_find hreq.op, heq, hfirst hpos, hquota, nvramPhase_eq]
  exact List.mem_append_right _ (List.mem_append_right _ hmem)

end

/-- The return-code entry touches neither backup counter. -/
theorem processReq_nSpare (P : Platform) (req : Option Req) (σ : Sys) (s : Spare) :
    (processReq P req σ).sys.mod.nSpare s = (processBody P req σ).1.mod.nSpare s := by
  unfold processReq
  simp only
  split
  · cases s <;> rfl
  · rfl

section

variable {P : Platform} {σ : Sys} {req : Req}

/-- What a plain find below zero leaves in `n_backup`. -/
theorem find_over_backup {mode : FindMode} {π : Policy P} (hreq : IsFind req mode)
    (hπ : memWalkPolicy P mode = some π) (hneg : req.pidN.toInt < 0)
    (hpos : 0 < σ.refreshed.mod.nPids) :
    (processReq P (some req) σ).sys.mod.nBackup =
      (overScan π.classOf req.pidN.toInt (σ.refreshed.firstStretch π.tier)
        Pick.empty).spare.length := by
  have hquota : intMin maxNFind req.pidN.toInt = req.pidN.toInt := by
    rw [intMin_eq_min]
    omega
  have hwalk := (memWalk_over hπ hneg (Sys.refreshed_nFound σ)).2.nSpare
  rw [(memWalkPolicy_ops hπ).2] at hwalk
  have hreply := processReq_nSpare P (some req) σ .backup
  rw [processReq_find hreq.op, processFind_plain hπ hreq.mode hpos, hquota] at hreply
  exact hreply.trans hwalk

/-- What a switch below zero leaves in `n_switch_backup`: the second walk and the
rearrangement do not touch it. -/
theorem switch_over_switchBackup (h : Registered σ) (hreq : IsFind req .switch)
    (hneg : req.pidN.toInt < 0) (hpos : 0 < σ.refreshed.mod.nPids) :
    (processReq P (some req) σ).sys.mod.nSwitchBackup =
      (overScan (nvramSwitchPolicy P).classOf req.pidN.toInt (σ.refreshed.firstStretch .nvram)
        Pick.empty).spare.length := by
  have hquota : intMin maxNSwitch req.pidN.toInt = req.pidN.toInt := by
    rw [intMin_eq_min]
    omega
  have hlast := h.refreshed.lastPid_lt hpos
  have hwalk := (nvramOver (P := P) hneg (Sys.refreshed_nFound σ) (Sys.refreshed_trace σ)
    hlast).1.nSpare
  have hheld := walkTier_held (nvramSwitchPolicy P) (σ := { σ.refreshed with
    mod := σ.refreshed.mod.setQuota .switchBackup req.pidN.toInt }) hlast
  have htier : (nvramSwitchPolicy P).tier = .nvram := rfl
  rw [htier] at hheld
  have hreply := processReq_nSpare P (some req) σ .switchBackup
  rw [processReq_find hreq.op, processFind_switch hreq.mode hpos, hquota, switchWalk_phases] at hreply
  generalize walkTier (nvramSwitchPolicy P).callback .nvram { σ.refreshed with
    mod := σ.refreshed.mod.setQuota .switchBackup req.pidN.toInt } = σ₁ at hreply hwalk hheld
  refine Eq.trans hreply (Eq.trans ?_ hwalk)
  simp only
  split
  · rfl
  · rw [(dramWalk_wrote (P := P) (hheld.hand .dram)).nSpare .switchBackup]
    exact (walkTier_below (b := 0) (memPolicy P) (σ := switchMid req.pidN.toInt σ₁) rfl
      (hheld.hand .dram) (Nat.zero_le _)).2.2

end

/-- A page and `n` others behind it. -/
def oneThenMany (first other : Pte) (n : Nat) : List PageEntry :=
  (List.range (n + 1)).map fun i => ⟨4096 * (i + 1), if i = 0 then first else other⟩

section

variable {first other : Pte} {n : Nat}

theorem oneThenMany_cons : oneThenMany first other n = ⟨4096, first⟩ ::
    (List.range n).map fun i => ⟨4096 * (i + 2), other⟩ := by
  unfold oneThenMany
  rw [List.range_succ_eq_map, List.map_cons, List.map_map]
  rfl

/-- The pages are below `MAX_ADDRESS`. -/
theorem oneThenMany_ptes (hn : n < 1000000) :
    (MmStruct.ofPtes (oneThenMany first other n)).ptes = oneThenMany first other n :=
  MmStruct.ofPtes_range hn fun _ => rfl

/-- The walk over these pages of a policy that takes the first and keeps the others for
later. -/
theorem oneThenMany_spare (hn : n < 1000000) {π : Policy smallMachine}
    (hfirst : π.verdict first = .primary) (hother : π.verdict other = .backup) {c : Nat}
    (hc : c ≤ maxNFind) (hlt : c < n) :
    c < (overScan π.classOf (-2147483648)
      ((oneProcess (oneThenMany first other n)).refreshed.firstStretch π.tier)
        Pick.empty).spare.length := by
  have hstretch : (oneProcess (oneThenMany first other n)).refreshed.firstStretch π.tier =
      ((MmStruct.ofPtes (oneThenMany first other n)).ptes.filter
        (PageEntry.within 0 maxAddress)).map (PageEntry.exam 1 1) := by
    cases π.tier <;> rfl
  rw [hstretch, MmStruct.filter_within, oneThenMany_ptes hn, oneThenMany_cons, List.map_cons]
  have hhead : π.classOf (PageEntry.exam 1 1 ⟨4096, first⟩) = .primary := hfirst
  refine over_spare_wraps hhead ?_ hc ?_
  · intro x hx
    obtain ⟨y, hy, rfl⟩ := List.mem_map.mp hx
    obtain ⟨i, _, rfl⟩ := List.mem_map.mp hy
    exact hother
  · rw [List.length_map, List.length_map, List.length_range]
    exact hlt

/-- After a FIND with a negative count the module is where it was: its process is listed,
both hands are at its start, and it still has its pages. -/
theorem oneThenMany_after (first other : Pte) {n : Nat} {req : Req}
    (hop : OpCode.ofCode req.opCode = some .find)
    (hneg : req.pidN.toInt < 0) (hn : n < 1000000) :
    let τ := (processReq smallMachine (some req) (oneProcess (oneThenMany first other n))).sys
    (hyb smallMachine).Reachable τ ∧ 0 < τ.refreshed.mod.nPids ∧ ∀ tier, ∃ mm,
      τ.mm (τ.refreshed.mod.taskItems (τ.refreshed.mod.lastPid tier)) = some mm ∧
        ∃ e ∈ mm.ptes, τ.refreshed.mod.lastAddr tier ≤ e.addr := by
  have hreach := oneProcess_reachable (oneThenMany first other n)
  have h := registered_invariant smallMachine _ hreach
  have hleft := find_over_hands (P := smallMachine) h hop hneg
  have hkernel := processReq_kernel (P := smallMachine) h (some req)
  have htasks : (processReq smallMachine (some req)
      (oneProcess (oneThenMany first other n))).sys.mod.tasks =
        (oneProcess (oneThenMany first other n)).refreshed.mod.tasks := by
    unfold Mod.tasks
    exact congrArg₂ (fun a k => Arr.slice a 0 k) hleft.taskItems hleft.nPids
  have hhands := hleft.trans (.refreshed h hkernel htasks)
  have hstart : (oneProcess (oneThenMany first other n)).mm 1 =
      some (MmStruct.ofPtes (oneThenMany first other n)) := rfl
  obtain ⟨mm, hmm, hafter⟩ := processReq_space (P := smallMachine) (some req) h hstart
  refine ⟨hreach.step (Or.inr ⟨some req, rfl⟩), ?_, fun tier => ⟨mm, ?_, ?_⟩⟩
  · rw [hhands.nPids]
    exact Nat.one_pos
  · rw [hhands.taskItems, hhands.lastPid]
    cases tier <;> exact hmm
  · rw [hhands.lastAddr, hafter, oneThenMany_ptes hn]
    have hmem : (⟨4096 * (0 + 1), first⟩ : PageEntry) ∈ oneThenMany first other n :=
      List.mem_map.mpr ⟨0, List.mem_range.mpr (Nat.succ_pos n), rfl⟩
    refine ⟨_, List.mem_map_of_mem hmem, ?_⟩
    cases tier <;> exact Nat.zero_le _

end

/-- A cold DRAM page before 131072 warm ones, and a DRAM find with count `INT_MIN`. -/
def staleBackup : Sys :=
  (processReq smallMachine (some (.of .find (-2147483648) .dram))
    (oneProcess (oneThenMany ⟨true, true, false, false, 7⟩ ⟨true, true, true, false, 7⟩ 131072))).sys

/-- A written NVRAM page before 65536 read ones, and a switch with count `INT_MIN`. -/
def staleSwitchBackup : Sys :=
  (processReq smallMachine (some (.of .find (-2147483648) .switch))
    (oneProcess (oneThenMany ⟨true, true, true, true, 2000⟩ ⟨true, true, true, false, 2000⟩
      65536))).sys

theorem staleBackup_overruns : maxNFind < staleBackup.mod.nBackup := by
  have hover := find_over_backup (P := smallMachine) (π := memPolicy smallMachine)
    (σ := oneProcess (oneThenMany ⟨true, true, false, false, 7⟩ ⟨true, true, true, false, 7⟩ 131072))
    (isFind_of (-2147483648) .dram) rfl (by decide) Nat.one_pos
  exact hover ▸ oneThenMany_spare (π := memPolicy smallMachine) (by decide) (by decide) (by decide)
    (Nat.le_refl _) (by decide)

theorem staleSwitchBackup_overruns : maxNSwitch < staleSwitchBackup.mod.nSwitchBackup := by
  have hover := switch_over_switchBackup (P := smallMachine)
    (registered_invariant _ _ (oneProcess_reachable
      (oneThenMany ⟨true, true, true, true, 2000⟩ ⟨true, true, true, false, 2000⟩ 65536)))
    (isFind_of (-2147483648) .switch) (by decide) Nat.one_pos
  exact hover ▸ oneThenMany_spare (π := nvramSwitchPolicy smallMachine) (by decide) (by decide)
    (by decide) (by decide) (by decide)

/-- With counts of 0 after them: the clear callback runs below a negative quota, the NVRAM
callback of a switch with `n_backup` beyond its array, and the DRAM callback of a plain
find with `n_switch_backup` beyond its array. -/
theorem counters_found_out_of_range :
    ((hyb smallMachine).Reachable staleQuota ∧
        Event.visit 1 4096 ⟨true, true, true, true, 2000⟩ ⟨0, -5, 0, 0⟩ ∈
          (processReq smallMachine (some (.of .find 0 .nvramClear)) staleQuota).sys.mod.trace ∧
        ¬ ((0 : Int) ≤ -5)) ∧
      ((hyb smallMachine).Reachable staleBackup ∧ ∃ t addr pte c, Event.visit t addr pte c ∈
          (processReq smallMachine (some (.of .find 0 .switch)) staleBackup).sys.mod.trace ∧
        ¬ c.nBackup ≤ maxNFind) ∧
      ((hyb smallMachine).Reachable staleSwitchBackup ∧ ∃ t addr pte c, Event.visit t addr pte c ∈
          (processReq smallMachine (some (.of .find 0 .dram)) staleSwitchBackup).sys.mod.trace ∧
        ¬ c.nSwitchBackup ≤ maxNSwitch) := by
  refine ⟨⟨Sys.fresh_reachable _ _ _, by decide, by decide⟩, ?_, ?_⟩
  · obtain ⟨hreach, hpos, hands⟩ := oneThenMany_after ⟨true, true, false, false, 7⟩
      ⟨true, true, true, false, 7⟩ (n := 131072) (isFind_of (-2147483648) .dram).op (by decide)
      (by decide)
    obtain ⟨mm, hmm, hin⟩ := hands .nvram
    obtain ⟨t, addr, pte, c, hvisit, hc⟩ := switch_sees_backup (registered_invariant _ _ hreach)
      (isFind_of 0 .switch) (by decide) hpos hmm hin
    have hover := staleBackup_overruns
    unfold staleBackup at hover ⊢
    refine ⟨hreach, t, addr, pte, c, hvisit, fun hle => ?_⟩
    rw [hc] at hle
    exact Nat.not_le.mpr hover hle
  · obtain ⟨hreach, hpos, hands⟩ := oneThenMany_after ⟨true, true, true, true, 2000⟩
      ⟨true, true, true, false, 2000⟩ (n := 65536) (isFind_of (-2147483648) .switch).op (by decide)
      (by decide)
    obtain ⟨mm, hmm, hin⟩ := hands (memPolicy smallMachine).tier
    obtain ⟨t, addr, pte, c, hvisit, hc⟩ := find_sees_switchBackup (π := memPolicy smallMachine)
      (isFind_of 0 .dram) rfl (by decide) hpos hmm hin
    have hover := staleSwitchBackup_overruns
    unfold staleSwitchBackup at hover ⊢
    refine ⟨hreach, t, addr, pte, c, hvisit, fun hle => ?_⟩
    rw [hc] at hle
    exact Nat.not_le.mpr hover hle

end Ambix.Hyb
