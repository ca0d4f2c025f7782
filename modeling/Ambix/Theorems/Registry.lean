import Ambix.Logic.Invariant

/-!
# The registry refines an ordered list with two cursors

`bindRoster` and `unbindRoster` are BIND and UNBIND on the abstract registry of
`Lib.Ring`; `registry_refines` says that in every reachable state the module's
requests are these operations, with the same return codes.
-/

namespace Ambix.Hyb

open Ambix.Lib

/-- BIND: drop the tasks that are gone, then append the named one if it may be. -/
def bindRoster (k : Kernel) (pid : Int) (r : Roster Tier TaskPtr) : Roster Tier TaskPtr × Int :=
  let r := r.retain (alive k)
  if 0 < pid ∧ pid ∉ r.items.map k.pidOf ∧ r.items.length < maxPids then
    match k.taskOf pid with
    | some t => (r.append t, 0)
    | none => (r, -1)
  else (r, -1)

/-- UNBIND: drop the named task, if it is listed, and those that are gone. -/
def unbindRoster (k : Kernel) (pid : Int) (r : Roster Tier TaskPtr) : Roster Tier TaskPtr × Int :=
  if pid ∈ r.items.map k.pidOf then
    (r.retain fun t => !decide (k.pidOf t = pid) && alive k t, 0)
  else (r.retain (alive k), -1)

/-- The return code of a reply. -/
def Outcome.ret (o : Outcome) : Option Int := o.reply.getLast?.map AddrInfo.pidRetval

theorem Mod.roster_pushRetval (ret : Int) (m : Mod) : (m.pushRetval ret).roster = m.roster := by
  have hround : ∀ tier, (m.pushRetval ret).round tier = m.round tier := fun tier => by
    cases tier <;> rfl
  have haddr : ∀ tier, (m.pushRetval ret).lastAddr tier = m.lastAddr tier := fun tier => by
    cases tier <;> rfl
  have htasks : (m.pushRetval ret).tasks = m.tasks := rfl
  simp only [Mod.roster, hround, haddr, htasks]

section

variable {P : Platform} {σ : Sys}

/-- A request that comes back ends in its body's state and return code. -/
theorem processReq_replied (req : Option Req) (h : (processBody P req σ).2.2 = true) :
    (processReq P req σ).sys.mod.roster = (processBody P req σ).1.mod.roster ∧
      (processReq P req σ).ret = some (processBody P req σ).2.1 := by
  unfold processReq
  simp only [h, if_true, Outcome.sys, Mod.roster_pushRetval, true_and]
  simp [Outcome.ret, Outcome.reply, Mod.reply_pushRetval]

/-- Appending a task to a registry, seen abstractly. -/
theorem roster_append {m m' : Mod} (hm : Anchored m) {t : TaskPtr}
    (htasks : m'.tasks = m.tasks ++ [t]) (hpid : ∀ tier, m'.lastPid tier = m.lastPid tier)
    (haddr : ∀ tier, m'.lastAddr tier = m.lastAddr tier) : m'.roster = m.roster.append t := by
  simp only [Mod.roster, Roster.append, htasks, Roster.mk.injEq, true_and]
  funext tier
  simp only [Mod.round, hpid tier, haddr tier, htasks]
  rcases hm.hand tier with hlt | ⟨hempty, hzero, hstart⟩
  · have hlen : m.lastPid tier < m.tasks.length := by simpa using hlt
    rw [head?_ring hlen, head?_ring (by simp; omega), List.getElem?_append_left hlen,
      Mod.getElem?_tasks hlt]
    rfl
  · have hnil : m.tasks = [] := by rw [← List.length_eq_zero_iff, Mod.length_tasks, hempty]
    simp [hnil, hzero, hstart, ring]

theorem refreshed_roster (h : Registered σ) :
    σ.refreshed.mod.roster = σ.mod.roster.retain (alive σ.kernel) :=
  (refreshPids_follows σ.kernel h.begun.anchored).1.roster h.begun.anchored

theorem bind_roster (h : Registered σ) {req : Req} (hop : OpCode.ofCode req.opCode = some .bind) :
    ((processReq P (some req) σ).sys.mod.roster, (processReq P (some req) σ).ret) =
      ((bindRoster σ.kernel req.pidN.toInt σ.mod.roster).1,
        some (bindRoster σ.kernel req.pidN.toInt σ.mod.roster).2) := by
  have hbody : processBody P (some req) σ =
      ({ σ.refreshed with mod := (bindPid σ.kernel req.pidN.toInt σ.refreshed.mod).1 },
        (bindPid σ.kernel req.pidN.toInt σ.refreshed.mod).2, true) := by
    simp only [processBody, hop]
    rfl
  have hreg := h.refreshed
  obtain ⟨hroster, hret⟩ := processReq_replied (P := P) (some req) (by rw [hbody])
  have hitems : σ.refreshed.mod.tasks = (σ.mod.roster.retain (alive σ.kernel)).items := by
    rw [← refreshed_roster h]
    rfl
  rw [hroster, hret, hbody]
  unfold bindRoster
  simp only [← refreshed_roster h]
  have hlen : σ.refreshed.mod.roster.items.length = σ.refreshed.mod.nPids := Mod.length_tasks _
  by_cases hb : ∃ t, Bindable σ.kernel σ.refreshed.mod req.pidN.toInt t
  · obtain ⟨t, hb⟩ := hb
    obtain ⟨hok, htasks, hpid, haddr⟩ := bindPid_of_bindable hreg.ne_null req.pidN_le hb
    obtain ⟨hpos, hnew, hroom, htask⟩ := hb
    rw [if_pos ⟨hpos, hnew, hlen ▸ hroom⟩, htask, roster_append hreg.anchored htasks hpid haddr, hok]
  · obtain ⟨hfail, hf, _⟩ := bindPid_of_not hreg.anchored hreg.ne_null req.pidN_le fun t ht => hb ⟨t, ht⟩
    rw [hf.roster_eq, hfail]
    split
    · rename_i hcond
      cases htask : σ.kernel.taskOf req.pidN.toInt with
      | none => rfl
      | some t => exact absurd ⟨t, hcond.1, hcond.2.1, hlen ▸ hcond.2.2, htask⟩ hb
    · rfl

theorem unbind_roster (h : Registered σ) {req : Req}
    (hop : OpCode.ofCode req.opCode = some .unbind) :
    ((processReq P (some req) σ).sys.mod.roster, (processReq P (some req) σ).ret) =
      ((unbindRoster σ.kernel req.pidN.toInt σ.mod.roster).1,
        some (unbindRoster σ.kernel req.pidN.toInt σ.mod.roster).2) := by
  have hbody : processBody P (some req) σ =
      ({ σ.begun with mod := refreshPids σ.kernel (unbindPid σ.kernel req.pidN.toInt σ.begun.mod).1 },
        (unbindPid σ.kernel req.pidN.toInt σ.begun.mod).2, true) := by
    simp only [processBody, hop]
    rfl
  have hreg := h.begun
  obtain ⟨hroster, hret⟩ := processReq_replied (P := P) (some req) (by rw [hbody])
  rw [hroster, hret, hbody]
  unfold unbindRoster
  by_cases hl : req.pidN.toInt ∈ σ.mod.tasks.map σ.kernel.pidOf
  · have hpos : 0 < req.pidN.toInt := by
      obtain ⟨t, ht, hpid⟩ := List.mem_map.mp hl
      exact hpid ▸ (h.live t ht).2
    obtain ⟨hok, hf, ha⟩ := unbindPid_of_listed hreg.anchored hreg.ne_null hreg.distinct hpos
      req.pidN_le hl
    have hboth := (hf.trans (refreshPids_follows σ.kernel ha).1).roster hreg.anchored
    rw [Sys.begun_kernel] at hok hboth
    have hitems : req.pidN.toInt ∈ σ.mod.roster.items.map σ.kernel.pidOf := hl
    simp only [if_pos hitems, hok, hboth]
    rfl
  · have hitems : req.pidN.toInt ∉ σ.mod.roster.items.map σ.kernel.pidOf := hl
    have hnot : unbindPid σ.kernel req.pidN.toInt σ.begun.mod = (σ.begun.mod, -1) :=
      unbindPid_of_not hreg.ne_null fun hc => hl hc.2
    simp only [if_neg hitems, hnot]
    rw [← refreshed_roster h]
    rfl

/-- A FIND goes on after the refresh, and its walks move the hands only. -/
theorem find_tasks (h : Registered σ) {req : Req} (hop : OpCode.ofCode req.opCode = some .find) :
    (processReq P (some req) σ).sys.mod.tasks = σ.mod.tasks.filter (alive σ.kernel) := by
  have hrefreshed : σ.refreshed.mod.tasks = σ.mod.tasks.filter (alive σ.kernel) :=
    congrArg Roster.items (refreshed_roster h)
  have hbody : processBody P (some req) σ = processFind P req σ.refreshed := by
    simp only [processBody, hop]
    rfl
  have htasks := processFind_tasks (P := P) req h.refreshed
  rw [← hrefreshed, ← htasks, ← hbody]
  unfold processReq
  simp only
  split <;> rfl

/-- **The registry refines an ordered list with two cursors.** In every reachable
state it is well-formed; `refresh_pids` keeps the tasks that are alive, FIND does
nothing else to the list, and BIND and UNBIND are the abstract operations. -/
theorem registry_refines (P : Platform) :
    (hyb P).Invariant fun σ =>
      Registered σ ∧
      (refreshPids σ.kernel σ.mod).roster = σ.mod.roster.retain (alive σ.kernel) ∧
      ∀ req : Req,
        (OpCode.ofCode req.opCode = some .find →
          (processReq P (some req) σ).sys.mod.tasks = σ.mod.tasks.filter (alive σ.kernel)) ∧
        (OpCode.ofCode req.opCode = some .bind →
          ((processReq P (some req) σ).sys.mod.roster, (processReq P (some req) σ).ret) =
            ((bindRoster σ.kernel req.pidN.toInt σ.mod.roster).1,
              some (bindRoster σ.kernel req.pidN.toInt σ.mod.roster).2)) ∧
        (OpCode.ofCode req.opCode = some .unbind →
          ((processReq P (some req) σ).sys.mod.roster, (processReq P (some req) σ).ret) =
            ((unbindRoster σ.kernel req.pidN.toInt σ.mod.roster).1,
              some (unbindRoster σ.kernel req.pidN.toInt σ.mod.roster).2)) := by
  intro σ hreach
  have h := registered_invariant P σ hreach
  refine ⟨h, (refreshPids_follows σ.kernel h.anchored).1.roster h.anchored, fun req => ?_⟩
  exact ⟨find_tasks h, bind_roster h, unbind_roster h⟩

end

end Ambix.Hyb
