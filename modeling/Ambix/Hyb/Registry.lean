import Ambix.Hyb.State

/-!
# The pid registry: `find_target_process` .. `refresh_pids`, `bind_pid`, `unbind_pid`

`task_items[0..n_pids)` and the two hands. Logging is left out.
-/

namespace Ambix.Hyb

open Ambix.Lib

/-- The test both scans over `task_items` make. -/
def Mod.manages (k : Kernel) (pid : Int) (m : Mod) (i : Nat) : Bool :=
  m.taskItems i != null && k.pidOf (m.taskItems i) == pid

/-- `find_target_process`: 1 when the task was appended. -/
def findTargetProcess (k : Kernel) (pid : Int) (m : Mod) : Mod × Int :=
  if maxPids ≤ m.nPids then (m, 0)
  else if (List.range m.nPids).any (m.manages k pid) then (m, 0)
  else
    let pidS := k.findGetPid pid
    if pidS = null then (m, 0)
    else
      let m := m.getPid
      let t := k.getPidTask pidS
      if t ≠ null then
        ({ m with
            taskItems := m.taskItems.set m.nPids t
            nPids := m.nPids + 1
            taskRefs := m.taskRefs + 1 }, 1)
      else (m, 0)

/-- `last_addr_dram = 0` or `last_addr_nvram = 0`. -/
def Mod.resetLastAddr (tier : Tier) (m : Mod) : Mod :=
  match tier with
  | .dram => { m with lastAddrDram := 0 }
  | .nvram => { m with lastAddrNvram := 0 }

/-- The first half of `update_pid_list` for one tier: move its hand off entry `i`,
which is about to be removed. -/
def adjustHand (tier : Tier) (i : Nat) (m : Mod) : Mod :=
  if i < m.lastPid tier then m.setLastPid tier (m.lastPid tier - 1)
  else if m.lastPid tier = i then
    let m := m.resetLastAddr tier
    if m.lastPid tier = m.nPids - 1 then m.setLastPid tier 0 else m
  else m

/-- `update_pid_list`: remove entry `i`. -/
def updatePidList (i : Nat) (m : Mod) : Mod :=
  let m := adjustHand .dram i m
  let m := adjustHand .nvram i m
  { m with
    taskItems := m.taskItems.copyUp (i + 1) i (m.nPids - 1 - i)
    nPids := m.nPids - 1 }

/-- The loop of `refresh_pids` from index `i` on. Every iteration removes an entry
or advances, so `fuel` is the distance from `i` to `n_pids`. -/
def refreshLoop (k : Kernel) : Nat → Nat → Mod → Mod
  | 0, _, m => m
  | fuel + 1, i, m =>
    if i < m.nPids then
      if m.taskItems i = null then refreshLoop k fuel i (updatePidList i m)
      else if k.findGetPid (k.pidOf (m.taskItems i)) = null then
        refreshLoop k fuel i (updatePidList i m)
      else refreshLoop k fuel (i + 1) m.getPid
    else m

/-- `refresh_pids`. -/
def refreshPids (k : Kernel) (m : Mod) : Mod := refreshLoop k m.nPids 0 m

/-- `bind_pid`. -/
def bindPid (k : Kernel) (pid : Int) (m : Mod) : Mod × Int :=
  if pid ≤ 0 ∨ pid > maxPidN then (m, -1)
  else
    let (m, ok) := findTargetProcess k pid m
    if ok = 0 then (m, -1) else (m, 0)

/-- `unbind_pid`. -/
def unbindPid (k : Kernel) (pid : Int) (m : Mod) : Mod × Int :=
  if pid ≤ 0 ∨ pid > maxPidN then (m, -1)
  else
    match (List.range m.nPids).find? (m.manages k pid) with
    | none => (m, -1)
    | some i => (updatePidList i m, 0)

end Ambix.Hyb
