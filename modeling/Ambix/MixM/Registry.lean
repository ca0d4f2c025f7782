import Ambix.Hyb.Registry

/-!
# The pid registry of the MixM module

`ambix_MixM-mod.c` declares the variables of `ambix_hyb-mod.c`. Its registry differs in
one comparison, and in `MAX_PIDS`. `kmalloc` gives `task_items` that many entries; the
ghost list `accesses` records which entries a request reads or writes.
-/

namespace Ambix.MixM

open Ambix.Lib Ambix.Hyb

/-- `MAX_PIDS`. -/
def maxPids : Nat := 5

/-- The module, the address spaces of all tasks and the pid tables. -/
structure State where
  sys : Sys
  /-- Ghost: the indices into `task_items` that the current request used, latest first. -/
  accesses : List Nat

namespace State

variable (s : State)

/-- `task_items[i]` is read or written. -/
def touch (i : Nat) : State := { s with accesses := i :: s.accesses }

def setMod (m : Mod) : State := { s with sys := { s.sys with mod := m } }

@[simp] theorem touch_sys (i : Nat) : (s.touch i).sys = s.sys := rfl

@[simp] theorem touch_accesses (i : Nat) : (s.touch i).accesses = i :: s.accesses := rfl

@[simp] theorem setMod_sys (m : Mod) : (s.setMod m).sys = { s.sys with mod := m } := rfl

@[simp] theorem setMod_accesses (m : Mod) : (s.setMod m).accesses = s.accesses := rfl

end State

/-- The scan for a number in `find_target_process` and `unbind_pid`: where it stops. -/
def scanItems (pid : Int) : List Nat → State → State × Option Nat
  | [], s => (s, none)
  | i :: is, s =>
    let s := s.touch i
    if s.sys.mod.manages s.sys.kernel pid i then (s, some i) else scanItems pid is s

/-- `find_target_process`. -/
def findTargetProcess (pid : Int) (s : State) : State × Int :=
  if maxPids < s.sys.mod.nPids then (s, 0)
  else
    match scanItems pid (List.range s.sys.mod.nPids) s with
    | (s, some _) => (s, 0)
    | (s, none) =>
      let pidS := s.sys.kernel.findGetPid pid
      if pidS = null then (s, 0)
      else
        let s := s.setMod s.sys.mod.getPid
        let t := s.sys.kernel.getPidTask pidS
        if t ≠ null then
          let s := s.touch s.sys.mod.nPids
          (s.setMod { s.sys.mod with
            taskItems := s.sys.mod.taskItems.set s.sys.mod.nPids t
            nPids := s.sys.mod.nPids + 1
            taskRefs := s.sys.mod.taskRefs + 1 }, 1)
        else (s, 0)

/-- The loop of `update_pid_list` reads entry `j + 1` and writes entry `j`. -/
def shiftAccesses (i : Nat) (s : State) : State :=
  (List.range' i (s.sys.mod.nPids - 1 - i)).foldl (fun s j => (s.touch (j + 1)).touch j) s

/-- `update_pid_list`, as in the hyb module. -/
def updatePidList (i : Nat) (s : State) : State :=
  (shiftAccesses i s).setMod (Hyb.updatePidList i s.sys.mod)

/-- The first loop of `refresh_pids` from index `i` on, as in the hyb module. -/
def refreshLoop : Nat → Nat → State → State
  | 0, _, s => s
  | fuel + 1, i, s =>
    if i < s.sys.mod.nPids then
      let s := s.touch i
      if s.sys.mod.taskItems i = null then refreshLoop fuel i (updatePidList i s)
      else if s.sys.kernel.findGetPid (s.sys.kernel.pidOf (s.sys.mod.taskItems i)) = null then
        refreshLoop fuel i (updatePidList i s)
      else refreshLoop fuel (i + 1) (s.setMod s.sys.mod.getPid)
    else s

/-- `refresh_pids`. Its second loop prints every entry. -/
def refreshPids (s : State) : State :=
  let s := refreshLoop s.sys.mod.nPids 0 s
  (List.range s.sys.mod.nPids).foldl State.touch s

/-- `bind_pid`. -/
def bindPid (pid : Int) (s : State) : State × Int :=
  if pid ≤ 0 ∨ pid > maxPidN then (s, -1)
  else
    let (s, ok) := findTargetProcess pid s
    if ok = 0 then (s, -1) else (s, 0)

/-- `unbind_pid`. -/
def unbindPid (pid : Int) (s : State) : State × Int :=
  if pid ≤ 0 ∨ pid > maxPidN then (s, -1)
  else
    match scanItems pid (List.range s.sys.mod.nPids) s with
    | (s, none) => (s, -1)
    | (s, some i) => (updatePidList i s, 0)

end Ambix.MixM
