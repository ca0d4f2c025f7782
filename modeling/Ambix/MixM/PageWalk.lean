import Ambix.MixM.Registry
import Ambix.MixM.Callbacks
import Ambix.Hyb.Switch

/-!
# The page walkers of the MixM module

`do_page_walk` locks every `mm` without looking at it first: an error is the oops of a
`NULL` one, with the state it leaves.
-/

namespace Ambix.MixM

open Ambix.Lib Ambix.Hyb

/-- One stretch of `do_page_walk`: load `mm` and `curr_pid` from `task_items[i]`, lock and
walk. -/
def walkTask (cb : PteEntry) (i start stop : Nat) (s : State) : Except State State :=
  let s := s.touch i
  let t := s.sys.mod.taskItems i
  let m := s.sys.mod.setCurrPid (s.sys.kernel.pidOf t)
  match s.sys.mm t with
  | none => .error (s.setMod m)
  | some mm =>
    let r := walkPageRange cb t mm start stop m
    .ok { s with sys := { s.sys with mod := r.1, mm := Function.update s.sys.mm t (some r.2) } }

/-- The two middle loops of `do_page_walk`. -/
def walkTasks (cb : PteEntry) : List Nat → State → Except State (State × Option Nat)
  | [], s => .ok (s, none)
  | i :: is, s => do
    let s ← walkTask cb i 0 maxAddress s
    if s.sys.mod.quotaMet then .ok (s, some i) else walkTasks cb is s

/-- `do_page_walk`. -/
def doPageWalk (cb : PteEntry) (lastPid lastAddr : Nat) (s : State) :
    Except State (State × Nat) := do
  let s ← walkTask cb lastPid lastAddr maxAddress s
  if s.sys.mod.quotaMet then .ok (s, lastPid)
  else
    match ← walkTasks cb (List.range' (lastPid + 1) (s.sys.mod.nPids - (lastPid + 1))) s with
    | (s, some i) => .ok (s, i)
    | (s, none) =>
      match ← walkTasks cb (List.range lastPid) s with
      | (s, some i) => .ok (s, i)
      | (s, none) =>
        -- finish cycle at last_pid->last_addr
        let s ← walkTask cb lastPid 0 (lastAddr + 1) s
        .ok (s, lastPid)

/-- `last_pid_dram = do_page_walk(ops, last_pid_dram, last_addr_dram)` and the same for
NVRAM. -/
def walkTier (cb : PteEntry) (tier : Tier) (s : State) : Except State State := do
  let (s, lastPid) ← doPageWalk cb (s.sys.mod.lastPid tier) (s.sys.mod.lastAddr tier) s
  .ok (s.setMod (s.sys.mod.setLastPid tier lastPid))

/-- The callback and the tier `mem_walk` selects for a mode. -/
def memWalkOps (P : Platform) : FindMode → Option (PteEntry × Tier)
  | .dram => some (pteCallbackMem P, .dram)
  | .nvram => some (pteCallbackNvramForce P, .nvram)
  | .nvramIntensive => some (pteCallbackNvramIntensive P, .nvram)
  | .nvramWrite => some (pteCallbackNvramWrite P, .nvram)
  | .switch | .nvramClear => none

/-- `mem_walk`. -/
def memWalk (P : Platform) (n : Int) (mode : FindMode) (s : State) :
    Except State (State × Int) :=
  match memWalkOps P mode with
  | none => .ok (s, 0)
  | some (cb, tier) => do
    let s ← walkTier cb tier (s.setMod (s.sys.mod.setQuota .backup n))
    let m := s.sys.mod
    if m.quotaMet then .ok (s, 0)
    else if 0 < m.nBackup then
      let remaining := (m.nToFind - m.nFound).toNat
      let m := m.appendFound .backup (min remaining m.nBackup)
      .ok (s.setMod m, if m.quotaMet then 0 else -1)
    else .ok (s, -1)

/-- The loop of `clear_walk`, which takes the lock before it sets `curr_pid`. -/
def clearTasks (P : Platform) : List Nat → State → Except State State
  | [], s => .ok s
  | i :: is, s =>
    match s.sys.mm (s.sys.mod.taskItems i) with
    | none => .error (s.touch i)
    | some _ => do
      let s ← walkTask (pteCallbackNvramClear P) i 0 maxAddress s
      clearTasks P is s

/-- `clear_walk`. -/
def clearWalk (P : Platform) (s : State) : Except State State :=
  clearTasks P (List.range s.sys.mod.nPids) s

/-- `switch_walk`. What follows the two walks is as in the hyb module. -/
def switchWalk (P : Platform) (n : Int) (s : State) : Except State (State × Int) := do
  let s ← walkTier (pteCallbackNvramSwitch P) .nvram
    (s.setMod (s.sys.mod.setQuota .switchBackup n))
  let m := s.sys.mod.setFoundPid s.sys.mod.nFound 0
  if m.nFound = 0 ∧ m.nSwitchBackup = 0 then .ok (s.setMod (m.setNFound (m.nFound + 1)), -1)
  else
    let nvramFound := m.nFound
    let dramToFind := intMin (nvramFound + m.nSwitchBackup) n
    let m := m.setNFound (m.nFound + 1)
    let s ← walkTier (pteCallbackMem P) .dram
      (s.setMod (m.setQuota .backup (m.nFound + dramToFind)))
    let dramFound := s.sys.mod.nFound - nvramFound - 1
    .ok (s.setMod (pairUp nvramFound dramFound s.sys.mod), 0)

end Ambix.MixM
