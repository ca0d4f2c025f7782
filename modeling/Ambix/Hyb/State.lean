import Ambix.Hyb.Kernel
import Ambix.Lib.Arr
import Ambix.Lib.QuotaScan

/-!
# The globals of the hyb module

`Mod` holds the file-scope variables of `ambix_hyb-mod.c`. Four ghost fields
record what the C state does not show: how many references the module has taken,
which process was being walked when a hand address was recorded, and what the
request being processed has done so far (`trace`, latest first).

Signed globals that are never negative are `Nat`; `nToFind` is not one of them.
-/

namespace Ambix.Hyb

open Ambix.Lib

/-- The two tiers a hand belongs to. -/
inductive Tier
  | dram
  | nvram
deriving DecidableEq, Repr

/-- The mode that selects a tier's node list in `contains`. -/
def Tier.mode : Tier → FindMode
  | .dram => .dram
  | .nvram => .nvram

/-- The two arrays a callback puts backup candidates in. -/
inductive Spare
  | backup
  | switchBackup
deriving DecidableEq, Repr

/-- The candidate arrays. -/
inductive Buf
  | found
  | spare (s : Spare)
deriving DecidableEq, Repr

/-- The counters a callback works with. -/
structure Counters where
  nFound : Nat
  nToFind : Int
  nBackup : Nat
  nSwitchBackup : Nat
deriving DecidableEq, Repr

/-- What a request does to the page tables and the arrays, one access at a time. -/
inductive Event
  /-- A callback is invoked on the entry of `task` at `addr`. -/
  | visit (task : TaskPtr) (addr : Nat) (pte : Pte) (counters : Counters)
  /-- `ptep_modify_prot_commit` replaces `old` by `new`. -/
  | commit (task : TaskPtr) (addr : Nat) (old new : Pte)
  /-- A candidate, backup, separator or shifted entry is written. -/
  | store (buf : Buf) (index : Nat)
  /-- The return-code entry is written. -/
  | retval (index : Nat)
deriving DecidableEq, Repr

/-- The file-scope variables of the module. -/
structure Mod where
  foundAddrs : Arr AddrInfo
  backupAddrs : Arr AddrInfo
  switchBackupAddrs : Arr AddrInfo
  taskItems : Arr TaskPtr
  nPids : Nat
  lastAddrDram : Nat
  lastAddrNvram : Nat
  lastPidDram : Nat
  lastPidNvram : Nat
  currPid : Int
  nToFind : Int
  nFound : Nat
  nBackup : Nat
  nSwitchBackup : Nat
  /-- Ghost: `task_struct` references taken and not dropped. -/
  taskRefs : Nat
  /-- Ghost: `struct pid` references taken and not dropped. -/
  pidRefs : Nat
  /-- Ghost: the pid being walked when each hand address was recorded. -/
  owner : Tier → Int
  /-- Ghost: the actions of the current request. -/
  trace : List Event

/-- The module right after loading. The three buffers and the task array come
from `kmalloc` and hold whatever was there. -/
def Mod.loaded (found backup switchBackup : Arr AddrInfo) (tasks : Arr TaskPtr)
    (owner : Tier → Int) : Mod where
  foundAddrs := found
  backupAddrs := backup
  switchBackupAddrs := switchBackup
  taskItems := tasks
  nPids := 0
  lastAddrDram := 0
  lastAddrNvram := 0
  lastPidDram := 0
  lastPidNvram := 0
  currPid := 0
  nToFind := 0
  nFound := 0
  nBackup := 0
  nSwitchBackup := 0
  taskRefs := 0
  pidRefs := 0
  owner := owner
  trace := []

/-- The module, the address spaces of all tasks and the pid tables. -/
structure Sys where
  kernel : Kernel
  mm : TaskPtr → Option MmStruct
  mod : Mod

namespace Mod

/-- The registry as a list: `task_items[0..n_pids)`. -/
def tasks (m : Mod) : List TaskPtr := m.taskItems.slice 0 m.nPids

theorem tasks_eq (m : Mod) : m.tasks = (List.range m.nPids).map m.taskItems := by
  simp [tasks, Arr.slice]

@[simp] theorem length_tasks (m : Mod) : m.tasks.length = m.nPids := by simp [tasks]

/-- The hand of a tier, process index and address. -/
def lastPid (m : Mod) : Tier → Nat
  | .dram => m.lastPidDram
  | .nvram => m.lastPidNvram

def lastAddr (m : Mod) : Tier → Nat
  | .dram => m.lastAddrDram
  | .nvram => m.lastAddrNvram

def counters (m : Mod) : Counters := ⟨m.nFound, m.nToFind, m.nBackup, m.nSwitchBackup⟩

/-- `n_found = k`. -/
def setNFound (k : Nat) (m : Mod) : Mod := { m with nFound := k }

/-- Append to the ghost trace. -/
def log (e : Event) (m : Mod) : Mod := { m with trace := e :: m.trace }

/-- The reference that a successful `find_get_pid` takes. -/
def getPid (m : Mod) : Mod := { m with pidRefs := m.pidRefs + 1 }

/-- `curr_pid = p`. -/
def setCurrPid (p : Int) (m : Mod) : Mod := { m with currPid := p }

/-- `last_addr_dram = addr` or `last_addr_nvram = addr`, in a callback. -/
def setLastAddr (tier : Tier) (addr : Nat) (m : Mod) : Mod :=
  match tier with
  | .dram => { m with lastAddrDram := addr, owner := Function.update m.owner .dram m.currPid }
  | .nvram => { m with lastAddrNvram := addr, owner := Function.update m.owner .nvram m.currPid }

/-- `last_pid_dram = i` or `last_pid_nvram = i`. -/
def setLastPid (tier : Tier) (i : Nat) (m : Mod) : Mod :=
  match tier with
  | .dram => { m with lastPidDram := i }
  | .nvram => { m with lastPidNvram := i }

/-- `found_addrs[n_found].addr = x.addr; found_addrs[n_found++].pid_retval = x.pid_retval`. -/
def pushFound (x : AddrInfo) (m : Mod) : Mod :=
  { m with
    foundAddrs := m.foundAddrs.set m.nFound x
    nFound := m.nFound + 1
    trace := .store .found m.nFound :: m.trace }

/-- `found_addrs[i].pid_retval = p`: the slot keeps its stale address. -/
def setFoundPid (i : Nat) (p : Int) (m : Mod) : Mod :=
  { m with
    foundAddrs := m.foundAddrs.set i { m.foundAddrs i with pidRetval := p }
    trace := .store .found i :: m.trace }

@[simp] theorem setNFound_nFound (k : Nat) (m : Mod) : (m.setNFound k).nFound = k := rfl

@[simp] theorem setFoundPid_nFound (i : Nat) (p : Int) (m : Mod) :
    (m.setFoundPid i p).nFound = m.nFound := rfl

@[simp] theorem setFoundPid_nSwitchBackup (i : Nat) (p : Int) (m : Mod) :
    (m.setFoundPid i p).nSwitchBackup = m.nSwitchBackup := rfl

/-- Both fields of `found_addrs[src]` copied to `found_addrs[dst]`. -/
def moveFound (dst src : Nat) (m : Mod) : Mod :=
  { m with
    foundAddrs := m.foundAddrs.set dst (m.foundAddrs src)
    trace := .store .found dst :: m.trace }

/-- The backup list a callback appends to. -/
def spareAddrs (m : Mod) : Spare → Arr AddrInfo
  | .backup => m.backupAddrs
  | .switchBackup => m.switchBackupAddrs

def nSpare (m : Mod) : Spare → Nat
  | .backup => m.nBackup
  | .switchBackup => m.nSwitchBackup

/-- `backup_addrs[n_backup++] = x` or `switch_backup_addrs[n_switch_backup++] = x`. -/
def pushSpare (s : Spare) (x : AddrInfo) (m : Mod) : Mod :=
  match s with
  | .backup =>
    { m with
      backupAddrs := m.backupAddrs.set m.nBackup x
      nBackup := m.nBackup + 1
      trace := .store (.spare .backup) m.nBackup :: m.trace }
  | .switchBackup =>
    { m with
      switchBackupAddrs := m.switchBackupAddrs.set m.nSwitchBackup x
      nSwitchBackup := m.nSwitchBackup + 1
      trace := .store (.spare .switchBackup) m.nSwitchBackup :: m.trace }

section Spares

variable (s : Spare) (m : Mod)

@[simp] theorem nSpare_log (e : Event) : (m.log e).nSpare s = m.nSpare s := by cases s <;> rfl

@[simp] theorem spareAddrs_log (e : Event) : (m.log e).spareAddrs s = m.spareAddrs s := by
  cases s <;> rfl

@[simp] theorem nSpare_setCurrPid (p : Int) : (m.setCurrPid p).nSpare s = m.nSpare s := by
  cases s <;> rfl

@[simp] theorem spareAddrs_setCurrPid (p : Int) :
    (m.setCurrPid p).spareAddrs s = m.spareAddrs s := by cases s <;> rfl

@[simp] theorem nSpare_setLastAddr (tier : Tier) (addr : Nat) :
    (m.setLastAddr tier addr).nSpare s = m.nSpare s := by cases s <;> cases tier <;> rfl

@[simp] theorem spareAddrs_setLastAddr (tier : Tier) (addr : Nat) :
    (m.setLastAddr tier addr).spareAddrs s = m.spareAddrs s := by
  cases s <;> cases tier <;> rfl

@[simp] theorem nSpare_pushFound (x : AddrInfo) : (m.pushFound x).nSpare s = m.nSpare s := by
  cases s <;> rfl

@[simp] theorem spareAddrs_pushFound (x : AddrInfo) :
    (m.pushFound x).spareAddrs s = m.spareAddrs s := by cases s <;> rfl

@[simp] theorem nSpare_pushSpare (x : AddrInfo) :
    (m.pushSpare s x).nSpare s = m.nSpare s + 1 := by cases s <;> rfl

@[simp] theorem spareAddrs_pushSpare (x : AddrInfo) :
    (m.pushSpare s x).spareAddrs s = (m.spareAddrs s).set (m.nSpare s) x := by cases s <;> rfl

end Spares

/-- `n_to_find = n; n_backup = 0`, or the same with `n_switch_backup`. -/
def setQuota (s : Spare) (n : Int) (m : Mod) : Mod :=
  match s with
  | .backup => { m with nToFind := n, nBackup := 0 }
  | .switchBackup => { m with nToFind := n, nSwitchBackup := 0 }

/-- `n_to_find - n_found` as a C int. -/
def quotaLeft (m : Mod) : Int := wrapInt (m.nToFind - m.nFound)

/-- The entries of the reply, return code included. -/
def reply (m : Mod) : List AddrInfo := m.foundAddrs.slice 0 m.nFound

end Mod

end Ambix.Hyb
