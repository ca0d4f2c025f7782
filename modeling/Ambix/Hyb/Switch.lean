import Ambix.Hyb.PageWalk

/-!
# `switch_walk`

Two walks, NVRAM then DRAM, and the in-place rearrangement of `found_addrs` that
makes the two sections equally long.
-/

namespace Ambix.Hyb

open Ambix.Lib

/-- `for (i = 0; i < n; i++)` both fields of `found_addrs[dst + i]` from
`found_addrs[src + i]`. -/
def Mod.shiftLeft (src dst n : Nat) (m : Mod) : Mod :=
  (List.range n).foldl (fun m i => m.moveFound (dst + i) (src + i)) m

/-- The same for `i = n - 1` down to `0`. -/
def Mod.shiftRight (src dst n : Nat) (m : Mod) : Mod :=
  (List.range n).reverse.foldl (fun m i => m.moveFound (dst + i) (src + i)) m

/-- `for (i = 0; i < n; i++)` entry `nvram_found++` from `switch_backup_addrs[i]`. -/
def Mod.fillNvram (nvramFound n : Nat) (m : Mod) : Mod :=
  (List.range n).foldl (fun m i =>
    { m with
      foundAddrs := m.foundAddrs.set (nvramFound + i) (m.switchBackupAddrs i)
      trace := .store .found (nvramFound + i) :: m.trace }) m

/-- The part of `switch_walk` after the two walks. -/
def pairUp (nvramFound dramFound : Nat) (m : Mod) : Mod :=
  if dramFound = nvramFound then m
  else if dramFound < nvramFound ∧ 0 < m.nBackup then
    let remaining := nvramFound - dramFound
    if m.nBackup < remaining then
      -- shift left dram entries (discard excess nvram addrs)
      let oldDramStart := nvramFound + 1
      let nvramFound := dramFound + m.nBackup
      let newDramStart := nvramFound + 1
      let m := m.setFoundPid nvramFound 0
      let m := m.shiftLeft oldDramStart newDramStart dramFound
      let m := m.setNFound (newDramStart + dramFound)
      m.appendFound .backup m.nBackup
    else m.appendFound .backup remaining
  else if nvramFound < dramFound ∧ 0 < m.nSwitchBackup then
    let remaining := dramFound - nvramFound
    let toAdd := min m.nSwitchBackup remaining
    let oldDramStart := nvramFound + 1
    let newDramStart := oldDramStart + toAdd
    let dramFound := nvramFound + toAdd
    -- shift right dram entries
    let m := m.shiftRight oldDramStart newDramStart dramFound
    let m := m.fillNvram nvramFound toAdd
    let nvramFound := nvramFound + toAdd
    let m := m.setFoundPid nvramFound 0
    m.setNFound (nvramFound * 2 + 1)
  else
    (m.setFoundPid 0 0).setNFound 1

/-- `switch_walk`. -/
def switchWalk (P : Platform) (n : Int) (σ : Sys) : Sys × Int :=
  let σ := { σ with mod := σ.mod.setQuota .switchBackup n }
  let σ := walkTier (pteCallbackNvramSwitch P) .nvram σ
  let m := σ.mod.setFoundPid σ.mod.nFound 0
  if m.nFound = 0 ∧ m.nSwitchBackup = 0 then
    ({ σ with mod := m.setNFound (m.nFound + 1) }, -1)
  else
    let nvramFound := m.nFound
    let dramToFind := intMin (nvramFound + m.nSwitchBackup) n
    let m := m.setNFound (m.nFound + 1)
    let m := m.setQuota .backup (m.nFound + dramToFind)
    let σ := walkTier (pteCallbackMem P) .dram { σ with mod := m }
    let dramFound := σ.mod.nFound - nvramFound - 1
    ({ σ with mod := pairUp nvramFound dramFound σ.mod }, 0)

end Ambix.Hyb
