import Ambix.Hyb.Callbacks

/-!
# The callbacks of the MixM module that differ

`pte_callback_nvram_force`, `pte_callback_nvram_write` and `pte_callback_nvram_clear` are
those of the hyb module.
-/

namespace Ambix.MixM

open Ambix.Hyb

/-- `pte_callback_mem`: its backups are dirty. -/
def pteCallbackMem (P : Platform) : PteEntry := fun ptep addr m =>
  if (m.nFound : Int) = m.nToFind then .full .dram addr m
  else
    match ptep with
    | none => .pass m
    | some pte =>
      if offTier P .dram pte then .pass m
      else if !pte.young then .pass (m.pushFound ⟨addr, m.currPid⟩)
      else
        let m := if pte.dirty ∧ m.spareOpen .backup then
            m.pushSpare .backup ⟨addr, m.currPid⟩ else m
        ⟨m, some (modifyProt pte), 0⟩

/-- `pte_callback_nvram_intensive`: accessed clean pages first, and all others are reset. -/
def pteCallbackNvramIntensive (P : Platform) : PteEntry := fun ptep addr m =>
  if (m.nFound : Int) = m.nToFind then .full .nvram addr m
  else
    match ptep with
    | none => .pass m
    | some pte =>
      if offTier P .nvram pte then .pass m
      else if pte.young && !pte.dirty then .pass (m.pushFound ⟨addr, m.currPid⟩)
      else
        let m := if pte.young ∧ m.spareOpen .backup then
            m.pushSpare .backup ⟨addr, m.currPid⟩ else m
        ⟨m, some (modifyProt pte), 0⟩

/-- `pte_callback_nvram_switch`: accessed clean pages first, and every page is reset. -/
def pteCallbackNvramSwitch (P : Platform) : PteEntry := fun ptep addr m =>
  if (m.nFound : Int) = m.nToFind then .full .nvram addr m
  else
    match ptep with
    | none => .pass m
    | some pte =>
      if offTier P .nvram pte then .pass m
      else
        let m :=
          if pte.young then
            if !pte.dirty then m.pushFound ⟨addr, m.currPid⟩
            else if m.spareOpen .switchBackup then m.pushSpare .switchBackup ⟨addr, m.currPid⟩
            else m
          else m
        ⟨m, some (modifyProt pte), 0⟩

end Ambix.MixM
