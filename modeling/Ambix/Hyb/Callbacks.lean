import Ambix.Hyb.State

/-!
# The page-table callbacks

One definition for each `pte_callback_*`, branch by branch as in the source. A
callback gets the entry (`none` for a `NULL` pointer) and the address of its
page, and returns the globals it leaves, the entry it commits (if it does) and
its return code: non-zero stops the walk.
-/

namespace Ambix.Hyb

open Ambix.Lib

/-- What a callback leaves behind. -/
structure CbResult where
  mod : Mod
  commit : Option Pte
  ret : Int

/-- The type of `mm_walk_ops.pte_entry`. -/
abbrev PteEntry := Option Pte → Nat → Mod → CbResult

/-- `return 0` with the entry as it was. -/
def CbResult.pass (m : Mod) : CbResult := ⟨m, none, 0⟩

/-- The quota test every counting callback starts with: record the hand, stop. -/
def CbResult.full (tier : Tier) (addr : Nat) (m : Mod) : CbResult :=
  ⟨m.setLastAddr tier addr, none, 1⟩

/-- The entry committed by
`*ptep = pte_mkold(old_pte); *ptep = pte_mkclean(old_pte);`: the second
assignment starts from `old_pte` again. -/
def modifyProt (oldPte : Pte) : Pte :=
  let _ptep := pteMkold oldPte
  pteMkclean oldPte

/-- `!pte_present || !pte_write || !contains(pfn_to_nid(pte_pfn), mode)`. -/
def offTier (P : Platform) (mode : FindMode) (pte : Pte) : Bool :=
  !pte.present || !pte.write || !contains P (P.pfnToNid pte.pfn) mode

section

variable (p : Pte)

@[simp] theorem modifyProt_young : (modifyProt p).young = p.young := rfl
@[simp] theorem modifyProt_dirty : (modifyProt p).dirty = false := rfl
@[simp] theorem modifyProt_present : (modifyProt p).present = p.present := rfl
@[simp] theorem modifyProt_write : (modifyProt p).write = p.write := rfl
@[simp] theorem modifyProt_pfn : (modifyProt p).pfn = p.pfn := rfl

@[simp] theorem offTier_modifyProt (P : Platform) (mode : FindMode) :
    offTier P mode (modifyProt p) = offTier P mode p := rfl

end

/-- `n_backup < (n_to_find - n_found)`, for either backup list. -/
def Mod.spareOpen (s : Spare) (m : Mod) : Prop := (m.nSpare s : Int) < m.quotaLeft

instance (s : Spare) (m : Mod) : Decidable (m.spareOpen s) :=
  inferInstanceAs (Decidable ((m.nSpare s : Int) < m.quotaLeft))

/-- `pte_callback_mem`. -/
def pteCallbackMem (P : Platform) : PteEntry := fun ptep addr m =>
  if (m.nFound : Int) = m.nToFind then .full .dram addr m
  else
    match ptep with
    | none => .pass m
    | some pte =>
      if offTier P .dram pte then .pass m
      else if !pte.young then .pass (m.pushFound ⟨addr, m.currPid⟩)
      else
        let m := if !pte.dirty ∧ m.spareOpen .backup then
            m.pushSpare .backup ⟨addr, m.currPid⟩ else m
        ⟨m, some (modifyProt pte), 0⟩

/-- `pte_callback_nvram_force`. -/
def pteCallbackNvramForce (P : Platform) : PteEntry := fun ptep addr m =>
  if (m.nFound : Int) = m.nToFind then .full .nvram addr m
  else
    match ptep with
    | none => .pass m
    | some pte =>
      if offTier P .nvram pte then .pass m
      else if pte.young && pte.dirty then .pass (m.pushFound ⟨addr, m.currPid⟩)
      else
        let m := if m.spareOpen .backup then m.pushSpare .backup ⟨addr, m.currPid⟩ else m
        ⟨m, some (modifyProt pte), 0⟩

/-- `pte_callback_nvram_write`. -/
def pteCallbackNvramWrite (P : Platform) : PteEntry := fun ptep addr m =>
  if (m.nFound : Int) = m.nToFind then .full .nvram addr m
  else
    match ptep with
    | none => .pass m
    | some pte =>
      if offTier P .nvram pte then .pass m
      else if pte.dirty then
        if pte.young then .pass (m.pushFound ⟨addr, m.currPid⟩)
        else if m.spareOpen .backup then .pass (m.pushSpare .backup ⟨addr, m.currPid⟩)
        else .pass m
      else .pass m

/-- `pte_callback_nvram_intensive`. -/
def pteCallbackNvramIntensive (P : Platform) : PteEntry := fun ptep addr m =>
  if (m.nFound : Int) = m.nToFind then .full .nvram addr m
  else
    match ptep with
    | none => .pass m
    | some pte =>
      if offTier P .nvram pte then .pass m
      else if pte.young then
        if pte.dirty then .pass (m.pushFound ⟨addr, m.currPid⟩)
        else if m.spareOpen .backup then .pass (m.pushSpare .backup ⟨addr, m.currPid⟩)
        else .pass m
      else .pass m

/-- `pte_callback_nvram_switch`. -/
def pteCallbackNvramSwitch (P : Platform) : PteEntry := fun ptep addr m =>
  if (m.nFound : Int) = m.nToFind then .full .nvram addr m
  else
    match ptep with
    | none => .pass m
    | some pte =>
      if offTier P .nvram pte then .pass m
      else if pte.young then
        if pte.dirty then .pass (m.pushFound ⟨addr, m.currPid⟩)
        else if m.spareOpen .switchBackup then .pass (m.pushSpare .switchBackup ⟨addr, m.currPid⟩)
        else .pass m
      else .pass m

/-- `pte_callback_nvram_clear`: no quota, no candidates. -/
def pteCallbackNvramClear (P : Platform) : PteEntry := fun ptep _addr m =>
  match ptep with
  | none => .pass m
  | some pte =>
    if offTier P .nvram pte then .pass m
    else ⟨m, some (modifyProt pte), 0⟩

end Ambix.Hyb
