import Ambix.Header

/-!
# What the module sees of the kernel

Page-table entries, address spaces and pid lookup. Pointers are numbers with
`null` for `NULL`. A process owns its address space; `none` is a task whose `mm`
has become `NULL` because it exited and was not reaped yet.
-/

namespace Ambix.Hyb

/-- The `NULL` pointer. -/
def null : Nat := 0

/-- A `struct task_struct *`. -/
abbrev TaskPtr := Nat

/-- A `struct pid *`. -/
abbrev PidPtr := Nat

/-- The parts of a `pte_t` the module reads or changes. -/
structure Pte where
  present : Bool
  write : Bool
  young : Bool
  dirty : Bool
  pfn : Nat
deriving DecidableEq, Repr

/-- `pte_mkold`: its argument with only the accessed bit cleared. -/
def pteMkold (p : Pte) : Pte := { p with young := false }

/-- `pte_mkclean`: its argument with only the dirty bit cleared. -/
def pteMkclean (p : Pte) : Pte := { p with dirty := false }

/-- A lowest-level page-table entry and the address of its page. -/
structure PageEntry where
  addr : Nat
  pte : Pte
deriving DecidableEq, Repr

/-- An address space: its lowest-level entries in ascending order of address,
all in the user range. -/
structure MmStruct where
  ptes : List PageEntry
  ascending : (ptes.map PageEntry.addr).Pairwise (· < ·)
  user : ∀ a ∈ ptes.map PageEntry.addr, a < maxAddress

/-- The same pages with other entries. -/
def MmStruct.withPtes (mm : MmStruct) (ptes : List PageEntry)
    (h : ptes.map PageEntry.addr = mm.ptes.map PageEntry.addr) : MmStruct where
  ptes := ptes
  ascending := h ▸ mm.ascending
  user := h ▸ mm.user

@[simp] theorem MmStruct.withPtes_ptes (mm : MmStruct) (ptes : List PageEntry)
    (h : ptes.map PageEntry.addr = mm.ptes.map PageEntry.addr) :
    (mm.withPtes ptes h).ptes = ptes := rfl

theorem MmStruct.ext {a b : MmStruct} (h : a.ptes = b.ptes) : a = b := by
  cases a; cases b; cases h; rfl

/-- Pid lookup. `findGetPid nr` is non-`NULL` when the number is allocated;
`getPidTask` is the task attached to it, whose own number it is. -/
structure Kernel where
  pidOf : TaskPtr → Int
  findGetPid : Int → PidPtr
  getPidTask : PidPtr → TaskPtr
  pidOf_getPidTask : ∀ nr, findGetPid nr ≠ null → getPidTask (findGetPid nr) ≠ null →
    pidOf (getPidTask (findGetPid nr)) = nr

end Ambix.Hyb
