import Ambix.Hyb.Callbacks

/-!
# The page walkers: `do_page_walk`, `mem_walk`, `clear_walk`

`walk_page_range(mm, start, end)` calls the callback in ascending order on each
entry whose page starts in `[start, end)`, until the callback returns non-zero.
The ghost trace gets a `visit` for every call and a `commit` for every entry a
callback replaces.
-/

namespace Ambix.Hyb

open Ambix.Lib

/-- One call of the callback on an entry. -/
def invoke (cb : PteEntry) (t : TaskPtr) (e : PageEntry) (m : Mod) : CbResult :=
  let r := cb (some e.pte) e.addr (m.log (.visit t e.addr e.pte m.counters))
  match r.commit with
  | none => r
  | some new => { r with mod := r.mod.log (.commit t e.addr e.pte new) }

/-- The entry after the call. -/
def PageEntry.committed (e : PageEntry) (commit : Option Pte) : PageEntry :=
  { e with pte := commit.getD e.pte }

/-- `walk_page_range` over a list of entries. -/
def walkPtes (cb : PteEntry) (t : TaskPtr) (start stop : Nat) :
    List PageEntry → Mod → Mod × List PageEntry
  | [], m => (m, [])
  | e :: es, m =>
    if start ≤ e.addr ∧ e.addr < stop then
      let r := invoke cb t e m
      if r.ret ≠ 0 then (r.mod, e.committed r.commit :: es)
      else
        let w := walkPtes cb t start stop es r.mod
        (w.1, e.committed r.commit :: w.2)
    else
      let w := walkPtes cb t start stop es m
      (w.1, e :: w.2)

theorem walkPtes_addrs (cb : PteEntry) (t : TaskPtr) (start stop : Nat) (es : List PageEntry)
    (m : Mod) :
    (walkPtes cb t start stop es m).2.map PageEntry.addr = es.map PageEntry.addr := by
  induction es generalizing m with
  | nil => rfl
  | cons e es ih =>
    unfold walkPtes
    split
    · simp only
      split <;> simp [PageEntry.committed, ih]
    · simp [ih]

/-- `walk_page_range`. -/
def walkPageRange (cb : PteEntry) (t : TaskPtr) (mm : MmStruct) (start stop : Nat) (m : Mod) :
    Mod × MmStruct :=
  ((walkPtes cb t start stop mm.ptes m).1,
    mm.withPtes (walkPtes cb t start stop mm.ptes m).2 (walkPtes_addrs ..))

/-- One stretch of `do_page_walk`: load `mm` and `curr_pid` from `task_items[i]`
and walk, unless `mm` is `NULL`. -/
def walkTask (cb : PteEntry) (i start stop : Nat) (σ : Sys) : Sys :=
  let t := σ.mod.taskItems i
  let m := σ.mod.setCurrPid (σ.kernel.pidOf t)
  match σ.mm t with
  | none => { σ with mod := m }
  | some mm =>
    let r := walkPageRange cb t mm start stop m
    { σ with mod := r.1, mm := Function.update σ.mm t (some r.2) }

/-- `n_found >= n_to_find`. -/
def Mod.quotaMet (m : Mod) : Prop := m.nToFind ≤ (m.nFound : Int)

instance (m : Mod) : Decidable m.quotaMet :=
  inferInstanceAs (Decidable (m.nToFind ≤ (m.nFound : Int)))

/-- The two middle loops of `do_page_walk`: whole address spaces, one process
after the other, returning the index of the process that met the quota. -/
def walkTasks (cb : PteEntry) : List Nat → Sys → Sys × Option Nat
  | [], σ => (σ, none)
  | i :: is, σ =>
    let σ := walkTask cb i 0 maxAddress σ
    if σ.mod.quotaMet then (σ, some i) else walkTasks cb is σ

/-- `do_page_walk`. -/
def doPageWalk (cb : PteEntry) (lastPid lastAddr : Nat) (σ : Sys) : Sys × Nat :=
  let σ := walkTask cb lastPid lastAddr maxAddress σ
  if σ.mod.quotaMet then (σ, lastPid)
  else
    match walkTasks cb (List.range' (lastPid + 1) (σ.mod.nPids - (lastPid + 1))) σ with
    | (σ, some i) => (σ, i)
    | (σ, none) =>
      match walkTasks cb (List.range lastPid) σ with
      | (σ, some i) => (σ, i)
      | (σ, none) =>
        -- finish cycle at last_pid->last_addr
        (walkTask cb lastPid 0 (lastAddr + 1) σ, lastPid)

/-- `last_pid_dram = do_page_walk(ops, last_pid_dram, last_addr_dram)` and the
same for NVRAM. -/
def walkTier (cb : PteEntry) (tier : Tier) (σ : Sys) : Sys :=
  let r := doPageWalk cb (σ.mod.lastPid tier) (σ.mod.lastAddr tier) σ
  { r.1 with mod := r.1.mod.setLastPid tier r.2 }

/-- `for (i = 0; i < count; i++)` append `src[i]` to `found_addrs`. -/
def Mod.appendFound (s : Spare) (count : Nat) (m : Mod) : Mod :=
  (List.range count).foldl (fun m i => m.pushFound (m.spareAddrs s i)) m

/-- The callback and the tier `mem_walk` selects for a mode. -/
def memWalkOps (P : Platform) : FindMode → Option (PteEntry × Tier)
  | .dram => some (pteCallbackMem P, .dram)
  | .nvram => some (pteCallbackNvramForce P, .nvram)
  | .nvramIntensive => some (pteCallbackNvramIntensive P, .nvram)
  | .nvramWrite => some (pteCallbackNvramWrite P, .nvram)
  | .switch | .nvramClear => none

/-- `mem_walk`. -/
def memWalk (P : Platform) (n : Int) (mode : FindMode) (σ : Sys) : Sys × Int :=
  match memWalkOps P mode with
  | none => (σ, 0)
  | some (cb, tier) =>
    let σ := { σ with mod := σ.mod.setQuota .backup n }
    let σ := walkTier cb tier σ
    if σ.mod.quotaMet then (σ, 0)
    else if 0 < σ.mod.nBackup then
      let remaining := (σ.mod.nToFind - σ.mod.nFound).toNat
      let m := σ.mod.appendFound .backup (min remaining σ.mod.nBackup)
      ({ σ with mod := m }, if m.quotaMet then 0 else -1)
    else (σ, -1)

/-- The loop of `clear_walk` over `task_items`. It has no check for a `NULL` `mm`,
whose page-table lock it takes first: `false` is the resulting oops. -/
def clearTasks (P : Platform) : List Nat → Sys → Sys × Bool
  | [], σ => (σ, true)
  | i :: is, σ =>
    match σ.mm (σ.mod.taskItems i) with
    | none => (σ, false)
    | some _ => clearTasks P is (walkTask (pteCallbackNvramClear P) i 0 maxAddress σ)

/-- `clear_walk`. -/
def clearWalk (P : Platform) (σ : Sys) : Sys × Bool :=
  clearTasks P (List.range σ.mod.nPids) σ

end Ambix.Hyb
