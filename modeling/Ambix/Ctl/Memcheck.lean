import Ambix.Header
import Ambix.Lib.Level
import Mathlib.Data.Rat.Floor

/-!
# `memcheck_placement`

An iteration of the memcheck thread: the sizes that it reads, the finds that it sends and
how long it sleeps. The usages are exact: they are rational numbers where the code has
floats. What the host answers in an iteration is its input. The two controllers have the
same loop with tests and amounts of their own, which are a `Controller` here.
-/

namespace Ambix.Ctl

open Ambix.Lib

/-- `DRAM_TARGET`. -/
def dramTarget : ℚ := 95 / 100

/-- `DRAM_LIMIT`. -/
def dramLimit : ℚ := 96 / 100

/-- `NVRAM_TARGET`. -/
def nvramTarget : ℚ := 95 / 100

/-- `NVRAM_LIMIT`. -/
def nvramLimit : ℚ := 98 / 100

/-- `NVRAM_BW_THRESH`. -/
def nvramBwThresh : ℚ := 10

/-- `DRAM_BW_MAX`. -/
def dramBwMax : ℚ := 50000

/-- `NVRAM_BW_MAX`. -/
def nvramBwMax : ℚ := 20000

/-- `PMM_MIXED`. -/
def pmmMixed : Bool := true

/-- `memcheck_interval`, in microseconds. -/
def memcheckInterval : Int := 1 * 1000 * 1000

/-- `clear_interval`, in microseconds. -/
def clearInterval : Int := 50 * 1000

/-! ## The helper functions -/

/-- `memdata_t`, as far as it is read. A float that is infinite or not a number is `none`. -/
structure Memdata where
  sysDramReads : Option ℚ
  sysDramWrites : Option ℚ
  sysPmmReads : Option ℚ
  sysPmmWrites : Option ℚ
  sysPmmAppBW : Option ℚ
  sysPmmMemBW : Option ℚ
deriving DecidableEq, Repr

/-- `BETWEEN`, which is false of what is not a number. -/
def between (value : Option ℚ) (lo hi : ℚ) : Bool :=
  match value with
  | some v => v ≤ hi && lo ≤ v
  | none => false

/-- `check_memdata`, of a pointer that may be null. -/
def checkMemdata : Option Memdata → Bool
  | none => false
  | some md => between md.sysDramReads 0 dramBwMax && between md.sysDramWrites 0 dramBwMax &&
      between md.sysPmmReads 0 nvramBwMax && between md.sysPmmWrites 0 nvramBwMax &&
      between md.sysPmmAppBW 0 nvramBwMax && between md.sysPmmMemBW 0 nvramBwMax

/-- Size and free bytes, of a node as `numa_node_size64` tells them or of a tier. -/
structure Tier where
  sz : Int
  fr : Int
deriving DecidableEq, Repr

/-- `free_space_tot_bytes`, with the size that it returns besides. -/
def freeSpaceTotBytes (nodes : List Int) (sizes : Int → Tier) : Tier :=
  nodes.foldl (fun total i => ⟨total.sz + (sizes i).sz, total.fr + (sizes i).fr⟩) ⟨0, 0⟩

/-- `free_space_tot_per`, of what `free_space_tot_bytes` returns. -/
def Tier.usage (t : Tier) : ℚ := level (t.sz : ℚ) ((t.sz - t.fr : Int) : ℚ)

/-- What the thread knows of the tiers: `dram_sz`, `nvram_sz` and the two usages. -/
structure Tiers where
  dram : Tier
  nvram : Tier
deriving DecidableEq, Repr

def readTiers (P : Platform) (sizes : Int → Tier) : Tiers :=
  ⟨freeSpaceTotBytes P.dramNodes sizes, freeSpaceTotBytes P.nvramNodes sizes⟩

/-! ## How many pages -/

/-- `long long n_bytes = amount`: there is no result when the integer part does not fit. -/
def toLongLong (amount : ℚ) : Option Int :=
  if -9223372036854775808 ≤ trunc amount ∧ trunc amount < 9223372036854775808 then
    some (trunc amount)
  else none

/-- `n_pages = n_bytes / page_size; n_pages = fmin(n_pages, MAX_N_FIND)`, where `n_pages` is
an int. -/
def toPages (pageSize : Int) (amount : ℚ) : Option Int :=
  (toLongLong amount).map fun nBytes => min (wrapInt (nBytes.tdiv pageSize)) maxNFind

/-- A call `send_find(n_pages, mode)`, with the tiers as the thread knows them then. A
count that comes from a conversion without result is `none`. -/
structure Find where
  nPages : Option Int
  mode : FindMode
  seen : Tiers
deriving DecidableEq, Repr

/-! ## An iteration -/

/-- What an iteration reads. `switch_act` and `thresh_act` do not change while it runs. -/
structure Iteration where
  switchAct : Bool
  threshAct : Bool
  /-- The nodes at its start, -/
  sizes : Int → Tier
  /-- `get_memdata_mtime` and `read_memdata`, -/
  memdataLmod : Int
  md : Option Memdata
  /-- what `send_find` returns, which is called once for a mode at most, -/
  sent : FindMode → Int
  /-- and the nodes after an intensive find that has moved pages. -/
  sizesAfter : Int → Tier

/-- What follows the clear when there is much bandwidth. -/
inductive Placing
  | nothing
  | switch
  | intensive
deriving DecidableEq, Repr

/-- The tests and amounts of a `memcheck_placement`. -/
structure Controller where
  /-- Whether the sample has bandwidth over the threshold. -/
  highBandwidth : Option Memdata → Bool
  placing : Tiers → Placing
  /-- The tests of the two threshold moves. -/
  dramOver : Tiers → Bool
  nvramOver : Tiers → Bool
  /-- The bytes of a find: the right hand sides of the three `n_bytes`. -/
  amount : Tiers → FindMode → ℚ

/-- What the part under `if (switch_act)` leaves: its finds, `switch_migrated`, the tiers and
`prev_memdata_lmod`. -/
structure SwitchPart where
  finds : List Find
  switchMigrated : Int
  tiers : Tiers
  prevMemdataLmod : Int

/-- What an iteration does: its finds, `usleep` at its end and `prev_memdata_lmod`. -/
structure Outcome where
  finds : List Find
  sleepInterval : Int
  prevMemdataLmod : Int

namespace Controller

variable (C : Controller) (P : Platform) (pageSize : Int) (it : Iteration)

/-- A find for as many pages as the tiers call for. -/
def find (t : Tiers) (mode : FindMode) : Find := ⟨toPages pageSize (C.amount t mode), mode, t⟩

/-- Under the test of the bandwidth. -/
def placeSwitch (t : Tiers) : SwitchPart :=
  let clear : Find := ⟨some 0, .nvramClear, t⟩
  match C.placing t with
  | .nothing => ⟨[clear], 0, t, it.memdataLmod⟩
  | .switch => ⟨[clear, ⟨some maxNSwitch, .switch, t⟩], it.sent .switch, t, it.memdataLmod⟩
  | .intensive =>
    let switchMigrated := it.sent .nvramIntensive
    ⟨[clear, C.find pageSize t .nvramIntensive], switchMigrated,
      if 0 < switchMigrated then readTiers P it.sizesAfter else t, it.memdataLmod⟩

/-- The part under `if (switch_act)`. -/
def switchPart (prev : Int) (t : Tiers) : SwitchPart :=
  if it.switchAct then
    if it.memdataLmod = 0 ∨ it.memdataLmod = prev then ⟨[], 0, t, prev⟩
    else if C.highBandwidth it.md then C.placeSwitch P pageSize it t
    else ⟨[], 0, t, it.memdataLmod⟩
  else ⟨[], 0, t, prev⟩

/-- The part under `if (thresh_act)`: its finds and `thresh_migrated`. -/
def threshPart (t : Tiers) : List Find × Int :=
  if it.threshAct then
    if C.dramOver t then ([C.find pageSize t .dram], it.sent .dram)
    else if !it.switchAct && C.nvramOver t then ([C.find pageSize t .nvram], it.sent .nvram)
    else ([], 0)
  else ([], 0)

/-- An iteration of the loop. Without `thresh_act` and `switch_act` it does not read the
tiers, and does not use them. -/
def iterate (prev : Int) : Outcome :=
  let s := C.switchPart P pageSize it prev (readTiers P it.sizes)
  let h := C.threshPart pageSize it s.tiers
  let sleepInterval :=
    if 0 < s.switchMigrated + h.2 then
      memcheckInterval * 2 - if 0 < s.switchMigrated then clearInterval else 0
    else memcheckInterval
  ⟨s.finds ++ h.1, sleepInterval, s.prevMemdataLmod⟩

end Controller

/-! ## The controller of `ambix_hyb-ctl.c` -/

/-- `pmm_bw`. -/
def pmmBw (md : Memdata) : Option ℚ := if pmmMixed then md.sysPmmAppBW else md.sysPmmWrites

/-- `check_memdata(md)` and `pmm_bw > NVRAM_BW_THRESH`. -/
def highBandwidth (md : Option Memdata) : Bool :=
  checkMemdata md && match md.bind pmmBw with
    | some bw => nvramBwThresh < bw
    | none => false

/-- The bytes of a find. -/
def Tiers.amount (t : Tiers) : FindMode → ℚ
  | .dram => min ((t.dram.usage - dramTarget) * t.dram.sz) ((nvramTarget - t.nvram.usage) * t.nvram.sz)
  | .nvram => min ((t.nvram.usage - nvramTarget) * t.nvram.sz) ((dramTarget - t.dram.usage) * t.dram.sz)
  | .nvramIntensive => (dramLimit - t.dram.usage) * t.dram.sz
  | .switch | .nvramClear | .nvramWrite => 0

/-- `dram_usage > DRAM_LIMIT && nvram_usage < NVRAM_TARGET`. -/
def Tiers.dramOver (t : Tiers) : Prop := dramLimit < t.dram.usage ∧ t.nvram.usage < nvramTarget

/-- `nvram_usage > NVRAM_LIMIT && dram_usage < DRAM_TARGET`. -/
def Tiers.nvramOver (t : Tiers) : Prop := nvramLimit < t.nvram.usage ∧ t.dram.usage < dramTarget

instance (t : Tiers) : Decidable t.dramOver := inferInstanceAs (Decidable (_ ∧ _))
instance (t : Tiers) : Decidable t.nvramOver := inferInstanceAs (Decidable (_ ∧ _))

def hyb : Controller where
  highBandwidth := highBandwidth
  placing t := if dramTarget ≤ t.dram.usage then .switch else .intensive
  dramOver t := t.dramOver
  nvramOver t := t.nvramOver
  amount := Tiers.amount

/-- An iteration of `memcheck_placement`. -/
def memcheckPlacement (P : Platform) (pageSize : Int) (it : Iteration) (prev : Int) : Outcome :=
  hyb.iterate P pageSize it prev

/-- `prev_memdata_lmod` after more iterations of the loop. -/
def prevAfter (P : Platform) (pageSize : Int) (prev : Int) (its : List Iteration) : Int :=
  its.foldl (fun prev it => (memcheckPlacement P pageSize it prev).prevMemdataLmod) prev

end Ambix.Ctl
