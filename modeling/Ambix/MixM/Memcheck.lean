import Ambix.Ctl.Memcheck

/-!
# `memcheck_placement` of the MixM controller and its settings

The thresholds of the DRAM tier, which is the cache of memory mode here, can be set while the
controller runs. One of the tests compares with a macro instead.
-/

namespace Ambix.MixM

open Ambix.Lib Ambix.Ctl

/-- `MM_RATIO`. -/
def mmRatio : Int := 4

/-- `CACHE_THRESH`. -/
def cacheThresh : ℚ := 125 / 100

/-- `MM_LIMIT`. -/
def mmLimit : ℚ := cacheThresh / mmRatio

/-- `MM_TARGET`. -/
def mmTarget : ℚ := mmLimit - 1 / 100

/-- `ADM_LIMIT`. -/
def admLimit : ℚ := 98 / 100

/-- `ADM_TARGET`. -/
def admTarget : ℚ := 95 / 100

/-- `ADM_BW_THRESH`. -/
def admBwThresh : ℚ := 10

/-! ## Settings -/

/-- The variables `ratio`, `cache_thresh`, `mm_thresh` and `mm_target`. -/
structure Settings where
  ratio : Int
  cacheThresh : ℚ
  mmThresh : ℚ
  mmTarget : ℚ
deriving DecidableEq, Repr

def Settings.start : Settings := ⟨mmRatio, MixM.cacheThresh, mmLimit, MixM.mmTarget⟩

/-- The forms of the command `set`, with the `long` that `strtol` returns. -/
inductive SetCommand
  | ratio (n : Int)
  | cacheThresh (n : Int)
deriving DecidableEq, Repr

/-- `mm_thresh = cache_thresh/ratio; mm_target = mm_thresh - 0.01`. There is no rational
threshold for a `ratio` of 0. -/
def Settings.update (ratio : Int) (cacheThresh : ℚ) : Settings :=
  ⟨ratio, cacheThresh, cacheThresh / ratio, cacheThresh / ratio - 1 / 100⟩

/-- The `set` branch of `process_stdin`. `ratio` is an int. -/
def Settings.set (s : Settings) : SetCommand → Settings
  | .ratio n => .update (wrapInt n) s.cacheThresh
  | .cacheThresh n => .update s.ratio (n / 100)

/-! ## The controller of `ambix_MixM-ctl.c` -/

/-- `check_memdata(md)` and `pmm_bw > ADM_BW_THRESH`. The bounds `MM_BW_MAX` and `ADM_BW_MAX`
are the numbers of the other controller's. -/
def highBandwidth (md : Option Memdata) : Bool :=
  checkMemdata md && match md.bind Memdata.sysPmmAppBW with
    | some bw => admBwThresh < bw
    | none => false

/-- The bytes of a find. `mm` is the DRAM tier, `adm` the NVRAM tier. -/
def Settings.amount (s : Settings) (t : Tiers) : FindMode → ℚ
  | .dram => min ((t.dram.usage - s.mmThresh) * t.dram.sz) ((admTarget - t.nvram.usage) * t.nvram.sz)
  | .nvram => min ((t.nvram.usage - admTarget) * t.nvram.sz) ((s.mmTarget - t.dram.usage) * t.dram.sz)
  | .nvramIntensive => (s.mmThresh - t.dram.usage) * t.dram.sz
  | .switch | .nvramClear | .nvramWrite => 0

/-- `mm_usage > mm_thresh && adm_usage < ADM_TARGET`. -/
def Settings.mmOver (s : Settings) (t : Tiers) : Prop :=
  s.mmThresh < t.dram.usage ∧ t.nvram.usage < admTarget

/-- `adm_usage > ADM_LIMIT && mm_usage < MM_TARGET`: the macro, not `mm_target`. -/
def admOver (t : Tiers) : Prop := admLimit < t.nvram.usage ∧ t.dram.usage < mmTarget

instance (s : Settings) (t : Tiers) : Decidable (s.mmOver t) :=
  inferInstanceAs (Decidable (_ ∧ _))
instance (t : Tiers) : Decidable (admOver t) := inferInstanceAs (Decidable (_ ∧ _))

def Settings.controller (s : Settings) : Controller where
  highBandwidth := highBandwidth
  placing t :=
    if t.dram.usage < s.mmThresh then
      if s.mmTarget ≤ t.dram.usage then .switch else .intensive
    else .nothing
  dramOver t := s.mmOver t
  nvramOver t := admOver t
  amount := s.amount

/-! ## Runs -/

/-- What happens to the controller: a command, or an iteration of the memcheck thread. -/
inductive Step
  | set (c : SetCommand)
  | iterate (it : Iteration)

/-- The settings and `prev_memdata_lmod`. -/
structure Memcheck where
  settings : Settings
  prevMemdataLmod : Int

def Memcheck.start : Memcheck := ⟨.start, 0⟩

/-- A step with the finds that it sends. -/
def Memcheck.step (P : Platform) (pageSize : Int) (m : Memcheck) : Step → Memcheck × List Find
  | .set c => (⟨m.settings.set c, m.prevMemdataLmod⟩, [])
  | .iterate it =>
    let r := m.settings.controller.iterate P pageSize it m.prevMemdataLmod
    (⟨m.settings, r.prevMemdataLmod⟩, r.finds)

end Ambix.MixM
