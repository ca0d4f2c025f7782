import Ambix.Hyb.Registry
import Ambix.Hyb.Switch
import Ambix.Lib.TSys

/-!
# `process_req` and the runs of the module

A request is processed atomically. Between two requests the rest of the machine
may do anything to the address spaces and to pid allocation, except change the
number of a task the module holds.
-/

namespace Ambix.Hyb

open Ambix.Lib

/-- A request ends with a reply in `found_addrs[0..n_found)` or in a kernel oops,
which leaves the globals as they were at the fault. -/
inductive Outcome
  | replied (σ : Sys)
  | oops (σ : Sys)

namespace Outcome

/-- The state the request leaves. -/
def sys : Outcome → Sys
  | .replied σ => σ
  | .oops σ => σ

/-- The reply entries; none after an oops. -/
def reply : Outcome → List AddrInfo
  | .replied σ => σ.mod.reply
  | .oops _ => []

end Outcome

/-- `found_addrs[n_found++].pid_retval = ret`. -/
def Mod.pushRetval (ret : Int) (m : Mod) : Mod :=
  { m with
    foundAddrs := m.foundAddrs.set m.nFound { m.foundAddrs m.nFound with pidRetval := ret }
    nFound := m.nFound + 1
    trace := .retval m.nFound :: m.trace }

/-- The FIND case of `process_req` once `refresh_pids` has run: the state, `ret`
and whether the walk came back. -/
def processFind (P : Platform) (req : Req) (σ : Sys) : Sys × Int × Bool :=
  if 0 < σ.mod.nPids then
    match FindMode.ofCode req.mode with
    | none => (σ, -1, true)
    | some .nvramClear =>
      let r := clearWalk P σ
      (r.1, -1, r.2)
    | some .switch =>
      let r := switchWalk P (intMin maxNSwitch req.pidN.toInt) σ
      (r.1, r.2, true)
    | some mode =>
      let r := memWalk P (intMin maxNFind req.pidN.toInt) mode σ
      (r.1, r.2, true)
  else (σ, -1, true)

/-- The body of `process_req` before the return-code entry. -/
def processBody (P : Platform) (req : Option Req) (σ : Sys) : Sys × Int × Bool :=
  let σ := { σ with mod := { σ.mod with nFound := 0, trace := [] } }
  match req with
  | none => (σ, -1, true)
  | some req =>
    match OpCode.ofCode req.opCode with
    | none => (σ, -1, true)
    | some .find => processFind P req { σ with mod := refreshPids σ.kernel σ.mod }
    | some .bind =>
      let r := bindPid σ.kernel req.pidN.toInt (refreshPids σ.kernel σ.mod)
      ({ σ with mod := r.1 }, r.2, true)
    | some .unbind =>
      let r := unbindPid σ.kernel req.pidN.toInt σ.mod
      ({ σ with mod := refreshPids σ.kernel r.1 }, r.2, true)

/-- `process_req`. -/
def processReq (P : Platform) (req : Option Req) (σ : Sys) : Outcome :=
  let r := processBody P req σ
  if r.2.2 then .replied { r.1 with mod := r.1.mod.pushRetval r.2.1 } else .oops r.1

/-! ## Runs -/

/-- What the rest of the machine may do between two requests: anything but give a
listed task another number. -/
def EnvStep (σ σ' : Sys) : Prop :=
  σ'.mod = σ.mod ∧ ∀ t ∈ σ.mod.tasks, σ'.kernel.pidOf t = σ.kernel.pidOf t

/-- Freshly loaded. -/
def Loaded (σ : Sys) : Prop :=
  ∃ found backup switchBackup tasks owner,
    σ.mod = Mod.loaded found backup switchBackup tasks owner

/-- All runs of the module. -/
def hyb (P : Platform) : TSys Sys where
  init := Loaded
  step σ σ' := EnvStep σ σ' ∨ ∃ req, (processReq P req σ).sys = σ'

end Ambix.Hyb
