import Ambix.MixM.PageWalk
import Ambix.Hyb.Request

/-!
# `process_req` of the MixM module and its runs
-/

namespace Ambix.MixM

open Ambix.Lib Ambix.Hyb

/-- The FIND case of `process_req` once `refresh_pids` has run. -/
def processFind (P : Platform) (req : Req) (s : State) : Except State (State × Int) :=
  if 0 < s.sys.mod.nPids then
    match FindMode.ofCode req.mode with
    | none => .ok (s, -1)
    | some .nvramClear => (clearWalk P s).map fun s => (s, -1)
    | some .switch => switchWalk P (intMin maxNSwitch req.pidN.toInt) s
    | some mode => memWalk P (intMin maxNFind req.pidN.toInt) mode s
  else .ok (s, -1)

/-- A request starts with no entries and no accesses. -/
def State.begun (s : State) : State :=
  ⟨{ s.sys with mod := { s.sys.mod with nFound := 0, trace := [] } }, []⟩

/-- The body of `process_req` before the return-code entry. -/
def processBody (P : Platform) (req : Option Req) (s : State) : Except State (State × Int) :=
  match req with
  | none => .ok (s.begun, -1)
  | some req =>
    match OpCode.ofCode req.opCode with
    | none => .ok (s.begun, -1)
    | some .find => processFind P req (refreshPids s.begun)
    | some .bind => .ok (bindPid req.pidN.toInt (refreshPids s.begun))
    | some .unbind =>
      let r := unbindPid req.pidN.toInt s.begun
      .ok (refreshPids r.1, r.2)

/-- `process_req`: the state of a reply or of an oops. -/
def processReq (P : Platform) (req : Option Req) (s : State) : Except State State :=
  (processBody P req s).map fun r => r.1.setMod (r.1.sys.mod.pushRetval r.2)

/-- The state that a request leaves, however it ends. -/
def leaves : Except State State → State
  | .ok s => s
  | .error s => s

/-- All runs of the module. -/
def mixm (P : Platform) : TSys State where
  init s := Loaded s.sys ∧ s.accesses = []
  step s s' := (EnvStep s.sys s'.sys ∧ s'.accesses = s.accesses) ∨
    ∃ req, leaves (processReq P req s) = s'

end Ambix.MixM
