import Ambix.Ctl.Threads
import Ambix.Lib.CString
import Ambix.MixM.Memcheck

/-!
# `process_stdin`

The commands of the stdin thread, from the characters that it reads to what it does. The two
controllers have the same commands but for `set`, so that one function is both, with the
branch and the usage text of a controller as parameters. What is printed after a reply is left
out.
-/

namespace Ambix.Ctl

open Ambix.Lib

/-- `MAX_COMMAND_SIZE`. -/
def maxCommandSize : Nat := 80

/-- What a `toggle` turns. -/
inductive Component
  | switch
  | thresh
  | all
deriving DecidableEq, Repr

/-- What the loop does with a line. `S` is what `set` can set. -/
inductive Action (S : Type)
  /-- `send_bind` or `send_unbind`. -/
  | bind (pid : Int32)
  | unbind (pid : Int32)
  /-- `send_find` under `placement_lock`. -/
  | find (n : Int32) (mode : FindMode)
  | toggle (c : Component)
  | set (s : S)
  /-- `system("@cls||clear")`. -/
  | clear
  /-- A message on `stderr`, and nothing else. -/
  | complain (message : String)
  | nothing
deriving DecidableEq, Repr

/-- A whole number as a double: 53 binary digits, to even in the middle. -/
def toDouble (n : Int) : Int :=
  if n.natAbs ≤ 2 ^ 53 then n
  else
    let unit := 2 ^ (n.natAbs.log2 - 52)
    let q := n.natAbs / unit
    let r := n.natAbs % unit
    let q := if unit < 2 * r ∨ (unit = 2 * r ∧ q % 2 = 1) then q + 1 else q
    n.sign * (q * unit : Nat)

/-- `n = fmin(n, MAX_N_SWITCH)`. -/
def switchCount (n : Int) : Int := min (toDouble n) maxNSwitch

/-- What one controller has and the other has not: the branch of `set`, on the command and what
follows it, and the usage text. -/
structure Console (S : Type) where
  set : List Char → List Char → Option (Action S)
  usage : String
  /-- The module has no part in it. -/
  sets : ∀ substring s a, set substring s = some a →
    (∃ x, a = .set x) ∨ ∃ message, a = .complain message

section

variable {S : Type}

/-- The branch of a command that takes a pid. -/
def pidCommand (send : Int32 → Action S) (message : String) (s : List Char) : Action S :=
  match strtok s with
  | none => .complain message
  | some (substring, _) =>
    let pid := strtol substring
    if 0 < pid ∧ pid < maxPidN then send (.ofInt pid) else .complain message

def bindCommand : List Char → Action S :=
  pidCommand .bind "Invalid argument for bind command.\n"

def unbindCommand : List Char → Action S :=
  pidCommand .unbind "Invalid argument for unbind command.\n"

def sendCommand (s : List Char) : Action S :=
  match strtok s with
  | none => .complain "Invalid argument for send command.\n"
  | some (substring, s) =>
    let n := strtol substring
    match strtok s with
    | none => .complain "Invalid argument for send command.\n"
    | some (substring, _) =>
      if substring = "dram\n".toList then .find (.ofInt n) .nvram
      else if substring = "nvram\n".toList then .find (.ofInt n) .dram
      else if substring = "dramwr\n".toList then .find (.ofInt n) .nvramWrite
      else .complain "Invalid argument for send command.\n"

def switchCommand (s : List Char) : Action S :=
  match strtok s with
  | none => .complain "Invalid argument for switch command.\n"
  | some (substring, _) => .find (.ofInt (switchCount (strtol substring))) .switch

/-- Of a word that it does not know it says nothing. -/
def toggleCommand (s : List Char) : Action S :=
  match strtok s with
  | none => .complain "Invalid argument for toggle command.\n"
  | some (substring, _) =>
    if substring = "switch\n".toList then .toggle .switch
    else if substring = "thresh\n".toList then .toggle .thresh
    else if substring = "all\n".toList then .toggle .all
    else .nothing

/-- The body of the loop, on the string in `command`. -/
def Console.command (C : Console S) (line : List Char) : Action S :=
  match strtok line with
  | none => .nothing
  | some (substring, s) =>
    if substring = "bind".toList then bindCommand s
    else if substring = "unbind".toList then unbindCommand s
    else if substring = "send".toList then sendCommand s
    else if substring = "switch".toList then switchCommand s
    else if substring = "toggle".toList then toggleCommand s
    else
      match C.set substring s with
      | some a => a
      | none =>
        if substring = "clr\n".toList ∨ substring = "clear\n".toList then .clear
        else .complain C.usage

/-- What the loop has done, and the variables that it sets. -/
structure Stdin (S : Type) where
  actions : List (Action S)
  switchAct : Int
  threshAct : Int
  exitSig : Bool

def Stdin.start : Stdin S := ⟨[], 1, 1, false⟩

def Stdin.turn (s : Stdin S) (a : Action S) : Stdin S :=
  let s := { s with actions := s.actions ++ [a] }
  match a with
  | .toggle .switch => { s with switchAct := 1 - s.switchAct }
  | .toggle .thresh => { s with threshAct := 1 - s.threshAct }
  | .toggle .all => { s with switchAct := 1 - s.switchAct, threshAct := 1 - s.threshAct }
  | .bind _ | .unbind _ | .find _ _ | .set _ | .clear | .complain _ | .nothing => s

/-- The loop, on what `fgets` puts into `command`. -/
def processStdin (C : Console S) : List (List Char) → Stdin S → Stdin S
  | [], s => { s with exitSig := true }
  | command :: commands, s =>
    if cstr command = "exit\n".toList then { s with exitSig := true }
    else processStdin C commands (s.turn (C.command (cstr command)))

/-- `process_stdin`, on all that can be read. -/
def Console.run (C : Console S) (input : List Char) : Stdin S :=
  processStdin C (chunks (maxCommandSize - 1) input) .start

end

/-! ## The two controllers -/

/-- `ambix_hyb-ctl.c`. -/
def hybConsole : Console Empty where
  set _ _ := none
  usage := "Unknown command.\n" ++
    "Available commands:\n" ++
    "\tbind [pid]\n" ++
    "\tunbind [pid]\n" ++
    "\tDEBUG: send [n] [dram|nvram|dramwr]\n" ++
    "\tDEBUG: switch [n]\n" ++
    "\tDEBUG: toggle [switch|thresh|all]\n" ++
    "\tDEBUG: clear\n" ++
    "\texit\n"
  sets _ _ _ h := absurd h (by simp)

/-- The branch of `set`. -/
def setCommand (s : List Char) : Action MixM.SetCommand :=
  let invalid := .complain "Invalid argument for set command.\n"
  match strtok s with
  | none => invalid
  | some (substring, s) =>
    if substring = "ratio".toList then
      match strtok s with
      | none => invalid
      | some (substring, _) => .set (.ratio (strtol substring))
    else if substring = "cacheThresh".toList then
      match strtok s with
      | none => invalid
      | some (substring, _) => .set (.cacheThresh (strtol substring))
    else invalid

theorem setCommand_sets (s : List Char) :
    (∃ x, setCommand s = .set x) ∨ ∃ message, setCommand s = .complain message := by
  unfold setCommand
  split
  · exact .inr ⟨_, rfl⟩
  · split
    · split
      · exact .inr ⟨_, rfl⟩
      · exact .inl ⟨_, rfl⟩
    · split
      · split
        · exact .inr ⟨_, rfl⟩
        · exact .inl ⟨_, rfl⟩
      · exact .inr ⟨_, rfl⟩

/-- `ambix_MixM-ctl.c`. -/
def mixMConsole : Console MixM.SetCommand where
  set substring s := if substring = "set".toList then some (setCommand s) else none
  usage := "Unknown command.\n" ++
    "Available commands:\n" ++
    "\tbind [pid]\n" ++
    "\tunbind [pid]\n" ++
    "\tDEBUG: send [n] [dram|nvram|dramwr]\n" ++
    "\tDEBUG: switch [n]\n" ++
    "\tDEBUG: toggle [switch|thresh|all]\n" ++
    "\tDEBUG: set [ratio|cacheThresh] [n]\n" ++
    "\tDEBUG: clear\n" ++
    "\texit\n"
  sets substring s a h := by
    split at h
    · exact Option.some.inj h ▸ setCommand_sets s
    · exact absurd h (by simp)

end Ambix.Ctl
