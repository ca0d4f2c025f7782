import Ambix.Ctl.Switch

/-!
# `do_migration` and `do_switch` with their accesses checked

The same loops with each access where the source has it, over arrays of a given size. An
index that is not below the size ends the run, and the result is `none`.
-/

namespace Ambix.Ctl

open Ambix.Lib

/-- An array of `size` elements. -/
def sized {α : Type*} (size : Nat) (a : Arr α) : Nat → Option α :=
  fun i => if i < size then some (a i) else none

/-- `sameRun`. The pid is read before the position is compared with `n_processed`. -/
def sameRunIn (entries : Nat → Option AddrInfo) (pid : Int) : Nat → Nat → Option Nat
  | pos, 0 => (entries pos).map fun _ => 0
  | pos, left + 1 =>
    (entries pos).bind fun x =>
      if x.pidRetval = pid then (sameRunIn entries pid (pos + 1) left).map (· + 1) else some 0

/-- The slots that a call of `move_pages` reads. -/
def readSlots (slots : Nat → Option (Nat × Int)) (first count : Nat) : Option (List (Nat × Int)) :=
  (List.range count).mapM fun j => slots (first + j)

/-- `moveRuns` up to `n_processed`. A retry reads a slot that the failed call has read. -/
def moveRunsIn (host : Host) (entries : Nat → Option AddrInfo) (slots : Nat → Option (Nat × Int))
    (nProcessed : Nat) : Nat → Nat → Moves → Option Moves
  | 0, _, s => some s
  | turns + 1, nMigrated, s =>
    if nMigrated < nProcessed then
      (entries nMigrated).bind fun x =>
        let currPid := x.pidRetval
        (sameRunIn entries currPid (nMigrated + 1) (nProcessed - (nMigrated + 1))).bind fun n =>
          let i := 1 + n
          (readSlots slots nMigrated i).bind fun pages =>
            let s' := s.call ⟨currPid, nMigrated, pages⟩
            moveRunsIn host entries slots nProcessed turns (nMigrated + i)
              (if s.fails host then retryEach host currPid nMigrated pages s' else s')
    else some s

/-- What the loop over `j` writes for one node: `count` slots from `processed` on, in
arrays of `n_found` slots. -/
def dealNode (addr : Nat → Nat → Option Nat) (nFound : Nat) (currNode : Int)
    (processed count : Nat) : Option (List (Nat × Int)) :=
  (List.range count).mapM fun j =>
    if processed + j < nFound then (addr processed j).map fun a => (a, currNode) else none

/-- `dealOut`. -/
def dealOutIn (host : Host) (entries : Nat → Option AddrInfo) (nFound : Nat) :
    Nat → List Int → List (Nat × Int) → Option (List (Nat × Int))
  | _, [], slots => some slots
  | i, currNode :: nodes, slots =>
    if slots.length < nFound then
      let count := min (host.freeSpacePages i).toNat (nFound - slots.length)
      (dealNode (fun processed j => (entries (processed + j)).map AddrInfo.addr) nFound currNode
        slots.length count).bind fun pages =>
          dealOutIn host entries nFound (i + 1) nodes (slots ++ pages)
    else some slots

/-- `do_migration`. -/
def doMigrationIn (P : Platform) (host : Host) (mode : FindMode) (nFound : Nat)
    (candidates : Nat → Option AddrInfo) : Option (List MoveCall × Int) :=
  (dealOutIn host candidates nFound 0 (nodeList P mode) []).bind fun slots =>
    (moveRunsIn host candidates (fun i => slots[i]?) slots.length slots.length 0 ⟨[], 0⟩).map
      fun s => (s.calls, slots.length - s.e)

/-- `fillSlots`. -/
def fillSlotsIn (host : Host) (nFound : Nat) (addr : Nat → Nat → Option Nat) :
    List Int → Nat → Nat → Arr (Nat × Int) → Option (Nat × Nat × Arr (Nat × Int))
  | [], readings, processed, slots => some (readings, processed, slots)
  | currNode :: nodes, readings, processed, slots =>
    if processed < nFound then
      let count := min (host.freeSpacePages readings).toNat (nFound - processed)
      (dealNode addr nFound currNode processed count).bind fun pages =>
        fillSlotsIn host nFound addr nodes (readings + 1) (processed + count)
          (slots.write processed pages)
    else some (readings, processed, slots)

/-- One half of a round. -/
def Half.roundIn (host : Host) (nFound : Nat) (entries : Nat → Option AddrInfo)
    (addr : Nat → Nat → Option Nat) (nodes : List Int) (calls : List MoveCall) (readings : Nat)
    (h : Half) : Option (Half × List MoveCall × Nat) :=
  let oldNProcessed := (h.migrated + h.e).toNat
  (fillSlotsIn host nFound addr nodes readings oldNProcessed h.slots).bind fun w =>
    let (readings, processed, slots) := w
    if oldNProcessed < processed then
      (moveRunsIn host entries (sized nFound slots) processed processed 0 ⟨calls, h.e⟩).map fun s =>
        (⟨processed - s.e, s.e, true, slots⟩, s.calls, readings)
    else some (⟨processed - h.e, h.e, false, slots⟩, calls, readings)

/-- The body of the outer loop. -/
def switchRoundIn (P : Platform) (host : Host) (nFound : Nat) (candidates : Nat → Option AddrInfo)
    (s : SwitchState) : Option SwitchState :=
  (s.dram.roundIn host nFound (fun i => candidates (nFound + 1 + i))
      (fun _ j => (candidates (nFound + 1 + j)).map AddrInfo.addr) P.nvramNodes s.calls
      s.readings).bind fun d =>
    (s.nvram.roundIn host nFound candidates
        (fun processed j => (candidates (processed + j)).map AddrInfo.addr) P.dramNodes d.2.1
        d.2.2).map fun v =>
      ⟨d.1, v.1, v.2.1, v.2.2⟩

/-- The outer loop, for a number of rounds at most. -/
def switchRoundsIn (P : Platform) (host : Host) (nFound : Nat)
    (candidates : Nat → Option AddrInfo) : Nat → SwitchState → Option SwitchState
  | 0, s => some s
  | rounds + 1, s =>
    if s.goesOn nFound then
      (switchRoundIn P host nFound candidates s).bind
        (switchRoundsIn P host nFound candidates rounds)
    else some s

end Ambix.Ctl
