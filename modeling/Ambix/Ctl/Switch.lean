import Ambix.Ctl.Migration

/-!
# `do_switch`

Two halves take turns, DRAM pages to NVRAM and NVRAM pages to DRAM, for as long as pages
are left and one of the two finds room. What a half has processed it keeps from round to
round. The halves are the same code over different variables, but for the entry that an
address is taken from.
-/

namespace Ambix.Ctl

open Ambix.Lib

/-- The variables of one half: `dram_migrated`, `dram_e`, `dram_free`, and `addr_dram` and
`dest_nodes_nvram` side by side, or those of the other half. -/
structure Half where
  migrated : Int
  e : Nat
  free : Bool
  slots : Arr (Nat × Int)

/-- A half before the first round. Its arrays come from `malloc`. -/
def Half.start (slots : Arr (Nat × Int)) : Half := ⟨0, 0, true, slots⟩

/-- The loop over the nodes of a half, with the number of free-page readings so far.
`addr processed j` is the address that slot `processed + j` is given. -/
def fillSlots (host : Host) (nFound : Nat) (addr : Nat → Nat → Nat) :
    List Int → Nat → Nat → Arr (Nat × Int) → Nat × Nat × Arr (Nat × Int)
  | [], readings, processed, slots => (readings, processed, slots)
  | currNode :: nodes, readings, processed, slots =>
    if processed < nFound then
      let nAvailPages := host.freeSpacePages readings
      -- `j` runs while `j < n_avail_pages && j + processed < n_found`
      let count := min nAvailPages.toNat (nFound - processed)
      fillSlots host nFound addr nodes (readings + 1) (processed + count)
        (slots.write processed ((List.range count).map fun j => (addr processed j, currNode)))
    else (readings, processed, slots)

/-- One half of a round, with the calls and readings so far. `entries` is the part of
`candidates` that the pids are read from. -/
def Half.round (host : Host) (nFound : Nat) (entries : Arr AddrInfo) (addr : Nat → Nat → Nat)
    (nodes : List Int) (calls : List MoveCall) (readings : Nat) (h : Half) :
    Half × List MoveCall × Nat :=
  let oldNProcessed := (h.migrated + h.e).toNat
  let (readings, processed, slots) := fillSlots host nFound addr nodes readings oldNProcessed h.slots
  if oldNProcessed < processed then
    let s := moveRuns host entries (slots.slice 0 processed) processed 0 ⟨calls, h.e⟩
    (⟨processed - s.e, s.e, true, slots⟩, s.calls, readings)
  else (⟨processed - h.e, h.e, false, slots⟩, calls, readings)

/-- The variables of the outer loop, with the calls and readings so far. -/
structure SwitchState where
  dram : Half
  nvram : Half
  calls : List MoveCall
  readings : Nat

/-- The body of the outer loop. -/
def switchRound (P : Platform) (host : Host) (nFound : Nat) (candidates : Arr AddrInfo)
    (s : SwitchState) : SwitchState :=
  -- DRAM -> NVRAM: the addresses start over at `candidates[n_found+1]` for every node
  let d := s.dram.round host nFound (fun i => candidates (nFound + 1 + i))
    (fun _ j => (candidates (nFound + 1 + j)).addr) P.nvramNodes s.calls s.readings
  -- NVRAM -> DRAM
  let v := s.nvram.round host nFound candidates
    (fun processed j => (candidates (processed + j)).addr) P.dramNodes d.2.1 d.2.2
  ⟨d.1, v.1, v.2.1, v.2.2⟩

/-- The condition of the outer loop. -/
def SwitchState.goesOn (nFound : Nat) (s : SwitchState) : Prop :=
  (s.dram.migrated + s.dram.e < nFound ∨ s.nvram.migrated + s.nvram.e < nFound) ∧
    (s.dram.free = true ∨ s.nvram.free = true)

instance (nFound : Nat) (s : SwitchState) : Decidable (s.goesOn nFound) :=
  inferInstanceAs (Decidable ((_ ∨ _) ∧ (_ ∨ _)))

/-- The outer loop, for a number of rounds at most. -/
def switchRounds (P : Platform) (host : Host) (nFound : Nat) (candidates : Arr AddrInfo) :
    Nat → SwitchState → SwitchState
  | 0, s => s
  | rounds + 1, s =>
    if s.goesOn nFound then
      switchRounds P host nFound candidates rounds (switchRound P host nFound candidates s)
    else s

/-- `do_switch`: its calls of `numa_move_pages` and what it returns; `none` when the outer
loop is not over after so many rounds. -/
def doSwitch (P : Platform) (host : Host) (nFound : Nat) (candidates : Arr AddrInfo)
    (dramSlots nvramSlots : Arr (Nat × Int)) (rounds : Nat) : Option (List MoveCall × Int) :=
  let s := switchRounds P host nFound candidates rounds
    ⟨.start dramSlots, .start nvramSlots, [], 0⟩
  if s.goesOn nFound then none else some (s.calls, s.dram.migrated + s.nvram.migrated)

/-- What a placement hands to the kernel and returns. -/
def Placement.run (P : Platform) (host : Host) (candidates : Arr AddrInfo)
    (dramSlots nvramSlots : Arr (Nat × Int)) (rounds : Nat) :
    Placement → Option (List MoveCall × Int)
  | .nothing => some ([], 0)
  | .migrate mode nFound => some (doMigration P host mode nFound candidates)
  | .switch nFound => doSwitch P host nFound candidates dramSlots nvramSlots rounds

end Ambix.Ctl
