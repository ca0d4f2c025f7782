import Ambix.Ctl.Requests

/-!
# `do_migration`

Candidates are dealt out to the nodes of the other tier and handed to `move_pages` in
runs of one pid. What the host answers, to the queries for free pages and to the calls
of `move_pages`, is two arbitrary sequences.
-/

namespace Ambix.Ctl

open Ambix.Lib

/-- The answers of the host, in the order in which they are asked for. -/
structure Host where
  /-- `free_space_pages`. -/
  freeSpacePages : Nat → Int
  /-- `move_pages`. -/
  movePages : Nat → Int

/-- A call `move_pages(pid, count, pages, nodes, status, 0)`, with the position of its
first page in the array of candidates. -/
structure MoveCall where
  pid : Int
  first : Nat
  pages : List (Nat × Int)
deriving DecidableEq, Repr

/-- `node_list`: the nodes of the tier that the pages go to. -/
def nodeList (P : Platform) (mode : FindMode) : List Int :=
  if mode = .dram then P.nvramNodes else P.dramNodes

/-- The first loop: `addr` and `dest_nodes` so far, side by side; node number `i` comes
next and `n_processed` is the length. -/
def dealOut (host : Host) (candidates : Arr AddrInfo) (nFound : Nat) :
    Nat → List Int → List (Nat × Int) → List (Nat × Int)
  | _, [], slots => slots
  | i, currNode :: nodes, slots =>
    if slots.length < nFound then
      let nAvailPages := host.freeSpacePages i
      -- `j` runs while `j < n_avail_pages && n_processed + j < n_found`
      let count := min nAvailPages.toNat (nFound - slots.length)
      dealOut host candidates nFound (i + 1) nodes (slots ++ (List.range count).map fun j =>
        ((candidates (slots.length + j)).addr, currNode))
    else slots

/-- `for (; candidates[pos].pid_retval == pid && pos < n_processed; ...)`: how many
positions it passes, with `left` of them before `n_processed`. -/
def sameRun (candidates : Arr AddrInfo) (pid : Int) : Nat → Nat → Nat
  | _, 0 => 0
  | pos, left + 1 =>
    if (candidates pos).pidRetval = pid then sameRun candidates pid (pos + 1) left + 1 else 0

/-- The calls so far and `e`. -/
structure Moves where
  calls : List MoveCall
  e : Nat
deriving DecidableEq, Repr

/-- One call of `move_pages`: whether it fails. -/
def Moves.fails (host : Host) (s : Moves) : Bool := host.movePages s.calls.length ≠ 0

def Moves.call (c : MoveCall) (s : Moves) : Moves := { s with calls := s.calls ++ [c] }

/-- The retries after a failed call, page by page. -/
def retryEach (host : Host) (pid : Int) : Nat → List (Nat × Int) → Moves → Moves
  | _, [], s => s
  | pos, page :: pages, s =>
    let s' := s.call ⟨pid, pos, [page]⟩
    retryEach host pid (pos + 1) pages (if s.fails host then { s' with e := s'.e + 1 } else s')

/-- The second loop from position `n_migrated` on. Every turn passes a position, so
`n_processed` turns are enough. -/
def moveRuns (host : Host) (candidates : Arr AddrInfo) (slots : List (Nat × Int)) :
    Nat → Nat → Moves → Moves
  | 0, _, s => s
  | turns + 1, nMigrated, s =>
    if nMigrated < slots.length then
      let currPid := (candidates nMigrated).pidRetval
      let i := 1 + sameRun candidates currPid (nMigrated + 1) (slots.length - (nMigrated + 1))
      let pages := (slots.drop nMigrated).take i
      let s' := s.call ⟨currPid, nMigrated, pages⟩
      moveRuns host candidates slots turns (nMigrated + i)
        (if s.fails host then retryEach host currPid nMigrated pages s' else s')
    else s

/-- `do_migration`: its calls of `move_pages` and what it returns. -/
def doMigration (P : Platform) (host : Host) (mode : FindMode) (nFound : Nat)
    (candidates : Arr AddrInfo) : List MoveCall × Int :=
  let slots := dealOut host candidates nFound 0 (nodeList P mode) []
  let s := moveRuns host candidates slots slots.length 0 ⟨[], 0⟩
  (s.calls, slots.length - s.e)

/-- The calls of `move_pages` in a placement. `do_switch` makes none: it moves pages
through `numa_move_pages`. -/
def Placement.moveCalls (P : Platform) (host : Host) (candidates : Arr AddrInfo) :
    Placement → List MoveCall
  | .migrate mode nFound => (doMigration P host mode nFound candidates).1
  | .nothing | .switch _ => []

end Ambix.Ctl
