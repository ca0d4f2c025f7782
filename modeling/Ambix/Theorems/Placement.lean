import Ambix.Logic.Bounds

/-!
# What `do_migration` and `do_switch` submit

`do_migration` is exact: as many candidates as there is room for, dealt out to the nodes in
their order, submitted in maximal runs of one pid with a retry for each page of a run that
fails, and counted when their last submission succeeds. `do_switch` ends and stays in its
arrays, whatever the readings and the moves are: the outer loop takes two rounds for each
pair at most, each submission loop passes a position with every turn, and no index leaves the
arrays.
-/

namespace Ambix.Ctl

open Ambix.Lib Ambix.Lib.Batch

/-! ## `do_migration` -/

/-- What the calls and the result are, for a number of candidates. -/
structure ExactMigration (P : Platform) (host : Host) (mode : FindMode) (nFound : Nat)
    (c : Arr AddrInfo) (slots : List (Nat × Int)) (runs : List (Nat × Nat))
    (made : List MoveCall) (result : Int) : Prop where
  /-- The pages submitted are the first candidates, as many as there is room for. -/
  count : slots.length = min nFound (roomOf host.freeSpacePages 0 (nodeList P mode).length)
  addresses : slots.map Prod.fst = (c.slice 0 slots.length).map AddrInfo.addr
  nodes : InNodeOrder host.freeSpacePages 0 (nodeList P mode) (slots.map Prod.snd)
  /-- The batches are the maximal runs of one pid, one after the other. -/
  tiles : Tiles 0 runs slots.length
  maximal : ∀ run ∈ runs, PidRun c slots.length run
  /-- They are submitted in order, and each page of a batch that fails again. -/
  calls : made = (submit host.fails runs 0).map (callOf c slots)
  answers : ∀ i s, (submit host.fails runs 0)[i]? = some s → s.failed = host.fails i
  /-- The result is the number of pages that arrived with their last submission. -/
  returned : result = arrived (submit host.fails runs 0) slots.length
  bounds : 0 ≤ result ∧ result ≤ nFound

/-- **`do_migration` is exact.** -/
theorem doMigration_exact (P : Platform) (host : Host) (mode : FindMode) (nFound : Nat)
    (c : Arr AddrInfo) :
    (∃ slots runs, ExactMigration P host mode nFound c slots runs
        (doMigration P host mode nFound c).1 (doMigration P host mode nFound c).2) ∧
      doMigrationIn P host mode nFound (sized (nFound + 1) c) =
        some (doMigration P host mode nFound c) := by
  refine ⟨?_, doMigrationIn_eq P mode nFound⟩
  obtain ⟨hcount, haddr, hnodes⟩ := dealOut_slots host c nFound (nodeList P mode)
  generalize hslots : dealOut host c nFound 0 (nodeList P mode) [] = slots at hcount haddr hnodes
  have htiles : Tiles 0 (runsFrom c slots.length slots.length 0) slots.length :=
    runsFrom_tiles (by omega) (Nat.zero_le _)
  unfold doMigration
  simp only [hslots, moveRuns_log, List.length_nil, List.nil_append, Nat.zero_add]
  -- all pages in one list of batches, if there are any
  have hexact : slots.length = arrived (submit host.fails
      (runsFrom c slots.length slots.length 0) 0) slots.length +
        (errors (submit host.fails (runsFrom c slots.length slots.length 0) 0)).length := by
    rcases Nat.eq_zero_or_pos slots.length with hzero | hpos
    · rw [hzero]
      rfl
    · exact ((Rounds.start.round htiles hpos).exact (Nat.le_refl _)).1
  refine ⟨slots, _, hcount, haddr, hnodes, htiles, runsFrom_maximal _ _, rfl,
    fun i s hs => ?_, ?_, ?_⟩
  · rw [submit_answers _ _ hs, Nat.zero_add]
  · omega
  · omega

/-! ## `do_switch` -/

/-- The variables of `do_switch` before its loop. -/
def SwitchState.start (dramSlots nvramSlots : Arr (Nat × Int)) : SwitchState :=
  ⟨.start dramSlots, .start nvramSlots, [], 0⟩

/-- A submission loop over `n` positions: its turns take non-empty runs, one after the
other, to the end, and it does not stop because it has run out of turns. -/
structure Progresses (entries : Arr AddrInfo) (n : Nat) : Prop where
  runs : Tiles 0 (runsFrom entries n n 0) n
  turns : ∀ (host : Host) (slots : List (Nat × Int)), slots.length = n → ∀ (more : Nat) (s : Moves),
    moveRuns host entries slots (n + more) 0 s = moveRuns host entries slots n 0 s

section

variable {P : Platform} {host : Host} {k : Nat} {c : Arr AddrInfo}
  {dramSlots nvramSlots : Arr (Nat × Int)}

theorem progresses (entries : Arr AddrInfo) (n : Nat) : Progresses entries n where
  runs := runsFrom_tiles (by omega) (Nat.zero_le _)
  turns := by
    intro host slots hlen more s
    rw [moveRuns_log, moveRuns_log, hlen, runsFrom_more (by omega)]

/-- After `2 * k` rounds the outer loop is over. -/
theorem switchRounds_stops (P : Platform) (host : Host) (k : Nat) (c : Arr AddrInfo)
    (dramSlots nvramSlots : Arr (Nat × Int)) :
    ¬ (switchRounds P host k c (2 * k) (.start dramSlots nvramSlots)).goesOn k := by
  have htracks : (switchRounds P host k c (2 * k) (.start dramSlots nvramSlots)).Tracks
      (Dealing.after P host.freeSpacePages k (2 * k) .start) :=
    (SwitchState.Tracks.start dramSlots nvramSlots).rounds (2 * k)
  rw [htracks.goesOn]
  exact Dealing.after_stops _ (Dealing.Bounded.start k) (Nat.le_add_right _ _)

/-- The state that `do_switch` ends in. -/
def switchEnd (P : Platform) (host : Host) (k : Nat) (c : Arr AddrInfo)
    (dramSlots nvramSlots : Arr (Nat × Int)) : SwitchState :=
  switchRounds P host k c (2 * k) (.start dramSlots nvramSlots)

theorem doSwitch_eq {rounds : Nat} (h : 2 * k ≤ rounds) :
    doSwitch P host k c dramSlots nvramSlots rounds =
      some ((switchEnd P host k c dramSlots nvramSlots).calls,
        (switchEnd P host k c dramSlots nvramSlots).dram.migrated +
          (switchEnd P host k c dramSlots nvramSlots).nvram.migrated) := by
  have hstop := switchRounds_stops P host k c dramSlots nvramSlots
  have hend : switchRounds P host k c rounds (.start dramSlots nvramSlots) =
      switchEnd P host k c dramSlots nvramSlots := by
    obtain ⟨more, rfl⟩ := Nat.exists_eq_add_of_le h
    rw [switchRounds_eq] at hstop
    rw [switchEnd, switchRounds_eq, switchRounds_eq]
    exact repeatWhile_more hstop more
  unfold SwitchState.start at hend
  unfold doSwitch
  simp only [hend]
  exact if_neg hstop

/-- **`do_switch` ends** within `2 * k + 1` rounds, its submission loops make progress, and
every index is in bounds: those into the candidates are at most `2 * k + 1`, those into the
slots below `k`. -/
theorem doSwitch_bounded (P : Platform) (host : Host) (k : Nat) (c : Arr AddrInfo)
    (dramSlots nvramSlots : Arr (Nat × Int)) :
    (∃ calls moved, ∀ rounds, 2 * k + 1 ≤ rounds →
        doSwitch P host k c dramSlots nvramSlots rounds = some (calls, moved)) ∧
      (∀ (entries : Arr AddrInfo) (n : Nat), Progresses entries n) ∧
      ∀ rounds, switchRoundsIn P host k (sized (2 * k + 2) c) rounds
          (.start dramSlots nvramSlots) =
        some (switchRounds P host k c rounds (.start dramSlots nvramSlots)) := by
  refine ⟨⟨_, _, fun rounds h => doSwitch_eq (by omega)⟩, progresses, fun rounds => ?_⟩
  exact switchRoundsIn_eq rounds (SwitchState.Tracks.start _ _) (Dealing.Bounded.start k)

end

end Ambix.Ctl
