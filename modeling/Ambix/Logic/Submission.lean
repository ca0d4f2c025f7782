import Ambix.Logic.Dealing
import Ambix.Logic.DealOut
import Ambix.Logic.Runs

/-!
# When pages are submitted at all

The calls of a placement only grow, and the first one is made as soon as a node of the
other side has a free page. With no free page on any node that is asked, a placement
makes no call and returns 0.
-/

namespace Ambix.Ctl

open Ambix.Lib

/-- The first `n` readings find no free page. -/
def NoRoom (host : Host) (n : Nat) : Prop := ∀ i, i < n → host.freeSpacePages i ≤ 0

section

variable {host : Host} {c : Arr AddrInfo}

/-! ## `do_migration` -/

theorem dealOut_eq_nil {nFound : Nat} (hpos : 0 < nFound) (nodes : List Int) :
    dealOut host c nFound 0 nodes [] = [] ↔ NoRoom host nodes.length := by
  have hcount := (dealOut_slots host c nFound nodes).1
  have hroom : roomOf host.freeSpacePages 0 nodes.length = 0 ↔ NoRoom host nodes.length := by
    rw [roomOf_eq_zero]
    simp only [Nat.zero_add]
    exact Iff.rfl
  rw [← List.length_eq_zero_iff, hcount, ← hroom]
  omega

/-- **`do_migration` without room** does nothing, and only then. -/
theorem doMigration_eq_nil (P : Platform) (mode : FindMode) {nFound : Nat} (hpos : 0 < nFound) :
    doMigration P host mode nFound c = ([], 0) ↔ NoRoom host (nodeList P mode).length := by
  rw [← dealOut_eq_nil (c := c) hpos]
  unfold doMigration
  simp only
  constructor
  · intro hnone
    by_contra hne
    exact moveRuns_ne_nil hne ⟨[], 0⟩ (congrArg Prod.fst hnone)
  · intro hnil
    rw [hnil]
    rfl

/-! ## `do_switch` -/

/-- A half finds room as soon as one of its readings does. -/
theorem fillSlots_room {nFound : Nat} {addr : Nat → Nat → Nat} {nodes : List Int}
    {readings processed : Nat} (hlt : processed < nFound) (slots : Arr (Nat × Int)) :
    (fillSlots host nFound addr nodes readings processed slots).2.1 = processed ↔
      ∀ j, j < nodes.length → host.freeSpacePages (readings + j) ≤ 0 := by
  obtain ⟨slots', hfill, _⟩ := fillSlots_deal host nFound addr nodes readings processed slots
  rw [hfill, ← roomOf_eq_zero]
  simp only
  rw [deal_room _ (Nat.le_of_lt hlt)]
  omega

/-- A half that has room left asks all its nodes when they have none. -/
theorem fillSlots_readings {nFound : Nat} {addr : Nat → Nat → Nat} {nodes : List Int}
    {readings processed : Nat} (hlt : processed < nFound) (slots : Arr (Nat × Int))
    (hnone : ∀ j, j < nodes.length → host.freeSpacePages (readings + j) ≤ 0) :
    (fillSlots host nFound addr nodes readings processed slots).1 = readings + nodes.length := by
  induction nodes generalizing readings slots with
  | nil => rfl
  | cons node nodes ih =>
    rw [List.length_cons, noRoom_succ] at hnone
    obtain ⟨hfree, hrest⟩ := hnone
    have hzero : min (host.freeSpacePages readings).toNat (nFound - processed) = 0 := by omega
    unfold fillSlots
    simp only [if_pos hlt, hzero, List.range_zero, List.map_nil, Nat.add_zero]
    rw [ih _ hrest, List.length_cons, Nat.add_assoc, Nat.add_comm 1]

section

variable {nFound : Nat} {entries : Arr AddrInfo} {addr : Nat → Nat → Nat} {nodes : List Int}
  {calls : List MoveCall} {readings : Nat} {h : Half}

theorem Half.round_grow :
    calls <+: (h.round host nFound entries addr nodes calls readings).2.1 := by
  unfold Half.round
  simp only
  split
  · exact moveRuns_grow _ 0 ⟨calls, h.e⟩
  · exact List.prefix_rfl

theorem Half.start_processed (slots : Arr (Nat × Int)) :
    ((Half.start slots).migrated + ((Half.start slots).e : Int)).toNat = 0 := rfl

/-- The first round of a half without room. -/
theorem Half.round_noRoom (hpos : 0 < nFound) (slots : Arr (Nat × Int))
    (hnone : ∀ j, j < nodes.length → host.freeSpacePages (readings + j) ≤ 0)
    (entries : Arr AddrInfo) (addr : Nat → Nat → Nat) (calls : List MoveCall) :
    ((Half.start slots).round host nFound entries addr nodes calls readings).2 =
        (calls, readings + nodes.length) ∧
      ((Half.start slots).round host nFound entries addr nodes calls readings).1.migrated = 0 ∧
      ((Half.start slots).round host nFound entries addr nodes calls readings).1.free = false := by
  have hroom : (fillSlots host nFound addr nodes readings 0 slots).2.1 = 0 :=
    (fillSlots_room hpos slots).mpr hnone
  have hreadings : (fillSlots host nFound addr nodes readings 0 slots).1 = readings + nodes.length :=
    fillSlots_readings hpos slots hnone
  have hslots : (Half.start slots).slots = slots := rfl
  unfold Half.round
  simp only [Half.start_processed, hslots]
  rw [hroom, hreadings, if_neg (Nat.lt_irrefl 0)]
  exact ⟨rfl, rfl, rfl⟩

/-- The first round of a half with room makes a call. -/
theorem Half.round_room (hpos : 0 < nFound) {slots : Arr (Nat × Int)}
    (hroom : ¬ ∀ j, j < nodes.length → host.freeSpacePages (readings + j) ≤ 0) :
    ((Half.start slots).round host nFound entries addr nodes calls readings).2.1 ≠ [] := by
  have hne : (fillSlots host nFound addr nodes readings 0 slots).2.1 ≠ 0 :=
    fun heq => hroom ((fillSlots_room hpos slots).mp heq)
  have hslots : (Half.start slots).slots = slots := rfl
  unfold Half.round
  simp only [Half.start_processed, hslots]
  generalize fillSlots host nFound addr nodes readings 0 slots = w at hne
  obtain ⟨readings', processed, slots'⟩ := w
  simp only at hne
  rw [if_pos (Nat.pos_of_ne_zero hne)]
  have hlen : (slots'.slice 0 processed).length = processed := Arr.length_slice _ _ _
  have hslice : slots'.slice 0 processed ≠ [] := by
    intro hnil
    apply hne
    rw [← hlen, hnil]
    rfl
  have hcall : (moveRuns host entries (slots'.slice 0 processed) (slots'.slice 0 processed).length
      0 ⟨calls, 0⟩).calls ≠ [] := moveRuns_ne_nil hslice _
  rw [hlen] at hcall
  exact hcall

end

theorem switchRound_grow (P : Platform) (nFound : Nat) (s : SwitchState) :
    s.calls <+: (switchRound P host nFound c s).calls := by
  unfold switchRound
  exact Half.round_grow.trans Half.round_grow

theorem switchRounds_grow (P : Platform) (nFound : Nat) (rounds : Nat) (s : SwitchState) :
    s.calls <+: (switchRounds P host nFound c rounds s).calls := by
  induction rounds generalizing s with
  | zero => exact List.prefix_rfl
  | succ rounds ih =>
    unfold switchRounds
    split
    · exact (switchRound_grow P nFound s).trans (ih _)
    · exact List.prefix_rfl

theorem noRoom_add {m n : Nat} :
    NoRoom host (m + n) ↔ (∀ j, j < m → host.freeSpacePages (0 + j) ≤ 0) ∧
      ∀ j, j < n → host.freeSpacePages (0 + m + j) ≤ 0 := by
  simp only [NoRoom, Nat.zero_add]
  constructor
  · intro hnone
    exact ⟨fun j hj => hnone j (by omega), fun j hj => hnone (m + j) (by omega)⟩
  · rintro ⟨hlow, hhigh⟩ i hi
    by_cases hm : i < m
    · exact hlow i hm
    · have := hhigh (i - m) (by omega)
      rwa [Nat.add_sub_cancel' (by omega)] at this

/-- The first round without room does nothing, and the outer loop stops after it. -/
theorem switchRound_noRoom (P : Platform) {nFound : Nat} (hpos : 0 < nFound)
    (dramSlots nvramSlots : Arr (Nat × Int))
    (hnone : NoRoom host (P.nvramNodes.length + P.dramNodes.length)) :
    ∃ s, switchRound P host nFound c ⟨.start dramSlots, .start nvramSlots, [], 0⟩ = s ∧
      s.calls = [] ∧ s.dram.migrated = 0 ∧ s.nvram.migrated = 0 ∧ ¬ s.goesOn nFound := by
  obtain ⟨hdram, hnvram⟩ := noRoom_add.mp hnone
  obtain ⟨hd, hdmoved, hdfree⟩ := Half.round_noRoom hpos dramSlots hdram
    (fun i => c (nFound + 1 + i)) (fun _ j => (c (nFound + 1 + j)).addr) []
  obtain ⟨hv, hvmoved, hvfree⟩ := Half.round_noRoom hpos nvramSlots hnvram
    c (fun processed j => (c (processed + j)).addr) []
  refine ⟨_, rfl, ?_⟩
  unfold switchRound
  simp only [hd, hv]
  refine ⟨trivial, hdmoved, hvmoved, ?_⟩
  rintro ⟨_, hfree | hfree⟩
  · exact Bool.false_ne_true (hdfree.symm.trans hfree)
  · exact Bool.false_ne_true (hvfree.symm.trans hfree)

/-- A first round without a call had no room. -/
theorem noRoom_of_switchRound (P : Platform) {nFound : Nat} (hpos : 0 < nFound)
    {dramSlots nvramSlots : Arr (Nat × Int)}
    (hnil : (switchRound P host nFound c ⟨.start dramSlots, .start nvramSlots, [], 0⟩).calls =
      []) :
    NoRoom host (P.nvramNodes.length + P.dramNodes.length) := by
  unfold switchRound at hnil
  simp only at hnil
  have hdram : ∀ j, j < P.nvramNodes.length → host.freeSpacePages (0 + j) ≤ 0 := by
    by_contra hroom
    have hcall : ((Half.start dramSlots).round host nFound (fun i => c (nFound + 1 + i))
        (fun _ j => (c (nFound + 1 + j)).addr) P.nvramNodes [] 0).2.1 ≠ [] :=
      Half.round_room hpos hroom
    apply hcall
    exact List.prefix_nil.mp (Half.round_grow.trans ⟨[], (List.append_nil _).trans hnil⟩)
  rw [(Half.round_noRoom hpos dramSlots hdram _ _ _).1] at hnil
  refine noRoom_add.mpr ⟨hdram, ?_⟩
  by_contra hroom
  exact Half.round_room hpos hroom hnil

/-- **`do_switch` without room** in its first round does nothing, and only then. -/
theorem doSwitch_eq_nil (P : Platform) {nFound : Nat} (hpos : 0 < nFound)
    (dramSlots nvramSlots : Arr (Nat × Int)) :
    (∃ rounds, doSwitch P host nFound c dramSlots nvramSlots rounds = some ([], 0)) ↔
      NoRoom host (P.nvramNodes.length + P.dramNodes.length) := by
  have hgo : SwitchState.goesOn nFound ⟨.start dramSlots, .start nvramSlots, [], 0⟩ :=
    ⟨Or.inl (by simpa [Half.start] using hpos), Or.inl rfl⟩
  constructor
  · rintro ⟨rounds, hrun⟩
    cases rounds with
    | zero =>
      unfold doSwitch at hrun
      simp [switchRounds, hgo] at hrun
    | succ rounds =>
      -- a call of the first round stays
      have hrest : _ <+: (switchRounds P host nFound c rounds (switchRound P host nFound c
        ⟨.start dramSlots, .start nvramSlots, [], 0⟩)).calls := switchRounds_grow _ _ _ _
      unfold doSwitch switchRounds at hrun
      simp only [if_pos hgo] at hrun
      split at hrun
      · simp at hrun
      · rw [(Prod.mk.inj (Option.some.inj hrun)).1] at hrest
        exact noRoom_of_switchRound P hpos (List.prefix_nil.mp hrest)
  · intro hnone
    obtain ⟨s, hs, hcalls, hdram, hnvram, hstop⟩ :=
      switchRound_noRoom P (c := c) hpos dramSlots nvramSlots hnone
    have hround : switchRounds P host nFound c 1 ⟨.start dramSlots, .start nvramSlots, [], 0⟩ =
        s := by
      unfold switchRounds
      rw [if_pos hgo, hs]
      rfl
    refine ⟨1, ?_⟩
    unfold doSwitch
    simp only [hround]
    rw [if_neg hstop, hcalls, hdram, hnvram]
    rfl

end

end Ambix.Ctl
