import Ambix.Ctl.Checked
import Ambix.Logic.Dealing
import Ambix.Logic.DealOut
import Ambix.Logic.Runs
import Mathlib.Data.List.GetD

/-!
# No access is out of bounds

With room for the candidates that were found and their terminator, and as many slots as
there are candidates, the checked loops are the loops.
-/

namespace Ambix.Ctl

open Ambix.Lib

section

variable {host : Host} {c : Arr AddrInfo} {entries : Nat → Option AddrInfo}

theorem sized_of_lt {α : Type*} {size i : Nat} (a : Arr α) (h : i < size) :
    sized size a i = some (a i) := if_pos h

theorem mapM_some {α β : Type*} {f : α → Option β} {g : α → β} {xs : List α}
    (h : ∀ x ∈ xs, f x = some (g x)) : xs.mapM f = some (xs.map g) := by
  induction xs with
  | nil => rfl
  | cons x xs ih =>
    rw [List.mapM_cons, h x List.mem_cons_self, ih fun y hy => h y (List.mem_cons_of_mem _ hy)]
    rfl

/-! ## The second loop -/

theorem sameRunIn_eq {pos left : Nat} (pid : Int)
    (h : ∀ i, pos ≤ i → i ≤ pos + left → entries i = some (c i)) :
    sameRunIn entries pid pos left = some (sameRun c pid pos left) := by
  induction left generalizing pos with
  | zero =>
    rw [sameRunIn, h pos (Nat.le_refl _) (Nat.le_refl _)]
    rfl
  | succ left ih =>
    rw [sameRunIn, h pos (Nat.le_refl _) (Nat.le_add_right _ _), Option.bind_some,
      ih fun i hlo hhi => h i (by omega) (by omega), sameRun]
    split <;> rfl

theorem readSlots_eq {slotsIn : Nat → Option (Nat × Int)} {slots : List (Nat × Int)}
    (h : ∀ i, i < slots.length → slotsIn i = slots[i]?) {first count : Nat}
    (hle : first + count ≤ slots.length) :
    readSlots slotsIn first count = some ((slots.drop first).take count) := by
  have hmap : (slots.drop first).take count =
      (List.range count).map fun j => slots.getD (first + j) (0, 0) := by
    apply List.ext_getElem
    · simp only [List.length_take, List.length_drop, List.length_map, List.length_range]
      omega
    · intro j hj _
      simp only [List.length_take, List.length_drop] at hj
      simp only [List.getElem_take, List.getElem_drop, List.getElem_map, List.getElem_range]
      rw [List.getD_eq_getElem _ _ (by omega)]
  rw [hmap]
  refine mapM_some fun j hj => ?_
  have hj := List.mem_range.mp hj
  rw [h _ (by omega), List.getElem?_eq_getElem (by omega), List.getD_eq_getElem _ _ (by omega)]

variable (host) in
/-- **The second loop** reads the candidates up to `n_processed` and the slots below it. -/
theorem moveRunsIn_eq {slotsIn : Nat → Option (Nat × Int)} {slots : List (Nat × Int)}
    (hentries : ∀ i, i ≤ slots.length → entries i = some (c i))
    (hslots : ∀ i, i < slots.length → slotsIn i = slots[i]?) (turns pos : Nat) (s : Moves) :
    moveRunsIn host entries slotsIn slots.length turns pos s =
      some (moveRuns host c slots turns pos s) := by
  induction turns generalizing pos s with
  | zero => rfl
  | succ turns ih =>
    unfold moveRunsIn moveRuns
    split
    · rename_i hlt
      have hrun : sameRunIn entries (c pos).pidRetval (pos + 1) (slots.length - (pos + 1)) =
          some (sameRun c (c pos).pidRetval (pos + 1) (slots.length - (pos + 1))) :=
        sameRunIn_eq _ fun i hlo hhi => hentries i (by omega)
      have hle := (pidRun (c := c) hlt).le
      rw [hentries pos (by omega), Option.bind_some]
      simp only [hrun, Option.bind_some] at hle ⊢
      rw [readSlots_eq hslots hle, Option.bind_some]
      exact ih _ _
    · rfl

/-! ## The first loop -/

theorem dealNode_eq {addrIn : Nat → Nat → Option Nat} (addr : Nat → Nat → Nat)
    {nFound processed count : Nat} (node : Int)
    (haddr : ∀ j, j < count → addrIn processed j = some (addr processed j))
    (hle : processed + count ≤ nFound) :
    dealNode addrIn nFound node processed count =
      some ((List.range count).map fun j => (addr processed j, node)) := by
  refine mapM_some fun j hj => ?_
  have hj := List.mem_range.mp hj
  rw [if_pos (by omega), haddr j hj]
  rfl

/-- The first loop of `do_migration` reads the candidates below `n_found`. -/
theorem dealOutIn_eq {nFound : Nat} (hentries : ∀ i, i < nFound → entries i = some (c i))
    (nodes : List Int) (i : Nat) (slots : List (Nat × Int)) :
    dealOutIn host entries nFound i nodes slots = some (dealOut host c nFound i nodes slots) := by
  induction nodes generalizing i slots with
  | nil => rfl
  | cons node nodes ih =>
    unfold dealOutIn dealOut
    split
    · rename_i hroom
      simp only
      rw [dealNode_eq (fun processed j => (c (processed + j)).addr) node
        (fun j hj => by rw [hentries _ (by omega)]; rfl) (by omega), Option.bind_some]
      exact ih _ _
    · rfl

/-- **`do_migration` stays in its arrays**, with `n_found` candidates and a terminator. -/
theorem doMigrationIn_eq (P : Platform) (mode : FindMode) (nFound : Nat) :
    doMigrationIn P host mode nFound (sized (nFound + 1) c) =
      some (doMigration P host mode nFound c) := by
  have hentries : ∀ i, i < nFound + 1 → sized (nFound + 1) c i = some (c i) :=
    fun i hi => sized_of_lt c hi
  have hle := (dealOut_slots host c nFound (nodeList P mode)).1
  unfold doMigrationIn doMigration
  rw [dealOutIn_eq (fun i hi => hentries i (by omega)), Option.bind_some,
    moveRunsIn_eq host (fun i hi => hentries i (by omega)) fun i _ => rfl]
  rfl

/-- The loop over the nodes of a half. -/
theorem fillSlotsIn_eq {k : Nat} {addrIn : Nat → Nat → Option Nat} {addr : Nat → Nat → Nat}
    (haddr : ∀ processed j, processed + j < k → addrIn processed j = some (addr processed j))
    (nodes : List Int) (readings processed : Nat) (slots : Arr (Nat × Int)) :
    fillSlotsIn host k addrIn nodes readings processed slots =
      some (fillSlots host k addr nodes readings processed slots) := by
  induction nodes generalizing readings processed slots with
  | nil => rfl
  | cons node nodes ih =>
    unfold fillSlotsIn fillSlots
    split
    · rename_i hroom
      simp only
      rw [dealNode_eq addr node (fun j hj => haddr processed j (by omega)) (by omega),
        Option.bind_some]
      exact ih _ _ _
    · rfl

/-! ## `do_switch` -/

variable (host) in
/-- One half of a round, for as many pages as there are. -/
theorem Half.roundIn_eq {k : Nat} {addrIn : Nat → Nat → Option Nat} (addr : Nat → Nat → Nat)
    (haddr : ∀ processed j, processed + j < k → addrIn processed j = some (addr processed j))
    (hentries : ∀ i, i ≤ k → entries i = some (c i)) {h : Half} {d : DealSide} (ht : h.Tracks d)
    (hd : d.processed ≤ k) (nodes : List Int) (calls : List MoveCall) (readings : Nat) :
    h.roundIn host k entries addrIn nodes calls readings =
      some (h.round host k c addr nodes calls readings) := by
  obtain ⟨slots', hfill, _⟩ := fillSlots_deal host k addr nodes readings
    d.processed h.slots
  have hbound := deal_bound host.freeSpacePages hd nodes.length readings
  unfold Half.roundIn Half.round
  simp only [ht.toNat, fillSlotsIn_eq haddr, hfill, Option.bind_some]
  generalize (deal host.freeSpacePages k nodes.length readings d.processed).2 = processed at hbound
  split
  · have hlen : (slots'.slice 0 processed).length = processed := Arr.length_slice _ _ _
    have hread : ∀ i, i < (slots'.slice 0 processed).length →
        sized k slots' i = (slots'.slice 0 processed)[i]? := by
      intro i hi
      rw [hlen] at hi
      rw [sized_of_lt _ (by omega), Arr.slice, List.getElem?_map, List.getElem?_range hi,
        Option.map_some, Nat.zero_add]
    have hruns := moveRunsIn_eq host (fun i hi => hentries i (by omega)) hread processed 0
      ⟨calls, h.e⟩
    rw [hlen] at hruns
    rw [hruns]
    rfl
  · rfl

variable {P : Platform} {k : Nat} {s : SwitchState} {d : Dealing}

theorem switchRoundIn_eq (h : s.Tracks d) (hd : d.Bounded k) :
    switchRoundIn P host k (sized (2 * k + 2) c) s = some (switchRound P host k c s) := by
  have hcandidates : ∀ i, i < 2 * k + 2 → sized (2 * k + 2) c i = some (c i) :=
    fun i hi => sized_of_lt c hi
  unfold switchRoundIn switchRound
  rw [Half.roundIn_eq host (c := fun i => c (k + 1 + i)) (fun _ j => (c (k + 1 + j)).addr)
    (fun processed j hj => by rw [hcandidates _ (by omega)]; rfl)
    (fun i hi => hcandidates _ (by omega)) h.dram hd.dram, Option.bind_some]
  simp only
  rw [Half.roundIn_eq host (c := c) (fun processed j => (c (processed + j)).addr)
    (fun processed j hj => by rw [hcandidates _ (by omega)]; rfl)
    (fun i hi => hcandidates _ (by omega)) h.nvram hd.nvram]
  rfl

/-- **`do_switch` stays in its arrays**, with `n_found` candidates, a separator, `n_found`
candidates and a terminator. -/
theorem switchRoundsIn_eq (rounds : Nat) (h : s.Tracks d) (hd : d.Bounded k) :
    switchRoundsIn P host k (sized (2 * k + 2) c) rounds s =
      some (switchRounds P host k c rounds s) := by
  induction rounds generalizing s d with
  | zero => rfl
  | succ rounds ih =>
    unfold switchRoundsIn switchRounds
    split
    · rw [switchRoundIn_eq h hd, Option.bind_some]
      exact ih h.round hd.round
    · rfl

end

end Ambix.Ctl
