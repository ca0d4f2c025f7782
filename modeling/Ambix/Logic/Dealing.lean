import Ambix.Ctl.Switch
import Ambix.Lib.While
import Ambix.Logic.DealOut

/-!
# How `do_switch` deals out pages

How many pages each half processes in each round is decided by the readings of free pages
alone, whatever the moves do. `Dealing` is the outer loop with nothing but that: the pages
processed, the two flags, and for each round that dealt pages to a side the batches that
the nodes were given. The code keeps in step with it, and its rounds are numbered: each
one deals out a page or clears both flags.
-/

namespace Ambix.Ctl

open Ambix.Lib

/-- The loop over the nodes of a half: a batch for each node that is asked, as the first
position and the number of pages, and `processed` at the end. -/
def deal (free : Nat → Int) (k : Nat) : Nat → Nat → Nat → List (Nat × Nat) × Nat
  | 0, _, processed => ([], processed)
  | nodes + 1, readings, processed =>
    if processed < k then
      let count := min (free readings).toNat (k - processed)
      let rest := deal free k nodes (readings + 1) (processed + count)
      ((processed, count) :: rest.1, rest.2)
    else ([], processed)

/-- One half: the pages processed, its flag, and the batches of its rounds. -/
structure DealSide where
  processed : Nat
  free : Bool
  rounds : List (List (Nat × Nat))
deriving DecidableEq, Repr

/-- Both halves, with the readings so far. -/
structure Dealing where
  dram : DealSide
  nvram : DealSide
  readings : Nat
deriving DecidableEq, Repr

def DealSide.start : DealSide := ⟨0, true, []⟩

def Dealing.start : Dealing := ⟨.start, .start, 0⟩

/-- One half of a round. -/
def DealSide.round (free : Nat → Int) (k nodes readings : Nat) (d : DealSide) : DealSide × Nat :=
  let dealt := deal free k nodes readings d.processed
  (if d.processed < dealt.2 then ⟨dealt.2, true, d.rounds ++ [dealt.1]⟩
    else ⟨d.processed, false, d.rounds⟩,
    readings + dealt.1.length)

def Dealing.round (P : Platform) (free : Nat → Int) (k : Nat) (d : Dealing) : Dealing :=
  let x := d.dram.round free k P.nvramNodes.length d.readings
  let y := d.nvram.round free k P.dramNodes.length x.2
  ⟨x.1, y.1, y.2⟩

def Dealing.goesOn (k : Nat) (d : Dealing) : Prop :=
  (d.dram.processed < k ∨ d.nvram.processed < k) ∧ (d.dram.free = true ∨ d.nvram.free = true)

instance (k : Nat) (d : Dealing) : Decidable (d.goesOn k) :=
  inferInstanceAs (Decidable ((_ ∨ _) ∧ (_ ∨ _)))

/-- The outer loop, for a number of rounds at most. -/
def Dealing.after (P : Platform) (free : Nat → Int) (k rounds : Nat) (d : Dealing) : Dealing :=
  repeatWhile (Dealing.goesOn k) (Dealing.round P free k) rounds d

/-- How `do_switch` deals out `k` pairs on these readings. -/
def dealing (P : Platform) (free : Nat → Int) (k : Nat) : Dealing :=
  Dealing.after P free k (2 * k) .start

/-! ## One round -/

section

variable {free : Nat → Int} {k : Nat}

variable (free k) in
theorem deal_le (nodes readings processed : Nat) :
    processed ≤ (deal free k nodes readings processed).2 := by
  induction nodes generalizing readings processed with
  | zero => exact Nat.le_refl _
  | succ nodes ih =>
    unfold deal
    split
    · exact Nat.le_trans (Nat.le_add_right _ _) (ih _ _)
    · exact Nat.le_refl _

variable (free) in
/-- **A half** deals out what there is room for. -/
theorem deal_room {processed : Nat} (h : processed ≤ k) (nodes readings : Nat) :
    (deal free k nodes readings processed).2 = min k (processed + roomOf free readings nodes) := by
  induction nodes generalizing readings processed with
  | zero =>
    simp only [deal, roomOf]
    omega
  | succ nodes ih =>
    unfold deal
    split
    · simp only
      rw [ih (by omega), roomOf]
      omega
    · simp only
      omega

variable (free) in
theorem deal_bound {processed : Nat} (h : processed ≤ k) (nodes readings : Nat) :
    (deal free k nodes readings processed).2 ≤ k := by
  rw [deal_room free h]
  exact Nat.min_le_left _ _

/-- The batches lie between the old and the new `processed`, -/
theorem deal_range {nodes readings processed : Nat} {b : Nat × Nat}
    (h : b ∈ (deal free k nodes readings processed).1) :
    processed ≤ b.1 ∧ b.1 + b.2 ≤ (deal free k nodes readings processed).2 := by
  induction nodes generalizing readings processed with
  | zero => simp [deal] at h
  | succ nodes ih =>
    unfold deal at h ⊢
    split
    · rename_i hroom
      rw [if_pos hroom] at h
      rcases List.mem_cons.mp h with rfl | h
      · exact ⟨Nat.le_refl _, deal_le _ _ _ _ _⟩
      · obtain ⟨hlo, hhi⟩ := ih h
        exact ⟨by omega, hhi⟩
    · rename_i hfull
      rw [if_neg hfull] at h
      simp at h

/-- and cover what is between them. -/
theorem deal_cover {nodes readings processed p : Nat} (hlo : processed ≤ p)
    (hhi : p < (deal free k nodes readings processed).2) :
    ∃ b ∈ (deal free k nodes readings processed).1, b.1 ≤ p ∧ p < b.1 + b.2 := by
  induction nodes generalizing readings processed with
  | zero => exact absurd hhi (Nat.not_lt.mpr hlo)
  | succ nodes ih =>
    unfold deal at hhi ⊢
    split
    · rename_i hroom
      rw [if_pos hroom] at hhi
      by_cases hp : p < processed + min (free readings).toNat (k - processed)
      · exact ⟨_, List.mem_cons_self, hlo, hp⟩
      · obtain ⟨b, hb, hin⟩ := ih (Nat.le_of_not_lt hp) hhi
        exact ⟨b, List.mem_cons_of_mem _ hb, hin⟩
    · rename_i hfull
      rw [if_neg hfull] at hhi
      exact absurd hhi (Nat.not_lt.mpr hlo)

variable (free k) in
theorem DealSide.round_le (nodes readings : Nat) (d : DealSide) :
    d.processed ≤ (d.round free k nodes readings).1.processed := by
  unfold DealSide.round
  simp only
  split
  · exact deal_le _ _ _ _ _
  · exact Nat.le_refl _

theorem DealSide.round_bound {d : DealSide} (h : d.processed ≤ k) (nodes readings : Nat) :
    (d.round free k nodes readings).1.processed ≤ k := by
  unfold DealSide.round
  simp only
  split
  · exact deal_bound _ h _ _
  · exact h

/-- A half whose flag is set afterwards has dealt out a page. -/
theorem DealSide.round_free {d : DealSide} {nodes readings : Nat}
    (h : (d.round free k nodes readings).1.free = true) :
    d.processed < (d.round free k nodes readings).1.processed := by
  unfold DealSide.round at h ⊢
  simp only at h ⊢
  split
  · rename_i hlt
    exact hlt
  · rename_i hnot
    rw [if_neg hnot] at h
    exact absurd h Bool.false_ne_true

/-! ## The outer loop -/

/-- Neither half has more pages than there are. -/
structure Dealing.Bounded (k : Nat) (d : Dealing) : Prop where
  dram : d.dram.processed ≤ k
  nvram : d.nvram.processed ≤ k

theorem Dealing.Bounded.start (k : Nat) : Dealing.Bounded k .start :=
  ⟨Nat.zero_le _, Nat.zero_le _⟩

variable {P : Platform}

theorem Dealing.Bounded.round {d : Dealing} (h : d.Bounded k) : (d.round P free k).Bounded k :=
  ⟨DealSide.round_bound h.dram _ _, DealSide.round_bound h.nvram _ _⟩

/-- **A round** deals out a page or clears both flags. -/
theorem Dealing.round_progress (d : Dealing) :
    d.dram.processed + d.nvram.processed <
        (d.round P free k).dram.processed + (d.round P free k).nvram.processed ∨
      ¬ (d.round P free k).goesOn k := by
  have hdram := DealSide.round_le free k P.nvramNodes.length d.readings d.dram
  have hnvram := DealSide.round_le free k P.dramNodes.length
    (d.dram.round free k P.nvramNodes.length d.readings).2 d.nvram
  by_cases hgo : (d.round P free k).goesOn k
  · refine Or.inl ?_
    rcases hgo.2 with hfree | hfree
    · have hlt := DealSide.round_free hfree
      exact Nat.add_lt_add_of_lt_of_le hlt hnvram
    · have hlt := DealSide.round_free hfree
      exact Nat.add_lt_add_of_le_of_lt hdram hlt
  · exact Or.inr hgo

/-- **The loop ends**: a round is left for every page that is not processed. -/
theorem Dealing.after_stops (rounds : Nat) {d : Dealing} (hd : d.Bounded k)
    (h : 2 * k ≤ rounds + (d.dram.processed + d.nvram.processed)) :
    ¬ (Dealing.after P free k rounds d).goesOn k := by
  apply repeatWhile_stops (I := Dealing.Bounded k)
    (fun d => d.dram.processed + d.nvram.processed) (2 * k) _ _ _ hd h
  · intro d hd _
    exact hd.round
  · rintro d hd ⟨hleft, _⟩
    have hdram := hd.dram
    have hnvram := hd.nvram
    omega
  · intro d _ _
    exact Dealing.round_progress d

theorem dealing_bounded (P : Platform) (free : Nat → Int) (k : Nat) :
    (dealing P free k).Bounded k :=
  repeatWhile_inv (fun _ hd _ => hd.round) _ (Dealing.Bounded.start k)

end

/-! ## The code keeps in step -/

/-- The loop over the nodes: readings and `processed` are those of `deal`, the pages of each
batch get the addresses from its start and a node of the list, the others stay. -/
structure Filled (addr : Nat → Nat → Nat) (nodes : List Int) (batches : List (Nat × Nat))
    (slots slots' : Arr (Nat × Int)) : Prop where
  inside : ∀ b ∈ batches, ∀ j, j < b.2 →
    (slots' (b.1 + j)).1 = addr b.1 j ∧ (slots' (b.1 + j)).2 ∈ nodes
  outside : ∀ p, (∀ b ∈ batches, ¬ (b.1 ≤ p ∧ p < b.1 + b.2)) → slots' p = slots p

section

variable {host : Host} {k : Nat}

theorem write_range {α : Type*} (f : Nat → α) (a : Arr α) (pos n p : Nat) :
    a.write pos ((List.range n).map f) p = if pos ≤ p ∧ p < pos + n then f (p - pos) else a p := by
  have hslice : (List.range n).map f = Arr.slice f 0 n := by
    simp only [Arr.slice, Nat.zero_add]
  rw [hslice, Arr.write_slice, Nat.zero_add]

variable (host k) in
theorem fillSlots_deal (addr : Nat → Nat → Nat) (nodes : List Int) (readings processed : Nat)
    (slots : Arr (Nat × Int)) :
    ∃ slots', fillSlots host k addr nodes readings processed slots =
        (readings + (deal host.freeSpacePages k nodes.length readings processed).1.length,
          (deal host.freeSpacePages k nodes.length readings processed).2, slots') ∧
      Filled addr nodes (deal host.freeSpacePages k nodes.length readings processed).1 slots
        slots' := by
  induction nodes generalizing readings processed slots with
  | nil => exact ⟨slots, rfl, by simp [deal], fun _ _ => rfl⟩
  | cons node nodes ih =>
    rw [List.length_cons]
    unfold fillSlots deal
    by_cases hroom : processed < k
    · simp only [if_pos hroom]
      generalize min (host.freeSpacePages readings).toNat (k - processed) = count
      obtain ⟨slots', hfill, hinside, houtside⟩ := ih (readings + 1) (processed + count)
        (slots.write processed ((List.range count).map fun j => (addr processed j, node)))
      refine ⟨slots', ?_, ?_, ?_⟩
      · rw [hfill, List.length_cons, Nat.add_assoc, Nat.add_comm 1]
      · intro b hb j hj
        rcases List.mem_cons.mp hb with rfl | hb
        · -- the later batches start behind this one
          have hlater : ∀ b' ∈ (deal host.freeSpacePages k nodes.length (readings + 1)
              (processed + count)).1, ¬ (b'.1 ≤ processed + j ∧ processed + j < b'.1 + b'.2) := by
            intro b' hb' hin
            have hlo := (deal_range hb').1
            simp only at hj
            omega
          simp only at hj ⊢
          rw [houtside _ hlater, write_range, if_pos (by omega), Nat.add_sub_cancel_left]
          exact ⟨rfl, List.mem_cons_self⟩
        · obtain ⟨haddr, hnode⟩ := hinside b hb j hj
          exact ⟨haddr, List.mem_cons_of_mem _ hnode⟩
      · intro p hp
        rw [houtside p fun b hb => hp b (List.mem_cons_of_mem _ hb), write_range,
          if_neg (hp _ List.mem_cons_self)]
    · simp only [if_neg hroom]
      exact ⟨slots, rfl, by simp, fun _ _ => rfl⟩

/-- A half of the code and a half of the dealing agree. -/
structure Half.Tracks (h : Half) (d : DealSide) : Prop where
  processed : h.migrated + h.e = d.processed
  free : h.free = d.free

theorem Half.Tracks.start (slots : Arr (Nat × Int)) : (Half.start slots).Tracks .start :=
  ⟨rfl, rfl⟩

theorem Half.Tracks.toNat {h : Half} {d : DealSide} (ht : h.Tracks d) :
    (h.migrated + h.e).toNat = d.processed := by
  rw [ht.processed, Int.toNat_natCast]

variable (host k) in
theorem Half.round_tracks {h : Half} {d : DealSide} (ht : h.Tracks d) (entries : Arr AddrInfo)
    (addr : Nat → Nat → Nat) (nodes : List Int) (calls : List MoveCall) (readings : Nat) :
    (h.round host k entries addr nodes calls readings).1.Tracks
        (d.round host.freeSpacePages k nodes.length readings).1 ∧
      (h.round host k entries addr nodes calls readings).2.2 =
        (d.round host.freeSpacePages k nodes.length readings).2 := by
  obtain ⟨slots', hfill, _⟩ := fillSlots_deal host k addr nodes readings
    d.processed h.slots
  have hle := deal_le host.freeSpacePages k nodes.length readings d.processed
  unfold Half.round DealSide.round
  simp only [ht.toNat, hfill]
  split
  · exact ⟨⟨Int.sub_add_cancel _ _, rfl⟩, rfl⟩
  · refine ⟨⟨?_, rfl⟩, rfl⟩
    simp only [Int.sub_add_cancel]
    omega

/-- The outer loop of the code and the dealing agree. -/
structure SwitchState.Tracks (s : SwitchState) (d : Dealing) : Prop where
  dram : s.dram.Tracks d.dram
  nvram : s.nvram.Tracks d.nvram
  readings : s.readings = d.readings

theorem SwitchState.Tracks.start (dramSlots nvramSlots : Arr (Nat × Int)) :
    SwitchState.Tracks ⟨.start dramSlots, .start nvramSlots, [], 0⟩ .start :=
  ⟨Half.Tracks.start _, Half.Tracks.start _, rfl⟩

variable {P : Platform} {c : Arr AddrInfo} {s : SwitchState} {d : Dealing}

theorem SwitchState.Tracks.goesOn (h : s.Tracks d) : s.goesOn k ↔ d.goesOn k := by
  unfold SwitchState.goesOn Dealing.goesOn
  rw [h.dram.processed, h.nvram.processed, h.dram.free, h.nvram.free, Int.ofNat_lt, Int.ofNat_lt]

theorem SwitchState.Tracks.round (h : s.Tracks d) :
    (switchRound P host k c s).Tracks (d.round P host.freeSpacePages k) := by
  obtain ⟨hd, hreadings⟩ := Half.round_tracks host k h.dram
    (fun i => c (k + 1 + i)) (fun _ j => (c (k + 1 + j)).addr) P.nvramNodes s.calls s.readings
  unfold switchRound Dealing.round
  simp only
  generalize s.dram.round host k (fun i => c (k + 1 + i)) (fun _ j => (c (k + 1 + j)).addr)
    P.nvramNodes s.calls s.readings = x at hd hreadings ⊢
  rw [h.readings] at hd hreadings
  obtain ⟨hv, hreadings'⟩ := Half.round_tracks host k h.nvram c
    (fun processed j => (c (processed + j)).addr) P.dramNodes x.2.1 x.2.2
  rw [hreadings] at hv hreadings'
  refine ⟨hd, ?_, ?_⟩
  · rw [hreadings]
    exact hv
  · rw [hreadings]
    exact hreadings'

theorem switchRounds_eq (rounds : Nat) (s : SwitchState) :
    switchRounds P host k c rounds s =
      repeatWhile (SwitchState.goesOn k) (switchRound P host k c) rounds s := by
  induction rounds generalizing s with
  | zero => rfl
  | succ rounds ih =>
    unfold switchRounds repeatWhile
    rw [ih]

/-- **The code keeps in step with the dealing**, round by round. -/
theorem SwitchState.Tracks.rounds (rounds : Nat) (h : s.Tracks d) :
    (switchRounds P host k c rounds s).Tracks
      (Dealing.after P host.freeSpacePages k rounds d) := by
  rw [switchRounds_eq]
  exact repeatWhile_rel (fun _ _ ht => ht.goesOn) (fun _ _ ht => ht.round) rounds h

end

end Ambix.Ctl
