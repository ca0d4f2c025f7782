import Ambix.Logic.Dealing
import Ambix.Logic.Runs

/-!
# `do_switch` as two ledgers

A second, abstract `do_switch`: pages are dealt out, and each half keeps a log of what it
has submitted. Slots, counters and calls are gone. The code refines it: its calls are the
entries of the log, `e` is the number of errors of a half's log, and the slots of a half
hold what its batches were given.
-/

namespace Ambix.Ctl

open Ambix.Lib Ambix.Lib.Batch

/-! ## The two directions -/

/-- `DRAM -> NVRAM` and `NVRAM -> DRAM`. -/
inductive Side
  | toNvram
  | toDram
deriving DecidableEq, Repr

/-- The candidates of a side, from its first entry on. -/
def Side.entries (k : Nat) (c : Arr AddrInfo) : Side → Arr AddrInfo
  | .toNvram => fun i => c (k + 1 + i)
  | .toDram => c

/-- The address that `do_switch` gives to page `j` of a batch. -/
def Side.addr (k : Nat) (c : Arr AddrInfo) : Side → Nat → Nat → Nat
  | .toNvram => fun _ j => (c (k + 1 + j)).addr
  | .toDram => fun processed j => (c (processed + j)).addr

/-- The nodes that the pages of a side go to. -/
def Side.nodes (P : Platform) : Side → List Int
  | .toNvram => P.nvramNodes
  | .toDram => P.dramNodes

def SwitchState.half (s : SwitchState) : Side → Half
  | .toNvram => s.dram
  | .toDram => s.nvram

def Dealing.side (d : Dealing) : Side → DealSide
  | .toNvram => d.dram
  | .toDram => d.nvram

/-! ## The abstract `do_switch` -/

/-- What a half submits in a round, with the number of calls so far. -/
def DealSide.submits (host : Host) (k : Nat) (entries : Arr AddrInfo) (nodes readings calls : Nat)
    (d : DealSide) : List Submission :=
  let processed := (deal host.freeSpacePages k nodes readings d.processed).2
  if d.processed < processed then
    submit host.fails (runsFrom entries processed processed 0) calls
  else []

/-- The pages dealt out and the log of all calls. -/
structure Ledger where
  deal : Dealing
  log : List (Side × Submission)

def Ledger.start : Ledger := ⟨.start, []⟩

/-- The log of one side. -/
def Ledger.of (l : Ledger) (x : Side) : List Submission :=
  l.log.filterMap fun y => if y.1 = x then some y.2 else none

/-- One half of a round, with the readings at its start. -/
def Ledger.submits (P : Platform) (host : Host) (k : Nat) (c : Arr AddrInfo) (x : Side)
    (readings calls : Nat) (l : Ledger) : List (Side × Submission) :=
  ((l.deal.side x).submits host k (x.entries k c) (x.nodes P).length readings calls).map fun s =>
    (x, s)

def Ledger.round (P : Platform) (host : Host) (k : Nat) (c : Arr AddrInfo) (l : Ledger) : Ledger :=
  let out := l.submits P host k c .toNvram l.deal.readings l.log.length
  let middle := (l.deal.dram.round host.freeSpacePages k P.nvramNodes.length l.deal.readings).2
  let back := l.submits P host k c .toDram middle (l.log.length + out.length)
  ⟨l.deal.round P host.freeSpacePages k, l.log ++ out ++ back⟩

/-- The ledgers when `do_switch` ends. -/
def ledger (P : Platform) (host : Host) (k : Nat) (c : Arr AddrInfo) : Ledger :=
  repeatWhile (fun l => l.deal.goesOn k) (Ledger.round P host k c) (2 * k) .start

/-! ## One half -/

/-- The call is this entry of the log, and its positions are among those processed. -/
structure IsCall (entries : Arr AddrInfo) (slots : Arr (Nat × Int)) (processed : Nat)
    (call : MoveCall) (s : Submission) : Prop where
  le : s.first + s.count ≤ processed
  pid : ∀ j, j < s.count → (entries (s.first + j)).pidRetval = call.pid
  first : call.first = s.first
  pages : call.pages = slots.slice s.first s.count

/-- A half of the code, with its log. -/
structure Half.Refines (host : Host) (addr : Nat → Nat → Nat) (nodes : List Int) (h : Half)
    (d : DealSide) (log : List Submission) : Prop extends h.Tracks d where
  errors : h.e = (errors log).length
  rounds : Rounds host.fails d.rounds.length d.processed log
  slots : ∀ b ∈ d.rounds.flatten, ∀ j, j < b.2 →
    (h.slots (b.1 + j)).1 = addr b.1 j ∧ (h.slots (b.1 + j)).2 ∈ nodes
  cover : ∀ p, p < d.processed → ∃ b ∈ d.rounds.flatten, b.1 ≤ p ∧ p < b.1 + b.2
  range : ∀ b ∈ d.rounds.flatten, b.1 + b.2 ≤ d.processed

section

variable {host : Host} {k : Nat} {entries : Arr AddrInfo} {addr : Nat → Nat → Nat}
  {nodes : List Int}

theorem IsCall.mono {slots slots' : Arr (Nat × Int)} {processed processed' : Nat} {call : MoveCall}
    {s : Submission} (h : IsCall entries slots processed call s) (hle : processed ≤ processed')
    (hslots : ∀ p, p < processed → slots' p = slots p) :
    IsCall entries slots' processed' call s := by
  refine ⟨Nat.le_trans h.le hle, h.pid, h.first, ?_⟩
  rw [h.pages]
  have hend := h.le
  exact Arr.slice_congr fun j hj => (hslots _ (by omega)).symm

theorem drop_take_slice {α : Type*} (a : Arr α) {n first count : Nat} (h : first + count ≤ n) :
    ((a.slice 0 n).drop first).take count = a.slice first count := by
  obtain ⟨rest, rfl⟩ := Nat.exists_eq_add_of_le h
  rw [Nat.add_assoc, Arr.slice_add, List.drop_left' (Arr.length_slice _ _ _), Nat.zero_add,
    Arr.take_slice _ _ (Nat.le_add_right _ _)]

/-- The calls that submit runs are entries of their log. -/
theorem isCall_callOf {slots : Arr (Nat × Int)} {n calls : Nat} {s : Submission}
    (hs : s ∈ submit host.fails (runsFrom entries n n 0) calls) :
    IsCall entries slots n (callOf entries (slots.slice 0 n) s) s := by
  obtain ⟨hle, hpid⟩ := submit_pid hs
  exact ⟨hle, hpid, rfl, drop_take_slice slots hle⟩

theorem Half.Refines.start (slots : Arr (Nat × Int)) :
    (Half.start slots).Refines host addr nodes .start [] where
  toTracks := Half.Tracks.start slots
  errors := rfl
  rounds := .start
  slots := by simp [DealSide.start]
  cover := fun p hp => absurd hp (Nat.not_lt_zero p)
  range := by simp [DealSide.start]

variable (k entries) in
/-- **One half of a round** keeps the refinement: its new calls are what it submits, and the
slots of pages that were processed before stay. -/
theorem Half.Refines.round {h : Half} {d : DealSide} {log : List Submission}
    (hr : h.Refines host addr nodes d log) (calls : List MoveCall) (readings : Nat) :
    ∃ h' made, h.round host k entries addr nodes calls readings =
        (h', calls ++ made, (d.round host.freeSpacePages k nodes.length readings).2) ∧
      h'.Refines host addr nodes (d.round host.freeSpacePages k nodes.length readings).1
        (log ++ d.submits host k entries nodes.length readings calls.length) ∧
      (∀ p, p < d.processed → h'.slots p = h.slots p) ∧
      List.Forall₂ (IsCall entries h'.slots
          (d.round host.freeSpacePages k nodes.length readings).1.processed)
        made (d.submits host k entries nodes.length readings calls.length) := by
  obtain ⟨slots', hfill, hinside, houtside⟩ := fillSlots_deal host k addr nodes
    readings d.processed h.slots
  have hold : ∀ p, p < d.processed → slots' p = h.slots p := by
    intro p hp
    refine houtside p fun b hb hin => ?_
    have hlo := (deal_range hb).1
    omega
  -- what earlier rounds filled in is below the pages of this one
  have hkept : ∀ b ∈ d.rounds.flatten, ∀ j, j < b.2 →
      (slots' (b.1 + j)).1 = addr b.1 j ∧ (slots' (b.1 + j)).2 ∈ nodes := by
    intro b hb j hj
    have hend := hr.range b hb
    rw [hold (b.1 + j) (by omega)]
    exact hr.slots b hb j hj
  obtain ⟨htracks, _⟩ := Half.round_tracks host k hr.toTracks entries addr nodes
    calls readings
  have hcover : ∀ p, d.processed ≤ p →
      p < (deal host.freeSpacePages k nodes.length readings d.processed).2 →
      ∃ b ∈ (deal host.freeSpacePages k nodes.length readings d.processed).1,
        b.1 ≤ p ∧ p < b.1 + b.2 :=
    fun p => deal_cover
  have hrange : ∀ b ∈ (deal host.freeSpacePages k nodes.length readings d.processed).1,
      d.processed ≤ b.1 ∧
        b.1 + b.2 ≤ (deal host.freeSpacePages k nodes.length readings d.processed).2 :=
    fun b => deal_range
  unfold Half.round DealSide.round at htracks
  unfold Half.round DealSide.round DealSide.submits
  simp only [hr.toTracks.toNat, hfill] at htracks ⊢
  generalize deal host.freeSpacePages k nodes.length readings d.processed = dealt at *
  split
  · rename_i hgrow
    rw [if_pos hgrow, if_pos hgrow] at htracks
    have hlog := moveRuns_log host entries (slots'.slice 0 dealt.2) dealt.2 0 ⟨calls, h.e⟩
    rw [Arr.length_slice] at hlog
    have htiles : Tiles 0 (runsFrom entries dealt.2 dealt.2 0) dealt.2 :=
      runsFrom_tiles (by omega) (Nat.zero_le _)
    rw [hlog] at htracks ⊢
    refine ⟨_, _, rfl, ⟨htracks, ?_, ?_, ?_, ?_, ?_⟩, hold, ?_⟩
    · simp only [errors_append, List.length_append, hr.errors]
    · simp only [List.length_append, List.length_singleton]
      exact .round hr.rounds htiles hgrow
    · intro b hb j hj
      simp only [List.flatten_append, List.flatten_singleton, List.mem_append] at hb
      rcases hb with hb | hb
      · exact hkept b hb j hj
      · exact hinside b hb j hj
    · intro p hp
      simp only [List.flatten_append, List.flatten_singleton, List.mem_append]
      by_cases hlt : p < d.processed
      · obtain ⟨b, hb, hin⟩ := hr.cover p hlt
        exact ⟨b, Or.inl hb, hin⟩
      · obtain ⟨b, hb, hin⟩ := hcover p (Nat.le_of_not_lt hlt) hp
        exact ⟨b, Or.inr hb, hin⟩
    · intro b hb
      simp only [List.flatten_append, List.flatten_singleton, List.mem_append] at hb
      rcases hb with hb | hb
      · have hend := hr.range b hb
        simp only
        omega
      · exact (hrange b hb).2
    · rw [List.forall₂_map_left_iff, List.forall₂_same]
      intro s hs
      exact isCall_callOf hs
  · rename_i hsame
    rw [if_neg hsame, if_neg hsame] at htracks
    refine ⟨_, [], by rw [List.append_nil], ⟨htracks, ?_, ?_, hkept, hr.cover, hr.range⟩, hold,
      List.Forall₂.nil⟩
    · rw [List.append_nil]
      exact hr.errors
    · rw [List.append_nil]
      exact hr.rounds

end

/-! ## The outer loop -/

/-- The code and the ledgers agree: each call is the entry of the log at its place, on the
slots of its side. -/
structure SwitchState.Refines (P : Platform) (host : Host) (k : Nat) (c : Arr AddrInfo)
    (s : SwitchState) (l : Ledger) : Prop where
  readings : s.readings = l.deal.readings
  half : ∀ x : Side, (s.half x).Refines host (x.addr k c) (x.nodes P) (l.deal.side x) (l.of x)
  calls : List.Forall₂ (fun call y => IsCall (y.1.entries k c) (s.half y.1).slots
    (l.deal.side y.1).processed call y.2) s.calls l.log

section

variable {P : Platform} {host : Host} {k : Nat} {c : Arr AddrInfo} {s : SwitchState} {l : Ledger}

theorem SwitchState.Refines.tracks (h : s.Refines P host k c l) : s.Tracks l.deal :=
  ⟨(h.half .toNvram).toTracks, (h.half .toDram).toTracks, h.readings⟩

theorem SwitchState.Refines.start (dramSlots nvramSlots : Arr (Nat × Int)) :
    SwitchState.Refines P host k c ⟨.start dramSlots, .start nvramSlots, [], 0⟩ .start where
  readings := rfl
  half := by
    intro x
    cases x
    · exact Half.Refines.start dramSlots
    · exact Half.Refines.start nvramSlots
  calls := List.Forall₂.nil

theorem of_submits (x y : Side) (log : List Submission) :
    (log.map fun s => (x, s)).filterMap (fun z => if z.1 = y then some z.2 else none) =
      if x = y then log else [] := by
  rw [List.filterMap_map]
  by_cases hxy : x = y <;> simp [hxy]

/-- **A round** of the code refines a round of the ledgers. -/
theorem SwitchState.Refines.round (h : s.Refines P host k c l) :
    (switchRound P host k c s).Refines P host k c (l.round P host k c) := by
  have hlen : s.calls.length = l.log.length := h.calls.length_eq
  obtain ⟨d', out, hdram, hdhalf, hdslots, hdcalls⟩ := (h.half .toNvram).round k
    (Side.toNvram.entries k c) s.calls s.readings
  rw [hlen, h.readings] at hdhalf hdcalls
  rw [h.readings] at hdram
  have houtlen : out.length = (l.submits P host k c .toNvram l.deal.readings l.log.length).length := by
    rw [hdcalls.length_eq, Ledger.submits, List.length_map]
  obtain ⟨v', back, hnvram, hvhalf, hvslots, hvcalls⟩ := (h.half .toDram).round k
    (Side.toDram.entries k c) (s.calls ++ out)
    (l.deal.dram.round host.freeSpacePages k P.nvramNodes.length l.deal.readings).2
  rw [List.length_append, hlen, houtlen] at hvhalf hvcalls
  have hround : switchRound P host k c s = ⟨d', v', s.calls ++ out ++ back,
      (l.deal.round P host.freeSpacePages k).readings⟩ := by
    unfold switchRound
    simp only [Side.entries, Side.addr, Side.nodes, SwitchState.half, Dealing.side] at hdram hnvram
    rw [h.readings]
    simp only [hdram, hnvram]
    rfl
  have hdle := DealSide.round_le host.freeSpacePages k P.nvramNodes.length
    l.deal.readings l.deal.dram
  have hvle := DealSide.round_le host.freeSpacePages k P.dramNodes.length
    (l.deal.dram.round host.freeSpacePages k P.nvramNodes.length l.deal.readings).2 l.deal.nvram
  rw [hround]
  refine ⟨rfl, ?_, ?_⟩
  · -- the log of a side grows by what the side submits
    intro x
    unfold Ledger.of Ledger.round
    simp only [List.filterMap_append, Ledger.submits, of_submits]
    cases x
    · simp only [reduceCtorEq, if_true, if_false, List.append_nil]
      exact hdhalf
    · simp only [reduceCtorEq, if_true, if_false, List.append_nil]
      simp only [Ledger.submits, List.length_map] at hvhalf
      rw [List.length_map]
      exact hvhalf
  · unfold Ledger.round
    refine List.rel_append (List.rel_append ?_ ?_) ?_
    · refine h.calls.imp fun call y hcall => ?_
      obtain ⟨x, sub⟩ := y
      cases x
      · exact hcall.mono hdle hdslots
      · exact hcall.mono hvle hvslots
    · exact List.forall₂_map_right_iff.mpr hdcalls
    · exact List.forall₂_map_right_iff.mpr hvcalls

/-- **The code refines the ledgers**, round by round. -/
theorem SwitchState.Refines.rounds (rounds : Nat) (h : s.Refines P host k c l) :
    (switchRounds P host k c rounds s).Refines P host k c
      (repeatWhile (fun l => l.deal.goesOn k) (Ledger.round P host k c) rounds l) := by
  rw [switchRounds_eq]
  exact repeatWhile_rel (fun _ _ hr => hr.tracks.goesOn) (fun _ _ hr => hr.round) rounds h

/-- The pages of the ledgers are dealt out as `dealing` says. -/
theorem ledger_deal (P : Platform) (host : Host) (k : Nat) (c : Arr AddrInfo) :
    (ledger P host k c).deal = dealing P host.freeSpacePages k := by
  unfold ledger dealing Dealing.after
  exact repeatWhile_rel (R := fun (l : Ledger) (d : Dealing) => l.deal = d) (fun l d hld => by rw [hld])
    (fun l d hld => by rw [← hld]; rfl) _ rfl

end

end Ambix.Ctl
