import Ambix.Logic.Ledger
import Ambix.Theorems.Placement

/-!
# Which pages `do_switch` submits

The NVRAM half takes each address from the entry whose pid it submits. The DRAM half starts
over at the first DRAM entry with every node and every round, so all its pages are genuine
only when the entries it starts over with happen to have the right addresses.
-/

namespace Ambix.Ctl

open Ambix.Lib Ambix.Lib.Batch

/-- What is submitted when `do_switch` ends. -/
structure SubmitsCandidates (P : Platform) (k : Nat) (c : Arr AddrInfo) (s : SwitchState) :
    Prop where
  /-- A page that goes to a tier is one of the `k` entries of the other one, -/
  genuine : ∀ call ∈ s.calls, ∀ (j : Nat) (page : Nat × Int), call.pages[j]? = some page →
    ∀ x : Side, page.2 ∈ x.nodes P → ∃ q, q < k ∧ x.entries k c q = ⟨page.1, call.pid⟩
  /-- address and pid from the same entry. -/
  sameEntry : ∀ call ∈ s.calls, ∀ (j : Nat) (page : Nat × Int), call.pages[j]? = some page →
    ∀ x : Side, page.2 ∈ x.nodes P → x.entries k c (call.first + j) = ⟨page.1, call.pid⟩
  /-- Each position processed has had its own entry submitted. -/
  covered : ∀ (x : Side) (p : Nat), (p : Int) < (s.half x).migrated + (s.half x).e →
    ∃ call ∈ s.calls, ∃ (j : Nat) (page : Nat × Int), call.pages[j]? = some page ∧
      page.2 ∈ x.nodes P ∧ call.first + j = p ∧ x.entries k c p = ⟨page.1, call.pid⟩

/-- Wherever the DRAM pages of a node start, the first DRAM entries have the addresses of
the entries from there on. -/
def StartsOver (P : Platform) (free : Nat → Int) (k : Nat) (c : Arr AddrInfo) : Prop :=
  ∀ b ∈ (dealing P free k).dram.rounds.flatten, ∀ j, j < b.2 →
    (c (k + 1 + (b.1 + j))).addr = (c (k + 1 + j)).addr

section

variable {P : Platform} {host : Host} {k : Nat} {c : Arr AddrInfo} {s : SwitchState} {l : Ledger}

theorem forall₂_left {α β : Type*} {R : α → β → Prop} {xs : List α} {ys : List β}
    (h : List.Forall₂ R xs ys) {x : α} (hx : x ∈ xs) : ∃ y ∈ ys, R x y := by
  induction h with
  | nil => simp at hx
  | cons hr _ ih =>
    rcases List.mem_cons.mp hx with rfl | hx
    · exact ⟨_, List.mem_cons_self, hr⟩
    · obtain ⟨y, hy, hr⟩ := ih hx
      exact ⟨y, List.mem_cons_of_mem _ hy, hr⟩

theorem forall₂_right {α β : Type*} {R : α → β → Prop} {xs : List α} {ys : List β}
    (h : List.Forall₂ R xs ys) {y : β} (hy : y ∈ ys) : ∃ x ∈ xs, R x y :=
  forall₂_left (List.Forall₂.flip h) hy

/-- The code and its ledgers at the end. -/
theorem switchEnd_refines (P : Platform) (host : Host) (k : Nat) (c : Arr AddrInfo)
    (dramSlots nvramSlots : Arr (Nat × Int)) :
    (switchEnd P host k c dramSlots nvramSlots).Refines P host k c (ledger P host k c) :=
  (SwitchState.Refines.start dramSlots nvramSlots).rounds (2 * k)

/-- The two sides go to different nodes. -/
theorem Side.nodes_disjoint {x y : Side} {v : Int} (hx : v ∈ x.nodes P) (hy : v ∈ y.nodes P) :
    x = y := by
  cases x <;> cases y
  · rfl
  · exact absurd (P.dram_lt_nvram v hy v hx) (Int.lt_irrefl v)
  · exact absurd (P.dram_lt_nvram v hx v hy) (Int.lt_irrefl v)
  · rfl

/-- The node of a slot that has been dealt out. -/
theorem SwitchState.Refines.node (h : s.Refines P host k c l) {x : Side} {p : Nat}
    (hp : p < (l.deal.side x).processed) : ((s.half x).slots p).2 ∈ x.nodes P := by
  obtain ⟨b, hb, hlo, hhi⟩ := (h.half x).cover p hp
  obtain ⟨_, hnode⟩ := (h.half x).slots b hb (p - b.1) (by omega)
  rwa [Nat.add_sub_cancel' hlo] at hnode

/-- **A page of a call** is the slot of its position, on the side that its node tells. -/
theorem SwitchState.Refines.page (h : s.Refines P host k c l) {call : MoveCall}
    (hcall : call ∈ s.calls) {j : Nat} {page : Nat × Int} (hpage : call.pages[j]? = some page)
    {x : Side} (hnode : page.2 ∈ x.nodes P) :
    call.first + j < (l.deal.side x).processed ∧ page = (s.half x).slots (call.first + j) ∧
      (x.entries k c (call.first + j)).pidRetval = call.pid := by
  obtain ⟨⟨y, sub⟩, _, his⟩ := forall₂_left h.calls hcall
  simp only at his
  rw [his.pages] at hpage
  obtain ⟨hlt, hget⟩ := List.getElem?_eq_some_iff.mp hpage
  rw [Arr.length_slice] at hlt
  have hle := his.le
  have hslot : page = (s.half y).slots (sub.first + j) := by
    rw [← hget]
    simp [Arr.slice]
  have hy : y = x := by
    refine Side.nodes_disjoint (P := P) (v := page.2) ?_ hnode
    rw [hslot]
    exact h.node (by omega)
  subst hy
  rw [his.first]
  exact ⟨by omega, hslot, his.pid j hlt⟩

/-- **Each position** that a side has processed is submitted with its slot. -/
theorem SwitchState.Refines.submitted (h : s.Refines P host k c l) {x : Side} {p : Nat}
    (hp : p < (l.deal.side x).processed) :
    ∃ call ∈ s.calls, ∃ j, call.first + j = p ∧ call.pages[j]? = some ((s.half x).slots p) ∧
      (x.entries k c p).pidRetval = call.pid := by
  obtain ⟨rest, subs, habout, hsettled⟩ := (h.half x).rounds.about_lt hp
  obtain ⟨sub, hsub⟩ := hsettled.mem
  have hmem : sub ∈ about p (l.of x) := habout ▸ List.mem_append_right _ hsub
  obtain ⟨hof, hcovers⟩ := List.mem_filter.mp hmem
  obtain ⟨hlo, hhi⟩ := Submission.covers_iff.mp hcovers
  obtain ⟨⟨y, sub'⟩, hlog, hy⟩ := List.mem_filterMap.mp hof
  simp only [Option.ite_none_right_eq_some, Option.some.injEq] at hy
  obtain ⟨rfl, rfl⟩ := hy
  obtain ⟨call, hcall, his⟩ := forall₂_right h.calls hlog
  simp only at his
  have hpos : sub'.first + (p - sub'.first) = p := by omega
  refine ⟨call, hcall, p - sub'.first, by rw [his.first, hpos], ?_, ?_⟩
  · rw [his.pages, Arr.slice, List.getElem?_map, List.getElem?_range (by omega), Option.map_some,
      hpos]
  · have hpid := his.pid (p - sub'.first) (by omega)
    rwa [hpos] at hpid

/-- When every slot holds the address of its own entry. -/
def OwnAddresses (k : Nat) (c : Arr AddrInfo) (s : SwitchState) (l : Ledger) : Prop :=
  ∀ (x : Side) (p : Nat), p < (l.deal.side x).processed →
    ((s.half x).slots p).1 = (x.entries k c p).addr

theorem SwitchState.Refines.submitsCandidates_iff (h : s.Refines P host k c l)
    (hbound : l.deal.Bounded k) : SubmitsCandidates P k c s ↔ OwnAddresses k c s l := by
  have hk : ∀ x, (l.deal.side x).processed ≤ k := by
    intro x
    cases x
    · exact hbound.dram
    · exact hbound.nvram
  constructor
  · intro hsub x p hp
    obtain ⟨call, hcall, j, page, hpage, hnode, rfl, hentry⟩ := hsub.covered x p (by
      rw [(h.half x).processed]
      exact Int.ofNat_lt.mpr hp)
    obtain ⟨_, hslot, _⟩ := h.page hcall hpage hnode
    rw [← hslot, hentry]
  · intro hown
    have hsame : ∀ call ∈ s.calls, ∀ (j : Nat) (page : Nat × Int), call.pages[j]? = some page →
        ∀ x : Side, page.2 ∈ x.nodes P → call.first + j < (l.deal.side x).processed ∧
          x.entries k c (call.first + j) = ⟨page.1, call.pid⟩ := by
      intro call hcall j page hpage x hnode
      obtain ⟨hlt, hslot, hpid⟩ := h.page hcall hpage hnode
      refine ⟨hlt, ?_⟩
      rw [← hpid, hslot, hown x _ hlt]
    refine ⟨?_, fun call hcall j page hpage x hnode => (hsame call hcall j page hpage x hnode).2, ?_⟩
    · intro call hcall j page hpage x hnode
      obtain ⟨hlt, hentry⟩ := hsame call hcall j page hpage x hnode
      exact ⟨_, Nat.lt_of_lt_of_le hlt (hk x), hentry⟩
    · intro x p hp
      rw [(h.half x).processed, Int.ofNat_lt] at hp
      obtain ⟨call, hcall, j, hpos, hpage, hpid⟩ := h.submitted hp
      refine ⟨call, hcall, j, _, hpage, h.node hp, hpos, ?_⟩
      rw [hown x p hp, ← hpid]

/-- The NVRAM half is given its own addresses; the DRAM half those of the first entries. -/
theorem SwitchState.Refines.ownAddresses_iff (h : s.Refines P host k c l) :
    OwnAddresses k c s l ↔ ∀ b ∈ l.deal.dram.rounds.flatten, ∀ j, j < b.2 →
      (c (k + 1 + (b.1 + j))).addr = (c (k + 1 + j)).addr := by
  constructor
  · intro hown b hb j hj
    have hend := (h.half .toNvram).range b hb
    obtain ⟨haddr, _⟩ := (h.half .toNvram).slots b hb j hj
    have hself := hown .toNvram (b.1 + j) (by omega)
    rw [haddr] at hself
    exact hself.symm
  · intro hover x p hp
    obtain ⟨b, hb, hlo, hhi⟩ := (h.half x).cover p hp
    obtain ⟨haddr, _⟩ := (h.half x).slots b hb (p - b.1) (by omega)
    rw [Nat.add_sub_cancel' hlo] at haddr
    rw [haddr]
    cases x with
    | toNvram =>
      have hself := hover b hb (p - b.1) (by omega)
      rw [Nat.add_sub_cancel' hlo] at hself
      exact hself.symm
    | toDram =>
      show (c (b.1 + (p - b.1))).addr = (c p).addr
      rw [Nat.add_sub_cancel' hlo]

/-- **`do_switch` submits its own candidates** exactly when the DRAM entries that it starts
over with have the addresses of those it is at. -/
theorem doSwitch_candidates_iff (P : Platform) (host : Host) (k : Nat) (c : Arr AddrInfo)
    (dramSlots nvramSlots : Arr (Nat × Int)) :
    (∀ rounds, 2 * k + 1 ≤ rounds → (doSwitch P host k c dramSlots nvramSlots rounds).map Prod.fst =
        some (switchEnd P host k c dramSlots nvramSlots).calls) ∧
      (SubmitsCandidates P k c (switchEnd P host k c dramSlots nvramSlots) ↔
        StartsOver P host.freeSpacePages k c) := by
  have hrefines := switchEnd_refines P host k c dramSlots nvramSlots
  have hdeal := ledger_deal P host k c
  have hbound : (ledger P host k c).deal.Bounded k := by
    rw [hdeal]
    exact dealing_bounded P host.freeSpacePages k
  constructor
  · intro rounds hrounds
    rw [doSwitch_eq (by omega)]
    rfl
  · rw [hrefines.submitsCandidates_iff hbound, hrefines.ownAddresses_iff, hdeal]
    exact Iff.rfl

end

/-! ## Starting over at a wrong entry -/

/-- Two pairs of pages of one process, as a reply holds them. -/
def twoPairs : Arr AddrInfo :=
  Arr.write (fun _ => ⟨0, 0⟩) 0
    [⟨4096, 1⟩, ⟨8192, 1⟩, ⟨0, 0⟩, ⟨65536, 1⟩, ⟨131072, 1⟩, ⟨0, 0⟩]

/-- Each node has one free page whenever it is asked, and every page moves. -/
def onePageAtATime : Host := ⟨fun _ => 1, fun _ => 0⟩

/-- The second round submits the first DRAM page in place of the second one. -/
theorem doSwitch_leaves_page :
    ¬ SubmitsCandidates (.shipped fun _ => 0) 2 twoPairs
      (switchEnd (.shipped fun _ => 0) onePageAtATime 2 twoPairs (fun _ => (0, 0))
        fun _ => (0, 0)) := by
  intro h
  have hentry := h.sameEntry ⟨1, 0, [(65536, 2), (65536, 2)]⟩ (by decide) 1 (65536, 2) rfl .toNvram
    (by decide)
  exact absurd hentry (by decide)

end Ambix.Ctl
