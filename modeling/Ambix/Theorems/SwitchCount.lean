import Ambix.Theorems.SwitchPairs

/-!
# What `do_switch` reports

With every round the submission loops start over at the first page, so pages that have
moved are submitted again and a page that fails twice is counted twice. What is returned
is the number of pages that moved exactly when each side is dealt its pages in one round.
-/

namespace Ambix.Ctl

open Ambix.Lib Ambix.Lib.Batch

/-- The log is that of the calls: the entry in a call's place has its side, as the nodes
tell, its positions and its answer. -/
structure CallLog (P : Platform) (host : Host) (s : SwitchState) (l : Ledger) : Prop where
  calls : List.Forall₂ (fun call y => call.first = y.2.first ∧ call.pages.length = y.2.count ∧
    ∀ page ∈ call.pages, page.2 ∈ y.1.nodes P) s.calls l.log
  answers : ∀ i y, l.log[i]? = some y → y.2.failed = host.fails i

/-- What is returned is the number of positions whose last submission succeeded; no failing
page is counted twice, and no page that has moved is submitted again. -/
structure ReportsMoved (k : Nat) (s : SwitchState) (l : Ledger) : Prop where
  returned : s.dram.migrated + s.nvram.migrated =
    (arrived (l.of .toNvram) k : Int) + arrived (l.of .toDram) k
  bounds : 0 ≤ s.dram.migrated + s.nvram.migrated ∧ s.dram.migrated + s.nvram.migrated ≤ 2 * k
  once : ∀ x, (errors (l.of x)).Nodup
  noneAgain : ∀ x, NoneAgain (l.of x)

section

variable {P : Platform} {host : Host} {k : Nat} {c : Arr AddrInfo} {s : SwitchState} {l : Ledger}

theorem Ledger.submits_answers {x : Side} {readings calls : Nat} {i : Nat} {y : Side × Submission}
    (h : (l.submits P host k c x readings calls)[i]? = some y) :
    y.2.failed = host.fails (calls + i) := by
  rw [Ledger.submits, List.getElem?_map, Option.map_eq_some_iff] at h
  obtain ⟨sub, hsub, rfl⟩ := h
  unfold DealSide.submits at hsub
  simp only at hsub
  split at hsub
  · exact Batch.submit_answers _ _ hsub
  · simp at hsub

theorem Ledger.round_answers (h : ∀ i y, l.log[i]? = some y → y.2.failed = host.fails i) :
    ∀ i y, (l.round P host k c).log[i]? = some y → y.2.failed = host.fails i := by
  intro i y hy
  unfold Ledger.round at hy
  simp only at hy
  generalize hout : l.submits P host k c .toNvram l.deal.readings l.log.length = out at hy
  rcases Nat.lt_or_ge i (l.log ++ out).length with hlt | hge
  · rw [List.getElem?_append_left hlt] at hy
    rcases Nat.lt_or_ge i l.log.length with hlt' | hge'
    · rw [List.getElem?_append_left hlt'] at hy
      exact h i y hy
    · rw [List.getElem?_append_right hge', ← hout] at hy
      rw [Ledger.submits_answers hy, Nat.add_sub_cancel' hge']
  · rw [List.getElem?_append_right hge, List.length_append] at hy
    rw [List.length_append] at hge
    rw [Ledger.submits_answers hy, Nat.add_sub_cancel' hge]

theorem ledger_answers (P : Platform) (host : Host) (k : Nat) (c : Arr AddrInfo) :
    ∀ i y, (ledger P host k c).log[i]? = some y → y.2.failed = host.fails i :=
  repeatWhile_inv (I := fun (l : Ledger) => ∀ i y, l.log[i]? = some y → y.2.failed = host.fails i)
    (fun _ h _ => Ledger.round_answers h) _ (by simp [Ledger.start])

theorem SwitchState.Refines.callLog (h : s.Refines P host k c l)
    (hanswers : ∀ i y, l.log[i]? = some y → y.2.failed = host.fails i) : CallLog P host s l := by
  refine ⟨h.calls.imp fun call y hcall => ⟨hcall.first, ?_, fun page hpage => ?_⟩, hanswers⟩
  · rw [hcall.pages, Arr.length_slice]
  · rw [hcall.pages] at hpage
    obtain ⟨j, hj, rfl⟩ := Arr.mem_slice.mp hpage
    have hle := hcall.le
    exact h.node (by omega)

/-- What a half has migrated, from its log. -/
theorem SwitchState.Refines.migrated (h : s.Refines P host k c l) (x : Side) :
    (s.half x).migrated + (errors (l.of x)).length = (l.deal.side x).processed := by
  have herrors := (h.half x).errors
  have hprocessed := (h.half x).processed
  rw [herrors] at hprocessed
  exact hprocessed

/-- **The report is right** when each side is dealt its pages in one round, -/
theorem SwitchState.Refines.reportsMoved (h : s.Refines P host k c l) (hbound : l.deal.Bounded k)
    (hrounds : ∀ x, (l.deal.side x).rounds.length ≤ 1) : ReportsMoved k s l := by
  obtain ⟨hd, hdnodup, hdnone⟩ := (h.half .toNvram).rounds.exact (hrounds .toNvram)
  obtain ⟨hv, hvnodup, hvnone⟩ := (h.half .toDram).rounds.exact (hrounds .toDram)
  have hdm := h.migrated .toNvram
  have hvm := h.migrated .toDram
  have hdk := (h.half .toNvram).rounds.arrived_eq hbound.dram
  have hvk := (h.half .toDram).rounds.arrived_eq hbound.nvram
  have hdle := arrived_le (l.of .toNvram) k
  have hvle := arrived_le (l.of .toDram) k
  simp only [SwitchState.half] at hdm hvm
  refine ⟨by omega, by omega, fun x => ?_, fun x => ?_⟩
  · cases x
    · exact hdnodup
    · exact hvnodup
  · cases x
    · exact hdnone
    · exact hvnone

/-- and only then: a side with two rounds reports less than what has moved. -/
theorem ReportsMoved.one_round (hreport : ReportsMoved k s l) (h : s.Refines P host k c l)
    (hbound : l.deal.Bounded k) (x : Side) : (l.deal.side x).rounds.length ≤ 1 := by
  by_contra hmany
  have htwice := (h.half x).rounds.twice (by omega) (hreport.noneAgain x) (hreport.once x)
  have hd := (h.half .toNvram).rounds.le
  have hv := (h.half .toDram).rounds.le
  have hdm := h.migrated .toNvram
  have hvm := h.migrated .toDram
  have hdk := (h.half .toNvram).rounds.arrived_eq hbound.dram
  have hvk := (h.half .toDram).rounds.arrived_eq hbound.nvram
  have hreturned := hreport.returned
  simp only [SwitchState.half] at hdm hvm
  cases x
  · omega
  · omega

/-- **`do_switch` reports what it moved** exactly when no side is dealt pages in two
rounds. -/
theorem doSwitch_reports_iff (P : Platform) (host : Host) (k : Nat) (c : Arr AddrInfo)
    (dramSlots nvramSlots : Arr (Nat × Int)) :
    (∀ rounds, 2 * k + 1 ≤ rounds → doSwitch P host k c dramSlots nvramSlots rounds =
        some ((switchEnd P host k c dramSlots nvramSlots).calls,
          (switchEnd P host k c dramSlots nvramSlots).dram.migrated +
            (switchEnd P host k c dramSlots nvramSlots).nvram.migrated)) ∧
      CallLog P host (switchEnd P host k c dramSlots nvramSlots) (ledger P host k c) ∧
      (ReportsMoved k (switchEnd P host k c dramSlots nvramSlots) (ledger P host k c) ↔
        ∀ x, ((dealing P host.freeSpacePages k).side x).rounds.length ≤ 1) := by
  have hrefines := switchEnd_refines P host k c dramSlots nvramSlots
  have hbound := dealing_bounded P host.freeSpacePages k
  rw [← ledger_deal P host k c] at hbound ⊢
  refine ⟨fun rounds hrounds => doSwitch_eq (by omega),
    hrefines.callLog (ledger_answers P host k c), ?_, hrefines.reportsMoved hbound⟩
  intro hreport x
  exact hreport.one_round hrefines hbound x

end

/-! ## A page that fails in both rounds -/

/-- Each node has one free page whenever it is asked. The first DRAM page never moves: the
calls for it alone and the batches that it is part of fail. -/
def firstPageFails : Host :=
  ⟨fun _ => 1, fun i => if i ∈ [0, 1, 3, 4] then -1 else 0⟩

/-- It is counted twice, and one page less than has moved is reported. -/
theorem doSwitch_reports_less :
    (switchEnd (.shipped fun _ => 0) firstPageFails 2 twoPairs (fun _ => (0, 0))
        fun _ => (0, 0)).dram.migrated = 0 ∧
      arrived ((ledger (.shipped fun _ => 0) firstPageFails 2 twoPairs).of .toNvram) 2 = 1 ∧
      ¬ ReportsMoved 2 (switchEnd (.shipped fun _ => 0) firstPageFails 2 twoPairs (fun _ => (0, 0))
        fun _ => (0, 0)) (ledger (.shipped fun _ => 0) firstPageFails 2 twoPairs) := by
  refine ⟨by decide, by decide, fun h => ?_⟩
  exact absurd (h.once .toNvram) (by decide)

end Ambix.Ctl
