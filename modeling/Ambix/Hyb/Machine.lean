import Ambix.Hyb.Request

/-!
# A machine with given page tables

`Sys.fresh tables` is a freshly loaded module on a machine whose processes
1, 2, … have the given address spaces (`none` for one that has exited and is not
reaped). It makes runs of the module concrete.
-/

namespace Ambix.Hyb

open Ambix.Lib

/-- The entries as an address space, if they are in order and in the user range. -/
def MmStruct.ofPtes (es : List PageEntry) : MmStruct :=
  if h : (es.map PageEntry.addr).Pairwise (· < ·) ∧ ∀ a ∈ es.map PageEntry.addr, a < maxAddress then
    ⟨es, h.1, h.2⟩
  else ⟨[], List.Pairwise.nil, by simp⟩

/-- Numbers 1 to `n` are allocated, each to the task of the same number. -/
def Kernel.ofCount (n : Nat) : Kernel where
  pidOf t := t
  findGetPid nr := if 0 < nr ∧ nr ≤ n then nr.toNat else null
  getPidTask p := p
  pidOf_getPidTask nr h _ := by
    by_cases hnr : 0 < nr ∧ nr ≤ n
    · simp only [hnr, and_self, if_true]
      omega
    · simp [hnr] at h

/-- A freshly loaded module on a machine with these address spaces. -/
def Sys.fresh (tables : List (Option (List PageEntry))) : Sys where
  kernel := .ofCount tables.length
  mm t := (tables[t - 1]?.getD none).map MmStruct.ofPtes
  mod := .loaded (fun _ => ⟨0, 0⟩) (fun _ => ⟨0, 0⟩) (fun _ => ⟨0, 0⟩) (fun _ => null) fun _ => 0

/-- A page that is present and writable. -/
def PageEntry.of (addr pfn : Nat) (young dirty : Bool) : PageEntry :=
  ⟨addr, ⟨true, true, young, dirty, pfn⟩⟩

/-- Entries at 4096, 8192, … are in order, and in the user range if there are not too many. -/
theorem MmStruct.ofPtes_range {n : Nat} (hn : n ≤ 1000000) {f : Nat → PageEntry}
    (hf : ∀ i, (f i).addr = 4096 * (i + 1)) :
    (MmStruct.ofPtes ((List.range n).map f)).ptes = (List.range n).map f := by
  have haddr : ((List.range n).map f).map PageEntry.addr =
      (List.range n).map fun i => 4096 * (i + 1) := by
    rw [List.map_map]
    exact List.map_congr_left fun i _ => hf i
  unfold MmStruct.ofPtes
  rw [dif_pos]
  rw [haddr]
  refine ⟨?_, fun a ha => ?_⟩
  · rw [List.pairwise_map]
    exact List.pairwise_lt_range.imp fun h => by omega
  · obtain ⟨i, hi, rfl⟩ := List.mem_map.mp ha
    have hi := List.mem_range.mp hi
    unfold maxAddress
    omega

/-- The nodes of the source, with frames below 1000 on the DRAM node. -/
def smallMachine : Platform := .shipped fun pfn => if pfn < 1000 then 0 else 2

/-- The state after a list of requests. -/
def Sys.after (P : Platform) (σ : Sys) (reqs : List Req) : Sys :=
  reqs.foldl (fun σ req => (processReq P (some req) σ).sys) σ

theorem Sys.after_reachable {P : Platform} {σ : Sys} (h : (hyb P).Reachable σ) (reqs : List Req) :
    (hyb P).Reachable (σ.after P reqs) := by
  induction reqs generalizing σ with
  | nil => exact h
  | cons req reqs ih => exact ih (h.step (Or.inr ⟨some req, rfl⟩))

/-- What a fresh machine comes to by requests is reachable. -/
theorem Sys.fresh_reachable (P : Platform) (tables : List (Option (List PageEntry)))
    (reqs : List Req) : (hyb P).Reachable ((Sys.fresh tables).after P reqs) :=
  Sys.after_reachable (.init ⟨_, _, _, _, _, rfl⟩) reqs

/-- One bound process with the given pages. -/
def oneProcess (es : List PageEntry) : Sys :=
  (Sys.fresh [some es]).after smallMachine [.of .bind 1 .dram]

theorem oneProcess_reachable (es : List PageEntry) : (hyb smallMachine).Reachable (oneProcess es) :=
  Sys.fresh_reachable _ _ _

end Ambix.Hyb
