import Ambix.Lib.Census
import Ambix.Theorems.ClosedLoop
import Ambix.Theorems.Moved
import Ambix.Theorems.PidReuse

/-!
# The loop on the machine

The closed loop with all that is under it. An iteration of `memcheck_placement` reads the sizes
that the pages make, its finds go to the module and walk the page tables, the replies are
scanned, `do_migration` hands the pages on, and the kernel moves what it can of them. Each find
moves no more pages than it is asked for, from one tier to the other, so that this simulates
`closedLoop` and the pages go one way.
-/

namespace Ambix.Ctl

open Ambix.Lib Ambix.Lib.Batch Ambix.Hyb

/-! ## The machine -/

/-- The node that a page of a process is on, if it is in memory. -/
def nodeOf (P : Platform) (σ : Sys) (x : TaskPtr × Nat) : Option Int :=
  (σ.mm x.1).bind fun mm =>
    (mm.ptes.find? fun e => e.addr == x.2 && e.pte.present).map fun e => P.pfnToNid e.pte.pfn

def onNodes (nodes : List Int) (node : Option Int) : Bool := node.any fun v => nodes.contains v

/-- The memory that does not change: the pages that may be moved, and the tiers without them. -/
structure Memory where
  pageSize : Int
  pages : Finset (TaskPtr × Nat)
  rest : Tiers

/-- The tiers with each page on its node. -/
def Memory.tiers (M : Memory) (P : Platform) (σ : Sys) : Tiers where
  dram := M.rest.dram.fill (census M.pages (onNodes P.dramNodes) (nodeOf P σ) * M.pageSize)
  nvram := M.rest.nvram.fill (census M.pages (onNodes P.nvramNodes) (nodeOf P σ) * M.pageSize)

/-- The pages that are on another node than before. -/
def Memory.moved (M : Memory) (P : Platform) (σ σ' : Sys) : Finset (TaskPtr × Nat) :=
  Lib.moved M.pages (nodeOf P σ) (nodeOf P σ')

/-- What the kernel makes of the calls of a placement: a page goes to another node only if a
call that does not fail names its process, its address and that node. -/
structure Migrated (M : Memory) (P : Platform) (host : Host) (calls : List MoveCall)
    (σ σ' : Sys) : Prop where
  env : EnvStep σ σ'
  named : ∀ x ∈ M.moved P σ σ', ∃ (i : Nat) (call : MoveCall) (j : Nat) (node : Int),
    calls[i]? = some call ∧ host.movePages i = 0 ∧ σ.kernel.taskOf call.pid = some x.1 ∧
      call.pages[j]? = some (x.2, node) ∧ nodeOf P σ' x = some node

/-- `send_find` with the module, whatever its arrays hold before: the state that the module is
left in, the calls and what it returns. -/
inductive SendFind (P : Platform) (f : Find) (host : Host) (σ : Sys) :
    Sys → List MoveCall → Int → Prop
  | mk (n : Int32) (msgs : List NlMsg) (stale : Arr AddrInfo) (placement : Placement)
      (dramSlots nvramSlots : Arr (Nat × Int)) (rounds : Nat) (calls : List MoveCall) (ret : Int)
      (hn : f.nPages = some n.toInt)
      (hmsgs : (placementNlProcessMsg P (some (.of .find n f.mode)) σ).2 = some msgs)
      (hplacement : (sendFind f.mode.code (.whole msgs) stale).2 = some placement)
      (hrun : placement.run P host (sendFind f.mode.code (.whole msgs) stale).1 dramSlots
        nvramSlots rounds = some (calls, ret)) :
      SendFind P f host σ (placementNlProcessMsg P (some (.of .find n f.mode)) σ).1.sys calls ret

/-! ## Runs -/

/-- The module with the page tables, `prev_memdata_lmod`, and what has moved in the run so far
but for the exchanges. -/
structure Loop extends Traffic where
  machine : Sys
  prev : Int

/-- A find of an iteration. No process has the number of a listed one that has exited, an
exchange takes as many pages each way, and what an intensive find has moved is read again. -/
inductive Loop.Moves (M : Memory) (P : Platform) (it : Iteration) : Find → Loop → Loop → Prop
  | find {f : Find} {s : Loop} {host : Host} {calls : List MoveCall} {σ σ' : Sys}
      (hkept : NumbersKept s.machine)
      (hsend : SendFind P f host s.machine σ calls (it.sent f.mode))
      (hmigrated : Migrated M P host calls σ σ')
      (heven : f.mode = .switch → M.tiers P σ' = M.tiers P s.machine)
      (hagain : f.mode = .nvramIntensive → 0 < it.sent .nvramIntensive →
        readTiers P it.sizesAfter = M.tiers P σ') :
      Moves M P it f s
        ⟨if f.mode = .switch then s.toTraffic
          else s.toTraffic.add f.mode (M.moved P s.machine σ').card, σ', s.prev⟩

inductive Loop.Step (M : Memory) (P : Platform) (s : Loop) : Loop → Prop
  | iterate (it : Iteration) (s' : Loop) (hread : readTiers P it.sizes = M.tiers P s.machine)
      (hfinds : Steps (Loop.Moves M P it) (memcheckPlacement P M.pageSize it s.prev).finds s s') :
      Step M P s { s' with prev := (memcheckPlacement P M.pageSize it s.prev).prevMemdataLmod }
  /-- A client binds or unbinds a process. -/
  | request (req : Req) (hop : OpCode.ofCode req.opCode ≠ some .find) :
      Step M P s { s with machine := (processReq P (some req) s.machine).sys }
  /-- Processes run, and every page stays on its node. -/
  | machine (σ : Sys) (henv : EnvStep s.machine σ) (hstill : M.moved P s.machine σ = ∅) :
      Step M P s { s with machine := σ }

section

variable {P : Platform} {M : Memory} {it : Iteration} {σ σ' σ₁ σ₂ : Sys} {f : Find} {host : Host}
  {calls : List MoveCall} {ret : Int} {start : Tiers} {s s' : Loop}

/-! ## Where the pages are -/

/-- A request moves no page. -/
theorem nodeOf_processReq (req : Option Req) (σ : Sys) :
    nodeOf P (processReq P req σ).sys = nodeOf P σ := by
  have hview := processReq_view (P := P) req σ
  have hnode (σ : Sys) (x : TaskPtr × Nat) : nodeOf P σ x =
      (tableView PageEntry.cleaned σ.mm x.1).bind fun es =>
        (es.find? fun e => e.addr == x.2 && e.pte.present).map fun e => P.pfnToNid e.pte.pfn := by
    unfold nodeOf tableView
    cases σ.mm x.1 with
    | none => rfl
    | some mm =>
      rw [Option.map_some, Option.bind_some, Option.bind_some, List.find?_map, Option.map_map]
      rfl
  funext x
  rw [hnode, hnode, hview]

/-- A reply that is sent is read. -/
theorem reply_read {req : Req} {msgs : List NlMsg}
    (h : (placementNlProcessMsg P (some req) σ).2 = some msgs) (stale : Arr AddrInfo) :
    (sendReq (.whole msgs) stale).1.slice 0 (processReq P (some req) σ).reply.length =
      (processReq P (some req) σ).reply := by
  have hreplied : (processReq P (some req) σ).Replied := by
    unfold placementNlProcessMsg at h
    cases hout : processReq P (some req) σ with
    | replied σ' => exact ⟨σ', rfl⟩
    | oops σ' =>
      rw [hout] at h
      exact absurd h (by simp)
  obtain ⟨-, fin, -, hreply⟩ := processReq_reply (replied_iff_back.mp hreplied)
  obtain ⟨σ', hσ', -, msgs', hmsgs, hround⟩ := received_reply hreplied (by rw [hreply]; simp)
  unfold placementNlProcessMsg at h
  rw [hσ'] at h
  simp only [hmsgs, Option.some.injEq] at h
  rw [← h]
  exact hround stale

/-- What `send_find` reads and does. -/
theorem SendFind.read (h : SendFind P f host σ σ₁ calls ret) :
    ∃ (n : Int32) (c : Arr AddrInfo) (k : Nat) (dramSlots nvramSlots : Arr (Nat × Int)) (rounds : Nat),
      f.nPages = some n.toInt ∧ σ₁ = (processReq P (some (.of .find n f.mode)) σ).sys ∧
        c.slice 0 (processReq P (some (.of .find n f.mode)) σ).reply.length =
          (processReq P (some (.of .find n f.mode)) σ).reply ∧
        scan c = some k ∧ (findPlacement f.mode.code k).run P host c dramSlots nvramSlots rounds =
          some (calls, ret) := by
  cases h with
  | mk n msgs stale placement dramSlots nvramSlots rounds calls ret hn hmsgs hplacement hrun =>
    have hfound : ∃ k, scan (sendReq (.whole msgs) stale).1 = some k ∧
        findPlacement f.mode.code k = placement := Option.map_eq_some_iff.mp hplacement
    obtain ⟨k, hscan, rfl⟩ := hfound
    refine ⟨n, _, k, dramSlots, nvramSlots, rounds, hn, ?_, reply_read hmsgs stale, hscan, hrun⟩
    rw [placementNlProcessMsg_outcome]

/-- What the calls after a request move, from before the request on. -/
theorem Migrated.since (hreg : Registered σ) {req : Option Req}
    (h : Migrated M P host calls (processReq P req σ).sys σ₂) :
    ∀ x ∈ M.moved P σ σ₂, ∃ (i : Nat) (call : MoveCall) (j : Nat) (node : Int),
      calls[i]? = some call ∧ host.movePages i = 0 ∧ σ.kernel.taskOf call.pid = some x.1 ∧
        call.pages[j]? = some (x.2, node) ∧ nodeOf P σ₂ x = some node := by
  have hnamed := h.named
  unfold Memory.moved at hnamed
  rw [nodeOf_processReq, processReq_kernel hreg] at hnamed
  exact hnamed

/-- Without calls nothing is moved. -/
theorem Migrated.none_moved (hreg : Registered σ) {req : Option Req}
    (h : Migrated M P host [] (processReq P req σ).sys σ₂) : M.moved P σ σ₂ = ∅ := by
  rw [Finset.eq_empty_iff_forall_notMem]
  intro x hx
  obtain ⟨i, call, j, node, hcall, -⟩ := h.since hreg x hx
  exact absurd hcall (by simp)

theorem Traffic.add_zero (r : Traffic) (mode : FindMode) : r.add mode 0 = r := by
  simp [Traffic.add]

/-- A clear calls for nothing. -/
theorem SendFind.clear (h : SendFind P f host σ σ₁ calls ret) (hreg : Registered σ)
    (hmode : f.mode = .nvramClear) (hmigrated : Migrated M P host calls σ₁ σ₂) :
    M.moved P σ σ₂ = ∅ := by
  obtain ⟨n, c, k, dramSlots, nvramSlots, rounds, -, rfl, -, -, hrun⟩ := h.read
  have hnone : findPlacement f.mode.code k = .nothing := by
    unfold findPlacement
    rw [FindMode.ofCode_code, hmode]
    split <;> rfl
  rw [hnone] at hrun
  obtain ⟨rfl, -⟩ := Prod.mk.inj (Option.some.inj hrun)
  exact hmigrated.none_moved hreg

theorem SendFind.registered (h : SendFind P f host σ σ₁ calls ret) (hreg : Registered σ)
    (hmigrated : Migrated M P host calls σ₁ σ₂) : Registered σ₂ := by
  obtain ⟨n, c, k, dramSlots, nvramSlots, rounds, -, rfl, -⟩ := h.read
  exact (processReq_registered _ hreg).env hmigrated.env

end

end Ambix.Ctl
