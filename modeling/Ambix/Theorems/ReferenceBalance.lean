import Ambix.Hyb.Machine
import Ambix.Logic.References

/-!
# The references of the module

`get_pid_task` and `find_get_pid` take references, and the module has no `put_task_struct`
and no `put_pid`. So the references it holds match the list only until a request meets a
list with an entry in it.
-/

namespace Ambix.Hyb

open Ambix.Lib

/-- One task reference for each entry, and at most as many number references. -/
def Balanced (σ : Sys) : Prop := σ.mod.taskRefs = σ.mod.nPids ∧ σ.mod.pidRefs ≤ σ.mod.nPids

/-- A BIND of an allocated number to which no task is attached. -/
def NamesNothing (req : Option Req) (σ : Sys) : Prop :=
  ∃ r, req = some r ∧ OpCode.ofCode r.opCode = some .bind ∧
    NamesNoTask σ.kernel σ.mod r.pidN.toInt

/-- The request takes a reference that matches no entry. -/
def TakesExtra (req : Option Req) (σ : Sys) : Prop :=
  opOf req ≠ none ∧ (0 < σ.mod.nPids ∨ NamesNothing req σ.refreshed)

/-- The runs without such a request. -/
def balancing (P : Platform) : TSys Sys where
  init := Loaded
  step σ σ' := EnvStep σ σ' ∨ ∃ req, ¬TakesExtra req σ ∧ (processReq P req σ).sys = σ'

section

variable {P : Platform} {σ : Sys}

/-- What a BIND takes after its refresh. -/
theorem bind_refs (h : Registered σ) {req : Req} (hop : OpCode.ofCode req.opCode = some .bind) :
    ∃ added extra,
      (processReq P (some req) σ).sys.mod.nPids = σ.refreshed.mod.nPids + added ∧
      (processReq P (some req) σ).sys.mod.taskRefs = σ.refreshed.mod.taskRefs + added ∧
      (processReq P (some req) σ).sys.mod.pidRefs = σ.refreshed.mod.pidRefs + added + extra ∧
      (0 < extra ↔ NamesNoTask σ.kernel σ.refreshed.mod req.pidN.toInt) := by
  have hlist := bind_list (P := P) (σ := σ) hop
  have hlive := h.refreshed.ne_null
  by_cases hb : ∃ t, Bindable σ.kernel σ.refreshed.mod req.pidN.toInt t
  · obtain ⟨t, hb⟩ := hb
    obtain ⟨htask, hpid⟩ := bindPid_refs_of_bindable hlive req.pidN_le hb
    have htasks := (bindPid_of_bindable hlive req.pidN_le hb).2.1
    refine ⟨1, 0, ?_, hlist.taskRefs.trans htask, hlist.pidRefs.trans hpid, ?_⟩
    · rw [hlist.nPids, ← Mod.length_tasks]
      exact (congrArg List.length htasks).trans (by simp)
    · refine iff_of_false (Nat.lt_irrefl 0) ?_
      rintro ⟨-, -, -, -, hnull⟩
      obtain ⟨-, hnamed, hne⟩ := Kernel.taskOf_eq_some.mp hb.2.2.2
      exact hne (hnamed.symm.trans hnull)
  · obtain ⟨htasks, htask, hextra, hnone⟩ :=
      bindPid_refs_of_not hlive req.pidN_le fun t ht => hb ⟨t, ht⟩
    have hnPids : (processReq P (some req) σ).sys.mod.nPids = σ.refreshed.mod.nPids := by
      rw [hlist.nPids, ← Mod.length_tasks]
      exact (congrArg List.length htasks).trans (Mod.length_tasks _)
    by_cases hmiss : NamesNoTask σ.kernel σ.refreshed.mod req.pidN.toInt
    · exact ⟨0, 1, hnPids, hlist.taskRefs.trans htask, hlist.pidRefs.trans (hextra hmiss),
        iff_of_true Nat.one_pos hmiss⟩
    · exact ⟨0, 0, hnPids, hlist.taskRefs.trans htask, hlist.pidRefs.trans (hnone hmiss),
        iff_of_false (Nat.lt_irrefl 0) hmiss⟩

/-- **What a request takes.** It keeps some entries and may add one; it takes a task
reference for the one it adds, a number reference for each entry there is then, and one
more for a number without a task. -/
theorem request_refs (h : Registered σ) (req : Option Req) (hop : opOf req ≠ none) :
    ∃ kept added extra, kept ≤ σ.mod.nPids ∧
      (processReq P req σ).sys.mod.nPids = kept + added ∧
      (processReq P req σ).sys.mod.taskRefs = σ.mod.taskRefs + added ∧
      (processReq P req σ).sys.mod.pidRefs = σ.mod.pidRefs + kept + added + extra ∧
      (0 < extra ↔ NamesNothing req σ.refreshed) := by
  obtain ⟨htask, hpid⟩ := refreshPids_refs σ.kernel σ.begun.mod
  change σ.refreshed.mod.taskRefs = σ.mod.taskRefs at htask
  change σ.refreshed.mod.pidRefs = σ.mod.pidRefs + σ.refreshed.mod.nPids at hpid
  have hle : σ.refreshed.mod.nPids ≤ σ.mod.nPids := refreshPids_nPids_le σ.kernel σ.begun.mod
  cases hcode : opOf req with
  | none => exact absurd hcode hop
  | some op =>
    have hsome := hcode
    obtain ⟨req, rfl, hreq⟩ := Option.bind_eq_some_iff.mp hsome
    have hnothing (hne : op ≠ .bind) : ¬NamesNothing (some req) σ.refreshed := by
      rintro ⟨r, hr, hbind, -⟩
      obtain rfl := Option.some.inj hr
      exact hne (Option.some.inj (hreq.symm.trans hbind))
    cases op with
    | find =>
      have hlist := find_list (P := P) (σ := σ) hcode
      exact ⟨σ.refreshed.mod.nPids, 0, 0, hle, hlist.nPids, hlist.taskRefs.trans htask,
        hlist.pidRefs.trans hpid, iff_of_false (Nat.lt_irrefl 0) (hnothing (by simp))⟩
    | unbind =>
      have hlist := unbind_list (P := P) (σ := σ) hreq
      obtain ⟨htask', hpid'⟩ := refreshPids_refs σ.kernel
        (unbindPid σ.kernel req.pidN.toInt σ.begun.mod).1
      obtain ⟨htask'', hpid''⟩ := unbindPid_refs σ.kernel req.pidN.toInt σ.begun.mod
      refine ⟨(processReq P (some req) σ).sys.mod.nPids, 0, 0, ?_, rfl, ?_, ?_,
        iff_of_false (Nat.lt_irrefl 0) (hnothing (by simp))⟩
      · rw [← Mod.length_tasks, ← Mod.length_tasks σ.mod, unbind_tasks h hreq]
        exact Nat.le_trans (List.length_filter_le _ _) (List.length_filter_le _ _)
      · rw [hlist.taskRefs, htask', htask'']
        rfl
      · rw [hlist.pidRefs, hpid', hpid'', hlist.nPids]
        rfl
    | bind =>
      obtain ⟨added, extra, hn, ht, hp, hextra⟩ := bind_refs (P := P) h hreq
      refine ⟨σ.refreshed.mod.nPids, added, extra, hle, hn, htask ▸ ht, hpid ▸ hp, hextra.trans ?_⟩
      constructor
      · exact fun hnames => ⟨req, rfl, hreq, hnames⟩
      · rintro ⟨r, hr, -, hnames⟩
        obtain rfl := Option.some.inj hr
        exact hnames

/-- Never fewer references than entries. -/
def Covered (σ : Sys) : Prop := σ.mod.nPids ≤ σ.mod.taskRefs ∧ σ.mod.taskRefs ≤ σ.mod.pidRefs

theorem covered_invariant (P : Platform) : (hyb P).Invariant Covered := by
  refine TSys.Invariant.strengthen (registered_invariant P) ?_ ?_
  · rintro σ ⟨found, backup, switchBackup, tasks, owner, hmod⟩
    unfold Covered
    rw [hmod]
    exact ⟨Nat.le_refl 0, Nat.le_refl 0⟩
  · rintro σ σ' h ⟨htask, hpid⟩ (henv | ⟨req, rfl⟩)
    · unfold Covered
      rw [henv.1]
      exact ⟨htask, hpid⟩
    · unfold Covered
      cases hop : opOf req with
      | none =>
        have hlist := idle_list (P := P) (σ := σ) hop
        rw [hlist.nPids, hlist.taskRefs, hlist.pidRefs]
        exact ⟨htask, hpid⟩
      | some op =>
        obtain ⟨kept, added, extra, hkept, hn, ht, hp, -⟩ :=
          request_refs (P := P) h req (by simp [hop])
        omega

/-- A request leaves the references balanced when they were, and it takes no extra one. -/
theorem request_balanced_iff (h : Registered σ) (hcovered : Covered σ) (req : Option Req) :
    Balanced (processReq P req σ).sys ↔ Balanced σ ∧ ¬TakesExtra req σ := by
  obtain ⟨htask, hpid⟩ := hcovered
  unfold Balanced TakesExtra
  cases hop : opOf req with
  | none =>
    have hlist := idle_list (P := P) (σ := σ) hop
    rw [hlist.nPids, hlist.taskRefs, hlist.pidRefs]
    simp
  | some op =>
    obtain ⟨kept, added, extra, hkept, hn, ht, hp, hextra⟩ :=
      request_refs (P := P) h req (by simp [hop])
    simp only [← hextra, ne_eq, reduceCtorEq, not_false_eq_true, true_and, not_or, hn, ht, hp]
    -- a balanced list with an entry holds a number reference that a refresh doubles
    omega

end

/-- **The references are balanced** after a request exactly when they were before it and it
takes none that matches no entry; and in every state of a run without such a request. -/
theorem references_balanced_iff (P : Platform) :
    (∀ σ, (hyb P).Reachable σ → ∀ req,
      (Balanced (processReq P req σ).sys ↔ Balanced σ ∧ ¬TakesExtra req σ)) ∧
    ∀ σ, (balancing P).Reachable σ → Balanced σ := by
  have hstep : ∀ σ, (hyb P).Reachable σ → ∀ req,
      (Balanced (processReq P req σ).sys ↔ Balanced σ ∧ ¬TakesExtra req σ) := fun σ hreach req =>
    request_balanced_iff (registered_invariant P σ hreach) (covered_invariant P σ hreach) req
  refine ⟨hstep, fun σ hreach => ?_⟩
  induction hreach with
  | init hloaded =>
    obtain ⟨found, backup, switchBackup, tasks, owner, hmod⟩ := hloaded
    unfold Balanced
    rw [hmod]
    exact ⟨rfl, Nat.le_refl 0⟩
  | step hprev hnext ih =>
    rcases hnext with henv | ⟨req, htakes, rfl⟩
    · unfold Balanced
      rw [henv.1]
      exact ih
    · refine (hstep _ ?_ req).mpr ⟨ih, htakes⟩
      exact hprev.mono (fun _ h => h) fun _ _ hs => hs.imp_right fun ⟨req, _, hr⟩ => ⟨req, hr⟩

/-! ## References that stay -/

theorem references_leak :
    (∀ reqs, (hyb smallMachine).Reachable ((Sys.fresh [some []]).after smallMachine reqs)) ∧
      (((Sys.fresh [some []]).after smallMachine
          [.of .bind 1 .dram, .of .find 1 .dram]).mod.nPids = 1 ∧
        ((Sys.fresh [some []]).after smallMachine
          [.of .bind 1 .dram, .of .find 1 .dram]).mod.pidRefs = 2) ∧
      ((Sys.fresh [some []]).after smallMachine
          [.of .bind 1 .dram, .of .unbind 1 .dram]).mod.nPids = 0 ∧
      ((Sys.fresh [some []]).after smallMachine
          [.of .bind 1 .dram, .of .unbind 1 .dram]).mod.taskRefs = 1 :=
  ⟨Sys.fresh_reachable _ _, ⟨by decide, by decide⟩, by decide, by decide⟩

/-- The first BIND takes one reference of each kind. -/
theorem firstBind_balancing :
    (balancing smallMachine).Reachable
      ((Sys.fresh [some []]).after smallMachine [.of .bind 1 .dram]) := by
  have hone : ¬TakesExtra (some (.of .bind 1 .dram)) (Sys.fresh [some []]) := by
    rintro ⟨-, hpos | ⟨r, hr, -, -, -, -, -, hnull⟩⟩
    · exact absurd hpos (by decide)
    · obtain rfl := Option.some.inj hr
      exact absurd hnull (by decide)
  exact .step (σ := Sys.fresh [some []]) (.init ⟨_, _, _, _, _, rfl⟩)
    (.inr ⟨some (.of .bind 1 .dram), hone, rfl⟩)

theorem references_balanced_iff_firstBind :
    Balanced ((Sys.fresh [some []]).after smallMachine [.of .bind 1 .dram]) ∧
      ¬Balanced ((Sys.fresh [some []]).after smallMachine
        [.of .bind 1 .dram, .of .find 1 .dram]) := by
  obtain ⟨hiff, hruns⟩ := references_balanced_iff smallMachine
  refine ⟨hruns _ firstBind_balancing, fun hbalanced => ?_⟩
  have hstep := hiff _ (Sys.fresh_reachable _ [some []] [.of .bind 1 .dram])
    (some (.of .find 1 .dram))
  exact (hstep.mp hbalanced).2 ⟨by decide, .inl (by decide)⟩

end Ambix.Hyb
