import Ambix.Hyb.Machine
import Ambix.Logic.MixMInvariant
import Ambix.Logic.References
import Ambix.Theorems.Registry

/-!
# The capacity of the MixM registry

`find_target_process` of the MixM module compares `n_pids > MAX_PIDS`, so it lists one
process more than `task_items` has room for. Short of that BIND every index is inside the
array, and the module accepts what the hyb module accepts with the same `MAX_PIDS`.
-/

namespace Ambix.MixM

open Ambix.Lib Ambix.Hyb

/-- The list, and every use of an entry in the last request, are inside `task_items`. -/
def InCapacity (s : State) : Prop := s.sys.mod.nPids ≤ maxPids ∧ ∀ i ∈ s.accesses, i < maxPids

/-- A BIND of a process that may be listed, when the list is full. -/
def Overfills (req : Option Req) (σ : Sys) : Prop := Appends req σ ∧ σ.mod.nPids = maxPids

/-- The runs without such a BIND. -/
def fitting (P : Platform) : TSys State where
  init s := Loaded s.sys ∧ s.accesses = []
  step s s' := (EnvStep s.sys s'.sys ∧ s'.accesses = s.accesses) ∨
    ∃ req, ¬Overfills req s.sys.refreshed ∧ leaves (processReq P req s) = s'

section

variable {P : Platform} {s : State}

theorem fitting_reachable (h : (fitting P).Reachable s) : (mixm P).Reachable s :=
  h.mono (fun _ h => h) fun _ _ hstep => hstep.imp_right fun ⟨req, _, hr⟩ => ⟨req, hr⟩

/-- **A request** stays inside the array exactly when it does not overfill it. -/
theorem request_inCapacity_iff (h : Listed s.sys) (hcap : s.sys.mod.nPids ≤ maxPids)
    (req : Option Req) :
    InCapacity (leaves (processReq P req s)) ↔ ¬Overfills req s.sys.refreshed := by
  have hle := refreshed_nPids_le s
  by_cases hreq : Appends req s.sys.refreshed
  · -- the new entry is the one after the last of the refreshed list
    obtain ⟨s', hs', -, hn, haccess, hall⟩ := processReq_appends (P := P) h hreq
    have hleaves : leaves (processReq P req s) = s' := by rw [hs', leaves]
    rw [hleaves]
    unfold InCapacity Overfills
    rw [hn]
    constructor
    · rintro ⟨hfits, -⟩ ⟨-, hfull⟩
      omega
    · intro hnot
      have hroom : s.sys.refreshed.mod.nPids ≠ maxPids := fun hfull => hnot ⟨hreq, hfull⟩
      refine ⟨by omega, fun i hi => ?_⟩
      rcases hall i hi with hlt | rfl
      · omega
      · omega
  · refine iff_of_true ?_ fun hc => hreq hc.1
    have hends := processReq_within (P := P) h hreq
    have hwithin : Within s.sys.mod.nPids (leaves (processReq P req s)) := by
      cases hres : processReq P req s with
      | error e =>
        rw [hres] at hends
        exact hends
      | ok s' =>
        rw [hres] at hends
        exact hends
    exact ⟨Nat.le_trans hwithin.nPids hcap,
      fun i hi => Nat.lt_of_lt_of_le (hwithin.accesses i hi) hcap⟩

theorem fitting_inCapacity (P : Platform) : (fitting P).Invariant InCapacity := by
  intro s hreach
  induction hreach with
  | init hinit =>
    obtain ⟨⟨found, backup, switchBackup, tasks, owner, hmod⟩, haccesses⟩ := hinit
    refine ⟨?_, ?_⟩
    · rw [hmod]
      exact Nat.zero_le _
    · rw [haccesses]
      simp
  | step hprev hstep ih =>
    rcases hstep with ⟨henv, haccesses⟩ | ⟨req, hreq, rfl⟩
    · unfold InCapacity
      rw [henv.1, haccesses]
      exact ih
    · have h := listed_invariant P _ (fitting_reachable hprev)
      exact (request_inCapacity_iff h ih.1 req).mpr hreq

end

/-! ## The hyb registry with the same `MAX_PIDS` -/

/-- `find_target_process` of the hyb module, with `MAX_PIDS` as a parameter. -/
def hybFindTarget (cap : Nat) (k : Kernel) (pid : Int) (m : Mod) : Mod × Int :=
  if cap ≤ m.nPids then (m, 0)
  else if (List.range m.nPids).any (m.manages k pid) then (m, 0)
  else
    let pidS := k.findGetPid pid
    if pidS = null then (m, 0)
    else
      let m := m.getPid
      let t := k.getPidTask pidS
      if t ≠ null then
        ({ m with
            taskItems := m.taskItems.set m.nPids t
            nPids := m.nPids + 1
            taskRefs := m.taskRefs + 1 }, 1)
      else (m, 0)

/-- `bind_pid` of the hyb module with it. -/
def hybBindPid (cap : Nat) (k : Kernel) (pid : Int) (m : Mod) : Mod × Int :=
  if pid ≤ 0 ∨ pid > maxPidN then (m, -1)
  else
    let (m, ok) := hybFindTarget cap k pid m
    if ok = 0 then (m, -1) else (m, 0)

/-- `process_req` of the hyb module with it. -/
def hybReq (cap : Nat) (P : Platform) (req : Option Req) (σ : Sys) : Outcome :=
  match req with
  | none => Hyb.processReq P none σ
  | some r =>
    match OpCode.ofCode r.opCode with
    | some .bind =>
      let b := hybBindPid cap σ.kernel r.pidN.toInt σ.refreshed.mod
      .replied { σ.refreshed with mod := b.1.pushRetval b.2 }
    | _ => Hyb.processReq P (some r) σ

/-- The return code of a reply; none after an oops. -/
def ret : Except State State → Option Int
  | .ok s => s.sys.mod.reply.getLast?.map AddrInfo.pidRetval
  | .error _ => none

/-- Both modules on one machine, with the same requests but no BIND that overfills. -/
def paired (P : Platform) : TSys (State × Sys) where
  init p := Loaded p.1.sys ∧ p.1.accesses = [] ∧ Loaded p.2 ∧ p.1.sys.kernel = p.2.kernel
  step p q :=
    (EnvStep p.1.sys q.1.sys ∧ q.1.accesses = p.1.accesses ∧ EnvStep p.2 q.2 ∧
      q.1.sys.kernel = q.2.kernel) ∨
    ∃ req, ¬Overfills req p.1.sys.refreshed ∧ leaves (processReq P req p.1) = q.1 ∧
      (hybReq maxPids P req p.2).sys = q.2

section

variable {P : Platform} {cap : Nat} {k : Kernel} {pid : Int} {m : Mod}

/-- With the module's own `MAX_PIDS` they are the module's. -/
theorem hybReq_maxPids (P : Platform) (req : Option Req) (σ : Sys) :
    hybReq Ambix.maxPids P req σ = Hyb.processReq P req σ := by
  cases req with
  | none => rfl
  | some r =>
    unfold hybReq
    simp only
    split
    · rename_i hop
      unfold Hyb.processReq
      simp only [Hyb.processBody, hop, if_true]
      rfl
    · rfl

theorem hybBindPid_full (h : cap ≤ m.nPids) : hybBindPid cap k pid m = (m, -1) := by
  unfold hybBindPid hybFindTarget
  rw [if_pos h]
  split <;> rfl

/-- Below both capacities they agree. -/
theorem hybBindPid_room (h : m.nPids < cap) (h' : m.nPids < Ambix.maxPids) :
    hybBindPid cap k pid m = Hyb.bindPid k pid m := by
  unfold hybBindPid hybFindTarget Hyb.bindPid Hyb.findTargetProcess
  rw [if_neg (Nat.not_le.mpr h), if_neg (Nat.not_le.mpr h')]

/-- **BIND of both modules**, on one list and short of overfilling it. -/
theorem bindPid_agree {s : State} {m : Mod} (hm : Anchored m) (hm' : Anchored s.sys.mod)
    (hlive : ∀ t ∈ m.tasks, t ≠ null) (htasks : s.sys.mod.tasks = m.tasks)
    (hcap : m.nPids ≤ maxPids) (hpid : pid ≤ maxPidN)
    (hfit : ∀ t, Listable s.sys.kernel s.sys.mod pid t → m.nPids ≠ maxPids) :
    (bindPid pid s).2 = (hybBindPid maxPids s.sys.kernel pid m).2 ∧
      (bindPid pid s).1.sys.mod.tasks = (hybBindPid maxPids s.sys.kernel pid m).1.tasks := by
  have hn : s.sys.mod.nPids = m.nPids := by rw [← Mod.length_tasks, htasks, Mod.length_tasks]
  have hlive' : ∀ t ∈ s.sys.mod.tasks, t ≠ null := htasks ▸ hlive
  have hbig : maxPids < Ambix.maxPids := by decide
  by_cases hl : ∃ t, Listable s.sys.kernel s.sys.mod pid t
  · obtain ⟨t, ht⟩ := hl
    have hroom : m.nPids < maxPids := Nat.lt_of_le_of_ne hcap (hfit t ht)
    obtain ⟨hret, -, -, hlist, -⟩ := bindPid_of_listable hlive' hpid (by omega) ht
    have hb : Bindable s.sys.kernel m pid t := ⟨ht.1, htasks ▸ ht.2.1, by omega, ht.2.2⟩
    obtain ⟨hret', hlist', -⟩ := bindPid_of_bindable hlive hpid hb
    rw [hybBindPid_room hroom (by omega), hret, hret', hlist, hlist', htasks]
    exact ⟨rfl, rfl⟩
  · obtain ⟨hret, -, -, hf, -⟩ := bindPid_of_not hm' hlive' fun t ht => absurd ⟨t, ht⟩ hl
    have hlist : (bindPid pid s).1.sys.mod.tasks = m.tasks := by
      rw [hf.tasks, List.filter_eq_self.mpr fun _ _ => rfl, htasks]
    by_cases hroom : m.nPids < maxPids
    · obtain ⟨hret', hf', -⟩ := Hyb.bindPid_of_not hm hlive hpid
        fun t ht => hl ⟨t, ht.1, htasks.symm ▸ ht.2.1, ht.2.2.2⟩
      rw [hybBindPid_room hroom (by omega), hret, hret', hlist, hf'.tasks,
        List.filter_eq_self.mpr fun _ _ => rfl]
      exact ⟨rfl, rfl⟩
    · rw [hybBindPid_full (Nat.not_lt.mp hroom), hret, hlist]
      exact ⟨rfl, rfl⟩

/-! ## The two modules in lockstep -/

variable {s : State} {σ : Sys}

theorem bindPid_kernel (h : Listed s.sys) (hpid : pid ≤ maxPidN) :
    (bindPid pid s).1.sys.kernel = s.sys.kernel := by
  by_cases hl : ∃ t, Listable s.sys.kernel s.sys.mod pid t ∧ s.sys.mod.nPids ≤ maxPids
  · obtain ⟨t, ht, hroom⟩ := hl
    exact (bindPid_of_listable h.ne_null hpid hroom ht).2.1
  · exact (bindPid_of_not h.anchored h.ne_null fun t ht =>
      Nat.not_le.mp fun hroom => hl ⟨t, ht, hroom⟩).2.1

theorem refreshed_kernel (s : State) : s.refreshed.sys.kernel = s.sys.kernel := by
  rw [refreshed_sys]
  rfl

theorem idle_leaves {req : Option Req} (hop : opOf req = none) :
    (leaves (processReq P req s)).sys.kernel = s.sys.kernel ∧
      (leaves (processReq P req s)).sys.mod.tasks = s.sys.mod.tasks := by
  cases req with
  | none => exact ⟨rfl, rfl⟩
  | some req =>
    have hop : OpCode.ofCode req.opCode = none := hop
    have hleaves : leaves (processReq P (some req) s) =
        s.begun.setMod (s.begun.sys.mod.pushRetval (-1)) := by
      simp only [processReq, processBody, hop]
      rfl
    rw [hleaves]
    exact ⟨rfl, rfl⟩

theorem find_leaves (h : Listed s.sys) {req : Req} (hop : OpCode.ofCode req.opCode = some .find) :
    (leaves (processReq P (some req) s)).sys.kernel = s.sys.kernel ∧
      (leaves (processReq P (some req) s)).sys.mod.tasks = s.sys.refreshed.mod.tasks := by
  have hrefresh : Listed s.refreshed.sys := by
    rw [refreshed_sys]
    exact Listed.refreshed h
  have hlist {s₁ : State} (hstays : Stays s.refreshed s₁) :
      s₁.sys.kernel = s.sys.kernel ∧ s₁.sys.mod.tasks = s.sys.refreshed.mod.tasks := by
    rw [hstays.kernel, hstays.tasks, refreshed_kernel, refreshed_sys]
    exact ⟨rfl, rfl⟩
  have hfind := processFind_stays (P := P) req hrefresh
  simp only [processReq, processBody, hop]
  change Ends _ _ (processFind P req (refreshPids s.begun)) at hfind
  cases hres : processFind P req (refreshPids s.begun) with
  | error e =>
    rw [hres] at hfind
    exact hlist hfind
  | ok r =>
    rw [hres] at hfind
    have hwalked := hlist (show Stays s.refreshed r.1 from hfind)
    exact hwalked

theorem bind_leaves (h : Listed s.sys) {req : Req} (hop : OpCode.ofCode req.opCode = some .bind) :
    (leaves (processReq P (some req) s)).sys.kernel = s.sys.kernel ∧
      (leaves (processReq P (some req) s)).sys.mod.tasks =
        (bindPid req.pidN.toInt s.refreshed).1.sys.mod.tasks ∧
      ret (processReq P (some req) s) = some (bindPid req.pidN.toInt s.refreshed).2 := by
  have hrefresh : Listed s.refreshed.sys := by
    rw [refreshed_sys]
    exact Listed.refreshed h
  have hok : processReq P (some req) s = .ok ((bindPid req.pidN.toInt s.refreshed).1.setMod
      ((bindPid req.pidN.toInt s.refreshed).1.sys.mod.pushRetval
        (bindPid req.pidN.toInt s.refreshed).2)) := by
    simp only [processReq, processBody, hop]
    rfl
  rw [hok]
  refine ⟨?_, rfl, ?_⟩
  · rw [← refreshed_kernel s]
    exact bindPid_kernel hrefresh req.pidN_le
  · simp [ret, Mod.reply_pushRetval]

theorem unbind_leaves {req : Req} (hop : OpCode.ofCode req.opCode = some .unbind) :
    (leaves (processReq P (some req) s)).sys.kernel = s.sys.kernel ∧
      (leaves (processReq P (some req) s)).sys.mod.tasks =
        (Hyb.refreshPids s.sys.kernel
          (Hyb.unbindPid s.sys.kernel req.pidN.toInt s.sys.begun.mod).1).tasks := by
  have hleaves : leaves (processReq P (some req) s) =
      (refreshPids (unbindPid req.pidN.toInt s.begun).1).setMod
        ((refreshPids (unbindPid req.pidN.toInt s.begun).1).sys.mod.pushRetval
          (unbindPid req.pidN.toInt s.begun).2) := by
    simp only [processReq, processBody, hop]
    rfl
  have hsys : (refreshPids (unbindPid req.pidN.toInt s.begun).1).sys =
      { s.begun.sys with
        mod := Hyb.refreshPids s.sys.kernel
          (Hyb.unbindPid s.sys.kernel req.pidN.toInt s.sys.begun.mod).1 } := by
    rw [(refreshPids_eq _).1, (unbindPid_eq req.pidN.toInt s.begun).1]
    rfl
  rw [hleaves]
  -- the return code is all that comes after the refresh
  generalize refreshPids (unbindPid req.pidN.toInt s.begun).1 = s₁ at hsys
  constructor
  · show s₁.sys.kernel = _
    rw [hsys]
    rfl
  · show s₁.sys.mod.tasks = _
    rw [hsys]

/-- The two modules hold one list. -/
structure Alike (s : State) (σ : Sys) : Prop where
  kernel : s.sys.kernel = σ.kernel
  tasks : s.sys.mod.tasks = σ.mod.tasks
  left : Listed s.sys
  right : Listed σ
  small : σ.mod.nPids ≤ maxPids

theorem Alike.registered (h : Alike s σ) : Registered σ :=
  .of_listed h.right (Nat.le_trans h.small (by decide))

theorem Alike.nPids (h : Alike s σ) : s.sys.mod.nPids = σ.mod.nPids := by
  rw [← Mod.length_tasks, h.tasks, Mod.length_tasks]

/-- They drop the same tasks at a refresh. -/
theorem Alike.refreshed (h : Alike s σ) : Alike s.refreshed σ.refreshed := by
  have hleft := Listed.refreshed h.left
  have hright := h.registered.refreshed
  have htasks : s.sys.refreshed.mod.tasks = σ.refreshed.mod.tasks := by
    have hb : Listed s.sys.begun := Listed.begun h.left
    rw [refreshed_tasks h.registered, ← h.tasks, ← h.kernel]
    exact (refreshPids_follows s.sys.kernel hb.anchored).1.tasks
  rw [← refreshed_sys] at hleft htasks
  refine ⟨(refreshed_kernel s).trans h.kernel, htasks, hleft, hright.listed, ?_⟩
  refine Nat.le_trans ?_ h.small
  rw [← Mod.length_tasks, ← Mod.length_tasks σ.mod, refreshed_tasks h.registered]
  exact List.length_filter_le _ _

/-! ### What the hyb module does -/

theorem hybReq_other {req : Option Req} (hop : opOf req ≠ some .bind) (σ : Sys) :
    hybReq cap P req σ = Hyb.processReq P req σ := by
  cases req with
  | none => rfl
  | some r =>
    unfold hybReq
    simp only
    split
    · rename_i hc
      exact absurd hc hop
    · rfl

theorem hybReq_bind {req : Req} (hop : OpCode.ofCode req.opCode = some .bind) (σ : Sys) :
    hybReq cap P (some req) σ = .replied { σ.refreshed with
      mod := (hybBindPid cap σ.kernel req.pidN.toInt σ.refreshed.mod).1.pushRetval
        (hybBindPid cap σ.kernel req.pidN.toInt σ.refreshed.mod).2 } := by
  unfold hybReq
  simp only [hop]

theorem hybBindPid_listed (h : Registered σ) (hpid : pid ≤ maxPidN) :
    Listed { σ with mod := (hybBindPid maxPids σ.kernel pid σ.mod).1 } := by
  by_cases hroom : σ.mod.nPids < maxPids
  · have hbig : maxPids < Ambix.maxPids := by decide
    rw [hybBindPid_room hroom (by omega)]
    exact (bindPid_registered h pid hpid).listed
  · rw [hybBindPid_full (Nat.not_lt.mp hroom)]
    exact h.listed

/-- **A request that does not overfill the list** is the same in both modules. -/
theorem Alike.request (h : Alike s σ) {req : Option Req}
    (hreq : ¬Overfills req s.sys.refreshed) :
    Alike (leaves (processReq P req s)) (hybReq maxPids P req σ).sys ∧
      (opOf req = some .bind → ret (processReq P req s) = (hybReq maxPids P req σ).ret) := by
  have hlisted : Listed (leaves (processReq P req s)).sys ∧
      (leaves (processReq P req s)).sys.mod.nPids ≤ maxPids := by
    have hsmall : s.sys.mod.nPids ≤ maxPids := h.nPids ▸ h.small
    refine ⟨?_, ((request_inCapacity_iff (P := P) h.left hsmall req).mpr hreq).1⟩
    exact leaves_listed h.left req
  -- both lists, and so both lengths, are equal
  suffices hsame : (leaves (processReq P req s)).sys.kernel = (hybReq maxPids P req σ).sys.kernel ∧
      (leaves (processReq P req s)).sys.mod.tasks = (hybReq maxPids P req σ).sys.mod.tasks ∧
      Listed (hybReq maxPids P req σ).sys ∧
      (opOf req = some .bind → ret (processReq P req s) = (hybReq maxPids P req σ).ret) by
    obtain ⟨hk, htasks, hright, hret⟩ := hsame
    refine ⟨⟨hk, htasks, hlisted.1, hright, ?_⟩, hret⟩
    rw [← Mod.length_tasks, ← htasks, Mod.length_tasks]
    exact hlisted.2
  have hother (hne : opOf req ≠ some .bind) :
      (hybReq maxPids P req σ).sys.kernel = s.sys.kernel ∧ Listed (hybReq maxPids P req σ).sys := by
    rw [hybReq_other hne, h.kernel]
    exact ⟨processReq_kernel h.registered req, (processReq_registered req h.registered).listed⟩
  cases hop : opOf req with
  | none =>
    have hne : opOf req ≠ some .bind := by simp [hop]
    obtain ⟨hk, htasks⟩ := idle_leaves (P := P) (s := s) hop
    refine ⟨hk.trans (hother hne).1.symm, ?_, (hother hne).2, by simp⟩
    rw [htasks, hybReq_other hne, (idle_list hop).tasks, h.tasks]
  | some op =>
    have hsome := hop
    obtain ⟨r, rfl, hcode⟩ := Option.bind_eq_some_iff.mp hsome
    cases op with
    | find =>
      have hne : opOf (some r) ≠ some .bind := by simp [hop]
      obtain ⟨hk, htasks⟩ := find_leaves (P := P) h.left hcode
      refine ⟨hk.trans (hother hne).1.symm, ?_, (hother hne).2, by simp⟩
      rw [htasks, hybReq_other hne, (find_list hop).tasks, ← refreshed_sys]
      exact h.refreshed.tasks
    | unbind =>
      have hne : opOf (some r) ≠ some .bind := by simp [hop]
      obtain ⟨hk, htasks⟩ := unbind_leaves (P := P) (s := s) hcode
      refine ⟨hk.trans (hother hne).1.symm, ?_, (hother hne).2, by simp⟩
      have hunbind := unbindPid_tasks (σ := s.sys.begun) (Listed.begun h.left) r.pidN_le
      rw [htasks, hybReq_other hne, unbind_tasks h.registered hcode, ← h.tasks, ← h.kernel]
      exact hunbind
    | bind =>
      have hrefresh := h.refreshed
      obtain ⟨hk, htasks, hret⟩ := bind_leaves (P := P) h.left hcode
      have hagree := bindPid_agree (s := s.refreshed) (m := σ.refreshed.mod)
        hrefresh.right.anchored hrefresh.left.anchored hrefresh.right.ne_null hrefresh.tasks
        hrefresh.small r.pidN_le fun t ht hfull => hreq ?_
      · rw [refreshed_kernel, h.kernel] at hagree
        rw [hybReq_bind hcode, hk, htasks, hret, hagree.1, hagree.2]
        refine ⟨h.kernel, rfl, ?_, fun _ => ?_⟩
        · have hlist := hybBindPid_listed h.registered.refreshed r.pidN_le
          exact ⟨hlist.live, hlist.distinct, hlist.hand⟩
        · simp [Outcome.ret, Outcome.reply, Mod.reply_pushRetval]
      · have hn := hrefresh.nPids
        rw [hfull] at hn
        rw [refreshed_sys] at ht hn
        exact ⟨⟨r, t, rfl, hcode, ht, Nat.le_of_eq hn⟩, hn⟩

theorem paired_alike (P : Platform) : (paired P).Invariant fun p => Alike p.1 p.2 := by
  refine TSys.Inductive.invariant ⟨?_, ?_⟩
  · rintro ⟨s, σ⟩ ⟨hloaded, -, hloaded', hk⟩
    have hempty {σ : Sys} (h : Loaded σ) : σ.mod.tasks = [] ∧ σ.mod.nPids = 0 := by
      obtain ⟨found, backup, switchBackup, tasks, owner, hmod⟩ := h
      rw [hmod]
      exact ⟨rfl, rfl⟩
    refine ⟨hk, (hempty hloaded).1.trans (hempty hloaded').1.symm, .loaded hloaded,
      .loaded hloaded', ?_⟩
    rw [(hempty hloaded').2]
    exact Nat.zero_le _
  · rintro ⟨s, σ⟩ ⟨s', σ'⟩ h (⟨henv, -, henv', hk⟩ | ⟨req, hreq, rfl, rfl⟩)
    · refine ⟨hk, ?_, h.left.env henv, h.right.env henv', ?_⟩
      · rw [henv.1, henv'.1]
        exact h.tasks
      · rw [henv'.1]
        exact h.small
    · exact (h.request hreq).1

/-- A BIND that overfills the list is accepted here and refused there. -/
theorem Alike.overfills (h : Alike s σ) {req : Option Req} (hreq : Overfills req s.sys.refreshed) :
    ret (processReq P req s) ≠ (hybReq maxPids P req σ).ret := by
  obtain ⟨⟨r, t, rfl, hop, ht, hroom⟩, hfull⟩ := hreq
  have hrefresh := h.refreshed
  have hn := hrefresh.nPids
  rw [refreshed_sys, hfull] at hn
  rw [← refreshed_sys] at ht hroom
  have haccept := (bindPid_of_listable hrefresh.left.ne_null r.pidN_le hroom ht).1
  rw [(bind_leaves (P := P) h.left hop).2.2, haccept, hybReq_bind hop,
    hybBindPid_full (Nat.le_of_eq hn)]
  simp [Outcome.ret, Outcome.reply, Mod.reply_pushRetval]

end

/-- **The list stays inside `task_items`**, and both modules accept the same BINDs, exactly
as long as no BIND of a process that may be listed comes when the list is full. -/
theorem capacity_kept_iff (P : Platform) :
    (∀ s, (mixm P).Reachable s → s.sys.mod.nPids ≤ maxPids → ∀ req,
      (InCapacity (leaves (processReq P req s)) ↔ ¬Overfills req s.sys.refreshed)) ∧
    (∀ s, (fitting P).Reachable s → InCapacity s) ∧
    ∀ p, (paired P).Reachable p → ∀ req, opOf req = some .bind →
      (ret (processReq P req p.1) = (hybReq maxPids P req p.2).ret ↔
        ¬Overfills req p.1.sys.refreshed) := by
  refine ⟨fun s hreach hcap req => ?_, fitting_inCapacity P, fun p hreach req hop => ?_⟩
  · exact request_inCapacity_iff (listed_invariant P s hreach) hcap req
  · have h := paired_alike P p hreach
    constructor
    · exact fun hsame hreq => h.overfills hreq hsame
    · exact fun hreq => (h.request hreq).2 hop

/-! ## A sixth BIND -/

/-- The state after a list of requests. -/
def State.after (P : Platform) (s : State) (reqs : List Req) : State :=
  reqs.foldl (fun s req => leaves (processReq P (some req) s)) s

theorem State.after_reachable {P : Platform} {s : State} (h : (mixm P).Reachable s)
    (reqs : List Req) : (mixm P).Reachable (s.after P reqs) := by
  induction reqs generalizing s with
  | nil => exact h
  | cons req reqs ih => exact ih (h.step (.inr ⟨some req, rfl⟩))

/-- Six processes on a machine, and the first five of them bound. -/
def sixProcesses : Sys := Sys.fresh (List.replicate 6 (some []))

def firstFive : List Req := [1, 2, 3, 4, 5].map fun pid => .of .bind pid .dram

def fullList : State := State.after smallMachine ⟨sixProcesses, []⟩ firstFive

theorem fullList_reachable : (mixm smallMachine).Reachable fullList :=
  State.after_reachable (.init ⟨⟨_, _, _, _, _, rfl⟩, rfl⟩) firstFive

theorem sixth_bind_overfills :
    (mixm smallMachine).Reachable fullList ∧ fullList.sys.mod.nPids = maxPids ∧
      (leaves (processReq smallMachine (some (.of .bind 6 .dram)) fullList)).sys.mod.nPids = 6 ∧
      5 ∈ (leaves (processReq smallMachine (some (.of .bind 6 .dram)) fullList)).accesses ∧
      ret (processReq smallMachine (some (.of .bind 6 .dram)) fullList) = some 0 ∧
      (hybReq maxPids smallMachine (some (.of .bind 6 .dram))
        (sixProcesses.after smallMachine firstFive)).ret = some (-1) :=
  ⟨fullList_reachable, by decide, by decide, by decide, by decide, by decide⟩

theorem capacity_kept_iff_fullList :
    ¬InCapacity (leaves (processReq smallMachine (some (.of .bind 6 .dram)) fullList)) ∧
      InCapacity (leaves (processReq smallMachine (some (.of .bind 5 .dram)) fullList)) := by
  obtain ⟨hiff, -, -⟩ := capacity_kept_iff smallMachine
  have hcap : fullList.sys.mod.nPids ≤ maxPids := by decide
  constructor
  · rw [hiff _ fullList_reachable hcap, not_not]
    exact ⟨⟨_, 6, rfl, rfl, ⟨by decide, by decide, by decide⟩, by decide⟩, by decide⟩
  · rw [hiff _ fullList_reachable hcap]
    rintro ⟨⟨r, t, hr, -, ht, -⟩, -⟩
    obtain rfl := Option.some.inj hr
    exact absurd ht.2.1 (by decide)

end Ambix.MixM
