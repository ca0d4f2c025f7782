import Ambix.Logic.Find

/-!
# The list and the references of a request

What each request does to `task_items`, and how many references it takes. A walk keeps
both (`SameList`); `refresh_pids` takes one `struct pid` reference for each entry it
keeps, and nothing is ever dropped.
-/

namespace Ambix.Hyb

open Ambix.Lib

/-- The same list, and the same references. -/
structure SameList (m m' : Mod) : Prop where
  tasks : m'.tasks = m.tasks
  taskRefs : m'.taskRefs = m.taskRefs
  pidRefs : m'.pidRefs = m.pidRefs

section

variable {k : Kernel} {m m' m'' : Mod}

theorem SameList.refl (m : Mod) : SameList m m := ⟨rfl, rfl, rfl⟩

theorem SameList.trans (h : SameList m m') (h' : SameList m' m'') : SameList m m'' :=
  ⟨h'.tasks.trans h.tasks, h'.taskRefs.trans h.taskRefs, h'.pidRefs.trans h.pidRefs⟩

theorem SameList.nPids (h : SameList m m') : m'.nPids = m.nPids := by
  rw [← Mod.length_tasks, h.tasks, Mod.length_tasks]

theorem Fixed.sameList (h : Fixed m m') : SameList m m' := ⟨h.tasks, h.taskRefs, h.pidRefs⟩

theorem SameList.setQuota (m : Mod) (s : Spare) (n : Int) : SameList m (m.setQuota s n) := by
  cases s <;> exact ⟨rfl, rfl, rfl⟩

theorem SameList.setLastPid (m : Mod) (tier : Tier) (i : Nat) :
    SameList m (m.setLastPid tier i) := by cases tier <;> exact ⟨rfl, rfl, rfl⟩

theorem SameList.pushRetval (m : Mod) (ret : Int) : SameList m (m.pushRetval ret) := ⟨rfl, rfl, rfl⟩

theorem SameList.begun (σ : Sys) : SameList σ.mod σ.begun.mod := ⟨rfl, rfl, rfl⟩

end

/-! ## Walks -/

section

variable {P : Platform} {cb : PteEntry}

theorem walkTier_sameList (hq : Quiet cb) (tier : Tier) (σ : Sys) :
    SameList σ.mod (walkTier cb tier σ).mod := by
  unfold walkTier
  rw [doPageWalk_eq hq]
  exact (walkStretches_fixed hq _ σ).sameList.trans (.setLastPid _ tier _)

theorem memWalk_sameList (n : Int) (mode : FindMode) (σ : Sys) :
    SameList σ.mod (memWalk P n mode σ).1.mod := by
  cases hmode : memWalkPolicy P mode with
  | none =>
    have hops : memWalkOps P mode = none := by
      cases mode <;> simp_all [memWalkPolicy, memWalkOps]
    simp only [memWalk, hops]
    exact .refl _
  | some π =>
    obtain ⟨hops, _⟩ := memWalkPolicy_ops hmode
    have hwalk := (SameList.setQuota σ.mod .backup n).trans (walkTier_sameList π.quiet π.tier
      { σ with mod := σ.mod.setQuota .backup n })
    simp only [memWalk, hops]
    split
    · exact hwalk
    · split
      · exact hwalk.trans (Mod.appendFound_fixed _ _ _).sameList
      · exact hwalk

theorem switchWalk_sameList (n : Int) (σ : Sys) :
    SameList σ.mod (switchWalk P n σ).1.mod := by
  unfold switchWalk
  simp only [pteCallbackNvramSwitch_eq P, pteCallbackMem_eq P]
  have hfirst := (SameList.setQuota σ.mod .switchBackup n).trans (walkTier_sameList
    (nvramSwitchPolicy P).quiet .nvram { σ with mod := σ.mod.setQuota .switchBackup n })
  generalize walkTier (nvramSwitchPolicy P).callback .nvram
    { σ with mod := σ.mod.setQuota .switchBackup n } = σ₁ at hfirst
  have hsep := hfirst.trans (Fixed.setFoundPid σ₁.mod σ₁.mod.nFound 0).sameList
  split
  · exact hsep.trans (Fixed.setNFound _ _).sameList
  · refine SameList.trans ?_ (pairUp_fixed _ _ _).sameList
    refine SameList.trans ?_ (walkTier_sameList (memPolicy P).quiet .dram _)
    show SameList σ.mod (Mod.setQuota .backup _ (Mod.setNFound _ _))
    exact (hsep.trans (Fixed.setNFound _ _).sameList).trans (.setQuota _ _ _)

theorem clearTasks_sameList (is : List Nat) (σ : Sys) :
    SameList σ.mod (clearTasks P is σ).1.mod := by
  induction is generalizing σ with
  | nil => exact .refl _
  | cons i is ih =>
    unfold clearTasks
    split
    · exact .refl _
    · exact (walkTask_fixed (clear_quiet P) _ _ _ _).sameList.trans (ih _)

/-- **A FIND** keeps the refreshed list. -/
theorem processFind_sameList (req : Req) (σ : Sys) :
    SameList σ.mod (processFind P req σ).1.mod := by
  unfold processFind
  split
  · split
    · exact .refl _
    · exact clearTasks_sameList _ _
    · exact switchWalk_sameList _ _
    · exact memWalk_sameList _ _ _
  · exact .refl _

end

/-! ## `refresh_pids`, BIND and UNBIND -/

section

variable {k : Kernel} {m : Mod} {pid : Int}

theorem updatePidList_refs (i : Nat) (m : Mod) :
    (updatePidList i m).taskRefs = m.taskRefs ∧ (updatePidList i m).pidRefs = m.pidRefs := by
  have hadjust (tier : Tier) (m : Mod) :
      (adjustHand tier i m).taskRefs = m.taskRefs ∧ (adjustHand tier i m).pidRefs = m.pidRefs := by
    unfold adjustHand
    split
    · cases tier <;> exact ⟨rfl, rfl⟩
    · split
      · simp only
        split <;> cases tier <;> exact ⟨rfl, rfl⟩
      · exact ⟨rfl, rfl⟩
  obtain ⟨htask, hpid⟩ := hadjust .dram m
  obtain ⟨htask', hpid'⟩ := hadjust .nvram (adjustHand .dram i m)
  exact ⟨htask'.trans htask, hpid'.trans hpid⟩

/-- The loop takes one reference for each entry it passes. -/
theorem refreshLoop_refs (fuel i : Nat) {m : Mod} (hfuel : m.nPids ≤ i + fuel) (hi : i ≤ m.nPids) :
    (refreshLoop k fuel i m).taskRefs = m.taskRefs ∧
      (refreshLoop k fuel i m).pidRefs + i = m.pidRefs + (refreshLoop k fuel i m).nPids := by
  induction fuel generalizing i m with
  | zero =>
    refine ⟨rfl, ?_⟩
    show m.pidRefs + i = m.pidRefs + m.nPids
    omega
  | succ fuel ih =>
    unfold refreshLoop
    by_cases hlt : i < m.nPids
    · -- a removal drops nothing and stays at `i`
      have hremove : (refreshLoop k fuel i (updatePidList i m)).taskRefs = m.taskRefs ∧
          (refreshLoop k fuel i (updatePidList i m)).pidRefs + i =
            m.pidRefs + (refreshLoop k fuel i (updatePidList i m)).nPids := by
        have hpids : (updatePidList i m).nPids = m.nPids - 1 := updatePidList_nPids
        obtain ⟨htask, hpid⟩ := updatePidList_refs i m
        obtain ⟨hrest, hcount⟩ := ih i (m := updatePidList i m) (by omega) (by omega)
        exact ⟨hrest.trans htask, by rw [hcount, hpid]⟩
      rw [if_pos hlt]
      split
      · exact hremove
      · split
        · exact hremove
        · have hpids : m.getPid.nPids = m.nPids := rfl
          obtain ⟨hrest, hcount⟩ := ih (i + 1) (m := m.getPid) (by omega) (by omega)
          refine ⟨hrest, ?_⟩
          have hone : m.getPid.pidRefs = m.pidRefs + 1 := rfl
          omega
    · rw [if_neg hlt]
      exact ⟨rfl, by omega⟩

/-- **`refresh_pids`** takes one `struct pid` reference for each entry it keeps. -/
theorem refreshPids_refs (k : Kernel) (m : Mod) :
    (refreshPids k m).taskRefs = m.taskRefs ∧
      (refreshPids k m).pidRefs = m.pidRefs + (refreshPids k m).nPids :=
  refreshLoop_refs m.nPids 0 (by omega) (Nat.zero_le _)

/-- **`unbind_pid`** drops nothing. -/
theorem unbindPid_refs (k : Kernel) (pid : Int) (m : Mod) :
    (unbindPid k pid m).1.taskRefs = m.taskRefs ∧ (unbindPid k pid m).1.pidRefs = m.pidRefs := by
  unfold unbindPid
  split
  · exact ⟨rfl, rfl⟩
  · split
    · exact ⟨rfl, rfl⟩
    · exact updatePidList_refs _ _

/-- **`bind_pid`** that lists a task takes a reference of each kind. -/
theorem bindPid_refs_of_bindable (hlive : ∀ t ∈ m.tasks, t ≠ null) (hpid : pid ≤ maxPidN)
    {t : TaskPtr} (h : Bindable k m pid t) :
    (bindPid k pid m).1.taskRefs = m.taskRefs + 1 ∧
      (bindPid k pid m).1.pidRefs = m.pidRefs + 1 := by
  rw [bindPid_bindable hlive hpid h]
  exact ⟨rfl, rfl⟩

/-- **`bind_pid`** that lists nothing takes one if the number names no task. -/
theorem bindPid_refs_of_not (hlive : ∀ t ∈ m.tasks, t ≠ null) (hpid : pid ≤ maxPidN)
    (h : ∀ t, ¬Bindable k m pid t) :
    (bindPid k pid m).1.tasks = m.tasks ∧ (bindPid k pid m).1.taskRefs = m.taskRefs ∧
      (NamesNoTask k m pid → (bindPid k pid m).1.pidRefs = m.pidRefs + 1) ∧
      (¬NamesNoTask k m pid → (bindPid k pid m).1.pidRefs = m.pidRefs) := by
  rcases bindPid_unbindable hlive hpid h with ⟨hnames, hbind⟩ | ⟨hnames, hbind⟩
  · rw [hbind]
    exact ⟨rfl, rfl, fun _ => rfl, fun hc => absurd hnames hc⟩
  · rw [hbind]
    exact ⟨rfl, rfl, fun hc => absurd hc hnames, fun _ => rfl⟩

end

/-! ## Requests -/

/-- The operation a request names, if it is one. -/
def opOf (req : Option Req) : Option OpCode := req.bind fun r => OpCode.ofCode r.opCode

section

variable {P : Platform} {σ : Sys}

theorem processReq_sameList (P : Platform) (req : Option Req) (σ : Sys) :
    SameList (processBody P req σ).1.mod (processReq P req σ).sys.mod ∧
      (processReq P req σ).sys.kernel = (processBody P req σ).1.kernel := by
  unfold processReq
  simp only
  split
  · exact ⟨.pushRetval _ _, rfl⟩
  · exact ⟨.refl _, rfl⟩

/-- A request leaves the pid tables alone. -/
theorem processReq_kernel (h : Registered σ) (req : Option Req) :
    (processReq P req σ).sys.kernel = σ.kernel := by
  rw [(processReq_sameList P req σ).2]
  cases req with
  | none => rfl
  | some req =>
    simp only [processBody]
    split
    · rfl
    · show (processFind P req σ.refreshed).1.kernel = _
      rcases processFind_walked (P := P) req h.refreshed with hsame | hwalk
      · rw [hsame]
        rfl
      · exact hwalk.kernel
    · rfl
    · rfl

theorem idle_list {req : Option Req} (hop : opOf req = none) :
    SameList σ.mod (processReq P req σ).sys.mod := by
  refine SameList.trans ?_ (processReq_sameList P req σ).1
  cases req with
  | none => exact .begun σ
  | some req =>
    have hop : OpCode.ofCode req.opCode = none := hop
    simp only [processBody, hop]
    exact .begun σ

theorem find_list {req : Option Req} (hop : opOf req = some .find) :
    SameList σ.refreshed.mod (processReq P req σ).sys.mod := by
  obtain ⟨req, rfl, hop⟩ := Option.bind_eq_some_iff.mp hop
  refine SameList.trans ?_ (processReq_sameList P (some req) σ).1
  rw [processReq_find hop]
  exact processFind_sameList req σ.refreshed

theorem bind_list {req : Req} (hop : OpCode.ofCode req.opCode = some .bind) :
    SameList (bindPid σ.kernel req.pidN.toInt σ.refreshed.mod).1
      (processReq P (some req) σ).sys.mod := by
  refine SameList.trans ?_ (processReq_sameList P (some req) σ).1
  simp only [processBody, hop]
  exact .refl _

theorem unbind_list {req : Req} (hop : OpCode.ofCode req.opCode = some .unbind) :
    SameList (refreshPids σ.kernel (unbindPid σ.kernel req.pidN.toInt σ.begun.mod).1)
      (processReq P (some req) σ).sys.mod := by
  refine SameList.trans ?_ (processReq_sameList P (some req) σ).1
  simp only [processBody, hop]
  exact .refl _

theorem refreshed_tasks (h : Registered σ) :
    σ.refreshed.mod.tasks = σ.mod.tasks.filter (alive σ.kernel) :=
  (refreshPids_follows σ.kernel h.begun.anchored).1.tasks

/-- After `unbind_pid` and `refresh_pids` the other live tasks are listed. -/
theorem unbindPid_tasks (h : Listed σ) {pid : Int} (hpid : pid ≤ maxPidN) :
    (refreshPids σ.kernel (unbindPid σ.kernel pid σ.mod).1).tasks =
      (σ.mod.tasks.filter fun t => !decide (σ.kernel.pidOf t = pid)).filter (alive σ.kernel) := by
  by_cases hl : 0 < pid ∧ pid ∈ σ.mod.tasks.map σ.kernel.pidOf
  · obtain ⟨_, hf, ha⟩ := unbindPid_of_listed h.anchored h.ne_null h.distinct hl.1 hpid hl.2
    rw [(refreshPids_follows σ.kernel ha).1.tasks, hf.tasks]
  · have hnone : (σ.mod.tasks.filter fun t => !decide (σ.kernel.pidOf t = pid)) = σ.mod.tasks := by
      refine List.filter_eq_self.mpr fun t ht => ?_
      simp only [Bool.not_eq_true', decide_eq_false_iff_not]
      intro hnr
      exact hl ⟨hnr ▸ (h.live t ht).2, List.mem_map.mpr ⟨t, ht, hnr⟩⟩
    rw [unbindPid_of_not h.ne_null hl, (refreshPids_follows σ.kernel h.anchored).1.tasks, hnone]

theorem unbind_tasks (h : Registered σ) {req : Req}
    (hop : OpCode.ofCode req.opCode = some .unbind) :
    (processReq P (some req) σ).sys.mod.tasks =
      (σ.mod.tasks.filter fun t => !decide (σ.kernel.pidOf t = req.pidN.toInt)).filter
        (alive σ.kernel) := by
  rw [(unbind_list hop).tasks]
  exact unbindPid_tasks h.begun.listed req.pidN_le

/-- **The tasks after a request** were listed before, or are named by a BIND. -/
theorem request_tasks (h : Registered σ) (req : Option Req) :
    ∀ t ∈ (processReq P req σ).sys.mod.tasks,
      t ∈ σ.mod.tasks ∨ σ.kernel.taskOf (σ.kernel.pidOf t) = some t := by
  intro t ht
  have hold : t ∈ σ.refreshed.mod.tasks → t ∈ σ.mod.tasks := by
    rw [refreshed_tasks h]
    exact fun hmem => List.mem_of_mem_filter hmem
  cases hop : opOf req with
  | none =>
    rw [(idle_list hop).tasks] at ht
    exact .inl ht
  | some op =>
    obtain ⟨req, rfl, hcode⟩ := Option.bind_eq_some_iff.mp hop
    cases op with
    | find =>
      rw [(find_list hop).tasks] at ht
      exact .inl (hold ht)
    | bind =>
      rw [(bind_list hcode).tasks] at ht
      by_cases hb : ∃ t, Bindable σ.kernel σ.refreshed.mod req.pidN.toInt t
      · obtain ⟨t', hb⟩ := hb
        rw [(bindPid_of_bindable h.refreshed.ne_null req.pidN_le hb).2.1] at ht
        rcases List.mem_append.mp ht with ht | ht
        · exact .inl (hold ht)
        · obtain rfl := List.mem_singleton.mp ht
          right
          rw [(Kernel.pidOf_taskOf hb.2.2.2).1]
          exact hb.2.2.2
      · rw [(bindPid_refs_of_not h.refreshed.ne_null req.pidN_le fun t ht => hb ⟨t, ht⟩).1] at ht
        exact .inl (hold ht)
    | unbind =>
      rw [unbind_tasks h hcode] at ht
      exact .inl (List.mem_of_mem_filter (List.mem_of_mem_filter ht))

end

end Ambix.Hyb
