import Ambix.Logic.MixMFind

/-!
# The registry of the MixM module over runs

`Listed` holds in every reachable state, whether requests are replied to or fault. A walk
keeps the registry and uses entries of the list only (`Stays`).
-/

namespace Ambix.MixM

open Ambix.Lib Ambix.Hyb

/-- `s'` is `s` after some walking, with the same registry. -/
structure Stays (s s' : State) : Prop where
  kernel : s'.sys.kernel = s.sys.kernel
  nPids : s'.sys.mod.nPids = s.sys.mod.nPids
  tasks : s'.sys.mod.tasks = s.sys.mod.tasks
  listed : Listed s'.sys
  touches : Touches s.sys.mod.nPids s s'

section

variable {P : Platform} {cb : PteEntry} {s s' s'' : State}

theorem Stays.refl (h : Listed s.sys) : Stays s s := ⟨rfl, rfl, rfl, h, .refl _ s⟩

theorem Stays.trans (h : Stays s s') (h' : Stays s' s'') : Stays s s'' :=
  ⟨h'.kernel.trans h.kernel, h'.nPids.trans h.nPids, h'.tasks.trans h.tasks, h'.listed,
    h.touches.trans (h.nPids ▸ h'.touches)⟩

/-- What writes no registry variable and reads entries of the list. -/
theorem Stays.of_fixed (h : Listed s.sys) (hpos : 0 < s.sys.mod.nPids)
    (hk : s'.sys.kernel = s.sys.kernel) (hfixed : Fixed s.sys.mod s'.sys.mod)
    (htouch : Touches s.sys.mod.nPids s s') : Stays s s' := by
  refine ⟨hk, hfixed.nPids, hfixed.tasks, ?_, htouch⟩
  refine h.held hk hfixed.taskItems hfixed.nPids fun tier => ?_
  rw [hfixed.lastPid, hfixed.nPids]
  exact h.lastPid_lt hpos tier

/-- The same for a state with the globals `m`. -/
theorem Stays.setMod (h : Stays s s') (hpos : 0 < s.sys.mod.nPids) {m : Mod}
    (hfixed : Fixed s'.sys.mod m) : Stays s (s'.setMod m) :=
  h.trans (.of_fixed h.listed (h.nPids ▸ hpos) rfl hfixed (.refl _ s'))

theorem walkTask_stays (hq : Quiet cb) (h : Listed s.sys) {i : Nat} (hi : i < s.sys.mod.nPids)
    (start stop : Nat) : Ends (Stays s) (Stays s) (walkTask cb i start stop s) := by
  have hpos := Nat.zero_lt_of_lt hi
  have htouch := (Touches.refl s.sys.mod.nPids s).touch hi
  cases hmm : s.sys.mm (s.sys.mod.taskItems i) with
  | none =>
    unfold walkTask
    simp only [State.touch_sys, hmm]
    exact .of_fixed h hpos rfl ((Fixed.refl _).setPid _) htouch
  | some a =>
    rw [walkTask_ok (by rw [hmm]; simp)]
    exact .of_fixed h hpos (walkTask_kernel _ _ _ _ _) (walkTask_fixed hq _ _ _ _) htouch

/-- The stretches of a walk, and where it may stop. -/
theorem walkStretches_stays (hq : Quiet cb) {xs : List Stretch} (h : Listed s.sys)
    (hxs : ∀ x ∈ xs, x.index < s.sys.mod.nPids) :
    Ends (Stays s) (fun r => Stays s r.1 ∧ ∀ i, r.2 = some i → i < s.sys.mod.nPids)
      (walkStretches cb xs s) := by
  induction xs generalizing s with
  | nil => exact ⟨.refl h, by simp⟩
  | cons x xs ih =>
    have hx := hxs x List.mem_cons_self
    refine (walkTask_stays hq h hx x.start x.stop).bind fun s₁ h₁ => ?_
    split
    · refine ⟨h₁, ?_⟩
      rintro i hi
      obtain rfl := Option.some.inj hi
      exact hx
    · refine (ih h₁.listed ?_).mono ?_ ?_
      · intro y hy
        rw [h₁.nPids]
        exact hxs y (List.mem_cons_of_mem x hy)
      · exact fun s₂ h₂ => h₁.trans h₂
      · rintro r ⟨h₂, hlast⟩
        exact ⟨h₁.trans h₂, fun i hi => h₁.nPids ▸ hlast i hi⟩

theorem walkTier_stays (hq : Quiet cb) (tier : Tier) (h : Listed s.sys)
    (hpos : 0 < s.sys.mod.nPids) : Ends (Stays s) (Stays s) (walkTier cb tier s) := by
  have hlast := h.lastPid_lt hpos tier
  have hloop := walkStretches_stays hq h fun x hx =>
    cycle_index_lt hlast (a := s.sys.mod.lastAddr tier) hx
  show Ends _ _ ((doPageWalk cb _ _ s).bind _)
  rw [doPageWalk_eq hq]
  refine (hloop.map (R := fun r => Stays s r.1 ∧ r.2 < s.sys.mod.nPids) ?_).bind ?_
  · rintro ⟨s₁, hit⟩ ⟨h₁, hindex⟩
    refine ⟨h₁, ?_⟩
    cases hit with
    | none => exact hlast
    | some i => exact hindex i rfl
  · rintro ⟨s₁, i⟩ ⟨h₁, hi⟩
    -- the new process index is inside the list
    refine ⟨h₁.kernel, ?_, ?_, ?_, h₁.touches⟩
    · rw [← h₁.nPids]
      cases tier <;> rfl
    · rw [← h₁.tasks]
      cases tier <;> rfl
    · refine h₁.listed.held rfl (by cases tier <;> rfl) (by cases tier <;> rfl) fun tier' => ?_
      have hother := h₁.listed.lastPid_lt (h₁.nPids ▸ hpos) tier'
      rw [← h₁.nPids] at hi
      cases tier <;> cases tier' <;> first | exact hi | exact hother

/-- A quota is not part of the registry. -/
theorem Stays.setQuota (h : Listed s.sys) (hpos : 0 < s.sys.mod.nPids) (spare : Spare) (n : Int) :
    Stays s (s.setMod (s.sys.mod.setQuota spare n)) := by
  have hset := (Held.refl (h.lastPid_lt hpos)).setQuota spare n
  refine ⟨rfl, hset.nPids, ?_, h.held rfl hset.taskItems hset.nPids hset.hand, .refl _ s⟩
  rw [State.setMod_sys, Mod.tasks, Mod.tasks, hset.taskItems, hset.nPids]

theorem memWalk_stays (n : Int) (mode : FindMode) (h : Listed s.sys)
    (hpos : 0 < s.sys.mod.nPids) : Ends (Stays s) (fun r => Stays s r.1) (memWalk P n mode s) := by
  unfold memWalk
  cases hops : memWalkOps P mode with
  | none => exact .refl h
  | some ops =>
    obtain ⟨cb, tier⟩ := ops
    have hset := Stays.setQuota h hpos .backup n
    have hwalk := walkTier_stays (memWalkOps_counting hops).quiet tier hset.listed
      (hset.nPids ▸ hpos)
    refine (hwalk.mono (fun _ h₁ => hset.trans h₁) fun _ h₁ => hset.trans h₁).bind fun s₁ h₁ => ?_
    simp only
    split
    · exact h₁
    · split
      · exact h₁.setMod hpos (Mod.appendFound_fixed _ _ _)
      · exact h₁

theorem clearTasks_stays {is : List Nat} (h : Listed s.sys) (his : ∀ i ∈ is, i < s.sys.mod.nPids) :
    Ends (Stays s) (Stays s) (clearTasks P is s) := by
  induction is generalizing s with
  | nil => exact .refl h
  | cons i is ih =>
    have hi := his i List.mem_cons_self
    unfold clearTasks
    split
    · exact .of_fixed h (Nat.zero_lt_of_lt hi) rfl (.refl _) ((Touches.refl _ s).touch hi)
    · refine (walkTask_stays (clear_quiet P) h hi 0 maxAddress).bind fun s₁ h₁ => ?_
      have hrest : ∀ j ∈ is, j < s₁.sys.mod.nPids := by
        intro j hj
        rw [h₁.nPids]
        exact his j (List.mem_cons_of_mem i hj)
      exact (ih h₁.listed hrest).mono (fun _ h₂ => h₁.trans h₂) fun _ h₂ => h₁.trans h₂

theorem switchWalk_stays (n : Int) (h : Listed s.sys) (hpos : 0 < s.sys.mod.nPids) :
    Ends (Stays s) (fun r => Stays s r.1) (switchWalk P n s) := by
  have hset := Stays.setQuota h hpos .switchBackup n
  have hfirst := walkTier_stays (switch_counting P).quiet .nvram hset.listed (hset.nPids ▸ hpos)
  refine (hfirst.mono (fun _ h₁ => hset.trans h₁) fun _ h₁ => hset.trans h₁).bind fun s₁ h₁ => ?_
  have hsep := Fixed.setFoundPid s₁.sys.mod s₁.sys.mod.nFound 0
  simp only
  split
  · exact h₁.setMod hpos (hsep.trans (.setNFound _ _))
  · have hmid := h₁.setMod hpos (hsep.trans (.setNFound _ (s₁.sys.mod.nFound + 1)))
    have hnext := hmid.trans (.setQuota hmid.listed (hmid.nPids ▸ hpos) .backup
      ((s₁.sys.mod.nFound + 1 : Nat) +
        intMin (s₁.sys.mod.nFound + s₁.sys.mod.nSwitchBackup) n))
    have hsecond := walkTier_stays (mem_counting P).quiet .dram hnext.listed (hnext.nPids ▸ hpos)
    refine (hsecond.mono (fun _ h₂ => hnext.trans h₂) fun _ h₂ => hnext.trans h₂).bind
      fun s₂ h₂ => ?_
    exact h₂.setMod hpos (pairUp_fixed _ _ _)

/-- **A FIND** stays in the list. -/
theorem processFind_stays (req : Req) (h : Listed s.sys) :
    Ends (Stays s) (fun r => Stays s r.1) (processFind P req s) := by
  unfold processFind
  split
  · rename_i hpos
    split
    · exact .refl h
    · refine (clearTasks_stays h fun i hi => List.mem_range.mp hi).map fun _ h₁ => h₁
    · exact switchWalk_stays _ h hpos
    · exact memWalk_stays _ _ h hpos
  · exact .refl h

/-! ## Requests -/

/-- The state in which a FIND or BIND goes on after `refresh_pids`. -/
def State.refreshed (s : State) : State := refreshPids s.begun

theorem refreshed_sys (s : State) : s.refreshed.sys = s.sys.refreshed := (refreshPids_eq s.begun).1

theorem refreshed_nPids_le (s : State) : s.sys.refreshed.mod.nPids ≤ s.sys.mod.nPids :=
  refreshPids_nPids_le s.sys.kernel s.sys.begun.mod

theorem refreshed_touches (s : State) : Touches s.sys.mod.nPids s.begun s.refreshed :=
  (refreshPids_eq s.begun).2

/-- A request that only uses entries below `n`, and leaves at most `n`. -/
structure Within (n : Nat) (s : State) : Prop where
  listed : Listed s.sys
  nPids : s.sys.mod.nPids ≤ n
  accesses : ∀ i ∈ s.accesses, i < n

theorem Within.of_touches {n : Nat} (h : Touches n s.begun s') (hl : Listed s'.sys)
    (hle : s'.sys.mod.nPids ≤ n) : Within n s' := by
  refine ⟨hl, hle, fun i hi => ?_⟩
  rcases h i hi with hc | hlt
  · exact absurd hc (by simp [State.begun])
  · exact hlt

theorem Within.pushRetval {n : Nat} (h : Within n s) (ret : Int) :
    Within n (s.setMod (s.sys.mod.pushRetval ret)) :=
  ⟨⟨h.listed.live, h.listed.distinct, h.listed.hand⟩, h.nPids, h.accesses⟩

theorem Listed.begun (h : Listed s.sys) : Listed s.begun.sys := ⟨h.live, h.distinct, h.hand⟩

theorem Listed.refreshed (h : Listed s.sys) : Listed s.sys.refreshed := by
  have hb : Listed s.sys.begun := ⟨h.live, h.distinct, h.hand⟩
  obtain ⟨hf, ha⟩ := refreshPids_follows s.sys.kernel hb.anchored
  exact hb.follows hf ha

theorem listed_of_kernel {σ σ' : Sys} (hk : σ'.kernel = σ.kernel)
    (h : Listed { σ with mod := σ'.mod }) : Listed σ' := by
  refine ⟨fun t ht => ?_, ?_, h.hand⟩
  · rw [hk]
    exact h.live t ht
  · rw [Sys.distinctPids, hk]
    exact h.distinct

/-- A BIND that finds a number to list, with room by the comparison it makes. -/
def Appends (req : Option Req) (σ : Sys) : Prop :=
  ∃ r t, req = some r ∧ OpCode.ofCode r.opCode = some .bind ∧
    Listable σ.kernel σ.mod r.pidN.toInt t ∧ σ.mod.nPids ≤ maxPids

theorem unbindPid_listed (h : Listed s.sys) {pid : Int} (hpid : pid ≤ maxPidN) :
    Listed (unbindPid pid s).1.sys ∧ (unbindPid pid s).1.sys.mod.nPids ≤ s.sys.mod.nPids := by
  rw [(unbindPid_eq pid s).1]
  by_cases hl : 0 < pid ∧ pid ∈ s.sys.mod.tasks.map s.sys.kernel.pidOf
  · obtain ⟨_, hf, ha⟩ := unbindPid_of_listed h.anchored h.ne_null h.distinct hl.1 hpid hl.2
    refine ⟨h.follows hf ha, ?_⟩
    rw [← Mod.length_tasks, ← Mod.length_tasks s.sys.mod, hf.tasks]
    exact List.length_filter_le _ _
  · rw [unbindPid_of_not h.ne_null hl]
    exact ⟨h, Nat.le_refl _⟩

/-- **A request that appends nothing** stays below the number of entries it starts with. -/
theorem processReq_within {req : Option Req} (h : Listed s.sys)
    (hreq : ¬Appends req s.sys.refreshed) :
    Ends (Within s.sys.mod.nPids) (Within s.sys.mod.nPids) (processReq P req s) := by
  have hstart : Within s.sys.mod.nPids s.begun :=
    .of_touches (.refl _ _) (Listed.begun h) (Nat.le_refl _)
  have hrefresh : Listed s.refreshed.sys := by
    rw [refreshed_sys]
    exact Listed.refreshed h
  have hle : s.refreshed.sys.mod.nPids ≤ s.sys.mod.nPids := by
    rw [refreshed_sys]
    exact refreshed_nPids_le s
  suffices hbody : Ends (Within s.sys.mod.nPids) (fun r => Within s.sys.mod.nPids r.1)
      (processBody P req s) from hbody.map fun r hr => hr.pushRetval r.2
  cases req with
  | none => exact hstart
  | some req =>
    simp only [processBody]
    split
    · exact hstart
    · refine (processFind_stays req hrefresh).mono ?_ ?_
      · intro s₁ h₁
        refine .of_touches ((refreshed_touches s).trans (h₁.touches.mono hle)) h₁.listed ?_
        rw [h₁.nPids]
        exact hle
      · rintro ⟨s₁, ret⟩ h₁
        refine .of_touches ((refreshed_touches s).trans (h₁.touches.mono hle)) h₁.listed ?_
        rw [h₁.nPids]
        exact hle
    · -- a BIND that may list no task scans and fails
      rename_i hop
      have hnot : ∀ t, Listable s.refreshed.sys.kernel s.refreshed.sys.mod req.pidN.toInt t →
          maxPids < s.refreshed.sys.mod.nPids := by
        rw [refreshed_sys]
        intro t ht
        by_contra hroom
        exact hreq ⟨req, t, rfl, hop, ht, Nat.not_lt.mp hroom⟩
      obtain ⟨-, hk, -, hf, ha, htouch⟩ := bindPid_of_not hrefresh.anchored hrefresh.ne_null hnot
      have hlen : (bindPid req.pidN.toInt s.refreshed).1.sys.mod.nPids =
          s.refreshed.sys.mod.nPids := by
        rw [← Mod.length_tasks, ← Mod.length_tasks s.refreshed.sys.mod, hf.tasks,
          List.filter_eq_self.mpr fun _ _ => rfl]
      exact .of_touches ((refreshed_touches s).trans (htouch.mono hle))
        (listed_of_kernel hk (hrefresh.follows hf ha)) (hlen ▸ hle)
    · -- an UNBIND removes before it refreshes, so the refresh has fewer entries to read
      have hu := unbindPid_eq req.pidN.toInt s.begun
      obtain ⟨hlisted, hless⟩ := unbindPid_listed (Listed.begun h) req.pidN_le
      have hrefresh' := refreshPids_eq (unbindPid req.pidN.toInt s.begun).1
      refine .of_touches (hu.2.2.trans (hrefresh'.2.mono hless)) ?_ ?_
      · rw [hrefresh'.1]
        obtain ⟨hf, ha⟩ := refreshPids_follows
          (unbindPid req.pidN.toInt s.begun).1.sys.kernel hlisted.anchored
        exact hlisted.follows hf ha
      · rw [hrefresh'.1]
        exact Nat.le_trans (refreshPids_nPids_le _ _) hless

/-- **A request that appends** writes the entry after the last. -/
theorem processReq_appends {req : Option Req} (h : Listed s.sys)
    (hreq : Appends req s.sys.refreshed) :
    ∃ s', processReq P req s = .ok s' ∧ Listed s'.sys ∧
      s'.sys.mod.nPids = s.sys.refreshed.mod.nPids + 1 ∧
      s.sys.refreshed.mod.nPids ∈ s'.accesses ∧
      ∀ i ∈ s'.accesses, i < s.sys.mod.nPids ∨ i = s.sys.refreshed.mod.nPids := by
  obtain ⟨r, t, rfl, hop, ht, hroom⟩ := hreq
  have hrefresh := Listed.refreshed h
  rw [← refreshed_sys] at ht hroom hrefresh
  obtain ⟨-, hk, -, htasks, hlast, haccess, htouch⟩ :=
    bindPid_of_listable hrefresh.ne_null r.pidN_le hroom ht
  have hlen : (bindPid r.pidN.toInt s.refreshed).1.sys.mod.nPids =
      s.refreshed.sys.mod.nPids + 1 := by
    rw [← Mod.length_tasks, htasks, List.length_append, Mod.length_tasks]
    rfl
  refine ⟨_, by simp only [processReq, processBody, hop]; rfl, ?_, ?_, ?_, ?_⟩
  · have hlisted := listed_of_kernel hk (hrefresh.append ht.1 ht.2.1 ht.2.2 htasks hlast)
    exact ⟨hlisted.live, hlisted.distinct, hlisted.hand⟩
  · rw [← refreshed_sys]
    exact hlen
  · rw [← refreshed_sys]
    exact haccess
  · intro i hi
    rw [← refreshed_sys]
    -- used by the bind, or before it by the refresh
    rcases htouch i hi with hi | hlt
    · rcases refreshed_touches s i hi with hc | hlt
      · exact absurd hc (by simp [State.begun])
      · exact .inl hlt
    · have hle := refreshed_nPids_le s
      rw [← refreshed_sys] at hle
      omega

theorem leaves_listed (h : Listed s.sys) (req : Option Req) :
    Listed (leaves (processReq P req s)).sys := by
  by_cases hreq : Appends req s.sys.refreshed
  · obtain ⟨s', hs', hlisted, -⟩ := processReq_appends (P := P) h hreq
    rw [hs']
    exact hlisted
  · have hends := processReq_within (P := P) h hreq
    cases hres : processReq P req s with
    | error e =>
      rw [hres] at hends
      exact hends.listed
    | ok s' =>
      rw [hres] at hends
      exact hends.listed

/-- **The registry is well-formed in every reachable state**, a full one included. -/
theorem listed_invariant (P : Platform) : (mixm P).Invariant fun s => Listed s.sys := by
  refine TSys.Inductive.invariant ⟨?_, ?_⟩
  · exact fun s h => .loaded h.1
  · rintro s s' h (⟨henv, -⟩ | ⟨req, rfl⟩)
    · exact h.env henv
    · exact leaves_listed h req

end

end Ambix.MixM
