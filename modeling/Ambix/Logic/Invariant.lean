import Ambix.Hyb.Request
import Ambix.Logic.MemWalk
import Ambix.Logic.Frame
import Ambix.Logic.Registry
import Ambix.Logic.Round

/-!
# The registry invariant

`Registered` holds in every reachable state (`registered_invariant`): the listed
tasks are non-`NULL`, have pairwise distinct positive numbers, are at most
`MAX_PIDS`, and both hands are inside the list. Requests of any kind preserve it,
whatever their count and mode.
-/

namespace Ambix.Hyb

open Ambix.Lib

/-- What is always true of the registry. -/
structure Registered (σ : Sys) : Prop where
  small : σ.mod.nPids ≤ maxPids
  live : ∀ t ∈ σ.mod.tasks, t ≠ null ∧ 0 < σ.kernel.pidOf t
  distinct : σ.distinctPids
  hand : ∀ tier, σ.mod.lastPid tier < σ.mod.nPids ∨
    (σ.mod.nPids = 0 ∧ σ.mod.lastPid tier = 0 ∧ σ.mod.lastAddr tier = 0)

/-- The part of it that does not depend on `MAX_PIDS`. -/
structure Listed (σ : Sys) : Prop where
  live : ∀ t ∈ σ.mod.tasks, t ≠ null ∧ 0 < σ.kernel.pidOf t
  distinct : σ.distinctPids
  hand : ∀ tier, σ.mod.lastPid tier < σ.mod.nPids ∨
    (σ.mod.nPids = 0 ∧ σ.mod.lastPid tier = 0 ∧ σ.mod.lastAddr tier = 0)

namespace Listed

variable {σ : Sys}

theorem anchored (h : Listed σ) : Anchored σ.mod :=
  ⟨List.Nodup.of_map _ h.distinct, h.hand⟩

theorem ne_null (h : Listed σ) : ∀ t ∈ σ.mod.tasks, t ≠ null := fun t ht => (h.live t ht).1

theorem lastPid_lt (h : Listed σ) (hpos : 0 < σ.mod.nPids) (tier : Tier) :
    σ.mod.lastPid tier < σ.mod.nPids := by
  rcases h.hand tier with h | h
  · exact h
  · omega

theorem loaded (h : Loaded σ) : Listed σ := by
  obtain ⟨found, backup, switchBackup, tasks, owner, hmod⟩ := h
  have htasks : σ.mod.tasks = [] := by
    rw [hmod]
    rfl
  refine ⟨by simp [htasks], by simp [Sys.distinctPids, htasks], fun tier => Or.inr ?_⟩
  rw [hmod]
  cases tier <;> exact ⟨rfl, rfl, rfl⟩

/-- Removing tasks. -/
theorem follows (h : Listed σ) {keep : TaskPtr → Bool} {m' : Mod}
    (hf : Follows keep σ.mod m') (ha : Anchored m') : Listed { σ with mod := m' } := by
  have hsub : m'.tasks.Sublist σ.mod.tasks := hf.tasks ▸ List.filter_sublist
  exact ⟨fun t ht => h.live t (hsub.subset ht), h.distinct.sublist (hsub.map _), ha.hand⟩

/-- Appending a task with a new number. -/
theorem append (h : Listed σ) {pid : Int} {t : TaskPtr} {m' : Mod} (hpos : 0 < pid)
    (hnew : pid ∉ σ.mod.tasks.map σ.kernel.pidOf) (htask : σ.kernel.taskOf pid = some t)
    (htasks : m'.tasks = σ.mod.tasks ++ [t])
    (hpid : ∀ tier, m'.lastPid tier = σ.mod.lastPid tier) : Listed { σ with mod := m' } := by
  obtain ⟨hown, hptr⟩ := Kernel.pidOf_taskOf htask
  have hlen : m'.nPids = σ.mod.nPids + 1 := by
    have := congrArg List.length htasks
    simpa using this
  refine ⟨fun t' ht' => ?_, ?_, fun tier => ?_⟩
  · simp only [htasks, List.mem_append, List.mem_singleton] at ht'
    rcases ht' with ht' | rfl
    · exact h.live t' ht'
    · exact ⟨hptr, hown ▸ hpos⟩
  · simp only [Sys.distinctPids, htasks, List.map_append, List.map_singleton]
    refine List.Nodup.append h.distinct (List.nodup_singleton _) ?_
    intro x hx hx'
    rw [List.mem_singleton] at hx'
    exact hnew (hown ▸ hx' ▸ hx)
  · left
    simp only [hpid tier, hlen]
    rcases h.hand tier with hlt | hz
    · omega
    · omega

/-- Walking. -/
theorem held (h : Listed σ) {σ' : Sys} (hk : σ'.kernel = σ.kernel)
    (hitems : σ'.mod.taskItems = σ.mod.taskItems) (hpids : σ'.mod.nPids = σ.mod.nPids)
    (hlast : ∀ tier, σ'.mod.lastPid tier < σ'.mod.nPids) : Listed σ' := by
  have htasks : σ'.mod.tasks = σ.mod.tasks := by rw [Mod.tasks, Mod.tasks, hitems, hpids]
  refine ⟨fun t ht => ?_, ?_, fun tier => Or.inl (hlast tier)⟩
  · rw [htasks] at ht
    rw [hk]
    exact h.live t ht
  · rw [Sys.distinctPids, htasks, hk]
    exact h.distinct

/-- What others do between requests. -/
theorem env (h : Listed σ) {σ' : Sys} (hstep : EnvStep σ σ') : Listed σ' := by
  obtain ⟨hmod, hpid⟩ := hstep
  refine ⟨fun t ht => ?_, ?_, fun tier => hmod ▸ h.hand tier⟩
  · rw [hmod] at ht
    rw [hpid t ht]
    exact h.live t ht
  · rw [Sys.distinctPids, hmod, List.map_congr_left hpid]
    exact h.distinct

end Listed

namespace Registered

variable {σ : Sys}

theorem listed (h : Registered σ) : Listed σ := ⟨h.live, h.distinct, h.hand⟩

theorem of_listed (h : Listed σ) (hsmall : σ.mod.nPids ≤ maxPids) : Registered σ :=
  ⟨hsmall, h.live, h.distinct, h.hand⟩

theorem anchored (h : Registered σ) : Anchored σ.mod := h.listed.anchored

theorem ne_null (h : Registered σ) : ∀ t ∈ σ.mod.tasks, t ≠ null := h.listed.ne_null

theorem lastPid_lt (h : Registered σ) (hpos : 0 < σ.mod.nPids) (tier : Tier) :
    σ.mod.lastPid tier < σ.mod.nPids := h.listed.lastPid_lt hpos tier

/-- Removing tasks. -/
theorem follows (h : Registered σ) {keep : TaskPtr → Bool} {m' : Mod}
    (hf : Follows keep σ.mod m') (ha : Anchored m') : Registered { σ with mod := m' } := by
  have hsub : m'.tasks.Sublist σ.mod.tasks := hf.tasks ▸ List.filter_sublist
  have hlen := hsub.length_le
  simp only [Mod.length_tasks] at hlen
  exact of_listed (h.listed.follows hf ha) (Nat.le_trans hlen h.small)

/-- Appending a task with a new number. -/
theorem append (h : Registered σ) {pid : Int} {t : TaskPtr} {m' : Mod}
    (hb : Bindable σ.kernel σ.mod pid t) (htasks : m'.tasks = σ.mod.tasks ++ [t])
    (hpid : ∀ tier, m'.lastPid tier = σ.mod.lastPid tier) : Registered { σ with mod := m' } := by
  obtain ⟨hpos, hnew, hroom, htask⟩ := hb
  have hlen : m'.nPids = σ.mod.nPids + 1 := by
    have := congrArg List.length htasks
    simpa using this
  refine of_listed (h.listed.append hpos hnew htask htasks hpid) ?_
  simp only
  omega

/-- Walking. -/
theorem held (h : Registered σ) {σ' : Sys} (hk : σ'.kernel = σ.kernel)
    (hitems : σ'.mod.taskItems = σ.mod.taskItems) (hpids : σ'.mod.nPids = σ.mod.nPids)
    (hlast : ∀ tier, σ'.mod.lastPid tier < σ'.mod.nPids) : Registered σ' :=
  of_listed (h.listed.held hk hitems hpids hlast) (hpids ▸ h.small)

/-- What others do between requests. -/
theorem env (h : Registered σ) {σ' : Sys} (hstep : EnvStep σ σ') : Registered σ' :=
  of_listed (h.listed.env hstep) (hstep.1 ▸ h.small)

end Registered

/-! ## Walks hold the registry -/

/-- The registry of `m` with both hands inside it. -/
structure Held (m m' : Mod) : Prop where
  taskItems : m'.taskItems = m.taskItems
  nPids : m'.nPids = m.nPids
  hand : ∀ tier, m'.lastPid tier < m'.nPids

theorem Held.refl {m : Mod} (h : ∀ tier, m.lastPid tier < m.nPids) : Held m m := ⟨rfl, rfl, h⟩

theorem Held.trans {m m' m'' : Mod} (h : Held m m') (h' : Held m' m'') : Held m m'' :=
  ⟨h'.taskItems.trans h.taskItems, h'.nPids.trans h.nPids, h'.hand⟩

theorem Held.fixed {m m' m'' : Mod} (h : Held m m') (h' : Fixed m' m'') : Held m m'' := by
  refine ⟨h'.taskItems.trans h.taskItems, h'.nPids.trans h.nPids, fun tier => ?_⟩
  rw [h'.lastPid, h'.nPids]
  exact h.hand tier

theorem Fixed.foldl {g : Mod → Nat → Mod} (h : ∀ m i, Fixed m (g m i)) (is : List Nat) (m : Mod) :
    Fixed m (is.foldl g m) := by
  induction is generalizing m with
  | nil => exact .refl m
  | cons i is ih => exact (h m i).trans (ih (g m i))

theorem Fixed.setFoundPid (m : Mod) (i : Nat) (p : Int) : Fixed m (m.setFoundPid i p) := by
  constructor <;> rfl

theorem Fixed.setNFound (m : Mod) (n : Nat) : Fixed m (m.setNFound n) := by
  constructor <;> rfl

theorem pairUp_fixed (v d : Nat) (m : Mod) : Fixed m (pairUp v d m) := by
  have hmove : ∀ (m : Mod) (is : List Nat) src dst,
      Fixed m (is.foldl (fun m i => m.moveFound (dst + i) (src + i)) m) := fun m is src dst =>
    .foldl (fun m i => by constructor <;> rfl) is m
  have hfill : ∀ (m : Mod) lo n, Fixed m (m.fillNvram lo n) := fun m lo n =>
    .foldl (fun m i => by constructor <;> rfl) _ m
  unfold pairUp
  split
  · exact .refl m
  · split
    · simp only
      split
      · exact (((Fixed.setFoundPid m _ _).trans (hmove _ _ _ _)).trans (.setNFound _ _)).trans
          (Mod.appendFound_fixed _ _ _)
      · exact Mod.appendFound_fixed _ _ m
    · split
      · exact (((hmove m _ _ _).trans (hfill _ _ _)).trans (.setFoundPid _ _ _)).trans
          (.setNFound _ _)
      · exact (Fixed.setFoundPid m _ _).trans (.setNFound _ _)

section

variable {P : Platform} {σ : Sys}

theorem Held.setQuota {m m' : Mod} (h : Held m m') (s : Spare) (n : Int) :
    Held m (m'.setQuota s n) := by
  refine ⟨?_, ?_, fun tier => ?_⟩
  · rw [← h.taskItems]
    cases s <;> rfl
  · rw [← h.nPids]
    cases s <;> rfl
  · have := h.hand tier
    cases s <;> cases tier <;> exact this

theorem walkTier_held (π : Policy P) (h : ∀ tier, σ.mod.lastPid tier < σ.mod.nPids) :
    Held σ.mod (walkTier π.callback π.tier σ).mod := by
  obtain ⟨hitems, hpids, hlast, hother⟩ := walkTier_registry π.quiet π.tier (h π.tier)
  refine ⟨hitems, hpids, fun tier => ?_⟩
  rw [hpids]
  by_cases htier : tier = π.tier
  · exact htier ▸ hlast
  · rw [hother tier htier]
    exact h tier

/-- A state after a walk or two: the pid tables and the registry of the one before. -/
structure WalkedFrom (σ σ' : Sys) : Prop where
  kernel : σ'.kernel = σ.kernel
  held : Held σ.mod σ'.mod

theorem WalkedFrom.registered (h : WalkedFrom σ σ') (hreg : Registered σ) : Registered σ' :=
  hreg.held h.kernel h.held.taskItems h.held.nPids h.held.hand

theorem memWalk_walked (n : Int) (mode : FindMode)
    (h : ∀ tier, σ.mod.lastPid tier < σ.mod.nPids) : WalkedFrom σ (memWalk P n mode σ).1 := by
  cases hmode : memWalkPolicy P mode with
  | none =>
    have hops : memWalkOps P mode = none := by
      cases mode <;> simp_all [memWalkPolicy, memWalkOps]
    simp only [memWalk, hops]
    exact ⟨rfl, .refl h⟩
  | some π =>
    obtain ⟨hops, _⟩ := memWalkPolicy_ops hmode
    have hset : Held σ.mod (σ.mod.setQuota .backup n) := (Held.refl h).setQuota .backup n
    have hwalk : Held σ.mod (walkTier π.callback π.tier
        { σ with mod := σ.mod.setQuota .backup n }).mod :=
      hset.trans (walkTier_held π (σ := { σ with mod := σ.mod.setQuota .backup n }) hset.hand)
    have hkernel := walkTier_kernel π.callback π.quiet π.tier
      { σ with mod := σ.mod.setQuota .backup n }
    simp only [memWalk, hops]
    split
    · exact ⟨hkernel, hwalk⟩
    · split
      · exact ⟨hkernel, hwalk.fixed (Mod.appendFound_fixed _ _ _)⟩
      · exact ⟨hkernel, hwalk⟩

theorem switchWalk_walked (n : Int) (h : ∀ tier, σ.mod.lastPid tier < σ.mod.nPids) :
    WalkedFrom σ (switchWalk P n σ).1 := by
  unfold switchWalk
  simp only [pteCallbackNvramSwitch_eq P, pteCallbackMem_eq P]
  have hset : Held σ.mod (σ.mod.setQuota .switchBackup n) := (Held.refl h).setQuota _ n
  have hwalk := hset.trans (walkTier_held (P := P) (nvramSwitchPolicy P)
    (σ := { σ with mod := σ.mod.setQuota .switchBackup n }) hset.hand)
  have hkernel := walkTier_kernel (nvramSwitchPolicy P).callback (nvramSwitchPolicy P).quiet .nvram
    { σ with mod := σ.mod.setQuota .switchBackup n }
  change Held σ.mod (walkTier (nvramSwitchPolicy P).callback .nvram _).mod at hwalk
  generalize walkTier (nvramSwitchPolicy P).callback .nvram
    { σ with mod := σ.mod.setQuota .switchBackup n } = σ₁ at hwalk hkernel
  have hsep := hwalk.fixed (Fixed.setFoundPid σ₁.mod σ₁.mod.nFound 0)
  split
  · exact ⟨hkernel, hsep.fixed (.setNFound _ _)⟩
  · have hnext := ((hsep.fixed (.setNFound _ ((σ₁.mod.setFoundPid σ₁.mod.nFound 0).nFound + 1))).setQuota
      .backup (((σ₁.mod.setFoundPid σ₁.mod.nFound 0).setNFound
        ((σ₁.mod.setFoundPid σ₁.mod.nFound 0).nFound + 1)).nFound +
          intMin (((σ₁.mod.setFoundPid σ₁.mod.nFound 0).nFound : Int) +
            (σ₁.mod.setFoundPid σ₁.mod.nFound 0).nSwitchBackup) n))
    have hwalk₂ := hnext.trans (walkTier_held (P := P) (memPolicy P) (σ := { σ₁ with mod := _ })
      hnext.hand)
    exact ⟨(walkTier_kernel _ (memPolicy P).quiet .dram _).trans hkernel,
      hwalk₂.fixed (pairUp_fixed _ _ _)⟩

/-- `pte_callback_nvram_clear` writes no global at all. -/
theorem pteCallbackNvramClear_mod (P : Platform) (ptep : Option Pte) (addr : Nat) (m : Mod) :
    (pteCallbackNvramClear P ptep addr m).mod = m := by
  unfold pteCallbackNvramClear
  split
  · rfl
  · split <;> rfl

theorem clear_quiet (P : Platform) : Quiet (pteCallbackNvramClear P) where
  fixed ptep addr m := by rw [pteCallbackNvramClear_mod]; exact .refl m
  currPid ptep addr m := by rw [pteCallbackNvramClear_mod]

theorem clearTasks_walked (is : List Nat) (h : ∀ tier, σ.mod.lastPid tier < σ.mod.nPids) :
    WalkedFrom σ (clearTasks P is σ).1 := by
  have hall : ∀ (is : List Nat) (σ : Sys),
      (clearTasks P is σ).1.kernel = σ.kernel ∧ Fixed σ.mod (clearTasks P is σ).1.mod := by
    intro is
    induction is with
    | nil => exact fun σ => ⟨rfl, .refl _⟩
    | cons i is ih =>
      intro σ
      unfold clearTasks
      split
      · exact ⟨rfl, .refl _⟩
      · obtain ⟨h1, h2⟩ := ih (walkTask (pteCallbackNvramClear P) i 0 maxAddress σ)
        exact ⟨h1.trans (walkTask_kernel _ _ _ _ _),
          (walkTask_fixed (clear_quiet P) _ _ _ _).trans h2⟩
  obtain ⟨h1, h2⟩ := hall is σ
  exact ⟨h1, (Held.refl h).fixed h2⟩

end

/-! ## Requests -/

/-- Everything `refresh_pids`, BIND and UNBIND leave alone. -/
structure SameWork (m m' : Mod) : Prop where
  foundAddrs : m'.foundAddrs = m.foundAddrs
  nToFind : m'.nToFind = m.nToFind
  nFound : m'.nFound = m.nFound
  nBackup : m'.nBackup = m.nBackup
  nSwitchBackup : m'.nSwitchBackup = m.nSwitchBackup
  owner : m'.owner = m.owner
  trace : m'.trace = m.trace

theorem SameWork.refl (m : Mod) : SameWork m m := ⟨rfl, rfl, rfl, rfl, rfl, rfl, rfl⟩

theorem SameWork.trans {m m' m'' : Mod} (h : SameWork m m') (h' : SameWork m' m'') :
    SameWork m m'' :=
  ⟨h'.1.trans h.1, h'.2.trans h.2, h'.3.trans h.3, h'.4.trans h.4, h'.5.trans h.5,
    h'.6.trans h.6, h'.7.trans h.7⟩

theorem updatePidList_work (i : Nat) (m : Mod) : SameWork m (updatePidList i m) := by
  have hadjust : ∀ tier (m : Mod), SameWork m (adjustHand tier i m) := by
    intro tier m
    unfold adjustHand
    split
    · cases tier <;> constructor <;> rfl
    · split
      · simp only
        split <;> cases tier <;> constructor <;> rfl
      · exact .refl m
  have h := (hadjust .dram m).trans (hadjust .nvram _)
  exact ⟨h.1, h.2, h.3, h.4, h.5, h.6, h.7⟩

theorem refreshPids_work (k : Kernel) (m : Mod) : SameWork m (refreshPids k m) := by
  have hloop : ∀ fuel i m, SameWork m (refreshLoop k fuel i m) := by
    intro fuel
    induction fuel with
    | zero => exact fun _ m => .refl m
    | succ fuel ih =>
      intro i m
      unfold refreshLoop
      split
      · split
        · exact (updatePidList_work i m).trans (ih _ _)
        · split
          · exact (updatePidList_work i m).trans (ih _ _)
          · exact SameWork.trans (by constructor <;> rfl) (ih _ _)
      · exact .refl m
  exact hloop _ _ m

theorem Mod.reply_pushRetval (ret : Int) (m : Mod) :
    (m.pushRetval ret).reply = m.reply ++ [{ m.foundAddrs m.nFound with pidRetval := ret }] := by
  have hend := Arr.slice_set_end m.foundAddrs 0 m.nFound
    { m.foundAddrs m.nFound with pidRetval := ret }
  simpa [Mod.reply, Mod.pushRetval] using hend

/-- `process_req` up to its `switch`: `n_found = 0`. -/
def Sys.begun (σ : Sys) : Sys := { σ with mod := { σ.mod with nFound := 0, trace := [] } }

/-- The state in which a FIND or BIND goes on after `refresh_pids`. -/
def Sys.refreshed (σ : Sys) : Sys :=
  { σ.begun with mod := refreshPids σ.kernel σ.begun.mod }

section

variable {P : Platform} {σ : Sys}

theorem Registered.begun (h : Registered σ) : Registered σ.begun :=
  ⟨h.small, h.live, h.distinct, h.hand⟩

theorem Registered.refreshed (h : Registered σ) : Registered σ.refreshed := by
  obtain ⟨hf, ha⟩ := refreshPids_follows σ.kernel h.begun.anchored
  exact h.begun.follows hf ha

@[simp] theorem Sys.refreshed_nFound (σ : Sys) : σ.refreshed.mod.nFound = 0 :=
  (refreshPids_work σ.kernel σ.begun.mod).nFound

@[simp] theorem Sys.refreshed_trace (σ : Sys) : σ.refreshed.mod.trace = [] :=
  (refreshPids_work σ.kernel σ.begun.mod).trace

@[simp] theorem Sys.begun_kernel (σ : Sys) : σ.begun.kernel = σ.kernel := rfl

@[simp] theorem Sys.refreshed_kernel (σ : Sys) : σ.refreshed.kernel = σ.kernel := rfl

@[simp] theorem Sys.refreshed_mm (σ : Sys) : σ.refreshed.mm = σ.mm := rfl

/-- A FIND either does not walk or walks from the state it found. -/
theorem processFind_walked (req : Req) (h : Registered σ) :
    (processFind P req σ).1 = σ ∨ WalkedFrom σ (processFind P req σ).1 := by
  unfold processFind
  split
  · rename_i hpos
    have hlast := h.lastPid_lt hpos
    split
    · exact Or.inl rfl
    · exact Or.inr (clearTasks_walked _ hlast)
    · exact Or.inr (switchWalk_walked _ hlast)
    · exact Or.inr (memWalk_walked _ _ hlast)
  · exact Or.inl rfl

theorem processFind_registered (req : Req) (h : Registered σ) :
    Registered (processFind P req σ).1 := by
  rcases processFind_walked (P := P) req h with hsame | hwalk
  · exact hsame.symm ▸ h
  · exact hwalk.registered h

theorem processFind_tasks (req : Req) (h : Registered σ) :
    (processFind P req σ).1.mod.tasks = σ.mod.tasks := by
  rcases processFind_walked (P := P) req h with hsame | hwalk
  · rw [hsame]
  · rw [Mod.tasks, Mod.tasks, hwalk.held.taskItems, hwalk.held.nPids]

theorem bindPid_registered (h : Registered σ) (pid : Int) (hpid : pid ≤ maxPidN) :
    Registered { σ with mod := (bindPid σ.kernel pid σ.mod).1 } := by
  by_cases hb : ∃ t, Bindable σ.kernel σ.mod pid t
  · obtain ⟨t, hb⟩ := hb
    obtain ⟨_, htasks, hlast, _⟩ := bindPid_of_bindable h.ne_null hpid hb
    exact h.append hb htasks hlast
  · obtain ⟨_, hf, ha⟩ := bindPid_of_not h.anchored h.ne_null hpid fun t ht => hb ⟨t, ht⟩
    exact h.follows hf ha

theorem unbindPid_registered (h : Registered σ) (pid : Int) (hpid : pid ≤ maxPidN) :
    Registered { σ with mod := (unbindPid σ.kernel pid σ.mod).1 } := by
  by_cases hl : 0 < pid ∧ pid ∈ σ.mod.tasks.map σ.kernel.pidOf
  · obtain ⟨_, hf, ha⟩ := unbindPid_of_listed h.anchored h.ne_null h.distinct hl.1 hpid hl.2
    exact h.follows hf ha
  · rw [unbindPid_of_not h.ne_null hl]
    exact h

theorem processBody_registered (req : Option Req) (h : Registered σ) :
    Registered (processBody P req σ).1 := by
  have hb := h.begun
  cases req with
  | none => exact hb
  | some req =>
    simp only [processBody]
    split
    · exact hb
    · exact processFind_registered req h.refreshed
    · exact bindPid_registered h.refreshed _ req.pidN_le
    · have hu := unbindPid_registered hb req.pidN.toInt req.pidN_le
      obtain ⟨hf, ha⟩ := refreshPids_follows σ.kernel hu.anchored
      exact hu.follows hf ha

theorem processReq_registered (req : Option Req) (h : Registered σ) :
    Registered (processReq P req σ).sys := by
  have hbody := processBody_registered (P := P) req h
  unfold processReq
  simp only
  split
  · exact ⟨hbody.small, hbody.live, hbody.distinct, hbody.hand⟩
  · exact hbody

/-- **The registry is well-formed in every reachable state.** -/
theorem registered_invariant (P : Platform) : (hyb P).Invariant Registered := by
  refine TSys.Inductive.invariant ⟨?_, ?_⟩
  · intro σ hloaded
    refine .of_listed (.loaded hloaded) ?_
    obtain ⟨found, backup, switchBackup, tasks, owner, hmod⟩ := hloaded
    rw [hmod]
    exact Nat.zero_le _
  · rintro σ σ' hreg (henv | ⟨req, rfl⟩)
    · exact hreg.env henv
    · exact processReq_registered req hreg

end

end Ambix.Hyb
