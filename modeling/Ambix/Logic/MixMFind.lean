import Ambix.Logic.MixMCallbacks
import Ambix.Logic.MixMRegistry

/-!
# When a MixM request comes back

The requests that fault are those whose walks come to a process without an address space.
A switch starts its second walk with a smaller quota, but only where every listed process
has an address space.
-/

namespace Ambix.MixM

open Ambix.Lib Ambix.Hyb

/-! ## Walks that come back -/

section

variable {cb : PteEntry} {takes : Pte → Bool} {tier : Tier} {s s' : State}

/-- The count of a walk that comes back. It stops in between only when the quota is met,
and otherwise has found an address space everywhere. -/
theorem walkStretches_count (h : Takes cb takes) {xs : List Stretch} {r : Option Nat}
    (hok : walkStretches cb xs s = .ok (s', r)) :
    (∃ n, s'.sys.mod.nFound = fill s.sys.mod.nToFind s.sys.mod.nFound n) ∧
      (r ≠ none → s.sys.mod.nToFind ≤ s'.sys.mod.nFound) ∧
      (r = none → ∀ x ∈ xs, s.sys.mm (s.sys.mod.taskItems x.index) ≠ none) := by
  induction xs generalizing s with
  | nil =>
    obtain ⟨rfl, rfl⟩ := Prod.mk.inj (Except.ok.inj hok)
    exact ⟨⟨0, fill_zero.symm⟩, fun hne => absurd rfl hne, fun _ x hx => absurd hx (by simp)⟩
  | cons x xs ih =>
    obtain ⟨s₁, hone, hrest⟩ := bind_eq_ok.mp hok
    -- a stretch that came back had an address space
    have hmm : s.sys.mm (s.sys.mod.taskItems x.index) ≠ none := by
      intro hnone
      exact not_faults_iff.mpr ⟨s₁, hone⟩ (walkTask_faults hnone _ _)
    rw [walkTask_ok hmm] at hone
    obtain rfl := Except.ok.inj hone
    have hfixed := walkTask_fixed h.quiet x.index x.start x.stop s.sys
    have hfound := walkTask_taken h x s.sys
    simp only at hrest
    split at hrest
    · rename_i hmet
      obtain ⟨rfl, rfl⟩ := Prod.mk.inj (Except.ok.inj hrest)
      refine ⟨⟨_, hfound⟩, fun _ => ?_, fun hc => by simp at hc⟩
      rw [← hfixed.nToFind]
      exact hmet
    · obtain ⟨⟨n, hn⟩, hmet, hthere⟩ := ih hrest
      simp only [hfixed.nToFind, hfixed.taskItems, hfound, fill_fill] at hn hmet hthere
      refine ⟨⟨_, hn⟩, hmet, fun hnone y hy => ?_⟩
      rcases List.mem_cons.mp hy with rfl | hy
      · exact hmm
      · exact fun hc => hthere hnone y hy (walkTask_mm_none.mpr hc)

/-- The loop inside a walk that comes back. -/
theorem walkTier_loop (hq : Quiet cb) (hok : walkTier cb tier s = .ok s') :
    ∃ s₁ r, walkStretches cb (cycle s.sys.mod.nPids (s.sys.mod.lastPid tier)
        (s.sys.mod.lastAddr tier)) s = .ok (s₁, r) ∧
      s' = s₁.setMod (s₁.sys.mod.setLastPid tier (r.getD (s.sys.mod.lastPid tier))) := by
  obtain ⟨⟨s₂, i⟩, hpage, hend⟩ := bind_eq_ok.mp hok
  rw [doPageWalk_eq hq] at hpage
  cases hloop : walkStretches cb (cycle s.sys.mod.nPids (s.sys.mod.lastPid tier)
      (s.sys.mod.lastAddr tier)) s with
  | error e =>
    rw [hloop] at hpage
    simp [Except.map] at hpage
  | ok r =>
    rw [hloop] at hpage
    obtain ⟨rfl, rfl⟩ := Prod.mk.inj (Except.ok.inj hpage)
    exact ⟨r.1, r.2, rfl, (Except.ok.inj hend).symm⟩

theorem setLastPid_nFound (m : Mod) (tier : Tier) (i : Nat) :
    (m.setLastPid tier i).nFound = m.nFound := by cases tier <;> rfl

theorem mem_forward {n i : Nat} (hi : i < n) (lastPid lastAddr : Nat) :
    ∃ x ∈ forward n lastPid lastAddr, x.index = i := by
  unfold forward
  rcases Nat.lt_trichotomy i lastPid with hlt | heq | hgt
  · refine ⟨.whole i, List.mem_cons_of_mem _ (List.mem_append_right _ ?_), rfl⟩
    exact List.mem_map.mpr ⟨i, List.mem_range.mpr hlt, rfl⟩
  · exact ⟨_, List.mem_cons_self, heq.symm⟩
  · refine ⟨.whole i, List.mem_cons_of_mem _ (List.mem_append_left _ ?_), rfl⟩
    exact List.mem_map.mpr ⟨i, List.mem_range'_1.mpr (by omega), rfl⟩

/-- A walk that comes back past a process without an address space has met its quota. -/
theorem walkTier_met (h : Takes cb takes) (hok : walkTier cb tier s = .ok s')
    {i : Nat} (hi : i < s.sys.mod.nPids)
    (hmissing : s.sys.mm (s.sys.mod.taskItems i) = none) :
    s.sys.mod.nToFind ≤ s'.sys.mod.nFound := by
  obtain ⟨s₁, r, hloop, rfl⟩ := walkTier_loop h.quiet hok
  obtain ⟨-, hmet, hthere⟩ := walkStretches_count h hloop
  rw [State.setMod_sys, setLastPid_nFound]
  apply hmet
  intro hnone
  obtain ⟨x, hx, rfl⟩ := mem_forward hi (s.sys.mod.lastPid tier)
    (s.sys.mod.lastAddr tier)
  refine hthere hnone x ?_ hmissing
  rw [cycle_forward]
  exact List.mem_append_left _ hx

theorem walkTier_fill (h : Takes cb takes) (hok : walkTier cb tier s = .ok s') :
    ∃ n, s'.sys.mod.nFound = fill s.sys.mod.nToFind s.sys.mod.nFound n := by
  obtain ⟨s₁, r, hloop, rfl⟩ := walkTier_loop h.quiet hok
  rw [State.setMod_sys, setLastPid_nFound]
  exact (walkStretches_count h hloop).1

/-- With a quota that is exceeded from the start, the walk ends after its first stretch. -/
theorem walkTier_first (h : Takes cb takes) (hok : walkTier cb tier s = .ok s')
    (hover : s.sys.mod.nToFind < s.sys.mod.nFound) :
    s'.sys.mod.nFound = s.sys.mod.nFound + takenOf takes s.sys.mod.taskItems s.sys.mm
      ⟨s.sys.mod.lastPid tier, s.sys.mod.lastAddr tier, maxAddress⟩ := by
  obtain ⟨s₁, r, hloop, rfl⟩ := walkTier_loop h.quiet hok
  rw [State.setMod_sys, setLastPid_nFound]
  obtain ⟨s₂, hone, hrest⟩ := bind_eq_ok.mp hloop
  have hmm : s.sys.mm (s.sys.mod.taskItems (s.sys.mod.lastPid tier)) ≠ none := by
    intro hnone
    exact not_faults_iff.mpr ⟨s₂, hone⟩ (walkTask_faults hnone _ _)
  rw [walkTask_ok hmm] at hone
  obtain rfl := Except.ok.inj hone
  have hfound := walkTask_taken h
    ⟨s.sys.mod.lastPid tier, s.sys.mod.lastAddr tier, maxAddress⟩ s.sys
  have hmet : (Hyb.walkTask cb (s.sys.mod.lastPid tier) (s.sys.mod.lastAddr tier) maxAddress
      s.sys).mod.quotaMet := by
    unfold Mod.quotaMet
    rw [hfound, (walkTask_fixed h.quiet _ _ _ _).nToFind, quota_fill]
    omega
  simp only [if_pos hmet] at hrest
  obtain ⟨rfl, rfl⟩ := Prod.mk.inj (Except.ok.inj hrest)
  rw [hfound, fill, if_pos hover]

end

/-! ## Requests that fault -/

/-- A walk with the callback of a mode comes to a process without an address space, from
the hand of a tier and for `n` pages. -/
def WalkMeets (P : Platform) (mode : FindMode) (tier : Tier) (n : Int) (σ : Sys) : Prop :=
  ComesToMissing (takesOf P mode) σ.mod.taskItems σ.mm
    (forward σ.mod.nPids (σ.mod.lastPid tier) (σ.mod.lastAddr tier)) n

/-- What a view with the address and the taken pages shows of a stretch. -/
theorem takenOf_view {takes : Pte → Bool} {items : Arr TaskPtr}
    {mm mm' : TaskPtr → Option MmStruct}
    (h : tableView (fun e => (e.addr, takes e.pte)) mm' =
      tableView (fun e => (e.addr, takes e.pte)) mm) (x : Stretch) :
    takenOf takes items mm' x = takenOf takes items mm x := by
  have hview (mm : TaskPtr → Option MmStruct) : takenOf takes items mm x =
      ((tableView (fun e => (e.addr, takes e.pte)) mm (items x.index)).map fun bs =>
        (bs.filter fun b => decide (x.start ≤ b.1 ∧ b.1 < x.stop)).countP Prod.snd).getD 0 := by
    unfold takenOf tableView
    cases mm (items x.index) with
    | none => rfl
    | some a =>
      simp only [Option.map_some, Option.getD_some, List.filter_map, List.countP_map]
      rfl
  rw [hview, hview, h]

theorem view_none {β : Type*} {g : PageEntry → β} {mm mm' : TaskPtr → Option MmStruct}
    (h : tableView g mm' = tableView g mm) (t : TaskPtr) : mm' t = none ↔ mm t = none := by
  have ht := congrFun h t
  unfold tableView at ht
  rw [← Option.map_eq_none_iff (f := fun a : MmStruct => a.ptes.map g), ht,
    Option.map_eq_none_iff]

/-- Where a walk comes to depends on the pages its callback takes. -/
theorem comesToMissing_view {takes : Pte → Bool} {items : Arr TaskPtr}
    {mm mm' : TaskPtr → Option MmStruct}
    (h : tableView (fun e => (e.addr, takes e.pte)) mm' =
      tableView (fun e => (e.addr, takes e.pte)) mm) (xs : List Stretch) (n : Int) :
    ComesToMissing takes items mm' xs n ↔ ComesToMissing takes items mm xs n := by
  have hbefore (k : Nat) : takenBefore takes items mm' xs k = takenBefore takes items mm xs k := by
    unfold takenBefore
    congr 1
    exact List.map_congr_left fun x _ => takenOf_view h x
  unfold ComesToMissing
  simp only [hbefore, view_none h]

theorem anchored_setQuota {m : Mod} (hm : Anchored m) (spare : Spare) (n : Int) :
    Anchored (m.setQuota spare n) := by
  refine ⟨?_, fun tier => ?_⟩
  · cases spare <;> exact hm.nodup
  · have hhand := hm.hand tier
    cases spare <;> cases tier <;> exact hhand

section

variable {P : Platform} {s : State}

/-- **`mem_walk`** faults where its walk does. -/
theorem memWalk_faults_iff {mode : FindMode} {cb : PteEntry} {tier : Tier}
    (hops : memWalkOps P mode = some (cb, tier)) (hm : Anchored s.sys.mod)
    (hlast : s.sys.mod.lastPid tier < s.sys.mod.nPids) (hfound : s.sys.mod.nFound = 0) (n : Int) :
    Faults (memWalk P n mode s) ↔ WalkMeets P mode tier n s.sys := by
  have hset := anchored_setQuota hm .backup n
  have hwalk : Faults (walkTier cb tier (s.setMod (s.sys.mod.setQuota .backup n))) ↔
      WalkMeets P mode tier n s.sys := by
    rw [walkTier_faults_iff (counting_takes (memWalkOps_counting hops)) tier hset
      (by cases tier <;> exact hlast)]
    unfold WalkMeets
    simp only [State.setMod_sys, Mod.setQuota, hfound, Int.natCast_zero, Int.sub_zero]
    cases tier <;> rfl
  rw [← hwalk]
  unfold memWalk
  rw [hops]
  show Faults ((walkTier cb tier _).bind _) ↔ _
  rw [faults_bind, or_iff_left]
  rintro ⟨s', -, hc⟩
  simp only at hc
  split at hc
  · exact not_faults_ok _ hc
  · split at hc <;> exact not_faults_ok _ hc

/-- **`clear_walk`** faults when some process has no address space. -/
theorem clearTasks_faults_iff (is : List Nat) {s : State} :
    Faults (clearTasks P is s) ↔ ∃ i ∈ is, s.sys.mm (s.sys.mod.taskItems i) = none := by
  induction is generalizing s with
  | nil => simp [clearTasks]
  | cons i is ih =>
    cases hmm : s.sys.mm (s.sys.mod.taskItems i) with
    | none =>
      refine iff_of_true ?_ ⟨i, List.mem_cons_self, hmm⟩
      unfold clearTasks
      simp only [hmm]
      exact faults_error _
    | some a =>
      have hne : s.sys.mm (s.sys.mod.taskItems i) ≠ none := by
        rw [hmm]
        simp
      unfold clearTasks
      simp only [hmm]
      show Faults ((walkTask _ i 0 maxAddress s).bind _) ↔ _
      rw [walkTask_ok hne, ok_bind, ih]
      simp only [walkTask_mm_none,
        (walkTask_fixed (clear_quiet P) i 0 maxAddress s.sys).taskItems, List.exists_mem_cons_iff]
      rw [or_iff_right hne]

/-- The NVRAM walk of a switch. -/
def switchFirst (P : Platform) (n : Int) (s : State) : Except State State :=
  walkTier (pteCallbackNvramSwitch P) .nvram (s.setMod (s.sys.mod.setQuota .switchBackup n))

/-- What it leaves to the DRAM walk. -/
theorem switchFirst_leaves (hm : Anchored s.sys.mod)
    (hlast : ∀ tier, s.sys.mod.lastPid tier < s.sys.mod.nPids) {n : Int} {s₁ : State}
    (hok : switchFirst P n s = .ok s₁) :
    Anchored s₁.sys.mod ∧ s₁.sys.mod.lastPid .dram < s₁.sys.mod.nPids ∧
      ∀ q, WalkMeets P .dram .dram q s₁.sys ↔ WalkMeets P .dram .dram q s.sys := by
  have hcount := switch_counting P
  have hsys := walkTier_hyb hcount.quiet hok
  obtain ⟨hitems, hpids, hnvram, hother⟩ := walkTier_registry hcount.quiet .nvram
    (σ := { s.sys with mod := s.sys.mod.setQuota .switchBackup n }) (hlast .nvram)
  have hdram := hother .dram (by simp)
  have haddr : (Hyb.walkTier (pteCallbackNvramSwitch P) .nvram
      { s.sys with mod := s.sys.mod.setQuota .switchBackup n }).mod.lastAddr .dram =
        s.sys.mod.lastAddr .dram := by
    refine walkTier_holds (I := fun m => m.lastAddr .dram = s.sys.mod.lastAddr .dram)
      (hcount.rule _ _ ?_ ?_ ?_ ?_ ?_) (hlast .nvram) (fun _ _ h => h) rfl
    · exact fun _ _ h => h
    · exact fun _ _ _ h => h
    · exact fun _ _ h => h
    · exact fun _ _ h => h
    · exact fun _ _ _ h => h
  -- the first walk resets pages, but none that decides what the second one takes
  have hview := hcount.view (g := fun e => (e.addr, takesOf P .dram e.pte)) (fun _ => rfl) .nvram
    { s.sys with mod := s.sys.mod.setQuota .switchBackup n }
  rw [State.setMod_sys] at hsys
  rw [← hsys] at hitems hpids hnvram hdram haddr hview
  change s₁.sys.mod.taskItems = s.sys.mod.taskItems at hitems
  change s₁.sys.mod.nPids = s.sys.mod.nPids at hpids
  change s₁.sys.mod.lastPid .dram = s.sys.mod.lastPid .dram at hdram
  refine ⟨⟨?_, fun tier => .inl ?_⟩, ?_, fun q => ?_⟩
  · rw [Mod.tasks, hitems, hpids]
    exact hm.nodup
  · rw [hpids]
    cases tier with
    | dram =>
      rw [hdram]
      exact hlast .dram
    | nvram => exact hnvram
  · rw [hpids, hdram]
    exact hlast .dram
  · unfold WalkMeets
    rw [hitems, hpids, hdram, haddr]
    exact comesToMissing_view hview _ _

/-- Where a switch faults, given what its first walk leaves. -/
theorem switchWalk_faults (hm : Anchored s.sys.mod)
    (hlast : ∀ tier, s.sys.mod.lastPid tier < s.sys.mod.nPids) (n : Int) :
    Faults (switchWalk P n s) ↔ Faults (switchFirst P n s) ∨
      ∃ s₁, switchFirst P n s = .ok s₁ ∧
        ¬(s₁.sys.mod.nFound = 0 ∧ s₁.sys.mod.nSwitchBackup = 0) ∧
        WalkMeets P .dram .dram
          (intMin (s₁.sys.mod.nFound + s₁.sys.mod.nSwitchBackup) n) s.sys := by
  show Faults ((switchFirst P n s).bind _) ↔ _
  rw [faults_bind]
  refine or_congr_right (exists_congr fun s₁ => and_congr_right fun hok => ?_)
  obtain ⟨hm₁, hlast₁, hmeets⟩ := switchFirst_leaves hm hlast hok
  show Faults (if s₁.sys.mod.nFound = 0 ∧ s₁.sys.mod.nSwitchBackup = 0 then .ok _
    else (walkTier (pteCallbackMem P) .dram _).bind _) ↔ _
  by_cases hnone : s₁.sys.mod.nFound = 0 ∧ s₁.sys.mod.nSwitchBackup = 0
  · rw [if_pos hnone]
    exact iff_of_false (not_faults_ok _) fun hc => hc.1 hnone
  · -- only the DRAM walk can fault from here on
    rw [if_neg hnone, and_iff_right hnone, ← hmeets]
    rw [faults_bind, or_iff_left (by rintro ⟨s₂, -, hc⟩; exact not_faults_ok _ hc)]
    have hset := anchored_setQuota (m := (s₁.sys.mod.setFoundPid s₁.sys.mod.nFound 0).setNFound
      (s₁.sys.mod.nFound + 1)) ⟨hm₁.nodup, hm₁.hand⟩ .backup
      ((s₁.sys.mod.nFound + 1 : Nat) + intMin (s₁.sys.mod.nFound + s₁.sys.mod.nSwitchBackup) n)
    have hwalk := walkTier_faults_iff (counting_takes (mem_counting P)) .dram (s := s₁.setMod
      (((s₁.sys.mod.setFoundPid s₁.sys.mod.nFound 0).setNFound (s₁.sys.mod.nFound + 1)).setQuota
        .backup ((s₁.sys.mod.nFound + 1 : Nat) +
          intMin (s₁.sys.mod.nFound + s₁.sys.mod.nSwitchBackup) n))) hset hlast₁
    refine hwalk.trans ?_
    unfold WalkMeets
    have hquota : ((s₁.sys.mod.nFound + 1 : Nat) +
        intMin (s₁.sys.mod.nFound + s₁.sys.mod.nSwitchBackup) n) - (s₁.sys.mod.nFound + 1 : Nat) =
          intMin (s₁.sys.mod.nFound + s₁.sys.mod.nSwitchBackup) n := by omega
    show ComesToMissing _ s₁.sys.mod.taskItems s₁.sys.mm _
      (((s₁.sys.mod.nFound + 1 : Nat) +
        intMin (s₁.sys.mod.nFound + s₁.sys.mod.nSwitchBackup) n) - (s₁.sys.mod.nFound + 1 : Nat)) ↔ _
    rw [hquota]
    exact Iff.rfl

/-- For no pages, the first walk of a switch that takes no primary takes no backup. -/
theorem switchFirst_nothing (hlast : s.sys.mod.lastPid .nvram < s.sys.mod.nPids) {n : Int}
    (hlow : -2147483648 ≤ n) (hn : n ≤ 0) {s₁ : State} (hok : switchFirst P n s = .ok s₁)
    (hfound : s₁.sys.mod.nFound = 0) : s₁.sys.mod.nSwitchBackup = 0 := by
  let I : Mod → Prop := fun m => m.nToFind = n ∧ (m.nFound = 0 → m.nSwitchBackup = 0)
  suffices h : I s₁.sys.mod from h.2 hfound
  rw [walkTier_hyb (switch_counting P).quiet hok]
  refine walkTier_holds (I := I) ((switch_counting P).rule _ _ ?_ ?_ ?_ ?_ ?_) hlast
    (fun _ _ h => h) ⟨rfl, fun _ => rfl⟩
  · exact fun _ _ h => h
  · exact fun _ _ _ h => h
  · exact fun _ _ h => h
  · exact fun m x h => ⟨h.1, fun hc => absurd hc (Nat.succ_ne_zero m.nFound)⟩
  · rintro m x hroom ⟨hquota, -⟩
    refine ⟨hquota, fun hzero => ?_⟩
    -- no room is left below a quota of zero or less
    change m.nFound = 0 at hzero
    unfold Mod.spareOpen Mod.quotaLeft at hroom
    rw [hquota, hzero, Int.natCast_zero, Int.sub_zero, wrapInt_of_mem hlow (by omega)] at hroom
    omega

theorem WalkMeets.listed {mode : FindMode} {tier : Tier} {n : Int} {σ : Sys}
    (h : WalkMeets P mode tier n σ) (hlast : σ.mod.lastPid tier < σ.mod.nPids) :
    ∃ i < σ.mod.nPids, σ.mm (σ.mod.taskItems i) = none := by
  obtain ⟨k, x, hx, hmm, -⟩ := h
  refine ⟨x.index, ?_, hmm⟩
  have hmem := List.mem_of_getElem? hx
  simp only [forward, List.mem_cons, List.mem_append, List.mem_map, List.mem_range'_1,
    List.mem_range] at hmem
  rcases hmem with rfl | ⟨i, hi, rfl⟩ | ⟨i, hi, rfl⟩
  · exact hlast
  · show i < _
    omega
  · exact Nat.lt_trans hi hlast

/-- A switch for `n` pages has something to pair after a first walk that met its quota. -/
def PairsSome (P : Platform) (n : Int) (σ : Sys) : Prop :=
  0 < n ∨ (n < 0 ∧ 0 < takenOf (takesOf P .switch) σ.mod.taskItems σ.mm
    ⟨σ.mod.lastPid .nvram, σ.mod.lastAddr .nvram, maxAddress⟩)

/-- The first walk of a switch, where some listed process has no address space. -/
theorem switchFirst_pairs (hlast : s.sys.mod.lastPid .nvram < s.sys.mod.nPids)
    (hfound : s.sys.mod.nFound = 0) {n : Int} (hlow : -2147483648 ≤ n)
    (hmissing : ∃ i < s.sys.mod.nPids, s.sys.mm (s.sys.mod.taskItems i) = none) {s₁ : State}
    (hok : switchFirst P n s = .ok s₁) :
    intMin (s₁.sys.mod.nFound + s₁.sys.mod.nSwitchBackup) n = n ∧
      (¬(s₁.sys.mod.nFound = 0 ∧ s₁.sys.mod.nSwitchBackup = 0) ↔ PairsSome P n s.sys) := by
  have htakes := counting_takes (switch_counting P)
  have hstart : (s.setMod (s.sys.mod.setQuota .switchBackup n)).sys.mod.nFound = 0 := hfound
  obtain ⟨i, hi, hmm⟩ := hmissing
  -- the walk came back, so it stopped before the process without an address space
  have hmet : n ≤ s₁.sys.mod.nFound := walkTier_met htakes hok hi hmm
  refine ⟨by rw [intMin_eq_min]; omega, ?_⟩
  unfold PairsSome
  rcases Int.lt_trichotomy n 0 with hneg | rfl | hpos
  · -- a negative count is met at once, after the hand's stretch
    have hover : (s.setMod (s.sys.mod.setQuota .switchBackup n)).sys.mod.nToFind <
        (s.setMod (s.sys.mod.setQuota .switchBackup n)).sys.mod.nFound := by
      rw [hstart]
      exact hneg
    have hv := walkTier_first htakes hok hover
    rw [hstart, Nat.zero_add] at hv
    change s₁.sys.mod.nFound = takenOf (takesOf P .switch) s.sys.mod.taskItems s.sys.mm
      ⟨s.sys.mod.lastPid .nvram, s.sys.mod.lastAddr .nvram, maxAddress⟩ at hv
    rw [← hv]
    constructor
    · intro hsome
      refine .inr ⟨hneg, Nat.pos_of_ne_zero fun hzero => hsome ⟨hzero, ?_⟩⟩
      exact switchFirst_nothing hlast hlow (Int.le_of_lt hneg) hok hzero
    · rintro (hpos | ⟨-, hv⟩) ⟨hzero, -⟩
      · omega
      · omega
  · obtain ⟨k, hfill⟩ := walkTier_fill htakes hok
    have hfull : ((s.setMod (s.sys.mod.setQuota .switchBackup 0)).sys.mod.nFound : Int) =
        (s.setMod (s.sys.mod.setQuota .switchBackup 0)).sys.mod.nToFind := by
      rw [hstart]
      rfl
    rw [fill_full hfull, hstart] at hfill
    have hspare := switchFirst_nothing hlast hlow (Int.le_refl 0) hok hfill
    simp [hfill, hspare]
  · refine iff_of_true (fun hc => ?_) (.inl hpos)
    omega

/-- **`switch_walk`** faults where its first walk does, or where a walk from the DRAM hand
for the same count does and the first walk leaves something to pair. -/
theorem switchWalk_faults_iff (hm : Anchored s.sys.mod)
    (hlast : ∀ tier, s.sys.mod.lastPid tier < s.sys.mod.nPids) (hfound : s.sys.mod.nFound = 0)
    {n : Int} (hlow : -2147483648 ≤ n) :
    Faults (switchWalk P n s) ↔ WalkMeets P .switch .nvram n s.sys ∨
      (PairsSome P n s.sys ∧ WalkMeets P .dram .dram n s.sys) := by
  have hfirst : Faults (switchFirst P n s) ↔ WalkMeets P .switch .nvram n s.sys := by
    have hwalk := walkTier_faults_iff (counting_takes (switch_counting P)) .nvram
      (s := s.setMod (s.sys.mod.setQuota .switchBackup n)) (anchored_setQuota hm .switchBackup n)
      (hlast .nvram)
    refine hwalk.trans ?_
    unfold WalkMeets
    simp only [State.setMod_sys, Mod.setQuota, hfound, Int.natCast_zero, Int.sub_zero]
    rfl
  rw [switchWalk_faults hm hlast, hfirst]
  constructor
  · rintro (hmeets | ⟨s₁, hok, hsome, hmeets⟩)
    · exact .inl hmeets
    · obtain ⟨hquota, hpairs⟩ := switchFirst_pairs (hlast .nvram) hfound hlow
        (hmeets.listed (hlast .dram)) hok
      exact .inr ⟨hpairs.mp hsome, hquota ▸ hmeets⟩
  · rintro (hmeets | ⟨hpairs', hmeets⟩)
    · exact .inl hmeets
    · by_cases hfault : Faults (switchFirst P n s)
      · exact .inl (hfirst.mp hfault)
      · obtain ⟨s₁, hok⟩ := not_faults_iff.mp hfault
        obtain ⟨hquota, hpairs⟩ := switchFirst_pairs (hlast .nvram) hfound hlow
          (hmeets.listed (hlast .dram)) hok
        exact .inr ⟨s₁, hok, hpairs.mpr hpairs', by rw [hquota]; exact hmeets⟩

end

end Ambix.MixM
