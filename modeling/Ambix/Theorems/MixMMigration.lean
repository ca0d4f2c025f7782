import Ambix.Logic.MixMLists
import Ambix.Theorems.Capacity
import Ambix.Theorems.Moved

/-!
# From a page-table entry to a moved page, with the MixM module

Three callbacks of the MixM module take other pages than those of the hyb module, and reset
more of them, also in the first walk of a switch. What a find hands on is sound all the same:
pages of bound processes, on the tier that they leave, and no more than were asked for.
-/

namespace Ambix.MixM

open Ambix.Lib Ambix.Hyb Ambix.Ctl

/-! ## `mem_walk` -/

section

variable {P : Platform} {cb : PteEntry} {tier : Hyb.Tier} {mode : FindMode} {s s' : State} {n ret : Int}

/-- What `mem_walk` leaves: the walk's finds and the first of its backups. -/
theorem memWalk_ok (hops : memWalkOps P mode = some (cb, tier))
    (hok : memWalk P n mode s = .ok (s', ret)) :
    ∃ s₁ c, walkTier cb tier (s.setMod (s.sys.mod.setQuota .backup n)) = .ok s₁ ∧
      c ≤ s₁.sys.mod.nBackup ∧ c ≤ (s₁.sys.mod.nToFind - s₁.sys.mod.nFound).toNat ∧
      s' = s₁.setMod (s₁.sys.mod.appendFound .backup c) ∧ (ret = 0 ∨ ret = -1) := by
  unfold memWalk at hok
  rw [hops] at hok
  obtain ⟨s₁, hwalk, hrest⟩ := bind_eq_ok.mp hok
  refine ⟨s₁, ?_⟩
  simp only at hrest
  split at hrest
  · obtain ⟨rfl, rfl⟩ := Prod.mk.inj (Except.ok.inj hrest)
    exact ⟨0, hwalk, Nat.zero_le _, Nat.zero_le _, rfl, .inl rfl⟩
  · split at hrest
    · obtain ⟨rfl, hret⟩ := Prod.mk.inj (Except.ok.inj hrest)
      refine ⟨_, hwalk, Nat.min_le_right _ _, Nat.min_le_left _ _, rfl, ?_⟩
      rw [← hret]
      split
      · exact .inl rfl
      · exact .inr rfl
    · obtain ⟨rfl, rfl⟩ := Prod.mk.inj (Except.ok.inj hrest)
      exact ⟨0, hwalk, Nat.zero_le _, Nat.zero_le _, rfl, .inr rfl⟩

/-- **`mem_walk`**: pages of the tier, `n` of them at most. -/
theorem memWalk_sound (hops : memWalkOps P mode = some (cb, tier)) (hn : 0 ≤ n)
    (hfound : s.sys.mod.nFound = 0) (hlast : s.sys.mod.lastPid tier < s.sys.mod.nPids)
    (hok : memWalk P n mode s = .ok (s', ret)) :
    (∀ y ∈ s'.sys.mod.reply, Taken P tier s.sys.kernel s.sys.mod.tasks s.sys.mm y) ∧
      (s'.sys.mod.reply.length : Int) ≤ n ∧ (ret = 0 ∨ ret = -1) := by
  obtain ⟨s₁, c, hwalk, hc, hleft, rfl, hret⟩ := memWalk_ok hops hok
  obtain ⟨hlists, -, hquota, -, hle⟩ := walkTier_lists (memWalkOps_counting hops)
    (memWalkOps_skips hops) (s := s.setMod (s.sys.mod.setQuota .backup n))
    (by cases tier <;> exact hlast) rfl (shownBy_self s.sys) hwalk
  replace hquota : s₁.sys.mod.nToFind = n := hquota
  replace hle : (s₁.sys.mod.nFound : Int) ≤ n := by
    refine hle ?_
    show (s.sys.mod.nFound : Int) ≤ n
    rw [hfound]
    exact hn
  have hlen : (s₁.sys.mod.appendFound .backup c).reply.length = s₁.sys.mod.nFound + c := by
    rw [Mod.reply, Arr.length_slice, Mod.nFound_appendFound]
  simp only [State.setMod_sys]
  rw [hlen]
  refine ⟨fun y hy => ?_, by omega, hret⟩
  rw [Mod.reply, Mod.nFound_appendFound, Mod.appendFound_slice _ _ _ (Nat.zero_add _),
    List.mem_append] at hy
  rcases hy with hy | hy
  · obtain ⟨i, hi, rfl⟩ := Arr.mem_slice.mp hy
    rw [Nat.zero_add]
    refine hlists.found i ?_ hi
    show s.sys.mod.nFound ≤ i
    rw [hfound]
    exact Nat.zero_le i
  · obtain ⟨i, hi, rfl⟩ := Arr.mem_slice.mp hy
    rw [Nat.zero_add]
    exact hlists.backup i (Nat.lt_of_lt_of_le hi hc)

/-! ## `switch_walk` -/

/-- A switch after its first walk, with the separator and the second quota in place. -/
def switchBetween (n : Int) (s₁ : State) : State := s₁.setMod (switchMid n s₁.sys).mod

/-- A switch that comes back has found no NVRAM page, or has paired what two walks found. -/
theorem switchWalk_ok (hok : switchWalk P n s = .ok (s', ret)) :
    ∃ s₁, switchFirst P n s = .ok s₁ ∧
      ((s₁.sys.mod.nFound = 0 ∧ ret = -1 ∧
          s' = s₁.setMod ((s₁.sys.mod.setFoundPid s₁.sys.mod.nFound 0).setNFound
            (s₁.sys.mod.nFound + 1))) ∨
        ∃ s₂, walkTier (pteCallbackMem P) .dram (switchBetween n s₁) = .ok s₂ ∧ ret = 0 ∧
          s' = s₂.setMod (pairUp s₁.sys.mod.nFound
            (s₂.sys.mod.nFound - s₁.sys.mod.nFound - 1) s₂.sys.mod)) := by
  obtain ⟨s₁, hfirst, hrest⟩ := bind_eq_ok.mp hok
  refine ⟨s₁, hfirst, ?_⟩
  simp only at hrest
  split at hrest
  · rename_i hnone
    obtain ⟨rfl, rfl⟩ := Prod.mk.inj (Except.ok.inj hrest)
    exact .inl ⟨hnone.1, rfl, rfl⟩
  · obtain ⟨s₂, hsecond, hlast⟩ := bind_eq_ok.mp hrest
    obtain ⟨rfl, rfl⟩ := Prod.mk.inj (Except.ok.inj hlast)
    exact .inr ⟨s₂, hsecond, rfl, rfl⟩

/-- The arrays after both walks: the second has left what the first one found. -/
theorem switch_halves {s₁ s₂ : State} (hlast : s₁.sys.mod.lastPid .dram < s₁.sys.mod.nPids)
    (hsecond : walkTier (pteCallbackMem P) .dram (switchBetween n s₁) = .ok s₂)
    (hmore : s₁.sys.mod.nFound + 1 ≤ s₂.sys.mod.nFound) :
    Halves s₂.sys.mod (s₁.sys.mod.foundAddrs.slice 0 s₁.sys.mod.nFound)
      (s₂.sys.mod.foundAddrs.slice (s₁.sys.mod.nFound + 1)
        (s₂.sys.mod.nFound - s₁.sys.mod.nFound - 1))
      (s₂.sys.mod.backupAddrs.slice 0 s₂.sys.mod.nBackup)
      (s₁.sys.mod.switchBackupAddrs.slice 0 s₁.sys.mod.nSwitchBackup) := by
  obtain ⟨hbelow, hswitch, hnswitch⟩ := walkTier_keeps (mem_counting P)
    (s := switchBetween n s₁) hlast hsecond
  replace hswitch : s₂.sys.mod.switchBackupAddrs = s₁.sys.mod.switchBackupAddrs := hswitch
  replace hnswitch : s₂.sys.mod.nSwitchBackup = s₁.sys.mod.nSwitchBackup := hnswitch
  replace hbelow (i : Nat) (hi : i < s₁.sys.mod.nFound + 1) : s₂.sys.mod.foundAddrs i =
      s₁.sys.mod.foundAddrs.set s₁.sys.mod.nFound
        { s₁.sys.mod.foundAddrs s₁.sys.mod.nFound with pidRetval := 0 } i := hbelow i hi
  refine ⟨?_, ?_, ?_, ?_, ?_, ?_, ?_, ?_⟩
  · simp only [Arr.length_slice]
    omega
  · rw [Arr.length_slice]
    refine Arr.slice_congr fun j hj => ?_
    rw [Nat.zero_add, hbelow j (by omega)]
    exact Arr.set_ne _ _ (Nat.ne_of_lt hj)
  · rw [Arr.length_slice, hbelow _ (Nat.lt_succ_self _), Arr.set_self]
  · rw [Arr.length_slice, Arr.length_slice]
  · rw [Arr.length_slice]
  · rw [Arr.length_slice]
  · rw [hnswitch, Arr.length_slice]
  · rw [hswitch, Arr.length_slice]

/-- Two equally long sections, of pages of either tier. -/
structure Sides (P : Platform) (n : Int) (σ : Sys) (sides : List AddrInfo × List AddrInfo) :
    Prop where
  length : sides.1.length = sides.2.length
  le : (sides.1.length : Int) ≤ n
  nvram : ∀ y ∈ sides.1, Taken P .nvram σ.kernel σ.mod.tasks σ.mm y
  dram : ∀ y ∈ sides.2, Taken P .dram σ.kernel σ.mod.tasks σ.mm y

/-- **`switch_walk`**: a NVRAM section, the separator and a DRAM section as long. -/
theorem switchWalk_sound (h : Listed s.sys) (hpos : 0 < s.sys.mod.nPids)
    (hn : 0 ≤ n) (hfound : s.sys.mod.nFound = 0) (hok : switchWalk P n s = .ok (s', ret)) :
    (∃ sides, Sides P n s.sys sides ∧ Paired s'.sys.mod.reply sides) ∧ (ret = 0 ∨ ret = -1) := by
  have hset := Stays.setQuota h hpos .switchBackup n
  obtain ⟨s₁, hfirst, hends⟩ := switchWalk_ok hok
  have hstays : Stays s s₁ := by
    have hwalk := walkTier_stays (switch_counting P).quiet .nvram hset.listed (hset.nPids ▸ hpos)
    rw [show walkTier _ _ _ = .ok s₁ from hfirst] at hwalk
    exact hset.trans hwalk
  obtain ⟨hlists, hshown, -, -, hle⟩ := walkTier_lists (switch_counting P) (switch_skips P)
    (hset.listed.lastPid_lt (hset.nPids ▸ hpos) .nvram) rfl (shownBy_self s.sys) hfirst
  replace hlists : Lists .switchBackup 0
      (Taken P .nvram s.sys.kernel s.sys.mod.tasks s.sys.mm) s₁.sys.mod := hfound ▸ hlists
  replace hle : (s₁.sys.mod.nFound : Int) ≤ n := by
    refine hle ?_
    show (s.sys.mod.nFound : Int) ≤ n
    rw [hfound]
    exact hn
  rcases hends with ⟨hzero, rfl, rfl⟩ | ⟨s₂, hsecond, rfl, rfl⟩
  · -- no NVRAM page: the separator alone
    refine ⟨⟨([], []), ⟨rfl, hn, by simp, by simp⟩,
      { s₁.sys.mod.foundAddrs 0 with pidRetval := 0 }, rfl, ?_⟩, .inr rfl⟩
    simp [Mod.reply, Mod.setNFound, Mod.setFoundPid, Arr.slice_cons, hzero]
  · have hlast₁ : s₁.sys.mod.lastPid .dram < s₁.sys.mod.nPids :=
      hstays.listed.lastPid_lt (hstays.nPids ▸ hpos) .dram
    obtain ⟨hlists₂, -, -, hmore, hle₂⟩ := walkTier_lists (mem_counting P)
      (memWalkOps_skips (show memWalkOps P .dram = _ from rfl)) (s := switchBetween n s₁) hlast₁
      rfl hshown hsecond
    replace hmore : s₁.sys.mod.nFound + 1 ≤ s₂.sys.mod.nFound := hmore
    replace hlists₂ : Lists .backup (s₁.sys.mod.nFound + 1)
        (Taken P .dram s₁.sys.kernel s₁.sys.mod.tasks s.sys.mm) s₂.sys.mod := hlists₂
    rw [hstays.kernel, hstays.tasks] at hlists₂
    replace hle₂ : ((s₁.sys.mod.nFound + 1 : Nat) : Int) ≤ (s₁.sys.mod.nFound + 1 : Nat) +
          intMin (s₁.sys.mod.nFound + s₁.sys.mod.nSwitchBackup) n →
        (s₂.sys.mod.nFound : Int) ≤ (s₁.sys.mod.nFound + 1 : Nat) +
          intMin (s₁.sys.mod.nFound + s₁.sys.mod.nSwitchBackup) n := hle₂
    rw [intMin_eq_min] at hle₂
    have hhalves := switch_halves hlast₁ hsecond hmore
    have hpaired := pairUp_spec hhalves
    rw [Arr.length_slice, Arr.length_slice] at hpaired
    refine ⟨⟨_, ⟨?_, ?_, fun y hy => ?_, fun y hy => ?_⟩, hpaired⟩, .inl rfl⟩
    · rw [(pairLists_length _ _ _ _).1, (pairLists_length _ _ _ _).2]
    · rw [(pairLists_length _ _ _ _).1, pairSize]
      simp only [Arr.length_slice]
      split <;> omega
    · obtain ⟨hfrom, -⟩ := pairLists_prefix
        (s₁.sys.mod.foundAddrs.slice 0 s₁.sys.mod.nFound) _ _ _
      rcases List.mem_append.mp (hfrom.subset hy) with hy | hy
      · obtain ⟨i, hi, rfl⟩ := Arr.mem_slice.mp hy
        rw [Nat.zero_add]
        exact hlists.found i (Nat.zero_le i) hi
      · obtain ⟨i, hi, rfl⟩ := Arr.mem_slice.mp hy
        rw [Nat.zero_add]
        exact hlists.backup i hi
    · obtain ⟨-, hfrom⟩ := pairLists_prefix
        (s₁.sys.mod.foundAddrs.slice 0 s₁.sys.mod.nFound) _ _ _
      rcases List.mem_append.mp (hfrom.subset hy) with hy | hy
      · obtain ⟨i, hi, rfl⟩ := Arr.mem_slice.mp hy
        exact hlists₂.found _ (Nat.le_add_right _ i) (by omega)
      · obtain ⟨i, hi, rfl⟩ := Arr.mem_slice.mp hy
        rw [Nat.zero_add]
        exact hlists₂.backup i hi

end

/-! ## `clear_walk` -/

section

variable {P : Platform} {s s' : State}

theorem clearPtes_nFound (t : TaskPtr) (start stop : Nat) (es : List PageEntry) (m : Mod) :
    (walkPtes (pteCallbackNvramClear P) t start stop es m).1.nFound = m.nFound := by
  induction es generalizing m with
  | nil => rfl
  | cons e es ih =>
    have hcall : (invoke (pteCallbackNvramClear P) t e m).mod.nFound = m.nFound := by
      unfold invoke
      simp only
      split
      · rw [pteCallbackNvramClear_mod]
        rfl
      · show (pteCallbackNvramClear P _ _ _).mod.nFound = _
        rw [pteCallbackNvramClear_mod]
        rfl
    unfold walkPtes
    split
    · simp only
      split
      · exact hcall
      · rw [ih, hcall]
    · exact ih m

/-- **`clear_walk`** takes no page. -/
theorem clearTasks_nFound {is : List Nat} (hok : clearTasks P is s = .ok s') :
    s'.sys.mod.nFound = s.sys.mod.nFound := by
  induction is generalizing s with
  | nil =>
    obtain rfl := Except.ok.inj hok
    rfl
  | cons i is ih =>
    unfold clearTasks at hok
    split at hok
    · exact absurd hok (by simp)
    · rename_i a hmm
      obtain ⟨s₁, hwalk, hrest⟩ := bind_eq_ok.mp hok
      rw [walkTask_ok (by rw [hmm]; simp)] at hwalk
      obtain rfl := Except.ok.inj hwalk
      rw [ih hrest]
      unfold Hyb.walkTask
      simp only [hmm]
      exact clearPtes_nFound _ _ _ _ _

end

/-! ## A request -/

section

variable {P : Platform} {mode : FindMode} {s s' : State} {req : Req}

/-- A page of the side, as the request found it. -/
theorem Taken.hadPage {tier : Hyb.Tier} {x : Side} (htier : tier.mode = x.mode) {σ : Sys} {y : AddrInfo}
    (h : Taken P tier σ.kernel σ.refreshed.mod.tasks σ.mm y) : HadPage P x σ y.pidRetval y.addr := by
  obtain ⟨t, ht, hpid, p, ⟨a, ha, e, he, hclean⟩, hoff⟩ := h
  rw [htier, ← offTier_of_clean (congrArg PageEntry.pte hclean)] at hoff
  simp only [offTier, Bool.or_eq_false_iff, Bool.not_eq_false'] at hoff
  refine ⟨t, ht, hpid.symm, a, ha, e, he, congrArg PageEntry.addr hclean, hoff.1.1, hoff.1.2, ?_⟩
  cases x with
  | toNvram => exact (contains_dram P _).mp hoff.2
  | toDram => exact (contains_nvram P _).mp hoff.2

theorem hadPage_pid_pos {x : Side} (h : Listed s.sys) {pid : Int} {addr : Nat}
    (hhad : HadPage P x s.sys pid addr) : 0 < pid := by
  obtain ⟨t, ht, hpid, -⟩ := hhad
  rw [← hpid]
  exact ((Listed.refreshed h).live t ht).2

/-- A FIND replies with what its walk leaves and the return code. -/
theorem find_ok (hreq : IsFind req mode) (hok : processReq P (some req) s = .ok s') :
    ∃ s₁ fin, processFind P req s.refreshed = .ok (s₁, fin.pidRetval) ∧
      s'.sys.mod.reply = s₁.sys.mod.reply ++ [fin] := by
  obtain ⟨⟨s₁, ret⟩, hbody, rfl⟩ := map_eq_ok.mp hok
  refine ⟨s₁, { s₁.sys.mod.foundAddrs s₁.sys.mod.nFound with pidRetval := ret }, ?_,
    Mod.reply_pushRetval _ _⟩
  rw [← hbody, processBody]
  simp only [hreq.op]
  rfl

theorem reply_none {m : Mod} (h : m.nFound = 0) : m.reply = [] := by
  rw [Mod.reply, h]
  rfl

/-- What the controller is told by a reply of `k` pages or pairs: the scan of an array that
holds it counts them, and what is then migrated is sound. -/
def RepliesSound (P : Platform) (σ : Sys) (mode : FindMode) (n : Int) (reply : List AddrInfo) :
    Prop :=
  ∀ c : Arr AddrInfo, c.slice 0 reply.length = reply → ∃ k : Nat, (k : Int) ≤ n ∧
    scan c = some k ∧ ∀ host dramSlots nvramSlots rounds calls ret,
      (findPlacement mode.code k).run P host c dramSlots nvramSlots rounds = some (calls, ret) →
        ∀ call ∈ calls, ∀ (j : Nat) (page : Nat × Int), call.pages[j]? = some page →
          SoundPage P σ k c host call (call.first + j) page mode

/-- With the code alone, no page is migrated. -/
theorem repliesSound_code {σ : Sys} {n : Int} (hn : 0 ≤ n) {fin : AddrInfo}
    (hfin : fin.pidRetval ≤ 0) : RepliesSound P σ mode n [fin] := by
  intro c hc
  refine ⟨0, hn, scan_eq (show c.slice 0 1 = [] ++ fin :: [] from hc) (by simp) hfin
    (Nat.zero_le _), ?_⟩
  intro host dramSlots nvramSlots rounds calls ret hrun call hcall
  unfold findPlacement at hrun
  rw [if_pos rfl] at hrun
  obtain ⟨rfl, -⟩ := Prod.mk.inj (Option.some.inj hrun)
  exact absurd hcall (by simp)

/-- A plain reply. -/
theorem repliesSound_plain {π : Policy P} (hπ : memWalkPolicy P mode = some π)
    (h : Listed s.sys) {n : Int} {picks : List AddrInfo} {fin : AddrInfo} (hfin : fin.pidRetval ≤ 0)
    (hlen : (picks.length : Int) ≤ n) (hmax : picks.length ≤ maxNFind)
    (hhad : ∀ y ∈ picks, HadPage P (findSide mode) s.sys y.pidRetval y.addr) :
    RepliesSound P s.sys mode n (picks ++ [fin]) := by
  intro c hc
  refine ⟨picks.length, hlen, scan_eq hc (fun y hy => hadPage_pid_pos h (hhad y hy)) hfin hmax, ?_⟩
  intro host dramSlots nvramSlots rounds calls ret hrun
  refine plain_run_sound hπ (fun p hp => hhad _ ?_) hrun
  rw [← (slice_of_append hc).1]
  exact Arr.mem_slice.mpr ⟨p, hp, by rw [Nat.zero_add]⟩

/-- A switch reply. -/
theorem repliesSound_switch (h : Listed s.sys) {n : Int}
    {sides : List AddrInfo × List AddrInfo} {sep fin : AddrInfo} (hsep : sep.pidRetval = 0)
    (heq : sides.1.length = sides.2.length) (hlen : (sides.1.length : Int) ≤ n)
    (hmax : sides.1.length ≤ maxNFind)
    (hhad : ∀ (x : Side), ∀ y ∈ x.picks sides, HadPage P x s.sys y.pidRetval y.addr) :
    RepliesSound P s.sys .switch n (sides.1 ++ sep :: (sides.2 ++ [fin])) := by
  intro c hc
  refine ⟨sides.1.length, hlen, scan_eq hc (fun y hy => hadPage_pid_pos h (hhad .toDram y hy))
    (Int.le_of_eq hsep) hmax, ?_⟩
  intro host dramSlots nvramSlots rounds calls ret hrun call hcall j page hpage
  obtain ⟨x, hx⟩ := switch_run_sound dramSlots nvramSlots
    (fun x p hp => hhad x _ (switch_sections heq hc x hp)) hrun call hcall j page hpage
  exact .switch x hx

/-- **A FIND that comes back**, in any mode. -/
theorem find_sound (h : Listed s.sys) (hreq : IsFind req mode) (hn : 0 ≤ req.pidN.toInt)
    (hok : processReq P (some req) s = .ok s') :
    RepliesSound P s.sys mode req.pidN.toInt s'.sys.mod.reply := by
  obtain ⟨s₁, fin, hfind, hreply⟩ := find_ok hreq hok
  rw [hreply]
  have hlisted : Listed s.refreshed.sys := by
    rw [refreshed_sys]
    exact Listed.refreshed h
  have hfound : s.refreshed.sys.mod.nFound = 0 := by
    rw [refreshed_sys]
    exact Sys.refreshed_nFound _
  have hmaxF := maxNFind_eq
  have hmaxS := maxNSwitch_eq
  unfold processFind at hfind
  split at hfind
  · rename_i hpos
    rw [hreq.mode] at hfind
    rcases memWalkPolicy_cases P mode with ⟨π, hπ⟩ | rfl | rfl
    · -- a plain find
      obtain ⟨cb, tier, hops, htier, hwalk⟩ : ∃ cb tier, memWalkOps P mode = some (cb, tier) ∧
          tier.mode = (findSide mode).mode ∧
          memWalk P (intMin maxNFind req.pidN.toInt) mode s.refreshed =
            .ok (s₁, fin.pidRetval) := by
        cases mode with
        | dram => exact ⟨_, _, rfl, rfl, hfind⟩
        | nvram => exact ⟨_, _, rfl, rfl, hfind⟩
        | nvramIntensive => exact ⟨_, _, rfl, rfl, hfind⟩
        | nvramWrite => exact ⟨_, _, rfl, rfl, hfind⟩
        | switch => simp [memWalkPolicy] at hπ
        | nvramClear => simp [memWalkPolicy] at hπ
      rw [intMin_eq_min] at hwalk
      obtain ⟨htaken, hlen, hret⟩ := memWalk_sound hops (by omega) hfound
        (hlisted.lastPid_lt hpos tier) hwalk
      refine repliesSound_plain hπ h (by omega) (by omega) (by omega) fun y hy => ?_
      have htake := htaken y hy
      rw [refreshed_sys] at htake
      exact htake.hadPage htier
    · -- a switch
      rw [intMin_eq_min] at hfind
      obtain ⟨⟨sides, hsides, sep, hsep, hpaired⟩, -⟩ := switchWalk_sound hlisted hpos
        (by omega) hfound hfind
      have hle := hsides.le
      rw [hpaired, List.append_assoc, List.cons_append]
      refine repliesSound_switch h hsep hsides.length (by omega) (by omega) fun x y hy => ?_
      have hdram := hsides.dram y
      have hnvram := hsides.nvram y
      rw [refreshed_sys] at hdram hnvram
      cases x with
      | toNvram => exact (hdram hy).hadPage rfl
      | toDram => exact (hnvram hy).hadPage rfl
    · -- a clear
      obtain ⟨s₂, hclear, heq⟩ := map_eq_ok.mp hfind
      obtain ⟨rfl, hret⟩ := Prod.mk.inj heq
      rw [reply_none ((clearTasks_nFound hclear).trans hfound), List.nil_append]
      exact repliesSound_code hn (by omega)
  · obtain ⟨rfl, hret⟩ := Prod.mk.inj (Except.ok.inj hfind)
    rw [reply_none hfound, List.nil_append]
    exact repliesSound_code hn (by omega)

/-- **End to end with the MixM module.** Every page that a `send_find` of any mode hands to
`move_pages` or `numa_move_pages` was, when the module took the find, a writable page of the
bound process that the call names, on the tier that it does not go to. Of the pages that
`do_switch` sends to NVRAM this holds for those that have the address of their own entry, and
of the others what `SoundSwap` says. -/
theorem mixm_send_find_sound (hreach : (mixm P).Reachable s) (mode : FindMode) {n : Int32}
    (hn : 0 ≤ n.toInt) (hok : processReq P (some (.of .find n mode)) s = .ok s')
    (stale : Arr AddrInfo) (host : Host) (dramSlots nvramSlots : Arr (Nat × Int)) :
    ∃ msgs, replyMsgs s'.sys.mod = some msgs ∧
      ∃ k : Nat, (k : Int) ≤ n.toInt ∧
        (sendFind mode.code (.whole msgs) stale).2 = some (findPlacement mode.code k) ∧
        ∀ rounds calls ret,
          (findPlacement mode.code k).run P host (sendReq (.whole msgs) stale).1 dramSlots nvramSlots
            rounds = some (calls, ret) →
          ∀ call ∈ calls, ∀ (j : Nat) (page : Nat × Int), call.pages[j]? = some page →
            SoundPage P s.sys k (sendReq (.whole msgs) stale).1 host call (call.first + j) page
              mode := by
  have h := listed_invariant P s hreach
  have hsound := find_sound h (isFind_of n mode) hn hok
  obtain ⟨s₁, fin, -, hreply⟩ := find_ok (isFind_of n mode) hok
  have hfound : 0 < s'.sys.mod.nFound := by
    have hlength := congrArg List.length hreply
    rw [Mod.reply, Arr.length_slice, List.length_append, List.length_singleton] at hlength
    omega
  obtain ⟨msgs, hmsgs, hround⟩ := sendReq_reply hfound
  obtain ⟨-, hslice⟩ := hround stale
  have hlen : s'.sys.mod.reply.length = s'.sys.mod.nFound := Arr.length_slice _ _ _
  obtain ⟨k, hk, hscan, hcalls⟩ := hsound _ (hlen ▸ hslice)
  refine ⟨msgs, hmsgs, k, hk, ?_, hcalls host dramSlots nvramSlots⟩
  unfold sendFind
  simp only
  rw [hscan, Option.map_some]

end

/-! ## One pair -/

/-- A bound process with an NVRAM page that it uses and a DRAM page that it does not. -/
def idleDramPage : State :=
  State.after smallMachine
    ⟨Sys.fresh [some [.of 4096 7 false false, .of 8192 1007 true false]], []⟩ [.of .bind 1 .dram]

theorem mixm_send_find_sound_idleDramPage :
    ∃ s', processReq smallMachine (some (.of .find 1 .switch)) idleDramPage = .ok s' ∧
      replyMsgs s'.sys.mod = some onePairReply ∧
      (findPlacement FindMode.switch.code 1).run smallMachine onePageAtATime
        (sendReq (.whole onePairReply) fun _ => ⟨0, 0⟩).1 (fun _ => (0, 0)) (fun _ => (0, 0)) 2 =
          some (onePairCalls, 2) ∧
      ∀ call ∈ onePairCalls, ∀ (j : Nat) (page : Nat × Int), call.pages[j]? = some page →
        SoundPage smallMachine idleDramPage.sys 1 (sendReq (.whole onePairReply) fun _ => ⟨0, 0⟩).1
          onePageAtATime call (call.first + j) page .switch := by
  have hok : processReq smallMachine (some (.of .find 1 .switch)) idleDramPage =
      .ok (idleDramPage.after smallMachine [.of .find 1 .switch]) := rfl
  have hreply : replyMsgs (idleDramPage.after smallMachine [.of .find 1 .switch]).sys.mod =
      some onePairReply := by decide +kernel
  obtain ⟨msgs, hmsgs, k, hk, hscan, hcalls⟩ := mixm_send_find_sound
    (State.after_reachable (.init ⟨⟨_, _, _, _, _, rfl⟩, rfl⟩) _ :
      (mixm smallMachine).Reachable idleDramPage)
    .switch (by decide : 0 ≤ (1 : Int32).toInt) hok (fun _ => ⟨0, 0⟩) onePageAtATime
    (fun _ => (0, 0)) fun _ => (0, 0)
  obtain rfl := Option.some.inj (hmsgs.symm.trans hreply)
  obtain rfl := onePairReply_count hk hscan
  exact ⟨_, hok, hreply, onePairReply_run, hcalls 2 _ _ onePairReply_run⟩

end Ambix.MixM
