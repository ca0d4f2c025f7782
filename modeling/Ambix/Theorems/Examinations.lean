import Ambix.Lib.Budget
import Ambix.Logic.Round
import Ambix.Logic.Commits
import Ambix.Hyb.Machine

/-!
# What a request examines

A walk calls its callback on every page of the listed processes at most once, and on the page
at the hand twice. So the work that a request does under the locks of the address spaces is
bounded by their pages, whatever the count, the hands and the pages themselves are.
-/

namespace Ambix.Hyb

open Ambix.Lib Ambix.Lib.QuotaScan

/-- The page that a callback is invoked on. -/
def Event.page : Event → Option (TaskPtr × Nat)
  | .visit t a _ _ => some (t, a)
  | _ => none

/-- The pages examined so far, the last one first. -/
def Mod.examined (m : Mod) : List (TaskPtr × Nat) := m.trace.filterMap Event.page

/-- The page of an examination. -/
def Exam.page (x : Exam) : TaskPtr × Nat := (x.task, x.addr)

/-- Between the two states at most these pages are examined. -/
abbrev Examines (ks : List (TaskPtr × Nat)) (m m' : Mod) : Prop := Spends Mod.examined ks m m'

section

variable {P : Platform} {σ : Sys} {m m' : Mod}

theorem examined_same (h : m'.trace = m.trace) : m'.examined = m.examined := by
  unfold Mod.examined
  rw [h]

/-- Stores are no examinations. -/
theorem Wrote.examined {lim : Nat} (h : Wrote lim m m') : m'.examined = m.examined := by
  obtain ⟨evs, htrace, hevs⟩ := h.trace
  have hnone : evs.filterMap Event.page = [] := by
    rw [List.filterMap_eq_nil_iff]
    intro ev hev
    obtain ⟨i, -, rfl⟩ := hevs ev hev
    rfl
  unfold Mod.examined
  rw [htrace, List.filterMap_append, hnone, List.nil_append]

/-! ## Walks -/

/-- The callback examines nothing itself. -/
def Silent (cb : PteEntry) : Prop := ∀ ptep addr m, (cb ptep addr m).mod.examined = m.examined

theorem Policy.silent (π : Policy P) : Silent π.callback := by
  intro ptep addr m
  by_cases hfull : (m.nFound : Int) = m.nToFind
  · rw [π.callback_full hfull]
    refine examined_same ?_
    show (m.setLastAddr π.tier addr).trace = m.trace
    cases π.tier <;> rfl
  · cases ptep with
    | none =>
      unfold Policy.callback
      rw [if_neg hfull]
      rfl
    | some pte =>
      rw [π.callback_open hfull]
      show (π.note addr pte m).examined = m.examined
      unfold Policy.note
      split
      · rfl
      · split
        · cases π.spare <;> rfl
        · rfl
      · rfl

theorem clear_silent : Silent (pteCallbackNvramClear P) := fun ptep addr m => by
  rw [pteCallbackNvramClear_mod]

theorem invoke_examines {cb : PteEntry} (h : Silent cb) (t : TaskPtr) (e : PageEntry) (m : Mod) :
    Examines [(t, e.addr)] m (invoke cb t e m).mod := by
  refine ⟨[(t, e.addr)], ?_, .refl _⟩
  have hcall := h (some e.pte) e.addr (m.log (.visit t e.addr e.pte m.counters))
  unfold invoke
  simp only
  split
  · exact hcall
  · exact hcall

/-- `walk_page_range` examines the entries of its range at most. -/
theorem walkPtes_examines {cb : PteEntry} (h : Silent cb) (t : TaskPtr) (start stop : Nat)
    (es : List PageEntry) (m : Mod) :
    Examines ((es.filter (PageEntry.within start stop)).map fun e => (t, e.addr)) m
      (walkPtes cb t start stop es m).1 := by
  induction es generalizing m with
  | nil => exact .refl _ m
  | cons e es ih =>
    have hcall := invoke_examines h t e m
    unfold walkPtes
    split
    · rename_i hin
      rw [List.filter_cons_of_pos (by simpa [PageEntry.within] using hin), List.map_cons]
      simp only
      split
      · exact hcall.left
      · exact hcall.trans (ih _)
    · rename_i hout
      rw [List.filter_cons_of_neg (by simpa [PageEntry.within] using hout)]
      exact ih m

/-- The pages of a stretch. -/
def Sys.pagesOf (σ : Sys) (s : Stretch) : List (TaskPtr × Nat) :=
  (examsOf σ.kernel σ.mod.taskItems σ.mm s).map Exam.page

theorem pagesOf_some {s : Stretch} {mm : MmStruct} (h : σ.mm (σ.mod.taskItems s.index) = some mm) :
    σ.pagesOf s = (mm.ptes.filter (PageEntry.within s.start s.stop)).map fun e =>
      (σ.mod.taskItems s.index, e.addr) := by
  unfold Sys.pagesOf examsOf
  rw [h, List.map_map]
  rfl

theorem pagesOf_none {s : Stretch} (h : σ.mm (σ.mod.taskItems s.index) = none) :
    σ.pagesOf s = [] := by
  unfold Sys.pagesOf examsOf
  rw [h]
  rfl

theorem walkTask_examines {cb : PteEntry} (h : Silent cb) (i start stop : Nat) (σ : Sys) :
    Examines (σ.pagesOf ⟨i, start, stop⟩) σ.mod (walkTask cb i start stop σ).mod := by
  unfold walkTask
  cases hmm : σ.mm (σ.mod.taskItems i) with
  | none =>
    rw [pagesOf_none hmm]
    simp only [hmm]
    exact .silent rfl
  | some mm =>
    rw [pagesOf_some hmm]
    simp only [hmm]
    exact .before rfl (walkPtes_examines h _ _ _ _ _)

/-- A walk changes entries, but no page comes or goes. -/
def SamePages (σ σ' : Sys) : Prop := ∀ s, σ'.pagesOf s = σ.pagesOf s

theorem SamePages.trans {σ' σ'' : Sys} (h : SamePages σ σ') (h' : SamePages σ' σ'') :
    SamePages σ σ'' := fun s => (h' s).trans (h s)

theorem filter_within_map (t : TaskPtr) (a b : Nat) (es : List PageEntry) :
    ((es.filter (PageEntry.within a b)).map fun e => (t, e.addr)) =
      ((es.map PageEntry.addr).filter fun x => decide (a ≤ x ∧ x < b)).map fun x => (t, x) := by
  rw [List.filter_map, List.map_map]
  rfl

theorem walkTask_samePages {cb : PteEntry} (hq : Quiet cb) (i start stop : Nat) (σ : Sys) :
    SamePages σ (walkTask cb i start stop σ) := by
  intro s
  have hitems := (walkTask_fixed hq i start stop σ).taskItems
  by_cases htask : σ.mod.taskItems s.index = σ.mod.taskItems i
  · cases hmm : σ.mm (σ.mod.taskItems s.index) with
    | none =>
      rw [pagesOf_none hmm, pagesOf_none]
      rw [hitems]
      exact walkTask_mm_none.mpr hmm
    | some mm =>
      have hafter : (walkTask cb i start stop σ).mm ((walkTask cb i start stop σ).mod.taskItems s.index) =
          some (walkPageRange cb (σ.mod.taskItems i) mm start stop
            (σ.mod.setCurrPid (σ.kernel.pidOf (σ.mod.taskItems i)))).2 := by
        rw [hitems, htask]
        rw [htask] at hmm
        unfold walkTask
        simp only [hmm]
        exact Function.update_self ..
      rw [pagesOf_some hmm, pagesOf_some hafter, hitems, filter_within_map, filter_within_map]
      exact congrArg (fun addrs : List Nat => (addrs.filter _).map _) (walkPtes_addrs ..)
  · have hother : (walkTask cb i start stop σ).mm ((walkTask cb i start stop σ).mod.taskItems s.index) =
        σ.mm (σ.mod.taskItems s.index) := by
      rw [hitems]
      exact walkTask_mm_ne htask
    cases hmm : σ.mm (σ.mod.taskItems s.index) with
    | none => rw [pagesOf_none hmm, pagesOf_none (hother.trans hmm)]
    | some mm => rw [pagesOf_some hmm, pagesOf_some (hother.trans hmm), hitems]

theorem walkTasks_examines {cb : PteEntry} (h : Silent cb) (hq : Quiet cb) (is : List Nat)
    (σ : Sys) :
    Examines (is.flatMap fun i => σ.pagesOf (.whole i)) σ.mod (walkTasks cb is σ).1.mod ∧
      SamePages σ (walkTasks cb is σ).1 := by
  induction is generalizing σ with
  | nil => exact ⟨.refl _ _, fun _ => rfl⟩
  | cons i is ih =>
    have hfirst := walkTask_examines h i 0 maxAddress σ
    have hsame := walkTask_samePages hq i 0 maxAddress σ
    obtain ⟨hrest, hrestSame⟩ := ih (walkTask cb i 0 maxAddress σ)
    rw [List.flatMap_cons]
    unfold walkTasks
    simp only
    split
    · exact ⟨hfirst.left, hsame⟩
    · rw [List.flatMap_congr fun j _ => hsame (.whole j)] at hrest
      exact ⟨hfirst.trans hrest, hsame.trans hrestSame⟩

/-- **One round** examines the pages of its stretches at most. -/
theorem doPageWalk_examines {cb : PteEntry} (h : Silent cb) (hq : Quiet cb) (lp la : Nat)
    (σ : Sys) :
    Examines ((cycle σ.mod.nPids lp la).flatMap σ.pagesOf) σ.mod (doPageWalk cb lp la σ).1.mod ∧
      SamePages σ (doPageWalk cb lp la σ).1 := by
  have hfirst := walkTask_examines h lp la maxAddress σ
  have hsame := walkTask_samePages hq lp la maxAddress σ
  have hpids := (walkTask_fixed hq lp la maxAddress σ).nPids
  have hcycle : (cycle σ.mod.nPids lp la).flatMap σ.pagesOf =
      σ.pagesOf ⟨lp, la, maxAddress⟩ ++
        (((List.range' (lp + 1) (σ.mod.nPids - (lp + 1))).flatMap fun i => σ.pagesOf (.whole i)) ++
          (((List.range lp).flatMap fun i => σ.pagesOf (.whole i)) ++
            σ.pagesOf ⟨lp, 0, la + 1⟩)) := by
    simp [cycle, List.flatMap_append, List.flatMap_map]
  rw [hcycle]
  unfold doPageWalk
  simp only
  generalize walkTask cb lp la maxAddress σ = σ₁ at hfirst hsame hpids
  obtain ⟨hlater, hlaterSame⟩ := walkTasks_examines h hq
    (List.range' (lp + 1) (σ₁.mod.nPids - (lp + 1))) σ₁
  rw [List.flatMap_congr fun i _ => hsame (.whole i), hpids] at hlater
  rw [hpids] at hlaterSame
  rw [hpids]
  split
  · exact ⟨hfirst.left, hsame⟩
  generalize walkTasks cb (List.range' (lp + 1) (σ.mod.nPids - (lp + 1))) σ₁ = w at hlater hlaterSame
  obtain ⟨σ₂, ret⟩ := w
  have hsame₂ := hsame.trans hlaterSame
  cases ret with
  | some i => exact ⟨hfirst.trans hlater.left, hsame₂⟩
  | none =>
    obtain ⟨hearlier, hearlierSame⟩ := walkTasks_examines h hq (List.range lp) σ₂
    rw [List.flatMap_congr fun i _ => hsame₂ (.whole i)] at hearlier
    simp only
    generalize walkTasks cb (List.range lp) σ₂ = w at hearlier hearlierSame
    obtain ⟨σ₃, ret⟩ := w
    have hsame₃ := hsame₂.trans hearlierSame
    cases ret with
    | some i => exact ⟨hfirst.trans (hlater.trans hearlier.left), hsame₃⟩
    | none =>
      have hlast := walkTask_examines h lp 0 (la + 1) σ₃
      rw [hsame₃] at hlast
      exact ⟨hfirst.trans (hlater.trans (hearlier.trans hlast)),
        hsame₃.trans (walkTask_samePages hq lp 0 (la + 1) σ₃)⟩

/-- The pages of a round and the page at the hand once more. -/
theorem cycle_pages (tier : Tier) (hlast : σ.mod.lastPid tier < σ.mod.nPids) :
    ((cycle σ.mod.nPids (σ.mod.lastPid tier) (σ.mod.lastAddr tier)).flatMap σ.pagesOf).Perm
      ((σ.pages ++ σ.handPage tier).map Exam.page) := by
  have hback : σ.pagesOf ⟨σ.mod.lastPid tier, 0, σ.mod.lastAddr tier + 1⟩ =
      σ.pagesOf ⟨σ.mod.lastPid tier, 0, σ.mod.lastAddr tier⟩ ++
        σ.pagesOf ⟨σ.mod.lastPid tier, σ.mod.lastAddr tier, σ.mod.lastAddr tier + 1⟩ := by
    unfold Sys.pagesOf
    rw [← List.map_append, ← examsOf_split σ.kernel σ.mod.taskItems σ.mm (σ.mod.lastPid tier)
      (Nat.zero_le (σ.mod.lastAddr tier)) (Or.inl (Nat.le_succ _))]
  have heq : (cycle σ.mod.nPids (σ.mod.lastPid tier) (σ.mod.lastAddr tier)).flatMap σ.pagesOf =
      (σ.round tier ++ σ.handPage tier).map Exam.page := by
    simp only [cycle, Sys.round, Sys.ahead, Sys.behind, Sys.handPage, List.flatMap_append,
      List.flatMap_map, List.map_append, List.map_flatMap, List.flatMap_cons, List.flatMap_nil,
      List.append_nil, List.append_assoc, hback]
    rfl
  rw [heq]
  exact ((Sys.round_perm hlast).append_right _).map _

theorem walkTier_examines {cb : PteEntry} (h : Silent cb) (hq : Quiet cb) (tier : Tier)
    (hlast : σ.mod.lastPid tier < σ.mod.nPids) :
    Examines ((σ.pages ++ σ.handPage tier).map Exam.page) σ.mod (walkTier cb tier σ).mod ∧
      SamePages σ (walkTier cb tier σ) := by
  obtain ⟨hwalk, hsame⟩ := doPageWalk_examines h hq (σ.mod.lastPid tier) (σ.mod.lastAddr tier) σ
  have hset : ∀ (σ : Sys) i, SamePages σ { σ with mod := σ.mod.setLastPid tier i } := by
    intro σ i s
    cases tier <;> rfl
  refine ⟨(hwalk.mono (cycle_pages tier hlast).subperm).after ?_, hsame.trans (hset _ _)⟩
  unfold walkTier
  cases tier <;> rfl

theorem clearTasks_examines (is : List Nat) (σ : Sys) :
    Examines (is.flatMap fun i => σ.pagesOf (.whole i)) σ.mod (clearTasks P is σ).1.mod := by
  induction is generalizing σ with
  | nil => exact .refl _ _
  | cons i is ih =>
    have hfirst := walkTask_examines (clear_silent (P := P)) i 0 maxAddress σ
    have hsame := walkTask_samePages (clear_quiet P) i 0 maxAddress σ
    have hrest := ih (walkTask (pteCallbackNvramClear P) i 0 maxAddress σ)
    rw [List.flatMap_congr fun j _ => hsame (.whole j)] at hrest
    rw [List.flatMap_cons]
    unfold clearTasks
    split
    · exact (Spends.refl _ _).mono (List.nil_sublist _).subperm
    · exact hfirst.trans hrest

/-! ## Requests -/

/-- The mode of a FIND. -/
def modeOf (req : Option Req) : Option FindMode :=
  req.bind fun r => if OpCode.ofCode r.opCode = some .find then FindMode.ofCode r.mode else none

/-- The pages that a request of this mode may examine. -/
def budget (σ : Sys) : Option FindMode → List (TaskPtr × Nat)
  | none => []
  | some .nvramClear => σ.pages.map Exam.page
  | some .switch =>
    (σ.pages ++ σ.handPage .nvram).map Exam.page ++ (σ.pages ++ σ.handPage .dram).map Exam.page
  | some .dram => (σ.pages ++ σ.handPage .dram).map Exam.page
  | some .nvram | some .nvramIntensive | some .nvramWrite =>
    (σ.pages ++ σ.handPage .nvram).map Exam.page

theorem memWalk_examines {mode : FindMode} {π : Policy P} (hπ : memWalkPolicy P mode = some π)
    (n : Int) (hlast : ∀ tier, σ.mod.lastPid tier < σ.mod.nPids) :
    Examines ((σ.pages ++ σ.handPage π.tier).map Exam.page) σ.mod (memWalk P n mode σ).1.mod := by
  obtain ⟨c, -, hwalk⟩ := memWalk_walk hπ n σ
  rw [hwalk]
  have htier := (walkTier_examines (σ := { σ with mod := σ.mod.setQuota .backup n }) π.silent
    π.quiet π.tier (hlast π.tier)).1
  exact (Spends.before rfl htier).after (Wrote.appendFound (Nat.le_refl _)).examined

theorem switchWalk_examines (n : Int) (hlast : ∀ tier, σ.mod.lastPid tier < σ.mod.nPids) :
    Examines ((σ.pages ++ σ.handPage .nvram).map Exam.page ++
      (σ.pages ++ σ.handPage .dram).map Exam.page) σ.mod (switchWalk P n σ).1.mod := by
  have hready := dramReady (P := P) n hlast
  have hnvram := (walkTier_examines (σ := { σ with mod := σ.mod.setQuota .switchBackup n })
    (nvramSwitchPolicy P).silent (nvramSwitchPolicy P).quiet .nvram (hlast .nvram)).1
  have hfirst : Examines ((σ.pages ++ σ.handPage .nvram).map Exam.page) σ.mod
      (walkTier (nvramSwitchPolicy P).callback .nvram
        { σ with mod := σ.mod.setQuota .switchBackup n }).mod := .before rfl hnvram
  rw [switchWalk_phases]
  generalize walkTier (nvramSwitchPolicy P).callback .nvram
    { σ with mod := σ.mod.setQuota .switchBackup n } = σ₁ at hready hfirst
  simp only
  split
  · exact (hfirst.after rfl).left
  · have hlast₁ : σ₁.mod.lastPid .dram < σ₁.mod.nPids := by
      rw [hready.lastPid, hready.nPids]
      exact hlast .dram
    -- the DRAM walk starts from the hand and the pages that the request found
    have hpages : (switchMid n σ₁).pages ++ (switchMid n σ₁).handPage .dram =
        σ.pages ++ σ.handPage .dram := by
      show ((List.range σ₁.mod.nPids).flatMap fun i =>
          examsOf σ₁.kernel σ₁.mod.taskItems σ₁.mm (.whole i)) ++
        examsOf σ₁.kernel σ₁.mod.taskItems σ₁.mm
          ⟨σ₁.mod.lastPid .dram, σ₁.mod.lastAddr .dram, σ₁.mod.lastAddr .dram + 1⟩ = _
      rw [hready.kernel, hready.mm, hready.taskItems, hready.nPids, hready.lastPid,
        hready.lastAddr]
      rfl
    have hdram := (walkTier_examines (σ := switchMid n σ₁) (memPolicy P).silent
      (memPolicy P).quiet .dram hlast₁).1
    rw [hpages] at hdram
    have hmid : (switchMid n σ₁).mod.examined = σ₁.mod.examined := rfl
    have hboth := hfirst.trans (Spends.before hmid hdram)
    exact hboth.after (dramWalk_wrote hlast₁).examined

theorem budget_plain {mode : FindMode} {π : Policy P} (hπ : memWalkPolicy P mode = some π) :
    budget σ (some mode) = (σ.pages ++ σ.handPage π.tier).map Exam.page := by
  cases mode <;> simp only [memWalkPolicy, Option.some.injEq, reduceCtorEq] at hπ <;> subst hπ <;> rfl

theorem processFind_examines (h : Registered σ) (req : Req) :
    Examines (budget σ (FindMode.ofCode req.mode)) σ.mod (processFind P req σ).1.mod := by
  by_cases hpos : 0 < σ.mod.nPids
  · have hlast := h.lastPid_lt hpos
    cases hmode : FindMode.ofCode req.mode with
    | none =>
      rw [processFind_default hmode]
      exact .refl _ _
    | some mode =>
      rcases memWalkPolicy_cases P mode with ⟨π, hπ⟩ | rfl | rfl
      · rw [processFind_plain hπ hmode hpos, budget_plain hπ]
        exact memWalk_examines hπ _ hlast
      · rw [processFind_switch hmode hpos]
        exact switchWalk_examines _ hlast
      · rw [processFind_clear hmode hpos]
        have hpages : budget σ (some .nvramClear) =
            (List.range σ.mod.nPids).flatMap fun i => σ.pagesOf (.whole i) := List.map_flatMap
        rw [hpages]
        exact clearTasks_examines (List.range σ.mod.nPids) σ
  · rw [processFind_empty req hpos]
    exact (Spends.refl _ _).mono (List.nil_sublist _).subperm

theorem processReq_examined (req : Option Req) (σ : Sys) :
    (processReq P req σ).sys.mod.examined = (processBody P req σ).1.mod.examined := by
  obtain ⟨evs, htrace, hevs⟩ := processReq_trace (P := P) req σ
  have hnone : evs.filterMap Event.page = [] := by
    rw [List.filterMap_eq_nil_iff]
    intro ev hev
    obtain ⟨i, rfl⟩ := hevs ev hev
    rfl
  unfold Mod.examined
  rw [htrace, List.filterMap_append, hnone, List.nil_append]

/-- **One request.** -/
theorem processReq_examines (h : Registered σ) (req : Option Req) :
    (processReq P req σ).sys.mod.examined.Subperm (budget σ.refreshed (modeOf req)) := by
  rw [processReq_examined]
  by_cases hop : ∃ r ∈ req, OpCode.ofCode r.opCode = some .find
  · obtain ⟨r, hr, hfind⟩ := hop
    obtain rfl : req = some r := hr
    rw [processReq_find hfind]
    have hmode : modeOf (some r) = FindMode.ofCode r.mode := if_pos hfind
    rw [hmode]
    refine (processFind_examines h.refreshed r).subperm ?_
    unfold Mod.examined
    rw [Sys.refreshed_trace]
    rfl
  · have hnone : (processBody P req σ).1.mod.trace = [] :=
      otherBody_trace fun r hr hfind => hop ⟨r, hr, hfind⟩
    unfold Mod.examined
    rw [hnone]
    exact (List.nil_sublist _).subperm

/-- No page is listed twice. -/
theorem pages_once (h : Registered σ) : (σ.pages.map Exam.page).Nodup := by
  have hinfo : σ.pages.map Exam.info =
      (σ.pages.map Exam.page).map fun k => ⟨k.2, σ.kernel.pidOf k.1⟩ := by
    rw [List.map_map]
    refine List.map_congr_left fun x hx => ?_
    obtain ⟨i, -, mm, -, e, -, rfl⟩ := Sys.mem_pages.mp hx
    rfl
  exact List.Nodup.of_map _ (hinfo ▸ Sys.pages_nodup h.distinct)

theorem handPage_length (tier : Tier) : (σ.handPage tier).length ≤ 1 := by
  rcases Sys.handPage_cases (σ := σ) tier with hnone | ⟨x, hone, -⟩
  · rw [hnone]
    exact Nat.zero_le _
  · rw [hone]
    exact Nat.le_refl _

theorem budget_length (mode : Option FindMode) :
    (budget σ mode).length ≤ 2 * (σ.pages.length + 1) := by
  have hdram := handPage_length (σ := σ) .dram
  have hnvram := handPage_length (σ := σ) .nvram
  cases mode with
  | none => exact Nat.zero_le _
  | some mode =>
    cases mode <;> simp only [budget, List.length_append, List.length_map] <;> omega

/-- **A request examines each page at most once in a walk**, and the page at the hand once
more: whatever the count, the mode and the pages are, it calls its callbacks at most twice for
the pages of the listed processes and one more page. -/
theorem request_examines (P : Platform) : (hyb P).Invariant fun σ => ∀ req : Option Req,
    (processReq P req σ).sys.mod.examined.Subperm (budget σ.refreshed (modeOf req)) ∧
      (σ.refreshed.pages.map Exam.page).Nodup ∧
      (∀ tier, (σ.refreshed.handPage tier).length ≤ 1) ∧
      (processReq P req σ).sys.mod.examined.length ≤ 2 * (σ.refreshed.pages.length + 1) := by
  intro σ hreach req
  have h := registered_invariant P σ hreach
  have hexamines := processReq_examines (P := P) h req
  exact ⟨hexamines, pages_once h.refreshed, handPage_length,
    hexamines.length_le.trans (budget_length _)⟩

end

/-! ## A hand in the middle -/

/-- Three DRAM pages that nobody uses, the first of which has been found: the hand is at the
second. -/
def handAtSecond : Sys :=
  (oneProcess [.of 4096 1 false false, .of 8192 2 false false, .of 12288 3 false false]).after
    smallMachine [.of .find 1 .dram]

/-- The next find goes around once, and examines that page again at the end. -/
theorem request_examines_handAtSecond :
    (processReq smallMachine (some (.of .find 5 .dram)) handAtSecond).sys.mod.examined =
        [(1, 8192), (1, 4096), (1, 12288), (1, 8192)] ∧
      [(1, 8192), (1, 4096), (1, 12288), (1, 8192)].Subperm
        (budget handAtSecond.refreshed (some .dram)) ∧
      (handAtSecond.refreshed.pages.map Exam.page).Nodup := by
  have hreach : (hyb smallMachine).Reachable handAtSecond :=
    Sys.after_reachable (oneProcess_reachable _) _
  obtain ⟨hbudget, honce, -, -⟩ :=
    request_examines smallMachine _ hreach (some (.of .find 5 .dram))
  have hexamined : (processReq smallMachine (some (.of .find 5 .dram))
      handAtSecond).sys.mod.examined = [(1, 8192), (1, 4096), (1, 12288), (1, 8192)] := by decide
  rw [hexamined] at hbudget
  exact ⟨hexamined, hbudget, honce⟩

end Ambix.Hyb
