import Ambix.Logic.Ranges

/-!
# Where candidates come from

Whatever the count, every candidate of a reply is a page the walk examined and that
the mode's callback gave a class other than `skip`. A request changes nothing of a
page table entry but the dirty bit, so what it saw of a page besides that bit is what
the page table said at the start.
-/

namespace Ambix.Hyb

open Ambix.Lib Ambix.Lib.QuotaScan

/-! ## The page tables, up to dirty bits -/

/-- An entry without its dirty bit. -/
def PageEntry.cleaned (e : PageEntry) : PageEntry := { e with pte := pteMkclean e.pte }

@[simp] theorem pteMkclean_modifyProt (p : Pte) : pteMkclean (modifyProt p) = pteMkclean p := rfl

theorem offTier_of_clean {P : Platform} {p p' : Pte} (h : pteMkclean p = pteMkclean p')
    (mode : FindMode) : offTier P mode p = offTier P mode p' := by
  obtain ⟨pr, w, y, d, f⟩ := p
  obtain ⟨pr', w', y', d', f'⟩ := p'
  simp only [pteMkclean, Pte.mk.injEq] at h
  obtain ⟨rfl, rfl, _, _, rfl⟩ := h
  rfl

theorem young_of_clean {p p' : Pte} (h : pteMkclean p = pteMkclean p') : p.young = p'.young := by
  have hy : (pteMkclean p).young = (pteMkclean p').young := by rw [h]
  exact hy

/-- The address spaces have this page, up to its dirty bit. -/
def Shows (mm : TaskPtr → Option MmStruct) (t : TaskPtr) (e : PageEntry) : Prop :=
  ∃ a, mm t = some a ∧ ∃ e₀ ∈ a.ptes, e₀.cleaned = e.cleaned

theorem shows_self {mm : TaskPtr → Option MmStruct} {t : TaskPtr} {a : MmStruct} (h : mm t = some a)
    {e : PageEntry} (he : e ∈ a.ptes) : Shows mm t e := ⟨a, h, e, he, rfl⟩

theorem Shows.congr {mm : TaskPtr → Option MmStruct} {t : TaskPtr} {e e' : PageEntry}
    (h : Shows mm t e) (heq : e'.cleaned = e.cleaned) : Shows mm t e' := by
  obtain ⟨a, ha, e₀, he₀, h₀⟩ := h
  exact ⟨a, ha, e₀, he₀, h₀.trans heq.symm⟩

/-- The page a task's table has at an address, up to the dirty bit, is unique. -/
theorem Shows.unique {mm : TaskPtr → Option MmStruct} {t : TaskPtr} {a : MmStruct}
    (ha : mm t = some a) {e : PageEntry} (he : e ∈ a.ptes) {e' : PageEntry} (h : Shows mm t e')
    (haddr : e'.addr = e.addr) : e'.cleaned = e.cleaned := by
  obtain ⟨a', ha', e₀, he₀, h₀⟩ := h
  obtain rfl : a = a' := Option.some.inj (ha.symm.trans ha')
  have haddr₀ : e₀.addr = e.addr := (congrArg PageEntry.addr h₀).trans haddr
  have hnodup : (a.ptes.map PageEntry.addr).Nodup := a.ascending.imp Nat.ne_of_lt
  rw [← h₀, List.inj_on_of_nodup_map hnodup he₀ he haddr₀]

/-- A callback of a policy keeps an entry up to its dirty bit. -/
theorem Policy.invoke_cleaned {P : Platform} (π : Policy P) (t : TaskPtr) (e : PageEntry)
    (m : Mod) : (e.committed (invoke π.callback t e m).commit).cleaned = e.cleaned := by
  rcases π.invoke_commit t e m with h | h
  · rw [h]
    rfl
  · rw [h]
    unfold Policy.commit
    split <;> rfl

/-! ## One walk -/

/-- A page that a walk examined and gave a class. -/
structure Origin {P : Platform} (π : Policy P) (k : Kernel) (tasks : List TaskPtr)
    (mm : TaskPtr → Option MmStruct) (x : Exam) : Prop where
  taken : π.classOf x ≠ .skip
  listed : x.task ∈ tasks
  pid : x.pid = k.pidOf x.task
  shown : Shows mm x.task ⟨x.addr, x.pte⟩

/-- The arrays hold pages with an origin. -/
def Sourced {P : Platform} (π : Policy P) (base : Nat) (k : Kernel) (tasks : List TaskPtr)
    (mm : TaskPtr → Option MmStruct) (m : Mod) : Prop :=
  ∃ st, Filled π base st m ∧ ∀ x ∈ st.found ++ st.spare, Origin π k tasks mm x

section

variable {P : Platform} {π : Policy P} {b : Nat} {mm₀ : TaskPtr → Option MmStruct}

theorem sourced_rule (k : Kernel) (m₀ : Mod) :
    WalkRule k m₀ π.callback (Sourced π b k m₀.tasks mm₀) (Shows mm₀) where
  quiet := π.quiet
  pid m p h := by
    obtain ⟨st, hst, horigin⟩ := h
    exact ⟨st, hst.setPid p, horigin⟩
  call := by
    rintro i hi e m hfix hpid hE ⟨st, hst, horigin⟩
    refine ⟨?_, hE.congr (π.invoke_cleaned _ _ _)⟩
    by_cases hopen : (m.nFound : Int) = m.nToFind
    · have hlog := hst.log (.visit (m₀.taskItems i) e.addr e.pte m.counters)
      have hfull : ((m.log (.visit (m₀.taskItems i) e.addr e.pte m.counters)).nFound : Int) =
          (m.log (.visit (m₀.taskItems i) e.addr e.pte m.counters)).nToFind := hopen
      unfold invoke
      rw [π.callback_full hfull]
      exact ⟨st, hlog.setLastAddr _ _, horigin⟩
    · refine ⟨_, (hst.invoke hopen (m₀.taskItems i) e).1, fun x hx => ?_⟩
      rcases mem_offer _ hx with hx | ⟨rfl, htaken⟩
      · exact horigin x hx
      · exact ⟨htaken, Mod.mem_tasks.mpr ⟨i, hi, rfl⟩, hpid, hE⟩

/-- **Everything a walk takes has an origin in the page tables it started from.** -/
theorem walkTier_sourced {σ : Sys} {s : TaskPtr → Option MmStruct}
    (h : Sourced π b σ.kernel σ.mod.tasks s σ.mod)
    (hE : ∀ t a, σ.mm t = some a → ∀ e ∈ a.ptes, Shows s t e)
    (hlast : σ.mod.lastPid π.tier < σ.mod.nPids) :
    Sourced π b σ.kernel σ.mod.tasks s (walkTier π.callback π.tier σ).mod := by
  have hwalk := (doPageWalk_holds (sourced_rule σ.kernel σ.mod) hlast (σ.mod.lastAddr π.tier)
    ⟨rfl, .refl _, h, hE⟩).1
  obtain ⟨st, hst, horigin⟩ := hwalk.inv
  exact ⟨st, hst.setLastPid _ _, horigin⟩

end

/-! ## Requests -/

section

variable {P : Platform} {σ : Sys}

theorem memWalk_origin {mode : FindMode} {π : Policy P} (hπ : memWalkPolicy P mode = some π)
    {n : Int} (hfound : σ.mod.nFound = 0) (hlast : ∀ tier, σ.mod.lastPid tier < σ.mod.nPids)
    {y : AddrInfo} (hy : y ∈ (memWalk P n mode σ).1.mod.reply) :
    ∃ x, x.info = y ∧ Origin π σ.kernel σ.mod.tasks σ.mm x := by
  have hspare := (memWalkPolicy_ops hπ).2
  obtain ⟨c, hc, hwalk⟩ := memWalk_walk hπ n σ
  have hstart : Filled π 0 Pick.empty (σ.mod.setQuota .backup n) :=
    .start hfound (by rw [hspare]; rfl)
  obtain ⟨st, hst, horigin⟩ := walkTier_sourced (π := π)
    (σ := { σ with mod := σ.mod.setQuota .backup n }) ⟨_, hstart, by simp [Pick.empty]⟩
    (fun t a ha e he => shows_self ha he) (hlast π.tier)
  rw [hwalk] at hy
  simp only at hc hy
  generalize walkTier π.callback π.tier { σ with mod := σ.mod.setQuota .backup n } = σ₁
    at hc hy hst
  have hn : σ₁.mod.nFound = st.found.length := by simpa using hst.nFound
  have hns : σ₁.mod.nBackup = st.spare.length := by
    rw [← hst.nSpare, hspare]
    rfl
  have hsp : σ₁.mod.spareAddrs .backup = σ₁.mod.spareAddrs π.spare := by rw [hspare]
  rw [Mod.reply, Mod.nFound_appendFound, Mod.appendFound_slice _ _ _ (Nat.zero_add _), hn,
    hst.found, hsp, ← Arr.take_slice _ _ (show c ≤ st.spare.length from hns ▸ hc.1), hst.spare,
    ← List.map_take, ← List.map_append] at hy
  obtain ⟨x, hx, rfl⟩ := List.mem_map.mp hy
  refine ⟨x, rfl, horigin x ?_⟩
  rcases List.mem_append.mp hx with hx | hx
  · exact List.mem_append_left _ hx
  · exact List.mem_append_right _ (List.mem_of_mem_take hx)

theorem switchWalk_origin {n : Int} (hfound : σ.mod.nFound = 0)
    (hlast : ∀ tier, σ.mod.lastPid tier < σ.mod.nPids) {y : AddrInfo}
    (hy : y ∈ candidatesOf (switchWalk P n σ).1.mod.reply) :
    ∃ x, x.info = y ∧ (Origin (nvramSwitchPolicy P) σ.kernel σ.mod.tasks σ.mm x ∨
      Origin (memPolicy P) σ.kernel σ.mod.tasks σ.mm x) := by
  have hready := dramReady (P := P) n hlast
  obtain ⟨N, hN, hNo⟩ := walkTier_sourced (π := nvramSwitchPolicy P) (b := 0)
    (σ := { σ with mod := σ.mod.setQuota .switchBackup n })
    ⟨_, .start hfound rfl, by simp [Pick.empty]⟩ (fun t a ha e he => shows_self ha he)
    (hlast .nvram)
  have htier : (nvramSwitchPolicy P).tier = .nvram := rfl
  rw [htier, ← nvramPhase_eq] at hN
  rw [← nvramPhase_eq] at hready
  -- the NVRAM walk left the page tables as they were, so both walks read the same
  have hlast₁ : (σ.nvramPhase P n).mod.lastPid .dram < (σ.nvramPhase P n).mod.nPids := by
    rw [hready.lastPid, hready.nPids]
    exact hlast .dram
  have htasks : (switchMid n (σ.nvramPhase P n)).mod.tasks = σ.mod.tasks := by
    show (σ.nvramPhase P n).mod.taskItems.slice 0 (σ.nvramPhase P n).mod.nPids = _
    rw [hready.taskItems, hready.nPids]
    rfl
  obtain ⟨D, hD, hDo⟩ := walkTier_sourced (π := memPolicy P)
    (b := (σ.nvramPhase P n).mod.nFound + 1) (s := σ.mm) (σ := switchMid n (σ.nvramPhase P n))
    ⟨_, .start rfl rfl, by simp [Pick.empty]⟩
    (fun t a ha e he => shows_self (by rw [← hready.mm]; exact ha) he) hlast₁
  rw [htasks, show (switchMid n (σ.nvramPhase P n)).kernel = σ.kernel from hready.kernel] at hDo
  have hhalves := halves_of_filled (n := n) hN hlast₁ hD
  rw [← dramPhase_eq] at hhalves
  obtain ⟨sep, hsep, hreply⟩ := switchWalk_paired hN hhalves
  rw [hreply, ← List.singleton_append (x := sep), candidatesOf_append, candidatesOf_append,
    candidatesOf_code (Or.inl hsep), List.nil_append] at hy
  have hy' := (List.mem_append.mp hy).imp (fun h => (List.mem_filter.mp h).1)
    fun h => (List.mem_filter.mp h).1
  rw [← List.mem_append] at hy'
  split at hy'
  · simp at hy'
  · rw [pairLists_map, ← List.map_append] at hy'
    obtain ⟨x, hx, rfl⟩ := List.mem_map.mp hy'
    exact ⟨x, rfl, (List.mem_append.mp (mem_pairLists hx)).imp (hNo x) (hDo x)⟩

/-- The policies a FIND in a mode follows. -/
def findPolicies (P : Platform) : FindMode → List (Policy P)
  | .dram => [memPolicy P]
  | .nvram => [nvramForcePolicy P]
  | .nvramIntensive => [nvramIntensivePolicy P]
  | .nvramWrite => [nvramWritePolicy P]
  | .switch => [nvramSwitchPolicy P, memPolicy P]
  | .nvramClear => []

theorem mem_findPolicies {mode : FindMode} {π : Policy P} (h : memWalkPolicy P mode = some π) :
    π ∈ findPolicies P mode := by
  cases mode <;> simp only [memWalkPolicy, Option.some.injEq, reduceCtorEq] at h <;> subst h <;>
    exact List.mem_singleton_self _

/-- **Every candidate of a FIND has an origin**, whatever the mode and the count. -/
theorem find_origin {req : Req} {mode : FindMode} (h : Registered σ) (hreq : IsFind req mode)
    {y : AddrInfo} (hy : y ∈ (processReq P (some req) σ).candidates) :
    ∃ π ∈ findPolicies P mode, ∃ x, x.info = y ∧
      Origin π σ.kernel σ.refreshed.mod.tasks σ.mm x := by
  have hfound := Sys.refreshed_nFound σ
  have hbody := processReq_find (P := P) (σ := σ) hreq.op
  have hpid : 0 < y.pidRetval := by
    have := (List.mem_filter.mp hy).2
    simpa using this
  -- the body's reply and the return code
  have hout : y ∈ (processBody P (some req) σ).1.mod.reply ∨
      y.pidRetval = (processBody P (some req) σ).2.1 := by
    have hmem : y ∈ (processReq P (some req) σ).reply := (List.mem_filter.mp hy).1
    unfold processReq at hmem
    simp only at hmem
    split at hmem
    · rw [Outcome.reply, Mod.reply_pushRetval, List.mem_append, List.mem_singleton] at hmem
      exact hmem.imp_right fun heq => by rw [heq]
    · exact absurd hmem (by simp [Outcome.reply])
  rw [hbody] at hout
  have hempty : y ∉ σ.refreshed.mod.reply := by rw [refreshed_reply]; simp
  by_cases hpos : 0 < σ.refreshed.mod.nPids
  · have hlast := h.refreshed.lastPid_lt hpos
    rcases memWalkPolicy_cases P mode with ⟨π, hπ⟩ | rfl | rfl
    · rw [processFind_plain hπ hreq.mode hpos] at hout
      have hcode : (memWalk P (intMin maxNFind req.pidN.toInt) mode σ.refreshed).2 ≤ 0 := by
        simp only [memWalk, (memWalkPolicy_ops hπ).1]
        split
        · simp
        · split
          · simp only
            split <;> simp
          · simp
      obtain ⟨x, hx, horigin⟩ := memWalk_origin hπ hfound hlast
        (hout.resolve_right fun heq => by simp only at heq; omega)
      exact ⟨π, mem_findPolicies hπ, x, hx, horigin⟩
    · rw [processFind_switch hreq.mode hpos] at hout
      have hcode : (switchWalk P (intMin maxNSwitch req.pidN.toInt) σ.refreshed).2 ≤ 0 := by
        rw [switchWalk_phases]
        simp only
        split <;> simp
      have hmem := hout.resolve_right fun heq => by simp only at heq; omega
      obtain ⟨x, hx, horigin⟩ := switchWalk_origin hfound hlast
        (List.mem_filter.mpr ⟨hmem, by simpa using hpid⟩)
      rcases horigin with horigin | horigin
      · exact ⟨_, List.mem_cons_self, x, hx, horigin⟩
      · exact ⟨_, List.mem_cons_of_mem _ List.mem_cons_self, x, hx, horigin⟩
    · -- the clear walk leaves `n_found` at 0
      rw [processFind_clear hreq.mode hpos] at hout
      have hzero : (clearWalk P σ.refreshed).1.mod.nFound = 0 :=
        (congrArg Counters.nFound (clearWalk_idle hfound (Sys.refreshed_trace σ)).1).trans hfound
      rcases hout with hmem | heq
      · rw [Mod.reply, hzero] at hmem
        simp at hmem
      · simp only at heq
        omega
  · rw [processFind_empty req hpos] at hout
    rcases hout with hmem | heq
    · exact absurd hmem hempty
    · simp only at heq
      omega

end

end Ambix.Hyb
