import Ambix.Logic.Visits

/-!
# What a walk leaves alone

A walk with a policy of one tier writes that tier's hand, the found list and the
policy's backup list. Everything else it keeps: the other tier's hand, the other
backup list, the slots below its own part of `found_addrs`, every view of the page
tables that its callback keeps and, when the policy resets nothing, the page tables.
-/

namespace Ambix.Hyb

open Ambix.Lib Ambix.Lib.QuotaScan

/-! ## The page tables -/

/-- What `g` shows of the page tables. -/
def tableView {β : Type*} (g : PageEntry → β) (mm : TaskPtr → Option MmStruct) (t : TaskPtr) :
    Option (List β) :=
  (mm t).map fun a => a.ptes.map g

section

variable {β : Type*} {g : PageEntry → β} {cb : PteEntry}

/-- What a view that includes the address shows of the examinations of a stretch. -/
theorem examsOf_view {γ : Type*} {addr : β → Nat} (haddr : ∀ e, addr (g e) = e.addr)
    {f : Exam → γ} {F : TaskPtr → Int → β → γ} (hf : ∀ t p e, f (PageEntry.exam t p e) = F t p (g e))
    {k : Kernel} {items : Arr TaskPtr} {mm mm' : TaskPtr → Option MmStruct}
    (h : tableView g mm' = tableView g mm) (s : Stretch) :
    (examsOf k items mm' s).map f = (examsOf k items mm s).map f := by
  have hview : ∀ mm : TaskPtr → Option MmStruct, (examsOf k items mm s).map f =
      ((tableView g mm (items s.index)).map fun bs =>
        (bs.filter fun b => decide (s.start ≤ addr b ∧ addr b < s.stop)).map
          (F (items s.index) (k.pidOf (items s.index)))).getD [] := by
    intro mm
    unfold examsOf tableView
    cases mm (items s.index) with
    | none => rfl
    | some a =>
      have hfilter : (fun b => decide (s.start ≤ addr b ∧ addr b < s.stop)) ∘ g =
          PageEntry.within s.start s.stop := by
        funext e
        simp [PageEntry.within, haddr]
      simp only [Option.map_some, Option.getD_some, List.filter_map, List.map_map, hfilter]
      exact List.map_congr_left fun e _ => hf _ _ e
  rw [hview, hview, h]

theorem walkPtes_view (hg : ∀ t e m, g (e.committed (invoke cb t e m).commit) = g e)
    (t : TaskPtr) (start stop : Nat) (es : List PageEntry) (m : Mod) :
    (walkPtes cb t start stop es m).2.map g = es.map g := by
  induction es generalizing m with
  | nil => rfl
  | cons e es ih =>
    unfold walkPtes
    split
    · simp only
      split <;> simp [hg, ih]
    · simp [ih]

theorem walkTask_view (hg : ∀ t e m, g (e.committed (invoke cb t e m).commit) = g e)
    (i start stop : Nat) (σ : Sys) :
    tableView g (walkTask cb i start stop σ).mm = tableView g σ.mm := by
  funext t
  unfold walkTask tableView
  simp only
  split
  · rfl
  · rename_i mm hmm
    by_cases ht : t = σ.mod.taskItems i
    · subst ht
      simp [walkPageRange, walkPtes_view hg, hmm]
    · simp [ht]

theorem walkStretches_view (hg : ∀ t e m, g (e.committed (invoke cb t e m).commit) = g e)
    (ss : List Stretch) (σ : Sys) :
    tableView g (walkStretches cb ss σ).1.mm = tableView g σ.mm := by
  induction ss generalizing σ with
  | nil => rfl
  | cons s ss ih =>
    unfold walkStretches
    simp only
    split
    · exact walkTask_view hg _ _ _ σ
    · rw [ih, walkTask_view hg]

/-- **A walk keeps every view that its callback keeps.** -/
theorem walkTier_view (hq : Quiet cb)
    (hg : ∀ t e m, g (e.committed (invoke cb t e m).commit) = g e) (tier : Tier) (σ : Sys) :
    tableView g (walkTier cb tier σ).mm = tableView g σ.mm := by
  unfold walkTier
  simp only [doPageWalk_eq hq]
  exact walkStretches_view hg _ σ

end

/-- A counting callback keeps every view that `modifyProt` keeps. -/
theorem Counting.view {cb : PteEntry} {tier : Tier} {spare : Spare} {takes : Pte → Bool}
    (h : Counting cb tier spare takes) {β : Type*} {g : PageEntry → β}
    (hg : ∀ e : PageEntry, g { e with pte := modifyProt e.pte } = g e) (tier' : Tier) (σ : Sys) :
    tableView g (walkTier cb tier' σ).mm = tableView g σ.mm := by
  refine walkTier_view h.quiet (fun t e m => ?_) tier' σ
  rw [invoke_commit_eq]
  rcases h.commit e.pte e.addr (m.log (.visit t e.addr e.pte m.counters)) with hc | hc
  · rw [hc]
    rfl
  · rw [hc]
    exact hg e

/-- A call of a policy's callback leaves the entry alone or resets it. -/
theorem Policy.invoke_commit {P : Platform} (π : Policy P) (t : TaskPtr) (e : PageEntry)
    (m : Mod) : (invoke π.callback t e m).commit = none ∨
      (invoke π.callback t e m).commit = π.commit e.pte := by
  rw [invoke_commit_eq]
  unfold Policy.callback
  split
  · exact Or.inl rfl
  · exact Or.inr rfl

/-- A walk with a policy keeps every view that is blind to its resets. -/
theorem Policy.walkTier_view {P : Platform} (π : Policy P) {β : Type*} {g : PageEntry → β}
    (hg : ∀ e : PageEntry, g { e with pte := π.after e.pte } = g e) (tier : Tier) (σ : Sys) :
    tableView g (walkTier π.callback tier σ).mm = tableView g σ.mm := by
  refine Ambix.Hyb.walkTier_view π.quiet (fun t e m => ?_) tier σ
  rcases π.invoke_commit t e m with h | h
  · rw [h]
    rfl
  · rw [h]
    exact hg e

/-- A walk whose callback commits nothing leaves the entries as they were. -/
theorem walkPtes_still {cb : PteEntry} (h : ∀ ptep addr m, (cb ptep addr m).commit = none)
    (t : TaskPtr) (start stop : Nat) (es : List PageEntry) (m : Mod) :
    (walkPtes cb t start stop es m).2 = es := by
  have hcall : ∀ (e : PageEntry) m, e.committed (invoke cb t e m).commit = e := by
    intro e m
    simp [invoke, h, PageEntry.committed]
  induction es generalizing m with
  | nil => rfl
  | cons e es ih =>
    unfold walkPtes
    split
    · simp only [hcall]
      split
      · rfl
      · rw [ih]
    · simp only [ih]

theorem walkTask_still {cb : PteEntry} (h : ∀ ptep addr m, (cb ptep addr m).commit = none)
    (i start stop : Nat) (σ : Sys) : (walkTask cb i start stop σ).mm = σ.mm := by
  unfold walkTask
  simp only
  split
  · rfl
  · rename_i mm hmm
    have hsame : (walkPageRange cb (σ.mod.taskItems i) mm start stop
        (σ.mod.setCurrPid (σ.kernel.pidOf (σ.mod.taskItems i)))).2 = mm :=
      MmStruct.ext (walkPtes_still h _ _ _ _ _)
    simp only [hsame, ← hmm, Function.update_eq_self]

theorem walkStretches_still {cb : PteEntry} (h : ∀ ptep addr m, (cb ptep addr m).commit = none)
    (ss : List Stretch) (σ : Sys) : (walkStretches cb ss σ).1.mm = σ.mm := by
  induction ss generalizing σ with
  | nil => rfl
  | cons s ss ih =>
    unfold walkStretches
    simp only
    split
    · exact walkTask_still h _ _ _ σ
    · rw [ih, walkTask_still h]

theorem walkStretches_fixed {cb : PteEntry} (hq : Quiet cb) (ss : List Stretch) (σ : Sys) :
    Fixed σ.mod (walkStretches cb ss σ).1.mod := by
  induction ss generalizing σ with
  | nil => exact .refl _
  | cons s ss ih =>
    have hone := walkTask_fixed hq s.index s.start s.stop σ
    unfold walkStretches
    simp only
    split
    · exact hone
    · exact hone.trans (ih _)

/-- A rule without a property of the entries. -/
theorem walkTier_holds {cb : PteEntry} {tier : Tier} {I : Mod → Prop} {σ : Sys}
    (R : WalkRule σ.kernel σ.mod cb I fun _ _ => True)
    (hlast : σ.mod.lastPid tier < σ.mod.nPids) (hset : ∀ m i, I m → I (m.setLastPid tier i))
    (hI : I σ.mod) : I (walkTier cb tier σ).mod := by
  have h := (doPageWalk_holds R hlast (σ.mod.lastAddr tier)
    ⟨rfl, .refl _, hI, fun _ _ _ _ _ => trivial⟩).1
  exact hset _ _ h.inv

/-- A walk with a policy that resets nothing keeps the page tables. -/
theorem walkTier_still {P : Platform} {π : Policy P}
    (h : ∀ ptep addr m, (π.callback ptep addr m).commit = none) (tier : Tier) (σ : Sys) :
    (walkTier π.callback tier σ).mm = σ.mm := by
  unfold walkTier
  simp only [doPageWalk_eq π.quiet]
  exact walkStretches_still h _ σ

/-- The registry and the other tier's process index survive a walk. -/
theorem walkTier_registry {cb : PteEntry} (hq : Quiet cb) (tier : Tier) {σ : Sys}
    (hlast : σ.mod.lastPid tier < σ.mod.nPids) :
    (walkTier cb tier σ).mod.taskItems = σ.mod.taskItems ∧
      (walkTier cb tier σ).mod.nPids = σ.mod.nPids ∧
      (walkTier cb tier σ).mod.lastPid tier < σ.mod.nPids ∧
      ∀ tier', tier' ≠ tier → (walkTier cb tier σ).mod.lastPid tier' = σ.mod.lastPid tier' := by
  have hrule : WalkRule σ.kernel σ.mod cb (fun _ => True) fun _ _ => True :=
    ⟨hq, fun _ _ h => h, fun _ _ _ _ _ _ _ _ => ⟨trivial, trivial⟩⟩
  obtain ⟨h, hret⟩ := doPageWalk_holds hrule hlast (σ.mod.lastAddr tier)
    ⟨rfl, .refl _, trivial, fun _ _ _ _ _ => trivial⟩
  unfold walkTier
  simp only
  refine ⟨?_, ?_, ?_, ?_⟩
  · rw [← h.fixed.taskItems]
    cases tier <;> rfl
  · rw [← h.fixed.nPids]
    cases tier <;> rfl
  · revert hret
    cases tier <;> exact id
  · intro tier' hne
    rw [← h.fixed.lastPid tier']
    revert hne
    cases tier <;> cases tier' <;> simp [Mod.setLastPid, Mod.lastPid]

section

variable {P : Platform} (π : Policy P)

/-- The globals that only a callback of the tier's policy may change. -/
theorem callback_rule {I : Mod → Prop} (k : Kernel) (m₀ : Mod)
    (hpid : ∀ m p, I m → I (m.setCurrPid p))
    (hlog : ∀ m ev, (∀ buf i, ev ≠ .store buf i) → I m → I (m.log ev))
    (haddr : ∀ m addr, I m → I (m.setLastAddr π.tier addr))
    (hfound : ∀ m x, I m → I (m.pushFound x))
    (hspare : ∀ m x, I m → I (m.pushSpare π.spare x)) :
    WalkRule k m₀ π.callback I fun _ _ => True :=
  π.counting.rule k m₀ hpid hlog haddr hfound fun m x _ => hspare m x

/-- A walk does not touch the other tier's hand address. -/
theorem walkTier_lastAddr {tier : Tier} (hne : π.tier ≠ tier) {σ : Sys}
    (hlast : σ.mod.lastPid π.tier < σ.mod.nPids) :
    (walkTier π.callback π.tier σ).mod.lastAddr tier = σ.mod.lastAddr tier ∧
      (walkTier π.callback π.tier σ).mod.owner tier = σ.mod.owner tier := by
  have hset : ∀ (m : Mod) i, (m.setLastPid π.tier i).lastAddr tier = m.lastAddr tier ∧
      (m.setLastPid π.tier i).owner tier = m.owner tier := by
    intro m i
    cases hπ : π.tier <;> cases tier <;> exact ⟨rfl, rfl⟩
  have haddr : ∀ (m : Mod) a, (m.setLastAddr π.tier a).lastAddr tier = m.lastAddr tier ∧
      (m.setLastAddr π.tier a).owner tier = m.owner tier := by
    intro m a
    revert hne
    cases π.tier <;> cases tier <;> simp [Mod.setLastAddr, Mod.lastAddr]
  refine walkTier_holds
    (I := fun m => m.lastAddr tier = σ.mod.lastAddr tier ∧ m.owner tier = σ.mod.owner tier)
    (callback_rule π _ _ ?_ ?_ ?_ ?_ ?_) hlast
    (fun m i h => ⟨(hset m i).1.trans h.1, (hset m i).2.trans h.2⟩) ⟨rfl, rfl⟩
  · exact fun m p h => by cases tier <;> exact h
  · exact fun m ev _ h => by cases tier <;> exact h
  · exact fun m a h => ⟨(haddr m a).1.trans h.1, (haddr m a).2.trans h.2⟩
  · exact fun m x h => by cases tier <;> exact h
  · exact fun m x h => by cases π.spare <;> cases tier <;> exact h

/-- The slots below `n_found` and the backups of a NVRAM walk survive a DRAM walk. -/
theorem walkTier_below {b : Nat} {σ : Sys} (hπ : π.spare = .backup)
    (hlast : σ.mod.lastPid π.tier < σ.mod.nPids) (hb : b ≤ σ.mod.nFound) :
    (∀ i < b, (walkTier π.callback π.tier σ).mod.foundAddrs i = σ.mod.foundAddrs i) ∧
      (walkTier π.callback π.tier σ).mod.switchBackupAddrs = σ.mod.switchBackupAddrs ∧
      (walkTier π.callback π.tier σ).mod.nSwitchBackup = σ.mod.nSwitchBackup := by
  let I : Mod → Prop := fun m => b ≤ m.nFound ∧
    (∀ i < b, m.foundAddrs i = σ.mod.foundAddrs i) ∧
    m.switchBackupAddrs = σ.mod.switchBackupAddrs ∧ m.nSwitchBackup = σ.mod.nSwitchBackup
  suffices h : I (walkTier π.callback π.tier σ).mod from h.2
  refine walkTier_holds (callback_rule π _ _ (fun _ _ h => h) (fun _ _ _ h => h) ?_ ?_ ?_) hlast ?_
    ⟨hb, fun _ _ => rfl, rfl, rfl⟩
  · intro m a h
    cases π.tier <;> exact h
  · rintro m x ⟨h1, h2, h3, h4⟩
    refine ⟨Nat.le_succ_of_le h1, fun i hi => ?_, h3, h4⟩
    rw [← h2 i hi]
    exact Arr.set_ne _ _ (by omega)
  · rintro m x h
    rw [hπ]
    exact h
  · intro m i h
    cases π.tier <;> exact h

theorem walkTier_kernel (cb : PteEntry) (hq : Quiet cb) (tier : Tier) (σ : Sys) :
    (walkTier cb tier σ).kernel = σ.kernel := by
  have h : ∀ ss σ, (walkStretches cb ss σ).1.kernel = σ.kernel := by
    intro ss
    induction ss with
    | nil => exact fun _ => rfl
    | cons s ss ih =>
      intro σ
      unfold walkStretches
      simp only
      split
      · exact walkTask_kernel _ _ _ _ σ
      · rw [ih, walkTask_kernel]
  unfold walkTier
  simp only [doPageWalk_eq hq]
  exact h _ σ

end

end Ambix.Hyb
