import Ambix.Hyb.Switch

/-!
# A proof rule for page walks

Every walker of the module repeats one action, the call of a callback on an
entry. `WalkRule` asks what one call preserves, as a property `I` of the globals
and a property `E` of the entries of each address space; `doPageWalk_holds` and
`clearWalk_holds` return it for whole walks. The registry, the hands' process
indices, the quota and the reference counts are never touched by a callback
(`Quiet`), so the rule carries them along (`Fixed`).
-/

namespace Ambix.Hyb

open Ambix.Lib

/-- The globals no callback and no walk writes. -/
structure Fixed (m m' : Mod) : Prop where
  taskItems : m'.taskItems = m.taskItems
  nPids : m'.nPids = m.nPids
  lastPidDram : m'.lastPidDram = m.lastPidDram
  lastPidNvram : m'.lastPidNvram = m.lastPidNvram
  nToFind : m'.nToFind = m.nToFind
  taskRefs : m'.taskRefs = m.taskRefs
  pidRefs : m'.pidRefs = m.pidRefs

theorem Fixed.refl (m : Mod) : Fixed m m := ⟨rfl, rfl, rfl, rfl, rfl, rfl, rfl⟩

theorem Fixed.trans {m m' m'' : Mod} (h : Fixed m m') (h' : Fixed m' m'') : Fixed m m'' :=
  ⟨h'.taskItems.trans h.taskItems, h'.nPids.trans h.nPids, h'.lastPidDram.trans h.lastPidDram,
    h'.lastPidNvram.trans h.lastPidNvram, h'.nToFind.trans h.nToFind,
    h'.taskRefs.trans h.taskRefs, h'.pidRefs.trans h.pidRefs⟩

theorem Fixed.lastPid {m m' : Mod} (h : Fixed m m') (tier : Tier) :
    m'.lastPid tier = m.lastPid tier := by
  cases tier
  · exact h.lastPidDram
  · exact h.lastPidNvram

theorem Fixed.tasks {m m' : Mod} (h : Fixed m m') : m'.tasks = m.tasks := by
  simp only [Mod.tasks, h.taskItems, h.nPids]

theorem Fixed.setPid {m m' : Mod} (h : Fixed m m') (p : Int) :
    Fixed m (m'.setCurrPid p) :=
  ⟨h.taskItems, h.nPids, h.lastPidDram, h.lastPidNvram, h.nToFind, h.taskRefs, h.pidRefs⟩

theorem Fixed.log {m m' : Mod} (h : Fixed m m') (ev : Event) : Fixed m (m'.log ev) :=
  ⟨h.taskItems, h.nPids, h.lastPidDram, h.lastPidNvram, h.nToFind, h.taskRefs, h.pidRefs⟩

theorem Fixed.setLastAddr (m : Mod) (tier : Tier) (addr : Nat) :
    Fixed m (m.setLastAddr tier addr) := by
  cases tier <;> constructor <;> rfl

theorem Fixed.pushFound (m : Mod) (x : AddrInfo) : Fixed m (m.pushFound x) := by
  constructor <;> rfl

theorem Fixed.pushSpare (m : Mod) (s : Spare) (x : AddrInfo) : Fixed m (m.pushSpare s x) := by
  cases s <;> constructor <;> rfl

/-- A callback that leaves the registry, the quota and `curr_pid` alone. -/
structure Quiet (cb : PteEntry) : Prop where
  fixed : ∀ ptep addr m, Fixed m (cb ptep addr m).mod
  currPid : ∀ ptep addr m, (cb ptep addr m).mod.currPid = m.currPid

/-- What a call commits is what the callback says. -/
theorem invoke_commit_eq (cb : PteEntry) (t : TaskPtr) (e : PageEntry) (m : Mod) :
    (invoke cb t e m).commit =
      (cb (some e.pte) e.addr (m.log (.visit t e.addr e.pte m.counters))).commit := by
  unfold invoke
  simp only
  split <;> rfl

theorem Quiet.invoke_fixed {cb : PteEntry} (h : Quiet cb) (t : TaskPtr) (e : PageEntry)
    (m : Mod) : Fixed m (invoke cb t e m).mod := by
  have hcb := ((Fixed.refl m).log (.visit t e.addr e.pte m.counters)).trans
    (h.fixed (some e.pte) e.addr (m.log (.visit t e.addr e.pte m.counters)))
  unfold invoke
  simp only
  split
  · exact hcb
  · exact hcb.log _

theorem Quiet.invoke_currPid {cb : PteEntry} (h : Quiet cb) (t : TaskPtr) (e : PageEntry)
    (m : Mod) : (invoke cb t e m).mod.currPid = m.currPid := by
  have hcb := h.currPid (some e.pte) e.addr (m.log (.visit t e.addr e.pte m.counters))
  unfold invoke
  simp only
  split <;> exact hcb

@[simp] theorem Mod.setLastAddr_currPid (m : Mod) (tier : Tier) (addr : Nat) :
    (m.setLastAddr tier addr).currPid = m.currPid := by cases tier <;> rfl

@[simp] theorem Mod.pushSpare_currPid (m : Mod) (s : Spare) (x : AddrInfo) :
    (m.pushSpare s x).currPid = m.currPid := by cases s <;> rfl

@[simp] theorem Mod.pushFound_currPid (m : Mod) (x : AddrInfo) :
    (m.pushFound x).currPid = m.currPid := rfl

theorem walkPtes_fixed {cb : PteEntry} (h : Quiet cb) (t : TaskPtr) (start stop : Nat)
    (es : List PageEntry) (m : Mod) : Fixed m (walkPtes cb t start stop es m).1 := by
  induction es generalizing m with
  | nil => exact .refl m
  | cons e es ih =>
    have hcall := h.invoke_fixed t e m
    unfold walkPtes
    split
    · simp only
      split
      · exact hcall
      · exact hcall.trans (ih _)
    · exact ih m

theorem walkTask_fixed {cb : PteEntry} (h : Quiet cb) (i start stop : Nat) (σ : Sys) :
    Fixed σ.mod (walkTask cb i start stop σ).mod := by
  unfold walkTask
  simp only
  split
  · exact (Fixed.refl _).setPid _
  · exact ((Fixed.refl _).setPid _).trans (walkPtes_fixed h _ _ _ _ _)

theorem walkTask_kernel (cb : PteEntry) (i start stop : Nat) (σ : Sys) :
    (walkTask cb i start stop σ).kernel = σ.kernel := by
  unfold walkTask
  simp only
  split <;> rfl

/-- A stretch changes the address space of its own process. -/
theorem walkTask_mm_ne {cb : PteEntry} {i start stop : Nat} {σ : Sys} {t : TaskPtr}
    (h : t ≠ σ.mod.taskItems i) : (walkTask cb i start stop σ).mm t = σ.mm t := by
  unfold walkTask
  simp only
  split
  · rfl
  · exact Function.update_of_ne h _ _

theorem walkTask_mm_none {cb : PteEntry} {i start stop : Nat} {σ : Sys} {t : TaskPtr} :
    (walkTask cb i start stop σ).mm t = none ↔ σ.mm t = none := by
  by_cases h : t = σ.mod.taskItems i
  · subst h
    unfold walkTask
    cases hmm : σ.mm (σ.mod.taskItems i) with
    | none => simp [hmm]
    | some a => simp [hmm]
  · rw [walkTask_mm_ne h]

/-- What one call of a callback preserves, in a walk started with the registry of
`m₀`. -/
structure WalkRule (k : Kernel) (m₀ : Mod) (cb : PteEntry) (I : Mod → Prop)
    (E : TaskPtr → PageEntry → Prop) : Prop where
  quiet : Quiet cb
  pid : ∀ m p, I m → I (m.setCurrPid p)
  call : ∀ i < m₀.nPids, ∀ e m, Fixed m₀ m → m.currPid = k.pidOf (m₀.taskItems i) →
    E (m₀.taskItems i) e → I m →
    I (invoke cb (m₀.taskItems i) e m).mod ∧
      E (m₀.taskItems i) (e.committed (invoke cb (m₀.taskItems i) e m).commit)

/-- The state of a walk under a rule. -/
structure Walked (k : Kernel) (m₀ : Mod) (I : Mod → Prop) (E : TaskPtr → PageEntry → Prop)
    (σ : Sys) : Prop where
  kernel : σ.kernel = k
  fixed : Fixed m₀ σ.mod
  inv : I σ.mod
  entries : ∀ t mm, σ.mm t = some mm → ∀ e ∈ mm.ptes, E t e

section

variable {k : Kernel} {m₀ : Mod} {cb : PteEntry} {I : Mod → Prop}
  {E : TaskPtr → PageEntry → Prop}

theorem walkPtes_holds (R : WalkRule k m₀ cb I E) {i : Nat} (hi : i < m₀.nPids)
    (start stop : Nat) (es : List PageEntry) {m : Mod} (hfix : Fixed m₀ m)
    (hpid : m.currPid = k.pidOf (m₀.taskItems i)) (hE : ∀ e ∈ es, E (m₀.taskItems i) e)
    (hI : I m) :
    Fixed m₀ (walkPtes cb (m₀.taskItems i) start stop es m).1 ∧
      I (walkPtes cb (m₀.taskItems i) start stop es m).1 ∧
      ∀ e ∈ (walkPtes cb (m₀.taskItems i) start stop es m).2, E (m₀.taskItems i) e := by
  induction es generalizing m with
  | nil => exact ⟨hfix, hI, by simp [walkPtes]⟩
  | cons e es ih =>
    have hhead : E (m₀.taskItems i) e := hE e List.mem_cons_self
    have htail : ∀ e ∈ es, E (m₀.taskItems i) e := fun x hx => hE x (List.mem_cons_of_mem _ hx)
    unfold walkPtes
    split
    · obtain ⟨hI', hE'⟩ := R.call i hi e m hfix hpid hhead hI
      have hfix' := hfix.trans (R.quiet.invoke_fixed (m₀.taskItems i) e m)
      simp only
      split
      · refine ⟨hfix', hI', fun x hx => ?_⟩
        rcases List.mem_cons.mp hx with rfl | hx
        · exact hE'
        · exact htail x hx
      · obtain ⟨h1, h2, h3⟩ := ih hfix'
          ((R.quiet.invoke_currPid (m₀.taskItems i) e m).trans hpid) htail hI'
        refine ⟨h1, h2, fun x hx => ?_⟩
        rcases List.mem_cons.mp hx with rfl | hx
        · exact hE'
        · exact h3 x hx
    · obtain ⟨h1, h2, h3⟩ := ih hfix hpid htail hI
      refine ⟨h1, h2, fun x hx => ?_⟩
      rcases List.mem_cons.mp hx with rfl | hx
      · exact hhead
      · exact h3 x hx

theorem walkTask_holds (R : WalkRule k m₀ cb I E) {i : Nat} (hi : i < m₀.nPids)
    (start stop : Nat) {σ : Sys} (h : Walked k m₀ I E σ) :
    Walked k m₀ I E (walkTask cb i start stop σ) := by
  have ht : σ.mod.taskItems i = m₀.taskItems i := by rw [h.fixed.taskItems]
  unfold walkTask
  simp only [ht]
  split
  · exact ⟨h.kernel, h.fixed.setPid _, R.pid _ _ h.inv, h.entries⟩
  · rename_i mm hmm
    obtain ⟨h1, h2, h3⟩ := walkPtes_holds R hi start stop mm.ptes (h.fixed.setPid _)
      (congrArg (fun k => k.pidOf (m₀.taskItems i)) h.kernel) (h.entries _ mm hmm)
      (R.pid _ _ h.inv)
    refine ⟨h.kernel, h1, h2, fun t mm' hmm' e he => ?_⟩
    by_cases hteq : t = m₀.taskItems i
    · subst hteq
      simp only [Function.update_self, Option.some.injEq] at hmm'
      subst hmm'
      exact h3 e he
    · simp only [ne_eq, hteq, not_false_eq_true, Function.update_of_ne] at hmm'
      exact h.entries t mm' hmm' e he

theorem walkTasks_holds (R : WalkRule k m₀ cb I E) {is : List Nat}
    (his : ∀ i ∈ is, i < m₀.nPids) {σ : Sys} (h : Walked k m₀ I E σ) :
    Walked k m₀ I E (walkTasks cb is σ).1 := by
  induction is generalizing σ with
  | nil => exact h
  | cons i is ih =>
    have hstep := walkTask_holds R (his i List.mem_cons_self) 0 maxAddress h
    unfold walkTasks
    simp only
    split
    · exact hstep
    · exact ih (fun j hj => his j (List.mem_cons_of_mem _ hj)) hstep

theorem walkTasks_index {is : List Nat} {σ : Sys} {j : Nat}
    (h : (walkTasks cb is σ).2 = some j) : j ∈ is := by
  induction is generalizing σ with
  | nil => simp [walkTasks] at h
  | cons i is ih =>
    unfold walkTasks at h
    simp only at h
    split at h
    · simp only [Option.some.injEq] at h
      exact h ▸ List.mem_cons_self
    · exact List.mem_cons_of_mem _ (ih h)

/-- **The rule for `do_page_walk`**, with the fact that it returns the index of a
listed process. -/
theorem doPageWalk_holds (R : WalkRule k m₀ cb I E) {lastPid : Nat} (hlast : lastPid < m₀.nPids)
    (lastAddr : Nat) {σ : Sys} (h : Walked k m₀ I E σ) :
    Walked k m₀ I E (doPageWalk cb lastPid lastAddr σ).1 ∧
      (doPageWalk cb lastPid lastAddr σ).2 < m₀.nPids := by
  have h1 := walkTask_holds R hlast lastAddr maxAddress h
  unfold doPageWalk
  simp only
  split
  · exact ⟨h1, hlast⟩
  · generalize hσ₁ : walkTask cb lastPid lastAddr maxAddress σ = σ₁ at h1
    have hlater : ∀ i ∈ List.range' (lastPid + 1) (σ₁.mod.nPids - (lastPid + 1)),
        i < m₀.nPids := by
      intro i hi
      rw [h1.fixed.nPids] at hi
      simp only [List.mem_range'_1] at hi
      omega
    have h2 := walkTasks_holds R hlater h1
    cases hw : walkTasks cb (List.range' (lastPid + 1) (σ₁.mod.nPids - (lastPid + 1))) σ₁ with
    | mk σ₂ r₂ =>
      rw [hw] at h2
      cases r₂ with
      | some i => exact ⟨h2, hlater i (walkTasks_index (congrArg Prod.snd hw))⟩
      | none =>
        have hearlier : ∀ i ∈ List.range lastPid, i < m₀.nPids := fun i hi =>
          Nat.lt_trans (List.mem_range.mp hi) hlast
        have h3 := walkTasks_holds R hearlier h2
        cases hw' : walkTasks cb (List.range lastPid) σ₂ with
        | mk σ₃ r₃ =>
          rw [hw'] at h3
          simp only [hw']
          cases r₃ with
          | some i => exact ⟨h3, hearlier i (walkTasks_index (congrArg Prod.snd hw'))⟩
          | none => exact ⟨walkTask_holds R hlast 0 (lastAddr + 1) h3, hlast⟩

/-- The rule for `clear_walk`, whether or not it comes back. -/
theorem clearTasks_holds {P : Platform} (R : WalkRule k m₀ (pteCallbackNvramClear P) I E)
    {is : List Nat} (his : ∀ i ∈ is, i < m₀.nPids) {σ : Sys} (h : Walked k m₀ I E σ) :
    Walked k m₀ I E (clearTasks P is σ).1 := by
  induction is generalizing σ with
  | nil => exact h
  | cons i is ih =>
    unfold clearTasks
    split
    · exact h
    · exact ih (fun j hj => his j (List.mem_cons_of_mem _ hj))
        (walkTask_holds R (his i List.mem_cons_self) 0 maxAddress h)

theorem clearWalk_holds {P : Platform} {σ : Sys}
    (R : WalkRule k σ.mod (pteCallbackNvramClear P) I E) (h : Walked k σ.mod I E σ) :
    Walked k σ.mod I E (clearWalk P σ).1 :=
  clearTasks_holds R (fun _ hi => List.mem_range.mp hi) h

end

end Ambix.Hyb
