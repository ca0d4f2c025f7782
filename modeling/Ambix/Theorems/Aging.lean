import Ambix.Hyb.Machine
import Ambix.Logic.Tables
import Mathlib.Data.List.TakeWhile

/-!
# Aging

A callback that passes over a page is meant to clear its accessed and its dirty bit.
The entry it commits starts from the old one twice, so the accessed bit survives: a
reset leaves a page not accessed exactly when it was not accessed before. In a run
whose requests reset no accessed page, aged pages stay aged until they are touched.
-/

namespace Ambix.Hyb

open Ambix.Lib Ambix.Lib.QuotaScan

section

variable {P : Platform} {σ : Sys}

/-! ## What a request resets -/

/-- The request resets a page that is accessed. -/
def ResetsAccessed (P : Platform) (req : Option Req) (σ : Sys) : Prop :=
  ∃ r ∈ req, OpCode.ofCode r.opCode = some .find ∧
    ∃ t a p, Resets P r σ.refreshed t a p ∧ p.young = true

/-- If the event commits an entry, it has both bits clear. -/
def Event.CommitsClean : Event → Prop
  | .commit _ _ _ new => new.young = false ∧ new.dirty = false
  | _ => True

instance : DecidablePred Event.CommitsClean := fun ev => by
  cases ev <;> unfold Event.CommitsClean <;> infer_instance

/-- Every entry the request commits has both bits clear. -/
def CommitsClean (o : Outcome) : Prop := ∀ ev ∈ o.sys.mod.trace, ev.CommitsClean

instance : DecidablePred CommitsClean := fun o =>
  inferInstanceAs (Decidable (∀ ev ∈ o.sys.mod.trace, ev.CommitsClean))

/-- **One request**: what it commits has both bits clear exactly when nothing it resets
was accessed. -/
theorem commitsClean_iff (h : Registered σ) (req : Option Req) :
    CommitsClean (processReq P req σ) ↔ ¬ ResetsAccessed P req σ := by
  by_cases hop : ∃ r ∈ req, OpCode.ofCode r.opCode = some .find
  · obtain ⟨r, hr, hfind⟩ := hop
    obtain rfl : req = some r := hr
    constructor
    · rintro hclean ⟨r', hr', _, t, a, p, hresets, hyoung⟩
      obtain rfl : r = r' := Option.some.inj hr'
      have hcommit := (find_commits_iff h hfind t a p (modifyProt p)).mpr ⟨hresets, rfl⟩
      have hold : (modifyProt p).young = false := (hclean _ hcommit).1
      rw [modifyProt_young, hyoung] at hold
      exact absurd hold (by simp)
    · intro hnone ev hev
      cases ev with
      | commit t a old new =>
        obtain ⟨hresets, rfl⟩ := (find_commits_iff h hfind t a old new).mp hev
        refine ⟨?_, rfl⟩
        rw [modifyProt_young]
        by_contra hyoung
        exact hnone ⟨r, rfl, hfind, t, a, old, hresets, by simpa using hyoung⟩
      | _ => trivial
  · refine iff_of_true (fun ev hev => ?_) fun ⟨r, hr, hfind, _⟩ => hop ⟨r, hr, hfind⟩
    cases ev with
    | commit t a old new =>
      exact absurd hev (other_commits (fun r hr hfind => hop ⟨r, hr, hfind⟩) t a old new)
    | _ => trivial

/-! ## Accessed pages -/

/-- The task has a page at this address and its accessed bit is set. -/
def Accessed (mm : TaskPtr → Option MmStruct) (t : TaskPtr) (a : Nat) : Prop :=
  ∃ s, mm t = some s ∧ ∃ e ∈ s.ptes, e.addr = a ∧ e.pte.young = true

theorem Shows.accessed {mm : TaskPtr → Option MmStruct} {t : TaskPtr} {e : PageEntry}
    (h : Shows mm t e) (hyoung : e.pte.young = true) : Accessed mm t e.addr := by
  obtain ⟨s, hs, e₀, he₀, heq⟩ := h
  refine ⟨s, hs, e₀, he₀, ?_, ?_⟩
  · exact congrArg (fun e => e.addr) heq
  · exact (young_of_clean (congrArg PageEntry.pte heq)).trans hyoung

/-- A page seen as not accessed is not accessed. -/
theorem Shows.not_accessed {mm : TaskPtr → Option MmStruct} {t : TaskPtr} {e : PageEntry}
    (h : Shows mm t e) (hold : e.pte.young = false) : ¬ Accessed mm t e.addr := by
  rintro ⟨s, hs, e₀, he₀, haddr, hyoung⟩
  have heq := Shows.unique hs he₀ h haddr.symm
  have := (young_of_clean (congrArg PageEntry.pte heq)).trans hyoung
  rw [hold] at this
  exact Bool.false_ne_true this

theorem shows_old {mm : TaskPtr → Option MmStruct} {t : TaskPtr} {e : PageEntry}
    (h : Shows mm t e) (hold : ¬ Accessed mm t e.addr) : e.pte.young = false := by
  by_contra hyoung
  exact hold (h.accessed (by simpa using hyoung))

/-- A request accesses nothing. -/
theorem processReq_accessed (req : Option Req) (σ : Sys) {t : TaskPtr} {a : Nat}
    (h : Accessed (processReq P req σ).sys.mm t a) : Accessed σ.mm t a := by
  obtain ⟨s, hs, e, he, rfl, hyoung⟩ := h
  exact (shows_of_view (processReq_view req σ) hs he).accessed hyoung

/-! ## Runs -/

/-- The system, with the pages that were reset and not touched since. -/
structure AgingState where
  sys : Sys
  aged : TaskPtr → Nat → Prop

/-- The rest of the machine touches some pages; no other becomes accessed. -/
def AgingState.EnvStep (s s' : AgingState) : Prop :=
  Hyb.EnvStep s.sys s'.sys ∧ ∃ touched : TaskPtr → Nat → Prop,
    (∀ t a, ¬ touched t a → Accessed s'.sys.mm t a → Accessed s.sys.mm t a) ∧
      ∀ t a, s'.aged t a ↔ s.aged t a ∧ ¬ touched t a

/-- A request ages the pages it resets. -/
def AgingState.ReqStep (P : Platform) (req : Option Req) (s s' : AgingState) : Prop :=
  s'.sys = (processReq P req s.sys).sys ∧ ∀ t a, s'.aged t a ↔
    s.aged t a ∨ ∃ old new, Event.commit t a old new ∈ (processReq P req s.sys).sys.mod.trace

/-- The runs whose requests reset no accessed page. -/
def aging (P : Platform) : TSys AgingState where
  init s := Loaded s.sys ∧ ∀ t a, ¬ s.aged t a
  step s s' := s.EnvStep s' ∨ ∃ req, ¬ ResetsAccessed P req s.sys ∧ s.ReqStep P req s'

/-- Aged pages are not accessed. -/
structure Aging (s : AgingState) : Prop where
  registered : Registered s.sys
  old : ∀ t a, s.aged t a → ¬ Accessed s.sys.mm t a

theorem Aging.env {s s' : AgingState} (h : Aging s) (hstep : s.EnvStep s') : Aging s' where
  registered := h.registered.env hstep.1
  old := by
    intro t a haged haccessed
    obtain ⟨_, touched, hkeeps, haged'⟩ := hstep
    obtain ⟨hwas, hnot⟩ := (haged' t a).mp haged
    exact h.old t a hwas (hkeeps t a hnot haccessed)

theorem Aging.request {s s' : AgingState} (h : Aging s) {req : Option Req}
    (hclean : ¬ ResetsAccessed P req s.sys) (hstep : s.ReqStep P req s') : Aging s' where
  registered := hstep.1 ▸ processReq_registered req h.registered
  old := by
    intro t a haged haccessed
    rw [hstep.1] at haccessed
    have haccessed₀ := processReq_accessed req s.sys haccessed
    rcases (hstep.2 t a).mp haged with hwas | ⟨old, new, hcommit⟩
    · exact h.old t a hwas haccessed₀
    · by_cases hop : ∃ r ∈ req, OpCode.ofCode r.opCode = some .find
      · obtain ⟨r, hr, hfind⟩ := hop
        obtain rfl : req = some r := hr
        obtain ⟨hresets, rfl⟩ := (find_commits_iff h.registered hfind t a old new).mp hcommit
        have hshows : Shows s.sys.mm t ⟨a, old⟩ := (resets_page h.registered.refreshed hresets).2
        have hnew := ((commitsClean_iff h.registered (some r)).mpr hclean _ hcommit).1
        rw [modifyProt_young] at hnew
        exact hshows.not_accessed hnew haccessed₀
      · exact other_commits (fun r hr hfind => hop ⟨r, hr, hfind⟩) t a old new hcommit

theorem aging_invariant (P : Platform) : (aging P).Invariant Aging := by
  apply TSys.Inductive.invariant
  constructor
  · rintro s ⟨hloaded, hnone⟩
    exact ⟨registered_invariant P _ (.init hloaded), fun t a haged => absurd haged (hnone t a)⟩
  · rintro s s' h (henv | ⟨req, hclean, hreq⟩)
    · exact h.env henv
    · exact h.request hclean hreq

/-! ## What aging gives the later requests -/

/-- The callbacks of a request see the aged pages as not accessed, which makes them
primary for a DRAM walk. -/
def SeesAged (P : Platform) (aged : TaskPtr → Nat → Prop) (o : Outcome) : Prop :=
  ∀ t a p c, aged t a → Event.visit t a p c ∈ o.sys.mod.trace →
    p.young = false ∧ (offTier P .dram p = false → (memPolicy P).verdict p = .primary)

theorem Aging.sees {s : AgingState} (h : Aging s) (req : Option Req) :
    SeesAged P s.aged (processReq P req s.sys) := by
  intro t a p c haged hvisit
  have hold := shows_old (processReq_sees req h.registered t a p c hvisit) (h.old t a haged)
  refine ⟨hold, fun hdram => ?_⟩
  simp only at hold
  simp [memPolicy, hdram, hold]

/-- The page of a task at an address is on the NVRAM tier, present and writable. -/
def OnNvram (P : Platform) (σ : Sys) (t : TaskPtr) (a : Nat) : Prop :=
  ∃ s, σ.mm t = some s ∧ ∃ e ∈ s.ptes, e.addr = a ∧ offTier P .nvram e.pte = false

/-- The modes that return no NVRAM page that is not accessed. -/
theorem intensive_young {mode : FindMode} (hmode : mode = .nvramIntensive ∨ mode = .switch)
    {π : Policy P} (hπ : π ∈ findPolicies P mode) {p : Pte} (htaken : π.verdict p ≠ .skip) :
    p.young = true ∨ offTier P .dram p = false := by
  have hread : ∀ s, (nvramReadPolicy P s fun p => p.young && !p.dirty).verdict p ≠ .skip →
      p.young = true := by
    intro s h
    by_contra hold
    simp only [Bool.not_eq_true] at hold
    simp [nvramReadPolicy, hold] at h
  rcases hmode with rfl | rfl
  · obtain rfl := List.mem_singleton.mp hπ
    exact Or.inl (hread _ htaken)
  · rcases List.mem_cons.mp hπ with rfl | hπ
    · exact Or.inl (hread _ htaken)
    · obtain rfl := List.mem_singleton.mp hπ
      exact Or.inr ((memPolicy P).verdict_onTier p htaken)

/-- **An aged NVRAM page is in no reply** to an INTENSIVE or a SWITCH request. -/
theorem Aging.not_returned {s : AgingState} (h : Aging s) {req : Req} {mode : FindMode}
    (hmode : mode = .nvramIntensive ∨ mode = .switch) (hreq : IsFind req mode) {t : TaskPtr}
    (ht : t ∈ s.sys.refreshed.mod.tasks) {a : Nat} (haged : s.aged t a)
    (hon : OnNvram P s.sys t a) :
    ⟨a, s.sys.kernel.pidOf t⟩ ∉ (processReq P (some req) s.sys).candidates := by
  intro hmem
  obtain ⟨π, hπ, x, hinfo, horigin⟩ := find_origin h.registered hreq hmem
  simp only [Exam.info, AddrInfo.mk.injEq] at hinfo
  obtain ⟨rfl, hpid⟩ := hinfo
  -- the pid names one listed task
  have htask : x.task = t := by
    refine List.inj_on_of_nodup_map h.registered.refreshed.distinct horigin.listed ht ?_
    exact horigin.pid.symm.trans hpid
  have hshown := horigin.shown
  rw [htask] at hshown
  obtain ⟨mm, hmm, e, he, haddr, hoff⟩ := hon
  rcases intensive_young hmode hπ horigin.taken with hyoung | hdram
  · exact h.old t x.addr haged (hshown.accessed hyoung)
  · have heq := Shows.unique hmm he hshown haddr.symm
    rw [offTier_of_clean (congrArg PageEntry.pte heq)] at hdram
    exact absurd (offTier_exclusive hdram) (by simp [hoff])

/-- **A replied NVRAM_CLEAR resets every NVRAM page** of every listed process. -/
theorem clear_resets {σ : Sys} (h : Registered σ) {req : Req} (hreq : IsFind req .nvramClear)
    (hreplied : (processReq P (some req) σ).Replied) {t : TaskPtr}
    (ht : t ∈ σ.refreshed.mod.tasks) {a : Nat} (hon : OnNvram P σ t a) :
    ∃ old new, Event.commit t a old new ∈ (processReq P (some req) σ).sys.mod.trace := by
  obtain ⟨mm, hmm, e, he, rfl, hoff⟩ := hon
  have hpos : 0 < σ.refreshed.mod.nPids := by
    rw [← Mod.length_tasks]
    exact List.length_pos_of_mem ht
  have hback : (clearWalk P σ.refreshed).2 = true := by
    obtain ⟨σ', hσ'⟩ := hreplied
    unfold processReq at hσ'
    simp only [processReq_find hreq.op, processFind_clear hreq.mode hpos] at hσ'
    by_contra hc
    simp [hc] at hσ'
  have hall : ∀ t ∈ σ.refreshed.mod.tasks, (σ.refreshed.mm t).isSome = true := by
    intro t ht
    obtain ⟨i, hi, rfl⟩ := Mod.mem_tasks.mp ht
    exact (clearTasks_back _ _).mp hback i (List.mem_range.mpr hi)
  refine ⟨e.pte, modifyProt e.pte, (find_commits_iff h hreq.op t e.addr e.pte _).mpr ⟨?_, rfl⟩⟩
  refine ⟨hpos, .nvramClear, hreq.mode, ?_⟩
  show σ.refreshed.cleared P t e.addr e.pte
  refine ⟨?_, mm, hmm, he, hoff⟩
  rw [List.takeWhile_eq_self_iff.mpr hall]
  exact ht

/-- **Aging.** A request's commits have both bits clear exactly when it resets no
accessed page. In a run without such resets every later request sees an aged page as
not accessed, a DRAM walk as primary, and an INTENSIVE or SWITCH request returns no aged
NVRAM page; all NVRAM pages of the listed processes are aged by a replied NVRAM_CLEAR. -/
theorem aging_holds_iff (P : Platform) {s : AgingState} (hreach : (aging P).Reachable s) :
    (∀ req, CommitsClean (processReq P req s.sys) ↔ ¬ ResetsAccessed P req s.sys) ∧
      (∀ t a, s.aged t a → ¬ Accessed s.sys.mm t a) ∧
      (∀ req, SeesAged P s.aged (processReq P req s.sys)) ∧
      (∀ req mode, IsFind req mode → mode = .nvramIntensive ∨ mode = .switch →
        ∀ t ∈ s.sys.refreshed.mod.tasks, ∀ a, s.aged t a → OnNvram P s.sys t a →
          ⟨a, s.sys.kernel.pidOf t⟩ ∉ (processReq P (some req) s.sys).candidates) ∧
      ∀ req s', IsFind req .nvramClear → (processReq P (some req) s.sys).Replied →
        s.ReqStep P (some req) s' →
        ∀ t ∈ s.sys.refreshed.mod.tasks, ∀ a, OnNvram P s.sys t a → s'.aged t a := by
  have h := aging_invariant P s hreach
  refine ⟨commitsClean_iff h.registered, h.old, h.sees, ?_, ?_⟩
  · intro req mode hreq hmode t ht a haged hon
    exact h.not_returned hmode hreq ht haged hon
  · intro req s' hreq hreplied hstep t ht a hon
    exact (hstep.2 t a).mpr (Or.inr (clear_resets h.registered hreq hreplied ht hon))

end

/-! ## A page that stays accessed

One process with one accessed clean NVRAM page. The clear commits an entry that is
still accessed, and the find that follows returns the page. -/

/-- One process is bound, with one NVRAM page. -/
def oneNvramPage (young : Bool) : Sys :=
  (Sys.fresh [some [.of 4096 1000 young false]]).after smallMachine [.of .bind 1 .dram]

theorem clear_leaves_accessed :
    let clear := processReq smallMachine (some (.of .find 0 .nvramClear)) (oneNvramPage true)
    (hyb smallMachine).Reachable (oneNvramPage true) ∧
      Event.commit 1 4096 ⟨true, true, true, false, 1000⟩ ⟨true, true, true, false, 1000⟩ ∈
        clear.sys.mod.trace ∧
      ¬ CommitsClean clear ∧
      (processReq smallMachine (some (.of .find 1 .nvramIntensive)) clear.sys).candidates =
        [⟨4096, 1⟩] :=
  ⟨Sys.fresh_reachable _ _ _, by decide, by decide, by decide⟩

/-- The page of `oneNvramPage false` after a clear. -/
def oneAgedPage : AgingState where
  sys := (processReq smallMachine (some (.of .find 0 .nvramClear)) (oneNvramPage false)).sys
  aged t a := ∃ old new, Event.commit t a old new ∈
    (processReq smallMachine (some (.of .find 0 .nvramClear)) (oneNvramPage false)).sys.mod.trace

theorem oneAgedPage_reachable : (aging smallMachine).Reachable oneAgedPage := by
  have hfresh : (aging smallMachine).Reachable
      ⟨Sys.fresh [some [.of 4096 1000 false false]], fun _ _ => False⟩ :=
    .init ⟨⟨_, _, _, _, _, rfl⟩, fun _ _ h => h⟩
  have hbound : (aging smallMachine).Reachable ⟨oneNvramPage false, fun _ _ => False⟩ := by
    refine hfresh.step (Or.inr ⟨some (.of .bind 1 .dram), ?_, rfl, fun t a => ?_⟩)
    · exact (commitsClean_iff (registered_invariant smallMachine _
        (Sys.fresh_reachable _ _ [])) _).mp (by decide)
    · simp only [false_or, false_iff]
      rintro ⟨old, new, hcommit⟩
      exact other_commits (by decide) t a old new hcommit
  refine hbound.step (Or.inr ⟨some (.of .find 0 .nvramClear), ?_, rfl, fun t a => by simp [oneAgedPage]⟩)
  exact (commitsClean_iff (registered_invariant smallMachine _ (Sys.fresh_reachable _ _ _)) _).mp
    (by decide)

theorem aging_holds_iff_oneAgedPage :
    ⟨4096, oneAgedPage.sys.kernel.pidOf 1⟩ ∉
      (processReq smallMachine (some (.of .find 5 .nvramIntensive)) oneAgedPage.sys).candidates :=
  (aging_holds_iff smallMachine oneAgedPage_reachable).2.2.2.1 _ .nvramIntensive ⟨rfl, rfl⟩
    (Or.inl rfl) 1 (by decide) 4096
    ⟨⟨true, true, false, false, 1000⟩, ⟨true, true, false, false, 1000⟩, by decide⟩
    ⟨_, rfl, ⟨4096, ⟨true, true, false, false, 1000⟩⟩, by decide, rfl, rfl⟩

end Ambix.Hyb
