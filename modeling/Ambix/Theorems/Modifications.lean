import Ambix.Hyb.Machine
import Ambix.Logic.Tables

/-!
# Modification records

The kernel knows that a page was modified from the dirty bit of its page-table entry or
from the dirty flag of its page descriptor. A callback that resets an entry clears the
first and leaves the second alone, so the record is lost exactly when the entry was the
only place that had it.
-/

namespace Ambix.Hyb

open Ambix.Lib

/-- The system with the dirty flags of the page descriptors, by frame number. -/
structure Marked where
  sys : Sys
  descDirty : Nat → Bool

namespace Marked

/-- A request. No function of the module writes a descriptor. -/
def request (P : Platform) (req : Option Req) (s : Marked) : Marked :=
  { s with sys := (processReq P req s.sys).sys }

/-- The page of `t` at `a` is mapped with this entry. -/
def Maps (s : Marked) (t : TaskPtr) (a : Nat) (p : Pte) : Prop :=
  ∃ mm, s.sys.mm t = some mm ∧ ⟨a, p⟩ ∈ mm.ptes ∧ p.present = true

/-- The page is known to be modified. -/
def Known (s : Marked) (t : TaskPtr) (a : Nat) : Prop :=
  ∃ p, s.Maps t a p ∧ (p.dirty = true ∨ s.descDirty p.pfn = true)

/-- The page is known to be modified from its entry alone. -/
def KnownByEntry (s : Marked) (t : TaskPtr) (a : Nat) : Prop :=
  ∃ p, s.Maps t a p ∧ p.dirty = true ∧ s.descDirty p.pfn = false

/-- The request resets an entry that is the only record of a modification. -/
def DropsRecord (P : Platform) (req : Option Req) (s : Marked) : Prop :=
  ∃ t a, s.KnownByEntry t a ∧ ResetsPage P req s.sys t a

end Marked

section

variable {P : Platform} {s : Marked}

theorem Marked.Maps.unique {t : TaskPtr} {a : Nat} {p q : Pte} (hp : s.Maps t a p)
    (hq : s.Maps t a q) : p = q := by
  obtain ⟨mm, hmm, hmem, _⟩ := hp
  obtain ⟨mm', hmm', hmem', _⟩ := hq
  obtain rfl : mm = mm' := Option.some.inj (hmm.symm.trans hmm')
  have heq := List.inj_on_of_nodup_map mm.nodup hmem hmem' rfl
  exact congrArg PageEntry.pte heq

/-- A page's entry after a request: reset, or as it was. -/
theorem Marked.Maps.request (h : Registered s.sys) (req : Option Req) {t : TaskPtr} {a : Nat}
    {p : Pte} (hmaps : s.Maps t a p) :
    (ResetsPage P req s.sys t a ∧ (s.request P req).Maps t a (modifyProt p)) ∨
      (¬ ResetsPage P req s.sys t a ∧ (s.request P req).Maps t a p) := by
  obtain ⟨mm, hmm, hmem, hpresent⟩ := hmaps
  obtain ⟨mm', hmm', hptes⟩ := processReq_space (P := P) req h hmm
  have hafter := List.mem_map_of_mem (f := replay (processReq P req s.sys).sys.mod.trace t) hmem
  rw [← hptes] at hafter
  rw [← processReq_resetIn req h]
  cases hin : resetIn (processReq P req s.sys).sys.mod.trace t a with
  | true =>
    rw [replay_of hin] at hafter
    exact Or.inl ⟨rfl, mm', hmm', hafter, hpresent⟩
  | false =>
    rw [replay_of_not hin] at hafter
    exact Or.inr ⟨Bool.false_ne_true, mm', hmm', hafter, hpresent⟩

/-- **One page**: the record survives the request unless the request resets the entry
that alone had it. -/
theorem Marked.Known.request (h : Registered s.sys) (req : Option Req) {t : TaskPtr} {a : Nat}
    (hknown : s.Known t a) :
    (s.request P req).Known t a ↔ ¬ (s.KnownByEntry t a ∧ ResetsPage P req s.sys t a) := by
  obtain ⟨p, hmaps, hrecord⟩ := hknown
  rcases hmaps.request (P := P) h req with ⟨hresets, hafter⟩ | ⟨hkeeps, hafter⟩
  · -- the entry is clean now, so the descriptor has to know
    constructor
    · rintro ⟨q, hq, hdirty⟩ ⟨⟨p', hp', _, hclean⟩, _⟩
      obtain rfl := hafter.unique hq
      obtain rfl := hmaps.unique hp'
      rcases hdirty with hdirty | hdirty
      · exact Bool.false_ne_true hdirty
      · exact Bool.false_ne_true (hclean.symm.trans hdirty)
    · intro hnot
      refine ⟨_, hafter, Or.inr ?_⟩
      show s.descDirty p.pfn = true
      by_contra hclean
      rw [Bool.not_eq_true] at hclean
      have hdirty : p.dirty = true := hrecord.resolve_right (by simp [hclean])
      exact hnot ⟨⟨p, hmaps, hdirty, hclean⟩, hresets⟩
  · exact iff_of_true ⟨p, hafter, hrecord⟩ fun hc => hkeeps hc.2

/-! ## Runs -/

/-- The system, with the pages modified and not saved since. -/
structure RecordState where
  marked : Marked
  modified : TaskPtr → Nat → Prop

/-- The rest of the machine writes to some pages and saves others; what it does not save
stays known, and what it writes to becomes known. -/
def RecordState.EnvStep (s s' : RecordState) : Prop :=
  Hyb.EnvStep s.marked.sys s'.marked.sys ∧ ∃ saved : TaskPtr → Nat → Prop,
    (∀ t a, ¬ saved t a → s.marked.Known t a → s'.marked.Known t a) ∧
      ∀ t a, s'.modified t a → (s.modified t a ∧ ¬ saved t a) ∨ s'.marked.Known t a

/-- A request neither modifies a page nor saves one. -/
def RecordState.ReqStep (P : Platform) (req : Option Req) (s s' : RecordState) : Prop :=
  s'.marked = s.marked.request P req ∧ s'.modified = s.modified

/-- The runs whose requests drop no record. -/
def recording (P : Platform) : TSys RecordState where
  init s := Loaded s.marked.sys ∧ ∀ t a, ¬ s.modified t a
  step s s' := s.EnvStep s' ∨ ∃ req, ¬ s.marked.DropsRecord P req ∧ s.ReqStep P req s'

/-- Modified pages are known to be. -/
structure Recording (s : RecordState) : Prop where
  registered : Registered s.marked.sys
  known : ∀ t a, s.modified t a → s.marked.Known t a

theorem Recording.env {s s' : RecordState} (h : Recording s) (hstep : s.EnvStep s') :
    Recording s' where
  registered := h.registered.env hstep.1
  known := by
    intro t a hmodified
    obtain ⟨_, saved, hkeeps, hmodified'⟩ := hstep
    rcases hmodified' t a hmodified with ⟨hwas, hnot⟩ | hknown
    · exact hkeeps t a hnot (h.known t a hwas)
    · exact hknown

theorem Recording.request {s s' : RecordState} (h : Recording s) {req : Option Req}
    (hkeeps : ¬ s.marked.DropsRecord P req) (hstep : s.ReqStep P req s') : Recording s' where
  registered := by
    rw [hstep.1]
    exact processReq_registered req h.registered
  known := by
    intro t a hmodified
    rw [hstep.2] at hmodified
    rw [hstep.1, (h.known t a hmodified).request h.registered]
    rintro ⟨honly, hresets⟩
    exact hkeeps ⟨t, a, honly, hresets⟩

theorem recording_invariant (P : Platform) : (recording P).Invariant Recording := by
  apply TSys.Inductive.invariant
  constructor
  · rintro s ⟨hloaded, hnone⟩
    exact ⟨registered_invariant P _ (.init hloaded), fun t a hm => absurd hm (hnone t a)⟩
  · rintro s s' h (henv | ⟨req, hkeeps, hreq⟩)
    · exact h.env henv
    · exact h.request hkeeps hreq

/-- **Modification records.** From every reachable state a request keeps the record of a
page unless it resets the page's entry and the entry is the only record; in a run whose
requests reset no such entry every page modified and not saved since is known to be
modified. -/
theorem records_kept_iff (P : Platform) :
    (∀ s : Marked, (hyb P).Reachable s.sys → ∀ req t a, s.Known t a →
      ((s.request P req).Known t a ↔ ¬ (s.KnownByEntry t a ∧ ResetsPage P req s.sys t a))) ∧
    ∀ s, (recording P).Reachable s → ∀ t a, s.modified t a → s.marked.Known t a := by
  constructor
  · intro s hreach req t a hknown
    exact hknown.request (registered_invariant P _ hreach) req
  · intro s hreach
    exact (recording_invariant P s hreach).known

end

/-! ## An accessed and dirty page

One process with one DRAM page. A find for a page to demote passes it over and cleans the
entry; whether the kernel still knows depends on the descriptor. -/

/-- The process is bound; `recorded` is the flag of its page's descriptor. -/
def oneWarmPage (recorded : Bool) : Marked where
  sys := (Sys.fresh [some [.of 4096 1 true true]]).after smallMachine [.of .bind 1 .dram]
  descDirty _ := recorded

theorem oneWarmPage_registered (recorded : Bool) : Registered (oneWarmPage recorded).sys :=
  registered_invariant smallMachine _ (Sys.fresh_reachable _ _ _)

theorem find_drops_record :
    (hyb smallMachine).Reachable (oneWarmPage false).sys ∧
      ¬ ∀ t a, (oneWarmPage false).Known t a →
        ((oneWarmPage false).request smallMachine (some (.of .find 1 .dram))).Known t a := by
  refine ⟨Sys.fresh_reachable _ _ _, fun hkept => ?_⟩
  have hmaps : (oneWarmPage false).Maps 1 4096 ⟨true, true, true, true, 1⟩ :=
    ⟨_, rfl, by decide, rfl⟩
  have hknown : (oneWarmPage false).Known 1 4096 := ⟨_, hmaps, Or.inl rfl⟩
  have hresets : ResetsPage smallMachine (some (.of .find 1 .dram)) (oneWarmPage false).sys 1 4096 :=
    (processReq_resetIn _ (oneWarmPage_registered false) 1 4096).mp (by decide)
  exact (hknown.request (oneWarmPage_registered false) _).mp (hkept 1 4096 hknown)
    ⟨⟨_, hmaps, rfl, rfl⟩, hresets⟩

/-! ## A clear that drops nothing -/

/-- A written DRAM page that only its entry records, and a written NVRAM page that its
descriptor records too. -/
def twoWarmPages : List PageEntry := [.of 4096 1 true true, .of 8192 1000 true true]

/-- The pages are mapped, and nothing is known to be modified since. -/
def freshWarmPages : Marked := ⟨Sys.fresh [some twoWarmPages], fun pfn => decide (pfn = 1000)⟩

/-- The process is bound. -/
def boundWarmPages : Marked := freshWarmPages.request smallMachine (some (.of .bind 1 .dram))

theorem boundWarmPages_reachable : (hyb smallMachine).Reachable boundWarmPages.sys :=
  Sys.fresh_reachable _ _ [.of .bind 1 .dram]

theorem boundWarmPages_known : boundWarmPages.Known 1 4096 ∧ boundWarmPages.Known 1 8192 :=
  ⟨⟨⟨true, true, true, true, 1⟩, ⟨_, rfl, by decide, rfl⟩, Or.inl rfl⟩,
    ⟨⟨true, true, true, true, 1000⟩, ⟨_, rfl, by decide, rfl⟩, Or.inl rfl⟩⟩

/-- The clear resets the NVRAM page, whose descriptor has the record. -/
theorem clear_keeps_records :
    ¬ boundWarmPages.DropsRecord smallMachine (some (.of .find 0 .nvramClear)) := by
  rintro ⟨t, a, ⟨p, hmaps, -, hclean⟩, hresets⟩
  obtain ⟨old, new, hcommit⟩ := resetIn_iff.mp ((processReq_resetIn (P := smallMachine) _
    (registered_invariant smallMachine _ boundWarmPages_reachable) t a).mpr hresets)
  have htrace : (processReq smallMachine (some (.of .find 0 .nvramClear))
      boundWarmPages.sys).sys.mod.trace =
        [.retval 0, .commit 1 8192 ⟨true, true, true, true, 1000⟩ ⟨true, true, true, false, 1000⟩,
          .visit 1 8192 ⟨true, true, true, true, 1000⟩ ⟨0, 0, 0, 0⟩,
          .visit 1 4096 ⟨true, true, true, true, 1⟩ ⟨0, 0, 0, 0⟩] := by decide
  rw [htrace] at hcommit
  obtain ⟨rfl, rfl, -⟩ : t = 1 ∧ a = 8192 ∧ old = ⟨true, true, true, true, 1000⟩ ∧
      new = ⟨true, true, true, false, 1000⟩ := by
    simpa using hcommit
  have hmapped : boundWarmPages.Maps 1 8192 ⟨true, true, true, true, 1000⟩ :=
    ⟨_, rfl, by decide, rfl⟩
  obtain rfl := hmaps.unique hmapped
  exact absurd hclean (by decide)

/-- Both pages are modified, the process is bound and the module clears. -/
theorem clearedWarmPages_reachable : (recording smallMachine).Reachable
    ⟨boundWarmPages.request smallMachine (some (.of .find 0 .nvramClear)),
      fun t a => t = 1 ∧ (a = 4096 ∨ a = 8192)⟩ := by
  have hfresh : (recording smallMachine).Reachable ⟨freshWarmPages, fun _ _ => False⟩ :=
    .init ⟨⟨_, _, _, _, _, rfl⟩, fun _ _ h => h⟩
  have hbound : (recording smallMachine).Reachable ⟨boundWarmPages, fun _ _ => False⟩ := by
    refine hfresh.step (Or.inr ⟨some (.of .bind 1 .dram), ?_, rfl, rfl⟩)
    rintro ⟨t, a, -, hresets⟩
    obtain ⟨old, new, hcommit⟩ := resetIn_iff.mp ((processReq_resetIn (P := smallMachine) _
      (registered_invariant smallMachine _ (Sys.fresh_reachable _ _ [])) t a).mpr hresets)
    exact other_commits (by decide) t a old new hcommit
  have hwritten : (recording smallMachine).Reachable
      ⟨boundWarmPages, fun t a => t = 1 ∧ (a = 4096 ∨ a = 8192)⟩ := by
    refine hbound.step (Or.inl ⟨⟨rfl, fun _ _ => rfl⟩, fun _ _ => False, fun _ _ _ h => h, ?_⟩)
    rintro t a ⟨rfl, rfl | rfl⟩
    · exact Or.inr boundWarmPages_known.1
    · exact Or.inr boundWarmPages_known.2
  exact hwritten.step (Or.inr ⟨_, clear_keeps_records, rfl, rfl⟩)

/-- After the clear both records are there, each where it was; a find in DRAM would have
dropped that of the DRAM page. -/
theorem records_kept_iff_twoWarmPages :
    ((boundWarmPages.request smallMachine (some (.of .find 0 .nvramClear))).Known 1 4096 ∧
      (boundWarmPages.request smallMachine (some (.of .find 0 .nvramClear))).Known 1 8192) ∧
    ¬ (boundWarmPages.request smallMachine (some (.of .find 1 .dram))).Known 1 4096 := by
  obtain ⟨hrequest, hrun⟩ := records_kept_iff smallMachine
  have hkept := hrun _ clearedWarmPages_reachable 1
  refine ⟨⟨hkept 4096 ⟨rfl, Or.inl rfl⟩, hkept 8192 ⟨rfl, Or.inr rfl⟩⟩, ?_⟩
  rw [hrequest boundWarmPages boundWarmPages_reachable _ 1 4096 boundWarmPages_known.1]
  refine not_not_intro ⟨⟨⟨true, true, true, true, 1⟩, ⟨_, rfl, by decide, rfl⟩, rfl, by decide⟩, ?_⟩
  exact (processReq_resetIn _
    (registered_invariant smallMachine _ boundWarmPages_reachable) 1 4096).mp (by decide)

end Ambix.Hyb
