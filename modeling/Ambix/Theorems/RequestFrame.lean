import Ambix.Hyb.Machine
import Ambix.Logic.Tables

/-!
# The frame of a request

What each kind of request leaves alone. Only a FIND in a mode that resets pages changes
page tables, and of those only the two bits of present, writable pages of listed processes
on the mode's tier; a plain find moves one hand and NVRAM_CLEAR none.
-/

namespace Ambix.Hyb

open Ambix.Lib Ambix.Lib.QuotaScan

/-! ## Frames -/

/-- The page is present, writable and on a node of the tier. -/
structure OnTier (P : Platform) (tier : Tier) (p : Pte) : Prop where
  present : p.present = true
  write : p.write = true
  node : contains P (P.pfnToNid p.pfn) tier.mode = true

/-- The entries differ at most in their accessed and dirty bits. -/
structure SameButBits (e e' : PageEntry) : Prop where
  addr : e'.addr = e.addr
  present : e'.pte.present = e.pte.present
  write : e'.pte.write = e.pte.write
  pfn : e'.pte.pfn = e.pte.pfn

/-- The entry is the same, or one of the tier with other bits. -/
def Touched (P : Platform) (tier : Option Tier) (e e' : PageEntry) : Prop :=
  e' = e ∨ SameButBits e e' ∧ ∃ own ∈ tier, OnTier P own e.pte

/-- Between these page tables only bits of pages of the tier and of listed processes
differ. -/
structure TablesFrame (P : Platform) (tasks : List TaskPtr) (tier : Option Tier)
    (mm mm' : TaskPtr → Option MmStruct) : Prop where
  unlisted : ∀ t ∉ tasks, mm' t = mm t
  entries : ∀ t, Option.Rel (fun a a' => List.Forall₂ (Touched P tier) a.ptes a'.ptes)
    (mm t) (mm' t)
  otherTier : ∀ other, tier ≠ some other → ∀ t a a', mm t = some a → mm' t = some a' →
    ∀ e ∈ a.ptes, OnTier P other e.pte → e ∈ a'.ptes

/-- Both parts of the tier's hand are the same. -/
structure HandKept (tier : Tier) (m m' : Mod) : Prop where
  lastPid : m'.lastPid tier = m.lastPid tier
  lastAddr : m'.lastAddr tier = m.lastAddr tier

section

variable {P : Platform} {σ : Sys}

theorem onTier_iff {tier : Tier} {p : Pte} : OnTier P tier p ↔ offTier P tier.mode p = false := by
  unfold offTier
  simp only [Bool.or_eq_false_iff, Bool.not_eq_false']
  constructor
  · rintro ⟨hpresent, hwrite, hnode⟩
    exact ⟨⟨hpresent, hwrite⟩, hnode⟩
  · rintro ⟨⟨hpresent, hwrite⟩, hnode⟩
    exact ⟨hpresent, hwrite, hnode⟩

/-- No page is on two tiers. -/
theorem OnTier.unique {tier tier' : Tier} {p : Pte} (h : OnTier P tier p)
    (h' : OnTier P tier' p) : tier = tier' := by
  rw [onTier_iff] at h h'
  cases tier <;> cases tier'
  · rfl
  · exact absurd (offTier_exclusive h) (by rw [show offTier P .nvram p = false from h']; decide)
  · exact absurd (offTier_exclusive h') (by rw [show offTier P .nvram p = false from h]; decide)
  · rfl

theorem SameButBits.replay (evs : List Event) (t : TaskPtr) (e : PageEntry) :
    SameButBits e (replay evs t e) := by
  unfold Ambix.Hyb.replay
  split <;> constructor <;> rfl

/-- With no tier nothing changes. -/
theorem TablesFrame.still {tasks : List TaskPtr} {mm mm' : TaskPtr → Option MmStruct}
    (h : TablesFrame P tasks none mm mm') : mm' = mm := by
  have hentry : ∀ e e', Touched P none e e' → e = e' := by
    rintro e e' (rfl | ⟨_, own, hown, _⟩)
    · rfl
    · exact absurd hown (by simp)
  funext t
  have hentries := h.entries t
  generalize mm t = a at hentries
  generalize mm' t = a' at hentries
  cases hentries with
  | none => rfl
  | some htouched =>
    have hsame := htouched.imp hentry
    rw [List.forall₂_eq_eq_eq] at hsame
    exact congrArg some (MmStruct.ext hsame.symm)

/-! ## Page tables -/

/-- The tier whose pages a FIND with this mode code may change. -/
def changedTier (req : Req) : Option Tier := (FindMode.ofCode req.mode).bind resetTier

/-- A page that a FIND resets is one of a listed process on that tier. -/
theorem resetIn_onTier {req : Req} (h : Registered σ) {t : TaskPtr} {mm : MmStruct}
    (hmm : σ.mm t = some mm) {e : PageEntry} (he : e ∈ mm.ptes)
    (hin : resetIn (processReq P (some req) σ).sys.mod.trace t e.addr = true) :
    t ∈ σ.refreshed.mod.tasks ∧ ∃ own ∈ changedTier req, OnTier P own e.pte := by
  obtain ⟨r, hr, _, p, hresets⟩ := (processReq_resetIn _ h t e.addr).mp hin
  obtain rfl : req = r := Option.some.inj hr
  obtain ⟨htask, hshows⟩ := resets_page h.refreshed hresets
  obtain ⟨mode, own, hmode, hown, hoff⟩ := resets_tier hresets
  refine ⟨htask, own, ?_, ?_⟩
  · unfold changedTier
    rw [hmode, Option.bind_some]
    exact hown
  · have hclean := Shows.unique hmm he hshows rfl
    rw [onTier_iff, ← offTier_of_clean (congrArg PageEntry.pte hclean)]
    exact hoff

/-- **A request** changes no more than bits of its tier's pages. -/
theorem processReq_frame (h : Registered σ) (req : Req) :
    TablesFrame P σ.refreshed.mod.tasks (changedTier req) σ.mm
      (processReq P (some req) σ).sys.mm where
  unlisted := by
    intro t ht
    cases hmm : σ.mm t with
    | none => exact processReq_nospace (some req) h hmm
    | some mm =>
      obtain ⟨mm', hmm', hptes⟩ := processReq_space (P := P) (some req) h hmm
      rw [hmm']
      refine congrArg some (MmStruct.ext (hptes.trans ?_))
      have hkeep : ∀ e ∈ mm.ptes, replay (processReq P (some req) σ).sys.mod.trace t e = e := by
        intro e he
        apply replay_of_not
        rw [← Bool.not_eq_true]
        intro hin
        exact ht (resetIn_onTier h hmm he hin).1
      rw [List.map_congr_left hkeep, List.map_id']
  entries := by
    intro t
    cases hmm : σ.mm t with
    | none =>
      rw [processReq_nospace (P := P) (some req) h hmm]
      exact .none
    | some mm =>
      obtain ⟨mm', hmm', hptes⟩ := processReq_space (P := P) (some req) h hmm
      rw [hmm']
      refine .some ?_
      rw [hptes, List.forall₂_map_right_iff, List.forall₂_same]
      intro e he
      by_cases hin : resetIn (processReq P (some req) σ).sys.mod.trace t e.addr = true
      · exact Or.inr ⟨.replay _ t e, (resetIn_onTier h hmm he hin).2⟩
      · exact Or.inl (replay_of_not (by simpa using hin))
  otherTier := by
    intro other hother t mm mm' hmm hmm' e he hon
    obtain ⟨mm₂, hmm₂, hptes⟩ := processReq_space (P := P) (some req) h hmm
    obtain rfl : mm' = mm₂ := Option.some.inj (hmm'.symm.trans hmm₂)
    have hkeep : replay (processReq P (some req) σ).sys.mod.trace t e = e := by
      apply replay_of_not
      rw [← Bool.not_eq_true]
      intro hin
      obtain ⟨_, own, hown, honown⟩ := resetIn_onTier h hmm he hin
      obtain rfl := honown.unique hon
      exact hother hown
    rw [hptes]
    exact List.mem_map.mpr ⟨e, he, hkeep⟩

/-! ## Hands -/

theorem HandKept.trans {tier : Tier} {m m' m'' : Mod} (h : HandKept tier m m')
    (h' : HandKept tier m' m'') : HandKept tier m m'' :=
  ⟨h'.lastPid.trans h.lastPid, h'.lastAddr.trans h.lastAddr⟩

theorem SameHands.kept {m m' : Mod} (h : SameHands m m') (tier : Tier) : HandKept tier m m' :=
  ⟨h.lastPid tier, h.lastAddr tier⟩

theorem memWalk_hand {mode : FindMode} {π : Policy P} (hπ : memWalkPolicy P mode = some π)
    (n : Int) (hlast : σ.mod.lastPid π.tier < σ.mod.nPids) {other : Tier} (hne : other ≠ π.tier) :
    HandKept other σ.mod (memWalk P n mode σ).1.mod := by
  obtain ⟨c, _, hwalk⟩ := memWalk_walk hπ n σ
  have hquota : SameHands σ.mod (σ.mod.setQuota .backup n) := .setQuota _ _ _
  have hlast₀ : (σ.mod.setQuota .backup n).lastPid π.tier < (σ.mod.setQuota .backup n).nPids := by
    rw [hquota.lastPid, hquota.nPids]
    exact hlast
  obtain ⟨_, _, _, hpid⟩ := walkTier_registry π.quiet π.tier
    (σ := { σ with mod := σ.mod.setQuota .backup n }) hlast₀
  have haddr := (walkTier_lastAddr π hne.symm
    (σ := { σ with mod := σ.mod.setQuota .backup n }) hlast₀).1
  rw [hwalk]
  exact ((hquota.kept other).trans ⟨hpid other hne, haddr⟩).trans
    ((SameHands.appendFound _ .backup c).kept other)

/-- **A plain find** leaves the hand of the other tier alone. -/
theorem find_hand (h : Registered σ) {req : Req} {mode : FindMode} (hreq : IsFind req mode)
    {cb : PteEntry} {tier other : Tier} (hops : memWalkOps P mode = some (cb, tier))
    (hne : other ≠ tier) :
    HandKept other σ.refreshed.mod (processReq P (some req) σ).sys.mod := by
  refine HandKept.trans ?_ ((processReq_hands (some req) σ).kept other)
  rw [processReq_find hreq.op]
  by_cases hpos : 0 < σ.refreshed.mod.nPids
  · rcases memWalkPolicy_cases P mode with ⟨π, hπ⟩ | rfl | rfl
    · have htier : π.tier = tier := by
        have hops' := (memWalkPolicy_ops hπ).1.symm.trans hops
        exact congrArg Prod.snd (Option.some.inj hops')
      rw [processFind_plain hπ hreq.mode hpos]
      exact memWalk_hand hπ _ (h.refreshed.lastPid_lt hpos _) (htier ▸ hne)
    · exact absurd hops (by simp [memWalkOps])
    · exact absurd hops (by simp [memWalkOps])
  · rw [processFind_empty req hpos]
    exact (SameHands.refl _).kept other

/-- **NVRAM_CLEAR** leaves both hands alone, also when it does not come back. -/
theorem clear_hand {req : Req} (hreq : IsFind req .nvramClear) (tier : Tier) :
    HandKept tier σ.refreshed.mod (processReq P (some req) σ).sys.mod := by
  refine HandKept.trans ?_ ((processReq_hands (some req) σ).kept tier)
  rw [processReq_find hreq.op]
  by_cases hpos : 0 < σ.refreshed.mod.nPids
  · rw [processFind_clear hreq.mode hpos]
    exact (clearTasks_hands _ fun i hi => List.mem_range.mp hi).2.kept tier
  · rw [processFind_empty req hpos]
    exact (SameHands.refl _).kept tier

/-! ## The frame -/

/-- The NVRAM walk of a switch changes no entry. -/
theorem nvramPhase_mm (n : Int) (σ : Sys) : (σ.nvramPhase P n).mm = σ.mm := by
  unfold Sys.nvramPhase
  rw [pteCallbackNvramSwitch_eq]
  refine walkTier_still (fun ptep addr m => ?_) .nvram _
  unfold Policy.callback
  split
  · rfl
  · cases ptep <;> rfl

/-- **The frame of a request.** BIND and UNBIND change no entry; a FIND changes only bits
of present, writable pages of listed processes on the tier of its mode; INTENSIVE, WRITE
and the NVRAM walk of SWITCH change nothing; after `refresh_pids` a plain find leaves the
other tier's hand and NVRAM_CLEAR both hands. -/
theorem request_frame (P : Platform) {σ : Sys} (hreach : (hyb P).Reachable σ) :
    (∀ req, (∀ r ∈ req, OpCode.ofCode r.opCode ≠ some .find) →
      (processReq P req σ).sys.mm = σ.mm) ∧
    (∀ req, TablesFrame P σ.refreshed.mod.tasks (changedTier req) σ.mm
      (processReq P (some req) σ).sys.mm) ∧
    (∀ req mode, IsFind req mode → mode = .nvramIntensive ∨ mode = .nvramWrite →
      (processReq P (some req) σ).sys.mm = σ.mm) ∧
    (∀ n, (σ.refreshed.nvramPhase P n).mm = σ.mm) ∧
    (∀ req mode cb tier other, IsFind req mode → memWalkOps P mode = some (cb, tier) →
      other ≠ tier → HandKept other σ.refreshed.mod (processReq P (some req) σ).sys.mod) ∧
    ∀ req tier, IsFind req .nvramClear →
      HandKept tier σ.refreshed.mod (processReq P (some req) σ).sys.mod := by
  have h := registered_invariant P _ hreach
  refine ⟨fun req hop => other_mm hop, processReq_frame h, ?_, fun n => nvramPhase_mm n _, ?_, ?_⟩
  · intro req mode hreq hmode
    have hframe := processReq_frame (P := P) h req
    have hnone : changedTier req = none := by
      unfold changedTier
      rw [hreq.mode, Option.bind_some]
      rcases hmode with rfl | rfl <;> rfl
    rw [hnone] at hframe
    exact hframe.still
  · intro req mode cb tier other hreq hops hne
    exact find_hand h hreq hops hne
  · intro req tier hreq
    exact clear_hand hreq tier

end

/-- One process is bound, with an accessed and dirty page on each tier. -/
def onePageEach : Sys :=
  (Sys.fresh [some [.of 4096 1 true true, .of 8192 1000 true true]]).after smallMachine
    [.of .bind 1 .dram]

theorem request_frame_onePageEach :
    (processReq smallMachine (some (.of .unbind 1 .dram)) onePageEach).sys.mm = onePageEach.mm ∧
      (processReq smallMachine (some (.of .find 1 .nvramIntensive)) onePageEach).sys.mm =
        onePageEach.mm ∧
      HandKept .nvram onePageEach.refreshed.mod
        (processReq smallMachine (some (.of .find 1 .dram)) onePageEach).sys.mod ∧
      HandKept .dram onePageEach.refreshed.mod
        (processReq smallMachine (some (.of .find 0 .nvramClear)) onePageEach).sys.mod := by
  obtain ⟨hother, _, hread, _, hplain, hclear⟩ :=
    request_frame smallMachine (σ := onePageEach) (Sys.fresh_reachable _ _ _)
  refine ⟨hother _ (by decide), hread _ .nvramIntensive ⟨rfl, rfl⟩ (Or.inl rfl), ?_, ?_⟩
  · exact hplain _ .dram _ .dram .nvram ⟨rfl, rfl⟩ rfl (by decide)
  · exact hclear _ .dram ⟨rfl, rfl⟩

end Ambix.Hyb
