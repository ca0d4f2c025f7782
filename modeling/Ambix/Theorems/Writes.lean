import Ambix.Logic.SwitchWalk
import Ambix.Theorems.Aging

/-!
# Writes since the last reset

A reset clears the dirty bit for certain, so a dirty page has been written to since the
module last reset it. The NVRAM finds put such pages first: a page that was not written to is
in a reply only when every page that is accessed and dirty is in it before.
-/

namespace Ambix.Hyb

open Ambix.Lib Ambix.Lib.QuotaScan

/-- The task has a page at this address and its dirty bit is set. -/
def Dirty (mm : TaskPtr → Option MmStruct) (t : TaskPtr) (a : Nat) : Prop :=
  ∃ s, mm t = some s ∧ ∃ e ∈ s.ptes, e.addr = a ∧ e.pte.dirty = true

/-! ## Runs -/

/-- The system, with the pages written to since they were last reset. -/
structure WriteState where
  sys : Sys
  written : TaskPtr → Nat → Prop

/-- The rest of the machine writes to some pages; no other becomes dirty. -/
def WriteState.EnvStep (s s' : WriteState) : Prop :=
  Hyb.EnvStep s.sys s'.sys ∧ ∃ wrote : TaskPtr → Nat → Prop,
    (∀ t a, Dirty s'.sys.mm t a → Dirty s.sys.mm t a ∨ wrote t a) ∧
      ∀ t a, s'.written t a ↔ s.written t a ∨ wrote t a

/-- A request writes to nothing, and the pages it resets count as not written to. -/
def WriteState.ReqStep (P : Platform) (req : Option Req) (s s' : WriteState) : Prop :=
  s'.sys = (processReq P req s.sys).sys ∧ ∀ t a, s'.written t a ↔
    s.written t a ∧ ∀ old new, Event.commit t a old new ∉ (processReq P req s.sys).sys.mod.trace

/-- All runs. What is dirty when the module is loaded was written to before. -/
def writing (P : Platform) : TSys WriteState where
  init s := Loaded s.sys ∧ ∀ t a, Dirty s.sys.mm t a → s.written t a
  step s s' := s.EnvStep s' ∨ ∃ req, s.ReqStep P req s'

/-- Dirty pages were written to. -/
structure Writing (s : WriteState) : Prop where
  registered : Registered s.sys
  written : ∀ t a, Dirty s.sys.mm t a → s.written t a

section

variable {P : Platform} {σ : Sys} {s s' : WriteState}

/-- **One page**: what is dirty after a request was dirty before it and was not reset. -/
theorem Dirty.request (h : Registered σ) (req : Option Req) {t : TaskPtr} {a : Nat}
    (hdirty : Dirty (processReq P req σ).sys.mm t a) :
    Dirty σ.mm t a ∧
      ∀ old new, Event.commit t a old new ∉ (processReq P req σ).sys.mod.trace := by
  obtain ⟨mm', hmm', e, he, rfl, hset⟩ := hdirty
  obtain ⟨mm, hmm, -⟩ := shows_of_view (processReq_view req σ) hmm' he
  obtain ⟨mm₁, hmm₁, hptes⟩ := processReq_space (P := P) req h hmm
  obtain rfl : mm' = mm₁ := Option.some.inj (hmm'.symm.trans hmm₁)
  rw [hptes] at he
  obtain ⟨e₀, he₀, rfl⟩ := List.mem_map.mp he
  cases hin : resetIn (processReq P req σ).sys.mod.trace t e₀.addr with
  | true =>
    rw [replay_of hin] at hset
    exact absurd hset (by simp)
  | false =>
    rw [replay_of_not hin] at hset ⊢
    refine ⟨⟨mm, hmm, e₀, he₀, rfl, hset⟩, fun old new hcommit => ?_⟩
    rw [resetIn_iff.mpr ⟨old, new, hcommit⟩] at hin
    exact absurd hin (by simp)

theorem Writing.env (h : Writing s) (hstep : s.EnvStep s') : Writing s' where
  registered := h.registered.env hstep.1
  written := by
    intro t a hdirty
    obtain ⟨_, wrote, hkeeps, hwritten⟩ := hstep
    exact (hwritten t a).mpr ((hkeeps t a hdirty).imp_left (h.written t a))

theorem Writing.request (h : Writing s) {req : Option Req} (hstep : s.ReqStep P req s') :
    Writing s' where
  registered := by
    rw [hstep.1]
    exact processReq_registered req h.registered
  written := by
    intro t a hdirty
    rw [hstep.1] at hdirty
    obtain ⟨hwas, hkept⟩ := hdirty.request h.registered req
    exact (hstep.2 t a).mpr ⟨h.written t a hwas, hkept⟩

theorem writing_invariant (P : Platform) : (writing P).Invariant Writing := by
  apply TSys.Inductive.invariant
  constructor
  · rintro s ⟨hloaded, hdirty⟩
    exact ⟨registered_invariant P _ (.init hloaded), hdirty⟩
  · rintro s s' h (henv | ⟨req, hreq⟩)
    · exact h.env henv
    · exact h.request hreq

/-! ## The selection of an NVRAM walk -/

/-- The policies of the NVRAM walks. -/
def nvramPolicies (P : Platform) : List (Policy P) :=
  [nvramForcePolicy P, nvramIntensivePolicy P, nvramWritePolicy P, nvramSwitchPolicy P]

/-- Their primary pages are those that are accessed and dirty. -/
theorem nvram_primary_iff {π : Policy P} (hπ : π ∈ nvramPolicies P) (p : Pte) :
    π.verdict p = .primary ↔
      offTier P .nvram p = false ∧ p.young = true ∧ p.dirty = true := by
  have hread : ∀ spare f, (nvramReadPolicy P spare f).verdict p = .primary ↔
      offTier P .nvram p = false ∧ p.young = true ∧ p.dirty = true := by
    intro spare f
    cases hoff : offTier P .nvram p <;> cases hy : p.young <;> cases hd : p.dirty <;>
      cases hf : f p <;> simp [nvramReadPolicy, hoff, hy, hd, hf]
  simp only [nvramPolicies, List.mem_cons, List.not_mem_nil, or_false] at hπ
  rcases hπ with rfl | rfl | rfl | rfl
  · cases hoff : offTier P .nvram p <;> cases hy : p.young <;> cases hd : p.dirty <;>
      simp [nvramForcePolicy, hoff, hy, hd]
  · exact hread _ _
  · exact hread _ _
  · exact hread _ _

/-- A page examined as dirty was dirty at the start. -/
theorem visit_dirty (h : Registered σ) (hpos : 0 < σ.mod.nPids) {π : Policy P} {x : Exam}
    (hx : x ∈ tierVisits π σ) (hset : x.pte.dirty = true) :
    x.task ∈ σ.mod.tasks ∧ x.pid = σ.kernel.pidOf x.task ∧ Dirty σ.mm x.task x.addr := by
  have hlast := h.lastPid_lt hpos π.tier
  have hpage : ∀ y ∈ σ.pages, y.pte.dirty = true →
      y.task ∈ σ.mod.tasks ∧ y.pid = σ.kernel.pidOf y.task ∧ Dirty σ.mm y.task y.addr := by
    intro y hy hset
    obtain ⟨i, hi, mm, hmm, e, he, rfl⟩ := Sys.mem_pages.mp hy
    exact ⟨Mod.mem_tasks.mpr ⟨i, hi, rfl⟩, rfl, mm, hmm, e, he, rfl, hset⟩
  rw [tierVisits_eq π h.distinct hlast, List.mem_append] at hx
  rcases hx with hround | hagain
  · exact hpage x ((Sys.mem_round hlast).mp hround) hset
  · -- the page at the hand has the bits that its first examination left
    obtain ⟨z, hz, rfl⟩ := List.mem_map.mp hagain
    have hwas : z.pte.dirty = true := by
      have hafter : (π.after z.pte).dirty = true := hset
      rw [π.after_eq] at hafter
      split at hafter
      · exact absurd hafter (by simp)
      · exact hafter
    rcases Sys.handPage_cases (σ := σ) π.tier with hnone | ⟨y, hone, hmem⟩
    · rw [hnone] at hz
      exact absurd hz (List.not_mem_nil)
    · obtain rfl : z = y := List.mem_singleton.mp (hone ▸ hz)
      exact hpage z ((Sys.mem_round hlast).mp hmem) hwas

/-! ## What a reply says to promote -/

/-- The pages a reply to an NVRAM find says to move to DRAM, up to the separator or the
return code. -/
def promotions (reply : List AddrInfo) : List AddrInfo :=
  reply.takeWhile fun x => decide (0 < x.pidRetval)

theorem promotions_append {xs ys : List AddrInfo} {z : AddrInfo} (hxs : ∀ x ∈ xs, 0 < x.pidRetval)
    (hz : ¬ 0 < z.pidRetval) : promotions (xs ++ z :: ys) = xs := by
  unfold promotions
  rw [List.takeWhile_append_of_pos fun x hx => by simpa using hxs x hx]
  simp [hz]

/-- The entry names a page of a listed process that was written to since its last reset. -/
def WriteState.Wrote (s : WriteState) (y : AddrInfo) : Prop :=
  ∃ t ∈ s.sys.refreshed.mod.tasks, s.sys.kernel.pidOf t = y.pidRetval ∧ s.written t y.addr

/-- All of `ps` were written to, and what comes after them stands there only when no accessed
and dirty page of the tier is left out of them. -/
structure WrittenFirst (P : Platform) (s : WriteState) (ps bs : List AddrInfo) : Prop where
  written : ∀ y ∈ ps, s.Wrote y
  complete : bs ≠ [] → ∀ x ∈ s.sys.refreshed.pages, offTier P .nvram x.pte = false →
    x.pte.young = true → x.pte.dirty = true → x.info ∈ ps

theorem Writing.wrote (h : Writing s) {π : Policy P} (hpos : 0 < s.sys.refreshed.mod.nPids)
    {x : Exam} (hx : x ∈ tierVisits π s.sys.refreshed) (hset : x.pte.dirty = true) :
    s.Wrote x.info := by
  obtain ⟨hlisted, hpid, hdirty⟩ := visit_dirty h.registered.refreshed hpos hx hset
  exact ⟨x.task, hlisted, hpid.symm, h.written _ _ hdirty⟩

/-- **What an NVRAM walk selects**, whatever the quota. -/
theorem Writing.selects (h : Writing s) {π : Policy P} (hπ : π ∈ nvramPolicies P)
    (hpos : 0 < s.sys.refreshed.mod.nPids) (n : Nat) :
    ∃ ps bs, select π.classOf n (tierVisits π s.sys.refreshed) = ps ++ bs ∧
      WrittenFirst P s (ps.map Exam.info) (bs.map Exam.info) ∧
      ∀ x ∈ bs, x ∈ tierVisits π s.sys.refreshed ∧ π.classOf x = .backup := by
  refine ⟨(primaries π.classOf (tierVisits π s.sys.refreshed)).take n, _,
    (select_eq_take π.classOf n _).trans (List.take_append ..), ⟨?_, ?_⟩, ?_⟩
  · intro y hy
    obtain ⟨x, hx, rfl⟩ := List.mem_map.mp hy
    obtain ⟨hvisit, hprimary⟩ := (mem_primaries π.classOf).mp (List.mem_of_mem_take hx)
    exact h.wrote hpos hvisit ((nvram_primary_iff hπ x.pte).mp hprimary).2.2
  · intro hbs x hx hoff hyoung hset
    have hlast := h.registered.refreshed.lastPid_lt hpos π.tier
    -- the quota is beyond the primaries, so all of them are selected
    have hall : (primaries π.classOf (tierVisits π s.sys.refreshed)).length ≤ n := by
      by_contra hlt
      rw [Nat.sub_eq_zero_of_le (by omega), List.take_zero] at hbs
      exact hbs rfl
    rw [List.take_of_length_le hall]
    refine List.mem_map_of_mem ((mem_primaries π.classOf).mpr ⟨?_, ?_⟩)
    · rw [tierVisits_eq π h.registered.refreshed.distinct hlast]
      exact List.mem_append_left _ ((Sys.mem_round hlast).mpr hx)
    · exact (nvram_primary_iff hπ x.pte).mpr ⟨hoff, hyoung, hset⟩
  · intro x hx
    exact (mem_backups π.classOf).mp (List.mem_of_mem_take hx)

/-- A page put aside for NVRAM_WRITE is dirty. -/
theorem nvramWrite_backup {p : Pte} (h : (nvramWritePolicy P).verdict p = .backup) :
    p.dirty = true := by
  by_contra hset
  rw [Bool.not_eq_true] at hset
  simp [nvramWritePolicy, nvramReadPolicy, hset] at h

theorem Writing.plain (h : Writing s) {mode : FindMode} {π : Policy P}
    (hmode : memWalkPolicy P mode = some π) (hπ : π ∈ nvramPolicies P) {req : Req}
    (hreq : IsFind req mode) (hn : 0 ≤ req.pidN.toInt) :
    ∃ ps bs, promotions (processReq P (some req) s.sys).reply = ps ++ bs ∧
      WrittenFirst P s ps bs ∧ (π = nvramWritePolicy P → ∀ y ∈ bs, s.Wrote y) := by
  obtain ⟨-, fin, hfin, -, hreply⟩ := find_plain (σ := s.sys) hmode hreq hn
  have hcode : ¬ 0 < fin.pidRetval := by omega
  rw [hreply, promotions_append (plainPicks_pid_pos h.registered.refreshed) hcode]
  by_cases hpos : 0 < s.sys.refreshed.mod.nPids
  · obtain ⟨ps, bs, hselect, hfirst, hbackup⟩ := h.selects hπ hpos (count maxNFind req)
    refine ⟨_, _, ?_, hfirst, ?_⟩
    · rw [plainPicks, if_pos hpos, hselect, List.map_append]
    · rintro rfl y hy
      obtain ⟨x, hx, rfl⟩ := List.mem_map.mp hy
      obtain ⟨hvisit, hclass⟩ := hbackup x hx
      exact h.wrote hpos hvisit (nvramWrite_backup hclass)
  · refine ⟨[], [], ?_, ⟨?_, fun hne => absurd rfl hne⟩, ?_⟩
    · rw [plainPicks, if_neg hpos]
      rfl
    · exact List.forall_mem_nil _
    · exact fun _ => List.forall_mem_nil _

theorem Writing.switch (h : Writing s) {req : Req} (hreq : IsFind req .switch)
    (hn : 0 ≤ req.pidN.toInt) :
    ∃ ps bs, promotions (processReq P (some req) s.sys).reply = ps ++ bs ∧
      WrittenFirst P s ps bs := by
  obtain ⟨-, fin, hfin, hreply⟩ := find_switch (P := P) h.registered hreq hn
  have hcode : ¬ 0 < fin.pidRetval := by omega
  obtain ⟨hpos, sep, hsep, hreply⟩ | ⟨-, hreply⟩ := hreply
  · have hside := (switchPicks_pid_pos (P := P) h.registered.refreshed
      (n := count maxNSwitch req)).1
    rw [hreply, promotions_append hside (by omega)]
    obtain ⟨ps, bs, hselect, hfirst, -⟩ := h.selects
      (show nvramSwitchPolicy P ∈ nvramPolicies P by simp [nvramPolicies]) hpos
      (switchCount P (count maxNSwitch req) s.sys.refreshed)
    refine ⟨_, _, ?_, hfirst⟩
    rw [switchPicks, if_pos hpos, switchSides, hselect, List.map_append]
  · refine ⟨[], [], ?_, ?_, fun hne => absurd rfl hne⟩
    · have hnone : promotions ([] ++ [fin]) = [] :=
        promotions_append (List.forall_mem_nil _) hcode
      rw [hreply]
      exact hnone
    · exact List.forall_mem_nil _

/-- **Written pages first.** In every run, whatever the processes write to and whatever is
requested in between: the pages that an NVRAM find says to promote start with pages that were
written to since the module last reset them, and others follow only when no accessed and dirty
page is left; NVRAM_WRITE names no other. After a replied NVRAM_CLEAR no NVRAM page of the
listed processes counts as written to. -/
theorem written_first (P : Platform) : (writing P).Invariant fun s =>
    (∀ req mode, IsFind req mode → 0 ≤ req.pidN.toInt → mode ≠ .dram → mode ≠ .nvramClear →
      ∃ ps bs, promotions (processReq P (some req) s.sys).reply = ps ++ bs ∧
        WrittenFirst P s ps bs ∧ (mode = .nvramWrite → ∀ y ∈ bs, s.Wrote y)) ∧
      ∀ req s', IsFind req .nvramClear → (processReq P (some req) s.sys).Replied →
        s.ReqStep P (some req) s' →
        ∀ t ∈ s.sys.refreshed.mod.tasks, ∀ a, OnNvram P s.sys t a → ¬ s'.written t a := by
  intro s hreach
  have h := writing_invariant P s hreach
  constructor
  · intro req mode hreq hn hdram hclear
    cases mode with
    | dram => exact absurd rfl hdram
    | nvramClear => exact absurd rfl hclear
    | switch =>
      obtain ⟨ps, bs, hsplit, hfirst⟩ := h.switch hreq hn
      exact ⟨ps, bs, hsplit, hfirst, fun hwrite => absurd hwrite (by decide)⟩
    | nvram =>
      obtain ⟨ps, bs, hsplit, hfirst, -⟩ :=
        h.plain (show _ = some (nvramForcePolicy P) from rfl) (by simp [nvramPolicies]) hreq hn
      exact ⟨ps, bs, hsplit, hfirst, fun hwrite => absurd hwrite (by decide)⟩
    | nvramIntensive =>
      obtain ⟨ps, bs, hsplit, hfirst, -⟩ :=
        h.plain (show _ = some (nvramIntensivePolicy P) from rfl) (by simp [nvramPolicies]) hreq hn
      exact ⟨ps, bs, hsplit, hfirst, fun hwrite => absurd hwrite (by decide)⟩
    | nvramWrite =>
      obtain ⟨ps, bs, hsplit, hfirst, hall⟩ :=
        h.plain (show _ = some (nvramWritePolicy P) from rfl) (by simp [nvramPolicies]) hreq hn
      exact ⟨ps, bs, hsplit, hfirst, fun _ => hall rfl⟩
  · intro req s' hreq hreplied hstep t ht a hon hwritten
    obtain ⟨old, new, hcommit⟩ := clear_resets h.registered hreq hreplied ht hon
    exact ((hstep.2 t a).mp hwritten).2 old new hcommit

end

/-! ## A page that is written to and one that is read -/

/-- One process with two NVRAM pages that it has not used. -/
def twoNvramPages : List PageEntry := [.of 4096 1000 false false, .of 8192 1001 false false]

/-- It is bound, and then reads the first of them and writes to the second. -/
def usedNvram : Sys :=
  { oneProcess twoNvramPages with
      mm := Function.update (oneProcess twoNvramPages).mm 1
        (some (.ofPtes [.of 4096 1000 true false, .of 8192 1001 true true])) }

/-- With what was written to. -/
def usedNvramPages : WriteState := ⟨usedNvram, fun t a => t = 1 ∧ a = 8192⟩

theorem twoNvramPages_clean (t : TaskPtr) (a : Nat) :
    ¬ Dirty (Sys.fresh [some twoNvramPages]).mm t a := by
  rintro ⟨s, hs, e, he, -, hset⟩
  have hclean : ∀ e ∈ (MmStruct.ofPtes twoNvramPages).ptes, e.pte.dirty = false := by decide
  cases ht : t - 1 with
  | zero =>
    simp only [Sys.fresh, ht] at hs
    obtain rfl := Option.some.inj hs
    exact absurd ((hclean e he).symm.trans hset) Bool.false_ne_true
  | succ n => simp [Sys.fresh, ht] at hs

theorem usedNvramPages_reachable : (writing smallMachine).Reachable usedNvramPages := by
  have hfresh : (writing smallMachine).Reachable
      ⟨Sys.fresh [some twoNvramPages], fun _ _ => False⟩ :=
    .init ⟨⟨_, _, _, _, _, rfl⟩, twoNvramPages_clean⟩
  have hbound : (writing smallMachine).Reachable ⟨oneProcess twoNvramPages, fun _ _ => False⟩ :=
    hfresh.step (Or.inr ⟨some (.of .bind 1 .dram), rfl, by simp⟩)
  refine hbound.step (Or.inl ⟨⟨rfl, fun _ _ => rfl⟩, fun t a => t = 1 ∧ a = 8192, ?_, ?_⟩)
  · rintro t a ⟨s, hs, e, he, rfl, hset⟩
    by_cases ht : t = 1
    · subst ht
      have hwrote : ∀ e ∈ (MmStruct.ofPtes [.of 4096 1000 true false,
          .of 8192 1001 true true]).ptes, e.pte.dirty = true → e.addr = 8192 := by decide
      obtain rfl := Option.some.inj hs
      exact Or.inr ⟨rfl, hwrote e he hset⟩
    · refine Or.inl ⟨s, ?_, e, he, rfl, hset⟩
      exact (Function.update_of_ne ht _ _).symm.trans hs
  · intro t a
    exact (or_iff_right id).symm

/-- The find names the written page before the read one, and the clear after it resets both. -/
theorem written_first_usedNvramPages :
    promotions (processReq smallMachine (some (.of .find 2 .nvram)) usedNvram).reply =
        [⟨8192, 1⟩, ⟨4096, 1⟩] ∧
      (∃ ps bs, [⟨8192, 1⟩, ⟨4096, 1⟩] = ps ++ bs ∧
        WrittenFirst smallMachine usedNvramPages ps bs) ∧
      ∀ s', usedNvramPages.ReqStep smallMachine (some (.of .find 0 .nvramClear)) s' →
        ¬ s'.written 1 8192 := by
  obtain ⟨hfind, hclear⟩ := written_first smallMachine usedNvramPages usedNvramPages_reachable
  have hreply : promotions (processReq smallMachine (some (.of .find 2 .nvram)) usedNvram).reply =
      [⟨8192, 1⟩, ⟨4096, 1⟩] := by decide
  refine ⟨hreply, ?_, ?_⟩
  · obtain ⟨ps, bs, hsplit, hfirst, -⟩ := hfind _ .nvram (isFind_of 2 .nvram) (by decide)
      (by decide) (by decide)
    exact ⟨ps, bs, hreply.symm.trans hsplit, hfirst⟩
  · intro s' hstep
    exact hclear _ s' (isFind_of 0 .nvramClear) ⟨_, rfl⟩ hstep 1 (by decide) 8192
      ⟨_, rfl, .of 8192 1001 true true, by decide, rfl, rfl⟩

end Ambix.Hyb
