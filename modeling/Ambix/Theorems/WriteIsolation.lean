import Ambix.Theorems.Duplicates

/-!
# Write isolation

A DRAM page that is accessed and dirty is no candidate when a walk first comes to
it, but passing over it clears its dirty bit. The page at the DRAM hand is met a
second time, then as an accessed clean page, and becomes the last backup. A reply
demotes a hot page exactly when that backup is used.
-/

namespace Ambix.Hyb

open Ambix.Lib Ambix.Lib.QuotaScan

/-- The entries after the separator of a switch reply, up to the return code. -/
def dramSection (reply : List AddrInfo) : List AddrInfo :=
  ((reply.dropWhile fun x => decide (0 < x.pidRetval)).drop 1).takeWhile
    fun x => decide (0 < x.pidRetval)

/-- The entry names a page of a listed process that is accessed and dirty. -/
def NamesHot (σ : Sys) (y : AddrInfo) : Prop :=
  ∃ x ∈ σ.pages, x.info = y ∧ x.pte.young = true ∧ x.pte.dirty = true

/-- The page at the DRAM hand is on the tier, accessed and dirty. -/
def HotHand (P : Platform) (σ : Sys) : Prop :=
  ∃ x ∈ σ.handPage .dram,
    offTier P .dram x.pte = false ∧ x.pte.young = true ∧ x.pte.dirty = true

section

variable {P : Platform} {σ : Sys}

theorem memPolicy_hot {p : Pte} (hy : p.young = true) (hd : p.dirty = true) :
    (memPolicy P).verdict p = .skip := by
  simp [memPolicy, hy, hd]

/-- Passing over a hot page of the tier makes it a backup. -/
theorem memPolicy_hot_again {p : Pte} (hoff : offTier P .dram p = false) (hy : p.young = true) :
    (memPolicy P).verdict ((memPolicy P).after p) = .backup := by
  have hresets : (memPolicy P).resets p = true := by simp [memPolicy, hoff, hy]
  rw [(memPolicy P).after_eq, hresets]
  simp [memPolicy, hoff, hy]

/-- **The selection from a DRAM walk names a hot page exactly when the page at the
hand is hot and all other candidates are selected, too.** -/
theorem select_hot_iff (h : Registered σ) (hpos : 0 < σ.mod.nPids) (k : Nat) :
    (∃ y ∈ (select (memPolicy P).classOf k (tierVisits (memPolicy P) σ)).map Exam.info,
        NamesHot σ y) ↔
      HotHand P σ ∧ σ.nPrimary (memPolicy P) + σ.nEligible (memPolicy P) < k := by
  have hlast := h.lastPid_lt hpos .dram
  have hinj : ∀ x ∈ σ.pages, ∀ y ∈ σ.pages, x.info = y.info → x = y := fun x hx y hy heq =>
    List.inj_on_of_nodup_map (Sys.pages_nodup h.distinct) hx hy heq
  -- a page that is hot at the start is no candidate at its first visit
  have hfirst : ∀ x ∈ σ.round .dram, x.pte.young = true → x.pte.dirty = true →
      x.info ∉ (primaries (memPolicy P).classOf (σ.round .dram) ++
        backups (memPolicy P).classOf (σ.round .dram)).map Exam.info := by
    intro x hx hy hd hc
    obtain ⟨z, hz, heq⟩ := List.mem_map.mp hc
    have hsel := (select_perm (memPolicy P).classOf _).mem_iff.mp hz
    simp only [ne_eq, decide_not, List.mem_filter, Bool.not_eq_true',
      decide_eq_false_iff_not] at hsel
    obtain rfl := hinj z ((Sys.mem_round hlast).mp hsel.1) x ((Sys.mem_round hlast).mp hx) heq
    exact hsel.2 (memPolicy_hot hy hd)
  have hlenP := Sys.length_primaries_round (memPolicy P) h hpos
  have hlenB := Sys.length_backups_round (memPolicy P) h hpos
  have hvisits := tierVisits_eq (memPolicy P) h.distinct hlast
  have htier : (memPolicy P).tier = .dram := rfl
  rw [htier] at hlenP hlenB hvisits
  have hlast_iff : ∀ x, σ.handPage .dram = [x] → x ∈ σ.round .dram →
      offTier P .dram x.pte = false → x.pte.young = true → x.pte.dirty = true →
      (x.info ∈ (select (memPolicy P).classOf k (tierVisits (memPolicy P) σ)).map Exam.info ↔
        σ.nPrimary (memPolicy P) + σ.nEligible (memPolicy P) < k) := by
    intro x hone hx hoff hy hd
    rw [hvisits, hone, List.map_singleton, ← hlenP, ← hlenB]
    exact mem_select_last_backup (f := Exam.info) (y := x.again (memPolicy P))
      (memPolicy P).classOf (memPolicy_hot_again hoff hy) (hfirst x hx hy hd) k
  constructor
  · rintro ⟨y, hy, x, hx, hinfo, hyoung, hdirty⟩
    obtain ⟨w, hw, rfl⟩ := List.mem_map.mp hy
    obtain ⟨hwv, hwc⟩ := mem_select _ hw
    rw [hvisits, List.mem_append, List.mem_map] at hwv
    rcases hwv with hround | ⟨z, hz, rfl⟩
    · have hwx := hinj w ((Sys.mem_round hlast).mp hround) x hx hinfo.symm
      exact absurd (hwx ▸ memPolicy_hot hyoung hdirty) hwc
    · rcases Sys.handPage_cases (σ := σ) .dram with hnone | ⟨z', hone, hmem⟩
      · rw [hnone] at hz
        simp at hz
      · obtain rfl : z = z' := by simpa [hone] using hz
        obtain rfl := hinj x hx z ((Sys.mem_round hlast).mp hmem) hinfo
        have hoff : offTier P .dram x.pte = false :=
          ((memPolicy P).offTier_after _ _).symm.trans ((memPolicy P).verdict_onTier _ hwc)
        have hin : (x.again (memPolicy P)).info ∈ _ := List.mem_map_of_mem hw
        exact ⟨⟨x, hz, hoff, hyoung, hdirty⟩,
          (hlast_iff x hone hmem hoff hyoung hdirty).mp hin⟩
  · rintro ⟨⟨x, hx, hoff, hyoung, hdirty⟩, hk⟩
    rcases Sys.handPage_cases (σ := σ) .dram with hnone | ⟨x', hone, hmem⟩
    · rw [hnone] at hx
      simp at hx
    · obtain rfl : x = x' := by simpa [hone] using hx
      exact ⟨x.info, (hlast_iff x hone hmem hoff hyoung hdirty).mpr hk, x,
        (Sys.mem_round hlast).mp hmem, rfl, hyoung, hdirty⟩

/-- The DRAM section of a switch reply is its DRAM side. -/
theorem dramSection_switch {N D : List AddrInfo} {sep fin : AddrInfo}
    (hN : ∀ y ∈ N, 0 < y.pidRetval) (hsep : sep.pidRetval = 0) (hD : ∀ y ∈ D, 0 < y.pidRetval)
    (hfin : ¬ 0 < fin.pidRetval) : dramSection (N ++ sep :: (D ++ [fin])) = D := by
  have hdrop : (N ++ sep :: (D ++ [fin])).dropWhile (fun x => decide (0 < x.pidRetval)) =
      sep :: (D ++ [fin]) := by
    rw [List.dropWhile_append_of_pos (fun y hy => by simpa using hN y hy)]
    simp [hsep]
  rw [dramSection, hdrop, List.drop_succ_cons, List.drop_zero,
    List.takeWhile_append_of_pos (fun y hy => by simpa using hD y hy)]
  simp [hfin]

theorem dramSection_code (fin : AddrInfo) (hfin : ¬ 0 < fin.pidRetval) :
    dramSection [fin] = [] := by
  simp [dramSection, hfin]

/-- The pages a reply says to move out of DRAM. -/
def demotions (mode : FindMode) (reply : List AddrInfo) : List AddrInfo :=
  if mode = .switch then dramSection reply else candidatesOf reply

/-- The count of a request reaches the slot of a hot page at the DRAM hand: it
exceeds all other DRAM candidates, and in a switch the NVRAM pages do as well. -/
def DemotesHot (P : Platform) (mode : FindMode) (req : Req) (σ : Sys) : Prop :=
  0 < σ.mod.nPids ∧ HotHand P σ ∧
    if mode = .switch then
      σ.nPrimary (memPolicy P) + σ.nEligible (memPolicy P) < count maxNSwitch req ∧
        σ.nPrimary (memPolicy P) + σ.nEligible (memPolicy P) <
          σ.visitsPrimary (nvramSwitchPolicy P)
    else σ.nPrimary (memPolicy P) + σ.nEligible (memPolicy P) < count maxNFind req

/-- **Write isolation holds exactly when the page at the DRAM hand is not hot or
the count does not reach it.** -/
theorem find_isolates_iff (hreach : (hyb P).Reachable σ) {mode : FindMode}
    (hmode : mode = .dram ∨ mode = .switch) {req : Req} (hreq : IsFind req mode)
    (hn : 0 ≤ req.pidN.toInt) :
    (∀ y ∈ demotions mode (processReq P (some req) σ).reply, ¬ NamesHot σ.refreshed y) ↔
      ¬ DemotesHot P mode req σ.refreshed := by
  have h := registered_invariant P σ hreach
  have hr := h.refreshed
  have hswap : (∀ y ∈ demotions mode (processReq P (some req) σ).reply,
      ¬ NamesHot σ.refreshed y) ↔ ¬ ∃ y ∈ demotions mode (processReq P (some req) σ).reply,
        NamesHot σ.refreshed y := by simp
  rw [hswap, not_iff_not]
  rcases hmode with rfl | rfl
  · have hcand : candidatesOf (processReq P (some req) σ).reply =
        plainPicks (memPolicy P) (count maxNFind req) σ.refreshed :=
      find_plain_candidates (show memWalkPolicy P .dram = some (memPolicy P) from rfl) h hreq hn
    simp only [demotions, DemotesHot, reduceCtorEq, if_false, hcand, plainPicks]
    split
    · rename_i hpos
      rw [select_hot_iff hr hpos, and_iff_right hpos]
    · exact iff_of_false (by simp) fun hc => ‹¬ _› hc.1
  · obtain ⟨_, fin, hfin, hreply⟩ := find_switch (P := P) h hreq hn
    have hfin' : ¬ 0 < fin.pidRetval := by omega
    simp only [demotions, DemotesHot, if_true]
    rcases hreply with ⟨hpos, sep, hsep, hreply⟩ | ⟨hzero, hreply⟩
    · obtain ⟨hN, hD⟩ := switchPicks_pid_pos (P := P) hr (n := count maxNSwitch req)
      rw [hreply, dramSection_switch hN hsep hD hfin', switchPicks, if_pos hpos, switchSides,
        select_hot_iff hr hpos, and_iff_right hpos]
      refine and_congr_right fun hhot => ?_
      obtain ⟨x, hx, hoff, hyoung, _⟩ := hhot
      obtain ⟨h1, h2⟩ := (Sys.visits_counts (memPolicy P) hr hpos hx).2
        (memPolicy_hot_again hoff hyoung)
      rw [switchCount_eq, h1, h2, lt_pairCount_dram_backup]
    · rw [hreply, dramSection_code fin hfin']
      exact iff_of_false (by simp) fun hc => by omega

end

/-! ## A hot page demoted -/

/-- Two pages were cold when a find left the DRAM hand at the second one; since then
the process has written both. -/
def writtenPages : Sys :=
  { twoColdPages with
    mm := fun _ => some (.ofPtes [.of 4096 1 true true, .of 8192 2 true true]) }

theorem writtenPages_reachable : (hyb smallMachine).Reachable writtenPages :=
  (Sys.fresh_reachable _ _ _ : (hyb smallMachine).Reachable twoColdPages).step
    (Or.inl ⟨rfl, fun _ _ => rfl⟩)

theorem find_demotes_hot :
    (hyb smallMachine).Reachable writtenPages ∧ IsFind (.of .find 5 .dram) .dram ∧
      ∃ y ∈ demotions .dram (processReq smallMachine (some (.of .find 5 .dram)) writtenPages).reply,
        NamesHot writtenPages.refreshed y :=
  ⟨writtenPages_reachable, ⟨rfl, rfl⟩, ⟨8192, 1⟩, by decide,
    ⟨1, 1, 8192, ⟨true, true, true, true, 2⟩⟩, by decide, rfl, rfl, rfl⟩

theorem find_isolates_iff_writtenPages :
    (∀ y ∈ demotions .dram (processReq smallMachine (some (.of .find 5 .dram)) writtenPages).reply,
        ¬ NamesHot writtenPages.refreshed y) ↔
      ¬ DemotesHot smallMachine .dram (.of .find 5 .dram) writtenPages.refreshed :=
  find_isolates_iff writtenPages_reachable (Or.inl rfl) ⟨rfl, rfl⟩ (by decide)

end Ambix.Hyb
