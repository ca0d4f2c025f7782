import Ambix.Hyb.Machine
import Ambix.Logic.Counts
import Ambix.Logic.Find

/-!
# When a reply names a page twice

The last stretch of `do_page_walk` ends at `last_addr + 1`, so a walk that goes
all the way round comes to the page at the hand a second time. The reply names a
page twice exactly when that page is a candidate and the count reaches its second
slot; `RepeatsHand` is that condition on the page tables, mode by mode.
-/

namespace Ambix.Hyb

open Ambix.Lib Ambix.Lib.QuotaScan

section

variable {P : Platform} {σ : Sys} (π : Policy P)

/-- **A selection from the visits names a page twice exactly when it reaches the
second slot of the page at the hand.** -/
theorem select_visits_nodup (h : Registered σ) (hpos : 0 < σ.mod.nPids) (k : Nat) :
    ((select π.classOf k (tierVisits π σ)).map Exam.info).Nodup ↔
      ¬ ∃ x ∈ σ.handPage π.tier,
        (π.verdict x.pte = .primary ∧ σ.nPrimary π < k) ∨
          (π.verdict x.pte = .backup ∧ σ.nPrimary π + σ.nEligible π < k) := by
  have hlast := h.lastPid_lt hpos π.tier
  have hround := Sys.round_nodup h.distinct hlast
  rw [tierVisits_eq π h.distinct hlast, ← Sys.length_primaries_round π h hpos,
    ← Sys.length_backups_round π h hpos]
  rcases Sys.handPage_cases (σ := σ) π.tier with hnone | ⟨x, hone, hmem⟩
  · rw [hnone, List.map_nil, List.append_nil]
    exact iff_of_true (select_nodup _ hround k) (by simp)
  · rw [hone, List.map_singleton]
    have hinfo : (x.again π).info = x.info := rfl
    cases hv : π.verdict x.pte with
    | primary =>
      have hagain : π.classOf (x.again π) = .primary := (π.verdict_after_primary x.pte).mpr hv
      have hin : x ∈ primaries π.classOf (σ.round π.tier) := (mem_primaries _).mpr ⟨hmem, hv⟩
      rw [select_repeat_primary _ hround hagain (by rw [hinfo]; exact List.mem_map_of_mem hin) k]
      simp [hv]
    | backup =>
      have hagain : π.classOf (x.again π) = .backup := π.verdict_after_backup hv
      have hin : x ∈ backups π.classOf (σ.round π.tier) := (mem_backups _).mpr ⟨hmem, hv⟩
      rw [select_repeat_backup _ hround hagain
        (by rw [hinfo]; exact List.mem_map_of_mem (List.mem_append_right _ hin)) k]
      simp [hv]
    | skip =>
      -- a page passed over is selected neither at first nor again
      have hout : (x.again π).info ∉ (primaries π.classOf (σ.round π.tier) ++
          backups π.classOf (σ.round π.tier)).map Exam.info := by
        intro hc
        obtain ⟨y, hy, heq⟩ := List.mem_map.mp hc
        have hsel := (select_perm π.classOf _).mem_iff.mp hy
        simp only [ne_eq, decide_not, List.mem_filter, Bool.not_eq_true',
          decide_eq_false_iff_not] at hsel
        obtain rfl := Sys.round_inj π h hpos hsel.1 hmem heq
        exact hsel.2 hv
      exact iff_of_true (select_last_nodup _ hround hout k) (by simp [hv])

end

/-! ## The condition -/

/-- A plain find for `n` pages reaches the second slot of the page at the hand. -/
def PlainRepeat {P : Platform} (π : Policy P) (n : Nat) (σ : Sys) : Prop :=
  ∃ x ∈ σ.handPage π.tier,
    (π.verdict x.pte = .primary ∧ σ.nPrimary π < n) ∨
      (π.verdict x.pte = .backup ∧ σ.nPrimary π + σ.nEligible π < n)

/-- A switch for `n` pairs does, on its NVRAM side or on its DRAM side. The other
side has to be long enough, too. -/
def SwitchRepeat (P : Platform) (n : Nat) (σ : Sys) : Prop :=
  let N := nvramSwitchPolicy P
  let D := memPolicy P
  (∃ x ∈ σ.handPage .nvram,
    (N.verdict x.pte = .primary ∧ σ.nPrimary N < n ∧
      σ.nPrimary N < σ.visitsPrimary D + σ.visitsEligible D) ∨
    (N.verdict x.pte = .backup ∧ σ.nPrimary N + σ.nEligible N < n ∧
      σ.nPrimary N + σ.nEligible N < σ.visitsPrimary D)) ∨
  ∃ x ∈ σ.handPage .dram,
    (D.verdict x.pte = .primary ∧ σ.nPrimary D < n ∧
      σ.nPrimary D < σ.visitsPrimary N + σ.visitsEligible N ∧
      (σ.visitsPrimary N ≤ σ.nPrimary D + 1 ∨ n ≤ σ.nPrimary D + 1 ∨ 0 < σ.nEligible D)) ∨
    (D.verdict x.pte = .backup ∧ σ.nPrimary D + σ.nEligible D < n ∧
      σ.nPrimary D + σ.nEligible D < σ.visitsPrimary N)

/-- The reply to a FIND will name a page twice: the registry is not empty and the
count reaches the second slot of the page at a hand. -/
def RepeatsHand (P : Platform) (mode : FindMode) (req : Req) (σ : Sys) : Prop :=
  0 < σ.mod.nPids ∧
    match memWalkPolicy P mode with
    | some π => PlainRepeat π (count maxNFind req) σ
    | none => SwitchRepeat P (count maxNSwitch req) σ

section

variable {n pN eN pD eD : Nat}

theorem lt_pairCount_nvram_primary :
    pN < pairCount n (pN + 1) eN pD eD ↔ pN < n ∧ pN < pD + eD := by
  unfold pairCount
  simp only
  split
  · omega
  · split <;> omega

theorem lt_pairCount_nvram_backup :
    pN + eN < pairCount n pN (eN + 1) pD eD ↔ pN + eN < n ∧ pN + eN < pD := by
  unfold pairCount
  simp only
  split
  · omega
  · split <;> omega

theorem lt_pairCount_dram_primary :
    pD < pairCount n pN eN (pD + 1) eD ↔
      pD < n ∧ pD < pN + eN ∧ (pN ≤ pD + 1 ∨ n ≤ pD + 1 ∨ 0 < eD) := by
  unfold pairCount
  simp only
  split
  · omega
  · split <;> omega

theorem lt_pairCount_dram_backup :
    pD + eD < pairCount n pN eN pD (eD + 1) ↔ pD + eD < n ∧ pD + eD < pN := by
  unfold pairCount
  simp only
  split
  · omega
  · split <;> omega

end

section

variable {P : Platform} {σ : Sys}

/-- The two sides of a switch never share a page: a page has one frame. -/
theorem switchSides_disjoint (h : Registered σ) (hpos : 0 < σ.mod.nPids) (n : Nat) :
    ∀ y ∈ (switchSides P n σ).1, ∀ z ∈ (switchSides P n σ).2, y ≠ z := by
  intro y hy z hz heq
  obtain ⟨x, hx, rfl⟩ := List.mem_map.mp hy
  obtain ⟨w, hw, rfl⟩ := List.mem_map.mp hz
  obtain ⟨hxv, hxc⟩ := mem_select _ hx
  obtain ⟨hwv, hwc⟩ := mem_select _ hw
  have hxt := (nvramSwitchPolicy P).verdict_onTier _ hxc
  have hwt := (memPolicy P).verdict_onTier _ hwc
  obtain ⟨x₀, hx₀, hxx⟩ := mem_tierVisits _ h hpos hxv
  obtain ⟨w₀, hw₀, hww⟩ := mem_tierVisits _ h hpos hwv
  have hxi : x.info = x₀.info := by rcases hxx with rfl | rfl <;> rfl
  have hwi : w.info = w₀.info := by rcases hww with rfl | rfl <;> rfl
  have hsame : x₀ = w₀ := List.inj_on_of_nodup_map (Sys.pages_nodup h.distinct) hx₀ hw₀
    (hxi.symm.trans (heq.trans hwi))
  have hnvram : offTier P .nvram x₀.pte = false := by
    rcases hxx with rfl | rfl
    · exact hxt
    · exact ((nvramSwitchPolicy P).offTier_after _ _).symm.trans hxt
  have hdram : offTier P .dram x₀.pte = false := by
    rw [hsame]
    rcases hww with rfl | rfl
    · exact hwt
    · exact ((memPolicy P).offTier_after _ _).symm.trans hwt
  rw [offTier_exclusive hdram] at hnvram
  simp at hnvram

/-- The slots of a switch, spelled out on the page tables. -/
theorem switchSides_nodup (h : Registered σ) (hpos : 0 < σ.mod.nPids) (n : Nat) :
    ((switchSides P n σ).1 ++ (switchSides P n σ).2).Nodup ↔ ¬ SwitchRepeat P n σ := by
  have hN := select_visits_nodup (nvramSwitchPolicy P) h hpos (switchCount P n σ)
  have hD := select_visits_nodup (memPolicy P) h hpos (switchCount P n σ)
  have hdisjoint := switchSides_disjoint (P := P) h hpos n
  rw [List.nodup_append, and_iff_left hdisjoint, switchSides, hN, hD, SwitchRepeat, ← not_or,
    not_iff_not]
  refine or_congr (exists_congr fun x => and_congr_right fun hx => ?_)
    (exists_congr fun x => and_congr_right fun hx => ?_)
  · obtain ⟨hprim, hback⟩ := Sys.visits_counts (nvramSwitchPolicy P) h hpos hx
    refine or_congr (and_congr_right fun hv => ?_) (and_congr_right fun hv => ?_)
    · rw [switchCount_eq, (hprim (((nvramSwitchPolicy P).verdict_after_primary _).mpr hv)).1,
        lt_pairCount_nvram_primary]
    · obtain ⟨h1, h2⟩ := hback ((nvramSwitchPolicy P).verdict_after_backup hv)
      rw [switchCount_eq, h1, h2, lt_pairCount_nvram_backup]
  · obtain ⟨hprim, hback⟩ := Sys.visits_counts (memPolicy P) h hpos hx
    refine or_congr (and_congr_right fun hv => ?_) (and_congr_right fun hv => ?_)
    · obtain ⟨h1, h2⟩ := hprim (((memPolicy P).verdict_after_primary _).mpr hv)
      rw [switchCount_eq, h1, h2, lt_pairCount_dram_primary]
    · obtain ⟨h1, h2⟩ := hback ((memPolicy P).verdict_after_backup hv)
      rw [switchCount_eq, h1, h2, lt_pairCount_dram_backup]

/-- **A FIND names no page twice exactly when its count does not reach the second
slot of the page at the hand.** -/
theorem find_nodup_iff {mode : FindMode} (hmode : mode ≠ .nvramClear)
    (hreach : (hyb P).Reachable σ) {req : Req} (hreq : IsFind req mode)
    (hn : 0 ≤ req.pidN.toInt) :
    (processReq P (some req) σ).candidates.Nodup ↔ ¬ RepeatsHand P mode req σ.refreshed := by
  have h := registered_invariant P σ hreach
  cases hπ : memWalkPolicy P mode with
  | some π =>
    rw [find_plain_candidates hπ h hreq hn, plainPicks]
    simp only [RepeatsHand, hπ]
    split
    · rename_i hpos
      rw [select_visits_nodup π h.refreshed hpos, and_iff_right hpos]
      rfl
    · exact iff_of_true List.nodup_nil fun hc => ‹¬ _› hc.1
  | none =>
    obtain rfl : mode = .switch := by cases mode <;> simp_all [memWalkPolicy]
    rw [find_switch_candidates h hreq hn, switchPicks]
    simp only [RepeatsHand, hπ]
    split
    · rename_i hpos
      rw [switchSides_nodup h.refreshed hpos, and_iff_right hpos]
    · exact iff_of_true List.nodup_nil fun hc => ‹¬ _› hc.1

end

/-! ## A reply with a page twice

Two cold DRAM pages; a find for one page leaves the hand at the second. -/

/-- Process 1 is bound and its two cold pages have been passed by once. -/
def twoColdPages : Sys :=
  (Sys.fresh [some [.of 4096 1 false false, .of 8192 2 false false]]).after smallMachine
    [.of .bind 1 .dram, .of .find 1 .dram]

theorem find_repeats_page :
    (hyb smallMachine).Reachable twoColdPages ∧ IsFind (.of .find 3 .dram) .dram ∧
      ¬ (processReq smallMachine (some (.of .find 3 .dram)) twoColdPages).candidates.Nodup :=
  ⟨Sys.fresh_reachable _ _ _, ⟨rfl, rfl⟩, by decide⟩

theorem find_nodup_iff_twoColdPages :
    (processReq smallMachine (some (.of .find 3 .dram)) twoColdPages).candidates.Nodup ↔
      ¬ RepeatsHand smallMachine .dram (.of .find 3 .dram) twoColdPages.refreshed :=
  find_nodup_iff (by decide) (Sys.fresh_reachable _ _ _) ⟨rfl, rfl⟩ (by decide)

end Ambix.Hyb
