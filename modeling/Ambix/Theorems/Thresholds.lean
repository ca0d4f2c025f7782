import Ambix.Logic.Memcheck

/-!
# The thresholds neither overshoot nor oscillate

A find for pages of a tier is for no more than what is above the tier's target and what the
other tier has room for below its own, so whatever part of it is moved, the find of the other
direction has no cause afterwards.
-/

namespace Ambix.Ctl

open Ambix.Lib

/-- The tiers after bytes have gone the way of a find, and nothing else has happened. -/
def Tiers.after (t : Tiers) (mode : FindMode) (bytes : Int) : Tiers :=
  if mode = .dram then ⟨t.dram.drain bytes, t.nvram.fill bytes⟩
  else ⟨t.dram.fill bytes, t.nvram.drain bytes⟩

/-- What holds after bytes have gone the way of a find: the targets, the room that there was
for them, and that there is no cause for the other direction. -/
def Settles (t : Tiers) (bytes : Int) : FindMode → Prop
  | .dram => dramTarget ≤ (t.after .dram bytes).dram.usage ∧
      (t.after .dram bytes).nvram.usage ≤ nvramTarget ∧ bytes ≤ t.nvram.fr ∧
      ¬ (t.after .dram bytes).nvramOver
  | .nvram => nvramTarget ≤ (t.after .nvram bytes).nvram.usage ∧
      (t.after .nvram bytes).dram.usage ≤ dramTarget ∧ bytes ≤ t.dram.fr ∧
      ¬ (t.after .nvram bytes).dramOver
  | .nvramIntensive => (t.after .nvramIntensive bytes).dram.usage ≤ dramLimit ∧
      bytes ≤ t.dram.fr ∧ ¬ (t.after .nvramIntensive bytes).dramOver
  | .switch | .nvramClear | .nvramWrite => True

section

variable {P : Platform} {pageSize : Int} {it : Iteration} {t : Tiers} {bytes : Int}

/-- Bytes that there is room for below a limit are free. -/
theorem Tier.Sound.fits_below {t : Tier} {limit : ℚ} (h : t.Sound) (hlimit : limit ≤ 1)
    (hbytes : (bytes : ℚ) ≤ (limit - t.usage) * t.sz) : bytes ≤ t.fr :=
  Int.cast_le.mp (le_trans hbytes (h.below_le hlimit))

/-- **No more bytes than the amount of a find** settle. -/
theorem Tiers.Sound.settles (h : t.Sound) {mode : FindMode} (hbytes : (bytes : ℚ) ≤ t.amount mode) :
    Settles t bytes mode := by
  cases mode with
  | dram =>
    obtain ⟨habove, hroom⟩ := le_min_iff.mp hbytes
    have hnvram := (Tier.usage_fill_le h.nvram).mpr hroom
    refine ⟨(Tier.le_usage_drain h.dram).mpr habove, hnvram, ?_, ?_⟩
    · exact h.nvram.fits_below (by norm_num [nvramTarget]) hroom
    · rintro ⟨hover, _⟩
      have hlt := lt_of_lt_of_le hover hnvram
      norm_num [nvramLimit, nvramTarget] at hlt
  | nvram =>
    obtain ⟨habove, hroom⟩ := le_min_iff.mp hbytes
    have hdram := (Tier.usage_fill_le h.dram).mpr hroom
    refine ⟨(Tier.le_usage_drain h.nvram).mpr habove, hdram, ?_, ?_⟩
    · exact h.dram.fits_below (by norm_num [dramTarget]) hroom
    · rintro ⟨hover, _⟩
      have hlt := lt_of_lt_of_le hover hdram
      norm_num [dramLimit, dramTarget] at hlt
  | nvramIntensive =>
    have hdram := (Tier.usage_fill_le h.dram).mpr hbytes
    refine ⟨hdram, h.dram.fits_below (by norm_num [dramLimit]) hbytes, ?_⟩
    rintro ⟨hover, _⟩
    exact absurd hover (not_lt.mpr hdram)
  | switch => trivial
  | nvramClear => trivial
  | nvramWrite => trivial

/-- A find by the tiers has a count, and any part of it settles. -/
theorem Tiers.Sound.find_settles (h : t.Sound) (hpage : 0 < pageSize) {mode : FindMode}
    (hnonneg : 0 ≤ t.amount mode) (hfit : pieces pageSize (t.amount mode) < 2147483648) :
    ∃ n, (hyb.find pageSize t mode).nPages = some n ∧ 0 ≤ n ∧
      ∀ m, 0 ≤ m → m ≤ n → Settles t (m * pageSize) mode := by
  have hcount := toPages_of_nonneg pageSize hnonneg (h.amount_lt mode)
  obtain ⟨hn, hle⟩ := toPages_le hnonneg (h.amount_lt mode) hpage hfit hcount
  refine ⟨_, hcount, hn, fun m _ hm => h.settles (le_trans ?_ hle)⟩
  exact Int.cast_le.mpr (Int.mul_le_mul_of_nonneg_right hm hpage.le)

/-- **`memcheck_placement` neither overshoots nor oscillates.** Any part of what a find asks
for settles, and what an intensive find has moved gives no cause for a find of DRAM pages in
the same iteration. -/
theorem memcheck_settles (P : Platform) (pageSize : Int) (it : Iteration) (prev : Int)
    (hpage : 0 < pageSize) (hbefore : (readTiers P it.sizes).Sound)
    (hafter : (readTiers P it.sizesAfter).Sound)
    (hfit : ∀ f ∈ (memcheckPlacement P pageSize it prev).finds,
      pieces pageSize (f.seen.amount f.mode) < 2147483648) :
    (∀ f ∈ (memcheckPlacement P pageSize it prev).finds, ∃ n, f.nPages = some n ∧ 0 ≤ n ∧
        ∀ m, 0 ≤ m → m ≤ n → Settles f.seen (m * pageSize) f.mode) ∧
      ∀ f ∈ (memcheckPlacement P pageSize it prev).finds, f.mode = .nvramIntensive →
        ∀ n m, f.nPages = some n → 0 ≤ m → m ≤ n →
          readTiers P it.sizesAfter = f.seen.after .nvramIntensive (m * pageSize) →
          ∀ g ∈ (memcheckPlacement P pageSize it prev).finds, g.mode ≠ .dram := by
  have hlatest := hyb.latest_sound prev hbefore hafter
  have hparts : ∀ f ∈ (memcheckPlacement P pageSize it prev).finds, ∃ n, f.nPages = some n ∧
      0 ≤ n ∧ ∀ m, 0 ≤ m → m ≤ n → Settles f.seen (m * pageSize) f.mode := by
    intro f hf
    have hpieces := hfit f hf
    cases Controller.mem_finds_iff.mp hf with
    | clear => exact ⟨0, rfl, Int.le_refl _, fun _ _ _ => trivial⟩
    | switch => exact ⟨_, rfl, Int.natCast_nonneg _, fun _ _ _ => trivial⟩
    | intensive h => exact hbefore.find_settles hpage (hbefore.intensive_nonneg (hyb_intensive_iff.mp h).2) hpieces
    | dram _ hover =>
      exact hlatest.find_settles hpage (hlatest.dram_nonneg (hyb_dramOver_iff.mp hover)) hpieces
    | nvram _ _ _ hover =>
      exact hlatest.find_settles hpage (hlatest.nvram_nonneg (hyb_nvramOver_iff.mp hover)) hpieces
  refine ⟨hparts, fun f hf hmode n m hn hm hle hread g hg hdram => ?_⟩
  obtain ⟨n', hn', _, hsettles⟩ := hparts f hf
  rw [hn, Option.some.injEq] at hn'
  subst hn'
  have hcalm := hsettles m hm hle
  rw [hmode] at hcalm
  cases Controller.mem_finds_iff.mp hf with
  | clear => cases hmode
  | switch => cases hmode
  | dram => cases hmode
  | nvram => cases hmode
  | intensive hint =>
    cases Controller.mem_finds_iff.mp hg with
    | clear => cases hdram
    | switch => cases hdram
    | intensive => cases hdram
    | nvram => cases hdram
    | dram _ hover =>
      have hover := hyb_dramOver_iff.mp hover
      unfold Controller.latest at hover
      split at hover
      · -- read again after the find
        rw [hread] at hover
        exact hcalm.2.2 hover
      · -- still the tiers before it, which are below the target
        have hlt := lt_trans hover.1 (hyb_intensive_iff.mp hint).2
        norm_num [dramLimit, dramTarget] at hlt

end

/-- The node of DRAM has 1000 pages, 10 of them free. -/
def fullDram : Iteration where
  switchAct := true
  threshAct := true
  sizes node := if node = 0 then ⟨4096000, 40960⟩ else ⟨8192000, 4096000⟩
  memdataLmod := 0
  md := none
  sent _ := 0
  sizesAfter _ := ⟨4096000, 40960⟩

/-- Forty pages are asked for, and each part of them settles. -/
theorem memcheck_settles_fullDram :
    ((memcheckPlacement (.shipped fun _ => 0) 4096 fullDram 0).finds.map fun f =>
        (f.nPages, f.mode)) = [(some 40, .dram)] ∧
      ∀ f ∈ (memcheckPlacement (.shipped fun _ => 0) 4096 fullDram 0).finds, ∃ n,
        f.nPages = some n ∧ 0 ≤ n ∧ ∀ m, 0 ≤ m → m ≤ n → Settles f.seen (m * 4096) f.mode := by
  refine ⟨by decide +kernel, ?_⟩
  exact (memcheck_settles (.shipped fun _ => 0) 4096 fullDram 0 (by decide)
    ⟨⟨by decide, by decide, by decide, by decide⟩, ⟨by decide, by decide, by decide, by decide⟩⟩
    ⟨⟨by decide, by decide, by decide, by decide⟩, ⟨by decide, by decide, by decide, by decide⟩⟩
    (by decide +kernel)).1

end Ambix.Ctl
