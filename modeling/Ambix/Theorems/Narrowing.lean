import Ambix.Theorems.Thresholds

/-!
# Counts and the narrowing to an int

The quotient of a byte count and the page size is an int before it is compared with
`MAX_N_FIND`. The clamp cannot tell a count that the narrowing has made negative: with pages
of 4096 bytes a count is in range exactly when bit 43 of the byte count is clear.
-/

namespace Ambix.Ctl

open Ambix.Lib

/-- Bit 43 of the bytes that a find is for is clear. The targets are 19/20 of a size, the
limit of DRAM is 24/25 of it. -/
def Tiers.Survives (t : Tiers) : FindMode → Prop
  | .dram => min (t.dram.sz - 20 * t.dram.fr) (20 * t.nvram.fr - t.nvram.sz) / 20 %
      17592186044416 < 8796093022208
  | .nvram => min (t.nvram.sz - 20 * t.nvram.fr) (20 * t.dram.fr - t.dram.sz) / 20 %
      17592186044416 < 8796093022208
  | .nvramIntensive => (25 * t.dram.fr - t.dram.sz) / 25 % 17592186044416 < 8796093022208
  | .switch | .nvramClear | .nvramWrite => True

section

variable {t : Tiers}

theorem floor_min_div (a b : Int) :
    ⌊min ((a : ℚ) / 20) ((b : ℚ) / 20)⌋ = min a b / 20 := by
  rw [min_div_div_right (by norm_num : (0 : ℚ) ≤ 20), ← Int.cast_min]
  exact Rat.floor_intCast_div_natCast _ 20

theorem Tier.Sound.above_target {t : Tier} (h : t.Sound) :
    (t.usage - 95 / 100) * t.sz = ((t.sz - 20 * t.fr : Int) : ℚ) / 20 := by
  rw [h.above]
  push_cast
  ring

theorem Tier.Sound.below_target {t : Tier} (h : t.Sound) :
    (95 / 100 - t.usage) * t.sz = ((20 * t.fr - t.sz : Int) : ℚ) / 20 := by
  rw [h.below]
  push_cast
  ring

theorem Tiers.Sound.floor_dram (h : t.Sound) :
    ⌊t.amount .dram⌋ = min (t.dram.sz - 20 * t.dram.fr) (20 * t.nvram.fr - t.nvram.sz) / 20 := by
  rw [← floor_min_div, ← h.dram.above_target, ← h.nvram.below_target]
  rfl

theorem Tiers.Sound.floor_nvram (h : t.Sound) :
    ⌊t.amount .nvram⌋ = min (t.nvram.sz - 20 * t.nvram.fr) (20 * t.dram.fr - t.dram.sz) / 20 := by
  rw [← floor_min_div, ← h.nvram.above_target, ← h.dram.below_target]
  rfl

theorem Tiers.Sound.floor_intensive (h : t.Sound) :
    ⌊t.amount .nvramIntensive⌋ = (25 * t.dram.fr - t.dram.sz) / 25 := by
  have hbytes : t.amount .nvramIntensive = ((25 * t.dram.fr - t.dram.sz : Int) : ℚ) / 25 := by
    show (dramLimit - t.dram.usage) * t.dram.sz = _
    rw [h.dram.below, dramLimit]
    push_cast
    ring
  rw [hbytes]
  exact Rat.floor_intCast_div_natCast _ 25

/-- The narrowing keeps a number of pages of 4096 bytes if bit 43 of the bytes is clear. -/
theorem Tiers.Sound.inRange_iff (h : t.Sound) {mode : FindMode} (hnonneg : 0 ≤ t.amount mode) :
    InRange (hyb.find 4096 t mode).nPages ↔ ⌊t.amount mode⌋ % 17592186044416 < 8796093022208 := by
  show InRange (toPages 4096 (t.amount mode)) ↔ _
  rw [toPages_inRange_iff hnonneg (h.amount_lt mode), pieces_of_nonneg hnonneg]
  omega

/-- **Which counts survive the narrowing**: in each branch that an iteration takes, those
for whose bytes bit 43 is clear. -/
theorem memcheck_counts_iff (P : Platform) (it : Iteration) (prev : Int)
    (hbefore : (readTiers P it.sizes).Sound) (hafter : (readTiers P it.sizesAfter).Sound) :
    (∀ f ∈ (memcheckPlacement P 4096 it prev).finds,
        f.mode = .dram ∨ f.mode = .nvram ∨ f.mode = .nvramIntensive → InRange f.nPages) ↔
      (hyb.Intensive P it prev → (readTiers P it.sizes).Survives .nvramIntensive) ∧
        (it.threshAct = true → (hyb.latest P it prev).dramOver →
          (hyb.latest P it prev).Survives .dram) ∧
        (it.threshAct = true → it.switchAct = false → (hyb.latest P it prev).nvramOver →
          (hyb.latest P it prev).Survives .nvram) := by
  have hlatest := hyb.latest_sound prev hbefore hafter
  have hintensive : ∀ h : hyb.Intensive P it prev,
      (InRange (hyb.find 4096 (readTiers P it.sizes) .nvramIntensive).nPages ↔
        (readTiers P it.sizes).Survives .nvramIntensive) := by
    intro h
    rw [hbefore.inRange_iff (hbefore.intensive_nonneg (hyb_intensive_iff.mp h).2), hbefore.floor_intensive]
    rfl
  have hdram : ∀ h : (hyb.latest P it prev).dramOver,
      (InRange (hyb.find 4096 (hyb.latest P it prev) .dram).nPages ↔
        (hyb.latest P it prev).Survives .dram) := by
    intro h
    rw [hlatest.inRange_iff (hlatest.dram_nonneg h), hlatest.floor_dram]
    rfl
  have hnvram : ∀ h : (hyb.latest P it prev).nvramOver,
      (InRange (hyb.find 4096 (hyb.latest P it prev) .nvram).nPages ↔
        (hyb.latest P it prev).Survives .nvram) := by
    intro h
    rw [hlatest.inRange_iff (hlatest.nvram_nonneg h), hlatest.floor_nvram]
    rfl
  constructor
  · intro hall
    refine ⟨fun h => ?_, fun hact hover => ?_, fun hact hoff hover => ?_⟩
    · exact (hintensive h).mp (hall _ (Controller.mem_finds_iff.mpr (.intensive h)) (Or.inr (Or.inr rfl)))
    · exact (hdram hover).mp (hall _ (Controller.mem_finds_iff.mpr (.dram hact (hyb_dramOver_iff.mpr hover))) (Or.inl rfl))
    · exact (hnvram hover).mp
        (hall _ (Controller.mem_finds_iff.mpr (.nvram hact hoff (decide_eq_false hover.not_dramOver)
          (hyb_nvramOver_iff.mpr hover))) (Or.inr (Or.inl rfl)))
  · rintro ⟨hi, hd, hv⟩ f hf hmode
    cases Controller.mem_finds_iff.mp hf with
    | clear => simp at hmode
    | switch => simp at hmode
    | intensive h => exact (hintensive h).mpr (hi h)
    | dram hact hover =>
      have hover := hyb_dramOver_iff.mp hover
      exact (hdram hover).mpr (hd hact hover)
    | nvram hact hoff _ hover =>
      have hover := hyb_nvramOver_iff.mp hover
      exact (hnvram hover).mpr (hv hact hoff hover)

end

/-- The tiers of `fullDram` are small enough: its count is in range. -/
theorem memcheck_counts_fullDram :
    ¬ hyb.Intensive (.shipped fun _ => 0) fullDram 0 ∧
      ∀ f ∈ (memcheckPlacement (.shipped fun _ => 0) 4096 fullDram 0).finds,
        f.mode = .dram ∨ f.mode = .nvram ∨ f.mode = .nvramIntensive → InRange f.nPages := by
  refine ⟨by decide, ?_⟩
  refine (memcheck_counts_iff (.shipped fun _ => 0) fullDram 0
    ⟨⟨by decide, by decide, by decide, by decide⟩, ⟨by decide, by decide, by decide, by decide⟩⟩
    ⟨⟨by decide, by decide, by decide, by decide⟩, ⟨by decide, by decide, by decide, by decide⟩⟩).mpr
    ⟨fun h => absurd h (by decide), fun _ _ => ?_, fun _ hoff => absurd hoff (by decide)⟩
  show (_ : Int) < _
  decide

/-- A DRAM tier of 160 TiB that is full, and as much NVRAM, half of it free. -/
def hugeTiers : Iteration where
  switchAct := true
  threshAct := true
  sizes node := if node = 0 then ⟨175921860444160, 0⟩ else ⟨175921860444160, 87960930222080⟩
  memdataLmod := 0
  md := none
  sent _ := 0
  sizesAfter node := if node = 0 then ⟨175921860444160, 0⟩ else ⟨175921860444160, 87960930222080⟩

/-- The bytes above the target are the 2^31 pages that narrow to the least int. -/
theorem memcheck_counts_negative :
    (readTiers (.shipped fun _ => 0) hugeTiers.sizes).Sound ∧
      ((memcheckPlacement (.shipped fun _ => 0) 4096 hugeTiers 0).finds.map fun f =>
        (f.nPages, f.mode)) = [(some (-2147483648), .dram)] ∧
      ¬ ∀ f ∈ (memcheckPlacement (.shipped fun _ => 0) 4096 hugeTiers 0).finds,
        f.mode = .dram ∨ f.mode = .nvram ∨ f.mode = .nvramIntensive → InRange f.nPages := by
  refine ⟨⟨⟨by decide, by decide, by decide, by decide⟩,
    ⟨by decide, by decide, by decide, by decide⟩⟩, by decide +kernel, fun hall => ?_⟩
  have hcount : (hyb.find 4096 (hyb.latest (.shipped fun _ => 0) hugeTiers 0) .dram).nPages =
      some (-2147483648) := by decide +kernel
  obtain ⟨n, hn, hnonneg, _⟩ :=
    hall _ (Controller.mem_finds_iff.mpr (.dram rfl (by decide +kernel))) (Or.inl rfl)
  rw [hcount, Option.some.injEq] at hn
  omega

end Ambix.Ctl
