import Ambix.Ctl.Memcheck
import Ambix.Ctl.Threads
import Mathlib.Tactic.NormNum

/-!
# What an iteration of `memcheck_placement` sends

The usages of a tier when bytes come and go, the counts of the finds, and for each find the
tests that lead to it.
-/

namespace Ambix.Ctl

open Ambix.Lib

/-! ## Tiers -/

/-- Sizes that a host tells: a tier has memory, not more than that is free, and a signed
64-bit integer holds its size. -/
structure Tier.Sound (t : Tier) : Prop where
  pos : 0 < t.sz
  fits : t.sz < 9223372036854775808
  nonneg : 0 ≤ t.fr
  le : t.fr ≤ t.sz

structure Tiers.Sound (t : Tiers) : Prop where
  dram : t.dram.Sound
  nvram : t.nvram.Sound

/-- Bytes that leave a tier. -/
def Tier.drain (t : Tier) (bytes : Int) : Tier := ⟨t.sz, t.fr + bytes⟩

/-- Bytes that come into a tier. -/
def Tier.fill (t : Tier) (bytes : Int) : Tier := ⟨t.sz, t.fr - bytes⟩

section

variable {t : Tier} {limit : ℚ} {bytes : Int}

theorem Tier.Sound.sz_pos (h : t.Sound) : (0 : ℚ) < t.sz := Int.cast_pos.mpr h.pos

theorem Tier.le_usage_drain (h : t.Sound) :
    limit ≤ (t.drain bytes).usage ↔ (bytes : ℚ) ≤ (t.usage - limit) * t.sz := by
  have hused : ((t.sz - (t.fr + bytes) : Int) : ℚ) = ((t.sz - t.fr : Int) : ℚ) - bytes := by
    push_cast
    ring
  unfold Tier.usage Tier.drain
  rw [hused, le_level_sub h.sz_pos]

theorem Tier.usage_fill_le (h : t.Sound) :
    (t.fill bytes).usage ≤ limit ↔ (bytes : ℚ) ≤ (limit - t.usage) * t.sz := by
  have hused : ((t.sz - (t.fr - bytes) : Int) : ℚ) = ((t.sz - t.fr : Int) : ℚ) + bytes := by
    push_cast
    ring
  unfold Tier.usage Tier.fill
  rw [hused, level_add_le h.sz_pos]

/-- What is above a limit, in bytes. -/
theorem Tier.Sound.above (h : t.Sound) (limit : ℚ) :
    (t.usage - limit) * t.sz = (t.sz - t.fr : Int) - limit * t.sz := above_eq h.sz_pos.ne' _ _

/-- The room below a limit, in bytes. -/
theorem Tier.Sound.below (h : t.Sound) (limit : ℚ) :
    (limit - t.usage) * t.sz = limit * t.sz - (t.sz - t.fr : Int) := below_eq h.sz_pos.ne' _ _

/-- The room below a limit is free memory. -/
theorem Tier.Sound.below_le (h : t.Sound) (hlimit : limit ≤ 1) :
    (limit - t.usage) * t.sz ≤ t.fr := by
  have hle := mul_le_mul_of_nonneg_right hlimit h.sz_pos.le
  rw [h.below]
  push_cast
  linarith

theorem Tier.Sound.above_le (h : t.Sound) (hlimit : 0 ≤ limit) :
    (t.usage - limit) * t.sz ≤ t.sz := by
  have hle := mul_nonneg hlimit h.sz_pos.le
  have hfr : (0 : ℚ) ≤ t.fr := Int.cast_nonneg h.nonneg
  rw [h.above]
  push_cast
  linarith

theorem Tier.Sound.above_nonneg (h : t.Sound) (hover : limit ≤ t.usage) :
    0 ≤ (t.usage - limit) * t.sz := mul_nonneg (sub_nonneg.mpr hover) h.sz_pos.le

theorem Tier.Sound.below_nonneg (h : t.Sound) (hunder : t.usage ≤ limit) :
    0 ≤ (limit - t.usage) * t.sz := mul_nonneg (sub_nonneg.mpr hunder) h.sz_pos.le

end

/-! ## Counts -/

/-- A count that the module can take. -/
def InRange (nPages : Option Int) : Prop := ∃ n, nPages = some n ∧ 0 ≤ n ∧ n ≤ maxNFind

section

variable {pageSize : Int} {x : ℚ}

theorem toLongLong_of_nonneg (h : 0 ≤ x) (hlt : x < 9223372036854775808) :
    toLongLong x = some (trunc x) := by
  have hnonneg := trunc_nonneg h
  have hfits : trunc x < 9223372036854775808 := by
    rw [trunc_of_nonneg h]
    exact Int.floor_lt.mpr (by exact_mod_cast hlt)
  exact if_pos ⟨by omega, hfits⟩

variable (pageSize) in
theorem toPages_of_nonneg (h : 0 ≤ x) (hlt : x < 9223372036854775808) :
    toPages pageSize x = some (min (wrapInt (pieces pageSize x)) maxNFind) := by
  rw [toPages, toLongLong_of_nonneg h hlt]
  rfl

/-- The clamp keeps a count that the narrowing has kept, and no other. -/
theorem inRange_clamp (n : Int) : InRange (some (min n maxNFind)) ↔ 0 ≤ n := by
  have hmax : (0 : Int) ≤ maxNFind := Int.natCast_nonneg _
  constructor
  · rintro ⟨m, hm, hlo, _⟩
    rw [Option.some.injEq] at hm
    omega
  · intro h
    exact ⟨_, rfl, by omega, by omega⟩

/-- **A count is in range** when the bytes fit in 64 bits and the sign bit of the narrowed
number of pages is clear. -/
theorem inRange_toPages_iff (pageSize : Int) (x : ℚ) : InRange (toPages pageSize x) ↔
    (-9223372036854775808 ≤ trunc x ∧ trunc x < 9223372036854775808) ∧
      pieces pageSize x % 4294967296 < 2147483648 := by
  unfold toPages toLongLong
  split
  · rename_i hfits
    rw [Option.map_some, inRange_clamp, wrapInt_nonneg_iff]
    exact (and_iff_right hfits).symm
  · rename_i hnot
    constructor
    · rintro ⟨n, hn, _⟩
      simp at hn
    · intro h
      exact absurd h.1 hnot

theorem toPages_inRange_iff (h : 0 ≤ x) (hlt : x < 9223372036854775808) :
    InRange (toPages pageSize x) ↔ pieces pageSize x % 4294967296 < 2147483648 := by
  rw [toPages_of_nonneg _ h hlt, inRange_clamp, wrapInt_nonneg_iff]

/-- Where the narrowing keeps the number of pages, they do not exceed the amount. -/
theorem toPages_le {n : Int} (h : 0 ≤ x) (hlt : x < 9223372036854775808) (hpage : 0 < pageSize)
    (hpages : pieces pageSize x < 2147483648) (hn : toPages pageSize x = some n) :
    0 ≤ n ∧ ((n * pageSize : Int) : ℚ) ≤ x := by
  have hnonneg := pieces_nonneg h hpage.le
  rw [toPages_of_nonneg _ h hlt, wrapInt_of_mem (by omega) hpages, Option.some.injEq] at hn
  have hmax : (0 : Int) ≤ maxNFind := Int.natCast_nonneg _
  have hle : n * pageSize ≤ pieces pageSize x * pageSize :=
    Int.mul_le_mul_of_nonneg_right (by omega) hpage.le
  refine ⟨by omega, ?_⟩
  calc ((n * pageSize : Int) : ℚ) ≤ ((pieces pageSize x * pageSize : Int) : ℚ) :=
        Int.cast_le.mpr hle
    _ ≤ x := pieces_mul_le h hpage

end

/-! ## Amounts -/

section

variable {t : Tiers}

theorem Tiers.Sound.dram_nonneg (h : t.Sound) (hover : t.dramOver) : 0 ≤ t.amount .dram := by
  have hlimit : dramTarget ≤ t.dram.usage :=
    le_trans (by norm_num [dramTarget, dramLimit]) hover.1.le
  exact le_min (h.dram.above_nonneg hlimit) (h.nvram.below_nonneg hover.2.le)

theorem Tiers.Sound.nvram_nonneg (h : t.Sound) (hover : t.nvramOver) : 0 ≤ t.amount .nvram := by
  have hlimit : nvramTarget ≤ t.nvram.usage :=
    le_trans (by norm_num [nvramTarget, nvramLimit]) hover.1.le
  exact le_min (h.nvram.above_nonneg hlimit) (h.dram.below_nonneg hover.2.le)

theorem Tiers.Sound.intensive_nonneg (h : t.Sound) (hunder : t.dram.usage < dramTarget) :
    0 ≤ t.amount .nvramIntensive :=
  h.dram.below_nonneg (le_trans hunder.le (by norm_num [dramTarget, dramLimit]))

theorem Tier.Sound.cast_lt {t : Tier} (h : t.Sound) : (t.sz : ℚ) < 9223372036854775808 := by
  exact_mod_cast h.fits

theorem Tiers.Sound.amount_lt (h : t.Sound) (mode : FindMode) :
    t.amount mode < 9223372036854775808 := by
  have hd := h.dram.cast_lt
  have hv := h.nvram.cast_lt
  cases mode with
  | dram =>
    have hle := h.dram.above_le (by norm_num [dramTarget] : 0 ≤ dramTarget)
    exact lt_of_le_of_lt (min_le_left _ _) (lt_of_le_of_lt hle hd)
  | nvram =>
    have hle := h.nvram.above_le (by norm_num [nvramTarget] : 0 ≤ nvramTarget)
    exact lt_of_le_of_lt (min_le_left _ _) (lt_of_le_of_lt hle hv)
  | nvramIntensive =>
    have hle := h.dram.below_le (by norm_num [dramLimit] : dramLimit ≤ 1)
    have hfr : (t.dram.fr : ℚ) ≤ t.dram.sz := Int.cast_le.mpr h.dram.le
    exact lt_of_le_of_lt (le_trans hle hfr) hd
  | switch => norm_num [Tiers.amount]
  | nvramClear => norm_num [Tiers.amount]
  | nvramWrite => norm_num [Tiers.amount]

end

/-! ## The finds of an iteration -/

/-- The iteration calls `read_memdata`. -/
def Iteration.Reads (it : Iteration) (prev : Int) : Prop :=
  it.switchAct = true ∧ ¬ (it.memdataLmod = 0 ∨ it.memdataLmod = prev)

instance (it : Iteration) (prev : Int) : Decidable (it.Reads prev) :=
  inferInstanceAs (Decidable (_ ∧ _))

namespace Controller

variable {C : Controller} {P : Platform} {pageSize : Int} {it : Iteration} {prev : Int}

/-- There is a new sample, and its bandwidth is over the threshold. -/
def Busy (C : Controller) (it : Iteration) (prev : Int) : Prop :=
  it.switchAct = true ∧ ¬ (it.memdataLmod = 0 ∨ it.memdataLmod = prev) ∧
    C.highBandwidth it.md = true

instance (C : Controller) (it : Iteration) (prev : Int) : Decidable (C.Busy it prev) :=
  inferInstanceAs (Decidable (_ ∧ _ ∧ _))

/-- The pages that cause it are wanted in DRAM. -/
def Intensive (C : Controller) (P : Platform) (it : Iteration) (prev : Int) : Prop :=
  C.Busy it prev ∧ C.placing (readTiers P it.sizes) = .intensive

instance (C : Controller) (P : Platform) (it : Iteration) (prev : Int) :
    Decidable (C.Intensive P it prev) :=
  inferInstanceAs (Decidable (_ ∧ _))

/-- The tiers as they were read last when the thresholds are tested. -/
def latest (C : Controller) (P : Platform) (it : Iteration) (prev : Int) : Tiers :=
  if C.Intensive P it prev ∧ 0 < it.sent .nvramIntensive then readTiers P it.sizesAfter
  else readTiers P it.sizes

/-- The finds with the tests that lead to them. -/
inductive Sends (C : Controller) (P : Platform) (pageSize : Int) (it : Iteration) (prev : Int) :
    Find → Prop
  | clear (h : C.Busy it prev) :
      Sends C P pageSize it prev ⟨some 0, .nvramClear, readTiers P it.sizes⟩
  | switch (h : C.Busy it prev) (hplace : C.placing (readTiers P it.sizes) = .switch) :
      Sends C P pageSize it prev ⟨some maxNSwitch, .switch, readTiers P it.sizes⟩
  | intensive (h : C.Intensive P it prev) :
      Sends C P pageSize it prev (C.find pageSize (readTiers P it.sizes) .nvramIntensive)
  | dram (h : it.threshAct = true) (hover : C.dramOver (C.latest P it prev) = true) :
      Sends C P pageSize it prev (C.find pageSize (C.latest P it prev) .dram)
  | nvram (h : it.threshAct = true) (hoff : it.switchAct = false)
      (hnot : C.dramOver (C.latest P it prev) = false)
      (hover : C.nvramOver (C.latest P it prev) = true) :
      Sends C P pageSize it prev (C.find pageSize (C.latest P it prev) .nvram)

/-- What the first part sends and knows at its end. -/
theorem switchPart_spec (C : Controller) (P : Platform) (pageSize : Int) (it : Iteration)
    (prev : Int) :
    (C.switchPart P pageSize it prev (readTiers P it.sizes)).tiers = C.latest P it prev ∧
      ∀ f, f ∈ (C.switchPart P pageSize it prev (readTiers P it.sizes)).finds ↔ C.Busy it prev ∧
        (f = ⟨some 0, .nvramClear, readTiers P it.sizes⟩ ∨
          (C.placing (readTiers P it.sizes) = .switch ∧
            f = ⟨some maxNSwitch, .switch, readTiers P it.sizes⟩) ∨
          (C.placing (readTiers P it.sizes) = .intensive ∧
            f = C.find pageSize (readTiers P it.sizes) .nvramIntensive)) := by
  unfold switchPart latest Intensive
  by_cases hbusy : C.Busy it prev
  · obtain ⟨hact, hnew, hhigh⟩ := id hbusy
    rw [if_pos hact, if_neg hnew, if_pos hhigh]
    unfold placeSwitch
    simp only
    split
    · rename_i hplace
      simp [hbusy, hplace]
    · rename_i hplace
      simp [hbusy, hplace]
    · rename_i hplace
      simp [hbusy, hplace]
  · simp only [hbusy, false_and, if_false, iff_false]
    split
    · rename_i hact
      split
      · exact ⟨rfl, by simp⟩
      · rename_i hnew
        have hlow : ¬ C.highBandwidth it.md = true := fun h => hbusy ⟨hact, hnew, h⟩
        rw [if_neg hlow]
        exact ⟨rfl, by simp⟩
    · exact ⟨rfl, by simp⟩

theorem threshPart_spec (C : Controller) (pageSize : Int) (it : Iteration) (t : Tiers) (f : Find) :
    f ∈ (C.threshPart pageSize it t).1 ↔ it.threshAct = true ∧
      ((C.dramOver t = true ∧ f = C.find pageSize t .dram) ∨
        (it.switchAct = false ∧ C.dramOver t = false ∧ C.nvramOver t = true ∧
          f = C.find pageSize t .nvram)) := by
  unfold threshPart
  by_cases hact : it.threshAct = true
  · rw [if_pos hact]
    cases hdram : C.dramOver t <;> cases hswitch : it.switchAct <;> cases hnvram : C.nvramOver t <;>
      simp [hact]
  · simp [hact]

/-- **An iteration** sends these finds. -/
theorem mem_finds_iff {f : Find} :
    f ∈ (C.iterate P pageSize it prev).finds ↔ C.Sends P pageSize it prev f := by
  obtain ⟨htiers, hswitch⟩ := switchPart_spec C P pageSize it prev
  unfold iterate
  simp only [List.mem_append, hswitch, htiers, threshPart_spec]
  constructor
  · rintro (⟨hbusy, rfl | ⟨hplace, rfl⟩ | ⟨hplace, rfl⟩⟩ |
      ⟨hact, ⟨hover, rfl⟩ | ⟨hoff, hnot, hover, rfl⟩⟩)
    · exact .clear hbusy
    · exact .switch hbusy hplace
    · exact .intensive ⟨hbusy, hplace⟩
    · exact .dram hact hover
    · exact .nvram hact hoff hnot hover
  · intro h
    cases h with
    | clear hbusy => exact Or.inl ⟨hbusy, Or.inl rfl⟩
    | switch hbusy hplace => exact Or.inl ⟨hbusy, Or.inr (Or.inl ⟨hplace, rfl⟩)⟩
    | intensive hint => exact Or.inl ⟨hint.1, Or.inr (Or.inr ⟨hint.2, rfl⟩)⟩
    | dram hact hover => exact Or.inr ⟨hact, Or.inl ⟨hover, rfl⟩⟩
    | nvram hact hoff hnot hover => exact Or.inr ⟨hact, Or.inr ⟨hoff, hnot, hover, rfl⟩⟩

theorem latest_sound (C : Controller) (prev : Int) (hbefore : (readTiers P it.sizes).Sound)
    (hafter : (readTiers P it.sizesAfter).Sound) : (C.latest P it prev).Sound := by
  unfold latest
  split
  · exact hafter
  · exact hbefore

/-- The modification time is noted whenever `read_memdata` is called. -/
theorem iterate_prev (C : Controller) (P : Platform) (pageSize : Int) (it : Iteration)
    (prev : Int) : (C.iterate P pageSize it prev).prevMemdataLmod =
      if it.Reads prev then it.memdataLmod else prev := by
  unfold iterate switchPart placeSwitch
  simp only
  by_cases hact : it.switchAct = true
  · rw [if_pos hact]
    by_cases hold : it.memdataLmod = 0 ∨ it.memdataLmod = prev
    · rw [if_pos hold, if_neg fun h : it.Reads prev => h.2 hold]
    · rw [if_neg hold, if_pos (show it.Reads prev from ⟨hact, hold⟩)]
      split
      · split
        · rfl
        · rfl
        · rfl
      · rfl
  · rw [if_neg hact, if_neg fun h : it.Reads prev => hact h.1]

theorem busy_iff : C.Busy it prev ↔ it.Reads prev ∧ C.highBandwidth it.md = true :=
  and_assoc.symm

end Controller

/-! ## The sections of the memcheck thread -/

/-- The request of a find. -/
def Find.req (f : Find) : Req := .of .find (Int32.ofInt (f.nPages.getD 0)) f.mode

/-- The finds are those of sections of the thread, one after the other. -/
def InSections (finds : List Find) : Prop :=
  ∃ sections : List (List Req), (∀ reqs ∈ sections, Section .memcheck reqs) ∧
    finds.map Find.req = sections.flatten

theorem InSections.nil : InSections [] := ⟨[], by simp, rfl⟩

theorem InSections.single {finds : List Find} (h : Section .memcheck (finds.map Find.req)) :
    InSections finds :=
  ⟨[finds.map Find.req], by simpa using h, by simp⟩

theorem InSections.append {xs ys : List Find} (hxs : InSections xs) (hys : InSections ys) :
    InSections (xs ++ ys) := by
  obtain ⟨ps, hps, hp⟩ := hxs
  obtain ⟨qs, hqs, hq⟩ := hys
  refine ⟨ps ++ qs, fun reqs h => ?_, ?_⟩
  · exact (List.mem_append.mp h).elim (hps reqs) (hqs reqs)
  · rw [List.map_append, hp, hq, List.flatten_append]

/-- **An iteration goes through sections** of its thread, unless it sends a clear alone. -/
theorem Controller.iterate_sections {C : Controller} {P : Platform} {it : Iteration}
    (h : C.placing (readTiers P it.sizes) ≠ .nothing) (pageSize prev : Int) :
    InSections (C.iterate P pageSize it prev).finds := by
  unfold iterate
  simp only
  apply InSections.append
  · unfold switchPart placeSwitch
    split_ifs
    · exact .nil
    · split
      · rename_i hnothing
        exact absurd hnothing h
      · exact .single .clearSwitch
      · exact .single (.clearIntensive _)
    · exact .nil
    · exact .nil
  · unfold threshPart
    split_ifs
    · exact .single (.threshold _ _ (Or.inl rfl))
    · exact .single (.threshold _ _ (Or.inr rfl))
    · exact .nil
    · exact .nil

/-! ## The controller of `ambix_hyb-ctl.c` -/

section

variable {P : Platform} {it : Iteration} {prev : Int}

theorem hyb_intensive_iff : hyb.Intensive P it prev ↔
    hyb.Busy it prev ∧ (readTiers P it.sizes).dram.usage < dramTarget := by
  show _ ∧ (if _ then Placing.switch else Placing.intensive) = .intensive ↔ _
  split
  · rename_i hfull
    simp [not_lt.mpr hfull]
  · rename_i hroom
    simp [not_le.mp hroom]

theorem hyb_dramOver_iff {t : Tiers} : hyb.dramOver t = true ↔ t.dramOver := decide_eq_true_iff

theorem hyb_nvramOver_iff {t : Tiers} : hyb.nvramOver t = true ↔ t.nvramOver := decide_eq_true_iff

/-- The tiers are not over both limits. -/
theorem Tiers.nvramOver.not_dramOver {t : Tiers} (h : t.nvramOver) : ¬ t.dramOver := by
  rintro ⟨hd, _⟩
  have hlt := lt_trans hd h.2
  norm_num [dramLimit, dramTarget] at hlt

/-- **An iteration of `memcheck_placement` goes through sections** of the memcheck thread. -/
theorem memcheckPlacement_sections (P : Platform) (pageSize : Int) (it : Iteration) (prev : Int) :
    InSections (memcheckPlacement P pageSize it prev).finds := by
  apply Controller.iterate_sections
  show (if _ then Placing.switch else Placing.intensive) ≠ .nothing
  split <;> simp

end

end Ambix.Ctl
