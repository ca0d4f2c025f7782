import Ambix.MixM.Memcheck
import Ambix.Logic.Memcheck
import Ambix.Lib.Outputs

/-!
# The counts of the MixM controller

The find of ADM pages is tested against the macro `MM_TARGET` and sized by the variable
`mm_target`, so a lower setting makes it negative; the intensive find is sized by a threshold
that nothing bounds. All other counts are in range whatever the settings are.
-/

namespace Ambix.MixM

open Ambix.Lib Ambix.Ctl

/-- A reading of tiers with less than 2^31 pages. -/
structure Small (pageSize : Int) (t : Tiers) : Prop where
  sound : t.Sound
  dram : t.dram.sz < 2147483648 * pageSize
  nvram : t.nvram.sz < 2147483648 * pageSize

/-- What may happen: `set ratio` from 1 on, `set cacheThresh` from 0 on, and iterations with
small readings. -/
def Allowed (P : Platform) (pageSize : Int) : Step → Prop
  | .set (.ratio n) => 1 ≤ n
  | .set (.cacheThresh n) => 0 ≤ n
  | .iterate it => Small pageSize (readTiers P it.sizes) ∧ Small pageSize (readTiers P it.sizesAfter)

/-- The amount of an intensive find is less than 2^31 pages, and fits in 64 bits. -/
def Settings.Bounded (s : Settings) (pageSize : Int) (t : Tiers) : Prop :=
  s.amount t .nvramIntensive < (2147483648 * pageSize : Int) ∧
    s.amount t .nvramIntensive < 9223372036854775808

/-- Memory mode is less than a page above `mm_target`. -/
def Settings.NearTarget (s : Settings) (pageSize : Int) (t : Tiers) : Prop :=
  (t.dram.usage - s.mmTarget) * t.dram.sz < pageSize

/-- `ratio` is no zero, intensive finds are bounded, and ADM pages are not asked for with
memory mode over its target. -/
def Meets (P : Platform) (pageSize : Int) (m : Memcheck) : Step → Prop
  | .set (.ratio n) => wrapInt n ≠ 0
  | .set (.cacheThresh _) => True
  | .iterate it =>
    let C := m.settings.controller
    (C.Intensive P it m.prevMemdataLmod → m.settings.Bounded pageSize (readTiers P it.sizes)) ∧
      (it.threshAct = true → it.switchAct = false → admOver (C.latest P it m.prevMemdataLmod) →
        m.settings.NearTarget pageSize (C.latest P it m.prevMemdataLmod))

/-! ## Amounts and counts -/

section

variable {pageSize : Int} {x : ℚ}

/-- Less than 2^31 pages. -/
theorem inRange_of_lt (h : 0 ≤ x) (hfits : x < 9223372036854775808) (hpage : 0 < pageSize)
    (hlt : x < (2147483648 * pageSize : Int)) : InRange (toPages pageSize x) := by
  have hnonneg := pieces_nonneg h hpage.le
  have hpieces := pieces_lt h hpage hlt
  rw [toPages_inRange_iff h hfits]
  omega

/-- From 2^31 pages on, the narrowing makes the count negative. -/
theorem not_inRange_of_ge (hpage : 0 < pageSize) (hge : (2147483648 * pageSize : Int) ≤ x)
    (hlt : x < (4294967296 * pageSize : Int)) : ¬ InRange (toPages pageSize x) := by
  have hnonneg : 0 ≤ x := le_trans (Int.cast_nonneg (by omega)) hge
  have hlo := le_pieces hnonneg hpage hge
  have hhi := pieces_lt hnonneg hpage hlt
  rw [inRange_toPages_iff]
  omega

/-- Bytes that do not fit in 64 bits have no count. -/
theorem not_inRange_of_large (hlarge : 9223372036854775808 ≤ x) :
    ¬ InRange (toPages pageSize x) := by
  have htrunc : (9223372036854775808 : Int) ≤ trunc x := by
    rw [trunc_of_nonneg (by linarith)]
    exact Int.le_floor.mpr (by exact_mod_cast hlarge)
  rw [inRange_toPages_iff]
  omega

/-- A negative amount of less than a page is no page. -/
theorem inRange_of_neg (h : 0 ≤ x) (hpage : 0 < pageSize) (hlong : pageSize < 9223372036854775808)
    (hlt : x < pageSize) : InRange (toPages pageSize (-x)) := by
  have hpieces : pieces pageSize x < 1 := pieces_lt h hpage (by rwa [Int.one_mul])
  have hnonneg := pieces_nonneg h hpage.le
  have htrunc : trunc x < pageSize := by
    rw [trunc_of_nonneg h]
    exact Int.floor_lt.mpr hlt
  have hfloor := trunc_nonneg h
  rw [inRange_toPages_iff, trunc_neg, pieces_neg]
  omega

/-- A negative amount of a page or more has a negative count. -/
theorem not_inRange_of_neg (hpage : 0 < pageSize) (hge : (pageSize : ℚ) ≤ x)
    (hlt : x < (2147483648 * pageSize : Int)) : ¬ InRange (toPages pageSize (-x)) := by
  have hnonneg : 0 ≤ x := le_trans (Int.cast_nonneg hpage.le) hge
  have hlo : 1 ≤ pieces pageSize x := le_pieces hnonneg hpage (by rwa [Int.one_mul])
  have hhi := pieces_lt hnonneg hpage hlt
  rw [inRange_toPages_iff, pieces_neg]
  omega

end

/-! ## Iterations -/

section

variable {P : Platform} {pageSize : Int} {m : Memcheck} {it : Iteration} {s : Settings} {t : Tiers}

theorem latest_small (h : Allowed P pageSize (.iterate it)) :
    Small pageSize (m.settings.controller.latest P it m.prevMemdataLmod) := by
  unfold Controller.latest
  split
  · exact h.2
  · exact h.1

theorem intensive_iff : s.controller.Intensive P it m.prevMemdataLmod ↔
    s.controller.Busy it m.prevMemdataLmod ∧
      (readTiers P it.sizes).dram.usage < s.mmThresh ∧
      (readTiers P it.sizes).dram.usage < s.mmTarget := by
  show _ ∧ (if _ then if _ then Placing.switch else .intensive else .nothing) = .intensive ↔ _
  split
  · rename_i hunder
    split
    · rename_i hfull
      simp [not_lt.mpr hfull]
    · rename_i hroom
      simp [hunder, not_le.mp hroom]
  · rename_i hover
    simp [hover]

/-- An amount within a tier. -/
theorem inRange_of_le_sz {t : Tier} {x : ℚ} (h : t.Sound) (hpage : 0 < pageSize)
    (hsmall : t.sz < 2147483648 * pageSize) (hx : 0 ≤ x) (hle : x ≤ t.sz) :
    InRange (toPages pageSize x) :=
  inRange_of_lt hx (lt_of_le_of_lt hle h.cast_lt) hpage
    (lt_of_le_of_lt hle (Int.cast_lt.mpr hsmall))

theorem Small.dram_inRange (h : Small pageSize t) (hpage : 0 < pageSize) (hover : s.mmOver t) :
    InRange (toPages pageSize (s.amount t .dram)) := by
  have hroom := h.sound.nvram.below_nonneg hover.2.le
  have hle := h.sound.nvram.below_le (by norm_num [admTarget] : admTarget ≤ 1)
  have hfr : (t.nvram.fr : ℚ) ≤ t.nvram.sz := Int.cast_le.mpr h.sound.nvram.le
  refine inRange_of_le_sz h.sound.nvram hpage h.nvram ?_ ?_
  · exact le_min (h.sound.dram.above_nonneg hover.1.le) hroom
  · exact le_trans (min_le_right _ _) (le_trans hle hfr)

theorem Small.above_adm (h : Small pageSize t) (hover : admOver t) :
    0 ≤ (t.nvram.usage - admTarget) * t.nvram.sz :=
  h.sound.nvram.above_nonneg (le_trans (by norm_num [admTarget, admLimit]) hover.1.le)

theorem Small.nvram_inRange (h : Small pageSize t) (hpage : 0 < pageSize)
    (hlong : pageSize < 9223372036854775808) (hover : admOver t) (hnear : s.NearTarget pageSize t) :
    InRange (toPages pageSize (s.amount t .nvram)) := by
  have habove := h.above_adm hover
  have hneg : (s.mmTarget - t.dram.usage) * t.dram.sz =
      -((t.dram.usage - s.mmTarget) * t.dram.sz) := by ring
  show InRange (toPages pageSize (min _ ((s.mmTarget - t.dram.usage) * t.dram.sz)))
  rcases le_total 0 ((s.mmTarget - t.dram.usage) * t.dram.sz) with hroom | hroom
  · refine inRange_of_le_sz h.sound.nvram hpage h.nvram (le_min habove hroom) ?_
    exact le_trans (min_le_left _ _)
      (h.sound.nvram.above_le (by norm_num [admTarget] : 0 ≤ admTarget))
  · rw [min_eq_right (le_trans hroom habove), hneg]
    rw [hneg] at hroom
    exact inRange_of_neg (by linarith) hpage hlong hnear

/-- **An iteration that meets the condition** sends counts in range. -/
theorem iterate_inRange (hpage : 0 < pageSize) (hlong : pageSize < 9223372036854775808)
    (h : Allowed P pageSize (.iterate it)) (hmeets : Meets P pageSize m (.iterate it)) :
    ∀ f ∈ (m.step P pageSize (.iterate it)).2, InRange f.nPages := by
  obtain ⟨hbounded, hnear⟩ := hmeets
  intro f hf
  have hlatest := latest_small (m := m) h
  cases Controller.mem_finds_iff.mp hf with
  | clear => exact ⟨0, rfl, Int.le_refl _, Int.natCast_nonneg _⟩
  | switch => exact ⟨_, rfl, Int.natCast_nonneg _, by decide⟩
  | intensive hint =>
    have hunder := (intensive_iff.mp hint).2.1
    have hlt := hbounded hint
    exact inRange_of_lt (h.1.sound.dram.below_nonneg hunder.le) hlt.2 hpage hlt.1
  | dram _ hover => exact hlatest.dram_inRange hpage (of_decide_eq_true hover)
  | nvram hact hoff _ hover =>
    have hover := of_decide_eq_true hover
    exact hlatest.nvram_inRange hpage hlong hover (hnear hact hoff hover)

/-- Settings whose threshold is below 2, which is over all usages twice. -/
structure Settings.Usual (s : Settings) : Prop where
  nonneg : 0 ≤ s.mmThresh
  lt : s.mmThresh < 2
  target : s.mmTarget = s.mmThresh - 1 / 100

theorem Small.bounded (h : Small pageSize t) (hpage : 0 < pageSize) (husual : s.Usual)
    (hrange : InRange (toPages pageSize (s.amount t .nvramIntensive))) :
    s.Bounded pageSize t := by
  have hpos := h.sound.dram.sz_pos
  have hused : (0 : ℚ) ≤ (t.dram.sz - t.dram.fr : Int) :=
    Int.cast_nonneg (Int.sub_nonneg.mpr h.sound.dram.le)
  have hle : s.amount t .nvramIntensive ≤ 2 * t.dram.sz := by
    show (s.mmThresh - t.dram.usage) * t.dram.sz ≤ _
    rw [h.sound.dram.below]
    have hmul := mul_le_mul_of_nonneg_right husual.lt.le hpos.le
    linarith
  have hlt : s.amount t .nvramIntensive < (4294967296 * pageSize : Int) := by
    have hsmall : ((2 * t.dram.sz : Int) : ℚ) < (4294967296 * pageSize : Int) :=
      Int.cast_lt.mpr (by have := h.dram; omega)
    push_cast at hsmall ⊢
    linarith
  refine ⟨?_, ?_⟩
  · by_contra hge
    exact not_inRange_of_ge hpage (not_lt.mp hge) hlt hrange
  · by_contra hge
    exact not_inRange_of_large (not_lt.mp hge) hrange

theorem Small.nearTarget (h : Small pageSize t) (hpage : 0 < pageSize) (husual : s.Usual)
    (hover : admOver t) (hrange : InRange (toPages pageSize (s.amount t .nvram))) :
    s.NearTarget pageSize t := by
  by_contra hfar
  have hge : (pageSize : ℚ) ≤ (t.dram.usage - s.mmTarget) * t.dram.sz := not_lt.mp hfar
  have hone : (t.dram.usage - s.mmTarget) ≤ 1 := by
    have hunder := hover.2
    have hthresh := husual.nonneg
    rw [husual.target]
    norm_num [mmTarget, mmLimit, cacheThresh, mmRatio] at hunder
    linarith
  have hlt : (t.dram.usage - s.mmTarget) * t.dram.sz < (2147483648 * pageSize : Int) := by
    have hmul := mul_le_mul_of_nonneg_right hone h.sound.dram.sz_pos.le
    have hsmall : (t.dram.sz : ℚ) < (2147483648 * pageSize : Int) := Int.cast_lt.mpr h.dram
    linarith
  have hneg : s.amount t .nvram = -((t.dram.usage - s.mmTarget) * t.dram.sz) := by
    have hpos : (0 : ℚ) < pageSize := Int.cast_pos.mpr hpage
    have heq : (s.mmTarget - t.dram.usage) * t.dram.sz =
        -((t.dram.usage - s.mmTarget) * t.dram.sz) := by ring
    show min _ ((s.mmTarget - t.dram.usage) * t.dram.sz) = _
    rw [heq]
    exact min_eq_right (le_trans (by linarith) (h.above_adm hover))
  rw [hneg] at hrange
  exact not_inRange_of_neg hpage hge hlt hrange

/-- **An iteration with counts in range** meets the condition, in usual settings. -/
theorem iterate_meets (hpage : 0 < pageSize) (husual : m.settings.Usual)
    (h : Allowed P pageSize (.iterate it))
    (hrange : ∀ f ∈ (m.step P pageSize (.iterate it)).2, InRange f.nPages) :
    Meets P pageSize m (.iterate it) := by
  refine ⟨fun hint => ?_, fun hact hoff hover => ?_⟩
  · exact h.1.bounded hpage husual (hrange _ (Controller.mem_finds_iff.mpr (.intensive hint)))
  · have hnot : ¬ m.settings.mmOver (m.settings.controller.latest P it m.prevMemdataLmod) := by
      rintro ⟨_, hunder⟩
      have hlt := lt_trans hover.1 hunder
      norm_num [admLimit, admTarget] at hlt
    exact (latest_small h).nearTarget hpage husual hover (hrange _ (Controller.mem_finds_iff.mpr
      (.nvram hact hoff (decide_eq_false hnot) (decide_eq_true hover))))

/-- **The counts of the MixM controller** are in range in every run whose steps meet the
condition; an iteration in usual settings that does not meet it sends one that is not. -/
theorem mixM_counts_inRange (P : Platform) (pageSize : Int) (hpage : 0 < pageSize)
    (hlong : pageSize < 9223372036854775808) :
    (∀ run : List Step, (∀ x ∈ run, Allowed P pageSize x) →
        Along (Memcheck.step P pageSize) (Meets P pageSize) .start run →
        ∀ f ∈ outputs (Memcheck.step P pageSize) .start run, InRange f.nPages) ∧
      ∀ (m : Memcheck) (it : Iteration), m.settings.Usual → Allowed P pageSize (.iterate it) →
        (∀ f ∈ (m.step P pageSize (.iterate it)).2, InRange f.nPages) →
        Meets P pageSize m (.iterate it) := by
  refine ⟨fun run hallowed hmeets => ?_, fun m it => iterate_meets hpage⟩
  refine ((along_of_forall hallowed).and hmeets).outputs fun m x hx => ?_
  obtain ⟨hallow, hmeet⟩ := hx
  cases x with
  | set c => intro f hf; simp [Memcheck.step] at hf
  | iterate it => exact iterate_inRange hpage hlong hallow hmeet

end

/-! ## A lower ratio -/

/-- Memory mode has 10000 pages, 2000 of them in use; of 10000 ADM pages 100 are free. -/
def fullAdm : Iteration where
  switchAct := false
  threshAct := true
  sizes node := if node = 0 then ⟨40960000, 32768000⟩ else ⟨40960000, 409600⟩
  memdataLmod := 0
  md := none
  sent _ := 0
  sizesAfter node := if node = 0 then ⟨40960000, 32768000⟩ else ⟨40960000, 409600⟩

theorem fullAdm_allowed : Allowed (.shipped fun _ => 0) 4096 (.iterate fullAdm) :=
  ⟨⟨⟨⟨by decide, by decide, by decide, by decide⟩, ⟨by decide, by decide, by decide, by decide⟩⟩,
      by decide, by decide⟩,
    ⟨⟨by decide, by decide, by decide, by decide⟩, ⟨by decide, by decide, by decide, by decide⟩⟩,
      by decide, by decide⟩

/-- With the settings as they are at the start, 400 pages are asked for. -/
theorem mixM_counts_fullAdm :
    (outputs (Memcheck.step (.shipped fun _ => 0) 4096) .start [.iterate fullAdm]).map
        (fun f => (f.nPages, f.mode)) = [(some 400, .nvram)] ∧
      ∀ f ∈ outputs (Memcheck.step (.shipped fun _ => 0) 4096) .start [.iterate fullAdm],
        InRange f.nPages := by
  refine ⟨by decide +kernel, ?_⟩
  refine (mixM_counts_inRange (.shipped fun _ => 0) 4096 (by decide) (by decide)).1 _ ?_ ?_
  · intro x hx
    rw [List.mem_singleton.mp hx]
    exact fullAdm_allowed
  · refine ⟨⟨fun h => absurd h (by decide), fun _ _ _ => ?_⟩, trivial⟩
    unfold Settings.NearTarget
    decide +kernel

/-- After `set ratio 10` the threshold of memory mode is 0.125, and -850 pages are asked
for. -/
theorem mixM_count_negative :
    (∀ x ∈ [Step.set (.ratio 10), .iterate fullAdm], Allowed (.shipped fun _ => 0) 4096 x) ∧
      (outputs (Memcheck.step (.shipped fun _ => 0) 4096) .start
        [.set (.ratio 10), .iterate fullAdm]).map (fun f => (f.nPages, f.mode)) =
          [(some (-850), .nvram)] ∧
      ¬ ∀ f ∈ outputs (Memcheck.step (.shipped fun _ => 0) 4096) .start
        [.set (.ratio 10), .iterate fullAdm], InRange f.nPages := by
  refine ⟨fun x hx => ?_, by decide +kernel, fun hall => ?_⟩
  · simp only [List.mem_cons, List.not_mem_nil, or_false] at hx
    rcases hx with rfl | rfl
    · show (1 : Int) ≤ 10
      decide
    · exact fullAdm_allowed
  · have hcount : ∃ f ∈ outputs (Memcheck.step (.shipped fun _ => 0) 4096) .start
        [.set (.ratio 10), .iterate fullAdm], f.nPages = some (-850) := by decide +kernel
    obtain ⟨f, hf, hn⟩ := hcount
    obtain ⟨n, hn', hnonneg, _⟩ := hall f hf
    rw [hn, Option.some.injEq] at hn'
    omega

end Ambix.MixM
