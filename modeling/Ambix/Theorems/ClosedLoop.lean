import Ambix.Lib.Simulation
import Ambix.Theorems.Thresholds

/-!
# The controller in a closed loop

`memcheck_placement` alone with two tiers: nothing else allocates or frees, the sizes that it
reads are those that its own finds have left, and a find moves any part of the pages that it
asks for. A switch exchanges pages and leaves the sizes. Then all pages of a run go one way,
which the first usage of DRAM decides, and no more of them than there are between that usage
and the threshold on this side.
-/

namespace Ambix.Ctl

open Ambix.Lib

/-- What has moved in a run so far: the pages that have gone to NVRAM and to DRAM, and how many
finds have moved any. -/
structure Traffic where
  down : Int
  up : Int
  finds : Nat

/-- And `m` pages by a find. -/
def Traffic.add (mode : FindMode) (m : Int) (r : Traffic) : Traffic where
  down := r.down + if mode = .dram then m else 0
  up := r.up + if mode = .dram then 0 else m
  finds := r.finds + if 0 < m then 1 else 0

/-- The tiers, `prev_memdata_lmod` and the run so far. -/
structure Balance extends Traffic where
  tiers : Tiers
  prev : Int

/-- A find that takes pages from one tier to the other, as many as the tiers call for. -/
def Drains (mode : FindMode) : Prop :=
  mode = .dram ∨ mode = .nvram ∨ mode = .nvramIntensive

/-- A find of an iteration. -/
inductive Balance.Moves (P : Platform) (pageSize : Int) (it : Iteration) :
    Find → Balance → Balance → Prop
  | still {f : Find} (s : Balance) (hmode : f.mode = .switch ∨ f.mode = .nvramClear) :
      Moves P pageSize it f s s
  /-- It moves `m` pages, which are on the other tier when it is asked for them, and an
  intensive one is told of them. -/
  | part {f : Find} (s : Balance) (m : Int) (hmode : Drains f.mode) (hm : 0 ≤ m)
      (hle : ∀ n, f.nPages = some n → m ≤ n)
      (hthere : f.mode ≠ .dram → m * pageSize ≤ s.tiers.nvram.sz - s.tiers.nvram.fr)
      (hsent : 0 < m → 0 < it.sent f.mode)
      (hagain : f.mode = .nvramIntensive → 0 < it.sent .nvramIntensive →
        readTiers P it.sizesAfter = s.tiers.after .nvramIntensive (m * pageSize)) :
      Moves P pageSize it f s
        ⟨s.toTraffic.add f.mode m, s.tiers.after f.mode (m * pageSize), s.prev⟩

/-- An iteration that reads the tiers as they are. -/
inductive Balance.Step (P : Platform) (pageSize : Int) (s : Balance) : Balance → Prop
  | iterate (it : Iteration) (s' : Balance) (hread : readTiers P it.sizes = s.tiers)
      (hfinds : Steps (Balance.Moves P pageSize it) (memcheckPlacement P pageSize it s.prev).finds
        s s') :
      Step P pageSize s { s' with
        prev := (memcheckPlacement P pageSize it s.prev).prevMemdataLmod }

/-- All runs from these tiers. -/
def closedLoop (P : Platform) (pageSize : Int) (start : Tiers) : TSys Balance where
  init s := s = ⟨⟨0, 0, 0⟩, start, 0⟩
  step s s' := s.Step P pageSize s'

/-- A tier whose pages an int can count. -/
def Tier.Small (pageSize : Int) (t : Tier) : Prop := t.sz < 2147483648 * pageSize

/-- What is true of a run from `start`. -/
structure OneWay (pageSize : Int) (start : Tiers) (s : Balance) : Prop where
  down : 0 ≤ s.down
  up : 0 ≤ s.up
  finds : (s.finds : Int) ≤ s.down + s.up
  /-- What one tier has lost the other has got. -/
  dram : s.tiers.dram = start.dram.drain ((s.down - s.up) * pageSize)
  nvram : s.tiers.nvram = start.nvram.fill ((s.down - s.up) * pageSize)
  sound : s.tiers.Sound
  /-- Nothing is taken to DRAM that is at its target, -/
  full : dramTarget ≤ start.dram.usage → s.up = 0 ∧ dramTarget ≤ s.tiers.dram.usage
  /-- nor from DRAM that is within its limit. -/
  room : start.dram.usage ≤ dramLimit → s.down = 0 ∧ s.tiers.dram.usage ≤ dramLimit

/-- What has led to a find, and its count. -/
inductive Cause (pageSize : Int) (t : Tiers) (f : Find) : Prop
  | still (hmode : f.mode = .switch ∨ f.mode = .nvramClear) (n : Nat) (hn : f.nPages = some n)
  | intensive (h : t.dram.usage < dramTarget) (hf : f = hyb.find pageSize t .nvramIntensive)
  | dram (h : t.dramOver) (hf : f = hyb.find pageSize t .dram)
  | nvram (h : t.nvramOver) (hf : f = hyb.find pageSize t .nvram)

section

variable {P : Platform} {pageSize : Int} {it : Iteration} {start t : Tiers} {s s' : Balance}
  {f : Find}

/-! ## One find -/

theorem Tier.Sound.drain {t : Tier} {limit : ℚ} {bytes : Int} (h : t.Sound) (hlimit : 0 ≤ limit)
    (hnonneg : 0 ≤ bytes) (hbytes : (bytes : ℚ) ≤ (t.usage - limit) * t.sz) :
    (t.drain bytes).Sound := by
  have hused : (bytes : ℚ) ≤ ((t.sz - t.fr : Int) : ℚ) := by
    have hle := mul_nonneg hlimit h.sz_pos.le
    rw [h.above] at hbytes
    linarith
  have hused := Int.cast_le.mp hused
  have hfr := h.nonneg
  exact ⟨h.pos, h.fits, show 0 ≤ t.fr + bytes by omega, show t.fr + bytes ≤ t.sz by omega⟩

theorem Tier.Sound.fill {t : Tier} {limit : ℚ} {bytes : Int} (h : t.Sound) (hlimit : limit ≤ 1)
    (hnonneg : 0 ≤ bytes) (hbytes : (bytes : ℚ) ≤ (limit - t.usage) * t.sz) :
    (t.fill bytes).Sound := by
  have hfits := h.fits_below hlimit hbytes
  have hle := h.le
  exact ⟨h.pos, h.fits, show 0 ≤ t.fr - bytes by omega, show t.fr - bytes ≤ t.sz by omega⟩

theorem Tier.drain_drain (t : Tier) (x y : Int) : (t.drain x).drain y = t.drain (x + y) := by
  unfold Tier.drain
  simp only [Int.add_assoc]

theorem Tier.fill_fill (t : Tier) (x y : Int) : (t.fill x).fill y = t.fill (x + y) := by
  unfold Tier.fill
  simp only [Tier.mk.injEq, true_and]
  omega

theorem Tier.drain_fill (t : Tier) (x y : Int) : (t.drain x).fill y = t.drain (x - y) := by
  unfold Tier.drain Tier.fill
  simp only [Tier.mk.injEq, true_and]
  omega

theorem Tier.fill_drain (t : Tier) (x y : Int) : (t.fill x).drain y = t.fill (x - y) := by
  unfold Tier.drain Tier.fill
  simp only [Tier.mk.injEq, true_and]
  omega

theorem Tiers.after_zero (t : Tiers) (mode : FindMode) : t.after mode 0 = t := by
  unfold Tiers.after Tier.drain Tier.fill
  simp only [Int.add_zero, Int.sub_zero, ite_self]

/-- An amount is no more than there is in a tier. -/
theorem Tiers.Sound.amount_le (h : t.Sound) {mode : FindMode}
    (hmode : Drains mode) :
    t.amount mode ≤ t.dram.sz ∨ t.amount mode ≤ t.nvram.sz := by
  rcases hmode with rfl | rfl | rfl
  · exact .inl (le_trans (min_le_left _ _) (h.dram.above_le (by norm_num [dramTarget])))
  · exact .inr (le_trans (min_le_left _ _) (h.nvram.above_le (by norm_num [nvramTarget])))
  · have hfr : (t.dram.fr : ℚ) ≤ t.dram.sz := Int.cast_le.mpr h.dram.le
    exact .inl (le_trans (h.dram.below_le (by norm_num [dramLimit])) hfr)

/-- **The count of a find** is not negative, and no more than the amount that it is for. -/
theorem Tiers.Sound.count (h : t.Sound) (hpage : 0 < pageSize) (hdram : t.dram.Small pageSize)
    (hnvram : t.nvram.Small pageSize) {mode : FindMode} (hmode : Drains mode)
    (hnonneg : 0 ≤ t.amount mode) :
    ∃ n, (hyb.find pageSize t mode).nPages = some n ∧ 0 ≤ n ∧
      ((n * pageSize : Int) : ℚ) ≤ t.amount mode := by
  have hpieces : pieces pageSize (t.amount mode) < 2147483648 := by
    refine pieces_lt hnonneg hpage ?_
    rcases h.amount_le hmode with hle | hle
    · exact lt_of_le_of_lt hle (Int.cast_lt.mpr hdram)
    · exact lt_of_le_of_lt hle (Int.cast_lt.mpr hnvram)
  have hcount := toPages_of_nonneg pageSize hnonneg (h.amount_lt mode)
  exact ⟨_, hcount, toPages_le hnonneg (h.amount_lt mode) hpage hpieces hcount⟩

/-- What a find moves is no more than that either. -/
theorem Tiers.Sound.moved_le (h : t.Sound) (hpage : 0 < pageSize) (hdram : t.dram.Small pageSize)
    (hnvram : t.nvram.Small pageSize) {mode : FindMode} (hmode : Drains mode)
    (hnonneg : 0 ≤ t.amount mode) {m : Int}
    (hle : ∀ n, (hyb.find pageSize t mode).nPages = some n → m ≤ n) :
    ((m * pageSize : Int) : ℚ) ≤ t.amount mode := by
  obtain ⟨n, hn, -, hbytes⟩ := h.count hpage hdram hnvram hmode hnonneg
  refine le_trans (Int.cast_le.mpr ?_) hbytes
  exact Int.mul_le_mul_of_nonneg_right (hle n hn) hpage.le

/-- Whatever has led to a find, its count is not negative. -/
theorem Cause.count (hcause : Cause pageSize t f) (h : t.Sound) (hpage : 0 < pageSize)
    (hdram : t.dram.Small pageSize) (hnvram : t.nvram.Small pageSize) :
    ∃ n, f.nPages = some n ∧ 0 ≤ n := by
  have hcount {mode : FindMode} (hmode : Drains mode) (hnonneg : 0 ≤ t.amount mode) :
      ∃ n, (hyb.find pageSize t mode).nPages = some n ∧ 0 ≤ n := by
    obtain ⟨n, hn, hpos, -⟩ := h.count hpage hdram hnvram hmode hnonneg
    exact ⟨n, hn, hpos⟩
  cases hcause with
  | still hmode n hn => exact ⟨n, hn, Int.natCast_nonneg n⟩
  | intensive hunder hf =>
    rw [hf]
    exact hcount (.inr (.inr rfl)) (h.intensive_nonneg hunder)
  | dram hover hf =>
    rw [hf]
    exact hcount (.inl rfl) (h.dram_nonneg hover)
  | nvram hover hf =>
    rw [hf]
    exact hcount (.inr (.inl rfl)) (h.nvram_nonneg hover)

theorem Cause.mode (hcause : Cause pageSize t f) :
    Drains f.mode ∨ f.mode = .switch ∨ f.mode = .nvramClear := by
  cases hcause with
  | still hmode => exact .inr hmode
  | intensive _ hf => exact .inl (hf ▸ .inr (.inr rfl))
  | dram _ hf => exact .inl (hf ▸ .inl rfl)
  | nvram _ hf => exact .inl (hf ▸ .inr (.inl rfl))

/-- A find that exchanges or clears leaves all as it is. -/
theorem Balance.Moves.eq_of_still (h : Balance.Moves P pageSize it f s s')
    (hmode : f.mode = .switch ∨ f.mode = .nvramClear) : s' = s := by
  cases h with
  | still => rfl
  | part m hdrains =>
    rcases hmode with hmode | hmode <;> rw [hmode] at hdrains <;>
      rcases hdrains with h | h | h <;> cases h

theorem steps_still {fs : List Find} (h : Steps (Balance.Moves P pageSize it) fs s s')
    (hfs : ∀ f ∈ fs, f.mode = .switch ∨ f.mode = .nvramClear) : s' = s := by
  refine h.keeps (I := fun x => x = s) ?_ rfl
  intro f hf x x' hx hmove
  rw [hmove.eq_of_still (hfs f hf), hx]

theorem Traffic.add_dram (r : Traffic) (m : Int) :
    r.add .dram m = ⟨r.down + m, r.up, r.finds + if 0 < m then 1 else 0⟩ := by
  unfold Traffic.add
  rw [if_pos rfl, if_pos rfl, Int.add_zero]

theorem Traffic.add_of_ne (r : Traffic) {mode : FindMode} (hmode : mode ≠ .dram) (m : Int) :
    r.add mode m = ⟨r.down, r.up + m, r.finds + if 0 < m then 1 else 0⟩ := by
  unfold Traffic.add
  rw [if_neg hmode, if_neg hmode, Int.add_zero]

theorem finds_add_le {m : Int} (n : Nat) (hm : 0 ≤ m) :
    ((n + if 0 < m then 1 else 0 : Nat) : Int) ≤ n + m := by
  split <;> omega

/-- A find of DRAM pages. -/
theorem OneWay.demote (h : OneWay pageSize start s) (hover : s.tiers.dramOver) {m : Int} (hm : 0 ≤ m)
    (hpage : 0 < pageSize) (hbytes : ((m * pageSize : Int) : ℚ) ≤ s.tiers.amount .dram) :
    OneWay pageSize start
      ⟨s.toTraffic.add .dram m, s.tiers.after .dram (m * pageSize), s.prev⟩ := by
  have hnonneg : 0 ≤ m * pageSize := Int.mul_nonneg hm hpage.le
  obtain ⟨habove, hroom⟩ := le_min_iff.mp hbytes
  obtain ⟨htarget, -, -, -⟩ := h.sound.settles hbytes
  have hdown := h.down
  have hup := h.up
  have hfinds := h.finds
  have hadd := finds_add_le s.finds hm
  have hlost : s.down + m - s.up = s.down - s.up + m := by omega
  rw [Traffic.add_dram]
  constructor
  · show 0 ≤ s.down + m
    omega
  · exact h.up
  · show ((s.finds + if 0 < m then 1 else 0 : Nat) : Int) ≤ s.down + m + s.up
    omega
  · show s.tiers.dram.drain _ = start.dram.drain ((s.down + m - s.up) * pageSize)
    rw [h.dram, Tier.drain_drain, hlost, Int.add_mul]
  · show s.tiers.nvram.fill _ = start.nvram.fill ((s.down + m - s.up) * pageSize)
    rw [h.nvram, Tier.fill_fill, hlost, Int.add_mul]
  · exact ⟨h.sound.dram.drain (by norm_num [dramTarget]) hnonneg habove,
      h.sound.nvram.fill (by norm_num [nvramTarget]) hnonneg hroom⟩
  · exact fun hfull => ⟨(h.full hfull).1, htarget⟩
  · -- there was no cause within the limit
    exact fun hlimit => absurd hover.1 (not_lt.mpr (h.room hlimit).2)

/-- A find of NVRAM pages that stays below a limit of DRAM. -/
theorem OneWay.promote (h : OneWay pageSize start s) {mode : FindMode} (hmode : mode ≠ .dram)
    (hunder : s.tiers.dram.usage < dramTarget) {m : Int} (hm : 0 ≤ m) (hpage : 0 < pageSize)
    {limit : ℚ} (hlimit : limit ≤ dramLimit)
    (hroom : ((m * pageSize : Int) : ℚ) ≤ (limit - s.tiers.dram.usage) * s.tiers.dram.sz)
    (hused : m * pageSize ≤ s.tiers.nvram.sz - s.tiers.nvram.fr) :
    OneWay pageSize start ⟨s.toTraffic.add mode m, s.tiers.after mode (m * pageSize), s.prev⟩ := by
  have hnonneg : 0 ≤ m * pageSize := Int.mul_nonneg hm hpage.le
  have hdown := h.down
  have hup := h.up
  have hfinds := h.finds
  have hadd := finds_add_le s.finds hm
  have hle := h.sound.nvram.nonneg
  have hlost : s.down - (s.up + m) = s.down - s.up - m := by omega
  have hafter : s.tiers.after mode (m * pageSize) =
      ⟨s.tiers.dram.fill (m * pageSize), s.tiers.nvram.drain (m * pageSize)⟩ := if_neg hmode
  have hone : limit ≤ 1 := le_trans hlimit (by norm_num [dramLimit])
  rw [hafter, Traffic.add_of_ne _ hmode]
  constructor
  · exact h.down
  · show 0 ≤ s.up + m
    omega
  · show ((s.finds + if 0 < m then 1 else 0 : Nat) : Int) ≤ s.down + (s.up + m)
    omega
  · show s.tiers.dram.fill _ = start.dram.drain ((s.down - (s.up + m)) * pageSize)
    rw [h.dram, Tier.drain_fill, hlost, Int.sub_mul (s.down - s.up)]
  · show s.tiers.nvram.drain _ = start.nvram.fill ((s.down - (s.up + m)) * pageSize)
    rw [h.nvram, Tier.fill_drain, hlost, Int.sub_mul (s.down - s.up)]
  · refine ⟨h.sound.dram.fill hone hnonneg hroom, h.sound.nvram.pos, h.sound.nvram.fits, ?_, ?_⟩
    · show 0 ≤ s.tiers.nvram.fr + m * pageSize
      omega
    · show s.tiers.nvram.fr + m * pageSize ≤ s.tiers.nvram.sz
      omega
  · -- there was no cause at the target
    exact fun hfull => absurd hunder (not_lt.mpr (h.full hfull).2)
  · intro hstart
    exact ⟨(h.room hstart).1, le_trans ((Tier.usage_fill_le h.sound.dram).mpr hroom) hlimit⟩

/-- The tiers keep their sizes. -/
theorem OneWay.small (h : OneWay pageSize start s) (hdram : start.dram.Small pageSize)
    (hnvram : start.nvram.Small pageSize) :
    s.tiers.dram.Small pageSize ∧ s.tiers.nvram.Small pageSize := by
  rw [h.dram, h.nvram]
  exact ⟨hdram, hnvram⟩

/-- **One find** of an iteration, for its cause. -/
theorem OneWay.move (h : OneWay pageSize start s) (hpage : 0 < pageSize)
    (hdram : start.dram.Small pageSize) (hnvram : start.nvram.Small pageSize)
    (hcause : Cause pageSize s.tiers f) (hmove : Balance.Moves P pageSize it f s s') :
    OneWay pageSize start s' := by
  obtain ⟨hsmall, hsmall'⟩ := h.small hdram hnvram
  cases hmove with
  | still => exact h
  | part m hmode hm hle hthere =>
    cases hcause with
    | still hstill =>
      rcases hstill with hstill | hstill <;> rw [hstill] at hmode <;>
        rcases hmode with hmode | hmode | hmode <;> cases hmode
    | dram hover hf =>
      subst hf
      exact h.demote hover hm hpage
        (h.sound.moved_le hpage hsmall hsmall' hmode (h.sound.dram_nonneg hover) hle)
    | nvram hover hf =>
      subst hf
      have hbytes := h.sound.moved_le hpage hsmall hsmall' hmode (h.sound.nvram_nonneg hover) hle
      obtain ⟨-, hroom⟩ := le_min_iff.mp hbytes
      have hup : FindMode.nvram ≠ .dram := by decide
      exact h.promote hup hover.2 hm hpage (by norm_num [dramTarget, dramLimit]) hroom (hthere hup)
    | intensive hunder hf =>
      subst hf
      have hbytes := h.sound.moved_le hpage hsmall hsmall' hmode (h.sound.intensive_nonneg hunder)
        hle
      have hup : FindMode.nvramIntensive ≠ .dram := by decide
      exact h.promote hup hunder hm hpage (le_refl dramLimit) hbytes (hthere hup)

/-! ## An iteration -/

/-- What comes under `switch_act`: an intensive find after a clear, or finds that exchange or
clear. -/
theorem switchPart_causes (pageSize : Int) (it : Iteration) (prev : Int) (t : Tiers) :
    ((∀ f ∈ (hyb.switchPart P pageSize it prev t).finds, (f.mode = .switch ∨ f.mode = .nvramClear) ∧
          ∃ n : Nat, f.nPages = some n) ∧
        (hyb.switchPart P pageSize it prev t).tiers = t) ∨
      (t.dram.usage < dramTarget ∧
        (hyb.switchPart P pageSize it prev t).finds =
          [⟨some 0, .nvramClear, t⟩, hyb.find pageSize t .nvramIntensive] ∧
        (hyb.switchPart P pageSize it prev t).tiers =
          if 0 < it.sent .nvramIntensive then readTiers P it.sizesAfter else t) := by
  have hclear : ∃ n : Nat, (some 0 : Option Int) = some n := ⟨0, rfl⟩
  unfold Controller.switchPart
  split
  · split
    · exact .inl ⟨by simp, rfl⟩
    · split
      · unfold Controller.placeSwitch
        simp only
        split
        · refine .inl ⟨?_, rfl⟩
          intro f hf
          rw [List.mem_singleton.mp hf]
          exact ⟨.inr rfl, hclear⟩
        · refine .inl ⟨?_, rfl⟩
          intro f hf
          rcases List.mem_cons.mp hf with rfl | hf
          · exact ⟨.inr rfl, hclear⟩
          · rw [List.mem_singleton.mp hf]
            exact ⟨.inl rfl, maxNSwitch, rfl⟩
        · rename_i hplace
          refine .inr ⟨?_, rfl, rfl⟩
          by_contra hfull
          have hswitch : hyb.placing t = .switch := if_pos (not_lt.mp hfull)
          rw [hswitch] at hplace
          exact absurd hplace (by decide)
      · exact .inl ⟨by simp, rfl⟩
  · exact .inl ⟨by simp, rfl⟩

/-- And under `thresh_act`. -/
theorem threshPart_cause (pageSize : Int) (it : Iteration) (t : Tiers) :
    (hyb.threshPart pageSize it t).1 = [] ∨
      ∃ f, (hyb.threshPart pageSize it t).1 = [f] ∧ Cause pageSize t f := by
  unfold Controller.threshPart
  split
  · split
    · rename_i hover
      exact .inr ⟨_, rfl, .dram (hyb_dramOver_iff.mp hover) rfl⟩
    · split
      · rename_i hover
        rw [Bool.and_eq_true] at hover
        exact .inr ⟨_, rfl, .nvram (hyb_nvramOver_iff.mp hover.2) rfl⟩
      · exact .inl rfl
  · exact .inl rfl

/-- The finds of an iteration that reads the tiers as they are, in its two parts. -/
theorem memcheckPlacement_finds (it : Iteration) (prev : Int) (hread : readTiers P it.sizes = t) :
    (memcheckPlacement P pageSize it prev).finds =
      (hyb.switchPart P pageSize it prev t).finds ++
        (hyb.threshPart pageSize it (hyb.switchPart P pageSize it prev t).tiers).1 := by
  rw [← hread]
  rfl

/-- **The first part**, with the tiers that the second one tests. -/
theorem OneWay.switchPart (h : OneWay pageSize start s) (hpage : 0 < pageSize)
    (hdram : start.dram.Small pageSize) (hnvram : start.nvram.Small pageSize) {prev : Int}
    (hfinds : Steps (Balance.Moves P pageSize it)
      (hyb.switchPart P pageSize it prev s.tiers).finds s s') :
    OneWay pageSize start s' ∧ s'.tiers = (hyb.switchPart P pageSize it prev s.tiers).tiers := by
  rcases switchPart_causes pageSize it prev s.tiers with
    ⟨hstill, htiers⟩ | ⟨hunder, hlist, htiers⟩
  · rw [htiers, steps_still hfinds fun f hf => (hstill f hf).1]
    exact ⟨h, rfl⟩
  · rw [hlist] at hfinds
    rw [htiers]
    obtain ⟨s₁, hclear, hrest⟩ := hfinds.step_of_cons
    obtain ⟨s₂, hmove, hnone⟩ := hrest.step_of_cons
    obtain rfl := hclear.eq_of_still (.inr rfl)
    obtain rfl := hnone.eq_of_nil
    refine ⟨h.move hpage hdram hnvram (.intensive hunder rfl) hmove, ?_⟩
    cases hmove with
    | still hmode => rcases hmode with hmode | hmode <;> cases hmode
    | part m hmode hm hle hthere hsent hagain =>
      show s₁.tiers.after .nvramIntensive (m * pageSize) = _
      split
      · rename_i hsome
        exact (hagain rfl hsome).symm
      · rename_i hnone
        have hzero : m = 0 := by
          by_contra hne
          exact hnone (hsent (by omega))
        rw [hzero, Int.zero_mul, Tiers.after_zero]

/-- The second part. -/
theorem OneWay.threshPart (h : OneWay pageSize start s) (hpage : 0 < pageSize)
    (hdram : start.dram.Small pageSize) (hnvram : start.nvram.Small pageSize)
    (hfinds : Steps (Balance.Moves P pageSize it) (hyb.threshPart pageSize it s.tiers).1 s s') :
    OneWay pageSize start s' := by
  rcases threshPart_cause pageSize it s.tiers with hnone | ⟨f, hlist, hcause⟩
  · rw [hnone] at hfinds
    rw [hfinds.eq_of_nil]
    exact h
  · rw [hlist] at hfinds
    obtain ⟨s₁, hmove, hnone⟩ := hfinds.step_of_cons
    rw [hnone.eq_of_nil]
    exact h.move hpage hdram hnvram hcause hmove

/-- **An iteration** keeps what is true of the run. -/
theorem OneWay.iterate (h : OneWay pageSize start s) (hpage : 0 < pageSize)
    (hdram : start.dram.Small pageSize) (hnvram : start.nvram.Small pageSize)
    (hstep : s.Step P pageSize s') : OneWay pageSize start s' := by
  cases hstep with
  | iterate it s' hread hfinds =>
    rw [memcheckPlacement_finds it s.prev hread] at hfinds
    obtain ⟨s₁, hfirst, hlast⟩ := hfinds.split
    obtain ⟨hmid, htiers⟩ := h.switchPart hpage hdram hnvram hfirst
    rw [← htiers] at hlast
    have hend := hmid.threshPart hpage hdram hnvram hlast
    exact ⟨hend.down, hend.up, hend.finds, hend.dram, hend.nvram, hend.sound, hend.full, hend.room⟩

/-! ## Runs -/

theorem closedLoop_invariant (P : Platform) (hpage : 0 < pageSize) (hsound : start.Sound)
    (hdram : start.dram.Small pageSize) (hnvram : start.nvram.Small pageSize) :
    (closedLoop P pageSize start).Invariant (OneWay pageSize start) := by
  apply TSys.Inductive.invariant
  constructor
  · rintro s rfl
    refine ⟨Int.le_refl 0, Int.le_refl 0, Int.le_refl 0, ?_, ?_, hsound, fun hfull => ⟨rfl, hfull⟩,
      fun hroom => ⟨rfl, hroom⟩⟩
    · simp [Tier.drain]
    · simp [Tier.fill]
  · intro s s' h hstep
    exact h.iterate hpage hdram hnvram hstep

/-- The two ways, and how far they go: to the target of DRAM or to its limit. -/
def Ways (pageSize : Int) (start : Tiers) (r : Traffic) : Prop :=
  (r.up = 0 ∧ (r.finds : Int) ≤ r.down ∧
      ((r.down * pageSize : Int) : ℚ) ≤ (start.dram.usage - dramTarget) * start.dram.sz) ∨
    (r.down = 0 ∧ (r.finds : Int) ≤ r.up ∧
      ((r.up * pageSize : Int) : ℚ) ≤ (dramLimit - start.dram.usage) * start.dram.sz)

theorem OneWay.ways (h : OneWay pageSize start s) (hsound : start.Sound) :
    Ways pageSize start s.toTraffic := by
  have hfinds := h.finds
  by_cases hfull : dramTarget ≤ start.dram.usage
  · obtain ⟨hup, htarget⟩ := h.full hfull
    refine .inl ⟨hup, by omega, ?_⟩
    rw [h.dram, hup, Int.sub_zero] at htarget
    exact (Tier.le_usage_drain hsound.dram).mp htarget
  · have hunder : start.dram.usage ≤ dramLimit :=
      le_trans (not_le.mp hfull).le (by norm_num [dramTarget, dramLimit])
    obtain ⟨hdown, hlimit⟩ := h.room hunder
    refine .inr ⟨hdown, by omega, ?_⟩
    have hfill : s.tiers.dram = start.dram.fill (s.up * pageSize) := by
      rw [h.dram, hdown, Int.zero_sub, Int.neg_mul]
      unfold Tier.drain Tier.fill
      simp only [Tier.mk.injEq, true_and]
      omega
    rw [hfill] at hlimit
    exact (Tier.usage_fill_le hsound.dram).mp hlimit

/-- **The controller goes one way and settles.** In a closed loop no page is taken back: all
that a run moves goes from DRAM, if its first usage is over the limit, or to DRAM, if it is
below the target, and it is no more than there is up to the target or the limit. Each find that
moves anything counts, so that there are finitely many of them. -/
theorem closed_loop_one_way (P : Platform) {pageSize : Int} (hpage : 0 < pageSize) {start : Tiers}
    (hsound : start.Sound) (hdram : start.dram.Small pageSize)
    (hnvram : start.nvram.Small pageSize) :
    (closedLoop P pageSize start).Invariant fun s =>
      OneWay pageSize start s ∧ Ways pageSize start s.toTraffic := by
  intro s hreach
  have h := closedLoop_invariant P hpage hsound hdram hnvram s hreach
  exact ⟨h, h.ways hsound⟩

end

/-- A DRAM of 1000 pages with 10 free ones, and an NVRAM that is half full. -/
def crowdedDram : Tiers := ⟨⟨4096000, 40960⟩, ⟨8192000, 4096000⟩⟩

/-- Forty pages go to NVRAM at most, and none comes back. -/
theorem closed_loop_one_way_crowdedDram :
    (closedLoop (.shipped fun _ => 0) 4096 crowdedDram).Invariant fun s => s.up = 0 ∧ s.down ≤ 40 := by
  intro s hreach
  obtain ⟨h, hways⟩ := closed_loop_one_way (.shipped fun _ => 0) (by decide : (0 : Int) < 4096)
    (⟨⟨by decide, by decide, by decide, by decide⟩, ⟨by decide, by decide, by decide, by decide⟩⟩ :
      crowdedDram.Sound)
    (show (4096000 : Int) < 2147483648 * 4096 by decide)
    (show (8192000 : Int) < 2147483648 * 4096 by decide) s hreach
  have hfull : dramTarget ≤ crowdedDram.dram.usage := by decide +kernel
  have hroom : (crowdedDram.dram.usage - dramTarget) * crowdedDram.dram.sz = 163840 := by
    decide +kernel
  obtain ⟨hup, -⟩ := h.full hfull
  refine ⟨hup, ?_⟩
  rcases hways with ⟨-, -, hdown⟩ | ⟨hdown, -, -⟩
  · rw [hroom] at hdown
    have hbytes : s.down * 4096 ≤ 163840 := by exact_mod_cast hdown
    omega
  · omega

end Ambix.Ctl
