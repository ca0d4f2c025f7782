import Ambix.Theorems.Totals
import Mathlib.Algebra.BigOperators.Ring.List
import Mathlib.Tactic.FieldSimp

/-!
# The bandwidths account for the events

A bandwidth is an amount by the time of its interval. Multiplied by that time and added over
the intervals, the bandwidths of a run give back every event, where the totals of the same
record drift from them. The exceptions are a count whose bytes do not fit in a word, and a
channel that is skipped because its counts add to zero in a word.
-/

namespace Ambix.Pcm

open Ambix.Lib

/-- The bandwidth of the events of a kind. -/
def Memdata.bandwidth (md : Memdata) : Total → Option ℚ
  | .rDram => md.sysDramReads
  | .wDram => md.sysDramWrites
  | .rOptane => md.sysPmmReads
  | .wOptane => md.sysPmmWrites

/-- The record has this bandwidth. -/
def Measures (k : Total) (md : Memdata) (b : ℚ) : Prop := md.bandwidth k = some b

/-- The misses of memory mode have a bandwidth, which is 0 without it. -/
def MeasuresMisses (cfg : Config) (md : Memdata) (b : ℚ) : Prop :=
  md.sysPmmMemBW = some b ∧ 0 ≤ b ∧ (cfg.pmm = true → b = 0)

/-- The other two bandwidths: what the misses take of Optane, and what is left of it. -/
def SharesPmm (cfg : Config) (md : Memdata) : Prop :=
  ∃ reads writes misses, Measures .rOptane md reads ∧ Measures .wOptane md writes ∧
    MeasuresMisses cfg md misses ∧
    md.sysPmmAppBW = some (if cfg.pmm then 0 else max (reads + writes - misses) 0)

/-- The bytes that are counted. -/
def Reading.bytes (r : Reading) : Nat := if r.skipped then 0 else (r.events * 64).toNat

/-- All bytes of the count are counted. -/
def Reading.Whole (r : Reading) : Prop :=
  r.events.toNat * 64 < 18446744073709551616 ∧ (r.skipped = true → r.events = 0)

/-- The bandwidth of an amount of bytes. -/
def bandwidthOf (elapsedTime : UInt64) (bytes : Nat) : ℚ :=
  bytes / 1000000 / (elapsedTime.toNat / 1000)

/-- The time between two readings, as `main` takes it. -/
def elapsed (before after : Snapshot) : UInt64 := (after.time - before.time).toUInt64

/-- The intervals of a run. -/
def intervals : Snapshot → List Snapshot → List UInt64
  | _, [] => []
  | before, after :: readings => elapsed before after :: intervals after readings

/-- The records that `main` writes, one after each interval. -/
def Sampler.records (cfg : Config) : Sampler → List Snapshot → List Memdata
  | _, [] => []
  | s, after :: readings => (s.sample cfg after).md :: (s.sample cfg after).records cfg readings

/-- The amount that a record stands for, in units of 1000000 bytes. -/
def megabytes (k : Total) (elapsedTime : UInt64) (md : Memdata) : ℚ :=
  (md.bandwidth k).getD 0 * (elapsedTime.toNat / 1000)

theorem Reading.bytes_le (r : Reading) : r.bytes ≤ r.events.toNat * 64 := by
  unfold bytes
  split
  · exact Nat.zero_le _
  · rw [UInt64.toNat_mul]
    exact Nat.mod_le _ _

theorem Reading.bytes_eq_iff (r : Reading) : r.bytes = r.events.toNat * 64 ↔ r.Whole := by
  have hlt := UInt64.toNat_lt (r.events * 64)
  unfold bytes Whole
  rw [← UInt64.toNat_inj, UInt64.toNat_zero]
  cases r.skipped with
  | true =>
    simp only [if_true, true_implies]
    omega
  | false =>
    simp only [Bool.false_eq_true, if_false, false_implies, and_true]
    rw [UInt64.toNat_mul] at hlt ⊢
    constructor
    · intro heq
      rw [← heq]
      exact hlt
    · intro hfit
      exact Nat.mod_eq_of_lt hfit

/-! ## What the loops add -/

section

variable (cfg : Config) {k : Total} {elapsedTime : UInt64} {md : Memdata} {b : ℚ}

theorem addBW_toBW {x : Option ℚ} (htime : elapsedTime ≠ 0) (nEvents : UInt64) (h : x = some b) :
    addBW x (toBW elapsedTime nEvents) =
      some (b + bandwidthOf elapsedTime (nEvents * 64).toNat) := by
  unfold toBW
  rw [h, if_neg htime]
  rfl

theorem bandwidthOf_zero : bandwidthOf elapsedTime 0 = 0 := by simp [bandwidthOf]

theorem addChannel_bandwidth (htime : elapsedTime ≠ 0) (before after : ServerUncoreCounterState)
    (channel : Nat) (h : Measures k md b) :
    Measures k (addChannel cfg before after elapsedTime md channel)
      (b + ((channelReadings cfg k before after channel).map fun r =>
        bandwidthOf elapsedTime r.bytes).sum) := by
  unfold addChannel channelReadings
  simp only [List.map_cons, List.map_nil, List.sum_cons, List.sum_nil, add_zero, Reading.bytes]
  split
  · rwa [bandwidthOf_zero, add_zero]
  · cases hpmm : cfg.pmm with
    | true =>
      cases k with
      | rDram => exact addBW_toBW htime _ h
      | wDram => exact addBW_toBW htime _ h
      | rOptane => exact addBW_toBW htime _ h
      | wOptane => exact addBW_toBW htime _ h
    | false =>
      -- the channels have no Optane events of their own then
      cases k with
      | rDram => exact addBW_toBW htime _ h
      | wDram => exact addBW_toBW htime _ h
      | rOptane =>
        have hnone : (channelCounts cfg before after channel).of .rOptane = 0 := by
          simp [ChannelCounts.of, channelCounts, hpmm]
        rw [hnone, show (0 * 64 : UInt64).toNat = 0 from rfl, bandwidthOf_zero, add_zero]
        exact h
      | wOptane =>
        have hnone : (channelCounts cfg before after channel).of .wOptane = 0 := by
          simp [ChannelCounts.of, channelCounts, hpmm]
        rw [hnone, show (0 * 64 : UInt64).toNat = 0 from rfl, bandwidthOf_zero, add_zero]
        exact h

theorem addController_bandwidth (htime : elapsedTime ≠ 0)
    (before after : ServerUncoreCounterState) (controller : Nat) (h : Measures k md b) :
    Measures k (addController before after elapsedTime md controller)
      (b + ((controllerReadings k before after controller).map fun r =>
        bandwidthOf elapsedTime r.bytes).sum) := by
  cases k with
  | rDram => exact (add_zero b).symm ▸ h
  | wDram => exact (add_zero b).symm ▸ h
  | rOptane =>
    simp only [controllerReadings, List.map_cons, List.map_nil, List.sum_cons, List.sum_nil, add_zero]
    exact addBW_toBW htime _ h
  | wOptane =>
    simp only [controllerReadings, List.map_cons, List.map_nil, List.sum_cons, List.sum_nil, add_zero]
    exact addBW_toBW htime _ h

theorem addSocket_bandwidth (htime : elapsedTime ≠ 0)
    (uncState1 uncState2 : Nat → ServerUncoreCounterState) (skt : Nat) (h : Measures k md b) :
    Measures k (addSocket cfg uncState1 uncState2 elapsedTime md skt)
      (b + ((socketReadings cfg k uncState1 uncState2 skt).map fun r =>
        bandwidthOf elapsedTime r.bytes).sum) := by
  have hchannels := foldl_adds
    (fun _ _ x => addChannel_bandwidth cfg htime (uncState1 skt) (uncState2 skt) x) h
    (List.range cfg.maxImcChannels)
  unfold addSocket socketReadings
  rw [List.map_append, List.sum_append, ← add_assoc]
  cases cfg.pmm with
  | true => simpa using hchannels
  | false =>
    exact foldl_adds
      (fun _ _ x => addController_bandwidth htime (uncState1 skt) (uncState2 skt) x) hchannels
      (List.range cfg.maxImcControllers)

/-- **The bandwidths of an interval** are what its counts add. -/
theorem calculateBandwidth_bandwidth (htime : elapsedTime ≠ 0) (before after : Snapshot)
    (md : Memdata) :
    Measures k (calculateBandwidth cfg before.states after.states elapsedTime md)
      ((intervalReadings cfg k before after).map fun r => bandwidthOf elapsedTime r.bytes).sum := by
  have hsockets := fun (md : Memdata) (h : Measures k md 0) =>
    foldl_adds
      (fun _ _ x => addSocket_bandwidth cfg htime before.states after.states x) h
      (List.range cfg.numSockets)
  simp only [zero_add] at hsockets
  have hreset : Measures k { md with
      sysDramReads := some 0, sysDramWrites := some 0, sysPmmReads := some 0
      sysPmmWrites := some 0, sysPmmAppBW := some 0, sysPmmMemBW := some 0 } 0 := by
    cases k <;> rfl
  unfold calculateBandwidth intervalReadings
  -- one more bandwidth is set after the loop, which is none of these
  cases cfg.pmm with
  | true => exact hsockets _ hreset
  | false =>
    cases k with
    | rDram => exact hsockets _ hreset
    | wDram => exact hsockets _ hreset
    | rOptane => exact hsockets _ hreset
    | wOptane => exact hsockets _ hreset

theorem bandwidthOf_nonneg (bytes : Nat) : 0 ≤ bandwidthOf elapsedTime bytes := by
  unfold bandwidthOf
  positivity

theorem addChannel_misses (htime : elapsedTime ≠ 0) (before after : ServerUncoreCounterState)
    (channel : Nat) (h : MeasuresMisses cfg md b) :
    ∃ b, MeasuresMisses cfg (addChannel cfg before after elapsedTime md channel) b := by
  obtain ⟨hsome, hnonneg, hzero⟩ := h
  unfold addChannel
  by_cases hidle : (channelCounts cfg before after channel).idle = true
  · simp only [hidle, if_true]
    exact ⟨b, hsome, hnonneg, hzero⟩
  · cases hpmm : cfg.pmm with
    | true =>
      simp only [hidle, if_true]
      exact ⟨b, hsome, hnonneg, hzero⟩
    | false =>
      simp only [hidle]
      refine ⟨_, addBW_toBW htime _ hsome, add_nonneg hnonneg (bandwidthOf_nonneg _), ?_⟩
      intro htrue
      exact absurd (hpmm.symm.trans htrue) Bool.false_ne_true

theorem addSocket_misses (htime : elapsedTime ≠ 0)
    (uncState1 uncState2 : Nat → ServerUncoreCounterState) (skt : Nat)
    (h : ∃ b, MeasuresMisses cfg md b) :
    ∃ b, MeasuresMisses cfg (addSocket cfg uncState1 uncState2 elapsedTime md skt) b := by
  have hchannels : ∃ b, MeasuresMisses cfg ((List.range cfg.maxImcChannels).foldl
      (addChannel cfg (uncState1 skt) (uncState2 skt) elapsedTime) md) b := by
    refine List.foldlRecOn (motive := fun md => ∃ b, MeasuresMisses cfg md b) _ _ h ?_
    intro md ⟨b, hb⟩ channel _
    exact addChannel_misses cfg htime (uncState1 skt) (uncState2 skt) channel hb
  unfold addSocket
  cases cfg.pmm with
  | true => exact hchannels
  | false =>
    -- the controllers count no misses
    exact List.foldlRecOn (motive := fun md => ∃ b, MeasuresMisses cfg md b) _ _ hchannels
      fun md hmd controller _ => hmd

theorem calculateBandwidth_misses (htime : elapsedTime ≠ 0) (before after : Snapshot)
    (md : Memdata) :
    ∃ b, MeasuresMisses cfg
      (calculateBandwidth cfg before.states after.states elapsedTime md) b := by
  have hsockets (md : Memdata) (h : ∃ b, MeasuresMisses cfg md b) :
      ∃ b, MeasuresMisses cfg ((List.range cfg.numSockets).foldl
        (addSocket cfg before.states after.states elapsedTime) md) b := by
    refine List.foldlRecOn (motive := fun md => ∃ b, MeasuresMisses cfg md b) _ _ h ?_
    intro md hmd skt _
    exact addSocket_misses cfg htime before.states after.states skt hmd
  unfold calculateBandwidth
  cases cfg.pmm with
  | true => exact hsockets _ ⟨0, rfl, le_refl 0, fun _ => rfl⟩
  | false => exact hsockets _ ⟨0, rfl, le_refl 0, fun _ => rfl⟩

theorem addChannel_sysPmmAppBW (before after : ServerUncoreCounterState) (channel : Nat) :
    (addChannel cfg before after elapsedTime md channel).sysPmmAppBW = md.sysPmmAppBW := by
  simp only [addChannel]
  split
  · rfl
  · split <;> rfl

theorem addSocket_sysPmmAppBW (uncState1 uncState2 : Nat → ServerUncoreCounterState) (skt : Nat) :
    (addSocket cfg uncState1 uncState2 elapsedTime md skt).sysPmmAppBW = md.sysPmmAppBW := by
  have hchannels : ((List.range cfg.maxImcChannels).foldl
      (addChannel cfg (uncState1 skt) (uncState2 skt) elapsedTime) md).sysPmmAppBW =
        md.sysPmmAppBW := by
    refine List.foldlRecOn (motive := fun m : Memdata => m.sysPmmAppBW = md.sysPmmAppBW) _ _ rfl ?_
    intro m hm channel _
    exact (addChannel_sysPmmAppBW cfg (uncState1 skt) (uncState2 skt) channel).trans hm
  unfold addSocket
  cases cfg.pmm with
  | true => exact hchannels
  | false =>
    exact List.foldlRecOn (motive := fun m : Memdata => m.sysPmmAppBW = md.sysPmmAppBW) _ _
      hchannels fun m hm controller _ => hm

/-- **What is left of Optane** is reads and writes less the misses, and not negative. -/
theorem calculateBandwidth_shares (htime : elapsedTime ≠ 0) (before after : Snapshot)
    (md : Memdata) :
    SharesPmm cfg (calculateBandwidth cfg before.states after.states elapsedTime md) := by
  have hreads := calculateBandwidth_bandwidth cfg (k := .rOptane) htime before after md
  have hwrites := calculateBandwidth_bandwidth cfg (k := .wOptane) htime before after md
  obtain ⟨misses, hmisses⟩ := calculateBandwidth_misses cfg htime before after md
  refine ⟨_, _, misses, hreads, hwrites, hmisses, ?_⟩
  unfold Measures Memdata.bandwidth at hreads hwrites
  have hmem := hmisses.1
  unfold calculateBandwidth at hreads hwrites hmem ⊢
  cases hpmm : cfg.pmm with
  | true =>
    -- it is left at 0 then
    simp only [if_true]
    exact List.foldlRecOn (motive := fun m : Memdata => m.sysPmmAppBW = some 0) _ _ rfl
      fun m hm skt _ => (addSocket_sysPmmAppBW cfg before.states after.states skt).trans hm
  | false =>
    simp only [hpmm, Bool.false_eq_true, if_false] at hreads hwrites hmem ⊢
    rw [hreads, hwrites, hmem]
    rfl

/-- Bandwidths of one interval add up to the bandwidth of all its bytes. -/
theorem sum_bandwidthOf (rs : List Reading) :
    (rs.map fun r => bandwidthOf elapsedTime r.bytes).sum =
      bandwidthOf elapsedTime (rs.map Reading.bytes).sum := by
  induction rs with
  | nil => exact bandwidthOf_zero.symm
  | cons r rs ih =>
    rw [List.map_cons, List.map_cons, List.sum_cons, List.sum_cons, ih]
    unfold bandwidthOf
    push_cast
    ring

/-- The time that a bandwidth was divided by gives the amount back. -/
theorem bandwidthOf_mul (htime : elapsedTime ≠ 0) (bytes : Nat) :
    bandwidthOf elapsedTime bytes * (elapsedTime.toNat / 1000) = bytes / 1000000 := by
  have hpos : (elapsedTime.toNat : ℚ) ≠ 0 := by
    rw [Nat.cast_ne_zero, ← UInt64.toNat_zero, Ne, UInt64.toNat_inj]
    exact htime
  unfold bandwidthOf
  field_simp

end

/-! ## Runs -/

section

variable {cfg : Config} {k : Total} {s : Sampler} {readings : List Snapshot}

/-- A record has the bandwidth of the bytes of its interval. -/
theorem sample_bandwidth {after : Snapshot} (htime : elapsed s.before after ≠ 0) :
    Measures k (s.sample cfg after).md (bandwidthOf (elapsed s.before after)
      ((intervalReadings cfg k s.before after).map Reading.bytes).sum) := by
  rw [← sum_bandwidthOf]
  exact calculateBandwidth_bandwidth cfg htime s.before after s.md

theorem records_measure (htime : ∀ e ∈ intervals s.before readings, e ≠ 0) :
    ∀ md ∈ s.records cfg readings, ∃ b, Measures k md b ∧ 0 ≤ b := by
  induction readings generalizing s with
  | nil => exact List.forall_mem_nil _
  | cons after readings ih =>
    rw [intervals, List.forall_mem_cons] at htime
    rw [Sampler.records, List.forall_mem_cons]
    refine ⟨⟨_, sample_bandwidth htime.1, ?_⟩, ih htime.2⟩
    exact bandwidthOf_nonneg _

theorem records_share (htime : ∀ e ∈ intervals s.before readings, e ≠ 0) :
    ∀ md ∈ s.records cfg readings, SharesPmm cfg md := by
  induction readings generalizing s with
  | nil => exact List.forall_mem_nil _
  | cons after readings ih =>
    rw [intervals, List.forall_mem_cons] at htime
    rw [Sampler.records, List.forall_mem_cons]
    exact ⟨calculateBandwidth_shares cfg htime.1 s.before after s.md, ih htime.2⟩

/-- **The amounts of a run** are the bytes that were counted. -/
theorem records_megabytes (htime : ∀ e ∈ intervals s.before readings, e ≠ 0) :
    (List.zipWith (megabytes k) (intervals s.before readings) (s.records cfg readings)).sum =
      ((runReadings cfg k s.before readings).map Reading.bytes).sum / 1000000 := by
  induction readings generalizing s with
  | nil => simp [intervals, runReadings]
  | cons after readings ih =>
    rw [intervals, List.forall_mem_cons] at htime
    have hfirst : megabytes k (elapsed s.before after) (s.sample cfg after).md =
        ((intervalReadings cfg k s.before after).map Reading.bytes).sum / 1000000 := by
      unfold megabytes
      rw [sample_bandwidth htime.1]
      exact bandwidthOf_mul htime.1 _
    have hrest := ih (s := s.sample cfg after) htime.2
    rw [intervals, Sampler.records, List.zipWith_cons_cons, List.sum_cons, runReadings,
      List.map_append, List.sum_append, hfirst, Nat.cast_add, add_div]
    exact congrArg _ hrest

/-- **The bandwidths account for the events** of a run whose intervals take time: they are
numbers, all six of them, the amounts of reads and writes never exceed the events, and they are
all of them exactly when every count's bytes fit in a word and no count of a skipped channel is
lost. -/
theorem bandwidths_account_iff (cfg : Config) (k : Total) (first : Snapshot)
    (readings : List Snapshot) (htime : ∀ e ∈ intervals first readings, e ≠ 0) :
    let amounts := List.zipWith (megabytes k) (intervals first readings)
      ((Sampler.start first).records cfg readings)
    (∀ md ∈ (Sampler.start first).records cfg readings, ∃ b, Measures k md b ∧ 0 ≤ b) ∧
      (∀ md ∈ (Sampler.start first).records cfg readings, SharesPmm cfg md) ∧
      amounts.sum ≤ events cfg k first readings * 64 / 1000000 ∧
      (amounts.sum = events cfg k first readings * 64 / 1000000 ↔
        ∀ r ∈ runReadings cfg k first readings, r.Whole) := by
  have hamounts : (List.zipWith (megabytes k) (intervals first readings)
        ((Sampler.start first).records cfg readings)).sum =
      ((runReadings cfg k first readings).map Reading.bytes).sum / 1000000 :=
    records_megabytes (s := .start first) htime
  have hevents : events cfg k first readings * 64 =
      ((runReadings cfg k first readings).map fun r => r.events.toNat * 64).sum :=
    (List.sum_map_mul_right ..).symm
  have hscale : (0 : ℚ) < 1000000 := by norm_num
  refine ⟨records_measure (s := .start first) htime, records_share (s := .start first) htime,
    ?_, ?_⟩
  · have hle := sum_le (runReadings cfg k first readings) Reading.bytes_le
    rw [← hevents] at hle
    refine hamounts.trans_le (div_le_div_of_nonneg_right ?_ hscale.le)
    exact_mod_cast hle
  · have hall : (∀ r ∈ runReadings cfg k first readings, r.bytes = r.events.toNat * 64) ↔
        ∀ r ∈ runReadings cfg k first readings, r.Whole :=
      forall₂_congr fun r _ => r.bytes_eq_iff
    rw [← hall, ← sum_eq_iff Reading.bytes_le, ← hevents]
    rw [hamounts, div_left_inj' hscale.ne']
    exact_mod_cast Iff.rfl

end

/-! ## Two channels -/

instance (r : Reading) : Decidable r.Whole :=
  inferInstanceAs (Decidable (_ < _ ∧ (_ → _)))

/-- The counts that are too few for the totals are in the bandwidths. -/
theorem bandwidths_account_twoChannels :
    (List.zipWith (megabytes .rDram) (intervals (readsEach 0 0) [readsEach 1000 999999])
      ((Sampler.start (readsEach 0 0)).records twoChannels [readsEach 1000 999999])).sum =
        ((1999998 : Nat) : ℚ) * 64 / 1000000 := by
  have hone : intervals (readsEach 0 0) [readsEach 1000 999999] = [1000] := by decide +kernel
  have h := bandwidths_account_iff twoChannels .rDram (readsEach 0 0) [readsEach 1000 999999] (by
    rw [hone, List.forall_mem_singleton]
    decide)
  have hevents : events twoChannels .rDram (readsEach 0 0) [readsEach 1000 999999] = 1999998 := by
    decide +kernel
  rw [← hevents]
  exact h.2.2.2.mpr (by decide +kernel)

end Ambix.Pcm
