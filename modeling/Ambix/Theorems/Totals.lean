import Ambix.Lib.Tally
import Ambix.Pcm.Memory

/-!
# The totals of events

The totals are in millions of events. Each count is cut down to millions before it is added,
so what is left over of every channel, socket and interval is lost, and the totals drift from
the events by exactly that.
-/

namespace Ambix.Pcm

open Ambix.Lib

/-- The four totals of a record. -/
inductive Total
  | rDram
  | wDram
  | rOptane
  | wOptane
deriving DecidableEq, Repr

def Memdata.total (md : Memdata) : Total → UInt64
  | .rDram => md.totalRDram
  | .wDram => md.totalWDram
  | .rOptane => md.totalROptane
  | .wOptane => md.totalWOptane

/-- A total as a number. -/
def Memdata.count (k : Total) (md : Memdata) : Nat := (md.total k).toNat

/-! ## What is counted -/

/-- A count of events for a total, and whether `calculate_bandwidth` skips it. -/
structure Reading where
  events : UInt64
  skipped : Bool

/-- The millions of events that are added. -/
def Reading.taken (r : Reading) : Nat := if r.skipped then 0 else r.events.toNat / 1000000

/-- The events that are not. -/
def Reading.lost (r : Reading) : Nat :=
  if r.skipped then r.events.toNat else r.events.toNat % 1000000

def ChannelCounts.of (c : ChannelCounts) : Total → UInt64
  | .rDram => c.reads
  | .wDram => c.writes
  | .rOptane => c.pmmReads
  | .wOptane => c.pmmWrites

section

variable (cfg : Config) (k : Total)

def channelReadings (before after : ServerUncoreCounterState) (channel : Nat) : List Reading :=
  let c := channelCounts cfg before after channel
  [⟨c.of k, c.idle⟩]

/-- The controllers count for Optane only. -/
def controllerReadings (before after : ServerUncoreCounterState) (controller : Nat) :
    List Reading :=
  match k with
  | .rDram | .wDram => []
  | .rOptane => [⟨getM2MCounter controller .pmmRead before after, false⟩]
  | .wOptane => [⟨getM2MCounter controller .pmmWrite before after, false⟩]

def socketReadings (uncState1 uncState2 : Nat → ServerUncoreCounterState) (skt : Nat) :
    List Reading :=
  (List.range cfg.maxImcChannels).flatMap (channelReadings cfg k (uncState1 skt) (uncState2 skt)) ++
    if cfg.pmm then []
    else (List.range cfg.maxImcControllers).flatMap
      (controllerReadings k (uncState1 skt) (uncState2 skt))

def intervalReadings (before after : Snapshot) : List Reading :=
  (List.range cfg.numSockets).flatMap (socketReadings cfg k before.states after.states)

/-- The counts of all intervals, sockets and channels. -/
def runReadings : Snapshot → List Snapshot → List Reading
  | _, [] => []
  | before, after :: readings => intervalReadings cfg k before after ++ runReadings after readings

/-- The events of a kind since the program started. -/
def events (first : Snapshot) (readings : List Snapshot) : Nat :=
  ((runReadings cfg k first readings).map fun r => r.events.toNat).sum

/-- Those of them that no total has. -/
def lost (first : Snapshot) (readings : List Snapshot) : Nat :=
  ((runReadings cfg k first readings).map Reading.lost).sum

end

/-- Each total is within a million events. -/
def NoDrift (cfg : Config) (first : Snapshot) (readings : List Snapshot) : Prop :=
  ∀ k : Total, |(((Sampler.start first).run cfg readings).md.count k : ℚ) -
    (events cfg k first readings : ℚ) / 1000000| < 1

theorem Reading.taken_lost (r : Reading) : 1000000 * r.taken + r.lost = r.events.toNat := by
  unfold taken lost
  split
  · omega
  · omega

/-- A channel that is skipped has no events, if its counts fit in 64 bits together. -/
theorem ChannelCounts.idle_none {c : ChannelCounts} (h : c.idle = true)
    (hfit : c.reads.toNat + c.writes.toNat + c.pmmReads.toNat + c.pmmWrites.toNat +
      c.pmmMemoryModeCleanMisses.toNat + c.pmmMemoryModeDirtyMisses.toNat < 18446744073709551616)
    (k : Total) : c.of k = 0 := by
  have hsum := congrArg UInt64.toNat (beq_iff_eq.mp h)
  simp only [UInt64.toNat_add, UInt64.toNat_zero] at hsum
  rw [← UInt64.toNat_inj, UInt64.toNat_zero]
  cases k with
  | rDram => show c.reads.toNat = 0; omega
  | wDram => show c.writes.toNat = 0; omega
  | rOptane => show c.pmmReads.toNat = 0; omega
  | wOptane => show c.pmmWrites.toNat = 0; omega

/-! ## What the loops add -/

section

variable (cfg : Config) (k : Total) (elapsedTime : UInt64)

theorem add_toMEv (x nEvents : UInt64) :
    (x + toMEv nEvents).toNat ≡ x.toNat + nEvents.toNat / 1000000 [MOD 18446744073709551616] := by
  rw [UInt64.toNat_add, toMEv, UInt64.toNat_div]
  exact Nat.mod_modEq _ _

theorem addChannel_count (before after : ServerUncoreCounterState) (md : Memdata) (channel : Nat) :
    (addChannel cfg before after elapsedTime md channel).count k ≡
      md.count k + ((channelReadings cfg k before after channel).map Reading.taken).sum
        [MOD 18446744073709551616] := by
  unfold addChannel channelReadings
  simp only [List.map_cons, List.map_nil, List.sum_cons, List.sum_nil, Nat.add_zero, Reading.taken]
  split
  · exact Nat.ModEq.refl _
  · cases hpmm : cfg.pmm with
    | true =>
      cases k with
      | rDram => exact add_toMEv _ _
      | wDram => exact add_toMEv _ _
      | rOptane => exact add_toMEv _ _
      | wOptane => exact add_toMEv _ _
    | false =>
      -- the channels have no Optane events of their own then
      cases k with
      | rDram => exact add_toMEv _ _
      | wDram => exact add_toMEv _ _
      | rOptane =>
        simp [Memdata.count, Memdata.total, ChannelCounts.of, channelCounts, hpmm, Nat.ModEq]
      | wOptane =>
        simp [Memdata.count, Memdata.total, ChannelCounts.of, channelCounts, hpmm, Nat.ModEq]

theorem addController_count (before after : ServerUncoreCounterState) (md : Memdata)
    (controller : Nat) : (addController before after elapsedTime md controller).count k ≡
      md.count k + ((controllerReadings k before after controller).map Reading.taken).sum
        [MOD 18446744073709551616] := by
  cases k with
  | rDram => exact Nat.ModEq.refl _
  | wDram => exact Nat.ModEq.refl _
  | rOptane => exact add_toMEv _ _
  | wOptane => exact add_toMEv _ _

theorem addSocket_count (uncState1 uncState2 : Nat → ServerUncoreCounterState) (md : Memdata)
    (skt : Nat) : (addSocket cfg uncState1 uncState2 elapsedTime md skt).count k ≡
      md.count k + ((socketReadings cfg k uncState1 uncState2 skt).map Reading.taken).sum
        [MOD 18446744073709551616] := by
  have hchannels := foldl_tally (addChannel_count cfg k elapsedTime (uncState1 skt) (uncState2 skt)) md
    (List.range cfg.maxImcChannels)
  unfold addSocket socketReadings
  rw [List.map_append, List.sum_append, ← Nat.add_assoc]
  cases cfg.pmm with
  | true => exact hchannels
  | false =>
    have hcontrollers := foldl_tally (addController_count k elapsedTime (uncState1 skt) (uncState2 skt))
    exact (hcontrollers _ (List.range cfg.maxImcControllers)).trans (hchannels.add_right _)

theorem calculateBandwidth_count (before after : Snapshot) (md : Memdata) :
    (calculateBandwidth cfg before.states after.states elapsedTime md).count k ≡
      md.count k + ((intervalReadings cfg k before after).map Reading.taken).sum
        [MOD 18446744073709551616] := by
  have hsockets := fun md : Memdata => foldl_tally
    (addSocket_count cfg k elapsedTime before.states after.states) md (List.range cfg.numSockets)
  unfold calculateBandwidth intervalReadings
  -- the bandwidths are reset before the loop and one is set after it, which no total is
  cases cfg.pmm with
  | true => exact hsockets _
  | false => exact hsockets _

/-- **The totals of a run** are what its counts add, modulo the size of a word. -/
theorem run_count (s : Sampler) (readings : List Snapshot) :
    (s.run cfg readings).md.count k ≡
      s.md.count k + ((runReadings cfg k s.before readings).map Reading.taken).sum
        [MOD 18446744073709551616] := by
  induction readings generalizing s with
  | nil => exact Nat.ModEq.refl _
  | cons after readings ih =>
    have hstep := calculateBandwidth_count cfg k (after.time - s.before.time).toUInt64 s.before
      after s.md
    rw [runReadings, List.map_append, List.sum_append, ← Nat.add_assoc]
    exact (ih (s.sample cfg after)).trans (hstep.add_right _)

end

/-! ## The drift -/

section

variable {cfg : Config} {k : Total} {first : Snapshot} {readings : List Snapshot}

variable (cfg k first readings) in
theorem taken_lost :
    1000000 * ((runReadings cfg k first readings).map Reading.taken).sum +
      lost cfg k first readings = events cfg k first readings :=
  sum_whole_lost fun r _ => r.taken_lost

/-- No total wraps when the events fit in 64 bits. -/
theorem count_eq (hfit : events cfg k first readings < 18446744073709551616) :
    ((Sampler.start first).run cfg readings).md.count k =
      ((runReadings cfg k first readings).map Reading.taken).sum := by
  have hcount := run_count cfg k (Sampler.start first) readings
  have hinit : (Sampler.start first).md.count k = 0 := by cases k <;> rfl
  have hsum := taken_lost cfg k first readings
  rw [hinit, Nat.zero_add] at hcount
  refine hcount.eq_of_lt_of_lt (UInt64.toNat_lt _) ?_
  show (List.map Reading.taken (runReadings cfg k first readings)).sum < _
  omega

/-- **The totals are exact to a million events** if less than that is left over of each
kind. -/
theorem totals_exact_iff (cfg : Config) (first : Snapshot) (readings : List Snapshot)
    (hfit : ∀ k, events cfg k first readings < 18446744073709551616) :
    NoDrift cfg first readings ↔ ∀ k, lost cfg k first readings < 1000000 := by
  refine forall_congr' fun k => ?_
  rw [count_eq (hfit k)]
  exact_mod_cast abs_drift_lt_one_iff (by decide : 0 < 1000000) (taken_lost cfg k first readings)

end

/-! ## Two channels -/

/-- The counters of a machine whose channels have all read as often. -/
def readsEach (time : UInt32) (reads : UInt64) : Snapshot where
  states _ := ⟨fun _ counter => if counter = 0 then reads else 0, fun _ _ => 0⟩
  time := time

/-- A socket with two channels and two controllers, as `PMM_MIXED` is shipped. -/
def twoChannels : Config := ⟨1, 2, 2, false⟩

/-- What is left over of two counts of 2400000 is 800000. -/
theorem totals_exact_twoChannels : NoDrift twoChannels (readsEach 0 0) [readsEach 1000 2400000] :=
  (totals_exact_iff twoChannels (readsEach 0 0) [readsEach 1000 2400000]
    (fun k => by cases k <;> decide +kernel)).mpr fun k => by cases k <;> decide +kernel

/-- Two channels that read 999999 times each count for nothing. -/
theorem totals_drift_twoChannels :
    ((Sampler.start (readsEach 0 0)).run twoChannels [readsEach 1000 999999]).md.totalRDram = 0 ∧
      events twoChannels .rDram (readsEach 0 0) [readsEach 1000 999999] = 1999998 ∧
      (∀ k, events twoChannels k (readsEach 0 0) [readsEach 1000 999999] < 18446744073709551616) ∧
      ¬ NoDrift twoChannels (readsEach 0 0) [readsEach 1000 999999] := by
  have hcount : ((Sampler.start (readsEach 0 0)).run twoChannels [readsEach 1000 999999]).md.count .rDram =
      0 := by decide +kernel
  have hevents : events twoChannels .rDram (readsEach 0 0) [readsEach 1000 999999] = 1999998 := by
    decide +kernel
  refine ⟨by decide +kernel, hevents, fun k => by cases k <;> decide +kernel, fun h => ?_⟩
  have hdrift := h .rDram
  rw [hcount, hevents] at hdrift
  norm_num [abs_of_neg] at hdrift

end Ambix.Pcm
