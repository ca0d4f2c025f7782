import Ambix.Ctl.Memcheck

/-!
# `pcm-memory.cpp`

The sampling program that the controllers take their bandwidths from: the counters of the
memory channels and controllers between two readings, the bandwidths of that interval and the
totals since the program started. The bandwidths are exact where the code has floats.
-/

namespace Ambix.Pcm

/-! ## Counters -/

/-- `ServerPCICFGUncore::EventPosition`, as far as it is used. -/
inductive EventPosition
  | read
  | write
  | pmmRead
  | pmmWrite
  | pmmMmMissClean
  | pmmMmMissDirty
deriving DecidableEq, Repr

/-- The position of an event's counter. -/
def EventPosition.code : EventPosition → Nat
  | .read => 0
  | .write => 1
  | .pmmRead => 2
  | .pmmWrite => 3
  | .pmmMmMissClean => 2
  | .pmmMmMissDirty => 3

/-- The counters of a socket: `MCCounter` and `M2MCounter`. -/
structure ServerUncoreCounterState where
  mcCounter : Nat → Nat → UInt64
  m2mCounter : Nat → Nat → UInt64

/-- `getMCCounter`. -/
def getMCCounter (channel : Nat) (counter : EventPosition)
    (before after : ServerUncoreCounterState) : UInt64 :=
  after.mcCounter channel counter.code - before.mcCounter channel counter.code

/-- `getM2MCounter`. -/
def getM2MCounter (controller : Nat) (counter : EventPosition)
    (before after : ServerUncoreCounterState) : UInt64 :=
  after.m2mCounter controller counter.code - before.m2mCounter controller counter.code

/-- The globals that do not change while `main` loops. `pmmMixed` is `!pmm`. -/
structure Config where
  numSockets : Nat
  maxImcChannels : Nat
  maxImcControllers : Nat
  pmm : Bool

/-! ## The record -/

/-- `memdata_t`. The bandwidths are the part that the controllers read. -/
structure Memdata extends Ctl.Memdata where
  totalRDram : UInt64
  totalWDram : UInt64
  totalROptane : UInt64
  totalWOptane : UInt64
deriving DecidableEq, Repr

/-- What `main` sets the record to. -/
def Memdata.init : Memdata :=
  ⟨⟨some 0, some 0, some 0, some 0, some 0, some 0⟩, 0, 0, 0, 0⟩

/-- `toBW`. There is no number when no time has elapsed. -/
def toBW (elapsedTime nEvents : UInt64) : Option ℚ :=
  if elapsedTime = 0 then none
  else some ((nEvents * 64).toNat / 1000000 / (elapsedTime.toNat / 1000))

/-- `toMEv`. -/
def toMEv (nEvents : UInt64) : UInt64 := nEvents / 1000000

/-- `+=` of bandwidths. -/
def addBW (x y : Option ℚ) : Option ℚ := x.bind fun a => y.map fun b => a + b

/-! ## `calculate_bandwidth` -/

/-- The local variables of the loop over the channels. -/
structure ChannelCounts where
  reads : UInt64
  writes : UInt64
  pmmReads : UInt64
  pmmWrites : UInt64
  pmmMemoryModeCleanMisses : UInt64
  pmmMemoryModeDirtyMisses : UInt64

/-- Their values for a channel. -/
def channelCounts (cfg : Config) (before after : ServerUncoreCounterState) (channel : Nat) :
    ChannelCounts where
  reads := getMCCounter channel .read before after
  writes := getMCCounter channel .write before after
  pmmReads := if cfg.pmm then getMCCounter channel .pmmRead before after else 0
  pmmWrites := if cfg.pmm then getMCCounter channel .pmmWrite before after else 0
  pmmMemoryModeCleanMisses :=
    if cfg.pmm then 0 else getMCCounter channel .pmmMmMissClean before after
  pmmMemoryModeDirtyMisses :=
    if cfg.pmm then 0 else getMCCounter channel .pmmMmMissDirty before after

/-- The test before `continue`. -/
def ChannelCounts.idle (c : ChannelCounts) : Bool :=
  c.reads + c.writes + c.pmmReads + c.pmmWrites + c.pmmMemoryModeCleanMisses +
    c.pmmMemoryModeDirtyMisses == 0

/-- The body of the loop over the channels. -/
def addChannel (cfg : Config) (before after : ServerUncoreCounterState) (elapsedTime : UInt64)
    (md : Memdata) (channel : Nat) : Memdata :=
  let c := channelCounts cfg before after channel
  if c.idle then md
  else
    let md := { md with
      totalRDram := md.totalRDram + toMEv c.reads
      totalWDram := md.totalWDram + toMEv c.writes
      sysDramReads := addBW md.sysDramReads (toBW elapsedTime c.reads)
      sysDramWrites := addBW md.sysDramWrites (toBW elapsedTime c.writes) }
    if cfg.pmm then { md with
      totalROptane := md.totalROptane + toMEv c.pmmReads
      totalWOptane := md.totalWOptane + toMEv c.pmmWrites
      sysPmmReads := addBW md.sysPmmReads (toBW elapsedTime c.pmmReads)
      sysPmmWrites := addBW md.sysPmmWrites (toBW elapsedTime c.pmmWrites) }
    else { md with
      sysPmmMemBW := addBW md.sysPmmMemBW
        (toBW elapsedTime (c.pmmMemoryModeCleanMisses + 2 * c.pmmMemoryModeDirtyMisses)) }

/-- The body of the loop over the controllers. -/
def addController (before after : ServerUncoreCounterState) (elapsedTime : UInt64)
    (md : Memdata) (controller : Nat) : Memdata :=
  let pmmReads := getM2MCounter controller .pmmRead before after
  let pmmWrites := getM2MCounter controller .pmmWrite before after
  { md with
    totalROptane := md.totalROptane + toMEv pmmReads
    totalWOptane := md.totalWOptane + toMEv pmmWrites
    sysPmmReads := addBW md.sysPmmReads (toBW elapsedTime pmmReads)
    sysPmmWrites := addBW md.sysPmmWrites (toBW elapsedTime pmmWrites) }

/-- The body of the loop over the sockets. -/
def addSocket (cfg : Config) (uncState1 uncState2 : Nat → ServerUncoreCounterState)
    (elapsedTime : UInt64) (md : Memdata) (skt : Nat) : Memdata :=
  let md := (List.range cfg.maxImcChannels).foldl
    (addChannel cfg (uncState1 skt) (uncState2 skt) elapsedTime) md
  if cfg.pmm then md
  else (List.range cfg.maxImcControllers).foldl
    (addController (uncState1 skt) (uncState2 skt) elapsedTime) md

/-- `calculate_bandwidth`, of the global `md`. -/
def calculateBandwidth (cfg : Config) (uncState1 uncState2 : Nat → ServerUncoreCounterState)
    (elapsedTime : UInt64) (md : Memdata) : Memdata :=
  let md := { md with
    sysDramReads := some 0
    sysDramWrites := some 0
    sysPmmReads := some 0
    sysPmmWrites := some 0
    sysPmmAppBW := some 0
    sysPmmMemBW := some 0 }
  let md := (List.range cfg.numSockets).foldl
    (addSocket cfg uncState1 uncState2 elapsedTime) md
  if cfg.pmm then md
  else { md with
    sysPmmAppBW := (addBW md.sysPmmReads md.sysPmmWrites).bind fun rw =>
      md.sysPmmMemBW.map fun mem => max (rw - mem) 0 }

/-! ## `main` -/

/-- A reading of the counters: `getServerUncoreCounterState` of each socket and
`getTickCount`. -/
structure Snapshot where
  states : Nat → ServerUncoreCounterState
  time : UInt32

/-- `BeforeState`, `BeforeTime` and `md` at the top of the loop. -/
structure Sampler where
  before : Snapshot
  md : Memdata

def Sampler.start (first : Snapshot) : Sampler := ⟨first, .init⟩

/-- The loop of `main` once, with the reading it takes. The record is written to the memdata
file then. -/
def Sampler.sample (cfg : Config) (s : Sampler) (after : Snapshot) : Sampler :=
  ⟨after, calculateBandwidth cfg s.before.states after.states
    (after.time - s.before.time).toUInt64 s.md⟩

/-- The loop for as many readings. -/
def Sampler.run (cfg : Config) (s : Sampler) (readings : List Snapshot) : Sampler :=
  readings.foldl (Sampler.sample cfg) s

end Ambix.Pcm
