import Ambix.Ctl.MemdataFile
import Ambix.Logic.Memcheck

/-!
# Every sample is one record

However the calls of the two programs interleave, the memcheck thread never reads parts of
two records: what it reads is the beginning of one record, and not of an older one than it
has seen the time of. It goes on with the same record twice at most.
-/

namespace Ambix.Ctl

open Ambix.Lib

/-- `prev_memdata_lmod` after these looks, the latest of which is the first. -/
def prevOf : List Look → Nat
  | [] => 0
  | .ignored _ :: looks => prevOf looks
  | .sampled s :: _ => s.lmod

/-- What was ignored was to be ignored. -/
def Told : List Look → Prop
  | [] => True
  | .ignored lmod :: looks => (lmod = 0 ∨ lmod = prevOf looks) ∧ Told looks
  | .sampled s :: looks => ¬(s.lmod = 0 ∨ s.lmod = prevOf looks) ∧ Told looks

/-- Of two samples: the later one has seen another record, and none before what the earlier
one has read. -/
def After (new old : Sample) : Prop := old.got ≤ new.seen ∧ old.seen < new.seen

/-- What is true of a sample: the file that it opened is settled. -/
structure Sample.Ok (f : Replacing UInt8) (s : Sample) : Prop where
  newer : s.seen ≤ s.got
  source : ∃ i, f.Settled i ∧ f.holds i = s.got ∧
    ∀ bytes, s.bytes = some bytes → bytes <+: (f.disk.inodes i).data

/-- The published record is this one, or a later one. -/
def Reached (f : Replacing UInt8) (n : Nat) : Prop :=
  ∃ j, f.disk.published = some j ∧ n ≤ f.holds j

/-- The file that had the time `lmod` when it had record `n`. -/
def Timed (f : Replacing UInt8) (n lmod : Nat) : Prop :=
  ∃ i, f.Settled i ∧ f.holds i = n ∧ (f.disk.inodes i).mtime = lmod

/-- What the thread has while it is between two calls for one sample. -/
structure Busy (w : Sampling) : Prop where
  set : w.prevMemdataLmod ≠ 0
  differs : w.prevMemdataLmod ≠ prevOf w.looks
  after : ∀ s ∈ w.samples, s.got ≤ w.seen ∧ s.seen < w.seen
  timed : Timed w.files w.seen w.prevMemdataLmod
  reached : Reached w.files w.seen

/-- Where it has opened file `i`. -/
structure Opened (w : Sampling) (i : Nat) (bytes : List UInt8) : Prop where
  settled : w.files.Settled i
  newer : w.seen ≤ w.files.holds i
  read : bytes <+: (w.files.disk.inodes i).data
  reached : Reached w.files (w.files.holds i)

/-- And between two samples. -/
structure Between (w : Sampling) : Prop where
  prev : w.prevMemdataLmod = prevOf w.looks
  timed : ∀ s, w.samples.head? = some s → w.seen = s.seen ∧ s.lmod = w.prevMemdataLmod ∧
    Timed w.files s.seen s.lmod
  reached : ∀ s ∈ w.samples, Reached w.files s.got

/-- The assertion of the thread. -/
def PollingOk (w : Sampling) : Polling → Prop
  | .idle => Between w
  | .noted => Busy w
  | .opened i bytes => Busy w ∧ Opened w i bytes

/-- What holds at any time. -/
structure Sampling.Ok (record : Nat → MemdataBits) (w : Sampling) : Prop where
  files : w.files.Ok fun n => (record n).bytes
  samples : ∀ s ∈ w.samples, s.Ok w.files
  order : w.samples.Pairwise After
  told : Told w.looks
  polling : PollingOk w w.polling

section

variable {record : Nat → MemdataBits} {w w' : Sampling} {f f' : Replacing UInt8} {n lmod : Nat}

/-! ## While `pcm-memory` writes -/

theorem Reached.write (h : Reached f n) (hok : f.Ok fun n => (record n).bytes)
    (hstep : f.Step (fun n => (record n).bytes) f') : Reached f' n := by
  obtain ⟨i, hi, hle⟩ := h
  obtain ⟨j, hj, hle'⟩ := hstep.published hok hi
  obtain ⟨-, -, hholds⟩ := hstep.settled hok (hok.published i hi)
  exact ⟨j, hj, by omega⟩

theorem Timed.write (h : Timed f n lmod) (hok : f.Ok fun n => (record n).bytes)
    (hstep : f.Step (fun n => (record n).bytes) f') : Timed f' n lmod := by
  obtain ⟨i, hset, hholds, htime⟩ := h
  obtain ⟨hset', hinode, hholds'⟩ := hstep.settled hok hset
  exact ⟨i, hset', by rw [hholds', hholds], by rw [hinode, htime]⟩

theorem Sample.Ok.write {s : Sample} (h : s.Ok f) (hok : f.Ok fun n => (record n).bytes)
    (hstep : f.Step (fun n => (record n).bytes) f') : s.Ok f' := by
  obtain ⟨i, hset, hholds, hread⟩ := h.source
  obtain ⟨hset', hinode, hholds'⟩ := hstep.settled hok hset
  refine ⟨h.newer, i, hset', hholds'.trans hholds, ?_⟩
  rw [hinode]
  exact hread

theorem Busy.write (h : Busy w) (hok : w.files.Ok fun n => (record n).bytes)
    (hstep : w.files.Step (fun n => (record n).bytes) f') : Busy { w with files := f' } :=
  ⟨h.set, h.differs, h.after, h.timed.write hok hstep, h.reached.write hok hstep⟩

theorem Opened.write {i : Nat} {bytes : List UInt8} (h : Opened w i bytes)
    (hok : w.files.Ok fun n => (record n).bytes)
    (hstep : w.files.Step (fun n => (record n).bytes) f') :
    Opened { w with files := f' } i bytes := by
  obtain ⟨hset, hinode, hholds⟩ := hstep.settled hok h.settled
  refine ⟨hset, ?_, ?_, ?_⟩
  · show w.seen ≤ f'.holds i
    rw [hholds]
    exact h.newer
  · show bytes <+: (f'.disk.inodes i).data
    rw [hinode]
    exact h.read
  · show Reached f' (f'.holds i)
    rw [hholds]
    exact h.reached.write hok hstep

theorem Between.write (h : Between w) (hok : w.files.Ok fun n => (record n).bytes)
    (hstep : w.files.Step (fun n => (record n).bytes) f') : Between { w with files := f' } :=
  ⟨h.prev, fun s hs => ⟨(h.timed s hs).1, (h.timed s hs).2.1, (h.timed s hs).2.2.write hok hstep⟩,
    fun s hs => (h.reached s hs).write hok hstep⟩

theorem PollingOk.write {polling : Polling} (h : PollingOk w polling)
    (hok : w.files.Ok fun n => (record n).bytes)
    (hstep : w.files.Step (fun n => (record n).bytes) f') :
    PollingOk { w with files := f' } polling := by
  cases polling with
  | idle => exact Between.write h hok hstep
  | noted => exact Busy.write h hok hstep
  | opened i bytes => exact ⟨h.1.write hok hstep, h.2.write hok hstep⟩

theorem Sampling.Ok.write (h : w.Ok record)
    (hstep : w.files.Step (fun n => (record n).bytes) f') : Ok record { w with files := f' } :=
  ⟨hstep.ok h.files, fun s hs => (h.samples s hs).write h.files hstep, h.order, h.told,
    h.polling.write h.files hstep⟩

/-! ## A sample -/

/-- The file that was noted last is not that of a new time. -/
theorem Sampling.Ok.note {i : Nat} (h : w.Ok record) (hat : w.polling = .idle) (hnew : ¬w.Ignores)
    (hi : w.files.disk.published = some i) :
    Ok record { w with
      polling := .noted, prevMemdataLmod := w.getMemdataMtime, seen := w.files.holds i } := by
  have hbetween : Between w := by
    have := h.polling
    rwa [hat] at this
  have htime : w.getMemdataMtime = (w.files.disk.inodes i).mtime := by
    simp only [getMemdataMtime, hi]
  obtain ⟨hset, hdiffers⟩ := not_or.mp hnew
  refine ⟨h.files, h.samples, h.order, h.told, hset, ?_, ?_, ?_, ?_⟩
  · show w.getMemdataMtime ≠ prevOf w.looks
    rw [← hbetween.prev]
    exact hdiffers
  · show ∀ s ∈ w.samples, s.got ≤ w.files.holds i ∧ s.seen < w.files.holds i
    intro s hs
    obtain ⟨j, hj, hle⟩ := hbetween.reached s hs
    obtain rfl := Option.some.inj (hi.symm.trans hj)
    refine ⟨hle, ?_⟩
    -- the latest sample has seen a file of another time, so an older one
    cases hsamples : w.samples with
    | nil => simp [hsamples] at hs
    | cons last rest =>
      obtain ⟨-, hlmod, k, hk, hholds, hmtime⟩ := hbetween.timed last (by rw [hsamples]; rfl)
      have hlast : last.seen < w.files.holds i := by
        rw [← hholds]
        refine h.files.latest k i hi hk ?_
        rintro rfl
        exact hdiffers (by rw [htime, hmtime, hlmod])
      rw [hsamples] at hs
      rcases List.mem_cons.mp hs with rfl | hs
      · exact hlast
      · have horder := h.order
        rw [hsamples] at horder
        exact Nat.lt_trans ((List.pairwise_cons.mp horder).1 s hs).2 hlast
  · exact ⟨i, h.files.published i hi, rfl, htime.symm⟩
  · exact ⟨i, hi, Nat.le_refl _⟩

/-- The end of a sample. -/
theorem Sampling.Ok.finish {got : Nat} {bytes : Option (List UInt8)} (h : w.Ok record)
    (hbusy : Busy w) (hsample : Sample.Ok w.files ⟨w.prevMemdataLmod, w.seen, got, bytes⟩)
    (hreached : Reached w.files got) :
    Ok record { w with
      polling := .idle, looks := .sampled ⟨w.prevMemdataLmod, w.seen, got, bytes⟩ :: w.looks } := by
  have hsamples : ({ w with
      polling := .idle, looks := .sampled ⟨w.prevMemdataLmod, w.seen, got, bytes⟩ :: w.looks } :
        Sampling).samples = ⟨w.prevMemdataLmod, w.seen, got, bytes⟩ :: w.samples := rfl
  refine ⟨h.files, ?_, ?_, ⟨not_or.mpr ⟨hbusy.set, hbusy.differs⟩, h.told⟩, rfl, ?_, ?_⟩
  · rw [hsamples]
    intro s hs
    rcases List.mem_cons.mp hs with rfl | hs
    · exact hsample
    · exact h.samples s hs
  · rw [hsamples]
    exact List.pairwise_cons.mpr ⟨hbusy.after, h.order⟩
  · rw [hsamples]
    intro s hs
    obtain rfl := Option.some.inj hs
    exact ⟨rfl, rfl, hbusy.timed⟩
  · rw [hsamples]
    intro s hs
    rcases List.mem_cons.mp hs with rfl | hs
    · exact hreached
    · obtain ⟨j, hj, hle⟩ := hbusy.reached
      exact ⟨j, hj, Nat.le_trans (hbusy.after s hs).1 hle⟩

theorem Sampling.Ok.step (h : w.Ok record) (hstep : w.Step record w') : w'.Ok record := by
  have hpolling := h.polling
  cases hstep with
  | write files hw => exact h.write hw
  | ignore hat hold =>
    rw [hat] at hpolling
    refine ⟨h.files, h.samples, h.order, ⟨?_, h.told⟩, ?_⟩
    · rw [← hpolling.prev]
      exact hold
    · show PollingOk _ w.polling
      rw [hat]
      exact ⟨hpolling.prev, hpolling.timed, hpolling.reached⟩
  | statFails hat =>
    rw [hat] at hpolling
    refine ⟨h.files, h.samples, h.order, ⟨.inl rfl, h.told⟩, ?_⟩
    show PollingOk _ w.polling
    rw [hat]
    exact ⟨hpolling.prev, hpolling.timed, hpolling.reached⟩
  | note i hat hnew hi => exact h.note hat hnew hi
  | openFails hat =>
    rw [hat] at hpolling
    obtain ⟨i, hset, hholds, -⟩ := hpolling.timed
    exact h.finish hpolling ⟨Nat.le_refl _, i, hset, hholds, fun _ heq => absurd heq (by simp)⟩
      hpolling.reached
  | «open» i hat hi =>
    rw [hat] at hpolling
    obtain ⟨j, hj, hle⟩ := hpolling.reached
    obtain rfl := Option.some.inj (hi.symm.trans hj)
    exact ⟨h.files, h.samples, h.order, h.told,
      ⟨hpolling.set, hpolling.differs, hpolling.after, hpolling.timed, hpolling.reached⟩,
      h.files.published i hi, hle, List.nil_prefix, i, hi, Nat.le_refl _⟩
  | read i bytes piece hat hpiece =>
    rw [hat] at hpolling
    obtain ⟨hbusy, hopened⟩ := hpolling
    exact ⟨h.files, h.samples, h.order, h.told,
      ⟨hbusy.set, hbusy.differs, hbusy.after, hbusy.timed, hbusy.reached⟩,
      hopened.settled, hopened.newer, hpiece, hopened.reached⟩
  | close i bytes hat =>
    rw [hat] at hpolling
    obtain ⟨hbusy, hopened⟩ := hpolling
    refine h.finish hbusy ⟨hopened.newer, i, hopened.settled, rfl, fun bytes' heq => ?_⟩
      hopened.reached
    obtain rfl := Option.some.inj heq
    exact hopened.read

theorem sampling_invariant (record : Nat → MemdataBits) :
    (memdataFile record).Invariant (Sampling.Ok record) := by
  apply TSys.Inductive.invariant
  constructor
  · rintro ⟨files, polling, prev, seen, looks⟩ ⟨hfiles, hidle, hprev, hlooks⟩
    simp only at hfiles hidle hprev hlooks
    subst hfiles hidle hprev hlooks
    exact ⟨Replacing.start_ok _, fun s hs => absurd hs (by simp [Sampling.samples]),
      List.Pairwise.nil, trivial, rfl, fun s hs => absurd hs (by simp [Sampling.samples]),
      fun s hs => absurd hs (by simp [Sampling.samples])⟩
  · exact fun w w' h hstep => h.step hstep

/-! ## What the memcheck thread makes of it -/

/-- The record `n` was begun, and a file that nothing changes any more has all of it. -/
def Written (record : Nat → MemdataBits) (f : Replacing UInt8) (n : Nat) : Prop :=
  n < f.begun ∧ ∃ i, f.Settled i ∧ f.holds i = n ∧ (f.disk.inodes i).data = (record n).bytes

theorem Sample.Ok.begun {s : Sample} (h : s.Ok f) (hok : f.Ok fun n => (record n).bytes) :
    s.got < f.begun := by
  obtain ⟨i, hset, hholds, -⟩ := h.source
  rw [← hholds]
  exact hok.begun i hset.used

/-- **A complete read is one record**, which was written. -/
theorem Sample.Ok.whole {s : Sample} (h : s.Ok f) (hok : f.Ok fun n => (record n).bytes)
    {r : MemdataRead} (hfile : r.file = s.bytes) (hcomplete : r.Complete) :
    readMemdata r = (record s.got).value ∧ Written record f s.got := by
  obtain ⟨i, hset, hholds, hread⟩ := h.source
  obtain ⟨bytes, hbytes, hlen⟩ := hcomplete
  have hstarts := hread bytes (hfile.symm.trans hbytes)
  have hdata := hok.data i hset.used
  rw [hholds] at hdata
  -- a beginning with the length of a record is the record, and so is the file's data
  have heq : bytes = (record s.got).bytes := by
    refine (hstarts.trans hdata).eq_of_length_le ?_
    rw [MemdataBits.length_bytes]
    exact hlen
  refine ⟨readMemdata_written (hbytes.trans (congrArg some heq)), h.begun hok, i, hset, hholds, ?_⟩
  rw [heq] at hstarts
  exact (hstarts.eq_of_length_le hdata.length_le).symm

/-- A record is read again by the next sample only: the one after that has seen a later one. -/
theorem samples_twice {samples : List Sample} (h : ∀ s ∈ samples, s.seen ≤ s.got)
    (horder : samples.Pairwise After) (n : Nat) :
    (samples.filter fun s => s.got = n).length ≤ 2 := by
  have horder' := horder.sublist (List.filter_sublist (p := fun s => decide (s.got = n)))
  have hgot : ∀ s ∈ samples.filter fun s => s.got = n, s.got = n ∧ s.seen ≤ n := by
    intro s hs
    obtain ⟨hmem, hn⟩ := List.mem_filter.mp hs
    have hn : s.got = n := of_decide_eq_true hn
    exact ⟨hn, hn ▸ h s hmem⟩
  generalize samples.filter (fun s => decide (s.got = n)) = l at horder' hgot
  match l with
  | [] | [_] | [_, _] => simp
  | a :: b :: c :: rest =>
    -- the second has seen what the first has read, which is the record
    obtain ⟨hab, hbc⟩ := List.pairwise_cons.mp horder'
    have hb := (List.pairwise_cons.mp hbc).1 c (by simp)
    have ha := hab b (by simp)
    obtain ⟨hcn, -⟩ := hgot c (by simp)
    obtain ⟨-, han⟩ := hgot a (by simp)
    have := hb.1
    have := ha.2
    omega

/-- An iteration that has this look. -/
def Look.Of (look : Look) (it : Iteration) : Prop :=
  it.switchAct = true ∧ it.memdataLmod = (look.lmod : Int)

/-- The iterations of `memcheck_placement` with these looks. -/
theorem prevAfter_looks {P : Platform} {pageSize : Int} {its : List Iteration} {looks : List Look}
    (h : Told looks) (hits : List.Forall₂ Look.Of looks its) :
    prevAfter P pageSize 0 its.reverse = (prevOf looks : Int) := by
  induction hits with
  | nil => rfl
  | @cons look it looks its hof hits ih =>
    obtain ⟨hact, hlmod⟩ := hof
    have hprev : prevAfter P pageSize 0 (it :: its).reverse =
        (memcheckPlacement P pageSize it (prevAfter P pageSize 0 its.reverse)).prevMemdataLmod := by
      unfold prevAfter
      rw [List.reverse_cons, List.foldl_append]
      rfl
    rw [hprev, ih (by cases look <;> exact h.2), memcheckPlacement, Controller.iterate_prev]
    cases look with
    | ignored lmod =>
      have hold : ¬it.Reads (prevOf looks) := by
        refine fun hreads => hreads.2 ?_
        rw [hlmod]
        exact h.1.imp (fun heq => by rw [Look.lmod, heq]; rfl) fun heq => by rw [Look.lmod, heq]
      rw [if_neg hold]
      rfl
    | sampled s =>
      have hreads : it.Reads (prevOf looks) := by
        refine ⟨hact, fun hold => h.1 ?_⟩
        rw [hlmod] at hold
        exact hold.imp (fun heq => Int.ofNat_eq_zero.mp heq) fun heq => Int.ofNat_inj.mp heq
      rw [if_pos hreads, hlmod]
      rfl

end

/-- What the memcheck thread can rely on. -/
structure WellSampled (record : Nat → MemdataBits) (w : Sampling) : Prop where
  /-- A sample is not older than the file whose time was noted, -/
  newer : ∀ s ∈ w.samples, s.seen ≤ s.got ∧ s.got < w.files.begun
  /-- and a complete one is a record as it was written. -/
  whole : ∀ s ∈ w.samples, ∀ r : MemdataRead, r.file = s.bytes → r.Complete →
    readMemdata r = (record s.got).value ∧ Written record w.files s.got
  /-- The samples go forward, -/
  order : w.samples.Pairwise After
  /-- and have no record more than twice. -/
  twice : ∀ n, (w.samples.filter fun s => s.got = n).length ≤ 2
  /-- `memcheck_placement` keeps `prev_memdata_lmod`, -/
  prev : w.polling = .idle → ∀ (P : Platform) (pageSize : Int) (its : List Iteration),
    List.Forall₂ Look.Of w.looks its →
      prevAfter P pageSize 0 its.reverse = (w.prevMemdataLmod : Int)
  /-- which is the time of the file that the last sample has seen. -/
  last : w.polling = .idle → ∀ s, w.samples.head? = some s →
    s.lmod = w.prevMemdataLmod ∧ Timed w.files s.seen w.prevMemdataLmod
  /-- A file that is ignored has the time of the one that the last sample has seen. -/
  ignores : w.polling = .idle → ∀ s, w.samples.head? = some s → w.getMemdataMtime ≠ 0 →
    w.Ignores → Timed w.files s.seen w.getMemdataMtime

/-- **Every sample is one record**, in every interleaving of the two programs. -/
theorem samples_whole (record : Nat → MemdataBits) :
    (memdataFile record).Invariant (WellSampled record) := by
  intro w hreach
  have h := sampling_invariant record w hreach
  have hbetween : w.polling = .idle → Between w := by
    intro hidle
    have hpolling := h.polling
    rwa [hidle] at hpolling
  refine ⟨fun s hs => ⟨(h.samples s hs).newer, (h.samples s hs).begun h.files⟩,
    fun s hs r hfile hcomplete => (h.samples s hs).whole h.files hfile hcomplete, h.order,
    samples_twice (fun s hs => (h.samples s hs).newer) h.order, ?_, ?_, ?_⟩
  · intro hidle P pageSize its hits
    rw [prevAfter_looks h.told hits, (hbetween hidle).prev]
  · intro hidle s hs
    obtain ⟨-, hlmod, htimed⟩ := (hbetween hidle).timed s hs
    refine ⟨hlmod, ?_⟩
    rw [← hlmod]
    exact htimed
  · intro hidle s hs hzero hold
    obtain ⟨-, hlmod, htimed⟩ := (hbetween hidle).timed s hs
    rw [hold.resolve_left hzero, ← hlmod]
    exact htimed

/-! ## A run -/

section

variable {record : Nat → MemdataBits} {w : Sampling}

/-- `write_memdata` at the time `now`, in one piece. -/
def Sampling.written (record : Nat → MemdataBits) (now : Nat) (w : Sampling) : Sampling :=
  { w with files :=
    { disk := (((w.files.disk.create now).append w.files.disk.target
        (record w.files.begun).bytes now)).rename
      writer := .idle
      begun := w.files.begun + 1
      holds := Function.update w.files.holds w.files.disk.target w.files.begun } }

/-- `get_memdata_mtime` finds a new time on the file `i`. -/
def Sampling.noted (i : Nat) (w : Sampling) : Sampling :=
  { w with polling := .noted, prevMemdataLmod := w.getMemdataMtime, seen := w.files.holds i }

/-- `read_memdata` reads all of the file `i`. -/
def Sampling.readAll (i : Nat) (w : Sampling) : Sampling :=
  { w with
    polling := .idle
    looks := .sampled ⟨w.prevMemdataLmod, w.seen, w.files.holds i,
      some (w.files.disk.inodes i).data⟩ :: w.looks }

theorem Sampling.reachable_written (hreach : (memdataFile record).Reachable w)
    (hidle : w.files.writer = .idle) (now : Nat) :
    (memdataFile record).Reachable (w.written record now) := by
  have hcreate := hreach.step (Sampling.Step.write _ (.create now hidle))
  have hwrite := hcreate.step (Sampling.Step.write _
    (.write w.files.disk.target (record w.files.begun).bytes [] now
      (congrArg _ (List.append_nil _).symm)))
  exact hwrite.step (Sampling.Step.write _ (.rename w.files.disk.target [] rfl))

theorem Sampling.reachable_readAll (hreach : (memdataFile record).Reachable w) {i : Nat}
    (hat : w.polling = .noted) (hi : w.files.disk.published = some i) :
    (memdataFile record).Reachable (w.readAll i) := by
  have hopen := hreach.step (Sampling.Step.open i hat hi)
  have hread := hopen.step (Sampling.Step.read i [] (w.files.disk.inodes i).data rfl
    (List.prefix_refl _))
  exact hread.step (Sampling.Step.close i _ rfl)

end

/-- 1 MB/s is read of DRAM in the first interval, then 2. -/
def risingReads (n : Nat) : MemdataBits :=
  ⟨if n = 0 then 0x3f800000 else 0x40000000, 0, 0, 0, 0, 0, 0, 0, 0, 0⟩

/-- The thread has noted the time of the first record, 5. -/
def firstNoted : Sampling :=
  (Sampling.written risingReads 5 ⟨.start, .idle, 0, 0, []⟩).noted 0

/-- The second one has replaced it at 6 when the thread opens the file; it reads it again for
the time of its own. -/
def replacedRecord : Sampling :=
  ((((firstNoted.written risingReads 6).readAll 1).noted 1).readAll 1)

theorem replacedRecord_reachable : (memdataFile risingReads).Reachable replacedRecord := by
  have hstart : (memdataFile risingReads).Reachable ⟨.start, .idle, 0, 0, []⟩ :=
    .init ⟨rfl, rfl, rfl, rfl⟩
  have hfirst : (memdataFile risingReads).Reachable firstNoted :=
    (Sampling.reachable_written hstart rfl 5).step
      (.note 0 rfl (by unfold Sampling.Ignores; decide) rfl)
  have hsample := Sampling.reachable_readAll (Sampling.reachable_written hfirst rfl 6)
    (i := 1) rfl rfl
  exact Sampling.reachable_readAll
    (hsample.step (.note 1 rfl (by unfold Sampling.Ignores; decide) rfl)) rfl rfl

/-- Both samples are the second record. -/
theorem samples_whole_replacedRecord :
    replacedRecord.samples = [⟨6, 1, 1, some (risingReads 1).bytes⟩,
      ⟨5, 0, 1, some (risingReads 1).bytes⟩] ∧
    (∀ s ∈ replacedRecord.samples, ∀ r : MemdataRead, r.file = s.bytes → r.Complete →
      readMemdata r = (risingReads 1).value) ∧
    Timed replacedRecord.files 1 6 := by
  have h := samples_whole risingReads replacedRecord replacedRecord_reachable
  have hsamples : replacedRecord.samples = [⟨6, 1, 1, some (risingReads 1).bytes⟩,
      ⟨5, 0, 1, some (risingReads 1).bytes⟩] := rfl
  refine ⟨hsamples, ?_, (h.last rfl _ (by rw [hsamples]; rfl)).2⟩
  intro s hs r hfile hcomplete
  rw [(h.whole s hs r hfile hcomplete).1]
  rw [hsamples] at hs
  rcases List.mem_pair.mp hs with rfl | rfl
  · rfl
  · rfl

end Ambix.Ctl
