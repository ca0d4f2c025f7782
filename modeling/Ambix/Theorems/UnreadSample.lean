import Ambix.Ctl.Memdata
import Ambix.Logic.Memcheck

/-!
# A sample that could not be read

`memcheck_placement` takes note of a sample's modification time before it reads the sample, and
`read_memdata` does not say that a read has failed. So the sample is lost with the first
attempt, and whether pages are placed is up to what the memory held.
-/

namespace Ambix.Ctl

open Ambix.Lib

/-- The iteration calls `read_memdata`, which does not obtain a complete record. -/
def Unread (it : Iteration) (r : MemdataRead) (prev : Int) : Prop := it.Reads prev ∧ ¬ r.Complete

/-- There is no CLEAR, SWITCH or INTENSIVE among the finds. -/
def PlacesNothing (finds : List Find) : Prop :=
  ∀ f ∈ finds, f.mode ≠ .nvramClear ∧ f.mode ≠ .switch ∧ f.mode ≠ .nvramIntensive

/-- As long as the file stays as it is, some iteration can still read it: those before it see
the same modification time, or `stat` fails. -/
def SampleUsable (P : Platform) (pageSize lmod prev : Int) : Prop :=
  ∃ (before : List Iteration) (it : Iteration),
    (∀ i ∈ before, i.memdataLmod = lmod ∨ i.memdataLmod = 0) ∧ it.memdataLmod = lmod ∧
      it.Reads (prevAfter P pageSize prev before)

/-- What an iteration should do when its read fails. -/
def UnreadHarmless (P : Platform) (pageSize : Int) (it : Iteration) (r : MemdataRead)
    (prev : Int) : Prop :=
  Unread it r prev →
    PlacesNothing (memcheckPlacement P pageSize (it.reading r) prev).finds ∧
      SampleUsable P pageSize it.memdataLmod
        (memcheckPlacement P pageSize (it.reading r) prev).prevMemdataLmod

section

variable {C : Controller} {P : Platform} {pageSize : Int} {it : Iteration} {prev lmod : Int}

/-! ## One iteration -/

/-- Pages are placed on a sample over the threshold, and on no other. -/
theorem Controller.placesNothing_iff :
    PlacesNothing (C.iterate P pageSize it prev).finds ↔ ¬ C.Busy it prev := by
  constructor
  · intro hnothing hbusy
    exact (hnothing _ (mem_finds_iff.mpr (.clear hbusy))).1 rfl
  · intro hidle f hf
    cases mem_finds_iff.mp hf with
    | clear hbusy => exact absurd hbusy hidle
    | switch hbusy => exact absurd hbusy hidle
    | intensive hint => exact absurd hint.1 hidle
    | dram => exact ⟨by simp [find], by simp [find], by simp [find]⟩
    | nvram => exact ⟨by simp [find], by simp [find], by simp [find]⟩

/-! ## The iterations after it -/

/-- A modification time that has been noted stays noted while the file stays as it is. -/
theorem prevAfter_noted {its : List Iteration}
    (h : ∀ i ∈ its, i.memdataLmod = lmod ∨ i.memdataLmod = 0) :
    prevAfter P pageSize lmod its = lmod := by
  induction its with
  | nil => rfl
  | cons it its ih =>
    have hstep : (memcheckPlacement P pageSize it lmod).prevMemdataLmod = lmod := by
      have hold : ¬ it.Reads lmod := fun hreads =>
        hreads.2 ((h it List.mem_cons_self).symm)
      rw [memcheckPlacement, Controller.iterate_prev, if_neg hold]
    unfold prevAfter at ih ⊢
    rw [List.foldl_cons, hstep]
    exact ih fun i hi => h i (List.mem_cons_of_mem _ hi)

/-- A sample can be used unless its modification time is the one that was noted last. -/
theorem sampleUsable_iff (P : Platform) (pageSize : Int) :
    SampleUsable P pageSize lmod prev ↔ lmod ≠ 0 ∧ lmod ≠ prev := by
  constructor
  · rintro ⟨before, it, hsame, hlmod, hreads⟩
    refine ⟨fun hzero => hreads.2 (Or.inl (hlmod.trans hzero)), fun hprev => ?_⟩
    subst hprev
    rw [prevAfter_noted hsame] at hreads
    exact hreads.2 (Or.inr hlmod)
  · rintro ⟨hzero, hprev⟩
    refine ⟨[], ⟨true, false, fun _ => ⟨0, 0⟩, lmod, none, fun _ => 0, fun _ => ⟨0, 0⟩⟩, by simp, rfl,
      rfl, ?_⟩
    exact not_or.mpr ⟨hzero, hprev⟩

end

/-! ## The failed read -/

/-- **A read that fails is never harmless**: nothing is placed exactly if the memory does not
look like a sample over the threshold, but the sample is lost in any case. -/
theorem memcheck_unread_iff (P : Platform) (pageSize : Int) (it : Iteration) (r : MemdataRead)
    (prev : Int) :
    (UnreadHarmless P pageSize it r prev ↔ ¬ Unread it r prev) ∧
      (Unread it r prev →
        (PlacesNothing (memcheckPlacement P pageSize (it.reading r) prev).finds ↔
            highBandwidth (some (readMemdata r)) = false) ∧
          ¬ SampleUsable P pageSize it.memdataLmod
            (memcheckPlacement P pageSize (it.reading r) prev).prevMemdataLmod) := by
  have hlost : Unread it r prev → ¬ SampleUsable P pageSize it.memdataLmod
      (memcheckPlacement P pageSize (it.reading r) prev).prevMemdataLmod := by
    intro hunread
    have hreads : (it.reading r).Reads prev := hunread.1
    rw [memcheckPlacement, Controller.iterate_prev, if_pos hreads, sampleUsable_iff]
    exact fun h => h.2 rfl
  refine ⟨⟨fun h hunread => hlost hunread (h hunread).2, fun h hunread => absurd hunread h⟩,
    fun hunread => ⟨?_, hlost hunread⟩⟩
  have hreads : (it.reading r).Reads prev := hunread.1
  rw [memcheckPlacement, Controller.placesNothing_iff, Controller.busy_iff, and_iff_right hreads,
    Bool.not_eq_true]
  rfl

/-! ## Pages placed on what the memory held -/

/-- The memory holds five times zero and 20.0 as `sys_pmmAppBW`, and the file is gone. -/
def staleRead : MemdataRead where
  fresh := List.replicate 16 0 ++ [0, 0, 160, 65] ++ List.replicate 36 0
  fresh_length := rfl
  file := none

/-- `stat` has told a new modification time, and DRAM is half free. -/
def newSample : Iteration where
  switchAct := true
  threshAct := true
  sizes _ := ⟨8192000, 4096000⟩
  memdataLmod := 1000
  md := none
  sent _ := 0
  sizesAfter _ := ⟨8192000, 4096000⟩

/-- A CLEAR and an INTENSIVE find are sent though nothing was read, and the sample is lost. -/
theorem memcheck_places_unread :
    Unread newSample staleRead 0 ∧
      ((memcheckPlacement (.shipped fun _ => 0) 4096 (newSample.reading staleRead) 0).finds.map
        Find.mode) = [.nvramClear, .nvramIntensive] ∧
      (memcheckPlacement (.shipped fun _ => 0) 4096 (newSample.reading staleRead) 0).prevMemdataLmod =
        newSample.memdataLmod ∧
      ¬ UnreadHarmless (.shipped fun _ => 0) 4096 newSample staleRead 0 := by
  have hunread : Unread newSample staleRead 0 := by
    refine ⟨by decide, ?_⟩
    rintro ⟨bytes, hbytes, _⟩
    simp [staleRead] at hbytes
  have hfinds : ((memcheckPlacement (.shipped fun _ => 0) 4096 (newSample.reading staleRead)
      0).finds.map Find.mode) = [.nvramClear, .nvramIntensive] := by
    decide +kernel
  refine ⟨hunread, hfinds, by decide +kernel, fun h => ?_⟩
  have hmem : FindMode.nvramClear ∈ (memcheckPlacement (.shipped fun _ => 0) 4096
      (newSample.reading staleRead) 0).finds.map Find.mode := by
    rw [hfinds]
    exact List.mem_cons_self
  obtain ⟨f, hf, hclear⟩ := List.mem_map.mp hmem
  exact ((h hunread).1 f hf).1 hclear

end Ambix.Ctl
