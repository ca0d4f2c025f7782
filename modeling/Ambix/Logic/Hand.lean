import Ambix.Logic.MemWalk
import Ambix.Logic.Frame

/-!
# Where a walk leaves the hand

`last_addr` is written by the callback that runs after the quota is met, so it is
written only if another page follows in the same stretch; `last_pid` is the
process of the stretch in any case. `stop` computes both from the page tables:

* `walkTier_swept`: the walk agrees with it, and examines what a scan examines;
* `stop_spec`: where the stop lies among the visits.
-/

namespace Ambix.Hyb

open Ambix.Lib Ambix.Lib.QuotaScan

/-- The stretch in which a walk meets a quota of `r`, and the page that follows in
it, if one does. -/
def stop {P : Platform} (π : Policy P) (k : Kernel) (items : Arr TaskPtr) :
    Nat → List Stretch → (TaskPtr → Option MmStruct) → Option (Stretch × Option Exam)
  | _, [], _ => none
  | r, s :: ss, mm =>
    let xs := examsOf k items mm s
    if r ≤ (primaries π.classOf xs).length then some (s, (unexamined π.classOf r xs).head?)
    else stop π k items (r - (primaries π.classOf xs).length) ss (passOver π items mm s)

section

variable {P : Platform} {π : Policy P} {base q : Nat} {st : Pick Exam}

/-- A walk that examined `xs` and then, with the quota met, came to the page `o`. -/
structure Swept (π : Policy P) (xs : List Exam) (o : Option Exam) (m m' : Mod) : Prop where
  addr : m'.lastAddr π.tier = (o.map Exam.addr).getD (m.lastAddr π.tier)
  owner : m'.owner π.tier = (o.map Exam.pid).getD (m.owner π.tier)
  log : m'.examinations = m.examinations ++ xs.map Exam.seen

theorem Swept.refl (m : Mod) : Swept π [] none m m := ⟨rfl, rfl, by simp⟩

/-- Going on after a part that did not meet the quota. -/
theorem Swept.trans {xs ys : List Exam} {o : Option Exam} {m m' m'' : Mod}
    (h : Swept π xs none m m') (h' : Swept π ys o m' m'') : Swept π (xs ++ ys) o m m'' := by
  refine ⟨?_, ?_, ?_⟩
  · rw [h'.addr, h.addr]
    rfl
  · rw [h'.owner, h.owner]
    rfl
  · rw [h'.log, h.log, List.map_append, List.append_assoc]

theorem Swept.setCurrPid (m : Mod) (p : Int) : Swept π [] none m (m.setCurrPid p) :=
  ⟨by cases π.tier <;> rfl, rfl, by simp [Mod.setCurrPid, Mod.examinations]⟩

theorem Swept.setLastPid (m : Mod) (i : Nat) : Swept π [] none m (m.setLastPid π.tier i) := by
  cases hπ : π.tier <;> exact ⟨by rw [hπ]; rfl, rfl, by simp [Mod.setLastPid, Mod.examinations]⟩

/-- An action that examines nothing. -/
theorem Swept.log_other (m : Mod) {ev : Event} (h : ev.examines = none) :
    Swept π [] none m (m.log ev) :=
  ⟨by cases π.tier <;> rfl, rfl, by simp [Mod.log, Mod.examinations, h]⟩

theorem Swept.note (addr : Nat) (p : Pte) (m : Mod) : Swept π [] none m (π.note addr p m) := by
  unfold Policy.note
  split
  · exact ⟨by cases π.tier <;> rfl, rfl, by simp [Mod.pushFound, Mod.examinations, Event.examines]⟩
  · split
    · refine ⟨by cases π.tier <;> cases π.spare <;> rfl, by cases π.spare <;> rfl, ?_⟩
      cases π.spare <;> simp [Mod.pushSpare, Mod.examinations, Event.examines]
    · exact .refl m
  · exact .refl m

/-- A call with an open quota examines the entry and leaves the hand. -/
theorem invoke_open_swept {m : Mod} (hopen : (m.nFound : Int) ≠ m.nToFind) (t : TaskPtr)
    (e : PageEntry) :
    Swept π [e.exam t m.currPid] none m (invoke π.callback t e m).mod := by
  have hopen' : ((m.log (.visit t e.addr e.pte m.counters)).nFound : Int) ≠
      (m.log (.visit t e.addr e.pte m.counters)).nToFind := hopen
  have hvisit : Swept π [e.exam t m.currPid] none m (m.log (.visit t e.addr e.pte m.counters)) :=
    ⟨by cases π.tier <;> rfl, rfl, by
      simp [Mod.log, Mod.examinations, Event.examines, Mod.counters, hopen, Exam.seen,
        PageEntry.exam]⟩
  have hnote := hvisit.trans (Swept.note e.addr e.pte (m.log (.visit t e.addr e.pte m.counters)))
  unfold invoke
  rw [π.callback_open hopen']
  simp only
  split
  · simpa using hnote
  · rename_i new _
    have hcommit : (Event.commit t e.addr e.pte new).examines = none := rfl
    simpa using hnote.trans (Swept.log_other _ hcommit)

/-- A call after the quota is met records the page. -/
theorem invoke_full_swept {m : Mod} (hfull : (m.nFound : Int) = m.nToFind) (t : TaskPtr)
    (e : PageEntry) :
    Swept π [] (some (e.exam t m.currPid)) m (invoke π.callback t e m).mod := by
  have hfull' : ((m.log (.visit t e.addr e.pte m.counters)).nFound : Int) =
      (m.log (.visit t e.addr e.pte m.counters)).nToFind := hfull
  have hset : ∀ m : Mod, Swept π [] (some (e.exam t m.currPid)) m (m.setLastAddr π.tier e.addr) := by
    intro m
    refine ⟨?_, ?_, ?_⟩ <;> cases π.tier <;>
      simp [Mod.setLastAddr, Mod.lastAddr, PageEntry.exam, Mod.examinations]
  have hvisit : Swept π [] none m (m.log (.visit t e.addr e.pte m.counters)) :=
    .log_other m (by simp [Event.examines, Mod.counters, hfull])
  unfold invoke
  rw [π.callback_full hfull']
  exact hvisit.trans (hset (m.log (.visit t e.addr e.pte m.counters)))

theorem examined_nil (n : Nat) : examined π.classOf n [] = [] := by cases n <;> rfl

theorem unexamined_nil (n : Nat) : unexamined π.classOf n [] = [] := by cases n <;> rfl

/-- In one address space the callback stops at the first page left over. -/
theorem walkPtes_swept {m : Mod} (h : Tracks π base q st m) (t : TaskPtr) {pid : Int}
    (hpid : m.currPid = pid) (start stop : Nat) (es : List PageEntry) :
    let xs := (es.filter (PageEntry.within start stop)).map (PageEntry.exam t pid)
    Swept π (examined π.classOf (q - st.found.length) xs)
      (unexamined π.classOf (q - st.found.length) xs).head? m
      (walkPtes π.callback t start stop es m).1 := by
  induction es generalizing m st with
  | nil =>
    simp only [walkPtes, List.filter_nil, List.map_nil, examined_nil, unexamined_nil]
    exact .refl m
  | cons e es ih =>
    by_cases hin : start ≤ e.addr ∧ e.addr < stop
    · have hwithin : e.within start stop = true := by simpa [PageEntry.within] using hin
      simp only [walkPtes, if_pos hin, hwithin, List.filter_cons_of_pos, List.map_cons]
      by_cases hfull : st.found.length = q
      · -- the quota is met: this page is recorded and the walk ends
        obtain ⟨_, hret⟩ := h.invoke_full hfull t e
        have hstop := invoke_full_swept (π := π) (h.full_iff.mpr hfull) t e
        rw [hpid] at hstop
        simpa [hret, hfull, unexamined, examined] using hstop
      · obtain ⟨htr, hret, _⟩ := h.invoke_open hfull t e
        have hlt := Nat.lt_of_le_of_ne h.bound hfull
        obtain ⟨k, hk⟩ : ∃ k, q - st.found.length = k + 1 :=
          ⟨q - st.found.length - 1, by omega⟩
        have hcall := invoke_open_swept (π := π) (fun hq => hfull (h.full_iff.mp hq)) t e
        have hrest := ih htr ((π.quiet.invoke_currPid t e m).trans hpid)
        rw [feed_quota _ hk] at hrest
        rw [hpid] at hrest hcall
        simp only [hret, hk, unexamined, examined, ne_eq, not_true_eq_false, if_false]
        exact hcall.trans hrest
    · have hwithin : e.within start stop = false := by simpa [PageEntry.within] using hin
      simp only [walkPtes, if_neg hin, hwithin, Bool.false_eq_true, not_false_eq_true,
        List.filter_cons_of_neg]
      exact ih h hpid

/-- The same for one stretch. -/
theorem walkTask_swept {σ : Sys} (h : Tracks π base q st σ.mod) (s : Stretch) :
    let xs := examsOf σ.kernel σ.mod.taskItems σ.mm s
    Swept π (examined π.classOf (q - st.found.length) xs)
      (unexamined π.classOf (q - st.found.length) xs).head? σ.mod
      (walkTask π.callback s.index s.start s.stop σ).mod := by
  have hset := Swept.setCurrPid (π := π) σ.mod (σ.kernel.pidOf (σ.mod.taskItems s.index))
  unfold walkTask examsOf
  simp only
  cases hmm : σ.mm (σ.mod.taskItems s.index) with
  | none =>
    simp only [examined_nil, unexamined_nil]
    exact hset
  | some a =>
    exact hset.trans (walkPtes_swept (h.setPid (σ.kernel.pidOf (σ.mod.taskItems s.index)))
      (σ.mod.taskItems s.index) rfl s.start s.stop a.ptes)

/-- **A list of stretches stops where `stop` says.** -/
theorem walkStretches_swept (ss : List Stretch) {σ : Sys} (h : Tracks π base q st σ.mod) :
    let r := stop π σ.kernel σ.mod.taskItems (q - st.found.length) ss σ.mm
    (walkStretches π.callback ss σ).2 = r.map (fun p => p.1.index) ∧
      Swept π (examined π.classOf (q - st.found.length)
          (visits π σ.kernel σ.mod.taskItems ss σ.mm))
        (r.bind Prod.snd) σ.mod (walkStretches π.callback ss σ).1.mod := by
  induction ss generalizing σ st with
  | nil => exact ⟨rfl, by simpa [visits, stop, walkStretches, examined_nil] using Swept.refl σ.mod⟩
  | cons s ss ih =>
    obtain ⟨htr, hmm⟩ := walkTask_tracks h s
    have hswept := walkTask_swept h s
    have hitems := (walkTask_fixed π.quiet s.index s.start s.stop σ).taskItems
    have hkernel := walkTask_kernel π.callback s.index s.start s.stop σ
    have hbound := h.bound
    have hlen := scan_length π.classOf hbound (examsOf σ.kernel σ.mod.taskItems σ.mm s)
    have hmet := htr.quotaMet_iff
    rw [hlen] at hmet hmm
    simp only [walkStretches, stop, visits]
    by_cases hr : q - st.found.length ≤
        (primaries π.classOf (examsOf σ.kernel σ.mod.taskItems σ.mm s)).length
    · rw [if_pos (hmet.mpr (by omega)), if_pos hr, (examined_append_of_le _ hr _).1]
      exact ⟨rfl, hswept⟩
    · -- the stretch is examined to its end and leaves a smaller quota
      have hlt := Nat.lt_of_not_le hr
      rw [if_neg (fun hc => hr (by have := hmet.mp hc; omega)), if_neg hr,
        (examined_append_of_lt _ hlt _).1]
      obtain ⟨h1, h2⟩ := ih htr
      rw [hlen, hmm (by omega), hitems, hkernel] at h1 h2
      have hquota : q - min q (st.found.length +
          (primaries π.classOf (examsOf σ.kernel σ.mod.taskItems σ.mm s)).length) =
          q - st.found.length -
            (primaries π.classOf (examsOf σ.kernel σ.mod.taskItems σ.mm s)).length := by omega
      rw [hquota] at h1 h2
      simp only [unexamined_of_lt _ hlt, examined_of_lt _ hlt, List.head?_nil] at hswept
      exact ⟨h1, hswept.trans h2⟩

/-- The stop of a walk from a tier's hand. -/
def tierStop (π : Policy P) (r : Nat) (σ : Sys) : Option (Stretch × Option Exam) :=
  stop π σ.kernel σ.mod.taskItems r
    (cycle σ.mod.nPids (σ.mod.lastPid π.tier) (σ.mod.lastAddr π.tier)) σ.mm

/-- **Where `do_page_walk` leaves the hand**: at the process of the stop, and at the
page that follows there or else at the old address. -/
theorem walkTier_swept {σ : Sys} (h : Tracks π base q Pick.empty σ.mod) :
    (walkTier π.callback π.tier σ).mod.lastPid π.tier =
        ((tierStop π q σ).map fun p => p.1.index).getD (σ.mod.lastPid π.tier) ∧
      Swept π (examined π.classOf q (tierVisits π σ)) ((tierStop π q σ).bind Prod.snd) σ.mod
        (walkTier π.callback π.tier σ).mod := by
  obtain ⟨hidx, hswept⟩ := walkStretches_swept
    (cycle σ.mod.nPids (σ.mod.lastPid π.tier) (σ.mod.lastAddr π.tier)) h
  have hset : ∀ (m : Mod) i, (m.setLastPid π.tier i).lastPid π.tier = i := by
    intro m i
    cases π.tier <;> rfl
  unfold walkTier
  simp only [doPageWalk_eq π.quiet, hset]
  refine ⟨by rw [hidx]; rfl, ?_, ?_, ?_⟩
  · exact (Swept.setLastPid _ _).addr.trans hswept.addr
  · exact (Swept.setLastPid _ _).owner.trans hswept.owner
  · rw [(Swept.setLastPid _ _).log, hswept.log]
    simp [tierVisits, Pick.empty]

end

/-! ## The stop among the visits -/

/-- **A quota that is met is met in one stretch**: everything before was examined,
the page recorded there is the first one left over, and what is left over are the
rest of the stretch and the stretches after it. -/
theorem stop_spec {P : Platform} (π : Policy P) (k : Kernel) (items : Arr TaskPtr) {r : Nat}
    (hr : 0 < r) (ss : List Stretch) (mm : TaskPtr → Option MmStruct)
    (hmet : r ≤ (primaries π.classOf (visits π k items ss mm)).length) :
    ∃ pre s post, ss = pre ++ s :: post ∧
      let mm' := pre.foldl (passOver π items) mm
      let r' := r - (primaries π.classOf (visits π k items pre mm)).length
      let xs := examsOf k items mm' s
      0 < r' ∧ r' ≤ (primaries π.classOf xs).length ∧
        stop π k items r ss mm = some (s, (unexamined π.classOf r' xs).head?) ∧
        examined π.classOf r (visits π k items ss mm) =
          visits π k items pre mm ++ examined π.classOf r' xs ∧
        unexamined π.classOf r (visits π k items ss mm) =
          unexamined π.classOf r' xs ++ visits π k items post (passOver π items mm' s) := by
  induction ss generalizing r mm with
  | nil =>
    simp [visits] at hmet
    omega
  | cons s ss ih =>
    rw [visits, primaries_append, List.length_append] at hmet
    by_cases hle : r ≤ (primaries π.classOf (examsOf k items mm s)).length
    · obtain ⟨h1, h2⟩ := examined_append_of_le π.classOf hle
        (visits π k items ss (passOver π items mm s))
      refine ⟨[], s, ss, rfl, ?_⟩
      simp only [List.foldl_nil, visits, primaries_nil, List.length_nil, Nat.sub_zero,
        List.nil_append, stop, if_pos hle]
      exact ⟨hr, hle, trivial, h1, h2⟩
    · have hlt := Nat.lt_of_not_le hle
      obtain ⟨h1, h2⟩ := examined_append_of_lt π.classOf hlt
        (visits π k items ss (passOver π items mm s))
      obtain ⟨pre, s', post, rfl, hpos, hmet', hstop, hex, hun⟩ :=
        ih (r := r - (primaries π.classOf (examsOf k items mm s)).length) (by omega)
          (passOver π items mm s) (by omega)
      refine ⟨s :: pre, s', post, rfl, ?_⟩
      simp only [List.foldl_cons, visits, primaries_append, List.length_append, ← Nat.sub_sub,
        List.append_assoc]
      refine ⟨hpos, hmet', ?_, ?_, ?_⟩
      · rw [stop, if_neg hle]
        exact hstop
      · rw [h1, hex]
      · rw [h2, hun]

end Ambix.Hyb
