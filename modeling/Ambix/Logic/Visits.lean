import Ambix.Logic.Policy

/-!
# The visiting order, without a quota

`visits` is the sequence of page examinations of a walk that never stops: the
stretches of `cycle` one after the other, each entry with the bits it has when
the walk comes to it. A walk with a quota is a `scan` of that sequence:

* `walkPtes_tracks`: one address space;
* `walkStretches_tracks`: a list of stretches;
* `walkTier_tracks`: `do_page_walk` from a tier's hand.
-/

namespace Ambix.Hyb

open Ambix.Lib Ambix.Lib.QuotaScan

/-- One examination: the process, the page and the entry's bits at that moment. -/
structure Exam where
  task : TaskPtr
  pid : Int
  addr : Nat
  pte : Pte
deriving DecidableEq, Repr

/-- The candidate entry a page becomes. -/
def Exam.info (x : Exam) : AddrInfo := ⟨x.addr, x.pid⟩

/-- Whether `walk_page_range(mm, start, stop)` visits an entry. -/
def PageEntry.within (start stop : Nat) (e : PageEntry) : Bool :=
  decide (start ≤ e.addr ∧ e.addr < stop)

/-- `walk_page_range` over the whole user range. -/
theorem MmStruct.filter_within (mm : MmStruct) :
    mm.ptes.filter (PageEntry.within 0 maxAddress) = mm.ptes := by
  rw [List.filter_eq_self]
  intro e he
  simpa [PageEntry.within] using mm.user e.addr (List.mem_map_of_mem he)

/-- The entry as an examination by the walk of `task`. -/
def PageEntry.exam (task : TaskPtr) (pid : Int) (e : PageEntry) : Exam :=
  ⟨task, pid, e.addr, e.pte⟩

/-- A call of `walk_page_range` in `do_page_walk`: process index and range. -/
structure Stretch where
  index : Nat
  start : Nat
  stop : Nat
deriving DecidableEq, Repr

/-- A whole address space. -/
def Stretch.whole (i : Nat) : Stretch := ⟨i, 0, maxAddress⟩

/-- The stretches of `do_page_walk` over `n` processes. -/
def cycle (n lastPid lastAddr : Nat) : List Stretch :=
  ⟨lastPid, lastAddr, maxAddress⟩ ::
    ((List.range' (lastPid + 1) (n - (lastPid + 1))).map Stretch.whole ++
      ((List.range lastPid).map Stretch.whole ++ [⟨lastPid, 0, lastAddr + 1⟩]))

namespace Policy

variable {P : Platform} (π : Policy P)

/-- The class of an examination. -/
def classOf (x : Exam) : Verdict := π.verdict x.pte

/-- A list of entries after all in a range were passed over. -/
def resetPtes (start stop : Nat) (es : List PageEntry) : List PageEntry :=
  es.map fun e => if e.within start stop then { e with pte := π.after e.pte } else e

theorem resetPtes_addrs (start stop : Nat) (es : List PageEntry) :
    (π.resetPtes start stop es).map PageEntry.addr = es.map PageEntry.addr := by
  simp only [resetPtes, List.map_map]
  refine List.map_congr_left fun e _ => ?_
  simp only [Function.comp_apply]
  split <;> rfl

/-- An address space after a range was passed over. -/
def resetRange (start stop : Nat) (mm : MmStruct) : MmStruct :=
  mm.withPtes (π.resetPtes start stop mm.ptes) (π.resetPtes_addrs start stop mm.ptes)

end Policy

/-- The examinations of one stretch. -/
def examsOf (k : Kernel) (items : Arr TaskPtr) (mm : TaskPtr → Option MmStruct)
    (s : Stretch) : List Exam :=
  match mm (items s.index) with
  | none => []
  | some a =>
    (a.ptes.filter (PageEntry.within s.start s.stop)).map
      (PageEntry.exam (items s.index) (k.pidOf (items s.index)))

/-- Every examination of a stretch is of its process and in its range. -/
theorem mem_examsOf {k : Kernel} {items : Arr TaskPtr} {mm : TaskPtr → Option MmStruct}
    {s : Stretch} {x : Exam} (h : x ∈ examsOf k items mm s) :
    x.pid = k.pidOf (items s.index) ∧ s.start ≤ x.addr ∧ x.addr < s.stop := by
  unfold examsOf at h
  split at h
  · simp at h
  · obtain ⟨e, he, rfl⟩ := List.mem_map.mp h
    have hin := (List.mem_filter.mp he).2
    simp only [PageEntry.within, decide_eq_true_eq] at hin
    exact ⟨rfl, hin⟩

/-- The address spaces after a stretch was passed over. -/
def passOver {P : Platform} (π : Policy P) (items : Arr TaskPtr)
    (mm : TaskPtr → Option MmStruct) (s : Stretch) : TaskPtr → Option MmStruct :=
  Function.update mm (items s.index) ((mm (items s.index)).map (π.resetRange s.start s.stop))

/-- The examinations of a walk with no quota. -/
def visits {P : Platform} (π : Policy P) (k : Kernel) (items : Arr TaskPtr) :
    List Stretch → (TaskPtr → Option MmStruct) → List Exam
  | [], _ => []
  | s :: ss, mm => examsOf k items mm s ++ visits π k items ss (passOver π items mm s)

/-- The examinations of a walk with no quota from a tier's hand. -/
def tierVisits {P : Platform} (π : Policy P) (σ : Sys) : List Exam :=
  visits π σ.kernel σ.mod.taskItems
    (cycle σ.mod.nPids (σ.mod.lastPid π.tier) (σ.mod.lastAddr π.tier)) σ.mm

/-! ## A call tracks the scan -/

section

variable {P : Platform} {π : Policy P} {base q : Nat} {st : Pick Exam} {m : Mod}

/-- The callback was invoked on the page with these bits. -/
def Mod.visited (m : Mod) (x : Exam) : Prop :=
  ∃ c, Event.visit x.task x.addr x.pte c ∈ m.trace

/-- What the callback examines in one action: it is invoked with an open quota. -/
def Event.examines : Event → Option (TaskPtr × Nat × Pte)
  | .visit t addr pte c => if (c.nFound : Int) = c.nToFind then none else some (t, addr, pte)
  | _ => none

/-- The entries examined so far in the current request, in order. -/
def Mod.examinations (m : Mod) : List (TaskPtr × Nat × Pte) :=
  m.trace.reverse.filterMap Event.examines

/-- An examination as the trace shows it. -/
def Exam.seen (x : Exam) : TaskPtr × Nat × Pte := (x.task, x.addr, x.pte)

/-- The arrays hold the state `st` of a scan whose found list starts at slot `base`. -/
structure Filled (π : Policy P) (base : Nat) (st : Pick Exam) (m : Mod) : Prop where
  nFound : m.nFound = base + st.found.length
  found : m.foundAddrs.slice base st.found.length = st.found.map Exam.info
  nSpare : m.nSpare π.spare = st.spare.length
  spare : (m.spareAddrs π.spare).slice 0 st.spare.length = st.spare.map Exam.info
  visited : ∀ x ∈ st.found ++ st.spare, m.visited x

namespace Filled

theorem log (h : Filled π base st m) (ev : Event) : Filled π base st (m.log ev) := by
  refine ⟨h.nFound, h.found, by simpa using h.nSpare, by simpa using h.spare, fun x hx => ?_⟩
  obtain ⟨c, hc⟩ := h.visited x hx
  exact ⟨c, List.mem_cons_of_mem _ hc⟩

theorem setPid (h : Filled π base st m) (p : Int) : Filled π base st (m.setCurrPid p) :=
  ⟨h.nFound, h.found, by simpa using h.nSpare, by simpa using h.spare, h.visited⟩

theorem setLastAddr (h : Filled π base st m) (tier : Tier) (addr : Nat) :
    Filled π base st (m.setLastAddr tier addr) := by
  cases tier <;>
  exact ⟨h.nFound, h.found, by simpa using h.nSpare, by simpa using h.spare, h.visited⟩

theorem setLastPid (h : Filled π base st m) (tier : Tier) (i : Nat) :
    Filled π base st (m.setLastPid tier i) := by
  cases tier <;>
  exact ⟨h.nFound, h.found, by cases hs : π.spare <;> exact hs ▸ h.nSpare,
    by cases hs : π.spare <;> exact hs ▸ h.spare, h.visited⟩

theorem pushFound (h : Filled π base st m) {x : Exam} (hx : m.visited x) :
    Filled π base { st with found := st.found ++ [x] } (m.pushFound x.info) := by
  refine ⟨?_, ?_, by simpa using h.nSpare, by simpa using h.spare, ?_⟩
  · simp [Mod.pushFound, h.nFound, Nat.add_assoc]
  · simp only [Mod.pushFound, h.nFound, List.length_append, List.length_singleton,
      List.map_append, List.map_cons, List.map_nil]
    rw [Arr.slice_set_end, h.found]
  · intro y hy
    have hy' : y ∈ st.found ++ st.spare ∨ y = x := by
      simp only [List.mem_append, List.mem_singleton] at hy ⊢
      tauto
    obtain ⟨c, hc⟩ : m.visited y := hy'.elim (h.visited y) fun heq => heq ▸ hx
    exact ⟨c, List.mem_cons_of_mem _ hc⟩

theorem pushSpare (h : Filled π base st m) {x : Exam} (hx : m.visited x) :
    Filled π base { st with spare := st.spare ++ [x] } (m.pushSpare π.spare x.info) := by
  refine ⟨?_, ?_, by simp [h.nSpare], ?_, ?_⟩
  · cases hs : π.spare <;> exact h.nFound
  · cases hs : π.spare <;> exact h.found
  · simp only [Mod.spareAddrs_pushSpare, h.nSpare, List.length_append, List.length_singleton,
      List.map_append, List.map_cons, List.map_nil]
    rw [← h.spare, ← Arr.slice_set_end, Nat.zero_add]
  · intro y hy
    have hy' : y ∈ st.found ++ st.spare ∨ y = x := by
      simp only [List.mem_append, List.mem_singleton] at hy ⊢
      tauto
    obtain ⟨c, hc⟩ : m.visited y := hy'.elim (h.visited y) fun heq => heq ▸ hx
    cases hs : π.spare <;> exact ⟨c, List.mem_cons_of_mem _ hc⟩

/-- A call with an open quota offers the entry to the scan. -/
theorem note (h : Filled π base st m) {t : TaskPtr} {addr : Nat} {pte : Pte}
    (hx : m.visited ⟨t, m.currPid, addr, pte⟩) :
    Filled π base (offer π.classOf (m.spareOpen π.spare) st ⟨t, m.currPid, addr, pte⟩)
      (π.note addr pte m) := by
  unfold offer Policy.note Policy.classOf
  cases hv : π.verdict pte with
  | primary => exact h.pushFound hx
  | backup =>
    simp only
    split
    · exact h.pushSpare hx
    · exact h
  | skip => exact h

/-- A call with an open quota. -/
theorem invoke (h : Filled π base st m) (hopen : (m.nFound : Int) ≠ m.nToFind) (t : TaskPtr)
    (e : PageEntry) :
    Filled π base (offer π.classOf (m.spareOpen π.spare) st (e.exam t m.currPid))
        (invoke π.callback t e m).mod ∧
      (Ambix.Hyb.invoke π.callback t e m).ret = 0 ∧
      (Ambix.Hyb.invoke π.callback t e m).commit = π.commit e.pte := by
  have hlog := h.log (.visit t e.addr e.pte m.counters)
  have hseen : (m.log (.visit t e.addr e.pte m.counters)).visited ⟨t, m.currPid, e.addr, e.pte⟩ :=
    ⟨m.counters, List.mem_cons_self⟩
  have hnote := hlog.note hseen
  have hroom : (m.log (.visit t e.addr e.pte m.counters)).spareOpen π.spare ↔
      m.spareOpen π.spare := by
    unfold Mod.spareOpen
    rw [Mod.nSpare_log]
    rfl
  have hopen' : ((m.log (.visit t e.addr e.pte m.counters)).nFound : Int) ≠
      (m.log (.visit t e.addr e.pte m.counters)).nToFind := hopen
  simp only [hroom] at hnote
  unfold Ambix.Hyb.invoke
  rw [π.callback_open hopen']
  simp only
  split
  · rename_i hc
    exact ⟨hnote, rfl, hc.symm ▸ rfl⟩
  · rename_i new hc
    exact ⟨hnote.log _, rfl, rfl⟩

end Filled

/-- The globals hold the state `st` of a scan with quota `q` whose found list
starts at slot `base`. -/
structure Tracks (π : Policy P) (base q : Nat) (st : Pick Exam) (m : Mod) : Prop
    extends Filled π base st m where
  small : base + q ≤ maxNFind
  quota : m.nToFind = base + q
  bound : st.found.length ≤ q

/-- The quota test of a callback is the scan's stop test. -/
theorem Tracks.full_iff (h : Tracks π base q st m) :
    (m.nFound : Int) = m.nToFind ↔ st.found.length = q := by
  rw [h.quota, h.nFound]
  omega

/-- So is the test between two stretches. -/
theorem Tracks.quotaMet_iff (h : Tracks π base q st m) :
    m.quotaMet ↔ st.found.length = q := by
  have := h.bound
  unfold Mod.quotaMet
  rw [h.quota, h.nFound]
  omega

/-- The room left for backups, with no overflow in sight. -/
theorem Tracks.spareOpen_iff (h : Tracks π base q st m) :
    m.spareOpen π.spare ↔ st.spare.length < q - st.found.length := by
  have hb := h.bound
  have hs := h.small
  have hmax := maxNFind_eq
  unfold Mod.spareOpen Mod.quotaLeft
  rw [wrapInt_of_mem (by rw [h.quota, h.nFound]; omega) (by rw [h.quota, h.nFound]; omega),
    h.quota, h.nFound, h.nSpare]
  omega

theorem Tracks.log (h : Tracks π base q st m) (ev : Event) : Tracks π base q st (m.log ev) :=
  ⟨h.toFilled.log ev, h.small, h.quota, h.bound⟩

theorem Tracks.setPid (h : Tracks π base q st m) (p : Int) :
    Tracks π base q st (m.setCurrPid p) :=
  ⟨h.toFilled.setPid p, h.small, h.quota, h.bound⟩

theorem Tracks.setLastAddr (h : Tracks π base q st m) (tier : Tier) (addr : Nat) :
    Tracks π base q st (m.setLastAddr tier addr) :=
  ⟨h.toFilled.setLastAddr tier addr, h.small,
    (Fixed.setLastAddr m tier addr).nToFind.trans h.quota, h.bound⟩

theorem Tracks.invoke_full (h : Tracks π base q st m) (hfull : st.found.length = q)
    (t : TaskPtr) (e : PageEntry) :
    Tracks π base q st (invoke π.callback t e m).mod ∧ (invoke π.callback t e m).ret = 1 := by
  have hlog := h.log (.visit t e.addr e.pte m.counters)
  unfold invoke
  rw [π.callback_full (hlog.full_iff.mpr hfull)]
  exact ⟨hlog.setLastAddr _ _, rfl⟩

theorem Tracks.invoke_open (h : Tracks π base q st m) (hopen : st.found.length ≠ q)
    (t : TaskPtr) (e : PageEntry) :
    Tracks π base q (feed π.classOf q st (e.exam t m.currPid)) (invoke π.callback t e m).mod ∧
      (invoke π.callback t e m).ret = 0 ∧
      (invoke π.callback t e m).commit = π.commit e.pte := by
  obtain ⟨hfilled, hret, hcommit⟩ :=
    h.toFilled.invoke (fun hq => hopen (h.full_iff.mp hq)) t e
  simp only [h.spareOpen_iff] at hfilled
  refine ⟨⟨hfilled, h.small, (π.quiet.invoke_fixed t e m).nToFind.trans h.quota, ?_⟩, hret,
    hcommit⟩
  have hlen := feed_length π.classOf q st (e.exam t m.currPid)
  have hone := List.length_filter_le (fun x => decide (π.classOf x = .primary))
    [e.exam t m.currPid]
  have hb := h.bound
  simp only [List.length_singleton] at hone
  unfold primaries at hlen
  omega

end

/-! ## A walk tracks the scan -/

section

variable {P : Platform} {π : Policy P} {base q : Nat} {st : Pick Exam}

/-- The walk of one address space is the scan of its examinations; if the quota
is still open afterwards every entry in range has been passed over. -/
theorem walkPtes_tracks {m : Mod} (h : Tracks π base q st m) (t : TaskPtr) {pid : Int}
    (hpid : m.currPid = pid) (start stop : Nat) (es : List PageEntry) :
    let seen := scan π.classOf q
      ((es.filter (PageEntry.within start stop)).map (PageEntry.exam t pid)) st
    Tracks π base q seen (walkPtes π.callback t start stop es m).1 ∧
      (seen.found.length ≠ q →
        (walkPtes π.callback t start stop es m).2 = π.resetPtes start stop es) := by
  induction es generalizing m st with
  | nil => exact ⟨h, fun _ => rfl⟩
  | cons e es ih =>
    by_cases hin : start ≤ e.addr ∧ e.addr < stop
    · have hwithin : e.within start stop = true := by simpa [PageEntry.within] using hin
      by_cases hfull : st.found.length = q
      · -- the callback stops the walk, and the scan takes nothing more
        obtain ⟨htr, hret⟩ := h.invoke_full hfull t e
        simp only [walkPtes, if_pos hin, hret, scan_full _ hfull]
        exact ⟨htr, fun hne => absurd hfull hne⟩
      · obtain ⟨htr, hret, hcommit⟩ := h.invoke_open hfull t e
        have hpid' := (π.quiet.invoke_currPid t e m).trans hpid
        obtain ⟨ih1, ih2⟩ := ih htr hpid'
        rw [hpid] at ih1 ih2
        simp only [walkPtes, if_pos hin, hret, hwithin, List.filter_cons_of_pos, List.map_cons,
          scan, if_neg hfull, Policy.resetPtes, if_true]
        refine ⟨ih1, fun hne => ?_⟩
        simp only [ne_eq, not_true_eq_false, if_false, ih2 hne, PageEntry.committed, hcommit]
        rfl
    · have hwithin : e.within start stop = false := by simpa [PageEntry.within] using hin
      obtain ⟨ih1, ih2⟩ := ih h hpid
      simp only [walkPtes, if_neg hin, hwithin, Bool.false_eq_true, not_false_eq_true,
        List.filter_cons_of_neg, Policy.resetPtes, List.map_cons]
      exact ⟨ih1, fun hne => by rw [ih2 hne]; rfl⟩

/-- The stretches of `do_page_walk` as one loop. -/
def walkStretches (cb : PteEntry) : List Stretch → Sys → Sys × Option Nat
  | [], σ => (σ, none)
  | s :: ss, σ =>
    let σ := walkTask cb s.index s.start s.stop σ
    if σ.mod.quotaMet then (σ, some s.index) else walkStretches cb ss σ

theorem walkTasks_eq (cb : PteEntry) (is : List Nat) (σ : Sys) :
    walkTasks cb is σ = walkStretches cb (is.map Stretch.whole) σ := by
  induction is generalizing σ with
  | nil => rfl
  | cons i is ih =>
    simp only [walkTasks, List.map_cons, walkStretches, Stretch.whole]
    split
    · rfl
    · exact ih _

theorem walkStretches_append (cb : PteEntry) (ss ss' : List Stretch) (σ : Sys) :
    walkStretches cb (ss ++ ss') σ =
      match walkStretches cb ss σ with
      | (σ, some i) => (σ, some i)
      | (σ, none) => walkStretches cb ss' σ := by
  induction ss generalizing σ with
  | nil => rfl
  | cons s ss ih =>
    simp only [List.cons_append, walkStretches]
    split
    · rfl
    · exact ih _

/-- `do_page_walk` is the loop over its stretches. -/
theorem doPageWalk_eq {cb : PteEntry} (hq : Quiet cb) (lastPid lastAddr : Nat) (σ : Sys) :
    doPageWalk cb lastPid lastAddr σ =
      ((walkStretches cb (cycle σ.mod.nPids lastPid lastAddr) σ).1,
        (walkStretches cb (cycle σ.mod.nPids lastPid lastAddr) σ).2.getD lastPid) := by
  unfold doPageWalk cycle
  simp only [walkStretches, (walkTask_fixed hq _ _ _ _).nPids, walkTasks_eq,
    walkStretches_append]
  split
  · rfl
  · generalize walkStretches cb (List.map Stretch.whole (List.range' _ _)) _ = w
    obtain ⟨σ₁, r⟩ := w
    cases r with
    | some i => rfl
    | none =>
      simp only
      generalize walkStretches cb (List.map Stretch.whole (List.range lastPid)) σ₁ = w'
      obtain ⟨σ₂, r'⟩ := w'
      cases r' with
      | some i => rfl
      | none =>
        simp only
        split <;> rfl

/-- One stretch. -/
theorem walkTask_tracks {σ : Sys} (h : Tracks π base q st σ.mod) (s : Stretch) :
    let seen := scan π.classOf q (examsOf σ.kernel σ.mod.taskItems σ.mm s) st
    Tracks π base q seen (walkTask π.callback s.index s.start s.stop σ).mod ∧
      (seen.found.length ≠ q →
        (walkTask π.callback s.index s.start s.stop σ).mm =
          passOver π σ.mod.taskItems σ.mm s) := by
  unfold walkTask examsOf passOver
  simp only
  cases hmm : σ.mm (σ.mod.taskItems s.index) with
  | none =>
    have hsame : Function.update σ.mm (σ.mod.taskItems s.index) none = σ.mm := by
      rw [← hmm, Function.update_eq_self]
    exact ⟨h.setPid _, fun _ => hsame.symm⟩
  | some a =>
    obtain ⟨h1, h2⟩ := walkPtes_tracks (h.setPid _) (σ.mod.taskItems s.index) rfl
      s.start s.stop a.ptes
    refine ⟨h1, fun hne => ?_⟩
    have hptes : (walkPageRange π.callback (σ.mod.taskItems s.index) a s.start s.stop
        (σ.mod.setCurrPid (σ.kernel.pidOf (σ.mod.taskItems s.index)))).2 =
          π.resetRange s.start s.stop a := MmStruct.ext (h2 hne)
    simp only [hptes, Option.map_some]

/-- A list of stretches, with the early exit between two of them. -/
theorem walkStretches_tracks (ss : List Stretch) {σ : Sys} (h : Tracks π base q st σ.mod) :
    Tracks π base q (scan π.classOf q (visits π σ.kernel σ.mod.taskItems ss σ.mm) st)
      (walkStretches π.callback ss σ).1.mod := by
  induction ss generalizing σ st with
  | nil => exact h
  | cons s ss ih =>
    obtain ⟨h1, h2⟩ := walkTask_tracks h s
    have hitems := (walkTask_fixed π.quiet s.index s.start s.stop σ).taskItems
    have hkernel := walkTask_kernel π.callback s.index s.start s.stop σ
    simp only [walkStretches, visits, scan_append]
    split
    · rename_i hmet
      rw [scan_full _ (h1.quotaMet_iff.mp hmet)]
      exact h1
    · rename_i hmet
      have hrest := ih h1
      rwa [h2 fun hfull => hmet (h1.quotaMet_iff.mpr hfull), hitems, hkernel] at hrest

theorem Tracks.setLastPid {m : Mod} (h : Tracks π base q st m) (tier : Tier) (i : Nat) :
    Tracks π base q st (m.setLastPid tier i) :=
  ⟨h.toFilled.setLastPid tier i, h.small, by cases tier <;> exact h.quota, h.bound⟩

/-- **A walk from a tier's hand is a scan of the visits from that hand.** -/
theorem walkTier_tracks {σ : Sys} (h : Tracks π base q st σ.mod) :
    Tracks π base q (scan π.classOf q (tierVisits π σ) st)
      (walkTier π.callback π.tier σ).mod := by
  unfold walkTier
  simp only [doPageWalk_eq π.quiet]
  exact (walkStretches_tracks _ h).setLastPid _ _

end

end Ambix.Hyb
