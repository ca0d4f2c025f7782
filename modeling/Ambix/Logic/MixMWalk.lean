import Ambix.Lib.Fault
import Ambix.MixM.Request
import Ambix.Logic.Cycle
import Ambix.Logic.Frame
import Ambix.Logic.Registry

/-!
# Where a MixM walk faults

A walk that comes back is the walk of the hyb module with the same callback. It faults at
the first process without an address space that it comes to, and it comes to a process as
long as the pages it took before leave the quota open (`doPageWalk_faults_iff`). The
counts are on the page tables before the walk: the stretches before the last one are of
different processes.
-/

namespace Ambix.MixM

open Ambix.Lib Ambix.Hyb

section

variable {cb : PteEntry} {s s' : State}

theorem walkTask_faults {i : Nat} (h : s.sys.mm (s.sys.mod.taskItems i) = none)
    (start stop : Nat) : Faults (walkTask cb i start stop s) := by
  unfold walkTask
  simp only [State.touch_sys, h]
  exact faults_error _

/-- A stretch that does not fault. -/
theorem walkTask_ok {i : Nat} (h : s.sys.mm (s.sys.mod.taskItems i) ≠ none) (start stop : Nat) :
    walkTask cb i start stop s =
      .ok ⟨Hyb.walkTask cb i start stop s.sys, i :: s.accesses⟩ := by
  cases hmm : s.sys.mm (s.sys.mod.taskItems i) with
  | none => exact absurd hmm h
  | some a =>
    unfold walkTask Hyb.walkTask
    simp only [State.touch_sys, hmm]
    rfl

/-- The stretches of `do_page_walk` as one loop. -/
def walkStretches (cb : PteEntry) : List Stretch → State → Except State (State × Option Nat)
  | [], s => .ok (s, none)
  | x :: xs, s =>
    (walkTask cb x.index x.start x.stop s).bind fun s =>
      if s.sys.mod.quotaMet then .ok (s, some x.index) else walkStretches cb xs s

theorem walkTasks_eq (is : List Nat) (s : State) :
    walkTasks cb is s = walkStretches cb (is.map Stretch.whole) s := by
  induction is generalizing s with
  | nil => rfl
  | cons i is ih =>
    show (walkTask cb i 0 maxAddress s).bind _ = (walkTask cb i 0 maxAddress s).bind _
    congr 1
    funext s'
    split
    · rfl
    · exact ih s'

/-- Two lists of stretches, one after the other. -/
theorem walkStretches_append (xs ys : List Stretch) (s : State) :
    walkStretches cb (xs ++ ys) s = (walkStretches cb xs s).bind fun r =>
      match r with
      | (s, some i) => .ok (s, some i)
      | (s, none) => walkStretches cb ys s := by
  induction xs generalizing s with
  | nil => rfl
  | cons x xs ih =>
    rw [List.cons_append, walkStretches, walkStretches]
    cases walkTask cb x.index x.start x.stop s with
    | error e => rfl
    | ok s' =>
      simp only [ok_bind]
      split
      · rfl
      · exact ih s'

/-- A walk that comes back is the hyb walk. -/
theorem walkStretches_hyb {xs : List Stretch} {r : Option Nat}
    (h : walkStretches cb xs s = .ok (s', r)) :
    Hyb.walkStretches cb xs s.sys = (s'.sys, r) := by
  induction xs generalizing s with
  | nil =>
    obtain ⟨rfl, rfl⟩ := Prod.mk.inj (Except.ok.inj h)
    rfl
  | cons x xs ih =>
    unfold Hyb.walkStretches
    obtain ⟨s₁, hone, hrest⟩ := bind_eq_ok.mp h
    have hmm : s.sys.mm (s.sys.mod.taskItems x.index) ≠ none := by
      intro hnone
      exact not_faults_iff.mpr ⟨s₁, hone⟩ (walkTask_faults hnone _ _)
    rw [walkTask_ok hmm] at hone
    obtain rfl := Except.ok.inj hone
    simp only at hrest ⊢
    split at hrest
    · rename_i hmet
      obtain ⟨rfl, rfl⟩ := Prod.mk.inj (Except.ok.inj hrest)
      rw [if_pos hmet]
    · rename_i hmet
      rw [if_neg hmet]
      exact ih hrest

/-- The stretches of `do_page_walk` but for the last one, which goes back to the hand's
process. -/
def forward (n lastPid lastAddr : Nat) : List Stretch :=
  ⟨lastPid, lastAddr, maxAddress⟩ ::
    ((List.range' (lastPid + 1) (n - (lastPid + 1))).map Stretch.whole ++
      (List.range lastPid).map Stretch.whole)

theorem forward_eq (n lastPid lastAddr : Nat) :
    forward n lastPid lastAddr =
      ⟨lastPid, lastAddr, maxAddress⟩ :: (others n lastPid).map Stretch.whole := by
  simp [forward, others]

theorem cycle_forward (n lastPid lastAddr : Nat) :
    cycle n lastPid lastAddr = forward n lastPid lastAddr ++ [⟨lastPid, 0, lastAddr + 1⟩] := by
  simp [cycle, forward]

theorem walkTask_nPids (hq : Quiet cb) {i start stop : Nat}
    (h : walkTask cb i start stop s = .ok s') :
    s'.sys.mod.nPids = s.sys.mod.nPids := by
  have hmm : s.sys.mm (s.sys.mod.taskItems i) ≠ none := by
    intro hnone
    exact not_faults_iff.mpr ⟨s', h⟩ (walkTask_faults hnone _ _)
  rw [walkTask_ok hmm] at h
  obtain rfl := Except.ok.inj h
  exact (walkTask_fixed hq _ _ _ _).nPids

/-- `do_page_walk` is the loop over its stretches. -/
theorem doPageWalk_eq (hq : Quiet cb) (lastPid lastAddr : Nat) (s : State) :
    doPageWalk cb lastPid lastAddr s =
      (walkStretches cb (cycle s.sys.mod.nPids lastPid lastAddr) s).map
        fun r => (r.1, r.2.getD lastPid) := by
  unfold doPageWalk cycle
  show (walkTask cb lastPid lastAddr maxAddress s).bind _ =
    ((walkTask cb lastPid lastAddr maxAddress s).bind _).map _
  -- each of the four loops faults, stops the walk or hands on to the next
  cases hfirst : walkTask cb lastPid lastAddr maxAddress s with
  | error e => rfl
  | ok s₁ =>
    have hn := walkTask_nPids hq hfirst
    simp only [ok_bind, walkTasks_eq, walkStretches_append, hn]
    split
    · rfl
    · show (walkStretches cb _ s₁).bind _ = ((walkStretches cb _ s₁).bind _).map _
      cases walkStretches cb ((List.range' (lastPid + 1)
          (s.sys.mod.nPids - (lastPid + 1))).map Stretch.whole) s₁ with
      | error e => rfl
      | ok r =>
        obtain ⟨s₂, hit⟩ := r
        cases hit with
        | some i => rfl
        | none =>
          show (walkStretches cb _ s₂).bind _ = ((walkStretches cb _ s₂).bind _).map _
          cases walkStretches cb ((List.range lastPid).map Stretch.whole) s₂ with
          | error e => rfl
          | ok r =>
            obtain ⟨s₃, hit⟩ := r
            cases hit with
            | some i => rfl
            | none =>
              show (walkTask cb _ _ _ s₃).bind _ = ((walkTask cb _ _ _ s₃).bind _).map _
              cases walkTask cb lastPid 0 (lastAddr + 1) s₃ with
              | error e => rfl
              | ok s₄ =>
                simp only [ok_bind, walkStretches]
                split <;> rfl

/-- A walk that comes back is the hyb walk. -/
theorem walkTier_hyb (hq : Quiet cb) {tier : Tier} (h : walkTier cb tier s = .ok s') :
    s'.sys = Hyb.walkTier cb tier s.sys := by
  unfold Hyb.walkTier
  rw [Hyb.doPageWalk_eq hq]
  obtain ⟨r, hwalk, hend⟩ := bind_eq_ok.mp h
  rw [doPageWalk_eq hq] at hwalk
  cases hloop : walkStretches cb (cycle s.sys.mod.nPids (s.sys.mod.lastPid tier)
      (s.sys.mod.lastAddr tier)) s with
  | error e =>
    rw [hloop] at hwalk
    simp [Except.map] at hwalk
  | ok r' =>
    rw [hloop] at hwalk
    obtain rfl := Except.ok.inj hwalk
    obtain rfl := Except.ok.inj hend
    rw [walkStretches_hyb hloop]
    rfl

end

/-! ## How far a walk comes -/

/-- A counter at `f` after `n` more, in a walk that stops at `q` exactly. -/
def fill (q : Int) (f n : Nat) : Nat := if q < f then f + n else min (f + n) q.toNat

section

variable {q : Int} {f m n : Nat}

@[simp] theorem fill_zero : fill q f 0 = f := by
  unfold fill
  split <;> omega

theorem fill_fill : fill q (fill q f m) n = fill q f (m + n) := by
  unfold fill
  split
  · rw [if_pos (by omega)]
    omega
  · rw [if_neg (by omega)]
    omega

theorem fill_full (h : (f : Int) = q) : fill q f n = f := by
  unfold fill
  rw [if_neg (by omega)]
  omega

theorem fill_one (h : (f : Int) ≠ q) : fill q f 1 = f + 1 := by
  unfold fill
  split <;> omega

theorem quota_fill : q ≤ fill q f n ↔ q ≤ f + n := by
  unfold fill
  split <;> omega

end

/-- A counting callback that takes the pages of `takes` at once. -/
structure Takes (cb : PteEntry) (takes : Pte → Bool) : Prop where
  quiet : Quiet cb
  full : ∀ ptep addr m, (m.nFound : Int) = m.nToFind →
    (cb ptep addr m).ret ≠ 0 ∧ (cb ptep addr m).mod.nFound = m.nFound
  opened : ∀ pte addr m, (m.nFound : Int) ≠ m.nToFind →
    (cb (some pte) addr m).ret = 0 ∧
      (cb (some pte) addr m).mod.nFound = m.nFound + if takes pte then 1 else 0

/-- How many pages a walk of a range takes at once. -/
def takenIn (takes : Pte → Bool) (start stop : Nat) (es : List PageEntry) : Nat :=
  (es.filter (PageEntry.within start stop)).countP fun e => takes e.pte

/-- How many pages a stretch takes at once. -/
def takenOf (takes : Pte → Bool) (items : Arr TaskPtr) (mm : TaskPtr → Option MmStruct)
    (x : Stretch) : Nat :=
  match mm (items x.index) with
  | none => 0
  | some a => takenIn takes x.start x.stop a.ptes

section

variable {cb : PteEntry} {takes : Pte → Bool}

theorem Takes.invoke (h : Takes cb takes) (t : TaskPtr) (e : PageEntry) (m : Mod) :
    ((invoke cb t e m).ret ≠ 0 ↔ (m.nFound : Int) = m.nToFind) ∧
      (invoke cb t e m).mod.nFound = fill m.nToFind m.nFound (if takes e.pte then 1 else 0) := by
  have hmod : (Hyb.invoke cb t e m).ret =
        (cb (some e.pte) e.addr (m.log (.visit t e.addr e.pte m.counters))).ret ∧
      (Hyb.invoke cb t e m).mod.nFound =
        (cb (some e.pte) e.addr (m.log (.visit t e.addr e.pte m.counters))).mod.nFound := by
    unfold Hyb.invoke
    simp only
    split <;> exact ⟨rfl, rfl⟩
  rw [hmod.1, hmod.2]
  by_cases hfull : (m.nFound : Int) = m.nToFind
  · obtain ⟨hret, hfound⟩ := h.full (some e.pte) e.addr
      (m.log (.visit t e.addr e.pte m.counters)) hfull
    exact ⟨iff_of_true hret hfull, by rw [hfound, fill_full hfull]; rfl⟩
  · obtain ⟨hret, hfound⟩ := h.opened e.pte e.addr
      (m.log (.visit t e.addr e.pte m.counters)) hfull
    refine ⟨iff_of_false (fun hne => hne hret) hfull, ?_⟩
    rw [hfound]
    split
    · rw [fill_one hfull]
      rfl
    · rw [fill_zero]
      rfl

theorem walkPtes_taken (h : Takes cb takes) (t : TaskPtr) (start stop : Nat)
    (es : List PageEntry) (m : Mod) :
    (walkPtes cb t start stop es m).1.nFound =
      fill m.nToFind m.nFound (takenIn takes start stop es) := by
  induction es generalizing m with
  | nil => exact fill_zero.symm
  | cons e es ih =>
    obtain ⟨hret, hfound⟩ := h.invoke t e m
    have hquota : (invoke cb t e m).mod.nToFind = m.nToFind := (h.quiet.invoke_fixed t e m).nToFind
    unfold walkPtes
    split
    · rename_i hin
      have htaken : takenIn takes start stop (e :: es) =
          (if takes e.pte then 1 else 0) + takenIn takes start stop es := by
        have hwithin : e.within start stop = true := decide_eq_true hin
        unfold takenIn
        rw [List.filter_cons_of_pos hwithin, List.countP_cons, Nat.add_comm]
      simp only
      split
      · -- the callback stops the walk only where the quota is met, and then takes nothing
        rename_i hstop
        have hfull := hret.mp hstop
        rw [hfound, fill_full hfull, fill_full hfull]
      · rw [ih, hquota, hfound, fill_fill, htaken]
    · rename_i hin
      have hwithin : ¬e.within start stop = true := fun hc => hin (of_decide_eq_true hc)
      have htaken : takenIn takes start stop (e :: es) = takenIn takes start stop es := by
        unfold takenIn
        rw [List.filter_cons_of_neg hwithin]
      simp only
      rw [ih, htaken]

theorem walkTask_taken (h : Takes cb takes) (x : Stretch) (σ : Sys) :
    (Hyb.walkTask cb x.index x.start x.stop σ).mod.nFound =
      fill σ.mod.nToFind σ.mod.nFound (takenOf takes σ.mod.taskItems σ.mm x) := by
  unfold Hyb.walkTask takenOf
  cases hmm : σ.mm (σ.mod.taskItems x.index) with
  | none =>
    simp only [hmm]
    exact fill_zero.symm
  | some a =>
    simp only [hmm]
    exact walkPtes_taken h _ _ _ _ _

/-! ## Where it faults -/

/-- The pages that the first `k` of these stretches take at once. -/
def takenBefore (takes : Pte → Bool) (items : Arr TaskPtr) (mm : TaskPtr → Option MmStruct)
    (xs : List Stretch) (k : Nat) : Nat :=
  ((xs.take k).map (takenOf takes items mm)).foldr (· + ·) 0

/-- A walk of these stretches for `n` pages comes to a process without an address space:
it is the first process, or the pages before it leave the quota open. -/
def ComesToMissing (takes : Pte → Bool) (items : Arr TaskPtr) (mm : TaskPtr → Option MmStruct)
    (xs : List Stretch) (n : Int) : Prop :=
  ∃ k x, xs[k]? = some x ∧ mm (items x.index) = none ∧
    (k = 0 ∨ (takenBefore takes items mm xs k : Int) < n)

theorem takenOf_congr {items : Arr TaskPtr} {mm mm' : TaskPtr → Option MmStruct} {x : Stretch}
    (h : mm' (items x.index) = mm (items x.index)) :
    takenOf takes items mm' x = takenOf takes items mm x := by
  unfold takenOf
  rw [h]

theorem takenBefore_congr {items : Arr TaskPtr} {mm mm' : TaskPtr → Option MmStruct}
    {xs : List Stretch} (h : ∀ x ∈ xs, mm' (items x.index) = mm (items x.index)) (k : Nat) :
    takenBefore takes items mm' xs k = takenBefore takes items mm xs k := by
  unfold takenBefore
  congr 1
  exact List.map_congr_left fun x hx => takenOf_congr (h x (List.mem_of_mem_take hx))

/-- The first of the stretches, and the others. -/
theorem comesToMissing_cons {items : Arr TaskPtr} {mm : TaskPtr → Option MmStruct} {x : Stretch}
    {xs : List Stretch} {n : Int} (hx : mm (items x.index) ≠ none) :
    ComesToMissing takes items mm (x :: xs) n ↔
      (takenOf takes items mm x : Int) < n ∧
        ComesToMissing takes items mm xs (n - takenOf takes items mm x) := by
  have hsucc (k : Nat) : takenBefore takes items mm (x :: xs) (k + 1) =
      takenOf takes items mm x + takenBefore takes items mm xs k := by
    simp [takenBefore]
  constructor
  · rintro ⟨k, y, hy, hmm, hk⟩
    cases k with
    | zero =>
      obtain rfl : x = y := by simpa using hy
      exact absurd hmm hx
    | succ k =>
      have hk := hk.resolve_left (Nat.succ_ne_zero k)
      rw [hsucc] at hk
      exact ⟨by omega, k, y, by simpa using hy, hmm, .inr (by omega)⟩
  · rintro ⟨hopen, k, y, hy, hmm, hk⟩
    refine ⟨k + 1, y, by simpa using hy, hmm, .inr ?_⟩
    rw [hsucc]
    rcases hk with rfl | hk
    · simpa [takenBefore] using hopen
    · omega

/-- **The stretches of different processes** fault when the walk comes to a process
without an address space. -/
theorem walkStretches_faults_iff (h : Takes cb takes) (xs : List Stretch) {s : State}
    (hdistinct : (xs.map fun x => s.sys.mod.taskItems x.index).Nodup) :
    Faults (walkStretches cb xs s) ↔
      ComesToMissing takes s.sys.mod.taskItems s.sys.mm xs
        (s.sys.mod.nToFind - s.sys.mod.nFound) := by
  induction xs generalizing s with
  | nil =>
    refine iff_of_false (not_faults_ok _) ?_
    rintro ⟨k, x, hx, -⟩
    simp at hx
  | cons x xs ih =>
    rw [walkStretches, faults_bind]
    by_cases hmm : s.sys.mm (s.sys.mod.taskItems x.index) = none
    · exact iff_of_true (.inl (walkTask_faults hmm _ _)) ⟨0, x, rfl, hmm, .inl rfl⟩
    · rw [comesToMissing_cons hmm, walkTask_ok hmm]
      simp only [not_faults_ok, Except.ok.injEq, exists_eq_left', false_or]
      have hfixed := walkTask_fixed h.quiet x.index x.start x.stop s.sys
      have hfound := walkTask_taken h x s.sys
      have hmet : (Hyb.walkTask cb x.index x.start x.stop s.sys).mod.quotaMet ↔
          s.sys.mod.nToFind ≤ s.sys.mod.nFound +
            takenOf takes s.sys.mod.taskItems s.sys.mm x := by
        unfold Mod.quotaMet
        rw [hfound, hfixed.nToFind, quota_fill]
      split
      · rename_i hc
        have hc := hmet.mp hc
        exact iff_of_false (not_faults_ok _) fun hlt => by omega
      · rename_i hc
        have hopen : ¬s.sys.mod.nToFind ≤ s.sys.mod.nFound +
            takenOf takes s.sys.mod.taskItems s.sys.mm x := fun hle => hc (hmet.mpr hle)
        obtain ⟨hnew, hrest⟩ := List.nodup_cons.mp hdistinct
        rw [ih (by rw [hfixed.taskItems]; exact hrest)]
        simp only [hfixed.taskItems, hfixed.nToFind, hfound]
        -- the address spaces of the other stretches are as they were
        have hother : ∀ y ∈ xs,
            (Hyb.walkTask cb x.index x.start x.stop s.sys).mm (s.sys.mod.taskItems y.index) =
              s.sys.mm (s.sys.mod.taskItems y.index) := by
          intro y hy
          apply walkTask_mm_ne
          intro heq
          exact hnew (List.mem_map.mpr ⟨y, hy, heq⟩)
        have hfill : fill s.sys.mod.nToFind s.sys.mod.nFound
            (takenOf takes s.sys.mod.taskItems s.sys.mm x) =
              s.sys.mod.nFound + takenOf takes s.sys.mod.taskItems s.sys.mm x := by
          unfold fill
          split <;> omega
        rw [hfill]
        constructor
        · rintro ⟨k, y, hy, hmiss, hk⟩
          refine ⟨by omega, k, y, hy, ?_, hk.imp_right fun hk => ?_⟩
          · rw [hother y (List.mem_of_getElem? hy)] at hmiss
            exact hmiss
          · rw [takenBefore_congr hother] at hk
            omega
        · rintro ⟨-, k, y, hy, hmiss, hk⟩
          refine ⟨k, y, hy, ?_, hk.imp_right fun hk => ?_⟩
          · rw [hother y (List.mem_of_getElem? hy)]
            exact hmiss
          · rw [takenBefore_congr hother]
            omega

theorem hyb_walkStretches_mm_none (xs : List Stretch) {σ : Sys} {t : TaskPtr} :
    (Hyb.walkStretches cb xs σ).1.mm t = none ↔ σ.mm t = none := by
  induction xs generalizing σ with
  | nil => exact Iff.rfl
  | cons x xs ih =>
    unfold Hyb.walkStretches
    simp only
    split
    · exact walkTask_mm_none
    · rw [ih, walkTask_mm_none]

/-- **A walk from a tier's hand** faults when it comes to a process without an address
space. -/
theorem walkTier_faults_iff (h : Takes cb takes) (tier : Tier) {s : State}
    (hm : Anchored s.sys.mod) (hlast : s.sys.mod.lastPid tier < s.sys.mod.nPids) :
    Faults (walkTier cb tier s) ↔
      ComesToMissing takes s.sys.mod.taskItems s.sys.mm
        (forward s.sys.mod.nPids (s.sys.mod.lastPid tier) (s.sys.mod.lastAddr tier))
        (s.sys.mod.nToFind - s.sys.mod.nFound) := by
  have hdistinct : ((forward s.sys.mod.nPids (s.sys.mod.lastPid tier)
      (s.sys.mod.lastAddr tier)).map fun x => s.sys.mod.taskItems x.index).Nodup := by
    rw [forward_eq]
    exact round_nodup hlast (fun i hi j hj heq => hm.items_inj hi hj heq) _
  rw [← walkStretches_faults_iff h _ hdistinct]
  have hpage : Faults (walkTier cb tier s) ↔
      Faults (doPageWalk cb (s.sys.mod.lastPid tier) (s.sys.mod.lastAddr tier) s) := by
    show Faults ((doPageWalk cb _ _ s).bind _) ↔ _
    rw [faults_bind, or_iff_left]
    rintro ⟨r, -, hc⟩
    exact not_faults_ok _ hc
  rw [hpage, doPageWalk_eq h.quiet, faults_map, cycle_forward, walkStretches_append, faults_bind,
    or_iff_left]
  rintro ⟨⟨s', hit⟩, hok, hc⟩
  cases hit with
  | some i => exact not_faults_ok _ hc
  | none =>
    -- the last stretch comes back to a process that was walked at the start
    have hstart : s.sys.mm (s.sys.mod.taskItems (s.sys.mod.lastPid tier)) ≠ none := by
      intro hnone
      refine not_faults_iff.mpr ⟨_, hok⟩ ((walkStretches_faults_iff h _ hdistinct).mpr ?_)
      exact ⟨0, _, rfl, hnone, .inl rfl⟩
    have hyb := walkStretches_hyb hok
    have hitems : s'.sys.mod.taskItems = s.sys.mod.taskItems := by
      have hfixed := walkStretches_fixed h.quiet (forward s.sys.mod.nPids
        (s.sys.mod.lastPid tier) (s.sys.mod.lastAddr tier)) s.sys
      rw [hyb] at hfixed
      exact hfixed.taskItems
    have hthere : s'.sys.mm (s'.sys.mod.taskItems (s.sys.mod.lastPid tier)) ≠ none := by
      rw [hitems]
      intro hnone
      have hback : (Hyb.walkStretches cb (forward s.sys.mod.nPids (s.sys.mod.lastPid tier)
          (s.sys.mod.lastAddr tier)) s.sys).1.mm
            (s.sys.mod.taskItems (s.sys.mod.lastPid tier)) = none ↔ _ :=
        hyb_walkStretches_mm_none _
      rw [hyb] at hback
      exact hstart (hback.mp hnone)
    simp only [walkStretches, walkTask_ok hthere, ok_bind] at hc
    split at hc <;> exact not_faults_ok _ hc

end

end Ambix.MixM
