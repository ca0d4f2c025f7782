import Ambix.Logic.Cycle
import Mathlib.Data.List.Nodup

/-!
# One round over the registry

A walk with no quota goes once around all pages of the listed processes, from the
hand on, and then comes to the page at the hand address a second time:
`tierVisits_eq` says `tierVisits = ahead ++ behind ++ again`, where
`behind ++ ahead` are the pages in registry order (`pages`), each once, and
`again` is the page at the hand (if the process has one there), with the bits the
first visit left.
-/

namespace Ambix.Hyb

open Ambix.Lib Ambix.Lib.QuotaScan

/-- Splitting an ascending list of entries at an address. -/
theorem filter_split (p : PageEntry → Bool) (b : Nat) {es : List PageEntry}
    (h : (es.map PageEntry.addr).Pairwise (· < ·)) :
    es.filter p = es.filter (fun e => p e && decide (e.addr < b)) ++
      es.filter (fun e => p e && decide (b ≤ e.addr)) := by
  induction es with
  | nil => rfl
  | cons e es ih =>
    rw [List.map_cons, List.pairwise_cons] at h
    obtain ⟨hhead, htail⟩ := h
    by_cases hb : e.addr < b
    · by_cases hp : p e = true
      · simp [hp, hb, Nat.not_le.mpr hb, ih htail]
      · simp [hp, ih htail]
    · have hnone : es.filter (fun e => p e && decide (e.addr < b)) = [] := by
        rw [List.filter_eq_nil_iff]
        intro x hx
        have := hhead x.addr (List.mem_map_of_mem hx)
        simp
        omega
      have htl := ih htail
      rw [hnone, List.nil_append] at htl
      by_cases hp : p e = true
      · simp [hp, hb, Nat.not_lt.mp hb, hnone, htl]
      · simp [hp, hnone, htl]

section

variable (k : Kernel) (items : Arr TaskPtr) (mm : TaskPtr → Option MmStruct)

/-- The stretch `[a, c)` of a process cut at `b`. -/
theorem examsOf_split (i : Nat) {a b c : Nat} (hab : a ≤ b) (hbc : b ≤ c ∨ c = maxAddress) :
    examsOf k items mm ⟨i, a, c⟩ = examsOf k items mm ⟨i, a, b⟩ ++ examsOf k items mm ⟨i, b, c⟩ := by
  unfold examsOf
  cases hmm : mm (items i) with
  | none => rfl
  | some u =>
    simp only
    rw [filter_split _ b u.ascending, List.map_append]
    have huser : ∀ e ∈ u.ptes, e.addr < maxAddress := fun e he =>
      u.user _ (List.mem_map_of_mem he)
    have hlow : u.ptes.filter (fun e => e.within a c && decide (e.addr < b)) =
        u.ptes.filter (PageEntry.within a b) := by
      refine List.filter_congr fun e he => ?_
      have := huser e he
      simp only [PageEntry.within, Bool.decide_and, Bool.and_assoc]
      rw [Bool.eq_iff_iff]
      simp
      omega
    have hhigh : u.ptes.filter (fun e => e.within a c && decide (b ≤ e.addr)) =
        u.ptes.filter (PageEntry.within b c) := by
      refine List.filter_congr fun e _ => ?_
      simp only [PageEntry.within]
      rw [Bool.eq_iff_iff]
      simp
      omega
    rw [hlow, hhigh]

variable {P : Platform} (π : Policy P)

theorem passOver_ne {s : Stretch} {t : TaskPtr} (h : t ≠ items s.index) :
    passOver π items mm s t = mm t := by
  simp [passOver, h]

theorem foldl_passOver_ne {ss : List Stretch} {t : TaskPtr}
    (h : ∀ s ∈ ss, t ≠ items s.index) :
    ss.foldl (passOver π items) mm t = mm t := by
  induction ss generalizing mm with
  | nil => rfl
  | cons s ss ih =>
    rw [List.foldl_cons, ih _ fun s' hs' => h s' (List.mem_cons_of_mem _ hs'),
      passOver_ne items mm π (h s List.mem_cons_self)]

/-- A stretch only depends on its own process. -/
theorem examsOf_congr {mm' : TaskPtr → Option MmStruct} {s : Stretch}
    (h : mm' (items s.index) = mm (items s.index)) :
    examsOf k items mm' s = examsOf k items mm s := by
  unfold examsOf
  rw [h]

theorem visits_append (ss ss' : List Stretch) :
    visits π k items (ss ++ ss') mm =
      visits π k items ss mm ++ visits π k items ss' (ss.foldl (passOver π items) mm) := by
  induction ss generalizing mm with
  | nil => rfl
  | cons s ss ih => simp [visits, ih]

/-- Stretches of different processes do not see each other's resets. -/
theorem visits_distinct {ss : List Stretch} (h : (ss.map fun s => items s.index).Nodup) :
    visits π k items ss mm = ss.flatMap (examsOf k items mm) := by
  induction ss generalizing mm with
  | nil => rfl
  | cons s ss ih =>
    rw [List.map_cons, List.nodup_cons] at h
    obtain ⟨hs, hss⟩ := h
    rw [visits, ih _ hss, List.flatMap_cons]
    congr 1
    refine List.flatMap_congr fun s' hs' => ?_
    refine examsOf_congr k items mm (passOver_ne items mm π fun heq => hs ?_)
    exact List.mem_map.mpr ⟨s', hs', heq⟩

/-- An examination after the entry was passed over. -/
def Exam.again (x : Exam) : Exam := { x with pte := π.after x.pte }

/-- A range below a reset one is as before. -/
theorem examsOf_resetRange_below (i : Nat) {a b c : Nat} :
    examsOf k items (passOver π items mm ⟨i, b, c⟩) ⟨i, a, b⟩ = examsOf k items mm ⟨i, a, b⟩ := by
  unfold examsOf passOver
  cases hmm : mm (items i) with
  | none => simp
  | some u =>
    simp only [Function.update_self, Option.map_some, Policy.resetRange, MmStruct.withPtes_ptes,
      Policy.resetPtes]
    rw [List.filter_map, List.map_map]
    have hsame : ∀ e : PageEntry, e.within a b = true → e.within b c = false := by
      intro e he
      simp [PageEntry.within] at he ⊢
      omega
    have hcomp : (PageEntry.within a b ∘ fun e : PageEntry =>
        if e.within b c then { e with pte := π.after e.pte } else e) = PageEntry.within a b := by
      funext e
      simp only [Function.comp_apply]
      split <;> rfl
    rw [hcomp]
    refine List.map_congr_left fun e he => ?_
    simp [hsame e (List.mem_filter.mp he).2]

/-- A range inside a reset one is seen with the bits the reset left. -/
theorem examsOf_resetRange_inside (i : Nat) {a b c d : Nat} (hab : b ≤ a)
    (hcd : d ≤ c ∨ c = maxAddress) :
    examsOf k items (passOver π items mm ⟨i, b, c⟩) ⟨i, a, d⟩ =
      (examsOf k items mm ⟨i, a, d⟩).map (Exam.again π) := by
  unfold examsOf passOver
  cases hmm : mm (items i) with
  | none => simp
  | some u =>
    simp only [Function.update_self, Option.map_some, Policy.resetRange, MmStruct.withPtes_ptes,
      Policy.resetPtes]
    rw [List.filter_map, List.map_map, List.map_map]
    have hin : ∀ e ∈ u.ptes, e.within a d = true → e.within b c = true := by
      intro e hmem he
      have := u.user e.addr (List.mem_map_of_mem hmem)
      simp [PageEntry.within] at he ⊢
      omega
    have hcomp : (PageEntry.within a d ∘ fun e : PageEntry =>
        if e.within b c then { e with pte := π.after e.pte } else e) = PageEntry.within a d := by
      funext e
      simp only [Function.comp_apply]
      split <;> rfl
    rw [hcomp]
    refine List.map_congr_left fun e he => ?_
    obtain ⟨hmem, hwithin⟩ := List.mem_filter.mp he
    simp only [Function.comp_apply, hin e hmem hwithin, if_true]
    rfl

end

/-! ## The round from a hand -/

/-- All pages of the listed processes, in registry order. -/
def Sys.pages (σ : Sys) : List Exam :=
  (List.range σ.mod.nPids).flatMap fun i =>
    examsOf σ.kernel σ.mod.taskItems σ.mm (.whole i)

/-- The pages from the hand to the end of the registry. -/
def Sys.ahead (σ : Sys) (tier : Tier) : List Exam :=
  examsOf σ.kernel σ.mod.taskItems σ.mm ⟨σ.mod.lastPid tier, σ.mod.lastAddr tier, maxAddress⟩ ++
    (List.range' (σ.mod.lastPid tier + 1) (σ.mod.nPids - (σ.mod.lastPid tier + 1))).flatMap
      fun i => examsOf σ.kernel σ.mod.taskItems σ.mm (.whole i)

/-- The pages before the hand. -/
def Sys.behind (σ : Sys) (tier : Tier) : List Exam :=
  ((List.range (σ.mod.lastPid tier)).flatMap
      fun i => examsOf σ.kernel σ.mod.taskItems σ.mm (.whole i)) ++
    examsOf σ.kernel σ.mod.taskItems σ.mm ⟨σ.mod.lastPid tier, 0, σ.mod.lastAddr tier⟩

/-- Every page once, from the hand on. -/
def Sys.round (σ : Sys) (tier : Tier) : List Exam := σ.ahead tier ++ σ.behind tier

/-- The page at the hand address of the hand's process, if there is one. -/
def Sys.handPage (σ : Sys) (tier : Tier) : List Exam :=
  examsOf σ.kernel σ.mod.taskItems σ.mm
    ⟨σ.mod.lastPid tier, σ.mod.lastAddr tier, σ.mod.lastAddr tier + 1⟩

/-- The registry lists tasks with pairwise distinct numbers. -/
def Sys.distinctPids (σ : Sys) : Prop := (σ.mod.tasks.map σ.kernel.pidOf).Nodup

section

variable {σ : Sys}

theorem Sys.distinctPids.ne (h : σ.distinctPids) {i j : Nat} (hi : i < σ.mod.nPids)
    (hj : j < σ.mod.nPids) (hne : i ≠ j) :
    σ.kernel.pidOf (σ.mod.taskItems i) ≠ σ.kernel.pidOf (σ.mod.taskItems j) := by
  intro heq
  rw [Sys.distinctPids, Mod.tasks_eq, List.map_map] at h
  exact hne (List.inj_on_of_nodup_map h (List.mem_range.mpr hi) (List.mem_range.mpr hj) heq)

theorem Sys.distinctPids.items_ne (h : σ.distinctPids) {i j : Nat} (hi : i < σ.mod.nPids)
    (hj : j < σ.mod.nPids) (hne : i ≠ j) : σ.mod.taskItems i ≠ σ.mod.taskItems j :=
  fun heq => h.ne hi hj hne (congrArg σ.kernel.pidOf heq)

/-- The page at the hand is the first of the round. -/
theorem Sys.ahead_eq (tier : Tier) :
    σ.ahead tier = σ.handPage tier ++
      (examsOf σ.kernel σ.mod.taskItems σ.mm
          ⟨σ.mod.lastPid tier, σ.mod.lastAddr tier + 1, maxAddress⟩ ++
        (List.range' (σ.mod.lastPid tier + 1) (σ.mod.nPids - (σ.mod.lastPid tier + 1))).flatMap
          fun i => examsOf σ.kernel σ.mod.taskItems σ.mm (.whole i)) := by
  rw [Sys.ahead, Sys.handPage, ← List.append_assoc,
    ← examsOf_split σ.kernel σ.mod.taskItems σ.mm _ (Nat.le_succ _) (Or.inr rfl)]

/-- Registry order is the round cut at the hand. -/
theorem Sys.pages_eq {tier : Tier} (hlast : σ.mod.lastPid tier < σ.mod.nPids) :
    σ.pages = σ.behind tier ++ σ.ahead tier := by
  obtain ⟨d, hd⟩ : ∃ d, σ.mod.nPids = σ.mod.lastPid tier + (1 + d) :=
    ⟨σ.mod.nPids - (σ.mod.lastPid tier + 1), by omega⟩
  have hrest : σ.mod.nPids - (σ.mod.lastPid tier + 1) = d := by omega
  have hwhole := examsOf_split σ.kernel σ.mod.taskItems σ.mm (σ.mod.lastPid tier)
    (Nat.zero_le (σ.mod.lastAddr tier)) (Or.inr (rfl : maxAddress = maxAddress))
  rw [Sys.pages, hd, List.range_eq_range', List.range'_append_1.symm, List.range'_append_1.symm]
  simp only [List.flatMap_append, Sys.behind, Sys.ahead, hrest, Nat.zero_add, List.append_assoc,
    List.range_eq_range', List.range'_one, List.flatMap_singleton]
  congr 1
  rw [Stretch.whole, hwhole, List.append_assoc]

theorem Sys.round_perm {tier : Tier} (hlast : σ.mod.lastPid tier < σ.mod.nPids) :
    (σ.round tier).Perm σ.pages := by
  rw [Sys.pages_eq hlast, Sys.round]
  exact List.perm_append_comm

/-- **A walk with no quota examines every page once and the page at the hand once
more**, with the bits that the first examination left. -/
theorem tierVisits_eq {P : Platform} (π : Policy P) (hpids : σ.distinctPids)
    (hlast : σ.mod.lastPid π.tier < σ.mod.nPids) :
    tierVisits π σ =
      σ.round π.tier ++ (σ.handPage π.tier).map (Exam.again π) := by
  generalize hlp : σ.mod.lastPid π.tier = lp at hlast
  generalize hla : σ.mod.lastAddr π.tier = la
  set items := σ.mod.taskItems with hitems
  set rest := (others σ.mod.nPids lp).map Stretch.whole with hrest
  have hcycle : cycle σ.mod.nPids lp la =
      (⟨lp, la, maxAddress⟩ :: rest) ++ [⟨lp, 0, la + 1⟩] := cycle_eq _ _ _
  -- the first round: all stretches belong to different processes
  have hnodup : ((⟨lp, la, maxAddress⟩ :: rest).map fun s => items s.index).Nodup := by
    refine round_nodup hlast (fun i hi j hj heq => ?_) la
    by_contra hne
    exact hpids.items_ne hi hj hne heq
  have hother : ∀ s ∈ rest, items lp ≠ items s.index := by
    intro s hs heq
    rw [List.map_cons, List.nodup_cons] at hnodup
    exact hnodup.1 (List.mem_map.mpr ⟨s, hs, heq.symm⟩)
  -- the way back to the hand: below it nothing has changed, at it the first visit has
  have hlastmm : examsOf σ.kernel items
      ((⟨lp, la, maxAddress⟩ :: rest).foldl (passOver π items) σ.mm) ⟨lp, 0, la + 1⟩ =
        examsOf σ.kernel items (passOver π items σ.mm ⟨lp, la, maxAddress⟩) ⟨lp, 0, la + 1⟩ := by
    rw [List.foldl_cons]
    exact examsOf_congr _ _ _ (foldl_passOver_ne items _ π hother)
  unfold tierVisits
  rw [hlp, hla, hcycle, visits_append, visits_distinct _ _ _ π hnodup]
  simp only [visits, List.append_nil]
  rw [hlastmm, examsOf_split _ _ _ lp (Nat.zero_le la) (Or.inl (Nat.le_succ la)),
    examsOf_resetRange_below, examsOf_resetRange_inside _ _ _ π lp (Nat.le_refl la) (Or.inr rfl)]
  simp only [Sys.round, Sys.ahead, Sys.behind, Sys.handPage, hlp, hla, hrest, others, List.flatMap_cons,
    List.flatMap_append, List.flatMap_map, List.append_assoc, ← hitems]

/-! ## The pages of the registry -/

theorem Sys.mem_pages {x : Exam} :
    x ∈ σ.pages ↔ ∃ i < σ.mod.nPids, ∃ mm, σ.mm (σ.mod.taskItems i) = some mm ∧
      ∃ e ∈ mm.ptes, e.exam (σ.mod.taskItems i) (σ.kernel.pidOf (σ.mod.taskItems i)) = x := by
  simp only [Sys.pages, List.mem_flatMap, List.mem_range]
  refine exists_congr fun i => and_congr_right fun _ => ?_
  unfold examsOf Stretch.whole
  cases hmm : σ.mm (σ.mod.taskItems i) with
  | none => simp
  | some a =>
    simp only [List.mem_map, List.mem_filter, Option.some.injEq]
    constructor
    · rintro ⟨e, ⟨he, _⟩, rfl⟩
      exact ⟨a, rfl, e, he, rfl⟩
    · rintro ⟨_, rfl, e, he, rfl⟩
      have huser := a.user e.addr (List.mem_map_of_mem he)
      exact ⟨e, ⟨he, by simp [PageEntry.within, huser]⟩, rfl⟩

/-- No two pages have the same number and address. -/
theorem Sys.pages_nodup (h : σ.distinctPids) : (σ.pages.map Exam.info).Nodup := by
  have hinfo : ∀ i, ∀ y ∈ (examsOf σ.kernel σ.mod.taskItems σ.mm (.whole i)).map Exam.info,
      y.pidRetval = σ.kernel.pidOf (σ.mod.taskItems i) := by
    intro i y hy
    obtain ⟨x, hx, rfl⟩ := List.mem_map.mp hy
    unfold examsOf at hx
    split at hx
    · simp at hx
    · obtain ⟨e, _, rfl⟩ := List.mem_map.mp hx
      rfl
  have hone : ∀ i, ((examsOf σ.kernel σ.mod.taskItems σ.mm (.whole i)).map Exam.info).Nodup := by
    intro i
    unfold examsOf
    split
    · exact List.nodup_nil
    · rename_i a _
      have haddrs : (a.ptes.map PageEntry.addr).Nodup :=
        a.ascending.imp fun hlt => Nat.ne_of_lt hlt
      rw [List.map_map]
      refine List.Nodup.of_map AddrInfo.addr ?_
      rw [List.map_map]
      exact haddrs.sublist (List.filter_sublist.map _)
  rw [Sys.pages, List.map_flatMap, List.nodup_flatMap]
  refine ⟨fun i _ => hone i, ?_⟩
  refine List.Nodup.pairwise_of_forall_ne List.nodup_range ?_
  intro i hi j hj hne y hy hy'
  exact h.ne (List.mem_range.mp hi) (List.mem_range.mp hj) hne
    ((hinfo i y hy).symm.trans (hinfo j y hy'))

theorem Sys.round_nodup (h : σ.distinctPids) {tier : Tier}
    (hlast : σ.mod.lastPid tier < σ.mod.nPids) : ((σ.round tier).map Exam.info).Nodup :=
  ((Sys.round_perm hlast).map Exam.info).nodup_iff.mpr (Sys.pages_nodup h)

theorem Sys.mem_round {tier : Tier} (hlast : σ.mod.lastPid tier < σ.mod.nPids) {x : Exam} :
    x ∈ σ.round tier ↔ x ∈ σ.pages := (Sys.round_perm hlast).mem_iff

/-- Ascending addresses are different, so at most one entry has a given one. -/
theorem length_within_le (a : Nat) {es : List PageEntry}
    (hasc : (es.map PageEntry.addr).Pairwise (· < ·)) :
    (es.filter (PageEntry.within a (a + 1))).length ≤ 1 := by
  induction es with
  | nil => simp
  | cons e es ih =>
    rw [List.map_cons, List.pairwise_cons] at hasc
    by_cases he : e.within a (a + 1) = true
    · have hnone : es.filter (PageEntry.within a (a + 1)) = [] := by
        rw [List.filter_eq_nil_iff]
        intro e' he'
        have hlt := hasc.1 e'.addr (List.mem_map_of_mem he')
        simp only [PageEntry.within, decide_eq_true_eq] at he ⊢
        omega
      rw [List.filter_cons_of_pos he, hnone]
      exact Nat.le_refl 1
    · rw [List.filter_cons_of_neg he]
      exact ih hasc.2

/-- At most one page is at the hand, and it starts the round. -/
theorem Sys.handPage_cases (tier : Tier) :
    σ.handPage tier = [] ∨ ∃ h, σ.handPage tier = [h] ∧ h ∈ σ.round tier := by
  have hlen : (σ.handPage tier).length ≤ 1 := by
    unfold Sys.handPage examsOf
    split
    · simp
    · rename_i a _
      rw [List.length_map]
      exact length_within_le _ a.ascending
  cases hp : σ.handPage tier with
  | nil => exact Or.inl rfl
  | cons h t =>
    have ht : t = [] := by
      rw [hp, List.length_cons] at hlen
      exact List.length_eq_zero_iff.mp (by omega)
    subst ht
    refine Or.inr ⟨h, rfl, ?_⟩
    rw [Sys.round, Sys.ahead_eq, hp]
    simp

end

end Ambix.Hyb
