import Ambix.Lib.Ring
import Ambix.Logic.Hand
import Ambix.Logic.Invariant
import Ambix.Logic.Round

/-!
# Whether the next walk goes on where the last one stopped

`swept` and `leftOver` are the visits a walk with a quota examines and those it
leaves over. The hand it leaves is right when it `MovesOn`, that is when the page
that meets the quota has a successor in the same stretch. Otherwise the hand keeps
its old address in another process; `round_handed` says which page the next round
then starts with.
-/

namespace Ambix.Hyb

open Ambix.Lib Ambix.Lib.QuotaScan

/-! ## Rounds from any position -/

/-- Every page once, from address `a` of process `i` on. -/
def Sys.roundFrom (σ : Sys) (i a : Nat) : List Exam :=
  examsOf σ.kernel σ.mod.taskItems σ.mm ⟨i, a, maxAddress⟩ ++
    ((others σ.mod.nPids i).flatMap fun j => examsOf σ.kernel σ.mod.taskItems σ.mm (.whole j)) ++
    examsOf σ.kernel σ.mod.taskItems σ.mm ⟨i, 0, a⟩

section

variable {σ : Sys}

theorem Sys.round_eq (σ : Sys) (tier : Tier) :
    σ.round tier = σ.roundFrom (σ.mod.lastPid tier) (σ.mod.lastAddr tier) := by
  simp [Sys.round, Sys.ahead, Sys.behind, Sys.roundFrom, others, List.append_assoc]

/-- A process cut at an address. -/
theorem examsOf_whole (σ : Sys) (i a : Nat) :
    examsOf σ.kernel σ.mod.taskItems σ.mm (.whole i) =
      examsOf σ.kernel σ.mod.taskItems σ.mm ⟨i, 0, a⟩ ++
        examsOf σ.kernel σ.mod.taskItems σ.mm ⟨i, a, maxAddress⟩ :=
  examsOf_split _ _ _ i (Nat.zero_le a) (Or.inr rfl)

theorem Sys.roundFrom_rotated {i : Nat} (hi : i < σ.mod.nPids) (a : Nat) :
    σ.pages ~r σ.roundFrom i a := by
  have hrange : σ.pages ~r (i :: others σ.mod.nPids i).flatMap
      fun j => examsOf σ.kernel σ.mod.taskItems σ.mm (.whole j) := by
    rw [← rotate_range hi, List.rotate_eq_drop_append_take (by simp; omega), List.flatMap_append,
      Sys.pages]
    conv_lhs => rw [← List.take_append_drop i (List.range σ.mod.nPids)]
    rw [List.flatMap_append]
    exact List.isRotated_append
  refine hrange.trans ?_
  rw [List.flatMap_cons, examsOf_whole σ i a, List.append_assoc, Sys.roundFrom]
  exact List.isRotated_append

/-- A page of a stretch is in every stretch of the process that covers its address. -/
theorem examsOf_cover {k : Kernel} {items : Arr TaskPtr} {mm : TaskPtr → Option MmStruct}
    {s : Stretch} {x : Exam} (h : x ∈ examsOf k items mm s) {a b : Nat} (ha : a ≤ x.addr)
    (hb : x.addr < b) : x ∈ examsOf k items mm ⟨s.index, a, b⟩ := by
  unfold examsOf at h ⊢
  split at h
  · simp at h
  · rename_i u hu
    obtain ⟨e, he, rfl⟩ := List.mem_map.mp h
    simp only [hu]
    refine List.mem_map.mpr ⟨e, List.mem_filter.mpr ⟨(List.mem_filter.mp he).1, ?_⟩, rfl⟩
    simpa [PageEntry.within] using ⟨ha, hb⟩

theorem examsOf_ascending (k : Kernel) (items : Arr TaskPtr) (mm : TaskPtr → Option MmStruct)
    (s : Stretch) : (examsOf k items mm s).Pairwise fun x y => x.addr < y.addr := by
  unfold examsOf
  split
  · exact List.Pairwise.nil
  · rename_i u _
    rw [List.pairwise_map]
    exact (List.pairwise_map.mp u.ascending).sublist List.filter_sublist

/-- The pages of a stretch, without their bits. -/
theorem examsOf_info {k : Kernel} {items : Arr TaskPtr} {mm mm' : TaskPtr → Option MmStruct}
    (h : tableView PageEntry.addr mm' = tableView PageEntry.addr mm) (s : Stretch) :
    (examsOf k items mm' s).map Exam.info = (examsOf k items mm s).map Exam.info :=
  examsOf_view (g := PageEntry.addr) (F := fun _ p a => (⟨a, p⟩ : AddrInfo))
    (show ∀ e : PageEntry, id e.addr = e.addr from fun _ => rfl) (fun _ _ _ => rfl) h s

theorem passOver_addrs {P : Platform} (π : Policy P) (items : Arr TaskPtr)
    (mm : TaskPtr → Option MmStruct) (s : Stretch) :
    tableView PageEntry.addr (passOver π items mm s) = tableView PageEntry.addr mm := by
  funext t
  unfold tableView passOver
  by_cases ht : t = items s.index
  · subst ht
    cases mm (items s.index) with
    | none => simp
    | some u => simp [Policy.resetRange, Policy.resetPtes_addrs]
  · simp [ht]

theorem foldl_passOver_addrs {P : Platform} (π : Policy P) (items : Arr TaskPtr)
    (ss : List Stretch) (mm : TaskPtr → Option MmStruct) :
    tableView PageEntry.addr (ss.foldl (passOver π items) mm) = tableView PageEntry.addr mm := by
  induction ss generalizing mm with
  | nil => rfl
  | cons s ss ih => rw [List.foldl_cons, ih, passOver_addrs]

/-- The visits, without their bits. -/
theorem visits_info {P : Platform} (π : Policy P) (k : Kernel) (items : Arr TaskPtr)
    {mm mm' : TaskPtr → Option MmStruct}
    (h : tableView PageEntry.addr mm' = tableView PageEntry.addr mm) (ss : List Stretch) :
    (visits π k items ss mm').map Exam.info = (ss.flatMap (examsOf k items mm)).map Exam.info := by
  induction ss generalizing mm' with
  | nil => rfl
  | cons s ss ih =>
    rw [visits, List.map_append, examsOf_info h, ih ((passOver_addrs π items mm' s).trans h),
      List.flatMap_cons, List.map_append]

theorem mem_visits {P : Platform} {π : Policy P} {k : Kernel} {items : Arr TaskPtr}
    {mm : TaskPtr → Option MmStruct} {ss : List Stretch} {x : Exam}
    (h : x ∈ visits π k items ss mm) :
    ∃ s ∈ ss, x.pid = k.pidOf (items s.index) ∧ x.addr < s.stop := by
  induction ss generalizing mm with
  | nil => simp [visits] at h
  | cons s ss ih =>
    rw [visits, List.mem_append] at h
    rcases h with h | h
    · obtain ⟨h1, _, h3⟩ := mem_examsOf h
      exact ⟨s, List.mem_cons_self, h1, h3⟩
    · obtain ⟨s', hs', h'⟩ := ih h
      exact ⟨s', List.mem_cons_of_mem _ hs', h'⟩

/-- A round from a page starts with it. -/
theorem Sys.head?_roundFrom {mm' : TaskPtr → Option MmStruct}
    (htables : tableView PageEntry.addr mm' = tableView PageEntry.addr σ.mm) {s : Stretch}
    {y : Exam} (hy : y ∈ examsOf σ.kernel σ.mod.taskItems mm' s) :
    (σ.roundFrom s.index y.addr).head?.map Exam.info = some y.info := by
  have hone : y ∈ examsOf σ.kernel σ.mod.taskItems mm' ⟨s.index, y.addr, y.addr + 1⟩ :=
    examsOf_cover hy (Nat.le_refl _) (Nat.lt_succ_self _)
  have hinfo : y.info ∈ (examsOf σ.kernel σ.mod.taskItems σ.mm
      ⟨s.index, y.addr, y.addr + 1⟩).map Exam.info :=
    examsOf_info htables _ ▸ List.mem_map_of_mem hone
  rw [Sys.roundFrom, examsOf_split _ _ _ s.index (Nat.le_succ y.addr) (Or.inr rfl)]
  cases hcase : examsOf σ.kernel σ.mod.taskItems σ.mm ⟨s.index, y.addr, y.addr + 1⟩ with
  | nil => simp [hcase] at hinfo
  | cons w ws =>
    obtain ⟨hpid, hlo, hhi⟩ := mem_examsOf (hcase ▸ List.mem_cons_self :
      w ∈ examsOf σ.kernel σ.mod.taskItems σ.mm ⟨s.index, y.addr, y.addr + 1⟩)
    have haddr : w.addr = y.addr := by simp only at hlo hhi; omega
    have hsame : w.info = y.info := by
      rw [Exam.info, Exam.info, haddr, hpid, (mem_examsOf hy).1]
    simp [hsame]

end

/-! ## What a walk examines and what it leaves over -/

section

variable {P : Platform} (π : Policy P)

/-- The visits a walk with quota `n` examines, and the others. -/
def Sys.swept (n : Nat) (σ : Sys) : List Exam := examined π.classOf n (tierVisits π σ)

def Sys.leftOver (n : Nat) (σ : Sys) : List Exam := unexamined π.classOf n (tierVisits π σ)

/-- The first page, in visiting order, that a walk with quota `n` does not examine. -/
def Sys.firstLeft (n : Nat) (σ : Sys) : Option Exam :=
  (tierVisits π σ).find? fun y => decide (y.info ∉ (σ.swept π n).map Exam.info)

/-- The page that meets a quota of `n` is followed, in the same stretch, by another
page of its process. -/
def Sys.MovesOn (n : Nat) (σ : Sys) : Prop :=
  ∃ x y, (σ.swept π n).getLast? = some x ∧ (σ.leftOver π n).head? = some y ∧
    y.pid = x.pid ∧ x.addr < y.addr

/-- Process `p` has no page at or above the hand address. -/
def Sys.BelowHand (tier : Tier) (p : Int) (σ : Sys) : Prop :=
  ∀ y ∈ σ.pages, y.pid = p → y.addr < σ.mod.lastAddr tier

variable {π} {σ : Sys} {q : Nat}

/-- The first page left over comes next in the round. -/
theorem Sys.firstLeft_eq (hpids : σ.distinctPids) (hlast : σ.mod.lastPid π.tier < σ.mod.nPids)
    (n : Nat) :
    σ.firstLeft π n = ((σ.round π.tier).drop (σ.swept π n).length).head? := by
  have hvisits := tierVisits_eq π hpids hlast
  have hnodup := Sys.round_nodup hpids hlast
  have htake := examined_eq_take π.classOf n (tierVisits π σ)
  have hdrop := unexamined_eq_drop π.classOf n (tierVisits π σ)
  have hsplit := examined_append_unexamined π.classOf n (tierVisits π σ)
  set E := examined π.classOf n (tierVisits π σ) with hE
  set U := unexamined π.classOf n (tierVisits π σ) with hU
  have hswept : σ.swept π n = E := rfl
  have hseen : E.find? (fun y => decide (y.info ∉ E.map Exam.info)) = none := by
    rw [List.find?_eq_none]
    intro y hy
    simpa using ⟨y, hy, rfl⟩
  rw [Sys.firstLeft, hswept, ← hsplit, List.find?_append, hseen, Option.none_or, hdrop, hvisits,
    List.drop_append, List.find?_append]
  rw [hvisits] at htake
  cases hrest : (σ.round π.tier).drop E.length with
  | nil =>
    -- all pages were examined: the page at the hand is no new one
    have hfull : σ.round π.tier <+: E := by
      rw [htake, List.take_append, List.take_of_length_le (List.drop_eq_nil_iff.mp hrest)]
      exact List.prefix_append _ _
    simp only [List.find?_nil, Option.none_or, List.head?_nil, List.find?_eq_none]
    intro y hy
    obtain ⟨z, hz, rfl⟩ := List.mem_map.mp (List.mem_of_mem_drop hy)
    have hmem : z ∈ σ.round π.tier := by
      rw [Sys.round, Sys.ahead_eq]
      exact List.mem_append_left _ (List.mem_append_left _ hz)
    simpa using ⟨z, hfull.subset hmem, rfl⟩
  | cons z zs =>
    have hlt : E.length < (σ.round π.tier).length := by
      by_contra hge
      rw [List.drop_eq_nil_of_le (Nat.le_of_not_lt hge)] at hrest
      simp at hrest
    have hfront : E = (σ.round π.tier).take E.length := by
      rw [List.take_append_of_le_length (Nat.le_of_lt hlt)] at htake
      exact htake
    have hnew : z.info ∉ E.map Exam.info := by
      have hz : z.info ∈ ((σ.round π.tier).map Exam.info).drop E.length := by
        rw [← List.map_drop, hrest]
        simp
      rw [hfront, List.map_take]
      exact fun hc => List.disjoint_take_drop hnodup (Nat.le_refl E.length) hc hz
    rw [List.find?_cons_of_pos (by simpa using hnew)]
    rfl

theorem Sys.firstLeft_head (hpids : σ.distinctPids) (hlast : σ.mod.lastPid π.tier < σ.mod.nPids)
    {n : Nat} {z : Exam} (h : σ.firstLeft π n = some z) : (σ.leftOver π n).head? = some z := by
  rw [Sys.firstLeft_eq hpids hlast, Sys.swept] at h
  rw [Sys.leftOver, unexamined_eq_drop, tierVisits_eq π hpids hlast, List.drop_append,
    List.head?_append, ← tierVisits_eq π hpids hlast, h]
  rfl

/-! ## The stop of a walk that meets its quota -/

variable (π) in
/-- The walk from the hand stops in the stretch `s`, after `xs` and before `ys`. -/
structure Halt (q : Nat) (σ : Sys) (pre : List Stretch) (s : Stretch) (post : List Stretch)
    (mm' : TaskPtr → Option MmStruct) (xs ys : List Exam) : Prop where
  cycle : cycle σ.mod.nPids (σ.mod.lastPid π.tier) (σ.mod.lastAddr π.tier) = pre ++ s :: post
  tables : tableView PageEntry.addr mm' = tableView PageEntry.addr σ.mm
  split : examsOf σ.kernel σ.mod.taskItems mm' s = xs ++ ys
  nonempty : xs ≠ []
  stop : tierStop π q σ = some (s, ys.head?)
  swept : σ.swept π q = visits π σ.kernel σ.mod.taskItems pre σ.mm ++ xs
  leftOver : σ.leftOver π q =
    ys ++ visits π σ.kernel σ.mod.taskItems post (passOver π σ.mod.taskItems mm' s)

theorem exists_halt (hq : 0 < q) (hmet : q ≤ (primaries π.classOf (tierVisits π σ)).length) :
    ∃ pre s post mm' xs ys, Halt π q σ pre s post mm' xs ys := by
  obtain ⟨pre, s, post, hcycle, hpos, hle, hstop, hex, hun⟩ :=
    stop_spec π σ.kernel σ.mod.taskItems hq _ σ.mm hmet
  exact ⟨pre, s, post, _, _, _, hcycle, foldl_passOver_addrs _ _ _ _,
    (examined_append_unexamined _ _ _).symm, examined_ne_nil _ hpos hle, hstop, hex, hun⟩

namespace Halt

variable {pre post : List Stretch} {s : Stretch} {mm' : TaskPtr → Option MmStruct}
  {xs ys : List Exam}

theorem index_lt (h : Halt π q σ pre s post mm' xs ys)
    (hlast : σ.mod.lastPid π.tier < σ.mod.nPids) : s.index < σ.mod.nPids :=
  cycle_index_lt hlast (a := σ.mod.lastAddr π.tier) (h.cycle ▸ by simp)

/-- The page that meets the quota. -/
theorem last (h : Halt π q σ pre s post mm' xs ys) {x : Exam}
    (hx : (σ.swept π q).getLast? = some x) : x ∈ xs := by
  rw [h.swept, List.getLast?_append] at hx
  cases hl : xs.getLast? with
  | none => exact absurd (List.getLast?_eq_none_iff.mp hl) h.nonempty
  | some y =>
    rw [hl, Option.some_or, Option.some.injEq] at hx
    exact hx ▸ List.mem_of_getLast? hl

theorem mem_stretch (h : Halt π q σ pre s post mm' xs ys) {x : Exam}
    (hx : x ∈ xs ∨ x ∈ ys) : x ∈ examsOf σ.kernel σ.mod.taskItems mm' s :=
  h.split ▸ List.mem_append.mpr hx

theorem exists_last (h : Halt π q σ pre s post mm' xs ys) :
    ∃ x, (σ.swept π q).getLast? = some x ∧
      x.pid = σ.kernel.pidOf (σ.mod.taskItems s.index) := by
  obtain ⟨x, hx⟩ : ∃ x, (σ.swept π q).getLast? = some x := by
    cases hl : (σ.swept π q).getLast? with
    | none =>
      rw [List.getLast?_eq_none_iff, h.swept, List.append_eq_nil_iff] at hl
      exact absurd hl.2 h.nonempty
    | some x => exact ⟨x, rfl⟩
  exact ⟨x, hx, (mem_examsOf (h.mem_stretch (Or.inl (h.last hx)))).1⟩

/-- The walk moves on exactly when it comes to another page of the stretch. -/
theorem movesOn_iff (h : Halt π q σ pre s post mm' xs ys) (hpids : σ.distinctPids)
    (hlast : σ.mod.lastPid π.tier < σ.mod.nPids) : σ.MovesOn π q ↔ ys ≠ [] := by
  constructor
  · rintro ⟨x, y, hx, hy, hpid, hlt⟩ hnil
    subst hnil
    obtain ⟨hxp, hxlo, _⟩ := mem_examsOf (h.mem_stretch (Or.inl (h.last hx)))
    rw [h.leftOver, List.nil_append] at hy
    obtain ⟨s', hs', hyp, hyhi⟩ := mem_visits (List.mem_of_head? hy)
    have hpair := h.cycle ▸ cycle_pairwise hlast (σ.mod.lastAddr π.tier)
    rcases (List.pairwise_cons.mp (List.pairwise_append.mp hpair).2.1).1 s' hs' with hne | hle
    · have hs'lt : s'.index < σ.mod.nPids :=
        cycle_index_lt hlast (a := σ.mod.lastAddr π.tier) (h.cycle ▸ by simp [hs'])
      exact hpids.ne (h.index_lt hlast) hs'lt hne (hxp.symm.trans (hpid.symm.trans hyp))
    · omega
  · intro hne
    obtain ⟨y, ys', rfl⟩ := List.exists_cons_of_ne_nil hne
    obtain ⟨x, hx, hxp⟩ := h.exists_last
    have hmono := h.split ▸ examsOf_ascending σ.kernel σ.mod.taskItems mm' s
    have hlt := (List.pairwise_append.mp hmono).2.2 x (h.last hx) y List.mem_cons_self
    have hyp := (mem_examsOf (h.mem_stretch (Or.inr List.mem_cons_self))).1
    exact ⟨x, y, hx, by rw [h.leftOver]; rfl, hyp.trans hxp.symm, hlt⟩

/-- The hand moved on: the next round starts with the first page left over. -/
theorem resumes_of_moved (h : Halt π q σ pre s post mm' xs ys) {y : Exam}
    (hy : ys.head? = some y) (hpids : σ.distinctPids)
    (hlast : σ.mod.lastPid π.tier < σ.mod.nPids) {z : Exam} (hz : σ.firstLeft π q = some z) :
    (σ.roundFrom s.index y.addr).head?.map Exam.info = some z.info := by
  have hleft := Sys.firstLeft_head hpids hlast hz
  rw [h.leftOver, List.head?_append, hy, Option.some_or, Option.some.injEq] at hleft
  rw [Sys.head?_roundFrom h.tables (h.mem_stretch (Or.inr (List.mem_of_head? hy))), hleft]

/-- The hand kept its address in a process with pages there: the next round starts
with a page that was examined. -/
theorem repeats_of_above (h : Halt π q σ pre s post mm' xs []) (hpids : σ.distinctPids)
    (hlast : σ.mod.lastPid π.tier < σ.mod.nPids)
    (habove : ¬ σ.BelowHand π.tier (σ.kernel.pidOf (σ.mod.taskItems s.index)))
    {z : Exam} (hz : σ.firstLeft π q = some z) :
    (σ.roundFrom s.index (σ.mod.lastAddr π.tier)).head?.map Exam.info ≠ some z.info := by
  -- the stretch covers all pages of its process from the hand address on
  have hcover : s.start ≤ σ.mod.lastAddr π.tier ∧ s.stop = maxAddress := by
    rcases cycle_stretch h.cycle with ⟨rfl, _⟩ | ⟨_, hs⟩ | ⟨_, _, _, hs, _⟩
    · have hleft := Sys.firstLeft_head hpids hlast hz
      rw [h.leftOver] at hleft
      simp [visits] at hleft
    · rw [hs]
      exact ⟨Nat.le_refl _, rfl⟩
    · rw [hs]
      exact ⟨Nat.zero_le _, rfl⟩
  simp only [Sys.BelowHand, not_forall, Nat.not_lt] at habove
  obtain ⟨w, hw, hwp, hwa⟩ := habove
  obtain ⟨j, hj, mm, hmm, e, he, rfl⟩ := Sys.mem_pages.mp hw
  have hjs : j = s.index := by
    by_contra hne
    exact hpids.ne hj (h.index_lt hlast) hne hwp
  subst hjs
  have huser := mm.user e.addr (List.mem_map_of_mem he)
  have hwin : e.exam (σ.mod.taskItems s.index) (σ.kernel.pidOf (σ.mod.taskItems s.index)) ∈
      examsOf σ.kernel σ.mod.taskItems σ.mm ⟨s.index, σ.mod.lastAddr π.tier, maxAddress⟩ := by
    unfold examsOf
    simp only [hmm]
    refine List.mem_map_of_mem (List.mem_filter.mpr ⟨he, ?_⟩)
    simpa [PageEntry.within] using ⟨hwa, huser⟩
  rw [Sys.roundFrom]
  cases hcase : examsOf σ.kernel σ.mod.taskItems σ.mm
      ⟨s.index, σ.mod.lastAddr π.tier, maxAddress⟩ with
  | nil => simp [hcase] at hwin
  | cons v vs =>
    simp only [List.cons_append, List.head?_cons, Option.map_some, ne_eq, Option.some.injEq]
    intro heq
    have hv : v ∈ examsOf σ.kernel σ.mod.taskItems σ.mm
        ⟨s.index, σ.mod.lastAddr π.tier, maxAddress⟩ := hcase ▸ List.mem_cons_self
    obtain ⟨_, hlo, hhi⟩ := mem_examsOf hv
    have hvs : v.info ∈ xs.map Exam.info := by
      have hsplit := h.split
      rw [List.append_nil] at hsplit
      rw [← hsplit, examsOf_info h.tables]
      exact List.mem_map_of_mem (examsOf_cover hv (hcover.1.trans hlo) (hcover.2 ▸ hhi))
    have hnew := List.find?_some hz
    rw [decide_eq_true_eq, h.swept, List.map_append, List.mem_append, ← heq] at hnew
    exact hnew (Or.inr hvs)

/-- The hand kept its address in a process whose pages are all below: the next round
starts with the next process. -/
theorem resumes_of_below (h : Halt π q σ pre s post mm' xs []) (hpids : σ.distinctPids)
    (hlast : σ.mod.lastPid π.tier < σ.mod.nPids)
    (hbelow : σ.BelowHand π.tier (σ.kernel.pidOf (σ.mod.taskItems s.index)))
    {z : Exam} (hz : σ.firstLeft π q = some z) :
    (σ.roundFrom s.index (σ.mod.lastAddr π.tier)).head? = some z := by
  have hnone : examsOf σ.kernel σ.mod.taskItems σ.mm
      ⟨s.index, σ.mod.lastAddr π.tier, maxAddress⟩ = [] := by
    refine List.eq_nil_iff_forall_not_mem.mpr fun v hv => ?_
    obtain ⟨hvp, hlo, hhi⟩ := mem_examsOf hv
    have hpage : v ∈ σ.pages := List.mem_flatMap.mpr
      ⟨s.index, List.mem_range.mpr (h.index_lt hlast), examsOf_cover hv (Nat.zero_le _) hhi⟩
    exact absurd (hbelow v hpage hvp) (Nat.not_lt.mpr hlo)
  rcases cycle_stretch h.cycle with ⟨rfl, _⟩ | ⟨_, hs⟩ | ⟨b, c, hothers, hs, hpre, _⟩
  · have hleft := Sys.firstLeft_head hpids hlast hz
    rw [h.leftOver] at hleft
    simp [visits] at hleft
  · -- the first stretch starts at the hand, where there is no page
    have hinfo := congrArg (List.map Exam.info) h.split
    rw [examsOf_info h.tables, hs] at hinfo
    rw [hs] at hnone
    rw [hnone, List.map_nil, List.append_nil] at hinfo
    exact absurd (List.map_eq_nil_iff.mp hinfo.symm) h.nonempty
  · set i := σ.mod.lastPid π.tier
    set a := σ.mod.lastAddr π.tier
    set exams := examsOf σ.kernel σ.mod.taskItems σ.mm with hexams
    -- the pages from the hand to the end of the stretch, and those after it
    set front := exams ⟨i, a, maxAddress⟩ ++ (b ++ [s.index]).flatMap fun j => exams (.whole j)
      with hfront
    set rest := (c.flatMap fun j => exams (.whole j)) ++ exams ⟨i, 0, a⟩ with hrest
    have hlen : (σ.swept π q).length = front.length := by
      have hvisits := congrArg List.length
        (visits_info π σ.kernel σ.mod.taskItems (rfl : tableView PageEntry.addr σ.mm = _) pre)
      have hstretch := congrArg List.length h.split
      have hsame : ((examsOf σ.kernel σ.mod.taskItems mm' s).map Exam.info).length =
          ((examsOf σ.kernel σ.mod.taskItems σ.mm s).map Exam.info).length :=
        congrArg List.length (examsOf_info h.tables s)
      simp only [List.length_map, List.append_nil] at hvisits hstretch hsame
      rw [h.swept, List.length_append, ← hstretch, hsame, hvisits, hpre, hfront]
      simp only [List.length_append, List.flatMap_cons, List.flatMap_append, List.flatMap_map,
        List.flatMap_nil, List.length_nil, ← hs, hexams]
      omega
    have hround : σ.roundFrom i a = front ++ rest := by
      simp [Sys.roundFrom, hothers, hfront, hrest, ← hexams]
    have hnext : σ.roundFrom s.index a =
        rest ++ (exams ⟨i, a, maxAddress⟩ ++ (b.flatMap fun j => exams (.whole j)) ++
          exams ⟨s.index, 0, a⟩) := by
      have hwhole := examsOf_whole σ i a
      rw [← hexams] at hwhole
      simp [Sys.roundFrom, hnone, others_split hlast hothers, hrest, hwhole, ← hexams]
    rw [Sys.firstLeft_eq hpids hlast, Sys.round_eq, hround, hlen, List.drop_left] at hz
    rw [hnext, List.head?_append, hz, Option.some_or]

end Halt

end

end Ambix.Hyb
