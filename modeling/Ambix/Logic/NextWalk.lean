import Ambix.Logic.HandOwner

/-!
# Two finds in a row

`NextWalk` relates the state a FIND started from (refreshed) to the state the next
one starts from when nothing else happens: the same processes and pages, the same
pages selected at once, and the hand where the walk left it.
-/

namespace Ambix.Hyb

open Ambix.Lib Ambix.Lib.QuotaScan

section

variable {P : Platform} (π : Policy P)

/-- The address of an entry and whether the policy selects it at once. -/
def Policy.primaryView (e : PageEntry) : Nat × Bool :=
  (e.addr, decide (π.verdict e.pte = .primary))

/-- The same of an examination. -/
def Policy.primaryInfo (x : Exam) : AddrInfo × Bool :=
  (x.info, decide (π.classOf x = .primary))

theorem Policy.primaryView_after (e : PageEntry) :
    π.primaryView { e with pte := π.after e.pte } = π.primaryView e := by
  simp [primaryView, π.verdict_after_primary]

theorem Policy.map_primaries (xs : List Exam) :
    (primaries π.classOf xs).map Exam.info =
      ((xs.map π.primaryInfo).filter Prod.snd).map Prod.fst := by
  rw [List.filter_map, List.map_map]
  rfl

/-- The next walk's state `τ` after one from `σ` that left the hand at `(i, a)`. -/
structure NextWalk (σ τ : Sys) (i a : Nat) : Prop where
  kernel : τ.kernel = σ.kernel
  taskItems : τ.mod.taskItems = σ.mod.taskItems
  nPids : τ.mod.nPids = σ.mod.nPids
  view : tableView π.primaryView τ.mm = tableView π.primaryView σ.mm
  lastPid : τ.mod.lastPid π.tier = i
  lastAddr : τ.mod.lastAddr π.tier = a

variable {π} {σ τ : Sys} {i a : Nat}

theorem NextWalk.examsOf (h : NextWalk π σ τ i a) (s : Stretch) :
    (examsOf τ.kernel τ.mod.taskItems τ.mm s).map π.primaryInfo =
      (Ambix.Hyb.examsOf σ.kernel σ.mod.taskItems σ.mm s).map π.primaryInfo := by
  rw [h.kernel, h.taskItems]
  exact examsOf_view (g := π.primaryView)
    (F := fun _ p b => ((⟨b.1, p⟩ : AddrInfo), b.2)) (show ∀ e, (π.primaryView e).1 = e.addr from
      fun _ => rfl) (fun _ _ _ => rfl) h.view s

/-- The next round, up to bits that do not decide about primaries. -/
theorem NextWalk.round (h : NextWalk π σ τ i a) :
    (τ.round π.tier).map π.primaryInfo = (σ.roundFrom i a).map π.primaryInfo := by
  rw [Sys.round_eq, h.lastPid, h.lastAddr, Sys.roundFrom, Sys.roundFrom, h.nPids]
  simp only [List.map_append, List.map_flatMap, h.examsOf]

theorem NextWalk.round_info (h : NextWalk π σ τ i a) :
    (τ.round π.tier).map Exam.info = (σ.roundFrom i a).map Exam.info := by
  have hround := congrArg (List.map Prod.fst) h.round
  simpa [Policy.primaryInfo, Function.comp_def] using hround

/-- The next walk starts where the round from its hand does. -/
theorem NextWalk.head?_visits (h : NextWalk π σ τ i a) (hreg : Registered τ) (hi : i < σ.mod.nPids)
    (hpages : σ.pages ≠ []) :
    (tierVisits π τ).head?.map Exam.info = (σ.roundFrom i a).head?.map Exam.info := by
  have hlast : τ.mod.lastPid π.tier < τ.mod.nPids := by rw [h.lastPid, h.nPids]; exact hi
  have hinfo := h.round_info
  rw [tierVisits_eq π hreg.distinct hlast, List.head?_append]
  cases hr : τ.round π.tier with
  | nil =>
    rw [hr, List.map_nil, eq_comm, List.map_eq_nil_iff] at hinfo
    exact absurd (List.isRotated_nil_iff.mp (hinfo ▸ Sys.roundFrom_rotated hi a)) hpages
  | cons x xs =>
    rw [List.head?_cons, Option.some_or, ← List.head?_map, ← hinfo, hr]
    rfl

/-! ## Resuming -/

/-- Whether the next walk after one with quota `n` starts with the first page left over
and the hand is in order, read off the page tables and the hand before it. -/
def Resumable (π : Policy P) (n : Nat) (σ : Sys) : Prop :=
  σ.MovesOn π n ∨ ∀ x, (σ.swept π n).getLast? = some x →
    (σ.mod.lastAddr π.tier = 0 ∨ σ.mod.owner π.tier = x.pid) ∧
      (σ.firstLeft π n = none ∨ σ.BelowHand π.tier x.pid)

variable {q : Nat} {pre post : List Stretch} {s : Stretch} {mm' : TaskPtr → Option MmStruct}
  {xs ys : List Exam}

/-- Where the walk leaves the hand's address. -/
def haltAddr (σ : Sys) (tier : Tier) (ys : List Exam) : Nat :=
  (ys.head?.map Exam.addr).getD (σ.mod.lastAddr tier)

/-- **The next round starts with the first page left over exactly when the walk moved
on, left nothing over, or stopped in a process with no page at the old address or
above.** -/
theorem Halt.resumes_iff (h : Halt π q σ pre s post mm' xs ys) (hpids : σ.distinctPids)
    (hlast : σ.mod.lastPid π.tier < σ.mod.nPids) {x : Exam}
    (hx : (σ.swept π q).getLast? = some x) :
    (∀ z, σ.firstLeft π q = some z →
        (σ.roundFrom s.index (haltAddr σ π.tier ys)).head?.map Exam.info = some z.info) ↔
      σ.MovesOn π q ∨ σ.firstLeft π q = none ∨ σ.BelowHand π.tier x.pid := by
  have hxp := (mem_examsOf (h.mem_stretch (Or.inl (h.last hx)))).1
  rw [h.movesOn_iff hpids hlast]
  cases ys with
  | cons y ys =>
    refine iff_of_true (fun z hz => ?_) (Or.inl (by simp))
    exact h.resumes_of_moved rfl hpids hlast hz
  | nil =>
    cases hz : σ.firstLeft π q with
    | none => simp
    | some z =>
      simp only [Option.some.injEq, forall_eq', ne_eq, not_true_eq_false, false_or, reduceCtorEq]
      by_cases hbelow : σ.BelowHand π.tier x.pid
      · refine iff_of_true ?_ hbelow
        have hnext := h.resumes_of_below hpids hlast (hxp ▸ hbelow) hz
        exact congrArg (Option.map Exam.info) hnext
      · exact iff_of_false (h.repeats_of_above hpids hlast (hxp ▸ hbelow) hz) hbelow

/-- Enough primaries in the round: the candidates are the primaries among the pages
examined there. -/
theorem plainPicks_of_le (h : Registered σ) (hpos : 0 < σ.mod.nPids) {n : Nat}
    (hn : n ≤ σ.nPrimary π) :
    σ.swept π n = examined π.classOf n (σ.round π.tier) ∧
      plainPicks π n σ = ((primaries π.classOf (σ.round π.tier)).take n).map Exam.info := by
  have hlast := h.lastPid_lt hpos π.tier
  have hle : n ≤ (primaries π.classOf (σ.round π.tier)).length := by
    rwa [Sys.length_primaries_round π h hpos]
  have hvisits := tierVisits_eq π h.distinct hlast
  refine ⟨?_, ?_⟩
  · rw [Sys.swept, hvisits]
    exact (examined_append_of_le _ hle _).1
  · rw [plainPicks, if_pos hpos, hvisits, select_of_le, primaries_append,
      List.take_append_of_le_length hle]
    rw [primaries_append, List.length_append]
    omega

/-- A round from another hand that starts with page `e` of this round is this round, read
from there. -/
theorem Sys.roundFrom_eq (hσ : Registered σ) (hpos : 0 < σ.mod.nPids) (hi : i < σ.mod.nPids)
    {tier : Tier} {e : Nat} {z : Exam} {zs : List Exam} (hz : (σ.round tier).drop e = z :: zs)
    (hstart : (σ.roundFrom i a).head?.map Exam.info = some z.info) :
    σ.roundFrom i a = (σ.round tier).drop e ++ (σ.round tier).take e := by
  have hlast := hσ.lastPid_lt hpos tier
  have hnodup := Sys.round_nodup hσ.distinct hlast
  have hrot : σ.round tier ~r σ.roundFrom i a := by
    rw [Sys.round_eq]
    exact (Sys.roundFrom_rotated hlast _).symm.trans (Sys.roundFrom_rotated hi a)
  have hle : e < (σ.round tier).length := by
    by_contra hge
    rw [List.drop_eq_nil_of_le (Nat.le_of_not_lt hge)] at hz
    simp at hz
  -- the pages of a round have different infos, so the first pages are equal
  have hhead : (σ.roundFrom i a).head? = some z := by
    cases hw : (σ.roundFrom i a).head? with
    | none =>
      rw [hw] at hstart
      simp at hstart
    | some w =>
      rw [hw, Option.map_some, Option.some.injEq] at hstart
      have hwmem : w ∈ σ.round tier := hrot.mem_iff.mpr (List.mem_of_head? hw)
      have hzmem : z ∈ σ.round tier := List.mem_of_mem_drop (hz ▸ List.mem_cons_self)
      rw [List.inj_on_of_nodup_map hnodup hwmem hzmem hstart]
  have hget : (σ.round tier)[e]? = some z := by
    rw [← List.head?_drop, hz]
    rfl
  rw [eq_rotate_of_head? (List.Nodup.of_map _ hnodup) hrot hle (hhead.trans hget.symm),
    List.rotate_eq_drop_append_take (Nat.le_of_lt hle)]

/-- **Then two finds in a row take disjoint sets of pages**, if there are enough. -/
theorem NextWalk.disjoint (h : NextWalk π σ τ i a) (hσ : Registered σ) (hτ : Registered τ)
    (hpos : 0 < σ.mod.nPids) (hi : i < σ.mod.nPids) {n n' : Nat} (hn' : 0 < n')
    (henough : n + n' ≤ σ.nPrimary π)
    (hresumes : ∀ z, σ.firstLeft π n = some z →
      (σ.roundFrom i a).head?.map Exam.info = some z.info) :
    (plainPicks π n σ).Disjoint (plainPicks π n' τ) := by
  have hlast := hσ.lastPid_lt hpos π.tier
  have hnodup := Sys.round_nodup hσ.distinct hlast
  have hprim := Sys.length_primaries_round π hσ hpos
  obtain ⟨hswept, hpicks⟩ := plainPicks_of_le (π := π) hσ hpos (n := n) (by omega)
  set R := σ.round π.tier with hR
  set e := (σ.swept π n).length with he
  have hfront : σ.swept π n = R.take e := by
    rw [he, hswept]
    exact examined_eq_take _ _ _
  have hfound : (primaries π.classOf R).take n = primaries π.classOf (R.take e) := by
    rw [← hfront, hswept, primaries_examined]
  have hsplit : primaries π.classOf R =
      primaries π.classOf (R.take e) ++ primaries π.classOf (R.drop e) := by
    rw [← primaries_append, List.take_append_drop]
  -- the pages after the first walk's hold enough primaries for the second
  have hrest : n' ≤ (primaries π.classOf (R.drop e)).length := by
    have hlen := congrArg List.length hsplit
    have htake := congrArg List.length hfound
    simp only [List.length_append, List.length_take] at hlen htake
    omega
  obtain ⟨z, zs, hz⟩ : ∃ z zs, R.drop e = z :: zs := by
    refine List.exists_cons_of_ne_nil fun hnil => ?_
    rw [hnil] at hrest
    simp at hrest
    omega
  have hfirst : σ.firstLeft π n = some z := by
    rw [Sys.firstLeft_eq hσ.distinct hlast, ← hR, ← he, hz]
    rfl
  -- the next round is this one, read from the first page left over
  have hnext : σ.roundFrom i a = R.drop e ++ R.take e :=
    Sys.roundFrom_eq hσ hpos hi hz (hresumes z hfirst)
  have hnextPrim : (primaries π.classOf (τ.round π.tier)).map Exam.info =
      (primaries π.classOf (R.drop e)).map Exam.info ++
        (primaries π.classOf (R.take e)).map Exam.info := by
    rw [π.map_primaries, h.round, ← π.map_primaries, hnext, primaries_append, List.map_append]
  have hτpos : 0 < τ.mod.nPids := h.nPids ▸ hpos
  have hτprim : τ.nPrimary π = σ.nPrimary π := by
    have hlen := congrArg List.length hnextPrim
    have hsplitLen := congrArg List.length hsplit
    simp only [List.length_map, List.length_append] at hlen hsplitLen
    rw [← Sys.length_primaries_round π hτ hτpos, hlen, ← hprim, hsplitLen, Nat.add_comm]
  obtain ⟨_, hpicks'⟩ := plainPicks_of_le (π := π) hτ hτpos (n := n') (by omega)
  rw [hpicks, hpicks', hfound, List.map_take, hnextPrim,
    List.take_append_of_le_length (by simpa using hrest)]
  intro c hc hc'
  obtain ⟨x, hx, rfl⟩ := List.mem_map.mp hc
  obtain ⟨y, hy, hyx⟩ := List.mem_map.mp (List.mem_of_mem_take hc')
  have hxe : x.info ∈ (R.map Exam.info).take e := by
    rw [← List.map_take]
    exact List.mem_map_of_mem ((mem_primaries _).mp hx).1
  have hye : x.info ∈ (R.map Exam.info).drop e := by
    rw [← List.map_drop, ← hyx]
    exact List.mem_map_of_mem ((mem_primaries _).mp hy).1
  exact List.disjoint_take_drop hnodup (Nat.le_refl e) hxe hye

end

end Ambix.Hyb
