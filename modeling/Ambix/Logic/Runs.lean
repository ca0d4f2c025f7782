import Ambix.Ctl.Migration
import Ambix.Lib.Batch

/-!
# The second loop as batches with retries

`moveRuns` cuts the processed candidates into maximal runs of one pid and submits each;
of a run that fails it submits every page again. This is `Batch.submit` on the runs, and
`e` counts its errors.
-/

namespace Ambix.Ctl

open Ambix.Lib Ambix.Lib.Batch

/-- Whether call number `n` of `move_pages` fails. -/
def Host.fails (host : Host) (n : Nat) : Bool := host.movePages n ≠ 0

/-- The runs of `moveRuns`, each with its first position and its length. -/
def runsFrom (c : Arr AddrInfo) (n : Nat) : Nat → Nat → List (Nat × Nat)
  | 0, _ => []
  | turns + 1, pos =>
    if pos < n then
      let i := 1 + sameRun c (c pos).pidRetval (pos + 1) (n - (pos + 1))
      (pos, i) :: runsFrom c n turns (pos + i)
    else []

/-- A maximal run of one pid among the first `n` candidates. -/
structure PidRun (c : Arr AddrInfo) (n : Nat) (run : Nat × Nat) : Prop where
  le : run.1 + run.2 ≤ n
  same : ∀ j, j < run.2 → (c (run.1 + j)).pidRetval = (c run.1).pidRetval
  stops : run.1 + run.2 = n ∨ (c (run.1 + run.2)).pidRetval ≠ (c run.1).pidRetval

/-- The call that a submission is. -/
def callOf (c : Arr AddrInfo) (slots : List (Nat × Int)) (s : Submission) : MoveCall :=
  ⟨(c s.first).pidRetval, s.first, (slots.drop s.first).take s.count⟩

section

variable {host : Host} {c : Arr AddrInfo} {slots : List (Nat × Int)} {n : Nat}

/-! ## The runs -/

/-- The positions a run passes have its pid. -/
theorem sameRun_pid {pid : Int} {pos left j : Nat} (h : j < sameRun c pid pos left) :
    (c (pos + j)).pidRetval = pid := by
  induction left generalizing pos j with
  | zero => exact absurd h (Nat.not_lt_zero _)
  | succ left ih =>
    unfold sameRun at h
    split at h
    · rename_i hpid
      cases j with
      | zero => exact hpid
      | succ j =>
        have := @ih (pos + 1) j (by omega)
        rwa [Nat.add_assoc, Nat.add_comm 1 j] at this
    · exact absurd h (Nat.not_lt_zero _)

theorem sameRun_le (pid : Int) (pos left : Nat) : sameRun c pid pos left ≤ left := by
  induction left generalizing pos with
  | zero => exact Nat.le_refl _
  | succ left ih =>
    unfold sameRun
    split
    · exact Nat.succ_le_succ (ih _)
    · exact Nat.zero_le _

/-- A run that stops before the end stops at another pid. -/
theorem sameRun_stops {pid : Int} {pos left : Nat} (h : sameRun c pid pos left < left) :
    (c (pos + sameRun c pid pos left)).pidRetval ≠ pid := by
  induction left generalizing pos with
  | zero => exact absurd h (Nat.not_lt_zero _)
  | succ left ih =>
    unfold sameRun at h ⊢
    split
    · rename_i hpid
      rw [if_pos hpid] at h
      have hrest := @ih (pos + 1) (Nat.lt_of_succ_lt_succ h)
      rwa [Nat.add_assoc, Nat.add_comm 1] at hrest
    · rename_i hpid
      exact hpid

theorem pidRun {pos : Nat} (hpos : pos < n) :
    PidRun c n (pos, 1 + sameRun c (c pos).pidRetval (pos + 1) (n - (pos + 1))) := by
  have hle := sameRun_le (c := c) (c pos).pidRetval (pos + 1) (n - (pos + 1))
  refine ⟨by simp only; omega, fun j hj => ?_, ?_⟩
  · cases j with
    | zero => rfl
    | succ j =>
      simp only at hj ⊢
      have hrun : j < sameRun c (c pos).pidRetval (pos + 1) (n - (pos + 1)) := by omega
      have hpid := sameRun_pid hrun
      rwa [Nat.add_assoc, Nat.add_comm 1] at hpid
  · rcases Nat.lt_or_ge (sameRun c (c pos).pidRetval (pos + 1) (n - (pos + 1))) (n - (pos + 1))
      with hlt | hge
    · refine Or.inr ?_
      have hpid := sameRun_stops hlt
      rwa [Nat.add_assoc] at hpid
    · exact Or.inl (by simp only; omega)

/-- **The runs** are consecutive: every turn passes a position. -/
theorem runsFrom_tiles {turns pos : Nat} (hturns : n ≤ pos + turns) (hpos : pos ≤ n) :
    Tiles pos (runsFrom c n turns pos) n := by
  induction turns generalizing pos with
  | zero => exact Nat.le_antisymm hpos hturns
  | succ turns ih =>
    unfold runsFrom
    split
    · rename_i hlt
      refine ⟨rfl, by omega, ih (by omega) ?_⟩
      exact (pidRun (c := c) hlt).le
    · exact Nat.le_antisymm hpos (by omega)

/-- Turns beyond the number of positions are not taken. -/
theorem runsFrom_more {turns pos : Nat} (hturns : n ≤ pos + turns) (more : Nat) :
    runsFrom c n (turns + more) pos = runsFrom c n turns pos := by
  induction turns generalizing pos with
  | zero =>
    cases more with
    | zero => rfl
    | succ more =>
      rw [Nat.zero_add]
      unfold runsFrom
      exact if_neg (by omega)
  | succ turns ih =>
    rw [Nat.succ_add]
    unfold runsFrom
    split
    · simp only
      rw [ih (by omega)]
    · rfl

/-- And each is maximal. -/
theorem runsFrom_maximal (turns pos : Nat) : ∀ run ∈ runsFrom c n turns pos, PidRun c n run := by
  induction turns generalizing pos with
  | zero => simp [runsFrom]
  | succ turns ih =>
    intro run hrun
    unfold runsFrom at hrun
    split at hrun
    · rename_i hlt
      rcases List.mem_cons.mp hrun with rfl | hrun
      · exact pidRun hlt
      · exact ih _ run hrun
    · simp at hrun

/-! ## The calls -/

theorem retryEach_log {pid : Int} (count pos : Nat) (s : Moves) (hlen : pos + count ≤ slots.length)
    (hpid : ∀ j, j < count → (c (pos + j)).pidRetval = pid) :
    retryEach host pid pos ((slots.drop pos).take count) s =
      ⟨s.calls ++ (retries host.fails pos count s.calls.length).map (callOf c slots),
        s.e + (errors (retries host.fails pos count s.calls.length)).length⟩ := by
  induction count generalizing pos s with
  | zero => simp [retryEach, retries, errors]
  | succ count ih =>
    have hcons : (slots.drop pos).take (count + 1) =
        slots[pos] :: (slots.drop (pos + 1)).take count := by
      rw [List.drop_eq_getElem_cons (by omega), List.take_succ_cons]
    have hcall : (⟨pid, pos, [slots[pos]]⟩ : MoveCall) =
        callOf c slots ⟨pos, 1, true, host.fails s.calls.length⟩ := by
      have hpid₀ := hpid 0 (Nat.succ_pos _)
      rw [Nat.add_zero] at hpid₀
      simp only [callOf, hpid₀]
      rw [List.drop_eq_getElem_cons (by omega), List.take_succ_cons, List.take_zero]
    have hpid' : ∀ j, j < count → (c (pos + 1 + j)).pidRetval = pid := by
      intro j hj
      rw [Nat.add_assoc, Nat.add_comm 1]
      exact hpid (j + 1) (Nat.succ_lt_succ hj)
    have hfails : s.fails host = host.fails s.calls.length := rfl
    rw [hcons]
    unfold retryEach
    rw [ih (pos + 1) _ (by omega) hpid', retries, hfails, hcall]
    cases host.fails s.calls.length with
    | false =>
      simp [Moves.call, errors, Submission.error]
    | true =>
      simp [Moves.call, errors, Submission.error]
      omega

variable (host c slots) in
/-- **The second loop** submits the runs in order. -/
theorem moveRuns_log (turns pos : Nat) (s : Moves) :
    moveRuns host c slots turns pos s =
      ⟨s.calls ++ (submit host.fails (runsFrom c slots.length turns pos) s.calls.length).map
          (callOf c slots),
        s.e + (errors (submit host.fails (runsFrom c slots.length turns pos)
          s.calls.length)).length⟩ := by
  induction turns generalizing pos s with
  | zero => simp [moveRuns, runsFrom, submit, errors]
  | succ turns ih =>
    unfold moveRuns runsFrom
    split
    · rename_i hlt
      have hrun := pidRun (c := c) hlt
      simp only
      generalize 1 + sameRun c (c pos).pidRetval (pos + 1) (slots.length - (pos + 1)) = i at hrun ⊢
      have hfails : s.fails host = host.fails s.calls.length := rfl
      have hcall : ∀ failed, (⟨(c pos).pidRetval, pos, (slots.drop pos).take i⟩ : MoveCall) =
          callOf c slots ⟨pos, i, false, failed⟩ := fun _ => rfl
      rw [ih, hfails]
      cases hfail : host.fails s.calls.length with
      | false =>
        rw [submit_cons_ok hfail, hcall false]
        simp [Moves.call, errors, Submission.error]
      | true =>
        rw [if_pos rfl, retryEach_log i pos _ hrun.le hrun.same, submit_cons_failed hfail,
          hcall true]
        simp [Moves.call, errors, Submission.error, length_retries, Nat.add_assoc, Nat.add_comm,
          Nat.add_left_comm]
    · simp [submit, errors]

/-- The calls only grow. -/
theorem moveRuns_grow (turns pos : Nat) (s : Moves) :
    s.calls <+: (moveRuns host c slots turns pos s).calls := by
  rw [moveRuns_log]
  exact List.prefix_append _ _

/-- Slots make a call. -/
theorem moveRuns_ne_nil (h : slots ≠ []) (s : Moves) :
    (moveRuns host c slots slots.length 0 s).calls ≠ [] := by
  have hpos := List.length_pos_iff.mpr h
  have hruns : runsFrom c slots.length slots.length 0 ≠ [] := by
    obtain ⟨turns, hturns⟩ := Nat.exists_eq_succ_of_ne_zero (Nat.ne_of_gt hpos)
    rw [hturns]
    unfold runsFrom
    rw [if_pos (Nat.succ_pos _)]
    exact List.cons_ne_nil _ _
  rw [moveRuns_log]
  simp only [ne_eq, List.append_eq_nil_iff, List.map_eq_nil_iff]
  rintro ⟨_, hnone⟩
  exact submit_ne_nil hruns _ hnone

/-- The positions of a submission have one pid. -/
theorem submit_pid {turns pos calls : Nat} {s : Submission}
    (hs : s ∈ submit host.fails (runsFrom c n turns pos) calls) :
    s.first + s.count ≤ n ∧
      ∀ j, j < s.count → (c (s.first + j)).pidRetval = (c s.first).pidRetval := by
  obtain ⟨run, hrun, hlo, hhi⟩ := mem_submit hs
  have hmaximal := runsFrom_maximal _ _ run hrun
  have hpid : ∀ i, run.1 ≤ i → i < run.1 + run.2 →
      (c i).pidRetval = (c run.1).pidRetval := by
    intro i hi hi'
    have hsame := hmaximal.same (i - run.1) (by omega)
    rwa [Nat.add_sub_cancel' hi] at hsame
  refine ⟨Nat.le_trans hhi hmaximal.le, fun j hj => ?_⟩
  rw [hpid (s.first + j) (by omega) (by omega), hpid s.first hlo (by omega)]

end

end Ambix.Ctl
