import Mathlib.Data.List.Basic
import Mathlib.Data.List.Nodup
import Mathlib.Data.List.Perm.Subperm

/-!
# Batches that are retried one by one

The positions of an interval are submitted in batches. The positions of a batch that
fails are submitted again, each on its own, and a position that fails then is an error.
What the calls answer is an arbitrary sequence, numbered from the first call on.

* `submit` is the log of the calls for one list of batches.
* `Rounds` is a log of several such lists, each of them a longer part of the interval from
  its start, so that earlier positions are submitted again.
* `Rounds.exact` and `Rounds.twice` say what the number of errors tells: with one list of
  batches it tells how many positions arrived, with more it does not.
-/

namespace Ambix.Lib.Batch

/-- A call for the `count` positions from `first` on. -/
structure Submission where
  first : Nat
  count : Nat
  retry : Bool
  failed : Bool
deriving DecidableEq, Repr

def Submission.covers (p : Nat) (s : Submission) : Bool :=
  decide (s.first ≤ p) && decide (p < s.first + s.count)

/-- A position that fails on its own. -/
def Submission.error (s : Submission) : Bool := s.retry && s.failed

section

variable (fails : Nat → Bool)

/-- The retries of `count` positions from `first` on. The next call is number `n`. -/
def retries : Nat → Nat → Nat → List Submission
  | _, 0, _ => []
  | first, count + 1, n => ⟨first, 1, true, fails n⟩ :: retries (first + 1) count (n + 1)

/-- The calls for a list of batches, each a first position and a number of positions. -/
def submit : List (Nat × Nat) → Nat → List Submission
  | [], _ => []
  | (first, count) :: batches, n =>
    if fails n then
      ⟨first, count, false, true⟩ ::
        (retries fails first count (n + 1) ++ submit batches (n + 1 + count))
    else ⟨first, count, false, false⟩ :: submit batches (n + 1)

end

/-- The batches are not empty and follow each other from `lo` to `hi`. -/
def Tiles : Nat → List (Nat × Nat) → Nat → Prop
  | lo, [], hi => lo = hi
  | lo, (first, count) :: batches, hi => first = lo ∧ 0 < count ∧ Tiles (lo + count) batches hi

/-- The calls for a position, in order. -/
def about (p : Nat) (log : List Submission) : List Submission := log.filter (Submission.covers p)

/-- Whether the last call for a position failed. -/
def lastFailed (log : List Submission) (p : Nat) : Option Bool :=
  (about p log).getLast?.map Submission.failed

/-- The positions counted as errors, once for each count. -/
def errors (log : List Submission) : List Nat := (log.filter Submission.error).map Submission.first

/-- How many of the first `n` positions arrived with their last call. -/
def arrived (log : List Submission) (n : Nat) : Nat :=
  ((List.range n).filter fun p => lastFailed log p = some false).length

/-- No position is submitted again once it has arrived. -/
def NoneAgain (log : List Submission) : Prop :=
  ∀ p, (about p log).Pairwise fun s _ => s.failed = true

/-- What one list of batches does with a position: its batch arrives, or it is retried. -/
inductive Settled (p : Nat) : List Submission → Prop
  | moved (first count : Nat) : Settled p [⟨first, count, false, false⟩]
  | retried (first count : Nat) (failed : Bool) :
      Settled p [⟨first, count, false, true⟩, ⟨p, 1, true, failed⟩]

/-! ## One list of batches -/

section

variable {fails : Nat → Bool} {lo hi p n : Nat} {batches : List (Nat × Nat)}

theorem Submission.covers_iff {s : Submission} :
    s.covers p = true ↔ s.first ≤ p ∧ p < s.first + s.count := by
  simp [Submission.covers]

@[simp] theorem about_append (xs ys : List Submission) :
    about p (xs ++ ys) = about p xs ++ about p ys := List.filter_append ..

@[simp] theorem errors_append (xs ys : List Submission) :
    errors (xs ++ ys) = errors xs ++ errors ys := by
  simp [errors]

theorem Tiles.le (h : Tiles lo batches hi) : lo ≤ hi := by
  induction batches generalizing lo with
  | nil => exact Nat.le_of_eq h
  | cons b batches ih =>
    obtain ⟨_, _, hrest⟩ := h
    exact Nat.le_trans (Nat.le_add_right _ _) (ih hrest)

theorem length_retries (first count n : Nat) : (retries fails first count n).length = count := by
  induction count generalizing first n with
  | zero => rfl
  | succ count ih => rw [retries, List.length_cons, ih]

theorem about_cons_of (s : Submission) (log : List Submission) (h : s.first ≤ p ∧ p < s.first + s.count) :
    about p (s :: log) = s :: about p log :=
  List.filter_cons_of_pos (Submission.covers_iff.mpr h)

theorem about_cons_not (s : Submission) (log : List Submission)
    (h : ¬ (s.first ≤ p ∧ p < s.first + s.count)) : about p (s :: log) = about p log :=
  List.filter_cons_of_neg (fun hc => h (Submission.covers_iff.mp hc))

/-- The retries reach each of their positions once. -/
theorem about_retries (first count n : Nat) :
    about p (retries fails first count n) =
      if first ≤ p ∧ p < first + count then [⟨p, 1, true, fails (n + (p - first))⟩] else [] := by
  induction count generalizing first n with
  | zero => rw [if_neg (by omega)]; rfl
  | succ count ih =>
    rw [retries]
    by_cases hp : p = first
    · subst hp
      rw [about_cons_of _ _ (by simp), ih, if_neg (by omega), if_pos (by omega), Nat.sub_self,
        Nat.add_zero]
    · rw [about_cons_not _ _ (by simp only; omega), ih]
      by_cases hin : first ≤ p ∧ p < first + (count + 1)
      · rw [if_pos (by omega), if_pos hin, Nat.add_assoc,
          show 1 + (p - (first + 1)) = p - first by omega]
      · rw [if_neg (by omega), if_neg hin]

theorem submit_cons_ok {first count : Nat} (h : fails n = false) :
    submit fails ((first, count) :: batches) n =
      ⟨first, count, false, false⟩ :: submit fails batches (n + 1) := by
  rw [submit, h]
  rfl

theorem submit_cons_failed {first count : Nat} (h : fails n = true) :
    submit fails ((first, count) :: batches) n = ⟨first, count, false, true⟩ ::
      (retries fails first count (n + 1) ++ submit fails batches (n + 1 + count)) := by
  rw [submit, h]
  rfl

theorem submit_ne_nil (h : batches ≠ []) (n : Nat) : submit fails batches n ≠ [] := by
  obtain ⟨⟨first, count⟩, rest, rfl⟩ := List.exists_cons_of_ne_nil h
  cases hfail : fails n with
  | false =>
    rw [submit_cons_ok hfail]
    exact List.cons_ne_nil _ _
  | true =>
    rw [submit_cons_failed hfail]
    exact List.cons_ne_nil _ _

theorem retries_answers (first count n : Nat) {i : Nat} {s : Submission}
    (h : (retries fails first count n)[i]? = some s) : s.failed = fails (n + i) := by
  induction count generalizing first n i with
  | zero => simp [retries] at h
  | succ count ih =>
    cases i with
    | zero =>
      rw [retries, List.getElem?_cons_zero] at h
      rw [← Option.some.inj h, Nat.add_zero]
    | succ i =>
      rw [retries, List.getElem?_cons_succ] at h
      rw [ih _ _ h, Nat.add_assoc, Nat.add_comm 1]

/-- **The log** says of each call what it was answered. -/
theorem submit_answers (batches : List (Nat × Nat)) (n : Nat) {i : Nat} {s : Submission}
    (h : (submit fails batches n)[i]? = some s) : s.failed = fails (n + i) := by
  induction batches generalizing n i with
  | nil => simp [submit] at h
  | cons b batches ih =>
    obtain ⟨first, count⟩ := b
    cases hfail : fails n with
    | false =>
      rw [submit_cons_ok hfail] at h
      cases i with
      | zero =>
        rw [List.getElem?_cons_zero] at h
        rw [← Option.some.inj h, Nat.add_zero, hfail]
      | succ i =>
        rw [List.getElem?_cons_succ] at h
        rw [ih _ h, Nat.add_assoc, Nat.add_comm 1]
    | true =>
      rw [submit_cons_failed hfail] at h
      cases i with
      | zero =>
        rw [List.getElem?_cons_zero] at h
        rw [← Option.some.inj h, Nat.add_zero, hfail]
      | succ i =>
        rw [List.getElem?_cons_succ] at h
        by_cases hi : i < count
        · rw [List.getElem?_append_left (by rwa [length_retries])] at h
          rw [retries_answers _ _ _ h, Nat.add_assoc, Nat.add_comm 1]
        · rw [List.getElem?_append_right (by rw [length_retries]; omega), length_retries] at h
          rw [ih _ h]
          congr 1
          omega

/-- Positions outside the interval are not submitted. -/
theorem about_outside (h : Tiles lo batches hi) (hp : p < lo ∨ hi ≤ p) (n : Nat) :
    about p (submit fails batches n) = [] := by
  induction batches generalizing lo n with
  | nil => rfl
  | cons b batches ih =>
    obtain ⟨first, count⟩ := b
    obtain ⟨rfl, _, hrest⟩ := h
    have hle := hrest.le
    have hout : ¬ (first ≤ p ∧ p < first + count) := by omega
    unfold submit
    split
    · rw [about_cons_not _ _ hout, about_append, about_retries, if_neg hout,
        ih hrest (by omega), List.append_nil]
    · rw [about_cons_not _ _ hout, ih hrest (by omega)]

/-- Each position of the interval is settled. -/
theorem about_inside (h : Tiles lo batches hi) (hlo : lo ≤ p) (hhi : p < hi) (n : Nat) :
    Settled p (about p (submit fails batches n)) := by
  induction batches generalizing lo n with
  | nil => exact absurd h (by simp only [Tiles]; omega)
  | cons b batches ih =>
    obtain ⟨first, count⟩ := b
    obtain ⟨rfl, _, hrest⟩ := h
    unfold submit
    by_cases hin : p < first + count
    · -- its own batch; the later ones start behind it
      have hbatch : first ≤ p ∧ p < first + count := ⟨hlo, hin⟩
      split
      · rw [about_cons_of _ _ hbatch, about_append, about_retries, if_pos hbatch,
          about_outside hrest (Or.inl hin), List.append_nil]
        exact Settled.retried _ _ _
      · rw [about_cons_of _ _ hbatch, about_outside hrest (Or.inl hin)]
        exact Settled.moved _ _
    · have hout : ¬ (first ≤ p ∧ p < first + count) := fun hc => hin hc.2
      split
      · rw [about_cons_not _ _ hout, about_append, about_retries, if_neg hout, List.nil_append]
        exact ih hrest (by omega) _
      · rw [about_cons_not _ _ hout]
        exact ih hrest (by omega) _

theorem Tiles.mem (h : Tiles lo batches hi) {b : Nat × Nat} (hb : b ∈ batches) :
    lo ≤ b.1 ∧ b.1 + b.2 ≤ hi := by
  induction batches generalizing lo with
  | nil => simp at hb
  | cons b' batches ih =>
    obtain ⟨first, count⟩ := b'
    obtain ⟨rfl, _, hrest⟩ := h
    rcases List.mem_cons.mp hb with rfl | hb
    · exact ⟨Nat.le_refl _, hrest.le⟩
    · obtain ⟨hlo, hhi⟩ := ih hrest hb
      exact ⟨by omega, hhi⟩

theorem mem_retries {first count : Nat} {s : Submission} (h : s ∈ retries fails first count n) :
    first ≤ s.first ∧ s.first < first + count ∧ s.count = 1 := by
  induction count generalizing first n with
  | zero => simp [retries] at h
  | succ count ih =>
    rcases List.mem_cons.mp h with rfl | h
    · exact ⟨Nat.le_refl _, Nat.lt_add_of_pos_right (Nat.succ_pos _), rfl⟩
    · obtain ⟨hlo, hhi, hone⟩ := ih h
      exact ⟨by omega, by omega, hone⟩

/-- A call is for positions of one batch. -/
theorem mem_submit {s : Submission} (h : s ∈ submit fails batches n) :
    ∃ b ∈ batches, b.1 ≤ s.first ∧ s.first + s.count ≤ b.1 + b.2 := by
  induction batches generalizing n with
  | nil => simp [submit] at h
  | cons b batches ih =>
    obtain ⟨first, count⟩ := b
    have hlater : ∀ m, s ∈ submit fails batches m →
        ∃ b ∈ (first, count) :: batches, b.1 ≤ s.first ∧ s.first + s.count ≤ b.1 + b.2 := by
      intro m hm
      obtain ⟨b, hb, hin⟩ := ih hm
      exact ⟨b, List.mem_cons_of_mem _ hb, hin⟩
    unfold submit at h
    split at h
    · rcases List.mem_cons.mp h with rfl | h
      · exact ⟨_, List.mem_cons_self, Nat.le_refl _, Nat.le_refl _⟩
      · rcases List.mem_append.mp h with h | h
        · obtain ⟨hlo, hhi, hone⟩ := mem_retries h
          exact ⟨_, List.mem_cons_self, hlo, by simp only; omega⟩
        · exact hlater _ h
    · rcases List.mem_cons.mp h with rfl | h
      · exact ⟨_, List.mem_cons_self, Nat.le_refl _, Nat.le_refl _⟩
      · exact hlater _ h

/-- Retries are for one position. -/
theorem submit_single (batches : List (Nat × Nat)) (n : Nat) :
    ∀ s ∈ submit fails batches n, s.retry = true → s.count = 1 := by
  induction batches generalizing n with
  | nil => simp [submit]
  | cons b batches ih =>
    obtain ⟨first, count⟩ := b
    intro s hs hretry
    unfold submit at hs
    split at hs
    · rcases List.mem_cons.mp hs with rfl | hs
      · simp at hretry
      · rcases List.mem_append.mp hs with hs | hs
        · exact (mem_retries hs).2.2
        · exact ih _ s hs hretry
    · rcases List.mem_cons.mp hs with rfl | hs
      · simp at hretry
      · exact ih _ s hs hretry

/-- How often a position is counted as an error. -/
theorem count_errors {log : List Submission} (h : ∀ s ∈ log, s.retry = true → s.count = 1) (p : Nat) :
    (errors log).count p = (about p log).countP Submission.error := by
  induction log with
  | nil => rfl
  | cons s log ih =>
    have hrest := ih fun t ht => h t (List.mem_cons_of_mem _ ht)
    by_cases herror : s.error = true
    · have hone : s.count = 1 := by
        refine h s List.mem_cons_self ?_
        simp only [Submission.error, Bool.and_eq_true] at herror
        exact herror.1
      have hlist : errors (s :: log) = s.first :: errors log := by
        simp [errors, herror]
      rw [hlist, List.count_cons, hrest]
      by_cases hp : s.first = p
      · rw [about_cons_of s log (by omega), List.countP_cons_of_pos herror, if_pos (by simp [hp])]
      · rw [about_cons_not s log (by omega), if_neg (by simp [hp]), Nat.add_zero]
    · have hlist : errors (s :: log) = errors log := by
        simp [errors, herror]
      rw [hlist, hrest]
      by_cases hp : s.first ≤ p ∧ p < s.first + s.count
      · rw [about_cons_of s log hp, List.countP_cons_of_neg herror]
      · rw [about_cons_not s log hp]

end

/-! ## Several lists -/

/-- The log of `k` rounds. Each submits the positions below a larger bound, the last one
those below `p`. -/
inductive Rounds (fails : Nat → Bool) : Nat → Nat → List Submission → Prop
  | start : Rounds fails 0 0 []
  | round {k p q n : Nat} {log : List Submission} {batches : List (Nat × Nat)} :
      Rounds fails k p log → Tiles 0 batches q → p < q →
        Rounds fails (k + 1) q (log ++ submit fails batches n)

section

variable {fails : Nat → Bool} {k p q : Nat} {log : List Submission}

theorem Settled.last {subs : List Submission} (h : Settled q subs) (log : List Submission)
    (hsubs : ∃ rest, about q log = rest ++ subs) :
    (lastFailed log q = some true ↔ subs.countP Submission.error = 1) ∧
      (lastFailed log q = some false ↔ subs.countP Submission.error = 0) := by
  obtain ⟨rest, hrest⟩ := hsubs
  cases h with
  | moved first count => simp [lastFailed, hrest, Submission.error]
  | retried first count failed =>
    cases failed <;> simp [lastFailed, hrest, Submission.error]

theorem Settled.counted_le {subs : List Submission} (h : Settled q subs) :
    subs.countP Submission.error ≤ 1 := by
  cases h with
  | moved first count => exact Nat.zero_le _
  | retried first count failed => cases failed <;> simp [Submission.error]

theorem Settled.noneAgain {subs : List Submission} (h : Settled q subs) :
    subs.Pairwise fun s _ => s.failed = true := by
  cases h <;> simp

theorem Settled.mem {subs : List Submission} (h : Settled q subs) : ∃ s, s ∈ subs := by
  cases h <;> exact ⟨_, List.mem_cons_self⟩

/-- The last of the calls does not fail, or the position is counted. -/
theorem Settled.arrived_or_counted {subs : List Submission} (h : Settled q subs) :
    (∃ s ∈ subs, s.failed = false) ∨ subs.countP Submission.error = 1 := by
  cases h with
  | moved first count => exact Or.inl ⟨_, List.mem_cons_self, rfl⟩
  | retried first count failed =>
    cases failed with
    | false => exact Or.inl ⟨_, List.mem_cons_of_mem _ List.mem_cons_self, rfl⟩
    | true => exact Or.inr rfl

theorem Rounds.single (h : Rounds fails k p log) :
    ∀ s ∈ log, s.retry = true → s.count = 1 := by
  induction h with
  | start => simp
  | round _ _ _ ih =>
    intro s hs
    rcases List.mem_append.mp hs with hs | hs
    · exact ih s hs
    · exact submit_single _ _ s hs

/-- Positions that no round has reached are not submitted. -/
theorem Rounds.about_ge (h : Rounds fails k p log) (hq : p ≤ q) : about q log = [] := by
  induction h with
  | start => rfl
  | round _ htiles hlt ih =>
    rw [about_append, ih (by omega), about_outside htiles (Or.inr hq), List.append_nil]

/-- The last round settles every position. -/
theorem Rounds.about_lt (h : Rounds fails k p log) (hq : q < p) :
    ∃ rest subs, about q log = rest ++ subs ∧ Settled q subs := by
  cases h with
  | start => exact absurd hq (Nat.not_lt_zero _)
  | round _ htiles _ =>
    exact ⟨_, _, about_append _ _, about_inside htiles (Nat.zero_le _) hq _⟩

theorem Rounds.last_cases (h : Rounds fails k p log) (hq : q < p) :
    lastFailed log q = some false ∨ lastFailed log q = some true ∧ q ∈ errors log := by
  obtain ⟨rest, subs, habout, hsettled⟩ := h.about_lt hq
  obtain ⟨htrue, hfalse⟩ := hsettled.last log ⟨rest, habout⟩
  rcases hsettled with ⟨first, count⟩ | ⟨first, count, failed⟩
  · exact Or.inl (hfalse.mpr rfl)
  · cases failed with
    | false => exact Or.inl (hfalse.mpr rfl)
    | true =>
      refine Or.inr ⟨htrue.mpr rfl, ?_⟩
      rw [← List.count_pos_iff, count_errors h.single, habout, List.countP_append]
      exact Nat.lt_of_lt_of_le Nat.zero_lt_one (Nat.le_add_left _ _)

/-- The positions that did not arrive. -/
def missing (log : List Submission) (n : Nat) : List Nat :=
  (List.range n).filter fun p => ¬ lastFailed log p = some false

theorem arrived_add_missing (log : List Submission) (n : Nat) :
    arrived log n + (missing log n).length = n := by
  have hsplit := List.length_eq_length_filter_add (l := List.range n)
    fun p => decide (lastFailed log p = some false)
  rw [List.length_range] at hsplit
  unfold arrived missing
  simp only [decide_not]
  exact hsplit.symm

theorem missing_nodup (log : List Submission) (n : Nat) : (missing log n).Nodup :=
  List.nodup_range.filter _

theorem Rounds.mem_missing (h : Rounds fails k p log) (hq : q ∈ missing log p) :
    lastFailed log q = some true ∧ q ∈ errors log := by
  obtain ⟨hlt, hne⟩ := List.mem_filter.mp hq
  simp only [decide_not, Bool.not_eq_true', decide_eq_false_iff_not] at hne
  exact (h.last_cases (List.mem_range.mp hlt)).resolve_left hne

/-- Positions beyond those submitted do not arrive. -/
theorem Rounds.arrived_eq (h : Rounds fails k p log) {n : Nat} (hn : p ≤ n) :
    arrived log n = arrived log p := by
  obtain ⟨more, rfl⟩ := Nat.exists_eq_add_of_le hn
  have hbeyond : ((List.range more).map fun q => p + q).filter
      (fun q => decide (lastFailed log q = some false)) = [] := by
    rw [List.filter_eq_nil_iff]
    intro q hq
    obtain ⟨r, _, rfl⟩ := List.mem_map.mp hq
    rw [lastFailed, h.about_ge (Nat.le_add_right _ _)]
    simp
  unfold arrived
  rw [List.range_add, List.filter_append, hbeyond, List.append_nil]

theorem arrived_le (log : List Submission) (n : Nat) : arrived log n ≤ n := by
  have hsplit := arrived_add_missing log n
  omega

/-- Every position that did not arrive is counted. -/
theorem Rounds.le (h : Rounds fails k p log) : p ≤ arrived log p + (errors log).length := by
  have hsub : missing log p ⊆ errors log := fun q hq => (h.mem_missing hq).2
  have hle := ((missing_nodup log p).subperm hsub).length_le
  have hsplit := arrived_add_missing log p
  omega

/-- A position that is counted and arrived makes a difference. -/
theorem Rounds.lt (h : Rounds fails k p log) (harrived : lastFailed log q = some false)
    (herror : q ∈ errors log) : p < arrived log p + (errors log).length := by
  have hq : q ∉ missing log p := by
    intro hq
    rw [(h.mem_missing hq).1] at harrived
    simp at harrived
  have hsub : q :: missing log p ⊆ errors log := by
    intro r hr
    rcases List.mem_cons.mp hr with rfl | hr
    · exact herror
    · exact (h.mem_missing hr).2
  have hle := ((List.nodup_cons.mpr ⟨hq, missing_nodup log p⟩).subperm hsub).length_le
  have hsplit := arrived_add_missing log p
  rw [List.length_cons] at hle
  omega

/-- **One round at most**: the errors are the positions that did not arrive. -/
theorem Rounds.exact (h : Rounds fails k p log) (hk : k ≤ 1) :
    p = arrived log p + (errors log).length ∧ (errors log).Nodup ∧ NoneAgain log := by
  -- a position is submitted by the one round, if at all
  have habout : ∀ q, about q log = [] ∨ q < p ∧ Settled q (about q log) := by
    intro q
    by_cases hq : q < p
    · cases h with
      | start => exact absurd hq (Nat.not_lt_zero _)
      | round hnone htiles hlt =>
        cases hnone with
        | start => exact Or.inr ⟨hq, about_inside htiles (Nat.zero_le _) hq _⟩
        | round _ _ _ => omega
    · exact Or.inl (h.about_ge (Nat.le_of_not_lt hq))
  have hcount : ∀ q, (errors log).count q ≤ 1 := by
    intro q
    rw [count_errors h.single]
    rcases habout q with hnone | ⟨_, hsettled⟩
    · rw [hnone]
      exact Nat.zero_le _
    · exact hsettled.counted_le
  have hnodup : (errors log).Nodup := List.nodup_iff_count_le_one.mpr hcount
  have hsub : errors log ⊆ missing log p := by
    intro q hq
    have hpos := List.count_pos_iff.mpr hq
    rw [count_errors h.single] at hpos
    rcases habout q with hnone | ⟨hlt, hsettled⟩
    · rw [hnone] at hpos
      exact absurd hpos (Nat.lt_irrefl 0)
    · have hlast := (hsettled.last log ⟨[], rfl⟩).2
      refine List.mem_filter.mpr ⟨List.mem_range.mpr hlt, ?_⟩
      simp only [decide_not, Bool.not_eq_true', decide_eq_false_iff_not, hlast]
      omega
  refine ⟨?_, hnodup, fun q => ?_⟩
  · have hle := (hnodup.subperm hsub).length_le
    have hge := h.le
    have hsplit := arrived_add_missing log p
    omega
  · rcases habout q with hnone | ⟨_, hsettled⟩
    · rw [hnone]
      exact List.Pairwise.nil
    · exact hsettled.noneAgain

theorem Rounds.pos (h : Rounds fails k p log) (hk : 0 < k) : 0 < p := by
  cases h with
  | start => exact absurd hk (Nat.lt_irrefl 0)
  | round _ _ hlt => omega

/-- A position with an error is counted. -/
theorem mem_errors {log : List Submission} (h : ∀ s ∈ log, s.retry = true → s.count = 1)
    (hpos : 0 < (about q log).countP Submission.error) : q ∈ errors log := by
  rw [← List.count_pos_iff, count_errors h]
  exact hpos

/-- **Two rounds or more**: the first position is submitted again although it arrived, is
counted twice, or is counted although it arrived. -/
theorem Rounds.twice (h : Rounds fails k p log) (hk : 2 ≤ k) (hnone : NoneAgain log)
    (hnodup : (errors log).Nodup) : p < arrived log p + (errors log).length := by
  have hp := h.pos (by omega)
  have hall := h
  cases h with
  | start => omega
  | round hprev htiles hlt =>
    rename_i n prev batches
    obtain ⟨rest, subs, hfirst, hsettled⟩ := hprev.about_lt (hprev.pos (by omega))
    have hlater : Settled 0 (about 0 (submit fails batches n)) :=
      about_inside htiles (Nat.zero_le _) hp n
    have hagain := hnone 0
    rw [about_append, hfirst] at hagain
    obtain ⟨s, hs⟩ := hlater.mem
    -- what is submitted again has failed, so the first rounds have counted it
    have hcounted : subs.countP Submission.error = 1 := by
      refine hsettled.arrived_or_counted.resolve_left ?_
      rintro ⟨t, ht, hok⟩
      have hfailed := (List.pairwise_append.mp hagain).2.2 t (List.mem_append_right _ ht) s hs
      rw [hok] at hfailed
      exact Bool.false_ne_true hfailed
    have hearly : 0 ∈ errors prev := by
      refine mem_errors hprev.single ?_
      rw [hfirst, List.countP_append, hcounted]
      exact Nat.succ_pos _
    obtain ⟨_, hfalse⟩ := hlater.last (prev ++ submit fails batches n) ⟨_, about_append _ _⟩
    rcases Nat.eq_zero_or_pos ((about 0 (submit fails batches n)).countP Submission.error)
      with hzero | hpos
    · refine hall.lt (hfalse.mpr hzero) ?_
      rw [errors_append]
      exact List.mem_append_left _ hearly
    · rw [errors_append] at hnodup
      exact absurd rfl
        ((List.nodup_append.mp hnodup).2.2 0 hearly 0 (mem_errors (submit_single _ _) hpos))

end

end Ambix.Lib.Batch
