import Ambix.Logic.HandOwner
import Ambix.Logic.Origin

/-!
# Which entries a request resets

A walk commits one entry for each page it examines and its policy resets. Which pages
it examines is a matter of the page tables, the hand and the count; `Resets` collects
that for all modes of a FIND, and `find_commits_iff` says the commits of the request
are those.
-/

namespace Ambix.Hyb

open Ambix.Lib Ambix.Lib.QuotaScan

/-! ## Walks -/

/-- The pages a walk with count `n` examines: up to the quota, or the first stretch. -/
def Sys.examinedBy {P : Platform} (π : Policy P) (n : Int) (σ : Sys) : List Exam :=
  if 0 ≤ n then σ.swept π n.toNat else σ.firstStretch π.tier

/-- The commits so far are the resets among the entries examined after `before`. -/
def Recorded {P : Platform} (π : Policy P) (before : List (TaskPtr × Nat × Pte)) (m : Mod) : Prop :=
  ∃ xs, m.examinations = before ++ xs ∧ ∀ t a old new, Event.commit t a old new ∈ m.trace ↔
    (t, a, old) ∈ xs ∧ π.resets old = true ∧ new = modifyProt old

section

variable {P : Platform} {π : Policy P} {before : List (TaskPtr × Nat × Pte)} {m : Mod}

theorem Recorded.same {m' : Mod} (h : Recorded π before m) (hexam : m'.examinations = m.examinations)
    (htrace : ∀ t a old new, Event.commit t a old new ∈ m'.trace ↔
      Event.commit t a old new ∈ m.trace) : Recorded π before m' := by
  obtain ⟨xs, hxs, hcommit⟩ := h
  exact ⟨xs, hexam.trans hxs, fun t a old new => (htrace t a old new).trans (hcommit t a old new)⟩

/-- The start of a walk. -/
theorem Recorded.start (h : ∀ t a old new, Event.commit t a old new ∉ m.trace) :
    Recorded π m.examinations m :=
  ⟨[], (List.append_nil _).symm, fun t a old new => iff_of_false (h t a old new) (by simp)⟩

theorem note_commits (addr : Nat) (p : Pte) (m : Mod) (t : TaskPtr) (a : Nat) (old new : Pte) :
    Event.commit t a old new ∈ (π.note addr p m).trace ↔ Event.commit t a old new ∈ m.trace := by
  unfold Policy.note
  split
  · simp [Mod.pushFound]
  · split
    · cases π.spare <;> simp [Mod.pushSpare]
    · exact Iff.rfl
  · exact Iff.rfl

/-- What one call commits. -/
theorem invoke_commits (t : TaskPtr) (e : PageEntry) (m : Mod) (t' : TaskPtr) (a : Nat)
    (old new : Pte) :
    Event.commit t' a old new ∈ (invoke π.callback t e m).mod.trace ↔
      Event.commit t' a old new ∈ m.trace ∨ ((m.nFound : Int) ≠ m.nToFind ∧
        (t', a, old) = (t, e.addr, e.pte) ∧ π.resets old = true ∧ new = modifyProt old) := by
  by_cases hq : (m.nFound : Int) = m.nToFind
  · have hfull : ((m.log (.visit t e.addr e.pte m.counters)).nFound : Int) =
        (m.log (.visit t e.addr e.pte m.counters)).nToFind := hq
    unfold invoke
    rw [π.callback_full hfull]
    simp only [CbResult.full, hq, ne_eq, not_true_eq_false, false_and, or_false]
    cases π.tier <;> simp [Mod.setLastAddr, Mod.log]
  · have hopen : ((m.log (.visit t e.addr e.pte m.counters)).nFound : Int) ≠
        (m.log (.visit t e.addr e.pte m.counters)).nToFind := hq
    have hnote := note_commits (π := π) e.addr e.pte (m.log (.visit t e.addr e.pte m.counters))
      t' a old new
    have hlog : Event.commit t' a old new ∈ (m.log (.visit t e.addr e.pte m.counters)).trace ↔
        Event.commit t' a old new ∈ m.trace := by simp [Mod.log]
    unfold invoke
    rw [π.callback_open hopen]
    simp only
    -- the callback commits the entry exactly when its policy resets it
    cases hresets : π.resets e.pte with
    | false =>
      have hnone : π.commit e.pte = none := by simp [Policy.commit, hresets]
      simp only [hnone]
      rw [hnote, hlog]
      refine ⟨Or.inl, fun h => h.resolve_right ?_⟩
      rintro ⟨_, heq, hr, _⟩
      simp only [Prod.mk.injEq] at heq
      rw [heq.2.2, hresets] at hr
      exact Bool.false_ne_true hr
    | true =>
      have hsome : π.commit e.pte = some (modifyProt e.pte) := by simp [Policy.commit, hresets]
      simp only [hsome]
      show Event.commit t' a old new ∈ Event.commit t e.addr e.pte (modifyProt e.pte) :: _ ↔ _
      rw [List.mem_cons, hnote, hlog]
      constructor
      · rintro (heq | hmem)
        · simp only [Event.commit.injEq] at heq
          obtain ⟨rfl, rfl, rfl, rfl⟩ := heq
          exact Or.inr ⟨hq, rfl, hresets, rfl⟩
        · exact Or.inl hmem
      · rintro (hmem | ⟨_, heq, _, rfl⟩)
        · exact Or.inr hmem
        · simp only [Prod.mk.injEq] at heq
          obtain ⟨rfl, rfl, rfl⟩ := heq
          exact Or.inl rfl

theorem recorded_rule (k : Kernel) (m₀ : Mod) :
    WalkRule k m₀ π.callback (Recorded π before) fun _ _ => True where
  quiet := π.quiet
  pid m p h := h.same rfl fun _ _ _ _ => Iff.rfl
  call := by
    rintro i _ e m _ _ _ ⟨xs, hxs, hcommit⟩
    refine ⟨?_, trivial⟩
    by_cases hq : (m.nFound : Int) = m.nToFind
    · refine Recorded.same ⟨xs, hxs, hcommit⟩ ?_ fun t a old new => ?_
      · have hswept := (invoke_full_swept (π := π) hq (m₀.taskItems i) e).log
        simpa using hswept
      · rw [invoke_commits]
        simp [hq]
    · have hswept := (invoke_open_swept (π := π) hq (m₀.taskItems i) e).log
      refine ⟨xs ++ [(m₀.taskItems i, e.addr, e.pte)], ?_, fun t a old new => ?_⟩
      · rw [hswept, hxs, List.append_assoc]
        rfl
      · rw [invoke_commits, hcommit, List.mem_append, List.mem_singleton]
        constructor
        · rintro (⟨h1, h2⟩ | ⟨_, h1, h2⟩)
          · exact ⟨Or.inl h1, h2⟩
          · exact ⟨Or.inr h1, h2⟩
        · rintro ⟨h1 | h1, h2⟩
          · exact Or.inl ⟨h1, h2⟩
          · exact Or.inr ⟨hq, h1, h2⟩

/-- The examinations of a walk with any count. -/
theorem walkTier_examinations {b : Nat} {n : Int} {σ : Sys} (h : Filled π b Pick.empty σ.mod)
    (hsmall : 0 ≤ n → b + n ≤ maxNFind) (hq : σ.mod.nToFind = b + n) :
    (walkTier π.callback π.tier σ).mod.examinations =
      σ.mod.examinations ++ (σ.examinedBy π n).map Exam.seen := by
  unfold Sys.examinedBy
  split
  · rename_i hn
    have hstart : Tracks π b n.toNat Pick.empty σ.mod :=
      ⟨h, by have := hsmall hn; omega, by omega, Nat.zero_le _⟩
    exact (walkTier_swept hstart).2.log
  · exact (walkTier_first (by omega) h hq).2.1.log

/-- **The commits of a walk.** -/
theorem walkTier_commits {b : Nat} {n : Int} {σ : Sys} (h : Filled π b Pick.empty σ.mod)
    (hsmall : 0 ≤ n → b + n ≤ maxNFind) (hq : σ.mod.nToFind = b + n)
    (hlast : σ.mod.lastPid π.tier < σ.mod.nPids)
    (hnone : ∀ t a old new, Event.commit t a old new ∉ σ.mod.trace) (t : TaskPtr) (a : Nat)
    (old new : Pte) :
    Event.commit t a old new ∈ (walkTier π.callback π.tier σ).mod.trace ↔
      (∃ x ∈ σ.examinedBy π n, x.seen = (t, a, old)) ∧ π.resets old = true ∧
        new = modifyProt old := by
  have hrec : Recorded π σ.mod.examinations (walkTier π.callback π.tier σ).mod := by
    refine walkTier_holds (recorded_rule σ.kernel σ.mod) hlast (fun m i hm => ?_) (.start hnone)
    cases π.tier <;> exact hm.same rfl fun _ _ _ _ => Iff.rfl
  obtain ⟨xs, hxs, hcommit⟩ := hrec
  rw [walkTier_examinations h hsmall hq, List.append_cancel_left_eq] at hxs
  rw [hcommit, ← hxs, List.mem_map]

end

/-! ## `clear_walk` -/

/-- What `clear_walk` resets: the NVRAM pages of the processes it comes to, before the
first one whose `mm` is `NULL`. -/
def Sys.cleared (P : Platform) (σ : Sys) (t : TaskPtr) (a : Nat) (p : Pte) : Prop :=
  t ∈ σ.mod.tasks.takeWhile (fun t => (σ.mm t).isSome) ∧
    ∃ mm, σ.mm t = some mm ∧ ⟨a, p⟩ ∈ mm.ptes ∧ offTier P .nvram p = false

section

variable {P : Platform}

/-- The clear callback never stops a walk. -/
theorem clear_ret (t : TaskPtr) (e : PageEntry) (m : Mod) :
    (invoke (pteCallbackNvramClear P) t e m).ret = 0 := by
  unfold invoke pteCallbackNvramClear
  simp only
  cases offTier P .nvram e.pte <;> rfl

theorem clear_commits (t : TaskPtr) (e : PageEntry) (m : Mod) (t' : TaskPtr) (a : Nat)
    (old new : Pte) :
    Event.commit t' a old new ∈ (invoke (pteCallbackNvramClear P) t e m).mod.trace ↔
      Event.commit t' a old new ∈ m.trace ∨ (t' = t ∧ e = ⟨a, old⟩ ∧
        offTier P .nvram old = false ∧ new = modifyProt old) := by
  unfold invoke pteCallbackNvramClear
  simp only
  cases hoff : offTier P .nvram e.pte with
  | true =>
    simp only [if_true, CbResult.pass, Mod.log, List.mem_cons, reduceCtorEq, false_or]
    refine ⟨Or.inl, fun h => h.resolve_right ?_⟩
    rintro ⟨_, rfl, hoff', _⟩
    rw [hoff] at hoff'
    exact Bool.false_ne_true hoff'.symm
  | false =>
    simp only [Bool.false_eq_true, if_false, Mod.log, List.mem_cons, reduceCtorEq, false_or,
      Event.commit.injEq]
    constructor
    · rintro (⟨rfl, rfl, rfl, rfl⟩ | hmem)
      · exact Or.inr ⟨rfl, rfl, hoff, rfl⟩
      · exact Or.inl hmem
    · rintro (hmem | ⟨rfl, rfl, _, rfl⟩)
      · exact Or.inr hmem
      · exact Or.inl ⟨rfl, rfl, rfl, rfl⟩

theorem walkPtes_clear (t : TaskPtr) (start stop : Nat) (es : List PageEntry) (m : Mod)
    (t' : TaskPtr) (a : Nat) (old new : Pte) :
    Event.commit t' a old new ∈ (walkPtes (pteCallbackNvramClear P) t start stop es m).1.trace ↔
      Event.commit t' a old new ∈ m.trace ∨ (t' = t ∧ (start ≤ a ∧ a < stop) ∧ ⟨a, old⟩ ∈ es ∧
        offTier P .nvram old = false ∧ new = modifyProt old) := by
  induction es generalizing m with
  | nil => simp [walkPtes]
  | cons e es ih =>
    unfold walkPtes
    by_cases hin : start ≤ e.addr ∧ e.addr < stop
    · simp only [if_pos hin, clear_ret, ne_eq, not_true_eq_false, if_false]
      rw [ih, clear_commits, List.mem_cons]
      constructor
      · rintro ((hmem | ⟨rfl, rfl, h⟩) | ⟨ht, hr, hmem, h⟩)
        · exact Or.inl hmem
        · exact Or.inr ⟨rfl, hin, Or.inl rfl, h⟩
        · exact Or.inr ⟨ht, hr, Or.inr hmem, h⟩
      · rintro (hmem | ⟨ht, hr, rfl | hmem, h⟩)
        · exact Or.inl (Or.inl hmem)
        · exact Or.inl (Or.inr ⟨ht, rfl, h⟩)
        · exact Or.inr ⟨ht, hr, hmem, h⟩
    · simp only [if_neg hin]
      rw [ih, List.mem_cons]
      constructor
      · rintro (hmem | ⟨ht, hr, hmem, h⟩)
        · exact Or.inl hmem
        · exact Or.inr ⟨ht, hr, Or.inr hmem, h⟩
      · rintro (hmem | ⟨ht, hr, rfl | hmem, h⟩)
        · exact Or.inl hmem
        · exact absurd hr hin
        · exact Or.inr ⟨ht, hr, hmem, h⟩

/-- The commits of the walk of one process: every page it has is below `MAX_ADDRESS`. -/
theorem walkTask_clear {i : Nat} {σ : Sys} {mm : MmStruct}
    (hmm : σ.mm (σ.mod.taskItems i) = some mm) (t : TaskPtr) (a : Nat) (old new : Pte) :
    Event.commit t a old new ∈
        (walkTask (pteCallbackNvramClear P) i 0 maxAddress σ).mod.trace ↔
      Event.commit t a old new ∈ σ.mod.trace ∨ (t = σ.mod.taskItems i ∧ ⟨a, old⟩ ∈ mm.ptes ∧
        offTier P .nvram old = false ∧ new = modifyProt old) := by
  unfold walkTask
  simp only [hmm]
  refine (walkPtes_clear _ _ _ _ _ t a old new).trans (or_congr_right ?_)
  refine and_congr_right fun _ => ⟨fun h => h.2, fun h => ⟨⟨Nat.zero_le a, ?_⟩, h⟩⟩
  exact mm.user _ (List.mem_map_of_mem h.1)

/-- `clear_walk` comes back exactly when every process has an address space. -/
theorem clearTasks_back (is : List Nat) (σ : Sys) :
    (clearTasks P is σ).2 = true ↔ ∀ i ∈ is, (σ.mm (σ.mod.taskItems i)).isSome = true := by
  induction is generalizing σ with
  | nil => simp [clearTasks]
  | cons i is ih =>
    unfold clearTasks
    cases hmm : σ.mm (σ.mod.taskItems i) with
    | none => simp [hmm]
    | some mm =>
      simp only
      have hsome : ∀ t, ((walkTask (pteCallbackNvramClear P) i 0 maxAddress σ).mm t).isSome =
          (σ.mm t).isSome := by
        intro t
        rw [Bool.eq_iff_iff, Option.isSome_iff_ne_none, Option.isSome_iff_ne_none]
        exact not_congr walkTask_mm_none
      rw [ih, List.forall_mem_cons, hmm, and_iff_right (by rfl)]
      simp only [hsome, (walkTask_fixed (clear_quiet P) i 0 maxAddress σ).taskItems]

theorem takeWhile_congr {α : Type*} {p q : α → Bool} {xs : List α} (h : ∀ x ∈ xs, p x = q x) :
    xs.takeWhile p = xs.takeWhile q := by
  induction xs with
  | nil => rfl
  | cons x xs ih =>
    rw [List.takeWhile_cons, List.takeWhile_cons, h x List.mem_cons_self,
      ih fun y hy => h y (List.mem_cons_of_mem _ hy)]

/-- **The commits of `clear_walk`.** -/
theorem clearTasks_commits {is : List Nat} {σ : Sys} (hdistinct : (is.map σ.mod.taskItems).Nodup)
    (t : TaskPtr) (a : Nat) (old new : Pte) :
    Event.commit t a old new ∈ (clearTasks P is σ).1.mod.trace ↔
      Event.commit t a old new ∈ σ.mod.trace ∨
        (t ∈ (is.map σ.mod.taskItems).takeWhile (fun t => (σ.mm t).isSome) ∧
          (∃ mm, σ.mm t = some mm ∧ ⟨a, old⟩ ∈ mm.ptes ∧ offTier P .nvram old = false) ∧
            new = modifyProt old) := by
  induction is generalizing σ with
  | nil => simp [clearTasks]
  | cons i is ih =>
    rw [List.map_cons, List.nodup_cons] at hdistinct
    unfold clearTasks
    cases hmm : σ.mm (σ.mod.taskItems i) with
    | none => simp [hmm]
    | some mm =>
      simp only
      have hitems := (walkTask_fixed (clear_quiet P) i 0 maxAddress σ).taskItems
      -- the walk of this process leaves the tables of the others alone
      have hother : ∀ t, t ≠ σ.mod.taskItems i →
          (walkTask (pteCallbackNvramClear P) i 0 maxAddress σ).mm t = σ.mm t :=
        fun t ht => walkTask_mm_ne ht
      rw [ih (by rw [hitems]; exact hdistinct.2), walkTask_clear hmm, hitems, List.map_cons,
        List.takeWhile_cons_of_pos (by rw [hmm]; rfl), List.mem_cons]
      have hwhile : (is.map σ.mod.taskItems).takeWhile
          (fun t => ((walkTask (pteCallbackNvramClear P) i 0 maxAddress σ).mm t).isSome) =
            (is.map σ.mod.taskItems).takeWhile fun t => (σ.mm t).isSome := by
        refine takeWhile_congr fun t ht => ?_
        rw [hother t fun heq => hdistinct.1 (heq ▸ ht)]
      rw [hwhile]
      constructor
      · rintro ((hmem | ⟨rfl, hp, hoff, hnew⟩) | ⟨ht, ⟨mm', hmm', hp⟩, hnew⟩)
        · exact Or.inl hmem
        · exact Or.inr ⟨Or.inl rfl, ⟨mm, hmm, hp, hoff⟩, hnew⟩
        · have hne : t ≠ σ.mod.taskItems i := fun heq =>
            hdistinct.1 (heq ▸ (List.takeWhile_prefix _).subset ht)
          exact Or.inr ⟨Or.inr ht, ⟨mm', (hother t hne) ▸ hmm', hp⟩, hnew⟩
      · rintro (hmem | ⟨rfl | ht, ⟨mm', hmm', hp⟩, hnew⟩)
        · exact Or.inl (Or.inl hmem)
        · obtain rfl : mm = mm' := Option.some.inj (hmm.symm.trans hmm')
          exact Or.inl (Or.inr ⟨rfl, hp.1, hp.2, hnew⟩)
        · have hne : t ≠ σ.mod.taskItems i := fun heq =>
            hdistinct.1 (heq ▸ (List.takeWhile_prefix _).subset ht)
          exact Or.inr ⟨ht, ⟨mm', (hother t hne).trans hmm', hp⟩, hnew⟩

end

/-! ## Requests -/

/-- The pages the DRAM walk of a switch with count `n` examines. With a negative count
there is such a walk only if the NVRAM walk took something. -/
def Sys.switchExamined (P : Platform) (n : Int) (σ : Sys) : List Exam :=
  if 0 ≤ n then σ.swept (memPolicy P) (min n.toNat
    (σ.visitsPrimary (nvramSwitchPolicy P) + σ.visitsEligible (nvramSwitchPolicy P)))
  else if primaries (nvramSwitchPolicy P).classOf (σ.firstStretch .nvram) = [] then []
  else σ.firstStretch .dram

/-- The request resets the page of `t` at `a`, and finds it as `p`. -/
def Resets (P : Platform) (req : Req) (σ : Sys) (t : TaskPtr) (a : Nat) (p : Pte) : Prop :=
  0 < σ.mod.nPids ∧ ∃ mode, FindMode.ofCode req.mode = some mode ∧
    match memWalkPolicy P mode with
    | some π => (∃ x ∈ σ.examinedBy π (intMin maxNFind req.pidN.toInt), x.seen = (t, a, p)) ∧
      π.resets p = true
    | none =>
      if mode = .switch then
        (∃ x ∈ σ.switchExamined P (intMin maxNSwitch req.pidN.toInt), x.seen = (t, a, p)) ∧
          (memPolicy P).resets p = true
      else σ.cleared P t a p

section

variable {P : Platform} {σ : Sys}

/-- Writes to `found_addrs` are no commits. -/
theorem Wrote.commits {lim : Nat} {m m' : Mod} (h : Wrote lim m m') (t : TaskPtr) (a : Nat)
    (old new : Pte) : Event.commit t a old new ∈ m'.trace ↔ Event.commit t a old new ∈ m.trace := by
  obtain ⟨evs, htrace, hevs⟩ := h.trace
  rw [htrace, List.mem_append]
  refine ⟨fun h => h.resolve_left fun hmem => ?_, Or.inr⟩
  obtain ⟨i, _, heq⟩ := hevs _ hmem
  exact absurd heq (by simp)

theorem memWalk_commits {mode : FindMode} {π : Policy P} (hπ : memWalkPolicy P mode = some π)
    {n : Int} (hmax : n ≤ maxNFind) (hfound : σ.mod.nFound = 0) (htrace : σ.mod.trace = [])
    (hlast : ∀ tier, σ.mod.lastPid tier < σ.mod.nPids) (t : TaskPtr) (a : Nat) (old new : Pte) :
    Event.commit t a old new ∈ (memWalk P n mode σ).1.mod.trace ↔
      (∃ x ∈ σ.examinedBy π n, x.seen = (t, a, old)) ∧ π.resets old = true ∧
        new = modifyProt old := by
  obtain ⟨c, _, hwalk⟩ := memWalk_walk hπ n σ
  have hspare := (memWalkPolicy_ops hπ).2
  have hs₀ : SameHands σ.mod (σ.mod.setQuota .backup n) := .setQuota _ _ _
  have hexam : Sys.examinedBy π n { σ with mod := σ.mod.setQuota .backup n } =
      σ.examinedBy π n := by
    have hvisits : tierVisits π { σ with mod := σ.mod.setQuota .backup n } = tierVisits π σ :=
      tierVisits_congr π rfl rfl rfl rfl (hs₀.lastPid _) (hs₀.lastAddr _)
    unfold Sys.examinedBy Sys.swept Sys.firstStretch
    rw [hvisits]
    simp only [hs₀.lastPid, hs₀.lastAddr, hs₀.taskItems]
  rw [hwalk]
  simp only
  rw [(Wrote.appendFound (Nat.le_refl _)).commits,
    walkTier_commits (π := π) (σ := { σ with mod := σ.mod.setQuota .backup n }) (b := 0) (n := n)
      (.start hfound (by rw [hspare]; rfl)) (fun _ => by omega) (by simp [Mod.setQuota])
      (by rw [hs₀.lastPid, hs₀.nPids]; exact hlast _)
      (by simp [Mod.setQuota, htrace]), hexam]

/-- The NVRAM walk of a switch resets nothing. -/
theorem nvramWalk_commits {n : Int} (hmax : n ≤ maxNSwitch) (hfound : σ.mod.nFound = 0)
    (htrace : σ.mod.trace = []) (hlast : ∀ tier, σ.mod.lastPid tier < σ.mod.nPids) (t : TaskPtr)
    (a : Nat) (old new : Pte) :
    Event.commit t a old new ∉ (walkTier (nvramSwitchPolicy P).callback .nvram
      { σ with mod := σ.mod.setQuota .switchBackup n }).mod.trace := by
  have hmaxS := maxNSwitch_eq
  have hmaxF := maxNFind_eq
  intro hc
  have := (walkTier_commits (π := nvramSwitchPolicy P)
    (σ := { σ with mod := σ.mod.setQuota .switchBackup n }) (b := 0) (n := n)
    (.start hfound rfl) (fun _ => by omega) (by simp [Mod.setQuota]) (hlast .nvram)
    (by simp [Mod.setQuota, htrace]) t a old new).mp hc
  exact absurd this.2.1 (by simp [nvramSwitchPolicy, nvramReadPolicy])

/-- What the NVRAM walk of a switch has taken with a negative count. -/
def TookPrimaries (P : Platform) (σ σ₁ : Sys) : Prop :=
  ∃ N, Filled (nvramSwitchPolicy P) 0 N σ₁.mod ∧
    N.found = primaries (nvramSwitchPolicy P).classOf (σ.firstStretch .nvram) ∧
    (N.found = [] → N.spare = [])

theorem nvramWalk_took {n : Int} (hn : -2147483648 ≤ n) (hneg : n < 0) (hfound : σ.mod.nFound = 0)
    (htrace : σ.mod.trace = []) (hlast : ∀ tier, σ.mod.lastPid tier < σ.mod.nPids) :
    TookPrimaries P σ (walkTier (nvramSwitchPolicy P).callback .nvram
      { σ with mod := σ.mod.setQuota .switchBackup n }) := by
  obtain ⟨hN, _⟩ := nvramOver (P := P) hneg hfound htrace hlast
  have hNf := over_found (v := (nvramSwitchPolicy P).classOf) (n := n) (σ.firstStretch .nvram)
    Pick.empty
  rw [Pick.empty, List.nil_append] at hNf
  exact ⟨_, hN, hNf, fun hc => over_spare_nil hn hneg (hNf ▸ hc)⟩

/-- A switch whose NVRAM walk took nothing examines no DRAM page. -/
theorem switchExamined_nothing {n : Int} {σ₁ : Sys} (hmid : MidWalk P n σ σ₁)
    (htook : n < 0 → TookPrimaries P σ σ₁)
    (hzero : σ₁.mod.nFound = 0 ∧ σ₁.mod.nSwitchBackup = 0) : σ.switchExamined P n = [] := by
  unfold Sys.switchExamined
  split
  · rename_i hn₀
    rw [← (hmid.quota hn₀).2, hzero.1, hzero.2]
    simp only [Nat.zero_add, Nat.zero_min]
    exact examined_zero _ _
  · rename_i hneg
    obtain ⟨N, hN, hNf, _⟩ := htook (by omega)
    have hv : N.found.length = 0 := by
      have := hN.nFound
      omega
    rw [if_pos (hNf ▸ List.length_eq_zero_iff.mp hv)]

/-- What the NVRAM walk found makes the DRAM walk's count and its pages. -/
theorem switchExamined_dram {n : Int} {σ₁ : Sys} (hmid : MidWalk P n σ σ₁)
    (htook : n < 0 → TookPrimaries P σ σ₁)
    (hsome : ¬ (σ₁.mod.nFound = 0 ∧ σ₁.mod.nSwitchBackup = 0)) :
    (switchMid n σ₁).examinedBy (memPolicy P)
      (intMin ((σ₁.mod.nFound : Int) + (σ₁.mod.nSwitchBackup : Int)) n) = σ.switchExamined P n := by
  have hmin : intMin ((σ₁.mod.nFound : Int) + (σ₁.mod.nSwitchBackup : Int)) n =
      min ((σ₁.mod.nFound : Int) + (σ₁.mod.nSwitchBackup : Int)) n := intMin_eq_min _ _
  unfold Sys.examinedBy Sys.switchExamined
  by_cases hn₀ : 0 ≤ n
  · rw [if_pos hn₀, if_pos (by omega), Sys.swept, hmid.ready.visits, ← Sys.swept,
      ← (hmid.quota hn₀).2]
    congr 1
    omega
  · obtain ⟨N, hN, hNf, hNs⟩ := htook (by omega)
    have hne : primaries (nvramSwitchPolicy P).classOf (σ.firstStretch .nvram) ≠ [] := by
      rw [← hNf]
      intro hc
      have hv := hN.nFound
      have hsb : σ₁.mod.nSwitchBackup = N.spare.length := hN.nSpare
      rw [hc] at hv
      rw [hNs hc] at hsb
      exact hsome ⟨by simpa using hv, by simpa using hsb⟩
    rw [if_neg hn₀, if_neg (by omega), if_neg hne]
    exact hmid.ready.firstStretch

/-- **The commits of `switch_walk`** are those of its DRAM walk. -/
theorem switchWalk_commits (h : Registered σ) (hpos : 0 < σ.mod.nPids)
    {n : Int} (hn : -2147483648 ≤ n) (hmax : n ≤ maxNSwitch) (hfound : σ.mod.nFound = 0)
    (htrace : σ.mod.trace = []) (t : TaskPtr) (a : Nat) (old new : Pte) :
    Event.commit t a old new ∈ (switchWalk P n σ).1.mod.trace ↔
      (∃ x ∈ σ.switchExamined P n, x.seen = (t, a, old)) ∧ (memPolicy P).resets old = true ∧
        new = modifyProt old := by
  have hlast := h.lastPid_lt hpos
  have hmid := midWalk (P := P) h hpos hfound hmax
  have hnone := nvramWalk_commits (P := P) hmax hfound htrace hlast
  have htook : n < 0 → _ := fun hneg => nvramWalk_took (P := P) hn hneg hfound htrace hlast
  rw [switchWalk_phases]
  generalize walkTier (nvramSwitchPolicy P).callback .nvram
    { σ with mod := σ.mod.setQuota .switchBackup n } = σ₁ at hmid hnone htook
  simp only
  split
  · rename_i hzero
    have hwrote : Wrote (σ₁.mod.nFound + 1) σ₁.mod
        ((σ₁.mod.setFoundPid σ₁.mod.nFound 0).setNFound (σ₁.mod.nFound + 1)) :=
      (Wrote.setFoundPid (Nat.lt_succ_self _) 0 _).trans (.setNFound _ _ _)
    rw [hwrote.commits, switchExamined_nothing hmid htook hzero]
    exact iff_of_false (hnone t a old new) (by simp)
  · rename_i hsome
    -- the separator between the walks is a store, no commit
    have hmidnone : ∀ t a old new, Event.commit t a old new ∉ (switchMid n σ₁).mod.trace := by
      intro t a old new hc
      rcases List.mem_cons.mp hc with heq | hc
      · exact absurd heq (by simp)
      · exact hnone t a old new hc
    have hwalk := walkTier_commits (π := memPolicy P) (σ := switchMid n σ₁)
      (b := σ₁.mod.nFound + 1)
      (n := intMin ((σ₁.mod.nFound : Int) + (σ₁.mod.nSwitchBackup : Int)) n) (.start rfl rfl)
      (hmid.room hmax) rfl
      (hmid.registered.lastPid_lt hmid.pos .dram) hmidnone t a old new
    rw [switchExamined_dram hmid htook hsome] at hwalk
    exact ((dramWalk_wrote (hmid.registered.lastPid_lt hmid.pos .dram)).commits t a old new).trans
      hwalk

theorem processFind_commits {req : Req} (h : Registered σ) (hfound : σ.mod.nFound = 0)
    (htrace : σ.mod.trace = []) (t : TaskPtr) (a : Nat) (old new : Pte) :
    Event.commit t a old new ∈ (processFind P req σ).1.mod.trace ↔
      Resets P req σ t a old ∧ new = modifyProt old := by
  have hnone : Event.commit t a old new ∉ σ.mod.trace := by simp [htrace]
  by_cases hpos : 0 < σ.mod.nPids
  · have hlast := h.lastPid_lt hpos
    cases hmode : FindMode.ofCode req.mode with
    | none =>
      rw [processFind_default hmode]
      exact iff_of_false hnone fun ⟨⟨_, mode, hc, _⟩, _⟩ => by simp [hmode] at hc
    | some mode =>
      -- with the mode known, `Resets` is one arm of its match
      have hresets : ∀ Q : Prop, (Resets P req σ t a old ↔ Q) ↔
          ((match memWalkPolicy P mode with
            | some π => (∃ x ∈ σ.examinedBy π (intMin maxNFind req.pidN.toInt),
                x.seen = (t, a, old)) ∧ π.resets old = true
            | none =>
              if mode = .switch then
                (∃ x ∈ σ.switchExamined P (intMin maxNSwitch req.pidN.toInt),
                  x.seen = (t, a, old)) ∧ (memPolicy P).resets old = true
              else σ.cleared P t a old) ↔ Q) := by
        intro Q
        unfold Resets
        simp only [hpos, true_and, hmode, Option.some.injEq, exists_eq_left']
      rcases memWalkPolicy_cases P mode with ⟨π, hπ⟩ | rfl | rfl
      · rw [processFind_plain hπ hmode hpos,
          memWalk_commits hπ (by rw [intMin_eq_min]; omega) hfound htrace hlast, ← and_assoc]
        refine and_congr_left' (Iff.symm ?_)
        rw [hresets, hπ]
      · have hn : -2147483648 ≤ intMin maxNSwitch req.pidN.toInt := by
          have hle : -2147483648 ≤ req.pidN.toInt := req.pidN.le_toInt
          have hmax := maxNSwitch_eq
          rw [intMin_eq_min]
          omega
        rw [processFind_switch hmode hpos,
          switchWalk_commits h hpos hn (by rw [intMin_eq_min]; omega) hfound htrace, ← and_assoc]
        refine and_congr_left' (Iff.symm ?_)
        rw [hresets]
        rfl
      · have hdistinct : ((List.range σ.mod.nPids).map σ.mod.taskItems).Nodup := by
          rw [← Mod.tasks_eq]
          exact h.distinct.of_map _
        have hclear := clearTasks_commits (P := P) (σ := σ) hdistinct t a old new
        rw [processFind_clear hmode hpos]
        refine hclear.trans ?_
        rw [← Mod.tasks_eq, or_iff_right hnone, ← and_assoc]
        refine and_congr_left' (Iff.symm ?_)
        rw [hresets]
        rfl
  · rw [processFind_empty req hpos]
    exact iff_of_false hnone fun ⟨⟨hc, _⟩, _⟩ => hpos hc

/-- **The commits of a FIND** are the pages it resets. -/
theorem find_commits_iff {req : Req} (h : Registered σ)
    (hop : OpCode.ofCode req.opCode = some .find) (t : TaskPtr) (a : Nat) (old new : Pte) :
    Event.commit t a old new ∈ (processReq P (some req) σ).sys.mod.trace ↔
      Resets P req σ.refreshed t a old ∧ new = modifyProt old := by
  have hbody := processReq_find (P := P) (σ := σ) hop
  obtain ⟨evs, htrace, hevs⟩ := processReq_trace (P := P) (some req) σ
  rw [htrace, List.mem_append, hbody,
    processFind_commits h.refreshed (Sys.refreshed_nFound σ) (Sys.refreshed_trace σ)]
  refine ⟨fun hc => hc.resolve_left fun hmem => ?_, Or.inr⟩
  obtain ⟨i, heq⟩ := hevs _ hmem
  exact absurd heq (by simp)

/-- Other requests walk nothing. -/
theorem otherBody_work {req : Option Req}
    (hop : ∀ r ∈ req, OpCode.ofCode r.opCode ≠ some .find) :
    SameWork σ.begun.mod (processBody P req σ).1.mod := by
  cases req with
  | none => exact .refl _
  | some r =>
    have hne := hop r rfl
    simp only [processBody]
    split
    · exact .refl _
    · rename_i hc
      exact absurd hc hne
    · exact (refreshPids_work _ _).trans (bindPid_work _ _ _)
    · exact (unbindPid_work _ _ _).trans (refreshPids_work _ _)

theorem otherBody_trace {req : Option Req}
    (hop : ∀ r ∈ req, OpCode.ofCode r.opCode ≠ some .find) :
    (processBody P req σ).1.mod.trace = [] :=
  (otherBody_work hop).trace

/-- Other requests commit nothing. -/
theorem other_commits {req : Option Req}
    (hop : ∀ r ∈ req, OpCode.ofCode r.opCode ≠ some .find) (t : TaskPtr) (a : Nat) (old new : Pte) :
    Event.commit t a old new ∉ (processReq P req σ).sys.mod.trace := by
  obtain ⟨evs, htrace, hevs⟩ := processReq_trace (P := P) req σ
  rw [htrace, otherBody_trace hop, List.append_nil]
  intro hmem
  obtain ⟨i, heq⟩ := hevs _ hmem
  exact absurd heq (by simp)

end

end Ambix.Hyb
