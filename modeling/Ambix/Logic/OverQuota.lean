import Ambix.Logic.Hand
import Ambix.Logic.Ranges

/-!
# A walk whose count is below zero

The quota test of a callback is an equality, and `n_found` only grows: a walk that
starts beyond its quota is never stopped inside a stretch. The test between two
stretches is an inequality and stops it after the first one. So it takes every
primary of the hand's process from the hand address on, however many there are.

No backup is taken as long as `n_to_find - n_found` does not wrap; from `lateFrom`
primaries on it does, and then every backup is.
-/

namespace Ambix.Hyb

open Ambix.Lib Ambix.Lib.QuotaScan

/-! ## The scan without a stop -/

/-- A scan with a quota below its start: it never stops, and a backup is taken when
`n_backup < n_to_find - n_found` as C ints. -/
def overScan {α : Type*} (v : α → Verdict) (n : Int) (xs : List α) (st : Pick α) : Pick α :=
  xs.foldl (fun st x => offer v ((st.spare.length : Int) < wrapInt (n - st.found.length)) st x) st

/-- The number of primaries from which `n - n_found` wraps. -/
def lateFrom (n : Int) : Nat := (n + 2147483649).toNat

/-- The backups met after so many primaries. -/
def lateBackups {α : Type*} (v : α → Verdict) (n : Int) (xs : List α) : List α :=
  backups v (unexamined v (lateFrom n) xs)

section

variable {α : Type*} {v : α → Verdict} {n : Int}

theorem over_cons (x : α) (xs : List α) (st : Pick α) :
    overScan v n (x :: xs) st =
      overScan v n xs (offer v ((st.spare.length : Int) < wrapInt (n - st.found.length)) st x) := rfl

/-- What the scan takes it had or is among what it scans. -/
theorem mem_over_from {xs : List α} {st : Pick α} {x : α}
    (h : x ∈ (overScan v n xs st).found ++ (overScan v n xs st).spare) :
    x ∈ st.found ++ st.spare ∨ x ∈ xs := by
  induction xs generalizing st with
  | nil => exact Or.inl h
  | cons y ys ih =>
    rw [over_cons] at h
    rcases ih h with h | h
    · rcases mem_offer v h with h | ⟨rfl, _⟩
      · exact Or.inl h
      · exact Or.inr List.mem_cons_self
    · exact Or.inr (List.mem_cons_of_mem _ h)

theorem mem_over {xs : List α} {x : α}
    (h : x ∈ (overScan v n xs Pick.empty).found ++ (overScan v n xs Pick.empty).spare) :
    x ∈ xs := by
  rcases mem_over_from h with h | h
  · simp [Pick.empty] at h
  · exact h

theorem over_found (xs : List α) (st : Pick α) :
    (overScan v n xs st).found = st.found ++ primaries v xs := by
  induction xs generalizing st with
  | nil => simp [overScan]
  | cons x xs ih =>
    rw [over_cons, ih]
    unfold offer
    cases hx : v x with
    | primary => simp [primaries, hx]
    | backup =>
      simp only
      split <;> simp [primaries, hx]
    | skip => simp [primaries, hx]

/-- Whether there is room for a backup depends on the wrap alone, while the counters
fit the arrays. -/
theorem wrapInt_open (hn : -2147483648 ≤ n) (hneg : n < 0) {found spare : Nat}
    (hfound : found < maxNFind) (hspare : spare ≤ maxNFind) :
    (spare : Int) < wrapInt (n - found) ↔ lateFrom n ≤ found := by
  have hmax := maxNFind_eq
  unfold lateFrom
  by_cases hwrap : n - found < -2147483648
  · have hval : wrapInt (n - found) = n - found + 4294967296 := by
      unfold wrapInt
      rw [← Int.add_bmod_right]
      exact Int.bmod_eq_of_le (by omega) (by omega)
    rw [hval]
    omega
  · rw [wrapInt_of_mem (by omega) (by omega)]
    omega

/-- **The backups taken are the late ones**, counted up to one more than the arrays hold. -/
theorem over_spare (hn : -2147483648 ≤ n) (hneg : n < 0) (xs : List α) (st : Pick α)
    (hsmall : st.found.length + (primaries v xs).length < maxNFind) :
    min (overScan v n xs st).spare.length (maxNFind + 1) =
      min (st.spare.length +
        (backups v (unexamined v (lateFrom n - st.found.length) xs)).length) (maxNFind + 1) := by
  induction xs generalizing st with
  | nil =>
    have hnone : unexamined v (lateFrom n - st.found.length) ([] : List α) = [] := by
      cases lateFrom n - st.found.length <;> rfl
    rw [hnone]
    rfl
  | cons x xs ih =>
    rw [over_cons]
    unfold offer
    cases hx : v x with
    | primary =>
      simp only [primaries, hx, decide_true, List.filter_cons_of_pos, List.length_cons] at hsmall
      rw [ih _ (by simp [primaries]; omega)]
      simp only [List.length_append, List.length_singleton]
      cases hk : lateFrom n - st.found.length with
      | zero =>
        rw [show lateFrom n - (st.found.length + 1) = 0 by omega]
        simp [unexamined, backups, hx]
      | succ k =>
        rw [show lateFrom n - (st.found.length + 1) = k by omega]
        simp [unexamined, hx]
    | backup =>
      simp only [primaries, hx, reduceCtorEq, decide_false, Bool.false_eq_true, not_false_eq_true,
        List.filter_cons_of_neg] at hsmall
      simp only
      cases hk : lateFrom n - st.found.length with
      | zero =>
        -- the quota has wrapped: the backup is taken, or there are too many already
        simp only [unexamined, backups, hx, decide_true, List.filter_cons_of_pos, List.length_cons]
        split
        · rw [ih ⟨st.found, st.spare ++ [x]⟩ hsmall]
          simp only [List.length_append, List.length_singleton, hk, unexamined, backups]
          omega
        · rename_i hclosed
          have hmany : maxNFind < st.spare.length := by
            by_contra hle
            exact hclosed ((wrapInt_open hn hneg (by omega) (by omega)).mpr (by omega))
          rw [ih _ hsmall]
          omega
      | succ k =>
        simp only [unexamined, hx, reduceCtorEq, if_false]
        split
        · rename_i hopen
          have hmany : maxNFind < st.spare.length := by
            by_contra hle
            have := (wrapInt_open hn hneg (by omega) (by omega)).mp hopen
            omega
          rw [ih ⟨st.found, st.spare ++ [x]⟩ hsmall]
          simp only [List.length_append, List.length_singleton]
          omega
        · rw [ih _ hsmall, hk]
    | skip =>
      simp only [primaries, hx, reduceCtorEq, decide_false, Bool.false_eq_true, not_false_eq_true,
        List.filter_cons_of_neg] at hsmall
      rw [ih _ hsmall]
      cases lateFrom n - st.found.length with
      | zero => simp [unexamined, backups, hx]
      | succ k => simp [unexamined, hx]

/-- From an empty start. -/
theorem over_spare_iff (hn : -2147483648 ≤ n) (hneg : n < 0) {xs : List α}
    (hsmall : (primaries v xs).length < maxNFind) {c : Nat} (hc : c ≤ maxNFind) :
    (overScan v n xs Pick.empty).spare.length ≤ c ↔ (lateBackups v n xs).length ≤ c := by
  have h := over_spare hn hneg xs Pick.empty (by simpa [Pick.empty] using hsmall)
  simp only [Pick.empty, List.length_nil, Nat.zero_add, Nat.sub_zero] at h
  unfold lateBackups Pick.empty
  omega

/-- Without a primary no backup is taken. -/
theorem over_spare_nil (hn : -2147483648 ≤ n) (hneg : n < 0) {xs : List α}
    (hnone : primaries v xs = []) : (overScan v n xs Pick.empty).spare = [] := by
  have hlate : lateBackups v n xs = [] := by
    have hk : (primaries v xs).length < lateFrom n := by
      rw [hnone, List.length_nil, lateFrom]
      omega
    rw [lateBackups, unexamined_of_lt v hk]
    rfl
  have hsmall : (primaries v xs).length < maxNFind := by
    rw [hnone, maxNFind_eq]
    exact Nat.succ_pos _
  have h := over_spare_iff hn hneg hsmall (Nat.zero_le _)
  rw [hlate] at h
  exact List.length_eq_zero_iff.mp (Nat.le_zero.mp (h.mpr (Nat.le_refl _)))

/-- With the quota `INT_MIN` the count wraps after one primary, so that every backup behind it
is taken. -/
theorem over_spare_wraps {x : α} {xs : List α} (hx : v x = .primary)
    (hxs : ∀ y ∈ xs, v y = .backup) {c : Nat} (hc : c ≤ maxNFind) (hlt : c < xs.length) :
    c < (overScan v (-2147483648) (x :: xs) Pick.empty).spare.length := by
  have hprimaries : primaries v xs = [] := by
    rw [primaries, List.filter_eq_nil_iff]
    intro y hy
    simp [hxs y hy]
  have hbackups : backups v xs = xs := by
    rw [backups, List.filter_eq_self]
    intro y hy
    simp [hxs y hy]
  have hone : (primaries v (x :: xs)).length < maxNFind := by
    have hcons : primaries v (x :: xs) = x :: primaries v xs :=
      List.filter_cons_of_pos (decide_eq_true hx)
    rw [hcons, hprimaries, maxNFind_eq]
    show 1 < 131071
    decide
  have hlate : lateBackups v (-2147483648) (x :: xs) = xs := by
    show backups v (unexamined v 1 _) = xs
    rw [unexamined, if_pos hx, unexamined, hbackups]
  by_contra hle
  have hfew := (over_spare_iff (by decide) (by decide) hone hc).mp (Nat.not_lt.mp hle)
  rw [hlate] at hfew
  omega

end

/-! ## The walk -/

/-- The pages of a walk's first stretch: the hand's process from the hand address on. -/
def Sys.firstStretch (σ : Sys) (tier : Tier) : List Exam :=
  examsOf σ.kernel σ.mod.taskItems σ.mm
    ⟨σ.mod.lastPid tier, σ.mod.lastAddr tier, maxAddress⟩

section

variable {P : Platform} {π : Policy P} {base : Nat} {st : Pick Exam} {n : Int}

theorem Filled.over_open {m : Mod} (h : Filled π base st m) (hq : m.nToFind = base + n) :
    m.spareOpen π.spare ↔ (st.spare.length : Int) < wrapInt (n - st.found.length) := by
  unfold Mod.spareOpen Mod.quotaLeft
  rw [h.nSpare, hq, h.nFound]
  push_cast
  rw [show (base : Int) + n - (base + st.found.length) = n - st.found.length by omega]

theorem walkPtes_over (hneg : n < 0) {m : Mod} (h : Filled π base st m)
    (hq : m.nToFind = base + n) (t : TaskPtr) {pid : Int} (hpid : m.currPid = pid)
    (start stop : Nat) (es : List PageEntry) :
    let xs := (es.filter (PageEntry.within start stop)).map (PageEntry.exam t pid)
    Filled π base (overScan π.classOf n xs st) (walkPtes π.callback t start stop es m).1 ∧
      Swept π xs none m (walkPtes π.callback t start stop es m).1 ∧
      (walkPtes π.callback t start stop es m).2 = π.resetPtes start stop es := by
  induction es generalizing m st with
  | nil => exact ⟨h, .refl m, rfl⟩
  | cons e es ih =>
    by_cases hin : start ≤ e.addr ∧ e.addr < stop
    · have hwithin : e.within start stop = true := by simpa [PageEntry.within] using hin
      -- `n_found` starts above the quota and never equals it
      have hopen : (m.nFound : Int) ≠ m.nToFind := by
        rw [hq, h.nFound]
        omega
      obtain ⟨hfilled, hret, hcommit⟩ := h.invoke hopen t e
      have hswept := invoke_open_swept (π := π) hopen t e
      simp only [h.over_open hq, hpid] at hfilled
      rw [hpid] at hswept
      obtain ⟨ih1, ih2, ih3⟩ := ih hfilled ((π.quiet.invoke_fixed t e m).nToFind.trans hq)
        ((π.quiet.invoke_currPid t e m).trans hpid)
      simp only [walkPtes, if_pos hin, hret, hwithin, List.filter_cons_of_pos, List.map_cons,
        over_cons, Policy.resetPtes, if_true]
      refine ⟨ih1, hswept.trans ih2, ?_⟩
      simp only [ne_eq, not_true_eq_false, if_false, ih3, PageEntry.committed, hcommit]
      rfl
    · have hwithin : e.within start stop = false := by simpa [PageEntry.within] using hin
      obtain ⟨ih1, ih2, ih3⟩ := ih h hq hpid
      simp only [walkPtes, if_neg hin, hwithin, Bool.false_eq_true, not_false_eq_true,
        List.filter_cons_of_neg, Policy.resetPtes, List.map_cons]
      exact ⟨ih1, ih2, by rw [ih3]; rfl⟩

theorem walkTask_over (hneg : n < 0) {σ : Sys} (h : Filled π base st σ.mod)
    (hq : σ.mod.nToFind = base + n) (s : Stretch) :
    let xs := examsOf σ.kernel σ.mod.taskItems σ.mm s
    Filled π base (overScan π.classOf n xs st) (walkTask π.callback s.index s.start s.stop σ).mod ∧
      Swept π xs none σ.mod (walkTask π.callback s.index s.start s.stop σ).mod ∧
      (walkTask π.callback s.index s.start s.stop σ).mm = passOver π σ.mod.taskItems σ.mm s := by
  unfold walkTask examsOf passOver
  simp only
  cases hmm : σ.mm (σ.mod.taskItems s.index) with
  | none =>
    have hsame : Function.update σ.mm (σ.mod.taskItems s.index) none = σ.mm := by
      rw [← hmm, Function.update_eq_self]
    exact ⟨h.setPid _, .setCurrPid _ _, hsame.symm⟩
  | some a =>
    obtain ⟨h1, h2, h3⟩ := walkPtes_over hneg
      (h.setPid (σ.kernel.pidOf (σ.mod.taskItems s.index))) hq (σ.mod.taskItems s.index) rfl
      s.start s.stop a.ptes
    refine ⟨h1, (Swept.setCurrPid _ _).trans h2, ?_⟩
    have hptes : (walkPageRange π.callback (σ.mod.taskItems s.index) a s.start s.stop
        (σ.mod.setCurrPid (σ.kernel.pidOf (σ.mod.taskItems s.index)))).2 =
          π.resetRange s.start s.stop a := MmStruct.ext h3
    simp only [hptes, Option.map_some]

/-- **A walk with a quota below its start takes the first stretch, all of it, and
nothing else.** The hand stays where it is. -/
theorem walkTier_first (hneg : n < 0) {σ : Sys} (h : Filled π base st σ.mod)
    (hq : σ.mod.nToFind = base + n) :
    Filled π base (overScan π.classOf n (σ.firstStretch π.tier) st)
        (walkTier π.callback π.tier σ).mod ∧
      Swept π (σ.firstStretch π.tier) none σ.mod (walkTier π.callback π.tier σ).mod ∧
      (walkTier π.callback π.tier σ).mod.lastPid π.tier = σ.mod.lastPid π.tier ∧
      (walkTier π.callback π.tier σ).mod.quotaMet := by
  obtain ⟨h1, h2, _⟩ := walkTask_over hneg h hq
    ⟨σ.mod.lastPid π.tier, σ.mod.lastAddr π.tier, maxAddress⟩
  have hfixed := walkTask_fixed π.quiet (σ.mod.lastPid π.tier) (σ.mod.lastAddr π.tier)
    maxAddress σ
  have hmet : (walkTask π.callback (σ.mod.lastPid π.tier) (σ.mod.lastAddr π.tier) maxAddress
      σ).mod.quotaMet := by
    unfold Mod.quotaMet
    rw [hfixed.nToFind, hq, h1.nFound]
    omega
  have hswept := h2.trans (Swept.setLastPid _ (σ.mod.lastPid π.tier))
  rw [List.append_nil] at hswept
  unfold walkTier doPageWalk
  simp only [if_pos hmet]
  refine ⟨h1.setLastPid _ _, hswept, ?_, ?_⟩
  · cases π.tier <;> rfl
  · revert hmet
    cases π.tier <;> exact id

/-- `mem_walk` with a negative count is its walk, and takes the first stretch. -/
theorem memWalk_over {mode : FindMode} (hπ : memWalkPolicy P mode = some π) (hneg : n < 0) {σ : Sys}
    (hfound : σ.mod.nFound = 0) :
    memWalk P n mode σ =
        (walkTier π.callback π.tier { σ with mod := σ.mod.setQuota .backup n }, 0) ∧
      Filled π 0 (overScan π.classOf n (σ.firstStretch π.tier) Pick.empty)
        (memWalk P n mode σ).1.mod := by
  obtain ⟨hops, hspare⟩ := memWalkPolicy_ops hπ
  have hstart : Filled π 0 Pick.empty (σ.mod.setQuota .backup n) :=
    .start hfound (by rw [hspare]; rfl)
  obtain ⟨hfilled, _, _, hmet⟩ := walkTier_first (π := π)
    (σ := { σ with mod := σ.mod.setQuota .backup n }) hneg hstart (by simp [Mod.setQuota])
  have hstretch : Sys.firstStretch { σ with mod := σ.mod.setQuota .backup n } π.tier =
      σ.firstStretch π.tier := by
    cases hπt : π.tier <;> rfl
  rw [hstretch] at hfilled
  unfold memWalk
  simp only [hops, if_pos hmet, true_and]
  exact hfilled

/-! ## The writes -/

/-- All writes so far are inside their arrays exactly when the counters are, and `K`. -/
def Fits (π : Policy P) (K : Prop) (m : Mod) : Prop :=
  (∀ ev ∈ m.trace, ev.Stored) ↔
    m.nFound ≤ maxNFind ∧ m.nSpare π.spare ≤ (Buf.spare π.spare).capacity ∧ K

theorem Fits.same {K : Prop} {m m' : Mod} (h : Fits π K m) (htrace : m'.trace = m.trace)
    (hfound : m'.nFound = m.nFound) (hspare : m'.nSpare π.spare = m.nSpare π.spare) :
    Fits π K m' := by
  unfold Fits at h ⊢
  rwa [htrace, hfound, hspare]

theorem Fits.log {K : Prop} {m : Mod} (h : Fits π K m) {ev : Event}
    (hev : ∀ buf i, ev ≠ .store buf i) : Fits π K (m.log ev) := by
  have hstored : ev.Stored := by
    cases ev with
    | store buf i => exact absurd rfl (hev buf i)
    | visit => trivial
    | commit => trivial
    | retval => trivial
  unfold Fits at h ⊢
  rw [Mod.nSpare_log]
  show (∀ e ∈ ev :: m.trace, e.Stored) ↔ m.nFound ≤ maxNFind ∧ _
  rw [List.forall_mem_cons, and_iff_right hstored]
  exact h

theorem Fits.pushFound {K : Prop} {m : Mod} (h : Fits π K m) (x : AddrInfo) :
    Fits π K (m.pushFound x) := by
  unfold Fits at h ⊢
  rw [Mod.nSpare_pushFound]
  show (∀ e ∈ Event.store .found m.nFound :: m.trace, e.Stored) ↔ m.nFound + 1 ≤ maxNFind ∧ _
  rw [List.forall_mem_cons, h]
  show m.nFound < maxNFind ∧ _ ↔ _
  constructor
  · rintro ⟨h1, _, h2⟩
    exact ⟨h1, h2⟩
  · rintro ⟨h1, h2⟩
    exact ⟨h1, Nat.le_of_lt h1, h2⟩

theorem Fits.pushSpare {K : Prop} {m : Mod} (h : Fits π K m) (x : AddrInfo) :
    Fits π K (m.pushSpare π.spare x) := by
  have htrace : (m.pushSpare π.spare x).trace =
      .store (.spare π.spare) (m.nSpare π.spare) :: m.trace := by
    cases π.spare <;> rfl
  have hfound : (m.pushSpare π.spare x).nFound = m.nFound := by cases π.spare <;> rfl
  unfold Fits at h ⊢
  rw [Mod.nSpare_pushSpare, htrace, hfound, List.forall_mem_cons, h]
  show m.nSpare π.spare < (Buf.spare π.spare).capacity ∧ _ ↔ _
  constructor
  · rintro ⟨h1, h2, _, h3⟩
    exact ⟨h2, h1, h3⟩
  · rintro ⟨h1, h2, h3⟩
    exact ⟨h2, h1, Nat.le_of_lt h2, h3⟩

theorem walkTier_fits {K : Prop} {σ : Sys} (h : Fits π K σ.mod)
    (hlast : σ.mod.lastPid π.tier < σ.mod.nPids) :
    Fits π K (walkTier π.callback π.tier σ).mod := by
  refine walkTier_holds (callback_rule π _ _ (fun m p h => ?_) (fun _ _ hev h => h.log hev)
    (fun m a h => ?_) (fun _ x h => h.pushFound x) (fun _ x h => h.pushSpare x)) hlast
    (fun m i h => ?_) h
  · exact h.same rfl rfl (by simp)
  · refine h.same ?_ ?_ (by simp)
    all_goals cases π.tier <;> rfl
  · refine h.same ?_ ?_ ?_
    all_goals cases π.tier <;> rfl

end

/-! ## The walks of a switch -/

section

variable {P : Platform} {σ : Sys} {n : Int}

/-- The NVRAM walk of a switch with a negative count. -/
theorem nvramOver (hneg : n < 0) (hfound : σ.mod.nFound = 0) (htrace : σ.mod.trace = [])
    (hlast : ∀ tier, σ.mod.lastPid tier < σ.mod.nPids) :
    Filled (nvramSwitchPolicy P) 0
        (overScan (nvramSwitchPolicy P).classOf n (σ.firstStretch .nvram) Pick.empty)
        (walkTier (nvramSwitchPolicy P).callback .nvram
          { σ with mod := σ.mod.setQuota .switchBackup n }).mod ∧
      Fits (nvramSwitchPolicy P) True (walkTier (nvramSwitchPolicy P).callback .nvram
        { σ with mod := σ.mod.setQuota .switchBackup n }).mod := by
  have hstart : Filled (nvramSwitchPolicy P) 0 Pick.empty (σ.mod.setQuota .switchBackup n) :=
    .start hfound rfl
  have hfits : Fits (nvramSwitchPolicy P) True (σ.mod.setQuota .switchBackup n) :=
    iff_of_true (by simp [Mod.setQuota, htrace])
      ⟨hfound.trans_le (Nat.zero_le _), Nat.zero_le _, trivial⟩
  exact ⟨(walkTier_first (σ := { σ with mod := σ.mod.setQuota .switchBackup n }) hneg hstart
      (by simp [Mod.setQuota])).1,
    walkTier_fits (σ := { σ with mod := σ.mod.setQuota .switchBackup n }) hfits (hlast .nvram)⟩

/-- The first stretch of the DRAM walk is what it would have been at the start. -/
theorem DramReady.firstStretch {σ₁ : Sys} (h : DramReady σ σ₁) :
    (switchMid n σ₁).firstStretch .dram = σ.firstStretch .dram := by
  show examsOf σ₁.kernel σ₁.mod.taskItems σ₁.mm
    ⟨σ₁.mod.lastPid .dram, σ₁.mod.lastAddr .dram, maxAddress⟩ = _
  rw [h.kernel, h.taskItems, h.mm, h.lastPid, h.lastAddr]
  rfl

/-- The DRAM walk after it, when something was found. -/
theorem dramOver (hneg : n < 0) {σ₁ : Sys} (hready : DramReady σ σ₁)
    (hlast : ∀ tier, σ.mod.lastPid tier < σ.mod.nPids)
    (hfits : Fits (nvramSwitchPolicy P) True σ₁.mod) :
    Filled (memPolicy P) (σ₁.mod.nFound + 1)
        (overScan (memPolicy P).classOf n (σ.firstStretch .dram) Pick.empty)
        (walkTier (memPolicy P).callback .dram (switchMid n σ₁)).mod ∧
      Fits (memPolicy P) (σ₁.mod.nSwitchBackup ≤ maxNSwitch)
        (walkTier (memPolicy P).callback .dram (switchMid n σ₁)).mod := by
  have hquota : (switchMid n σ₁).mod.nToFind = ((σ₁.mod.nFound + 1 : Nat) : Int) + n := by
    show ((σ₁.mod.nFound + 1 : Nat) : Int) + intMin _ _ = _
    rw [intMin_eq_min]
    omega
  -- the separator is one more store, at `n_found`
  have hmid : Fits (memPolicy P) (σ₁.mod.nSwitchBackup ≤ maxNSwitch) (switchMid n σ₁).mod := by
    unfold Fits at hfits ⊢
    show (∀ ev ∈ Event.store .found σ₁.mod.nFound :: σ₁.mod.trace, ev.Stored) ↔
      σ₁.mod.nFound + 1 ≤ maxNFind ∧ 0 ≤ maxNFind ∧ σ₁.mod.nSwitchBackup ≤ maxNSwitch
    rw [List.forall_mem_cons, hfits]
    show σ₁.mod.nFound < maxNFind ∧ _ ∧ σ₁.mod.nSwitchBackup ≤ maxNSwitch ∧ True ↔ _
    constructor
    · rintro ⟨h1, _, h2, _⟩
      exact ⟨h1, Nat.zero_le _, h2⟩
    · rintro ⟨h1, _, h2⟩
      exact ⟨h1, Nat.le_of_lt h1, h2, trivial⟩
  have hlast₁ : (switchMid n σ₁).mod.lastPid (memPolicy P).tier < (switchMid n σ₁).mod.nPids := by
    show σ₁.mod.lastPid .dram < σ₁.mod.nPids
    rw [hready.lastPid, hready.nPids]
    exact hlast .dram
  have hwalk := (walkTier_first (π := memPolicy P) (σ := switchMid n σ₁) hneg
    (.start rfl rfl) hquota).1
  have htier : (memPolicy P).tier = .dram := rfl
  rw [htier, hready.firstStretch] at hwalk
  exact ⟨hwalk, walkTier_fits hmid hlast₁⟩

end

end Ambix.Hyb
