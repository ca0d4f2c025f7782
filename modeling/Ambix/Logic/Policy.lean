import Ambix.Logic.WalkRule

/-!
# What the callbacks have in common

The five counting callbacks test the quota, pass over entries off their tier and
then sort an entry into one of three classes. A `Policy` is the class and the
reset of each entry; `Policy.callback` is the callback it stands for, and each
`pteCallback*` is proved to be the callback of its policy. The theory of walks is
developed for policies.
-/

namespace Ambix.Hyb

open Ambix.Lib Ambix.Lib.QuotaScan

/-! ## Counting callbacks -/

/-- A callback that stops at the quota, and otherwise takes a page, or may put it aside,
and may reset its entry. -/
structure Counting (cb : PteEntry) (tier : Tier) (spare : Spare) (takes : Pte → Bool) :
    Prop where
  full : ∀ ptep addr m, (m.nFound : Int) = m.nToFind → cb ptep addr m = .full tier addr m
  missing : ∀ addr m, (m.nFound : Int) ≠ m.nToFind → cb none addr m = .pass m
  ret : ∀ pte addr m, (m.nFound : Int) ≠ m.nToFind → (cb (some pte) addr m).ret = 0
  taken : ∀ pte addr m, (m.nFound : Int) ≠ m.nToFind → takes pte = true →
    (cb (some pte) addr m).mod = m.pushFound ⟨addr, m.currPid⟩
  passed : ∀ pte addr m, (m.nFound : Int) ≠ m.nToFind → takes pte = false →
    (cb (some pte) addr m).mod = m ∨
      (m.spareOpen spare ∧ (cb (some pte) addr m).mod = m.pushSpare spare ⟨addr, m.currPid⟩)
  commit : ∀ pte addr m, (cb (some pte) addr m).commit = none ∨
    (cb (some pte) addr m).commit = some (modifyProt pte)

section

variable {cb : PteEntry} {tier : Tier} {spare : Spare} {takes : Pte → Bool}

theorem Counting.quiet (h : Counting cb tier spare takes) : Quiet cb := by
  constructor
  · intro ptep addr m
    by_cases hfull : (m.nFound : Int) = m.nToFind
    · rw [h.full ptep addr m hfull]
      exact .setLastAddr m tier addr
    · cases ptep with
      | none =>
        rw [h.missing addr m hfull]
        exact .refl m
      | some pte =>
        cases htakes : takes pte with
        | true =>
          rw [h.taken pte addr m hfull htakes]
          exact .pushFound m _
        | false =>
          rcases h.passed pte addr m hfull htakes with hmod | ⟨-, hmod⟩
          · rw [hmod]
            exact .refl m
          · rw [hmod]
            exact .pushSpare m _ _
  · intro ptep addr m
    by_cases hfull : (m.nFound : Int) = m.nToFind
    · rw [h.full ptep addr m hfull]
      exact Mod.setLastAddr_currPid m tier addr
    · cases ptep with
      | none => rw [h.missing addr m hfull, CbResult.pass]
      | some pte =>
        cases htakes : takes pte with
        | true => rw [h.taken pte addr m hfull htakes, Mod.pushFound_currPid]
        | false =>
          rcases h.passed pte addr m hfull htakes with hmod | ⟨-, hmod⟩
          · rw [hmod]
          · rw [hmod, Mod.pushSpare_currPid]

/-- What the calls of a counting callback keep. -/
theorem Counting.rule (h : Counting cb tier spare takes) {I : Mod → Prop} (k : Kernel) (m₀ : Mod)
    (hpid : ∀ m p, I m → I (m.setCurrPid p))
    (hlog : ∀ m ev, (∀ buf i, ev ≠ .store buf i) → I m → I (m.log ev))
    (haddr : ∀ m addr, I m → I (m.setLastAddr tier addr))
    (hfound : ∀ m x, I m → I (m.pushFound x))
    (hspare : ∀ m x, m.spareOpen spare → I m → I (m.pushSpare spare x)) :
    WalkRule k m₀ cb I fun _ _ => True where
  quiet := h.quiet
  pid := hpid
  call := by
    intro i _ e m _ _ _ hI
    refine ⟨?_, trivial⟩
    have hcb : I (cb (some e.pte) e.addr
        (m.log (.visit (m₀.taskItems i) e.addr e.pte m.counters))).mod := by
      have hI' := hlog m (.visit (m₀.taskItems i) e.addr e.pte m.counters) (by simp) hI
      generalize m.log (.visit (m₀.taskItems i) e.addr e.pte m.counters) = m₁ at hI'
      by_cases hfull : (m₁.nFound : Int) = m₁.nToFind
      · rw [h.full (some e.pte) e.addr m₁ hfull]
        exact haddr _ _ hI'
      · cases htakes : takes e.pte with
        | true =>
          rw [h.taken e.pte e.addr m₁ hfull htakes]
          exact hfound _ _ hI'
        | false =>
          rcases h.passed e.pte e.addr m₁ hfull htakes with hmod | ⟨hroom, hmod⟩
          · rw [hmod]
            exact hI'
          · rw [hmod]
            exact hspare _ _ hroom hI'
    unfold invoke
    simp only
    split
    · exact hcb
    · exact hlog _ _ (by simp) hcb

end

/-! ## Policies -/

/-- The class of every entry and whether passing over it resets it. -/
structure Policy (P : Platform) where
  tier : Tier
  spare : Spare
  verdict : Pte → Verdict
  resets : Pte → Bool
  /-- Only entries of the tier are candidates. -/
  verdict_onTier : ∀ p, verdict p ≠ .skip → offTier P tier.mode p = false
  /-- Only entries of the tier are changed. -/
  resets_onTier : ∀ p, resets p = true → offTier P tier.mode p = false
  /-- A page selected at once keeps its bits. -/
  primary_keeps : ∀ p, verdict p = .primary → resets p = false
  /-- A backup page stays one when it is passed over. -/
  backup_again : ∀ p, verdict p = .backup →
    verdict (if resets p then modifyProt p else p) = .backup
  /-- A page passed over as no candidate does not become a primary one. -/
  skip_again : ∀ p, verdict p = .skip →
    verdict (if resets p then modifyProt p else p) ≠ .primary

/-- No page is on both tiers. -/
theorem offTier_exclusive {P : Platform} {p : Pte} (hd : offTier P .dram p = false) :
    offTier P .nvram p = true := by
  simp only [offTier, Bool.or_eq_false_iff, Bool.not_eq_false'] at hd
  have hn := contains_exclusive P (P.pfnToNid p.pfn) hd.2
  simp [offTier, hn]

namespace Policy

variable {P : Platform} (π : Policy P)

/-- The entry a callback commits, if it does. -/
def commit (p : Pte) : Option Pte := if π.resets p then some (modifyProt p) else none

/-- The entry after the callback passed over it. -/
def after (p : Pte) : Pte := (π.commit p).getD p

/-- The globals after a call with an open quota. -/
def note (addr : Nat) (p : Pte) (m : Mod) : Mod :=
  match π.verdict p with
  | .primary => m.pushFound ⟨addr, m.currPid⟩
  | .backup =>
    if m.spareOpen π.spare then m.pushSpare π.spare ⟨addr, m.currPid⟩ else m
  | .skip => m

/-- The callback of a policy. -/
def callback : PteEntry := fun ptep addr m =>
  if (m.nFound : Int) = m.nToFind then .full π.tier addr m
  else
    match ptep with
    | none => .pass m
    | some pte => ⟨π.note addr pte m, π.commit pte, 0⟩

theorem callback_full {ptep : Option Pte} {addr : Nat} {m : Mod}
    (h : (m.nFound : Int) = m.nToFind) :
    π.callback ptep addr m = .full π.tier addr m := by
  simp [callback, h]

theorem callback_open {pte : Pte} {addr : Nat} {m : Mod} (h : (m.nFound : Int) ≠ m.nToFind) :
    π.callback (some pte) addr m = ⟨π.note addr pte m, π.commit pte, 0⟩ := by
  simp [callback, h]

/-- The callback of a policy takes its primary pages. -/
theorem counting : Counting π.callback π.tier π.spare
    (fun p => decide (π.verdict p = .primary)) where
  full ptep addr m h := π.callback_full h
  missing addr m h := by simp [Policy.callback, h]
  ret pte addr m h := by rw [π.callback_open h]
  taken pte addr m h htakes := by
    rw [π.callback_open h, Policy.note, of_decide_eq_true htakes]
  passed pte addr m h htakes := by
    rw [π.callback_open h, Policy.note]
    cases hv : π.verdict pte with
    | primary => simp [hv] at htakes
    | skip => exact .inl rfl
    | backup =>
      by_cases hroom : m.spareOpen π.spare
      · exact .inr ⟨hroom, if_pos hroom⟩
      · exact .inl (if_neg hroom)
  commit pte addr m := by
    by_cases h : (m.nFound : Int) = m.nToFind
    · rw [π.callback_full h]
      exact .inl rfl
    · rw [π.callback_open h]
      simp only [Policy.commit]
      split
      · exact .inr rfl
      · exact .inl rfl

theorem quiet : Quiet π.callback := π.counting.quiet

@[simp] theorem after_present (p : Pte) : (π.after p).present = p.present := by
  unfold after commit; split <;> rfl

@[simp] theorem after_write (p : Pte) : (π.after p).write = p.write := by
  unfold after commit; split <;> rfl

@[simp] theorem after_pfn (p : Pte) : (π.after p).pfn = p.pfn := by
  unfold after commit; split <;> rfl

@[simp] theorem after_young (p : Pte) : (π.after p).young = p.young := by
  unfold after commit; split <;> rfl

@[simp] theorem offTier_after (mode : FindMode) (p : Pte) :
    offTier P mode (π.after p) = offTier P mode p := by
  simp [offTier]

theorem after_eq (p : Pte) : π.after p = if π.resets p then modifyProt p else p := by
  unfold after commit
  split <;> rfl

/-- The class of a page that is examined again. -/
theorem verdict_after_primary (p : Pte) :
    π.verdict (π.after p) = .primary ↔ π.verdict p = .primary := by
  rw [after_eq]
  constructor
  · intro h
    cases hv : π.verdict p with
    | primary => rfl
    | backup => rw [π.backup_again p hv] at h; exact absurd h (by decide)
    | skip => exact absurd h (π.skip_again p hv)
  · intro h
    simpa [π.primary_keeps p h] using h

theorem verdict_after_backup {p : Pte} (h : π.verdict p = .backup) :
    π.verdict (π.after p) = .backup := by
  rw [after_eq]
  exact π.backup_again p h

end Policy

/-! ## The five policies -/

variable (P : Platform)

/-- `pte_callback_mem`: cold pages, then accessed clean ones. -/
def memPolicy : Policy P where
  tier := .dram
  spare := .backup
  verdict p :=
    if offTier P .dram p then .skip
    else if !p.young then .primary
    else if !p.dirty then .backup
    else .skip
  resets p := !offTier P .dram p && p.young
  verdict_onTier p h := by
    by_contra hoff
    simp [Tier.mode] at hoff
    simp [hoff] at h
  resets_onTier p h := by
    simp at h
    exact h.1
  primary_keeps p h := by
    by_cases hoff : offTier P .dram p = true
    · simp [hoff] at h
    · cases hy : p.young
      · simp
      · simp [hoff, hy] at h
        split at h <;> simp at h
  backup_again p h := by
    by_cases hoff : offTier P .dram p = true
    · simp [hoff] at h
    · cases hy : p.young <;> cases hd : p.dirty <;>
        simp [hoff, hy, hd] at h ⊢
  skip_again p h := by
    by_cases hoff : offTier P .dram p = true
    · simp [hoff]
    · cases hy : p.young <;> cases hd : p.dirty <;>
        simp [hoff, hy, hd] at h ⊢

/-- `pte_callback_nvram_force`: written pages, then all the others. -/
def nvramForcePolicy : Policy P where
  tier := .nvram
  spare := .backup
  verdict p :=
    if offTier P .nvram p then .skip
    else if p.young && p.dirty then .primary
    else .backup
  resets p := !offTier P .nvram p && !(p.young && p.dirty)
  verdict_onTier p h := by
    by_contra hoff
    simp [Tier.mode] at hoff
    simp [hoff] at h
  resets_onTier p h := by
    rw [Bool.and_eq_true] at h
    simpa [Tier.mode] using h.1
  primary_keeps p h := by
    by_cases hoff : offTier P .nvram p = true
    · simp [hoff] at h
    · by_cases hhot : (p.young && p.dirty) = true
      · simp [hhot]
      · simp [hoff, hhot] at h
  backup_again p h := by
    by_cases hoff : offTier P .nvram p = true
    · simp [hoff] at h
    · cases hy : p.young <;> cases hd : p.dirty <;>
        simp [hoff, hy, hd] at h ⊢
  skip_again p h := by
    by_cases hoff : offTier P .nvram p = true
    · simp [hoff]
    · cases hy : p.young <;> cases hd : p.dirty <;> simp [hoff, hy, hd] at h

/-- The three NVRAM callbacks that leave entries alone: accessed and dirty pages,
then those that `spareClass` names. -/
def nvramReadPolicy (spare : Spare) (spareClass : Pte → Bool) : Policy P where
  tier := .nvram
  spare := spare
  verdict p :=
    if offTier P .nvram p then .skip
    else if p.young && p.dirty then .primary
    else if spareClass p then .backup
    else .skip
  resets _ := false
  verdict_onTier p h := by
    by_contra hoff
    simp [Tier.mode] at hoff
    simp [hoff] at h
  resets_onTier p h := by simp at h
  primary_keeps _ _ := rfl
  backup_again _ h := by simpa using h
  skip_again p h := by
    simp only [Bool.false_eq_true, if_false] at h ⊢
    rw [h]
    decide

/-- `pte_callback_nvram_write`: backups are dirty but not accessed. -/
def nvramWritePolicy : Policy P := nvramReadPolicy P .backup fun p => p.dirty && !p.young

/-- `pte_callback_nvram_intensive`: backups are accessed but clean. -/
def nvramIntensivePolicy : Policy P := nvramReadPolicy P .backup fun p => p.young && !p.dirty

/-- `pte_callback_nvram_switch`: the classes of `_intensive`, another backup list. -/
def nvramSwitchPolicy : Policy P :=
  nvramReadPolicy P .switchBackup fun p => p.young && !p.dirty

theorem pteCallbackMem_eq : pteCallbackMem P = (memPolicy P).callback := by
  funext ptep addr m
  unfold pteCallbackMem Policy.callback
  split
  · rfl
  · cases ptep with
    | none => rfl
    | some pte =>
      by_cases hoff : offTier P .dram pte = true
      · simp [memPolicy, Policy.note, Policy.commit, CbResult.pass, hoff]
      · cases hy : pte.young <;> cases hd : pte.dirty <;>
          simp [memPolicy, Policy.note, Policy.commit, CbResult.pass, hoff, hy, hd]

theorem pteCallbackNvramForce_eq :
    pteCallbackNvramForce P = (nvramForcePolicy P).callback := by
  funext ptep addr m
  unfold pteCallbackNvramForce Policy.callback
  split
  · rfl
  · cases ptep with
    | none => rfl
    | some pte =>
      by_cases hoff : offTier P .nvram pte = true
      · simp [nvramForcePolicy, Policy.note, Policy.commit, CbResult.pass, hoff]
      · cases hy : pte.young <;> cases hd : pte.dirty <;>
          simp [nvramForcePolicy, Policy.note, Policy.commit, CbResult.pass, hoff, hy, hd]

theorem pteCallbackNvramWrite_eq :
    pteCallbackNvramWrite P = (nvramWritePolicy P).callback := by
  funext ptep addr m
  unfold pteCallbackNvramWrite Policy.callback
  split
  · rfl
  · cases ptep with
    | none => rfl
    | some pte =>
      by_cases hoff : offTier P .nvram pte = true
      · simp [nvramWritePolicy, nvramReadPolicy, Policy.note, Policy.commit, CbResult.pass, hoff]
      · cases hy : pte.young <;> cases hd : pte.dirty <;>
          by_cases hopen : m.spareOpen .backup <;>
          simp [nvramWritePolicy, nvramReadPolicy, Policy.note, Policy.commit, CbResult.pass,
            hoff, hy, hd, hopen]

theorem pteCallbackNvramIntensive_eq :
    pteCallbackNvramIntensive P = (nvramIntensivePolicy P).callback := by
  funext ptep addr m
  unfold pteCallbackNvramIntensive Policy.callback
  split
  · rfl
  · cases ptep with
    | none => rfl
    | some pte =>
      by_cases hoff : offTier P .nvram pte = true
      · simp [nvramIntensivePolicy, nvramReadPolicy, Policy.note, Policy.commit,
          CbResult.pass, hoff]
      · cases hy : pte.young <;> cases hd : pte.dirty <;>
          by_cases hopen : m.spareOpen .backup <;>
          simp [nvramIntensivePolicy, nvramReadPolicy, Policy.note, Policy.commit,
            CbResult.pass, hoff, hy, hd, hopen]

theorem pteCallbackNvramSwitch_eq :
    pteCallbackNvramSwitch P = (nvramSwitchPolicy P).callback := by
  funext ptep addr m
  unfold pteCallbackNvramSwitch Policy.callback
  split
  · rfl
  · cases ptep with
    | none => rfl
    | some pte =>
      by_cases hoff : offTier P .nvram pte = true
      · simp [nvramSwitchPolicy, nvramReadPolicy, Policy.note, Policy.commit,
          CbResult.pass, hoff]
      · cases hy : pte.young <;> cases hd : pte.dirty <;>
          by_cases hopen : m.spareOpen .switchBackup <;>
          simp [nvramSwitchPolicy, nvramReadPolicy, Policy.note, Policy.commit,
            CbResult.pass, hoff, hy, hd, hopen]

end Ambix.Hyb
