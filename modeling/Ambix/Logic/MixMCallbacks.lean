import Ambix.Logic.MixMWalk

/-!
# The callbacks of the MixM module

Which pages each callback takes at once. The three callbacks that differ from those of the
hyb module count like them; the other two are the same.
-/

namespace Ambix.MixM

open Ambix.Lib Ambix.Hyb

/-- The pages that the callback of a mode takes at once. -/
def takesOf (P : Platform) : FindMode → Pte → Bool
  | .dram => fun p => !offTier P .dram p && !p.young
  | .nvram | .nvramWrite => fun p => !offTier P .nvram p && (p.young && p.dirty)
  | .nvramIntensive | .switch => fun p => !offTier P .nvram p && (p.young && !p.dirty)
  | .nvramClear => fun _ => false

/-! ## The callbacks -/

section

variable {cb : PteEntry} {tier : Tier} {spare : Spare} {takes : Pte → Bool}

@[simp] theorem pushSpare_nFound (m : Mod) (spare : Spare) (x : AddrInfo) :
    (m.pushSpare spare x).nFound = m.nFound := by cases spare <;> rfl

@[simp] theorem setLastAddr_nFound (m : Mod) (tier : Tier) (addr : Nat) :
    (m.setLastAddr tier addr).nFound = m.nFound := by cases tier <;> rfl

theorem counting_takes (h : Counting cb tier spare takes) : Takes cb takes where
  quiet := h.quiet
  full ptep addr m hfull := by
    rw [h.full ptep addr m hfull]
    exact ⟨Int.one_ne_zero, setLastAddr_nFound m tier addr⟩
  opened pte addr m hopen := by
    refine ⟨h.ret pte addr m hopen, ?_⟩
    cases htakes : takes pte with
    | true =>
      rw [h.taken pte addr m hopen htakes]
      rfl
    | false =>
      rcases h.passed pte addr m hopen htakes with hmod | ⟨-, hmod⟩
      · rw [hmod]
        rfl
      · rw [hmod, pushSpare_nFound]
        rfl

end

section

variable (P : Platform)

theorem mem_counting : Counting (pteCallbackMem P) .dram .backup (takesOf P .dram) where
  full ptep addr m h := if_pos h
  missing addr m h := if_neg h
  ret pte addr m h := by
    unfold pteCallbackMem
    rw [if_neg h]
    simp only
    split
    · rfl
    · split <;> rfl
  taken pte addr m h htakes := by
    simp only [takesOf, Bool.and_eq_true, Bool.not_eq_true'] at htakes
    unfold pteCallbackMem
    rw [if_neg h]
    simp only [htakes.1, htakes.2, Bool.false_eq_true, if_false, Bool.not_false, if_true]
    rfl
  passed pte addr m h htakes := by
    unfold pteCallbackMem
    rw [if_neg h]
    simp only
    split
    · exact .inl rfl
    · rename_i htier
      split
      · rename_i hyoung
        simp [takesOf, htier, hyoung] at htakes
      · by_cases hroom : pte.dirty ∧ m.spareOpen .backup
        · exact .inr ⟨hroom.2, if_pos hroom⟩
        · exact .inl (if_neg hroom)
  commit pte addr m := by
    unfold pteCallbackMem
    split
    · exact .inl rfl
    · simp only
      split
      · exact .inl rfl
      · split
        · exact .inl rfl
        · exact .inr rfl

theorem intensive_counting : Counting (pteCallbackNvramIntensive P) .nvram .backup
    (takesOf P .nvramIntensive) where
  full ptep addr m h := if_pos h
  missing addr m h := if_neg h
  ret pte addr m h := by
    unfold pteCallbackNvramIntensive
    rw [if_neg h]
    simp only
    split
    · rfl
    · split <;> rfl
  taken pte addr m h htakes := by
    simp only [takesOf, Bool.and_eq_true, Bool.not_eq_true'] at htakes
    unfold pteCallbackNvramIntensive
    rw [if_neg h]
    simp only [htakes.1, htakes.2, Bool.false_eq_true, if_false, Bool.not_false, Bool.and_self,
      if_true]
    rfl
  passed pte addr m h htakes := by
    unfold pteCallbackNvramIntensive
    rw [if_neg h]
    simp only
    split
    · exact .inl rfl
    · rename_i htier
      split
      · rename_i htaken
        simp [takesOf, htier, htaken] at htakes
      · by_cases hroom : pte.young ∧ m.spareOpen .backup
        · exact .inr ⟨hroom.2, if_pos hroom⟩
        · exact .inl (if_neg hroom)
  commit pte addr m := by
    unfold pteCallbackNvramIntensive
    split
    · exact .inl rfl
    · simp only
      split
      · exact .inl rfl
      · split
        · exact .inl rfl
        · exact .inr rfl

theorem switch_counting : Counting (pteCallbackNvramSwitch P) .nvram .switchBackup
    (takesOf P .switch) where
  full ptep addr m h := if_pos h
  missing addr m h := if_neg h
  ret pte addr m h := by
    unfold pteCallbackNvramSwitch
    rw [if_neg h]
    simp only
    split <;> rfl
  taken pte addr m h htakes := by
    simp only [takesOf, Bool.and_eq_true, Bool.not_eq_true'] at htakes
    unfold pteCallbackNvramSwitch
    rw [if_neg h]
    simp only [htakes.1, htakes.2, Bool.false_eq_true, if_false, Bool.not_false, if_true]
  passed pte addr m h htakes := by
    unfold pteCallbackNvramSwitch
    rw [if_neg h]
    simp only
    split
    · exact .inl rfl
    · rename_i htier
      simp only
      cases hyoung : pte.young with
      | false => exact .inl rfl
      | true =>
        cases hdirty : pte.dirty with
        | false => simp [takesOf, htier, hyoung, hdirty] at htakes
        | true =>
          simp only [Bool.not_true, Bool.false_eq_true, if_false, if_true]
          by_cases hroom : m.spareOpen .switchBackup
          · exact .inr ⟨hroom, if_pos hroom⟩
          · exact .inl (if_neg hroom)
  commit pte addr m := by
    unfold pteCallbackNvramSwitch
    split
    · exact .inl rfl
    · simp only
      split
      · exact .inl rfl
      · exact .inr rfl

end

/-- The callback of a plain mode. -/
theorem memWalkOps_counting {P : Platform} {mode : FindMode} {cb : PteEntry} {tier : Tier}
    (h : memWalkOps P mode = some (cb, tier)) : Counting cb tier .backup (takesOf P mode) := by
  have hshared {π : Policy P} (hforce : ∀ p, takesOf P mode p = decide (π.verdict p = .primary)) :
      Counting π.callback π.tier π.spare (takesOf P mode) := by
    rw [funext hforce]
    exact π.counting
  cases mode with
  | dram =>
    obtain ⟨rfl, rfl⟩ := Prod.mk.inj (Option.some.inj h)
    exact mem_counting P
  | nvram =>
    obtain ⟨rfl, rfl⟩ := Prod.mk.inj (Option.some.inj h)
    rw [pteCallbackNvramForce_eq P]
    refine hshared (π := nvramForcePolicy P) fun p => ?_
    cases hoff : offTier P .nvram p <;> cases hboth : p.young && p.dirty <;>
      simp [takesOf, nvramForcePolicy, hoff, hboth]
  | nvramIntensive =>
    obtain ⟨rfl, rfl⟩ := Prod.mk.inj (Option.some.inj h)
    exact intensive_counting P
  | nvramWrite =>
    obtain ⟨rfl, rfl⟩ := Prod.mk.inj (Option.some.inj h)
    rw [pteCallbackNvramWrite_eq P]
    refine hshared (π := nvramWritePolicy P) fun p => ?_
    cases hoff : offTier P .nvram p <;> cases hy : p.young <;> cases hd : p.dirty <;>
      simp [takesOf, nvramWritePolicy, nvramReadPolicy, hoff, hy, hd]
  | switch => simp [memWalkOps] at h
  | nvramClear => simp [memWalkOps] at h

end Ambix.MixM
