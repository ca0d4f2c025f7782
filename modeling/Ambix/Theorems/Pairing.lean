import Ambix.Logic.Counts
import Ambix.Theorems.RequestFrame

/-!
# The two sides of a switch

What the two walks of `switch_walk` collect and what the rearrangement makes of it: each
side of the reply is a prefix of that tier's primaries and then its backups, and no entry
is lost in the middle of a shift. The number of pairs is as large as it can be, but for
one case: with fewer DRAM primaries than NVRAM primaries and no DRAM backup at all, the
pairs that are there are thrown away.
-/

namespace Ambix.Hyb

open Ambix.Lib Ambix.Lib.QuotaScan

/-! ## What the walks collect -/

/-- The four lists that the walks of a switch leave in the arrays. -/
structure Collected where
  nvram : List AddrInfo
  switchBackup : List AddrInfo
  dram : List AddrInfo
  backup : List AddrInfo

/-- They are read off the arrays after each walk. With no NVRAM page there is no second
walk. -/
def Sys.collected (P : Platform) (n : Int) (σ : Sys) : Collected :=
  let m₁ := (σ.nvramPhase P n).mod
  let m₂ := (σ.dramPhase P n).mod
  let found := m₁.foundAddrs.slice 0 m₁.nFound
  let spare := m₁.switchBackupAddrs.slice 0 m₁.nSwitchBackup
  if m₁.nFound = 0 ∧ m₁.nSwitchBackup = 0 then ⟨found, spare, [], []⟩
  else ⟨found, spare, m₂.foundAddrs.slice (m₁.nFound + 1) (m₂.nFound - m₁.nFound - 1),
    m₂.backupAddrs.slice 0 m₂.nBackup⟩

/-- The reply is `k` NVRAM entries, a separator and `k` DRAM entries. -/
structure Sections (reply : List AddrInfo) (k : Nat) (nvram dram : List AddrInfo) : Prop where
  entries : ∃ sep : AddrInfo, sep.pidRetval = 0 ∧ reply = nvram ++ sep :: dram
  nvram : nvram.length = k
  dram : dram.length = k

/-- The lists are in walk order: the primaries of each walk, and the pages it put aside. -/
structure InWalkOrder (P : Platform) (n : Nat) (σ : Sys) (w : Collected) : Prop where
  nvram : w.nvram = ((primaries (nvramSwitchPolicy P).classOf
    (tierVisits (nvramSwitchPolicy P) σ)).take n).map Exam.info
  switchBackup : w.switchBackup <+: (backups (nvramSwitchPolicy P).classOf
    (tierVisits (nvramSwitchPolicy P) σ)).map Exam.info
  dram : w.dram <+: (primaries (memPolicy P).classOf (tierVisits (memPolicy P) σ)).map Exam.info
  backup : w.backup <+: (backups (memPolicy P).classOf (tierVisits (memPolicy P) σ)).map Exam.info

/-- `Mod.shiftLeft src dst n`, up to the `i`-th of its copies. -/
def Mod.shiftLeftSteps (src dst n i : Nat) (m : Mod) : Mod :=
  ((List.range n).take i).foldl (fun m i => m.moveFound (dst + i) (src + i)) m

/-- `Mod.shiftRight src dst n`, up to the `i`-th of its copies. -/
def Mod.shiftRightSteps (src dst n i : Nat) (m : Mod) : Mod :=
  ((List.range n).reverse.take i).foldl (fun m i => m.moveFound (dst + i) (src + i)) m

theorem Mod.shiftLeftSteps_all (src dst n : Nat) (m : Mod) :
    m.shiftLeftSteps src dst n n = m.shiftLeft src dst n := by
  simp [Mod.shiftLeftSteps, Mod.shiftLeft, List.take_range]

theorem Mod.shiftRightSteps_all (src dst n : Nat) (m : Mod) :
    m.shiftRightSteps src dst n n = m.shiftRight src dst n := by
  rw [Mod.shiftRightSteps, List.take_of_length_le (by simp)]
  rfl

/-- The two shifts of `pairUp`. After every single copy each entry that is kept can be
read: it is at its old place, or it is at its new place already. -/
structure ShiftsKeep (m : Mod) (w : Collected) : Prop where
  left : ∀ k, k = w.dram.length + w.backup.length → k < w.nvram.length → w.backup ≠ [] →
    ∀ i, i ≤ w.dram.length →
      let found := ((m.setFoundPid k 0).shiftLeftSteps (w.nvram.length + 1) (k + 1)
        w.dram.length i).foundAddrs
      found.slice 0 k = w.nvram.take k ∧
        found.slice (k + 1) i ++ found.slice (w.nvram.length + 1 + i) (w.dram.length - i) = w.dram
  right : ∀ toAdd k, toAdd = min w.switchBackup.length (w.dram.length - w.nvram.length) →
    k = w.nvram.length + toAdd → w.nvram.length < w.dram.length → w.switchBackup ≠ [] →
    ∀ i, i ≤ k →
      let found := (m.shiftRightSteps (w.nvram.length + 1) (w.nvram.length + 1 + toAdd) k i).foundAddrs
      found.slice 0 w.nvram.length = w.nvram ∧
        found.slice (w.nvram.length + 1) (k - i) ++
          found.slice (w.nvram.length + 1 + toAdd + (k - i)) i = w.dram.take k

section

variable {P : Platform} {σ : Sys}

section

variable {n : Nat} {N D : Pick Exam}

theorem Scanned.nFound (h : Scanned P n σ N D) :
    (σ.nvramPhase P n).mod.nFound = N.found.length ∧
      (σ.nvramPhase P n).mod.nSwitchBackup = N.spare.length :=
  ⟨by simpa using h.first.nFound, h.first.nSpare⟩

/-- **The lists** are those of the scans. -/
theorem Scanned.collected (h : Scanned P n σ N D) :
    σ.collected P n = ⟨N.found.map Exam.info, N.spare.map Exam.info, D.found.map Exam.info,
      D.spare.map Exam.info⟩ := by
  obtain ⟨hv, hsb⟩ := h.nFound
  have hN : (σ.nvramPhase P n).mod.foundAddrs.slice 0 N.found.length = N.found.map Exam.info :=
    h.first.found
  have hS : (σ.nvramPhase P n).mod.switchBackupAddrs.slice 0 N.spare.length =
      N.spare.map Exam.info := h.first.spare
  unfold Sys.collected
  simp only [hv, hsb, hN, hS]
  split
  · rename_i hzero
    obtain ⟨rfl, rfl⟩ := h.none hzero
    rfl
  · have hd := h.both.dram_length
    have hD := h.both.dram
    have hB := h.both.backup
    simp only [List.length_map] at hd hD hB
    have hb : (σ.dramPhase P n).mod.nBackup = D.spare.length := by
      simpa using h.both.nBackup
    rw [hd, hb, hD, hB]

theorem Scanned.inWalkOrder (h : Scanned P n σ N D) : InWalkOrder P n σ (σ.collected P n) := by
  rw [h.collected]
  refine ⟨?_, ?_, ?_, ?_⟩
  · rw [← h.nvram, scan_found]
  · rw [← h.nvram]
    exact List.IsPrefix.map _ (scan_backups _ _ _)
  · rw [← h.dram, scan_found]
    exact List.IsPrefix.map _ (List.take_prefix _ _)
  · rw [← h.dram]
    exact List.IsPrefix.map _ (scan_backups _ _ _)

end

/-! ## The shifts -/

theorem Halves.shiftsKeep {m : Mod} {w : Collected}
    (h : Halves m w.nvram w.dram w.backup w.switchBackup) : ShiftsKeep m w where
  left := by
    intro k hk hlt hB i hi
    have hstep : ((m.setFoundPid k 0).shiftLeftSteps (w.nvram.length + 1) (k + 1)
        w.dram.length i).foundAddrs = ((m.setFoundPid k 0).foundAddrs).copyUp
          (w.nvram.length + 1) (k + 1) i := by
      rw [← Mod.shiftLeft_foundAddrs, Mod.shiftLeftSteps, List.take_range, Nat.min_eq_left hi]
      rfl
    simp only [hstep]
    constructor
    · conv_rhs => rw [← h.nvram]
      rw [Arr.take_slice _ _ (Nat.le_of_lt hlt)]
      refine Arr.slice_congr fun j hj => ?_
      rw [Arr.copyUp_apply _ (by omega), if_neg (by omega)]
      exact Arr.set_ne _ _ (by omega)
    · rw [Arr.copyUp_keeps _ (by omega) hi]
      conv_rhs => rw [← h.dram]
      refine Arr.slice_congr fun j hj => ?_
      exact Arr.set_ne _ _ (by omega)
  right := by
    intro toAdd k hadd hk hlt hS i hi
    have hstep : (m.shiftRightSteps (w.nvram.length + 1) (w.nvram.length + 1 + toAdd) k
        i).foundAddrs = m.foundAddrs.copyDown (w.nvram.length + 1 + (k - i))
          (w.nvram.length + 1 + toAdd + (k - i)) i := by
      rw [← Arr.copyDown_take _ _ _ hi]
      exact (List.foldl_hom Mod.foundAddrs fun _ _ => rfl).symm
    simp only [hstep]
    constructor
    · conv_rhs => rw [← h.nvram]
      refine Arr.slice_congr fun j hj => ?_
      rw [Arr.copyDown_apply _ (by omega), if_neg (by omega)]
    · rw [Arr.copyDown_keeps _ (by omega) hi]
      conv_rhs => rw [← h.dram]
      rw [Arr.take_slice _ _ (by omega)]

/-- **The shift that `pairUp` runs to the left** is that of `ShiftsKeep.left`. -/
theorem Halves.pairUp_shiftsLeft {m : Mod} {w : Collected}
    (h : Halves m w.nvram w.dram w.backup w.switchBackup) {k : Nat}
    (hk : k = w.dram.length + w.backup.length) (hlt : k < w.nvram.length) (hB : w.backup ≠ []) :
    pairUp w.nvram.length w.dram.length m =
      (((m.setFoundPid k 0).shiftLeftSteps (w.nvram.length + 1) (k + 1) w.dram.length
        w.dram.length).setNFound (k + 1 + w.dram.length)).appendFound .backup w.backup.length := by
  have hpos := List.length_pos_iff.mpr hB
  have hnb : (((m.setFoundPid k 0).shiftLeft (w.nvram.length + 1) (k + 1)
      w.dram.length).setNFound (k + 1 + w.dram.length)).nBackup = w.backup.length :=
    (foldl_keeps (f := Mod.nBackup) (by intros; rfl) _ _).trans h.nBackup
  unfold pairUp
  rw [if_neg (by omega), if_pos (by rw [h.nBackup]; omega)]
  simp only
  rw [if_pos (by rw [h.nBackup]; omega), Mod.shiftLeftSteps_all, h.nBackup, ← hk, hnb]

/-- **The shift that it runs to the right** is that of `ShiftsKeep.right`. -/
theorem Halves.pairUp_shiftsRight {m : Mod} {w : Collected}
    (h : Halves m w.nvram w.dram w.backup w.switchBackup) {toAdd k : Nat}
    (hadd : toAdd = min w.switchBackup.length (w.dram.length - w.nvram.length))
    (hk : k = w.nvram.length + toAdd) (hlt : w.nvram.length < w.dram.length)
    (hS : w.switchBackup ≠ []) :
    pairUp w.nvram.length w.dram.length m =
      (((m.shiftRightSteps (w.nvram.length + 1) (w.nvram.length + 1 + toAdd) k k).fillNvram
        w.nvram.length toAdd).setFoundPid k 0).setNFound (k * 2 + 1) := by
  have hpos := List.length_pos_iff.mpr hS
  unfold pairUp
  rw [if_neg (by omega), if_neg (by omega), if_pos (by rw [h.nSwitchBackup]; omega)]
  simp only
  rw [Mod.shiftRightSteps_all, h.nSwitchBackup, ← hadd, ← hk]

/-! ## The sections -/

/-- The arrays after both walks hold the lists. -/
theorem collected_halves (P : Platform) {n : Nat} (hn : n ≤ maxNSwitch) {σ : Sys}
    (hfound : σ.mod.nFound = 0) (hlast : ∀ tier, σ.mod.lastPid tier < σ.mod.nPids) :
    Halves (σ.dramPhase P n).mod (σ.collected P n).nvram (σ.collected P n).dram
      (σ.collected P n).backup (σ.collected P n).switchBackup := by
  obtain ⟨N, D, h⟩ := switch_scanned (P := P) hn hfound hlast
  rw [h.collected]
  exact h.both

/-- **What `switch_walk` makes of its walks**: two equally long sections, each a prefix of
that tier's primaries in walk order and then its backups, with no entry lost on the way. -/
theorem switchWalk_sections (P : Platform) {n : Nat} (hn : n ≤ maxNSwitch) {σ : Sys}
    (hfound : σ.mod.nFound = 0) (hlast : ∀ tier, σ.mod.lastPid tier < σ.mod.nPids) :
    (∃ k nvram dram, Sections (switchWalk P n σ).1.mod.reply k nvram dram ∧
        nvram <+: (σ.collected P n).nvram ++ (σ.collected P n).switchBackup ∧
        dram <+: (σ.collected P n).dram ++ (σ.collected P n).backup) ∧
      InWalkOrder P n σ (σ.collected P n) ∧
      ShiftsKeep (σ.dramPhase P n).mod (σ.collected P n) := by
  obtain ⟨N, D, h⟩ := switch_scanned (P := P) hn hfound hlast
  have hpaired := h.paired
  have horder := h.inWalkOrder
  have hkeep := (collected_halves P hn hfound hlast).shiftsKeep
  rw [h.collected] at horder hkeep ⊢
  obtain ⟨hnvram, hdram⟩ := pairLists_length (N.found.map Exam.info) (D.found.map Exam.info)
    (D.spare.map Exam.info) (N.spare.map Exam.info)
  obtain ⟨hpreN, hpreD⟩ := pairLists_prefix (N.found.map Exam.info) (D.found.map Exam.info)
    (D.spare.map Exam.info) (N.spare.map Exam.info)
  exact ⟨⟨_, _, _, ⟨hpaired, hnvram, hdram⟩, hpreN, hpreD⟩, horder, hkeep⟩

/-! ## The number of pairs -/

/-- The reply has every pair that the four lists allow, and those that are ready at least. -/
def KeepsPairs (P : Platform) (n : Nat) (σ : Sys) : Prop :=
  let v := (σ.collected P n).nvram.length
  let sb := (σ.collected P n).switchBackup.length
  let d := (σ.collected P n).dram.length
  let b := (σ.collected P n).backup.length
  ∃ k nvram dram, Sections (switchWalk P n σ).1.mod.reply k nvram dram ∧
    k = min (min (max v d) (v + sb)) (d + b) ∧ min v d ≤ k

/-- Some DRAM primaries, but fewer than the NVRAM primaries that count, and no DRAM
backup. -/
def DropsPairs (P : Platform) (n : Nat) (σ : Sys) : Prop :=
  0 < σ.visitsPrimary (memPolicy P) ∧
    σ.visitsPrimary (memPolicy P) < min n (σ.visitsPrimary (nvramSwitchPolicy P)) ∧
    σ.visitsEligible (memPolicy P) = 0

/-- The sections of a reply are as long as each other, so their length is determined. -/
theorem Sections.unique {reply nvram dram nvram' dram' : List AddrInfo} {k k' : Nat}
    (h : Sections reply k nvram dram) (h' : Sections reply k' nvram' dram') : k = k' := by
  obtain ⟨_, _, heq⟩ := h.entries
  obtain ⟨_, _, heq'⟩ := h'.entries
  have hlen := congrArg List.length heq
  have hlen' := congrArg List.length heq'
  simp only [List.length_append, List.length_cons, h.nvram, h.dram, h'.nvram, h'.dram] at hlen hlen'
  omega

section

variable {n : Nat} {N D : Pick Exam}

/-- The second walk is no longer than the first one's lists. -/
theorem Scanned.dram_le (h : Scanned P n σ N D) :
    D.found.length ≤ N.found.length + N.spare.length := by
  rw [← h.dram, scan_found, List.length_take]
  omega

/-- When the DRAM side is the shorter one, all its primaries are there. -/
theorem Scanned.short_iff (h : Scanned P n σ N D) :
    (D.found.length < N.found.length ∧ D.spare = []) ↔
      σ.visitsPrimary (memPolicy P) < min n (σ.visitsPrimary (nvramSwitchPolicy P)) ∧
        σ.visitsEligible (memPolicy P) = 0 := by
  have hv : N.found.length = min n (σ.visitsPrimary (nvramSwitchPolicy P)) := by
    rw [← h.nvram, scan_found, List.length_take]
    rfl
  have hd : D.found.length =
      min (min (N.found.length + N.spare.length) n) (σ.visitsPrimary (memPolicy P)) := by
    rw [← h.dram, scan_found, List.length_take]
    rfl
  have hlt : D.found.length < N.found.length ↔
      σ.visitsPrimary (memPolicy P) < min n (σ.visitsPrimary (nvramSwitchPolicy P)) := by
    omega
  rw [hlt]
  refine and_congr_right fun hfew => ?_
  -- the walk went on to the end, so it put aside a backup if it met one
  have hopen : (primaries (memPolicy P).classOf (tierVisits (memPolicy P) σ)).length <
      min (N.found.length + N.spare.length) n := by
    have : σ.visitsPrimary (memPolicy P) < min (N.found.length + N.spare.length) n := by omega
    exact this
  obtain ⟨hpre, henough⟩ := scan_spare (memPolicy P).classOf hopen
  rw [h.dram] at hpre henough
  have hvisits : σ.visitsEligible (memPolicy P) =
      (backups (memPolicy P).classOf (tierVisits (memPolicy P) σ)).length := rfl
  rw [hvisits, List.length_eq_zero_iff]
  constructor
  · intro hnone
    rcases henough with hmany | hall
    · rw [hnone, List.length_nil] at hmany
      omega
    · rw [← hall, hnone]
  · intro hnone
    rw [hnone] at hpre
    exact List.prefix_nil.mp hpre

theorem Scanned.dram_pos (h : Scanned P n σ N D) (hshort : D.found.length < N.found.length) :
    0 < D.found.length ↔ 0 < σ.visitsPrimary (memPolicy P) := by
  have hd : D.found.length =
      min (min (N.found.length + N.spare.length) n) (σ.visitsPrimary (memPolicy P)) := by
    rw [← h.dram, scan_found, List.length_take]
    rfl
  have hv : N.found.length ≤ n := by
    rw [← h.nvram, scan_found, List.length_take]
    exact Nat.min_le_left _ _
  omega

end

/-- **`switch_walk` keeps its pairs** unless there are some DRAM primaries, fewer than NVRAM
primaries, and no DRAM backup. -/
theorem switchWalk_keeps_iff (P : Platform) (n : Nat) {σ : Sys} (hfound : σ.mod.nFound = 0)
    (hlast : ∀ tier, σ.mod.lastPid tier < σ.mod.nPids) :
    KeepsPairs P (min maxNSwitch n) σ ↔ ¬ DropsPairs P (min maxNSwitch n) σ := by
  generalize hm : min maxNSwitch n = m
  have hmle : m ≤ maxNSwitch := by omega
  obtain ⟨N, D, h⟩ := switch_scanned (P := P) hmle hfound hlast
  have hle := h.dram_le
  have hlists := h.collected
  have hpaired := h.paired
  obtain ⟨hnvram, hdram⟩ := pairLists_length (N.found.map Exam.info) (D.found.map Exam.info)
    (D.spare.map Exam.info) (N.spare.map Exam.info)
  simp only [List.length_map] at hnvram hdram
  have hsections := Sections.mk hpaired hnvram hdram
  have hbackup : D.spare = [] ↔ D.spare.length = 0 := List.length_eq_zero_iff.symm
  unfold pairSize at hsections
  unfold KeepsPairs DropsPairs
  simp only [hlists, List.length_map]
  by_cases hshort : D.found.length < N.found.length ∧ D.spare = []
  · -- the last branch of `switch_walk`: the separator alone
    obtain ⟨hfew, hnone⟩ := h.short_iff.mp hshort
    rw [hbackup] at hshort
    rw [if_pos (Or.inl hshort)] at hsections
    rw [hshort.2]
    have hpos := h.dram_pos hshort.1
    constructor
    · rintro ⟨k, nvram, dram, hk, hformula, _⟩ ⟨hprimaries, _⟩
      have := hk.unique hsections
      omega
    · intro hkeep
      have hzero : ¬ 0 < σ.visitsPrimary (memPolicy P) := fun hp => hkeep ⟨hp, hfew, hnone⟩
      exact ⟨0, _, _, hsections, by omega, by omega⟩
  · -- the NVRAM side is short of backups only when the second walk found no more
    have hskip : ¬ (D.found.length < N.found.length ∧ D.spare.length = 0 ∨
        N.found.length < D.found.length ∧ N.spare.length = 0) := by
      rw [← hbackup]
      rintro (hs | ⟨hlt, hnone⟩)
      · exact hshort hs
      · omega
    rw [if_neg hskip] at hsections
    refine iff_of_true ⟨_, _, _, hsections, rfl, by omega⟩ ?_
    rintro ⟨_, hfew, hnone⟩
    exact hshort (h.short_iff.mpr ⟨hfew, hnone⟩)

end

/-! ## A pair thrown away -/

/-- One process is bound, with a cold DRAM page and two written NVRAM pages. -/
def oneColdDram : Sys :=
  (Sys.fresh [some [.of 4096 1 false false, .of 8192 1000 true true,
    .of 12288 1001 true true]]).after smallMachine [.of .bind 1 .dram]

theorem oneColdDram_hands (tier : Tier) :
    oneColdDram.refreshed.mod.lastPid tier < oneColdDram.refreshed.mod.nPids := by
  cases tier <;> decide

/-- One pair is ready and none is returned. -/
theorem switch_drops_pair :
    (hyb smallMachine).Reachable oneColdDram ∧
      ¬ KeepsPairs smallMachine (min maxNSwitch 2) oneColdDram.refreshed := by
  refine ⟨Sys.fresh_reachable _ _ _, ?_⟩
  rintro ⟨k, nvram, dram, hk, hformula, _⟩
  have hnone : Sections (switchWalk smallMachine ((min maxNSwitch 2 : Nat) : Int)
      oneColdDram.refreshed).1.mod.reply 0 [] [] := ⟨⟨⟨8192, 0⟩, rfl, by decide⟩, rfl, rfl⟩
  have hone : 1 ≤ min (min (max (oneColdDram.refreshed.collected smallMachine 2).nvram.length
      (oneColdDram.refreshed.collected smallMachine 2).dram.length)
        ((oneColdDram.refreshed.collected smallMachine 2).nvram.length +
          (oneColdDram.refreshed.collected smallMachine 2).switchBackup.length))
      ((oneColdDram.refreshed.collected smallMachine 2).dram.length +
        (oneColdDram.refreshed.collected smallMachine 2).backup.length) := by
    decide
  have hzero := hk.unique hnone
  have htwo : min maxNSwitch 2 = 2 := rfl
  rw [htwo] at hformula
  push_cast at hformula
  omega

theorem switchWalk_keeps_iff_oneColdDram :
    KeepsPairs smallMachine (min maxNSwitch 2) oneColdDram.refreshed ↔
      ¬ DropsPairs smallMachine (min maxNSwitch 2) oneColdDram.refreshed :=
  switchWalk_keeps_iff smallMachine 2 (Sys.refreshed_nFound _) oneColdDram_hands

/-- Two cold DRAM pages, a written and a read NVRAM page: the DRAM section makes room for the
read one. -/
def twoColdDram : Sys :=
  (Sys.fresh [some [.of 4096 1 false false, .of 8192 2 false false, .of 12288 1000 true true,
    .of 16384 1001 true false]]).after smallMachine [.of .bind 1 .dram]

/-- A cold and a warm DRAM page, three written NVRAM pages: one of these is given up. -/
def threeWritten : Sys :=
  (Sys.fresh [some [.of 4096 1 false false, .of 8192 2 true false, .of 12288 1000 true true,
    .of 16384 1001 true true, .of 20480 1002 true true]]).after smallMachine [.of .bind 1 .dram]

theorem twoColdDram_hands (tier : Tier) :
    twoColdDram.refreshed.mod.lastPid tier < twoColdDram.refreshed.mod.nPids := by
  cases tier <;> decide

theorem threeWritten_hands (tier : Tier) :
    threeWritten.refreshed.mod.lastPid tier < threeWritten.refreshed.mod.nPids := by
  cases tier <;> decide

/-- One shift to the right by one entry and one to the left, and what comes back. -/
theorem switchWalk_sections_shifted :
    (ShiftsKeep (twoColdDram.refreshed.dramPhase smallMachine 2).mod
        (twoColdDram.refreshed.collected smallMachine 2) ∧
      pairUp 1 2 (twoColdDram.refreshed.dramPhase smallMachine 2).mod =
        (((((twoColdDram.refreshed.dramPhase smallMachine 2).mod).shiftRightSteps 2 3 2 2).fillNvram
          1 1).setFoundPid 2 0).setNFound 5 ∧
      (switchWalk smallMachine 2 twoColdDram.refreshed).1.mod.reply =
        [⟨12288, 1⟩, ⟨16384, 1⟩, ⟨4096, 0⟩, ⟨4096, 1⟩, ⟨8192, 1⟩]) ∧
    (ShiftsKeep (threeWritten.refreshed.dramPhase smallMachine 3).mod
        (threeWritten.refreshed.collected smallMachine 3) ∧
      pairUp 3 1 (threeWritten.refreshed.dramPhase smallMachine 3).mod =
        ((((threeWritten.refreshed.dramPhase smallMachine 3).mod.setFoundPid 2 0).shiftLeftSteps
          4 3 1 1).setNFound 4).appendFound .backup 1 ∧
      (switchWalk smallMachine 3 threeWritten.refreshed).1.mod.reply =
        [⟨12288, 1⟩, ⟨16384, 1⟩, ⟨20480, 0⟩, ⟨4096, 1⟩, ⟨8192, 1⟩]) := by
  have hright := switchWalk_sections smallMachine (n := 2) (by decide) (Sys.refreshed_nFound _)
    twoColdDram_hands
  have hleft := switchWalk_sections smallMachine (n := 3) (by decide) (Sys.refreshed_nFound _)
    threeWritten_hands
  have hhalves := collected_halves smallMachine (n := 2) (by decide) (Sys.refreshed_nFound _)
    twoColdDram_hands
  have hhalves' := collected_halves smallMachine (n := 3) (by decide) (Sys.refreshed_nFound _)
    threeWritten_hands
  refine ⟨⟨hright.2.2, ?_, by decide⟩, hleft.2.2, ?_, by decide⟩
  · exact hhalves.pairUp_shiftsRight (k := 2) (by decide) (by decide) (by decide) (by decide)
  · exact hhalves'.pairUp_shiftsLeft (k := 2) (by decide) (by decide) (by decide)

end Ambix.Hyb
