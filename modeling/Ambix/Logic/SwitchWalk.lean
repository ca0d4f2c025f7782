import Ambix.Logic.Frame
import Ambix.Logic.MemWalk

/-!
# What `switch_walk` returns

After its two walks `found_addrs` holds the NVRAM pages found, a separator and the
DRAM pages found. `pairUp` cuts, shifts and fills that array in place until both
sides are equally long:

* `pairLists` is the outcome on lists, with no array in sight, and `pairLists_eq` its closed
  form: each side is cut from the pages found and then the backups;
* `pairUp_spec` says the in-place loops compute it;
* `switchWalk_spec` says both sides are selections of one length `pairCount`.
-/

namespace Ambix.Hyb

open Ambix.Lib Ambix.Lib.QuotaScan

/-! ## The two sides as lists -/

section

variable {α : Type*}

/-- The sides that `switch_walk` makes of the NVRAM pages `N` and DRAM pages `D`
found, with the backups `S` of the first and `B` of the second walk. -/
def pairLists (N D B S : List α) : List α × List α :=
  if D.length = N.length then (N, D)
  else if D.length < N.length ∧ B ≠ [] then
    let k := min N.length (D.length + B.length)
    (N.take k, D ++ B.take (k - D.length))
  else if N.length < D.length ∧ S ≠ [] then
    let k := min D.length (N.length + S.length)
    (N ++ S.take (k - N.length), D.take k)
  else ([], [])

/-- The number of pairs that `pairUp` makes of `n`, `d`, `b` and `s` pages: as many as the
lists allow, but none when the shorter side has no backup. -/
def pairSize (n d b s : Nat) : Nat :=
  if d < n ∧ b = 0 ∨ n < d ∧ s = 0 then 0 else min (min (max n d) (n + s)) (d + b)

/-- Each side is the beginning of the pages found and then the backups. -/
theorem pairLists_eq (N D B S : List α) :
    pairLists N D B S =
      ((N ++ S).take (pairSize N.length D.length B.length S.length),
        (D ++ B).take (pairSize N.length D.length B.length S.length)) := by
  unfold pairLists pairSize
  simp only [ne_eq, ← List.length_eq_zero_iff]
  split
  · rename_i heq
    rw [if_neg (by omega), List.take_left' (by omega), List.take_left' (by omega)]
  · split
    · rename_i hne hlt
      have hk : min (min (max N.length D.length) (N.length + S.length)) (D.length + B.length) =
          min N.length (D.length + B.length) := by omega
      rw [if_neg (by omega), hk, List.take_append_of_le_length (Nat.min_le_left _ _),
        List.take_append, List.take_of_length_le (l := D) (by omega)]
    · split
      · rename_i hne hnlt hlt
        have hk : min (min (max N.length D.length) (N.length + S.length)) (D.length + B.length) =
            min D.length (N.length + S.length) := by omega
        have hcut : min D.length (N.length + S.length) ≤ D.length := Nat.min_le_left _ _
        rw [if_neg (by omega), hk, List.take_append_of_le_length hcut, List.take_append,
          List.take_of_length_le (l := N) (by omega)]
      · rw [if_pos (by omega), List.take_zero, List.take_zero]

/-- `pairUp` invents nothing and mixes nothing. -/
theorem pairLists_prefix (N D B S : List α) :
    (pairLists N D B S).1 <+: N ++ S ∧ (pairLists N D B S).2 <+: D ++ B := by
  rw [pairLists_eq]
  exact ⟨List.take_prefix _ _, List.take_prefix _ _⟩

theorem pairLists_length (N D B S : List α) :
    (pairLists N D B S).1.length = pairSize N.length D.length B.length S.length ∧
      (pairLists N D B S).2.length = pairSize N.length D.length B.length S.length := by
  have hle : pairSize N.length D.length B.length S.length ≤ N.length + S.length ∧
      pairSize N.length D.length B.length S.length ≤ D.length + B.length := by
    unfold pairSize
    split <;> omega
  rw [pairLists_eq, List.length_take, List.length_take, List.length_append, List.length_append]
  omega

/-- What `pairUp` makes of the sides is taken from its four lists. -/
theorem mem_pairLists {N D B S : List α} {x : α}
    (h : x ∈ (pairLists N D B S).1 ++ (pairLists N D B S).2) : x ∈ (N ++ S) ++ (D ++ B) := by
  obtain ⟨hN, hD⟩ := pairLists_prefix N D B S
  rcases List.mem_append.mp h with h | h
  · exact List.mem_append_left _ (hN.subset h)
  · exact List.mem_append_right _ (hD.subset h)

end

/-! ## The array loops -/

section Loops

variable (m : Mod)

/-- What no step of a loop changes, the loop does not change. -/
theorem foldl_keeps {β γ : Type*} {g : β → Nat → β} {f : β → γ}
    (h : ∀ b i, f (g b i) = f b) (is : List Nat) (b : β) : f (is.foldl g b) = f b := by
  induction is generalizing b with
  | nil => rfl
  | cons i is ih => rw [List.foldl_cons, ih, h]

theorem Mod.shiftLeft_foundAddrs (src dst n : Nat) :
    (m.shiftLeft src dst n).foundAddrs = m.foundAddrs.copyUp src dst n :=
  (List.foldl_hom Mod.foundAddrs fun _ _ => rfl).symm

theorem Mod.shiftRight_foundAddrs (src dst n : Nat) :
    (m.shiftRight src dst n).foundAddrs = m.foundAddrs.copyDown src dst n :=
  (List.foldl_hom Mod.foundAddrs fun _ _ => rfl).symm

theorem Mod.shiftLeft_spareAddrs (src dst n : Nat) (s : Spare) :
    (m.shiftLeft src dst n).spareAddrs s = m.spareAddrs s :=
  foldl_keeps (f := fun m => m.spareAddrs s) (by intros; cases s <;> rfl) _ m

theorem Mod.shiftRight_switchBackupAddrs (src dst n : Nat) :
    (m.shiftRight src dst n).switchBackupAddrs = m.switchBackupAddrs :=
  foldl_keeps (f := Mod.switchBackupAddrs) (by intros; rfl) _ m

theorem Mod.fillNvram_succ (lo n : Nat) :
    (m.fillNvram lo (n + 1)).foundAddrs =
      (m.fillNvram lo n).foundAddrs.set (lo + n) ((m.fillNvram lo n).switchBackupAddrs n) := by
  simp [Mod.fillNvram, List.range_succ]

@[simp] theorem Mod.fillNvram_switchBackupAddrs (lo n : Nat) :
    (m.fillNvram lo n).switchBackupAddrs = m.switchBackupAddrs :=
  foldl_keeps (f := Mod.switchBackupAddrs) (by intros; rfl) _ m

theorem Mod.fillNvram_apply (lo n i : Nat) :
    (m.fillNvram lo n).foundAddrs i =
      if lo ≤ i ∧ i < lo + n then m.switchBackupAddrs (i - lo) else m.foundAddrs i := by
  induction n with
  | zero => simp [Mod.fillNvram, show ¬(lo ≤ i ∧ i < lo) by omega]
  | succ n ih =>
    rw [fillNvram_succ, Arr.set_apply, fillNvram_switchBackupAddrs, ih]
    by_cases hi : i = lo + n
    · subst hi
      simp
    · rw [if_neg hi]
      by_cases hin : lo ≤ i ∧ i < lo + n
      · rw [if_pos hin, if_pos (by omega)]
      · rw [if_neg hin, if_neg (by omega)]

/-- A section cut at one slot. -/
theorem Arr.slice_cut {α : Type*} (a : Arr α) (v d : Nat) :
    a.slice 0 (v + 1 + d) = a.slice 0 v ++ a v :: a.slice (v + 1) d := by
  rw [Arr.slice_add, Arr.slice_succ, Nat.zero_add, Nat.zero_add, List.append_assoc]
  rfl

end Loops

/-! ## `pairUp` -/

/-- The arrays after the two walks of `switch_walk`. -/
structure Halves (m : Mod) (N D B S : List AddrInfo) : Prop where
  nFound : m.nFound = N.length + 1 + D.length
  nvram : m.foundAddrs.slice 0 N.length = N
  sep : (m.foundAddrs N.length).pidRetval = 0
  dram : m.foundAddrs.slice (N.length + 1) D.length = D
  nBackup : m.nBackup = B.length
  backup : m.backupAddrs.slice 0 B.length = B
  nSwitchBackup : m.nSwitchBackup = S.length
  switchBackup : m.switchBackupAddrs.slice 0 S.length = S

/-- Two sides with a separator between them. -/
def Paired (reply : List AddrInfo) (sides : List AddrInfo × List AddrInfo) : Prop :=
  ∃ sep : AddrInfo, sep.pidRetval = 0 ∧ reply = sides.1 ++ sep :: sides.2

section

variable {m : Mod} {N D B S : List AddrInfo}

/-- What `pairUp` is told about the DRAM side. -/
theorem Halves.dram_length (h : Halves m N D B S) : m.nFound - N.length - 1 = D.length := by
  have := h.nFound
  omega

theorem Halves.same (h : Halves m N D B S) : Paired m.reply (N, D) := by
  refine ⟨m.foundAddrs N.length, h.sep, ?_⟩
  rw [Mod.reply, h.nFound, Arr.slice_cut, h.nvram, h.dram]

/-- Fewer DRAM pages, enough backups: they are appended. -/
theorem Halves.topUp (h : Halves m N D B S) {c : Nat} (hc : c ≤ B.length) :
    Paired (m.appendFound .backup c).reply (N, D ++ B.take c) := by
  refine ⟨m.foundAddrs N.length, h.sep, ?_⟩
  have hB : (m.spareAddrs .backup).slice 0 c = B.take c := by
    rw [← h.backup, Arr.take_slice _ _ hc]
    rfl
  have hreply := h.same
  rw [Mod.reply, Mod.nFound_appendFound, Mod.appendFound_slice _ _ _ (Nat.zero_add _), hB,
    h.nFound, Arr.slice_cut, h.nvram, h.dram]
  simp

/-- Fewer DRAM pages even with all backups: NVRAM pages are dropped and the DRAM
side moves left. -/
theorem Halves.moveLeft (h : Halves m N D B S) {k : Nat} (hk : k = D.length + B.length)
    (hlt : k < N.length) :
    Paired ((((m.setFoundPid k 0).shiftLeft (N.length + 1) (k + 1) D.length).setNFound
        (k + 1 + D.length)).appendFound .backup B.length).reply
      (N.take k, D ++ B) := by
  generalize hm₁ : (m.setFoundPid k 0).shiftLeft (N.length + 1) (k + 1) D.length = m₁
  -- the array after the shift: the DRAM pages, the separator at `k`, the rest as it was
  have hfound : ∀ i, m₁.foundAddrs i =
      if k + 1 ≤ i ∧ i < k + 1 + D.length then m.foundAddrs (N.length + 1 + (i - (k + 1)))
      else if i = k then { m.foundAddrs k with pidRetval := 0 } else m.foundAddrs i := by
    intro i
    rw [← hm₁, Mod.shiftLeft_foundAddrs, Arr.copyUp_apply _ (by omega)]
    simp only [Mod.setFoundPid, Arr.set_apply]
    split
    · rw [if_neg (by omega)]
    · rfl
  have hspare : (m₁.spareAddrs .backup).slice 0 B.length = B := by
    rw [← hm₁, Mod.shiftLeft_spareAddrs]
    exact h.backup
  generalize hm₂ : m₁.setNFound (k + 1 + D.length) = m₂
  have hn₂ : m₂.nFound = k + 1 + D.length := by rw [← hm₂]; rfl
  have hf₂ : m₂.foundAddrs = m₁.foundAddrs := by rw [← hm₂]; rfl
  have hs₂ : m₂.spareAddrs .backup = m₁.spareAddrs .backup := by rw [← hm₂]; rfl
  have hleft : m₂.foundAddrs.slice 0 k = N.take k := by
    rw [← h.nvram, Arr.take_slice _ _ (Nat.le_of_lt hlt), hf₂]
    refine Arr.slice_congr fun j hj => ?_
    rw [hfound, if_neg (by omega), if_neg (by omega)]
  have hsep : (m₂.foundAddrs k).pidRetval = 0 := by
    rw [hf₂, hfound, if_neg (by omega), if_pos rfl]
  have hright : m₂.foundAddrs.slice (k + 1) D.length = D := by
    conv_rhs => rw [← h.dram]
    simp only [Arr.slice, hf₂]
    refine List.map_congr_left fun j hj => ?_
    have hj := List.mem_range.mp hj
    rw [hfound, if_pos (by omega)]
    congr 1
    omega
  refine ⟨m₂.foundAddrs k, hsep, ?_⟩
  rw [Mod.reply, Mod.nFound_appendFound, Mod.appendFound_slice _ _ _ (Nat.zero_add _), hs₂,
    hspare, hn₂, Arr.slice_cut, hleft, hright]
  simp

/-- Fewer NVRAM pages: the DRAM side moves right and backups fill the gap. -/
theorem Halves.moveRight (h : Halves m N D B S) {c k : Nat} (hc : c ≤ S.length)
    (hk : k = N.length + c) (hle : k ≤ D.length) :
    Paired ((((m.shiftRight (N.length + 1) (N.length + 1 + c) k).fillNvram N.length c).setFoundPid
        k 0).setNFound (k * 2 + 1)).reply
      (N ++ S.take c, D.take k) := by
  generalize hm₁ : m.shiftRight (N.length + 1) (N.length + 1 + c) k = m₁
  have hfound₁ : ∀ i, m₁.foundAddrs i =
      if N.length + 1 + c ≤ i ∧ i < N.length + 1 + c + k then
        m.foundAddrs (N.length + 1 + (i - (N.length + 1 + c)))
      else m.foundAddrs i := by
    intro i
    rw [← hm₁, Mod.shiftRight_foundAddrs, Arr.copyDown_apply _ (by omega)]
  have hspare : m₁.switchBackupAddrs = m.switchBackupAddrs := by
    rw [← hm₁, Mod.shiftRight_switchBackupAddrs]
  generalize hm₂ : (m₁.fillNvram N.length c).setFoundPid k 0 = m₂
  -- the gap the shift opened holds the backups; the separator at `k` is apart
  have hfound : ∀ i, i ≠ k → m₂.foundAddrs i =
      if N.length ≤ i ∧ i < N.length + c then m.switchBackupAddrs (i - N.length)
      else m₁.foundAddrs i := by
    intro i hi
    rw [← hm₂, ← hspare, ← Mod.fillNvram_apply]
    exact Arr.set_ne _ _ hi
  have hsep : (m₂.foundAddrs k).pidRetval = 0 := by
    rw [← hm₂]
    simp [Mod.setFoundPid]
  have hleft : m₂.foundAddrs.slice 0 k = N ++ S.take c := by
    rw [hk, Arr.slice_add]
    congr 1
    · conv_rhs => rw [← h.nvram]
      refine Arr.slice_congr fun j hj => ?_
      rw [hfound _ (by omega), if_neg (by omega), hfound₁, if_neg (by omega)]
    · rw [← h.switchBackup, Arr.take_slice _ _ hc]
      simp only [Arr.slice]
      refine List.map_congr_left fun j hj => ?_
      have hj := List.mem_range.mp hj
      rw [hfound _ (by omega), if_pos (by omega)]
      congr 1
      omega
  have hright : m₂.foundAddrs.slice (k + 1) k = D.take k := by
    rw [← h.dram, Arr.take_slice _ _ hle]
    simp only [Arr.slice]
    refine List.map_congr_left fun j hj => ?_
    have hj := List.mem_range.mp hj
    rw [hfound _ (by omega), if_neg (by omega), hfound₁, if_pos (by omega)]
    congr 1
    omega
  refine ⟨m₂.foundAddrs k, hsep, ?_⟩
  have hlen : k * 2 + 1 = k + 1 + k := by omega
  simp only [Mod.reply, Mod.setNFound]
  rw [hlen, Arr.slice_cut, hleft, hright]

/-- **The in-place rearrangement computes `pairLists`.** -/
theorem pairUp_spec (h : Halves m N D B S) :
    Paired (pairUp N.length D.length m).reply (pairLists N D B S) := by
  have hB : 0 < m.nBackup ↔ B ≠ [] := by rw [h.nBackup, List.length_pos_iff]
  have hS : 0 < m.nSwitchBackup ↔ S ≠ [] := by rw [h.nSwitchBackup, List.length_pos_iff]
  unfold pairUp pairLists
  simp only [hB, hS]
  split
  · exact h.same
  · split
    · rename_i hne hlt
      rw [h.nBackup]
      split
      · -- not even all backups make up for the NVRAM pages
        rename_i hfew
        have hk : min N.length (D.length + B.length) = D.length + B.length := by omega
        have htake : B.take (D.length + B.length - D.length) = B :=
          List.take_of_length_le (by omega)
        rw [hk, htake]
        have hnb : (((m.setFoundPid (D.length + B.length) 0).shiftLeft (N.length + 1)
            (D.length + B.length + 1) D.length).setNFound
              (D.length + B.length + 1 + D.length)).nBackup = B.length := by
          rw [← h.nBackup]
          exact foldl_keeps (f := Mod.nBackup) (by intros; rfl) _ _
        rw [hnb]
        exact h.moveLeft rfl (by omega)
      · -- backups after the DRAM pages, nothing moves
        rename_i henough
        have hk : min N.length (D.length + B.length) = N.length := by omega
        rw [hk, List.take_of_length_le (Nat.le_refl _)]
        exact h.topUp (by omega)
    · split
      · rename_i hne _ hlt
        rw [h.nSwitchBackup]
        have hk : min D.length (N.length + S.length) =
            N.length + min S.length (D.length - N.length) := by omega
        rw [hk, Nat.add_sub_cancel_left]
        exact h.moveRight (Nat.min_le_left _ _) rfl (by omega)
      · -- one side has no page and no backup: the separator alone
        refine ⟨({ m.foundAddrs 0 with pidRetval := 0 } : AddrInfo), rfl, ?_⟩
        simp [Mod.reply, Mod.setFoundPid, Mod.setNFound, Arr.slice_cons]

end

/-! ## The sides as selections -/

/-- The number of pairs `switch_walk` returns for a quota, given the primaries and
backups of the NVRAM walk and of the DRAM walk. -/
def pairCount (n pN eN pD eD : Nat) : Nat :=
  let v := min n pN
  let d := min (min n (v + eN)) pD
  if v ≤ d then d else if 0 < eD then min v (d + eD) else 0

theorem pairCount_le (n pN eN pD eD : Nat) :
    pairCount n pN eN pD eD ≤ n ∧ pairCount n pN eN pD eD ≤ pN + eN ∧
      pairCount n pN eN pD eD ≤ pD + eD := by
  unfold pairCount
  simp only
  split
  · omega
  · split <;> omega

section

variable {α : Type*} (v : α → Verdict)

theorem select_of_le {k : Nat} {xs : List α} (h : k ≤ (primaries v xs).length) :
    select v k xs = (primaries v xs).take k := by
  rw [select_eq_take, List.take_append_of_le_length h]

/-- The second quota does not see that the first walk bounded its backup list. -/
theorem second_quota (n : Nat) (xs : List α) :
    min ((scan v n xs Pick.empty).found.length + (scan v n xs Pick.empty).spare.length) n =
      min n (min n (primaries v xs).length + (backups v xs).length) := by
  rw [scan_found, List.length_take]
  by_cases h : (primaries v xs).length < n
  · obtain ⟨hpre, henough⟩ := scan_spare v h
    have hle := hpre.length_le
    rcases henough with hmany | hall
    · omega
    · rw [hall]
      omega
  · omega

variable {v} {w : α → Verdict} {n : Nat} {xs ys : List α}

/-- **Both sides are selections of one length.** -/
theorem pairLists_scan {m : Nat} {N D : Pick α} (hN : scan v n xs Pick.empty = N)
    (hm : min (N.found.length + N.spare.length) n = m) (hD : scan w m ys Pick.empty = D) :
    pairLists N.found D.found D.spare N.spare =
      (select v (pairCount n (primaries v xs).length (backups v xs).length
          (primaries w ys).length (backups w ys).length) xs,
        select w (pairCount n (primaries v xs).length (backups v xs).length
          (primaries w ys).length (backups w ys).length) ys) := by
  have hquota := second_quota v n xs
  have hNl : N.found.length = min n (primaries v xs).length := by
    rw [← hN, scan_found, List.length_take]
  have hDl : D.found.length = min m (primaries w ys).length := by
    rw [← hD, scan_found, List.length_take]
  rw [hN, hm, ← hNl] at hquota
  obtain ⟨hkn, hkN, _⟩ := pairCount_le n (primaries v xs).length (backups v xs).length
    (primaries w ys).length (backups w ys).length
  -- with fewer DRAM pages the second walk has met its end, so its backups show what there is
  have hfew : D.found.length < N.found.length → D.spare.length ≤ (backups w ys).length ∧
      (m - (primaries w ys).length ≤ D.spare.length ∨
        D.spare.length = (backups w ys).length) := by
    intro hlt
    obtain ⟨hpre, henough⟩ := scan_spare w (show (primaries w ys).length < m by omega)
    rw [hD] at hpre henough
    exact ⟨hpre.length_le, henough.imp_right (congrArg List.length)⟩
  have hsize : pairSize N.found.length D.found.length D.spare.length N.spare.length =
      pairCount n (primaries v xs).length (backups v xs).length
        (primaries w ys).length (backups w ys).length := by
    unfold pairSize pairCount
    simp only
    rw [← hNl, ← hquota, ← hDl]
    split
    · rename_i hnone
      rcases hnone with ⟨hlt, hB⟩ | ⟨hlt, hS⟩
      · -- the walk put nothing aside, so there was nothing
        have hnob : (backups w ys).length = 0 := by
          rcases (hfew hlt).2 with hmany | hall
          · omega
          · rw [← hall, hB]
        rw [if_neg (Nat.not_le_of_lt hlt), if_neg (by rw [hnob]; exact Nat.lt_irrefl 0)]
      · omega
    · rename_i hsome
      split
      · rename_i hge
        have hroom : D.found.length ≤ N.found.length + N.spare.length := by omega
        rw [Nat.max_eq_right hge, Nat.min_eq_left hroom, Nat.min_eq_left (Nat.le_add_right _ _)]
      · rename_i hlt
        have hlt := Nat.lt_of_not_le hlt
        rw [Nat.max_eq_left (Nat.le_of_lt hlt), Nat.min_eq_left (Nat.le_add_right _ _)]
        obtain ⟨hle, hmany | hall⟩ := hfew hlt
        · -- enough was put aside for every NVRAM page
          have hend : N.found.length ≤ D.found.length + D.spare.length := by omega
          rw [if_pos (by omega), Nat.min_eq_left hend, Nat.min_eq_left (by omega)]
        · rw [← hall, if_pos (by omega)]
  rw [pairLists_eq, hsize, ← hN, ← hD, take_scan v hkn, take_scan w (by omega)]

end

/-! ## The specification -/

/-- The NVRAM walk of a switch resets nothing. -/
theorem nvramSwitchPolicy_still (P : Platform) (ptep : Option Pte) (addr : Nat) (m : Mod) :
    ((nvramSwitchPolicy P).callback ptep addr m).commit = none := by
  unfold Policy.callback
  split
  · rfl
  · cases ptep <;> rfl

/-- The number of pairs a switch with quota `n` returns. -/
def switchCount (P : Platform) (n : Nat) (σ : Sys) : Nat :=
  let VN := tierVisits (nvramSwitchPolicy P) σ
  let VD := tierVisits (memPolicy P) σ
  pairCount n (primaries (nvramSwitchPolicy P).classOf VN).length
    (backups (nvramSwitchPolicy P).classOf VN).length
    (primaries (memPolicy P).classOf VD).length (backups (memPolicy P).classOf VD).length

/-- The sides of a switch with quota `n`: the first `switchCount` candidates of
each walk, both on the page tables as they were. -/
def switchSides (P : Platform) (n : Nat) (σ : Sys) : List AddrInfo × List AddrInfo :=
  ((select (nvramSwitchPolicy P).classOf (switchCount P n σ)
      (tierVisits (nvramSwitchPolicy P) σ)).map Exam.info,
    (select (memPolicy P).classOf (switchCount P n σ) (tierVisits (memPolicy P) σ)).map Exam.info)

section

variable {P : Platform}

theorem switchSides_length (n : Nat) (σ : Sys) :
    (switchSides P n σ).1.length = switchCount P n σ ∧
      (switchSides P n σ).2.length = switchCount P n σ := by
  obtain ⟨_, hN, hD⟩ := pairCount_le n
    (primaries (nvramSwitchPolicy P).classOf (tierVisits (nvramSwitchPolicy P) σ)).length
    (backups (nvramSwitchPolicy P).classOf (tierVisits (nvramSwitchPolicy P) σ)).length
    (primaries (memPolicy P).classOf (tierVisits (memPolicy P) σ)).length
    (backups (memPolicy P).classOf (tierVisits (memPolicy P) σ)).length
  constructor
  · simp only [switchSides, List.length_map, length_select, switchCount]
    omega
  · simp only [switchSides, List.length_map, length_select, switchCount]
    omega

theorem pairLists_map {α β : Type*} (f : α → β) (N D B S : List α) :
    pairLists (N.map f) (D.map f) (B.map f) (S.map f) =
      ((pairLists N D B S).1.map f, (pairLists N D B S).2.map f) := by
  unfold pairLists
  simp only [List.length_map, ne_eq, List.map_eq_nil_iff]
  split
  · rfl
  · split
    · simp
    · split <;> simp

/-- The visits depend on the tables, the registry and the tier's own hand. -/
theorem tierVisits_congr {σ σ' : Sys} (π : Policy P) (hk : σ'.kernel = σ.kernel)
    (hmm : σ'.mm = σ.mm) (hitems : σ'.mod.taskItems = σ.mod.taskItems)
    (hpids : σ'.mod.nPids = σ.mod.nPids)
    (hpid : σ'.mod.lastPid π.tier = σ.mod.lastPid π.tier)
    (haddr : σ'.mod.lastAddr π.tier = σ.mod.lastAddr π.tier) :
    tierVisits π σ' = tierVisits π σ := by
  unfold tierVisits
  rw [hk, hmm, hitems, hpids, hpid, haddr]

/-- Where `switch_walk` goes on after the NVRAM walk, with the quota of the DRAM walk. -/
def switchMid (n : Int) (σ₁ : Sys) : Sys :=
  { σ₁ with
    mod := ((σ₁.mod.setFoundPid σ₁.mod.nFound 0).setNFound (σ₁.mod.nFound + 1)).setQuota .backup
      (((σ₁.mod.nFound + 1 : Nat) : Int) +
        intMin ((σ₁.mod.nFound : Int) + (σ₁.mod.nSwitchBackup : Int)) n) }

/-- `switch_walk` as its two walks, whatever the quota. -/
theorem switchWalk_phases (P : Platform) (n : Int) (σ : Sys) :
    switchWalk P n σ =
      let σ₁ := walkTier (nvramSwitchPolicy P).callback .nvram
        { σ with mod := σ.mod.setQuota .switchBackup n }
      if σ₁.mod.nFound = 0 ∧ σ₁.mod.nSwitchBackup = 0 then
        ({ σ₁ with mod := (σ₁.mod.setFoundPid σ₁.mod.nFound 0).setNFound (σ₁.mod.nFound + 1) }, -1)
      else
        let σ₂ := walkTier (memPolicy P).callback .dram (switchMid n σ₁)
        ({ σ₂ with mod := pairUp σ₁.mod.nFound (σ₂.mod.nFound - σ₁.mod.nFound - 1) σ₂.mod }, 0) := by
  unfold switchWalk
  simp only [pteCallbackNvramSwitch_eq P, pteCallbackMem_eq P]
  rfl

/-- The state of `switch_walk` between its two walks. -/
def Sys.nvramPhase (P : Platform) (n : Int) (σ : Sys) : Sys :=
  walkTier (pteCallbackNvramSwitch P) .nvram { σ with mod := σ.mod.setQuota .switchBackup n }

/-- The state of `switch_walk` after its second walk. -/
def Sys.dramPhase (P : Platform) (n : Int) (σ : Sys) : Sys :=
  walkTier (pteCallbackMem P) .dram (switchMid n (σ.nvramPhase P n))

theorem nvramPhase_eq (n : Int) (σ : Sys) : σ.nvramPhase P n =
    walkTier (nvramSwitchPolicy P).callback .nvram
      { σ with mod := σ.mod.setQuota .switchBackup n } := by
  unfold Sys.nvramPhase
  rw [pteCallbackNvramSwitch_eq]

theorem dramPhase_eq (n : Int) (σ : Sys) :
    σ.dramPhase P n = walkTier (memPolicy P).callback .dram (switchMid n (σ.nvramPhase P n)) := by
  unfold Sys.dramPhase
  rw [pteCallbackMem_eq]

theorem switchWalk_nvramPhase (P : Platform) (n : Int) (σ : Sys) :
    switchWalk P n σ =
      let σ₁ := σ.nvramPhase P n
      if σ₁.mod.nFound = 0 ∧ σ₁.mod.nSwitchBackup = 0 then
        ({ σ₁ with mod := (σ₁.mod.setFoundPid σ₁.mod.nFound 0).setNFound (σ₁.mod.nFound + 1) }, -1)
      else
        let σ₂ := walkTier (memPolicy P).callback .dram (switchMid n σ₁)
        ({ σ₂ with mod := pairUp σ₁.mod.nFound (σ₂.mod.nFound - σ₁.mod.nFound - 1) σ₂.mod }, 0) := by
  rw [switchWalk_phases]
  unfold Sys.nvramPhase
  rw [pteCallbackNvramSwitch_eq]

/-- Between the two walks of a switch: the DRAM walk finds what it would have found
at the start. -/
structure DramReady (σ σ₁ : Sys) : Prop where
  kernel : σ₁.kernel = σ.kernel
  mm : σ₁.mm = σ.mm
  taskItems : σ₁.mod.taskItems = σ.mod.taskItems
  nPids : σ₁.mod.nPids = σ.mod.nPids
  lastPid : σ₁.mod.lastPid .dram = σ.mod.lastPid .dram
  lastAddr : σ₁.mod.lastAddr .dram = σ.mod.lastAddr .dram
  owner : σ₁.mod.owner .dram = σ.mod.owner .dram

theorem dramReady (n : Int) {σ : Sys} (hlast : ∀ tier, σ.mod.lastPid tier < σ.mod.nPids) :
    DramReady σ (walkTier (nvramSwitchPolicy P).callback .nvram
      { σ with mod := σ.mod.setQuota .switchBackup n }) := by
  have hdram : Tier.dram ≠ (nvramSwitchPolicy P).tier := by
    simp [nvramSwitchPolicy, nvramReadPolicy]
  generalize hσ₀ : ({ σ with mod := σ.mod.setQuota .switchBackup n } : Sys) = σ₀
  have hlast₀ : σ₀.mod.lastPid (nvramSwitchPolicy P).tier < σ₀.mod.nPids := by
    subst hσ₀
    exact hlast .nvram
  obtain ⟨hitems, hpids, _, hother⟩ := walkTier_registry (nvramSwitchPolicy P).quiet .nvram hlast₀
  have hmm := walkTier_still (nvramSwitchPolicy_still P) .nvram σ₀
  have hkernel := walkTier_kernel _ (nvramSwitchPolicy P).quiet .nvram σ₀
  obtain ⟨haddr, howner⟩ := walkTier_lastAddr (nvramSwitchPolicy P) hdram.symm hlast₀
  subst hσ₀
  exact ⟨hkernel, hmm, hitems, hpids, hother .dram hdram, haddr, howner⟩

/-- What the DRAM walk of a switch starts from is what it would have been at the start. -/
theorem DramReady.visits {n : Int} {σ σ₁ : Sys} (h : DramReady σ σ₁) :
    tierVisits (memPolicy P) (switchMid n σ₁) = tierVisits (memPolicy P) σ :=
  tierVisits_congr (memPolicy P) h.kernel h.mm h.taskItems h.nPids h.lastPid h.lastAddr

/-- The arrays after both walks, whatever the quotas: the two halves `pairUp` works on. -/
theorem halves_of_filled {n : Int} {N D : Pick Exam} {σ₁ : Sys}
    (hN : Filled (nvramSwitchPolicy P) 0 N σ₁.mod)
    (hlast : σ₁.mod.lastPid .dram < σ₁.mod.nPids)
    (hD : Filled (memPolicy P) (σ₁.mod.nFound + 1) D
      (walkTier (memPolicy P).callback .dram (switchMid n σ₁)).mod) :
    Halves (walkTier (memPolicy P).callback .dram (switchMid n σ₁)).mod (N.found.map Exam.info)
      (D.found.map Exam.info) (D.spare.map Exam.info) (N.spare.map Exam.info) := by
  have hv : σ₁.mod.nFound = N.found.length := by simpa using hN.nFound
  obtain ⟨hbelow, hswitch, hnswitch⟩ := walkTier_below (b := N.found.length + 1) (memPolicy P)
    (σ := switchMid n σ₁) rfl hlast (by rw [← hv]; exact Nat.le_refl _)
  have htier : (memPolicy P).tier = .dram := rfl
  rw [htier] at hbelow hswitch hnswitch
  rw [hv] at hD
  have hset : (switchMid n σ₁).mod.foundAddrs = σ₁.mod.foundAddrs.set N.found.length
      { σ₁.mod.foundAddrs N.found.length with pidRetval := 0 } := by
    rw [← hv]
    rfl
  have hmidspare : (switchMid n σ₁).mod.switchBackupAddrs = σ₁.mod.switchBackupAddrs ∧
      (switchMid n σ₁).mod.nSwitchBackup = σ₁.mod.nSwitchBackup := ⟨rfl, rfl⟩
  -- the DRAM walk writes behind the separator only, so the NVRAM side is as the first walk left it
  generalize switchMid n σ₁ = σ₂ at *
  generalize walkTier (memPolicy P).callback .dram σ₂ = σ₃ at *
  have hfound := hN.found
  have hnspare : σ₃.mod.nBackup = D.spare.length := hD.nSpare
  have hspare : σ₃.mod.backupAddrs.slice 0 D.spare.length = D.spare.map Exam.info := hD.spare
  refine ⟨by simpa using hD.nFound, ?_, ?_, by simpa using hD.found, by simpa using hnspare,
    by simpa using hspare, ?_, ?_⟩
  · rw [List.length_map, ← hfound]
    refine Arr.slice_congr fun j hj => ?_
    rw [Nat.zero_add, hbelow j (by omega), hset]
    exact Arr.set_ne _ _ (by omega)
  · rw [List.length_map, hbelow _ (Nat.lt_succ_self _), hset, Arr.set_self]
  · rw [hnswitch, hmidspare.2, List.length_map]
    exact hN.nSpare
  · rw [hswitch, hmidspare.1, List.length_map]
    exact hN.spare

/-- The NVRAM walk of a switch with a quota in range. -/
theorem nvramTracks {n : Nat} (hn : n ≤ maxNSwitch) {σ : Sys} (hfound : σ.mod.nFound = 0) :
    Tracks (nvramSwitchPolicy P) 0 n
      (scan (nvramSwitchPolicy P).classOf n (tierVisits (nvramSwitchPolicy P) σ) Pick.empty)
      (walkTier (nvramSwitchPolicy P).callback .nvram
        { σ with mod := σ.mod.setQuota .switchBackup (n : Int) }).mod := by
  have hmaxS := maxNSwitch_eq
  have hmaxF := maxNFind_eq
  exact walkTier_tracks (π := nvramSwitchPolicy P)
    (σ := { σ with mod := σ.mod.setQuota .switchBackup (n : Int) })
    (Tracks.start (by omega) (by simp [Mod.setQuota]) hfound rfl)

/-- The DRAM walk after it. -/
theorem dramTracks {n q : Nat} (hn : n ≤ maxNSwitch) {N : Pick Exam} {σ σ₁ : Sys}
    (hready : DramReady σ σ₁) (h : Tracks (nvramSwitchPolicy P) 0 n N σ₁.mod)
    (hq : intMin ((σ₁.mod.nFound : Int) + (σ₁.mod.nSwitchBackup : Int)) n = q) :
    Tracks (memPolicy P) (σ₁.mod.nFound + 1) q
      (scan (memPolicy P).classOf q (tierVisits (memPolicy P) σ) Pick.empty)
      (walkTier (memPolicy P).callback .dram (switchMid n σ₁)).mod := by
  have hmaxS := maxNSwitch_eq
  have hmaxF := maxNFind_eq
  have hv := h.nFound
  have hbound := h.bound
  rw [intMin_eq_min] at hq
  rw [← hready.visits (n := n)]
  refine walkTier_tracks (π := memPolicy P) (σ := switchMid n σ₁)
    (Tracks.start (by omega) ?_ rfl rfl)
  show ((σ₁.mod.nFound + 1 : Nat) : Int) + intMin _ _ = _
  rw [intMin_eq_min, hq]

/-! ## The reply -/

/-- **The reply** for any quota, from what the two walks left in the arrays. With no NVRAM
page there is no second walk, and the separator stands alone. -/
theorem switchWalk_paired {n : Int} {σ : Sys} {N D : Pick Exam}
    (hN : Filled (nvramSwitchPolicy P) 0 N (σ.nvramPhase P n).mod)
    (h : Halves (σ.dramPhase P n).mod (N.found.map Exam.info) (D.found.map Exam.info)
      (D.spare.map Exam.info) (N.spare.map Exam.info)) :
    Paired (switchWalk P n σ).1.mod.reply
      (if N.found.length = 0 ∧ N.spare.length = 0 then ([], [])
      else pairLists (N.found.map Exam.info) (D.found.map Exam.info) (D.spare.map Exam.info)
        (N.spare.map Exam.info)) := by
  have hv : (σ.nvramPhase P n).mod.nFound = N.found.length := by simpa using hN.nFound
  have hsb : (σ.nvramPhase P n).mod.nSwitchBackup = N.spare.length := hN.nSpare
  rw [switchWalk_nvramPhase]
  simp only [hv, hsb]
  split
  · rename_i hzero
    refine ⟨{ (σ.nvramPhase P n).mod.foundAddrs 0 with pidRetval := 0 }, rfl, ?_⟩
    simp [Mod.reply, Mod.setNFound, Mod.setFoundPid, Arr.slice_cons, hzero.1]
  · have hd := h.dram_length
    have hup := pairUp_spec h
    rw [List.length_map] at hd
    rwa [← hd, List.length_map, dramPhase_eq] at hup

/-- The arrays after both walks hold two scans, the second with the first one's count as
its quota. -/
structure Scanned (P : Platform) (n : Nat) (σ : Sys) (N D : Pick Exam) : Prop where
  nvram : scan (nvramSwitchPolicy P).classOf n (tierVisits (nvramSwitchPolicy P) σ) Pick.empty = N
  dram : scan (memPolicy P).classOf (min (N.found.length + N.spare.length) n)
    (tierVisits (memPolicy P) σ) Pick.empty = D
  first : Filled (nvramSwitchPolicy P) 0 N (σ.nvramPhase P n).mod
  both : Halves (σ.dramPhase P n).mod (N.found.map Exam.info) (D.found.map Exam.info)
    (D.spare.map Exam.info) (N.spare.map Exam.info)

theorem switch_scanned {n : Nat} (hn : n ≤ maxNSwitch) {σ : Sys} (hfound : σ.mod.nFound = 0)
    (hlast : ∀ tier, σ.mod.lastPid tier < σ.mod.nPids) : ∃ N D, Scanned P n σ N D := by
  have hready := dramReady (P := P) n hlast
  have htracks := nvramTracks (P := P) hn hfound
  rw [← nvramPhase_eq] at hready htracks
  generalize hN : scan (nvramSwitchPolicy P).classOf n (tierVisits (nvramSwitchPolicy P) σ)
    Pick.empty = N at htracks
  have hv : (σ.nvramPhase P n).mod.nFound = N.found.length := by simpa using htracks.nFound
  have hsb : (σ.nvramPhase P n).mod.nSwitchBackup = N.spare.length := htracks.nSpare
  have hq : intMin (((σ.nvramPhase P n).mod.nFound : Int) +
      ((σ.nvramPhase P n).mod.nSwitchBackup : Int)) (n : Int) =
        ((min (N.found.length + N.spare.length) n : Nat) : Int) := by
    rw [intMin_eq_min, hv, hsb]
    omega
  have hhalves := halves_of_filled (n := n) htracks.toFilled
    (by rw [hready.lastPid, hready.nPids]; exact hlast .dram)
    (dramTracks hn hready htracks hq).toFilled
  rw [← dramPhase_eq] at hhalves
  exact ⟨N, _, hN, rfl, htracks.toFilled, hhalves⟩

section

variable {n : Nat} {σ : Sys} {N D : Pick Exam}

/-- Without a first walk's page the second scan has nothing to look for. -/
theorem Scanned.none (h : Scanned P n σ N D) (hzero : N.found.length = 0 ∧ N.spare.length = 0) :
    N = Pick.empty ∧ D = Pick.empty := by
  have hempty : N = Pick.empty := by
    obtain ⟨found, spare⟩ := N
    obtain ⟨hv, hsb⟩ := hzero
    rw [List.length_eq_zero_iff] at hv hsb
    exact congr (congrArg Pick.mk hv) hsb
  refine ⟨hempty, ?_⟩
  rw [← h.dram, hempty]
  exact scan_full _ (by simp [Pick.empty]) _

/-- **The reply** of a count in range is what `pairLists` makes of the scans. -/
theorem Scanned.paired (h : Scanned P n σ N D) :
    Paired (switchWalk P n σ).1.mod.reply (pairLists (N.found.map Exam.info)
      (D.found.map Exam.info) (D.spare.map Exam.info) (N.spare.map Exam.info)) := by
  have hpaired := switchWalk_paired h.first h.both
  split at hpaired
  · rename_i hzero
    obtain ⟨rfl, rfl⟩ := h.none hzero
    simpa [pairLists, Pick.empty] using hpaired
  · exact hpaired

end

/-- **The specification of `switch_walk`** for a quota in range: a NVRAM side, a
separator and a DRAM side of the same length. -/
theorem switchWalk_spec {n : Nat} (hn : n ≤ maxNSwitch) {σ : Sys} (hfound : σ.mod.nFound = 0)
    (hlast : ∀ tier, σ.mod.lastPid tier < σ.mod.nPids) :
    Paired (switchWalk P n σ).1.mod.reply (switchSides P n σ) ∧
      ((switchWalk P n σ).2 = 0 ∨ (switchWalk P n σ).2 = -1) := by
  constructor
  · obtain ⟨N, D, h⟩ := switch_scanned (P := P) hn hfound hlast
    have hpaired := h.paired
    rw [pairLists_map, pairLists_scan h.nvram rfl h.dram] at hpaired
    exact hpaired
  · rw [switchWalk_phases]
    simp only
    split
    · exact Or.inr rfl
    · exact Or.inl rfl

end

end Ambix.Hyb
