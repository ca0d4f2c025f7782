import Ambix.MixM.Request
import Ambix.Logic.Invariant

/-!
# The MixM registry is the hyb registry but for one comparison

`refresh_pids`, `update_pid_list` and `unbind_pid` leave what they leave in the hyb
module and use entries of the list only. `bind_pid` appends under a weaker condition,
and writes the entry after the last.
-/

namespace Ambix.MixM

open Ambix.Lib Ambix.Hyb

/-- Between `s` and `s'` only entries below `n` are used. -/
def Touches (n : Nat) (s s' : State) : Prop := ∀ i ∈ s'.accesses, i ∈ s.accesses ∨ i < n

section

variable {n n' : Nat} {s s' s'' : State}

theorem Touches.refl (n : Nat) (s : State) : Touches n s s := fun _ hi => .inl hi

theorem Touches.trans (h : Touches n s s') (h' : Touches n s' s'') : Touches n s s'' := by
  intro i hi
  rcases h' i hi with hi | hi
  · exact h i hi
  · exact .inr hi

theorem Touches.mono (h : Touches n s s') (hle : n ≤ n') : Touches n' s s' :=
  fun i hi => (h i hi).imp_right fun hlt => Nat.lt_of_lt_of_le hlt hle

theorem Touches.touch (h : Touches n s s') {i : Nat} (hi : i < n) : Touches n s (s'.touch i) := by
  intro j hj
  rcases List.mem_cons.mp hj with rfl | hj
  · exact .inr hi
  · exact h j hj

/-- Loops that only use entries. -/
theorem foldl_touches {g : State → Nat → State} {is : List Nat}
    (hg : ∀ s, ∀ i ∈ is, (g s i).sys = s.sys ∧ Touches n s (g s i)) (s : State) :
    (is.foldl g s).sys = s.sys ∧ Touches n s (is.foldl g s) := by
  induction is generalizing s with
  | nil => exact ⟨rfl, .refl n s⟩
  | cons i is ih =>
    obtain ⟨hsys, htouch⟩ := hg s i List.mem_cons_self
    obtain ⟨hsys', htouch'⟩ := ih (fun s j hj => hg s j (List.mem_cons_of_mem i hj)) (g s i)
    exact ⟨hsys'.trans hsys, htouch.trans htouch'⟩

end

section

variable {n : Nat} {s : State} {pid : Int}

theorem scanItems_spec (is : List Nat) (his : ∀ i ∈ is, i < n) (s : State) :
    (scanItems pid is s).1.sys = s.sys ∧
      (scanItems pid is s).2 = is.find? (s.sys.mod.manages s.sys.kernel pid) ∧
      Touches n s (scanItems pid is s).1 := by
  induction is generalizing s with
  | nil => exact ⟨rfl, rfl, .refl n s⟩
  | cons i is ih =>
    have htouch := (Touches.refl n s).touch (his i List.mem_cons_self)
    obtain ⟨hsys, hfound, hrest⟩ := ih (fun j hj => his j (List.mem_cons_of_mem i hj)) (s.touch i)
    unfold scanItems
    simp only
    split
    · rename_i hm
      change s.sys.mod.manages s.sys.kernel pid i = true at hm
      rw [List.find?_cons_of_pos hm]
      exact ⟨rfl, rfl, htouch⟩
    · rename_i hm
      change ¬s.sys.mod.manages s.sys.kernel pid i = true at hm
      rw [List.find?_cons_of_neg hm]
      exact ⟨hsys, hfound, htouch.trans hrest⟩

theorem scanItems_all (pid : Int) (s : State) :
    (scanItems pid (List.range s.sys.mod.nPids) s).1.sys = s.sys ∧
      (scanItems pid (List.range s.sys.mod.nPids) s).2 =
        (List.range s.sys.mod.nPids).find? (s.sys.mod.manages s.sys.kernel pid) ∧
      Touches s.sys.mod.nPids s (scanItems pid (List.range s.sys.mod.nPids) s).1 :=
  scanItems_spec _ (fun _ hi => List.mem_range.mp hi) s

/-! ## `update_pid_list` and `refresh_pids` -/

theorem updatePidList_eq (i : Nat) (s : State) :
    (updatePidList i s).sys = { s.sys with mod := Hyb.updatePidList i s.sys.mod } ∧
      Touches s.sys.mod.nPids s (updatePidList i s) := by
  have hstep : ∀ s', ∀ j ∈ List.range' i (s.sys.mod.nPids - 1 - i),
      ((s'.touch (j + 1)).touch j).sys = s'.sys ∧
        Touches s.sys.mod.nPids s' ((s'.touch (j + 1)).touch j) := by
    intro s' j hj
    have hj := List.mem_range'_1.mp hj
    exact ⟨rfl, ((Touches.refl _ s').touch (by omega)).touch (by omega)⟩
  obtain ⟨hsys, htouch⟩ := foldl_touches hstep s
  refine ⟨?_, htouch⟩
  have hshift : (shiftAccesses i s).sys = s.sys := hsys
  unfold updatePidList
  rw [State.setMod_sys, hshift]

theorem refreshLoop_succ (fuel i : Nat) (s : State) :
    refreshLoop (fuel + 1) i s =
      if i < s.sys.mod.nPids then
        if s.sys.mod.taskItems i = null then refreshLoop fuel i (updatePidList i (s.touch i))
        else if s.sys.kernel.findGetPid (s.sys.kernel.pidOf (s.sys.mod.taskItems i)) = null then
          refreshLoop fuel i (updatePidList i (s.touch i))
        else refreshLoop fuel (i + 1) ((s.touch i).setMod s.sys.mod.getPid)
      else s := rfl

theorem refreshLoop_eq (fuel i : Nat) (s : State) :
    (refreshLoop fuel i s).sys =
        { s.sys with mod := Hyb.refreshLoop s.sys.kernel fuel i s.sys.mod } ∧
      Touches s.sys.mod.nPids s (refreshLoop fuel i s) := by
  induction fuel generalizing i s with
  | zero => exact ⟨rfl, .refl _ s⟩
  | succ fuel ih =>
    rw [refreshLoop_succ, Hyb.refreshLoop]
    by_cases hi : i < s.sys.mod.nPids
    · have htouch := (Touches.refl s.sys.mod.nPids s).touch hi
      -- an entry that is removed
      have hremove : (refreshLoop fuel i (updatePidList i (s.touch i))).sys =
            { s.sys with
              mod := Hyb.refreshLoop s.sys.kernel fuel i (Hyb.updatePidList i s.sys.mod) } ∧
          Touches s.sys.mod.nPids s (refreshLoop fuel i (updatePidList i (s.touch i))) := by
        obtain ⟨hsys, hupdate⟩ := updatePidList_eq i (s.touch i)
        obtain ⟨hrest, hloop⟩ := ih i (updatePidList i (s.touch i))
        rw [hsys] at hrest hloop
        have hless : (Hyb.updatePidList i s.sys.mod).nPids ≤ s.sys.mod.nPids := by
          rw [updatePidList_nPids]
          exact Nat.sub_le _ _
        exact ⟨hrest, (htouch.trans hupdate).trans (hloop.mono hless)⟩
      rw [if_pos hi, if_pos hi]
      split
      · exact hremove
      · split
        · exact hremove
        · obtain ⟨hrest, hloop⟩ := ih (i + 1) ((s.touch i).setMod s.sys.mod.getPid)
          exact ⟨hrest, htouch.trans hloop⟩
    · rw [if_neg hi, if_neg hi]
      exact ⟨rfl, .refl _ s⟩

/-- **`refresh_pids`** is that of the hyb module. -/
theorem refreshPids_eq (s : State) :
    (refreshPids s).sys = { s.sys with mod := Hyb.refreshPids s.sys.kernel s.sys.mod } ∧
      Touches s.sys.mod.nPids s (refreshPids s) := by
  obtain ⟨hsys, hloop⟩ := refreshLoop_eq s.sys.mod.nPids 0 s
  have hprint : ∀ s', ∀ i ∈ List.range (refreshLoop s.sys.mod.nPids 0 s).sys.mod.nPids,
      (s'.touch i).sys = s'.sys ∧ Touches s.sys.mod.nPids s' (s'.touch i) := by
    intro s' i hi
    have hi := List.mem_range.mp hi
    rw [hsys] at hi
    refine ⟨rfl, (Touches.refl _ s').touch (Nat.lt_of_lt_of_le hi ?_)⟩
    exact refreshPids_nPids_le s.sys.kernel s.sys.mod
  obtain ⟨hsame, htouch⟩ := foldl_touches hprint (refreshLoop s.sys.mod.nPids 0 s)
  exact ⟨hsame.trans hsys, hloop.trans htouch⟩

/-! ## `unbind_pid` and `bind_pid` -/

/-- **`unbind_pid`** is that of the hyb module. -/
theorem unbindPid_eq (pid : Int) (s : State) :
    (unbindPid pid s).1.sys =
        { s.sys with mod := (Hyb.unbindPid s.sys.kernel pid s.sys.mod).1 } ∧
      (unbindPid pid s).2 = (Hyb.unbindPid s.sys.kernel pid s.sys.mod).2 ∧
      Touches s.sys.mod.nPids s (unbindPid pid s).1 := by
  obtain ⟨hsys, hfound, htouch⟩ := scanItems_all pid s
  unfold unbindPid Hyb.unbindPid
  split
  · exact ⟨rfl, rfl, .refl _ s⟩
  · rw [← hfound]
    generalize scanItems pid (List.range s.sys.mod.nPids) s = r at hsys htouch
    obtain ⟨s', found⟩ := r
    simp only at hsys htouch
    cases found with
    | none => exact ⟨hsys, rfl, htouch⟩
    | some i =>
      obtain ⟨hupdate, hshift⟩ := updatePidList_eq i s'
      rw [hsys] at hupdate hshift
      exact ⟨hupdate, rfl, htouch.trans hshift⟩

/-- The number may be listed: it is in range, new and names a live task. -/
def Listable (k : Kernel) (m : Mod) (pid : Int) (t : TaskPtr) : Prop :=
  0 < pid ∧ pid ∉ m.tasks.map k.pidOf ∧ k.taskOf pid = some t

/-- **`bind_pid`** with room by its comparison appends the task. -/
theorem bindPid_of_listable (hlive : ∀ t ∈ s.sys.mod.tasks, t ≠ null) (hpid : pid ≤ maxPidN)
    (hroom : s.sys.mod.nPids ≤ maxPids) {t : TaskPtr}
    (h : Listable s.sys.kernel s.sys.mod pid t) :
    (bindPid pid s).2 = 0 ∧ (bindPid pid s).1.sys.kernel = s.sys.kernel ∧
      (bindPid pid s).1.sys.mm = s.sys.mm ∧
      (bindPid pid s).1.sys.mod.tasks = s.sys.mod.tasks ++ [t] ∧
      (∀ tier, (bindPid pid s).1.sys.mod.lastPid tier = s.sys.mod.lastPid tier) ∧
      s.sys.mod.nPids ∈ (bindPid pid s).1.accesses ∧
      Touches (s.sys.mod.nPids + 1) s (bindPid pid s).1 := by
  obtain ⟨hpos, hnew, htask⟩ := h
  obtain ⟨hsys, hfound, htouch⟩ := scanItems_all pid s
  have hnone : (List.range s.sys.mod.nPids).find? (s.sys.mod.manages s.sys.kernel pid) = none := by
    rw [List.find?_eq_none]
    intro i hi hmanages
    exact hnew ((manages_iff hlive).mp ⟨i, List.mem_range.mp hi, hmanages⟩)
  rw [hnone] at hfound
  obtain ⟨hptr, rfl, htptr⟩ := Kernel.taskOf_eq_some.mp htask
  unfold bindPid findTargetProcess
  rw [if_neg (show ¬(pid ≤ 0 ∨ pid > maxPidN) by omega), if_neg (Nat.not_lt.mpr hroom)]
  generalize scanItems pid (List.range s.sys.mod.nPids) s = r at hsys hfound htouch
  obtain ⟨s', found⟩ := r
  simp only at hsys hfound htouch
  subst hfound
  simp only [hsys, if_neg hptr, State.setMod_sys, State.touch_sys, ne_eq, htptr, not_false_eq_true,
    if_true, Int.one_ne_zero, if_false]
  have hend := Arr.slice_set_end s.sys.mod.taskItems 0 s.sys.mod.nPids
    (s.sys.kernel.getPidTask (s.sys.kernel.findGetPid pid))
  refine ⟨trivial, trivial, trivial, ?_, fun tier => by cases tier <;> rfl, List.mem_cons_self, ?_⟩
  · rw [Nat.zero_add] at hend
    exact hend
  · exact (htouch.mono (Nat.le_succ _)).touch (Nat.lt_succ_self _)

/-- **`bind_pid`** otherwise fails. -/
theorem bindPid_of_not (hm : Anchored s.sys.mod) (hlive : ∀ t ∈ s.sys.mod.tasks, t ≠ null)
    (h : ∀ t, Listable s.sys.kernel s.sys.mod pid t → maxPids < s.sys.mod.nPids) :
    (bindPid pid s).2 = -1 ∧ (bindPid pid s).1.sys.kernel = s.sys.kernel ∧
      (bindPid pid s).1.sys.mm = s.sys.mm ∧
      Follows (fun _ => true) s.sys.mod (bindPid pid s).1.sys.mod ∧
      Anchored (bindPid pid s).1.sys.mod ∧ Touches s.sys.mod.nPids s (bindPid pid s).1 := by
  have hsame : Follows (fun _ => true) s.sys.mod s.sys.mod := Follows.refl fun _ _ => rfl
  unfold bindPid
  split
  · exact ⟨rfl, rfl, rfl, hsame, hm, .refl _ s⟩
  · rename_i hrange
    have hfail : (findTargetProcess pid s).2 = 0 ∧
        (findTargetProcess pid s).1.sys.kernel = s.sys.kernel ∧
        (findTargetProcess pid s).1.sys.mm = s.sys.mm ∧
        Follows (fun _ => true) s.sys.mod (findTargetProcess pid s).1.sys.mod ∧
        Anchored (findTargetProcess pid s).1.sys.mod ∧
        Touches s.sys.mod.nPids s (findTargetProcess pid s).1 := by
      unfold findTargetProcess
      split
      · exact ⟨rfl, rfl, rfl, hsame, hm, .refl _ s⟩
      · rename_i hroom
        obtain ⟨hsys, hfound, htouch⟩ := scanItems_all pid s
        generalize scanItems pid (List.range s.sys.mod.nPids) s = r at hsys hfound htouch
        obtain ⟨s', found⟩ := r
        simp only at hsys hfound htouch
        cases found with
        | some i => exact ⟨rfl, by rw [hsys], by rw [hsys], hsys.symm ▸ hsame, hsys.symm ▸ hm, htouch⟩
        | none =>
          simp only [hsys]
          split
          · exact ⟨rfl, by rw [hsys], by rw [hsys], hsys.symm ▸ hsame, hsys.symm ▸ hm, htouch⟩
          · rename_i hget
            simp only [State.setMod_sys, hsys]
            split
            · -- a live task that is not listed: then there was no room for it
              rename_i hptr
              refine absurd (h (s.sys.kernel.getPidTask (s.sys.kernel.findGetPid pid))
                ⟨by omega, fun hlisted => ?_, ?_⟩) hroom
              · obtain ⟨i, hi, hmanages⟩ := (manages_iff hlive).mpr hlisted
                exact List.find?_eq_none.mp hfound.symm i (List.mem_range.mpr hi) hmanages
              · exact Kernel.taskOf_eq_some.mpr ⟨hget, rfl, hptr⟩
            · have hkernel : s'.sys.kernel = s.sys.kernel := by rw [hsys]
              have hmm : s'.sys.mm = s.sys.mm := by rw [hsys]
              exact ⟨rfl, hkernel, hmm, getPid_follows s.sys.mod, hm.getPid, htouch⟩
    simp only [hfail.1, if_true]
    exact ⟨trivial, hfail.2⟩

end

end Ambix.MixM
