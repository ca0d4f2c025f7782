import Ambix.Hyb.Registry
import Ambix.Lib.Ring

/-!
# The registry as an ordered list with two cursors

`Follows keep m m'` says that `m'` is `m` after everything but the tasks in `keep`
was removed: the list is filtered, and so is the cyclic reading from each hand.
One call of `update_pid_list` does this for one task (`updatePidList_follows`) and
`refresh_pids` for all that are gone (`refreshPids_follows`). `Follows.roster`
turns it into an equation between abstract rosters.
-/

namespace Ambix.Hyb

open Ambix.Lib

/-- The registry read from a tier's hand. -/
def Mod.round (tier : Tier) (m : Mod) : List TaskPtr := ring (m.lastPid tier) m.tasks

/-- The abstract registry. -/
def Mod.roster (m : Mod) : Roster Tier TaskPtr where
  items := m.tasks
  cursor tier := (m.round tier).head?.map fun t => (t, m.lastAddr tier)

/-- `task_items[i]` stays in `refresh_pids`: it is not `NULL` and its number is
still allocated. -/
def alive (k : Kernel) (t : TaskPtr) : Bool :=
  decide (t ≠ null) && decide (k.findGetPid (k.pidOf t) ≠ null)

/-- A registry without repeats and with both hands inside. -/
structure Anchored (m : Mod) : Prop where
  nodup : m.tasks.Nodup
  hand : ∀ tier, m.lastPid tier < m.nPids ∨
    (m.nPids = 0 ∧ m.lastPid tier = 0 ∧ m.lastAddr tier = 0)

/-- `m'` is `m` after the tasks outside `keep` were removed. -/
structure Follows (keep : TaskPtr → Bool) (m m' : Mod) : Prop where
  tasks : m'.tasks = m.tasks.filter keep
  round : ∀ tier, m'.round tier = (m.round tier).filter keep
  addr : ∀ tier, m'.lastAddr tier =
    if (m.round tier).head?.all keep then m.lastAddr tier else 0

section

variable {m m' m'' : Mod} {keep keep' : TaskPtr → Bool}

theorem Mod.mem_tasks {t : TaskPtr} : t ∈ m.tasks ↔ ∃ i < m.nPids, m.taskItems i = t := by
  simp [Mod.tasks_eq]

theorem Mod.getElem?_tasks {i : Nat} (h : i < m.nPids) : m.tasks[i]? = some (m.taskItems i) := by
  simp [Mod.tasks_eq, h]

theorem Mod.head?_round {tier : Tier} (hlast : m.lastPid tier < m.nPids) :
    (m.round tier).head? = some (m.taskItems (m.lastPid tier)) := by
  rw [Mod.round, head?_ring (by simpa using hlast), Mod.getElem?_tasks hlast]

theorem Anchored.items_inj (h : Anchored m) {i j : Nat} (hi : i < m.nPids) (hj : j < m.nPids)
    (heq : m.taskItems i = m.taskItems j) : i = j := by
  have hnodup := h.nodup
  rw [Mod.tasks_eq] at hnodup
  exact List.inj_on_of_nodup_map hnodup (List.mem_range.mpr hi) (List.mem_range.mpr hj) heq

theorem Follows.refl (h : ∀ t ∈ m.tasks, keep t = true) : Follows keep m m := by
  have hround : ∀ tier, ∀ t ∈ m.round tier, keep t = true := fun tier t ht =>
    h t (mem_ring.mp ht)
  refine ⟨(List.filter_eq_self.mpr h).symm, fun tier => (List.filter_eq_self.mpr (hround tier)).symm,
    fun tier => ?_⟩
  rw [if_pos]
  cases hr : m.round tier with
  | nil => rfl
  | cons t ts => exact hround tier t (hr ▸ List.mem_cons_self)

/-- Globals that agree on the registry and both hands. -/
theorem Follows.of_same (hitems : m'.taskItems = m.taskItems) (hpids : m'.nPids = m.nPids)
    (hpid : ∀ tier, m'.lastPid tier = m.lastPid tier)
    (haddr : ∀ tier, m'.lastAddr tier = m.lastAddr tier) : Follows (fun _ => true) m m' := by
  have htasks : m'.tasks = m.tasks := by rw [Mod.tasks, Mod.tasks, hitems, hpids]
  refine ⟨by simpa using htasks, fun tier => ?_, fun tier => ?_⟩
  · simp [Mod.round, hpid tier, htasks]
  · rw [haddr tier]
    cases (m.round tier).head? <;> simp

theorem Follows.roster_eq (h : Follows (fun _ => true) m m') : m'.roster = m.roster := by
  have htasks : m'.tasks = m.tasks := by simpa using h.tasks
  have hround : ∀ tier, m'.round tier = m.round tier := fun tier => by simpa using h.round tier
  have haddr : ∀ tier, m'.lastAddr tier = m.lastAddr tier := fun tier => by
    rw [h.addr tier]
    cases (m.round tier).head? <;> simp
  simp only [Mod.roster, htasks, hround, haddr]

theorem Follows.congr (h : Follows keep m m') (hk : ∀ t ∈ m.tasks, keep t = keep' t) :
    Follows keep' m m' := by
  refine ⟨?_, fun tier => ?_, fun tier => ?_⟩
  · rw [h.tasks]
    exact List.filter_congr hk
  · rw [h.round tier]
    exact List.filter_congr fun t ht => hk t (mem_ring.mp ht)
  · rw [h.addr tier]
    cases hr : m.round tier with
    | nil => rfl
    | cons t ts =>
      have ht : t ∈ m.tasks := mem_ring.mp (hr ▸ List.mem_cons_self : t ∈ m.round tier)
      cases hkeep : keep' t <;> simp [hk t ht, hkeep]

/-- Removing in two goes. -/
theorem Follows.trans (h : Follows keep m m') (h' : Follows keep' m' m'') :
    Follows (fun t => keep t && keep' t) m m'' := by
  refine ⟨?_, fun tier => ?_, fun tier => ?_⟩
  · rw [h'.tasks, h.tasks, List.filter_filter]
    exact List.filter_congr fun t _ => Bool.and_comm _ _
  · rw [h'.round tier, h.round tier, List.filter_filter]
    exact List.filter_congr fun t _ => Bool.and_comm _ _
  · rw [h'.addr tier, h.addr tier, h.round tier]
    cases hr : m.round tier with
    | nil => rfl
    | cons t ts =>
      cases ht : keep t with
      | false => simp [ht]
      | true => simp [ht]

/-- The abstract reading: the cursors move as `Roster.retain` says. -/
theorem Follows.roster (h : Follows keep m m') (hm : Anchored m) :
    m'.roster = m.roster.retain keep := by
  simp only [Mod.roster, Roster.retain, h.tasks, Roster.mk.injEq, true_and]
  funext tier
  rw [h.round tier, h.addr tier, List.head?_filter]
  rcases hm.hand tier with hlast | ⟨hempty, _, _⟩
  · have hhead := Mod.head?_round hlast
    have hidx : m.tasks.idxOf (m.taskItems (m.lastPid tier)) = m.lastPid tier := by
      obtain ⟨hlen, hget⟩ := List.getElem?_eq_some_iff.mp (Mod.getElem?_tasks hlast)
      rw [← hget]
      exact hm.nodup.idxOf_getElem _ hlen
    rw [hhead]
    simp only [Option.map_some, Option.bind_some, Option.all_some, hidx]
    cases hr : m.round tier with
    | nil => simp [hr] at hhead
    | cons t ts =>
      obtain rfl : t = m.taskItems (m.lastPid tier) := by simpa [hr] using hhead
      by_cases hkeep : keep (m.taskItems (m.lastPid tier)) = true
      · simp [hkeep]
      · rw [Mod.round] at hr
        simp [hkeep, hr]
  · have hnil : m.round tier = [] := by
      have : m.tasks = [] := by rw [← List.length_eq_zero_iff, Mod.length_tasks, hempty]
      rw [Mod.round, this, ring_nil]
    simp [hnil]

theorem Follows.anchored (h : Follows keep m m') (hm : Anchored m)
    (hand : ∀ tier, m'.lastPid tier < m'.nPids ∨ (m'.nPids = 0 ∧ m'.lastPid tier = 0)) :
    Anchored m' := by
  refine ⟨h.tasks ▸ hm.nodup.filter _, fun tier => ?_⟩
  rcases hand tier with hlt | ⟨hempty, hzero⟩
  · exact Or.inl hlt
  · refine Or.inr ⟨hempty, hzero, ?_⟩
    -- the list is empty, so the task under the hand has gone or there never was one
    rcases hm.hand tier with hlast | ⟨_, _, haddr⟩
    · have hnone : m'.tasks = [] := by rw [← List.length_eq_zero_iff, Mod.length_tasks, hempty]
      rw [h.addr tier, Mod.head?_round hlast, Option.all_some, if_neg]
      intro hkeep
      have hmem : m.taskItems (m.lastPid tier) ∈ m.tasks.filter keep :=
        List.mem_filter.mpr ⟨Mod.mem_tasks.mpr ⟨_, hlast, rfl⟩, hkeep⟩
      rw [← h.tasks, hnone] at hmem
      simp at hmem
    · rw [h.addr tier, haddr, ite_self]

end

/-! ## `update_pid_list` -/

section

variable {m : Mod} {i : Nat}

theorem adjustHand_lastPid (tier tier' : Tier) :
    (adjustHand tier i m).lastPid tier' =
      if tier' = tier then slide m.nPids i (m.lastPid tier) else m.lastPid tier' := by
  have hreset : ∀ t, (m.resetLastAddr tier).lastPid t = m.lastPid t := by
    intro t
    cases tier <;> cases t <;> rfl
  have hset : ∀ (m : Mod) j, (m.setLastPid tier j).lastPid tier' =
      if tier' = tier then j else m.lastPid tier' := by
    intro m j
    cases tier <;> cases tier' <;> rfl
  have hn : (m.resetLastAddr tier).nPids = m.nPids := by cases tier <;> rfl
  by_cases htier : tier' = tier
  · subst htier
    unfold adjustHand slide
    simp only [hreset, hn, if_true] at hset ⊢
    split
    · exact hset _ _
    · split
      · rename_i heq
        split
        · rw [if_pos ⟨heq, ‹_›⟩]
          exact hset _ _
        · rw [if_neg (fun h => ‹¬ _› h.2), hreset]
      · rw [if_neg (fun h => ‹¬ _› h.1)]
  · unfold adjustHand
    simp only [htier, if_false] at hset ⊢
    split
    · exact hset _ _
    · split
      · split
        · rw [hset, hreset]
        · exact hreset _
      · rfl

theorem adjustHand_lastAddr (tier tier' : Tier) :
    (adjustHand tier i m).lastAddr tier' =
      if tier' = tier ∧ m.lastPid tier = i then 0 else m.lastAddr tier' := by
  have hset : ∀ (m : Mod) j, (m.setLastPid tier j).lastAddr tier' = m.lastAddr tier' := by
    intro m j
    cases tier <;> cases tier' <;> rfl
  have hreset : (m.resetLastAddr tier).lastAddr tier' =
      if tier' = tier then 0 else m.lastAddr tier' := by
    cases tier <;> cases tier' <;> rfl
  unfold adjustHand
  split
  · rw [hset, if_neg (by omega)]
  · split
    · rename_i heq
      simp only [heq, and_true]
      split
      · rw [hset, hreset]
      · exact hreset
    · rw [if_neg (fun h => ‹¬ _› h.2)]

theorem adjustHand_tasks (tier : Tier) :
    (adjustHand tier i m).taskItems = m.taskItems ∧ (adjustHand tier i m).nPids = m.nPids := by
  unfold adjustHand
  split
  · cases tier <;> exact ⟨rfl, rfl⟩
  · split
    · simp only
      split <;> cases tier <;> exact ⟨rfl, rfl⟩
    · exact ⟨rfl, rfl⟩

theorem updatePidList_lastPid (tier : Tier) :
    (updatePidList i m).lastPid tier = slide m.nPids i (m.lastPid tier) := by
  have hframe : (updatePidList i m).lastPid tier =
      (adjustHand .nvram i (adjustHand .dram i m)).lastPid tier := by cases tier <;> rfl
  rw [hframe, adjustHand_lastPid, adjustHand_lastPid, (adjustHand_tasks .dram).2]
  cases tier <;> simp [adjustHand_lastPid]

theorem updatePidList_lastAddr (tier : Tier) :
    (updatePidList i m).lastAddr tier = if m.lastPid tier = i then 0 else m.lastAddr tier := by
  have hframe : (updatePidList i m).lastAddr tier =
      (adjustHand .nvram i (adjustHand .dram i m)).lastAddr tier := by cases tier <;> rfl
  rw [hframe, adjustHand_lastAddr, adjustHand_lastAddr, adjustHand_lastPid]
  cases tier <;> simp

theorem updatePidList_nPids : (updatePidList i m).nPids = m.nPids - 1 := by
  simp only [updatePidList, (adjustHand_tasks _).2]

/-- The list around entry `i`. -/
theorem Mod.tasks_split (hi : i < m.nPids) :
    m.tasks = m.taskItems.slice 0 i ++
      m.taskItems i :: m.taskItems.slice (i + 1) (m.nPids - 1 - i) := by
  obtain ⟨d, hd⟩ : ∃ d, m.nPids = i + 1 + d := ⟨m.nPids - (i + 1), by omega⟩
  rw [Mod.tasks, hd, Arr.slice_add, Arr.slice_succ, Nat.zero_add, Nat.zero_add,
    List.append_assoc, show i + 1 + d - 1 - i = d by omega]
  rfl

theorem updatePidList_tasks (hi : i < m.nPids) :
    (updatePidList i m).tasks =
      m.taskItems.slice 0 i ++ m.taskItems.slice (i + 1) (m.nPids - 1 - i) := by
  have hitems : (updatePidList i m).taskItems =
      m.taskItems.copyUp (i + 1) i (m.nPids - 1 - i) := by
    simp only [updatePidList, (adjustHand_tasks _).1, (adjustHand_tasks _).2]
  obtain ⟨d, hd⟩ : ∃ d, m.nPids - 1 = i + d := ⟨m.nPids - 1 - i, by omega⟩
  rw [Mod.tasks, updatePidList_nPids, hitems, hd, Nat.add_sub_cancel_left, Arr.slice_add]
  congr 1
  · refine Arr.slice_congr fun j hj => ?_
    rw [Arr.copyUp_apply _ (Nat.le_succ i), if_neg (by omega)]
  · simp only [Arr.slice]
    refine List.map_congr_left fun j hj => ?_
    have hj := List.mem_range.mp hj
    rw [Arr.copyUp_apply _ (Nat.le_succ i), if_pos (by omega)]
    congr 1
    omega

theorem updatePidList_items {j : Nat} (hj : j < i) :
    (updatePidList i m).taskItems j = m.taskItems j := by
  simp only [updatePidList, (adjustHand_tasks _).1, (adjustHand_tasks _).2]
  rw [Arr.copyUp_apply _ (Nat.le_succ i), if_neg (by omega)]

/-- **`update_pid_list(i)` removes task `i`.** -/
theorem updatePidList_follows (hm : Anchored m) (hi : i < m.nPids) :
    Follows (fun t => !decide (t = m.taskItems i)) m (updatePidList i m) ∧
      Anchored (updatePidList i m) := by
  have hsplit := Mod.tasks_split hi
  have hnodup := hm.nodup
  rw [hsplit, List.nodup_middle, List.nodup_cons, List.mem_append, not_or] at hnodup
  obtain ⟨⟨hleft, hright⟩, _⟩ := hnodup
  have hlen : m.taskItems.slice 0 i ++ m.taskItems i ::
      m.taskItems.slice (i + 1) (m.nPids - 1 - i) = m.tasks := hsplit.symm
  have hround : ∀ tier, (updatePidList i m).round tier =
      (m.round tier).filter fun t => !decide (t = m.taskItems i) := by
    intro tier
    have hlast : m.lastPid tier < m.tasks.length := by
      rcases hm.hand tier with h | h
      · simpa using h
      · omega
    have herase := ring_erase hleft hright (hlen ▸ hlast)
    rw [hlen, Arr.length_slice, Mod.length_tasks] at herase
    rw [Mod.round, updatePidList_lastPid, updatePidList_tasks hi, herase]
    rfl
  have hfollows : Follows (fun t => !decide (t = m.taskItems i)) m (updatePidList i m) := by
    refine ⟨?_, hround, fun tier => ?_⟩
    · rw [updatePidList_tasks hi, hsplit, filter_ne_middle hleft hright]
    · rw [updatePidList_lastAddr]
      rcases hm.hand tier with hlast | ⟨hempty, _, _⟩
      · -- the address is reset exactly when the hand's own task goes
        rw [Mod.head?_round hlast]
        by_cases heq : m.lastPid tier = i
        · simp [heq]
        · have hne : m.taskItems (m.lastPid tier) ≠ m.taskItems i := fun h =>
            heq (hm.items_inj hlast hi h)
          simp [heq, hne]
      · omega
  refine ⟨hfollows, hfollows.anchored hm fun tier => ?_⟩
  rw [updatePidList_nPids, updatePidList_lastPid]
  refine slide_lt hi ?_
  rcases hm.hand tier with h | h
  · exact h
  · omega

end

/-! ## `refresh_pids` -/

section

variable {k : Kernel}

theorem getPid_follows (m : Mod) : Follows (fun _ => true) m m.getPid :=
  .of_same rfl rfl (fun tier => by cases tier <;> rfl) fun tier => by cases tier <;> rfl

theorem Anchored.getPid {m : Mod} (hm : Anchored m) : Anchored m.getPid :=
  ⟨hm.nodup, fun tier => by
    have := hm.hand tier
    cases tier <;> exact this⟩

theorem Follows.of_alive {m : Mod} {i : Nat} (hi : m.nPids ≤ i)
    (hseen : ∀ j < i, j < m.nPids → alive k (m.taskItems j) = true) : Follows (alive k) m m := by
  refine Follows.refl fun t ht => ?_
  obtain ⟨j, hj, rfl⟩ := Mod.mem_tasks.mp ht
  exact hseen j (Nat.lt_of_lt_of_le hj hi) hj

/-- The loop from index `i`, whose earlier entries are alive. -/
theorem refreshLoop_follows (fuel i : Nat) {m : Mod} (hm : Anchored m)
    (hfuel : m.nPids ≤ i + fuel) (hseen : ∀ j < i, j < m.nPids → alive k (m.taskItems j) = true) :
    Follows (alive k) m (refreshLoop k fuel i m) ∧ Anchored (refreshLoop k fuel i m) := by
  induction fuel generalizing i m with
  | zero => exact ⟨.of_alive (by omega) hseen, hm⟩
  | succ fuel ih =>
    unfold refreshLoop
    by_cases hi : i < m.nPids
    · rw [if_pos hi]
      -- a removal moves the next entry to index `i`, where the loop goes on
      have hremove : alive k (m.taskItems i) = false →
          Follows (alive k) m (refreshLoop k fuel i (updatePidList i m)) ∧
            Anchored (refreshLoop k fuel i (updatePidList i m)) := by
        intro hdead
        obtain ⟨hstep, hanchored⟩ := updatePidList_follows hm hi
        have hpids : (updatePidList i m).nPids = m.nPids - 1 := updatePidList_nPids
        obtain ⟨hrest, hlast⟩ := ih i hanchored (by omega) fun j hj hjn => by
          rw [updatePidList_items hj]
          exact hseen j hj (by omega)
        refine ⟨(hstep.trans hrest).congr fun t _ => ?_, hlast⟩
        by_cases ht : t = m.taskItems i
        · simp [ht, hdead]
        · simp [ht]
      by_cases hnull : m.taskItems i = null
      · rw [if_pos hnull]
        exact hremove (by simp [alive, hnull])
      · by_cases hgone : k.findGetPid (k.pidOf (m.taskItems i)) = null
        · rw [if_neg hnull, if_pos hgone]
          exact hremove (by simp [alive, hgone])
        · -- the entry stays
          rw [if_neg hnull, if_neg hgone]
          have hsame := getPid_follows m
          obtain ⟨hrest, hlast⟩ := ih (i + 1) hm.getPid (by
            have : m.getPid.nPids = m.nPids := rfl
            omega) fun j hj hjn => by
              rcases Nat.lt_succ_iff_lt_or_eq.mp hj with hlt | rfl
              · exact hseen j hlt hjn
              · change alive k (m.taskItems j) = true
                simp [alive, hnull, hgone]
          exact ⟨(hsame.trans hrest).congr fun t _ => Bool.true_and _, hlast⟩
    · rw [if_neg hi]
      exact ⟨.of_alive (by omega) hseen, hm⟩

theorem refreshLoop_nPids_le (k : Kernel) (fuel i : Nat) (m : Mod) :
    (refreshLoop k fuel i m).nPids ≤ m.nPids := by
  induction fuel generalizing i m with
  | zero => exact Nat.le_refl _
  | succ fuel ih =>
    have hremove : (refreshLoop k fuel i (updatePidList i m)).nPids ≤ m.nPids := by
      refine Nat.le_trans (ih _ _) ?_
      rw [updatePidList_nPids]
      exact Nat.sub_le _ _
    unfold refreshLoop
    split
    · split
      · exact hremove
      · split
        · exact hremove
        · exact ih _ m.getPid
    · exact Nat.le_refl _

theorem refreshPids_nPids_le (k : Kernel) (m : Mod) : (refreshPids k m).nPids ≤ m.nPids :=
  refreshLoop_nPids_le k m.nPids 0 m

/-- **`refresh_pids` removes exactly the tasks that are gone.** -/
theorem refreshPids_follows (k : Kernel) {m : Mod} (hm : Anchored m) :
    Follows (alive k) m (refreshPids k m) ∧ Anchored (refreshPids k m) :=
  refreshLoop_follows m.nPids 0 hm (by omega) fun j hj => absurd hj (Nat.not_lt_zero j)

end

/-! ## `bind_pid` and `unbind_pid` -/

/-- The live task a number names. -/
def Kernel.taskOf (k : Kernel) (pid : Int) : Option TaskPtr :=
  if k.findGetPid pid = null then none
  else if k.getPidTask (k.findGetPid pid) = null then none
  else some (k.getPidTask (k.findGetPid pid))

theorem Kernel.taskOf_eq_some {k : Kernel} {pid : Int} {t : TaskPtr} :
    k.taskOf pid = some t ↔
      k.findGetPid pid ≠ null ∧ k.getPidTask (k.findGetPid pid) = t ∧ t ≠ null := by
  unfold Kernel.taskOf
  split
  · rename_i hget
    exact iff_of_false (by simp) fun h => h.1 hget
  · rename_i hget
    split
    · rename_i hptr
      exact iff_of_false (by simp) fun h => h.2.2 (h.2.1 ▸ hptr)
    · rename_i hptr
      rw [Option.some.injEq]
      exact ⟨fun h => ⟨hget, h, h ▸ hptr⟩, fun h => h.2.1⟩

theorem Kernel.pidOf_taskOf {k : Kernel} {pid : Int} {t : TaskPtr} (h : k.taskOf pid = some t) :
    k.pidOf t = pid ∧ t ≠ null := by
  obtain ⟨hget, rfl, hptr⟩ := Kernel.taskOf_eq_some.mp h
  exact ⟨k.pidOf_getPidTask pid hget hptr, hptr⟩

section

variable {k : Kernel} {m : Mod} {pid : Int}

/-- The scan over `task_items` looks the number up in the list. -/
theorem manages_iff (hlive : ∀ t ∈ m.tasks, t ≠ null) :
    (∃ i < m.nPids, m.manages k pid i = true) ↔ pid ∈ m.tasks.map k.pidOf := by
  rw [List.mem_map]
  constructor
  · rintro ⟨i, hi, h⟩
    simp only [Mod.manages, Bool.and_eq_true, bne_iff_ne, ne_eq, beq_iff_eq] at h
    exact ⟨_, Mod.mem_tasks.mpr ⟨i, hi, rfl⟩, h.2⟩
  · rintro ⟨t, ht, hpid⟩
    obtain ⟨i, hi, rfl⟩ := Mod.mem_tasks.mp ht
    exact ⟨i, hi, by simp [Mod.manages, hlive _ ht, hpid]⟩

theorem any_manages_iff (hlive : ∀ t ∈ m.tasks, t ≠ null) :
    (List.range m.nPids).any (m.manages k pid) = true ↔ pid ∈ m.tasks.map k.pidOf := by
  rw [← manages_iff hlive, List.any_eq_true]
  simp only [List.mem_range]

/-- When `bind_pid` succeeds: the number is in range and not listed, there is room
and it names a live task. -/
def Bindable (k : Kernel) (m : Mod) (pid : Int) (t : TaskPtr) : Prop :=
  0 < pid ∧ pid ∉ m.tasks.map k.pidOf ∧ m.nPids < maxPids ∧ k.taskOf pid = some t

/-- `find_target_process` finds the number allocated, and no task attached to it. -/
def NamesNoTask (k : Kernel) (m : Mod) (pid : Int) : Prop :=
  0 < pid ∧ pid ∉ m.tasks.map k.pidOf ∧ m.nPids < maxPids ∧ k.findGetPid pid ≠ null ∧
    k.getPidTask (k.findGetPid pid) = null

/-- **`bind_pid`** of a task that can be listed. -/
theorem bindPid_bindable (hlive : ∀ t ∈ m.tasks, t ≠ null) (hpid : pid ≤ maxPidN)
    {t : TaskPtr} (h : Bindable k m pid t) :
    bindPid k pid m = ({ m with
      taskItems := m.taskItems.set m.nPids t
      nPids := m.nPids + 1
      taskRefs := m.taskRefs + 1
      pidRefs := m.pidRefs + 1 }, 0) := by
  obtain ⟨hpos, hnew, hroom, htask⟩ := h
  obtain ⟨hget, rfl, hptr⟩ := Kernel.taskOf_eq_some.mp htask
  have hscan : ¬ (List.range m.nPids).any (m.manages k pid) = true :=
    fun hc => hnew ((any_manages_iff hlive).mp hc)
  have hbad : ¬ (pid ≤ 0 ∨ pid > maxPidN) := by omega
  simp only [bindPid, findTargetProcess, if_neg hbad, if_neg (Nat.not_le.mpr hroom),
    if_neg hscan, if_neg hget, ne_eq, hptr, not_false_eq_true, if_true, Mod.getPid]
  rfl

theorem bindPid_of_bindable (hlive : ∀ t ∈ m.tasks, t ≠ null) (hpid : pid ≤ maxPidN)
    {t : TaskPtr} (h : Bindable k m pid t) :
    (bindPid k pid m).2 = 0 ∧ (bindPid k pid m).1.tasks = m.tasks ++ [t] ∧
      (∀ tier, (bindPid k pid m).1.lastPid tier = m.lastPid tier) ∧
      ∀ tier, (bindPid k pid m).1.lastAddr tier = m.lastAddr tier := by
  rw [bindPid_bindable hlive hpid h]
  refine ⟨rfl, ?_, fun tier => by cases tier <;> rfl, fun tier => by cases tier <;> rfl⟩
  have hend := Arr.slice_set_end m.taskItems 0 m.nPids t
  simpa [Mod.tasks] using hend

theorem findTargetProcess_unbindable (hlive : ∀ t ∈ m.tasks, t ≠ null) (hpos : 0 < pid)
    (h : ∀ t, ¬ Bindable k m pid t) :
    NamesNoTask k m pid ∧ findTargetProcess k pid m = (m.getPid, 0) ∨
      ¬NamesNoTask k m pid ∧ findTargetProcess k pid m = (m, 0) := by
  unfold findTargetProcess
  split
  · rename_i hroom
    exact .inr ⟨fun hc => absurd hc.2.2.1 (Nat.not_lt.mpr hroom), rfl⟩
  · rename_i hroom
    split
    · rename_i hscan
      exact .inr ⟨fun hc => hc.2.1 ((any_manages_iff hlive).mp hscan), rfl⟩
    · rename_i hscan
      have hnew : pid ∉ m.tasks.map k.pidOf := fun hc => hscan ((any_manages_iff hlive).mpr hc)
      simp only
      split
      · rename_i hget
        exact .inr ⟨fun hc => hc.2.2.2.1 hget, rfl⟩
      · rename_i hget
        split
        · -- a live task with room for it would have been listed
          rename_i hptr
          have htask := Kernel.taskOf_eq_some.mpr ⟨hget, rfl, hptr⟩
          exact absurd ⟨hpos, hnew, Nat.not_le.mp hroom, htask⟩ (h _)
        · rename_i hptr
          exact .inl ⟨⟨hpos, hnew, Nat.not_le.mp hroom, hget, not_not.mp hptr⟩, rfl⟩

/-- **`bind_pid`** otherwise fails. It has looked up the `struct pid` of a number without a
task. -/
theorem bindPid_unbindable (hlive : ∀ t ∈ m.tasks, t ≠ null) (hpid : pid ≤ maxPidN)
    (h : ∀ t, ¬ Bindable k m pid t) :
    NamesNoTask k m pid ∧ bindPid k pid m = (m.getPid, -1) ∨
      ¬NamesNoTask k m pid ∧ bindPid k pid m = (m, -1) := by
  unfold bindPid
  split
  · rename_i hrange
    refine .inr ⟨fun hc => ?_, rfl⟩
    have := hc.1
    omega
  · rename_i hrange
    rcases findTargetProcess_unbindable hlive (by omega) h with ⟨hnames, hfind⟩ | ⟨hnames, hfind⟩
    · simp only [hfind, if_true]
      exact .inl ⟨hnames, trivial⟩
    · simp only [hfind, if_true]
      exact .inr ⟨hnames, trivial⟩

theorem bindPid_of_not (hm : Anchored m) (hlive : ∀ t ∈ m.tasks, t ≠ null)
    (hpid : pid ≤ maxPidN) (h : ∀ t, ¬ Bindable k m pid t) :
    (bindPid k pid m).2 = -1 ∧ Follows (fun _ => true) m (bindPid k pid m).1 ∧
      Anchored (bindPid k pid m).1 := by
  rcases bindPid_unbindable hlive hpid h with ⟨_, hbind⟩ | ⟨_, hbind⟩
  · rw [hbind]
    exact ⟨rfl, getPid_follows m, hm.getPid⟩
  · rw [hbind]
    exact ⟨rfl, Follows.refl fun _ _ => rfl, hm⟩

/-- `unbind_pid` of a listed number. -/
theorem unbindPid_of_listed (hm : Anchored m) (hlive : ∀ t ∈ m.tasks, t ≠ null)
    (hpids : (m.tasks.map k.pidOf).Nodup) (hpos : 0 < pid) (hmax : pid ≤ maxPidN)
    (h : pid ∈ m.tasks.map k.pidOf) :
    (unbindPid k pid m).2 = 0 ∧
      Follows (fun t => !decide (k.pidOf t = pid)) m (unbindPid k pid m).1 ∧
      Anchored (unbindPid k pid m).1 := by
  obtain ⟨i, hi, hmanages⟩ := (manages_iff hlive).mpr h
  unfold unbindPid
  rw [if_neg (by omega)]
  cases hfind : (List.range m.nPids).find? (m.manages k pid) with
  | none =>
    rw [List.find?_eq_none] at hfind
    exact absurd hmanages (hfind i (List.mem_range.mpr hi))
  | some j =>
    have hj : j < m.nPids := List.mem_range.mp (List.mem_of_find?_eq_some hfind)
    have hpid : k.pidOf (m.taskItems j) = pid := by
      have := List.find?_some hfind
      simp only [Mod.manages, Bool.and_eq_true, beq_iff_eq] at this
      exact this.2
    obtain ⟨hf, ha⟩ := updatePidList_follows hm hj
    refine ⟨rfl, hf.congr fun t ht => ?_, ha⟩
    have hinj : k.pidOf t = k.pidOf (m.taskItems j) ↔ t = m.taskItems j :=
      ⟨fun heq => List.inj_on_of_nodup_map hpids ht (Mod.mem_tasks.mpr ⟨j, hj, rfl⟩) heq,
        fun heq => heq ▸ rfl⟩
    simp only [← hpid, hinj]

theorem unbindPid_of_not (hlive : ∀ t ∈ m.tasks, t ≠ null)
    (h : ¬ (0 < pid ∧ pid ∈ m.tasks.map k.pidOf)) : unbindPid k pid m = (m, -1) := by
  unfold unbindPid
  split
  · rfl
  · cases hfind : (List.range m.nPids).find? (m.manages k pid) with
    | none => rfl
    | some j =>
      refine absurd ⟨by omega, (manages_iff hlive).mp ⟨j, ?_, List.find?_some hfind⟩⟩ h
      exact List.mem_range.mp (List.mem_of_find?_eq_some hfind)

end

end Ambix.Hyb
