import Ambix.Hyb.Machine
import Ambix.Logic.References
import Ambix.Theorems.Registry

/-!
# The registry and reused pid numbers

`refresh_pids` looks a listed task up by its number and never asks whose number it is
now. `LifeEvent` is what happens to processes and their numbers between two requests, one
event at a time; a task is followed as long as its number is not given away while it is
listed.
-/

namespace Ambix.Hyb

open Ambix.Lib

/-! ## Processes and their numbers -/

/-- An event in the life of a process. -/
inductive LifeEvent
  /-- Processes run, and may exit. -/
  | run
  /-- The process with this number is reaped. The number is free from then on, unless it
  still names a process group or session. -/
  | reap (nr : Int) (freed : Bool)
  /-- A free number is given to a new process. -/
  | spawn (nr : Int) (t : TaskPtr)

/-- The pid tables of `k` and `k'` agree but for one number. -/
def SameElsewhere (nr : Int) (k k' : Kernel) : Prop :=
  ∀ n ≠ nr, k'.findGetPid n = k.findGetPid n ∧ k'.taskOf n = k.taskOf n

/-- What an event does. The module holds a reference on every listed task, so a new process
is none of them. -/
def LifeStep : LifeEvent → Sys → Sys → Prop
  | .run, σ, σ' => σ'.mod = σ.mod ∧ σ'.kernel = σ.kernel
  | .reap nr freed, σ, σ' =>
    σ'.mod = σ.mod ∧ σ'.kernel.pidOf = σ.kernel.pidOf ∧ SameElsewhere nr σ.kernel σ'.kernel ∧
      σ'.kernel.taskOf nr = none ∧ (freed = true ↔ σ'.kernel.findGetPid nr = null)
  | .spawn nr t, σ, σ' =>
    σ'.mod = σ.mod ∧ t ∉ σ.mod.tasks ∧ σ.kernel.findGetPid nr = null ∧
      σ'.kernel.pidOf = Function.update σ.kernel.pidOf t nr ∧
      SameElsewhere nr σ.kernel σ'.kernel ∧ σ'.kernel.taskOf nr = some t

/-- The event leaves the numbers of the listed tasks to them: none is given to a new
process, and none stays allocated when its task is reaped. -/
def SparesListed (σ : Sys) : LifeEvent → Prop
  | .run => True
  | .reap nr freed => freed = true ∨ nr ∉ σ.mod.tasks.map σ.kernel.pidOf
  | .spawn nr _ => nr ∉ σ.mod.tasks.map σ.kernel.pidOf

/-- The runs of the module among processes. -/
def life (P : Platform) : TSys Sys where
  init := Loaded
  step σ σ' := (∃ e, LifeStep e σ σ') ∨ ∃ req, (processReq P req σ).sys = σ'

/-- Those in which no listed task loses its number to another use. -/
def sparing (P : Platform) : TSys Sys where
  init := Loaded
  step σ σ' := (∃ e, SparesListed σ e ∧ LifeStep e σ σ') ∨ ∃ req, (processReq P req σ).sys = σ'

section

variable {P : Platform} {σ σ' : Sys}

/-- Events are steps of the rest of the machine. -/
theorem LifeStep.env {e : LifeEvent} (h : LifeStep e σ σ') : EnvStep σ σ' := by
  cases e with
  | run => exact ⟨h.1, fun t _ => by rw [h.2]⟩
  | reap nr freed => exact ⟨h.1, fun t _ => by rw [h.2.1]⟩
  | spawn nr t =>
    obtain ⟨hmod, hnew, -, hpid, -⟩ := h
    refine ⟨hmod, fun t' ht' => ?_⟩
    rw [hpid, Function.update_of_ne]
    rintro rfl
    exact hnew ht'

theorem life_reachable (h : (life P).Reachable σ) : (hyb P).Reachable σ :=
  h.mono (fun _ h => h) fun _ _ hstep => hstep.imp_left fun ⟨_, he⟩ => he.env

theorem sparing_reachable (h : (sparing P).Reachable σ) : (life P).Reachable σ :=
  h.mono (fun _ h => h) fun _ _ hstep => hstep.imp_left fun ⟨e, _, he⟩ => ⟨e, he⟩

/-! ## Tasks and numbers -/

/-- The number of every listed task is its own, or free. -/
def NumbersKept (σ : Sys) : Prop :=
  ∀ t ∈ σ.mod.tasks, σ.kernel.findGetPid (σ.kernel.pidOf t) ≠ null →
    σ.kernel.taskOf (σ.kernel.pidOf t) = some t

/-- The registry follows tasks: after `refresh_pids` every listed task is the one its number
names, and a BIND of any other process is accepted when there is room. -/
def FollowsTasks (P : Platform) (σ : Sys) : Prop :=
  (∀ t ∈ σ.refreshed.mod.tasks, σ.kernel.taskOf (σ.kernel.pidOf t) = some t) ∧
    ∀ req t, OpCode.ofCode req.opCode = some .bind → 0 < req.pidN.toInt →
      σ.kernel.taskOf req.pidN.toInt = some t → t ∉ σ.mod.tasks →
      σ.refreshed.mod.nPids < maxPids → (processReq P (some req) σ).ret = some 0

/-- A BIND that can be made is. -/
theorem bind_accepted (h : Registered σ) {req : Req}
    (hop : OpCode.ofCode req.opCode = some .bind) {t : TaskPtr}
    (hb : Bindable σ.kernel σ.refreshed.mod req.pidN.toInt t) :
    (processReq P (some req) σ).ret = some 0 := by
  have hbody : processBody P (some req) σ =
      ({ σ.refreshed with mod := (bindPid σ.kernel req.pidN.toInt σ.refreshed.mod).1 },
        (bindPid σ.kernel req.pidN.toInt σ.refreshed.mod).2, true) := by
    simp only [processBody, hop]
    rfl
  rw [(processReq_replied (P := P) (some req) (by rw [hbody])).2, hbody]
  exact congrArg some (bindPid_of_bindable h.refreshed.ne_null req.pidN_le hb).1

/-- **At a refresh** the registry follows tasks exactly when their numbers were kept. -/
theorem followsTasks_iff (h : Registered σ) : FollowsTasks P σ ↔ NumbersKept σ := by
  have hmem (t : TaskPtr) : t ∈ σ.refreshed.mod.tasks ↔
      t ∈ σ.mod.tasks ∧ σ.kernel.findGetPid (σ.kernel.pidOf t) ≠ null := by
    rw [refreshed_tasks h, List.mem_filter]
    refine and_congr_right fun ht => ?_
    simp [alive, h.ne_null t ht]
  constructor
  · intro hfollows t ht hget
    exact hfollows.1 t ((hmem t).mpr ⟨ht, hget⟩)
  · intro hkept
    have hown : ∀ t ∈ σ.refreshed.mod.tasks, σ.kernel.taskOf (σ.kernel.pidOf t) = some t := by
      intro t ht
      obtain ⟨hlisted, hget⟩ := (hmem t).mp ht
      exact hkept t hlisted hget
    refine ⟨hown, fun req t hop hpos htask hnew hroom => ?_⟩
    refine bind_accepted h hop (t := t) ⟨hpos, fun hlisted => ?_, hroom, htask⟩
    -- a listed task of that number would be the new process
    obtain ⟨t', ht', hpid⟩ := List.mem_map.mp hlisted
    have hsame := hown t' ht'
    rw [hpid, htask] at hsame
    obtain rfl := Option.some.inj hsame
    exact hnew ((hmem t).mp ht').1

/-- Events that spare the listed tasks keep their numbers. -/
theorem NumbersKept.life (h : NumbersKept σ) {e : LifeEvent} (hspares : SparesListed σ e)
    (hstep : LifeStep e σ σ') : NumbersKept σ' := by
  intro t ht hget
  rw [hstep.env.1] at ht
  have hpid := hstep.env.2 t ht
  rw [hpid] at hget ⊢
  have hlisted : σ.kernel.pidOf t ∈ σ.mod.tasks.map σ.kernel.pidOf := List.mem_map.mpr ⟨t, ht, rfl⟩
  -- the tables of another number are as they were
  have helse (nr : Int) (hsame : SameElsewhere nr σ.kernel σ'.kernel)
      (hne : σ.kernel.pidOf t ≠ nr) : σ'.kernel.taskOf (σ.kernel.pidOf t) = some t := by
    obtain ⟨hfind, htask⟩ := hsame _ hne
    rw [htask]
    exact h t ht (hfind ▸ hget)
  cases e with
  | run =>
    rw [hstep.2] at hget ⊢
    exact h t ht hget
  | reap nr freed =>
    obtain ⟨-, -, hsame, -, hfreed⟩ := hstep
    refine helse nr hsame fun heq => hget ?_
    rw [heq]
    exact hfreed.mp (hspares.resolve_right fun hnot => hnot (heq ▸ hlisted))
  | spawn nr t' =>
    obtain ⟨-, -, -, -, hsame, -⟩ := hstep
    exact helse nr hsame fun heq => hspares (heq ▸ hlisted)

/-- Requests list tasks that are named by their numbers. -/
theorem NumbersKept.request (h : NumbersKept σ) (hreg : Registered σ) (req : Option Req) :
    NumbersKept (processReq P req σ).sys := by
  intro t ht hget
  rw [processReq_kernel hreg] at hget ⊢
  rcases request_tasks hreg req t ht with hold | hnamed
  · exact h t hold hget
  · exact hnamed

theorem sparing_numbersKept (P : Platform) : (sparing P).Invariant NumbersKept := by
  intro σ hreach
  induction hreach with
  | init hloaded =>
    intro t ht
    obtain ⟨found, backup, switchBackup, tasks, owner, hmod⟩ := hloaded
    rw [hmod] at ht
    exact absurd ht (by simp [Mod.tasks, Mod.loaded])
  | step hprev hstep ih =>
    rcases hstep with ⟨e, hspares, he⟩ | ⟨req, rfl⟩
    · exact ih.life hspares he
    · exact ih.request
        (registered_invariant P _ (life_reachable (sparing_reachable hprev))) req

end

/-- **The registry follows tasks** in every state of a run in which no number of a listed task
is given away. What the refresh makes of one state is the other part: it looks at the numbers
only, so it follows tasks exactly when each is its task's or free. It comes before the request
itself, also before an UNBIND removes its entry. -/
theorem registry_follows_iff (P : Platform) :
    (∀ σ, (hyb P).Reachable σ → (FollowsTasks P σ ↔ NumbersKept σ)) ∧
      ∀ σ, (sparing P).Reachable σ → FollowsTasks P σ := by
  refine ⟨fun σ hreach => followsTasks_iff (registered_invariant P σ hreach), fun σ hreach => ?_⟩
  have h := registered_invariant P σ (life_reachable (sparing_reachable hreach))
  exact (followsTasks_iff h).mpr (sparing_numbersKept P σ hreach)

/-! ## A reused number

The process with number 1 is bound, exits and is reaped, and the number is given to a new
process before the next request. -/

/-- One process is bound. -/
def boundProcess : Sys := (Sys.fresh [some []]).after smallMachine [.of .bind 1 .dram]

/-- Number 1 is free. -/
def Kernel.freed : Kernel where
  pidOf t := t
  findGetPid _ := null
  getPidTask p := p
  pidOf_getPidTask _ h _ := absurd rfl h

/-- Number 1 names task 2. -/
def Kernel.reused : Kernel where
  pidOf := Function.update (fun t : TaskPtr => (t : Int)) 2 1
  findGetPid nr := if nr = 1 then 1 else null
  getPidTask _ := 2
  pidOf_getPidTask nr h _ := by
    by_cases hnr : nr = 1
    · simp [hnr]
    · simp [hnr] at h

def reusedNumber : Sys := { boundProcess with kernel := .reused }

theorem boundProcess_reachable : (sparing smallMachine).Reachable boundProcess :=
  .step (σ := Sys.fresh [some []]) (.init ⟨_, _, _, _, _, rfl⟩)
    (.inr ⟨some (.of .bind 1 .dram), rfl⟩)

theorem reusedNumber_reachable : (life smallMachine).Reachable reusedNumber := by
  have hreap : LifeStep (.reap 1 true) boundProcess { boundProcess with kernel := .freed } := by
    refine ⟨rfl, rfl, fun n hn => ?_, rfl, iff_of_true rfl rfl⟩
    have hother : ¬(0 < n ∧ n ≤ 1) := by omega
    have hfree : boundProcess.kernel.findGetPid n = null := if_neg hother
    exact ⟨hfree.symm, (if_pos hfree).symm⟩
  have hspawn : LifeStep (.spawn 1 2) { boundProcess with kernel := .freed } reusedNumber := by
    refine ⟨rfl, by decide, rfl, rfl, fun n hn => ?_, rfl⟩
    have hfree : reusedNumber.kernel.findGetPid n = null := if_neg hn
    exact ⟨hfree, if_pos hfree⟩
  exact .step (.step (sparing_reachable boundProcess_reachable) (.inl ⟨_, hreap⟩))
    (.inl ⟨_, hspawn⟩)

theorem reused_number_stays_bound :
    (life smallMachine).Reachable reusedNumber ∧
      reusedNumber.refreshed.mod.tasks = [1] ∧
      reusedNumber.kernel.taskOf 1 = some 2 ∧
      (processReq smallMachine (some (.of .bind 1 .dram)) reusedNumber).ret = some (-1) :=
  ⟨reusedNumber_reachable, by decide, by decide, by decide⟩

theorem registry_follows_iff_reusedNumber :
    FollowsTasks smallMachine boundProcess ∧ ¬FollowsTasks smallMachine reusedNumber := by
  obtain ⟨hiff, hruns⟩ := registry_follows_iff smallMachine
  refine ⟨hruns _ boundProcess_reachable, ?_⟩
  rw [hiff _ (life_reachable reusedNumber_reachable)]
  intro hkept
  have hown := hkept 1 (by decide) (by decide)
  exact absurd hown (by decide)

end Ambix.Hyb
