import Ambix.Logic.References
import Ambix.Theorems.Draining
import Ambix.Theorems.Migration
import Ambix.Theorems.Registry
import Ambix.Theorems.SwitchMigration

/-!
# Only bound processes are migrated

Whatever a thread hands to `move_pages` or `numa_move_pages` names a pid that a client has
bound: the module had accepted a bind of it before it took the find, and no unbind since.
-/

namespace Ambix.Ctl

open Ambix.Lib Ambix.Hyb

/-- The return code of the reply. -/
def Entry.ret (e : Entry) : Option Int := e.reply.getLast?.map AddrInfo.pidRetval

/-- An operation on this pid, which the module did. -/
structure Entry.Accepts (e : Entry) (op : OpCode) (pid : Int) : Prop where
  op : OpCode.ofCode e.req.opCode = some op
  pid : e.req.pidN.toInt = pid
  ret : e.ret = some 0

/-- The module accepted a bind of this pid, and no unbind since. -/
inductive BoundSince (pid : Int) : List Entry → Prop
  | bind (e : Entry) (log : List Entry) (h : e.Accepts .bind pid) : BoundSince pid (e :: log)
  | later (e : Entry) (log : List Entry) (h : BoundSince pid log) (hne : ¬e.Accepts .unbind pid) :
      BoundSince pid (e :: log)

/-- The listed processes are bound. -/
def ListBound (σ : Sys) (log : List Entry) : Prop :=
  ∀ t ∈ σ.mod.tasks, BoundSince (σ.kernel.pidOf t) log

/-- They are, and were when the module took an earlier request. -/
structure World.Bound (P : Platform) (w : World) : Prop where
  now : ListBound w.machine w.log
  past : ∀ later e earlier, w.log = later ++ e :: earlier →
    ∃ σ, (Hyb.hyb P).Reachable σ ∧ ListBound σ earlier ∧
      e.reply = (processReq P (some e.req) σ).reply

section

variable {P : Platform} {σ : Sys} {log : List Entry} {e : Entry}

/-! ## One request -/

theorem not_unbind {op : OpCode} {pid : Int} (h : OpCode.ofCode e.req.opCode = some op)
    (hne : op ≠ .unbind) : ¬e.Accepts .unbind pid :=
  fun hacc => hne (Option.some.inj (h.symm.trans hacc.op))

/-- A request that lists nothing new and is no unbind. -/
theorem ListBound.shrink {σ' : Sys} (h : ListBound σ log) (hkernel : σ'.kernel = σ.kernel)
    (htasks : ∀ t ∈ σ'.mod.tasks, t ∈ σ.mod.tasks ∧ ¬e.Accepts .unbind (σ.kernel.pidOf t)) :
    ListBound σ' (e :: log) := by
  intro t ht
  rw [hkernel]
  exact .later e log (h t (htasks t ht).1) (htasks t ht).2

theorem ListBound.bind (h : ListBound σ log) (hreg : Registered σ)
    (hop : OpCode.ofCode e.req.opCode = some .bind)
    (hreply : e.reply = (processReq P (some e.req) σ).reply) :
    ListBound (processReq P (some e.req) σ).sys (e :: log) := by
  have hkernel := processReq_kernel (P := P) hreg (some e.req)
  obtain ⟨hroster, hret⟩ := Prod.mk.inj (bind_roster (P := P) hreg hop)
  have hitems : (processReq P (some e.req) σ).sys.mod.tasks =
      (bindRoster σ.kernel e.req.pidN.toInt σ.mod.roster).1.items := congrArg Roster.items hroster
  have hold : ∀ t ∈ (σ.mod.roster.retain (alive σ.kernel)).items, t ∈ σ.mod.tasks :=
    fun t ht => List.mem_of_mem_filter ht
  intro t ht
  rw [hitems] at ht
  rw [hkernel]
  unfold bindRoster at ht hret
  simp only at ht hret
  -- a task that was listed before
  have hlisted (ht : t ∈ σ.mod.tasks) : BoundSince (σ.kernel.pidOf t) (e :: log) :=
    .later e log (h t ht) (not_unbind hop (by decide))
  split at ht
  · rename_i hcond
    rw [if_pos hcond] at hret
    cases htask : σ.kernel.taskOf e.req.pidN.toInt with
    | none =>
      rw [htask] at ht
      exact hlisted (hold t ht)
    | some t' =>
      rw [htask] at ht hret
      rcases List.mem_append.mp ht with ht | ht
      · exact hlisted (hold t ht)
      · obtain rfl := List.mem_singleton.mp ht
        refine .bind e log ⟨hop, (Kernel.pidOf_taskOf htask).1.symm, ?_⟩
        unfold Entry.ret
        rw [hreply]
        exact hret
  · exact hlisted (hold t ht)

theorem ListBound.unbind (h : ListBound σ log) (hreg : Registered σ)
    (hop : OpCode.ofCode e.req.opCode = some .unbind)
    (hreply : e.reply = (processReq P (some e.req) σ).reply) :
    ListBound (processReq P (some e.req) σ).sys (e :: log) := by
  obtain ⟨hroster, hret⟩ := Prod.mk.inj (unbind_roster (P := P) hreg hop)
  have hitems : (processReq P (some e.req) σ).sys.mod.tasks =
      (unbindRoster σ.kernel e.req.pidN.toInt σ.mod.roster).1.items := congrArg Roster.items hroster
  refine h.shrink (processReq_kernel hreg _) fun t ht => ?_
  rw [hitems] at ht
  unfold unbindRoster at ht hret
  split at ht
  · -- the named task is gone
    obtain ⟨hmem, hkeep⟩ := List.mem_filter.mp ht
    refine ⟨hmem, fun hacc => ?_⟩
    simp [hacc.pid] at hkeep
  · rename_i hcond
    rw [if_neg hcond] at hret
    refine ⟨List.mem_of_mem_filter ht, fun hacc => ?_⟩
    have hcode : (processReq P (some e.req) σ).ret = some 0 := by
      have := hacc.ret
      unfold Entry.ret at this
      rw [hreply] at this
      exact this
    rw [hret] at hcode
    exact absurd hcode (by simp)

/-- **A request keeps the listed processes bound.** -/
theorem ListBound.request (h : ListBound σ log) (hreg : Registered σ)
    (hreply : e.reply = (processReq P (some e.req) σ).reply) :
    ListBound (processReq P (some e.req) σ).sys (e :: log) := by
  cases hop : OpCode.ofCode e.req.opCode with
  | none =>
    refine h.shrink (processReq_kernel hreg _) fun t ht => ?_
    have hidle : SameList σ.mod (processReq P (some e.req) σ).sys.mod := idle_list hop
    rw [hidle.tasks] at ht
    exact ⟨ht, fun hacc => absurd (hop.symm.trans hacc.op) (by simp)⟩
  | some op =>
    cases op with
    | find =>
      refine h.shrink (processReq_kernel hreg _) fun t ht => ?_
      rw [find_tasks hreg hop] at ht
      exact ⟨List.mem_of_mem_filter ht, not_unbind hop (by decide)⟩
    | bind => exact h.bind hreg hop hreply
    | unbind => exact h.unbind hreg hop hreply

/-- What happens between two requests gives no listed task another number. -/
theorem ListBound.env {σ' : Sys} (h : ListBound σ log) (henv : EnvStep σ σ') : ListBound σ' log := by
  intro t ht
  rw [henv.1] at ht
  rw [henv.2 t ht]
  exact h t ht

/-! ## All interleavings -/

theorem bound_invariant (P : Platform) : (threads P).toTSys.Invariant (World.Bound P) := by
  refine (served_invariant P).strengthen (P := World.Bound P) ?_ ?_
  · rintro w ⟨hloaded, -, -, -, -, -, hlog⟩
    refine ⟨fun t ht => ?_, fun later e earlier heq => ?_⟩
    · obtain ⟨_, _, _, _, _, hmod⟩ := hloaded
      rw [hmod] at ht
      exact absurd ht (by simp [Mod.tasks_eq, Mod.loaded])
    · rw [hlog] at heq
      exact absurd heq (by simp)
  · rintro w w' hserved h (henv | ⟨t, hact⟩)
    · cases henv with
      | machine σ hσ => exact ⟨h.now.env hσ, h.past⟩
      | process t req rest hrequests =>
        simp only [placementNlProcessMsg_outcome]
        refine ⟨h.now.request (e := ⟨t, req, (processReq P (some req) w.machine).reply⟩)
          (registered_invariant P _ hserved.machine) rfl, ?_⟩
        intro later e earlier heq
        cases later with
        | nil =>
          obtain ⟨he, hearlier⟩ := List.cons.inj heq
          rw [← he, ← hearlier]
          exact ⟨w.machine, hserved.machine, h.now, rfl⟩
        | cons n later => exact h.past later e earlier (List.cons.inj heq).2
    · exact ⟨by rw [hact.machine, hact.log]; exact h.now,
        fun later e earlier heq => h.past later e earlier (hact.log ▸ heq)⟩

/-! ## What the controller reads -/

/-- The scan stops at the first entry without a pid. -/
theorem scanFrom_pos {c : Arr AddrInfo} {slots i k : Nat} (h : scanFrom c i slots = some k) :
    i ≤ k ∧ ∀ p, i ≤ p → p < k → 0 < (c p).pidRetval := by
  induction slots generalizing i with
  | zero => exact absurd h (by simp [scanFrom])
  | succ slots ih =>
    unfold scanFrom at h
    split at h
    · rename_i hpos
      obtain ⟨hle, hall⟩ := ih h
      refine ⟨by omega, fun p hlo hhi => ?_⟩
      rcases Nat.eq_or_lt_of_le hlo with rfl | hlt
      · exact hpos
      · exact hall p hlt hhi
    · obtain rfl := Option.some.inj h
      exact ⟨Nat.le_refl _, fun p hlo hhi => by omega⟩

/-- A walk's return code is no pid. -/
theorem memWalk_code (n : Int) (mode : FindMode) (σ : Sys) : (memWalk P n mode σ).2 ≤ 0 := by
  unfold memWalk
  split
  · exact Int.le_refl 0
  · simp only
    split
    · exact Int.le_refl 0
    · split
      · simp only
        split <;> simp
      · simp

theorem processFind_code (req : Req) (σ : Sys) : (processFind P req σ).2.1 ≤ 0 := by
  unfold processFind
  split
  · split
    · simp
    · simp
    · show (switchWalk P (intMin maxNSwitch req.pidN.toInt) σ).2 ≤ 0
      rw [switchWalk_phases]
      simp only
      split <;> simp
    · exact memWalk_code _ _ _
  · simp

/-- What the scan counts lies in the reply, and names listed processes. -/
theorem scanned_listed {req : Req} {mode : FindMode} {c : Arr AddrInfo} {k : Nat}
    (h : Registered σ) (hreq : IsFind req mode)
    (hreplied : (processReq P (some req) σ).Replied)
    (hc : c.slice 0 (processReq P (some req) σ).reply.length = (processReq P (some req) σ).reply)
    (hscan : scan c = some k) {p : Nat} (hp : p < k) :
    ∃ t ∈ σ.refreshed.mod.tasks, σ.kernel.pidOf t = (c p).pidRetval := by
  obtain ⟨-, hpos⟩ := scanFrom_pos hscan
  obtain ⟨-, fin, hfin, hreply⟩ := processReq_reply (replied_iff_back.mp hreplied)
  have hcode : fin.pidRetval ≤ 0 := by
    rw [hfin, processReq_find hreq.op]
    exact processFind_code _ _
  rw [hreply, List.length_append, List.length_singleton] at hc
  obtain ⟨hinit, hlast⟩ := slice_of_append (n := _ + 1) (show _ = _ ++ [fin] by simpa using hc)
  have hstop : c (processBody P (some req) σ).1.mod.reply.length = fin := by
    simpa [Arr.slice] using hlast
  have hlt : p < (processBody P (some req) σ).1.mod.reply.length := by
    by_contra hge
    have := hpos _ (Nat.zero_le _) (show (processBody P (some req) σ).1.mod.reply.length < k by omega)
    rw [hstop] at this
    omega
  have hmem : c p ∈ (processReq P (some req) σ).candidates := by
    refine List.mem_filter.mpr ⟨?_, by simpa using hpos p (Nat.zero_le _) hp⟩
    rw [hreply]
    refine List.mem_append_left _ ?_
    rw [← hinit]
    exact Arr.mem_slice.mpr ⟨p, hlt, by rw [Nat.zero_add]⟩
  obtain ⟨π, -, x, hx, horigin⟩ := find_origin h hreq hmem
  refine ⟨x.task, horigin.listed, ?_⟩
  rw [← hx, ← horigin.pid]
  rfl

/-- **The calls after a find name listed processes.** -/
theorem run_listed {req : Req} {mode : FindMode} {c : Arr AddrInfo} {k : Nat} {host : Host}
    (h : Registered σ) (hreq : IsFind req mode) (hn : mode = .switch → 0 ≤ req.pidN.toInt)
    (hc : c.slice 0 (processReq P (some req) σ).reply.length = (processReq P (some req) σ).reply)
    (hscan : scan c = some k) {dramSlots nvramSlots : Arr (Nat × Int)} {rounds : Nat}
    {calls : List MoveCall} {ret : Int}
    (hrun : (findPlacement mode.code k).run P host c dramSlots nvramSlots rounds =
      some (calls, ret)) :
    ∀ call ∈ calls, call.pages ≠ [] →
      ∃ t ∈ σ.refreshed.mod.tasks, σ.kernel.pidOf t = call.pid := by
  intro call hcall hne
  obtain ⟨page, hpage⟩ : ∃ page, call.pages[0]? = some page :=
    ⟨_, List.getElem?_eq_getElem (List.length_pos_of_ne_nil hne)⟩
  rcases memWalkPolicy_cases P mode with ⟨π, hπ⟩ | rfl | rfl
  · have hnot : mode ≠ .nvramClear := by
      rintro rfl
      simp [memWalkPolicy] at hπ
    have hreplied : (processReq P (some req) σ).Replied :=
      find_replied_iff.mpr fun hclear => hnot (isFind_inj hreq hclear.1)
    rw [findPlacement_plain hπ] at hrun
    split at hrun
    · obtain ⟨rfl, -⟩ := Prod.mk.inj (Option.some.inj hrun)
      exact absurd hcall (by simp)
    · rw [← (Prod.mk.inj (Option.some.inj hrun)).1] at hcall
      obtain ⟨hlt, hcand, -⟩ := doMigration_genuine P _ hcall hpage
      obtain ⟨t, ht, hpid⟩ := scanned_listed h hreq hreplied hc hscan hlt
      exact ⟨t, ht, by rw [hpid, hcand]⟩
  · -- both sections of a switch
    obtain ⟨k', -, hscan', hhad⟩ := switch_reply_had h hreq (hn rfl) hc
    obtain rfl := Option.some.inj (hscan.symm.trans hscan')
    obtain ⟨x, hx⟩ := switch_run_sound dramSlots nvramSlots hhad hrun call hcall 0 page hpage
    obtain ⟨addr, t, ht, hpid, -⟩ := hx.names
    exact ⟨t, ht, hpid⟩
  · -- nothing is done after a clear
    have hnone : findPlacement FindMode.nvramClear.code k = .nothing := by
      unfold findPlacement
      rw [FindMode.ofCode_code]
      split <;> rfl
    rw [hnone] at hrun
    obtain ⟨rfl, -⟩ := Prod.mk.inj (Option.some.inj hrun)
    exact absurd hcall (by simp)

/-- The finds of a section. -/
theorem section_find {t : Thread} {finds : List Req} (h : Section t finds) :
    ∀ req ∈ finds, ∃ n mode, req = .of .find n mode := by
  have hone (n : Int32) (mode : FindMode) :
      ∀ req ∈ [Req.of .find n mode], ∃ n mode, req = .of .find n mode :=
    fun req hmem => ⟨n, mode, List.mem_singleton.mp hmem⟩
  have htwo (n m : Int32) (mode mode' : FindMode) :
      ∀ req ∈ [Req.of .find n mode, .of .find m mode'], ∃ n mode, req = .of .find n mode := by
    intro req hmem
    rcases List.mem_cons.mp hmem with rfl | hmem
    · exact ⟨n, mode, rfl⟩
    · exact hone m mode' req hmem
  cases h with
  | send n mode => exact hone _ _
  | switch n => exact hone _ _
  | clearSwitch => exact htwo _ _ _ _
  | clearIntensive n => exact htwo _ _ _ _
  | threshold n mode => exact hone _ _

end

/-- What the thread migrates after its find belongs to processes that were bound when the
module took the find, `earlier` in its log. -/
def MovesBound (P : Platform) (w : World) (t : Thread) (req : Req) : Prop :=
  ∃ later e earlier, w.log = later ++ e :: earlier ∧ e.thread = t ∧ e.req = req ∧
    (∀ x ∈ later, x.thread ≠ t) ∧
    ∀ k host dramSlots nvramSlots rounds calls ret, scan w.candidates = some k →
      (findPlacement req.mode k).run P host w.candidates dramSlots nvramSlots rounds =
        some (calls, ret) →
      ∀ call ∈ calls, call.pages ≠ [] → BoundSince call.pid earlier

/-- **Only bound processes are migrated**, in every interleaving of the threads: after a find
whose count is not negative if it is a `SWITCH`, every call that moves a page names a pid
that was bound when the module took the find. -/
theorem moved_bound (P : Platform) :
    (threads P).toTSys.Invariant fun w =>
      ∀ t req rest, w.control t = .reading (.find req rest) →
        (IsFind req .switch → 0 ≤ req.pidN.toInt) → MovesBound P w t req := by
  intro w hreach t req rest hat hn
  obtain ⟨hok, hshared⟩ := (threads_outline P).invariant w hreach
  obtain ⟨-, -, reply, hanswered, hout⟩ := reading_answers hok hshared hat
  have hmade : ∃ done, Section t (done ++ req :: rest) := by
    have ht := hok t
    unfold ThreadOk at ht
    rw [hat] at ht
    exact ht.2.1
  obtain ⟨done, hsection⟩ := hmade
  obtain ⟨n, mode, rfl⟩ := section_find hsection req
    (List.mem_append_right _ List.mem_cons_self)
  -- the entry of the log that answers the find
  obtain ⟨hthread, later, earlier, hlog, hlater⟩ := List.find?_eq_some_iff_append.mp hanswered
  obtain ⟨σ, hσ, hbound, hreply⟩ := (bound_invariant P w hreach).past _ _ _ hlog
  simp only at hreply
  subst hreply
  refine ⟨later, _, earlier, hlog, rfl, rfl, fun x hx => by simpa using hlater x hx, ?_⟩
  intro k host dramSlots nvramSlots rounds calls ret hscan hrun call hcall hne
  have h := registered_invariant P σ hσ
  obtain ⟨task, htask, hpid⟩ := run_listed h (isFind_of n mode)
    (fun hmode => hn (hmode ▸ isFind_of n mode)) hout hscan hrun call hcall hne
  rw [refreshed_tasks h] at htask
  exact hpid ▸ hbound task (List.mem_of_mem_filter htask)

/-! ## A bind and a find -/

theorem foundWorld_reachable : (threads smallMachine).toTSys.Reachable foundWorld := by
  have hact {w w' : World} (h : (threads smallMachine).toTSys.Reachable w)
      (ha : Act .stdin w w') : (threads smallMachine).toTSys.Reachable w' :=
    h.step (.inr ⟨.stdin, ha⟩)
  have hcalled : (threads smallMachine).toTSys.Reachable bindCalled :=
    hact (World.started_reachable smallMachine _) (.callOp ⟨OpCode.bind.code, 1, 0⟩
      (.bind .stdin 1 0 (by decide)) (fun _ => ⟨0, 0⟩) rfl)
  have hbound := hcalled.after Works.step bindCalled_works
  exact (hact hbound (.enter [.of .find 1 .dram] (.send 1 .dram (by decide)) rfl)).after
    Works.step boundWorld_works

/-- It makes one call, which moves the page. -/
theorem foundWorld_calls : scan foundWorld.candidates = some 1 ∧
    (findPlacement FindMode.dram.code 1).run smallMachine roomyHost foundWorld.candidates
      (fun _ => (0, 0)) (fun _ => (0, 0)) 1 = some ([⟨1, 0, [(8192, 2)]⟩], 1) :=
  ⟨by decide +kernel, by decide +kernel⟩

theorem moved_bound_foundWorld :
    MovesBound smallMachine foundWorld .stdin (.of .find 1 .dram) ∧
      scan foundWorld.candidates = some 1 ∧
      (findPlacement FindMode.dram.code 1).run smallMachine roomyHost foundWorld.candidates
        (fun _ => (0, 0)) (fun _ => (0, 0)) 1 = some ([⟨1, 0, [(8192, 2)]⟩], 1) :=
  ⟨moved_bound smallMachine foundWorld foundWorld_reachable .stdin (.of .find 1 .dram) [] rfl
    fun h => absurd h.mode (by decide), foundWorld_calls⟩

end Ambix.Ctl
