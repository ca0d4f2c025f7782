import Ambix.Logic.Sight

/-!
# The page tables after a request

The trace names every entry that was committed, so the page tables a walk leaves are the
ones it found with its commits replayed. Together with the account of which pages a
request resets this gives the entry of every page after the request (`find_tables`).
-/

namespace Ambix.Hyb

open Ambix.Lib Ambix.Lib.QuotaScan

/-! ## Replaying a trace -/

/-- The event commits an entry for the page of `t` at `a`. -/
def Event.commits (t : TaskPtr) (a : Nat) : Event → Bool
  | .commit t' a' _ _ => t' == t && a' == a
  | _ => false

/-- One of the events commits an entry for the page. -/
def resetIn (evs : List Event) (t : TaskPtr) (a : Nat) : Bool := evs.any (Event.commits t a)

/-- An entry of `t` after these events. -/
def replay (evs : List Event) (t : TaskPtr) (e : PageEntry) : PageEntry :=
  if resetIn evs t e.addr then { e with pte := modifyProt e.pte } else e

/-- Nothing is committed. -/
def NoCommit (evs : List Event) : Prop := ∀ t a, resetIn evs t a = false

section

variable {evs evs' : List Event} {t : TaskPtr} {a : Nat} {e : PageEntry}

theorem resetIn_iff :
    resetIn evs t a = true ↔ ∃ old new, Event.commit t a old new ∈ evs := by
  unfold resetIn
  rw [List.any_eq_true]
  constructor
  · rintro ⟨ev, hev, hcommits⟩
    cases ev with
    | commit t' a' old new =>
      simp only [Event.commits, Bool.and_eq_true, beq_iff_eq] at hcommits
      obtain ⟨rfl, rfl⟩ := hcommits
      exact ⟨old, new, hev⟩
    | visit | store | retval => exact absurd hcommits (by simp [Event.commits])
  · rintro ⟨old, new, hev⟩
    exact ⟨_, hev, by simp [Event.commits]⟩

theorem resetIn_append (evs evs' : List Event) (t : TaskPtr) (a : Nat) :
    resetIn (evs ++ evs') t a = (resetIn evs t a || resetIn evs' t a) := List.any_append

theorem noCommit_of (h : ∀ t a old new, Event.commit t a old new ∉ evs) : NoCommit evs := by
  intro t a
  rw [← Bool.not_eq_true, resetIn_iff]
  rintro ⟨old, new, hev⟩
  exact h t a old new hev

@[simp] theorem replay_addr (evs : List Event) (t : TaskPtr) (e : PageEntry) :
    (replay evs t e).addr = e.addr := by
  unfold replay
  split <;> rfl

theorem replay_of_not (h : resetIn evs t e.addr = false) : replay evs t e = e := by
  simp [replay, h]

theorem replay_of (h : resetIn evs t e.addr = true) :
    replay evs t e = { e with pte := modifyProt e.pte } := by
  simp [replay, h]

theorem NoCommit.replay (h : NoCommit evs) (t : TaskPtr) : replay evs t = id := by
  funext e
  exact replay_of_not (h t e.addr)

/-- A second reset of a page changes nothing, so replaying is a matter of which pages
the events name, not of how often. -/
theorem replay_append : replay (evs ++ evs') t e = replay evs t (replay evs' t e) := by
  cases hlater : resetIn evs t e.addr with
  | false =>
    rw [replay_of_not (e := replay evs' t e) (by rw [replay_addr]; exact hlater)]
    unfold replay
    rw [resetIn_append, hlater, Bool.false_or]
  | true =>
    rw [replay_of (e := replay evs' t e) (by rw [replay_addr]; exact hlater),
      replay_of (by rw [resetIn_append, hlater, Bool.true_or])]
    unfold replay
    split <;> rfl

end

/-- The second state is the first with more events, whose commits are in the page
tables. -/
def Replays (σ σ' : Sys) : Prop :=
  ∃ evs, σ'.mod.trace = evs ++ σ.mod.trace ∧
    ∀ t, tableView id σ'.mm t = tableView (replay evs t) σ.mm t

namespace Replays

variable {σ σ' σ'' : Sys}

/-- Steps that commit nothing. -/
theorem of_noCommit (evs : List Event) (htrace : σ'.mod.trace = evs ++ σ.mod.trace)
    (hnone : NoCommit evs) (hmm : σ'.mm = σ.mm) : Replays σ σ' := by
  refine ⟨evs, htrace, fun t => ?_⟩
  rw [hnone.replay, hmm]

theorem same (htrace : σ'.mod.trace = σ.mod.trace) (hmm : σ'.mm = σ.mm) : Replays σ σ' :=
  of_noCommit [] htrace (noCommit_of (by simp)) hmm

theorem trans (h : Replays σ σ') (h' : Replays σ' σ'') : Replays σ σ'' := by
  obtain ⟨evs, htrace, hview⟩ := h
  obtain ⟨evs', htrace', hview'⟩ := h'
  refine ⟨evs' ++ evs, by rw [htrace', htrace, List.append_assoc], fun t => ?_⟩
  have hcomp : ∀ (mm : TaskPtr → Option MmStruct) (f : PageEntry → PageEntry),
      tableView f mm t = (tableView id mm t).map (List.map f) := by
    intro mm f
    unfold tableView
    cases mm t <;> simp
  rw [hview', hcomp, hview]
  unfold tableView
  cases σ.mm t with
  | none => rfl
  | some mm =>
    simp only [Option.map_some, List.map_map, Option.some.injEq]
    exact List.map_congr_left fun e _ => replay_append.symm

theorem wrote {lim : Nat} {m : Mod} (h : Wrote lim σ.mod m) : Replays σ { σ with mod := m } := by
  obtain ⟨evs, htrace, hevs⟩ := h.trace
  refine of_noCommit evs htrace (noCommit_of fun t a old new hev => ?_) rfl
  obtain ⟨i, _, heq⟩ := hevs _ hev
  exact absurd heq (by simp)

end Replays

/-! ## Walks -/

/-- A callback that commits the reset of the entry it is called on, or nothing. -/
structure Resetting (cb : PteEntry) : Prop where
  quiet : Quiet cb
  trace : ∀ p addr m, ∃ evs, (cb (some p) addr m).mod.trace = evs ++ m.trace ∧ NoCommit evs
  commit : ∀ p addr m, (cb (some p) addr m).commit = none ∨
    (cb (some p) addr m).commit = some (modifyProt p)

theorem Policy.resetting {P : Platform} (π : Policy P) : Resetting π.callback where
  quiet := π.quiet
  trace p addr m := by
    by_cases hfull : (m.nFound : Int) = m.nToFind
    · refine ⟨[], ?_, noCommit_of (by simp)⟩
      rw [π.callback_full hfull]
      show (m.setLastAddr π.tier addr).trace = m.trace
      cases π.tier <;> rfl
    · rw [π.callback_open hfull]
      show ∃ evs, (π.note addr p m).trace = evs ++ m.trace ∧ NoCommit evs
      unfold Policy.note
      split
      · exact ⟨[.store .found m.nFound], rfl, noCommit_of (by simp)⟩
      · split
        · refine ⟨[.store (.spare π.spare) (m.nSpare π.spare)], ?_, noCommit_of (by simp)⟩
          cases π.spare <;> rfl
        · exact ⟨[], rfl, noCommit_of (by simp)⟩
      · exact ⟨[], rfl, noCommit_of (by simp)⟩
  commit p addr m := π.counting.commit p addr m

theorem clear_resetting (P : Platform) : Resetting (pteCallbackNvramClear P) where
  quiet := clear_quiet P
  trace p addr m := ⟨[], by rw [pteCallbackNvramClear_mod]; rfl, noCommit_of (by simp)⟩
  commit p addr m := by
    unfold pteCallbackNvramClear
    simp only
    split
    · exact Or.inl rfl
    · exact Or.inr rfl

section

variable {cb : PteEntry}

/-- One call: the events of the call reset no page but the one it is about. -/
theorem invoke_replays (h : Resetting cb) (t : TaskPtr) (e : PageEntry) (m : Mod) :
    ∃ evs, (invoke cb t e m).mod.trace = evs ++ m.trace ∧
      e.committed (invoke cb t e m).commit = replay evs t e ∧
      ∀ t' a, resetIn evs t' a = true → t' = t ∧ a = e.addr := by
  obtain ⟨evs, htrace, hnone⟩ := h.trace e.pte e.addr (m.log (.visit t e.addr e.pte m.counters))
  have hcommit := h.commit e.pte e.addr (m.log (.visit t e.addr e.pte m.counters))
  have hcall : ∀ t' a, resetIn (evs ++ [.visit t e.addr e.pte m.counters]) t' a = false := by
    intro t' a
    rw [resetIn_append, hnone t' a]
    rfl
  unfold invoke
  generalize cb (some e.pte) e.addr (m.log (.visit t e.addr e.pte m.counters)) = r at htrace hcommit
  have hcalled : r.mod.trace = (evs ++ [.visit t e.addr e.pte m.counters]) ++ m.trace := by
    rw [htrace, List.append_assoc]
    rfl
  simp only
  rcases hcommit with hc | hc
  · rw [hc]
    refine ⟨_, hcalled, ?_, fun t' a hin => ?_⟩
    · rw [replay_of_not (hcall t e.addr), hc]
      rfl
    · rw [hcall] at hin
      exact absurd hin Bool.false_ne_true
  · -- the commit is the latest event, and the only one that names a page
    rw [hc]
    refine ⟨.commit t e.addr e.pte (modifyProt e.pte) ::
      (evs ++ [.visit t e.addr e.pte m.counters]), ?_, ?_, fun t' a hin => ?_⟩
    · show _ :: r.mod.trace = _
      rw [hcalled]
      rfl
    · rw [replay_of (resetIn_iff.mpr ⟨_, _, List.mem_cons_self⟩)]
      rfl
    · have hsplit : resetIn [.commit t e.addr e.pte (modifyProt e.pte)] t' a = true := by
        have happend := resetIn_append [.commit t e.addr e.pte (modifyProt e.pte)]
          (evs ++ [.visit t e.addr e.pte m.counters]) t' a
        rw [hcall, Bool.or_false] at happend
        exact happend.symm.trans hin
      obtain ⟨old, new, hmem⟩ := resetIn_iff.mp hsplit
      simp only [List.mem_singleton, Event.commit.injEq] at hmem
      exact ⟨hmem.1, hmem.2.1⟩

/-- A stretch over entries with different addresses, by induction on the entries: the
later calls name none of the earlier pages. -/
theorem walkPtes_replays (h : Resetting cb) (t : TaskPtr) (start stop : Nat) (es : List PageEntry)
    (hdistinct : (es.map PageEntry.addr).Nodup) (m : Mod) :
    ∃ evs, (walkPtes cb t start stop es m).1.trace = evs ++ m.trace ∧
      (walkPtes cb t start stop es m).2 = es.map (replay evs t) ∧
      ∀ t' a, resetIn evs t' a = true → t' = t ∧ a ∈ es.map PageEntry.addr := by
  induction es generalizing m with
  | nil => exact ⟨[], rfl, rfl, by simp [resetIn]⟩
  | cons e es ih =>
    rw [List.map_cons, List.nodup_cons] at hdistinct
    obtain ⟨hhead, htail⟩ := hdistinct
    unfold walkPtes
    split
    · obtain ⟨evs, htrace, hentry, honly⟩ := invoke_replays h t e m
      -- the call on the head names no page of the tail
      have hkeep : ∀ x ∈ es, replay evs t x = x := by
        intro x hx
        apply replay_of_not
        rw [← Bool.not_eq_true]
        intro hin
        exact hhead ((honly _ _ hin).2 ▸ List.mem_map_of_mem hx)
      simp only
      split
      · refine ⟨evs, htrace, ?_, fun t' a hin => ?_⟩
        · rw [List.map_cons, hentry, List.map_congr_left hkeep, List.map_id']
        · obtain ⟨rfl, rfl⟩ := honly t' a hin
          exact ⟨rfl, List.mem_cons_self⟩
      · obtain ⟨evs', htrace', hentries, honly'⟩ := ih htail (invoke cb t e m).mod
        refine ⟨evs' ++ evs, ?_, ?_, fun t' a hin => ?_⟩
        · rw [htrace', htrace, List.append_assoc]
        · have hlater : replay evs' t (replay evs t e) = replay evs t e := by
            apply replay_of_not
            rw [replay_addr, ← Bool.not_eq_true]
            intro hin
            exact hhead (honly' _ _ hin).2
          rw [List.map_cons, replay_append, hlater, hentry, hentries]
          refine congrArg _ (List.map_congr_left fun x hx => ?_)
          rw [replay_append, hkeep x hx]
        · rw [resetIn_append, Bool.or_eq_true] at hin
          rcases hin with hin | hin
          · obtain ⟨ht, ha⟩ := honly' t' a hin
            exact ⟨ht, List.mem_cons_of_mem _ ha⟩
          · obtain ⟨rfl, rfl⟩ := honly t' a hin
            exact ⟨rfl, List.mem_cons_self⟩
    · obtain ⟨evs, htrace, hentries, honly⟩ := ih htail m
      refine ⟨evs, htrace, ?_, fun t' a hin => ?_⟩
      · have hkeep : replay evs t e = e := by
          apply replay_of_not
          rw [← Bool.not_eq_true]
          intro hin
          exact hhead (honly _ _ hin).2
        rw [List.map_cons, hkeep]
        exact congrArg (e :: ·) hentries
      · obtain ⟨ht, ha⟩ := honly t' a hin
        exact ⟨ht, List.mem_cons_of_mem _ ha⟩

theorem MmStruct.nodup (mm : MmStruct) : (mm.ptes.map PageEntry.addr).Nodup :=
  mm.ascending.imp fun h => Nat.ne_of_lt h

theorem walkTask_replays (h : Resetting cb) (i start stop : Nat) (σ : Sys) :
    Replays σ (walkTask cb i start stop σ) := by
  unfold walkTask
  simp only
  split
  · exact .same rfl rfl
  · rename_i mm hmm
    obtain ⟨evs, htrace, hentries, honly⟩ := walkPtes_replays h (σ.mod.taskItems i) start stop
      mm.ptes mm.nodup (σ.mod.setCurrPid (σ.kernel.pidOf (σ.mod.taskItems i)))
    refine ⟨evs, htrace, fun t => ?_⟩
    unfold tableView
    by_cases ht : t = σ.mod.taskItems i
    · subst ht
      simp only [Function.update_self, Option.map_some, hmm, walkPageRange, MmStruct.withPtes_ptes,
        List.map_id, hentries]
    · -- the stretch names no page of another task
      have hkeep : replay evs t = id := by
        funext e
        apply replay_of_not
        rw [← Bool.not_eq_true]
        intro hin
        exact ht (honly _ _ hin).1
      simp only [Function.update_of_ne ht, hkeep]

theorem walkStretches_replays (h : Resetting cb) (ss : List Stretch) (σ : Sys) :
    Replays σ (walkStretches cb ss σ).1 := by
  induction ss generalizing σ with
  | nil => exact .same rfl rfl
  | cons s ss ih =>
    have hstep := walkTask_replays h s.index s.start s.stop σ
    unfold walkStretches
    simp only
    split
    · exact hstep
    · exact hstep.trans (ih _)

/-- **A walk leaves its commits**, and no other change, in the page tables. -/
theorem walkTier_replays (h : Resetting cb) (tier : Tier) (σ : Sys) :
    Replays σ (walkTier cb tier σ) := by
  unfold walkTier
  simp only [doPageWalk_eq h.quiet]
  refine (walkStretches_replays h _ σ).trans (.same ?_ rfl)
  cases tier <;> rfl

theorem clearTasks_replays (P : Platform) (is : List Nat) (σ : Sys) :
    Replays σ (clearTasks P is σ).1 := by
  induction is generalizing σ with
  | nil => exact .same rfl rfl
  | cons i is ih =>
    unfold clearTasks
    split
    · exact .same rfl rfl
    · exact (walkTask_replays (clear_resetting P) i 0 maxAddress σ).trans (ih _)

end

/-! ## Requests -/

section

variable {P : Platform} {σ : Sys}

theorem memWalk_replays {mode : FindMode} {π : Policy P} (hπ : memWalkPolicy P mode = some π)
    (n : Int) (σ : Sys) : Replays σ (memWalk P n mode σ).1 := by
  obtain ⟨c, _, hwalk⟩ := memWalk_walk hπ n σ
  have hstart : Replays σ { σ with mod := σ.mod.setQuota .backup n } := .same rfl rfl
  rw [hwalk]
  exact (hstart.trans (walkTier_replays π.resetting _ _)).trans
    (.wrote (.appendFound (Nat.le_refl _)))

theorem switchWalk_replays (n : Int) (hlast : ∀ tier, σ.mod.lastPid tier < σ.mod.nPids) :
    Replays σ (switchWalk P n σ).1 := by
  have hready := dramReady (P := P) n hlast
  have hstart : Replays σ { σ with mod := σ.mod.setQuota .switchBackup n } := .same rfl rfl
  have hnvram := hstart.trans (walkTier_replays (nvramSwitchPolicy P).resetting .nvram _)
  rw [switchWalk_phases]
  generalize walkTier (nvramSwitchPolicy P).callback .nvram
    { σ with mod := σ.mod.setQuota .switchBackup n } = σ₁ at hready hnvram
  simp only
  split
  · exact (hnvram.trans (.wrote (.setFoundPid (Nat.lt_succ_self _) 0 _))).trans
      (.wrote (.setNFound (σ₁.mod.nFound + 1) _ _))
  · have hmid : Replays σ₁ (switchMid n σ₁) :=
      .of_noCommit [.store .found σ₁.mod.nFound] rfl (noCommit_of (by simp)) rfl
    have hlast₁ : (switchMid n σ₁).mod.lastPid .dram < (switchMid n σ₁).mod.nPids := by
      show σ₁.mod.lastPid .dram < σ₁.mod.nPids
      rw [hready.lastPid, hready.nPids]
      exact hlast .dram
    have hdram := walkTier_replays (memPolicy P).resetting .dram (switchMid n σ₁)
    exact ((hnvram.trans hmid).trans hdram).trans (.wrote (dramWalk_wrote hlast₁))

theorem processFind_replays (req : Req) (h : Registered σ) :
    Replays σ (processFind P req σ).1 := by
  by_cases hpos : 0 < σ.mod.nPids
  · cases hmode : FindMode.ofCode req.mode with
    | none =>
      rw [processFind_default hmode]
      exact .same rfl rfl
    | some mode =>
      rcases memWalkPolicy_cases P mode with ⟨π, hπ⟩ | rfl | rfl
      · rw [processFind_plain hπ hmode hpos]
        exact memWalk_replays hπ _ σ
      · rw [processFind_switch hmode hpos]
        exact switchWalk_replays _ (h.lastPid_lt hpos)
      · rw [processFind_clear hmode hpos]
        exact clearTasks_replays P _ σ
  · rw [processFind_empty req hpos]
    exact .same rfl rfl

/-- Requests of the other kinds leave the page tables alone. -/
theorem other_mm {req : Option Req}
    (hop : ∀ r ∈ req, OpCode.ofCode r.opCode ≠ some .find) :
    (processReq P req σ).sys.mm = σ.mm := by
  rw [processReq_mm]
  cases req with
  | none => rfl
  | some r =>
    have hne := hop r rfl
    simp only [processBody]
    split
    · rfl
    · rename_i hc
      exact absurd hc hne
    · rfl
    · rfl

/-- **The page tables after a request** are those before it with the commits of its trace
replayed. -/
theorem processReq_tables (req : Option Req) (h : Registered σ) (t : TaskPtr) :
    tableView id (processReq P req σ).sys.mm t =
      tableView (replay (processReq P req σ).sys.mod.trace t) σ.mm t := by
  by_cases hop : ∃ r ∈ req, OpCode.ofCode r.opCode = some .find
  · obtain ⟨r, hr, hfind⟩ := hop
    obtain rfl : req = some r := hr
    have hbody : Replays σ.refreshed (processBody P (some r) σ).1 := by
      rw [processReq_find hfind]
      exact processFind_replays r h.refreshed
    obtain ⟨evs, htrace, hview⟩ := hbody
    obtain ⟨evs', htrace', hevs'⟩ := processReq_trace (P := P) (some r) σ
    rw [Sys.refreshed_trace, List.append_nil] at htrace
    have hret : NoCommit evs' := by
      refine noCommit_of fun t a old new hev => ?_
      obtain ⟨i, heq⟩ := hevs' _ hev
      exact absurd heq (by simp)
    have hreplay : replay (evs' ++ evs) t = replay evs t := by
      funext e
      rw [replay_append, hret.replay, id]
    rw [processReq_mm, hview, htrace', htrace, hreplay]
    rfl
  · have hnone : ∀ r ∈ req, OpCode.ofCode r.opCode ≠ some .find := fun r hr hfind =>
      hop ⟨r, hr, hfind⟩
    have hquiet : NoCommit (processReq P req σ).sys.mod.trace :=
      noCommit_of (other_commits hnone)
    rw [other_mm hnone, hquiet.replay]

theorem processReq_nospace (req : Option Req) (h : Registered σ) {t : TaskPtr}
    (hmm : σ.mm t = none) : (processReq P req σ).sys.mm t = none := by
  have htables := processReq_tables (P := P) req h t
  unfold tableView at htables
  rwa [hmm, Option.map_none, Option.map_eq_none_iff] at htables

/-- The address space of a task after a request. -/
theorem processReq_space (req : Option Req) (h : Registered σ) {t : TaskPtr} {mm : MmStruct}
    (hmm : σ.mm t = some mm) : ∃ mm', (processReq P req σ).sys.mm t = some mm' ∧
      mm'.ptes = mm.ptes.map (replay (processReq P req σ).sys.mod.trace t) := by
  have htables := processReq_tables (P := P) req h t
  unfold tableView at htables
  rw [hmm, Option.map_some, Option.map_eq_some_iff] at htables
  obtain ⟨mm', hmm', heq⟩ := htables
  rw [List.map_id] at heq
  exact ⟨mm', hmm', heq⟩

/-- The request resets the page of `t` at `a`. -/
def ResetsPage (P : Platform) (req : Option Req) (σ : Sys) (t : TaskPtr) (a : Nat) : Prop :=
  ∃ r ∈ req, OpCode.ofCode r.opCode = some .find ∧ ∃ p, Resets P r σ.refreshed t a p

/-- The trace commits an entry for exactly the pages the request resets. -/
theorem processReq_resetIn (req : Option Req) (h : Registered σ) (t : TaskPtr) (a : Nat) :
    resetIn (processReq P req σ).sys.mod.trace t a = true ↔ ResetsPage P req σ t a := by
  rw [resetIn_iff]
  constructor
  · rintro ⟨old, new, hcommit⟩
    by_cases hop : ∃ r ∈ req, OpCode.ofCode r.opCode = some .find
    · obtain ⟨r, hr, hfind⟩ := hop
      obtain rfl : req = some r := hr
      exact ⟨r, rfl, hfind, old, ((find_commits_iff h hfind t a old new).mp hcommit).1⟩
    · exact absurd hcommit (other_commits (fun r hr hfind => hop ⟨r, hr, hfind⟩) t a old new)
  · rintro ⟨r, hr, hfind, p, hresets⟩
    obtain rfl : req = some r := hr
    exact ⟨p, modifyProt p, (find_commits_iff h hfind t a p _).mpr ⟨hresets, rfl⟩⟩

/-! ## Which pages can be reset -/

theorem swept_visits {π : Policy P} {n : Nat} {x : Exam} (hx : x ∈ σ.swept π n) :
    x ∈ tierVisits π σ := by
  rw [← examined_append_unexamined π.classOf n (tierVisits π σ)]
  exact List.mem_append_left _ hx

/-- A page a request resets is one of a walk, or `clear_walk` comes to it. -/
theorem resets_walked {req : Req} {t : TaskPtr} {a : Nat} {p : Pte}
    (hr : Resets P req σ t a p) :
    (∃ x : Exam, x.seen = (t, a, p) ∧ ((∃ π : Policy P, x ∈ tierVisits π σ) ∨
      ∃ tier, x ∈ σ.firstStretch tier)) ∨ σ.cleared P t a p := by
  obtain ⟨_, mode, _, hr⟩ := hr
  split at hr
  · obtain ⟨⟨x, hx, heq⟩, _⟩ := hr
    refine Or.inl ⟨x, heq, ?_⟩
    unfold Sys.examinedBy at hx
    split at hx
    · exact Or.inl ⟨_, swept_visits hx⟩
    · exact Or.inr ⟨_, hx⟩
  · split at hr
    · obtain ⟨⟨x, hx, heq⟩, _⟩ := hr
      refine Or.inl ⟨x, heq, ?_⟩
      unfold Sys.switchExamined at hx
      split at hx
      · exact Or.inl ⟨_, swept_visits hx⟩
      · split at hx
        · simp at hx
        · exact Or.inr ⟨_, hx⟩
    · exact Or.inr hr

theorem tierVisits_shows {π : Policy P} (h : Registered σ) (hpos : 0 < σ.mod.nPids)
    {x : Exam} (hx : x ∈ tierVisits π σ) : Shows σ.mm x.task ⟨x.addr, x.pte⟩ := by
  obtain ⟨y, hy, hxy⟩ := mem_tierVisits π h hpos hx
  obtain ⟨i, _, mm, hmm, e, he, rfl⟩ := Sys.mem_pages.mp hy
  rcases hxy with rfl | rfl
  · exact shows_self hmm he
  · refine (shows_self hmm he).congr ?_
    show PageEntry.cleaned ⟨e.addr, π.after e.pte⟩ = e.cleaned
    rw [π.after_eq]
    unfold PageEntry.cleaned
    split <;> rfl

theorem firstStretch_shows {tier : Tier} {x : Exam} (hx : x ∈ σ.firstStretch tier) :
    Shows σ.mm x.task ⟨x.addr, x.pte⟩ := by
  unfold Sys.firstStretch examsOf at hx
  split at hx
  · simp at hx
  · rename_i a ha
    obtain ⟨e, he, rfl⟩ := List.mem_map.mp hx
    exact shows_self ha (List.mem_filter.mp he).1

theorem firstStretch_task {tier : Tier} (hlast : σ.mod.lastPid tier < σ.mod.nPids) {x : Exam}
    (hx : x ∈ σ.firstStretch tier) : x.task ∈ σ.mod.tasks := by
  unfold Sys.firstStretch examsOf at hx
  split at hx
  · simp at hx
  · obtain ⟨e, _, rfl⟩ := List.mem_map.mp hx
    exact Mod.mem_tasks.mpr ⟨_, hlast, rfl⟩

/-- **A page that a request resets** is one of a listed process, in the page tables up to
its dirty bit. -/
theorem resets_page {req : Req} (h : Registered σ) {t : TaskPtr} {a : Nat} {p : Pte}
    (hr : Resets P req σ t a p) : t ∈ σ.mod.tasks ∧ Shows σ.mm t ⟨a, p⟩ := by
  have hpos := hr.1
  rcases resets_walked hr with ⟨x, heq, hx⟩ | ⟨ht, mm, hmm, hp, _⟩
  · simp only [Exam.seen, Prod.mk.injEq] at heq
    obtain ⟨rfl, rfl, rfl⟩ := heq
    rcases hx with ⟨π, hx⟩ | ⟨tier, hx⟩
    · exact ⟨(visit_task π h hpos hx).1, tierVisits_shows h hpos hx⟩
    · exact ⟨firstStretch_task (h.lastPid_lt hpos _) hx, firstStretch_shows hx⟩
  · exact ⟨(List.takeWhile_prefix _).subset ht, shows_self hmm hp⟩

/-- The tier whose pages a mode resets. -/
def resetTier : FindMode → Option Tier
  | .dram | .switch => some .dram
  | .nvram | .nvramClear => some .nvram
  | .nvramIntensive | .nvramWrite => none

/-- A policy that resets anything resets pages of its mode's tier. -/
theorem memWalkPolicy_resets {mode : FindMode} {π : Policy P}
    (hπ : memWalkPolicy P mode = some π) {p : Pte} (hresets : π.resets p = true) :
    ∃ tier, resetTier mode = some tier ∧ offTier P tier.mode p = false := by
  have hoff := π.resets_onTier p hresets
  cases mode <;> simp only [memWalkPolicy, Option.some.injEq, reduceCtorEq] at hπ <;> subst hπ
  · exact ⟨.dram, rfl, hoff⟩
  · exact ⟨.nvram, rfl, hoff⟩
  · exact absurd hresets Bool.false_ne_true
  · exact absurd hresets Bool.false_ne_true

/-- **Only present, writable pages of that tier** are reset. -/
theorem resets_tier {req : Req} {t : TaskPtr} {a : Nat} {p : Pte} (hr : Resets P req σ t a p) :
    ∃ mode tier, FindMode.ofCode req.mode = some mode ∧ resetTier mode = some tier ∧
      offTier P tier.mode p = false := by
  obtain ⟨_, mode, hmode, hr⟩ := hr
  refine ⟨mode, ?_⟩
  rcases memWalkPolicy_cases P mode with ⟨π, hπ⟩ | rfl | rfl
  · rw [hπ] at hr
    obtain ⟨tier, htier, hoff⟩ := memWalkPolicy_resets hπ hr.2
    exact ⟨tier, hmode, htier, hoff⟩
  · exact ⟨.dram, hmode, rfl, (memPolicy P).resets_onTier p hr.2⟩
  · obtain ⟨_, mm, _, _, hoff⟩ := hr
    exact ⟨.nvram, hmode, rfl, hoff⟩

end

end Ambix.Hyb
