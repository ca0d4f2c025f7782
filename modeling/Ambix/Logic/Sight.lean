import Ambix.Logic.Commits

/-!
# What a request sees and leaves of the page tables

A request changes nothing of the page tables but dirty bits, so every call of a
callback is on an entry that, up to its dirty bit, was there when the request started.
-/

namespace Ambix.Hyb

open Ambix.Lib Ambix.Lib.QuotaScan

section

variable {P : Platform} {σ : Sys}

/-! ## What is left -/

theorem clearTasks_view (is : List Nat) (σ : Sys) :
    tableView PageEntry.cleaned (clearTasks P is σ).1.mm = tableView PageEntry.cleaned σ.mm := by
  have hcall : ∀ t e m, (PageEntry.committed e
      (invoke (pteCallbackNvramClear P) t e m).commit).cleaned = e.cleaned := by
    intro t e m
    unfold invoke pteCallbackNvramClear
    simp only
    cases offTier P .nvram e.pte <;> rfl
  induction is generalizing σ with
  | nil => rfl
  | cons i is ih =>
    unfold clearTasks
    split
    · rfl
    · rw [ih, walkTask_view hcall]

theorem processFind_view (req : Req) (σ : Sys) :
    tableView PageEntry.cleaned (processFind P req σ).1.mm = tableView PageEntry.cleaned σ.mm := by
  have hwalk : ∀ (π : Policy P) tier σ, tableView PageEntry.cleaned (walkTier π.callback tier σ).mm =
      tableView PageEntry.cleaned σ.mm := by
    intro π tier σ
    refine π.walkTier_view (fun e => ?_) tier σ
    rw [π.after_eq]
    unfold PageEntry.cleaned
    split <;> rfl
  by_cases hpos : 0 < σ.mod.nPids
  · cases hmode : FindMode.ofCode req.mode with
    | none => rw [processFind_default hmode]
    | some mode =>
      rcases memWalkPolicy_cases P mode with ⟨π, hπ⟩ | rfl | rfl
      · obtain ⟨c, _, heq⟩ := memWalk_walk hπ (intMin maxNFind req.pidN.toInt) σ
        rw [processFind_plain hπ hmode hpos, heq]
        exact hwalk _ _ _
      · rw [processFind_switch hmode hpos, switchWalk_phases]
        simp only
        split
        · exact hwalk _ _ _
        · exact (hwalk _ _ _).trans (hwalk _ _ _)
      · rw [processFind_clear hmode hpos]
        exact clearTasks_view _ σ
  · rw [processFind_empty req hpos]

/-- **A request changes nothing of the page tables but dirty bits.** -/
theorem processReq_view (req : Option Req) (σ : Sys) :
    tableView PageEntry.cleaned (processReq P req σ).sys.mm = tableView PageEntry.cleaned σ.mm := by
  rw [processReq_mm]
  cases req with
  | none => rfl
  | some req =>
    simp only [processBody]
    split
    · rfl
    · exact processFind_view req _
    · rfl
    · rfl

theorem shows_of_view {mm mm' : TaskPtr → Option MmStruct}
    (h : tableView PageEntry.cleaned mm' = tableView PageEntry.cleaned mm) {t : TaskPtr}
    {a : MmStruct} (ha : mm' t = some a) {e : PageEntry} (he : e ∈ a.ptes) : Shows mm t e := by
  have hview := congrFun h t
  unfold tableView at hview
  rw [ha] at hview
  cases hmm : mm t with
  | none => simp [hmm] at hview
  | some b =>
    rw [hmm, Option.map_some, Option.map_some, Option.some.injEq] at hview
    have hmem : e.cleaned ∈ b.ptes.map PageEntry.cleaned := hview ▸ List.mem_map_of_mem he
    obtain ⟨e₀, he₀, heq⟩ := List.mem_map.mp hmem
    exact ⟨b, hmm, e₀, he₀, heq⟩

/-! ## What is seen -/

/-- Every call in the trace is on an entry that these page tables have. -/
def Sees (mm : TaskPtr → Option MmStruct) (m : Mod) : Prop :=
  ∀ t a p c, Event.visit t a p c ∈ m.trace → Shows mm t ⟨a, p⟩

/-- A property of what walks do: calls on entries that these page tables have, commits and
stores. -/
structure OfWalks (mm : TaskPtr → Option MmStruct) (Q : Event → Prop) : Prop where
  visit : ∀ t e c, Shows mm t e → Q (.visit t e.addr e.pte c)
  commit : ∀ t a old new, Q (.commit t a old new)
  store : ∀ buf i, Q (.store buf i)

/-- Every action so far has the property. -/
def Traced (Q : Event → Prop) (m : Mod) : Prop := ∀ ev ∈ m.trace, Q ev

section

variable {mm : TaskPtr → Option MmStruct} {Q : Event → Prop} {m m' : Mod}

theorem Traced.nil (h : m.trace = []) : Traced Q m := by
  intro ev hev
  simp [h] at hev

theorem Traced.same (h : Traced Q m) (htrace : m'.trace = m.trace) : Traced Q m' := by
  intro ev hev
  exact h ev (htrace ▸ hev)

theorem Traced.cons (h : Traced Q m) {ev : Event} (hev : Q ev) (htrace : m'.trace = ev :: m.trace) :
    Traced Q m' := by
  intro ev' hev'
  rw [htrace, List.mem_cons] at hev'
  rcases hev' with rfl | hev'
  · exact hev
  · exact h ev' hev'

theorem Traced.wrote (h : Traced Q m) (hQ : OfWalks mm Q) {lim : Nat} (hw : Wrote lim m m') :
    Traced Q m' := by
  obtain ⟨evs, htrace, hevs⟩ := hw.trace
  intro ev hev
  rw [htrace, List.mem_append] at hev
  rcases hev with hev | hev
  · obtain ⟨i, _, rfl⟩ := hevs _ hev
    exact hQ.store _ _
  · exact h ev hev

theorem Traced.note {π : Policy P} (h : Traced Q m) (hQ : OfWalks mm Q) (addr : Nat) (p : Pte) :
    Traced Q (π.note addr p m) := by
  unfold Policy.note
  split
  · exact h.cons (hQ.store .found m.nFound) rfl
  · split
    · refine h.cons (hQ.store (.spare π.spare) (m.nSpare π.spare)) ?_
      cases π.spare <;> rfl
    · exact h
  · exact h

/-- A callback that only writes and logs what it should, on an entry of the tables. -/
theorem traced_invoke (hQ : OfWalks mm Q) {cb : PteEntry} {t : TaskPtr} {e : PageEntry}
    (h : Traced Q m) (he : Shows mm t e)
    (hcb : ∀ m, Traced Q m → Traced Q (cb (some e.pte) e.addr m).mod) :
    Traced Q (invoke cb t e m).mod := by
  have hvisit : Traced Q (m.log (.visit t e.addr e.pte m.counters)) :=
    h.cons (hQ.visit t e m.counters he) rfl
  have hcall := hcb _ hvisit
  unfold invoke
  simp only
  split
  · exact hcall
  · exact hcall.cons (hQ.commit _ _ _ _) rfl

theorem traced_rule (hQ : OfWalks mm Q) (π : Policy P) (k : Kernel) (m₀ : Mod) :
    WalkRule k m₀ π.callback (Traced Q) (Shows mm) where
  quiet := π.quiet
  pid m p h := h
  call := by
    intro i _ e m _ _ he h
    refine ⟨traced_invoke hQ h he fun m h => ?_, he.congr (π.invoke_cleaned _ _ _)⟩
    by_cases hfull : (m.nFound : Int) = m.nToFind
    · rw [π.callback_full hfull]
      refine h.same ?_
      show (m.setLastAddr π.tier e.addr).trace = m.trace
      cases π.tier <;> rfl
    · rw [π.callback_open hfull]
      exact h.note hQ _ _

theorem clear_traced_rule (hQ : OfWalks mm Q) (k : Kernel) (m₀ : Mod) :
    WalkRule k m₀ (pteCallbackNvramClear P) (Traced Q) (Shows mm) where
  quiet := clear_quiet P
  pid m p h := h
  call := by
    intro i _ e m _ _ he h
    refine ⟨traced_invoke hQ h he fun m h => ?_, he.congr ?_⟩
    · rw [pteCallbackNvramClear_mod]
      exact h
    · unfold invoke pteCallbackNvramClear
      simp only
      cases offTier P .nvram e.pte <;> rfl

theorem walkTier_traced (hQ : OfWalks mm Q) (π : Policy P) {σ : Sys} (h : Traced Q σ.mod)
    (hview : tableView PageEntry.cleaned σ.mm = tableView PageEntry.cleaned mm)
    (hlast : σ.mod.lastPid π.tier < σ.mod.nPids) :
    Traced Q (walkTier π.callback π.tier σ).mod := by
  have hwalk := (doPageWalk_holds (traced_rule hQ π σ.kernel σ.mod) hlast (σ.mod.lastAddr π.tier)
    ⟨rfl, .refl _, h, fun t a ha e he => shows_of_view hview ha he⟩).1
  refine hwalk.inv.same ?_
  unfold walkTier
  simp only
  cases π.tier <;> rfl

end

section

variable {Q : Event → Prop}

theorem memWalk_traced (hQ : OfWalks σ.mm Q) {mode : FindMode} {π : Policy P}
    (hπ : memWalkPolicy P mode = some π) (n : Int) (htrace : σ.mod.trace = [])
    (hlast : ∀ tier, σ.mod.lastPid tier < σ.mod.nPids) :
    Traced Q (memWalk P n mode σ).1.mod := by
  obtain ⟨c, _, hwalk⟩ := memWalk_walk hπ n σ
  rw [hwalk]
  exact (walkTier_traced hQ π (σ := { σ with mod := σ.mod.setQuota .backup n }) (.nil htrace) rfl
    (hlast π.tier)).wrote hQ (.appendFound (Nat.le_refl _))

theorem switchWalk_traced (hQ : OfWalks σ.mm Q) (n : Int) (htrace : σ.mod.trace = [])
    (hlast : ∀ tier, σ.mod.lastPid tier < σ.mod.nPids) :
    Traced Q (switchWalk P n σ).1.mod := by
  have hready := dramReady (P := P) n hlast
  have hstart : Traced Q (σ.mod.setQuota .switchBackup n) := .nil htrace
  have htraced := walkTier_traced hQ (nvramSwitchPolicy P)
    (σ := { σ with mod := σ.mod.setQuota .switchBackup n }) hstart rfl (hlast .nvram)
  rw [switchWalk_phases]
  have htier : (nvramSwitchPolicy P).tier = .nvram := rfl
  rw [htier] at htraced
  generalize walkTier (nvramSwitchPolicy P).callback .nvram
    { σ with mod := σ.mod.setQuota .switchBackup n } = σ₁ at hready htraced
  simp only
  split
  · exact (htraced.wrote hQ (.setFoundPid (Nat.lt_succ_self _) 0 _)).wrote hQ
      (.setNFound (σ₁.mod.nFound + 1) _ _)
  · have hmid : Traced Q (switchMid n σ₁).mod :=
      htraced.cons (hQ.store .found σ₁.mod.nFound) rfl
    have hlast₁ : (switchMid n σ₁).mod.lastPid .dram < (switchMid n σ₁).mod.nPids := by
      show σ₁.mod.lastPid .dram < σ₁.mod.nPids
      rw [hready.lastPid, hready.nPids]
      exact hlast .dram
    have hwalk := walkTier_traced hQ (memPolicy P) hmid
      (congrArg (tableView PageEntry.cleaned) hready.mm) hlast₁
    exact hwalk.wrote hQ (dramWalk_wrote hlast₁)

/-- **What the walks of a request do** has every property of their calls, commits and
stores. -/
theorem processFind_traced (hQ : OfWalks σ.mm Q) (req : Req) (h : Registered σ)
    (htrace : σ.mod.trace = []) : Traced Q (processFind P req σ).1.mod := by
  by_cases hpos : 0 < σ.mod.nPids
  · have hlast := h.lastPid_lt hpos
    cases hmode : FindMode.ofCode req.mode with
    | none =>
      rw [processFind_default hmode]
      exact .nil htrace
    | some mode =>
      rcases memWalkPolicy_cases P mode with ⟨π, hπ⟩ | rfl | rfl
      · rw [processFind_plain hπ hmode hpos]
        exact memWalk_traced hQ hπ _ htrace hlast
      · rw [processFind_switch hmode hpos]
        exact switchWalk_traced hQ _ htrace hlast
      · rw [processFind_clear hmode hpos]
        exact (clearWalk_holds (clear_traced_rule hQ σ.kernel σ.mod)
          ⟨rfl, .refl _, .nil htrace, fun t a ha e he => shows_self ha he⟩).inv
  · rw [processFind_empty req hpos]
    exact .nil htrace

/-- The body of a request, of any kind. -/
theorem processBody_traced (hQ : OfWalks σ.mm Q) (req : Option Req) (h : Registered σ) :
    Traced Q (processBody P req σ).1.mod := by
  by_cases hop : ∃ r ∈ req, OpCode.ofCode r.opCode = some .find
  · obtain ⟨r, hr, hfind⟩ := hop
    obtain rfl : req = some r := hr
    rw [processReq_find hfind]
    exact processFind_traced (σ := σ.refreshed) hQ r h.refreshed (Sys.refreshed_trace σ)
  · exact .nil (otherBody_trace fun r hr hfind => hop ⟨r, hr, hfind⟩)

end

/-- **Every entry a request's callbacks are called on** was in the page tables when the
request started, up to its dirty bit. -/
theorem processReq_sees (req : Option Req) (h : Registered σ) :
    Sees σ.mm (processReq P req σ).sys.mod := by
  have hQ : OfWalks σ.mm fun ev => ∀ t a p c, ev = .visit t a p c → Shows σ.mm t ⟨a, p⟩ := by
    refine ⟨?_, by simp, by simp⟩
    rintro t e c he t' a p c' heq
    obtain ⟨rfl, rfl, rfl, _⟩ := Event.visit.inj heq
    exact he
  intro t a p c hmem
  rcases processReq_mem hmem with ⟨i, heq⟩ | hbody
  · exact absurd heq (by simp)
  · exact processBody_traced hQ req h _ hbody t a p c rfl

end

end Ambix.Hyb
