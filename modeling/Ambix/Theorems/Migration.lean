import Ambix.Hyb.Machine
import Ambix.Logic.Sight
import Ambix.Logic.Wire
import Ambix.Logic.Reading

/-!
# From a page-table entry to `move_pages`

The four plain modes end to end: a walk picks pages, the reply carries them to the
controller, the scan counts them and `do_migration` hands them on in runs of one pid.
No stage changes an address or a pid or mixes them up.
-/

namespace Ambix.Hyb

open Ambix.Lib Ambix.Lib.QuotaScan Ambix.Ctl

/-! ## What `mem_walk` picks

The bounded backup list and the early exit cost nothing: the reply is what the unbounded
definition `QuotaScan.select` picks from the visits of a walk with no quota. -/

section

variable {P : Platform} {mode : FindMode} {π : Policy P}

/-- **`mem_walk` returns the reference selection**, from any registry, page tables
and hand: the first `n` primaries of the visits `V` if there are as many, else all
of them and as many of the first backups as are missing. Its return code is 0
exactly when it returns `n` candidates. -/
theorem memWalk_selects (hmode : memWalkPolicy P mode = some π) {n : Nat} (hn : n ≤ maxNFind)
    {σ : Sys} (hfound : σ.mod.nFound = 0) :
    let V := tierVisits π σ
    let found := primaries π.classOf V
    let spare := backups π.classOf V
    let r := memWalk P n mode σ
    memWalkOps P mode = some (π.callback, π.tier) ∧
      r.1.mod.reply = (if n ≤ found.length then found.take n
        else found ++ spare.take (min (n - found.length) spare.length)).map Exam.info ∧
      (r.2 = 0 ∨ r.2 = -1) ∧ (r.2 = 0 ↔ r.1.mod.reply.length = n) := by
  obtain ⟨hreply, hcode, hfull, _⟩ := memWalk_spec hmode hn hfound
  refine ⟨(memWalkPolicy_ops hmode).1, hreply, hcode, ?_⟩
  rw [hfull, hreply, List.length_map]

/-- An accessed clean page and two cold ones, before the hand has moved. -/
def mixedPages : Sys :=
  (Sys.fresh [some [.of 4096 1 true false, .of 8192 2 false true, .of 12288 3 false false]]).after
    smallMachine [.of .bind 1 .dram]

theorem memWalk_selects_mixedPages :
    let r := memWalk smallMachine 3 .dram mixedPages.refreshed
    r.1.mod.reply = [⟨8192, 1⟩, ⟨12288, 1⟩, ⟨4096, 1⟩] ∧ (r.2 = 0 ↔ r.1.mod.reply.length = 3) :=
  have hsel := memWalk_selects (P := smallMachine) (π := memPolicy smallMachine) rfl
    (show 3 ≤ maxNFind by decide) (σ := mixedPages.refreshed) rfl
  ⟨by decide, hsel.2.2.2⟩

end

/-! ## The four modes -/

/-- The tier a plain mode takes pages from. -/
def sourceTier : FindMode → FindMode
  | .dram => .dram
  | _ => .nvram

/-- The nodes of the tier a mode takes pages from. -/
def sourceNodes (P : Platform) (mode : FindMode) : List Int :=
  if mode = .dram then P.dramNodes else P.nvramNodes

/-- What a page handed to `move_pages` is: the request's walk saw it, in the process with
this pid, on the source tier, and it goes to the opposite tier. -/
structure SoundMove (P : Platform) (mode : FindMode) (σ : Sys) (o : Outcome) (pid : Int)
    (addr : Nat) (node : Int) : Prop where
  page : ∃ t ∈ σ.refreshed.mod.tasks, σ.kernel.pidOf t = pid ∧
    (∃ mm, σ.mm t = some mm ∧ addr ∈ mm.ptes.map PageEntry.addr) ∧
    ∃ p c, Event.visit t addr p c ∈ o.sys.mod.trace ∧ p.present = true ∧ p.write = true ∧
      P.pfnToNid p.pfn ∈ sourceNodes P mode
  node : node ∈ nodeList P mode

section

variable {P : Platform} {σ : Sys} {req : Req} {mode : FindMode} {π : Policy P}

theorem memWalkPolicy_tier (hπ : memWalkPolicy P mode = some π) : π.tier.mode = sourceTier mode := by
  cases mode <;> simp only [memWalkPolicy, Option.some.injEq, reduceCtorEq] at hπ <;> subst hπ <;> rfl

/-- A candidate of a plain find is a page that the walk was called on. -/
theorem find_plain_visited (hπ : memWalkPolicy P mode = some π) (h : Registered σ)
    (hreq : IsFind req mode) (hn : 0 ≤ req.pidN.toInt) {y : AddrInfo}
    (hy : y ∈ plainPicks π (count maxNFind req) σ.refreshed) :
    ∃ t ∈ σ.refreshed.mod.tasks, y.pidRetval = σ.kernel.pidOf t ∧ ∃ p c,
      Event.visit t y.addr p c ∈ (processReq P (some req) σ).sys.mod.trace ∧
        offTier P (sourceTier mode) p = false := by
  by_cases hpos : 0 < σ.refreshed.mod.nPids
  · have hfind := processFind_plain (σ := σ.refreshed) hπ hreq.mode hpos
    rw [intMin_count hn] at hfind
    have hvisited := (memWalk_spec hπ (count_le maxNFind req) (σ := σ.refreshed)
      (Sys.refreshed_nFound σ)).2.2.2
    rw [plainPicks, if_pos hpos] at hy
    obtain ⟨x, hx, rfl⟩ := List.mem_map.mp hy
    obtain ⟨htask, hpid⟩ := visit_task π h.refreshed hpos (mem_select _ hx).1
    obtain ⟨c, hc⟩ := hvisited x hx
    obtain ⟨evs, htrace, _⟩ := processReq_trace (P := P) (some req) σ
    refine ⟨x.task, htask, hpid, x.pte, c, ?_, ?_⟩
    · rw [htrace, processReq_find hreq.op, hfind]
      exact List.mem_append_right _ hc
    · rw [← memWalkPolicy_tier hπ]
      exact π.verdict_onTier x.pte (mem_select _ hx).2
  · rw [plainPicks, if_neg hpos] at hy
    simp at hy

/-- The placement of a plain mode. -/
theorem findPlacement_plain (hπ : memWalkPolicy P mode = some π) (k : Nat) :
    findPlacement mode.code k = if k = 0 then .nothing else .migrate (sourceTier mode) k := by
  unfold findPlacement
  rw [FindMode.ofCode_code]
  split
  · rfl
  · cases mode <;> first | rfl | simp [memWalkPolicy] at hπ

theorem nodeList_source (P : Platform) (mode : FindMode) :
    nodeList P (sourceTier mode) = nodeList P mode := by
  cases mode <;> rfl

/-- **End to end.** Every page that a plain `send_find` hands to `move_pages` is a page
that the walk found on the source tier, in the process whose pid the call names; it goes
to the opposite tier, and its candidate is one of the first `n`. -/
theorem send_find_sound (hreach : (hyb P).Reachable σ) (hswitch : mode ≠ .switch)
    (hclear : mode ≠ .nvramClear) {n : Int32} (hn : 0 ≤ n.toInt) (stale : Arr AddrInfo)
    (host : Host) :
    let r := placementNlProcessMsg P (some (.of .find n mode)) σ
    ∃ msgs, r.2 = some msgs ∧ (sendReq (.whole msgs) stale).2 = true ∧
      ∃ placement, (sendFind mode.code (.whole msgs) stale).2 = some placement ∧
        ∀ call ∈ placement.moveCalls P host (sendFind mode.code (.whole msgs) stale).1,
          ∀ (j : Nat) (page : Nat × Int), call.pages[j]? = some page →
            ((call.first + j : Nat) : Int) < n.toInt ∧
              (sendFind mode.code (.whole msgs) stale).1 (call.first + j) = ⟨page.1, call.pid⟩ ∧
              SoundMove P mode σ r.1 call.pid page.1 page.2 := by
  have h := registered_invariant P σ hreach
  obtain ⟨π, hπ⟩ := (memWalkPolicy_cases P mode).resolve_right (not_or.mpr ⟨hswitch, hclear⟩)
  have hreq : IsFind (.of .find n mode) mode := isFind_of n mode
  obtain ⟨hreplied, fin, hfin, _, hreply⟩ := find_plain (σ := σ) hπ hreq hn
  have hpids := plainPicks_pid_pos (π := π) h.refreshed (n := count maxNFind (.of .find n mode))
  generalize hpicks : plainPicks π (count maxNFind (.of .find n mode)) σ.refreshed = picks
    at hreply hpids
  have hlen : picks.length ≤ count maxNFind (.of .find n mode) := by
    rw [← hpicks, plainPicks]
    split
    · rw [List.length_map, length_select]
      omega
    · exact Nat.zero_le _
  have hcount := count_le maxNFind (.of .find n mode)
  have hcountn : count maxNFind (.of .find n mode) ≤ n.toInt.toNat := Nat.min_le_right _ _
  -- the exchange
  have htrace : ∃ σ', processReq P (some (.of .find n mode)) σ = .replied σ' := hreplied
  obtain ⟨σ', hσ'⟩ := htrace
  have hout : σ'.mod.reply = picks ++ [fin] := by
    rw [← hreply, hσ']
    rfl
  have hfound : 0 < σ'.mod.nFound := by
    have := congrArg List.length hout
    rw [Mod.reply, Arr.length_slice, List.length_append, List.length_singleton] at this
    omega
  obtain ⟨msgs, hmsgs, hround⟩ := sendReq_reply hfound
  obtain ⟨hok, hslice⟩ := hround stale
  rw [hout] at hslice
  simp only [placementNlProcessMsg, hσ']
  refine ⟨msgs, hmsgs, hok, findPlacement mode.code picks.length, ?_, ?_⟩
  · unfold sendFind
    simp only
    rw [scan_eq hslice hpids (by rcases hfin with hf | hf <;> omega) (by omega), Option.map_some]
  · intro call hcall j page hpage
    show _ ∧ (sendReq (.whole msgs) stale).1 (call.first + j) = ⟨page.1, call.pid⟩ ∧ _
    rw [findPlacement_plain hπ] at hcall
    split at hcall
    · exact absurd hcall (by simp [Placement.moveCalls])
    · obtain ⟨hlt, hcand, hnode⟩ := doMigration_genuine P (sourceTier mode) hcall hpage
      have hmem : (⟨page.1, call.pid⟩ : AddrInfo) ∈ picks := by
        have hfirst := (slice_of_append hslice).1
        rw [← hfirst]
        exact Arr.mem_slice.mpr ⟨_, hlt, by rw [Nat.zero_add]; exact hcand⟩
      rw [← hpicks] at hmem
      obtain ⟨t, ht, hpid, p, c, hvisit, hoff⟩ := find_plain_visited hπ h hreq hn hmem
      have hshows := processReq_sees (some (.of .find n mode)) h t page.1 p c hvisit
      refine ⟨by omega, hcand, ⟨t, ht, hpid.symm, ?_, p, c, ?_, ?_⟩, nodeList_source P mode ▸ hnode⟩
      · obtain ⟨mm, hmm, e, he, heq⟩ := hshows
        exact ⟨mm, hmm, List.mem_map.mpr ⟨e, he, congrArg (fun e => e.addr) heq⟩⟩
      · rw [hσ'] at hvisit
        exact hvisit
      · simp only [offTier, Bool.or_eq_false_iff, Bool.not_eq_false'] at hoff
        refine ⟨hoff.1.1, hoff.1.2, ?_⟩
        cases mode <;> first
          | exact (contains_dram P _).mp hoff.2
          | exact (contains_nvram P _).mp hoff.2

end

/-! ## One page -/

/-- A bound process with one never accessed DRAM page. -/
def oneDramPage : Sys :=
  (Sys.fresh [some [.of 8192 7 false false]]).after smallMachine [.of .bind 1 .dram]

/-- A host with one free page on every node and no failing call. -/
def roomyHost : Host := ⟨fun _ => 1, fun _ => 0⟩

/-- The packet that reports the page. -/
def oneDramReply : NlMsg := ⟨48, 3, 0, [⟨8192, 1⟩, ⟨0, 0⟩]⟩

/-- The page goes to the node of NVRAM. -/
theorem send_find_sound_oneDramPage :
    (placementNlProcessMsg smallMachine (some (.of .find 1 .dram)) oneDramPage).2 =
        some [oneDramReply] ∧
      (sendFind FindMode.dram.code (.whole [oneDramReply]) fun _ => ⟨0, 0⟩).2 =
        some (.migrate .dram 1) ∧
      (Placement.migrate .dram 1).moveCalls smallMachine roomyHost
        (sendFind FindMode.dram.code (.whole [oneDramReply]) fun _ => ⟨0, 0⟩).1 =
          [⟨1, 0, [(8192, 2)]⟩] ∧
      SoundMove smallMachine .dram oneDramPage
        (placementNlProcessMsg smallMachine (some (.of .find 1 .dram)) oneDramPage).1 1 8192 2 := by
  obtain ⟨msgs, hmsgs, _, placement, hplacement, hcalls⟩ := send_find_sound (n := 1)
    (Sys.fresh_reachable _ _ _ : (hyb smallMachine).Reachable oneDramPage)
    (show FindMode.dram ≠ .switch by decide) (by decide) (by decide) (fun _ => ⟨0, 0⟩) roomyHost
  have hreply : (placementNlProcessMsg smallMachine (some (.of .find 1 .dram)) oneDramPage).2 =
      some [oneDramReply] := by decide +kernel
  obtain rfl := Option.some.inj (hmsgs.symm.trans hreply)
  have hmigrate : (sendFind FindMode.dram.code (.whole [oneDramReply]) fun _ => ⟨0, 0⟩).2 =
      some (.migrate .dram 1) := by decide +kernel
  obtain rfl := Option.some.inj (hplacement.symm.trans hmigrate)
  have hone : (Placement.migrate .dram 1).moveCalls smallMachine roomyHost
      (sendFind FindMode.dram.code (.whole [oneDramReply]) fun _ => ⟨0, 0⟩).1 =
        [⟨1, 0, [(8192, 2)]⟩] := by decide
  have hpage := hcalls ⟨1, 0, [(8192, 2)]⟩ (by rw [hone]; exact List.mem_singleton_self _) 0
    (8192, 2) rfl
  exact ⟨hreply, hmigrate, hone, hpage.2.2⟩

end Ambix.Hyb
