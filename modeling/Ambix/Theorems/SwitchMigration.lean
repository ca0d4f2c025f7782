import Ambix.Hyb.Machine
import Ambix.Logic.Tables
import Ambix.Logic.Wire
import Ambix.Theorems.ReplyGrammar
import Ambix.Theorems.SwitchPairs

/-!
# From a page-table entry to `numa_move_pages`

A switch end to end. Both walks, the rearrangement of `found_addrs`, the packets, the scan
and the rounds of `do_switch` keep the two sections apart: no page is sent back to the tier
it is on.
-/

namespace Ambix.Ctl

open Ambix.Lib Ambix.Lib.QuotaScan Ambix.Hyb

/-- The mode of the walk that finds the pages of a side. -/
def Side.mode : Side → FindMode
  | .toNvram => .dram
  | .toDram => .nvram

/-- The nodes that the pages of a side come from. -/
def Side.sources (P : Platform) : Side → List Int
  | .toNvram => P.dramNodes
  | .toDram => P.nvramNodes

/-- When the request came, a process with this number was bound and had this page, present,
writable and on the tier that the side takes pages from. -/
def HadPage (P : Platform) (x : Side) (σ : Sys) (pid : Int) (addr : Nat) : Prop :=
  ∃ t ∈ σ.refreshed.mod.tasks, σ.kernel.pidOf t = pid ∧ ∃ mm, σ.mm t = some mm ∧
    ∃ e ∈ mm.ptes, e.addr = addr ∧ e.pte.present = true ∧ e.pte.write = true ∧
      P.pfnToNid e.pte.pfn ∈ x.sources P

/-- The pages of a side. -/
def Side.picks (x : Side) (picks : List AddrInfo × List AddrInfo) : List AddrInfo :=
  match x with
  | .toNvram => picks.2
  | .toDram => picks.1

/-- What `do_switch` makes of a reply: a page of a call goes to a tier, has an address where
some bound process had a page on the other tier, and the call names a process with a page
there. -/
structure SoundSwap (P : Platform) (σ : Sys) (k : Nat) (c : Arr AddrInfo) (host : Host)
    (call : MoveCall) (position : Nat) (page : Nat × Int) (x : Side) : Prop where
  below : position < k
  goes : page.2 ∈ x.nodes P
  comes : ∃ pid, HadPage P x σ pid page.1
  names : ∃ addr, HadPage P x σ call.pid addr
  /-- The page is one of that process if it goes to DRAM, if the half starts over at no wrong
  entry, and in any case where the page has the address of its own entry. -/
  same : x = .toDram ∨ StartsOver P host.freeSpacePages k c ∨
      page.1 = (x.entries k c position).addr →
    x.entries k c position = ⟨page.1, call.pid⟩ ∧ HadPage P x σ call.pid page.1

section

variable {P : Platform} {σ : Sys} {host : Host} {k : Nat} {c : Arr AddrInfo}

/-- A page that a walk of a side took. -/
theorem hadPage_of_select {π : Policy P} (h : Registered σ) (hpos : 0 < σ.refreshed.mod.nPids)
    {x : Side} (htier : π.tier.mode = x.mode) {n : Nat} {y : AddrInfo}
    (hy : y ∈ (select π.classOf n (tierVisits π σ.refreshed)).map Exam.info) :
    HadPage P x σ y.pidRetval y.addr := by
  obtain ⟨e, he, rfl⟩ := List.mem_map.mp hy
  obtain ⟨hvisit, hclass⟩ := mem_select _ he
  obtain ⟨htask, hpid⟩ := visit_task π h.refreshed hpos hvisit
  obtain ⟨mm, hmm, e₀, he₀, hclean⟩ := tierVisits_shows h.refreshed hpos hvisit
  have hoff : offTier P x.mode e₀.pte = false := by
    rw [offTier_of_clean (congrArg PageEntry.pte hclean), ← htier]
    exact π.verdict_onTier e.pte hclass
  simp only [offTier, Bool.or_eq_false_iff, Bool.not_eq_false'] at hoff
  refine ⟨e.task, htask, hpid.symm, mm, hmm, e₀, he₀, congrArg PageEntry.addr hclean,
    hoff.1.1, hoff.1.2, ?_⟩
  cases x with
  | toNvram => exact (contains_dram P _).mp hoff.2
  | toDram => exact (contains_nvram P _).mp hoff.2

theorem switchPicks_had (h : Registered σ) (n : Nat) (x : Side) {y : AddrInfo}
    (hy : y ∈ x.picks (switchPicks P n σ.refreshed)) : HadPage P x σ y.pidRetval y.addr := by
  unfold switchPicks at hy
  split at hy
  · rename_i hpos
    cases x with
    | toNvram => exact hadPage_of_select h hpos rfl hy
    | toDram => exact hadPage_of_select h hpos rfl hy
  · cases x <;> simp [Side.picks] at hy

/-- The address of a slot is that of an entry of its side, and of its own one towards DRAM. -/
theorem SwitchState.Refines.slot {s : SwitchState} {l : Ledger} (h : s.Refines P host k c l)
    {x : Side} {p : Nat} (hp : p < (l.deal.side x).processed) :
    ∃ q, q ≤ p ∧ ((s.half x).slots p).1 = (x.entries k c q).addr ∧ (x = .toDram → q = p) := by
  obtain ⟨b, hb, hlo, hhi⟩ := (h.half x).cover p hp
  obtain ⟨haddr, -⟩ := (h.half x).slots b hb (p - b.1) (by omega)
  rw [Nat.add_sub_cancel' hlo] at haddr
  cases x with
  | toNvram => exact ⟨p - b.1, Nat.sub_le _ _, haddr, by simp⟩
  | toDram =>
    refine ⟨p, Nat.le_refl p, ?_, fun _ => rfl⟩
    rw [haddr]
    show (c (b.1 + (p - b.1))).addr = (c p).addr
    rw [Nat.add_sub_cancel' hlo]

/-- Every page of a call belongs to a side. -/
theorem SwitchState.Refines.side {s : SwitchState} {l : Ledger} (h : s.Refines P host k c l)
    {call : MoveCall} (hcall : call ∈ s.calls) {j : Nat} {page : Nat × Int}
    (hpage : call.pages[j]? = some page) : ∃ x : Side, page.2 ∈ x.nodes P := by
  obtain ⟨⟨x, sub⟩, -, his⟩ := forall₂_left h.calls hcall
  simp only at his
  have hle := his.le
  rw [his.pages] at hpage
  obtain ⟨hlt, hget⟩ := List.getElem?_eq_some_iff.mp hpage
  rw [Arr.length_slice] at hlt
  refine ⟨x, ?_⟩
  rw [← hget]
  simp only [Arr.slice, List.getElem_map, List.getElem_range]
  exact h.node (by omega)

/-- However many rounds it is given, `do_switch` ends in the same calls. -/
theorem doSwitch_calls {dramSlots nvramSlots : Arr (Nat × Int)} {rounds : Nat}
    {calls : List MoveCall} {ret : Int}
    (h : doSwitch P host k c dramSlots nvramSlots rounds = some (calls, ret)) :
    calls = (switchEnd P host k c dramSlots nvramSlots).calls := by
  rcases Nat.le_total (2 * k) rounds with hle | hle
  · rw [doSwitch_eq hle] at h
    exact (Prod.mk.inj (Option.some.inj h)).1.symm
  · -- the loop was over before
    obtain ⟨more, hmore⟩ := Nat.exists_eq_add_of_le hle
    unfold doSwitch at h
    simp only at h
    split at h
    · exact absurd h (by simp)
    · rename_i hstop
      rw [← (Prod.mk.inj (Option.some.inj h)).1]
      unfold switchEnd SwitchState.start
      rw [switchRounds_eq] at hstop ⊢
      rw [switchRounds_eq, hmore, repeatWhile_more hstop more]

/-- **The calls of `do_switch`**, on an array whose sections are pages of bound processes. -/
theorem doSwitch_sound (dramSlots nvramSlots : Arr (Nat × Int))
    (hhad : ∀ (x : Side) (p : Nat), p < k →
      HadPage P x σ (x.entries k c p).pidRetval (x.entries k c p).addr) :
    ∀ call ∈ (switchEnd P host k c dramSlots nvramSlots).calls, ∀ (j : Nat) (page : Nat × Int),
      call.pages[j]? = some page → ∃ x, SoundSwap P σ k c host call (call.first + j) page x := by
  intro call hcall j page hpage
  have hrefines := switchEnd_refines P host k c dramSlots nvramSlots
  have hdeal := ledger_deal P host k c
  have hbound := dealing_bounded P host.freeSpacePages k
  obtain ⟨x, hnode⟩ := hrefines.side hcall hpage
  obtain ⟨hlt, hslot, hpid⟩ := hrefines.page hcall hpage hnode
  have hk : call.first + j < k := by
    refine Nat.lt_of_lt_of_le hlt ?_
    rw [hdeal]
    cases x
    · exact hbound.dram
    · exact hbound.nvram
  obtain ⟨q, hq, haddr, hown⟩ := hrefines.slot hlt
  have haddr' : page.1 = (x.entries k c q).addr := by rw [hslot, haddr]
  refine ⟨x, hk, hnode, ⟨_, haddr' ▸ hhad x q (by omega)⟩, ⟨_, hpid ▸ hhad x _ hk⟩, fun hsame => ?_⟩
  have hself : page.1 = (x.entries k c (call.first + j)).addr := by
    rcases hsame with hdram | hover | hentry
    · rw [haddr', hown hdram]
    · have hall := hrefines.ownAddresses_iff.mpr (hdeal ▸ hover)
      rw [hslot, hall x _ hlt]
    · exact hentry
  have hentry : x.entries k c (call.first + j) = ⟨page.1, call.pid⟩ := by rw [hself, ← hpid]
  refine ⟨hentry, ?_⟩
  have hpage' := hhad x _ hk
  rwa [hentry] at hpage'

/-- The sections of a switch reply, in an array that holds it. -/
theorem switch_sections {N D : List AddrInfo} {sep fin : AddrInfo} {n : Nat}
    (hlen : N.length = D.length) (hc : c.slice 0 n = N ++ sep :: (D ++ [fin])) (x : Side) {p : Nat}
    (hp : p < N.length) : x.entries N.length c p ∈ x.picks (N, D) := by
  obtain ⟨hN, hrest⟩ := slice_of_append hc
  rw [List.length_cons, Arr.slice_cons] at hrest
  have hD := (List.cons.inj hrest).2
  rw [List.length_append, Arr.slice_add] at hD
  have hsecond := (List.append_inj hD (Arr.length_slice _ _ _)).1
  cases x with
  | toNvram =>
    show c (N.length + 1 + p) ∈ D
    rw [← hsecond]
    exact Arr.mem_slice.mpr ⟨p, hlen ▸ hp, rfl⟩
  | toDram =>
    show c p ∈ N
    rw [← hN]
    exact Arr.mem_slice.mpr ⟨p, hp, by rw [Nat.zero_add]⟩

/-- A switch reply, read from an array that holds it: the scan counts the pairs, and both
sections are pages of bound processes. -/
theorem switch_reply_had {req : Req} (h : Registered σ) (hreq : IsFind req .switch)
    (hn : 0 ≤ req.pidN.toInt)
    (hc : c.slice 0 (processReq P (some req) σ).reply.length = (processReq P (some req) σ).reply) :
    ∃ k : Nat, (k : Int) ≤ req.pidN.toInt ∧ scan c = some k ∧ ∀ (x : Side) (p : Nat), p < k →
      HadPage P x σ (x.entries k c p).pidRetval (x.entries k c p).addr := by
  obtain ⟨-, fin, hfin, ⟨-, sep, hsep, hreply⟩ | ⟨-, hreply⟩⟩ := find_switch (P := P) h hreq hn
  · -- two sections around the separator
    have hcount := count_le maxNSwitch req
    have hcountn : count maxNSwitch req ≤ req.pidN.toInt.toNat := Nat.min_le_right _ _
    have hle := switchPicks_length_le (P := P) (count maxNSwitch req) σ.refreshed
    have hlen := switchPicks_length (P := P) (count maxNSwitch req) σ.refreshed
    have hhad := switchPicks_had (P := P) h (count maxNSwitch req)
    obtain ⟨hN, -⟩ := switchPicks_pid_pos (P := P) h.refreshed (n := count maxNSwitch req)
    rw [hreply] at hc
    generalize switchPicks P (count maxNSwitch req) σ.refreshed = sides at *
    have hmaxS := maxNSwitch_eq
    have hmaxF := maxNFind_eq
    refine ⟨sides.1.length, by omega, scan_eq hc hN (by omega) (by omega), fun x p hp => ?_⟩
    exact hhad x (switch_sections hlen hc x hp)
  · -- the code alone
    rw [hreply] at hc
    refine ⟨0, hn, ?_, fun x p hp => absurd hp (Nat.not_lt_zero p)⟩
    exact scan_eq (show c.slice 0 1 = [] ++ fin :: [] from hc) (by simp)
      (by rcases hfin with hf | hf <;> omega) (Nat.zero_le _)

/-- What `send_find` does after a switch reply. -/
theorem switch_run_sound (dramSlots nvramSlots : Arr (Nat × Int))
    (hhad : ∀ (x : Side) (p : Nat), p < k →
      HadPage P x σ (x.entries k c p).pidRetval (x.entries k c p).addr)
    {rounds : Nat} {calls : List MoveCall} {ret : Int}
    (hrun : (findPlacement FindMode.switch.code k).run P host c dramSlots nvramSlots rounds =
      some (calls, ret)) :
    ∀ call ∈ calls, ∀ (j : Nat) (page : Nat × Int), call.pages[j]? = some page →
      ∃ x, SoundSwap P σ k c host call (call.first + j) page x := by
  unfold findPlacement at hrun
  split at hrun
  · obtain ⟨rfl, -⟩ := Prod.mk.inj (Option.some.inj hrun)
    exact fun call hcall => absurd hcall (by simp)
  · rw [FindMode.ofCode_code] at hrun
    rw [doSwitch_calls hrun]
    exact doSwitch_sound dramSlots nvramSlots hhad

/-- **A switch end to end.** Every page that a `send_find` hands to `numa_move_pages` goes to
one tier and has an address where a bound process had a page on the other, under the pid of
a bound process that had a page there too. It is the page of that process itself if it goes
to DRAM or has the address of its own entry, which it has if `do_switch` starts over at no
wrong entry. -/
theorem send_switch_sound (hreach : (Hyb.hyb P).Reachable σ) {n : Int32} (hn : 0 ≤ n.toInt)
    (stale : Arr AddrInfo) (host : Host) (dramSlots nvramSlots : Arr (Nat × Int)) :
    ∃ msgs, (placementNlProcessMsg P (some (.of .find n .switch)) σ).2 = some msgs ∧
      ∃ k : Nat, (k : Int) ≤ n.toInt ∧
        (sendFind FindMode.switch.code (.whole msgs) stale).2 =
          some (findPlacement FindMode.switch.code k) ∧
        ∀ rounds calls ret,
          (findPlacement FindMode.switch.code k).run P host (sendReq (.whole msgs) stale).1
            dramSlots nvramSlots rounds = some (calls, ret) →
          ∀ call ∈ calls, ∀ (j : Nat) (page : Nat × Int), call.pages[j]? = some page →
            ∃ x, SoundSwap P σ k (sendReq (.whole msgs) stale).1 host call (call.first + j)
              page x := by
  have h := registered_invariant P σ hreach
  have hreq : IsFind (.of .find n .switch) .switch := isFind_of n .switch
  obtain ⟨hreplied, fin, -, hreply⟩ := find_switch (P := P) h hreq hn
  have hne : (processReq P (some (.of .find n .switch)) σ).reply ≠ [] := by
    rcases hreply with ⟨-, sep, -, hreply⟩ | ⟨-, hreply⟩ <;> simp [hreply]
  obtain ⟨σ', hσ', -, msgs, hmsgs, hround⟩ := received_reply hreplied hne
  have hsent : (placementNlProcessMsg P (some (.of .find n .switch)) σ).2 = some msgs := by
    simp only [placementNlProcessMsg, hσ', hmsgs]
  obtain ⟨k, hk, hscan, hhad⟩ := switch_reply_had h hreq hn (hround stale)
  refine ⟨msgs, hsent, k, hk, ?_, fun rounds calls ret hrun => ?_⟩
  · unfold sendFind
    simp only [hscan, Option.map_some]
  · exact switch_run_sound dramSlots nvramSlots hhad hrun

end

/-! ## One pair -/

/-- The reply for one pair, in one packet. -/
def onePairReply : List NlMsg := [⟨80, 3, 0, [⟨8192, 1⟩, ⟨0, 0⟩, ⟨4096, 1⟩, ⟨0, 0⟩]⟩]

/-- The DRAM page goes to NVRAM and the NVRAM page to DRAM. -/
def onePairCalls : List MoveCall := [⟨1, 0, [(4096, 2)]⟩, ⟨1, 0, [(8192, 0)]⟩]

theorem onePairReply_scan : (sendFind FindMode.switch.code (.whole onePairReply) fun _ => ⟨0, 0⟩).2 =
    some (findPlacement FindMode.switch.code 1) := by decide +kernel

theorem onePairReply_run : (findPlacement FindMode.switch.code 1).run smallMachine onePageAtATime
    (sendReq (.whole onePairReply) fun _ => ⟨0, 0⟩).1 (fun _ => (0, 0)) (fun _ => (0, 0)) 2 =
      some (onePairCalls, 2) := by decide

/-- No other number of pairs is scanned. -/
theorem onePairReply_count {k : Nat} (hk : (k : Int) ≤ 1)
    (hscan : (sendFind FindMode.switch.code (.whole onePairReply) fun _ => ⟨0, 0⟩).2 =
      some (findPlacement FindMode.switch.code k)) : k = 1 := by
  have hsame := Option.some.inj (hscan.symm.trans onePairReply_scan)
  cases k with
  | zero => exact absurd hsame (by decide)
  | succ k => omega

theorem send_switch_sound_onePair :
    (placementNlProcessMsg smallMachine (some (.of .find 1 .switch)) onePair).2 =
        some onePairReply ∧
      (findPlacement FindMode.switch.code 1).run smallMachine onePageAtATime
        (sendReq (.whole onePairReply) fun _ => ⟨0, 0⟩).1 (fun _ => (0, 0)) (fun _ => (0, 0)) 2 =
          some (onePairCalls, 2) ∧
      ∀ call ∈ onePairCalls, ∀ (j : Nat) (page : Nat × Int), call.pages[j]? = some page →
        ∃ x, SoundSwap smallMachine onePair 1 (sendReq (.whole onePairReply) fun _ => ⟨0, 0⟩).1
          onePageAtATime call (call.first + j) page x := by
  obtain ⟨msgs, hmsgs, k, hk, hscan, hcalls⟩ := send_switch_sound (n := 1)
    (Sys.fresh_reachable _ _ _ : (Hyb.hyb smallMachine).Reachable onePair) (by decide)
    (fun _ => ⟨0, 0⟩) onePageAtATime (fun _ => (0, 0)) fun _ => (0, 0)
  have hreply : (placementNlProcessMsg smallMachine (some (.of .find 1 .switch)) onePair).2 =
      some onePairReply := by decide +kernel
  obtain rfl := Option.some.inj (hmsgs.symm.trans hreply)
  obtain rfl := onePairReply_count hk hscan
  exact ⟨hreply, onePairReply_run, hcalls 2 _ _ onePairReply_run⟩

end Ambix.Ctl
