import Ambix.Logic.Wire
import Ambix.Logic.Sight
import Ambix.Logic.Counts
import Ambix.Theorems.Ranges

/-!
# The largest reply and the two allocations

`sizeof(addr_info_t) * MAX_N_FIND` is one byte less than the packets it is meant to
hold: the macro has no parentheses. The fields that `process_req` writes fit. A reply
that uses its last entry is read, and copied by the receiver, one byte too far.
-/

namespace Ambix.Hyb

open Ambix.Lib Ambix.Lib.QuotaScan Ambix.Ctl

/-! ## Bytes -/

/-- `sizeof(addr_info_t) * MAX_N_FIND` as it is expanded, the size of `found_addrs` and of
`candidates`. -/
def allocBytes : Nat := sizeofAddrInfo * maxNPerPacket * maxPackets - 1

/-- The bytes of `found_addrs` that an action of `process_req` writes, from the first one
up to the end. A candidate is 12 bytes long and the code of the last entry 4; a separator
is counted as a candidate. -/
def Event.foundBytes : Event → Option (Nat × Nat)
  | .store .found i => some (i * sizeofAddrInfo, i * sizeofAddrInfo + 12)
  | .retval i => some (i * sizeofAddrInfo + 8, i * sizeofAddrInfo + 12)
  | .store (.spare _) _ | .visit .. | .commit .. => none

/-- The bytes that the `memcpy` calls of `placement_nl_process_msg` read. -/
def packetReads (nFound : Nat) : List (Nat × Nat) :=
  let start i := i * maxNPerPacket * sizeofAddrInfo
  let i := requiredPackets nFound - 1
  (List.range i).map (fun i => (start i, start i + maxPayload)) ++
    [(start i, start i + lastPacketEntries nFound * sizeofAddrInfo)]

/-- The bytes of `candidates` that `send_req` copies to. -/
def copyBytes : List NlMsg → Int → Nat → List (Nat × Nat)
  | [], _, _ => []
  | m :: ms, len, pos =>
    if nlmsgOk m len then
      if m.nlmsgType = nlmsgError then []
      else
        let payloadLen := m.nlmsgLen - nlmsgSpace 0
        (pos * sizeofAddrInfo, pos * sizeofAddrInfo + payloadLen) ::
          copyBytes ms (len - nlmsgAlign m.nlmsgLen) (pos + payloadLen / sizeofAddrInfo)
    else []

/-- No byte past an allocation. -/
def InAlloc (rs : List (Nat × Nat)) : Prop := ∀ r ∈ rs, r.2 ≤ allocBytes

/-- Every byte of a request is inside: the fields written, the packets read, and what the
receiver copies. -/
structure ReplyFits (P : Platform) (req : Req) (σ : Sys) : Prop where
  written : InAlloc ((processReq P (some req) σ).sys.mod.trace.filterMap Event.foundBytes)
  sent : ∀ σ', processReq P (some req) σ = .replied σ' →
    InAlloc (packetReads σ'.mod.nFound) ∧ requiredPackets σ'.mod.nFound ≤ maxPackets ∧
      ∃ msgs, replyMsgs σ'.mod = some msgs ∧ InAlloc (copyBytes msgs (Received.whole msgs).len 0)

/-- The last byte of some ranges. -/
structure EndsAt (rs : List (Nat × Nat)) (stop : Nat) : Prop where
  le : ∀ r ∈ rs, r.2 ≤ stop
  last : ∃ r ∈ rs, r.2 = stop

theorem EndsAt.inAlloc_iff {rs : List (Nat × Nat)} {stop : Nat} (h : EndsAt rs stop) :
    InAlloc rs ↔ stop ≤ allocBytes := by
  constructor
  · intro hin
    obtain ⟨r, hr, rfl⟩ := h.last
    exact hin r hr
  · intro hle r hr
    exact Nat.le_trans (h.le r hr) hle

/-- The packets are read up to the last entry. -/
theorem packetReads_endsAt {n : Nat} (h : 0 < n) :
    EndsAt (packetReads n) (n * sizeofAddrInfo) := by
  obtain ⟨k, hrequired, _, _, hn⟩ := packets_cut h
  have hlast : k * maxNPerPacket * sizeofAddrInfo + lastPacketEntries n * sizeofAddrInfo =
      n * sizeofAddrInfo := by
    rw [← Nat.add_mul, ← hn]
  have hpage : maxPayload = maxNPerPacket * sizeofAddrInfo := rfl
  unfold packetReads
  simp only [hrequired, Nat.add_sub_cancel, hlast]
  refine ⟨fun r hr => ?_, _, List.mem_append_right _ (List.mem_singleton_self _), rfl⟩
  rcases List.mem_append.mp hr with hr | hr
  · obtain ⟨i, hi, rfl⟩ := List.mem_map.mp hr
    have hi := List.mem_range.mp hi
    rw [hpage, ← Nat.add_mul, ← hlast, ← Nat.add_mul]
    apply Nat.mul_le_mul_right
    have hstep : (i + 1) * maxNPerPacket ≤ k * maxNPerPacket := Nat.mul_le_mul_right _ hi
    rw [Nat.succ_mul] at hstep
    omega
  · rw [List.mem_singleton.mp hr]

/-- The receiver copies up to the last entry. -/
theorem copyBytes_endsAt {ms : List NlMsg} (h : ∀ m ∈ ms, m.Sized) (hne : ms ≠ []) (pos : Nat) :
    EndsAt (copyBytes ms (Received.whole ms).len pos)
      ((pos + (ms.flatMap NlMsg.payload).length) * sizeofAddrInfo) := by
  induction ms generalizing pos with
  | nil => exact absurd rfl hne
  | cons m ms ih =>
    have hm := h m List.mem_cons_self
    have hrest := fun x hx => h x (List.mem_cons_of_mem _ hx)
    have hlen : (Received.whole (m :: ms)).len = (m.nlmsgLen : Int) + (Received.whole ms).len := by
      simp only [Received.whole, datagramLen, hm.align]
      omega
    have hnonneg : 0 ≤ (Received.whole ms).len := by
      simp only [Received.whole]
      omega
    have hbytes : m.nlmsgLen - nlmsgSpace 0 = m.payload.length * sizeofAddrInfo := by
      have hl := hm.len
      have hspace : nlmsgSpace 0 = nlmsgHdrlen := rfl
      unfold nlmsgLength at hl
      omega
    have hcopy : copyBytes (m :: ms) (Received.whole (m :: ms)).len pos =
        (pos * sizeofAddrInfo, (pos + m.payload.length) * sizeofAddrInfo) ::
          copyBytes ms (Received.whole ms).len (pos + m.payload.length) := by
      have hleft : (Received.whole (m :: ms)).len - (m.nlmsgLen : Int) =
          (Received.whole ms).len := by
        omega
      have hentries := Nat.mul_div_cancel m.payload.length (show 0 < sizeofAddrInfo by decide)
      rw [copyBytes, if_pos (hm.ok (by omega)), if_neg hm.type]
      simp only [hm.align, hbytes, hentries, hleft, Nat.add_mul]
    rw [hcopy, List.flatMap_cons, List.length_append, ← Nat.add_assoc]
    -- the last message ends where the entries do; the others end before
    cases ms with
    | nil =>
      refine ⟨fun r hr => ?_, _, List.mem_cons_self, by simp⟩
      rcases List.mem_cons.mp hr with rfl | hr
      · simp
      · exact absurd hr (by simp [copyBytes])
    | cons m' ms' =>
      have htail := ih hrest (by simp) (pos + m.payload.length)
      obtain ⟨r, hr, hstop⟩ := htail.last
      refine ⟨fun r hr => ?_, r, List.mem_cons_of_mem _ hr, hstop⟩
      rcases List.mem_cons.mp hr with rfl | hr
      · exact Nat.mul_le_mul_right _ (Nat.le_add_right _ _)
      · exact htail.le r hr

/-! ## How long a reply is -/

/-- The entries before the return code, for a request on the refreshed registry. -/
def entriesTaken (P : Platform) (req : Req) (σ : Sys) : Nat :=
  if OpCode.ofCode req.opCode = some .find ∧ 0 < σ.mod.nPids then
    match FindMode.ofCode req.mode with
    | none => 0
    | some mode =>
      match memWalkPolicy P mode with
      | some π => min (count maxNFind req) (σ.visitsPrimary π + σ.visitsEligible π)
      | none => if mode = .switch then 2 * switchCount P (count maxNSwitch req) σ + 1 else 0
  else 0

/-- The request takes as many pages as there can be: a plain find at the cap with that
many candidates, or a switch at the cap with that many pairs. -/
def FillsReply (P : Platform) (req : Req) (σ : Sys) : Prop :=
  OpCode.ofCode req.opCode = some .find ∧ 0 < σ.mod.nPids ∧
    ∃ mode, FindMode.ofCode req.mode = some mode ∧
      match memWalkPolicy P mode with
      | some π => (maxNFind : Int) ≤ req.pidN.toInt ∧
          maxNFind ≤ σ.visitsPrimary π + σ.visitsEligible π
      | none => mode = .switch ∧ (maxNSwitch : Int) ≤ req.pidN.toInt ∧
          ((maxNSwitch ≤ σ.visitsPrimary (nvramSwitchPolicy P) +
                σ.visitsEligible (nvramSwitchPolicy P) ∧
              maxNSwitch ≤ σ.visitsPrimary (memPolicy P)) ∨
            (maxNSwitch ≤ σ.visitsPrimary (nvramSwitchPolicy P) ∧
              maxNSwitch ≤ σ.visitsPrimary (memPolicy P) + σ.visitsEligible (memPolicy P)))

/-- When a switch with quota `n` makes `n` pairs. -/
theorem pairCount_eq_iff {n pN eN pD eD : Nat} (hn : 0 < n) :
    pairCount n pN eN pD eD = n ↔
      (n ≤ pN + eN ∧ n ≤ pD) ∨ (n ≤ pN ∧ n ≤ pD + eD) := by
  unfold pairCount
  simp only
  split
  · omega
  · split <;> omega

section

variable {P : Platform} {σ : Sys} {req : Req}

/-- The reply is full exactly when the request can fill it. -/
theorem entriesTaken_le (hn : 0 ≤ req.pidN.toInt) :
    entriesTaken P req σ ≤ maxNFind ∧ (entriesTaken P req σ = maxNFind ↔ FillsReply P req σ) := by
  have hmaxF := maxNFind_eq
  have hmaxS := maxNSwitch_eq
  unfold entriesTaken FillsReply
  by_cases hfind : OpCode.ofCode req.opCode = some .find ∧ 0 < σ.mod.nPids
  · rw [if_pos hfind]
    simp only [hfind.1, hfind.2, true_and]
    cases hmode : FindMode.ofCode req.mode with
    | none =>
      refine ⟨Nat.zero_le _, iff_of_false (fun hc : 0 = maxNFind => by omega) ?_⟩
      rintro ⟨mode, hc, _⟩
      simp at hc
    | some mode =>
      simp only [Option.some.injEq, exists_eq_left']
      cases hπ : memWalkPolicy P mode with
      | some π =>
        simp only [count]
        omega
      | none =>
        simp only
        by_cases hswitch : mode = .switch
        · have hpairs := @pairCount_eq_iff maxNSwitch (σ.visitsPrimary (nvramSwitchPolicy P))
            (σ.visitsEligible (nvramSwitchPolicy P)) (σ.visitsPrimary (memPolicy P))
            (σ.visitsEligible (memPolicy P)) (by rw [hmaxS]; decide)
          have hle := (pairCount_le (count maxNSwitch req) (σ.visitsPrimary (nvramSwitchPolicy P))
            (σ.visitsEligible (nvramSwitchPolicy P)) (σ.visitsPrimary (memPolicy P))
            (σ.visitsEligible (memPolicy P))).1
          have hcount := count_le maxNSwitch req
          rw [if_pos hswitch, ← hpairs, switchCount_eq]
          refine ⟨by omega, ?_⟩
          -- `2 * MAX_N_SWITCH + 1` is `MAX_N_FIND`: only a switch at the cap fills the reply
          by_cases hcap : (maxNSwitch : Int) ≤ req.pidN.toInt
          · have hat : count maxNSwitch req = maxNSwitch := by
              unfold count
              omega
            rw [hat]
            simp only [hswitch, hcap, true_and]
            omega
          · have hbelow : count maxNSwitch req < maxNSwitch := by
              unfold count
              omega
            simp only [hcap, false_and, and_false, iff_false]
            omega
        · rw [if_neg hswitch]
          simp only [hswitch, false_and, iff_false]
          omega
  · rw [if_neg hfind]
    refine ⟨Nat.zero_le _, iff_of_false (fun hc : 0 = maxNFind => by omega) ?_⟩
    rintro ⟨hop, hpos, _⟩
    exact hfind ⟨hop, hpos⟩

/-- What a request that comes back leaves. -/
theorem replied_eq {σ' : Sys} (h : processReq P (some req) σ = .replied σ') :
    σ'.mod.nFound = (processBody P (some req) σ).1.mod.nFound + 1 ∧
      σ'.mod.nFound = (processReq P (some req) σ).reply.length := by
  refine ⟨?_, by rw [h]; exact (Arr.length_slice _ _ _).symm⟩
  unfold processReq at h
  simp only at h
  split at h
  · rw [← Outcome.replied.inj h]
    rfl
  · simp at h

/-- **The entries of a body.** -/
theorem body_nFound (h : Registered σ) (hn : 0 ≤ req.pidN.toInt) :
    (processBody P (some req) σ).1.mod.nFound = entriesTaken P req σ.refreshed := by
  unfold entriesTaken
  by_cases hop : OpCode.ofCode req.opCode = some .find
  · by_cases hpos : 0 < σ.refreshed.mod.nPids
    · rw [if_pos ⟨hop, hpos⟩]
      cases hmode : FindMode.ofCode req.mode with
      | none =>
        rw [processReq_find hop, processFind_default hmode]
        exact Sys.refreshed_nFound σ
      | some mode =>
        simp only
        rcases memWalkPolicy_cases P mode with ⟨π, hπ⟩ | rfl | rfl
        · obtain ⟨⟨σ', hσ'⟩, fin, _, _, hreply⟩ := find_plain (σ := σ) hπ ⟨hop, hmode⟩ hn
          obtain ⟨hbody, hlen⟩ := replied_eq hσ'
          rw [hreply, plainPicks, if_pos hpos, List.length_append, List.length_map,
            length_select] at hlen
          rw [hπ]
          simp only [Sys.visitsPrimary, Sys.visitsEligible]
          simp only [List.length_singleton] at hlen
          omega
        · obtain ⟨⟨σ', hσ'⟩, fin, _, hreply⟩ := find_switch (P := P) h ⟨hop, hmode⟩ hn
          obtain ⟨hbody, hlen⟩ := replied_eq hσ'
          obtain ⟨_, sep, _, hreply⟩ := hreply.resolve_right fun hc => by omega
          have hsides := switchSides_length (P := P) (count maxNSwitch req) σ.refreshed
          rw [hreply, switchPicks, if_pos hpos, List.length_append, List.length_cons,
            List.length_append, hsides.1, hsides.2, List.length_singleton] at hlen
          simp only [memWalkPolicy, if_true]
          omega
        · rw [processReq_find hop, processFind_clear hmode hpos]
          exact (congrArg Counters.nFound (clearWalk_idle (Sys.refreshed_nFound σ)
            (Sys.refreshed_trace σ)).1).trans (Sys.refreshed_nFound σ)
    · rw [if_neg fun hc => hpos hc.2, processReq_find hop, processFind_empty req hpos]
      exact Sys.refreshed_nFound σ
  · rw [if_neg fun hc => hop hc.1]
    exact (otherBody_work fun r hr => by cases hr; exact hop).nFound

/-- Every field that is written is inside. -/
theorem written_inAlloc (h : Registered σ) (hn : 0 ≤ req.pidN.toInt) :
    InAlloc ((processReq P (some req) σ).sys.mod.trace.filterMap Event.foundBytes) := by
  have hmaxF := maxNFind_eq
  have hbytes : allocBytes = 2097151 := rfl
  have hsize : sizeofAddrInfo = 16 := rfl
  have hcode := (entriesTaken_le (P := P) (σ := σ.refreshed) hn).1
  rw [← body_nFound h hn] at hcode
  -- the body stores inside, and writes no code
  have hbody : ∀ ev ∈ (processBody P (some req) σ).1.mod.trace, ev.Stored := by
    by_cases hop : OpCode.ofCode req.opCode = some .find
    · rw [processReq_find hop]
      exact processFind_stored h.refreshed (Sys.refreshed_nFound σ) (Sys.refreshed_trace σ) hn
    · rw [otherBody_trace fun r hr => by cases hr; exact hop]
      simp
  have hnocode : ∀ ev ∈ (processBody P (some req) σ).1.mod.trace, ∀ i, ev ≠ .retval i :=
    processBody_traced (Q := fun ev => ∀ i, ev ≠ .retval i) ⟨by simp, by simp, by simp⟩ _ h
  have htrace : ∀ ev ∈ (processReq P (some req) σ).sys.mod.trace,
      ev = .retval (processBody P (some req) σ).1.mod.nFound ∨
        ev ∈ (processBody P (some req) σ).1.mod.trace := by
    intro ev hev
    unfold processReq at hev
    simp only at hev
    split at hev
    · exact List.mem_cons.mp hev
    · exact Or.inr hev
  intro r hr
  obtain ⟨ev, hev, hr⟩ := List.mem_filterMap.mp hr
  rcases htrace ev hev with rfl | hev
  · rw [← Option.some.inj hr, hbytes, hsize]
    show _ * 16 + 12 ≤ 2097151
    omega
  · cases ev with
    | store buf i =>
      cases buf with
      | found =>
        have hi : i < maxNFind := hbody _ hev
        rw [← Option.some.inj hr, hbytes, hsize]
        show i * 16 + 12 ≤ 2097151
        omega
      | spare s => simp [Event.foundBytes] at hr
    | retval i => exact absurd rfl (hnocode _ hev i)
    | visit | commit => simp [Event.foundBytes] at hr

/-- **The replies that fit** are those that do not take their last entry. -/
theorem replyFits_iff (h : Registered σ) (hn : 0 ≤ req.pidN.toInt) :
    ReplyFits P req σ ↔ ¬ FillsReply P req σ.refreshed := by
  have hmaxF := maxNFind_eq
  have hbytes : allocBytes = 2097151 := rfl
  have hsize : sizeofAddrInfo = 16 := rfl
  obtain ⟨hle, hfull⟩ := entriesTaken_le (P := P) (σ := σ.refreshed) hn
  -- a reply is read and copied up to its last entry
  have hends : ∀ σ', processReq P (some req) σ = .replied σ' →
      0 < σ'.mod.nFound ∧ σ'.mod.nFound = entriesTaken P req σ.refreshed + 1 ∧
        EndsAt (packetReads σ'.mod.nFound) (σ'.mod.nFound * sizeofAddrInfo) ∧
        EndsAt (copyBytes (packets σ'.mod) (Received.whole (packets σ'.mod)).len 0)
          (σ'.mod.nFound * sizeofAddrInfo) := by
    intro σ' hσ'
    have hfound := (replied_eq hσ').1
    rw [body_nFound h hn] at hfound
    have hpos : 0 < σ'.mod.nFound := by omega
    have hcopy := copyBytes_endsAt (packets_sized σ'.mod) (by simp [packets]) 0
    rw [packets_payload hpos, Mod.reply, Arr.length_slice, Nat.zero_add] at hcopy
    exact ⟨hpos, hfound, packetReads_endsAt hpos, hcopy⟩
  rw [← hfull]
  constructor
  · intro hfits htaken
    have hop : FillsReply P req σ.refreshed := hfull.mp htaken
    obtain ⟨σ', hσ'⟩ : (processReq P (some req) σ).Replied := by
      obtain ⟨hop, _, mode, hmode, hfill⟩ := hop
      rcases memWalkPolicy_cases P mode with ⟨π, hπ⟩ | rfl | rfl
      · exact (find_plain (σ := σ) hπ ⟨hop, hmode⟩ hn).1
      · exact (find_switch (P := P) h ⟨hop, hmode⟩ hn).1
      · exact absurd hfill.1 (by decide)
    obtain ⟨_, hfound, hreads, _⟩ := hends σ' hσ'
    have hin := hreads.inAlloc_iff.mp (hfits.sent σ' hσ').1
    rw [hfound, htaken, hmaxF, hsize] at hin
    omega
  · intro htaken
    refine ⟨written_inAlloc h hn, fun σ' hσ' => ?_⟩
    obtain ⟨hpos, hfound, hreads, hcopy⟩ := hends σ' hσ'
    have hroom : σ'.mod.nFound * sizeofAddrInfo ≤ allocBytes := by
      rw [hbytes, hsize]
      omega
    refine ⟨hreads.inAlloc_iff.mpr hroom, ?_, packets σ'.mod, replyMsgs_eq hpos,
      hcopy.inAlloc_iff.mpr hroom⟩
    have hpackets : maxPackets = 512 := rfl
    unfold requiredPackets
    rw [maxNPerPacket_eq, hpackets]
    split <;> omega

/-- **The largest reply.** Every byte of a request and its reply is inside the two
allocations exactly when the request does not fill the reply to its last entry. -/
theorem reply_fits_iff (hreach : (hyb P).Reachable σ) (hn : 0 ≤ req.pidN.toInt) :
    ReplyFits P req σ ↔ ¬ FillsReply P req σ.refreshed :=
  replyFits_iff (registered_invariant P σ hreach) hn

/-- The second visit of the page at the hand only adds to the primaries. -/
theorem nPrimary_le_visits (π : Policy P) (h : Registered σ) (hpos : 0 < σ.mod.nPids) :
    σ.nPrimary π ≤ σ.visitsPrimary π := by
  rw [← Sys.length_primaries_round π h hpos, Sys.visitsPrimary,
    tierVisits_eq π h.distinct (h.lastPid_lt hpos π.tier), primaries_append, List.length_append]
  exact Nat.le_add_right _ _

end

/-! ## A full reply -/

/-- Never accessed DRAM pages, one after the other. -/
def coldPages (n : Nat) : List PageEntry :=
  (List.range n).map fun i => .of (4096 * (i + 1)) 7 false false

/-- All of them are primary. -/
theorem oneProcess_nPrimary {n : Nat} (hn : n ≤ 1000000) :
    (oneProcess (coldPages n)).refreshed.nPrimary (memPolicy smallMachine) = n := by
  have hpages : (oneProcess (coldPages n)).refreshed.pages =
      ((MmStruct.ofPtes (coldPages n)).ptes.filter (PageEntry.within 0 maxAddress)).map
        (PageEntry.exam 1 1) := by
    show List.flatMap _ [0] = _
    rw [List.flatMap_singleton]
    rfl
  have hptes : (MmStruct.ofPtes (coldPages n)).ptes = coldPages n :=
    MmStruct.ofPtes_range hn fun _ => rfl
  have hprimary : ∀ e ∈ coldPages n,
      (memPolicy smallMachine).classOf (PageEntry.exam 1 1 e) = .primary := by
    intro e he
    obtain ⟨i, _, rfl⟩ := List.mem_map.mp he
    rfl
  rw [Sys.nPrimary, hpages, MmStruct.filter_within, hptes, primaries, List.filter_eq_self.mpr,
    List.length_map, coldPages, List.length_map, List.length_range]
  intro x hx
  obtain ⟨e, he, rfl⟩ := List.mem_map.mp hx
  exact decide_eq_true (hprimary e he)

theorem largest_reply_overruns :
    (hyb smallMachine).Reachable (oneProcess (coldPages 131071)) ∧
      (0 : Int) ≤ (Req.of .find 131071 .dram).pidN.toInt ∧
      ¬ ReplyFits smallMachine (.of .find 131071 .dram) (oneProcess (coldPages 131071)) := by
  have hreach := oneProcess_reachable (coldPages 131071)
  have h := registered_invariant _ _ hreach
  have hn : (0 : Int) ≤ (Req.of .find 131071 .dram).pidN.toInt := by decide
  refine ⟨hreach, hn, fun hfits => (replyFits_iff h hn).mp hfits ?_⟩
  have hpos : 0 < (oneProcess (coldPages 131071)).refreshed.mod.nPids := Nat.one_pos
  have hmany := nPrimary_le_visits (memPolicy smallMachine) h.refreshed hpos
  rw [oneProcess_nPrimary (by decide)] at hmany
  exact ⟨rfl, hpos, .dram, rfl, by decide, Nat.le_add_right_of_le hmany⟩

theorem reply_fits_iff_coldPages :
    ReplyFits smallMachine (.of .find 131070 .dram) (oneProcess (coldPages 3)) ↔
      ¬ FillsReply smallMachine (.of .find 131070 .dram) (oneProcess (coldPages 3)).refreshed :=
  reply_fits_iff (Sys.fresh_reachable _ _ _) (by decide)

end Ambix.Hyb
