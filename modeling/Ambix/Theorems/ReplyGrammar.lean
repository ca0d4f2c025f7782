import Ambix.Hyb.Machine
import Ambix.Logic.Commits
import Ambix.Logic.Wire
import Ambix.Logic.Reading

/-!
# The grammar of a reply

A reply has no length field: the controller finds the end of the candidates by the
sign of the pid. Every request that the module comes back from has a reply of the form
this needs. It does not come back from an `NVRAM_CLEAR` with a listed process whose
`mm` is `NULL`.
-/

namespace Ambix.Hyb

open Ambix.Lib Ambix.Lib.QuotaScan Ambix.Ctl

/-- A separator or return code. -/
def IsCode (x : AddrInfo) : Prop := x.pidRetval = 0 ∨ x.pidRetval = -1

/-- The forms of a reply. -/
inductive ReplyForm
  | code
  | plain
  | switch
deriving DecidableEq, Repr

/-- The form of the reply to a request, on the refreshed registry. -/
def replyForm (req : Req) (σ : Sys) : ReplyForm :=
  match OpCode.ofCode req.opCode with
  | some .find =>
    if 0 < σ.mod.nPids then
      match FindMode.ofCode req.mode with
      | none | some .nvramClear => .code
      | some .switch => .switch
      | some _ => .plain
    else .code
  | _ => .code

/-- The reply `xs` has the form, and `c`, an array it was received in, is read so. The
sides of a switch are those that the two walks selected. -/
def ReadsAs (P : Platform) (req : Req) (σ : Sys) (xs : List AddrInfo) (c : Arr AddrInfo) : Prop :=
  match replyForm req σ with
  | .code => (∃ fin, IsCode fin ∧ xs = [fin]) ∧ scan c = some 0
  | .plain => ∃ ys fin, (∀ y ∈ ys, 0 < y.pidRetval) ∧ IsCode fin ∧ xs = ys ++ [fin] ∧
      scan c = some ys.length ∧ c.slice 0 ys.length = ys
  | .switch => ∃ N sep D fin, (N, D) = switchPicks P (count maxNSwitch req) σ ∧
      (∀ y ∈ N, 0 < y.pidRetval) ∧ (∀ y ∈ D, 0 < y.pidRetval) ∧ N.length = D.length ∧
      sep.pidRetval = 0 ∧ IsCode fin ∧ xs = N ++ sep :: (D ++ [fin]) ∧
      scan c = some N.length ∧ c.slice 0 N.length = N ∧ c.slice (N.length + 1) N.length = D

/-- An `NVRAM_CLEAR` comes to a process whose `mm` is `NULL`. -/
def ClearsMissing (req : Req) (σ : Sys) : Prop :=
  IsFind req .nvramClear ∧ ∃ t ∈ σ.mod.tasks, σ.mm t = none

section

variable {P : Platform} {σ : Sys} {req : Req}

theorem IsCode.le {x : AddrInfo} (h : IsCode x) : x.pidRetval ≤ 0 := by
  rcases h with h | h <;> omega

/-- The whole reply is read from an array that holds it. -/
theorem readsAs_code {fin : AddrInfo} (hfin : IsCode fin) {c : Arr AddrInfo}
    (hform : replyForm req σ = .code) (hc : c.slice 0 1 = [fin]) : ReadsAs P req σ [fin] c := by
  unfold ReadsAs
  rw [hform]
  refine ⟨⟨fin, hfin, rfl⟩, ?_⟩
  exact scan_eq (show c.slice 0 1 = [] ++ fin :: [] from hc) (by simp) hfin.le (Nat.zero_le _)

theorem switchPicks_length_le (n : Nat) (σ : Sys) : (switchPicks P n σ).1.length ≤ n := by
  unfold switchPicks
  split
  · rw [(switchSides_length n σ).1]
    unfold switchCount pairCount
    simp only
    split
    · omega
    · split <;> omega
  · exact Nat.zero_le _

theorem readsAs_switch (h : Registered σ) {sep fin : AddrInfo} (hsep : sep.pidRetval = 0)
    (hfin : IsCode fin) (hform : replyForm req σ = .switch) {c : Arr AddrInfo} {n : Nat}
    (hc : c.slice 0 n = (switchPicks P (count maxNSwitch req) σ).1 ++
      sep :: ((switchPicks P (count maxNSwitch req) σ).2 ++ [fin])) :
    ReadsAs P req σ ((switchPicks P (count maxNSwitch req) σ).1 ++
      sep :: ((switchPicks P (count maxNSwitch req) σ).2 ++ [fin])) c := by
  obtain ⟨hN, hD⟩ := switchPicks_pid_pos (P := P) h (n := count maxNSwitch req)
  have hlen := switchPicks_length (P := P) (count maxNSwitch req) σ
  have hle := switchPicks_length_le (P := P) (count maxNSwitch req) σ
  have hcount := count_le maxNSwitch req
  have hmaxS := maxNSwitch_eq
  have hmaxF := maxNFind_eq
  have hscan := scan_eq hc hN (by omega) (by omega)
  unfold ReadsAs
  rw [hform]
  generalize switchPicks P (count maxNSwitch req) σ = sides at *
  have hslices := slice_of_append hc
  refine ⟨sides.1, sep, sides.2, fin, rfl, hN, hD, hlen, hsep, hfin, rfl, hscan, hslices.1, ?_⟩
  -- the second section starts after the separator
  have hrest := hslices.2
  rw [List.length_cons, Arr.slice_cons] at hrest
  have htail := (List.cons.inj hrest).2
  rw [List.length_append, Arr.slice_add] at htail
  have hsecond := (List.append_inj htail (Arr.length_slice _ _ _)).1
  rwa [← hlen] at hsecond

theorem bindPid_code (k : Kernel) (pid : Int) (m : Mod) :
    (bindPid k pid m).2 = 0 ∨ (bindPid k pid m).2 = -1 := by
  unfold bindPid
  split
  · exact Or.inr rfl
  · simp only
    split
    · exact Or.inr rfl
    · exact Or.inl rfl

theorem unbindPid_code (k : Kernel) (pid : Int) (m : Mod) :
    (unbindPid k pid m).2 = 0 ∨ (unbindPid k pid m).2 = -1 := by
  unfold unbindPid
  split
  · exact Or.inr rfl
  · split
    · exact Or.inr rfl
    · exact Or.inl rfl

/-- A request whose body takes nothing replies with its return code alone. -/
theorem code_reply (hback : (processBody P (some req) σ).2.2 = true)
    (hcode : (processBody P (some req) σ).2.1 = 0 ∨ (processBody P (some req) σ).2.1 = -1)
    (hfound : (processBody P (some req) σ).1.mod.nFound = 0) :
    (processReq P (some req) σ).Replied ∧
      ∃ fin, IsCode fin ∧ (processReq P (some req) σ).reply = [fin] := by
  obtain ⟨hreplied, fin, hfin, hreply⟩ := processReq_reply (P := P) (σ := σ) hback
  refine ⟨hreplied, fin, ?_, ?_⟩
  · unfold IsCode
    rw [hfin]
    exact hcode
  · rw [hreply, Mod.reply, hfound]
    rfl

/-- A request that comes back is received with its reply at the start of the array. -/
theorem received_reply {o : Outcome} (h : o.Replied) (hpos : o.reply ≠ []) :
    ∃ σ', o = .replied σ' ∧ σ'.mod.reply = o.reply ∧
      ∃ msgs, replyMsgs σ'.mod = some msgs ∧
        ∀ stale, (sendReq (.whole msgs) stale).1.slice 0 o.reply.length = o.reply := by
  obtain ⟨σ', rfl⟩ := h
  have hlen : σ'.mod.reply.length = σ'.mod.nFound := Arr.length_slice _ _ _
  have hfound : 0 < σ'.mod.nFound := hlen ▸ List.length_pos_iff.mpr hpos
  obtain ⟨msgs, hmsgs, hround⟩ := sendReq_reply hfound
  refine ⟨σ', rfl, rfl, msgs, hmsgs, fun stale => ?_⟩
  show _ = σ'.mod.reply
  rw [← (hround stale).2]
  show Arr.slice _ 0 σ'.mod.reply.length = _
  rw [hlen]

/-- A replied request and how it is read. -/
def WellReplied (P : Platform) (req : Req) (σ : Sys) : Prop :=
  ∃ σ', processReq P (some req) σ = .replied σ' ∧
    ∃ msgs, replyMsgs σ'.mod = some msgs ∧
      ∀ stale, ReadsAs P req σ.refreshed σ'.mod.reply (sendReq (.whole msgs) stale).1

theorem wellReplied_of {xs : List AddrInfo} (h : (processReq P (some req) σ).Replied)
    (hxs : (processReq P (some req) σ).reply = xs) (hne : xs ≠ [])
    (hreads : ∀ c : Arr AddrInfo, c.slice 0 xs.length = xs → ReadsAs P req σ.refreshed xs c) :
    WellReplied P req σ := by
  obtain ⟨σ', heq, hreply, msgs, hmsgs, hround⟩ := received_reply h (hxs ▸ hne)
  refine ⟨σ', heq, msgs, hmsgs, fun stale => ?_⟩
  rw [hreply, hxs]
  exact hreads _ (hxs ▸ hround stale)

theorem wellReplied_code (hform : replyForm req σ.refreshed = .code)
    (hback : (processBody P (some req) σ).2.2 = true)
    (hcode : (processBody P (some req) σ).2.1 = 0 ∨ (processBody P (some req) σ).2.1 = -1)
    (hfound : (processBody P (some req) σ).1.mod.nFound = 0) : WellReplied P req σ := by
  obtain ⟨hreplied, fin, hfin, hreply⟩ := code_reply hback hcode hfound
  exact wellReplied_of hreplied hreply (by simp) fun c hc => readsAs_code hfin hform hc

/-- BIND, UNBIND and unknown operations. -/
theorem wellReplied_other (hop : OpCode.ofCode req.opCode ≠ some .find) : WellReplied P req σ := by
  have hform : replyForm req σ.refreshed = .code := by
    unfold replyForm
    split
    · rename_i hc
      exact absurd hc hop
    · rfl
  have hwork : ∀ m, SameWork { σ.mod with nFound := 0, trace := [] } m → m.nFound = 0 :=
    fun m hm => hm.nFound
  cases hcase : OpCode.ofCode req.opCode with
  | none =>
    refine wellReplied_code hform ?_ (Or.inr ?_) ?_ <;> simp only [processBody, hcase]
  | some op =>
    cases op with
    | find => exact absurd hcase hop
    | bind =>
      refine wellReplied_code hform ?_ ?_ ?_ <;> simp only [processBody, hcase]
      · exact bindPid_code _ _ _
      · exact hwork _ ((refreshPids_work _ _).trans (bindPid_work _ _ _))
    | unbind =>
      refine wellReplied_code hform ?_ ?_ ?_ <;> simp only [processBody, hcase]
      · exact unbindPid_code _ _ _
      · exact hwork _ ((unbindPid_work _ _ _).trans (refreshPids_work _ _))

/-- A FIND that has nothing to walk. -/
theorem wellReplied_still (hop : OpCode.ofCode req.opCode = some .find)
    (hform : replyForm req σ.refreshed = .code)
    (hstill : processFind P req σ.refreshed = (σ.refreshed, -1, true)) : WellReplied P req σ := by
  have hbody := processReq_find (P := P) (σ := σ) hop
  rw [hstill] at hbody
  exact wellReplied_code hform (by rw [hbody]) (Or.inr (by rw [hbody]))
    (by rw [hbody]; exact Sys.refreshed_nFound σ)

theorem wellReplied_plain {mode : FindMode} {π : Policy P} (h : Registered σ)
    (hπ : memWalkPolicy P mode = some π) (hreq : IsFind req mode) (hn : 0 ≤ req.pidN.toInt)
    (hpos : 0 < σ.refreshed.mod.nPids) : WellReplied P req σ := by
  obtain ⟨hreplied, fin, hfin, _, hreply⟩ := find_plain (σ := σ) hπ hreq hn
  have hform : replyForm req σ.refreshed = .plain := by
    unfold replyForm
    rw [hreq.op, hreq.mode]
    simp only [if_pos hpos]
    cases mode <;> first | rfl | simp [memWalkPolicy] at hπ
  have hpids := plainPicks_pid_pos (π := π) h.refreshed (n := count maxNFind req)
  have hlen : (plainPicks π (count maxNFind req) σ.refreshed).length ≤ maxNFind := by
    rw [plainPicks, if_pos hpos, List.length_map, length_select, count]
    omega
  refine wellReplied_of hreplied hreply (by simp) fun c hc => ?_
  unfold ReadsAs
  rw [hform]
  exact ⟨_, fin, hpids, hfin, rfl, scan_eq hc hpids (IsCode.le hfin) hlen,
    (slice_of_append hc).1⟩

theorem wellReplied_switch (h : Registered σ) (hreq : IsFind req .switch)
    (hn : 0 ≤ req.pidN.toInt) (hpos : 0 < σ.refreshed.mod.nPids) : WellReplied P req σ := by
  obtain ⟨hreplied, fin, hfin, hreply⟩ := find_switch (P := P) h hreq hn
  have hform : replyForm req σ.refreshed = .switch := by
    unfold replyForm
    rw [hreq.op, hreq.mode]
    simp only [if_pos hpos]
  obtain ⟨_, sep, hsep, hreply⟩ := hreply.resolve_right fun hc => by omega
  exact wellReplied_of hreplied hreply (by simp) fun c hc =>
    readsAs_switch h.refreshed hsep hfin hform hc

/-- An `NVRAM_CLEAR` comes back exactly when every listed process has its `mm`. -/
theorem clear_replied_iff (hreq : IsFind req .nvramClear) (hpos : 0 < σ.refreshed.mod.nPids) :
    (processReq P (some req) σ).Replied ↔ ∀ t ∈ σ.refreshed.mod.tasks, σ.mm t ≠ none := by
  have hback : (processBody P (some req) σ).2.2 = true ↔
      ∀ t ∈ σ.refreshed.mod.tasks, σ.mm t ≠ none := by
    rw [processReq_find hreq.op, processFind_clear hreq.mode hpos]
    show (clearTasks P (List.range σ.refreshed.mod.nPids) σ.refreshed).2 = true ↔ _
    rw [clearTasks_back]
    simp only [Mod.mem_tasks, List.mem_range, Sys.refreshed_mm, Option.isSome_iff_ne_none]
    constructor
    · rintro hall t ⟨i, hi, rfl⟩
      exact hall i hi
    · intro hall i hi
      exact hall _ ⟨i, hi, rfl⟩
  exact replied_iff_back.trans hback

/-- Then its reply is the code. -/
theorem wellReplied_clear_iff (hreq : IsFind req .nvramClear) (hpos : 0 < σ.refreshed.mod.nPids) :
    WellReplied P req σ ↔ ¬ ClearsMissing req σ.refreshed := by
  have hreplied := clear_replied_iff (P := P) (σ := σ) hreq hpos
  constructor
  · rintro ⟨σ', hσ', _⟩ ⟨_, t, ht, hmm⟩
    exact hreplied.mp ⟨σ', hσ'⟩ t ht hmm
  · intro hall
    have hback := replied_iff_back.mp (hreplied.mpr fun t ht hmm => hall ⟨hreq, t, ht, hmm⟩)
    have hform : replyForm req σ.refreshed = .code := by
      unfold replyForm
      rw [hreq.op, hreq.mode]
      simp only [ite_self]
    refine wellReplied_code hform hback (Or.inr ?_) ?_
    · rw [processReq_find hreq.op, processFind_clear hreq.mode hpos]
    · rw [processReq_find hreq.op, processFind_clear hreq.mode hpos]
      exact (congrArg Counters.nFound (clearWalk_idle (Sys.refreshed_nFound σ)
        (Sys.refreshed_trace σ)).1).trans (Sys.refreshed_nFound σ)

/-- **The grammar of replies.** A request is replied to, in its form and read as it was
written, exactly when it is no `NVRAM_CLEAR` of a process without an address space. -/
theorem reply_grammar_iff (hreach : (hyb P).Reachable σ) (hn : 0 ≤ req.pidN.toInt) :
    WellReplied P req σ ↔ ¬ ClearsMissing req σ.refreshed := by
  have h := registered_invariant P σ hreach
  by_cases hop : OpCode.ofCode req.opCode = some .find
  · by_cases hpos : 0 < σ.refreshed.mod.nPids
    · cases hmode : FindMode.ofCode req.mode with
      | none =>
        refine iff_of_true (wellReplied_still hop ?_ (processFind_default hmode)) ?_
        · unfold replyForm
          rw [hop, hmode]
          simp
        · rintro ⟨hc, _⟩
          exact absurd (hmode.symm.trans hc.mode) (by simp)
      | some mode =>
        have hother : mode ≠ .nvramClear → ¬ ClearsMissing req σ.refreshed := by
          rintro hne ⟨hc, _⟩
          exact hne (Option.some.inj (hmode.symm.trans hc.mode))
        rcases memWalkPolicy_cases P mode with ⟨π, hπ⟩ | rfl | rfl
        · refine iff_of_true (wellReplied_plain h hπ ⟨hop, hmode⟩ hn hpos) (hother ?_)
          rintro rfl
          simp [memWalkPolicy] at hπ
        · exact iff_of_true (wellReplied_switch h ⟨hop, hmode⟩ hn hpos) (hother (by simp))
        · exact wellReplied_clear_iff ⟨hop, hmode⟩ hpos
    · refine iff_of_true (wellReplied_still hop ?_ (processFind_empty req hpos)) ?_
      · unfold replyForm
        rw [hop]
        simp only [if_neg hpos]
      · rintro ⟨_, t, ht, _⟩
        refine hpos ?_
        rw [← Mod.length_tasks]
        exact List.length_pos_of_mem ht
  · refine iff_of_true (wellReplied_other hop) ?_
    rintro ⟨hc, _⟩
    exact hop hc.op

end

/-! ## No reply to a clear

A bound process has exited and is not reaped: its number is still allocated, so it
stays listed, and its `mm` is `NULL`. -/

/-- One process is bound, and has exited. -/
def exitedProcess : Sys := (Sys.fresh [none]).after smallMachine [.of .bind 1 .dram]

theorem clear_not_replied :
    (hyb smallMachine).Reachable exitedProcess ∧
      exitedProcess.refreshed.mod.tasks = [1] ∧
      (0 : Int) ≤ (Req.of .find 0 .nvramClear).pidN.toInt ∧
      ¬ (processReq smallMachine (some (.of .find 0 .nvramClear)) exitedProcess).Replied := by
  refine ⟨Sys.fresh_reachable _ _ _, by decide, by decide, ?_⟩
  rw [clear_replied_iff ⟨rfl, rfl⟩ (by decide)]
  exact fun hall => hall 1 (by decide) rfl

/-- A bound process with a written NVRAM page and a DRAM page that it does not use. -/
def onePair : Sys :=
  (Sys.fresh [some [.of 4096 7 false false, .of 8192 1007 true true]]).after smallMachine
    [.of .bind 1 .dram]

/-- The `SWITCH` of the pair reads as two sections of one page, the clear of the process that
has exited is not replied to. -/
theorem reply_grammar_iff_onePair :
    (processReq smallMachine (some (.of .find 3 .switch)) onePair).reply =
        [⟨8192, 1⟩, ⟨0, 0⟩, ⟨4096, 1⟩, ⟨0, 0⟩] ∧
      WellReplied smallMachine (.of .find 3 .switch) onePair ∧
      ¬ WellReplied smallMachine (.of .find 0 .nvramClear) exitedProcess := by
  refine ⟨by decide, ?_, ?_⟩
  · refine (reply_grammar_iff (Sys.fresh_reachable _ _ _) (by decide)).mpr ?_
    rintro ⟨hclear, -⟩
    exact absurd hclear.mode (by decide)
  · have hclear : ClearsMissing (.of .find 0 .nvramClear) exitedProcess.refreshed :=
      ⟨⟨rfl, rfl⟩, 1, by decide, rfl⟩
    intro hreplied
    exact (reply_grammar_iff (Sys.fresh_reachable _ _ _) (by decide)).mp hreplied hclear

end Ambix.Hyb
