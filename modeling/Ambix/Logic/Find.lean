import Ambix.Logic.Invariant
import Ambix.Logic.SwitchWalk

/-!
# What a FIND request returns

For a non-negative count: the candidates of a plain mode, or the two sides of a
switch, followed by the return-code entry. The candidates are described by
selections from the visits of the refreshed registry; `Outcome.candidates` reads
them off the reply by the sign of the pid, as the controller does.
-/

namespace Ambix.Hyb

open Ambix.Lib Ambix.Lib.QuotaScan

/-- A FIND request in a mode. -/
structure IsFind (req : Req) (mode : FindMode) : Prop where
  op : OpCode.ofCode req.opCode = some .find
  mode : FindMode.ofCode req.mode = some mode

theorem isFind_of (n : Int32) (mode : FindMode) : IsFind (.of .find n mode) mode :=
  ⟨OpCode.ofCode_code .find, FindMode.ofCode_code mode⟩

/-- A request's count, cut at the room there is. -/
def count (cap : Nat) (req : Req) : Nat := min cap req.pidN.toInt.toNat

theorem count_le (cap : Nat) (req : Req) : count cap req ≤ cap := Nat.min_le_left _ _

theorem intMin_count {cap : Nat} {req : Req} (h : 0 ≤ req.pidN.toInt) :
    intMin cap req.pidN.toInt = (count cap req : Int) := by
  rw [intMin_eq_min, count]
  omega

/-- The entries of a reply that name a process: all but separator and return code. -/
def candidatesOf (reply : List AddrInfo) : List AddrInfo :=
  reply.filter fun x => decide (0 < x.pidRetval)

def Outcome.candidates (o : Outcome) : List AddrInfo := candidatesOf o.reply

/-- Whether the module came back from the request. -/
def Outcome.Replied (o : Outcome) : Prop := ∃ σ, o = .replied σ

/-- The candidates of a plain mode, from a refreshed registry. -/
def plainPicks {P : Platform} (π : Policy P) (n : Nat) (σ : Sys) : List AddrInfo :=
  if 0 < σ.mod.nPids then (select π.classOf n (tierVisits π σ)).map Exam.info else []

/-- The sides of a switch, from a refreshed registry. -/
def switchPicks (P : Platform) (n : Nat) (σ : Sys) : List AddrInfo × List AddrInfo :=
  if 0 < σ.mod.nPids then switchSides P n σ else ([], [])

section

variable {P : Platform} {σ : Sys} {req : Req} {mode : FindMode}

/-- A visit is a page, possibly with the bits an earlier visit left. -/
theorem mem_tierVisits (π : Policy P) (h : Registered σ) (hpos : 0 < σ.mod.nPids) {x : Exam}
    (hx : x ∈ tierVisits π σ) :
    ∃ y ∈ σ.pages, x = y ∨ x = y.again π := by
  have hlast := h.lastPid_lt hpos π.tier
  rw [tierVisits_eq π h.distinct hlast, List.mem_append, List.mem_map] at hx
  rcases hx with hx | ⟨y, hy, rfl⟩
  · exact ⟨x, (Sys.mem_round hlast).mp hx, Or.inl rfl⟩
  · refine ⟨y, (Sys.mem_round hlast).mp ?_, Or.inr rfl⟩
    rw [Sys.round, Sys.ahead_eq]
    exact List.mem_append_left _ (List.mem_append_left _ hy)

/-- Every visited process is listed. -/
theorem visit_task (π : Policy P) (h : Registered σ) (hpos : 0 < σ.mod.nPids) {x : Exam}
    (hx : x ∈ tierVisits π σ) :
    x.task ∈ σ.mod.tasks ∧ x.pid = σ.kernel.pidOf x.task := by
  obtain ⟨y, hy, hxy⟩ := mem_tierVisits π h hpos hx
  obtain ⟨i, hi, mm, _, e, _, rfl⟩ := Sys.mem_pages.mp hy
  have hmem : σ.mod.taskItems i ∈ σ.mod.tasks := Mod.mem_tasks.mpr ⟨i, hi, rfl⟩
  rcases hxy with rfl | rfl
  · exact ⟨hmem, rfl⟩
  · exact ⟨hmem, rfl⟩

theorem select_pid_pos (π : Policy P) (h : Registered σ) (hpos : 0 < σ.mod.nPids) {n : Nat}
    {y : AddrInfo} (hy : y ∈ (select π.classOf n (tierVisits π σ)).map Exam.info) :
    0 < y.pidRetval := by
  obtain ⟨x, hx, rfl⟩ := List.mem_map.mp hy
  obtain ⟨htask, hpid⟩ := visit_task π h hpos (mem_select _ hx).1
  rw [Exam.info, hpid]
  exact (h.live _ htask).2

/-! ## The cases of `process_req` -/

theorem memWalkPolicy_cases (P : Platform) (mode : FindMode) :
    (∃ π, memWalkPolicy P mode = some π) ∨ mode = .switch ∨ mode = .nvramClear := by
  cases mode <;> simp [memWalkPolicy]

theorem processFind_empty (req : Req) (hpos : ¬ 0 < σ.mod.nPids) :
    processFind P req σ = (σ, -1, true) := by
  unfold processFind
  rw [if_neg hpos]

theorem processFind_default (hmode : FindMode.ofCode req.mode = none) :
    processFind P req σ = (σ, -1, true) := by
  unfold processFind
  rw [hmode, ite_self]

theorem processFind_plain {π : Policy P} (hπ : memWalkPolicy P mode = some π)
    (hmode : FindMode.ofCode req.mode = some mode) (hpos : 0 < σ.mod.nPids) :
    processFind P req σ = ((memWalk P (intMin maxNFind req.pidN.toInt) mode σ).1,
      (memWalk P (intMin maxNFind req.pidN.toInt) mode σ).2, true) := by
  unfold processFind
  rw [if_pos hpos, hmode]
  cases mode <;> first | rfl | simp [memWalkPolicy] at hπ

theorem processFind_switch (hmode : FindMode.ofCode req.mode = some .switch)
    (hpos : 0 < σ.mod.nPids) :
    processFind P req σ = ((switchWalk P (intMin maxNSwitch req.pidN.toInt) σ).1,
      (switchWalk P (intMin maxNSwitch req.pidN.toInt) σ).2, true) := by
  unfold processFind
  rw [if_pos hpos, hmode]

theorem processFind_clear (hmode : FindMode.ofCode req.mode = some .nvramClear)
    (hpos : 0 < σ.mod.nPids) :
    processFind P req σ = ((clearWalk P σ).1, -1, (clearWalk P σ).2) := by
  unfold processFind
  rw [if_pos hpos, hmode]

/-! ## Plain modes -/

theorem processReq_find (hop : OpCode.ofCode req.opCode = some .find) :
    processBody P (some req) σ = processFind P req σ.refreshed := by
  simp only [processBody, hop]
  rfl

/-- A request whose body comes back. -/
theorem processReq_reply (hback : (processBody P (some req) σ).2.2 = true) :
    (processReq P (some req) σ).Replied ∧
      ∃ fin, fin.pidRetval = (processBody P (some req) σ).2.1 ∧
        (processReq P (some req) σ).reply =
          (processBody P (some req) σ).1.mod.reply ++ [fin] := by
  unfold processReq
  simp only [hback, if_true]
  exact ⟨⟨_, rfl⟩, _, rfl, Mod.reply_pushRetval _ _⟩

/-- A request is replied to when its body comes back. -/
theorem replied_iff_back :
    (processReq P (some req) σ).Replied ↔ (processBody P (some req) σ).2.2 = true := by
  constructor
  · rintro ⟨σ', hσ'⟩
    unfold processReq at hσ'
    by_contra hc
    simp [hc] at hσ'
  · exact fun hb => (processReq_reply hb).1

theorem refreshed_reply : σ.refreshed.mod.reply = [] := by
  rw [Mod.reply, Sys.refreshed_nFound]
  rfl

/-- **A plain FIND**: the candidates and the return code, which is 0 exactly when
the walk had pages to walk and met the count. -/
theorem find_plain {π : Policy P} (hmode : memWalkPolicy P mode = some π)
    (hreq : IsFind req mode) (hn : 0 ≤ req.pidN.toInt) :
    (processReq P (some req) σ).Replied ∧
      ∃ fin, (fin.pidRetval = 0 ∨ fin.pidRetval = -1) ∧
        (fin.pidRetval = 0 ↔ 0 < σ.refreshed.mod.nPids ∧
          (plainPicks π (count maxNFind req) σ.refreshed).length = count maxNFind req) ∧
        (processReq P (some req) σ).reply =
          plainPicks π (count maxNFind req) σ.refreshed ++ [fin] := by
  have hbody := processReq_find (P := P) (σ := σ) hreq.op
  by_cases hpos : 0 < σ.refreshed.mod.nPids
  · have hfind := processFind_plain (σ := σ.refreshed) hmode hreq.mode hpos
    rw [intMin_count hn] at hfind
    obtain ⟨hreply, hcode, hfull, _⟩ := memWalk_spec hmode (count_le maxNFind req)
      (σ := σ.refreshed) (Sys.refreshed_nFound σ)
    obtain ⟨hback, fin, hfin, hout⟩ := processReq_reply (P := P)
      (show (processBody P (some req) σ).2.2 = true by rw [hbody, hfind])
    rw [hbody, hfind] at hfin hout
    refine ⟨hback, fin, hfin ▸ hcode, ?_, ?_⟩
    · rw [hfin, hfull, plainPicks, if_pos hpos, List.length_map]
      exact ⟨fun hl => ⟨hpos, hl⟩, fun hl => hl.2⟩
    · rw [hout, hreply, plainPicks, if_pos hpos]
  · have hfind := processFind_empty (P := P) req hpos
    obtain ⟨hback, fin, hfin, hout⟩ := processReq_reply (P := P)
      (show (processBody P (some req) σ).2.2 = true by rw [hbody, hfind])
    rw [hbody, hfind] at hfin hout
    refine ⟨hback, fin, Or.inr hfin, ?_, ?_⟩
    · rw [hfin]
      exact iff_of_false (by simp) fun hc => hpos hc.1
    · rw [hout, refreshed_reply, plainPicks, if_neg hpos]

theorem plainPicks_pid_pos {π : Policy P} (h : Registered σ) {n : Nat} :
    ∀ y ∈ plainPicks π n σ, 0 < y.pidRetval := by
  intro y hy
  unfold plainPicks at hy
  split at hy
  · exact select_pid_pos π h ‹_› hy
  · simp at hy

theorem candidatesOf_eq_self {xs : List AddrInfo} (h : ∀ y ∈ xs, 0 < y.pidRetval) :
    candidatesOf xs = xs :=
  List.filter_eq_self.mpr fun y hy => by simpa using h y hy

theorem candidatesOf_code {x : AddrInfo} (h : x.pidRetval = 0 ∨ x.pidRetval = -1) :
    candidatesOf [x] = [] := by
  rcases h with h | h <;> simp [candidatesOf, h]

theorem candidatesOf_append (xs ys : List AddrInfo) :
    candidatesOf (xs ++ ys) = candidatesOf xs ++ candidatesOf ys := List.filter_append ..

theorem find_plain_candidates {π : Policy P} (hmode : memWalkPolicy P mode = some π)
    (h : Registered σ) (hreq : IsFind req mode) (hn : 0 ≤ req.pidN.toInt) :
    (processReq P (some req) σ).candidates =
      plainPicks π (count maxNFind req) σ.refreshed := by
  obtain ⟨_, fin, hfin, _, hreply⟩ := find_plain hmode hreq hn
  rw [Outcome.candidates, hreply, candidatesOf_append, candidatesOf_code hfin, List.append_nil,
    candidatesOf_eq_self (plainPicks_pid_pos h.refreshed)]

/-! ## SWITCH -/

/-- **A SWITCH**: both sides around a separator, then the return code; with no
process bound, the return code alone. -/
theorem find_switch (h : Registered σ) (hreq : IsFind req .switch) (hn : 0 ≤ req.pidN.toInt) :
    (processReq P (some req) σ).Replied ∧
      ∃ fin, (fin.pidRetval = 0 ∨ fin.pidRetval = -1) ∧
        ((0 < σ.refreshed.mod.nPids ∧ ∃ sep : AddrInfo, sep.pidRetval = 0 ∧
            (processReq P (some req) σ).reply =
              (switchPicks P (count maxNSwitch req) σ.refreshed).1 ++
                sep :: ((switchPicks P (count maxNSwitch req) σ.refreshed).2 ++ [fin])) ∨
          (σ.refreshed.mod.nPids = 0 ∧ (processReq P (some req) σ).reply = [fin])) := by
  have hbody := processReq_find (P := P) (σ := σ) hreq.op
  by_cases hpos : 0 < σ.refreshed.mod.nPids
  · have hfind := processFind_switch (P := P) (σ := σ.refreshed) hreq.mode hpos
    rw [intMin_count hn] at hfind
    obtain ⟨⟨sep, hsep, hreply⟩, hcode⟩ := switchWalk_spec (P := P)
      (count_le maxNSwitch req) (σ := σ.refreshed) (Sys.refreshed_nFound σ)
      (h.refreshed.lastPid_lt hpos)
    obtain ⟨hback, fin, hfin, hout⟩ := processReq_reply (P := P)
      (show (processBody P (some req) σ).2.2 = true by rw [hbody, hfind])
    rw [hbody, hfind] at hfin hout
    refine ⟨hback, fin, hfin ▸ hcode, Or.inl ⟨hpos, sep, hsep, ?_⟩⟩
    rw [hout, hreply, switchPicks, if_pos hpos]
    simp
  · have hfind := processFind_empty (P := P) req hpos
    obtain ⟨hback, fin, hfin, hout⟩ := processReq_reply (P := P)
      (show (processBody P (some req) σ).2.2 = true by rw [hbody, hfind])
    rw [hbody, hfind] at hfin hout
    refine ⟨hback, fin, Or.inr hfin, Or.inr ⟨by omega, ?_⟩⟩
    rw [hout, refreshed_reply]
    rfl

theorem switchPicks_pid_pos (h : Registered σ) {n : Nat} :
    (∀ y ∈ (switchPicks P n σ).1, 0 < y.pidRetval) ∧
      ∀ y ∈ (switchPicks P n σ).2, 0 < y.pidRetval := by
  unfold switchPicks
  split
  · exact ⟨fun y hy => select_pid_pos _ h ‹_› hy, fun y hy => select_pid_pos _ h ‹_› hy⟩
  · simp

theorem switchPicks_length (n : Nat) (σ : Sys) :
    (switchPicks P n σ).1.length = (switchPicks P n σ).2.length := by
  unfold switchPicks
  split
  · rw [(switchSides_length n σ).1, (switchSides_length n σ).2]
  · rfl

theorem find_switch_candidates (h : Registered σ) (hreq : IsFind req .switch)
    (hn : 0 ≤ req.pidN.toInt) :
    (processReq P (some req) σ).candidates =
      (switchPicks P (count maxNSwitch req) σ.refreshed).1 ++
        (switchPicks P (count maxNSwitch req) σ.refreshed).2 := by
  obtain ⟨hN, hD⟩ := switchPicks_pid_pos (P := P) h.refreshed (n := count maxNSwitch req)
  obtain ⟨_, fin, hfin, ⟨_, sep, hsep, hreply⟩ | ⟨hzero, hreply⟩⟩ := find_switch (P := P) h hreq hn
  · rw [Outcome.candidates, hreply, ← List.singleton_append (x := sep)]
    simp only [candidatesOf_append, candidatesOf_code (Or.inl hsep), candidatesOf_code hfin,
      List.append_nil, List.nil_append, candidatesOf_eq_self hN, candidatesOf_eq_self hD]
  · rw [Outcome.candidates, hreply, candidatesOf_code hfin, switchPicks, if_neg (by omega)]
    rfl

end

end Ambix.Hyb
