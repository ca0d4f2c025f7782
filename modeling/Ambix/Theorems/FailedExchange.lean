import Ambix.Hyb.Machine
import Ambix.Logic.Reading
import Ambix.Logic.Submission

/-!
# A failed exchange

`send_req` reports a failure by its return value, and none of its callers look at it.
They go on with what is in the array: the entries that were copied before the failure, and
after them what an earlier reply or `malloc` left. A failure is without effect exactly when
that happens to be harmless.
-/

namespace Ambix.Ctl

open Ambix.Lib

/-- The exchange fails: `recvmsg` returns an error or nothing, or an `NLMSG_ERROR` is in
what it delivers. -/
def Received.Failed (r : Received) : Prop :=
  r.len ≤ 0 ∨ ∃ m ∈ r.msgs, m.nlmsgType = nlmsgError

/-- The messages that are received whole have the entries their length fields count. -/
def Received.Counted (r : Received) : Prop :=
  ∀ m ∈ r.msgs, nlmsgOk m r.len → m.nlmsgType ≠ nlmsgError →
    (m.nlmsgLen - nlmsgSpace 0) / sizeofAddrInfo ≤ m.payload.length

/-- The entries before the first message that is an error or not whole. -/
def entriesBefore : List NlMsg → Int → List AddrInfo
  | [], _ => []
  | m :: ms, len =>
    if nlmsgOk m len ∧ m.nlmsgType ≠ nlmsgError then
      m.payload.take ((m.nlmsgLen - nlmsgSpace 0) / sizeofAddrInfo) ++
        entriesBefore ms (len - nlmsgAlign m.nlmsgLen)
    else []

def Received.entries (r : Received) : List AddrInfo := entriesBefore r.msgs r.len

/-- The array that a caller goes on with: the entries received, and what it held. -/
def Received.onto (r : Received) (held : Arr AddrInfo) : Arr AddrInfo := held.write 0 r.entries

/-- `send_find` returns 0 and hands no page to the kernel. -/
def FindInert (P : Platform) (host : Host) (mode : Int32) (r : Received)
    (candidates : Arr AddrInfo) (dramSlots nvramSlots : Arr (Nat × Int)) : Prop :=
  ∃ placement, (sendFind mode r candidates).2 = some placement ∧
    ∃ rounds, placement.run P host (sendFind mode r candidates).1 dramSlots nvramSlots rounds =
      some ([], 0)

/-- The scan stops at once; or it does stop, and the mode places nothing or no node it
places pages on has a free one. -/
def HarmlessFind (P : Platform) (host : Host) (mode : Int32) (c : Arr AddrInfo) : Prop :=
  (c 0).pidRetval ≤ 0 ∨ (∃ i, i ≤ maxNFind ∧ (c i).pidRetval ≤ 0) ∧
    match FindMode.ofCode mode with
    | some .dram => NoRoom host P.nvramNodes.length
    | some .nvram | some .nvramIntensive | some .nvramWrite => NoRoom host P.dramNodes.length
    | some .switch => NoRoom host (P.nvramNodes.length + P.dramNodes.length)
    | some .nvramClear | none => True

theorem nlmsgOk.mono {m : NlMsg} {len len' : Int} (h : nlmsgOk m len) (hle : len ≤ len') :
    nlmsgOk m len' := by
  obtain ⟨h1, h2, h3⟩ := h
  exact ⟨by omega, h2, by omega⟩

/-- **What the loop leaves** in the array, however the exchange ends. -/
theorem copyMsgs_entries {ms : List NlMsg} {total len : Int} (hle : len ≤ total)
    (h : ∀ m ∈ ms, nlmsgOk m total → m.nlmsgType ≠ nlmsgError →
      (m.nlmsgLen - nlmsgSpace 0) / sizeofAddrInfo ≤ m.payload.length)
    (pos : Nat) (out : Arr AddrInfo) :
    (copyMsgs ms len pos out).1 = out.write pos (entriesBefore ms len) := by
  induction ms generalizing len pos out with
  | nil => rfl
  | cons m ms ih =>
    unfold copyMsgs entriesBefore
    by_cases hok : nlmsgOk m len
    · by_cases herror : m.nlmsgType = nlmsgError
      · rw [if_pos hok, if_pos herror, if_neg fun hc => hc.2 herror]
        rfl
      · have hlen := h m List.mem_cons_self (hok.mono hle) herror
        rw [if_pos hok, if_neg herror, if_pos ⟨hok, herror⟩]
        simp only
        rw [ih (by omega) fun x hx => h x (List.mem_cons_of_mem _ hx), Arr.write_append,
          List.length_take, Nat.min_eq_left hlen]
    · rw [if_neg hok, if_neg fun hc => hok hc.1]
      rfl

theorem sendReq_onto {r : Received} (h : r.Counted) (out : Arr AddrInfo) :
    (sendReq r out).1 = r.onto out :=
  copyMsgs_entries (Int.le_refl _) h 0 out

/-! ## The scan -/

theorem scanFrom_ge {c : Arr AddrInfo} {slots i k : Nat} (h : scanFrom c i slots = some k) :
    i ≤ k := by
  induction slots generalizing i with
  | zero => simp [scanFrom] at h
  | succ slots ih =>
    unfold scanFrom at h
    split at h
    · exact Nat.le_of_succ_le (ih h)
    · exact Nat.le_of_eq (Option.some.inj h)

theorem scanFrom_stops {c : Arr AddrInfo} {slots i : Nat} :
    (∃ k, scanFrom c i slots = some k) ↔ ∃ j, j < slots ∧ (c (i + j)).pidRetval ≤ 0 := by
  induction slots generalizing i with
  | zero => simp [scanFrom]
  | succ slots ih =>
    unfold scanFrom
    split
    · rename_i hpos
      rw [ih]
      constructor
      · rintro ⟨j, hj, hstop⟩
        exact ⟨j + 1, by omega, by rwa [Nat.add_comm j 1, ← Nat.add_assoc]⟩
      · rintro ⟨j, hj, hstop⟩
        cases j with
        | zero => exact absurd hpos (by rw [Nat.add_zero] at hstop; omega)
        | succ j => exact ⟨j, by omega, by rwa [Nat.add_comm j 1, ← Nat.add_assoc] at hstop⟩
    · rename_i hstop
      exact iff_of_true ⟨i, rfl⟩ ⟨0, by omega, by rw [Nat.add_zero]; omega⟩

/-- The scan counts nothing exactly when it stops at once. -/
theorem scan_eq_zero {c : Arr AddrInfo} : scan c = some 0 ↔ (c 0).pidRetval ≤ 0 := by
  unfold scan scanFrom
  split
  · rename_i hpos
    refine iff_of_false (fun h => ?_) (by omega)
    exact absurd (scanFrom_ge h) (by omega)
  · rename_i hstop
    exact iff_of_true rfl (by omega)

/-! ## The placement -/

section

variable {P : Platform} {host : Host} {mode : Int32}

/-- A placement of a positive count does nothing when there is no room for it, and only
then. -/
theorem findPlacement_inert {c : Arr AddrInfo} {k : Nat} (hk : 0 < k)
    (dramSlots nvramSlots : Arr (Nat × Int)) :
    (∃ rounds, (findPlacement mode k).run P host c dramSlots nvramSlots rounds = some ([], 0)) ↔
      match FindMode.ofCode mode with
      | some .dram => NoRoom host P.nvramNodes.length
      | some .nvram | some .nvramIntensive | some .nvramWrite => NoRoom host P.dramNodes.length
      | some .switch => NoRoom host (P.nvramNodes.length + P.dramNodes.length)
      | some .nvramClear | none => True := by
  have hplain : ∀ m, (∃ rounds, (Placement.migrate m k).run P host c dramSlots nvramSlots rounds =
      some ([], 0)) ↔ NoRoom host (nodeList P m).length := by
    intro m
    rw [← doMigration_eq_nil (c := c) P m hk]
    simp [Placement.run]
  unfold findPlacement
  rw [if_neg (by omega)]
  cases FindMode.ofCode mode with
  | none => exact iff_of_true ⟨0, rfl⟩ trivial
  | some mode =>
    cases mode with
    | dram => exact hplain .dram
    | nvram => exact hplain .nvram
    | nvramIntensive => exact hplain .nvram
    | nvramWrite => exact hplain .nvram
    | switch => exact doSwitch_eq_nil P hk dramSlots nvramSlots
    | nvramClear => exact iff_of_true ⟨0, rfl⟩ trivial

theorem findInert_iff {r : Received} (h : r.Counted) (candidates : Arr AddrInfo)
    (dramSlots nvramSlots : Arr (Nat × Int)) :
    FindInert P host mode r candidates dramSlots nvramSlots ↔
      HarmlessFind P host mode (r.onto candidates) := by
  have honto := sendReq_onto h candidates
  unfold FindInert HarmlessFind sendFind
  simp only [honto]
  generalize r.onto candidates = c
  have hstops := @scanFrom_stops c (maxNFind + 1) 0
  simp only [Nat.zero_add, Nat.lt_succ_iff] at hstops
  by_cases hzero : (c 0).pidRetval ≤ 0
  · refine iff_of_true ?_ (Or.inl hzero)
    rw [scan_eq_zero.mpr hzero]
    exact ⟨.nothing, rfl, 0, rfl⟩
  · rw [or_iff_right hzero, ← hstops]
    constructor
    · rintro ⟨placement, hplacement, hrun⟩
      obtain ⟨k, hk, rfl⟩ := Option.map_eq_some_iff.mp hplacement
      have hpos : 0 < k := Nat.pos_of_ne_zero fun hc => hzero (scan_eq_zero.mp (hc ▸ hk))
      exact ⟨⟨k, hk⟩, (findPlacement_inert hpos dramSlots nvramSlots).mp hrun⟩
    · rintro ⟨⟨k, hk⟩, hroom⟩
      have hk : scan c = some k := hk
      have hpos : 0 < k := Nat.pos_of_ne_zero fun hc => hzero (scan_eq_zero.mp (hc ▸ hk))
      refine ⟨findPlacement mode k, by rw [hk]; rfl, ?_⟩
      exact (findPlacement_inert hpos dramSlots nvramSlots).mpr hroom

/-- **A failed exchange**, with any array left by earlier replies and any memory from
`malloc`. BIND and UNBIND report failure exactly when the entry they read does not
happen to be 0, and a find does nothing exactly when what it reads is harmless. -/
theorem failed_exchange_iff (opRetval candidates : Arr AddrInfo)
    (dramSlots nvramSlots : Arr (Nat × Int)) :
    ∀ r : Received, r.Failed → r.Counted →
      (sendBind r opRetval = 0 ↔ (r.onto opRetval 0).pidRetval ≠ 0) ∧
      (sendUnbind r opRetval = 0 ↔ (r.onto opRetval 0).pidRetval ≠ 0) ∧
      (FindInert P host mode r candidates dramSlots nvramSlots ↔
        HarmlessFind P host mode (r.onto candidates)) := by
  intro r _ h
  have hop : opDone r opRetval = 0 ↔ (r.onto opRetval 0).pidRetval ≠ 0 := by
    unfold opDone
    rw [sendReq_onto h]
    split
    · rename_i hzero
      exact iff_of_false (by decide) fun hc => hc hzero
    · rename_i hne
      exact iff_of_true rfl hne
  exact ⟨hop, hop, findInert_iff h candidates dramSlots nvramSlots⟩

end

/-! ## A page of an earlier reply

The array still holds page 8192 of process 1 when `recvmsg` fails, and the memory that
`malloc` hands out is zero. -/

/-- The reply to an earlier find. -/
def earlierReply : Received :=
  .whole [⟨nlmsgLength (2 * sizeofAddrInfo), nlmsgDone, 0, [⟨8192, 1⟩, ⟨0, 0⟩]⟩]

/-- `recvmsg` returns -1. -/
def noReply : Received := ⟨-1, []⟩

theorem failed_find_moves_page :
    noReply.Failed ∧ noReply.Counted ∧
      sendBind noReply (fun _ => ⟨0, 0⟩) = 1 ∧
      (sendFind FindMode.dram.code noReply (sendReq earlierReply fun _ => ⟨0, 0⟩).1).2 =
        some (.migrate .dram 1) ∧
      doMigration Hyb.smallMachine ⟨fun _ => 1, fun _ => 0⟩ .dram 1
        (sendFind FindMode.dram.code noReply (sendReq earlierReply fun _ => ⟨0, 0⟩).1).1 =
          ([⟨1, 0, [(8192, 2)]⟩], 1) := by
  refine ⟨Or.inl (by decide), fun m hm => absurd hm (by simp [noReply]), by decide, ?_, by decide⟩
  have hscan : scan (sendReq earlierReply fun _ => ⟨0, 0⟩).1 = some 1 :=
    @scan_eq _ [⟨8192, 1⟩] [] ⟨0, 0⟩ 2 rfl (by decide) (by decide) (by decide)
  show (scan (sendReq earlierReply fun _ => ⟨0, 0⟩).1).map (findPlacement FindMode.dram.code) = _
  rw [hscan]
  rfl

theorem failed_exchange_iff_noReply :
    (sendBind noReply (fun _ => ⟨0, 7⟩) = 0 ↔ (noReply.onto (fun _ => ⟨0, 7⟩) 0).pidRetval ≠ 0) ∧
      (sendUnbind noReply (fun _ => ⟨0, 7⟩) = 0 ↔
        (noReply.onto (fun _ => ⟨0, 7⟩) 0).pidRetval ≠ 0) ∧
      (FindInert Hyb.smallMachine ⟨fun _ => 1, fun _ => 0⟩ FindMode.nvram.code noReply
          (fun _ => ⟨0, 0⟩) (fun _ => (0, 0)) (fun _ => (0, 0)) ↔
        HarmlessFind Hyb.smallMachine ⟨fun _ => 1, fun _ => 0⟩ FindMode.nvram.code
          (noReply.onto fun _ => ⟨0, 0⟩)) :=
  failed_exchange_iff _ _ _ _ noReply (Or.inl (by decide)) fun m hm =>
    absurd hm (by simp [noReply])

end Ambix.Ctl
