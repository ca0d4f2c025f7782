import Ambix.Lib.History
import Ambix.Theorems.Provenance

/-!
# From a page-table entry to a moved page, in every interleaving

The threads with a record of the machine as it was when the module took each request. What a
thread migrates after its find are pages that the machine had then, each on the tier that it
leaves: neither the locks, nor the array that the threads share, nor requests of the others that
come in between make a page of one find go the way of another.
-/

namespace Ambix.Ctl

open Ambix.Lib Ambix.Lib.QuotaScan Ambix.Hyb

/-- The side that the pages of a plain find are on. -/
def findSide : FindMode → Side
  | .dram => .toNvram
  | .nvram | .nvramIntensive | .switch | .nvramClear | .nvramWrite => .toDram

/-- A page of a call that follows a find, by the machine `σ` when the module took the find. -/
inductive SoundPage (P : Platform) (σ : Sys) (k : Nat) (c : Arr AddrInfo) (host : Host)
    (call : MoveCall) (position : Nat) (page : Nat × Int) : FindMode → Prop
  /-- It is a candidate, and a page of the process that the call names. -/
  | plain (mode : FindMode) (hmode : mode ≠ .switch) (hbelow : position < k)
      (hown : c position = ⟨page.1, call.pid⟩) (hgoes : page.2 ∈ (findSide mode).nodes P)
      (hhad : HadPage P (findSide mode) σ call.pid page.1) :
      SoundPage P σ k c host call position page mode
  | switch (x : Side) (h : SoundSwap P σ k c host call position page x) :
      SoundPage P σ k c host call position page .switch

section

variable {P : Platform} {σ : Sys} {host : Host} {k : Nat} {c : Arr AddrInfo} {req : Req}
  {mode : FindMode}

/-! ## One find -/

theorem findSide_mode {π : Policy P} (hπ : memWalkPolicy P mode = some π) :
    π.tier.mode = (findSide mode).mode := by
  rw [memWalkPolicy_tier hπ]
  cases mode <;> rfl

theorem findSide_nodes (P : Platform) (mode : FindMode) :
    nodeList P (sourceTier mode) = (findSide mode).nodes P := by
  cases mode <;> rfl

/-- What a plain find picks are pages of bound processes. -/
theorem plainPicks_had {π : Policy P} (hπ : memWalkPolicy P mode = some π) (h : Registered σ)
    {n : Nat} {y : AddrInfo} (hy : y ∈ plainPicks π n σ.refreshed) :
    HadPage P (findSide mode) σ y.pidRetval y.addr := by
  unfold plainPicks at hy
  split at hy
  · rename_i hpos
    exact hadPage_of_select h hpos (findSide_mode hπ) hy
  · exact absurd hy (by simp)

/-- A plain reply, read from an array that holds it: the scan counts the pages. -/
theorem plain_reply_had {π : Policy P} (hπ : memWalkPolicy P mode = some π) (h : Registered σ)
    (hreq : IsFind req mode) (hn : 0 ≤ req.pidN.toInt)
    (hc : c.slice 0 (processReq P (some req) σ).reply.length = (processReq P (some req) σ).reply) :
    ∃ k : Nat, (k : Int) ≤ req.pidN.toInt ∧ scan c = some k ∧ ∀ p < k,
      HadPage P (findSide mode) σ (c p).pidRetval (c p).addr := by
  obtain ⟨-, fin, hfin, -, hreply⟩ := find_plain (σ := σ) hπ hreq hn
  have hpos := plainPicks_pid_pos (π := π) h.refreshed (n := count maxNFind req)
  have hhad (y : AddrInfo) (hy : y ∈ plainPicks π (count maxNFind req) σ.refreshed) :
      HadPage P (findSide mode) σ y.pidRetval y.addr := plainPicks_had hπ h hy
  have hlen : (plainPicks π (count maxNFind req) σ.refreshed).length ≤ count maxNFind req := by
    unfold plainPicks
    split
    · rw [List.length_map, length_select]
      omega
    · exact Nat.zero_le _
  have hcount := count_le maxNFind req
  have hcountn : count maxNFind req ≤ req.pidN.toInt.toNat := Nat.min_le_right _ _
  rw [hreply] at hc
  generalize plainPicks π (count maxNFind req) σ.refreshed = picks at *
  refine ⟨picks.length, by omega, scan_eq hc hpos (by rcases hfin with hf | hf <;> omega) (by omega),
    fun p hp => hhad _ ?_⟩
  have hfirst := (slice_of_append hc).1
  rw [← hfirst]
  exact Arr.mem_slice.mpr ⟨p, hp, by rw [Nat.zero_add]⟩

/-- What `send_find` does after a plain reply. -/
theorem plain_run_sound {π : Policy P} (hπ : memWalkPolicy P mode = some π)
    (hhad : ∀ p < k, HadPage P (findSide mode) σ (c p).pidRetval (c p).addr)
    {dramSlots nvramSlots : Arr (Nat × Int)} {rounds : Nat} {calls : List MoveCall} {ret : Int}
    (hrun : (findPlacement mode.code k).run P host c dramSlots nvramSlots rounds =
      some (calls, ret)) :
    ∀ call ∈ calls, ∀ (j : Nat) (page : Nat × Int), call.pages[j]? = some page →
      SoundPage P σ k c host call (call.first + j) page mode := by
  intro call hcall j page hpage
  have hmode : mode ≠ .switch := by
    rintro rfl
    simp [memWalkPolicy] at hπ
  rw [findPlacement_plain hπ] at hrun
  split at hrun
  · obtain ⟨rfl, -⟩ := Prod.mk.inj (Option.some.inj hrun)
    exact absurd hcall (by simp)
  · rw [← (Prod.mk.inj (Option.some.inj hrun)).1] at hcall
    obtain ⟨hlt, hcand, hnode⟩ := doMigration_genuine P _ hcall hpage
    have hpage := hhad _ hlt
    rw [hcand] at hpage
    exact .plain mode hmode hlt hcand (findSide_nodes P mode ▸ hnode) hpage

/-- **What is migrated after a find**, from an array that holds its reply. -/
theorem run_sound (h : Registered σ) (hreq : IsFind req mode) (hn : 0 ≤ req.pidN.toInt)
    (hc : c.slice 0 (processReq P (some req) σ).reply.length = (processReq P (some req) σ).reply)
    (hscan : scan c = some k) {dramSlots nvramSlots : Arr (Nat × Int)} {rounds : Nat}
    {calls : List MoveCall} {ret : Int}
    (hrun : (findPlacement mode.code k).run P host c dramSlots nvramSlots rounds =
      some (calls, ret)) :
    ∀ call ∈ calls, ∀ (j : Nat) (page : Nat × Int), call.pages[j]? = some page →
      (k : Int) ≤ req.pidN.toInt ∧ SoundPage P σ k c host call (call.first + j) page mode := by
  intro call hcall j page hpage
  rcases memWalkPolicy_cases P mode with ⟨π, hπ⟩ | rfl | rfl
  · obtain ⟨k', hle, hscan', hhad⟩ := plain_reply_had hπ h hreq hn hc
    obtain rfl := Option.some.inj (hscan.symm.trans hscan')
    exact ⟨hle, plain_run_sound hπ hhad hrun call hcall j page hpage⟩
  · obtain ⟨k', hle, hscan', hhad⟩ := switch_reply_had h hreq hn hc
    obtain rfl := Option.some.inj (hscan.symm.trans hscan')
    obtain ⟨x, hx⟩ := switch_run_sound dramSlots nvramSlots hhad hrun call hcall j page hpage
    exact ⟨hle, .switch x hx⟩
  · -- nothing is done after a clear
    have hnone : findPlacement FindMode.nvramClear.code k = .nothing := by
      unfold findPlacement
      rw [FindMode.ofCode_code]
      split <;> rfl
    rw [hnone] at hrun
    obtain ⟨rfl, -⟩ := Prod.mk.inj (Option.some.inj hrun)
    exact absurd hcall (by simp)

end

/-! ## All interleavings -/

/-- The machine that the module takes a request in. -/
def machineAt (w w' : World) : Option Sys :=
  if w'.log.length = w.log.length then none else some w.machine

/-- What the record says of an entry of the log. -/
def TakenIn (P : Platform) (e : Entry) (σ : Sys) : Prop :=
  (Hyb.hyb P).Reachable σ ∧ e.reply = (processReq P (some e.req) σ).reply

section

variable {P : Platform}

/-- **The record is that of the log.** -/
theorem recorded_log (P : Platform) :
    ((threads P).toTSys.recorded machineAt).Invariant fun p =>
      List.Forall₂ (TakenIn P) p.1.log p.2 := by
  refine TSys.Invariant.recorded (R := fun w past => List.Forall₂ (TakenIn P) w.log past)
    (served_invariant P) ?_ ?_
  · rintro w ⟨-, -, -, -, -, -, hlog⟩
    rw [hlog]
    exact .nil
  · rintro w w' past hserved h (henv | ⟨t, hact⟩)
    · cases henv with
      | machine σ hσ =>
        have hnote : machineAt w { w with machine := σ } = none := if_pos rfl
        rw [hnote]
        exact h
      | process t req rest hrequests =>
        rw [machineAt, if_neg (by simp)]
        simp only [placementNlProcessMsg_outcome]
        exact .cons ⟨hserved.machine, rfl⟩ h
    · rw [machineAt, hact.log, if_pos rfl]
      exact h

/-- What the thread migrates after its find are pages of the machine that the module took it
in: `σ` in the record, at the place of `e` in the log. -/
def MovesSound (P : Platform) (w : World) (past : List Sys) (t : Thread) (req : Req) : Prop :=
  ∃ later e earlier σ, w.log = later ++ e :: earlier ∧ past[later.length]? = some σ ∧
    e.thread = t ∧ e.req = req ∧ (∀ x ∈ later, x.thread ≠ t) ∧
    ∃ mode, IsFind req mode ∧
      ∀ k host dramSlots nvramSlots rounds calls ret, scan w.candidates = some k →
        (findPlacement req.mode k).run P host w.candidates dramSlots nvramSlots rounds =
          some (calls, ret) →
        ∀ call ∈ calls, ∀ (j : Nat) (page : Nat × Int), call.pages[j]? = some page →
          (k : Int) ≤ req.pidN.toInt ∧
            SoundPage P σ k w.candidates host call (call.first + j) page mode

/-- **Migration is sound in every interleaving**: after a find whose count is not negative,
every page that is handed to `move_pages` or `numa_move_pages` was, when the module took this
very find, a writable page of the bound process that the call names, on the tier that it does
not go to. Of the pages that `do_switch` sends to NVRAM this holds for those that have the
address of their own entry, and of the others what `SoundSwap` says. -/
theorem moved_sound (P : Platform) :
    (threads P).toTSys.Invariant fun w =>
      (∃ past, ((threads P).toTSys.recorded machineAt).Reachable (w, past)) ∧
        ∀ past, ((threads P).toTSys.recorded machineAt).Reachable (w, past) →
          ∀ t req rest, w.control t = .reading (.find req rest) → 0 ≤ req.pidN.toInt →
            MovesSound P w past t req := by
  intro w hw
  refine ⟨hw.exists_record machineAt, fun past hreach t req rest hat hn => ?_⟩
  obtain ⟨hok, hshared⟩ := (threads_outline P).invariant w hw
  obtain ⟨-, -, reply, hanswered, hout⟩ := reading_answers hok hshared hat
  have hmade : ∃ done, Section t (done ++ req :: rest) := by
    have ht := hok t
    unfold ThreadOk at ht
    rw [hat] at ht
    exact ht.2.1
  obtain ⟨done, hsection⟩ := hmade
  obtain ⟨n, mode, rfl⟩ := section_find hsection req
    (List.mem_append_right _ List.mem_cons_self)
  -- the entry of the log that answers the find, and its place in the record
  obtain ⟨hthread, later, earlier, hlog, hlater⟩ := List.find?_eq_some_iff_append.mp hanswered
  obtain ⟨hlength, hrecord⟩ := List.forall₂_iff_get.mp (recorded_log P ⟨w, past⟩ hreach)
  simp only at hlength hrecord
  have hlt : later.length < w.log.length := by rw [hlog]; simp
  obtain ⟨hσ, hreply⟩ := hrecord later.length hlt (hlength ▸ hlt)
  have hentry : w.log.get ⟨later.length, hlt⟩ = ⟨t, .of .find n mode, reply⟩ := by
    simp [hlog, Call.req]
  rw [hentry] at hreply
  simp only at hreply
  subst hreply
  refine ⟨later, _, earlier, _, hlog, List.getElem?_eq_getElem (hlength ▸ hlt), rfl, rfl,
    fun x hx => by simpa using hlater x hx, mode, isFind_of n mode, ?_⟩
  · intro k host dramSlots nvramSlots rounds calls ret hscan hrun
    exact run_sound (registered_invariant P _ hσ) (isFind_of n mode) hn hout hscan hrun

end

theorem moved_sound_foundWorld :
    ∃ past, ((threads smallMachine).toTSys.recorded machineAt).Reachable (foundWorld, past) ∧
      MovesSound smallMachine foundWorld past .stdin (.of .find 1 .dram) ∧
      scan foundWorld.candidates = some 1 ∧
      (findPlacement FindMode.dram.code 1).run smallMachine roomyHost foundWorld.candidates
        (fun _ => (0, 0)) (fun _ => (0, 0)) 1 = some ([⟨1, 0, [(8192, 2)]⟩], 1) := by
  obtain ⟨⟨past, hpast⟩, hmoves⟩ := moved_sound smallMachine foundWorld foundWorld_reachable
  exact ⟨past, hpast, hmoves past hpast .stdin (.of .find 1 .dram) [] rfl (by decide),
    foundWorld_calls⟩

end Ambix.Ctl
