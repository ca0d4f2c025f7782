import Ambix.Hyb.Machine
import Ambix.Logic.OverQuota

/-!
# Counts below zero

A negative count is meant to ask for nothing. A walk with such a count takes the
primaries of its first stretch instead, so the request is harmless exactly when there
are none, or, for a switch, when the two sides cannot be paired and fit the arrays.
-/

namespace Ambix.Hyb

open Ambix.Lib Ambix.Lib.QuotaScan

/-! ## The walks of a request -/

section

variable {P : Platform} {σ : Sys}

theorem firstStretch_pid (h : Registered σ) (hpos : 0 < σ.mod.nPids) {tier : Tier} {x : Exam}
    (hx : x ∈ σ.firstStretch tier) : 0 < x.info.pidRetval := by
  have hpid := (mem_examsOf hx).1
  show 0 < x.pid
  rw [hpid]
  exact (h.live _ (Mod.mem_tasks.mpr ⟨_, h.lastPid_lt hpos tier, rfl⟩)).2

/-- **`mem_walk` with a negative count** returns the primaries of the first stretch. -/
theorem memWalk_over_reply {mode : FindMode} {π : Policy P} (hπ : memWalkPolicy P mode = some π)
    {n : Int} (hneg : n < 0) (hfound : σ.mod.nFound = 0) :
    (memWalk P n mode σ).1.mod.reply =
      (primaries π.classOf (σ.firstStretch π.tier)).map Exam.info := by
  have hfilled := (memWalk_over hπ hneg hfound).2
  have hf := hfilled.found
  have hn := hfilled.nFound
  simp only [over_found, Pick.empty, List.nil_append, Nat.zero_add] at hf hn
  rw [Mod.reply, hn]
  exact hf

/-- Its writes are inside the arrays if there is no primary. -/
theorem memWalk_over_stored {mode : FindMode} {π : Policy P} (hπ : memWalkPolicy P mode = some π)
    {n : Int} (hn : -2147483648 ≤ n) (hneg : n < 0) (hfound : σ.mod.nFound = 0)
    (htrace : σ.mod.trace = []) (hlast : ∀ tier, σ.mod.lastPid tier < σ.mod.nPids)
    (hnone : primaries π.classOf (σ.firstStretch π.tier) = []) :
    ∀ ev ∈ (memWalk P n mode σ).1.mod.trace, ev.Stored := by
  obtain ⟨hwalk, hfilled⟩ := memWalk_over hπ hneg hfound
  have hfits₀ : Fits π True (σ.mod.setQuota .backup n) := by
    refine iff_of_true (by simp [Mod.setQuota, htrace]) ⟨?_, ?_, trivial⟩
    · exact hfound.trans_le (Nat.zero_le _)
    · rw [(memWalkPolicy_ops hπ).2]
      exact Nat.zero_le _
  have hfits := walkTier_fits (σ := { σ with mod := σ.mod.setQuota .backup n }) hfits₀ (hlast π.tier)
  rw [hwalk] at hfilled ⊢
  refine hfits.mpr ⟨?_, ?_, trivial⟩
  · rw [hfilled.nFound, over_found, hnone]
    exact Nat.zero_le _
  · rw [hfilled.nSpare, over_spare_nil hn hneg hnone]
    exact Nat.zero_le _

/-! ## The switch -/

/-- When `pairUp` leaves nothing of two sides that are not both empty. -/
theorem pairLists_nil_iff {α : Type*} {N D B S : List α} (hN : N ≠ []) :
    pairLists N D B S = ([], []) ↔
      N.length ≠ D.length ∧ (D.length < N.length → B = []) ∧ (N.length < D.length → S = []) := by
  have hpos := List.length_pos_iff.mpr hN
  obtain ⟨hnvram, hdram⟩ := pairLists_length N D B S
  have hsize : pairLists N D B S = ([], []) ↔
      pairSize N.length D.length B.length S.length = 0 := by
    constructor
    · intro hnil
      rw [← hnvram, hnil, List.length_nil]
    · intro hzero
      rw [hzero, List.length_eq_zero_iff] at hnvram hdram
      exact Prod.ext hnvram hdram
  rw [hsize, ← List.length_eq_zero_iff, ← List.length_eq_zero_iff]
  unfold pairSize
  split
  · omega
  · omega

/-- The counts of a switch below zero for which it takes nothing: no NVRAM page is
taken at all, or the two sides differ, fit the arrays and cannot be topped up. -/
def SwitchesNothing (P : Platform) (n : Int) (σ : Sys) : Prop :=
  let N := primaries (nvramSwitchPolicy P).classOf (σ.firstStretch .nvram)
  let D := primaries (memPolicy P).classOf (σ.firstStretch .dram)
  let S := lateBackups (nvramSwitchPolicy P).classOf n (σ.firstStretch .nvram)
  let B := lateBackups (memPolicy P).classOf n (σ.firstStretch .dram)
  N.length = 0 ∨
    (N.length ≠ D.length ∧ N.length + D.length < maxNFind ∧
      (D.length < N.length → B.length = 0) ∧ (N.length < D.length → S.length = 0) ∧
      S.length ≤ maxNSwitch ∧ B.length ≤ maxNFind)

section

variable {P : Platform} {σ : Sys} {n : Int}

/-- `pairUp` on sides it cannot pair. -/
theorem pairUp_reset {v d : Nat} {m : Mod} (hne : v ≠ d) (hB : d < v → m.nBackup = 0)
    (hS : v < d → m.nSwitchBackup = 0) : pairUp v d m = (m.setFoundPid 0 0).setNFound 1 := by
  unfold pairUp
  rw [if_neg (fun h => hne h.symm), if_neg, if_neg]
  · rintro ⟨hlt, hpos⟩
    have := hS hlt
    omega
  · rintro ⟨hlt, hpos⟩
    have := hB hlt
    omega

/-- The candidates of a switch's reply are its sides. -/
theorem pairUp_candidates_nil {N D : Pick Exam} {m : Mod}
    (h : Halves m (N.found.map Exam.info) (D.found.map Exam.info) (D.spare.map Exam.info)
      (N.spare.map Exam.info))
    (hpid : ∀ x ∈ (N.found ++ N.spare) ++ (D.found ++ D.spare), 0 < x.info.pidRetval) :
    candidatesOf (pairUp N.found.length D.found.length m).reply = [] ↔
      pairLists N.found D.found D.spare N.spare = ([], []) := by
  obtain ⟨sep, hsep, hreply⟩ := pairUp_spec h
  simp only [List.length_map, pairLists_map] at hreply
  have hsides : ∀ x ∈ (pairLists N.found D.found D.spare N.spare).1 ++
      (pairLists N.found D.found D.spare N.spare).2, 0 < x.info.pidRetval := fun x hx =>
    hpid x (mem_pairLists hx)
  generalize pairLists N.found D.found D.spare N.spare = sides at hsides hreply
  obtain ⟨l, r⟩ := sides
  have hself : ∀ xs : List Exam, (∀ x ∈ xs, 0 < x.info.pidRetval) →
      candidatesOf (xs.map Exam.info) = xs.map Exam.info := fun xs hxs =>
    candidatesOf_eq_self fun y hy => by
      obtain ⟨x, hx, rfl⟩ := List.mem_map.mp hy
      exact hxs x hx
  rw [hreply, ← List.singleton_append (x := sep)]
  simp only [candidatesOf_append, candidatesOf_code (Or.inl hsep), List.nil_append,
    hself l fun x hx => hsides x (List.mem_append_left _ hx),
    hself r fun x hx => hsides x (List.mem_append_right _ hx), List.append_eq_nil_iff,
    List.map_eq_nil_iff, Prod.mk.injEq]

/-- When `pairUp` leaves nothing of its two sides and all writes so far were inside the
arrays. `lateN` and `lateD` are the backups the two walks had to take. -/
theorem pairUp_over_iff {N D : Pick Exam} {m : Mod} {lateN lateD : Nat}
    (hfound : m.nFound = N.found.length + 1 + D.found.length)
    (hbackup : m.nBackup = D.spare.length) (hswitch : m.nSwitchBackup = N.spare.length)
    (hfits : (∀ ev ∈ m.trace, ev.Stored) ↔
      m.nFound ≤ maxNFind ∧ m.nBackup ≤ maxNFind ∧ N.spare.length ≤ maxNSwitch)
    (hlate : N.found.length + D.found.length < maxNFind →
      (∀ c ≤ maxNFind, N.spare.length ≤ c ↔ lateN ≤ c) ∧
        ∀ c ≤ maxNFind, D.spare.length ≤ c ↔ lateD ≤ c) :
    ((N.found.length ≠ D.found.length ∧ (D.found.length < N.found.length → D.spare = []) ∧
        (N.found.length < D.found.length → N.spare = [])) ∧
      (pairUp N.found.length D.found.length m).nFound < maxNFind ∧
      ∀ ev ∈ (pairUp N.found.length D.found.length m).trace, ev.Stored) ↔
    (N.found.length ≠ D.found.length ∧ N.found.length + D.found.length < maxNFind ∧
      (D.found.length < N.found.length → lateD = 0) ∧
      (N.found.length < D.found.length → lateN = 0) ∧ lateN ≤ maxNSwitch ∧ lateD ≤ maxNFind) := by
  have hmaxF := maxNFind_eq
  have hswitchle : maxNSwitch ≤ maxNFind := Buf.capacity_le (.spare .switchBackup)
  have hnil : ∀ xs : List Exam, xs = [] ↔ xs.length ≤ 0 := fun xs => by
    rw [Nat.le_zero, List.length_eq_zero_iff]
  constructor
  · rintro ⟨⟨hne, hB, hS⟩, _, hstored⟩
    -- `pairUp` adds to the trace, so the walks' stores are inside too
    have hpre : ∀ ev ∈ m.trace, ev.Stored := by
      have hpair : Wrote (2 * N.found.length + 2 * D.found.length + 1) m
          (pairUp N.found.length D.found.length m) := .pairUp hfound (by omega) (by omega)
      obtain ⟨evs, htr, _⟩ := hpair.trace
      exact fun ev hev => hstored ev (htr ▸ List.mem_append_right _ hev)
    obtain ⟨h1, h2, h3⟩ := hfits.mp hpre
    obtain ⟨hlateN, hlateD⟩ := hlate (by omega)
    refine ⟨hne, by omega, fun hlt => ?_, fun hlt => ?_, ?_, ?_⟩
    · exact Nat.le_zero.mp ((hlateD 0 (Nat.zero_le _)).mp ((hnil _).mp (hB hlt)))
    · exact Nat.le_zero.mp ((hlateN 0 (Nat.zero_le _)).mp ((hnil _).mp (hS hlt)))
    · exact (hlateN _ hswitchle).mp h3
    · exact (hlateD _ (Nat.le_refl _)).mp (hbackup ▸ h2)
  · rintro ⟨hne, hlt, hB, hS, hsw, hbk⟩
    obtain ⟨hlateN, hlateD⟩ := hlate hlt
    have hB' : D.found.length < N.found.length → D.spare = [] := fun hl =>
      (hnil _).mpr ((hlateD 0 (Nat.zero_le _)).mpr (Nat.le_of_eq (hB hl)))
    have hS' : N.found.length < D.found.length → N.spare = [] := fun hl =>
      (hnil _).mpr ((hlateN 0 (Nat.zero_le _)).mpr (Nat.le_of_eq (hS hl)))
    have hreset := pairUp_reset (m := m) hne (fun hl => by rw [hbackup, hB' hl]; rfl)
      fun hl => by rw [hswitch, hS' hl]; rfl
    refine ⟨⟨hne, hB', hS'⟩, by rw [hreset]; show 1 < maxNFind; omega, ?_⟩
    have hstored := hfits.mpr ⟨by omega, hbackup ▸ (hlateD _ (Nat.le_refl _)).mpr hbk,
      (hlateN _ hswitchle).mpr hsw⟩
    rw [hreset]
    intro ev hev
    rcases List.mem_cons.mp hev with rfl | hev
    · show 0 < maxNFind
      omega
    · exact hstored ev hev

/-- **`switch_walk` with a negative count** returns nothing and writes inside the
arrays exactly when there is nothing to take or nothing to pair. -/
theorem switchWalk_over (h : Registered σ) (hpos : 0 < σ.mod.nPids)
    (hn : -2147483648 ≤ n) (hneg : n < 0) (hfound : σ.mod.nFound = 0) (htrace : σ.mod.trace = []) :
    (candidatesOf (switchWalk P n σ).1.mod.reply = [] ∧ (switchWalk P n σ).1.mod.nFound < maxNFind ∧
        ∀ ev ∈ (switchWalk P n σ).1.mod.trace, ev.Stored) ↔ SwitchesNothing P n σ := by
  have hlast := h.lastPid_lt hpos
  have hmaxF := maxNFind_eq
  have hready := dramReady (P := P) n hlast
  obtain ⟨hN, hfits⟩ := nvramOver (P := P) hneg hfound htrace hlast
  generalize hNv : overScan (nvramSwitchPolicy P).classOf n (σ.firstStretch .nvram) Pick.empty = N at hN
  have hNf : N.found = primaries (nvramSwitchPolicy P).classOf (σ.firstStretch .nvram) := by
    rw [← hNv, over_found, Pick.empty, List.nil_append]
  rw [switchWalk_phases]
  generalize walkTier (nvramSwitchPolicy P).callback .nvram
    { σ with mod := σ.mod.setQuota .switchBackup n } = σ₁ at hready hN hfits
  have hv : σ₁.mod.nFound = N.found.length := by simpa using hN.nFound
  have hsb : σ₁.mod.nSwitchBackup = N.spare.length := hN.nSpare
  simp only [hv, hsb]
  by_cases hzero : N.found.length = 0
  · -- no NVRAM page: nothing was put aside, and the separator is all there is
    have hNs : N.spare = [] := by
      rw [← hNv]
      exact over_spare_nil hn hneg (hNf ▸ List.length_eq_zero_iff.mp hzero)
    have hnone : N.found.length = 0 ∧ N.spare.length = 0 := ⟨hzero, by rw [hNs]; rfl⟩
    rw [if_pos hnone]
    refine iff_of_true ⟨?_, ?_, ?_⟩ (Or.inl (by rw [← hNf]; exact hzero))
    · simp [candidatesOf, Mod.reply, Mod.setNFound, Mod.setFoundPid, Arr.slice_cons, hzero]
    · show N.found.length + 1 < maxNFind
      omega
    · have hstored := hfits.mpr ⟨by rw [hv, hzero]; exact Nat.zero_le _,
        by show σ₁.mod.nSwitchBackup ≤ _; rw [hsb, hNs]; exact Nat.zero_le _, trivial⟩
      intro ev hev
      rcases List.mem_cons.mp hev with rfl | hev
      · show N.found.length < maxNFind
        omega
      · exact hstored ev hev
  · rw [if_neg fun hc => hzero hc.1]
    obtain ⟨hD, hfits₂⟩ := dramOver (P := P) hneg hready hlast hfits
    have hhalves := halves_of_filled (n := n) hN
      (by rw [hready.lastPid, hready.nPids]; exact hlast .dram) hD
    rw [hv] at hD
    rw [hsb] at hfits₂
    generalize hDv : overScan (memPolicy P).classOf n (σ.firstStretch .dram) Pick.empty = D at hD hhalves
    have hDf : D.found = primaries (memPolicy P).classOf (σ.firstStretch .dram) := by
      rw [← hDv, over_found, Pick.empty, List.nil_append]
    generalize walkTier (memPolicy P).callback .dram (switchMid n σ₁) = σ₂ at hD hhalves hfits₂
    have hd : σ₂.mod.nFound - N.found.length - 1 = D.found.length := by
      have := hD.nFound
      omega
    simp only [hd]
    have hpid : ∀ x ∈ (N.found ++ N.spare) ++ (D.found ++ D.spare), 0 < x.info.pidRetval := by
      intro x hx
      rcases List.mem_append.mp hx with hx | hx
      · exact firstStretch_pid h hpos (mem_over (hNv ▸ hx))
      · exact firstStretch_pid h hpos (mem_over (hDv ▸ hx))
    have hNne : N.found ≠ [] := fun hc => hzero (by rw [hc]; rfl)
    have hswitch : σ₂.mod.nSwitchBackup = N.spare.length := by
      have := hhalves.nSwitchBackup
      rwa [List.length_map] at this
    -- the backups taken, while the counters are in range
    have hlate : N.found.length + D.found.length < maxNFind →
        (∀ c ≤ maxNFind, N.spare.length ≤ c ↔
          (lateBackups (nvramSwitchPolicy P).classOf n (σ.firstStretch .nvram)).length ≤ c) ∧
        ∀ c ≤ maxNFind, D.spare.length ≤ c ↔
          (lateBackups (memPolicy P).classOf n (σ.firstStretch .dram)).length ≤ c := by
      intro hlt
      rw [← hNv, ← hDv]
      exact ⟨fun c hc => over_spare_iff hn hneg (by rw [← hNf]; omega) hc,
        fun c hc => over_spare_iff hn hneg (by rw [← hDf]; omega) hc⟩
    rw [pairUp_candidates_nil hhalves hpid, pairLists_nil_iff hNne,
      pairUp_over_iff hD.nFound hD.nSpare hswitch hfits₂ hlate]
    unfold SwitchesNothing
    simp only [← hNf, ← hDf]
    exact (or_iff_right hzero).symm

end

end

/-! ## The request -/

/-- No candidate comes back and nothing is written outside an array, the return-code
entry included. -/
def Harmless (o : Outcome) : Prop :=
  o.candidates = [] ∧ o.reply.length ≤ maxNFind ∧ ∀ ev ∈ o.sys.mod.trace, ev.Stored

/-- A FIND with a negative count has nothing to take. -/
def TakesNothing (P : Platform) (req : Req) (σ : Sys) : Prop :=
  0 < σ.mod.nPids → ∀ mode, FindMode.ofCode req.mode = some mode →
    match memWalkPolicy P mode with
    | some π => primaries π.classOf (σ.firstStretch π.tier) = []
    | none => mode = .switch → SwitchesNothing P req.pidN.toInt σ

section

variable {P : Platform} {σ : Sys} {req : Req}

/-- A request that comes back is as harmless as its body. -/
theorem harmless_iff (hback : (processBody P (some req) σ).2.2 = true)
    (hcode : (processBody P (some req) σ).2.1 = 0 ∨ (processBody P (some req) σ).2.1 = -1) :
    Harmless (processReq P (some req) σ) ↔
      candidatesOf (processBody P (some req) σ).1.mod.reply = [] ∧
        (processBody P (some req) σ).1.mod.nFound < maxNFind ∧
        ∀ ev ∈ (processBody P (some req) σ).1.mod.trace, ev.Stored := by
  obtain ⟨_, fin, hfin, hreply⟩ := processReq_reply hback
  have hlen : (processBody P (some req) σ).1.mod.reply.length =
      (processBody P (some req) σ).1.mod.nFound := Arr.length_slice _ _ _
  obtain ⟨evs, htrace, hevs⟩ := processReq_trace (P := P) (some req) σ
  unfold Harmless
  rw [Outcome.candidates, hreply, candidatesOf_append, candidatesOf_code (hfin ▸ hcode),
    List.append_nil, List.length_append, hlen, List.length_singleton, htrace]
  refine and_congr_right fun _ => and_congr_right fun _ => ?_
  rw [List.forall_mem_append, and_iff_right]
  intro ev hev
  obtain ⟨i, rfl⟩ := hevs ev hev
  trivial

theorem intMin_neg (cap : Nat) (hneg : req.pidN.toInt < 0) :
    intMin cap req.pidN.toInt = req.pidN.toInt := by
  rw [intMin_eq_min]
  omega

/-- A request that does not walk. -/
theorem still_harmless (hop : OpCode.ofCode req.opCode = some .find)
    (hstill : processFind P req σ.refreshed = (σ.refreshed, -1, true)) :
    Harmless (processReq P (some req) σ) := by
  have hmaxF := maxNFind_eq
  have hfound := Sys.refreshed_nFound σ
  have hbody := processReq_find (P := P) (σ := σ) hop
  rw [harmless_iff (by rw [hbody, hstill]) (Or.inr (by rw [hbody, hstill])), hbody, hstill]
  refine ⟨?_, ?_, ?_⟩
  · show candidatesOf σ.refreshed.mod.reply = []
    rw [refreshed_reply]
    rfl
  · show σ.refreshed.mod.nFound < maxNFind
    omega
  · show ∀ ev ∈ σ.refreshed.mod.trace, ev.Stored
    rw [Sys.refreshed_trace]
    simp

/-- A plain mode takes the primaries of the first stretch. -/
theorem plain_harmless_iff (h : Registered σ.refreshed) (hpos : 0 < σ.refreshed.mod.nPids)
    {mode : FindMode} (hreq : IsFind req mode) {π : Policy P} (hπ : memWalkPolicy P mode = some π)
    (hneg : req.pidN.toInt < 0) :
    Harmless (processReq P (some req) σ) ↔
      primaries π.classOf (σ.refreshed.firstStretch π.tier) = [] := by
  have hmaxF := maxNFind_eq
  have hfound := Sys.refreshed_nFound σ
  have hbody := processReq_find (P := P) (σ := σ) hreq.op
  have hreply := memWalk_over_reply (σ := σ.refreshed) hπ hneg hfound
  have hwalk := (memWalk_over (σ := σ.refreshed) hπ hneg hfound).1
  have hf := processFind_plain (σ := σ.refreshed) hπ hreq.mode hpos
  rw [intMin_neg _ hneg] at hf
  have hcode : (memWalk P req.pidN.toInt mode σ.refreshed).2 = 0 := congrArg Prod.snd hwalk
  rw [harmless_iff (by rw [hbody, hf]) (Or.inl (by rw [hbody, hf]; exact hcode)), hbody, hf]
  have hpids : ∀ y ∈ (primaries π.classOf (σ.refreshed.firstStretch π.tier)).map Exam.info,
      0 < y.pidRetval := by
    intro y hy
    obtain ⟨x, hx, rfl⟩ := List.mem_map.mp hy
    exact firstStretch_pid h hpos ((mem_primaries _).mp hx).1
  rw [hreply, candidatesOf_eq_self hpids, List.map_eq_nil_iff]
  refine ⟨fun hc => hc.1, fun hnone => ⟨hnone, ?_, ?_⟩⟩
  · have hlen := congrArg List.length hreply
    rw [hnone] at hlen
    have hzero : (memWalk P req.pidN.toInt mode σ.refreshed).1.mod.nFound = 0 := by
      simpa [Mod.reply] using hlen
    show (memWalk P req.pidN.toInt mode σ.refreshed).1.mod.nFound < maxNFind
    omega
  · exact memWalk_over_stored hπ req.pidN.le_toInt hneg hfound (Sys.refreshed_trace σ)
      (h.lastPid_lt hpos) hnone

theorem switch_harmless_iff (h : Registered σ.refreshed) (hpos : 0 < σ.refreshed.mod.nPids)
    (hreq : IsFind req .switch) (hneg : req.pidN.toInt < 0) :
    Harmless (processReq P (some req) σ) ↔ SwitchesNothing P req.pidN.toInt σ.refreshed := by
  have hbody := processReq_find (P := P) (σ := σ) hreq.op
  have hf := processFind_switch (P := P) (σ := σ.refreshed) hreq.mode hpos
  rw [intMin_neg _ hneg] at hf
  have hcode : (switchWalk P req.pidN.toInt σ.refreshed).2 = 0 ∨
      (switchWalk P req.pidN.toInt σ.refreshed).2 = -1 := by
    rw [switchWalk_phases]
    simp only
    split
    · exact Or.inr rfl
    · exact Or.inl rfl
  rw [harmless_iff (by rw [hbody, hf]) (by rw [hbody, hf]; exact hcode), hbody, hf]
  exact switchWalk_over h hpos req.pidN.le_toInt hneg (Sys.refreshed_nFound σ)
    (Sys.refreshed_trace σ)

/-- The clear callback takes and writes nothing. -/
theorem clear_harmless (hpos : 0 < σ.refreshed.mod.nPids) (hreq : IsFind req .nvramClear) :
    Harmless (processReq P (some req) σ) := by
  have hmaxF := maxNFind_eq
  have hfound := Sys.refreshed_nFound σ
  have hbody := processReq_find (P := P) (σ := σ) hreq.op
  have hf := processFind_clear (P := P) (σ := σ.refreshed) hreq.mode hpos
  obtain ⟨hcount, hidle⟩ := clearWalk_idle (P := P) (σ := σ.refreshed) hfound (Sys.refreshed_trace σ)
  have hzero : (clearWalk P σ.refreshed).1.mod.nFound = 0 :=
    (congrArg Counters.nFound hcount).trans hfound
  have hstored : ∀ ev ∈ (clearWalk P σ.refreshed).1.mod.trace, ev.Stored := by
    intro ev hev
    have := hidle ev hev
    cases ev with
    | store buf i => exact absurd this id
    | visit => trivial
    | commit => trivial
    | retval => trivial
  cases hback : (clearWalk P σ.refreshed).2 with
  | true =>
    rw [harmless_iff (by rw [hbody, hf]; exact hback) (Or.inr (by rw [hbody, hf])), hbody, hf]
    refine ⟨?_, by simp only [hzero]; omega, hstored⟩
    rw [Mod.reply, hzero]
    rfl
  | false =>
    have hoops : processReq P (some req) σ = .oops (clearWalk P σ.refreshed).1 := by
      unfold processReq
      rw [hbody, hf]
      simp only [hback, Bool.false_eq_true, if_false]
    rw [hoops]
    exact ⟨rfl, Nat.zero_le _, hstored⟩

/-- **A FIND with a negative count is harmless exactly when it has nothing to take.** -/
theorem find_negative_iff (hreach : (hyb P).Reachable σ)
    (hop : OpCode.ofCode req.opCode = some .find) (hneg : req.pidN.toInt < 0) :
    Harmless (processReq P (some req) σ) ↔ TakesNothing P req σ.refreshed := by
  have h := (registered_invariant P σ hreach).refreshed
  by_cases hpos : 0 < σ.refreshed.mod.nPids
  · cases hmode : FindMode.ofCode req.mode with
    | none =>
      refine iff_of_true (still_harmless hop (processFind_default hmode)) fun _ mode hc => ?_
      rw [hmode] at hc
      exact absurd hc (by simp)
    | some mode =>
      have htakes : TakesNothing P req σ.refreshed ↔
          match memWalkPolicy P mode with
          | some π => primaries π.classOf (σ.refreshed.firstStretch π.tier) = []
          | none => mode = .switch → SwitchesNothing P req.pidN.toInt σ.refreshed := by
        unfold TakesNothing
        simp only [hmode, Option.some.injEq, forall_eq', hpos, true_imp_iff]
      rw [htakes]
      rcases memWalkPolicy_cases P mode with ⟨π, hπ⟩ | rfl | rfl
      · rw [plain_harmless_iff h hpos ⟨hop, hmode⟩ hπ hneg]
        simp only [hπ]
      · rw [switch_harmless_iff h hpos ⟨hop, hmode⟩ hneg]
        simp only [memWalkPolicy, forall_const]
      · exact iff_of_true (clear_harmless hpos ⟨hop, hmode⟩) (by simp [memWalkPolicy])
  · exact iff_of_true (still_harmless hop (processFind_empty req hpos)) fun hc => absurd hc hpos

end

/-! ## A page taken by a negative count -/

/-- A bound process with one never accessed DRAM page. -/
def oneColdPage : Sys :=
  (Sys.fresh [some [.of 4096 1 false false]]).after smallMachine [.of .bind 1 .dram]

theorem find_negative_takes_page :
    (hyb smallMachine).Reachable oneColdPage ∧ (Req.of .find (-1) .dram).pidN.toInt < 0 ∧
      (processReq smallMachine (some (.of .find (-1) .dram)) oneColdPage).candidates =
        [⟨4096, 1⟩] :=
  ⟨Sys.fresh_reachable _ _ _, by decide, by decide⟩

theorem find_negative_iff_oneColdPage :
    Harmless (processReq smallMachine (some (.of .find (-1) .dram)) oneColdPage) ↔
      TakesNothing smallMachine (.of .find (-1) .dram) oneColdPage.refreshed :=
  find_negative_iff (Sys.fresh_reachable _ _ _) (by decide) (by decide)

end Ambix.Hyb
