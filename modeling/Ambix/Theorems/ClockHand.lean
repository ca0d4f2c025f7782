import Ambix.Hyb.Machine
import Ambix.Logic.NextWalk

/-!
# Where the clock hand resumes

A FIND that meets its quota leaves the process of the last page in `last_pid`, but
writes `last_addr` only when another page follows in the same stretch. The next walk
goes on with the first page left over, and the hand's address belongs to the hand's
process, exactly when the walk was `Resumable`.
-/

namespace Ambix.Hyb

open Ambix.Lib Ambix.Lib.QuotaScan

section

variable {P : Platform} {σ : Sys}

theorem examinations_appendFound (m : Mod) (s : Spare) (c : Nat) :
    (m.appendFound s c).examinations = m.examinations := by
  induction c with
  | zero => rfl
  | succ c ih =>
    rw [Mod.appendFound_succ, ← ih]
    simp [Mod.pushFound, Mod.examinations, Event.examines]

theorem examinations_pushRetval (m : Mod) (ret : Int) :
    (m.pushRetval ret).examinations = m.examinations := by
  simp [Mod.pushRetval, Mod.examinations, Event.examines]

/-- The state a plain FIND leaves: its walk's, up to the arrays and counters. -/
theorem find_plain_walk {mode : FindMode} {π : Policy P} (hmode : memWalkPolicy P mode = some π)
    {req : Req} (hreq : IsFind req mode) (hpos : 0 < σ.refreshed.mod.nPids)
    (hn : 0 ≤ req.pidN.toInt) :
    let w := walkTier π.callback π.tier { σ.refreshed with
      mod := σ.refreshed.mod.setQuota .backup (count maxNFind req : Int) }
    (processReq P (some req) σ).sys.kernel = w.kernel ∧
      (processReq P (some req) σ).sys.mm = w.mm ∧
      SameHands w.mod (processReq P (some req) σ).sys.mod ∧
      (processReq P (some req) σ).sys.mod.examinations = w.mod.examinations := by
  obtain ⟨c, _, hwalk⟩ := memWalk_walk hmode (count maxNFind req : Int) σ.refreshed
  have hbody : processBody P (some req) σ =
      ((memWalk P (count maxNFind req) mode σ.refreshed).1,
        (memWalk P (count maxNFind req) mode σ.refreshed).2, true) := by
    rw [processReq_find hreq.op, processFind_plain hmode hreq.mode hpos, intMin_count hn]
  simp only [processReq, hbody, if_true, Outcome.sys, hwalk]
  exact ⟨trivial, trivial, (SameHands.appendFound _ _ _).trans (.pushRetval _ _),
    (examinations_pushRetval _ _).trans (examinations_appendFound _ _ _)⟩

section

variable {mode : FindMode} {π : Policy P} {req : Req} {pre post : List Stretch} {s : Stretch}
  {mm' : TaskPtr → Option MmStruct} {xs ys : List Exam}

theorem find_tracks (hmode : memWalkPolicy P mode = some π) (req : Req) :
    Tracks π 0 (count maxNFind req) Pick.empty
      (σ.refreshed.mod.setQuota .backup (count maxNFind req : Int)) := by
  refine Tracks.start ?_ (by simp [Mod.setQuota]) (Sys.refreshed_nFound σ) ?_
  · rw [Nat.zero_add]
    exact count_le maxNFind req
  · rw [(memWalkPolicy_ops hmode).2]
    rfl

/-- The callback examines the pages of `swept`, in this order, and no others. -/
theorem find_examines (hmode : memWalkPolicy P mode = some π) (hreq : IsFind req mode)
    (hn : 0 ≤ req.pidN.toInt) (hpos : 0 < σ.refreshed.mod.nPids) :
    (processReq P (some req) σ).sys.mod.examinations =
      (σ.refreshed.swept π (count maxNFind req)).map Exam.seen := by
  obtain ⟨_, _, _, hlog⟩ := find_plain_walk (σ := σ) hmode hreq hpos hn
  have hstart : (σ.refreshed.mod.setQuota .backup (count maxNFind req : Int)).examinations = [] := by
    simp [Mod.examinations, Mod.setQuota]
  have hvisits : tierVisits π { σ.refreshed with
      mod := σ.refreshed.mod.setQuota .backup (count maxNFind req : Int) } =
        tierVisits π σ.refreshed :=
    tierVisits_congr π rfl rfl rfl rfl ((SameHands.setQuota _ .backup _).lastPid _)
      ((SameHands.setQuota _ .backup _).lastAddr _)
  rw [hlog, (walkTier_swept (σ := { σ.refreshed with
    mod := σ.refreshed.mod.setQuota .backup (count maxNFind req : Int) })
      (find_tracks (σ := σ) hmode req)).2.log, hvisits]
  simp [hstart, Sys.swept]

/-- **The state a find leaves that met its quota.** -/
theorem find_halted (h : Registered σ) (hmode : memWalkPolicy P mode = some π)
    (hreq : IsFind req mode) (hn : 0 ≤ req.pidN.toInt) (hpos : 0 < σ.refreshed.mod.nPids)
    (hhalt : Halt π (count maxNFind req) σ.refreshed pre s post mm' xs ys) :
    let τ := (processReq P (some req) σ).sys
    NextWalk π σ.refreshed τ s.index (haltAddr σ.refreshed π.tier ys) ∧
      τ.mod.owner π.tier = (ys.head?.map Exam.pid).getD (σ.refreshed.mod.owner π.tier) := by
  have hlast := h.refreshed.lastPid_lt hpos π.tier
  obtain ⟨hkernel, hmm, hhands, _⟩ := find_plain_walk (σ := σ) hmode hreq hpos hn
  have htracks := find_tracks (σ := σ) hmode req
  have hs₀ : SameHands σ.refreshed.mod
      (σ.refreshed.mod.setQuota .backup (count maxNFind req : Int)) := .setQuota _ _ _
  generalize hσ₀ : ({ σ.refreshed with
    mod := σ.refreshed.mod.setQuota .backup (count maxNFind req : Int) } : Sys) = σ₀ at *
  have hmod₀ : σ.refreshed.mod.setQuota .backup (count maxNFind req : Int) = σ₀.mod := by
    rw [← hσ₀]
  have hk₀ : σ₀.kernel = σ.refreshed.kernel := by rw [← hσ₀]
  have hmm₀ : σ₀.mm = σ.refreshed.mm := by rw [← hσ₀]
  rw [hmod₀] at htracks hs₀
  have hlast₀ : σ₀.mod.lastPid π.tier < σ₀.mod.nPids := by
    rw [hs₀.lastPid, hs₀.nPids]
    exact hlast
  obtain ⟨hpid, hswept⟩ := walkTier_swept htracks
  -- setting the quota moves nothing the walk reads, so it stops where `hhalt` says
  have hstop : tierStop π (count maxNFind req) σ₀ = some (s, ys.head?) := by
    rw [← hhalt.stop]
    simp only [tierStop, hk₀, hmm₀, hs₀.taskItems, hs₀.nPids, hs₀.lastPid, hs₀.lastAddr]
  obtain ⟨hitems, hpids, _, _⟩ := walkTier_registry π.quiet π.tier hlast₀
  have hwkernel := walkTier_kernel π.callback π.quiet π.tier σ₀
  have hview := π.walkTier_view π.primaryView_after π.tier σ₀
  have haddr := hswept.addr
  have howner := hswept.owner
  rw [hstop] at hpid haddr howner
  refine ⟨⟨hkernel.trans (hwkernel.trans hk₀), ?_, ?_, ?_, ?_, ?_⟩, ?_⟩
  · rw [hhands.taskItems, hitems, hs₀.taskItems]
  · rw [hhands.nPids, hpids, hs₀.nPids]
  · rw [hmm, hview, hmm₀]
  · rw [hhands.lastPid, hpid]
    rfl
  · rw [hhands.lastAddr, haddr, hs₀.lastAddr]
    rfl
  · rw [hhands.owner, howner, hs₀.owner]
    rfl

/-- The next find starts from that state: no task has gone since. -/
theorem find_next (h : Registered σ) (hmode : memWalkPolicy P mode = some π)
    (hreq : IsFind req mode) (hn : 0 ≤ req.pidN.toInt) (hpos : 0 < σ.refreshed.mod.nPids)
    (hhalt : Halt π (count maxNFind req) σ.refreshed pre s post mm' xs ys) :
    NextWalk π σ.refreshed (processReq P (some req) σ).sys.refreshed s.index
      (haltAddr σ.refreshed π.tier ys) := by
  obtain ⟨hnext, _⟩ := find_halted h hmode hreq hn hpos hhalt
  generalize (processReq P (some req) σ).sys = τ at hnext
  have htasks : τ.mod.tasks = σ.refreshed.mod.tasks := by
    rw [Mod.tasks, Mod.tasks, hnext.taskItems, hnext.nPids]
  have hsettled : SameHands τ.mod τ.refreshed.mod := .refreshed h hnext.kernel htasks
  exact ⟨hnext.kernel, hsettled.taskItems.trans hnext.taskItems, hsettled.nPids.trans hnext.nPids,
    hnext.view, (hsettled.lastPid _).trans hnext.lastPid,
    (hsettled.lastAddr _).trans hnext.lastAddr⟩

/-- **A find that met its quota is followed up correctly exactly when it was
`Resumable`**: the next walk starts with the first page left over, two finds in a row
are disjoint, and the hand's address is one of the hand's process. And in every run
of safe walks the last of these holds in every state. -/
theorem find_resumes_iff (P : Platform) :
    (∀ σ mode π req, Registered σ → memWalkPolicy P mode = some π → IsFind req mode →
      1 ≤ req.pidN.toInt → 0 < σ.refreshed.mod.nPids →
      count maxNFind req ≤ σ.refreshed.visitsPrimary π →
      let r := σ.refreshed
      let n := count maxNFind req
      let σ' := (processReq P (some req) σ).sys
      σ'.mod.examinations = (r.swept π n).map Exam.seen ∧
      (((∀ z, r.firstLeft π n = some z →
            (tierVisits π σ'.refreshed).head?.map Exam.info = some z.info) ∧
          (∀ req', IsFind req' mode → 1 ≤ req'.pidN.toInt →
            n + count maxNFind req' ≤ r.nPrimary π →
            (processReq P (some req) σ).candidates.Disjoint
              (processReq P (some req') σ').candidates) ∧
          σ'.HandOwned π.tier) ↔
        Resumable π n r)) ∧
      (keeping P).Invariant fun σ => ∀ tier, σ.HandOwned tier := by
  refine ⟨?_, keeping_owned P⟩
  intro σ mode π req h hmode hreq hn hpos hmet r n σ'
  have hlast := h.refreshed.lastPid_lt hpos π.tier
  have hn₀ : 0 ≤ req.pidN.toInt := by omega
  have hnpos : 0 < n := by
    have := maxNFind_eq
    simp only [n, count]
    omega
  obtain ⟨pre, s, post, mm', xs, ys, hhalt⟩ := exists_halt hnpos hmet
  obtain ⟨x, hx, _⟩ := hhalt.exists_last
  obtain ⟨hhalted, howner⟩ := find_halted h hmode hreq hn₀ hpos hhalt
  have hnext := find_next h hmode hreq hn₀ hpos hhalt
  have hreg' : Registered σ' := processReq_registered (some req) h
  have hindex := hhalt.index_lt hlast
  -- the walk stopped at a page, so there are pages to go on with
  have hpages : r.pages ≠ [] := by
    intro hnil
    have hvisit : x ∈ r.swept π n ++ r.leftOver π n :=
      List.mem_append_left _ (List.mem_of_getLast? hx)
    rw [Sys.swept, Sys.leftOver, examined_append_unexamined] at hvisit
    obtain ⟨y, hy, _⟩ := mem_tierVisits π h.refreshed hpos hvisit
    rw [hnil] at hy
    simp at hy
  refine ⟨find_examines hmode hreq hn₀ hpos, ?_⟩
  have hresumes := hhalt.resumes_iff h.refreshed.distinct hlast hx
  have howned := hhalt.owned_iff h.refreshed.distinct hlast hx
  rw [Sys.HandOwned, hhalted.lastAddr, howner, hhalted.kernel, hhalted.taskItems, hhalted.lastPid,
    hnext.head?_visits hreg'.refreshed hindex hpages]
  rw [haltAddr] at hresumes ⊢
  rw [howned]
  constructor
  · rintro ⟨hres, _, hown⟩
    rcases hresumes.mp hres with hmoves | hleft
    · exact Or.inl hmoves
    · rcases hown with hmoves | hown
      · exact Or.inl hmoves
      · refine Or.inr fun x' hx' => ?_
        obtain rfl : x = x' := Option.some.inj (hx.symm.trans hx')
        exact ⟨hown, hleft⟩
  · intro hcond
    have hres := hresumes.mpr (hcond.imp_right fun hc => (hc x hx).2)
    refine ⟨hres, fun req' hreq' hn' henough => ?_, hcond.imp_right fun hc => (hc x hx).1⟩
    have hn'pos : 0 < count maxNFind req' := by
      have := maxNFind_eq
      simp only [count]
      omega
    rw [find_plain_candidates hmode h hreq hn₀,
      find_plain_candidates hmode hreg' hreq' (by omega)]
    exact hnext.disjoint h.refreshed hreg'.refreshed hpos hindex hn'pos henough hres

end

end

/-! ## A hand left behind

Two processes with two cold pages each. A find for two pages stops at the last page of
the first process, where no page follows: the hand stays at its start. -/

/-- Both processes are bound. -/
def coldProcesses : Sys :=
  (Sys.fresh [some [.of 4096 1 false false, .of 8192 2 false false],
    some [.of 4096 3 false false, .of 8192 4 false false]]).after smallMachine
      [.of .bind 1 .dram, .of .bind 2 .dram]

theorem find_repeats_pages :
    let req := Req.of .find 2 .dram
    let σ' := (processReq smallMachine (some req) coldProcesses).sys
    (hyb smallMachine).Reachable coldProcesses ∧ IsFind req .dram ∧
      count maxNFind req + count maxNFind req ≤
        coldProcesses.refreshed.nPrimary (memPolicy smallMachine) ∧
      (processReq smallMachine (some req) coldProcesses).candidates = [⟨4096, 1⟩, ⟨8192, 1⟩] ∧
      (processReq smallMachine (some req) σ').candidates = [⟨4096, 1⟩, ⟨8192, 1⟩] :=
  ⟨Sys.fresh_reachable _ _ _, ⟨rfl, rfl⟩, by decide, by decide, by decide⟩

theorem find_resumes_iff_coldProcesses :
    let r := coldProcesses.refreshed
    let σ' := (processReq smallMachine (some (.of .find 1 .dram)) coldProcesses).sys
    σ'.mod.examinations = (r.swept (memPolicy smallMachine) 1).map Exam.seen :=
  ((find_resumes_iff smallMachine).1 coldProcesses .dram (memPolicy smallMachine)
    (.of .find 1 .dram) (registered_invariant _ _ (Sys.fresh_reachable _ _ _)) rfl ⟨rfl, rfl⟩
    (by decide) (by decide) (by decide)).1

end Ambix.Hyb
