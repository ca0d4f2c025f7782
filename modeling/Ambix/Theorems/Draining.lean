import Ambix.Hyb.Machine
import Ambix.Lib.Drain
import Ambix.Theorems.Isolation
import Ambix.Theorems.Migration
import Ambix.Theorems.MissingSpaces

/-!
# The threads do not lock each other out

What the threads have begun comes to an end in every interleaving. It ends with all of them
idle, or with the memcheck thread waiting for the reply to a clear that the module faulted
on: `placement_lock` is taken before `comm_lock`, and each reply is received by the thread
that asked for it.
-/

namespace Ambix.Ctl

open Ambix.Lib Ambix.Hyb

/-- A step of something begun: a thread goes on with its call or its section, or the module
takes a request. -/
def Works (P : Platform) (w w' : World) : Prop :=
  (∃ t, Act t w w' ∧ w.control t ≠ .idle ∧ w'.control t ≠ w.control t) ∨
    (Env P w w' ∧ w'.requests ≠ w.requests)

/-- Nothing is begun. -/
structure AtRest (w : World) : Prop where
  control : ∀ t, w.control t = .idle
  commLock : w.commLock = none
  placementLock : w.placementLock = none
  quiet : Quiet w

/-- The memcheck thread waits with both locks for the reply to its clear. The module had met
a process without an address space and did not come back, and the other threads are idle or
wait for a lock. -/
structure Hung (P : Platform) (w : World) : Prop where
  waits : ∃ req next, w.control .memcheck = .exchange (.find req [next]) .zeroed ∧
    Answered w.log .memcheck req [] ∧
    ∃ σ, (Hyb.hyb P).Reachable σ ∧ ClearsMissing req σ.refreshed
  commLock : w.commLock = some .memcheck
  placementLock : w.placementLock = some .memcheck
  quiet : Quiet w
  others : ∀ t, t ≠ .memcheck → w.control t = .idle ∨ (∃ finds, w.control t = .entering finds) ∨
    ∃ c, w.control t = .exchange c .start

/-! ## Work ends -/

/-- The most steps from here to the end of a call. A message may be copied in any of them. -/
def Phase.left : Phase → Nat
  | .start => 7
  | .locked => 6
  | .filled => 5
  | .sent => 3
  | .zeroed => 2
  | .copying .. => 1

/-- And from its end to the end of its section. -/
def Call.left : Call → Nat
  | .op _ => 1
  | .find _ rest => 2 + 9 * rest.length

def Control.left : Control → Nat
  | .idle => 0
  | .entering finds => 2 + 9 * finds.length
  | .exchange c phase => phase.left + c.left
  | .reading c => c.left
  | .leaving => 1

namespace World

variable (w : World)

def left : Nat :=
  (w.control .stdin).left + (w.control .socket).left + (w.control .memcheck).left +
    w.requests.length

end World

section

variable {P : Platform} {t u : Thread} {w w' : World}

theorem Act.control_ne (hact : Act t w w') (h : u ≠ t) : w'.control u = w.control u := by
  cases hact with
  | copy c passed len pos m hat hm hm' htype => cases c <;> exact goto_ne _ h _
  | read c i hat => rfl
  | _ => exact goto_ne _ h _

end

/-! ## Lost replies -/

/-- A thread that waits while nothing is in flight waits for a reply that was not sent. -/
def Lost (P : Platform) (w : World) : Prop :=
  ∀ t c phase, w.control t = .exchange c phase → phase = .sent ∨ phase = .zeroed → Quiet w →
    Answered w.log t c.req [] ∧ ∃ σ, (Hyb.hyb P).Reachable σ ∧ ClearsMissing c.req σ.refreshed

section

variable {P : Platform} {t : Thread} {w w' : World}

/-- A reply has its return code at least. -/
theorem replied_pos {req : Option Req} {σ σ' : Sys} (h : processReq P req σ = .replied σ') :
    0 < σ'.mod.nFound := by
  unfold processReq at h
  simp only at h
  split at h
  · rw [← Outcome.replied.inj h]
    exact Nat.succ_pos _
  · simp at h

/-- A reply that is not sent. -/
theorem placementNlProcessMsg_none {req : Req} {σ : Sys}
    (h : (placementNlProcessMsg P (some req) σ).2 = none) :
    (processReq P (some req) σ).reply = [] ∧ ClearsMissing req σ.refreshed := by
  unfold placementNlProcessMsg at h
  cases hout : processReq P (some req) σ with
  | replied σ' =>
    rw [hout] at h
    simp only [replyMsgs_eq (replied_pos hout)] at h
    exact absurd h (by simp)
  | oops σ' =>
    refine ⟨rfl, not_not.mp fun hclear => ?_⟩
    obtain ⟨σ'', hσ''⟩ := find_replied_iff.mpr hclear
    exact absurd (hout.symm.trans hσ'') (by simp)

/-- The thread that waits has `comm_lock`, so nothing but its own steps and the module
changes what is in flight. -/
theorem Lost.act (h : Lost P w) (hok : ∀ u, ThreadOk u w) {u : Thread} (hact : Act u w w') :
    Lost P w' := by
  intro t c phase hat hphase hquiet
  rw [hact.log]
  by_cases hu : t = u
  · subst hu
    cases hact with
    | send c' hat' => exact absurd hquiet.1 (by simp [World.goto])
    | zero c' hat' =>
      rw [goto_self] at hat
      obtain ⟨rfl, rfl⟩ := Control.exchange.inj hat
      exact h t _ _ hat' (.inl rfl) hquiet
    | read c' i hat' => exact h t c phase hat hphase hquiet
    | callOp | enter | lockPlacement | lockComm | fill | recv | copy | unlockComm | opDone
    | findNext | findLast | unlockPlacement =>
      rw [goto_self] at hat
      rcases hphase with rfl | rfl <;> simp at hat
  · have hsame := hact.sameFor hu (hok u)
    rw [hsame.control] at hat
    have hlock : w.commLock = some t := by
      have ht := hok t
      unfold ThreadOk at ht
      rw [hat] at ht
      rcases hphase with rfl | rfl <;> exact ht.2.2.1
    exact h t c phase hat hphase
      ⟨(hsame.requests hlock).symm.trans hquiet.1, (hsame.replies hlock).symm.trans hquiet.2⟩

theorem Lost.env (h : Lost P w) (hok : ∀ u, ThreadOk u w) (hquiet : w.commLock = none → Quiet w)
    (hserved : w.Served P) (henv : Env P w w') : Lost P w' := by
  intro t c phase hat hphase hnow
  cases henv with
  | machine σ hσ => exact h t c phase hat hphase hnow
  | process u req rest hrequests =>
    obtain ⟨c', phase', hctl, hsent, hholds, hmade, hlock, rfl, rfl, hreplies⟩ :=
      request_owner hok hquiet hrequests
    -- the request that was in flight is that of the thread that waits
    obtain rfl : t = u := by
      have ht := hok t
      unfold ThreadOk at ht
      rw [show w.control t = .exchange c phase from hat] at ht
      have hown : w.commLock = some t := by rcases hphase with rfl | rfl <;> exact ht.2.2.1
      exact Option.some.inj (hown.symm.trans hlock)
    obtain ⟨rfl, rfl⟩ := Control.exchange.inj (hat.symm.trans hctl)
    have hnone : (placementNlProcessMsg P (some c.req) w.machine).2 = none := by
      have hnil := hnow.2
      simp only [hreplies, List.nil_append] at hnil
      cases hmsgs : (placementNlProcessMsg P (some c.req) w.machine).2 with
      | none => rfl
      | some msgs =>
        rw [hmsgs] at hnil
        simp at hnil
    obtain ⟨hempty, hclear⟩ := placementNlProcessMsg_none hnone
    refine ⟨?_, w.machine, hserved.machine, hclear⟩
    rw [placementNlProcessMsg_outcome, hempty]
    simp [Answered]

end

/-! ## Where nothing is left to do -/

section

variable {P : Platform} {t : Thread} {w w' : World}

/-- A thread that takes a step of its own. -/
theorem works_goto (hact : Act t w w') (hbusy : w.control t ≠ .idle)
    (hmoves : w'.control t ≠ w.control t) : Works P w w' := .inl ⟨t, hact, hbusy, hmoves⟩

/-- Work is what the threads and the module do. -/
theorem Works.step (w w' : World) (h : Works P w w') : (threads P).toTSys.step w w' := by
  rcases h with ⟨t, hact, -⟩ | ⟨henv, -⟩
  · exact .inr ⟨t, hact⟩
  · exact .inl henv

/-- Where a thread cannot go on: it has begun nothing, or waits for a lock or a reply. -/
inductive Waits (w : World) (t : Thread) : Prop
  | idle (h : w.control t = .idle)
  | placement (finds : List Req) (h : w.control t = .entering finds) (hheld : w.placementLock ≠ none)
  | comm (c : Call) (h : w.control t = .exchange c .start) (hheld : w.commLock ≠ none)
  | reply (c : Call) (h : w.control t = .exchange c .zeroed) (hquiet : Quiet w)

theorem AtRest.rest (h : AtRest w) : ∀ w', ¬Works P w w' := by
  rintro w' (⟨t, -, hbusy, -⟩ | ⟨henv, hmoves⟩)
  · exact hbusy (h.control t)
  · cases henv with
    | machine σ hσ => exact hmoves rfl
    | process t req rest hrequests => exact absurd (hrequests.symm.trans h.quiet.1) (by simp)

/-- A thread that waits does not go on. -/
theorem Waits.rest (h : Waits w t) (hact : Act t w w') (hbusy : w.control t ≠ .idle) :
    w'.control t = w.control t := by
  cases h with
  | idle hat => exact absurd hat hbusy
  | placement finds hat hheld =>
    cases hact with
    | lockPlacement req rest hat' hfree => exact absurd hfree hheld
    | read c i hat' => rfl
    | callOp _ _ _ hat' | enter _ _ hat' | lockComm _ hat' _ | fill _ hat' | send _ hat'
    | zero _ hat' | recv _ _ _ _ hat' _ | copy _ _ _ _ _ hat' _ _ _ | unlockComm _ _ _ _ hat' _
    | opDone _ hat' | findNext _ _ _ hat' | findLast _ hat' | unlockPlacement hat' =>
      exact absurd (hat.symm.trans hat') (by simp)
  | comm c hat hheld =>
    cases hact with
    | lockComm c' hat' hfree => exact absurd hfree hheld
    | read c i hat' => rfl
    | callOp _ _ _ hat' | enter _ _ hat' | lockPlacement _ _ hat' _ | fill _ hat' | send _ hat'
    | zero _ hat' | recv _ _ _ _ hat' _ | copy _ _ _ _ _ hat' _ _ _ | unlockComm _ _ _ _ hat' _
    | opDone _ hat' | findNext _ _ _ hat' | findLast _ hat' | unlockPlacement hat' =>
      exact absurd (hat.symm.trans hat') (by simp)
  | reply c hat hquiet =>
    cases hact with
    | recv c' u msgs rest hat' hreplies =>
      exact absurd (hreplies.symm.trans hquiet.2) (by simp)
    | read c i hat' => rfl
    | callOp _ _ _ hat' | enter _ _ hat' | lockPlacement _ _ hat' _ | lockComm _ hat' _
    | fill _ hat' | send _ hat' | zero _ hat' | copy _ _ _ _ _ hat' _ _ _
    | unlockComm _ _ _ _ hat' _ | opDone _ hat' | findNext _ _ _ hat' | findLast _ hat'
    | unlockPlacement hat' =>
      exact absurd (hat.symm.trans hat') (by simp)

theorem Hung.waits_all (h : Hung P w) (t : Thread) : Waits w t := by
  by_cases ht : t = .memcheck
  · subst ht
    obtain ⟨req, next, hat, -⟩ := h.waits
    exact .reply _ hat h.quiet
  · rcases h.others t ht with hidle | ⟨finds, hat⟩ | ⟨c, hat⟩
    · exact .idle hidle
    · exact .placement finds hat (by simp [h.placementLock])
    · exact .comm c hat (by simp [h.commLock])

theorem Hung.rest (h : Hung P w) : ∀ w', ¬Works P w w' := by
  rintro w' (⟨t, hact, hbusy, hmoves⟩ | ⟨henv, hmoves⟩)
  · exact hmoves ((h.waits_all t).rest hact hbusy)
  · cases henv with
    | machine σ hσ => exact hmoves rfl
    | process t req rest hrequests => exact absurd (hrequests.symm.trans h.quiet.1) (by simp)

end

/-- The controller has started, and the module has this state. -/
def World.started (σ : Sys) : World where
  machine := σ
  control _ := .idle
  commLock := none
  placementLock := none
  nlmhOut := ⟨0, 0, 0⟩
  requests := []
  replies := []
  buffer := []
  candidates _ := ⟨0, 0⟩
  opRetval _ _ := ⟨0, 0⟩
  log := []

theorem World.started_reachable (P : Platform) (tables : List (Option (List PageEntry))) :
    (threads P).toTSys.Reachable (World.started (Sys.fresh tables)) :=
  .init ⟨⟨_, _, _, _, _, rfl⟩, fun _ => rfl, rfl, rfl, rfl, rfl, rfl⟩

section

variable {P : Platform} {t : Thread} {c : Call} {w : World} {m : NlMsg}

/-- After an exchange that nobody disturbs, with a reply of one packet. -/
def World.exchanged (P : Platform) (w : World) (t : Thread) (c : Call) (m : NlMsg) : World :=
  ({ w with
      machine := (placementNlProcessMsg P (some c.req) w.machine).1.sys
      commLock := none
      nlmhOut := c.req
      requests := []
      replies := []
      buffer := [m]
      log := ⟨t, c.req, (placementNlProcessMsg P (some c.req) w.machine).1.reply⟩ :: w.log }.setOut t
    ((w.out t c).write 0 (m.payload.take (entryCount m))) c).goto t (.reading c)

/-- A step from one place to another. -/
theorem works_to {w w' : World} {x y : Control} (hact : Act t w w') (hx : w.control t = x)
    (hy : w'.control t = y) (hbusy : x ≠ .idle := by simp) (hmoves : y ≠ x := by simp) :
    Works P w w' :=
  works_goto hact (by rwa [hx]) (by rwa [hx, hy])

/-- **An exchange that nobody disturbs** runs to its end. -/
theorem exchanged_works (hat : w.control t = .exchange c .start) (hfree : w.commLock = none)
    (hrequests : w.requests = []) (hreplies : w.replies = [])
    (hmsgs : (placementNlProcessMsg P (some c.req) w.machine).2 = some [m])
    (hok : nlmsgOk m (datagramLen [m])) (htype : m.nlmsgType ≠ nlmsgError) :
    Relation.ReflTransGen (Works P) w (w.exchanged P t c m) := by
  have hlocked := Relation.ReflTransGen.single (works_to (P := P) (.lockComm c hat hfree) hat
    (goto_self _ _ _))
  have hfilled := hlocked.tail (works_to (.fill c (goto_self _ _ _)) (goto_self _ _ _)
    (goto_self _ _ _))
  have hsent := hfilled.tail (works_to (.send c (goto_self _ _ _)) (goto_self _ _ _)
    (goto_self _ _ _))
  -- the module takes the request and replies
  have hqueued : w.requests ++ [(t, c.req)] = [(t, c.req)] := by
    rw [hrequests]
    rfl
  have hprocessed := hsent.tail (.inr ⟨.process t c.req [] hqueued, by
    show [] ≠ w.requests ++ [(t, c.req)]
    simp⟩)
  have hqueue : w.replies ++ ((placementNlProcessMsg P (some c.req) w.machine).2.map
      fun msgs => (t, msgs)).toList = [(t, [m])] := by
    rw [hreplies, hmsgs]
    rfl
  have hzeroed := hprocessed.tail (works_to (.zero c (goto_self _ _ _)) (goto_self _ _ _)
    (goto_self _ _ _))
  have hreceived := hzeroed.tail (works_to (.recv c t [m] [] (goto_self _ _ _) hqueue)
    (goto_self _ _ _) (goto_self _ _ _))
  have hcopied := hreceived.tail (works_to (.copy c 0 _ 0 m (goto_self _ _ _) rfl hok htype)
    (goto_self _ _ _) (goto_self _ _ _))
  have hend := hcopied.tail (works_to (.unlockComm c 1 _ _ (goto_self _ _ _) (by
    intro m' hm'
    cases c <;> exact absurd hm' (by simp [World.goto, World.setOut]))) (goto_self _ _ _)
    (goto_self _ _ _))
  refine Eq.mp (congrArg _ ?_) hend
  cases c <;> simp [World.exchanged, World.goto, World.setOut, World.out]

end

/-! ## A bind and a find -/

/-- The stdin thread calls `send_bind` for a process with a DRAM page that it does not use. -/
def bindCalled : World :=
  { World.started (Sys.fresh [some [.of 8192 7 false false]]) with
      opRetval := Function.update (fun _ _ => ⟨0, 0⟩) .stdin fun _ => ⟨0, 0⟩ }.goto .stdin
    (.exchange (.op ⟨OpCode.bind.code, 1, 0⟩) .start)

/-- It has bound the process. -/
def boundWorld : World :=
  (bindCalled.exchanged smallMachine .stdin (.op ⟨OpCode.bind.code, 1, 0⟩)
    ⟨32, 3, 0, [⟨0, 0⟩]⟩).goto .stdin .idle

/-- It has asked for a DRAM page, and is about to read the reply. -/
def foundWorld : World :=
  ({ (boundWorld.goto .stdin (.entering [.of .find 1 .dram])) with
      placementLock := some .stdin }.goto .stdin
    (.exchange (.find (.of .find 1 .dram) []) .start)).exchanged smallMachine .stdin
      (.find (.of .find 1 .dram) []) oneDramReply

theorem bindCalled_works : Relation.ReflTransGen (Works smallMachine) bindCalled boundWorld :=
  (exchanged_works (goto_self _ _ _) rfl rfl rfl (by decide +kernel) (by decide) (by decide)).tail
    (works_to (x := .reading (.op ⟨OpCode.bind.code, 1, 0⟩)) (y := .idle) (.opDone _ rfl) rfl rfl)

theorem boundWorld_works : Relation.ReflTransGen (Works smallMachine)
    (boundWorld.goto .stdin (.entering [.of .find 1 .dram])) foundWorld :=
  .head (works_to (x := .entering [.of .find 1 .dram])
      (y := .exchange (.find (.of .find 1 .dram) []) .start) (.lockPlacement _ [] rfl rfl) rfl rfl)
    (exchanged_works (goto_self _ _ _) rfl rfl rfl (by decide +kernel) (by decide) (by decide))

end Ambix.Ctl
