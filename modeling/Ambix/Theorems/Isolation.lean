import Ambix.Logic.Exclusion

/-!
# Placement decisions stay apart

What a thread reads while it migrates or looks at `op_retval` is the module's reply to its
own last request. Between the clear of a memcheck iteration and the find that follows, the
module sees no find of another thread: `placement_lock` is not released in between.
-/

namespace Ambix.Ctl

open Ambix.Lib Ambix.Hyb

/-- The array starts with the module's reply to the last request of `t`, which was `req`.
No request or reply of `t` is still in flight. -/
structure Answers (w : World) (t : Thread) (req : Req) (a : Arr AddrInfo) : Prop where
  requests : ∀ q ∈ w.requests, q.1 ≠ t
  replies : ∀ q ∈ w.replies, q.1 ≠ t
  reply : ∃ reply, Answered w.log t req reply ∧ a.slice 0 reply.length = reply

def Entry.Finds (e : Entry) : Prop := OpCode.ofCode e.req.opCode = some .find

/-- An `NVRAM_CLEAR` of the memcheck thread. -/
structure Entry.Clears (e : Entry) : Prop where
  thread : e.thread = .memcheck
  req : IsFind e.req .nvramClear

/-- The find that a memcheck iteration makes after its clear. -/
def FollowsClear (req : Req) : Prop := IsFind req .switch ∨ IsFind req .nvramIntensive

/-- From each clear of the memcheck thread to its next find, which is a `SWITCH` or
`NVRAM_INTENSIVE` find, no find reaches the module. -/
def Unbroken (log : List Entry) : Prop :=
  ∀ later e between c earlier, log = later ++ e :: (between ++ c :: earlier) →
    c.Clears → e.thread = .memcheck → e.Finds →
    (∀ x ∈ between, x.thread = .memcheck → ¬x.Finds) →
      FollowsClear e.req ∧ ∀ x ∈ between, ¬x.Finds

/-! ## The sections of the memcheck thread -/

theorem isFind_inj {req : Req} {mode mode' : FindMode} (h : IsFind req mode)
    (h' : IsFind req mode') : mode = mode' := Option.some.inj (h.mode.symm.trans h'.mode)

theorem FollowsClear.not_clear {req : Req} (h : FollowsClear req) : ¬IsFind req .nvramClear := by
  intro hc
  rcases h with h | h
  · exact absurd (isFind_inj hc h) (by decide)
  · exact absurd (isFind_inj hc h) (by decide)

theorem FollowsClear.finds {req : Req} (h : FollowsClear req) :
    OpCode.ofCode req.opCode = some .find := by
  rcases h with h | h <;> exact h.op

/-- A clear is the first find of its section, with one more to come. -/
theorem section_clear {t : Thread} {done rest : List Req} {req : Req}
    (h : Section t (done ++ req :: rest)) (hclear : IsFind req .nvramClear) :
    ∃ next, rest = [next] ∧ FollowsClear next := by
  generalize hfinds : done ++ req :: rest = finds at h
  -- a section of one find that is not a clear
  have hone {n : Int32} {mode : FindMode} (hne : mode ≠ .nvramClear)
      (heq : finds = [.of .find n mode]) : ∃ next, rest = [next] ∧ FollowsClear next := by
    have hmem : req ∈ finds := hfinds ▸ List.mem_append_right _ List.mem_cons_self
    rw [heq, List.mem_singleton] at hmem
    exact absurd (isFind_inj (hmem ▸ isFind_of n mode) hclear) hne
  have htwo {n : Int32} {next : Req} (hnext : FollowsClear next)
      (heq : finds = [.of .find n .nvramClear, next]) :
      ∃ next, rest = [next] ∧ FollowsClear next := by
    rw [heq] at hfinds
    cases done with
    | nil => exact ⟨next, (List.cons.inj hfinds).2, hnext⟩
    | cons first done =>
      have hrest := (List.cons.inj hfinds).2
      have hmem : req ∈ [next] := hrest ▸ List.mem_append_right _ List.mem_cons_self
      exact absurd (List.mem_singleton.mp hmem ▸ hclear) hnext.not_clear
  cases h with
  | send n mode hmode => exact hone (by rcases hmode with rfl | rfl | rfl <;> decide) rfl
  | switch n => exact hone (by decide) rfl
  | clearSwitch => exact htwo (.inl (isFind_of _ _)) rfl
  | clearIntensive n => exact htwo (.inr (isFind_of _ _)) rfl
  | threshold n mode hmode => exact hone (by rcases hmode with rfl | rfl <;> decide) rfl

/-! ## Between the clear and the find -/

/-- The clear `req` of the memcheck thread reached the module, and the find that follows
it did not yet. -/
inductive MidSection (w : World) (req : Req) : Prop
  /-- The thread waits for the reply, or copies it. -/
  | clearing (next : Req) (h : FollowsClear next) (phase : Phase)
      (hat : w.control .memcheck = .exchange (.find req [next]) phase)
      (hphase : phase ≠ .start ∧ phase ≠ .locked ∧ phase ≠ .filled) (hdone : w.requests = [])
  | slept (next : Req) (h : FollowsClear next)
      (hat : w.control .memcheck = .reading (.find req [next]))
  /-- The thread sends the find. -/
  | following (next : Req) (h : FollowsClear next) (phase : Phase)
      (hat : w.control .memcheck = .exchange (.find next []) phase)
      (hphase : ∀ passed len pos, phase ≠ .copying passed len pos)

/-- While the latest find of the memcheck thread is a clear, no find has come after it. -/
def Pending (w : World) : Prop :=
  ∀ between c earlier, w.log = between ++ c :: earlier → c.Clears →
    (∀ x ∈ between, x.thread = .memcheck → ¬x.Finds) →
      (∀ x ∈ between, ¬x.Finds) ∧ MidSection w c.req

section

variable {P : Platform} {w w' : World} {req : Req} {t : Thread}

/-- `placement_lock` is held all the way. -/
theorem MidSection.holds (h : MidSection w req) (hok : ThreadOk .memcheck w) :
    w.placementLock = some .memcheck := by
  unfold ThreadOk at hok
  cases h with
  | clearing next h phase hat =>
    rw [hat] at hok
    exact hok.1.mpr rfl
  | slept next h hat =>
    rw [hat] at hok
    exact hok.1.mpr rfl
  | following next h phase hat =>
    rw [hat] at hok
    exact hok.1.mpr rfl

theorem MidSection.frame (h : MidSection w req) (hok : ThreadOk .memcheck w)
    (hsame : SameFor .memcheck w w') : MidSection w' req := by
  unfold ThreadOk at hok
  cases h with
  | clearing next h phase hat hphase hdone =>
    rw [hat] at hok
    have hlock : w.commLock = some .memcheck := by
      cases phase with
      | start => exact absurd rfl hphase.1
      | locked => exact hok.2.2.1
      | filled => exact hok.2.2.1
      | sent => exact hok.2.2.1
      | zeroed => exact hok.2.2.1
      | copying => exact hok.2.2.1
    exact .clearing next h phase (hsame.control.trans hat) hphase
      ((hsame.requests hlock).trans hdone)
  | slept next h hat => exact .slept next h (hsame.control.trans hat)
  | following next h phase hat hphase =>
    exact .following next h phase (hsame.control.trans hat) hphase

/-- The thread goes on through its section. The find that follows has not been answered,
so it cannot have been received. -/
theorem MidSection.step (h : MidSection w req) (hok : ThreadOk .memcheck w)
    (hfresh : ∀ next reply, FollowsClear next → ¬Answered w.log .memcheck next reply)
    (hact : Act .memcheck w w') : MidSection w' req := by
  unfold ThreadOk at hok
  cases h with
  -- the clear is sent: the thread receives its reply and unlocks
  | clearing next h phase hat hphase hdone =>
    cases hact with
    | callOp _ _ _ hat' | enter _ _ hat' | lockPlacement _ _ hat' _ | read _ _ hat'
    | opDone _ hat' | findNext _ _ _ hat' | findLast _ hat' | unlockPlacement hat' =>
      exact absurd (hat.symm.trans hat') (by simp)
    | lockComm c hat' _ =>
      obtain ⟨-, rfl⟩ := Control.exchange.inj (hat.symm.trans hat')
      exact absurd rfl hphase.1
    | fill c hat' =>
      obtain ⟨-, rfl⟩ := Control.exchange.inj (hat.symm.trans hat')
      exact absurd rfl hphase.2.1
    | send c hat' =>
      obtain ⟨-, rfl⟩ := Control.exchange.inj (hat.symm.trans hat')
      exact absurd rfl hphase.2.2
    | zero c hat' =>
      obtain ⟨rfl, rfl⟩ := Control.exchange.inj (hat.symm.trans hat')
      exact .clearing next h _ (goto_self _ _ _) (by simp) hdone
    | recv c u msgs rest hat' hreplies =>
      obtain ⟨rfl, rfl⟩ := Control.exchange.inj (hat.symm.trans hat')
      exact .clearing next h _ (goto_self _ _ _) (by simp) hdone
    | copy c passed len pos m hat' hm hm' htype =>
      obtain ⟨rfl, rfl⟩ := Control.exchange.inj (hat.symm.trans hat')
      exact .clearing next h _ (goto_self _ _ _) (by simp) hdone
    | unlockComm c passed len pos hat' hend =>
      obtain ⟨rfl, rfl⟩ := Control.exchange.inj (hat.symm.trans hat')
      exact .slept next h (goto_self _ _ _)
  | slept next h hat =>
    cases hact with
    | callOp _ _ _ hat' | enter _ _ hat' | lockPlacement _ _ hat' _ | lockComm _ hat' _
    | fill _ hat' | send _ hat' | zero _ hat' | recv _ _ _ _ hat' _
    | copy _ _ _ _ _ hat' _ _ _ | unlockComm _ _ _ _ hat' _ | opDone _ hat'
    | findLast _ hat' | unlockPlacement hat' =>
      exact absurd (hat.symm.trans hat') (by simp)
    | read c i hat' => exact .slept next h hat
    | findNext r n rest hat' =>
      obtain ⟨-, hrest⟩ := Call.find.inj (Control.reading.inj (hat.symm.trans hat'))
      obtain ⟨rfl, rfl⟩ := List.cons.inj hrest
      exact .following next h _ (goto_self _ _ _) (by simp)
  | following next h phase hat hphase =>
    cases hact with
    | callOp _ _ _ hat' | enter _ _ hat' | lockPlacement _ _ hat' _ | read _ _ hat'
    | opDone _ hat' | findNext _ _ _ hat' | findLast _ hat' | unlockPlacement hat' =>
      exact absurd (hat.symm.trans hat') (by simp)
    | lockComm c hat' _ =>
      obtain ⟨rfl, -⟩ := Control.exchange.inj (hat.symm.trans hat')
      exact .following next h _ (goto_self _ _ _) (by simp)
    | fill c hat' =>
      obtain ⟨rfl, -⟩ := Control.exchange.inj (hat.symm.trans hat')
      exact .following next h _ (goto_self _ _ _) (by simp)
    | send c hat' =>
      obtain ⟨rfl, -⟩ := Control.exchange.inj (hat.symm.trans hat')
      exact .following next h _ (goto_self _ _ _) (by simp)
    | zero c hat' =>
      obtain ⟨rfl, -⟩ := Control.exchange.inj (hat.symm.trans hat')
      exact .following next h _ (goto_self _ _ _) (by simp)
    | recv c u msgs rest hat' hreplies =>
      -- a reply to receive would answer the find
      obtain ⟨rfl, rfl⟩ := Control.exchange.inj (hat.symm.trans hat')
      rw [hat] at hok
      obtain ⟨-, hnil⟩ | ⟨-, hnil | ⟨msgs', -, hcarried⟩⟩ := hok.2.2.2
      · exact absurd (hreplies.symm.trans hnil) (by simp)
      · exact absurd (hreplies.symm.trans hnil) (by simp)
      · exact absurd hcarried.answered (hfresh next _ h)
    | copy c passed len pos m hat' hm hm' htype =>
      obtain ⟨-, rfl⟩ := Control.exchange.inj (hat.symm.trans hat')
      exact absurd rfl (hphase _ _ _)
    | unlockComm c passed len pos hat' hend =>
      obtain ⟨-, rfl⟩ := Control.exchange.inj (hat.symm.trans hat')
      exact absurd rfl (hphase _ _ _)

/-! ## The log -/

theorem Act.log (hact : Act t w w') : w'.log = w.log := by
  cases hact with
  | copy c passed len pos m hat hm hm' htype => cases c <;> rfl
  | _ => rfl

/-- While its clear is pending, the last request of the memcheck thread was the clear. -/
theorem not_answered {between earlier : List Entry} {c : Entry} {next : Req}
    {reply : List AddrInfo} (hlog : w.log = between ++ c :: earlier) (hclear : c.Clears)
    (hnone : ∀ x ∈ between, x.thread = .memcheck → ¬x.Finds) (hnext : FollowsClear next) :
    ¬Answered w.log .memcheck next reply := by
  intro hanswered
  unfold Answered at hanswered
  rw [hlog, List.find?_append] at hanswered
  cases hfirst : between.find? (fun e => e.thread = .memcheck) with
  | some x =>
    rw [hfirst, Option.some_or] at hanswered
    have hx := List.find?_some hfirst
    refine hnone x (List.mem_of_find?_eq_some hfirst) (of_decide_eq_true hx) ?_
    rw [Option.some.inj hanswered]
    exact hnext.finds
  | none =>
    rw [hfirst, Option.none_or, List.find?_cons_of_pos (by simp [hclear.thread])] at hanswered
    have hreq : c.req = next := by rw [Option.some.inj hanswered]
    exact hnext.not_clear (hreq ▸ hclear.req)

theorem Pending.act (h : Pending w) (hok : ∀ u, ThreadOk u w) (hact : Act t w w') :
    Pending w' := by
  intro between c earlier hlog hclear hnone
  rw [hact.log] at hlog
  obtain ⟨hbetween, hmid⟩ := h between c earlier hlog hclear hnone
  refine ⟨hbetween, ?_⟩
  by_cases ht : t = .memcheck
  · subst ht
    exact hmid.step (hok _) (fun _ _ hnext => not_answered hlog hclear hnone hnext) hact
  · exact hmid.frame (hok _) (hact.sameFor (Ne.symm ht) (hok t))

/-- A find in flight belongs to the thread that holds `placement_lock`. -/
theorem finds_owner {c : Call} (hholds : HoldsFor w t c) (hmade : c.Made t)
    (hfind : OpCode.ofCode c.req.opCode = some .find) : w.placementLock = some t := by
  cases c with
  | op req =>
    -- the operations have codes of their own
    have hop : OpCode.ofCode req.opCode ≠ some .find := by
      cases hmade <;> simp
    exact absurd hfind hop
  | find req rest => exact hholds.mpr rfl

theorem Pending.env (h : Pending w) (hok : ∀ u, ThreadOk u w)
    (hquiet : w.commLock = none → Quiet w) (henv : Env P w w') : Pending w' := by
  cases henv with
  | machine σ hσ =>
    intro between c earlier hlog hclear hnone
    obtain ⟨hbetween, hmid⟩ := h between c earlier hlog hclear hnone
    have hsame : SameFor .memcheck w { w with machine := σ } := ⟨rfl, Iff.rfl, Iff.rfl,
      fun _ => rfl, fun _ => rfl, fun _ => rfl, fun _ => rfl, fun _ => rfl, rfl, rfl⟩
    exact ⟨hbetween, hmid.frame (hok _) hsame⟩
  | process t req rest hrequests =>
    obtain ⟨call, phase, hctl, hsent, hholds, hmade, hlock, rfl, rfl, hreplies⟩ :=
      request_owner hok hquiet hrequests
    intro between c earlier hlog hclear hnone
    cases between with
    | nil =>
      -- the clear itself
      obtain ⟨hc, -⟩ := List.cons.inj hlog
      subst hc
      obtain ⟨rfl, hreq⟩ := hclear
      cases call with
      | op req =>
        cases hmade with
        | bind _ _ hne => exact absurd rfl hne
        | unbind _ _ hne => exact absurd rfl hne
      | find req finds =>
        obtain ⟨done, hsection⟩ := hmade
        obtain ⟨next, rfl, hnext⟩ := section_clear hsection hreq
        refine ⟨fun x hx => absurd hx (by simp), .clearing next hnext phase hctl ?_ rfl⟩
        rcases hsent with rfl | rfl <;> simp
    | cons n between =>
      obtain ⟨hn, hrest⟩ := List.cons.inj hlog
      obtain ⟨hbetween, hmid⟩ := h between c earlier hrest hclear
        fun x hx => hnone x (List.mem_cons_of_mem _ hx)
      constructor
      · intro x hx
        rcases List.mem_cons.mp hx with rfl | hx
        · intro hfind
          apply hnone x List.mem_cons_self ?_ hfind
          rw [← hn] at hfind ⊢
          exact Option.some.inj ((finds_owner hholds hmade hfind).symm.trans (hmid.holds (hok _)))
        · exact hbetween x hx
      · cases hmid with
        | clearing next hnext phase hat hphase hdone => simp [hdone] at hrequests
        | slept next hnext hat => exact .slept next hnext hat
        | following next hnext phase hat hphase => exact .following next hnext phase hat hphase

theorem Unbroken.env (h : Unbroken w.log) (hpending : Pending w) (hok : ∀ u, ThreadOk u w)
    (hquiet : w.commLock = none → Quiet w) (henv : Env P w w') : Unbroken w'.log := by
  cases henv with
  | machine σ hσ => exact h
  | process t req rest hrequests =>
    obtain ⟨call, phase, hctl, hsent, hholds, hmade, hlock, rfl, rfl, hreplies⟩ :=
      request_owner hok hquiet hrequests
    intro later e between c earlier hlog hclear he hfind hnone
    cases later with
    | cons n later => exact h later e between c earlier (List.cons.inj hlog).2 hclear he hfind hnone
    | nil =>
      obtain ⟨hn, hrest⟩ := List.cons.inj hlog
      obtain ⟨hbetween, hmid⟩ := hpending between c earlier hrest hclear hnone
      refine ⟨?_, hbetween⟩
      subst hn
      obtain rfl : t = .memcheck := he
      cases hmid with
      | clearing next hnext phase hat hphase hdone => simp [hdone] at hrequests
      | slept next hnext hat => exact absurd (hctl.symm.trans hat) (by simp)
      | following next hnext phase hat hphase =>
        obtain ⟨rfl, -⟩ := Control.exchange.inj (hctl.symm.trans hat)
        exact hnext

/-! ## All interleavings -/

/-- What the threads share. -/
structure Shared (w : World) : Prop where
  quiet : w.commLock = none → Quiet w
  pending : Pending w
  unbroken : Unbroken w.log

theorem threads_outline (P : Platform) : (threads P).Outline ThreadOk Shared where
  init := by
    rintro w ⟨-, hidle, hcomm, hplacement, hrequests, hreplies, hlog⟩
    refine ⟨fun t => ?_, fun _ => ⟨hrequests, hreplies⟩, ?_, ?_⟩
    · unfold ThreadOk
      rw [hidle]
      exact ⟨by simp [hcomm], by simp [hplacement]⟩
    · intro between c earlier h
      simp [hlog] at h
    · intro later e between c earlier h
      simp [hlog] at h
  env w w' hok h henv :=
    ⟨henv.threadOk hok h.quiet, henv.quiet hok h.quiet, h.pending.env hok h.quiet henv,
      h.unbroken.env h.pending hok h.quiet henv⟩
  own t w w' hok h hact := hact.own (hok t) h.quiet
  others t u w w' hu hok h hact := (hok u).frame (hact.sameFor hu (hok t))
  shared t w w' hok h hact :=
    ⟨hact.quiet (hok t) h.quiet, h.pending.act hok hact, by rw [hact.log]; exact h.unbroken⟩

/-- A thread that reads has received its own reply. -/
theorem reading_answers (hok : ∀ u, ThreadOk u w) (h : Shared w) {c : Call}
    (hat : w.control t = .reading c) : Answers w t c.req (w.out t c) := by
  have ht := hok t
  unfold ThreadOk at ht
  rw [hat] at ht
  obtain ⟨-, -, hcomm, hreply⟩ := ht
  obtain ⟨hrequests, hreplies⟩ := tags_owner hok h.quiet
  refine ⟨fun q hq heq => hcomm ?_, fun q hq heq => hcomm ?_, hreply⟩
  · rw [← heq]
    exact hrequests q hq
  · rw [← heq]
    exact hreplies q hq

/-- **Isolation**: in every interleaving, what a thread reads after a `send_find` or an
operation is the reply to its own request, and the find of a memcheck iteration is the
first one that the module sees after its clear. -/
theorem placements_isolated (P : Platform) :
    (threads P).toTSys.Invariant fun w =>
      (∀ t req rest, w.control t = .reading (.find req rest) → Answers w t req w.candidates) ∧
      (∀ t req, w.control t = .reading (.op req) → Answers w t req (w.opRetval t)) ∧
      Unbroken w.log := by
  intro w hreach
  obtain ⟨hok, h⟩ := (threads_outline P).invariant w hreach
  exact ⟨fun t req rest hat => reading_answers hok h hat,
    fun t req hat => reading_answers hok h hat, h.unbroken⟩

end

/-! ## What the module did for the threads

Between the threads the module runs as it does alone, so every entry of the log is the
reply of a reachable module to that request. -/

/-- The module was in a state that it can reach, and this is its reply. -/
def Entry.Served (P : Platform) (e : Entry) : Prop :=
  ∃ σ, (Hyb.hyb P).Reachable σ ∧ e.reply = (processReq P (some e.req) σ).reply

/-- The module and its log so far. -/
structure World.Served (P : Platform) (w : World) : Prop where
  machine : (Hyb.hyb P).Reachable w.machine
  log : ∀ e ∈ w.log, e.Served P

section

variable {P : Platform} {t : Thread} {w w' : World}

/-- What the handler makes of a request is what `process_req` makes of it. -/
theorem placementNlProcessMsg_outcome (req : Option Req) (σ : Sys) :
    (placementNlProcessMsg P req σ).1 = processReq P req σ := by
  unfold placementNlProcessMsg
  cases processReq P req σ <;> rfl

theorem Act.machine (hact : Act t w w') : w'.machine = w.machine := by
  cases hact with
  | copy c passed len pos m hat hm hm' htype => cases c <;> rfl
  | _ => rfl

theorem served_invariant (P : Platform) : (threads P).toTSys.Invariant (World.Served P) := by
  apply TSys.Inductive.invariant
  constructor
  · rintro w ⟨hloaded, -, -, -, -, -, hlog⟩
    refine ⟨.init hloaded, ?_⟩
    rw [hlog]
    exact fun e he => absurd he (by simp)
  · rintro w w' h (henv | ⟨t, hact⟩)
    · cases henv with
      | machine σ hσ => exact ⟨.step h.machine (.inl hσ), h.log⟩
      | process t req rest hrequests =>
        simp only [placementNlProcessMsg_outcome]
        refine ⟨.step h.machine (.inr ⟨some req, rfl⟩), ?_⟩
        intro e he
        rcases List.mem_cons.mp he with rfl | he
        · exact ⟨w.machine, h.machine, rfl⟩
        · exact h.log e he
    · exact ⟨hact.machine ▸ h.machine, fun e he => h.log e (hact.log ▸ he)⟩

end

end Ambix.Ctl
