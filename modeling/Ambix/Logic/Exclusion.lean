import Ambix.Ctl.Threads
import Ambix.Logic.Find
import Ambix.Logic.Wire

/-!
# What each thread can rely on

The outline of the threads. A thread that is in `send_req` between its lock and its
unlock owns the socket, the request buffer and the receive buffer; from `lock` to `unlock`
of `placement_lock` it owns `candidates`. `ThreadOk` says where the thread's request and
its reply are meanwhile. It reads only what the thread owns (`ThreadOk.frame`), so the
steps of the others leave it alone.
-/

namespace Ambix.Ctl

open Ambix.Lib Ambix.Hyb

/-- The last request of `t` that reached the module was `req`, and this is the reply. -/
def Answered (log : List Entry) (t : Thread) (req : Req) (reply : List AddrInfo) : Prop :=
  log.find? (fun e => e.thread = t) = some ⟨t, req, reply⟩

/-- The messages carry the module's reply to the last request of `t`, which was `req`. -/
structure Carried (log : List Entry) (t : Thread) (req : Req) (msgs : List NlMsg) : Prop where
  sized : ∀ m ∈ msgs, m.Sized
  answered : Answered log t req (msgs.flatMap NlMsg.payload)

/-- Nothing is in flight. -/
def Quiet (w : World) : Prop := w.requests = [] ∧ w.replies = []

/-- The only thing in flight is `req` of `t`, or its reply; after an oops there is none. -/
def Outstanding (w : World) (t : Thread) (req : Req) : Prop :=
  (w.requests = [(t, req)] ∧ w.replies = []) ∨
    (w.requests = [] ∧ (w.replies = [] ∨
      ∃ msgs, w.replies = [(t, msgs)] ∧ Carried w.log t req msgs))

/-- The loop of `send_req` has copied the entries of the messages before `passed`. -/
structure Copied (w : World) (t : Thread) (c : Call) (passed : Nat) (len : Int) (pos : Nat) :
    Prop where
  carried : Carried w.log t c.req w.buffer
  bytes : len = datagramLen (w.buffer.drop passed)
  entries : pos = ((w.buffer.take passed).flatMap NlMsg.payload).length
  out : (w.out t c).slice 0 pos = (w.buffer.take passed).flatMap NlMsg.payload

/-- What holds of a thread in `send_req`. -/
def PhaseOk (w : World) (t : Thread) (c : Call) : Phase → Prop
  | .start => w.commLock ≠ some t
  | .locked => w.commLock = some t ∧ Quiet w
  | .filled => w.commLock = some t ∧ Quiet w ∧ w.nlmhOut = c.req
  | .sent | .zeroed => w.commLock = some t ∧ Outstanding w t c.req
  | .copying passed len pos => w.commLock = some t ∧ Quiet w ∧ Copied w t c passed len pos

/-- A call that the thread makes: an operation, or a find of one of its sections. -/
def Call.Made (t : Thread) : Call → Prop
  | .op req => Op t req
  | .find req rest => ∃ done, Section t (done ++ req :: rest)

/-- The thread holds `placement_lock` if its call is a find. -/
def HoldsFor (w : World) (t : Thread) (c : Call) : Prop :=
  w.placementLock = some t ↔ c.isFind = true

/-- What the thread received is the reply to its request. -/
def HasReply (w : World) (t : Thread) (c : Call) : Prop :=
  ∃ reply, Answered w.log t c.req reply ∧ (w.out t c).slice 0 reply.length = reply

/-- What a thread at a point of its program can rely on. -/
def ControlOk (w : World) (t : Thread) : Control → Prop
  | .idle => w.commLock ≠ some t ∧ w.placementLock ≠ some t
  | .entering finds => w.commLock ≠ some t ∧ w.placementLock ≠ some t ∧ Section t finds
  | .exchange c phase => HoldsFor w t c ∧ c.Made t ∧ PhaseOk w t c phase
  | .reading c => HoldsFor w t c ∧ c.Made t ∧ w.commLock ≠ some t ∧ HasReply w t c
  | .leaving => w.placementLock = some t ∧ w.commLock ≠ some t

/-- The assertion of a thread. -/
def ThreadOk (t : Thread) (w : World) : Prop := ControlOk w t (w.control t)

/-! ## What a thread's assertion reads -/

/-- Nothing that `u` relies on differs. -/
structure SameFor (u : Thread) (w w' : World) : Prop where
  control : w'.control u = w.control u
  comm : w'.commLock = some u ↔ w.commLock = some u
  placement : w'.placementLock = some u ↔ w.placementLock = some u
  requests : w.commLock = some u → w'.requests = w.requests
  replies : w.commLock = some u → w'.replies = w.replies
  nlmhOut : w.commLock = some u → w'.nlmhOut = w.nlmhOut
  buffer : w.commLock = some u → w'.buffer = w.buffer
  candidates : w.placementLock = some u → w'.candidates = w.candidates
  opRetval : w'.opRetval u = w.opRetval u
  log : w'.log.find? (fun e => e.thread = u) = w.log.find? (fun e => e.thread = u)

section

variable {u : Thread} {w w' : World} {c : Call} {req : Req}

theorem SameFor.answered (h : SameFor u w w') {reply : List AddrInfo}
    (ha : Answered w.log u req reply) : Answered w'.log u req reply := h.log.trans ha

theorem SameFor.carried (h : SameFor u w w') {msgs : List NlMsg}
    (hc : Carried w.log u req msgs) : Carried w'.log u req msgs :=
  ⟨hc.sized, h.answered hc.answered⟩

theorem SameFor.quiet (h : SameFor u w w') (hlock : w.commLock = some u) (hq : Quiet w) :
    Quiet w' := ⟨(h.requests hlock).trans hq.1, (h.replies hlock).trans hq.2⟩

theorem SameFor.outstanding (h : SameFor u w w') (hlock : w.commLock = some u)
    (ho : Outstanding w u req) : Outstanding w' u req := by
  unfold Outstanding
  rw [h.requests hlock, h.replies hlock]
  rcases ho with ho | ⟨hnone, hreplies⟩
  · exact .inl ho
  · refine .inr ⟨hnone, hreplies.imp_right ?_⟩
    rintro ⟨msgs, hmsgs, hc⟩
    exact ⟨msgs, hmsgs, h.carried hc⟩

/-- The array of a find is `candidates`, which `placement_lock` protects. -/
theorem SameFor.out (h : SameFor u w w') (hholds : HoldsFor w u c) : w'.out u c = w.out u c := by
  cases c with
  | op => exact h.opRetval
  | find => exact h.candidates (hholds.mpr rfl)

theorem SameFor.copied (h : SameFor u w w') (hlock : w.commLock = some u)
    (hholds : HoldsFor w u c) {passed pos : Nat} {len : Int}
    (hc : Copied w u c passed len pos) : Copied w' u c passed len pos := by
  have hbuffer := h.buffer hlock
  constructor
  · rw [hbuffer]
    exact h.carried hc.carried
  · rw [hbuffer]
    exact hc.bytes
  · rw [hbuffer]
    exact hc.entries
  · rw [hbuffer, h.out hholds]
    exact hc.out

theorem SameFor.phaseOk (h : SameFor u w w') (hholds : HoldsFor w u c) {phase : Phase}
    (hphase : PhaseOk w u c phase) : PhaseOk w' u c phase := by
  cases phase with
  | start => exact fun hc => hphase (h.comm.mp hc)
  | locked => exact ⟨h.comm.mpr hphase.1, h.quiet hphase.1 hphase.2⟩
  | filled =>
    obtain ⟨hlock, hquiet, hout⟩ := hphase
    exact ⟨h.comm.mpr hlock, h.quiet hlock hquiet, (h.nlmhOut hlock).trans hout⟩
  | sent => exact ⟨h.comm.mpr hphase.1, h.outstanding hphase.1 hphase.2⟩
  | zeroed => exact ⟨h.comm.mpr hphase.1, h.outstanding hphase.1 hphase.2⟩
  | copying =>
    obtain ⟨hlock, hquiet, hcopied⟩ := hphase
    exact ⟨h.comm.mpr hlock, h.quiet hlock hquiet, h.copied hlock hholds hcopied⟩

/-- **Noninterference**: an assertion survives what leaves the thread's own data alone. -/
theorem ThreadOk.frame (h : SameFor u w w') (hok : ThreadOk u w) : ThreadOk u w' := by
  have hfree : w.commLock ≠ some u → w'.commLock ≠ some u := fun hne hc => hne (h.comm.mp hc)
  have hout : w.placementLock ≠ some u → w'.placementLock ≠ some u :=
    fun hne hc => hne (h.placement.mp hc)
  unfold ThreadOk at hok ⊢
  rw [h.control]
  cases hctl : w.control u with
  | idle =>
    rw [hctl] at hok
    exact ⟨hfree hok.1, hout hok.2⟩
  | entering =>
    rw [hctl] at hok
    exact ⟨hfree hok.1, hout hok.2.1, hok.2.2⟩
  | exchange c phase =>
    rw [hctl] at hok
    exact ⟨h.placement.trans hok.1, hok.2.1, h.phaseOk hok.1 hok.2.2⟩
  | reading c =>
    rw [hctl] at hok
    obtain ⟨hholds, hmade, hcomm, reply, hanswered, hslice⟩ := hok
    refine ⟨h.placement.trans hholds, hmade, hfree hcomm, reply, h.answered hanswered, ?_⟩
    rw [h.out hholds]
    exact hslice
  | leaving =>
    rw [hctl] at hok
    exact ⟨h.placement.mpr hok.1, hfree hok.2⟩

end

/-! ## The steps of the others -/

theorem goto_self (w : World) (t : Thread) (c : Control) : (w.goto t c).control t = c := by
  simp [World.goto]

theorem goto_ne (w : World) {t u : Thread} (h : u ≠ t) (c : Control) :
    (w.goto t c).control u = w.control u := by
  simp [World.goto, h]

section

variable {t u : Thread} {w w' : World}

/-- A step that moves `t` and changes none of the data. -/
theorem SameFor.goto (h : u ≠ t) (c : Control) : SameFor u w (w.goto t c) where
  control := goto_ne w h c
  comm := Iff.rfl
  placement := Iff.rfl
  requests _ := rfl
  replies _ := rfl
  nlmhOut _ := rfl
  buffer _ := rfl
  candidates _ := rfl
  opRetval := rfl
  log := rfl

theorem SameFor.trans {w₁ w₂ w₃ : World} (h : SameFor u w₁ w₂) (h' : SameFor u w₂ w₃) :
    SameFor u w₁ w₃ where
  control := h'.control.trans h.control
  comm := h'.comm.trans h.comm
  placement := h'.placement.trans h.placement
  requests hl := (h'.requests (h.comm.mpr hl)).trans (h.requests hl)
  replies hl := (h'.replies (h.comm.mpr hl)).trans (h.replies hl)
  nlmhOut hl := (h'.nlmhOut (h.comm.mpr hl)).trans (h.nlmhOut hl)
  buffer hl := (h'.buffer (h.comm.mpr hl)).trans (h.buffer hl)
  candidates hl := (h'.candidates (h.placement.mpr hl)).trans (h.candidates hl)
  opRetval := h'.opRetval.trans h.opRetval
  log := h'.log.trans h.log

/-- What the owner of `comm_lock` may change. -/
theorem SameFor.ofComm (h : u ≠ t) (hlock : w.commLock = some t) (req : Req)
    (requests : List (Thread × Req)) (replies : List (Thread × List NlMsg))
    (buffer : List NlMsg) :
    SameFor u w { w with nlmhOut := req, requests := requests, replies := replies,
                         buffer := buffer } := by
  have hne : w.commLock ≠ some u := fun hc => h (Option.some.inj (hc.symm.trans hlock))
  constructor
  case control | opRetval | log => rfl
  case comm | placement => exact Iff.rfl
  case candidates => exact fun _ => rfl
  all_goals exact fun hc => absurd hc hne

/-- A lock that `t` takes or gives back. -/
theorem SameFor.ofLocks {comm placement : Option Thread}
    (hcomm : comm = some u ↔ w.commLock = some u)
    (hplacement : placement = some u ↔ w.placementLock = some u) :
    SameFor u w { w with commLock := comm, placementLock := placement } where
  control := rfl
  comm := hcomm
  placement := hplacement
  requests _ := rfl
  replies _ := rfl
  nlmhOut _ := rfl
  buffer _ := rfl
  candidates _ := rfl
  opRetval := rfl
  log := rfl

/-- The array that a call of `t` receives into. -/
theorem SameFor.setOut (h : u ≠ t) {c : Call} (hholds : HoldsFor w t c) (a : Arr AddrInfo) :
    SameFor u w (w.setOut t a c) := by
  cases c with
  | op req =>
    constructor
    case opRetval => exact Function.update_of_ne h a w.opRetval
    case control | log => rfl
    case comm | placement => exact Iff.rfl
    all_goals exact fun _ => rfl
  | find req rest =>
    have hne : w.placementLock ≠ some u :=
      fun hc => h (Option.some.inj (hc.symm.trans (hholds.mpr rfl)))
    constructor
    case candidates => exact fun hc => absurd hc hne
    case control | log | opRetval => rfl
    case comm | placement => exact Iff.rfl
    all_goals exact fun _ => rfl

/-- A lock changes hands between `t` and nobody. -/
theorem lock_iff (h : u ≠ t) {old new : Option Thread} (hold : old = none ∨ old = some t)
    (hnew : new = none ∨ new = some t) : new = some u ↔ old = some u := by
  have hne : some t ≠ some u := fun hc => h (Option.some.inj hc).symm
  rcases hold with rfl | rfl <;> rcases hnew with rfl | rfl <;> simp [hne]

/-- **A step of `t`** leaves alone what the others rely on. -/
theorem Act.sameFor (h : u ≠ t) (hok : ThreadOk t w) (hact : Act t w w') : SameFor u w w' := by
  unfold ThreadOk at hok
  cases hact with
  | callOp req hop malloc hat =>
    have hset : SameFor u w (w.setOut t malloc (.op req)) := by
      rw [hat] at hok
      exact .setOut (c := .op req) h (iff_of_false hok.2 Bool.false_ne_true) malloc
    exact hset.trans (.goto h _)
  | enter finds hsection hat => exact .goto h _
  | lockPlacement req rest hat hfree =>
    exact .trans (.ofLocks Iff.rfl (lock_iff h (.inl hfree) (.inr rfl))) (.goto h _)
  | lockComm c hat hfree =>
    exact .trans (.ofLocks (lock_iff h (.inl hfree) (.inr rfl)) Iff.rfl) (.goto h _)
  -- the buffer, the socket and the requests belong to the thread with `comm_lock`
  | fill c hat =>
    rw [hat] at hok
    exact .trans (.ofComm h hok.2.2.1 _ _ _ _) (.goto h _)
  | send c hat =>
    rw [hat] at hok
    exact .trans (.ofComm h hok.2.2.1 _ _ _ _) (.goto h _)
  | zero c hat =>
    rw [hat] at hok
    exact .trans (.ofComm h hok.2.2.1 _ _ _ _) (.goto h _)
  | recv c v msgs rest hat hreplies =>
    rw [hat] at hok
    exact .trans (.ofComm h hok.2.2.1 _ _ _ _) (.goto h _)
  | copy c passed len pos m hat hm hm' htype =>
    rw [hat] at hok
    exact .trans (.setOut h hok.1 _) (.goto h _)
  | unlockComm c passed len pos hat hend =>
    rw [hat] at hok
    exact .trans (.ofLocks (lock_iff h (.inr hok.2.2.1) (.inl rfl)) Iff.rfl) (.goto h _)
  | read c i hat => exact ⟨rfl, Iff.rfl, Iff.rfl, fun _ => rfl, fun _ => rfl, fun _ => rfl,
      fun _ => rfl, fun _ => rfl, rfl, rfl⟩
  | opDone req hat => exact .goto h _
  | findNext req next rest hat => exact .goto h _
  | findLast req hat => exact .goto h _
  | unlockPlacement hat =>
    rw [hat] at hok
    exact .trans (.ofLocks Iff.rfl (lock_iff h (.inr hok.1) (.inl rfl))) (.goto h _)

end

/-! ## A thread's own steps -/

section

variable {t : Thread} {w w' : World} {c : Call} {passed pos : Nat} {len : Int} {m : NlMsg}

/-- The message that the loop is at passes `NLMSG_OK`. -/
theorem Copied.ok (h : Copied w t c passed len pos) (hm : w.buffer[passed]? = some m) :
    m.Sized ∧ nlmsgOk m len ∧
      len - nlmsgAlign m.nlmsgLen = datagramLen (w.buffer.drop (passed + 1)) := by
  have hsized : m.Sized := h.carried.sized m (List.mem_of_getElem? hm)
  have hdrop : w.buffer.drop passed = m :: w.buffer.drop (passed + 1) := by
    obtain ⟨hlt, rfl⟩ := List.getElem?_eq_some_iff.mp hm
    exact List.drop_eq_getElem_cons hlt
  have hlen : len = (m.nlmsgLen : Int) + datagramLen (w.buffer.drop (passed + 1)) := by
    rw [h.bytes, hdrop, datagramLen, hsized.align]
    omega
  refine ⟨hsized, hsized.ok (by omega), ?_⟩
  rw [hsized.align]
  omega

theorem Copied.goto (h : Copied w t c passed len pos) (ctl : Control) :
    Copied (w.goto t ctl) t c passed len pos where
  carried := h.carried
  bytes := h.bytes
  entries := h.entries
  out := by cases c <;> exact h.out

/-- One turn of the loop. -/
theorem Copied.next (h : Copied w t c passed len pos) (hm : w.buffer[passed]? = some m) :
    Copied (w.setOut t ((w.out t c).write pos (m.payload.take (entryCount m))) c) t c (passed + 1)
      (len - nlmsgAlign m.nlmsgLen) (pos + entryCount m) := by
  obtain ⟨hsized, -, hbytes⟩ := h.ok hm
  have hcount : entryCount m = m.payload.length := hsized.entries
  have hbuffer (a : Arr AddrInfo) : (w.setOut t a c).buffer = w.buffer := by cases c <;> rfl
  have hlog (a : Arr AddrInfo) : (w.setOut t a c).log = w.log := by cases c <;> rfl
  have hout (a : Arr AddrInfo) : (w.setOut t a c).out t c = a := by
    cases c with
    | op => exact Function.update_self t a w.opRetval
    | find => rfl
  have htake : (w.buffer.take (passed + 1)).flatMap NlMsg.payload =
      (w.buffer.take passed).flatMap NlMsg.payload ++ m.payload := by
    rw [List.take_add_one, hm, List.flatMap_append]
    simp
  have hentries := h.entries
  rw [hcount, List.take_length]
  constructor
  · rw [hbuffer, hlog]
    exact h.carried
  · rw [hbuffer]
    exact hbytes
  · rw [hbuffer, htake, List.length_append, ← hentries]
  · rw [hbuffer, hout, htake, ← h.out]
    have hslice := Arr.slice_write m.payload (w.out t c) 0 pos
    rwa [Nat.zero_add] at hslice

/-- The loop ends after the last message. -/
theorem Copied.done (h : Copied w t c passed len pos)
    (hend : ∀ m, w.buffer[passed]? = some m → nlmsgOk m len → m.nlmsgType = nlmsgError) :
    HasReply w t c := by
  have hall : w.buffer.take passed = w.buffer := by
    apply List.take_of_length_le
    apply List.getElem?_eq_none_iff.mp
    cases hm : w.buffer[passed]? with
    | none => rfl
    | some m =>
      obtain ⟨hsized, hok, -⟩ := h.ok hm
      exact absurd (hend m hm hok) hsized.type
  have hentries := h.entries
  have hout := h.out
  rw [hall] at hentries hout
  exact ⟨_, h.carried.answered, hentries ▸ hout⟩

/-- **A thread's own step** establishes its next assertion. -/
theorem Act.own (hok : ThreadOk t w) (hquiet : w.commLock = none → Quiet w)
    (hact : Act t w w') : ThreadOk t w' := by
  have hstart := hok
  unfold ThreadOk at hok ⊢
  cases hact with
  | callOp req hop malloc hat =>
    rw [hat] at hok
    rw [goto_self]
    exact ⟨iff_of_false hok.2 Bool.false_ne_true, hop, hok.1⟩
  | enter finds hsection hat =>
    rw [hat] at hok
    rw [goto_self]
    exact ⟨hok.1, hok.2, hsection⟩
  | lockPlacement req rest hat hfree =>
    rw [hat] at hok
    rw [goto_self]
    exact ⟨iff_of_true rfl rfl, ⟨[], hok.2.2⟩, hok.1⟩
  | lockComm c hat hfree =>
    rw [hat] at hok
    rw [goto_self]
    exact ⟨hok.1, hok.2.1, rfl, hquiet hfree⟩
  | fill c hat =>
    rw [hat] at hok
    rw [goto_self]
    exact ⟨hok.1, hok.2.1, hok.2.2.1, hok.2.2.2, rfl⟩
  | send c hat =>
    rw [hat] at hok
    rw [goto_self]
    obtain ⟨hholds, hmade, hlock, ⟨hrequests, hreplies⟩, hout⟩ := hok
    refine ⟨hholds, hmade, hlock, .inl ⟨?_, hreplies⟩⟩
    show w.requests ++ [(t, w.nlmhOut)] = _
    rw [hrequests, hout, List.nil_append]
  | zero c hat =>
    rw [hat] at hok
    rw [goto_self]
    exact hok
  | recv c u msgs rest hat hreplies =>
    rw [hat] at hok
    rw [goto_self]
    obtain ⟨hholds, hmade, hlock, hout⟩ := hok
    -- the oldest reply in flight can only be the thread's own
    obtain ⟨-, hnone⟩ | ⟨hnone, hnil | ⟨msgs', hmsgs', hcarried⟩⟩ := hout
    · rw [hreplies] at hnone
      simp at hnone
    · rw [hreplies] at hnil
      simp at hnil
    · rw [hreplies] at hmsgs'
      obtain ⟨hhead, rfl⟩ := List.cons.inj hmsgs'
      obtain ⟨rfl, rfl⟩ := Prod.mk.inj hhead
      exact ⟨hholds, hmade, hlock, ⟨hnone, rfl⟩, hcarried, rfl, rfl, rfl⟩
  | copy c passed len pos m hat hm hm' htype =>
    rw [hat] at hok
    rw [goto_self]
    obtain ⟨hholds, hmade, hlock, hquiet, hcopied⟩ := hok
    have hnext := hcopied.next hm
    cases c with
    | op req => exact ⟨hholds, hmade, hlock, hquiet, hnext.goto _⟩
    | find req rest => exact ⟨hholds, hmade, hlock, hquiet, hnext.goto _⟩
  | unlockComm c passed len pos hat hend =>
    rw [hat] at hok
    rw [goto_self]
    exact ⟨hok.1, hok.2.1, by simp [World.goto], hok.2.2.2.2.done hend⟩
  | read c i hat => exact hstart
  | opDone req hat =>
    rw [hat] at hok
    rw [goto_self]
    exact ⟨hok.2.2.1, fun hc => Bool.false_ne_true (hok.1.mp hc)⟩
  | findNext req next rest hat =>
    rw [hat] at hok
    rw [goto_self]
    obtain ⟨hholds, ⟨done, hsection⟩, hcomm, -⟩ := hok
    refine ⟨iff_of_true (hholds.mpr rfl) rfl, ⟨done ++ [req], ?_⟩, hcomm⟩
    rwa [List.append_assoc]
  | findLast req hat =>
    rw [hat] at hok
    rw [goto_self]
    exact ⟨hok.1.mpr rfl, hok.2.2.1⟩
  | unlockPlacement hat =>
    rw [hat] at hok
    rw [goto_self]
    exact ⟨hok.2, by simp [World.goto]⟩

end

/-! ## What is shared -/

section

variable {P : Platform} {t u : Thread} {w w' : World} {req : Req} {rest : List (Thread × Req)}

/-- The reply that the module sends carries what it put into its log. -/
theorem process_carried (w : World) (t : Thread) (req : Req) :
    (placementNlProcessMsg P (some req) w.machine).2 = none ∨
      ∃ msgs, (placementNlProcessMsg P (some req) w.machine).2 = some msgs ∧
        Carried (⟨t, req, (placementNlProcessMsg P (some req) w.machine).1.reply⟩ :: w.log)
          t req msgs := by
  unfold placementNlProcessMsg
  cases hout : processReq P (some req) w.machine with
  | oops σ => exact .inl rfl
  | replied σ =>
    have hpos : 0 < σ.mod.nFound := by
      unfold processReq at hout
      simp only at hout
      split at hout
      · rw [← Outcome.replied.inj hout]
        exact Nat.succ_pos _
      · simp at hout
    refine .inr ⟨packets σ.mod, replyMsgs_eq hpos, packets_sized σ.mod, ?_⟩
    rw [packets_payload hpos]
    simp [Answered, Outcome.reply]

/-- The lock belongs to a thread in `send_req`. -/
theorem ThreadOk.owner (h : ThreadOk t w) (hlock : w.commLock = some t) :
    ∃ c phase, w.control t = .exchange c phase ∧ phase ≠ .start := by
  unfold ThreadOk at h
  cases hctl : w.control t with
  | idle =>
    rw [hctl] at h
    exact absurd hlock h.1
  | entering finds =>
    rw [hctl] at h
    exact absurd hlock h.1
  | exchange c phase =>
    rw [hctl] at h
    refine ⟨c, phase, rfl, ?_⟩
    rintro rfl
    exact h.2.2 hlock
  | reading c =>
    rw [hctl] at h
    exact absurd hlock h.2.2.1
  | leaving =>
    rw [hctl] at h
    exact absurd hlock h.2

/-- What is in flight belongs to a thread between its `sendmsg` and its `recvmsg`. -/
theorem channel_owner (hok : ∀ u, ThreadOk u w) (hquiet : w.commLock = none → Quiet w) :
    Quiet w ∨ ∃ t c phase, w.control t = .exchange c phase ∧ (phase = .sent ∨ phase = .zeroed) ∧
      HoldsFor w t c ∧ c.Made t ∧ w.commLock = some t ∧ Outstanding w t c.req := by
  cases hlock : w.commLock with
  | none => exact .inl (hquiet hlock)
  | some t =>
    obtain ⟨c, phase, hctl, hstart⟩ := (hok t).owner hlock
    have ht := hok t
    unfold ThreadOk at ht
    rw [hctl] at ht
    obtain ⟨hholds, hmade, hphase⟩ := ht
    cases phase with
    | start => exact absurd rfl hstart
    | locked => exact .inl hphase.2
    | filled => exact .inl hphase.2.1
    | sent => exact .inr ⟨t, c, _, hctl, .inl rfl, hholds, hmade, rfl, hphase.2⟩
    | zeroed => exact .inr ⟨t, c, _, hctl, .inr rfl, hholds, hmade, rfl, hphase.2⟩
    | copying => exact .inl hphase.2.1

/-- What is in flight is tagged with the owner of `comm_lock`. -/
theorem tags_owner (hok : ∀ u, ThreadOk u w) (hquiet : w.commLock = none → Quiet w) :
    (∀ q ∈ w.requests, w.commLock = some q.1) ∧ (∀ q ∈ w.replies, w.commLock = some q.1) := by
  obtain ⟨hrequests, hreplies⟩ | ⟨t, c, phase, -, -, -, -, hlock, hout⟩ := channel_owner hok hquiet
  · rw [hrequests, hreplies]
    exact ⟨fun q hq => absurd hq (by simp), fun q hq => absurd hq (by simp)⟩
  · rw [hlock]
    obtain ⟨hone, hnone⟩ | ⟨hnone, hnil | ⟨msgs, hmsgs, -⟩⟩ := hout
    · rw [hone, hnone]
      exact ⟨fun q hq => by rw [List.mem_singleton.mp hq], fun q hq => absurd hq (by simp)⟩
    · rw [hnone, hnil]
      exact ⟨fun q hq => absurd hq (by simp), fun q hq => absurd hq (by simp)⟩
    · rw [hnone, hmsgs]
      exact ⟨fun q hq => absurd hq (by simp), fun q hq => by rw [List.mem_singleton.mp hq]⟩

/-- A request in flight is that of the thread that owns `comm_lock`. -/
theorem request_owner (hok : ∀ u, ThreadOk u w) (hquiet : w.commLock = none → Quiet w)
    (hrequests : w.requests = (t, req) :: rest) :
    ∃ c phase, w.control t = .exchange c phase ∧ (phase = .sent ∨ phase = .zeroed) ∧
      HoldsFor w t c ∧ c.Made t ∧ w.commLock = some t ∧ c.req = req ∧ rest = [] ∧
      w.replies = [] := by
  have hne : w.requests ≠ [] := by simp [hrequests]
  obtain hq | ⟨u, c, phase, hctl, hsent, hholds, hmade, hlock, hout⟩ := channel_owner hok hquiet
  · exact absurd hq.1 hne
  · obtain ⟨hone, hreplies⟩ | ⟨hnone, -⟩ := hout
    · rw [hrequests] at hone
      obtain ⟨hhead, rfl⟩ := List.cons.inj hone
      obtain ⟨rfl, rfl⟩ := Prod.mk.inj hhead
      exact ⟨c, phase, hctl, hsent, hholds, hmade, hlock, rfl, rfl, hreplies⟩
    · exact absurd hnone hne

/-- **A step of the module or of its machine** keeps every assertion. -/
theorem Env.threadOk (hok : ∀ u, ThreadOk u w) (hquiet : w.commLock = none → Quiet w)
    (henv : Env P w w') : ∀ u, ThreadOk u w' := by
  intro u
  cases henv with
  | machine σ h =>
    have hsame : SameFor u w { w with machine := σ } := ⟨rfl, Iff.rfl, Iff.rfl, fun _ => rfl,
      fun _ => rfl, fun _ => rfl, fun _ => rfl, fun _ => rfl, rfl, rfl⟩
    exact (hok u).frame hsame
  | process t req rest hrequests =>
    obtain ⟨c, phase, hctl, hsent, hholds, hmade, hlock, rfl, rfl, hreplies⟩ :=
      request_owner hok hquiet hrequests
    by_cases hu : u = t
    · -- its request is answered: the reply is in flight instead
      subst hu
      unfold ThreadOk
      simp only [hctl, hreplies, List.nil_append]
      refine ⟨hholds, hmade, ?_⟩
      have hout := process_carried (P := P) w u c.req
      rcases hsent with rfl | rfl <;> refine ⟨hlock, .inr ⟨rfl, ?_⟩⟩
      all_goals
        obtain hnone | ⟨msgs, hmsgs, hcarried⟩ := hout
        · left
          simp [hnone]
        · right
          exact ⟨msgs, by simp [hmsgs], hcarried⟩
    · -- the others do not hold `comm_lock`, so they rely on nothing in flight
      have hne : w.commLock ≠ some u :=
        fun hc => hu (Option.some.inj (hc.symm.trans hlock))
      refine (hok u).frame ?_
      constructor
      case control | opRetval => rfl
      case comm | placement => exact Iff.rfl
      case candidates => exact fun _ => rfl
      case log => simp [Ne.symm hu]
      all_goals exact fun hc => absurd hc hne

theorem Env.quiet (hok : ∀ u, ThreadOk u w) (hquiet : w.commLock = none → Quiet w)
    (henv : Env P w w') : w'.commLock = none → Quiet w' := by
  intro hfree
  cases henv with
  | machine σ h => exact hquiet hfree
  | process t req rest hrequests =>
    obtain ⟨c, phase, -, -, -, -, hlock, -⟩ := request_owner hok hquiet hrequests
    exact absurd (hfree.symm.trans hlock) (by simp)

/-- The channel is empty when nobody owns `comm_lock`. -/
theorem Act.quiet (hok : ThreadOk t w) (hquiet : w.commLock = none → Quiet w)
    (hact : Act t w w') : w'.commLock = none → Quiet w' := by
  unfold ThreadOk at hok
  intro hfree
  -- in `send_req` the lock is the thread's
  have hheld (hlock : w.commLock = some t) (hsame : w'.commLock = w.commLock) : Quiet w' := by
    rw [hsame, hlock] at hfree
    simp at hfree
  cases hact with
  | callOp | enter | lockPlacement | read | opDone | findNext | findLast | unlockPlacement =>
    exact hquiet hfree
  | lockComm c hat hnone => exact hquiet hnone
  | fill c hat =>
    rw [hat] at hok
    exact hheld hok.2.2.1 rfl
  | send c hat =>
    rw [hat] at hok
    exact hheld hok.2.2.1 rfl
  | zero c hat =>
    rw [hat] at hok
    exact hheld hok.2.2.1 rfl
  | recv c v msgs rest hat hreplies =>
    rw [hat] at hok
    exact hheld hok.2.2.1 rfl
  | copy c passed len pos m hat hm hm' htype =>
    rw [hat] at hok
    exact hheld hok.2.2.1 (by cases c <;> rfl)
  | unlockComm c passed len pos hat hend =>
    rw [hat] at hok
    exact hok.2.2.2.1

end

end Ambix.Ctl
