import Ambix.Ctl.Socket

/-!
# What clients can do to the socket thread

The requests that are issued are always among those of the streams. They are all of them,
no descriptor stays open and the loop goes on exactly when every read of every client is a
complete record until the end of its stream: a record in two pieces is dropped and its
descriptor stays open, and an error of `read` ends the thread.
-/

namespace Ambix.Ctl

open Ambix.Lib

/-- The requests that a stream asks for. -/
def Client.requests (c : Client) : List (OpCode × Int32) :=
  (records sizeofReq c.stream).flatMap fun record => handle (reqOf record)

/-- The clients that connect before `select` fails. -/
def clients : List Turn → List Client
  | [] => []
  | .selectFails :: _ => []
  | .client c :: turns => c :: clients turns
  | .timeout :: turns => clients turns
  | .acceptFails :: turns => clients turns

/-- What the socket thread owes its clients. -/
structure Serves (turns : List Turn) (s : Server) : Prop where
  /-- Each complete record of each stream is issued once, in order. -/
  issued : s.issued = (clients turns).flatMap Client.requests
  /-- Every descriptor is closed. -/
  closed : s.opened = []
  /-- Every client is accepted, and no client ends the loop. -/
  accepted : s.accepted = (clients turns).length
  serving : s.status = .serving ∨ s.status = .selectFailed

/-- Every read returns a complete record until the end of the stream. -/
structure Client.Regular (c : Client) : Prop where
  whole : ∀ piece ∈ c.pieces, piece.length = sizeofReq
  eof : c.ending = .eof

/-! ## A connection -/

section

variable {acc : Nat} {ending : Ending} {pieces : List (List UInt8)} {s : Server} {c : Client}

theorem sizeofReq_pos : 0 < sizeofReq := by decide

theorem Client.Regular.requests (h : c.Regular) :
    c.requests = c.pieces.flatMap fun piece => handle (reqOf piece) := by
  unfold Client.requests Client.stream
  rw [records_flatten sizeofReq_pos h.whole]

/-- The reads of complete records. -/
theorem Server.read_whole (h : ∀ piece ∈ pieces, piece.length = sizeofReq) (s : Server) :
    s.read acc .eof pieces =
      { s with
        issued := s.issued ++ pieces.flatMap fun piece => handle (reqOf piece)
        opened := s.opened.filter fun fd => fd ≠ acc } := by
  induction pieces generalizing s with
  | nil => simp [Server.read]
  | cons piece pieces ih =>
    unfold Server.read
    rw [if_pos (h piece List.mem_cons_self), ih fun q hq => h q (List.mem_cons_of_mem _ hq)]
    simp only [List.flatMap_cons, List.append_assoc]

/-- The requests issued in a connection are a first part of those of its stream. -/
theorem Server.read_issues (pieces : List (List UInt8)) (s : Server) :
    ∃ made, (s.read acc ending pieces).issued = s.issued ++ made ∧
      made <+: (records sizeofReq pieces.flatten).flatMap fun record => handle (reqOf record) := by
  induction pieces generalizing s with
  | nil =>
    refine ⟨[], ?_, List.nil_prefix⟩
    rw [List.append_nil]
    cases ending <;> rfl
  | cons piece pieces ih =>
    unfold Server.read
    split
    · rename_i hlen
      obtain ⟨made, hmade, hprefix⟩ :=
        ih { s with issued := s.issued ++ handle (reqOf piece) }
      refine ⟨handle (reqOf piece) ++ made, ?_, ?_⟩
      · rw [hmade, List.append_assoc]
      · rw [List.flatten_cons, records_append sizeofReq_pos hlen, List.flatMap_cons]
        exact List.prefix_append_right_inj _ |>.mpr hprefix
    · exact ⟨[], (List.append_nil _).symm, List.nil_prefix⟩

/-- A read leaves the other descriptors as they are, -/
theorem Server.read_opened {fd : Nat} (hne : fd ≠ acc) (pieces : List (List UInt8)) (s : Server) :
    fd ∈ (s.read acc ending pieces).opened ↔ fd ∈ s.opened := by
  induction pieces generalizing s with
  | nil => cases ending <;> simp [Server.read, hne]
  | cons piece pieces ih =>
    unfold Server.read
    split
    · rw [ih]
    · rfl

/-- and its own one unless every read is a complete record and the last one the end. -/
theorem Server.read_leaks (pieces : List (List UInt8)) (s : Server) (hopen : acc ∈ s.opened)
    (h : ¬ ((∀ piece ∈ pieces, piece.length = sizeofReq) ∧ ending = .eof)) :
    acc ∈ (s.read acc ending pieces).opened := by
  induction pieces generalizing s with
  | nil =>
    cases ending with
    | eof => simp at h
    | error => exact hopen
    | stall => exact hopen
  | cons piece pieces ih =>
    unfold Server.read
    split
    · rename_i hlen
      refine ih _ hopen fun hrest => h ⟨?_, hrest.2⟩
      intro q hq
      rcases List.mem_cons.mp hq with rfl | hq
      · exact hlen
      · exact hrest.1 q hq
    · exact hopen

theorem Server.read_accepted (pieces : List (List UInt8)) (s : Server) :
    (s.read acc ending pieces).accepted = s.accepted := by
  induction pieces generalizing s with
  | nil => cases ending <;> rfl
  | cons piece pieces ih =>
    unfold Server.read
    split
    · rw [ih]
    · rfl

theorem Server.turn_client (s : Server) (c : Client) : s.turn (.client c) =
    { s with accepted := s.accepted + 1, opened := s.opened ++ [s.accepted] }.read s.accepted
      c.ending c.pieces := rfl

/-- **A regular client** is served and its descriptor closed. -/
theorem Client.Regular.turn (h : c.Regular) (hopened : s.opened = []) :
    s.turn (.client c) =
      { s with issued := s.issued ++ c.requests, accepted := s.accepted + 1 } := by
  rw [Server.turn_client, h.eof, Server.read_whole h.whole, h.requests, hopened]
  simp

theorem Server.turn_issues (s : Server) (c : Client) :
    ∃ made, (s.turn (.client c)).issued = s.issued ++ made ∧ made <+: c.requests :=
  Server.read_issues c.pieces _

/-- **Any other client** leaves its descriptor open. -/
theorem Server.turn_leaks (h : ¬ c.Regular) (s : Server) :
    s.accepted ∈ (s.turn (.client c)).opened := by
  refine Server.read_leaks c.pieces _ (by simp) ?_
  rintro ⟨hwhole, heof⟩
  exact h ⟨hwhole, heof⟩

end

/-! ## Runs -/

section

variable {turns : List Turn} {s : Server} {fd : Nat}

theorem processSocket_of_not (h : s.status ≠ .serving) (turns : List Turn) :
    processSocket turns s = s := by
  cases turns with
  | nil => rfl
  | cons t turns => exact if_neg h

/-- An open descriptor of an earlier connection stays open. -/
theorem processSocket_opened (turns : List Turn) (hopen : fd ∈ s.opened) (hold : fd < s.accepted) :
    fd ∈ (processSocket turns s).opened := by
  induction turns generalizing s with
  | nil => exact hopen
  | cons t turns ih =>
    unfold processSocket
    split
    · cases t with
      | timeout => exact ih hopen hold
      | selectFails => exact ih hopen hold
      | acceptFails => exact ih hopen hold
      | client c =>
        have hother : fd ≠ s.accepted := Nat.ne_of_lt hold
        refine ih ((Server.read_opened hother _ _).mpr ?_) ?_
        · exact List.mem_append_left _ hopen
        · show fd < (Server.read _ _ _ _).accepted
          rw [Server.read_accepted]
          exact Nat.lt_succ_of_lt hold
    · exact hopen

/-- **Nothing is made up**: what is issued is among the requests of the streams, in order and
not more often. -/
theorem processSocket_issued (turns : List Turn) (s : Server) (hserving : s.status = .serving) :
    ∃ made, (processSocket turns s).issued = s.issued ++ made ∧
      made.Sublist ((clients turns).flatMap Client.requests) := by
  induction turns generalizing s with
  | nil => exact ⟨[], (List.append_nil _).symm, List.nil_sublist _⟩
  | cons t turns ih =>
    unfold processSocket
    rw [if_pos hserving]
    cases t with
    | timeout => exact ih s hserving
    | acceptFails => exact ih s hserving
    | selectFails =>
      rw [processSocket_of_not (by simp [Server.turn])]
      exact ⟨[], (List.append_nil _).symm, List.nil_sublist _⟩
    | client c =>
      obtain ⟨made, hmade, hprefix⟩ := Server.turn_issues s c
      rw [clients, List.flatMap_cons]
      by_cases hnext : (s.turn (.client c)).status = .serving
      · obtain ⟨more, hmore, hsub⟩ := ih _ hnext
        refine ⟨made ++ more, ?_, hprefix.sublist.append hsub⟩
        rw [hmore, hmade, List.append_assoc]
      · rw [processSocket_of_not hnext]
        exact ⟨made, hmade, hprefix.sublist.trans (List.sublist_append_left _ _)⟩

/-- Regular clients are served, -/
theorem processSocket_regular (hregular : ∀ c ∈ clients turns, c.Regular)
    (hserving : s.status = .serving) (hopened : s.opened = []) :
    (processSocket turns s).issued = s.issued ++ (clients turns).flatMap Client.requests ∧
      (processSocket turns s).opened = [] ∧
      (processSocket turns s).accepted = s.accepted + (clients turns).length ∧
      ((processSocket turns s).status = .serving ∨
        (processSocket turns s).status = .selectFailed) := by
  induction turns generalizing s with
  | nil => exact ⟨(List.append_nil _).symm, hopened, rfl, Or.inl hserving⟩
  | cons t turns ih =>
    unfold processSocket
    rw [if_pos hserving]
    cases t with
    | timeout => exact ih hregular hserving hopened
    | acceptFails => exact ih hregular hserving hopened
    | selectFails =>
      rw [processSocket_of_not (by simp [Server.turn])]
      exact ⟨(List.append_nil _).symm, hopened, rfl, Or.inr rfl⟩
    | client c =>
      rw [(hregular c List.mem_cons_self).turn hopened]
      obtain ⟨hissued, hclosed, haccepted, hstatus⟩ :=
        ih (s := { s with issued := s.issued ++ c.requests, accepted := s.accepted + 1 })
          (fun d hd => hregular d (List.mem_cons_of_mem _ hd)) hserving hopened
      refine ⟨?_, hclosed, ?_, hstatus⟩
      · rw [hissued, clients, List.flatMap_cons, List.append_assoc]
      · rw [haccepted, clients, List.length_cons]
        exact Nat.add_right_comm _ _ _

/-- and where no descriptor stays open all clients were regular. -/
theorem regular_of_closed (hserving : s.status = .serving) (hopened : s.opened = [])
    (hclosed : (processSocket turns s).opened = []) : ∀ c ∈ clients turns, c.Regular := by
  induction turns generalizing s with
  | nil => simp [clients]
  | cons t turns ih =>
    unfold processSocket at hclosed
    rw [if_pos hserving] at hclosed
    cases t with
    | timeout => exact ih hserving hopened hclosed
    | acceptFails => exact ih hserving hopened hclosed
    | selectFails => simp [clients]
    | client c =>
      have hregular : c.Regular := by
        by_contra hnot
        have hleft := processSocket_opened turns (Server.turn_leaks hnot s)
          (by rw [Server.turn_client, Server.read_accepted]; exact Nat.lt_succ_self _)
        rw [hclosed] at hleft
        simp at hleft
      intro d hd
      rcases List.mem_cons.mp hd with rfl | hd
      · exact hregular
      · rw [hregular.turn hopened] at hclosed
        exact ih (s := { s with issued := s.issued ++ c.requests, accepted := s.accepted + 1 })
          hserving hopened hclosed d hd

theorem serves_of_regular (h : ∀ c ∈ clients turns, c.Regular) :
    Serves turns (processSocket turns .start) := by
  obtain ⟨hissued, hclosed, haccepted, hstatus⟩ := processSocket_regular (s := .start) h rfl rfl
  refine ⟨hissued, hclosed, ?_, hstatus⟩
  rw [haccepted]
  exact Nat.zero_add _

/-- **The socket thread serves its clients** exactly when all are regular. Whatever they do,
it issues no request but theirs, in order and not more often. -/
theorem processSocket_serves_iff (turns : List Turn) :
    (processSocket turns .start).issued.Sublist ((clients turns).flatMap Client.requests) ∧
      (Serves turns (processSocket turns .start) ↔ ∀ c ∈ clients turns, c.Regular) := by
  refine ⟨?_, fun h => regular_of_closed rfl rfl h.closed, serves_of_regular⟩
  obtain ⟨made, hmade, hsub⟩ := processSocket_issued turns .start rfl
  rw [hmade]
  exact hsub

/-- What is issued is an operation of the socket thread. -/
theorem processSocket_ops (turns : List Turn) (mode : Int32) :
    ∀ x ∈ (processSocket turns .start).issued, Op .socket ⟨x.1.code, x.2, mode⟩ := by
  intro x hx
  obtain ⟨made, hmade, hsub⟩ := processSocket_issued turns .start rfl
  rw [hmade] at hx
  obtain ⟨c, _, hc⟩ := List.mem_flatMap.mp (hsub.subset hx)
  obtain ⟨record, _, hrecord⟩ := List.mem_flatMap.mp hc
  unfold handle at hrecord
  split at hrecord
  · rw [List.mem_singleton.mp hrecord]
    exact .bind _ _ _ (by simp)
  · rw [List.mem_singleton.mp hrecord]
    exact .unbind _ _ _ (by simp)
  · simp at hrecord
  · simp at hrecord

end

/-! ## The shipped client, and one that writes a record in two pieces -/

theorem uds_regular (op : OpCode) (pidArg getpid mode : Int32) :
    (uds op pidArg getpid mode).Regular where
  whole := by
    intro piece hpiece
    rw [List.mem_singleton.mp hpiece, length_reqBytes]
  eof := rfl

/-- The shipped clients are served. -/
theorem serves_uds {turns : List Turn}
    (h : ∀ c ∈ clients turns, ∃ op pidArg getpid mode, c = uds op pidArg getpid mode) :
    Serves turns (processSocket turns .start) := by
  refine serves_of_regular fun c hc => ?_
  obtain ⟨op, pidArg, getpid, mode, rfl⟩ := h c hc
  exact uds_regular op pidArg getpid mode

theorem requests_uds (op : OpCode) (pidArg getpid mode : Int32) :
    (uds op pidArg getpid mode).requests =
      handle ⟨op.code, if pidArg = 0 then getpid else pidArg, mode⟩ := by
  rw [(uds_regular op pidArg getpid mode).requests]
  show handle (reqOf (reqBytes _)) ++ [] = _
  rw [reqOf_reqBytes, List.append_nil]

/-- `bind_uds` asks for its bind. -/
theorem requests_bindUds (pidArg getpid mode : Int32) :
    (bindUds pidArg getpid mode).requests =
      [(.bind, if pidArg = 0 then getpid else pidArg)] := by
  rw [bindUds, requests_uds, handle, OpCode.ofCode_code]

/-- `unbind_uds` asks for its unbind. -/
theorem requests_unbindUds (pidArg getpid mode : Int32) :
    (unbindUds pidArg getpid mode).requests =
      [(.unbind, if pidArg = 0 then getpid else pidArg)] := by
  rw [unbindUds, requests_uds, handle, OpCode.ofCode_code]

/-- A bind of process 1234 whose record is read in two pieces, of five and of seven bytes. -/
def splitBind : Client where
  pieces := [[1, 0, 0, 0, 0xd2], [4, 0, 0, 0, 0, 0, 0]]
  ending := .eof
  sizes := by decide

/-- The bind is not issued, and the descriptor stays open. -/
theorem processSocket_drops_split :
    (clients [.client splitBind]).flatMap Client.requests = [(.bind, 1234)] ∧
      processSocket [.client splitBind] .start = ⟨[], 1, [0], .serving⟩ ∧
      ¬ Serves [.client splitBind] (processSocket [.client splitBind] .start) := by
  refine ⟨by decide, by decide, fun h => ?_⟩
  exact absurd h.closed (by decide)

end Ambix.Ctl
