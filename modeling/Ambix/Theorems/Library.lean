import Ambix.Ctl.Client
import Ambix.Theorems.Delivery

/-!
# What a call of the client library promises

A call of `bind_uds` or `unbind_uds` that returns 1 has its request issued once, in the order
in which the calls are accepted, and the module takes it; a call that returns 0 leaves none,
whatever it has written of it.
-/

namespace Ambix.Ctl

open Ambix.Lib Ambix.Hyb

/-! ## A call -/

section

variable {turns : List Turn} {s : Server} {c : UdsCall} {d : Client}

/-- What a call asks for: nothing unless it returns 1. -/
def UdsCall.asks (c : UdsCall) : List (OpCode × Int32) :=
  if c.returns = 1 then [(c.op, c.pid)] else []

theorem UdsCall.handle_req (c : UdsCall) : handle c.req = [(c.op, c.pid)] := by
  unfold handle UdsCall.req
  rw [OpCode.ofCode_code]
  rcases c.isOp with hop | hop <;> rw [hop]

/-- One read at most, and then the end of the stream. -/
structure Client.Brief (c : Client) : Prop where
  pieces : c.pieces = [] ∨ ∃ piece, c.pieces = [piece]
  eof : c.ending = .eof

theorem records_one {record : List UInt8} (h : record.length = sizeofReq) :
    records sizeofReq record = [record] := by
  have hone : records sizeofReq [record].flatten = [record] :=
    records_flatten sizeofReq_pos fun p hp => List.mem_singleton.mp hp ▸ h
  rwa [List.flatten_singleton] at hone

/-- What a read of the bytes that have been written returns. -/
theorem flatten_nonempty (bytes : List UInt8) :
    ([bytes].filter fun piece => 0 < piece.length).flatten = bytes := by
  cases bytes with
  | nil => rfl
  | cons b bytes => exact List.append_nil _

/-- The connection of a call is brief, and its stream has the request if the call returns 1. -/
theorem UdsCall.connection_spec (h : c.connection = some d) :
    d.Brief ∧ d.requests = c.asks := by
  obtain ⟨op, pidArg, getpid, mode, attempt, isOp⟩ := c
  cases attempt with
  | socketFails => simp [UdsCall.connection] at h
  | connectFails => simp [UdsCall.connection] at h
  | writes n =>
    cases n with
    | none =>
      obtain rfl := Option.some.inj h
      exact ⟨⟨.inl rfl, rfl⟩, rfl⟩
    | some n =>
      obtain rfl := Option.some.inj h
      have hn := n.isLt
      generalize hcall : (⟨op, pidArg, getpid, mode, .writes (some n), isOp⟩ : UdsCall) = c
      have hlen : ((reqBytes c.req).take n).length = n := by
        rw [List.length_take, length_reqBytes]
        omega
      constructor
      · refine ⟨?_, rfl⟩
        simp only [List.filter_singleton, Bool.cond_eq_ite]
        split
        · exact .inr ⟨_, rfl⟩
        · exact .inl rfl
      · unfold Client.requests Client.stream UdsCall.asks
        simp only [flatten_nonempty]
        have hreturns : c.returns = if n.val = sizeofReq then 1 else 0 := by
          rw [← hcall]
          rfl
        by_cases hfull : n.val = sizeofReq
        · -- a whole record
          have htake : (reqBytes c.req).take n = reqBytes c.req :=
            List.take_of_length_le (by rw [length_reqBytes]; omega)
          rw [htake, records_one (length_reqBytes _), List.flatMap_singleton, reqOf_reqBytes,
            c.handle_req, if_pos (by rw [hreturns, if_pos hfull])]
        · rw [records_of_lt (by omega), if_neg (by rw [hreturns, if_neg hfull]; decide)]
          rfl

/-- **A brief connection** is answered by the records of its stream, and the loop goes on. -/
theorem Client.Brief.turn (h : d.Brief) (s : Server) :
    (s.turn (.client d)).issued = s.issued ++ d.requests ∧
      (s.turn (.client d)).status = s.status := by
  rw [Server.turn_client, h.eof]
  unfold Client.requests Client.stream
  rcases h.pieces with hnil | ⟨piece, hpiece⟩
  · rw [hnil]
    exact ⟨(List.append_nil _).symm, rfl⟩
  · have hsize := d.sizes piece (by rw [hpiece]; exact List.mem_singleton_self _)
    rw [hpiece, List.flatten_singleton]
    unfold Server.read
    split
    · rename_i hlen
      rw [records_one hlen, List.flatMap_singleton]
      exact ⟨rfl, rfl⟩
    · -- a short record is dropped
      rw [records_of_lt (by omega)]
      exact ⟨(List.append_nil _).symm, rfl⟩

theorem processSocket_brief (turns : List Turn) (hbrief : ∀ d ∈ clients turns, d.Brief)
    (hserving : s.status = .serving) :
    (processSocket turns s).issued = s.issued ++ (clients turns).flatMap Client.requests := by
  induction turns generalizing s with
  | nil => exact (List.append_nil _).symm
  | cons t turns ih =>
    unfold processSocket
    rw [if_pos hserving]
    cases t with
    | timeout => exact ih hbrief hserving
    | acceptFails => exact ih hbrief hserving
    | selectFails =>
      rw [processSocket_of_not (by simp [Server.turn])]
      exact (List.append_nil _).symm
    | client d =>
      obtain ⟨hissued, hstatus⟩ := (hbrief d List.mem_cons_self).turn s
      rw [ih (fun e he => hbrief e (List.mem_cons_of_mem _ he)) (hstatus.trans hserving), hissued,
        clients, List.flatMap_cons, List.append_assoc]

/-- What is asked for by the calls that return 1. -/
theorem flatMap_asks (calls : List UdsCall) :
    calls.flatMap UdsCall.asks =
      (calls.filter fun c => c.returns = 1).map fun c => (c.op, c.pid) := by
  induction calls with
  | nil => rfl
  | cons c calls ih =>
    rw [List.flatMap_cons, ih, List.filter_cons, UdsCall.asks]
    by_cases h : c.returns = 1
    · simp only [h, if_true, decide_true, List.map_cons, List.singleton_append]
    · simp only [h, if_false, decide_false, Bool.false_eq_true, List.nil_append]

/-- A call without a connection returns 0. -/
theorem UdsCall.asks_none (h : c.connection = none) : c.asks = [] := by
  unfold UdsCall.connection at h
  unfold UdsCall.asks UdsCall.returns
  split at h
  · rename_i hattempt
    rw [hattempt]
    rfl
  · rename_i hattempt
    rw [hattempt]
    rfl
  · simp at h
  · simp at h

theorem flatMap_requests (calls : List UdsCall) :
    (calls.filterMap UdsCall.connection).flatMap Client.requests = calls.flatMap UdsCall.asks := by
  induction calls with
  | nil => rfl
  | cons c calls ih =>
    rw [List.filterMap_cons, List.flatMap_cons]
    cases hc : c.connection with
    | none =>
      rw [UdsCall.asks_none hc, List.nil_append]
      exact ih
    | some d => simp only [List.flatMap_cons, (UdsCall.connection_spec hc).2, ih]

/-- **The calls that return 1 are issued**, in order and once each, and no other. -/
theorem processSocket_uds {calls : List UdsCall}
    (h : clients turns = calls.filterMap UdsCall.connection) :
    (processSocket turns .start).issued =
      (calls.filter fun c => c.returns = 1).map fun c => (c.op, c.pid) := by
  have hbrief : ∀ d ∈ clients turns, d.Brief := by
    intro d hd
    rw [h] at hd
    obtain ⟨c, -, hc⟩ := List.mem_filterMap.mp hd
    exact (UdsCall.connection_spec hc).1
  have hissued := processSocket_brief turns (s := .start) hbrief rfl
  rw [hissued, h, flatMap_requests, flatMap_asks]
  rfl

/-- `bind` and `unbind` with a pid in decimal call the library with it. -/
theorem udsMain_decimal {op : OpCode} (isOp : op = .bind ∨ op = .unbind) (prog : List Char)
    (pid getpid mode : Int32) (attempt : Attempt) :
    udsMain op isOp [prog, decimal pid.toInt] getpid mode attempt =
      (some ⟨op, pid, getpid, mode, attempt, isOp⟩, 0) := by
  have hlo : longMin ≤ pid.toInt := le_trans (by decide) pid.le_toInt
  have hhi : pid.toInt ≤ longMax := le_trans pid.toInt_le (by decide)
  have hnumber := strtol_decimal hlo hhi (s := []) fun c hc => absurd hc (by simp)
  rw [List.append_nil] at hnumber
  show (some (⟨op, atoi _, getpid, mode, attempt, isOp⟩ : UdsCall), (0 : Int)) = _
  rw [atoi, hnumber, Int32.ofInt_toInt]

end

/-! ## All interleavings -/

/-- The requests of operations, one after the other. -/
theorem Asked.ops {jobs : List Job} {reqs : List Req} (h : Asked jobs reqs) :
    ∀ ops : List (OpCode × Int32), jobs = ops.map (fun i => Job.op i.1 i.2) →
      reqs.map (fun req => (req.opCode, req.pidN)) = ops.map fun i => (i.1.code, i.2) := by
  induction h with
  | nil =>
    intro ops hops
    rw [List.map_eq_nil_iff.mp hops.symm]
    rfl
  | snoc h hjob ih =>
    intro ops hops
    obtain ⟨before, last, rfl, hbefore, hlast⟩ := List.map_eq_append_iff.mp hops.symm
    obtain ⟨i, hi, rfl⟩ : ∃ i, last = [i] ∧ _ = Job.op i.1 i.2 := by
      obtain ⟨i, rest, rfl, hi, hrest⟩ := List.map_eq_cons_iff.mp hlast
      rw [List.map_eq_nil_iff] at hrest
      exact ⟨i, by rw [hrest], hi.symm⟩
    cases hjob with
    | op op pid mode => rw [List.map_append, List.map_append, ih before hbefore.symm, hi]; rfl

/-- **A call of the library that returns 1 is delivered, and no other.** In every interleaving
of the threads, what the socket thread has asked the module for are first ones of the requests
of the calls that return 1, in order; and when the loop has no more to call and the threads are
at rest, the module has taken all of them, each once. -/
theorem library_delivered (P : Platform) (pageSize : Int) (input : List Char)
    (its : List Iteration) {turns : List Turn} {calls : List UdsCall}
    (h : clients turns = calls.filterMap UdsCall.connection) :
    (session P (controllerJobs P pageSize input turns its)).Invariant fun s =>
      (s.world.asked .socket).map (fun req => (req.opCode, req.pidN)) <+:
          (calls.filter fun c => c.returns = 1).map (fun c => (c.op.code, c.pid)) ∧
        (s.todo .socket = [] → AtRest s.world →
          (s.world.taken .socket).map (fun req => (req.opCode, req.pidN)) =
            (calls.filter fun c => c.returns = 1).map fun c => (c.op.code, c.pid)) := by
  intro s hreach
  have hok := session_ok P (controllerJobs_for pageSize input turns its) s hreach
  obtain ⟨did, hall, hdid⟩ := hok.follows .socket
  have hjobs : controllerJobs P pageSize input turns its .socket =
      ((calls.filter fun c => c.returns = 1).map fun c => (c.op, c.pid)).map
        fun i => Job.op i.1 i.2 := by
    show (processSocket turns .start).issued.map _ = _
    rw [processSocket_uds h]
  rw [hjobs] at hall
  obtain ⟨before, after, hsplit, hbefore, hafter⟩ := List.map_eq_append_iff.mp hall.symm
  have hasked := hdid.ops before hbefore.symm
  have hcodes : (calls.filter fun c => c.returns = 1).map (fun c => (c.op.code, c.pid)) =
      before.map (fun i => (i.1.code, i.2)) ++ after.map fun i => (i.1.code, i.2) := by
    rw [← List.map_append, ← hsplit, List.map_map]
    rfl
  constructor
  · rw [hasked, hcodes]
    exact List.prefix_append _ _
  · intro htodo hrest
    rw [htodo, List.map_eq_nil_iff] at hafter
    rw [← hrest.asked, hasked, hcodes, hafter, List.map_nil, List.append_nil]

/-- A process that binds itself, a write that takes five bytes of a record, and `unbind 34`. -/
def threeCalls : List UdsCall :=
  [⟨.bind, 0, 12, 0, .writes (some 12), .inl rfl⟩, ⟨.bind, 7, 7, 0, .writes (some 5), .inl rfl⟩,
    ⟨.unbind, 34, 56, 0, .writes (some 12), .inr rfl⟩]

theorem library_delivered_threeCalls :
    (session (.shipped fun _ => 0) (controllerJobs (.shipped fun _ => 0) 4096 []
        ((threeCalls.filterMap UdsCall.connection).map Turn.client) [])).Invariant fun s =>
      s.todo .socket = [] → AtRest s.world →
        (s.world.taken .socket).map (fun req => (req.opCode, req.pidN)) =
          [(OpCode.bind.code, 12), (OpCode.unbind.code, 34)] := by
  intro s hreach
  have hclients : clients ((threeCalls.filterMap UdsCall.connection).map Turn.client) =
      threeCalls.filterMap UdsCall.connection := rfl
  exact (library_delivered _ 4096 [] [] hclients s hreach).2

end Ambix.Ctl
