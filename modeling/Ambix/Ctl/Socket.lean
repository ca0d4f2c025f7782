import Ambix.Ctl.Threads
import Ambix.Lib.Records

/-!
# `process_socket` and its clients

The loop of the socket thread, from `listen` on. A connection is what its reads return: a
stream socket delivers the bytes of a client in pieces of any size that `read` has room for.
The loop goes on for as many turns as `exit_sig` leaves it.
-/

namespace Ambix.Ctl

open Ambix.Lib

/-- `sizeof(req_t)`: three ints. -/
def sizeofReq : Nat := 12

/-- The int that four bytes hold. -/
def intOf (bytes : List UInt8) : Int32 := .ofBitVec (.ofNat 32 (ofLeBytes bytes))

def intBytes (x : Int32) : List UInt8 := leBytes 4 x.toBitVec.toNat

/-- `unix_req` when a read has filled it. -/
def reqOf (bytes : List UInt8) : Req :=
  ⟨intOf (bytes.take 4), intOf ((bytes.drop 4).take 4), intOf (bytes.drop 8)⟩

def reqBytes (req : Req) : List UInt8 :=
  intBytes req.opCode ++ (intBytes req.pidN ++ intBytes req.mode)

/-- The last read of a connection. -/
inductive Ending
  /-- It returns 0. -/
  | eof
  /-- It returns -1. -/
  | error
  /-- It does not return: the client neither writes nor closes. -/
  | stall
deriving DecidableEq, Repr

/-- A connection: the reads that return data and the one after them. -/
structure Client where
  pieces : List (List UInt8)
  ending : Ending
  sizes : ∀ piece ∈ pieces, 0 < piece.length ∧ piece.length ≤ sizeofReq

/-- What the client has written. -/
def Client.stream (c : Client) : List UInt8 := c.pieces.flatten

/-- What `select` and `accept` bring in a turn of the loop. -/
inductive Turn
  | timeout
  | selectFails
  | acceptFails
  | client (c : Client)

/-- Where the loop is. -/
inductive Status
  | serving
  /-- `return NULL` after `select`. -/
  | selectFailed
  /-- `return NULL` after `read`. -/
  | readFailed
  /-- In a `read` that does not return. -/
  | blocked
deriving DecidableEq, Repr

/-- The calls of `send_bind` and `send_unbind` so far, with their pid; how many connections
have been accepted, whose descriptors are numbered in this order; and those of them that are
open. -/
structure Server where
  issued : List (OpCode × Int32)
  accepted : Nat
  opened : List Nat
  status : Status
deriving DecidableEq, Repr

def Server.start : Server := ⟨[], 0, [], .serving⟩

/-- `switch (unix_req.op_code)`. -/
def handle (req : Req) : List (OpCode × Int32) :=
  match OpCode.ofCode req.opCode with
  | some .bind => [(.bind, req.pidN)]
  | some .unbind => [(.unbind, req.pidN)]
  | some .find | none => []

/-- The loop over `read` and the tests of `rd` after it. -/
def Server.read (acc : Nat) (ending : Ending) : List (List UInt8) → Server → Server
  | [], s =>
    match ending with
    | .eof => { s with opened := s.opened.filter fun fd => fd ≠ acc }
    | .error => { s with status := .readFailed }
    | .stall => { s with status := .blocked }
  | piece :: pieces, s =>
    if piece.length = sizeofReq then
      read acc ending pieces { s with issued := s.issued ++ handle (reqOf piece) }
    else s

/-- A turn of the loop. -/
def Server.turn (s : Server) : Turn → Server
  | .timeout | .acceptFails => s
  | .selectFails => { s with status := .selectFailed }
  | .client c =>
    { s with accepted := s.accepted + 1, opened := s.opened ++ [s.accepted] }.read s.accepted
      c.ending c.pieces

/-- The loop of `process_socket`. -/
def processSocket : List Turn → Server → Server
  | [], s => s
  | t :: turns, s => if s.status = .serving then processSocket turns (s.turn t) else s

/-! ## The shipped client -/

theorem intOf_intBytes (x : Int32) : intOf (intBytes x) = x := by
  unfold intOf intBytes
  rw [ofLeBytes_leBytes x.toBitVec.isLt, BitVec.ofNat_toNat, BitVec.setWidth_eq]
  exact Int32.ofBitVec_toBitVec x

theorem length_intBytes (x : Int32) : (intBytes x).length = 4 := length_leBytes _ _

theorem length_reqBytes (req : Req) : (reqBytes req).length = sizeofReq := by
  unfold reqBytes
  simp only [List.length_append, length_intBytes]
  rfl

/-- A request is what its bytes hold. -/
theorem reqOf_reqBytes (req : Req) : reqOf (reqBytes req) = req := by
  unfold reqOf reqBytes
  have hop : (intBytes req.opCode).length = 4 := length_intBytes _
  have hpid : (intBytes req.pidN).length = 4 := length_intBytes _
  rw [List.take_left' hop, List.drop_left' hop, List.take_left' hpid,
    show 8 = 4 + 4 from rfl, ← List.drop_drop, List.drop_left' hop, List.drop_left' hpid,
    intOf_intBytes, intOf_intBytes, intOf_intBytes]

/-- `bind_uds` and `unbind_uds`, when the request is read in one piece: `write` and `close`.
They do not set `mode`. -/
def uds (op : OpCode) (pidArg getpid mode : Int32) : Client where
  pieces := [reqBytes ⟨op.code, if pidArg = 0 then getpid else pidArg, mode⟩]
  ending := .eof
  sizes := by
    intro piece hpiece
    rw [List.mem_singleton.mp hpiece, length_reqBytes]
    decide

def bindUds : Int32 → Int32 → Int32 → Client := uds .bind

def unbindUds : Int32 → Int32 → Int32 → Client := uds .unbind

end Ambix.Ctl
