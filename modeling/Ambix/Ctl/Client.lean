import Ambix.Ctl.Socket
import Ambix.Lib.CString

/-!
# The client library

`bind_uds` and `unbind_uds` of `ambix-client.c`, with what the host answers, and the programs
`bind` and `unbind`: what a call returns, and the connection that `process_socket` accepts from
it.
-/

namespace Ambix.Ctl

open Ambix.Lib

/-- What the host answers a call. -/
inductive Attempt
  | socketFails
  | connectFails
  /-- `write` returns how many of the bytes it has taken, or -1. -/
  | writes (n : Option (Fin (sizeofReq + 1)))
deriving DecidableEq, Repr

/-- A call of `bind_uds` or `unbind_uds`. `getpid` is its process, and `mode` what the record
holds where it is not set. -/
structure UdsCall where
  op : OpCode
  pidArg : Int32
  getpid : Int32
  mode : Int32
  attempt : Attempt
  isOp : op = .bind ∨ op = .unbind

namespace UdsCall

variable (c : UdsCall)

/-- `pid`. -/
def pid : Int32 := if c.pidArg = 0 then c.getpid else c.pidArg

/-- `bind_req` and `unbind_req`. -/
def req : Req := ⟨c.op.code, c.pid, c.mode⟩

/-- What it returns. -/
def returns : Int :=
  match c.attempt with
  | .writes (some n) => if n.val = sizeofReq then 1 else 0
  | .writes none | .socketFails | .connectFails => 0

/-- What has been written, and `close`. What one `write` has taken, one `read` returns. -/
def connection : Option Client :=
  match c.attempt with
  | .socketFails | .connectFails => none
  | .writes none => some ⟨[], .eof, by simp⟩
  | .writes (some n) => some {
      pieces := [(reqBytes c.req).take n].filter fun piece => 0 < piece.length
      ending := .eof
      sizes := by
        intro piece hpiece
        obtain ⟨hmem, hpos⟩ := List.mem_filter.mp hpiece
        rw [List.mem_singleton.mp hmem] at hpos ⊢
        refine ⟨of_decide_eq_true hpos, ?_⟩
        rw [List.length_take, length_reqBytes]
        exact Nat.min_le_right _ _ }

end UdsCall

/-! ## `bind.c` and `unbind.c` -/

/-- `atoi`: `strtol` converted to int. -/
def atoi (s : List Char) : Int32 := Int32.ofInt (strtol s)

/-- `main` of `bind` and of `unbind`, by their arguments: their call, and what they return. -/
def udsMain (op : OpCode) (isOp : op = .bind ∨ op = .unbind) (argv : List (List Char))
    (getpid mode : Int32) (attempt : Attempt) : Option UdsCall × Int :=
  match argv with
  | [_, arg] => (some ⟨op, atoi arg, getpid, mode, attempt, isOp⟩, 0)
  | _ => (none, 1)

end Ambix.Ctl
