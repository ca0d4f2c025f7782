import Ambix.Hyb.Reply
import Ambix.Ctl.Requests
import Ambix.Lib.Threads

/-!
# The threads of the controller

The stdin, socket and memcheck threads with the two locks, the netlink socket, and the
module at the other end. A step is one lock operation, send, receive or access to a shared
array; the module processes one request at a time. Requests and replies in flight are
tagged with the thread they belong to, which the code does not see.

Nothing on the way fails: `nlmsg_new` and `nlmsg_unicast` succeed in the module, `sendmsg` and
`recvmsg` in `send_req`, which checks neither result. A request that reaches the module goes
without a reply only when the module does not come back from it.
-/

namespace Ambix.Ctl

open Ambix.Lib

inductive Thread
  | stdin
  | socket
  | memcheck
deriving DecidableEq, Repr

/-- The finds a thread makes while it holds `placement_lock`, from lock to unlock:
`process_stdin` one, `memcheck_placement` a clear and its find, or one for a threshold. -/
inductive Section : Thread → List Req → Prop
  | send (n : Int32) (mode : FindMode) (h : mode = .nvram ∨ mode = .dram ∨ mode = .nvramWrite) :
      Section .stdin [.of .find n mode]
  | switch (n : Int32) : Section .stdin [.of .find n .switch]
  | clearSwitch : Section .memcheck [.of .find 0 .nvramClear, .of .find 65535 .switch]
  | clearIntensive (n : Int32) :
      Section .memcheck [.of .find 0 .nvramClear, .of .find n .nvramIntensive]
  | threshold (n : Int32) (mode : FindMode) (h : mode = .dram ∨ mode = .nvram) :
      Section .memcheck [.of .find n mode]

/-- The requests of `send_bind` and `send_unbind`, which take no lock of their own. Their
`mode` is not set. -/
inductive Op : Thread → Req → Prop
  | bind (t : Thread) (pid mode : Int32) (h : t ≠ .memcheck) : Op t ⟨OpCode.bind.code, pid, mode⟩
  | unbind (t : Thread) (pid mode : Int32) (h : t ≠ .memcheck) :
      Op t ⟨OpCode.unbind.code, pid, mode⟩

/-- A call of `send_bind` or `send_unbind`, or of `send_find` with the finds that follow it
in the same section. -/
inductive Call
  | op (req : Req)
  | find (req : Req) (rest : List Req)

def Call.req : Call → Req
  | .op req => req
  | .find req _ => req

/-- Whether the caller holds `placement_lock`. -/
def Call.isFind : Call → Bool
  | .op _ => false
  | .find .. => true

/-- Where a thread is in `send_req`. -/
inductive Phase
  /-- Before it locks `comm_lock`. -/
  | start
  | locked
  /-- The request is in `nlmh_out`. -/
  | filled
  | sent
  /-- `buffer` is zeroed. -/
  | zeroed
  /-- In the loop, `passed` messages into `buffer`, with `len` and `curr_pointer`. -/
  | copying (passed : Nat) (len : Int) (pos : Nat)

/-- Where a thread is. -/
inductive Control
  | idle
  /-- Before it locks `placement_lock` for these finds. -/
  | entering (finds : List Req)
  /-- In `send_req`. -/
  | exchange (c : Call) (phase : Phase)
  /-- After `send_req`: it reads `op_retval`, or scans `candidates` and migrates. -/
  | reading (c : Call)
  /-- Before it unlocks `placement_lock`. -/
  | leaving

/-- A request that reached the module, and what it replied. -/
structure Entry where
  thread : Thread
  req : Req
  reply : List AddrInfo

/-- The controller and the module. -/
structure World where
  machine : Hyb.Sys
  control : Thread → Control
  commLock : Option Thread
  placementLock : Option Thread
  nlmhOut : Req
  /-- In flight to the module. -/
  requests : List (Thread × Req)
  /-- In flight to the controller. -/
  replies : List (Thread × List NlMsg)
  buffer : List NlMsg
  candidates : Arr AddrInfo
  /-- The `op_retval` of each thread's call. -/
  opRetval : Thread → Arr AddrInfo
  /-- Ghost: what reached the module, latest first. -/
  log : List Entry

namespace World

variable (w : World)

/-- The thread goes on at `c`. -/
def goto (t : Thread) (c : Control) : World := { w with control := Function.update w.control t c }

/-- The `out` of `send_req`. -/
def out (t : Thread) : Call → Arr AddrInfo
  | .op _ => w.opRetval t
  | .find .. => w.candidates

def setOut (t : Thread) (a : Arr AddrInfo) : Call → World
  | .op _ => { w with opRetval := Function.update w.opRetval t a }
  | .find .. => { w with candidates := a }

end World

/-- The entries that the loop takes from a message. -/
def entryCount (m : NlMsg) : Nat := (m.nlmsgLen - nlmsgSpace 0) / sizeofAddrInfo

/-- One step of a thread. -/
inductive Act (t : Thread) (w : World) : World → Prop
  | callOp (req : Req) (h : Op t req) (malloc : Arr AddrInfo) (hat : w.control t = .idle) :
      Act t w ({ w with opRetval := Function.update w.opRetval t malloc }.goto t
        (.exchange (.op req) .start))
  | enter (finds : List Req) (h : Section t finds) (hat : w.control t = .idle) :
      Act t w (w.goto t (.entering finds))
  | lockPlacement (req : Req) (rest : List Req) (hat : w.control t = .entering (req :: rest))
      (hfree : w.placementLock = none) :
      Act t w ({ w with placementLock := some t }.goto t (.exchange (.find req rest) .start))
  | lockComm (c : Call) (hat : w.control t = .exchange c .start) (hfree : w.commLock = none) :
      Act t w ({ w with commLock := some t }.goto t (.exchange c .locked))
  | fill (c : Call) (hat : w.control t = .exchange c .locked) :
      Act t w ({ w with nlmhOut := c.req }.goto t (.exchange c .filled))
  | send (c : Call) (hat : w.control t = .exchange c .filled) :
      Act t w ({ w with requests := w.requests ++ [(t, w.nlmhOut)] }.goto t (.exchange c .sent))
  | zero (c : Call) (hat : w.control t = .exchange c .sent) :
      Act t w ({ w with buffer := [] }.goto t (.exchange c .zeroed))
  | recv (c : Call) (u : Thread) (msgs : List NlMsg) (rest : List (Thread × List NlMsg))
      (hat : w.control t = .exchange c .zeroed) (hreplies : w.replies = (u, msgs) :: rest) :
      Act t w ({ w with replies := rest, buffer := msgs }.goto t
        (.exchange c (.copying 0 (datagramLen msgs) 0)))
  | copy (c : Call) (passed : Nat) (len : Int) (pos : Nat) (m : NlMsg)
      (hat : w.control t = .exchange c (.copying passed len pos))
      (hm : w.buffer[passed]? = some m) (hok : nlmsgOk m len) (htype : m.nlmsgType ≠ nlmsgError) :
      Act t w ((w.setOut t ((w.out t c).write pos (m.payload.take (entryCount m))) c).goto t
        (.exchange c (.copying (passed + 1) (len - nlmsgAlign m.nlmsgLen)
          (pos + entryCount m))))
  | unlockComm (c : Call) (passed : Nat) (len : Int) (pos : Nat)
      (hat : w.control t = .exchange c (.copying passed len pos))
      (hend : ∀ m, w.buffer[passed]? = some m → nlmsgOk m len → m.nlmsgType = nlmsgError) :
      Act t w ({ w with commLock := none }.goto t (.reading c))
  /-- One access to the array that was received into. -/
  | read (c : Call) (i : Nat) (hat : w.control t = .reading c) : Act t w w
  | opDone (req : Req) (hat : w.control t = .reading (.op req)) : Act t w (w.goto t .idle)
  | findNext (req next : Req) (rest : List Req)
      (hat : w.control t = .reading (.find req (next :: rest))) :
      Act t w (w.goto t (.exchange (.find next rest) .start))
  | findLast (req : Req) (hat : w.control t = .reading (.find req [])) : Act t w (w.goto t .leaving)
  | unlockPlacement (hat : w.control t = .leaving) :
      Act t w ({ w with placementLock := none }.goto t .idle)

/-- The rest: the module processes the oldest request and sends its reply, if it comes
back from it, and the machine does what it does between two requests. -/
inductive Env (P : Platform) (w : World) : World → Prop
  | process (t : Thread) (req : Req) (rest : List (Thread × Req))
      (hrequests : w.requests = (t, req) :: rest) :
      Env P w
        { w with
          machine := (Hyb.placementNlProcessMsg P (some req) w.machine).1.sys
          requests := rest
          replies := w.replies ++
            ((Hyb.placementNlProcessMsg P (some req) w.machine).2.map fun msgs => (t, msgs)).toList
          log := ⟨t, req, (Hyb.placementNlProcessMsg P (some req) w.machine).1.reply⟩ :: w.log }
  | machine (σ : Hyb.Sys) (h : Hyb.EnvStep w.machine σ) : Env P w { w with machine := σ }

/-- All interleavings of the three threads and the module. -/
def threads (P : Platform) : Threads Thread World where
  init w := Hyb.Loaded w.machine ∧ (∀ t, w.control t = .idle) ∧ w.commLock = none ∧
    w.placementLock = none ∧ w.requests = [] ∧ w.replies = [] ∧ w.log = []
  act := Act
  env := Env P

end Ambix.Ctl
