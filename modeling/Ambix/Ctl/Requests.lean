import Ambix.Netlink
import Ambix.Lib.Arr

/-!
# `send_req` and `send_find`

The controller's side of an exchange. What `recvmsg` delivers is its return value and
the messages at the start of the zeroed receive buffer. `candidates` is an array whose
slots keep what an earlier reply left there.
-/

namespace Ambix.Ctl

open Ambix.Lib

/-- What `recvmsg` returns and puts into the buffer. -/
structure Received where
  len : Int
  msgs : List NlMsg
deriving DecidableEq, Repr

/-- The bytes that messages take one after the other. -/
def datagramLen : List NlMsg → Nat
  | [] => 0
  | m :: ms => nlmsgAlign m.nlmsgLen + datagramLen ms

/-- A datagram that arrives whole. -/
def Received.whole (msgs : List NlMsg) : Received := ⟨datagramLen msgs, msgs⟩

/-- `NLMSG_OK`. -/
def nlmsgOk (m : NlMsg) (len : Int) : Prop :=
  (nlmsgHdrlen : Int) ≤ len ∧ nlmsgHdrlen ≤ m.nlmsgLen ∧ (m.nlmsgLen : Int) ≤ len

instance (m : NlMsg) (len : Int) : Decidable (nlmsgOk m len) :=
  inferInstanceAs (Decidable (_ ∧ _ ∧ _))

/-- The loop of `send_req` over the messages, with `curr_pointer` as an index into
`out`. After the last message the buffer is zero and `NLMSG_OK` fails on its length. -/
def copyMsgs : List NlMsg → Int → Nat → Arr AddrInfo → Arr AddrInfo × Bool
  | [], _, _, out => (out, true)
  | m :: ms, len, pos, out =>
    if nlmsgOk m len then
      if m.nlmsgType = nlmsgError then (out, false)
      else
        let payloadLen := m.nlmsgLen - nlmsgSpace 0
        copyMsgs ms (len - nlmsgAlign m.nlmsgLen) (pos + payloadLen / sizeofAddrInfo)
          (out.write pos (m.payload.take (payloadLen / sizeofAddrInfo)))
    else (out, true)

/-- `send_req` from its `recvmsg` on: what it leaves in `*out` and what it returns. -/
def sendReq (r : Received) (out : Arr AddrInfo) : Arr AddrInfo × Bool :=
  copyMsgs r.msgs r.len 0 out

/-- What `send_bind` and `send_unbind` make of the exchange. `op_retval` is one entry that
comes from `malloc`, and they do not look at what `send_req` returns either. -/
def opDone (r : Received) (opRetval : Arr AddrInfo) : Int :=
  if ((sendReq r opRetval).1 0).pidRetval = 0 then 1 else 0

/-- `send_bind`. -/
def sendBind (r : Received) (opRetval : Arr AddrInfo) : Int := opDone r opRetval

/-- `send_unbind`. -/
def sendUnbind (r : Received) (opRetval : Arr AddrInfo) : Int := opDone r opRetval

/-- `while (candidates[++n_found].pid_retval > 0)` from index `i`, over `slots` slots;
`none` when it runs past them. -/
def scanFrom (candidates : Arr AddrInfo) : Nat → Nat → Option Nat
  | _, 0 => none
  | i, slots + 1 =>
    if 0 < (candidates i).pidRetval then scanFrom candidates (i + 1) slots else some i

/-- The `n_found` of `send_find`. The array has room for the codes of `MAX_N_FIND + 1`
entries. -/
def scan (candidates : Arr AddrInfo) : Option Nat := scanFrom candidates 0 (maxNFind + 1)

/-- What `send_find` goes on to do. -/
inductive Placement
  /-- `return 0`. -/
  | nothing
  /-- `do_migration`. -/
  | migrate (mode : FindMode) (nFound : Nat)
  /-- `do_switch`. -/
  | switch (nFound : Nat)
deriving DecidableEq, Repr

/-- The end of `send_find`, after the scan. -/
def findPlacement (mode : Int32) (nFound : Nat) : Placement :=
  if nFound = 0 then .nothing
  else
    match FindMode.ofCode mode with
    | some .dram => .migrate .dram nFound
    | some .nvram | some .nvramIntensive | some .nvramWrite => .migrate .nvram nFound
    | some .switch => .switch nFound
    | some .nvramClear | none => .nothing

/-- `send_find` up to the placement: the array it leaves and the placement it calls for,
`none` when the scan runs off the array. It does not look at what `send_req` returns. -/
def sendFind (mode : Int32) (r : Received) (candidates : Arr AddrInfo) :
    Arr AddrInfo × Option Placement :=
  let candidates := (sendReq r candidates).1
  (candidates, (scan candidates).map (findPlacement mode))

end Ambix.Ctl
