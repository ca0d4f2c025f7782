import Ambix.Netlink
import Ambix.Hyb.Request

/-!
# `placement_nl_process_msg`

The handler of one message: process the request, then cut `found_addrs[0..n_found)`
into packets of `MAX_N_PER_PACKET` entries, the last one of type `NLMSG_DONE`, all of
them in one socket buffer.
-/

namespace Ambix.Hyb

open Ambix.Lib

/-- `last_packet_entries`. -/
def lastPacketEntries (nFound : Nat) : Nat :=
  let lastPacketRemainder := nFound % maxNPerPacket
  if lastPacketRemainder = 0 then maxNPerPacket else lastPacketRemainder

/-- `required_packets`. -/
def requiredPackets (nFound : Nat) : Nat :=
  nFound / maxNPerPacket + if nFound % maxNPerPacket ≠ 0 then 1 else 0

/-- The loop over all but the last packet. -/
def putPackets (m : Mod) (skb : SkBuff) (packets : Nat) : Option SkBuff :=
  (List.range packets).foldlM (fun skb i =>
    nlmsgPut skb 0 (maxNPerPacket * sizeofAddrInfo) nlmFMulti
      (m.foundAddrs.slice (i * maxNPerPacket) maxNPerPacket)) skb

/-- The reply as it is sent; `none` when a packet does not fit the buffer. -/
def replyMsgs (m : Mod) : Option (List NlMsg) := do
  let required := requiredPackets m.nFound
  let skb := nlmsgNew (nlmsgLength maxPayload * required)
  let skb ← putPackets m skb (required - 1)
  let entries := lastPacketEntries m.nFound
  let skb ← nlmsgPut skb nlmsgDone (entries * sizeofAddrInfo) 0
    (m.foundAddrs.slice ((required - 1) * maxNPerPacket) entries)
  return skb.msgs

/-- `placement_nl_process_msg`: the state it leaves and the reply, if it gets that far. -/
def placementNlProcessMsg (P : Platform) (req : Option Req) (σ : Sys) :
    Outcome × Option (List NlMsg) :=
  match processReq P req σ with
  | .replied σ' => (.replied σ', replyMsgs σ'.mod)
  | .oops σ' => (.oops σ', none)

end Ambix.Hyb
