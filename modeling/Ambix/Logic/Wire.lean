import Ambix.Hyb.Reply
import Ambix.Ctl.Requests

/-!
# The reply on the wire

A reply is cut into full packets and a last one that has at least one entry, and the
receiver puts the payloads one after the other. Its length fields are exactly what the
packets were put with, so the reply comes out as it went in.
-/

namespace Ambix

open Ambix.Lib Ambix.Ctl Ambix.Hyb

/-! ## Receiving -/

/-- A message whose length field counts its entries, and which reports no error. -/
structure NlMsg.Sized (m : NlMsg) : Prop where
  len : m.nlmsgLen = nlmsgLength (m.payload.length * sizeofAddrInfo)
  type : m.nlmsgType ≠ nlmsgError

namespace NlMsg.Sized

variable {m : NlMsg}

theorem align (h : m.Sized) : nlmsgAlign m.nlmsgLen = m.nlmsgLen := by
  rw [h.len]
  refine nlmsgAlign_of_dvd ⟨m.payload.length * 4 + 4, ?_⟩
  unfold nlmsgLength sizeofAddrInfo nlmsgHdrlen
  omega

theorem ok (h : m.Sized) {len : Int} (hlen : (m.nlmsgLen : Int) ≤ len) : nlmsgOk m len := by
  have hl := h.len
  unfold nlmsgLength at hl
  exact ⟨by omega, by omega, hlen⟩

/-- The entries that fit a payload's length are all of its entries. -/
theorem entries (h : m.Sized) : (m.nlmsgLen - nlmsgSpace 0) / sizeofAddrInfo = m.payload.length := by
  have hl := h.len
  have hspace : nlmsgSpace 0 = nlmsgHdrlen := rfl
  unfold nlmsgLength at hl
  rw [hl, hspace, Nat.add_sub_cancel, Nat.mul_div_cancel _ (by decide)]

end NlMsg.Sized

/-- **Receiving**: sized messages of a whole datagram are copied one after the other. -/
theorem copyMsgs_sized {ms : List NlMsg} (h : ∀ m ∈ ms, m.Sized) (pos : Nat)
    (out : Arr AddrInfo) :
    copyMsgs ms (Received.whole ms).len pos out =
      (out.write pos (ms.flatMap NlMsg.payload), true) := by
  induction ms generalizing pos out with
  | nil => rfl
  | cons m ms ih =>
    have hm := h m List.mem_cons_self
    have hrest := fun x hx => h x (List.mem_cons_of_mem _ hx)
    have hlen : (Received.whole (m :: ms)).len = (m.nlmsgLen : Int) + (Received.whole ms).len := by
      simp only [Received.whole, datagramLen, hm.align]
      omega
    have hnonneg : 0 ≤ (Received.whole ms).len := by
      simp only [Received.whole]
      omega
    unfold copyMsgs
    rw [if_pos (hm.ok (by omega)), if_neg hm.type]
    simp only [hm.entries, hm.align, List.take_length]
    have hleft : (Received.whole (m :: ms)).len - (m.nlmsgLen : Int) = (Received.whole ms).len := by
      omega
    rw [hleft, ih hrest, List.flatMap_cons, Arr.write_append]

/-! ## Sending -/

/-- A positive number of entries as full packets and a last one. -/
theorem packets_cut {n : Nat} (h : 0 < n) :
    ∃ k, requiredPackets n = k + 1 ∧ 0 < lastPacketEntries n ∧
      lastPacketEntries n ≤ maxNPerPacket ∧ n = k * maxNPerPacket + lastPacketEntries n := by
  unfold requiredPackets lastPacketEntries
  rw [maxNPerPacket_eq]
  by_cases hrem : n % 256 = 0
  · refine ⟨n / 256 - 1, ?_, ?_, ?_, ?_⟩ <;> simp only [hrem, if_true, ne_eq, not_true, if_false] <;>
      omega
  · refine ⟨n / 256, ?_, ?_, ?_, ?_⟩ <;> simp only [hrem, if_false, ne_eq, not_false_eq_true, if_true] <;>
      omega

/-- The full packet number `i`. -/
def fullPacket (m : Mod) (i : Nat) : NlMsg :=
  ⟨nlmsgLength (maxNPerPacket * sizeofAddrInfo), 0, nlmFMulti,
    m.foundAddrs.slice (i * maxNPerPacket) maxNPerPacket⟩

/-- The room a full packet takes. -/
theorem space_packet : nlmsgSpace (maxNPerPacket * sizeofAddrInfo) = nlmsgLength maxPayload := rfl

theorem putPackets_eq (m : Mod) {k : Nat} {skb : SkBuff}
    (hroom : k * nlmsgLength maxPayload ≤ skb.room) :
    putPackets m skb k =
      some ⟨skb.room - k * nlmsgLength maxPayload, skb.msgs ++ (List.range k).map (fullPacket m)⟩ := by
  induction k with
  | zero => simp [putPackets]
  | succ k ih =>
    have hput : putPackets m skb (k + 1) = (putPackets m skb k).bind fun skb =>
        nlmsgPut skb 0 (maxNPerPacket * sizeofAddrInfo) nlmFMulti
          (m.foundAddrs.slice (k * maxNPerPacket) maxNPerPacket) := by
      unfold putPackets
      rw [List.range_succ, List.foldlM_append]
      simp
    rw [Nat.succ_mul] at hroom
    rw [hput, ih (by omega), Option.bind_some, nlmsgPut, space_packet, if_neg (by simp only; omega)]
    simp only [Option.some.injEq, SkBuff.mk.injEq]
    refine ⟨by rw [Nat.succ_mul]; omega, ?_⟩
    rw [List.range_succ, List.map_append, List.append_assoc]
    rfl

/-- The last packet. -/
def lastPacket (m : Mod) : NlMsg :=
  ⟨nlmsgLength (lastPacketEntries m.nFound * sizeofAddrInfo), nlmsgDone, 0,
    m.foundAddrs.slice ((requiredPackets m.nFound - 1) * maxNPerPacket) (lastPacketEntries m.nFound)⟩

/-- The packets of a reply. -/
def packets (m : Mod) : List NlMsg :=
  (List.range (requiredPackets m.nFound - 1)).map (fullPacket m) ++ [lastPacket m]

theorem packets_sized (m : Mod) : ∀ x ∈ packets m, x.Sized := by
  intro x hx
  rcases List.mem_append.mp hx with hx | hx
  · obtain ⟨i, _, rfl⟩ := List.mem_map.mp hx
    exact ⟨by simp [fullPacket], by simp [fullPacket, nlmsgError]⟩
  · rw [List.mem_singleton.mp hx]
    exact ⟨by simp [lastPacket], by simp [lastPacket, nlmsgError, nlmsgDone]⟩

/-- The payloads of the packets one after the other are the entries. -/
theorem packets_payload {m : Mod} (h : 0 < m.nFound) :
    (packets m).flatMap NlMsg.payload = m.reply := by
  obtain ⟨k, hrequired, _, _, hn⟩ := packets_cut h
  unfold packets lastPacket
  rw [hrequired, Nat.add_sub_cancel, List.flatMap_append, List.flatMap_map, Mod.reply]
  nth_rewrite 3 [hn]
  rw [Arr.slice_add, ← Arr.slice_mul, Nat.zero_add, List.flatMap_def]
  simp [fullPacket]

/-- **The reply as it is sent**: its packets fit the buffer. -/
theorem replyMsgs_eq {m : Mod} (h : 0 < m.nFound) : replyMsgs m = some (packets m) := by
  obtain ⟨k, hrequired, hpos, hle, hn⟩ := packets_cut h
  have hroom : nlmsgSpace (4112 * (k + 1)) = 4112 * (k + 1) + 16 := by
    refine nlmsgAlign_of_dvd ⟨1028 * (k + 1) + 4, ?_⟩
    unfold nlmsgLength nlmsgHdrlen
    omega
  have hpage : nlmsgLength maxPayload = 4112 := rfl
  have hlast : nlmsgSpace (lastPacketEntries m.nFound * sizeofAddrInfo) ≤ 4112 := by
    rw [nlmsgSpace_entries]
    unfold sizeofAddrInfo nlmsgHdrlen
    rw [maxNPerPacket_eq] at hle
    omega
  unfold replyMsgs packets lastPacket
  simp only [hrequired, Nat.add_sub_cancel, nlmsgNew, hpage, hroom]
  rw [putPackets_eq m (by rw [hpage]; simp only; omega)]
  simp only [Option.bind_eq_bind, Option.bind_some, nlmsgPut, hpage]
  rw [if_neg (by omega)]
  rfl

/-- The receiver's array is overwritten with the reply. -/
theorem sendReq_packets {m : Mod} (h : 0 < m.nFound) (out : Arr AddrInfo) :
    sendReq (.whole (packets m)) out = (out.write 0 m.reply, true) := by
  rw [← packets_payload h]
  exact copyMsgs_sized (packets_sized m) 0 out

/-- **The round trip** of a reply: the receiver's array starts with it. -/
theorem sendReq_reply {m : Mod} (h : 0 < m.nFound) :
    ∃ msgs, replyMsgs m = some msgs ∧
      ∀ out, (sendReq (.whole msgs) out).2 = true ∧
        (sendReq (.whole msgs) out).1.slice 0 m.nFound = m.reply := by
  refine ⟨packets m, replyMsgs_eq h, fun out => ?_⟩
  rw [sendReq_packets h]
  refine ⟨rfl, ?_⟩
  have hslice := Arr.slice_write m.reply out 0 0
  simpa [Mod.reply] using hslice

end Ambix
