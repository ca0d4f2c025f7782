import Ambix.Logic.Wire

/-!
# The framing of a reply round-trips

The sender counts in entries and puts every packet where the aligned space of the ones
before it ends. The receiver goes by the length fields. The two agree on where a packet
starts and on how many entries it has, for every length of a reply that fits
`MAX_PACKETS` packets.
-/

namespace Ambix.Hyb

open Ambix.Lib Ambix.Ctl

/-- The bytes of a socket buffer: the message that starts at an offset. `nlmsg_put` moves
the tail of the buffer by the aligned size of a header and the entries. -/
def layout : List NlMsg → Nat → Nat → Option NlMsg
  | [], _, _ => none
  | m :: ms, start, offset =>
    if offset = start then some m
    else layout ms (start + nlmsgSpace (m.payload.length * sizeofAddrInfo)) offset

/-- The messages that the loop of `send_req` comes to from an offset on, `NLMSG_NEXT`
after `NLMSG_NEXT`. A zeroed header fails `NLMSG_OK`. Every turn uses up a part of `len`,
so a number of turns bounds the loop. -/
def visitedAt (buffer : Nat → Option NlMsg) : Nat → Nat → Int → List NlMsg
  | 0, _, _ => []
  | turns + 1, offset, len =>
    match buffer offset with
    | none => []
    | some m =>
      if nlmsgOk m len then
        if m.nlmsgType = nlmsgError then [m]
        else m :: visitedAt buffer turns (offset + nlmsgAlign m.nlmsgLen)
          (len - nlmsgAlign m.nlmsgLen)
      else []

theorem layout_next {m : NlMsg} {ms : List NlMsg} {start offset : Nat}
    (h : start + nlmsgSpace (m.payload.length * sizeofAddrInfo) ≤ offset) :
    layout (m :: ms) start offset =
      layout ms (start + nlmsgSpace (m.payload.length * sizeofAddrInfo)) offset := by
  have hspace := nlmsgSpace_entries m.payload.length
  unfold nlmsgHdrlen at hspace
  show (if offset = start then some m else _) = _
  rw [if_neg (by omega)]

/-- The bytes that sized messages take. -/
theorem datagramLen_sized {ms : List NlMsg} (h : ∀ m ∈ ms, m.Sized) :
    datagramLen ms =
      (ms.flatMap NlMsg.payload).length * sizeofAddrInfo + ms.length * nlmsgHdrlen := by
  induction ms with
  | nil => rfl
  | cons m ms ih =>
    have hm := h m List.mem_cons_self
    have hlen := hm.len
    have hrest := ih fun x hx => h x (List.mem_cons_of_mem _ hx)
    unfold nlmsgLength at hlen
    rw [datagramLen, hm.align, hlen, hrest, List.flatMap_cons, List.length_append,
      List.length_cons, Nat.add_mul, Nat.add_mul]
    omega

/-- **The walk over the bytes** of sized messages comes to each of them, in order. -/
theorem visitedAt_layout {ms : List NlMsg} (h : ∀ m ∈ ms, m.Sized) {buffer : Nat → Option NlMsg}
    {start turns : Nat} (hbuffer : ∀ offset, start ≤ offset → buffer offset = layout ms start offset)
    (hturns : ms.length ≤ turns) :
    visitedAt buffer turns start (datagramLen ms) = ms := by
  induction ms generalizing start turns with
  | nil =>
    cases turns with
    | zero => rfl
    | succ turns =>
      unfold visitedAt
      rw [hbuffer start (Nat.le_refl _)]
      rfl
  | cons m ms ih =>
    have hm := h m List.mem_cons_self
    obtain ⟨turns, rfl⟩ : ∃ k, turns = k + 1 := by
      rw [List.length_cons] at hturns
      exact ⟨turns - 1, by omega⟩
    have hhere : buffer start = some m := by
      rw [hbuffer start (Nat.le_refl _)]
      show (if start = start then some m else _) = some m
      rw [if_pos rfl]
    -- where the receiver goes on is where the sender put the next message
    have hnext : nlmsgAlign m.nlmsgLen = nlmsgSpace (m.payload.length * sizeofAddrInfo) := by
      rw [hm.len]
      rfl
    have hlen : (datagramLen (m :: ms) : Int) - (nlmsgAlign m.nlmsgLen : Nat) =
        datagramLen ms := by
      rw [datagramLen]
      omega
    have hok : nlmsgOk m (datagramLen (m :: ms)) := by
      apply hm.ok
      rw [datagramLen, hm.align]
      omega
    unfold visitedAt
    rw [hhere]
    simp only
    rw [if_pos hok, if_neg hm.type, hlen, hnext]
    congr 1
    apply ih (fun x hx => h x (List.mem_cons_of_mem _ hx))
    · intro offset hoffset
      rw [hbuffer offset (by omega), layout_next hoffset]
    · rw [List.length_cons] at hturns
      omega

section

variable {m : Mod}

theorem length_packets (h : 0 < m.nFound) : (packets m).length = requiredPackets m.nFound := by
  obtain ⟨k, hrequired, _⟩ := packets_cut h
  rw [packets, hrequired]
  simp

/-- `ceil(n_found / MAX_N_PER_PACKET)`. -/
theorem requiredPackets_eq (n : Nat) :
    requiredPackets n = (n + (maxNPerPacket - 1)) / maxNPerPacket := by
  unfold requiredPackets
  rw [maxNPerPacket_eq]
  split <;> omega

/-- All but the last packet are full; the last one has the type `NLMSG_DONE`. -/
theorem packets_shape (h : 0 < m.nFound) :
    ∃ full last, packets m = full ++ [last] ∧
      (∀ x ∈ full, x.payload.length = maxNPerPacket ∧ x.nlmsgType ≠ nlmsgDone ∧
        x.nlmsgFlags = nlmFMulti) ∧
      last.nlmsgType = nlmsgDone ∧ 0 < last.payload.length ∧
        last.payload.length ≤ maxNPerPacket := by
  obtain ⟨k, _, hpos, hle, _⟩ := packets_cut h
  refine ⟨_, _, rfl, ?_, rfl, ?_, ?_⟩
  · intro x hx
    obtain ⟨i, _, rfl⟩ := List.mem_map.mp hx
    exact ⟨Arr.length_slice _ _ _, by simp [fullPacket, nlmsgDone], rfl⟩
  · rw [lastPacket, Arr.length_slice]
    exact hpos
  · rw [lastPacket, Arr.length_slice]
    exact hle

/-- **Framing.** A reply of up to `MAX_N_PER_PACKET * MAX_PACKETS` entries is cut into
as few packets as there can be, all but the last one full; they fit the socket buffer
and the receive buffer. The receiver comes to each packet once, and its array holds the
entries in order and what it held before after them. -/
theorem reply_framing (hpos : 0 < m.nFound) (hmax : m.nFound ≤ maxNPerPacket * maxPackets)
    (out : Arr AddrInfo) :
    ∃ msgs, replyMsgs m = some msgs ∧
      datagramLen msgs ≤ nlmsgSpace maxPayload * maxPackets ∧
      msgs.length = (m.nFound + (maxNPerPacket - 1)) / maxNPerPacket ∧
      (∃ full last, msgs = full ++ [last] ∧
        (∀ x ∈ full, x.payload.length = maxNPerPacket ∧ x.nlmsgType ≠ nlmsgDone ∧
          x.nlmsgFlags = nlmFMulti) ∧
        last.nlmsgType = nlmsgDone ∧ 0 < last.payload.length ∧
          last.payload.length ≤ maxNPerPacket) ∧
      (∀ turns, msgs.length ≤ turns →
        visitedAt (layout msgs 0) turns 0 (datagramLen msgs) = msgs) ∧
      (sendReq (.whole msgs) out).2 = true ∧
      (∀ i, i < m.nFound → (sendReq (.whole msgs) out).1 i = m.foundAddrs i) ∧
      ∀ i, m.nFound ≤ i → (sendReq (.whole msgs) out).1 i = out i := by
  have hlen := length_packets hpos
  have hbytes := datagramLen_sized (packets_sized m)
  have hsend : ∀ i, (sendReq (.whole (packets m)) out).1 i =
      if i < m.nFound then m.foundAddrs i else out i := by
    intro i
    rw [sendReq_packets hpos, Mod.reply]
    show Arr.write out 0 (Arr.slice m.foundAddrs 0 m.nFound) i = _
    rw [Arr.write_slice]
    simp
  refine ⟨packets m, replyMsgs_eq hpos, ?_, ?_, packets_shape hpos, ?_, ?_, ?_, ?_⟩
  · -- 16 bytes of header for each packet and 16 for each entry
    have hrequired := requiredPackets_eq m.nFound
    have hspace : nlmsgSpace maxPayload * maxPackets = 4112 * 512 := rfl
    have hroom : maxNPerPacket * maxPackets = 256 * 512 := rfl
    rw [packets_payload hpos, Mod.reply, Arr.length_slice, hlen, hrequired, maxNPerPacket_eq] at hbytes
    unfold sizeofAddrInfo nlmsgHdrlen at hbytes
    omega
  · rw [hlen, requiredPackets_eq]
  · intro turns hturns
    exact visitedAt_layout (packets_sized m) (fun _ _ => rfl) hturns
  · rw [sendReq_packets hpos]
  · intro i hi
    rw [hsend, if_pos hi]
  · intro i hi
    rw [hsend, if_neg (by omega)]

end

/-- A reply of one full packet and one entry more. -/
def twoPackets : Mod :=
  { Mod.loaded (fun i => ⟨4096 * i, 1⟩) (fun _ => ⟨0, 0⟩) (fun _ => ⟨0, 0⟩) (fun _ => null)
      (fun _ => 0) with nFound := 257 }

theorem reply_framing_twoPackets :
    ∃ msgs, replyMsgs twoPackets = some msgs ∧ msgs.length = 2 ∧
      ∀ i, i < 257 → (sendReq (.whole msgs) fun _ => ⟨0, 0⟩).1 i = ⟨4096 * i, 1⟩ := by
  obtain ⟨msgs, hmsgs, _, hlen, _, _, _, hheld, _⟩ :=
    reply_framing (m := twoPackets) (by decide) (by decide) fun _ => ⟨0, 0⟩
  exact ⟨msgs, hmsgs, hlen, hheld⟩

end Ambix.Hyb
