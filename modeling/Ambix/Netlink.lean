import Ambix.Header

/-!
# Netlink messages

The length macros of `linux/netlink.h` and the messages the module and the controller
exchange. A payload is the list of entries it holds; what a length field says about it
is kept beside it, since the receiver goes by the length fields alone.
-/

namespace Ambix

/-- `NLMSG_HDRLEN`, the aligned size of `struct nlmsghdr`. -/
def nlmsgHdrlen : Nat := 16

/-- `NLMSG_ALIGN`. -/
def nlmsgAlign (len : Nat) : Nat := (len + 3) / 4 * 4

/-- `NLMSG_LENGTH`. -/
def nlmsgLength (len : Nat) : Nat := len + nlmsgHdrlen

/-- `NLMSG_SPACE`, which is also `nlmsg_total_size`. -/
def nlmsgSpace (len : Nat) : Nat := nlmsgAlign (nlmsgLength len)

/-- `NLMSG_ERROR`. -/
def nlmsgError : Nat := 2

/-- `NLMSG_DONE`. -/
def nlmsgDone : Nat := 3

/-- `NLM_F_MULTI`. -/
def nlmFMulti : Nat := 2

/-- A message: the fields of its `struct nlmsghdr` that are read and its payload. -/
structure NlMsg where
  nlmsgLen : Nat
  nlmsgType : Nat
  nlmsgFlags : Nat
  payload : List AddrInfo
deriving DecidableEq, Repr

/-- A socket buffer being filled: the bytes left and the messages put so far. -/
structure SkBuff where
  room : Nat
  msgs : List NlMsg
deriving DecidableEq, Repr

/-- `nlmsg_new`, when the allocation succeeds. -/
def nlmsgNew (payload : Nat) : SkBuff := ⟨nlmsgSpace payload, []⟩

/-- `nlmsg_put` and the copy of the entries to the data it reserves. There is no check
for the `NULL` it returns when the buffer has no room: `none` is that fault. -/
def nlmsgPut (skb : SkBuff) (type len flags : Nat) (entries : List AddrInfo) : Option SkBuff :=
  if skb.room < nlmsgSpace len then none
  else some ⟨skb.room - nlmsgSpace len, skb.msgs ++ [⟨nlmsgLength len, type, flags, entries⟩]⟩

/-- A multiple of 4 is aligned already. -/
theorem nlmsgAlign_of_dvd {len : Nat} (h : 4 ∣ len) : nlmsgAlign len = len := by
  obtain ⟨k, rfl⟩ := h
  unfold nlmsgAlign
  omega

/-- The space of a number of entries. -/
theorem nlmsgSpace_entries (n : Nat) :
    nlmsgSpace (n * sizeofAddrInfo) = n * sizeofAddrInfo + nlmsgHdrlen :=
  nlmsgAlign_of_dvd ⟨n * 4 + 4, by unfold nlmsgLength sizeofAddrInfo nlmsgHdrlen; omega⟩

end Ambix
