import Ambix.Ctl.Memcheck
import Ambix.Lib.Records

/-!
# `read_memdata`

The record of a sample, in the file and in memory. `read_memdata` returns the memory that it
has allocated however the read ends, and records nothing about it.
-/

namespace Ambix.Ctl

open Ambix.Lib

/-- `sizeof(memdata_t)`: six floats and four 64-bit totals. -/
def sizeofMemdata : Nat := 6 * 4 + 4 * 8

/-- The value of the float with these bits. An infinity and what is not a number have none. -/
def floatOf (bits : Nat) : Option ℚ :=
  let sign : ℚ := if bits / 2147483648 % 2 = 1 then -1 else 1
  let exponent := bits / 8388608 % 256
  let fraction := bits % 8388608
  if exponent = 255 then none
  else if exponent = 0 then some (sign * fraction / 2 ^ 149)
  else some (sign * (8388608 + fraction : Nat) * 2 ^ exponent / 2 ^ 150)

/-- The bytes of a record as the controller reads them. It does not use the totals, which are
behind the floats. -/
def Memdata.ofBytes (bytes : List UInt8) : Memdata where
  sysDramReads := floatOf (field 0 4 bytes)
  sysDramWrites := floatOf (field 4 4 bytes)
  sysPmmReads := floatOf (field 8 4 bytes)
  sysPmmWrites := floatOf (field 12 4 bytes)
  sysPmmAppBW := floatOf (field 16 4 bytes)
  sysPmmMemBW := floatOf (field 20 4 bytes)

/-- A `memdata_t` with the bits of its floats. -/
structure MemdataBits where
  sysDramReads : UInt32
  sysDramWrites : UInt32
  sysPmmReads : UInt32
  sysPmmWrites : UInt32
  sysPmmAppBW : UInt32
  sysPmmMemBW : UInt32
  totalRDram : UInt64
  totalWDram : UInt64
  totalROptane : UInt64
  totalWOptane : UInt64

/-- What `write_memdata` writes. -/
def MemdataBits.bytes (md : MemdataBits) : List UInt8 :=
  leBytes 4 md.sysDramReads.toNat ++ (leBytes 4 md.sysDramWrites.toNat ++
    (leBytes 4 md.sysPmmReads.toNat ++ (leBytes 4 md.sysPmmWrites.toNat ++
      (leBytes 4 md.sysPmmAppBW.toNat ++ (leBytes 4 md.sysPmmMemBW.toNat ++
        (leBytes 8 md.totalRDram.toNat ++ (leBytes 8 md.totalWDram.toNat ++
          (leBytes 8 md.totalROptane.toNat ++ leBytes 8 md.totalWOptane.toNat))))))))

def MemdataBits.value (md : MemdataBits) : Memdata where
  sysDramReads := floatOf md.sysDramReads.toNat
  sysDramWrites := floatOf md.sysDramWrites.toNat
  sysPmmReads := floatOf md.sysPmmReads.toNat
  sysPmmWrites := floatOf md.sysPmmWrites.toNat
  sysPmmAppBW := floatOf md.sysPmmAppBW.toNat
  sysPmmMemBW := floatOf md.sysPmmMemBW.toNat

/-- What a call of `read_memdata` meets. -/
structure MemdataRead where
  /-- What `malloc` returns, with whatever it holds, -/
  fresh : List UInt8
  fresh_length : fresh.length = sizeofMemdata
  /-- and the bytes that can be read of the file, up to its end or an error. There are none
  when it cannot be opened. -/
  file : Option (List UInt8)

/-- The memory when `read_memdata` returns it. -/
def MemdataRead.memory (r : MemdataRead) : List UInt8 :=
  match r.file with
  | none => r.fresh
  | some bytes => fill r.fresh bytes

/-- `read_memdata`. It returns the same pointer after an error. -/
def readMemdata (r : MemdataRead) : Memdata := .ofBytes r.memory

/-- `fopen` succeeds and `fread` returns 1. -/
def MemdataRead.Complete (r : MemdataRead) : Prop :=
  ∃ bytes, r.file = some bytes ∧ sizeofMemdata ≤ bytes.length

/-- An iteration with what its call of `read_memdata` meets, if it makes one. -/
def Iteration.reading (it : Iteration) (r : MemdataRead) : Iteration :=
  { it with md := some (readMemdata r) }

/-! ## The record -/

theorem MemdataBits.length_bytes (md : MemdataBits) : md.bytes.length = sizeofMemdata := by
  simp only [bytes, List.length_append, length_leBytes]
  rfl

/-- What is read of a record is what was written. -/
theorem MemdataBits.ofBytes_bytes (md : MemdataBits) : Memdata.ofBytes md.bytes = md.value := by
  have hlt : ∀ x : UInt32, x.toNat < 256 ^ 4 := fun x => x.toNat_lt
  unfold Memdata.ofBytes MemdataBits.value MemdataBits.bytes
  simp only [field_skip, length_leBytes, field_leBytes, hlt, le_refl, Nat.reduceLeDiff,
    Nat.reduceSub]

section

variable {r r' : MemdataRead}

/-- **The file takes a sample over**: what `write_memdata` wrote is what `read_memdata` gets. -/
theorem readMemdata_written {md : MemdataBits} (h : r.file = some md.bytes) :
    readMemdata r = md.value := by
  have hlen : r.fresh.length = md.bytes.length := by rw [r.fresh_length, md.length_bytes]
  unfold readMemdata MemdataRead.memory
  rw [h]
  simp only
  rw [fill_of_le (le_of_eq hlen), hlen, List.take_length, md.ofBytes_bytes]

end

end Ambix.Ctl
