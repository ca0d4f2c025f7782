import Mathlib.Data.Int.Init
import Mathlib.Data.List.Basic

/-!
# `ambix.h`: constants and wire structures shared by module and controller

The macros are expanded as the preprocessor does. `MAX_N_FIND` is not
parenthesised in the source; in the contexts modelled here (`int_min` arguments,
the numerator of `MAX_N_SWITCH`) the expansion and the value agree.
-/

namespace Ambix

/-- `MAX_PIDS`. -/
def maxPids : Nat := 500

/-- `MAX_PID_N`, which is `INT_MAX`. -/
def maxPidN : Int := 2147483647

/-- `MAX_PAYLOAD`, in bytes. -/
def maxPayload : Nat := 4096

/-- `MAX_PACKETS`. -/
def maxPackets : Nat := 512

/-- `sizeof(addr_info_t)`: an 8-byte address, a 4-byte int and 4 bytes of padding. -/
def sizeofAddrInfo : Nat := 16

/-- `MAX_N_PER_PACKET`. -/
def maxNPerPacket : Nat := maxPayload / sizeofAddrInfo

/-- `MAX_N_FIND`: every slot of the largest reply but the return-code entry. -/
def maxNFind : Nat := maxNPerPacket * maxPackets - 1

/-- `MAX_N_SWITCH`: pairs that fit besides the separator and the return-code entry. -/
def maxNSwitch : Nat := (maxNFind - 1) / 2

theorem maxNFind_eq : maxNFind = 131071 := rfl
theorem maxNSwitch_eq : maxNSwitch = 65535 := rfl
theorem maxNPerPacket_eq : maxNPerPacket = 256 := rfl

/-- `MAX_ADDRESS` on 64-bit x86. -/
def maxAddress : Nat := 0xFFFF880000000000

/-- The `mode` values of a FIND request. -/
inductive FindMode
  | dram
  | nvram
  | nvramIntensive
  | switch
  | nvramClear
  | nvramWrite
deriving DecidableEq, Repr

/-- The `#define`d code of a mode. -/
def FindMode.code : FindMode → Int32
  | .dram => 0
  | .nvram => 1
  | .nvramIntensive => 2
  | .switch => 3
  | .nvramClear => 4
  | .nvramWrite => 5

/-- The case of `switch (req->mode)` an integer selects; `none` is `default`. -/
def FindMode.ofCode (c : Int32) : Option FindMode :=
  if c = 0 then some .dram
  else if c = 1 then some .nvram
  else if c = 2 then some .nvramIntensive
  else if c = 3 then some .switch
  else if c = 4 then some .nvramClear
  else if c = 5 then some .nvramWrite
  else none

@[simp] theorem FindMode.ofCode_code (m : FindMode) : ofCode m.code = some m := by
  cases m <;> rfl

/-- The `op_code` values. -/
inductive OpCode
  | find
  | bind
  | unbind
deriving DecidableEq, Repr

def OpCode.code : OpCode → Int32
  | .find => 0
  | .bind => 1
  | .unbind => 2

/-- The case of `switch (req->op_code)` an integer selects; `none` is `default`. -/
def OpCode.ofCode (c : Int32) : Option OpCode :=
  if c = 0 then some .find
  else if c = 1 then some .bind
  else if c = 2 then some .unbind
  else none

@[simp] theorem OpCode.ofCode_code (o : OpCode) : ofCode o.code = some o := by
  cases o <;> rfl

/-- `addr_info_t`. -/
structure AddrInfo where
  addr : Nat
  pidRetval : Int
deriving DecidableEq, Repr, Inhabited

/-- `req_t`. Its three fields are C ints, whatever the sender put there. -/
structure Req where
  opCode : Int32
  pidN : Int32
  mode : Int32
deriving DecidableEq, Repr

/-- A request as its sender fills it in. -/
def Req.of (op : OpCode) (pidN : Int32) (mode : FindMode) : Req := ⟨op.code, pidN, mode.code⟩

/-- A request's count, taken for a pid, is at most `MAX_PID_N`. -/
theorem Req.pidN_le (req : Req) : req.pidN.toInt ≤ maxPidN :=
  Int32.toInt_le req.pidN

/-- The memory layout of the machine: the two node lists `ambix.h` is edited to
hold and the node each page frame belongs to (`pfn_to_nid`). -/
structure Platform where
  dramNodes : List Int
  nvramNodes : List Int
  pfnToNid : Nat → Int
  /-- `ambix.h`: DRAM node ids must always be lower than NVRAM node ids. -/
  dram_lt_nvram : ∀ d ∈ dramNodes, ∀ v ∈ nvramNodes, d < v

/-- The node lists as they stand in the source, over a given frame layout. -/
def Platform.shipped (pfnToNid : Nat → Int) : Platform where
  dramNodes := [0]
  nvramNodes := [2]
  pfnToNid := pfnToNid
  dram_lt_nvram := by simp

/-- `int_min`. -/
def intMin (val1 val2 : Int) : Int := if val1 > val2 then val2 else val1

theorem intMin_eq_min (a b : Int) : intMin a b = min a b := by
  unfold intMin
  split <;> omega

/-- `contains`: whether a node is in the list that `mode` selects. -/
def contains (P : Platform) (value : Int) (mode : FindMode) : Bool :=
  (if mode = .nvram then P.nvramNodes else P.dramNodes).any fun x => x == value

@[simp] theorem contains_dram (P : Platform) (value : Int) :
    contains P value .dram = true ↔ value ∈ P.dramNodes := by
  simp [contains]

@[simp] theorem contains_nvram (P : Platform) (value : Int) :
    contains P value .nvram = true ↔ value ∈ P.nvramNodes := by
  simp [contains]

/-- No node belongs to both tiers. -/
theorem contains_exclusive (P : Platform) (value : Int)
    (hd : contains P value .dram = true) : contains P value .nvram = false := by
  by_contra hn
  have hv := (contains_nvram P value).mp (by simpa using hn)
  exact absurd (P.dram_lt_nvram _ ((contains_dram P value).mp hd) _ hv) (by omega)

/-- A C int after arithmetic that may overflow: the kernel is compiled with
wrapping signed arithmetic. -/
def wrapInt (x : Int) : Int := x.bmod 0x100000000

theorem wrapInt_of_mem {x : Int} (h1 : -2147483648 ≤ x) (h2 : x < 2147483648) :
    wrapInt x = x := by
  unfold wrapInt
  exact Int.bmod_eq_of_le (by omega) (by omega)

/-- The sign bit of a wrapped value. -/
theorem wrapInt_nonneg_iff (x : Int) : 0 ≤ wrapInt x ↔ x % 4294967296 < 2147483648 := by
  unfold wrapInt
  rw [Int.bmod_def]
  split <;> omega

end Ambix
