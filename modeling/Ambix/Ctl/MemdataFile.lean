import Ambix.Ctl.Memdata
import Ambix.Lib.Replace
import Ambix.Lib.TSys

/-!
# The memdata file

`pcm-memory` writes a sample into a temporary file and renames it; the memcheck thread looks
at the time of the file, opens it and reads. The two programs share nothing else. A step is
one call, so that any call of the one may come between two calls of the other.
-/

namespace Ambix.Ctl

open Ambix.Lib

/-- Where the memcheck thread is with the file. -/
inductive Polling
  | idle
  /-- `get_memdata_mtime` has returned a new time, which is in `prev_memdata_lmod` now. -/
  | noted
  /-- `read_memdata` has opened a file and has these bytes of it. -/
  | opened (i : Nat) (bytes : List UInt8)

/-- A sample that an iteration goes on with. -/
structure Sample where
  lmod : Nat
  /-- Ghost: the record that was published when it looked at the time, -/
  seen : Nat
  /-- and the one whose file it opened. -/
  got : Nat
  /-- What it read, if it could open the file. -/
  bytes : Option (List UInt8)

/-- What an iteration makes of the file, while `switch_act` is set. -/
inductive Look
  /-- `Old or invalid memdata values.` -/
  | ignored (lmod : Nat)
  | sampled (s : Sample)

def Look.lmod : Look → Nat
  | .ignored lmod => lmod
  | .sampled s => s.lmod

def Look.sample : Look → Option Sample
  | .ignored _ => none
  | .sampled s => some s

/-- The file, and what the memcheck thread knows of it. -/
structure Sampling where
  files : Replacing UInt8
  polling : Polling
  prevMemdataLmod : Nat
  /-- Ghost: the record that was published when `prev_memdata_lmod` was set. -/
  seen : Nat
  /-- Ghost: the looks so far, latest first. -/
  looks : List Look

namespace Sampling

variable (w : Sampling)

/-- `get_memdata_mtime`. -/
def getMemdataMtime : Nat :=
  match w.files.disk.published with
  | some i => (w.files.disk.inodes i).mtime
  | none => 0

/-- The samples so far, latest first. -/
def samples : List Sample := w.looks.filterMap Look.sample

/-- `memdata_lmod == 0 || memdata_lmod == prev_memdata_lmod`. -/
def Ignores : Prop := w.getMemdataMtime = 0 ∨ w.getMemdataMtime = w.prevMemdataLmod

/-- A call of one of the two programs. -/
inductive Step (record : Nat → MemdataBits) : Sampling → Prop
  | write (files : Replacing UInt8) (h : w.files.Step (fun n => (record n).bytes) files) :
      Step record { w with files := files }
  | ignore (hat : w.polling = .idle) (h : w.Ignores) :
      Step record { w with looks := .ignored w.getMemdataMtime :: w.looks }
  | statFails (hat : w.polling = .idle) : Step record { w with looks := .ignored 0 :: w.looks }
  | note (i : Nat) (hat : w.polling = .idle) (h : ¬w.Ignores)
      (hi : w.files.disk.published = some i) :
      Step record { w with
        polling := .noted, prevMemdataLmod := w.getMemdataMtime, seen := w.files.holds i }
  | openFails (hat : w.polling = .noted) :
      Step record { w with
        polling := .idle
        looks := .sampled ⟨w.prevMemdataLmod, w.seen, w.seen, none⟩ :: w.looks }
  | open (i : Nat) (hat : w.polling = .noted) (hi : w.files.disk.published = some i) :
      Step record { w with polling := .opened i [] }
  | read (i : Nat) (bytes piece : List UInt8) (hat : w.polling = .opened i bytes)
      (h : bytes ++ piece <+: (w.files.disk.inodes i).data) :
      Step record { w with polling := .opened i (bytes ++ piece) }
  /-- At the end of the file, at an error, or when the record is complete. -/
  | close (i : Nat) (bytes : List UInt8) (hat : w.polling = .opened i bytes) :
      Step record { w with
        polling := .idle
        looks := .sampled ⟨w.prevMemdataLmod, w.seen, w.files.holds i, some bytes⟩ :: w.looks }

end Sampling

/-- All interleavings of the two programs, for the records that `pcm-memory` writes. -/
def memdataFile (record : Nat → MemdataBits) : TSys Sampling where
  init w := w.files = .start ∧ w.polling = .idle ∧ w.prevMemdataLmod = 0 ∧ w.looks = []
  step w w' := w.Step record w'

end Ambix.Ctl
