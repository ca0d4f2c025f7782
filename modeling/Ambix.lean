import Ambix.Lib.TSys
import Ambix.Lib.Fault
import Ambix.Lib.Threads
import Ambix.Lib.Arr
import Ambix.Lib.QuotaScan
import Ambix.Lib.Ring
import Ambix.Lib.Batch
import Ambix.Lib.While
import Ambix.Lib.Level
import Ambix.Lib.Outputs
import Ambix.Lib.Records
import Ambix.Lib.Tally
import Ambix.Lib.Drain
import Ambix.Lib.Replace
import Ambix.Lib.CString
import Ambix.Lib.History
import Ambix.Lib.Budget
import Ambix.Header
import Ambix.Netlink
import Ambix.Hyb.Kernel
import Ambix.Hyb.State
import Ambix.Hyb.Registry
import Ambix.Hyb.Callbacks
import Ambix.Hyb.PageWalk
import Ambix.Hyb.Switch
import Ambix.Hyb.Request
import Ambix.Hyb.Machine
import Ambix.Hyb.Reply
import Ambix.MixM.Registry
import Ambix.MixM.Callbacks
import Ambix.MixM.PageWalk
import Ambix.MixM.Request
import Ambix.MixM.Memcheck
import Ambix.Ctl.Requests
import Ambix.Ctl.Migration
import Ambix.Ctl.Switch
import Ambix.Ctl.Threads
import Ambix.Ctl.Checked
import Ambix.Ctl.Memcheck
import Ambix.Ctl.Memdata
import Ambix.Ctl.Socket
import Ambix.Ctl.MemdataFile
import Ambix.Ctl.Stdin
import Ambix.Ctl.Session
import Ambix.Ctl.Client
import Ambix.Pcm.Memory
import Ambix.Logic.Registry
import Ambix.Logic.WalkRule
import Ambix.Logic.Policy
import Ambix.Logic.Visits
import Ambix.Logic.Cycle
import Ambix.Logic.MemWalk
import Ambix.Logic.Hand
import Ambix.Logic.Resume
import Ambix.Logic.HandOwner
import Ambix.Logic.NextWalk
import Ambix.Logic.Ranges
import Ambix.Logic.OverQuota
import Ambix.Logic.Origin
import Ambix.Logic.Commits
import Ambix.Logic.Sight
import Ambix.Logic.Tables
import Ambix.Logic.Round
import Ambix.Logic.Frame
import Ambix.Logic.SwitchWalk
import Ambix.Logic.Invariant
import Ambix.Logic.Counts
import Ambix.Logic.Find
import Ambix.Logic.Wire
import Ambix.Logic.Reading
import Ambix.Logic.Submission
import Ambix.Logic.MixMCallbacks
import Ambix.Logic.MixMFind
import Ambix.Logic.MixMInvariant
import Ambix.Logic.Exclusion
import Ambix.Logic.References
import Ambix.Logic.Runs
import Ambix.Logic.Dealing
import Ambix.Logic.DealOut
import Ambix.Logic.Bounds
import Ambix.Logic.Ledger
import Ambix.Logic.Memcheck
import Ambix.Theorems.Registry
import Ambix.Theorems.Duplicates
import Ambix.Theorems.WriteIsolation
import Ambix.Theorems.ClockHand
import Ambix.Theorems.Ranges
import Ambix.Theorems.NegativeCounts
import Ambix.Theorems.Aging
import Ambix.Theorems.ReplyGrammar
import Ambix.Theorems.Migration
import Ambix.Theorems.Framing
import Ambix.Theorems.Allocation
import Ambix.Theorems.FailedExchange
import Ambix.Theorems.MissingSpaces
import Ambix.Theorems.Isolation
import Ambix.Theorems.PidReuse
import Ambix.Theorems.ReferenceBalance
import Ambix.Theorems.Capacity
import Ambix.Theorems.Modifications
import Ambix.Theorems.RequestFrame
import Ambix.Theorems.Pairing
import Ambix.Theorems.Placement
import Ambix.Theorems.SwitchPairs
import Ambix.Theorems.SwitchCount
import Ambix.Theorems.Thresholds
import Ambix.Theorems.Narrowing
import Ambix.Theorems.MixMCounts
import Ambix.Theorems.Clients
import Ambix.Theorems.UnreadSample
import Ambix.Theorems.Totals
import Ambix.Theorems.Draining
import Ambix.Theorems.SwitchMigration
import Ambix.Theorems.Provenance
import Ambix.Theorems.Samples
import Ambix.Theorems.Commands
import Ambix.Theorems.Delivery
import Ambix.Theorems.Library
import Ambix.Theorems.Moved
import Ambix.Theorems.ClosedLoop
import Ambix.Theorems.MixMMigration
import Ambix.Theorems.Bandwidths
import Ambix.Theorems.Writes
import Ambix.Theorems.Examinations
import Ambix.Theorems.MachineLoop
