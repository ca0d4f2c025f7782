import Ambix.Ctl.Socket
import Ambix.Ctl.Stdin

/-!
# The controller with its inputs

The three threads do what their loops make of the commands, the clients and the readings, one
call after the other. What a loop calls is a list here: it depends on the inputs and not on
the other threads. Everything else is as the threads are.
-/

namespace Ambix.Ctl

open Ambix.Lib

/-- What a loop calls. -/
inductive Job
  /-- `send_bind` or `send_unbind`. -/
  | op (op : OpCode) (pid : Int32)
  /-- `send_find`, once or more while it holds `placement_lock`. A count that comes from a
  conversion without result is `none`. -/
  | finds (fs : List (Option Int32 × FindMode))
  /-- Nothing that needs the module. -/
  | none
deriving DecidableEq, Repr

def Action.job {S : Type} : Action S → Job
  | .bind pid => .op .bind pid
  | .unbind pid => .op .unbind pid
  | .find n mode => .finds [(some n, mode)]
  | .toggle _ | .set _ | .clear | .complain _ | .nothing => .none

/-- The finds between a lock and an unlock of `memcheck_placement`. -/
def sectionJob : List Find → Job
  | [] => .none
  | f :: fs => .finds ((f :: fs).map fun f => (f.nPages.map Int32.ofInt, f.mode))

/-- An iteration: what comes under `switch_act`, and under `thresh_act`. -/
def memcheckIteration (P : Platform) (pageSize : Int) (it : Iteration) (prev : Int) : List Job :=
  let s := hyb.switchPart P pageSize it prev (readTiers P it.sizes)
  [sectionJob s.finds, sectionJob (hyb.threshPart pageSize it s.tiers).1]

/-- The loop of `memcheck_placement`. -/
def memcheckJobs (P : Platform) (pageSize : Int) : Int → List Iteration → List Job
  | _, [] => []
  | prev, it :: its => memcheckIteration P pageSize it prev ++
      memcheckJobs P pageSize (memcheckPlacement P pageSize it prev).prevMemdataLmod its

/-- What the three loops call. -/
def controllerJobs (P : Platform) (pageSize : Int) (input : List Char) (turns : List Turn)
    (its : List Iteration) : Thread → List Job
  | .stdin => (hybConsole.run input).actions.map Action.job
  | .socket => (processSocket turns .start).issued.map fun i => .op i.1 i.2
  | .memcheck => memcheckJobs P pageSize 0 its

/-- The request of a find. -/
def AsksFind (f : Option Int32 × FindMode) (req : Req) : Prop :=
  ∃ n, (∀ m, f.1 = some m → n = m) ∧ req = .of .find n f.2

/-- The requests of a call. The `mode` of an operation is not set. -/
inductive Job.Asks : Job → List Req → Prop
  | op (op : OpCode) (pid mode : Int32) : Asks (.op op pid) [⟨op.code, pid, mode⟩]
  | finds (fs : List (Option Int32 × FindMode)) (reqs : List Req)
      (h : List.Forall₂ AsksFind fs reqs) : Asks (.finds fs) reqs
  | none : Asks .none []

/-- And of one call after the other. -/
inductive Asked : List Job → List Req → Prop
  | nil : Asked [] []
  | snoc {jobs : List Job} {reqs : List Req} {job : Job} {more : List Req} (h : Asked jobs reqs)
      (hjob : job.Asks more) : Asked (jobs ++ [job]) (reqs ++ more)

/-- The thread begins a call, or does what needs none. -/
inductive Begins (t : Thread) (w : World) : Job → World → Prop
  | op (op : OpCode) (pid mode : Int32) (malloc : Arr AddrInfo) :
      Begins t w (.op op pid)
        ({ w with opRetval := Function.update w.opRetval t malloc }.goto t
          (.exchange (.op ⟨op.code, pid, mode⟩) .start))
  | finds (fs : List (Option Int32 × FindMode)) (reqs : List Req)
      (h : List.Forall₂ AsksFind fs reqs) : Begins t w (.finds fs) (w.goto t (.entering reqs))
  | none : Begins t w .none w

/-- The controller, and what its loops are yet to call. -/
structure Session where
  world : World
  todo : Thread → List Job

inductive Session.Step (P : Platform) (s : Session) : Session → Prop
  | env (w : World) (h : Env P s.world w) : Step P s { s with world := w }
  | act (t : Thread) (w : World) (h : Act t s.world w) (hbusy : s.world.control t ≠ .idle) :
      Step P s { s with world := w }
  | call (t : Thread) (job : Job) (jobs : List Job) (w : World) (h : s.todo t = job :: jobs)
      (hat : s.world.control t = .idle) (hbegins : Begins t s.world job w) :
      Step P s ⟨w, Function.update s.todo t jobs⟩

/-- All interleavings of the threads, with these calls. -/
def session (P : Platform) (jobs : Thread → List Job) : TSys Session where
  init s := (threads P).init s.world ∧ s.todo = jobs
  step s s' := s.Step P s'

end Ambix.Ctl
