import Ambix.Ctl.Session
import Ambix.Theorems.Clients
import Ambix.Theorems.Commands
import Ambix.Theorems.Draining

/-!
# Every request is delivered once

What a thread has asked for is what the module has taken from it, what is in flight and what
it has yet to send, in this order: in no interleaving is a request lost, sent twice or
overtaken by a later one. With the loops at the one end it follows that the module takes from
the stdin thread what was typed, and from the socket thread what the clients have sent.
-/

namespace Ambix.Ctl

open Ambix.Lib Ambix.Hyb

/-- What a thread has yet to send for the calls that it has begun. -/
def Call.more : Call → List Req
  | .op _ => []
  | .find _ rest => rest

def Control.pending : Control → List Req
  | .idle => []
  | .entering finds => finds
  | .exchange c .start => c.req :: c.more
  | .exchange c .locked => c.req :: c.more
  | .exchange c .filled => c.req :: c.more
  | .exchange c .sent => c.more
  | .exchange c .zeroed => c.more
  | .exchange c (.copying ..) => c.more
  | .reading c => c.more
  | .leaving => []

namespace World

variable (w : World) (t : Thread)

/-- What the module has taken from the thread, oldest first. -/
def taken : List Req := (w.log.filter fun e => e.thread = t).reverse.map Entry.req

def inFlight : List Req := (w.requests.filter fun q => q.1 = t).map Prod.snd

/-- What the thread has asked for. -/
def asked : List Req := w.taken t ++ w.inFlight t ++ (w.control t).pending

end World

section

variable {P : Platform} {t u : Thread} {w w' : World}

/-! ## One step -/

/-- A step that sends nothing. -/
theorem asked_of_same (hlog : w'.log = w.log) (hrequests : w'.requests = w.requests)
    (hpending : (w'.control u).pending = (w.control u).pending) : w'.asked u = w.asked u := by
  unfold World.asked World.taken World.inFlight
  rw [hlog, hrequests, hpending]

/-- The steps of another thread. -/
theorem Act.asked_other (hact : Act t w w') (hu : u ≠ t) : w'.asked u = w.asked u := by
  have hlog := hact.log
  have hcontrol := hact.control_ne hu
  cases hact with
  | send c hat =>
    unfold World.asked World.inFlight
    rw [hcontrol]
    have hne : ¬t = u := fun heq => hu heq.symm
    simp only [World.goto, World.taken, List.filter_append, List.filter_cons, hne,
      decide_false, Bool.false_eq_true, if_false, List.filter_nil, List.append_nil]
  | copy c passed len pos m hat hm hm' htype =>
    exact asked_of_same hlog (by cases c <;> rfl) (congrArg Control.pending hcontrol)
  | read c i hat => rfl
  | callOp _ _ _ _ | enter _ _ _ | lockPlacement _ _ _ _ | lockComm _ _ _ | fill _ _
  | zero _ _ | recv _ _ _ _ _ _ | unlockComm _ _ _ _ _ _ | opDone _ _ | findNext _ _ _ _
  | findLast _ _ | unlockPlacement _ =>
    exact asked_of_same hlog rfl (congrArg Control.pending hcontrol)

/-- **A thread that goes on asks for nothing new**, and drops nothing. -/
theorem Act.asked (hok : ThreadOk t w) (hact : Act t w w') (hbusy : w.control t ≠ .idle) :
    w'.asked t = w.asked t := by
  have hlog := hact.log
  cases hact with
  | callOp req h malloc hat => exact absurd hat hbusy
  | enter finds h hat => exact absurd hat hbusy
  | send c hat =>
    -- the buffer holds the request of the thread
    unfold ThreadOk at hok
    rw [hat] at hok
    obtain ⟨-, -, -, -, hfilled⟩ := hok
    unfold World.asked World.inFlight
    rw [goto_self, hat]
    simp only [World.goto, World.taken, hfilled, Control.pending, List.filter_append,
      List.map_append, List.filter_cons, List.filter_nil, decide_true, if_true, List.map_cons,
      List.map_nil, List.append_assoc, List.singleton_append]
  | copy c passed len pos m hat hm hm' htype =>
    refine asked_of_same hlog (by cases c <;> rfl) ?_
    rw [goto_self, hat]
    rfl
  | read c i hat => rfl
  | lockPlacement _ _ hat _ | lockComm _ hat _ | fill _ hat | zero _ hat | recv _ _ _ _ hat _
  | unlockComm _ _ _ _ hat _ | opDone _ hat | findNext _ _ _ hat | findLast _ hat
  | unlockPlacement hat =>
    refine asked_of_same hlog rfl ?_
    rw [goto_self, hat]
    rfl

/-- **The module takes the oldest request in flight.** -/
theorem Env.asked (henv : Env P w w') (u : Thread) : w'.asked u = w.asked u := by
  cases henv with
  | machine σ hσ => rfl
  | process t req rest hrequests =>
    unfold World.asked World.taken World.inFlight
    simp only [hrequests]
    by_cases hu : t = u
    · simp only [List.filter_cons, hu, decide_true, if_true, List.reverse_cons, List.map_append,
        List.map_cons, List.map_nil, List.append_assoc, List.singleton_append]
    · simp only [List.filter_cons, hu, decide_false, Bool.false_eq_true, if_false]

/-- A call that begins asks for its requests. -/
theorem Begins.asked {job : Job} (h : Begins t w job w') (hat : w.control t = .idle) :
    ∃ more, job.Asks more ∧ w'.asked t = w.asked t ++ more ∧ ∀ u, u ≠ t → w'.asked u = w.asked u := by
  have hpending : (w.control t).pending = [] := by
    rw [hat]
    rfl
  cases h with
  | op op pid mode malloc =>
    refine ⟨_, .op op pid mode, ?_, fun u hu => asked_of_same rfl rfl ?_⟩
    · unfold World.asked
      rw [goto_self, hpending, List.append_nil]
      rfl
    · rw [goto_ne _ hu _]
  | finds fs reqs hreqs =>
    refine ⟨reqs, .finds fs reqs hreqs, ?_, fun u hu => asked_of_same rfl rfl ?_⟩
    · unfold World.asked
      rw [goto_self, hpending, List.append_nil]
      rfl
    · rw [goto_ne _ hu _]
  | none => exact ⟨[], .none, (List.append_nil _).symm, fun _ _ => rfl⟩

/-! ## The loops -/

/-- A call that a thread may make. -/
def Job.For (t : Thread) : Job → Prop
  | .op code _ => (code = .bind ∨ code = .unbind) ∧ t ≠ .memcheck
  | .finds fs => ∀ reqs, List.Forall₂ AsksFind fs reqs → Section t reqs
  | .none => True

/-- The threads make such calls. -/
theorem Begins.act {job : Job} (hfor : job.For t) (h : Begins t w job w')
    (hat : w.control t = .idle) : w' = w ∨ Act t w w' := by
  cases h with
  | op op pid mode malloc =>
    obtain ⟨hop, ht⟩ := hfor
    refine .inr (.callOp _ ?_ malloc hat)
    rcases hop with rfl | rfl
    · exact .bind t pid mode ht
    · exact .unbind t pid mode ht
  | finds fs reqs hreqs => exact .inr (.enter _ (hfor reqs hreqs) hat)
  | none => exact .inl rfl

/-- A list of requests for two finds. -/
theorem asksFind_pair {f f' : Option Int32 × FindMode} {reqs : List Req}
    (h : List.Forall₂ AsksFind [f, f'] reqs) :
    ∃ n n', (∀ m, f.1 = some m → n = m) ∧ (∀ m, f'.1 = some m → n' = m) ∧
      reqs = [.of .find n f.2, .of .find n' f'.2] := by
  obtain ⟨req, reqs, ⟨n, hn, rfl⟩, hrest, rfl⟩ := List.forall₂_cons_left_iff.mp h
  obtain ⟨req', reqs, ⟨n', hn', rfl⟩, hnil, rfl⟩ := List.forall₂_cons_left_iff.mp hrest
  obtain rfl := List.forall₂_nil_left_iff.mp hnil
  exact ⟨n, n', hn, hn', rfl⟩

/-- A section of one find. -/
theorem find_for {n : Option Int32} {mode : FindMode}
    (h : ∀ n, Section t [.of .find n mode]) : (Job.finds [(n, mode)]).For t := by
  intro reqs hreqs
  obtain ⟨req, reqs, ⟨m, -, rfl⟩, hnil, rfl⟩ := List.forall₂_cons_left_iff.mp hreqs
  obtain rfl := List.forall₂_nil_left_iff.mp hnil
  exact h m

theorem pidCommand_for {S : Type} {send : Int32 → Action S} {message : String} {s : List Char}
    (h : ∀ pid, (send pid).job.For .stdin) : (pidCommand send message s).job.For .stdin := by
  unfold pidCommand
  split
  · trivial
  · simp only
    split
    · exact h _
    · trivial

/-- What `process_stdin` makes of a line. -/
theorem command_for {S : Type} (C : Console S) (line : List Char) :
    (C.command line).job.For .stdin := by
  unfold Console.command
  split
  · trivial
  · split
    · exact pidCommand_for fun _ => ⟨.inl rfl, by decide⟩
    · split
      · exact pidCommand_for fun _ => ⟨.inr rfl, by decide⟩
      · split
        · unfold sendCommand
          split
          · trivial
          · simp only
            split
            · trivial
            · split
              · exact find_for fun n => .send n _ (.inl rfl)
              · split
                · exact find_for fun n => .send n _ (.inr (.inl rfl))
                · split
                  · exact find_for fun n => .send n _ (.inr (.inr rfl))
                  · trivial
        · split
          · unfold switchCommand
            split
            · trivial
            · exact find_for fun n => .switch n
          · split
            · unfold toggleCommand
              split
              · trivial
              · split
                · trivial
                · split
                  · trivial
                  · split <;> trivial
            · split
              · rename_i a hset
                rcases C.sets _ _ _ hset with ⟨x, rfl⟩ | ⟨message, rfl⟩ <;> trivial
              · split <;> trivial

theorem processStdin_for {S : Type} (C : Console S) (lines : List (List Char)) {s : Stdin S}
    (h : ∀ a ∈ s.actions, a.job.For .stdin) :
    ∀ a ∈ (processStdin C lines s).actions, a.job.For .stdin := by
  induction lines generalizing s with
  | nil => exact h
  | cons line lines ih =>
    unfold processStdin
    split
    · exact h
    · refine ih fun a ha => ?_
      rw [Stdin.turn_actions] at ha
      rcases List.mem_append.mp ha with ha | ha
      · exact h a ha
      · exact List.mem_singleton.mp ha ▸ command_for C _

theorem handle_for (req : Req) : ∀ i ∈ handle req, (Job.op i.1 i.2).For .socket := by
  intro i hi
  unfold handle at hi
  split at hi
  · exact List.mem_singleton.mp hi ▸ ⟨.inl rfl, by decide⟩
  · exact List.mem_singleton.mp hi ▸ ⟨.inr rfl, by decide⟩
  · simp at hi
  · simp at hi

theorem processSocket_for (turns : List Turn) {s : Server}
    (h : ∀ i ∈ s.issued, (Job.op i.1 i.2).For .socket) :
    ∀ i ∈ (processSocket turns s).issued, (Job.op i.1 i.2).For .socket := by
  induction turns generalizing s with
  | nil => exact h
  | cons turn turns ih =>
    unfold processSocket
    split
    · refine ih fun i hi => ?_
      cases turn with
      | timeout => exact h i hi
      | selectFails => exact h i hi
      | acceptFails => exact h i hi
      | client c =>
        rw [Server.turn_client] at hi
        obtain ⟨made, hmade, hbegins⟩ := @Server.read_issues s.accepted c.ending c.pieces
          { s with accepted := s.accepted + 1, opened := s.opened ++ [s.accepted] }
        rw [hmade] at hi
        rcases List.mem_append.mp hi with hi | hi
        · exact h i hi
        · obtain ⟨record, -, hi⟩ := List.mem_flatMap.mp (hbegins.subset hi)
          exact handle_for _ i hi
    · exact h

/-- After a clear, `memcheck_placement` calls a switch or an intensive find. -/
theorem placeSwitch_for (pageSize : Int) (it : Iteration) (tiers : Tiers) :
    (sectionJob (hyb.placeSwitch P pageSize it tiers).finds).For .memcheck := by
  have hplacing : hyb.placing tiers = .switch ∨ hyb.placing tiers = .intensive := by
    unfold hyb
    simp only
    split
    · exact .inl rfl
    · exact .inr rfl
  unfold Controller.placeSwitch
  rcases hplacing with h | h <;> rw [h] <;> intro reqs hreqs
  · obtain ⟨n, n', hn, hn', rfl⟩ := asksFind_pair hreqs
    obtain rfl := hn _ rfl
    obtain rfl := hn' _ rfl
    exact .clearSwitch
  · obtain ⟨n, n', hn, -, rfl⟩ := asksFind_pair hreqs
    obtain rfl := hn _ rfl
    exact .clearIntensive n'

/-- What it calls under `switch_act`. -/
theorem switchPart_for (pageSize : Int) (it : Iteration) (prev : Int) (tiers : Tiers) :
    (sectionJob (hyb.switchPart P pageSize it prev tiers).finds).For .memcheck := by
  unfold Controller.switchPart
  split
  · split
    · trivial
    · split
      · exact placeSwitch_for pageSize it tiers
      · trivial
  · trivial

theorem threshPart_for (pageSize : Int) (it : Iteration) (tiers : Tiers) :
    (sectionJob (hyb.threshPart pageSize it tiers).1).For .memcheck := by
  unfold Controller.threshPart
  split
  · split
    · exact find_for fun n => .threshold n _ (.inl rfl)
    · split
      · exact find_for fun n => .threshold n _ (.inr rfl)
      · trivial
  · trivial

theorem memcheckJobs_for (pageSize : Int) (prev : Int) (its : List Iteration) :
    ∀ job ∈ memcheckJobs P pageSize prev its, job.For .memcheck := by
  induction its generalizing prev with
  | nil => exact fun job hjob => absurd hjob (by simp [memcheckJobs])
  | cons it its ih =>
    intro job hjob
    unfold memcheckJobs memcheckIteration at hjob
    rcases List.mem_append.mp hjob with hjob | hjob
    · simp only [List.mem_cons, List.not_mem_nil, or_false] at hjob
      rcases hjob with rfl | rfl
      · exact switchPart_for pageSize it prev _
      · exact threshPart_for pageSize it _
    · exact ih _ job hjob

/-- **The loops call what the threads may call.** -/
theorem controllerJobs_for (pageSize : Int) (input : List Char) (turns : List Turn)
    (its : List Iteration) (t : Thread) :
    ∀ job ∈ controllerJobs P pageSize input turns its t, job.For t := by
  intro job hjob
  cases t with
  | stdin =>
    obtain ⟨a, ha, rfl⟩ := List.mem_map.mp hjob
    exact processStdin_for hybConsole _ (s := .start)
      (fun a ha => absurd ha (by simp [Stdin.start])) a ha
  | socket =>
    obtain ⟨i, hi, rfl⟩ := List.mem_map.mp hjob
    exact processSocket_for turns (s := .start)
      (fun i hi => absurd hi (by simp [Server.start])) i hi
  | memcheck => exact memcheckJobs_for pageSize 0 its job hjob

end

/-! ## All interleavings -/

section

variable {P : Platform} {jobs : Thread → List Job}

/-- Of the calls `all` of a thread, `todo` are left, and it has asked for the others. -/
def Follows (w : World) (t : Thread) (todo all : List Job) : Prop :=
  ∃ did, did ++ todo = all ∧ Asked did (w.asked t)

/-- What is true of a session. -/
structure Session.Ok (P : Platform) (jobs : Thread → List Job) (s : Session) : Prop where
  threads : (threads P).toTSys.Reachable s.world
  follows : ∀ t, Follows s.world t (s.todo t) (jobs t)

theorem Follows.same {w w' : World} {t : Thread} {todo all : List Job}
    (h : Follows w t todo all) (hasked : w'.asked t = w.asked t) : Follows w' t todo all := by
  obtain ⟨did, hall, hdid⟩ := h
  exact ⟨did, hall, hasked ▸ hdid⟩

theorem Follows.next {w w' : World} {t : Thread} {job : Job} {todo all : List Job}
    (h : Follows w t (job :: todo) all) {more : List Req} (hasks : job.Asks more)
    (hasked : w'.asked t = w.asked t ++ more) : Follows w' t todo all := by
  obtain ⟨did, hall, hdid⟩ := h
  refine ⟨did ++ [job], by rw [List.append_assoc]; exact hall, ?_⟩
  rw [hasked]
  exact .snoc hdid hasks

theorem Follows.mem {w : World} {t : Thread} {job : Job} {todo all : List Job}
    (h : Follows w t (job :: todo) all) : job ∈ all := by
  obtain ⟨did, hall, -⟩ := h
  exact hall ▸ List.mem_append_right _ List.mem_cons_self

theorem session_ok (P : Platform) (hjobs : ∀ t, ∀ job ∈ jobs t, job.For t) :
    (session P jobs).Invariant (Session.Ok P jobs) := by
  apply TSys.Inductive.invariant
  constructor
  · rintro s ⟨hinit, htodo⟩
    have hinit' := hinit
    obtain ⟨-, hidle, -, -, hrequests, -, hlog⟩ := hinit'
    refine ⟨.init hinit, fun t => ⟨[], by rw [htodo]; rfl, ?_⟩⟩
    unfold World.asked World.taken World.inFlight
    rw [hlog, hrequests, hidle t]
    exact .nil
  · rintro s s' h hstep
    obtain ⟨hok, -⟩ := (threads_outline P).invariant s.world h.threads
    cases hstep with
    | env w henv => exact ⟨.step h.threads (.inl henv), fun t => (h.follows t).same (henv.asked t)⟩
    | act t w hact hbusy =>
      refine ⟨.step h.threads (.inr ⟨t, hact⟩), fun u => (h.follows u).same ?_⟩
      by_cases hu : u = t
      · subst hu
        exact hact.asked (hok u) hbusy
      · exact hact.asked_other hu
    | call t job more w htodo hat hbegins =>
      have hfollows := h.follows t
      rw [htodo] at hfollows
      obtain ⟨reqs, hasks, hasked, hothers⟩ := hbegins.asked hat
      constructor
      · rcases hbegins.act (hjobs t job hfollows.mem) hat with heq | hact
        · exact heq ▸ h.threads
        · exact h.threads.step (.inr ⟨t, hact⟩)
      · intro u
        show Follows w u (Function.update s.todo t more u) (jobs u)
        by_cases hu : u = t
        · subst hu
          rw [Function.update_self]
          exact hfollows.next hasks hasked
        · rw [Function.update_of_ne hu]
          exact (h.follows u).same (hothers u hu)

/-- A thread that is at rest has nothing to send. -/
theorem AtRest.asked {w : World} (h : AtRest w) (t : Thread) : w.asked t = w.taken t := by
  unfold World.asked World.inFlight
  rw [h.quiet.1, h.control t]
  simp [Control.pending]

/-- **Every request is delivered once and in order.** Whatever is typed, whoever connects and
whatever the memcheck thread reads, in every interleaving the threads run as the threads of the
controller do; and what the module has taken from a thread, what is in flight and what the
thread has yet to send are the requests of its calls so far. At rest the module has them all. -/
theorem requests_delivered (P : Platform) (pageSize : Int) (input : List Char) (turns : List Turn)
    (its : List Iteration) :
    (session P (controllerJobs P pageSize input turns its)).Invariant fun s =>
      s.Ok P (controllerJobs P pageSize input turns its) ∧
        (AtRest s.world → ∀ t, s.world.asked t = s.world.taken t) :=
  fun s hreach => ⟨session_ok P (controllerJobs_for pageSize input turns its) s hreach,
    fun h t => h.asked t⟩

end

/-! ## A typed session -/

/-- What the threads and the module work, they work in the session. -/
theorem session_after {P : Platform} {jobs : Thread → List Job} {s : Session} {w : World}
    (hreach : (session P jobs).Reachable s) (hrun : Relation.ReflTransGen (Works P) s.world w) :
    (session P jobs).Reachable { s with world := w } := by
  induction hrun with
  | refl => exact hreach
  | tail _ hwork ih =>
    rcases hwork with ⟨t, hact, hbusy, -⟩ | ⟨henv, -⟩
    · exact ih.step (.act t _ hact hbusy)
    · exact ih.step (.env _ henv)

/-- The lines that are typed. -/
def typedLines : List Char := "bind 1\nsend 1 nvram\n".toList

/-- The calls of that session. -/
def typedJobs : Thread → List Job := controllerJobs smallMachine 4096 typedLines [] []

/-- Both lines are done. -/
def typedWorld : World :=
  { foundWorld.goto .stdin .leaving with placementLock := none }.goto .stdin .idle

theorem typedJobs_stdin : typedJobs .stdin = [.op .bind 1, .finds [(some 1, .dram)]] := by
  have hrun : hybConsole.run typedLines = .done [.bind 1, .find 1 .dram] :=
    run_typed (C := hybConsole) [Command.bind 1, .send 1 .nvram] Command.line (command_typed rfl)
      (.inl rfl)
  show (hybConsole.run typedLines).actions.map Action.job = _
  rw [hrun]
  rfl

theorem typedWorld_reachable :
    ∃ todo, todo .stdin = [] ∧ (session smallMachine typedJobs).Reachable ⟨typedWorld, todo⟩ := by
  have hstart : (session smallMachine typedJobs).Reachable
      ⟨World.started (Sys.fresh [some [.of 8192 7 false false]]), typedJobs⟩ :=
    .init ⟨⟨⟨_, _, _, _, _, rfl⟩, fun _ => rfl, rfl, rfl, rfl, rfl, rfl⟩, rfl⟩
  have hcalled : (session smallMachine typedJobs).Reachable
      ⟨bindCalled, Function.update typedJobs .stdin [.finds [(some 1, .dram)]]⟩ :=
    hstart.step (.call .stdin (.op .bind 1) _ _ typedJobs_stdin rfl (.op .bind 1 0 fun _ => ⟨0, 0⟩))
  have hbound : (session smallMachine typedJobs).Reachable
      ⟨boundWorld, Function.update typedJobs .stdin [.finds [(some 1, .dram)]]⟩ :=
    session_after hcalled bindCalled_works
  have hentered := hbound.step (.call .stdin (.finds [(some 1, .dram)]) [] _ rfl rfl (.finds _ [.of .find 1 .dram]
      (.cons ⟨1, fun m hm => Option.some.inj hm, rfl⟩ .nil)))
  have hfound := session_after hentered boundWorld_works
  have hread := hfound.step (.act .stdin (foundWorld.goto .stdin .leaving)
    (.findLast (.of .find 1 .dram) rfl) (by
      show Control.reading _ ≠ .idle
      simp))
  exact ⟨_, rfl, hread.step (.act .stdin typedWorld
    (.unlockPlacement (goto_self _ _ _)) (by
      show Control.leaving ≠ .idle
      simp))⟩

theorem typedWorld_atRest : AtRest typedWorld where
  control t := by cases t <;> rfl
  commLock := rfl
  placementLock := rfl
  quiet := ⟨rfl, rfl⟩

/-- The module has taken both requests, once each and in the order of the lines. -/
theorem requests_delivered_typedWorld :
    Asked [.op .bind 1, .finds [(some 1, .dram)]] (typedWorld.asked .stdin) ∧
      typedWorld.asked .stdin = typedWorld.taken .stdin ∧
      typedWorld.taken .stdin = [⟨OpCode.bind.code, 1, 0⟩, .of .find 1 .dram] := by
  obtain ⟨todo, htodo, hreach⟩ := typedWorld_reachable
  obtain ⟨hok, hrest⟩ := requests_delivered smallMachine 4096 typedLines [] [] _ hreach
  obtain ⟨did, hall, hdid⟩ := hok.follows .stdin
  have hdone : did = [.op .bind 1, .finds [(some 1, .dram)]] := by
    rw [← typedJobs_stdin]
    exact (List.append_nil did).symm.trans (htodo ▸ hall)
  exact ⟨hdone ▸ hdid, hrest typedWorld_atRest .stdin, rfl⟩

end Ambix.Ctl
