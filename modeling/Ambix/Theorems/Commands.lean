import Ambix.Ctl.Stdin

/-!
# Commands as they are typed

What is typed line by line is what is done, up to the line `exit`: the reading of a line by
`fgets`, `strtok` and `strtol` undoes the writing of a command, on both controllers. What
does not fit, a pid that is out of range or a count that is too large for a switch, is dealt with
on the number that was typed.
-/

namespace Ambix.Ctl

open Ambix.Lib

/-- The argument of `send`: where the pages go. -/
inductive Target
  | dram
  | nvram
  | dramwr
deriving DecidableEq, Repr

def Target.word : Target → List Char
  | .dram => "dram".toList
  | .nvram => "nvram".toList
  | .dramwr => "dramwr".toList

def Target.mode : Target → FindMode
  | .dram => .nvram
  | .nvram => .dram
  | .dramwr => .nvramWrite

def Component.word : Component → List Char
  | .switch => "switch".toList
  | .thresh => "thresh".toList
  | .all => "all".toList

/-- A command of the list that `process_stdin` prints. -/
inductive Command
  | bind (pid : Int64)
  | unbind (pid : Int64)
  | send (n : Int64) (target : Target)
  | switch (n : Int64)
  | toggle (c : Component)
  | clear
deriving DecidableEq, Repr

/-- The words of a command. -/
def Command.words : Command → List (List Char)
  | .bind pid => ["bind".toList, decimal pid.toInt]
  | .unbind pid => ["unbind".toList, decimal pid.toInt]
  | .send n target => ["send".toList, decimal n.toInt, target.word]
  | .switch n => ["switch".toList, decimal n.toInt]
  | .toggle c => ["toggle".toList, c.word]
  | .clear => ["clear".toList]

/-- A command of the other controller. -/
inductive MixMCommand
  | command (c : Command)
  | ratio (n : Int64)
  | cacheThresh (n : Int64)
deriving DecidableEq, Repr

def MixMCommand.words : MixMCommand → List (List Char)
  | .command c => c.words
  | .ratio n => ["set".toList, "ratio".toList, decimal n.toInt]
  | .cacheThresh n => ["set".toList, "cacheThresh".toList, decimal n.toInt]

/-- Words with blanks between them, as a line. -/
def typed (words : List (List Char)) : List Char := [' '].intercalate words ++ ['\n']

variable {S α : Type}

/-- What a command is to do. -/
def Command.action : Command → Action S
  | .bind pid =>
    if 0 < pid.toInt ∧ pid.toInt < maxPidN then .bind (.ofInt pid.toInt)
    else .complain "Invalid argument for bind command.\n"
  | .unbind pid =>
    if 0 < pid.toInt ∧ pid.toInt < maxPidN then .unbind (.ofInt pid.toInt)
    else .complain "Invalid argument for unbind command.\n"
  | .send n target => .find (.ofInt n.toInt) target.mode
  | .switch n => .find (.ofInt (switchCount n.toInt)) .switch
  | .toggle c => .toggle c
  | .clear => .clear

def MixMCommand.action : MixMCommand → Action MixM.SetCommand
  | .command c => c.action
  | .ratio n => .set (.ratio n.toInt)
  | .cacheThresh n => .set (.cacheThresh n.toInt)

/-! ## A line -/

/-- A word is not empty, and has no blank, no newline and no zero. -/
structure Word (w : List Char) : Prop where
  ne_nil : w ≠ []
  blank : ' ' ∉ w
  newline : '\n' ∉ w
  zero : Char.ofNat 0 ∉ w

/-- The numbers are words. -/
theorem word_decimal (n : Int) : Word (decimal n) :=
  ⟨decimal_ne_nil n, not_mem_decimal (by decide) (by decide), not_mem_decimal (by decide) (by decide),
    not_mem_decimal (by decide) (by decide)⟩

/-- The commands are words. -/
theorem word_of_decide {w : List Char}
    (h : w ≠ [] ∧ ' ' ∉ w ∧ '\n' ∉ w ∧ Char.ofNat 0 ∉ w) : Word w := ⟨h.1, h.2.1, h.2.2.1, h.2.2.2⟩

theorem typed_one (w : List Char) : typed [w] = w ++ ['\n'] := by simp [typed, List.intercalate]

theorem joined_cons (w v : List Char) (ws : List (List Char)) :
    [' '].intercalate (w :: v :: ws) = w ++ ' ' :: [' '].intercalate (v :: ws) := by
  simp [List.intercalate, List.intersperse]

theorem typed_cons (w v : List Char) (ws : List (List Char)) :
    typed (w :: v :: ws) = w ++ ' ' :: typed (v :: ws) := by
  unfold typed
  rw [joined_cons, List.append_assoc, List.cons_append]

/-- A word that another one follows. -/
theorem strtok_typed {w v : List Char} (hw : Word w) (ws : List (List Char)) :
    strtok (typed (w :: v :: ws)) = some (w, typed (v :: ws)) := by
  rw [typed_cons, strtok_word hw.ne_nil hw.blank]

/-- The last word of a line has the newline. -/
theorem strtok_typed_last {w : List Char} (hw : Word w) :
    strtok (typed [w]) = some (w ++ ['\n'], []) := by
  rw [typed_one]
  refine strtok_last (by simp) ?_
  rw [List.mem_append]
  exact not_or.mpr ⟨hw.blank, by decide⟩

/-- A number before another word, and at the end of a line. -/
theorem strtol_long (n : Int64) :
    strtol (decimal n.toInt) = n.toInt ∧ strtol (decimal n.toInt ++ ['\n']) = n.toInt := by
  have hlo : longMin ≤ n.toInt := n.le_toInt
  have hhi : n.toInt ≤ longMax := n.toInt_le
  constructor
  · have := strtol_decimal hlo hhi (s := []) fun c hc => absurd hc (by simp)
    rwa [List.append_nil] at this
  · exact strtol_decimal hlo hhi fun c hc => by rw [← Option.some.inj hc]; decide

/-! ## A command -/

theorem word_command {w : List Char} (h : w ∈ ["bind".toList, "unbind".toList, "send".toList,
    "switch".toList, "toggle".toList, "clear".toList, "set".toList, "ratio".toList,
    "cacheThresh".toList, "dram".toList, "nvram".toList, "dramwr".toList, "thresh".toList,
    "all".toList]) : Word w := by
  have hall : ∀ w ∈ ["bind".toList, "unbind".toList, "send".toList,
    "switch".toList, "toggle".toList, "clear".toList, "set".toList, "ratio".toList,
    "cacheThresh".toList, "dram".toList, "nvram".toList, "dramwr".toList, "thresh".toList,
    "all".toList], w ≠ [] ∧ ' ' ∉ w ∧ '\n' ∉ w ∧ Char.ofNat 0 ∉ w := by decide
  exact word_of_decide (hall w h)

theorem pidCommand_typed (send : Int32 → Action S) (message : String) (pid : Int64) :
    pidCommand send message (typed [decimal pid.toInt]) =
      if 0 < pid.toInt ∧ pid.toInt < maxPidN then send (.ofInt pid.toInt) else .complain message := by
  unfold pidCommand
  rw [strtok_typed_last (word_decimal _)]
  simp only [(strtol_long pid).2]

theorem command_typed {C : Console S} (hC : C.set "clear\n".toList [] = none) (c : Command) :
    C.command (typed c.words) = c.action := by
  cases c with
  | bind pid =>
    unfold Console.command Command.words
    rw [strtok_typed (word_command (by decide))]
    simp only [if_true]
    exact pidCommand_typed _ _ pid
  | unbind pid =>
    unfold Console.command Command.words
    rw [strtok_typed (word_command (by decide))]
    simp only
    rw [if_neg (by decide), if_pos trivial]
    exact pidCommand_typed _ _ pid
  | send n target =>
    unfold Console.command Command.words
    rw [strtok_typed (word_command (by decide))]
    simp only
    rw [if_neg (by decide), if_neg (by decide), if_pos trivial]
    unfold sendCommand
    rw [strtok_typed (word_decimal _)]
    simp only [(strtol_long n).1]
    cases target <;> rfl
  | switch n =>
    unfold Console.command Command.words
    rw [strtok_typed (word_command (by decide))]
    simp only
    rw [if_neg (by decide), if_neg (by decide), if_neg (by decide), if_pos trivial]
    unfold switchCommand
    rw [strtok_typed_last (word_decimal _)]
    simp only [(strtol_long n).2]
    rfl
  | toggle c => cases c <;> rfl
  | clear =>
    unfold Console.command Command.words
    rw [strtok_typed_last (word_command (by decide))]
    simp only
    rw [if_neg (by decide), if_neg (by decide), if_neg (by decide), if_neg (by decide),
      if_neg (by decide)]
    rw [show "clear".toList ++ ['\n'] = "clear\n".toList by decide, hC]
    rfl

theorem mixMCommand_typed (c : MixMCommand) : mixMConsole.command (typed c.words) = c.action := by
  cases c with
  | command c => exact command_typed rfl c
  | ratio n =>
    unfold Console.command MixMCommand.words
    rw [strtok_typed (word_command (by decide))]
    simp only
    rw [if_neg (by decide), if_neg (by decide), if_neg (by decide), if_neg (by decide),
      if_neg (by decide)]
    show setCommand _ = _
    unfold setCommand
    rw [strtok_typed (word_command (by decide))]
    simp only [if_true]
    rw [strtok_typed_last (word_decimal _)]
    simp only [(strtol_long n).2]
    rfl
  | cacheThresh n =>
    unfold Console.command MixMCommand.words
    rw [strtok_typed (word_command (by decide))]
    simp only
    rw [if_neg (by decide), if_neg (by decide), if_neg (by decide), if_neg (by decide),
      if_neg (by decide)]
    show setCommand _ = _
    unfold setCommand
    rw [strtok_typed (word_command (by decide))]
    simp only
    rw [if_neg (by decide), if_pos trivial, strtok_typed_last (word_decimal _)]
    simp only [(strtol_long n).2]
    rfl

/-! ## Lines -/

/-- Words that make a line which `command` has room for. -/
structure Fits (ws : List (List Char)) : Prop where
  ne_nil : ws ≠ []
  words : ∀ w ∈ ws, Word w
  room : (ws.map List.length).sum + ws.length < maxCommandSize

theorem joined_length {ws : List (List Char)} (h : ws ≠ []) :
    ([' '].intercalate ws).length + 1 = (ws.map List.length).sum + ws.length := by
  induction ws with
  | nil => exact absurd rfl h
  | cons w ws ih =>
    cases ws with
    | nil => simp [List.intercalate]
    | cons v ws =>
      have hlen := ih (by simp)
      rw [joined_cons]
      simp only [List.length_append, List.length_cons, List.map_cons, List.sum_cons] at hlen ⊢
      omega

theorem mem_joined {ws : List (List Char)} {c : Char} (h : c ∈ [' '].intercalate ws) :
    c = ' ' ∨ ∃ w ∈ ws, c ∈ w := by
  induction ws with
  | nil => simp [List.intercalate] at h
  | cons w ws ih =>
    cases ws with
    | nil => exact .inr ⟨w, List.mem_cons_self, by simpa [List.intercalate] using h⟩
    | cons v ws =>
      rw [joined_cons] at h
      rcases List.mem_append.mp h with h | h
      · exact .inr ⟨w, List.mem_cons_self, h⟩
      · rcases List.mem_cons.mp h with h | h
        · exact .inl h
        · exact (ih h).imp_right fun ⟨u, hu, hc⟩ => ⟨u, List.mem_cons_of_mem _ hu, hc⟩

/-- `fgets` reads such a line at once. -/
theorem Fits.chunk {ws : List (List Char)} (h : Fits ws) (s : List Char) :
    chunks (maxCommandSize - 1) (typed ws ++ s) = typed ws :: chunks (maxCommandSize - 1) s := by
  have hlen := joined_length h.ne_nil
  have hroom := h.room
  unfold typed
  rw [List.append_assoc, List.singleton_append]
  refine chunks_line ?_ (by omega) s
  intro hmem
  rcases mem_joined hmem with heq | ⟨w, hw, hc⟩
  · exact absurd heq (by decide)
  · exact (h.words w hw).newline hc

/-- And the string in `command` is the line. -/
theorem Fits.cstr {ws : List (List Char)} (h : Fits ws) : cstr (typed ws) = typed ws := by
  refine cstr_eq fun hmem => ?_
  rcases List.mem_append.mp hmem with hmem | hmem
  · rcases mem_joined hmem with heq | ⟨w, hw, hc⟩
    · exact absurd heq (by decide)
    · exact (h.words w hw).zero hc
  · exact absurd (List.mem_singleton.mp hmem) (by decide)

/-- No command is the line `exit`. -/
theorem Fits.ne_exit {w v : List Char} {ws : List (List Char)} (h : Fits (w :: v :: ws)) :
    typed (w :: v :: ws) ≠ "exit\n".toList := by
  intro heq
  have hw := h.words w List.mem_cons_self
  have htok := strtok_typed hw (v := v) ws
  rw [heq, show strtok "exit\n".toList = some ("exit\n".toList, []) by decide] at htok
  obtain ⟨rfl, -⟩ := Prod.mk.inj (Option.some.inj htok)
  exact hw.newline (by decide)

theorem decimal_fits (n : Int64) : (decimal n.toInt).length ≤ 20 :=
  decimal_length n.le_toInt n.toInt_le

/-- The line of a command. -/
theorem Command.line (c : Command) : Fits c.words ∧ typed c.words ≠ "exit\n".toList := by
  have hpid {w : List Char} (hw : Word w) (hlen : w.length ≤ 6) (n : Int64) :
      Fits [w, decimal n.toInt] := by
    refine ⟨by simp, fun u hu => ?_, ?_⟩
    · rcases List.mem_cons.mp hu with rfl | hu
      · exact hw
      · exact List.mem_singleton.mp hu ▸ word_decimal _
    · have := decimal_fits n
      simp only [List.map_cons, List.map_nil, List.sum_cons, List.sum_nil, List.length_cons,
        List.length_nil, maxCommandSize]
      omega
  cases c with
  | bind pid =>
    have h := hpid (word_command (w := "bind".toList) (by decide)) (by decide) pid
    exact ⟨h, h.ne_exit⟩
  | unbind pid =>
    have h := hpid (word_command (w := "unbind".toList) (by decide)) (by decide) pid
    exact ⟨h, h.ne_exit⟩
  | switch n =>
    have h := hpid (word_command (w := "switch".toList) (by decide)) (by decide) n
    exact ⟨h, h.ne_exit⟩
  | send n target =>
    have htarget : Word target.word ∧ target.word.length ≤ 6 := by
      cases target <;> exact ⟨word_command (by decide), by decide⟩
    have h : Fits (Command.send n target).words := by
      refine ⟨by simp [Command.words], fun u hu => ?_, ?_⟩
      · simp only [Command.words, List.mem_cons, List.not_mem_nil, or_false] at hu
        rcases hu with rfl | rfl | rfl
        · exact word_command (by decide)
        · exact word_decimal _
        · exact htarget.1
      · have := decimal_fits n
        have := htarget.2
        simp only [Command.words, List.map_cons, List.map_nil, List.sum_cons, List.sum_nil,
          List.length_cons, List.length_nil, maxCommandSize,
          show "send".toList.length = 4 by decide]
        omega
    exact ⟨h, h.ne_exit⟩
  | toggle c =>
    have h : Fits (Command.toggle c).words := by
      cases c <;>
        exact ⟨by decide, fun u hu => word_command (by revert u; decide), by decide⟩
    exact ⟨h, h.ne_exit⟩
  | clear =>
    exact ⟨⟨by decide, fun u hu => word_command (by revert u; decide), by decide⟩, by decide⟩

theorem MixMCommand.line (c : MixMCommand) : Fits c.words ∧ typed c.words ≠ "exit\n".toList := by
  have hset {w : List Char} (hw : Word w) (hlen : w.length ≤ 11) (n : Int64) :
      Fits ["set".toList, w, decimal n.toInt] := by
    refine ⟨by simp, fun u hu => ?_, ?_⟩
    · simp only [List.mem_cons, List.not_mem_nil, or_false] at hu
      rcases hu with rfl | rfl | rfl
      · exact word_command (by decide)
      · exact hw
      · exact word_decimal _
    · have := decimal_fits n
      simp only [List.map_cons, List.map_nil, List.sum_cons, List.sum_nil, List.length_cons,
        List.length_nil, maxCommandSize, show "set".toList.length = 3 by decide]
      omega
  cases c with
  | command c => exact c.line
  | ratio n =>
    have h := hset (word_command (w := "ratio".toList) (by decide)) (by decide) n
    exact ⟨h, h.ne_exit⟩
  | cacheThresh n =>
    have h := hset (word_command (w := "cacheThresh".toList) (by decide)) (by decide) n
    exact ⟨h, h.ne_exit⟩

/-! ## All that is typed -/

/-- **What is typed is done**, until `exit` or the end of the input. -/
theorem processStdin_typed {C : Console S} {cs : List α} {words : α → List (List Char)}
    {action : α → Action S} (hline : ∀ c, Fits (words c) ∧ typed (words c) ≠ "exit\n".toList)
    (haction : ∀ c, C.command (typed (words c)) = action c) (s : List Char) (st : Stdin S) :
    processStdin C (chunks (maxCommandSize - 1) (cs.flatMap (fun c => typed (words c)) ++ s)) st =
      processStdin C (chunks (maxCommandSize - 1) s) (cs.foldl (fun st c => st.turn (action c)) st) := by
  induction cs generalizing st with
  | nil => rfl
  | cons c cs ih =>
    obtain ⟨hfits, hne⟩ := hline c
    rw [List.flatMap_cons, List.append_assoc, hfits.chunk, processStdin, hfits.cstr, if_neg hne,
      haction, ih, List.foldl_cons]

/-- Whether an action turns a component. -/
def Action.turns (c : Component) : Action S → Bool
  | .toggle .all => true
  | .toggle d => d = c
  | .bind _ | .unbind _ | .find _ _ | .set _ | .clear | .complain _ | .nothing => false

/-- Whether a component is on after these actions: it is at first. -/
def actAfter (c : Component) (as : List (Action S)) : Int :=
  if as.countP (Action.turns c) % 2 = 0 then 1 else 0

theorem actAfter_snoc (c : Component) (as : List (Action S)) (a : Action S) :
    actAfter c (as ++ [a]) = if a.turns c then 1 - actAfter c as else actAfter c as := by
  unfold actAfter
  rw [List.countP_append, List.countP_singleton]
  by_cases ha : a.turns c
  · rw [if_pos ha, if_pos ha]
    split <;> split <;> omega
  · rw [if_neg ha, if_neg ha, Nat.add_zero]

/-- The variables are what the actions have made of them. -/
structure Stdin.Ok (s : Stdin S) : Prop where
  switchAct : s.switchAct = actAfter .switch s.actions
  threshAct : s.threshAct = actAfter .thresh s.actions

theorem Stdin.start_ok : (Stdin.start : Stdin S).Ok := ⟨rfl, rfl⟩

theorem Stdin.turn_actions (s : Stdin S) (a : Action S) : (s.turn a).actions = s.actions ++ [a] := by
  unfold turn
  split <;> rfl

theorem Stdin.Ok.turn {s : Stdin S} (h : s.Ok) (a : Action S) : (s.turn a).Ok := by
  have hswitch := actAfter_snoc .switch s.actions a
  have hthresh := actAfter_snoc .thresh s.actions a
  rw [← h.switchAct] at hswitch
  rw [← h.threshAct] at hthresh
  refine ⟨?_, ?_⟩
  · rw [Stdin.turn_actions, hswitch]
    cases a with
    | toggle c => cases c <;> rfl
    | _ => rfl
  · rw [Stdin.turn_actions, hthresh]
    cases a with
    | toggle c => cases c <;> rfl
    | _ => rfl

theorem Stdin.Ok.turns {s : Stdin S} (h : s.Ok) (as : List (Action S)) :
    (as.foldl Stdin.turn s).Ok ∧ (as.foldl Stdin.turn s).actions = s.actions ++ as ∧
      (as.foldl Stdin.turn s).exitSig = s.exitSig := by
  induction as generalizing s with
  | nil => exact ⟨h, (List.append_nil _).symm, rfl⟩
  | cons a as ih =>
    obtain ⟨hok, hactions, hexit⟩ := ih (h.turn a)
    refine ⟨hok, ?_, hexit.trans ?_⟩
    · rw [List.foldl_cons, hactions, Stdin.turn_actions, List.append_assoc, List.singleton_append]
    · unfold Stdin.turn
      split <;> rfl

/-- The state after these actions, at the end. -/
def Stdin.done (as : List (Action S)) : Stdin S :=
  ⟨as, actAfter .switch as, actAfter .thresh as, true⟩

/-- No more input, or `exit` and what is behind it. -/
def Ends (tail : List Char) : Prop := tail = [] ∨ ∃ rest, tail = "exit\n".toList ++ rest

theorem processStdin_ends {C : Console S} {tail : List Char} (h : Ends tail) (st : Stdin S) :
    processStdin C (chunks (maxCommandSize - 1) tail) st = { st with exitSig := true } := by
  rcases h with rfl | ⟨rest, rfl⟩
  · rw [chunks_nil]
    rfl
  · have hline : "exit\n".toList ++ rest = "exit".toList ++ '\n' :: rest := rfl
    rw [hline, chunks_line (by decide) (by decide), processStdin, if_pos (by decide)]

/-- A console that reads every line of a kind of commands as what it is to do. -/
theorem run_typed {C : Console S} (cs : List α) {words : α → List (List Char)}
    {action : α → Action S} (hline : ∀ c, Fits (words c) ∧ typed (words c) ≠ "exit\n".toList)
    (haction : ∀ c, C.command (typed (words c)) = action c) {tail : List Char} (h : Ends tail) :
    C.run (cs.flatMap (fun c => typed (words c)) ++ tail) = .done (cs.map action) := by
  obtain ⟨hok, hactions, -⟩ := Stdin.start_ok.turns (cs.map action)
  unfold Console.run
  rw [processStdin_typed hline haction, processStdin_ends h, ← List.foldl_map]
  rw [show (Stdin.start : Stdin S).actions ++ cs.map action = cs.map action from rfl] at hactions
  generalize (cs.map action).foldl Stdin.turn Stdin.start = st at hok hactions ⊢
  rw [Stdin.done, ← hactions, ← hok.switchAct, ← hok.threshAct]

/-- **What is typed is done**, on both controllers: the actions are those of the commands, in
their order, up to `exit` or the end of the input, and the components are on or off as often as
they have been turned. -/
theorem commands_typed (cs : List Command) (mixM : List MixMCommand) (tail : List Char)
    (h : Ends tail) :
    hybConsole.run (cs.flatMap (fun c => typed c.words) ++ tail) =
        .done (cs.map Command.action) ∧
      mixMConsole.run (mixM.flatMap (fun c => typed c.words) ++ tail) =
        .done (mixM.map MixMCommand.action) :=
  ⟨run_typed cs Command.line (command_typed rfl) h,
    run_typed mixM MixMCommand.line mixMCommand_typed h⟩

/-- A session. -/
theorem commands_typed_session :
    hybConsole.run "bind 42\nsend -1 dramwr\ntoggle all\nexit\nbind 43\n".toList =
        .done [.bind 42, .find (-1) .nvramWrite, .toggle .all] ∧
      mixMConsole.run "set ratio 4\nexit\nbind 43\n".toList = .done [.set (.ratio 4)] :=
  commands_typed [.bind 42, .send (-1) .dramwr, .toggle .all] [.ratio 4]
    "exit\nbind 43\n".toList (.inr ⟨"bind 43\n".toList, rfl⟩)

end Ambix.Ctl
