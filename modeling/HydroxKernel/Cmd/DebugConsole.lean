import HydroxKernel.Cmd.ParseCommand
import HydroxKernel.Cmd.ReadlineText
import Mathlib.Data.List.Forall2

/-!
# The Debug Console

`show_debug_console` reads one line after another, parses each as a command and runs it, until a
character cannot be read where `readline` waits for a key. What each command does with its
arguments is modelled; the listings of devices, processes, threads and slab allocators are actions
here, and what is in them is left out.

## Main results

* `console_sound`: what holds of the console after every stream of characters.
* `console_runs`: commands that are typed run, one after another, with their arguments.
-/

namespace HydroxKernel.DebugConsole

open Str Command
open Cmd.Text (Session Editor CommandHistory remember)

/-- The panics of the console. -/
inductive Panic
  | readline (why : Cmd.Text.Panic)
  | parse (why : Str.Panic)
  /-- The index of `cmd[0]` is out of bounds. -/
  | index
  deriving DecidableEq

/-! ### Commands -/

/-- What a command does. The names of devices are those that are looked up, if there are any. -/
inductive Action
  /-- The devices below a device are listed. -/
  | devLs (name : Option (List Char))
  /-- A device is printed. -/
  | devPrint (name : Option (List Char))
  /-- The processes are listed. -/
  | procLs
  /-- The threads of a process are listed. -/
  | procThreads (pid : ℕ)
  /-- The objects of every slab allocator are counted. -/
  | slabStats
  /-- Lines are printed. -/
  | print (lines : List (List Char))
  deriving DecidableEq

/-- The digits of a `u64`, after the value `n`. -/
def digitsU64 (n : ℕ) : List Char → Option ℕ
  | [] => some n
  | c :: cs =>
      if '0' ≤ c ∧ c ≤ '9' ∧ n * 10 + (c.toNat - '0'.toNat) < 2 ^ 64 then
        digitsU64 (n * 10 + (c.toNat - '0'.toNat)) cs
      else none

/-- `str::parse::<u64>`: at least one digit, after an optional plus sign. -/
def parseU64 : List Char → Option ℕ
  | [] => none
  | '+' :: [] => none
  | '+' :: cs => digitsU64 0 cs
  | cs => digitsU64 0 cs

/-- The lines about a subcommand that a command does not have, or that was not given. -/
def noSubcommand (cmd : List Char) (subcmd : Option (List Char)) : List (List Char) :=
  [match subcmd with
    | some subcmd => "unknown ".toList ++ cmd ++ " subcommand '".toList ++ subcmd ++ "'".toList
    | none => "no subcommand provided".toList,
  "run 'help ".toList ++ cmd ++ "' for more information".toList]

/-- `run_dev_cmd`. -/
def runDevCmd (args : List (List Char)) : Action :=
  if args.head? = some "ls".toList then .devLs args[1]?
  else if args.head? = some "print".toList then .devPrint args[1]?
  else .print (noSubcommand "dev".toList args.head?)

/-- `run_proc_cmd`. -/
def runProcCmd (args : List (List Char)) : Action :=
  if args.head? = some "ls".toList then .procLs
  else if args.head? = some "threads".toList then
    match args[1]?.bind parseU64 with
    | some pid => .procThreads pid
    -- the source has "dev" here, too
    | none => .print ["usage: dev threads <pid>".toList]
  else .print (noSubcommand "proc".toList args.head?)

/-- `run_slab_cmd`. -/
def runSlabCmd (args : List (List Char)) : Action :=
  if args.head? = none ∨ args.head? = some "stats".toList then .slabStats
  else .print (noSubcommand "slab".toList args.head?)

/-- The line about a command that there is not. -/
def unknownCommand (name : List Char) : List Char :=
  "unknown command '".toList ++ name ++ "'".toList

/-- The lines of `help`. -/
def helpLines : List (List Char) :=
  ["available commands are:".toList, "  dev - device information".toList,
    "  proc - process information".toList, "  slab - slab alloc statistics".toList, [],
    "run 'help <cmd>' for more information".toList]

/-- The lines of `help`, for a topic or for none. -/
def help : Option (List Char) → List (List Char)
  | none => helpLines
  | some topic =>
      if topic = "dev".toList then
        ["available subcommands are:".toList, "  dev ls [dev] - list devices".toList,
          "  dev print [dev] - print device".toList]
      else if topic = "proc".toList then
        ["available subcommands are:".toList, "  proc ls - list processes".toList,
          "  proc threads <pid> - list threads in process".toList]
      else if topic = "slab".toList then
        ["available subcommands are:".toList,
          "  slab stats - print slab allocator statistics".toList]
      else [unknownCommand topic]

/-- `run_debug_console_command`, for a command with its arguments. -/
def command (name : List Char) (args : List (List Char)) : Action :=
  if name = "dev".toList then runDevCmd args
  else if name = "proc".toList then runProcCmd args
  else if name = "slab".toList then runSlabCmd args
  else if name = "help".toList then .print (help args.head?)
  else .print [unknownCommand name]

/-- `run_debug_console_command`. -/
def runDebugConsoleCommand : List (List Char) → Except Panic Action
  | [] => .error .index
  | name :: args => .ok (command name args)

/-- What the console does with a line: it runs the command, or prints that it cannot be parsed. -/
inductive Reply
  | ran (action : Action)
  | parseError (msg : String)
  deriving DecidableEq

/-- The body of the loop of `show_debug_console`, once there is a line. -/
def reply (line : List Char) : Except Panic Reply := do
  match ← (parseCommand line).mapError .parse with
  | .ok cmd => do
      let action ← runDebugConsoleCommand cmd
      return .ran action
  | .error (_, msg) => return .parseError msg

/-! ### The loop -/

/-- The call of `readline` that is going on, and whether the loop has ended. The ledgers are the
lines that were read, and the replies to them. -/
structure Console where
  session : Session
  exited : Bool
  lines : List (List Char)
  replies : List Reply

namespace Console

/-- `show_debug_console` is called. -/
def start : Console := ⟨.start ⟨.new⟩, false, [], []⟩

/-- A character is read, or cannot be read. -/
def next (c : Console) (ch : Option Char) : Except Panic Console :=
  if c.exited then .ok c
  else do
    let session ← (c.session.next ch).mapError .readline
    match session.outcome with
    | .running _ => return { c with session := session }
    | .ok line => do
        let r ← reply line
        return ⟨.start session.history, false, c.lines ++ [line], c.replies ++ [r]⟩
    | .err _ => return { c with session := session, exited := true }

/-- Characters are read, one after another. -/
def run (c : Console) (chars : List (Option Char)) : Except Panic Console := chars.foldlM next c

end Console

/-! ### Replies -/

/-- A line that is parsed to a command runs it. -/
theorem reply_ran {line : List Char} {cmd : List (List Char)} {action : Action}
    (hparse : parseCommand line = .ok (.ok cmd)) (hrun : runDebugConsoleCommand cmd = .ok action) :
    reply line = .ok (.ran action) := by
  rw [reply, hparse]
  have hbind : (Except.mapError Panic.parse (.ok (.ok cmd : Except ParseError _)) :
    Except Panic (Except ParseError (List (List Char)))) = .ok (.ok cmd) := rfl
  rw [hbind, ok_bind]
  dsimp only
  rw [hrun]
  rfl

/-- **Every line** gets a reply. -/
theorem exists_reply (line : List Char) : ∃ r, reply line = .ok r := by
  obtain ⟨r, hscans⟩ := exists_scans line
  have hparse := hscans.parseCommand_eq
  cases r with
  | error n =>
      refine ⟨.parseError "unterminated quoted argument", ?_⟩
      rw [reply, hparse]
      rfl
  | ok args =>
      obtain ⟨name, rest, hargs⟩ : ∃ name rest,
          (if args = [] then [[]] else args) = name :: rest := by
        cases args with
        | nil => exact ⟨[], [], rfl⟩
        | cons name rest => exact ⟨name, rest, rfl⟩
      rw [returned, hargs] at hparse
      exact ⟨_, reply_ran hparse rfl⟩

example : reply "proc  threads +12".toList = .ok (.ran (.procThreads 12)) := rfl

/-! ### Every stream of characters -/

/-- The lines that the history keeps. -/
def Console.kept (c : Console) : List (List Char) := c.lines.foldl remember []

/-- The lines with their replies. -/
def Console.Replied (c : Console) : Prop :=
  List.Forall₂ (fun line r => reply line = .ok r) c.lines c.replies

/-- What holds of the console. -/
structure Console.Sound (c : Console) : Prop where
  /-- Every line that was read got its reply, in order. -/
  replied : c.Replied
  ascii : ∀ line ∈ c.lines, Ascii line
  /-- The history has the last lines. -/
  history : c.session.history.buf.Represents c.kept
  /-- The loop ends when `readline` fails, and only then. -/
  exited : if c.exited then ∃ s, c.session.outcome = .err s
    else ∃ r, c.session.outcome = .running r ∧ r.WellFormed c.kept

/-- What is kept are lines. -/
theorem mem_foldl_remember {lines : List (List Char)} :
    ∀ (kept : List (List Char)) {line : List Char}, line ∈ lines.foldl remember kept →
      line ∈ kept ∨ line ∈ lines := by
  induction lines with
  | nil => exact fun _ _ h => .inl h
  | cons l lines ih =>
      intro kept line h
      rcases ih _ h with h | h
      · rw [remember] at h
        rcases List.mem_append.mp h with h | h
        · refine .inl ?_
          split at h
          · exact List.mem_of_mem_tail h
          · exact h
        · exact .inr (List.mem_cons.mpr (.inl (List.mem_singleton.mp h)))
      · exact .inr (List.mem_cons_of_mem _ h)

/-- What the console waits for. -/
def Console.waiting (c : Console) : Cmd.Waiting :=
  match c.session.outcome with
  | .running r => r.waiting
  | _ => .key

/-- The loop has ended exactly if a character could not be read where a key was waited for, and
until then the console waits for what the characters say. -/
def Console.Follows (c : Console) (chars : List (Option Char)) : Prop :=
  (c.exited = true ↔ Cmd.FailsToRead chars) ∧
    (c.exited = false → c.waiting = Cmd.waitingAfter chars)

/-- A character that does not end the loop. -/
theorem Console.Follows.goes {c d : Console} {chars : List (Option Char)} {ch : Option Char}
    (h : c.Follows chars) (hc : c.exited = false) (hd : d.exited = false)
    (hwaiting : d.waiting = (Cmd.keyOf c.waiting ch).1)
    (hread : ¬(c.waiting = .key ∧ ch = none)) : d.Follows (chars ++ [ch]) := by
  obtain ⟨hexited, hafter⟩ := h
  have hafter := hafter hc
  rw [hafter] at hwaiting hread
  refine ⟨?_, fun _ => by rw [hwaiting, Cmd.waitingAfter_concat]⟩
  rw [Cmd.failsToRead_concat, ← hexited, hc, hd]
  exact iff_of_false Bool.false_ne_true fun hor => hor.elim Bool.false_ne_true hread

/-- **A character** keeps the console sound, and there is no panic. -/
theorem Console.Sound.next {c : Console} (h : c.Sound) (ch : Option Char) :
    ∃ d, c.next ch = .ok d ∧ d.Sound ∧
      ∀ chars, c.Follows chars → d.Follows (chars ++ [ch]) := by
  have hexited := h.exited
  rw [Console.next]
  by_cases hc : c.exited = true
  · rw [if_pos hc]
    refine ⟨c, rfl, h, fun chars hchars => ⟨?_, fun hfalse => ?_⟩⟩
    · exact iff_of_true hc (Cmd.failsToRead_concat.mpr (.inl (hchars.1.mp hc)))
    · rw [hc] at hfalse
      cases hfalse
  · rw [if_neg hc] at hexited ⊢
    obtain ⟨r, houtcome, hr⟩ := hexited
    have hkept : ∀ l ∈ c.kept, Ascii l := fun l hl => by
      rcases mem_foldl_remember [] hl with hl | hl
      · exact absurd hl List.not_mem_nil
      · exact h.ascii l hl
    have hkeeps : c.session.Keeps c.session.history c.kept := by
      rw [Session.Keeps, houtcome]
      exact ⟨rfl, hr⟩
    obtain ⟨session, hnext, hsession, -⟩ := hkeeps.next h.history hkept ch
    have hwaits := hkeeps.next_waiting h.history hkept houtcome hnext
    have hfalse : c.exited = false := Bool.eq_false_iff.mpr hc
    have hwaiting : c.waiting = r.waiting := by rw [Console.waiting, houtcome]
    rw [← hwaiting] at hwaits
    have hmap : (c.session.next ch).mapError Panic.readline = .ok session := by
      rw [hnext]
      rfl
    rw [hmap, ok_bind]
    rw [Session.Keeps] at hsession
    cases hout : session.outcome with
    | running r =>
        rw [hout] at hsession hwaits
        refine ⟨_, rfl, ⟨h.replied, h.ascii, ?_, ?_⟩, fun chars hchars => ?_⟩
        · dsimp only
          rw [hsession.1]
          exact h.history
        · rw [if_neg hc]
          exact ⟨r, hout, hsession.2⟩
        · refine hchars.goes hfalse hfalse ?_ hwaits.2
          rw [← hwaits.1, Console.waiting, hout]
    | ok line =>
        rw [hout] at hsession hwaits
        obtain ⟨reply', hreply⟩ := exists_reply line
        dsimp only
        rw [hreply, ok_bind]
        have hrepr : session.history.buf.Represents ((c.lines ++ [line]).foldl remember []) := by
          rw [List.foldl_append]
          exact hsession.2
        refine ⟨_, rfl, ⟨?_, ?_, hrepr, _, rfl, Editor.new_wellFormed hrepr⟩,
          fun chars hchars => hchars.goes hfalse rfl hwaits.1.symm hwaits.2⟩
        · exact List.rel_append h.replied (.cons hreply .nil)
        · intro l hl
          rcases List.mem_append.mp hl with hl | hl
          · exact h.ascii l hl
          · rw [List.mem_singleton.mp hl]
            exact hsession.1
    | err s =>
        rw [hout] at hsession hwaits
        refine ⟨_, rfl, ⟨h.replied, h.ascii, ?_, s, hout⟩, fun chars hchars =>
          ⟨?_, fun hd => by cases hd⟩⟩
        · dsimp only
          rw [hsession.2]
          exact h.history
        · rw [hchars.2 hfalse] at hwaits
          exact iff_of_true rfl (Cmd.failsToRead_concat.mpr (.inr hwaits))

/-- At the beginning the console is sound. -/
theorem Console.sound_start : Console.start.Sound where
  replied := .nil
  ascii := fun _ h => absurd h List.not_mem_nil
  history := ArrayDeque.represents_new
  exited := ⟨_, rfl, Editor.new_wellFormed ArrayDeque.represents_new⟩

/-- At the beginning no character was read. -/
theorem Console.follows_start : Console.start.Follows [] := by
  refine ⟨iff_of_false Bool.false_ne_true ?_, fun _ => rfl⟩
  rintro ⟨before, after, heq, -⟩
  exact List.append_ne_nil_of_right_ne_nil before (List.cons_ne_nil _ _) heq.symm

/-- **The debug console** after every stream of characters, some of which cannot be read: there was
no panic, every line that was read got the reply of its command, in order, the history has the
last lines, and the loop ended exactly if a character could not be read while a key was waited for
(one that cannot be read within an escape sequence is ignored). -/
theorem console_sound (chars : List (Option Char)) :
    ∃ c, Console.start.run chars = .ok c ∧ c.Sound ∧
      (c.exited = true ↔ Cmd.FailsToRead chars) := by
  obtain ⟨c, hrun, hsound, hfollows⟩ : ∃ c, Console.start.run chars = .ok c ∧ c.Sound ∧
      c.Follows (chars.take chars.length) := by
    refine foldlM_invariant (fun k (c : Console) => c.Sound ∧ c.Follows (chars.take k))
      ⟨Console.sound_start, Console.follows_start⟩ fun i hi c hc => ?_
    obtain ⟨d, hnext, hd, hsame⟩ := hc.1.next chars[i]
    refine ⟨d, hnext, hd, ?_⟩
    rw [List.take_succ_eq_append_getElem hi]
    exact hsame _ hc.2
  rw [List.take_length] at hfollows
  exact ⟨c, hrun, hsound, hfollows.1⟩

/-! ### Typing commands -/

/-- A character that the line editor puts into the line. -/
structure Plain (ch : Char) : Prop where
  utf8Size : ch.utf8Size = 1
  control : ¬ ch ≤ '\x1f'
  delete : ch ≠ '\x7f'

/-- The line that is being typed, with the cursor at its end. -/
def Console.Typed (c : Console) (line : List Char) : Prop :=
  c.exited = false ∧ ∃ r, c.session.outcome = .running r ∧ r.waiting = .key ∧ r.s = line ∧
    r.i = byteLen line

/-- A character is put at the end of a line. -/
theorem insertChar_end {r : Editor} (hi : r.i = byteLen r.s) (ch : Char) :
    r.insertChar ch = .ok ({ r with s := r.s ++ [ch], i := r.i + 1 }, [ch]) := by
  have hinsert : insert r.s r.i ch = some (r.s ++ [ch]) := by
    have h := insert_append r.s [] ch
    rw [List.append_nil] at h
    rw [hi, h]
  rw [Editor.insertChar, if_neg (not_not_intro hi), hinsert]
  rfl

/-- A plain character is one of the last case of `readline`. -/
theorem next_plain {r : Editor} (hw : r.waiting = .key) (hi : r.i = byteLen r.s) {ch : Char}
    (hch : Plain ch) (history : CommandHistory) :
    r.next history (some ch) =
      .ok (.running { r with s := r.s ++ [ch], i := r.i + 1 }, history, [ch]) := by
  have hnewline : ch ≠ '\n' := by
    rintro rfl
    exact hch.control (by decide)
  have hescape : ch ≠ '\x1b' := by
    rintro rfl
    exact hch.control (by decide)
  obtain ⟨waiting, pos, mods, s, i⟩ := r
  cases hw
  rw [Editor.next]
  dsimp only
  rw [if_neg hnewline, if_neg hch.delete, if_neg hescape, if_neg hch.control, if_pos hch.utf8Size,
    insertChar_end hi]
  rfl

/-- **A plain character** is typed. -/
theorem Console.Typed.next {c : Console} {line : List Char} (h : c.Typed line) {ch : Char}
    (hch : Plain ch) : ∃ d, c.next (some ch) = .ok d ∧ d.Typed (line ++ [ch]) ∧
      d.lines = c.lines ∧ d.replies = c.replies := by
  obtain ⟨hexited, r, houtcome, hw, rfl, hi⟩ := h
  have hnext : c.session.next (some ch) = .ok ⟨.running { r with s := r.s ++ [ch], i := r.i + 1 },
      c.session.history, c.session.out ++ [ch]⟩ := by
    rw [Session.next, houtcome]
    dsimp only
    rw [next_plain hw hi hch]
    rfl
  rw [Console.next, hexited, if_neg Bool.false_ne_true, hnext]
  refine ⟨_, rfl, ⟨rfl, _, rfl, hw, rfl, ?_⟩, rfl, rfl⟩
  dsimp only
  rw [hi, byteLen_append, byteLen_cons, hch.utf8Size]
  rfl

/-- **A newline** ends the line that was typed, which gets its reply. -/
theorem Console.Typed.newline {c : Console} {line : List Char} (h : c.Typed line)
    (hsound : c.Sound) {r : Reply} (hreply : reply line = .ok r) :
    ∃ d, c.next (some '\n') = .ok d ∧ d.Typed [] ∧ d.lines = c.lines ++ [line] ∧
      d.replies = c.replies ++ [r] := by
  obtain ⟨hexited, e, houtcome, hw, rfl, hi⟩ := h
  have hwf := hsound.exited
  rw [hexited, if_neg Bool.false_ne_true, houtcome] at hwf
  obtain ⟨e', heq, hwf⟩ := hwf
  obtain rfl := Cmd.Text.Outcome.running.inj heq
  obtain ⟨history', out, hnewline, -⟩ := Editor.newline_spec hwf hsound.history
  have hnext : c.session.next (some '\n') =
      .ok ⟨.ok e.s, history', c.session.out ++ out⟩ := by
    rw [Session.next, houtcome]
    dsimp only
    rw [Editor.next, hw]
    dsimp only
    rw [if_pos rfl, hnewline]
    rfl
  have hmap : (c.session.next (some '\n')).mapError Panic.readline =
      .ok ⟨.ok e.s, history', c.session.out ++ out⟩ := by
    rw [hnext]
    rfl
  rw [Console.next, hexited, if_neg Bool.false_ne_true, hmap, ok_bind]
  dsimp only
  rw [hreply]
  exact ⟨_, rfl, ⟨rfl, _, rfl, rfl, rfl, rfl⟩, rfl, rfl⟩

/-- **A line** of plain characters is typed. -/
theorem Console.Typed.run {c : Console} {typed : List Char} (h : c.Typed typed)
    (hsound : c.Sound) {line : List Char} (hline : ∀ ch ∈ line, Plain ch) {r : Reply}
    (hreply : reply (typed ++ line) = .ok r) :
    ∃ d, c.run ((line ++ ['\n']).map some) = .ok d ∧ d.Sound ∧ d.Typed [] ∧
      d.lines = c.lines ++ [typed ++ line] ∧ d.replies = c.replies ++ [r] := by
  induction line generalizing c typed with
  | nil =>
      rw [List.append_nil] at hreply ⊢
      obtain ⟨d, hnext, hd⟩ := h.newline hsound hreply
      obtain ⟨d', hnext', hsound', -⟩ := hsound.next (some '\n')
      obtain rfl := Except.ok.inj (hnext.symm.trans hnext')
      refine ⟨d, ?_, hsound', hd⟩
      have hrun : c.run ((([] : List Char) ++ ['\n']).map some) =
        (c.next (some '\n') >>= fun d => .ok d) := rfl
      rw [hrun, hnext]
      rfl
  | cons ch line ih =>
      obtain ⟨d, hnext, hd, hlines, hreplies⟩ := h.next (hline ch List.mem_cons_self)
      obtain ⟨d', hnext', hsound', -⟩ := hsound.next (some ch)
      obtain rfl := Except.ok.inj (hnext.symm.trans hnext')
      have happend : typed ++ ch :: line = typed ++ [ch] ++ line := by simp
      rw [happend] at hreply ⊢
      obtain ⟨e, hrun, he⟩ :=
        ih hd hsound' (fun ch' hch' => hline ch' (List.mem_cons_of_mem _ hch')) hreply
      refine ⟨e, ?_, by rw [← hlines, ← hreplies]; exact he⟩
      have hcons : c.run ((ch :: line ++ ['\n']).map some) =
        (c.next (some ch) >>= fun d => d.run ((line ++ ['\n']).map some)) := rfl
      rw [hcons, hnext, ok_bind, hrun]

/-- The arguments that a command has, its name among them. -/
def argsOf (ts : List Token) : List (List Char) := if ts = [] then [[]] else ts.map Token.arg

/-- The reply to a command that is written with one space between its arguments. -/
theorem reply_joined (ts : List Token) :
    ∃ action, runDebugConsoleCommand (argsOf ts) = .ok action ∧
      reply (joined ts) = .ok (.ran action) := by
  cases ts with
  | nil => exact ⟨_, rfl, reply_ran rfl rfl⟩
  | cons t ts =>
      have hparse := (scans_joined t ts 0).parseCommand_eq
      exact ⟨_, rfl, reply_ran hparse rfl⟩

/-- What is typed for commands: a line for each. -/
def typeCommands (cmds : List (List Token)) : List (Option Char) :=
  cmds.flatMap fun ts => (joined ts ++ ['\n']).map some

/-- **Commands that are typed run**, one after another, each with its arguments, in every state in
which the console waits for a line. -/
theorem Console.Typed.runs {c : Console} (h : c.Typed []) (hsound : c.Sound)
    {cmds : List (List Token)} (hcmds : ∀ ts ∈ cmds, ∀ ch ∈ joined ts, Plain ch) :
    ∃ d replies, c.run (typeCommands cmds) = .ok d ∧ d.Sound ∧ d.Typed [] ∧
      d.replies = c.replies ++ replies ∧
      List.Forall₂ (fun ts r => ∃ action, runDebugConsoleCommand (argsOf ts) = .ok action ∧
        r = .ran action) cmds replies := by
  induction cmds generalizing c with
  | nil => exact ⟨c, [], rfl, hsound, h, (List.append_nil _).symm, .nil⟩
  | cons ts cmds ih =>
      obtain ⟨action, haction, hreply⟩ := reply_joined ts
      obtain ⟨d, hrun, hd, htyped, -, hreplies⟩ :=
        h.run hsound (hcmds ts List.mem_cons_self) hreply
      obtain ⟨e, replies, hrun', he, htyped', hreplies', hall⟩ :=
        ih htyped hd fun ts' hts' => hcmds ts' (List.mem_cons_of_mem _ hts')
      refine ⟨e, .ran action :: replies, ?_, he, htyped', ?_, .cons ⟨action, haction, rfl⟩ hall⟩
      · rw [typeCommands, List.flatMap_cons, Console.run, List.foldlM_append, ← Console.run, hrun,
          ok_bind, ← typeCommands]
        exact hrun'
      · rw [hreplies', hreplies, List.append_assoc]
        rfl

/-- **The console runs what is typed**: commands of plain characters, written with one space
between their arguments and a newline after each, are run in order, each with exactly its
arguments, after any stream of characters that ended with a newline. -/
theorem console_runs {chars : List (Option Char)} {c : Console}
    (hchars : Console.start.run chars = .ok c) (hwaits : c.Typed []) {cmds : List (List Token)}
    (hcmds : ∀ ts ∈ cmds, ∀ ch ∈ joined ts, Plain ch) :
    ∃ d replies, Console.start.run (chars ++ typeCommands cmds) = .ok d ∧
      d.replies = c.replies ++ replies ∧
      List.Forall₂ (fun ts r => ∃ action, runDebugConsoleCommand (argsOf ts) = .ok action ∧
        r = .ran action) cmds replies := by
  obtain ⟨c', hchars', hsound⟩ : ∃ c', Console.start.run chars = .ok c' ∧ c'.Sound := by
    refine foldlM_invariant (fun _ (c : Console) => c.Sound) Console.sound_start fun _ _ c hc => ?_
    obtain ⟨d, hnext, hd, -⟩ := hc.next _
    exact ⟨d, hnext, hd⟩
  obtain rfl := Except.ok.inj (hchars.symm.trans hchars')
  obtain ⟨d, replies, hrun, -, -, hreplies, hall⟩ := hwaits.runs hsound hcmds
  refine ⟨d, replies, ?_, hreplies, hall⟩
  rw [Console.run, List.foldlM_append, ← Console.run, hchars, ok_bind]
  exact hrun

/-- `help "a b"`. -/
def helpCommand : List Token :=
  [.bare "help".toList ⟨by decide, by decide, by decide⟩, .quoted "a b".toList (by decide)]

/-- It is typed after an empty line. -/
theorem console_runs_help :
    ∃ d replies, Console.start.run (typeCommands [[]] ++ typeCommands [helpCommand]) = .ok d ∧
      d.replies = [.ran (.print [unknownCommand []])] ++ replies ∧
      List.Forall₂ (fun ts r => ∃ action, runDebugConsoleCommand (argsOf ts) = .ok action ∧
        r = .ran action) [helpCommand] replies := by
  refine @console_runs (typeCommands [[]]) _ rfl ⟨rfl, _, rfl, rfl, rfl, rfl⟩ [helpCommand] ?_
  intro ts hts ch hch
  rw [List.mem_singleton.mp hts] at hch
  have hmem : ch ∈ ['h', 'e', 'l', 'p', ' ', '"', 'a', ' ', 'b', '"'] := hch
  simp only [List.mem_cons, List.not_mem_nil, or_false] at hmem
  rcases hmem with rfl | rfl | rfl | rfl | rfl | rfl | rfl | rfl | rfl | rfl
  all_goals exact ⟨rfl, by decide, by decide⟩

end HydroxKernel.DebugConsole
