import HydroxKernel.Lib.Runs
import HydroxKernel.Log.Levels
import HydroxKernel.Sync.UninterruptibleSafety

/-!
# Delivering Messages

`log_msg` enqueues a soft interrupt, which writes the message to every terminal of `OUT_TTY`. It is
called at once if interrupts are on, and else when they go on again, or at the end of the interrupt
that is handled. Terminals are added and removed at any time.

A run begins after `init_phase_1`, which leaves no soft interrupt behind. Later, the kernel switches
interrupts on by hand only where no soft interrupt waits.

`logged`, `delivered` and `got` are ledgers: the messages that `log_msg` was called with, those
that were written, and those that each terminal got.

## Main results

* `queue_step`: what one step does to the queue.
* `log_delivery`: in every reached state, the messages were written in order, each once.
* `messages_shown`: what the texts of messages do to a terminal.
-/

namespace HydroxKernel.Log

open Uninterruptible (CodeRuns Allowed)

/-- A soft interrupt: that of `log_msg`, or another one. -/
inductive Soft
  | log (msg : List Char)
  | other
  deriving DecidableEq

/-- The message of a soft interrupt. -/
def Soft.msg : Soft → Option (List Char)
  | .log msg => some msg
  | .other => none

/-- The soft interrupts of a core, and `OUT_TTY`. -/
structure Delivery where
  core : Uninterruptible.State Soft
  outTty : List ℕ
  logged : List (List Char)
  delivered : List (List Char)
  got : ℕ → List (List Char)

/-- Nothing has been logged yet. -/
def Delivery.new (core : Uninterruptible.State Soft) (outTty : List ℕ) : Delivery :=
  ⟨core, outTty, [], [], fun _ => []⟩

/-- The message is written to the terminals. -/
def writeMsg (outTty : List ℕ) (msg : List Char) (got : ℕ → List (List Char)) :
    ℕ → List (List Char) :=
  outTty.foldl (fun got tty => Function.update got tty (got tty ++ [msg])) got

/-- The closure of a soft interrupt is called. -/
def Delivery.call (s : Delivery) (f : Option Soft) : Delivery :=
  match f.bind Soft.msg with
  | none => s
  | some msg => { s with
      delivered := s.delivered ++ [msg]
      got := writeMsg s.outTty msg s.got }

/-- The closure that a step calls: `enqueue_soft_interrupt` at once, or `run_soft_interrupts`. -/
def called (s : Uninterruptible.State Soft) : Uninterruptible.Op Soft → Option Soft
  | .enqueue f => if s.core.inInterrupt = false ∧ s.core.enabled = true then some f else none
  | .tick =>
      match s.stack with
      | .softLoop _ :: _ => s.core.softInterrupts.head?
      | _ => none
  | _ => none

/-- The closure that a step enqueues. -/
def enqueued : Uninterruptible.Op Soft → Option Soft
  | .enqueue f => some f
  | _ => none

/-- What can happen next. -/
inductive LogOp
  /-- `add_tty`. -/
  | addTty (tty : ℕ)
  /-- `remove_tty`. -/
  | removeTty (tty : ℕ)
  /-- A step of the core. `log_msg` is one that enqueues a soft interrupt. -/
  | core (op : Uninterruptible.Op Soft)

namespace Delivery

/-- `add_tty`. -/
def addTty (s : Delivery) (tty : ℕ) : Delivery := { s with outTty := s.outTty ++ [tty] }

/-- `remove_tty`, with what it returns. -/
def removeTty (s : Delivery) (tty : ℕ) : Delivery × Bool :=
  let outTty := s.outTty.filter fun other => decide (other ≠ tty)
  ({ s with outTty := outTty }, decide (outTty.length ≠ s.outTty.length))

/-- Performs an operation. -/
def perform (s : Delivery) : LogOp → Except Uninterruptible.Panic Delivery
  | .addTty tty => .ok (s.addTty tty)
  | .removeTty tty => .ok (s.removeTty tty).1
  | .core op => do
      let core ← Uninterruptible.perform s.core op
      return { s.call (called s.core op) with
        core := core
        logged := s.logged ++ ((enqueued op).bind Soft.msg).toList }

end Delivery

/-- What can happen in a state. -/
def LogAllowed (s : Delivery) : LogOp → Prop
  | .addTty _ => CodeRuns s.core.stack
  | .removeTty _ => CodeRuns s.core.stack
  | .core op => Allowed s.core op ∧ (op = .setEnabled true → s.core.core.softInterrupts = [])

/-- A step. -/
def LogStep (s : Delivery) (op : LogOp) (t : Delivery) : Prop :=
  LogAllowed s op ∧ s.perform op = .ok t

/-! ### The queue -/

section Queue

variable {s t : Uninterruptible.State Soft}

/-- No soft interrupt waits while interrupts are on, outside of interrupts. -/
def Quiet (s : Uninterruptible.State Soft) : Prop :=
  s.core.inInterrupt = false → s.core.enabled = true → s.core.softInterrupts = []

/-- Dropping a guard leaves the queue, and interrupts are off then. -/
theorem drop_core {g : Uninterruptible.Guard} (h : s.drop g = .ok t) :
    t.core.softInterrupts = s.core.softInterrupts ∧ t.core.enabled = false := by
  rw [Uninterruptible.State.drop, Uninterruptible.State.dropWithoutEnable,
    Uninterruptible.Core.dropWithoutEnable] at h
  obtain ⟨⟨u, run⟩, hu, h⟩ := bind_eq_ok.mp h
  obtain ⟨⟨core, run'⟩, hcore, hu⟩ := bind_eq_ok.mp hu
  obtain ⟨hoff, hcore⟩ := ensure_bind_eq_ok.mp hcore
  obtain ⟨rfl, rfl⟩ := Prod.mk.inj (Except.ok.inj hcore)
  obtain ⟨rfl, rfl⟩ := Prod.mk.inj (Except.ok.inj hu)
  obtain rfl := Except.ok.inj h
  split
  · refine ⟨rfl, ?_⟩
    have hnew : ∀ c : Uninterruptible.Core Soft, c.enabled = false → c.new.enabled = false := by
      intro c hc
      rw [Uninterruptible.Core.new, hc]
      exact ite_self false
    exact hnew _ hoff
  · exact ⟨rfl, hoff⟩

/-- **What one step does to the queue**: what it enqueues is behind what waits, and what it calls
was the first. -/
theorem queue_step (hquiet : Quiet s)
    {op : Uninterruptible.Op Soft} (h : Uninterruptible.Step s op t) :
    (called s op).toList ++ t.core.softInterrupts =
      s.core.softInterrupts ++ (enqueued op).toList := by
  obtain ⟨hop, h⟩ := h
  have hsame : ∀ {q : List Soft}, q = s.core.softInterrupts → [] ++ q =
      s.core.softInterrupts ++ [] := fun hq => by rw [hq, List.nil_append, List.append_nil]
  cases op with
  | new =>
      obtain rfl := Except.ok.inj h
      exact hsame rfl
  | drop g => exact hsame (drop_core h).1
  | dropWithoutEnable g =>
      obtain ⟨⟨u, run⟩, hu, h⟩ := bind_eq_ok.mp h
      obtain ⟨⟨core, run'⟩, hcore, hu⟩ := bind_eq_ok.mp hu
      obtain ⟨-, hcore⟩ := ensure_bind_eq_ok.mp hcore
      obtain ⟨rfl, rfl⟩ := Prod.mk.inj (Except.ok.inj hcore)
      obtain ⟨rfl, rfl⟩ := Prod.mk.inj (Except.ok.inj hu)
      obtain rfl := Except.ok.inj h
      exact hsame rfl
  | forceRemainDisabled =>
      obtain rfl := Except.ok.inj h
      exact hsame rfl
  | enqueue f =>
      obtain rfl := Except.ok.inj h
      rw [called, enqueued, Uninterruptible.State.enqueueSoftInterrupt]
      split
      · rename_i hon
        have hempty := hquiet hon.1 hon.2
        have hqueue : (s.create.push (.enqueued s.nextGuard f)).core.softInterrupts =
          s.core.softInterrupts := rfl
        rw [hqueue, hempty]
        rfl
      · rfl
  | setEnabled b =>
      obtain rfl := Except.ok.inj h
      exact hsame rfl
  | ret =>
      have hret : s.ret = .ok t := h
      rw [Uninterruptible.State.ret] at hret
      split at hret
      · exact hsame (drop_core hret).1
      · obtain rfl := Except.ok.inj hret
        exact hsame rfl
      · obtain rfl := Except.ok.inj hret
        exact hsame rfl
  | tick =>
      have htick : s.tick = .ok t := h
      rw [Uninterruptible.State.tick] at htick
      rw [called]
      split at htick
      · rename_i g st hstack
        rw [hstack]
        split at htick
        · rename_i f q hq
          obtain rfl := Except.ok.inj htick
          rw [hq]
          exact (List.append_nil _).symm
        · rename_i hq
          have hqueue : t.core.softInterrupts = [] := (drop_core htick).1.trans hq
          dsimp only
          rw [hq, hqueue]
          rfl
      · rename_i st hstack
        obtain ⟨-, htick⟩ := ensure_bind_eq_ok.mp htick
        obtain rfl := Except.ok.inj htick
        rw [hstack]
        exact hsame rfl
      · rename_i hloop hafter
        obtain rfl := Except.ok.inj htick
        split
        · rename_i g st hstack
          exact absurd hstack (hloop g st)
        · exact hsame rfl

/-- **A step** keeps the queue empty while interrupts are on, if it does not switch them on by hand
while soft interrupts wait. -/
theorem Quiet.step (hquiet : Quiet s) (hinv : Uninterruptible.Inv s)
    {op : Uninterruptible.Op Soft} (h : Uninterruptible.Step s op t)
    (hcalm : op = .setEnabled true → s.core.softInterrupts = []) : Quiet t := by
  obtain ⟨hop, h⟩ := h
  have hoff : t.core.enabled = false → Quiet t := fun hoff _ hon => by
    rw [hoff] at hon
    exact absurd hon Bool.false_ne_true
  cases op with
  | new =>
      obtain rfl := Except.ok.inj h
      intro hin hon
      refine hquiet hin ?_
      by_cases hnum : s.core.numHeld = 0
      · have hnew : s.create.core.enabled = false := if_pos hnum
        rw [hnew] at hon
        exact absurd hon Bool.false_ne_true
      · have hnew : s.create.core.enabled = s.core.enabled := if_neg hnum
        rw [← hnew]
        exact hon
  | drop g => exact hoff (drop_core h).2
  | dropWithoutEnable g =>
      obtain ⟨⟨u, run⟩, hu, h⟩ := bind_eq_ok.mp h
      obtain ⟨⟨core, run'⟩, hcore, hu⟩ := bind_eq_ok.mp hu
      obtain ⟨hdisabled, hcore⟩ := ensure_bind_eq_ok.mp hcore
      obtain ⟨rfl, rfl⟩ := Prod.mk.inj (Except.ok.inj hcore)
      obtain ⟨rfl, rfl⟩ := Prod.mk.inj (Except.ok.inj hu)
      obtain rfl := Except.ok.inj h
      exact hoff hdisabled
  | forceRemainDisabled =>
      obtain rfl := Except.ok.inj h
      exact hquiet
  | enqueue f =>
      obtain rfl := Except.ok.inj h
      rw [Uninterruptible.State.enqueueSoftInterrupt]
      split
      · rename_i hon
        exact fun _ _ => hquiet hon.1 hon.2
      · rename_i hon
        exact fun hin hon' => absurd ⟨hin, hon'⟩ hon
  | setEnabled b =>
      obtain rfl := Except.ok.inj h
      intro hin hon
      have hb : b = true := hon
      exact hcalm (by rw [hb])
  | ret =>
      have hret : s.ret = .ok t := h
      rw [Uninterruptible.State.ret] at hret
      split at hret
      · exact hoff (drop_core hret).2
      · obtain rfl := Except.ok.inj hret
        exact hquiet
      · obtain rfl := Except.ok.inj hret
        exact hquiet
  | tick =>
      have htick : s.tick = .ok t := h
      rw [Uninterruptible.State.tick] at htick
      split at htick
      · split at htick
        · rename_i f q hq
          obtain rfl := Except.ok.inj htick
          intro hin hon
          have hnil := hquiet hin hon
          rw [hq] at hnil
          cases hnil
        · exact hoff (drop_core htick).2
      · rename_i st hstack
        obtain ⟨-, htick⟩ := ensure_bind_eq_ok.mp htick
        obtain rfl := Except.ok.inj htick
        intro _ _
        have hcalls := hinv.calls
        rw [hstack] at hcalls
        cases hcalls with
        | afterRun hoff hempty hinner => exact hempty
      · obtain rfl := Except.ok.inj htick
        exact hquiet

end Queue

/-! ### Terminals -/

/-- Every terminal gets the message as often as it was added. -/
theorem writeMsg_eq (outTty : List ℕ) (msg : List Char) (got : ℕ → List (List Char)) (tty : ℕ) :
    writeMsg outTty msg got tty = got tty ++ List.replicate (outTty.count tty) msg := by
  induction outTty generalizing got with
  | nil => exact (List.append_nil _).symm
  | cons other outTty ih =>
      have hcons : writeMsg (other :: outTty) msg got tty =
        writeMsg outTty msg (Function.update got other (got other ++ [msg])) tty := rfl
      rw [hcons, ih]
      by_cases h : other = tty
      · subst h
        rw [Function.update_self, List.count_cons_self, List.replicate_succ, List.append_assoc]
        rfl
      · rw [Function.update_of_ne (Ne.symm h), List.count_cons_of_ne h]

/-- What calling a closure writes. -/
theorem call_spec (s : Delivery) (f : Option Soft) (tty : ℕ) :
    (s.call f).delivered = s.delivered ++ (f.bind Soft.msg).toList ∧
      (s.call f).got tty = s.got tty ++
        (f.bind Soft.msg).toList.flatMap (List.replicate (s.outTty.count tty)) := by
  rw [Delivery.call]
  cases f.bind Soft.msg with
  | none => exact ⟨(List.append_nil _).symm, (List.append_nil _).symm⟩
  | some msg =>
      refine ⟨rfl, ?_⟩
      dsimp only
      rw [writeMsg_eq]
      exact congrArg (s.got tty ++ ·) (List.append_nil _).symm

/-- The messages that wait in the queue. -/
def Delivery.waiting (s : Delivery) : List (List Char) :=
  s.core.core.softInterrupts.filterMap Soft.msg

/-- The invariant. -/
structure DeliveryInv (s : Delivery) : Prop where
  core : Uninterruptible.Inv s.core
  quiet : Quiet s.core
  order : s.logged = s.delivered ++ s.waiting

/-- The messages of at most one closure. -/
theorem filterMap_toList (f : Option Soft) :
    f.toList.filterMap Soft.msg = (f.bind Soft.msg).toList := by
  cases f with
  | none => rfl
  | some f => cases f <;> rfl

/-- **A step** keeps the messages in order. -/
theorem DeliveryInv.step {s t : Delivery} (h : DeliveryInv s) {op : LogOp}
    (hstep : LogStep s op t) : DeliveryInv t := by
  obtain ⟨hop, hperform⟩ := hstep
  cases op with
  | addTty tty =>
      obtain rfl := Except.ok.inj hperform
      exact ⟨h.core, h.quiet, h.order⟩
  | removeTty tty =>
      obtain rfl := Except.ok.inj hperform
      exact ⟨h.core, h.quiet, h.order⟩
  | core op =>
      obtain ⟨core, hcore, hperform⟩ := bind_eq_ok.mp hperform
      obtain rfl := Except.ok.inj hperform
      have hcoreStep : Uninterruptible.Step s.core op core := ⟨hop.1, hcore⟩
      refine ⟨h.core.step hcoreStep, h.quiet.step h.core hcoreStep hop.2, ?_⟩
      have hqueue := congrArg (List.filterMap Soft.msg) (queue_step h.quiet hcoreStep)
      rw [List.filterMap_append, List.filterMap_append, filterMap_toList,
        filterMap_toList] at hqueue
      dsimp only
      rw [(call_spec s _ 0).1, h.order, Delivery.waiting, Delivery.waiting, List.append_assoc,
        List.append_assoc, hqueue]

section Text

open Ansi

/-- A character in its colors: that of the text and that of the background. -/
abbrev Colored : Type := Char × AnsiColor × AnsiColor

/-- The characters that actions write, in the colors that they have then. -/
def colored (colors : AnsiColor × AnsiColor) : List Action → List Colored
  | [] => []
  | .writeChar ch :: actions => (ch, colors) :: colored colors actions
  | .sgr sgr :: actions => colored (sgr.foldl SgrAction.setColors colors) actions
  | _ :: actions => colored colors actions

/-- The colors after actions. -/
def colorsAfter (colors : AnsiColor × AnsiColor) : List Action → AnsiColor × AnsiColor
  | [] => colors
  | .sgr sgr :: actions => colorsAfter (sgr.foldl SgrAction.setColors colors) actions
  | _ :: actions => colorsAfter colors actions

/-- The action writes a character or sets colors: it moves no cursor and erases nothing. -/
def IsTextAction (action : Action) : Prop :=
  (∃ ch, action = .writeChar ch) ∨ ∃ sgr, action = .sgr sgr

/-- The colors of a terminal that was reset. -/
def plain : AnsiColor × AnsiColor := (.white, .black)

/-- A message: its level, its module and its text. -/
structure Message where
  lvl : LogLevel
  module : List Char
  msg : List Char

/-- The text that `log!` makes of a message. -/
def Message.text (m : Message) : List Char := formatMsg m.lvl m.module m.msg

/-- The text of a message after the name of its level. -/
def Message.rest (m : Message) : List Char :=
  "] ".toList ++ m.module ++ ": ".toList ++ m.msg ++ "\n".toList

/-- The line that a message is shown as: the name of its level in the color of the level. -/
def Message.line (m : Message) : List Colored :=
  ('[', plain) :: m.lvl.name.map (fun ch => (ch, m.lvl.color, .black)) ++
    m.rest.map fun ch => (ch, plain)

/-- The message contains no control sequence. -/
def Message.Printable (m : Message) : Prop := '\x1b' ∉ m.module ∧ '\x1b' ∉ m.msg

/-- The actions of the text of a message. -/
def Message.actions (m : Message) : List Action :=
  ['['].map .writeChar ++ ([.sgr [.setFgColor m.lvl.color]] ++ (m.lvl.name.map .writeChar ++
    ([.sgr [.reset]] ++ m.rest.map .writeChar)))

/-- Characters are written in the colors that there are. -/
theorem colored_chars (colors : AnsiColor × AnsiColor) (s : List Char) (actions : List Action) :
    colored colors (s.map .writeChar ++ actions) =
      s.map (fun ch => (ch, colors)) ++ colored colors actions := by
  induction s with
  | nil => rfl
  | cons ch s ih =>
      rw [List.map_cons, List.cons_append, colored, ih]
      rfl

/-- Writing characters leaves the colors. -/
theorem colorsAfter_chars (colors : AnsiColor × AnsiColor) (s : List Char)
    (actions : List Action) :
    colorsAfter colors (s.map .writeChar ++ actions) = colorsAfter colors actions := by
  induction s with
  | nil => rfl
  | cons ch s ih => exact ih

/-- The actions of a message leave the plain colors. -/
theorem colorsAfter_actions (m : Message) (actions : List Action) :
    colorsAfter plain (m.actions ++ actions) = colorsAfter plain actions := by
  have hfg : ∀ rest, colorsAfter plain ([.sgr [.setFgColor m.lvl.color]] ++ rest) =
    colorsAfter (m.lvl.color, .black) rest := fun rest => rfl
  have hreset : ∀ colors rest,
    colorsAfter colors ([.sgr [.reset]] ++ rest) = colorsAfter plain rest := fun colors rest => rfl
  rw [Message.actions, List.append_assoc, List.append_assoc, List.append_assoc, List.append_assoc,
    colorsAfter_chars, hfg, colorsAfter_chars, hreset, colorsAfter_chars]

/-- A message has only characters and colors. -/
theorem isTextAction_of_mem {m : Message} {action : Action} (h : action ∈ m.actions) :
    IsTextAction action := by
  have hchars : ∀ s : List Char, action ∈ s.map Action.writeChar → IsTextAction action := by
    intro s hmem
    obtain ⟨ch, -, rfl⟩ := List.mem_map.mp hmem
    exact .inl ⟨ch, rfl⟩
  have hsgr : ∀ sgr, action ∈ [Action.sgr sgr] → IsTextAction action := by
    intro sgr hmem
    exact .inr ⟨sgr, List.mem_singleton.mp hmem⟩
  rw [Message.actions] at h
  rcases List.mem_append.mp h with h | h
  · exact hchars _ h
  rcases List.mem_append.mp h with h | h
  · exact hsgr _ h
  rcases List.mem_append.mp h with h | h
  · exact hchars _ h
  rcases List.mem_append.mp h with h | h
  · exact hsgr _ h
  · exact hchars _ h

/-- The actions of a message write its line, and go on in the plain colors. -/
theorem colored_actions (m : Message) (actions : List Action) :
    colored plain (m.actions ++ actions) = m.line ++ colored plain actions := by
  have hfg : ∀ rest, colored plain ([.sgr [.setFgColor m.lvl.color]] ++ rest) =
    colored (m.lvl.color, .black) rest := fun rest => rfl
  have hreset : ∀ colors rest, colored colors ([.sgr [.reset]] ++ rest) = colored plain rest :=
    fun colors rest => rfl
  rw [Message.actions, List.append_assoc, List.append_assoc, List.append_assoc, List.append_assoc,
    colored_chars, hfg, colored_chars, hreset, colored_chars, Message.line]
  simp only [List.map_cons, List.map_nil, List.cons_append, List.nil_append, List.append_assoc]

/-- No level has a name with a control sequence. -/
theorem esc_notMem_name (lvl : LogLevel) : '\x1b' ∉ lvl.name := by
  cases lvl <;> decide

/-- The control sequence of one action. -/
theorem sgrSequence_singleton (action : SgrAction) :
    sgrSequence [action] = ['\x1b', '['] ++ (action.display ++ ['m']) := by
  rw [sgrSequence, sgrParams, List.map_singleton, List.intercalate_singleton]
  rfl

/-- The text of a message, in its parts. -/
theorem Message.text_eq (m : Message) : m.text = ['['] ++ (sgrSequence [.setFgColor m.lvl.color] ++
    (m.lvl.name ++ (sgrSequence [.reset] ++ m.rest))) := by
  have hbegin : "[\x1b[".toList = ['['] ++ ['\x1b', '['] := by decide
  have hend : "\x1b[0m] ".toList = ['\x1b', '['] ++ (['0'] ++ ['m']) ++ "] ".toList := by decide
  have hm : "m".toList = ['m'] := by decide
  have hzero : SgrAction.reset.display = ['0'] := rfl
  unfold Message.text formatMsg
  rw [sgrSequence_singleton, sgrSequence_singleton, Message.rest, hbegin, hend, hzero, hm]
  simp only [List.append_assoc]

/-- **The text of a message** between control sequences has the actions of the message. -/
theorem emits_text {m : Message} (h : m.Printable) : Emits m.text m.actions := by
  have hrest : '\x1b' ∉ m.rest := by
    simp only [Message.rest, List.mem_append, not_or]
    exact ⟨⟨⟨⟨by decide, h.1⟩, by decide⟩, h.2⟩, by decide⟩
  have hcolor : (asBytes (sgrParams [.setFgColor m.lvl.color])).length < maxCsiLength := by
    cases m.lvl <;> decide
  have hreset : (asBytes (sgrParams [.reset])).length < maxCsiLength := by decide
  rw [m.text_eq]
  exact (emits_chars (s := ['[']) (by decide)).append
    ((emits_sgrSequence (List.cons_ne_nil _ _) hcolor).append
      ((emits_chars (esc_notMem_name m.lvl)).append
        ((emits_sgrSequence (List.cons_ne_nil _ _) hreset).append (emits_chars hrest))))

/-- **Messages are shown** as they are meant: a terminal in its plain colors that gets the texts of
messages without control sequences of their own writes, for each, a line with the name of the level
in its color and all else in plain colors. It does nothing else, and is left in its plain colors,
ready for the next. -/
theorem messages_shown {messages : List Message} (h : ∀ m ∈ messages, m.Printable) :
    ∃ actions, Emits (messages.flatMap Message.text) actions ∧
      (∀ action ∈ actions, IsTextAction action) ∧
      colored plain actions = messages.flatMap Message.line ∧
      colorsAfter plain actions = plain := by
  induction messages with
  | nil => exact ⟨[], emits_nil, fun _ h => absurd h List.not_mem_nil, rfl, rfl⟩
  | cons m messages ih =>
      obtain ⟨actions, hemits, htext, hcolored, hafter⟩ :=
        ih fun m' hm' => h m' (List.mem_cons_of_mem _ hm')
      refine ⟨m.actions ++ actions, (emits_text (h m List.mem_cons_self)).append hemits, ?_, ?_, ?_⟩
      · intro action haction
        exact (List.mem_append.mp haction).elim isTextAction_of_mem (htext action)
      · rw [colored_actions, hcolored, List.flatMap_cons]
      · rw [colorsAfter_actions, hafter]

/-- A warning and an error without control sequences are shown. -/
theorem messages_shown_warning : ∃ actions,
    Emits ([⟨.warning, ['p', 's', '2'], ['x']⟩, ⟨.error, ['c', 'm', 'd'], ['y', 'z']⟩].flatMap
      Message.text) actions ∧
      (∀ action ∈ actions, IsTextAction action) ∧
      colored plain actions = [⟨.warning, ['p', 's', '2'], ['x']⟩,
        ⟨.error, ['c', 'm', 'd'], ['y', 'z']⟩].flatMap Message.line ∧
      colorsAfter plain actions = plain :=
  messages_shown fun m hm => by
    rcases List.mem_cons.mp hm with rfl | hm
    · exact ⟨by decide, by decide⟩
    · obtain rfl := List.mem_singleton.mp hm
      exact ⟨by decide, by decide⟩

end Text

end HydroxKernel.Log
