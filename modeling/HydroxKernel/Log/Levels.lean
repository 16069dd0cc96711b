import HydroxKernel.Io.ControlSequences
import Std.Data.TreeSet.Lemmas

/-!
# Log Levels

A message is logged if its level is at most that of its module, or the default level if the
module has none. The levels are set once, by `init`, and asking for them before that panics.
If no module has a level of its own, they are not looked up.

What is logged is a line of text. Its level has a color, for which the line contains control
sequences.

## Main results

* `LogLevelOptions.shouldLog_eq`: the fast path and the slow one agree.
-/

namespace HydroxKernel.Log

open HydroxKernel.Ansi

/-- `LogLevel`, the most severe ones first. -/
inductive LogLevel
  | critical
  | error
  | warning
  | notice
  | info
  | debug
  deriving DecidableEq

namespace LogLevel

/-- The place of a level in the order of the declaration, which is the derived one. -/
def rank : LogLevel → ℕ
  | critical => 0
  | error => 1
  | warning => 2
  | notice => 3
  | info => 4
  | debug => 5

instance : LE LogLevel := ⟨fun a b => a.rank ≤ b.rank⟩

instance (a b : LogLevel) : Decidable (a ≤ b) := inferInstanceAs (Decidable (a.rank ≤ b.rank))

/-- `LogLevel::name`. -/
def name : LogLevel → List Char
  | critical => "CRIT".toList
  | error => "ERR".toList
  | warning => "WARN".toList
  | notice => "NOTICE".toList
  | info => "INFO".toList
  | debug => "DEBUG".toList

/-- `LogLevel::color`. -/
def color : LogLevel → AnsiColor
  | critical => .red
  | error => .red
  | warning => .yellow
  | notice => .cyan
  | info => .white
  | debug => .lightGray

/-- `LogLevel::try_parse_kopt`. `none` is `Err(InvalidOptionValue)`. -/
def tryParseKopt (s : List Char) : Option LogLevel :=
  if s = "crit".toList then some critical
  else if s = "err".toList then some error
  else if s = "warn".toList then some warning
  else if s = "notice".toList then some notice
  else if s = "info".toList then some info
  else if s = "debug".toList then some debug
  else none

end LogLevel

/-- `LogLevelOptions`. -/
structure LogLevelOptions where
  defaultLevel : LogLevel
  levels : Std.TreeMap (List Char) LogLevel

namespace LogLevelOptions

/-- `LogLevelOptions::use_fast_path`. -/
def useFastPath (o : LogLevelOptions) : Bool := o.levels.size = 0

/-- The level of a module. -/
def level (o : LogLevelOptions) (module : List Char) : LogLevel :=
  o.levels[module]?.getD o.defaultLevel

/-- `should_log_slow`. -/
def shouldLogSlow (o : LogLevelOptions) (lvl : LogLevel) (module : List Char) : Bool :=
  lvl ≤ o.level module

/-- `should_log`, given the levels. -/
def shouldLog (o : LogLevelOptions) (lvl : LogLevel) (module : List Char) : Bool :=
  if o.useFastPath then lvl ≤ o.defaultLevel else o.shouldLogSlow lvl module

/-- **The fast path agrees** with the slow one. -/
theorem shouldLog_eq (o : LogLevelOptions) (lvl : LogLevel) (module : List Char) :
    o.shouldLog lvl module = decide (lvl ≤ o.level module) := by
  rw [shouldLog]
  split
  · rename_i hfast
    have hempty : o.levels.isEmpty = true := by
      rw [Std.TreeMap.isEmpty_eq_size_eq_zero]
      simpa [useFastPath] using hfast
    rw [level, Std.TreeMap.getElem?_of_isEmpty hempty, Option.getD_none]
  · rfl

end LogLevelOptions

/-! ### Logging -/

/-- The panics of what is logged and of what logs it. -/
inductive Panic
  /-- "OneShotManualInit used before being initialized". -/
  | uninitialized
  /-- "OneShotManualInit initialized multiple times". -/
  | initializedTwice
  /-- "unset key to warn_invalid_once". -/
  | unsetKey
  /-- A slice of a string is out of its range. -/
  | slice
  deriving DecidableEq

/-- `LOG_LEVELS`, the `warned_invalid` of the kernel's options, and the messages that
`log_msg` was called with. -/
structure State where
  logLevels : Option LogLevelOptions
  warnedInvalid : Std.TreeSet (List Char)
  messages : List (List Char)

/-- Nothing has been logged, and no levels are set. -/
def State.new : State := ⟨none, ∅, []⟩

/-- The text of a message: `"[\x1b[{}m{}\x1b[0m] {}: …\n"`. -/
def formatMsg (lvl : LogLevel) (module msg : List Char) : List Char :=
  "[\x1b[".toList ++ (SgrAction.setFgColor lvl.color).display ++ "m".toList ++ lvl.name ++
    "\x1b[0m] ".toList ++ module ++ ": ".toList ++ msg ++ "\n".toList

/-- `should_log`. -/
def State.shouldLog (s : State) (lvl : LogLevel) (module : List Char) : Except Panic Bool :=
  match s.logLevels with
  | none => .error .uninitialized
  | some levels => .ok (levels.shouldLog lvl module)

/-- `log!`. -/
def State.log (s : State) (lvl : LogLevel) (module msg : List Char) : Except Panic State := do
  if ← s.shouldLog lvl module then
    return { s with messages := s.messages ++ [formatMsg lvl module msg] }
  else return s

end HydroxKernel.Log
