/-!
# Levels of the log

* `LogLevel.line`: how a text is shown on the console, in the colour of its level.
-/

namespace TrapKernel

/-- How important a note is. -/
inductive LogLevel where
  | error
  | warn
  | info
  | debug
  | trace
  deriving DecidableEq, Repr

namespace LogLevel

/-- The place of the level, from the most important to the least. -/
def rank : LogLevel → Nat
  | error => 1
  | warn => 2
  | info => 3
  | debug => 4
  | trace => 5

/-- The name of the level, padded on the left to five characters. -/
def label : LogLevel → String
  | error => "ERROR"
  | warn => " WARN"
  | info => " INFO"
  | debug => "DEBUG"
  | trace => "TRACE"

/-- The number of the level's colour on the console. -/
def colour : LogLevel → Nat
  | error => 31
  | warn => 93
  | info => 34
  | debug => 32
  | trace => 36

/-- What is written to the console for a text, without the line end. -/
def line (level : LogLevel) (text : String) : String :=
  "\x1b[" ++ toString level.colour ++ "m[" ++ level.label ++ "] " ++ text ++ "\x1b[0m"

end LogLevel

end TrapKernel
