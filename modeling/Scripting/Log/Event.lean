/-!
# Events

* `Event` : what is worth telling about a run while it goes on;
* `Level`, `Event.level` : how much an event matters;
* `Event.text` : an event in words, its data as `key=value`;
* `Event.line` : the line that a log shows for an event.
-/

namespace Scripting

set_option autoImplicit false

/-- How much an event matters. -/
inductive Level
  | error | warn | info | debug | trace
  deriving DecidableEq, Repr

/-- What is worth telling about a run while it goes on. -/
inductive Event
  | lexed (tokens errors : Nat)
  | parsed (statements errors : Nat)
  | lexingFailed (count : Nat)
  | parsingFailed (count : Nat)
  | calling (function : String) (depth : Nat)
  | halted (reason : String)
  | discovered (directory : String) (count : Nat)
  | finished (script : String) (ok : Bool)
  deriving DecidableEq, Repr

namespace Level

/-- The place of a level, the most important being 1. -/
def rank : Level → Nat
  | error => 1
  | warn => 2
  | info => 3
  | debug => 4
  | trace => 5

/-- The name of a level, five characters wide. -/
def label : Level → String
  | error => "ERROR"
  | warn => " WARN"
  | info => " INFO"
  | debug => "DEBUG"
  | trace => "TRACE"

end Level

namespace Event

/-- How much an event matters. -/
def level : Event → Level
  | calling .. => .trace
  | finished .. => .info
  | _ => .debug

/-- Whether an event belongs to the run of one script. -/
def isInRun : Event → Bool
  | discovered .. => false
  | finished .. => false
  | _ => true

/-- An event in words, its data as `key=value`. -/
def text : Event → String
  | lexed tokens errors =>
    "lexed source tokens=" ++ toString tokens ++ " errors=" ++ toString errors
  | parsed statements errors =>
    "parsed program statements=" ++ toString statements ++ " errors=" ++ toString errors
  | lexingFailed count => "lexing failed count=" ++ toString count
  | parsingFailed count => "parsing failed count=" ++ toString count
  | calling function depth =>
    "calling function function=\"" ++ function ++ "\" depth=" ++ toString depth
  | halted reason => "evaluation halted error=" ++ reason
  | discovered directory count =>
    "discovered scripts dir=" ++ directory ++ " count=" ++ toString count
  | finished script ok =>
    "script finished script=" ++ script ++ " ok=" ++ (if ok then "true" else "false")

/-- The line that a log shows for an event: the time, the level, the script that is being run if the
log shows runs, and the event in words. -/
def line (e : Event) (time : String) (run : Option String) : String :=
  let place := match run with
    | some script => if e.isInRun then "run\x7bscript=" ++ script ++ "\x7d: " else ""
    | none => ""
  time ++ " " ++ e.level.label ++ " " ++ place ++ e.text ++ "\n"

end Event

end Scripting
