import Scripting.CommandLine.Files
import Scripting.Interpreter
import Scripting.Log.Filter

/-!
# Running texts for a reader

* `Printed` : what goes to the two outputs of a command;
* `Settings` : what all runs of a command depend on;
* `Settings.runScript` : runs one script by itself;
* `Session` : lines that are run one after the other, with `Session.enter` for one line and
  `Session.run` for all.
-/

namespace Scripting.CommandLine

set_option autoImplicit false

/-- What goes to the output of a command, and to its output for errors. -/
structure Printed where
  out : ByteArray := .empty
  err : String := ""

namespace Printed

instance : Append Printed := ⟨fun a b => ⟨a.out ++ b.out, a.err ++ b.err⟩⟩

/-- Nothing. -/
def nothing : Printed := {}

/-- A text for the output. -/
def ofOut (text : String) : Printed := { out := text.toUTF8 }

/-- A text for the output for errors. -/
def ofErr (text : String) : Printed := { err := text }

end Printed

/-- What all runs of a command depend on: which events the log shows and with what time, the fuel of
a run, and the clock. -/
structure Settings where
  filter : Filter := .off
  time : String
  fuel : Nat := ampleFuel
  clock : Nat → Float

namespace Settings

/-- What the runs of interpreters depend on. -/
def config (s : Settings) : Config :=
  { clock := s.clock, tellsCalls := s.filter.level = some .trace }

/-- An interpreter for the script of a name. -/
def interpreter (s : Settings) (scriptName : String) : Interpreter := .new s.config scriptName {}

/-- The lines of the log for events. -/
def logText (s : Settings) (script : Option String) (events : List Event) : String :=
  String.join ((events.filter s.filter.shows).map fun e => e.line s.time script)

/-- What is told of a run that failed, where a reader sees the text as `source`. A fault of input or
output has `label` before it. -/
def complaint (source scriptName label : String) : Outcome → String
  | .ioFault fault => "error: " ++ label ++ fault.message ++ "\n"
  | outcome => String.join (outcome.diagnostics.map fun d => d.render source scriptName)

/-- Runs a text in an interpreter, which is given back with its output and its log drained. -/
def runIn (s : Settings) (i : Interpreter) (source label : String) :
    Printed × Bool × Interpreter :=
  let (outcome, i) := i.run s.fuel source
  let (out, events, i) := i.drain
  let err := s.logText (some i.scriptName) events ++ complaint source i.scriptName label outcome
  ({ out, err }, outcome.isSuccess, i)

/-- Runs a script by itself, and tells whether it was run to its end. -/
def runScript (s : Settings) (name source : String) : Printed × Bool :=
  let (printed, ok, _) := s.runIn (s.interpreter name) source (name ++ ": ")
  (printed, ok)

end Settings

/-! ## Sessions -/

/-- Lines that are run one after the other in one interpreter. -/
structure Session where
  settings : Settings
  interpreter : Interpreter

namespace Session

/-- The session before its first line. -/
def start (s : Settings) : Session := ⟨s, s.interpreter "<repl>"⟩

/-- The global names with their values, one on a line. -/
def globalsText (session : Session) : String :=
  String.join (session.interpreter.globals.bindings.map fun (name, v) =>
    name ++ " = " ++ v.debugText ++ "\n")

/-- What comes of a line: the session goes on, or it is over, and did it end well? -/
inductive Reply
  | goesOn (printed : Printed) (session : Session)
  | over (printed : Printed) (ok : Bool)

/-- Runs a line, or does what it commands. -/
def enterText (session : Session) (text : String) : Reply :=
  if text = ":quit" ∨ text = ":exit" then .over .nothing true
  else if text = "" then .goesOn .nothing session
  else if text = ":vars" then .goesOn (.ofOut session.globalsText) session
  else
    let { settings, interpreter } := session
    let (printed, _, interpreter) := settings.runIn interpreter text ""
    .goesOn printed { settings, interpreter }

/-- Takes a line, without the blanks at its ends. A line that is no text ends the session. -/
def enter (session : Session) (line : ByteArray) : Reply :=
  match String.fromUTF8? line with
  | some text => session.enterText (Text.trimBlank text)
  | none => .over (.ofErr ("error: I/O error: " ++ FileFault.notText.text ++ "\n")) false

/-- Takes lines until there are no more, or the session is over, and tells whether it ended well. -/
def run (session : Session) : List ByteArray → Printed × Bool
  | [] => (.nothing, true)
  | line :: rest =>
    match session.enter line with
    | .over printed ok => (printed, ok)
    | .goesOn printed session =>
      let (others, ok) := run session rest
      (printed ++ others, ok)

end Session

/-- The lines of bytes, each without the line feed that ends it; `current` has been read of the
first one, backwards. -/
def byteLinesFrom (current : List UInt8) : List UInt8 → List ByteArray
  | [] => if current.isEmpty then [] else [⟨current.reverse.toArray⟩]
  | b :: bs =>
    if b = 10 then ⟨current.reverse.toArray⟩ :: byteLinesFrom [] bs
    else byteLinesFrom (b :: current) bs

/-- The lines of bytes. -/
def byteLines (bytes : ByteArray) : List ByteArray := byteLinesFrom [] bytes.toList

end Scripting.CommandLine
