import Scripting.Diagnostic.Render
import Scripting.Evaluator
import Scripting.Parser.Program

/-!
# Interpreters

* `Outcome` : what comes of running a text;
* `Interpreter` : a machine between runs, with what its runs depend on;
* `Interpreter.run` : reads and runs a text; what it defines stays for later runs;
* `Interpreter.drain` : takes the output and the events of the runs so far;
* `Interpreter.globals`, `Interpreter.defineNative` : the global names.
-/

namespace Scripting

set_option autoImplicit false

/-! ## Outcomes -/

/-- What comes of running a text. -/
inductive Outcome
  | success
  | lexErrors (diagnostics : List Diagnostic)
  | parseErrors (diagnostics : List Diagnostic)
  | fault (diagnostic : Diagnostic)
  | ioFault (fault : IoFault)
  | outOfFuel
  deriving DecidableEq, Repr

namespace Outcome

/-- Whether the text was run to its end. -/
def isSuccess : Outcome → Bool
  | success => true
  | _ => false

/-- The faults of the text. -/
def diagnostics : Outcome → List Diagnostic
  | lexErrors ds => ds
  | parseErrors ds => ds
  | fault d => [d]
  | _ => []

/-- The first error in words. -/
def firstError? : Outcome → Option String
  | ioFault f => some f.message
  | outcome => outcome.diagnostics.head?.map Diagnostic.text

/-- What comes of a run that halts. -/
def ofHalt : Halt → Outcome
  | .fault d => fault d
  | .io f => ioFault f
  | .outOfFuel => outOfFuel

end Outcome

/-! ## Interpreters -/

/-- A machine between runs, with what its runs depend on. -/
structure Interpreter where
  config : Config
  scriptName : String
  machine : Machine

namespace Interpreter

/-- The name of a script that has none. -/
def defaultScriptName : String := "<script>"

/-- The frame of the global names. -/
def globalFrame : FrameId := 0

/-- Supplies a native function under its name. -/
def defineNative (i : Interpreter) (f : Native) : Interpreter :=
  let m := i.machine
  let v : Value := .callable (.native m.issued f)
  { i with machine :=
      { m with store := m.store.define globalFrame f.name v, issued := m.issued + 1 } }

/-- An interpreter whose only names are the standard native functions. -/
def new (config : Config) (scriptName : String) (sink : Sink) : Interpreter :=
  Native.standard.foldl defineNative
    { config, scriptName
      machine := { store := Store.empty.add .empty, scope := .single globalFrame, sink } }

/-- The global names with their values. -/
def globals (i : Interpreter) : Frame := i.machine.store.frame globalFrame

/-- The output and the events since the last time that they were asked for. -/
def drain (i : Interpreter) : ByteArray × List Event × Interpreter :=
  let { config, scriptName, machine } := i
  let out := machine.sink.written
  let events := machine.log.toList
  let sink := { machine.sink with written := .empty }
  (out, events, { config, scriptName, machine := { machine with sink, log := #[] } })

/-- Tells an event. -/
def tell (i : Interpreter) (e : Event) : Interpreter :=
  { i with machine := { i.machine with log := i.machine.log.push e } }

/-- The reason why a run halts, in words. -/
def reason : Halt → String
  | .fault d => d.text
  | .io f => f.message
  | .outOfFuel => "out of fuel"

/-- Runs the statements of a program. -/
def interpret (i : Interpreter) (fuel : Nat) (statements : List Stmt) : Outcome × Interpreter :=
  let { config, scriptName, machine } := i
  match runProgram config fuel statements machine with
  | .ok _ machine => (.success, { config, scriptName, machine })
  | .error halt machine =>
    (.ofHalt halt, { config, scriptName, machine : Interpreter }.tell (.halted (reason halt)))

/-- Reads a text and runs it, unless there are faults in it. -/
def run (i : Interpreter) (fuel : Nat) (source : String) : Outcome × Interpreter :=
  let s := scan source
  let i := i.tell (.lexed s.tokens.length s.diagnostics.length)
  if !s.diagnostics.isEmpty then
    (.lexErrors s.diagnostics, i.tell (.lexingFailed s.diagnostics.length))
  else
    let p := Program.read s.tokens
    let i := i.tell (.parsed p.statements.length p.diagnostics.length)
    if !p.diagnostics.isEmpty then
      (.parseErrors p.diagnostics, i.tell (.parsingFailed p.diagnostics.length))
    else i.interpret fuel p.statements

end Interpreter

end Scripting
