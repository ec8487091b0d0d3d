import Scripting.Log.Event
import Scripting.Store

/-!
# The state of a running program

* `Sink` : where output goes, which may take only some bytes (`Sink.write`, `Sink.refusal?`,
  `Sink.flush`);
* `Machine` : the store, the current scope, the calls in progress, and the sink;
* `Halt` : why a run stops before its end;
* `Eval` : a computation that changes the machine and may halt;
* `Eval.within`, `Eval.counted` : computations in another scope, or as one call more in progress.
-/

namespace Scripting

set_option autoImplicit false

/-! ## Output -/

/-- Faults of input and output. -/
inductive IoFault
  | closed
  | wroteNothing
  | flushFailed
  | other (text : String)
  deriving DecidableEq, Repr

/-- The wording of a fault of input or output. -/
def IoFault.text : IoFault → String
  | closed => "closed"
  | wroteNothing => "failed to write whole buffer"
  | flushFailed => "flush failed"
  | other text => text

/-- The wording of a fault of input or output where it stands for a whole error. -/
def IoFault.message (f : IoFault) : String := "I/O error: " ++ f.text

/-- Where output goes. It takes `room` bytes more, or any number, and then refuses with `refusal`.
-/
structure Sink where
  written : ByteArray := .empty
  room : Option Nat := none
  refusal : IoFault := .closed
  flushFails : Bool := false

namespace Sink

/-- The part of `bytes` for which there is room. -/
def fitting (s : Sink) (bytes : ByteArray) : ByteArray :=
  match s.room with
  | none => bytes
  | some room => bytes.extract 0 room

/-- The fault of writing `bytes`, if there is no room for all of them. -/
def refusal? (s : Sink) (bytes : ByteArray) : Option IoFault :=
  match s.room with
  | none => none
  | some room => if room < bytes.size then some s.refusal else none

/-- Writes `bytes`, as many as there is room for. -/
def write (s : Sink) (bytes : ByteArray) : Sink :=
  { s with written := s.written ++ s.fitting bytes, room := s.room.map (· - bytes.size) }

/-- What comes of flushing. -/
def flush (s : Sink) : Option IoFault := if s.flushFails then some .flushFailed else none

end Sink

/-! ## Machines -/

/-- The state of a running program: the frames, the current scope, how many calls are in progress,
how many identities have been given out, how often the clock was read, the output, and the events.
-/
structure Machine where
  store : Store
  scope : Scope
  callDepth : Nat := 0
  issued : Nat := 0
  readings : Nat := 0
  sink : Sink
  log : Array Event := #[]

/-- Why a run stops before its end. Running out of fuel is no fault of the program. -/
inductive Halt
  | fault (diagnostic : Diagnostic)
  | io (fault : IoFault)
  | outOfFuel
  deriving DecidableEq, Repr

/-- A computation that changes the machine and may halt. -/
abbrev Eval := EStateM Halt Machine

namespace Eval

variable {α : Type}

/-- Halts with the fault `cause` at the token `t`. -/
def faultAt (t : Token) (cause : RuntimeFault) : Eval α :=
  throw (.fault (.atToken (.runtime cause) t))

/-- The result of an operation whose fault is at the token `t`. -/
def liftAt (t : Token) : Except RuntimeFault α → Eval α
  | .ok a => pure a
  | .error cause => faultAt t cause

/-- The value of the name that the token `t` is. -/
def readName (t : Token) : Eval Value := fun m =>
  match m.store.read m.scope t with
  | .ok v => .ok v m
  | .error d => .error (.fault d) m

/-- Assigns a value to the name that the token `t` is. -/
def writeName (t : Token) (v : Value) : Eval Unit := fun m =>
  match m.store.locate m.scope t with
  | .ok id => .ok () { m with store := m.store.define id t.lexeme v }
  | .error d => .error (.fault d) m

/-- Binds a name in the innermost frame. -/
def defineName (name : String) (v : Value) : Eval Unit :=
  modify fun m => { m with store := m.store.define m.scope.inner name v }

/-- Makes a function of the program with the current scope. -/
def makeFunction (name : Option String) (parameters : List Token) (body : List Stmt) : Eval Value :=
  modifyGet fun m =>
    (.callable (.script m.issued ⟨name, parameters.map Token.lexeme, body, m.scope⟩),
      { m with issued := m.issued + 1 })

/-- Makes a scope inside `outer` with a new frame. -/
def newScope (outer : Scope) (frame : Frame) : Eval Scope :=
  modifyGet fun m => (outer.enter m.store.size, { m with store := m.store.add frame })

/-- Runs a computation in another scope. However it ends, the former scope is current again. -/
def within (scope : Scope) (act : Eval α) : Eval α := fun m =>
  let former := m.scope
  match act { m with scope } with
  | .ok a m => .ok a { m with scope := former }
  | .error h m => .error h { m with scope := former }

/-- Runs a computation as one call more in progress. However it ends, the call is over then. -/
def counted (act : Eval α) : Eval α := fun m =>
  match act { m with callDepth := m.callDepth + 1 } with
  | .ok a m => .ok a { m with callDepth := m.callDepth - 1 }
  | .error h m => .error h { m with callDepth := m.callDepth - 1 }

/-- Writes a text to the sink. -/
def write (text : String) : Eval Unit := fun m =>
  let bytes := text.toUTF8
  match m.sink.refusal? bytes with
  | none => .ok () { m with sink := m.sink.write bytes }
  | some fault => .error (.io fault) { m with sink := m.sink.write bytes }

/-- Flushes the sink. -/
def flush : Eval Unit := fun m =>
  match m.sink.flush with
  | none => .ok () m
  | some fault => .error (.io fault) m

/-- Tells an event. -/
def tell (e : Event) : Eval Unit := modify fun m => { m with log := m.log.push e }

/-- The number of a new reading of the clock. -/
def newReading : Eval Nat := modifyGet fun m => (m.readings, { m with readings := m.readings + 1 })

end Eval

end Scripting
