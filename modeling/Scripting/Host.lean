import Scripting.Machine

/-!
# Native functions

* `Action` : what a native function asks the interpreter to do;
* `Host` : what the native functions of an embedding program do;
* `Native.print`, `Native.clock`, `Host.standard` : the native functions of every program;
* `Config` : what a run depends on besides the program and the machine.
-/

namespace Scripting

set_option autoImplicit false

/-- What a native function asks the interpreter to do: to go on with a value, to halt, to write a
text and go on with a value, to call a callable with just these arguments, or to read the clock. -/
inductive Action
  | value (v : Value)
  | fault (diagnostic : Diagnostic)
  | ioFault (fault : IoFault)
  | write (text : String) (result : Value)
  | call (callee : Callable) (arguments : List Value)
  | readClock

/-- What native functions do with their arguments. -/
def Host : Type := Native → List Value → Action

/-- The function that gives the time in seconds. -/
def Native.clock : Native := ⟨"clock", .fixed 0⟩

/-- The function that writes its arguments, one behind the other, on a line. -/
def Native.print : Native := ⟨"print", .variadic⟩

/-- The native functions of every program. -/
def Native.standard : List Native := [.clock, .print]

/-- What the native functions of every program do; any other gives null. -/
def Host.standard : Host := fun f arguments =>
  if f.name = Native.clock.name then .readClock
  else if f.name = Native.print.name then
    .write (String.join (arguments.map Value.text) ++ "\n") .null
  else .value .null

/-- What a run depends on besides the program and the machine. -/
structure Config where
  /-- What native functions do. -/
  host : Host := .standard
  /-- How many calls may be in progress. -/
  callLimit : Option Nat := some 4096
  /-- The time of each reading of the clock. -/
  clock : Nat → Float := fun _ => 0
  /-- Whether calls are told as events. -/
  tellsCalls : Bool := false

end Scripting
