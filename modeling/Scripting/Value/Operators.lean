import Scripting.Diagnostic.Basic
import Scripting.Value.Basic

/-!
# Operators on values

* `Numbers` : two numbers brought to one type, read from two values by `Numbers.of?`;
* `UnaryOp.apply`, `BinaryOp.apply` : what an operator makes of its operands, or its fault.

Integers wrap around at 64 bits, and their division truncates.
-/

namespace Scripting

set_option autoImplicit false

/-- The float nearest to an integer. -/
def Value.toFloat (n : Int64) : Float := Float.ofInt n.toInt

/-- Two numbers of one type. -/
inductive Numbers
  | ints (a b : Int64)
  | floats (a b : Float)

/-- Two values as numbers of one type; an integer beside a float becomes the nearest float. -/
def Numbers.of? : Value → Value → Option Numbers
  | .int a, .int b => some (ints a b)
  | .int a, .float b => some (floats (Value.toFloat a) b)
  | .float a, .int b => some (floats a (Value.toFloat b))
  | .float a, .float b => some (floats a b)
  | _, _ => none

/-- What an operator makes of the operand behind it. -/
def UnaryOp.apply : UnaryOp → Value → Except RuntimeFault Value
  | not, v => .ok (.bool (!v.isTruthy))
  | negate, .int n => .ok (.int (-n))
  | negate, .float x => .ok (.float (-x))
  | negate, _ => .error .operandNotNumber

namespace BinaryOp

/-- Sums of numbers, and texts put together. -/
def sum (left right : Value) : Except RuntimeFault Value :=
  match Numbers.of? left right with
  | some (.ints a b) => .ok (.int (a + b))
  | some (.floats a b) => .ok (.float (a + b))
  | none =>
    match left, right with
    | .string a, .string b => .ok (.string (a ++ b))
    | _, _ => .error .operandsNotAddable

/-- Quotients of numbers. -/
def quotient (left right : Value) : Except RuntimeFault Value :=
  match Numbers.of? left right with
  | some (.ints a b) => if b = 0 then .error .divisionByZero else .ok (.int (a / b))
  | some (.floats a b) => .ok (.float (a / b))
  | none => .error .operandsNotNumbers

/-- What two operations, on integers and on floats, make of numbers. -/
def numeric (onInts : Int64 → Int64 → Value) (onFloats : Float → Float → Value)
    (left right : Value) : Except RuntimeFault Value :=
  match Numbers.of? left right with
  | some (.ints a b) => .ok (onInts a b)
  | some (.floats a b) => .ok (onFloats a b)
  | none => .error .operandsNotNumbers

/-- What an operator makes of the operands beside it. -/
def apply (op : BinaryOp) (left right : Value) : Except RuntimeFault Value :=
  match op with
  | equal => .ok (.bool (left.equals right))
  | notEqual => .ok (.bool (!left.equals right))
  | add => sum left right
  | subtract => numeric (fun a b => .int (a - b)) (fun a b => .float (a - b)) left right
  | multiply => numeric (fun a b => .int (a * b)) (fun a b => .float (a * b)) left right
  | divide => quotient left right
  | less => numeric (fun a b => .bool (a < b)) (fun a b => .bool (a < b)) left right
  | lessEqual => numeric (fun a b => .bool (a ≤ b)) (fun a b => .bool (a ≤ b)) left right
  | greater => numeric (fun a b => .bool (b < a)) (fun a b => .bool (b < a)) left right
  | greaterEqual => numeric (fun a b => .bool (b ≤ a)) (fun a b => .bool (b ≤ a)) left right

end BinaryOp

/-- Whether the first operand decides. -/
def LogicalOp.decides : LogicalOp → Value → Bool
  | or, v => v.isTruthy
  | and, v => !v.isTruthy

end Scripting
