import Scripting.Binary64.Text
import Scripting.Scope
import Scripting.Tree

/-!
# Values

* `Arity` : how many arguments a function takes;
* `Callable` : functions of programs, with the scope they were made in, and native functions, each
  with an identity of its own;
* `Value` : the values of expressions, with their truth, the name of their type, and their equality;
* `Value.text`, `Value.debugText` : values as text, without and with quotes around strings.
-/

namespace Scripting

set_option autoImplicit false

/-- How many arguments a function takes. -/
inductive Arity
  | fixed (count : Nat)
  | variadic
  deriving DecidableEq, Repr

namespace Arity

/-- Whether a call may have `count` arguments. -/
def accepts (arity : Arity) (count : Nat) : Bool :=
  match arity with
  | fixed n => n = count
  | variadic => true

/-- The number of arguments in words. -/
def text : Arity → String
  | fixed n => toString n
  | variadic => "any number of"

end Arity

/-- A function of a program, with the scope in which it was made. -/
structure Closure where
  name : Option String
  parameters : List String
  body : List Stmt
  scope : Scope

/-- A function that the embedding program supplies; what it does is a matter of the host. -/
structure Native where
  name : String
  arity : Arity
  deriving DecidableEq, Repr

/-- What can be called. Every callable has an identity of its own. -/
inductive Callable
  | script (identity : Nat) (closure : Closure)
  | native (identity : Nat) (function : Native)

namespace Callable

/-- The number that tells a callable from all others. -/
def identity : Callable → Nat
  | script identity _ => identity
  | native identity _ => identity

/-- How many arguments a callable takes. -/
def arity : Callable → Arity
  | script _ closure => .fixed closure.parameters.length
  | native _ function => function.arity

/-- A callable as text. -/
def text : Callable → String
  | script _ closure =>
    match closure.name with
    | some name => "<fn " ++ name ++ ">"
    | none => "<anon fn>"
  | native _ _ => "<native fn>"

/-- Callables are equal if they are the same one. -/
def equals : Callable → Callable → Bool
  | script i _, script j _ => i = j
  | native i _, native j _ => i = j
  | _, _ => false

end Callable

/-- The values of expressions. -/
inductive Value
  | null
  | bool (value : Bool)
  | int (value : Int64)
  | float (value : Float)
  | string (value : String)
  | callable (value : Callable)

instance : Inhabited Value := ⟨.null⟩

namespace Value

/-- The value that a literal writes down. -/
def ofLiteral : Literal → Value
  | .int n => int n
  | .float bits => float (Float.ofBits bits)
  | .bool b => bool b
  | .string s => string s
  | .null => null

/-- Null and false count as false, all else as true. -/
def isTruthy : Value → Bool
  | null => false
  | bool b => b
  | _ => true

/-- Whether the value is null. -/
def isNull : Value → Bool
  | null => true
  | _ => false

/-- The name of the type of a value. -/
def typeName : Value → String
  | null => "null"
  | bool _ => "bool"
  | int _ => "int"
  | float _ => "float"
  | string _ => "string"
  | callable _ => "function"

/-- The callable, if the value is one. -/
def callable? : Value → Option Callable
  | callable c => some c
  | _ => none

/-- Whether two values are equal. Values of two types never are, an integer and a float neither. -/
def equals : Value → Value → Bool
  | null, null => true
  | bool a, bool b => a == b
  | int a, int b => a == b
  | float a, float b => a == b
  | string a, string b => a == b
  | callable a, callable b => a.equals b
  | _, _ => false

/-- A value as text. -/
def text : Value → String
  | null => "null"
  | bool b => if b then "true" else "false"
  | int n => toString n.toInt
  | float x => Binary64.text x
  | string s => s
  | callable c => c.text

/-- A value as text, with quotes around a string. -/
def debugText : Value → String
  | string s => "\"" ++ s ++ "\""
  | v => v.text

end Value

end Scripting
