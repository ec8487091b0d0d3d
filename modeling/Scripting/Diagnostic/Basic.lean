import Scripting.Token.Basic

/-!
# Diagnostics

* `Phase` : where a fault was found;
* `Cause` : what is wrong, with its wording `Cause.message` and its phase `Cause.phase`;
* `Diagnostic` : a cause with its place in the source and notes;
* `Diagnostic.atToken` : a diagnostic that points at a token.
-/

namespace Scripting

set_option autoImplicit false

/-- Where a fault was found. -/
inductive Phase
  | lex | parse | runtime
  deriving DecidableEq, Repr

/-- The word for a phase. -/
def Phase.label : Phase → String
  | lex => "lex"
  | parse => "parse"
  | runtime => "runtime"

/-! ## Causes -/

/-- The faults of single words. -/
inductive LexFault
  | unexpectedCharacter | invalidNumber | unterminatedString
  deriving DecidableEq, Repr

/-- The faults in the arrangement of tokens. -/
inductive ParseFault
  | expectedExpression | expectedVariableName | expectedParameterName
  | expectedParenAfterFunctionName | expectedParenAfterFn | expectedParenAfterParameters
  | expectedBraceBeforeFunction | expectedBraceBeforeAnonymous | expectedBraceAfterBlock
  | expectedSemicolonAfterLet | expectedSemicolonAfterBreak | expectedSemicolonAfterContinue
  | expectedSemicolonAfterReturn | expectedSemicolonAfterExpression
  | expectedSemicolonAfterCondition
  | expectedParenAfterFor | expectedParenAfterClauses
  | expectedParenAfterIf | expectedParenAfterIfCondition
  | expectedParenAfterWhile | expectedParenAfterCondition
  | expectedParenAfterArguments | expectedParenAfterGroup
  | invalidAssignmentTarget | tooManyParameters | tooManyArguments | tooMuchNesting
  deriving DecidableEq, Repr

/-- The faults of a running program. -/
inductive RuntimeFault
  | undefinedVariable (name : String)
  | notCallable
  | wrongArgumentCount (expected : String) (given : Nat)
  | stackOverflow
  | operandNotNumber
  | operandsNotNumbers
  | operandsNotAddable
  | divisionByZero
  | strayBreak
  | strayContinue
  | strayReturn
  deriving DecidableEq, Repr

/-- What is wrong; `reported` is a fault that the embedding program words itself. -/
inductive Cause
  | lex (fault : LexFault)
  | parse (fault : ParseFault)
  | runtime (fault : RuntimeFault)
  | reported (phase : Phase) (text : String)
  deriving DecidableEq, Repr

/-- The wording of a fault of a single word. -/
def LexFault.message : LexFault → String
  | unexpectedCharacter => "Unexpected character."
  | invalidNumber => "Invalid number literal."
  | unterminatedString => "Unterminated string."

/-- The wording of a fault in the arrangement of tokens. -/
def ParseFault.message : ParseFault → String
  | expectedExpression => "Expected an expression."
  | expectedVariableName => "Expected variable name."
  | expectedParameterName => "Expected parameter name"
  | expectedParenAfterFunctionName => "Expected '(' after function name"
  | expectedParenAfterFn => "Expected '(' after 'fn' in anonymous function"
  | expectedParenAfterParameters => "Expected ')' after parameters"
  | expectedBraceBeforeFunction => "Expected '\x7b' before function body"
  | expectedBraceBeforeAnonymous => "Expected '\x7b' before anonymous function body"
  | expectedBraceAfterBlock => "Expected '\x7d' after block"
  | expectedSemicolonAfterLet => "Expected ';' after variable declaration"
  | expectedSemicolonAfterBreak => "Expected ';' after break"
  | expectedSemicolonAfterContinue => "Expected ';' after continue"
  | expectedSemicolonAfterReturn => "Expected ';' after return value"
  | expectedSemicolonAfterExpression => "Expected ';' after expression."
  | expectedSemicolonAfterCondition => "Expected ';' after loop condition"
  | expectedParenAfterFor => "Expected '(' after 'for'"
  | expectedParenAfterClauses => "Expect ')' at end of clauses"
  | expectedParenAfterIf => "Expected '(' after 'if'"
  | expectedParenAfterIfCondition => "Expected ')' after if condition"
  | expectedParenAfterWhile => "Expected '(' after 'while'"
  | expectedParenAfterCondition => "Expected ')' after the condition"
  | expectedParenAfterArguments => "Expect ')' after arguments."
  | expectedParenAfterGroup => "Expected ')' after expression."
  | invalidAssignmentTarget => "Invalid assignment target"
  | tooManyParameters => "Can't have more than 255 parameters"
  | tooManyArguments => "No more than 255 arguments allowed"
  | tooMuchNesting => "Too much nesting."

/-- The wording of a fault of a running program. -/
def RuntimeFault.message : RuntimeFault → String
  | undefinedVariable name => "Undefined variable '" ++ name ++ "'."
  | notCallable => "Can only call functions and classes."
  | wrongArgumentCount expected given =>
    "Expected " ++ expected ++ " arguments but got " ++ toString given ++ "."
  | stackOverflow => "Stack overflow."
  | operandNotNumber => "Operand must be a number."
  | operandsNotNumbers => "Operands must be a number."
  | operandsNotAddable => "Operands must be two numbers or strings."
  | divisionByZero => "Division by zero."
  | strayBreak => "Can't use 'break' outside of a loop."
  | strayContinue => "Can't use 'continue' outside of a loop."
  | strayReturn => "Can't return from top-level code."

namespace Cause

/-- The phase in which a fault is found. -/
def phase : Cause → Phase
  | lex _ => .lex
  | parse _ => .parse
  | runtime _ => .runtime
  | reported phase _ => phase

/-- The wording of a fault. -/
def message : Cause → String
  | lex fault => fault.message
  | parse fault => fault.message
  | runtime fault => fault.message
  | reported _ text => text

end Cause

/-! ## Diagnostics -/

/-- What a diagnostic points at. -/
inductive Location
  | ending
  | lexeme (text : String)
  deriving DecidableEq, Repr

namespace Location

/-- The location of a token. -/
def ofToken (t : Token) : Location :=
  if t.kind = .endOfInput then ending else lexeme t.lexeme

/-- The wording of a location. -/
def text : Location → String
  | ending => "at end"
  | lexeme text => "at '" ++ text ++ "'"

end Location

/-- A fault, where it is, and notes on it. -/
structure Diagnostic where
  cause : Cause
  span : Option Span := none
  line : Option Nat := none
  location : Option Location := none
  notes : List String := []
  deriving DecidableEq, Repr

namespace Diagnostic

/-- The phase in which the fault was found. -/
def phase (d : Diagnostic) : Phase := d.cause.phase

/-- The wording of the fault. -/
def message (d : Diagnostic) : String := d.cause.message

/-- The byte at which the fault starts. -/
def offset? (d : Diagnostic) : Option Nat := d.span.map Span.start

/-- The text of the token at which the fault is, unless that is the end. -/
def lexeme? (d : Diagnostic) : Option String :=
  match d.location with
  | some (.lexeme text) => some text
  | _ => none

/-- The same fault, pointing at a token. -/
def pointingAt (d : Diagnostic) (t : Token) : Diagnostic :=
  { d with span := some t.span, line := some t.line, location := some (.ofToken t) }

/-- The fault `cause` at the token `t`. -/
def atToken (cause : Cause) (t : Token) : Diagnostic :=
  ({ cause } : Diagnostic).pointingAt t

end Diagnostic

end Scripting
