import Scripting.Parser.Basic
import Scripting.Tree

/-!
# The grammar

* `Rules` : the parsers that refer to each other;
* `Production` : each rule, given the parsers for the constructs that lie inside it;
* `Rules.level` : the rules for constructs that lie in each other, and repeat, up to a given number
  of times.

A production uses the rules that it is given only behind a token that it has taken, and repeats only
behind one. So a text of `n` tokens needs no more than level `n + 1`.
-/

namespace Scripting

set_option autoImplicit false

open Scripting.Parser

/-- The parsers that refer to each other, for constructs that repeat up to `bound` times. A
declaration is none if it was skipped for a fault. -/
structure Rules where
  bound : Nat
  expression : Parser Expr
  assignment : Parser Expr
  compound : Parser Expr
  unary : Parser Expr
  statement : Parser Stmt
  declaration : Parser (Option Stmt)

/-! ## Operators -/

/-- What an operator between two operands makes of them. -/
inductive Joint
  | binary (op : BinaryOp)
  | logical (op : LogicalOp)

/-- The expression of two operands and the operator between them. -/
def Joint.join (joint : Joint) (mark : Token) (left right : Expr) : Expr :=
  match joint with
  | binary op => .binary (left.span.through right.span) op mark left right
  | logical op => .logical (left.span.through right.span) op mark left right

namespace Joint

/-- Alternatives. -/
def or? : Kind → Option Joint
  | .or => some (logical .or)
  | _ => none

/-- Conjunctions. -/
def and? : Kind → Option Joint
  | .and => some (logical .and)
  | _ => none

/-- Equations. -/
def equality? : Kind → Option Joint
  | .bangEqual => some (binary .notEqual)
  | .equalEqual => some (binary .equal)
  | _ => none

/-- Orderings. -/
def comparison? : Kind → Option Joint
  | .greater => some (binary .greater)
  | .greaterEqual => some (binary .greaterEqual)
  | .less => some (binary .less)
  | .lessEqual => some (binary .lessEqual)
  | _ => none

/-- Sums. -/
def term? : Kind → Option Joint
  | .minus => some (binary .subtract)
  | .plus => some (binary .add)
  | _ => none

/-- Products. -/
def factor? : Kind → Option Joint
  | .slash => some (binary .divide)
  | .star => some (binary .multiply)
  | _ => none

/-- The levels of operators between operands, from the loosest to the tightest. -/
def levels : List (Kind → Option Joint) := [or?, and?, equality?, comparison?, term?, factor?]

end Joint

/-- An operator that also assigns: what it computes, and the kind and the text of that operator. -/
structure CompoundOp where
  op : BinaryOp
  kind : Kind
  lexeme : String

/-- The operator that a token stands for between a name and the value to combine it with. -/
def CompoundOp.ofKind? : Kind → Option CompoundOp
  | .plusEqual => some ⟨.add, .plus, "+"⟩
  | .minusEqual => some ⟨.subtract, .minus, "-"⟩
  | .starEqual => some ⟨.multiply, .star, "*"⟩
  | .slashEqual => some ⟨.divide, .slash, "/"⟩
  | _ => none

/-- The value that a token writes down, if it writes one. -/
def Token.value? (t : Token) : Option Literal :=
  match t.kind with
  | .falseWord => some (.bool false)
  | .trueWord => some (.bool true)
  | .nullWord => some .null
  | .int | .float | .string => t.literal
  | _ => none

/-! ## Productions -/

namespace Production

variable (inner : Rules)

/-- A function behind its name, or behind the word that begins it if it has none. -/
structure FunctionPart where
  parameters : List Token
  body : List Stmt
  closing : Token

/-- The declarations of a block and the brace that closes it. -/
def blockRest : Parser (List Stmt × Token) := do
  let body ← declarations inner.declaration true (inner.bound + 1)
  let closing ← consume .rightBrace .expectedBraceAfterBlock
  pure (body, closing)

/-- The parameters and the body of a function. -/
def functionRest (beforeParameters beforeBody : ParseFault) : Parser FunctionPart := do
  let _ ← consume .leftParen beforeParameters
  let parameters ←
    items (inner.bound + 1) (consume .identifier .expectedParameterName) .tooManyParameters
  let _ ← consume .rightParen .expectedParenAfterParameters
  let _ ← consume .leftBrace beforeBody
  let (body, closing) ← blockRest inner
  pure ⟨parameters, body, closing⟩

/-! ### Expressions -/

/-- A literal, a name, or an expression in parentheses. -/
def primary : Parser Expr := do
  let t ← peek
  match t.value? with
  | some value =>
    skip
    pure (.literal t.span value)
  | none =>
    match t.kind with
    | .identifier =>
      skip
      pure (.read t)
    | .leftParen =>
      skip
      let inside ← inner.expression
      let closing ← consume .rightParen .expectedParenAfterGroup
      pure (.group (t.span.through closing.span) inside)
    | _ => failAt .expectedExpression t

/-- The calls of `callee`, one behind the other. -/
def callFrom : (bound : Nat) → (callee : Expr) → Parser Expr
  | 0, callee => pure callee
  | bound + 1, callee => do
    match ← accept .leftParen with
    | some _ =>
      let arguments ← items (inner.bound + 1) inner.expression .tooManyArguments
      let closing ← consume .rightParen .expectedParenAfterArguments
      callFrom bound (.call (callee.span.through closing.span) closing callee arguments)
    | none => pure callee

/-- A primary expression and the calls behind it. -/
def call : Parser Expr := do
  let callee ← primary inner
  callFrom inner (inner.bound + 1) callee

/-- An operand with the operators before it. -/
def unary : Parser Expr := do
  match ← accept? UnaryOp.ofKind? with
  | some (op, mark) =>
    let operand ← nested inner.unary
    pure (.unary (mark.span.through operand.span) op mark operand)
  | none => call inner

/-- Operands and the operators between them. -/
def joined : Parser Expr :=
  let level (op? : Kind → Option Joint) (operand : Parser Expr) : Parser Expr :=
    chain (inner.bound + 1) op? Joint.join operand
  Joint.levels.foldr level (unary inner)

/-- Operands and operators, or a name combined with a value and assigned again. If anything but a
name is to be assigned, that is reported and the target stands for the whole. -/
def compound : Parser Expr := do
  let target ← joined inner
  match ← accept? CompoundOp.ofKind? with
  | none => pure target
  | some (compoundOp, mark) =>
    let value ← nested inner.compound
    match target with
    | .read name =>
      let span := name.span.through value.span
      let mark := mark.standIn compoundOp.kind compoundOp.lexeme
      pure (.assign span name (.binary span compoundOp.op mark target value))
    | _ =>
      reportAt .invalidAssignmentTarget mark
      pure target

/-- A function without a name, or what has operators. -/
def operand : Parser Expr := do
  match ← accept .fnWord with
  | some keyword =>
    let part ← functionRest inner .expectedParenAfterFn .expectedBraceBeforeAnonymous
    pure (.function (keyword.span.through part.closing.span) part.parameters part.body)
  | none => compound inner

/-- An operand, or a name and the value assigned to it. If anything but a name is to be assigned,
that is reported and the target stands for the whole. -/
def assignment : Parser Expr := do
  let target ← operand inner
  match ← accept .assign with
  | none => pure target
  | some mark =>
    let value ← nested inner.assignment
    match target with
    | .read name => pure (.assign (name.span.through value.span) name value)
    | _ =>
      reportAt .invalidAssignmentTarget mark
      pure target

/-- An expression. -/
def expression : Parser Expr := nested (assignment inner)

/-! ### Statements -/

/-- An expression and the semicolon behind it. -/
def expressionStatement : Parser Stmt := do
  let value ← expression inner
  let closing ← consume .semicolon .expectedSemicolonAfterExpression
  pure (.expression (value.span.through closing.span) value)

/-- A variable with its first value, behind the word that begins it. -/
def letRest (keyword : Token) : Parser Stmt := do
  let name ← consume .identifier .expectedVariableName
  let initial ← (do
    match ← accept .assign with
    | some _ =>
      let value ← inner.expression
      pure (some value)
    | none => pure none)
  let closing ← consume .semicolon .expectedSemicolonAfterLet
  pure (.define (keyword.span.through closing.span) name initial)

/-- An expression, unless the next token has the kind that ends the clause. -/
def clause (ending : Kind) : Parser (Option Expr) := do
  if (← peek).kind = ending then pure none
  else
    let value ← inner.expression
    pure (some value)

/-- The first clause of a loop with the semicolon that ends it. -/
def initialClause : Parser (Option Stmt) := do
  match ← accept .semicolon with
  | some _ => pure none
  | none =>
    match ← accept .letWord with
    | some keyword =>
      let initial ← letRest inner keyword
      pure (some initial)
    | none =>
      let initial ← expressionStatement inner
      pure (some initial)

/-- A loop with three clauses, behind the word that begins it. -/
def forRest (keyword : Token) : Parser Stmt := do
  let _ ← consume .leftParen .expectedParenAfterFor
  let initial ← initialClause inner
  let condition ← clause inner .semicolon
  let _ ← consume .semicolon .expectedSemicolonAfterCondition
  let step ← clause inner .rightParen
  let _ ← consume .rightParen .expectedParenAfterClauses
  let body ← inner.statement
  pure (.forLoop (keyword.span.through body.span) keyword initial condition step body)

/-- A branch, behind the word that begins it. -/
def ifRest (keyword : Token) : Parser Stmt := do
  let _ ← consume .leftParen .expectedParenAfterIf
  let condition ← inner.expression
  let _ ← consume .rightParen .expectedParenAfterIfCondition
  let whenTrue ← inner.statement
  match ← accept .elseWord with
  | some _ =>
    let whenFalse ← inner.statement
    pure (.branch (keyword.span.through whenFalse.span) condition whenTrue (some whenFalse))
  | none => pure (.branch (keyword.span.through whenTrue.span) condition whenTrue none)

/-- A loop with a condition, behind the word that begins it. -/
def whileRest (keyword : Token) : Parser Stmt := do
  let _ ← consume .leftParen .expectedParenAfterWhile
  let condition ← inner.expression
  let _ ← consume .rightParen .expectedParenAfterCondition
  let body ← inner.statement
  pure (.loop (keyword.span.through body.span) condition body)

/-- A way out of a function, behind the word that begins it. -/
def returnRest (keyword : Token) : Parser Stmt := do
  let value ← clause inner .semicolon
  let closing ← consume .semicolon .expectedSemicolonAfterReturn
  pure (.leave (keyword.span.through closing.span) keyword value)

/-- A statement. -/
def statement : Parser Stmt := nested do
  let t ← peek
  match t.kind with
  | .forWord =>
    skip
    forRest inner t
  | .ifWord =>
    skip
    ifRest inner t
  | .returnWord =>
    skip
    returnRest inner t
  | .whileWord =>
    skip
    whileRest inner t
  | .breakWord =>
    skip
    let closing ← consume .semicolon .expectedSemicolonAfterBreak
    pure (.breakLoop (t.span.through closing.span) t)
  | .continueWord =>
    skip
    let closing ← consume .semicolon .expectedSemicolonAfterContinue
    pure (.continueLoop (t.span.through closing.span) t)
  | .leftBrace =>
    skip
    let (body, closing) ← blockRest inner
    pure (.block (t.span.through closing.span) body)
  | _ => expressionStatement inner

/-- Takes the word that begins a function and its name, if both are next. -/
def functionStart? : Parser (Option (Token × Token)) := fun _ ts =>
  match ts with
  | keyword :: name :: rest =>
    if keyword.kind = .fnWord ∧ name.kind = .identifier then ⟨.ok (some (keyword, name)), rest, []⟩
    else ⟨.ok none, keyword :: name :: rest, []⟩
  | _ => ⟨.ok none, ts, []⟩

/-- A function with a name, a variable, or a statement. -/
def declarationForm : Parser Stmt := do
  match ← functionStart? with
  | some (keyword, name) =>
    let part ← functionRest inner .expectedParenAfterFunctionName .expectedBraceBeforeFunction
    pure (.function (keyword.span.through part.closing.span) name part.parameters part.body)
  | none =>
    match ← accept .letWord with
    | some keyword => letRest inner keyword
    | none => statement inner

/-- A declaration; behind a fault, reading goes on where the next statement may begin. -/
def declaration : Parser (Option Stmt) := recovering (declarationForm inner)

end Production

/-! ## Levels -/

namespace Rules

/-- No construct at all. -/
def ground : Rules where
  bound := 0
  expression := fail .expectedExpression
  assignment := fail .expectedExpression
  compound := fail .expectedExpression
  unary := fail .expectedExpression
  statement := fail .expectedExpression
  declaration := recovering (fail .expectedExpression)

/-- The rules for constructs whose inner ones are read by `inner`. -/
def next (inner : Rules) : Rules where
  bound := inner.bound + 1
  expression := Production.expression inner
  assignment := Production.assignment inner
  compound := Production.compound inner
  unary := Production.unary inner
  statement := Production.statement inner
  declaration := Production.declaration inner

/-- The rules for constructs that lie in each other, and repeat, up to `n` times. -/
def level (n : Nat) : Rules := Nat.repeat next n ground

@[simp] theorem level_zero : level 0 = ground := rfl

@[simp] theorem level_succ (n : Nat) : level (n + 1) = (level n).next := rfl

end Rules

end Scripting
