import Scripting.Token.Basic

/-!
# Trees of programs

* `Expr`, `Stmt` : expressions and statements, each with its span;
* `UnaryOp`, `BinaryOp`, `LogicalOp` : the operators, with the kinds of their tokens;
* `Stmt.forLoop` : the statement that a loop with three clauses stands for.
-/

namespace Scripting

set_option autoImplicit false

/-! ## Operators -/

/-- The operators before an operand. -/
inductive UnaryOp
  | not | negate
  deriving DecidableEq, Repr

/-- The operators between two operands that are both evaluated. -/
inductive BinaryOp
  | add | subtract | multiply | divide
  | equal | notEqual | less | lessEqual | greater | greaterEqual
  deriving DecidableEq, Repr

/-- The operators whose second operand is evaluated only if the first one does not decide. -/
inductive LogicalOp
  | and | or
  deriving DecidableEq, Repr

/-- The operator that a token stands for in front of an operand. -/
def UnaryOp.ofKind? : Kind → Option UnaryOp
  | .bang => some not
  | .minus => some negate
  | _ => none

/-! ## Expressions and statements -/

mutual

/-- Expressions. Each keeps the token at which its faults are reported: the operator, the name, or
the parenthesis that closes the arguments. -/
inductive Expr
  | literal (span : Span) (value : Literal)
  | read (name : Token)
  | group (span : Span) (inner : Expr)
  | unary (span : Span) (op : UnaryOp) (mark : Token) (operand : Expr)
  | binary (span : Span) (op : BinaryOp) (mark : Token) (left right : Expr)
  | logical (span : Span) (op : LogicalOp) (mark : Token) (left right : Expr)
  | assign (span : Span) (name : Token) (value : Expr)
  | call (span : Span) (paren : Token) (callee : Expr) (arguments : List Expr)
  | function (span : Span) (parameters : List Token) (body : List Stmt)

/-- Statements. -/
inductive Stmt
  | block (span : Span) (body : List Stmt)
  | expression (span : Span) (value : Expr)
  | function (span : Span) (name : Token) (parameters : List Token) (body : List Stmt)
  | branch (span : Span) (condition : Expr) (whenTrue : Stmt) (whenFalse : Option Stmt)
  | loop (span : Span) (condition : Expr) (body : Stmt)
  | leave (span : Span) (keyword : Token) (value : Option Expr)
  | define (span : Span) (name : Token) (initial : Option Expr)
  | breakLoop (span : Span) (keyword : Token)
  | continueLoop (span : Span) (keyword : Token)

end

instance : Inhabited Expr := ⟨.literal ⟨0, 0⟩ .null⟩

instance : Inhabited Stmt := ⟨.block ⟨0, 0⟩ []⟩

/-- The part of the source that an expression was read from. -/
def Expr.span : Expr → Span
  | literal span _ => span
  | read name => name.span
  | group span _ => span
  | unary span _ _ _ => span
  | binary span _ _ _ _ => span
  | logical span _ _ _ _ => span
  | assign span _ _ => span
  | call span _ _ _ => span
  | function span _ _ => span

/-- The part of the source that a statement was read from. -/
def Stmt.span : Stmt → Span
  | block span _ => span
  | expression span _ => span
  | function span _ _ _ => span
  | branch span _ _ _ => span
  | loop span _ _ => span
  | leave span _ _ => span
  | define span _ _ => span
  | breakLoop span _ => span
  | continueLoop span _ => span

/-- The loop with an initial statement, a condition and a step, each of which may be missing. The
step is a second statement of the body, the initial statement and the loop share a block, and a
missing condition is true. -/
def Stmt.forLoop (span : Span) (keyword : Token) (initial : Option Stmt)
    (condition step : Option Expr) (body : Stmt) : Stmt :=
  let whole := match step with
    | some step => block span [body, expression step.span step]
    | none => body
  let turning := loop span (condition.getD (.literal keyword.span (.bool true))) whole
  match initial with
  | some initial => block span [initial, turning]
  | none => turning

end Scripting
