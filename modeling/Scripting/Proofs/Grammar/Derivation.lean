import Scripting.Parser.Grammar

/-!
# The grammar as a relation

* `Grammar.Declarations d ts p` : the tokens `ts` write the statements `p`, where `d` constructs are
  open around them; the other relations say the same of the other nonterminals;
* `Grammar.Statement dangling d ts s` : the flag tells whether the statement ends with a branch that
  has no second part, so that a following `else` would belong to it;
* `Grammar.Joined levels d ts e` : operands and operators, the loosest level first, each associating
  to the left.

The relations know nothing of reading: the tokens of a construct are those of its parts, one behind
the other. Expressions, statements, values assigned and operands of prefix operators count as
constructs that lie in others, and there may be `maxNesting` of them in each other.
-/

namespace Scripting.Grammar

set_option autoImplicit false

/-- Names separated by commas. -/
inductive Names : List Token → List Token → Prop
  | one {name : Token} (hname : name.kind = .identifier) : Names [name] [name]
  | more {name comma : Token} {ts names : List Token} (hname : name.kind = .identifier)
      (hcomma : comma.kind = .comma) (rest : Names ts names) :
      Names (name :: comma :: ts) (name :: names)

/-- The parameters of a function. -/
inductive Parameters : List Token → List Token → Prop
  | none : Parameters [] []
  | some {ts names : List Token} (names_ : Names ts names) (few : names.length ≤ maxItems) :
      Parameters ts names

mutual

/-- An expression. -/
inductive Expression : Nat → List Token → Expr → Prop
  | nest {d : Nat} {ts : List Token} {e : Expr} (room : d < maxNesting)
      (inside : Assignment (d + 1) ts e) : Expression d ts e

/-- An operand, or a name and the value assigned to it. -/
inductive Assignment : Nat → List Token → Expr → Prop
  | operand {d : Nat} {ts : List Token} {e : Expr} (whole : Operand d ts e) : Assignment d ts e
  | assign {d : Nat} {name mark : Token} {ts : List Token} {value : Expr}
      (hname : name.kind = .identifier) (hmark : mark.kind = .assign) (room : d < maxNesting)
      (right : Assignment (d + 1) ts value) :
      Assignment d (name :: mark :: ts) (.assign (name.span.through value.span) name value)

/-- A function without a name, or what has operators. -/
inductive Operand : Nat → List Token → Expr → Prop
  | function {d : Nat} {keyword closing : Token} {ts parameters : List Token} {body : List Stmt}
      (hkeyword : keyword.kind = .fnWord) (part : FunctionRest d ts parameters body closing) :
      Operand d (keyword :: ts) (.function (keyword.span.through closing.span) parameters body)
  | compound {d : Nat} {ts : List Token} {e : Expr} (whole : Compound d ts e) : Operand d ts e

/-- Operands and operators, or a name combined with a value and assigned again. -/
inductive Compound : Nat → List Token → Expr → Prop
  | joined {d : Nat} {ts : List Token} {e : Expr} (whole : Joined Joint.levels d ts e) :
      Compound d ts e
  | combine {d : Nat} {name mark : Token} {op : CompoundOp} {ts : List Token} {value : Expr}
      (hname : name.kind = .identifier) (hmark : CompoundOp.ofKind? mark.kind = some op)
      (room : d < maxNesting) (right : Compound (d + 1) ts value) :
      Compound d (name :: mark :: ts)
        (.assign (name.span.through value.span) name
          (.binary (name.span.through value.span) op.op (mark.standIn op.kind op.lexeme)
            (.read name) value))

/-- Operands and the operators between them, of the levels given and of no others. -/
inductive Joined : List (Kind → Option Joint) → Nat → List Token → Expr → Prop
  | unary {d : Nat} {ts : List Token} {e : Expr} (whole : Unary d ts e) : Joined [] d ts e
  | tighter {op? : Kind → Option Joint} {levels : List (Kind → Option Joint)} {d : Nat}
      {ts : List Token} {e : Expr} (whole : Joined levels d ts e) : Joined (op? :: levels) d ts e
  | join {op? : Kind → Option Joint} {levels : List (Kind → Option Joint)} {d : Nat}
      {ts us : List Token} {mark : Token} {joint : Joint} {l r : Expr}
      (left : Joined (op? :: levels) d ts l) (hmark : op? mark.kind = some joint)
      (right : Joined levels d us r) :
      Joined (op? :: levels) d (ts ++ mark :: us) (joint.join mark l r)

/-- An operand with the operators before it. -/
inductive Unary : Nat → List Token → Expr → Prop
  | operator {d : Nat} {mark : Token} {op : UnaryOp} {ts : List Token} {e : Expr}
      (hmark : UnaryOp.ofKind? mark.kind = some op) (room : d < maxNesting)
      (operand : Unary (d + 1) ts e) :
      Unary d (mark :: ts) (.unary (mark.span.through e.span) op mark e)
  | call {d : Nat} {ts : List Token} {e : Expr} (whole : Call d ts e) : Unary d ts e

/-- A primary expression and the calls behind it. -/
inductive Call : Nat → List Token → Expr → Prop
  | primary {d : Nat} {ts : List Token} {e : Expr} (whole : Primary d ts e) : Call d ts e
  | call {d : Nat} {ts us : List Token} {opening closing : Token} {callee : Expr}
      {arguments : List Expr} (left : Call d ts callee) (hopening : opening.kind = .leftParen)
      (right : Arguments d us arguments) (hclosing : closing.kind = .rightParen) :
      Call d (ts ++ opening :: us ++ [closing])
        (.call (callee.span.through closing.span) closing callee arguments)

/-- The arguments of a call. -/
inductive Arguments : Nat → List Token → List Expr → Prop
  | none {d : Nat} : Arguments d [] []
  | some {d : Nat} {ts : List Token} {arguments : List Expr} (values : Values d ts arguments)
      (few : arguments.length ≤ maxItems) : Arguments d ts arguments

/-- Expressions separated by commas. -/
inductive Values : Nat → List Token → List Expr → Prop
  | one {d : Nat} {ts : List Token} {e : Expr} (value : Expression d ts e) : Values d ts [e]
  | more {d : Nat} {ts us : List Token} {comma : Token} {e : Expr} {es : List Expr}
      (value : Expression d ts e) (hcomma : comma.kind = .comma) (rest : Values d us es) :
      Values d (ts ++ comma :: us) (e :: es)

/-- A literal, a name, or an expression in parentheses. -/
inductive Primary : Nat → List Token → Expr → Prop
  | literal {d : Nat} {t : Token} {value : Literal} (hvalue : t.value? = some value) :
      Primary d [t] (.literal t.span value)
  | name {d : Nat} {t : Token} (hname : t.kind = .identifier) : Primary d [t] (.read t)
  | group {d : Nat} {opening closing : Token} {ts : List Token} {e : Expr}
      (hopening : opening.kind = .leftParen) (inside : Expression d ts e)
      (hclosing : closing.kind = .rightParen) :
      Primary d (opening :: ts ++ [closing]) (.group (opening.span.through closing.span) e)

/-- The parameters and the body of a function; its last token is told apart. -/
inductive FunctionRest : Nat → List Token → List Token → List Stmt → Token → Prop
  | mk {d : Nat} {opening closing brace last : Token} {ts us parameters : List Token}
      {body : List Stmt} (hopening : opening.kind = .leftParen)
      (names : Parameters ts parameters) (hclosing : closing.kind = .rightParen)
      (hbrace : brace.kind = .leftBrace) (rest : BlockRest d us body last) :
      FunctionRest d (opening :: ts ++ closing :: brace :: us) parameters body last

/-- The declarations of a block and the brace that closes it, which is told apart. -/
inductive BlockRest : Nat → List Token → List Stmt → Token → Prop
  | mk {d : Nat} {ts : List Token} {body : List Stmt} {closing : Token}
      (inside : Declarations d ts body) (hclosing : closing.kind = .rightBrace) :
      BlockRest d (ts ++ [closing]) body closing

/-- Declarations, one behind the other. -/
inductive Declarations : Nat → List Token → List Stmt → Prop
  | nil {d : Nat} : Declarations d [] []
  | cons {d : Nat} {ts us : List Token} {s : Stmt} {rest : List Stmt}
      (first : Declaration d ts s) (others : Declarations d us rest) :
      Declarations d (ts ++ us) (s :: rest)

/-- A function with a name, a variable, or a statement. -/
inductive Declaration : Nat → List Token → Stmt → Prop
  | function {d : Nat} {keyword name closing : Token} {ts parameters : List Token}
      {body : List Stmt} (hkeyword : keyword.kind = .fnWord) (hname : name.kind = .identifier)
      (part : FunctionRest d ts parameters body closing) :
      Declaration d (keyword :: name :: ts)
        (.function (keyword.span.through closing.span) name parameters body)
  | define {d : Nat} {keyword : Token} {ts : List Token} {s : Stmt}
      (hkeyword : keyword.kind = .letWord) (rest : LetRest d keyword ts s) :
      Declaration d (keyword :: ts) s
  | statement {dangling : Bool} {d : Nat} {ts : List Token} {s : Stmt}
      (whole : Statement dangling d ts s) : Declaration d ts s

/-- A variable with its first value, behind the word that begins it. -/
inductive LetRest : Nat → Token → List Token → Stmt → Prop
  | bare {d : Nat} {keyword name closing : Token} (hname : name.kind = .identifier)
      (hclosing : closing.kind = .semicolon) :
      LetRest d keyword [name, closing] (.define (keyword.span.through closing.span) name none)
  | initial {d : Nat} {keyword name mark closing : Token} {ts : List Token} {e : Expr}
      (hname : name.kind = .identifier) (hmark : mark.kind = .assign) (value : Expression d ts e)
      (hclosing : closing.kind = .semicolon) :
      LetRest d keyword (name :: mark :: ts ++ [closing])
        (.define (keyword.span.through closing.span) name (some e))

/-- An expression and the semicolon behind it. -/
inductive ExpressionStatement : Nat → List Token → Stmt → Prop
  | mk {d : Nat} {ts : List Token} {e : Expr} {closing : Token} (value : Expression d ts e)
      (hclosing : closing.kind = .semicolon) :
      ExpressionStatement d (ts ++ [closing]) (.expression (e.span.through closing.span) e)

/-- A statement. -/
inductive Statement : Bool → Nat → List Token → Stmt → Prop
  | nest {dangling : Bool} {d : Nat} {ts : List Token} {s : Stmt} (room : d < maxNesting)
      (inside : StatementForm dangling (d + 1) ts s) : Statement dangling d ts s

/-- The forms of statements. -/
inductive StatementForm : Bool → Nat → List Token → Stmt → Prop
  | forLoop {dangling : Bool} {d : Nat} {keyword opening middle closing : Token}
      {ts us vs ws : List Token} {initial : Option Stmt} {condition step : Option Expr}
      {body : Stmt}
      (hkeyword : keyword.kind = .forWord) (hopening : opening.kind = .leftParen)
      (first : InitialClause d ts initial) (second : Clause d us condition)
      (hmiddle : middle.kind = .semicolon) (third : Clause d vs step)
      (hclosing : closing.kind = .rightParen) (inside : Statement dangling d ws body) :
      StatementForm dangling d (keyword :: opening :: ts ++ us ++ middle :: vs ++ closing :: ws)
        (.forLoop (keyword.span.through body.span) keyword initial condition step body)
  | branch {dangling : Bool} {d : Nat} {keyword opening closing : Token} {ts us : List Token}
      {condition : Expr} {whenTrue : Stmt} (hkeyword : keyword.kind = .ifWord)
      (hopening : opening.kind = .leftParen) (test : Expression d ts condition)
      (hclosing : closing.kind = .rightParen) (first : Statement dangling d us whenTrue) :
      StatementForm true d (keyword :: opening :: ts ++ closing :: us)
        (.branch (keyword.span.through whenTrue.span) condition whenTrue none)
  | branchElse {dangling : Bool} {d : Nat} {keyword opening closing middle : Token}
      {ts us vs : List Token} {condition : Expr} {whenTrue whenFalse : Stmt}
      (hkeyword : keyword.kind = .ifWord) (hopening : opening.kind = .leftParen)
      (test : Expression d ts condition) (hclosing : closing.kind = .rightParen)
      (first : Statement false d us whenTrue) (hmiddle : middle.kind = .elseWord)
      (second : Statement dangling d vs whenFalse) :
      StatementForm dangling d (keyword :: opening :: ts ++ closing :: us ++ middle :: vs)
        (.branch (keyword.span.through whenFalse.span) condition whenTrue (some whenFalse))
  | leave {d : Nat} {keyword closing : Token} {ts : List Token} {value : Option Expr}
      (hkeyword : keyword.kind = .returnWord) (result : Clause d ts value)
      (hclosing : closing.kind = .semicolon) :
      StatementForm false d (keyword :: ts ++ [closing])
        (.leave (keyword.span.through closing.span) keyword value)
  | loop {dangling : Bool} {d : Nat} {keyword opening closing : Token} {ts us : List Token}
      {condition : Expr} {body : Stmt} (hkeyword : keyword.kind = .whileWord)
      (hopening : opening.kind = .leftParen) (test : Expression d ts condition)
      (hclosing : closing.kind = .rightParen) (inside : Statement dangling d us body) :
      StatementForm dangling d (keyword :: opening :: ts ++ closing :: us)
        (.loop (keyword.span.through body.span) condition body)
  | breakLoop {d : Nat} {keyword closing : Token} (hkeyword : keyword.kind = .breakWord)
      (hclosing : closing.kind = .semicolon) :
      StatementForm false d [keyword, closing]
        (.breakLoop (keyword.span.through closing.span) keyword)
  | continueLoop {d : Nat} {keyword closing : Token} (hkeyword : keyword.kind = .continueWord)
      (hclosing : closing.kind = .semicolon) :
      StatementForm false d [keyword, closing]
        (.continueLoop (keyword.span.through closing.span) keyword)
  | block {d : Nat} {brace closing : Token} {ts : List Token} {body : List Stmt}
      (hbrace : brace.kind = .leftBrace) (rest : BlockRest d ts body closing) :
      StatementForm false d (brace :: ts) (.block (brace.span.through closing.span) body)
  | expression {d : Nat} {ts : List Token} {s : Stmt} (whole : ExpressionStatement d ts s) :
      StatementForm false d ts s

/-- The first clause of a loop with the semicolon that ends it. -/
inductive InitialClause : Nat → List Token → Option Stmt → Prop
  | none {d : Nat} {closing : Token} (hclosing : closing.kind = .semicolon) :
      InitialClause d [closing] none
  | define {d : Nat} {keyword : Token} {ts : List Token} {s : Stmt}
      (hkeyword : keyword.kind = .letWord) (rest : LetRest d keyword ts s) :
      InitialClause d (keyword :: ts) (some s)
  | expression {d : Nat} {ts : List Token} {s : Stmt} (whole : ExpressionStatement d ts s) :
      InitialClause d ts (some s)

/-- An expression that may be missing. -/
inductive Clause : Nat → List Token → Option Expr → Prop
  | none {d : Nat} : Clause d [] none
  | some {d : Nat} {ts : List Token} {e : Expr} (value : Expression d ts e) : Clause d ts (some e)

end

end Scripting.Grammar
