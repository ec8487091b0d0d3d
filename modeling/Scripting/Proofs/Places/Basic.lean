import Mathlib.Logic.Relation
import Scripting.Tree

/-!
# Places of a program

* `TextScope` : the parts of a text that have names of their own: blocks and functions;
* `Place` : the scopes around a part of a program from the inside out, each with the names declared
  in it before that part, and the names that are global there;
* `Site`, `Encloses` : a part of a program at its place, and the parts directly in it;
* `Part.Makes` : the parts that make functions;
* `Run`, `Run.Lies` : a program with the names that are global when it starts, and its sites.

A name counts as declared in the scope of the list that its declaration is an element of: the global
scope, a block, or a function with its parameters.
-/

namespace Scripting

set_option autoImplicit false

open Relation

/-! ## Names -/

/-- The name that a statement declares where it stands, if it declares one. -/
def Stmt.declared? : Stmt → Option String
  | define _ name _ => some name.lexeme
  | function _ name _ _ => some name.lexeme
  | _ => none

/-- The names that statements declare directly. -/
def declaredNames (ss : List Stmt) : List String := ss.filterMap Stmt.declared?

/-- A part of a text with names of its own. -/
inductive TextScope
  | block (body : List Stmt)
  | function (parameters : List Token) (body : List Stmt)

/-- The names declared directly in a scope. -/
def TextScope.names : TextScope → List String
  | block body => declaredNames body
  | function parameters body => parameters.map Token.lexeme ++ declaredNames body

/-- A scope around a part of a program, and the names declared in it before that part. -/
structure Enclosure where
  scope : TextScope
  earlier : List String

/-- The scopes around a part of a program, the innermost first, and the names that are global before
that part. -/
structure Place where
  enclosures : List Enclosure
  globals : List String

namespace Place

/-- The place at the top of a program. -/
def top (globals : List String) : Place := ⟨[], globals⟩

/-- The place behind the declaration of a name, if there is one. -/
def declare : Option String → Place → Place
  | none, Γ => Γ
  | some n, ⟨[], globals⟩ => ⟨[], n :: globals⟩
  | some n, ⟨⟨scope, earlier⟩ :: outer, globals⟩ => ⟨⟨scope, n :: earlier⟩ :: outer, globals⟩

/-- The place at the beginning of a scope, where some of its names are declared. -/
def enter (Γ : Place) (scope : TextScope) (earlier : List String) : Place :=
  ⟨⟨scope, earlier⟩ :: Γ.enclosures, Γ.globals⟩

/-- The names declared before a part of a program in the scopes around it. -/
def known (Γ : Place) : List String := Γ.enclosures.flatMap Enclosure.earlier ++ Γ.globals

end Place

/-! ## Parts of a program -/

/-- A part of a program: an expression, a statement, or the statements from one on. -/
inductive Part
  | expr (e : Expr)
  | stmt (s : Stmt)
  | stmts (ss : List Stmt)

/-- A part of a program at its place. -/
structure Site where
  place : Place
  part : Part

/-- The second part lies directly in the first one. -/
inductive Encloses : Site → Site → Prop
  | inner {Γ : Place} {span : Span} {inner : Expr} :
      Encloses ⟨Γ, .expr (.group span inner)⟩ ⟨Γ, .expr inner⟩
  | operand {Γ : Place} {span : Span} {op : UnaryOp} {mark : Token} {operand : Expr} :
      Encloses ⟨Γ, .expr (.unary span op mark operand)⟩ ⟨Γ, .expr operand⟩
  | left {Γ : Place} {span : Span} {op : BinaryOp} {mark : Token} {left right : Expr} :
      Encloses ⟨Γ, .expr (.binary span op mark left right)⟩ ⟨Γ, .expr left⟩
  | right {Γ : Place} {span : Span} {op : BinaryOp} {mark : Token} {left right : Expr} :
      Encloses ⟨Γ, .expr (.binary span op mark left right)⟩ ⟨Γ, .expr right⟩
  | first {Γ : Place} {span : Span} {op : LogicalOp} {mark : Token} {left right : Expr} :
      Encloses ⟨Γ, .expr (.logical span op mark left right)⟩ ⟨Γ, .expr left⟩
  | second {Γ : Place} {span : Span} {op : LogicalOp} {mark : Token} {left right : Expr} :
      Encloses ⟨Γ, .expr (.logical span op mark left right)⟩ ⟨Γ, .expr right⟩
  | assigned {Γ : Place} {span : Span} {name : Token} {value : Expr} :
      Encloses ⟨Γ, .expr (.assign span name value)⟩ ⟨Γ, .expr value⟩
  | callee {Γ : Place} {span : Span} {paren : Token} {callee : Expr} {arguments : List Expr} :
      Encloses ⟨Γ, .expr (.call span paren callee arguments)⟩ ⟨Γ, .expr callee⟩
  | argument {Γ : Place} {span : Span} {paren : Token} {callee e : Expr} {arguments : List Expr}
      (h : e ∈ arguments) :
      Encloses ⟨Γ, .expr (.call span paren callee arguments)⟩ ⟨Γ, .expr e⟩
  | anonymous {Γ : Place} {span : Span} {parameters : List Token} {body : List Stmt} :
      Encloses ⟨Γ, .expr (.function span parameters body)⟩
        ⟨Γ.enter (.function parameters body) (parameters.map Token.lexeme), .stmts body⟩
  | named {Γ : Place} {span : Span} {name : Token} {parameters : List Token} {body : List Stmt} :
      Encloses ⟨Γ, .stmt (.function span name parameters body)⟩
        ⟨(Γ.declare name.lexeme).enter (.function parameters body) (parameters.map Token.lexeme),
          .stmts body⟩
  | block {Γ : Place} {span : Span} {body : List Stmt} :
      Encloses ⟨Γ, .stmt (.block span body)⟩ ⟨Γ.enter (.block body) [], .stmts body⟩
  | expression {Γ : Place} {span : Span} {value : Expr} :
      Encloses ⟨Γ, .stmt (.expression span value)⟩ ⟨Γ, .expr value⟩
  | test {Γ : Place} {span : Span} {condition : Expr} {whenTrue : Stmt} {whenFalse : Option Stmt} :
      Encloses ⟨Γ, .stmt (.branch span condition whenTrue whenFalse)⟩ ⟨Γ, .expr condition⟩
  | whenTrue {Γ : Place} {span : Span} {condition : Expr} {whenTrue : Stmt}
      {whenFalse : Option Stmt} :
      Encloses ⟨Γ, .stmt (.branch span condition whenTrue whenFalse)⟩ ⟨Γ, .stmt whenTrue⟩
  | whenFalse {Γ : Place} {span : Span} {condition : Expr} {whenTrue whenFalse : Stmt} :
      Encloses ⟨Γ, .stmt (.branch span condition whenTrue (some whenFalse))⟩ ⟨Γ, .stmt whenFalse⟩
  | condition {Γ : Place} {span : Span} {condition : Expr} {body : Stmt} :
      Encloses ⟨Γ, .stmt (.loop span condition body)⟩ ⟨Γ, .expr condition⟩
  | turn {Γ : Place} {span : Span} {condition : Expr} {body : Stmt} :
      Encloses ⟨Γ, .stmt (.loop span condition body)⟩ ⟨Γ, .stmt body⟩
  | result {Γ : Place} {span : Span} {keyword : Token} {value : Expr} :
      Encloses ⟨Γ, .stmt (.leave span keyword (some value))⟩ ⟨Γ, .expr value⟩
  | initial {Γ : Place} {span : Span} {name : Token} {value : Expr} :
      Encloses ⟨Γ, .stmt (.define span name (some value))⟩ ⟨Γ, .expr value⟩
  | head {Γ : Place} {s : Stmt} {ss : List Stmt} :
      Encloses ⟨Γ, .stmts (s :: ss)⟩ ⟨Γ, .stmt s⟩
  | tail {Γ : Place} {s : Stmt} {ss : List Stmt} :
      Encloses ⟨Γ, .stmts (s :: ss)⟩ ⟨Γ.declare s.declared?, .stmts ss⟩

/-! ## Functions -/

/-- The part makes a function of the program, with or without a name. -/
inductive Part.Makes : Part → Option String → List Token → List Stmt → Prop
  | anonymous {span : Span} {parameters : List Token} {body : List Stmt} :
      Makes (expr (.function span parameters body)) none parameters body
  | named {span : Span} {name : Token} {parameters : List Token} {body : List Stmt} :
      Makes (stmt (.function span name parameters body)) (some name.lexeme) parameters body

theorem Part.Makes.encloses {part : Part} {name : Option String} {parameters : List Token}
    {body : List Stmt} (h : part.Makes name parameters body) (Γ : Place) :
    Encloses ⟨Γ, part⟩ ⟨(Γ.declare name).enter (.function parameters body)
      (parameters.map Token.lexeme), .stmts body⟩ := by
  cases h with
  | anonymous => exact .anonymous
  | named => exact .named

/-! ## Programs -/

/-- A program and the names that are global when it is run. -/
structure Run where
  globals : List String
  statements : List Stmt

/-- The site lies in the program. -/
def Run.Lies (r : Run) : Site → Prop := ReflTransGen Encloses ⟨.top r.globals, .stmts r.statements⟩

/-- The site lies in one of the programs. -/
def LiesIn (runs : List Run) (σ : Site) : Prop := ∃ r ∈ runs, r.Lies σ

theorem LiesIn.step {runs : List Run} {σ τ : Site} (h : LiesIn runs σ) (encloses : Encloses σ τ) :
    LiesIn runs τ := by
  obtain ⟨r, hr, hlies⟩ := h
  exact ⟨r, hr, hlies.tail encloses⟩

end Scripting
