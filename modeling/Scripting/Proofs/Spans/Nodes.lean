import Scripting.Tree

/-!
# The nodes of trees

* `Node`, `Node.span`, `Node.parts` : expressions and statements, and those right inside of them;
* `Made p n` : `n` is no part of the text, but was made for the node `p` around it;
* `Occurs`, `Bare` : the nodes of a program, and those of them that lie in no construct that counts
  as nested;
* `Rooted` : nodes with a property, and nodes made of such.
-/

namespace Scripting

set_option autoImplicit false

/-- A node of a tree. -/
inductive Node
  | expr (e : Expr)
  | stmt (s : Stmt)

namespace Node

/-- The part of the source that a node was read from. -/
def span : Node → Span
  | expr e => e.span
  | stmt s => s.span

/-- The nodes right inside of another. -/
def parts : Node → List Node
  | expr (.literal ..) | expr (.read _) => []
  | expr (.group _ inner) => [expr inner]
  | expr (.unary _ _ _ operand) => [expr operand]
  | expr (.binary _ _ _ left right) | expr (.logical _ _ _ left right) => [expr left, expr right]
  | expr (.assign _ _ value) => [expr value]
  | expr (.call _ _ callee arguments) => expr callee :: arguments.map expr
  | expr (.function _ _ body) => body.map stmt
  | stmt (.block _ body) => body.map stmt
  | stmt (.expression _ value) => [expr value]
  | stmt (.function _ _ _ body) => body.map stmt
  | stmt (.branch _ condition whenTrue whenFalse) =>
    expr condition :: stmt whenTrue :: whenFalse.toList.map stmt
  | stmt (.loop _ condition body) => [expr condition, stmt body]
  | stmt (.leave _ _ value) => value.toList.map expr
  | stmt (.define _ _ initial) => initial.toList.map expr
  | stmt (.breakLoop ..) | stmt (.continueLoop ..) => []

end Node

/-! ## Nodes that are no part of the text -/

/-- The second node was made for the first one, right around it: the operation of an operator that
also assigns, or a part of a loop with three clauses. Such a node has the span of the node around
it, of the word that begins the loop or of the step, and so differs from those that are written. -/
inductive Made : Node → Node → Prop
  | combined {span : Span} {name mark : Token} {op : BinaryOp} {value : Expr} :
      Made (.expr (.assign span name (.binary span op mark (.read name) value)))
        (.expr (.binary span op mark (.read name) value))
  | always {span : Span} {stop : Nat} {body : Stmt} :
      Made (.stmt (.loop span (.literal ⟨span.start, stop⟩ (.bool true)) body))
        (.expr (.literal ⟨span.start, stop⟩ (.bool true)))
  | turning {span : Span} {initial : Stmt} {condition : Expr} {body : Stmt} :
      Made (.stmt (.block span [initial, .loop span condition body]))
        (.stmt (.loop span condition body))
  | turn {span : Span} {condition step : Expr} {body : Stmt} :
      Made (.stmt (.loop span condition (.block span [body, .expression step.span step])))
        (.stmt (.block span [body, .expression step.span step]))
  | step {span : Span} {step : Expr} {body : Stmt} :
      Made (.stmt (.block span [body, .expression step.span step]))
        (.stmt (.expression step.span step))

/-! ## The nodes of a program -/

variable (ss : List Stmt)

/-- The second node is one of the program, and the first one is right around it, if there is one. -/
inductive Occurs : Option Node → Node → Prop
  | top {s : Stmt} (h : s ∈ ss) : Occurs none (.stmt s)
  | inside {around : Option Node} {n m : Node} (h : Occurs around n) (hm : m ∈ n.parts) :
      Occurs (some n) m

/-- The node is a declaration of the program or of a function declared there, the first value of
such a variable, or an operand or the callee of a bare expression. -/
inductive Bare : Node → Prop
  | top {s : Stmt} (h : s ∈ ss) : Bare (.stmt s)
  | body {span : Span} {name : Token} {parameters : List Token} {body : List Stmt} {s : Stmt}
      (h : Bare (.stmt (.function span name parameters body))) (hs : s ∈ body) : Bare (.stmt s)
  | initial {span : Span} {name : Token} {value : Expr}
      (h : Bare (.stmt (.define span name (some value)))) : Bare (.expr value)
  | binary {span : Span} {op : BinaryOp} {mark : Token} {left right e : Expr}
      (h : Bare (.expr (.binary span op mark left right))) (he : e = left ∨ e = right) :
      Bare (.expr e)
  | logical {span : Span} {op : LogicalOp} {mark : Token} {left right e : Expr}
      (h : Bare (.expr (.logical span op mark left right))) (he : e = left ∨ e = right) :
      Bare (.expr e)
  | callee {span : Span} {paren : Token} {callee : Expr} {arguments : List Expr}
      (h : Bare (.expr (.call span paren callee arguments))) : Bare (.expr callee)

variable {ss}

/-- The node has the property, or it was made for the node around it and its parts are rooted. -/
inductive Rooted (P : Node → Prop) : Option Node → Node → Prop
  | holds {around : Option Node} {n : Node} (h : P n) : Rooted P around n
  | made {p n : Node} (h : Made p n) (hparts : ∀ m ∈ n.parts, Rooted P (some n) m) :
      Rooted P (some p) n

/-- What has to be shown of the nodes of a program is that those in a node with the property are
rooted. -/
theorem Occurs.rooted {P : Node → Prop} (htop : ∀ s ∈ ss, P (.stmt s))
    (hparts : ∀ n, P n → ∀ m ∈ n.parts, Rooted P (some n) m) {around : Option Node} {n : Node}
    (h : Occurs ss around n) : Rooted P around n := by
  induction h with
  | top hs => exact .holds (htop _ hs)
  | inside _ hm ih =>
    cases ih with
    | holds hn => exact hparts _ hn _ hm
    | made _ hinside => exact hinside _ hm

theorem Rooted.imp {P Q : Node → Prop} {around : Option Node} {n : Node} (h : Rooted P around n)
    (hPQ : ∀ n, P n → Q n) : Rooted Q around n := by
  induction h with
  | holds hn => exact .holds (hPQ _ hn)
  | made hm _ ih => exact .made hm ih

theorem Rooted.of_not_made {P : Node → Prop} {around : Option Node} {n : Node}
    (h : Rooted P around n) (hmade : ∀ p ∈ around, ¬ Made p n) : P n := by
  cases h with
  | holds hn => exact hn
  | made hm _ => exact absurd hm (hmade _ rfl)

end Scripting
