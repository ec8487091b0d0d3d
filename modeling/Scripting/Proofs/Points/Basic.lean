import Scripting.Proofs.Machine.Equations

/-!
# Points of a run

* `Task`, `Point` : what is evaluated, with which fuel, and the machine when it starts;
* `Starts config p vs q` : evaluating `p` starts evaluating `q` as a part of it, and keeps the
  values `vs` in the meantime (`Starts.smaller`);
* `Reaches config p vs q` : parts of parts, and so on (`Reaches.head`);
* `Halts`, `HaltsIn`, `EndsIn`, `Passes` : the machines in which evaluations begin and end.

`Starts` has one constructor for each evaluation inside another. The values kept are operands and
functions whose other operands or arguments are still to be evaluated, and the functions called.
-/

namespace Scripting

set_option autoImplicit false

open Eval

/-- What is evaluated: an expression, expressions in order, a statement, statements in order, a loop
from a turn on that may turn `count` times, a call, or the statements of a program. -/
inductive Task
  | expr (e : Expr)
  | exprs (es : List Expr)
  | stmt (s : Stmt)
  | stmts (ss : List Stmt)
  | turns (count : Nat) (condition : Expr) (body : Stmt)
  | call (callee : Callable) (arguments : List Value)
  | program (ss : List Stmt)

/-- The values that a task is about: those of a call. -/
def Task.values : Task → List Value
  | call callee arguments => .callable callee :: arguments
  | _ => []

/-- The value that a statement leaves a function with. -/
def Flow.values : Flow → List Value
  | returning _ value => [value]
  | _ => []

/-- A point of a run: what is evaluated, the fuel for it, and the machine when it starts. -/
structure Point where
  task : Task
  fuel : Nat
  machine : Machine

variable (config : Config)

/-- Evaluating the first point starts evaluating the second, and keeps the values till it ends. -/
inductive Starts : Point → List Value → Point → Prop
  | group {span : Span} {inner : Expr} {n : Nat} {m : Machine} :
      Starts ⟨.expr (.group span inner), n + 1, m⟩ [] ⟨.expr inner, n, m⟩
  | operand {span : Span} {op : UnaryOp} {mark : Token} {operand : Expr} {n : Nat} {m : Machine} :
      Starts ⟨.expr (.unary span op mark operand), n + 1, m⟩ [] ⟨.expr operand, n, m⟩
  | left {span : Span} {op : BinaryOp} {mark : Token} {left right : Expr} {n : Nat} {m : Machine} :
      Starts ⟨.expr (.binary span op mark left right), n + 1, m⟩ [] ⟨.expr left, n, m⟩
  | right {span : Span} {op : BinaryOp} {mark : Token} {left right : Expr} {n : Nat}
      {m m' : Machine} {l : Value} (hleft : evaluate config n left m = .ok l m') :
      Starts ⟨.expr (.binary span op mark left right), n + 1, m⟩ [l] ⟨.expr right, n, m'⟩
  | first {span : Span} {op : LogicalOp} {mark : Token} {left right : Expr} {n : Nat}
      {m : Machine} :
      Starts ⟨.expr (.logical span op mark left right), n + 1, m⟩ [] ⟨.expr left, n, m⟩
  | second {span : Span} {op : LogicalOp} {mark : Token} {left right : Expr} {n : Nat}
      {m m' : Machine} {l : Value} (hleft : evaluate config n left m = .ok l m')
      (hopen : op.decides l = false) :
      Starts ⟨.expr (.logical span op mark left right), n + 1, m⟩ [] ⟨.expr right, n, m'⟩
  | assigned {span : Span} {name : Token} {value : Expr} {n : Nat} {m : Machine} :
      Starts ⟨.expr (.assign span name value), n + 1, m⟩ [] ⟨.expr value, n, m⟩
  | callee {span : Span} {paren : Token} {callee : Expr} {arguments : List Expr} {n : Nat}
      {m : Machine} :
      Starts ⟨.expr (.call span paren callee arguments), n + 1, m⟩ [] ⟨.expr callee, n, m⟩
  | arguments {span : Span} {paren : Token} {callee : Expr} {arguments : List Expr} {n : Nat}
      {m m' : Machine} {f : Value} (hcallee : evaluate config n callee m = .ok f m') :
      Starts ⟨.expr (.call span paren callee arguments), n + 1, m⟩ [f] ⟨.exprs arguments, n, m'⟩
  | call {span : Span} {paren : Token} {callee : Expr} {arguments : List Expr} {n : Nat}
      {m m₁ m₂ m₃ : Machine} {f : Value} {vs : List Value} {c : Callable}
      (hcallee : evaluate config n callee m = .ok f m₁)
      (harguments : arguments.mapM (evaluate config n) m₁ = .ok vs m₂)
      (hcheck : checkCall config paren f vs m₂ = .ok c m₃) :
      Starts ⟨.expr (.call span paren callee arguments), n + 1, m⟩ []
        ⟨.call c vs, n, { m₃ with callDepth := m₃.callDepth + 1 }⟩
  | firstOf {e : Expr} {es : List Expr} {n : Nat} {m : Machine} :
      Starts ⟨.exprs (e :: es), n, m⟩ [] ⟨.expr e, n, m⟩
  | othersOf {e : Expr} {es : List Expr} {n : Nat} {m m' : Machine} {v : Value}
      (hfirst : evaluate config n e m = .ok v m') :
      Starts ⟨.exprs (e :: es), n, m⟩ [v] ⟨.exprs es, n, m'⟩
  | block {span : Span} {body : List Stmt} {n : Nat} {m m' : Machine} {scope : Scope}
      (hscope : newScope m.scope .empty m = .ok scope m') :
      Starts ⟨.stmt (.block span body), n + 1, m⟩ [] ⟨.stmts body, n, { m' with scope }⟩
  | expression {span : Span} {value : Expr} {n : Nat} {m : Machine} :
      Starts ⟨.stmt (.expression span value), n + 1, m⟩ [] ⟨.expr value, n, m⟩
  | test {span : Span} {condition : Expr} {whenTrue : Stmt} {whenFalse : Option Stmt} {n : Nat}
      {m : Machine} :
      Starts ⟨.stmt (.branch span condition whenTrue whenFalse), n + 1, m⟩ []
        ⟨.expr condition, n, m⟩
  | whenTrue {span : Span} {condition : Expr} {whenTrue : Stmt} {whenFalse : Option Stmt} {n : Nat}
      {m m' : Machine} {v : Value} (htest : evaluate config n condition m = .ok v m')
      (hv : v.isTruthy = true) :
      Starts ⟨.stmt (.branch span condition whenTrue whenFalse), n + 1, m⟩ []
        ⟨.stmt whenTrue, n, m'⟩
  | whenFalse {span : Span} {condition : Expr} {whenTrue whenFalse : Stmt} {n : Nat}
      {m m' : Machine} {v : Value} (htest : evaluate config n condition m = .ok v m')
      (hv : v.isTruthy = false) :
      Starts ⟨.stmt (.branch span condition whenTrue (some whenFalse)), n + 1, m⟩ []
        ⟨.stmt whenFalse, n, m'⟩
  | loop {span : Span} {condition : Expr} {body : Stmt} {n : Nat} {m : Machine} :
      Starts ⟨.stmt (.loop span condition body), n + 1, m⟩ [] ⟨.turns n condition body, n, m⟩
  | turnTest {count : Nat} {condition : Expr} {body : Stmt} {n : Nat} {m : Machine} :
      Starts ⟨.turns (count + 1) condition body, n, m⟩ [] ⟨.expr condition, n, m⟩
  | turnBody {count : Nat} {condition : Expr} {body : Stmt} {n : Nat} {m m' : Machine} {v : Value}
      (htest : evaluate config n condition m = .ok v m') (hv : v.isTruthy = true) :
      Starts ⟨.turns (count + 1) condition body, n, m⟩ [] ⟨.stmt body, n, m'⟩
  | nextTurn {count : Nat} {condition : Expr} {body : Stmt} {n : Nat} {m m₁ m₂ : Machine}
      {v : Value} {flow : Flow} (htest : evaluate config n condition m = .ok v m₁)
      (hv : v.isTruthy = true) (hbody : execute config n body m₁ = .ok flow m₂)
      (hflow : flow = .normal ∨ ∃ keyword, flow = .continuing keyword) :
      Starts ⟨.turns (count + 1) condition body, n, m⟩ [] ⟨.turns count condition body, n, m₂⟩
  | result {span : Span} {keyword : Token} {value : Expr} {n : Nat} {m : Machine} :
      Starts ⟨.stmt (.leave span keyword (some value)), n + 1, m⟩ [] ⟨.expr value, n, m⟩
  | initial {span : Span} {name : Token} {value : Expr} {n : Nat} {m : Machine} :
      Starts ⟨.stmt (.define span name (some value)), n + 1, m⟩ [] ⟨.expr value, n, m⟩
  | firstIn {s : Stmt} {ss : List Stmt} {n : Nat} {m : Machine} :
      Starts ⟨.stmts (s :: ss), n, m⟩ [] ⟨.stmt s, n, m⟩
  | othersIn {s : Stmt} {ss : List Stmt} {n : Nat} {m m' : Machine}
      (hfirst : execute config n s m = .ok .normal m') :
      Starts ⟨.stmts (s :: ss), n, m⟩ [] ⟨.stmts ss, n, m'⟩
  | script {identity : Nat} {f : Closure} {vs : List Value} {n : Nat} {m m' : Machine}
      {scope : Scope} (hscope : enterCall config f vs m = .ok scope m') :
      Starts ⟨.call (.script identity f) vs, n + 1, m⟩ [.callable (.script identity f)]
        ⟨.stmts f.body, n, { m' with scope }⟩
  | hostCall {identity : Nat} {f : Native} {vs vs' : List Value} {c : Callable} {n : Nat}
      {m : Machine} (haction : config.host f vs = .call c vs') :
      Starts ⟨.call (.native identity f) vs, n + 1, m⟩ [] ⟨.call c vs', n, m⟩
  | firstRun {s : Stmt} {ss : List Stmt} {n : Nat} {m : Machine} :
      Starts ⟨.program (s :: ss), n, m⟩ [] ⟨.stmt s, n, m⟩
  | othersRun {s : Stmt} {ss : List Stmt} {n : Nat} {m m' : Machine}
      (hfirst : execute config n s m = .ok .normal m') :
      Starts ⟨.program (s :: ss), n, m⟩ [] ⟨.program ss, n, m'⟩

/-- Evaluating the first point comes to evaluating the second, and keeps the values till it ends. -/
inductive Reaches (p : Point) : List Value → Point → Prop
  | refl : Reaches p [] p
  | tail {q r : Point} {vs ws : List Value} (reaches : Reaches p vs q)
      (starts : Starts config q ws r) : Reaches p (ws ++ vs) r

variable {config} in
theorem Reaches.head {p q r : Point} {vs ws : List Value} (starts : Starts config p vs q)
    (reaches : Reaches config q ws r) : ∃ vs', Reaches config p vs' r := by
  induction reaches with
  | refl => exact ⟨_, .tail .refl starts⟩
  | tail _ starts' ih =>
    obtain ⟨vs', ih⟩ := ih
    exact ⟨_, .tail ih starts'⟩

/-! ## How evaluations end -/

/-- Evaluating a point halts in a machine. -/
def HaltsIn (p : Point) (h : Halt) (m' : Machine) : Prop :=
  match p.task with
  | .expr e => evaluate config p.fuel e p.machine = .error h m'
  | .exprs es => es.mapM (evaluate config p.fuel) p.machine = .error h m'
  | .stmt s => execute config p.fuel s p.machine = .error h m'
  | .stmts ss => runAll (execute config p.fuel) ss p.machine = .error h m'
  | .turns count condition body =>
    repeatWhile (evaluate config p.fuel condition) (execute config p.fuel body) count p.machine =
      .error h m'
  | .call c vs => invoke config p.fuel c vs p.machine = .error h m'
  | .program ss => runProgram config p.fuel ss p.machine = .error h m'

/-- Evaluating a point halts. -/
def Halts (p : Point) (h : Halt) : Prop := ∃ m', HaltsIn config p h m'

/-- Evaluating a point ends with values, in a machine. -/
def EndsIn (p : Point) (vs : List Value) (m' : Machine) : Prop :=
  match p.task with
  | .expr e => ∃ v, evaluate config p.fuel e p.machine = .ok v m' ∧ vs = [v]
  | .exprs es => es.mapM (evaluate config p.fuel) p.machine = .ok vs m'
  | .stmt s => ∃ flow, execute config p.fuel s p.machine = .ok flow m' ∧ vs = flow.values
  | .stmts ss =>
    ∃ flow, runAll (execute config p.fuel) ss p.machine = .ok flow m' ∧ vs = flow.values
  | .turns count condition body =>
    ∃ flow, repeatWhile (evaluate config p.fuel condition) (execute config p.fuel body) count
      p.machine = .ok flow m' ∧ vs = flow.values
  | .call c arguments => ∃ v, invoke config p.fuel c arguments p.machine = .ok v m' ∧ vs = [v]
  | .program ss => runProgram config p.fuel ss p.machine = .ok () m' ∧ vs = []

/-- The machines in which evaluating a point begins and ends, and the values that are passed to the
point or that it gives. -/
inductive Passes (p : Point) : List Value → Machine → Prop
  | start : Passes p p.task.values p.machine
  | ends {vs : List Value} {m' : Machine} (ends : EndsIn config p vs m') : Passes p vs m'
  | halts {h : Halt} {m' : Machine} (halts : HaltsIn config p h m') : Passes p [] m'

/-! ## Sizes -/

/-- How often a task starts parts with the same fuel, at most. -/
def Task.size : Task → Nat
  | expr _ | stmt _ | call _ _ => 0
  | exprs es => es.length + 1
  | stmts ss | program ss => ss.length + 1
  | turns count _ _ => count + 1

variable {config} in
/-- A part has less fuel, or it is a smaller task. -/
theorem Starts.smaller {p q : Point} {vs : List Value} (h : Starts config p vs q) :
    q.fuel < p.fuel ∨ q.fuel = p.fuel ∧ q.task.size < p.task.size := by
  cases h
  case firstOf | othersOf | turnTest | turnBody | nextTurn | firstIn | othersIn | firstRun |
      othersRun =>
    exact .inr ⟨rfl, by simp [Task.size]⟩
  all_goals exact .inl (Nat.lt_succ_self _)

end Scripting
